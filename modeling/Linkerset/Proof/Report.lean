import Linkerset.Proof.Sort

/-!
# The report of a cycle

What `topological_sort_modules` leaves with `IR_CYCLE`, in a table without end.

* `report_marks`: the modules marked `IS_INITIALIZING` are those of the report, and
  nothing that is marked `IS_INITIALIZED` reaches a cycle.
* `report_on_cycle_iff`: the report goes down to the linkerset element that was
  processed, so its modules all lie on cycles only if that one does, and all that
  the sort has passed through from there.
-/

namespace Linkerset

open Linkerset.Graph

variable {M : Type*} [DecidableEq M] {P : ModuleSet M}

/-- In a table without end, the report is the whole cyclic walk. -/
theorem sort_unbounded (hcyc : P.Cyclic) (ih : Handle M) :
    ∃ s' x q d₀ B, topologicalSortModules P (P.fresh .unbounded ih) = .ok s' ∧
      CyclicWalk P.imports P.linkerset x q ∧ Topo P.imports d₀ ∧ s'.Marked q d₀ ∧
      Wrote (P.fresh .unbounded ih) s' B .cycle ((x :: q).map some) := by
  obtain ⟨x, q, d₀, hwalk, htopo, -, hu, as, r, bs, -, hls, -⟩ :=
    sort_cyclic (a := .unbounded) (by decide) hcyc ih
  have hne : P.linkerset ≠ [] := by rw [hls]; simp
  generalize topologicalSortModules P (P.fresh .unbounded ih) = res at hu
  cases hu with
  | inside _ hw hm => exact ⟨_, x, q, d₀, _, rfl, hwalk, htopo, hm, hw⟩
  | outside _ hc _ _ => exact absurd (fresh_unbounded_covers hne _) hc

/-- In a table without end the sort returns. -/
theorem sort_unbounded_ok (P : ModuleSet M) (ih : Handle M) :
    ∃ s', topologicalSortModules P (P.fresh .unbounded ih) = .ok s' := by
  by_cases hcyc : P.Cyclic
  · obtain ⟨s', x, q, d₀, B, hrun, -⟩ := sort_unbounded hcyc ih
    exact ⟨s', hrun⟩
  · obtain ⟨s', ord, -, hrun, -⟩ := sort_acyclic (a := .unbounded) (by decide) hcyc ih
    exact ⟨s', hrun⟩

omit [DecidableEq M] in
/-- The modules of a report, which lists the repeated one twice. -/
theorem mem_report_iff {x m : M} {q : List M} (h : CyclicWalk P.imports P.linkerset x q) :
    m ∈ x :: q ↔ m ∈ q := by
  rw [List.mem_cons]
  refine ⟨?_, Or.inr⟩
  rintro (rfl | hm)
  · exact h.closes
  · exact hm

/-- **The marks that a cycle leaves behind are exact.** -/
theorem report_marks (hcyc : P.Cyclic) (ih : Handle M) :
    ∃ (s' : State M) (rep : List M), topologicalSortModules P (P.fresh .unbounded ih) = .ok s' ∧
      s'.handle.initState = .cycle ∧ s'.handle.tableIndex = rep.length ∧ s'.entries = rep.map some ∧
      (∀ m, s'.marks m = .initializing ↔ m ∈ rep) ∧
      ∀ m, s'.marks m = .initialized → ¬ P.Imports m m ∧
        ∀ i, P.Imports m i → s'.marks i = .initialized ∧ ¬ P.Imports i i := by
  obtain ⟨s', x, q, d₀, B, hrun, hwalk, htopo, hmarked, hw⟩ := sort_unbounded hcyc ih
  refine ⟨s', x :: q, hrun, hw.result, by rw [hw.index, List.length_map], hw.entries, ?_, ?_⟩
  · intro m
    rw [hmarked.initializing, mem_report_iff hwalk]
  · intro m hm
    have hmd : m ∈ d₀ := (hmarked.initialized m).1 hm
    refine ⟨htopo.not_onCycle hmd, fun i hi => ?_⟩
    -- a topological list is closed under imports
    have hid : i ∈ d₀ := htopo.reach_mem hmd hi.to_reflTransGen
    exact ⟨(hmarked.initialized i).2 hid, htopo.not_onCycle hid⟩

/-- A module that imports one that imports itself. -/
inductive ImporterModule where
  | importer
  | cyclic
  deriving DecidableEq, Repr

/-- The importer is linked first. -/
def importerProgram : ModuleSet ImporterModule where
  info
    | .importer => ⟨"mod_importer", [.cyclic], none, none⟩
    | .cyclic => ⟨"mod_cyclic", [.cyclic], none, none⟩
  linkerset := [.importer, .cyclic]
  nodup := by decide
  complete := by intro m; cases m <;> decide
  fits := by decide

theorem importerProgram_cyclic : importerProgram.Cyclic :=
  ⟨.cyclic, .single (List.mem_singleton.2 rfl)⟩

theorem report_marks_example : ∃ (s' : State ImporterModule) (rep : List ImporterModule),
    topologicalSortModules importerProgram (importerProgram.fresh .unbounded default) = .ok s' ∧
      s'.handle.initState = .cycle ∧ s'.handle.tableIndex = rep.length ∧ s'.entries = rep.map some ∧
      (∀ m, s'.marks m = .initializing ↔ m ∈ rep) ∧
      ∀ m, s'.marks m = .initialized → ¬ importerProgram.Imports m m ∧
        ∀ i, importerProgram.Imports m i →
          s'.marks i = .initialized ∧ ¬ importerProgram.Imports i i :=
  report_marks importerProgram_cyclic default

/-- **The report lists modules on cycles only** exactly when the first element of the
linkerset that reaches a cycle lies on one, and every module found from there along
first imports that reach a cycle does. -/
theorem report_on_cycle_iff (hcyc : P.Cyclic) (ih : Handle M) :
    ∃ (s' : State M) (rep : List M), topologicalSortModules P (P.fresh .unbounded ih) = .ok s' ∧
      s'.handle.initState = .cycle ∧ s'.handle.tableIndex = rep.length ∧ s'.entries = rep.map some ∧
      ((∀ m ∈ rep, P.Imports m m) ↔
        ∀ r, FirstIn (Doomed P.imports) P.linkerset r →
          ∀ m, Relation.ReflTransGen (fun b a => FirstDoomed P.imports a b) r m → P.Imports m m) := by
  obtain ⟨s', x, q, d₀, B, hrun, hwalk, -, -, hw⟩ := sort_unbounded hcyc ih
  refine ⟨s', x :: q, hrun, hw.result, by rw [hw.index, List.length_map], hw.entries, ?_, ?_⟩
  · intro h r hr m hm
    exact h m ((mem_report_iff hwalk).2 ((hwalk.mem_iff hr).2 hm))
  · intro h m hm
    obtain ⟨r, -, hr⟩ := hwalk.root
    exact h r hr m ((hwalk.mem_iff hr).1 ((mem_report_iff hwalk).1 hm))

theorem report_on_cycle_iff_example : ∃ (s' : State ImporterModule) (rep : List ImporterModule),
    topologicalSortModules importerProgram (importerProgram.fresh .unbounded default) = .ok s' ∧
      s'.handle.initState = .cycle ∧ s'.handle.tableIndex = rep.length ∧ s'.entries = rep.map some ∧
      ((∀ m ∈ rep, importerProgram.Imports m m) ↔
        ∀ r, FirstIn (Doomed importerProgram.imports) importerProgram.linkerset r →
          ∀ m, Relation.ReflTransGen (fun b a => FirstDoomed importerProgram.imports a b) r m →
            importerProgram.Imports m m) :=
  report_on_cycle_iff importerProgram_cyclic default

/-- The importer is reported, but no import leads back to it. -/
theorem importerProgram_reported : importerProgram.Cyclic ∧
    ∃ s', topologicalSortModules importerProgram (importerProgram.fresh .unbounded default) = .ok s' ∧
      s'.handle.initState = .cycle ∧
      s'.entries = [some .cyclic, some .cyclic, some .importer] ∧
      ¬ importerProgram.Imports .importer .importer := by
  refine ⟨importerProgram_cyclic, _, rfl, rfl, rfl, ?_⟩
  intro h
  -- whatever is imported is the other module
  obtain ⟨m, -, hm⟩ := Relation.TransGen.tail'_iff.1 h
  cases m <;> simp [Edge, importerProgram, ModuleSet.imports] at hm

end Linkerset
