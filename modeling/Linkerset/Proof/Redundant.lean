import Linkerset.Proof.Calls
import Linkerset.Proof.Report

/-!
# Redundant imports

An import is redundant if its module is that of an earlier import in the same list, or
reachable from it: when the loop comes to it, it has been sorted, or a cycle was met
before.

* `sortImports_skip`: the loop does the same without it.
* `topologicalSortModule_dropImport`: so does every call, wherever the sort makes it.
* `topologicalSortModules_dropImport`: the sort ends in the same state.
-/

namespace Linkerset

open Linkerset.Graph

variable {M : Type*} [DecidableEq M]

/-- `IMPORT` without its use number `j`. -/
def ModuleInitInfo.dropImport (mip : ModuleInitInfo M) (j : ℕ) : ModuleInitInfo M :=
  { mip with imports := mip.imports.eraseIdx j }

/-- `P` without the import at position `j` of `m`. -/
def ModuleSet.dropImport (P : ModuleSet M) (m : M) (j : ℕ) : ModuleSet M :=
  { P with info := Function.update P.info m ((P.info m).dropImport j) }

/-- The module at position `j` of the imports of `m` is the one at an earlier position, or
reachable from it. -/
def ModuleSet.Redundant (P : ModuleSet M) (m : M) (j : ℕ) : Prop :=
  ∃ hj : j < (P.imports m).length, ∃ i, ∃ hi : i < j,
    Reach P.imports (P.imports m)[i] (P.imports m)[j]

section DropImport

variable {P : ModuleSet M} {m w : M} {j : ℕ}

theorem dropImport_imports_self : (P.dropImport m j).imports m = (P.imports m).eraseIdx j := by
  simp [ModuleSet.dropImport, ModuleInitInfo.dropImport, ModuleSet.imports]

theorem dropImport_imports_of_ne (h : w ≠ m) : (P.dropImport m j).imports w = P.imports w := by
  simp [ModuleSet.dropImport, ModuleSet.imports, h]

omit [DecidableEq M] in
/-- A redundant import splits the list it stands in. -/
theorem ModuleSet.Redundant.split (h : P.Redundant m j) :
    ∃ as x bs, P.imports m = as ++ x :: bs ∧ (P.imports m).eraseIdx j = as ++ bs ∧
      ∃ b ∈ as, Reach P.imports b x := by
  obtain ⟨hj, i, hi, hr⟩ := h
  refine ⟨(P.imports m).take j, (P.imports m)[j], (P.imports m).drop (j + 1), by simp,
    List.eraseIdx_eq_take_drop_succ _ _, (P.imports m)[i], ?_, hr⟩
  rw [List.mem_take_iff_getElem]
  exact ⟨i, by omega, rfl⟩

end DropImport

section Skip

variable {P : ModuleSet M} {depth : ℕ} {s s' : State M} {active done as bs ws : List M} {mip m x : M}

/-- A call that returns with `IR_SUCCESS` adds to what is sorted. -/
theorem Point.step (h : Point P s active done) (hc : ∀ i < P.linkerset.length, s.Covers i)
    (hrun : topologicalSortModule P depth s mip = .ok s') (hr : s'.handle.initState = .success) :
    ∃ done', Point P s' active done' ∧ (∀ i < P.linkerset.length, s'.Covers i) ∧ mip ∈ done' ∧
      ∀ x ∈ done, x ∈ done' := by
  obtain ⟨new, hv, hw, hp⟩ := h.call hc hrun (by rw [hr]; decide)
  have hg := visit_ok h.topo h.off hv
  refine ⟨done ++ new, hp, ?_, hg.covers mip (List.mem_singleton.2 rfl),
    fun x hx => List.mem_append_left _ hx⟩
  intro i hi
  exact State.covers_of_extent hw.extent (hc i hi)

/-- A call for a sorted module does nothing. -/
theorem Point.sorted_call (h : Point P s active done) (hx : x ∈ done) :
    topologicalSortModule P (depth + 1) s x = .ok s := by
  rw [topologicalSortModule, (h.marked.initialized x).2 hx]

/-- **The loop does the same without an import** that is sorted, or will be before the loop
comes to it. -/
theorem sortImports_skip : ∀ {as : List M} {s : State M} {done : List M}, Point P s active done →
    (∀ i < P.linkerset.length, s.Covers i) → (depth ≠ 0 ∧ x ∈ done ∨ ∃ b ∈ as, Reach P.imports b x) →
      sortImports (topologicalSortModule P depth) mip (as ++ x :: bs) s =
        sortImports (topologicalSortModule P depth) mip (as ++ bs) s := by
  intro as
  induction as with
  | nil =>
    intro s done h _ hx
    rcases hx with ⟨hdepth, hx⟩ | ⟨b, hb, -⟩
    · obtain ⟨depth', rfl⟩ := Nat.exists_eq_succ_of_ne_zero hdepth
      rw [List.nil_append, List.nil_append, sortImports, h.sorted_call hx]
      simp [bind, Except.bind, h.result]
    · cases hb
  | cons b as ih =>
    intro s done h hc hx
    rw [List.cons_append, List.cons_append, sortImports, sortImports]
    cases hrun : topologicalSortModule P depth s b with
    | error e => rfl
    | ok s₁ =>
      simp only [bind, Except.bind]
      cases hr : s₁.handle.initState with
      | cycle | failed | memory => rfl
      | success =>
        have hdepth : depth ≠ 0 := by rintro rfl; cases hrun
        obtain ⟨done', hp, hc', hb, hsub⟩ := h.step hc hrun hr
        apply ih hp hc'
        rcases hx with ⟨-, hx⟩ | ⟨b', hb', hreach⟩
        · exact Or.inl ⟨hdepth, hsub x hx⟩
        · rcases List.mem_cons.1 hb' with rfl | hb'
          · -- what is sorted is closed under imports
            exact Or.inl ⟨hdepth, hp.topo.reach_mem hb hreach⟩
          · exact Or.inr ⟨b', hb', hreach⟩

/-- A point of a search, with room in the table, and `rest` ahead of its innermost loop. -/
def Searching (P : ModuleSet M) (active rest : List M) (s : State M) : Prop :=
  (∃ done, Point P s active done) ∧ (∀ i < P.linkerset.length, s.Covers i) ∧ Ahead P active rest

theorem Searching.next {rest : List M} (h : Searching P active (w :: rest) s)
    (hrun : topologicalSortModule P depth s w = .ok s') (hr : s'.handle.initState = .success) :
    Searching P active rest s' := by
  obtain ⟨⟨done, hp⟩, hc, ha⟩ := h
  obtain ⟨done', hp', hc', -, -⟩ := hp.step hc hrun hr
  exact ⟨⟨done', hp'⟩, hc', ha.next⟩

theorem Searching.enter {rest : List M} (h : Searching P active (w :: rest) s)
    (hm : s.marks w = .uninitialized) :
    Searching P (w :: active) (P.imports w) (s.setMark w .initializing) := by
  obtain ⟨⟨done, hp⟩, hc, ha⟩ := h
  exact ⟨⟨done, hp.enter hm (ha w (List.mem_cons_self ..))⟩, hc, ha.enter⟩

/-- **Every call does the same without a redundant import.** -/
theorem topologicalSortModule_dropImport (hred : P.Redundant m j) : ∀ {depth : ℕ}
    {active rest : List M} {w : M} {s : State M}, Searching P active (w :: rest) s →
      topologicalSortModule (P.dropImport m j) depth s w = topologicalSortModule P depth s w := by
  intro depth
  induction depth with
  | zero => intro active rest w s _; rfl
  | succ depth ih =>
    intro active rest w s h
    have hloop : ∀ {ws : List M} {s₁ : State M}, Searching P (w :: active) ws s₁ →
        sortImports (topologicalSortModule (P.dropImport m j) depth) w ws s₁ =
          sortImports (topologicalSortModule P depth) w ws s₁ :=
      sortImports_congr ih fun h hrun hr => h.next hrun hr
    rw [topologicalSortModule, topologicalSortModule]
    cases hm : s.marks w with
    | initialized | initializing => rfl
    | uninitialized =>
      have h' := h.enter hm
      simp only
      by_cases hw : w = m
      · -- the loop of `m` has one import less
        subst hw
        obtain ⟨as, x, bs, himp, herase, hb⟩ := hred.split
        obtain ⟨⟨done, hp⟩, hc, ha⟩ := h'
        have hahead : Ahead P (w :: active) (as ++ bs) := by
          intro v hv
          apply ha v
          rw [← herase] at hv
          exact List.mem_of_mem_eraseIdx hv
        calc sortImports (topologicalSortModule (P.dropImport w j) depth) w
              ((P.dropImport w j).imports w) (s.setMark w .initializing)
            = sortImports (topologicalSortModule (P.dropImport w j) depth) w (as ++ bs)
                (s.setMark w .initializing) := by rw [dropImport_imports_self, herase]
          _ = sortImports (topologicalSortModule P depth) w (as ++ bs)
                (s.setMark w .initializing) := hloop ⟨⟨done, hp⟩, hc, hahead⟩
          _ = sortImports (topologicalSortModule P depth) w (as ++ x :: bs)
                (s.setMark w .initializing) := (sortImports_skip hp hc (Or.inr hb)).symm
          _ = sortImports (topologicalSortModule P depth) w (P.imports w)
                (s.setMark w .initializing) := by rw [himp]
      · have himp : (P.dropImport m j).imports w = P.imports w := dropImport_imports_of_ne hw
        calc sortImports (topologicalSortModule (P.dropImport m j) depth) w
              ((P.dropImport m j).imports w) (s.setMark w .initializing)
            = sortImports (topologicalSortModule (P.dropImport m j) depth) w (P.imports w)
                (s.setMark w .initializing) := by rw [himp]
          _ = sortImports (topologicalSortModule P depth) w (P.imports w)
                (s.setMark w .initializing) := hloop h'

/-- The loop over the linkerset does the same without a redundant import. -/
theorem sortLinkerset_dropImport (hred : P.Redundant m j) : ∀ {rest : List M} {s : State M},
    Searching P [] rest s → sortLinkerset (P.dropImport m j) rest s = sortLinkerset P rest s := by
  intro rest
  induction rest with
  | nil => intro s _; rfl
  | cons w rest ih =>
    intro s h
    have hdepth : (P.dropImport m j).depth = P.depth := rfl
    rw [sortLinkerset, sortLinkerset, hdepth, topologicalSortModule_dropImport hred h]
    cases hrun : topologicalSortModule P P.depth s w with
    | error e => rfl
    | ok s₁ =>
      simp only [bind, Except.bind]
      by_cases hr : s₁.handle.initState = .success
      · rw [ih (h.next hrun hr)]
      · rw [if_pos hr, if_pos hr]

end Skip

/-- In an allocated table the sort does the same without a redundant import. -/
theorem sort_dropImport {P : ModuleSet M} {a : Alloc} {m : M} {j : ℕ} (ha : a ≠ .null)
    (hred : P.Redundant m j) (ih : Handle M) :
    topologicalSortModules (P.dropImport m j) ((P.dropImport m j).fresh a ih) =
      topologicalSortModules P (P.fresh a ih) := by
  have hstart : Searching P [] P.linkerset (P.fresh a ih) :=
    ⟨⟨[], fresh_point P a ih⟩, fun i hi => fresh_covers ha hi, fun w _ => List.isChain_singleton w⟩
  exact sortLinkerset_dropImport hred hstart

/-- **Redundant imports do not matter**: with and without one, the sort ends in the same
state, with the same result, table and marks. -/
theorem topologicalSortModules_dropImport {P : ModuleSet M} {m : M} {j : ℕ}
    (hred : P.Redundant m j) (ih : Handle M) :
    ∃ s, topologicalSortModules P (P.fresh .unbounded ih) = .ok s ∧
      topologicalSortModules (P.dropImport m j) ((P.dropImport m j).fresh .unbounded ih) = .ok s := by
  obtain ⟨s, hrun⟩ := sort_unbounded_ok P ih
  have hdrop := sort_dropImport (a := .unbounded) (by decide) hred ih
  exact ⟨s, hrun, hdrop.trans hrun⟩

/-- The program `example`, in which `mod_c` lists its imports in the other order: `mod_a`,
and `mod_b`, which `mod_a` imports. -/
def relistedProgram : ModuleSet ExampleModule :=
  { exampleProgram fun _ => 0 with info := fun
    | .modA => ⟨"mod_a", [.modB], some fun _ => 0, some fun _ => 0⟩
    | .modB => ⟨"mod_b", [], some fun _ => 0, some fun _ => 0⟩
    | .modC => ⟨"mod_c", [.modA, .modB], some fun _ => 0, some fun _ => 0⟩ }

theorem relistedProgram_redundant : relistedProgram.Redundant .modC 1 := by
  have hedge : Edge relistedProgram.imports .modA .modB := List.mem_singleton.2 rfl
  exact ⟨by decide, 0, by decide, .single hedge⟩

theorem topologicalSortModules_dropImport_example :
    ∃ s, topologicalSortModules relistedProgram (relistedProgram.fresh .unbounded default) = .ok s ∧
      topologicalSortModules (relistedProgram.dropImport .modC 1)
        ((relistedProgram.dropImport .modC 1).fresh .unbounded default) = .ok s :=
  topologicalSortModules_dropImport relistedProgram_redundant default

end Linkerset
