import Linkerset.Proof.InitCalls

/-!
# `module_initialization` after a cycle report

`module_initialization` does not look at the result of the sort. After `IR_CYCLE`
its loop runs over the report, calls the init functions of the modules there, and
goes on to the entries behind it.

* `initializeTable_stops`: a loop that ends has failed, or has used up the table.
* `refuses_cycle_iff`: the run refuses the cycle exactly when the report happens to
  fill the table and none of its modules has an init function.
-/

namespace Linkerset

open Linkerset.Graph

variable {M : Type*}

variable [DecidableEq M] {P : ModuleSet M} {ih : Handle M}

/-- **A loop that ends** leaves the table as it is, and has failed or used it up. -/
theorem initializeTable_stops : ∀ {n : ℕ} {s s' : State M}, initializeTable P n s = .ok s' →
    s'.handle.table = s.handle.table ∧ s'.handle.tableSize = s.handle.tableSize ∧
      (s'.handle.initState = .failed ∨ s'.handle.tableIndex = s'.handle.tableSize) := by
  intro n
  induction n with
  | zero => intro s s' h; cases h
  | succ n ih =>
    intro s s' h
    by_cases hlt : s.handle.tableIndex < s.handle.tableSize
    · cases hl : s.load s.handle.tableIndex with
      | error e =>
        rw [initializeTable, if_pos hlt, hl] at h
        cases h
      | ok x =>
        obtain ⟨m, s₁⟩ := x
        rw [State.load_eq_ok hl] at hl
        rw [initializeTable_step hlt hl] at h
        split at h
        · obtain ⟨ht, hs, hx⟩ := ih h
          exact ⟨ht, hs, hx⟩
        · split at h
          · obtain ⟨ht, hs, hx⟩ := ih h
            exact ⟨ht, hs, hx⟩
          · cases h; exact ⟨rfl, rfl, Or.inl rfl⟩
    · rw [initializeTable, if_neg hlt] at h
      split at h
      · cases h; exact ⟨rfl, rfl, Or.inr ‹_›⟩
      · cases h

/-- **The cycle is refused**: nothing is called, and the result and the report of
the sort are returned. -/
def ModuleSet.RefusesCycle (P : ModuleSet M) (ih : Handle M) : Prop :=
  ∃ s₁ s', topologicalSortModules P (P.fresh .exact ih) = .ok s₁ ∧
    moduleInitialization P .exact (State.boot ih) = .ok s' ∧ initCalls s'.trace = [] ∧
    s'.handle.initState = .cycle ∧ s'.handle.tableIndex = s₁.handle.tableIndex ∧
    s'.entries = s₁.entries

/-- Where its stores fit, the sort ends with the report in the table. -/
theorem sort_report (hcyc : P.Cyclic)
    (hin : ∀ i m, .store i m ∈ (topologicalSortModules P (P.fresh .exact ih)).state.trace →
      i < P.linkerset.length) :
    ∃ s₁ x q, CyclicWalk P.imports P.linkerset x q ∧
      topologicalSortModules P (P.fresh .exact ih) = .ok s₁ ∧
      q.length + 1 ≤ P.linkerset.length ∧
      Wrote (P.fresh .exact ih) s₁ P.linkerset.length .cycle ((x :: q).map some) := by
  obtain ⟨x, q, d₀, hwalk, -, -, hu, -⟩ := sort_cyclic (a := .exact) (by decide) hcyc ih
  generalize topologicalSortModules P (P.fresh .exact ih) = res at hu hin
  cases hu with
  | inside hc hw _ =>
    have hq : q.length < P.linkerset.length := fresh_exact_covers (hc q.length (by simp))
    exact ⟨_, x, q, hwalk, rfl, hq, hw.mono (max_le le_rfl (by rw [List.length_cons]; exact hq))⟩
  | outside _ hc _ ht => exact absurd (fresh_covers (by decide) (hin _ _ ht)) hc

section Report

variable {s₁ : State M} {x : M} {q : List M} {B : ℕ}

/-- A cycle that is refused has a report that fills the table. -/
theorem ModuleSet.RefusesCycle.fills (h : P.RefusesCycle ih) (hne : P.linkerset ≠ [])
    (hsort : topologicalSortModules P (P.fresh .exact ih) = .ok s₁)
    (hw : Wrote (P.fresh .exact ih) s₁ B .cycle ((x :: q).map some)) :
    (x :: q).length = P.linkerset.length := by
  obtain ⟨s₂, s', hsort', hrun, -, hres, hindex, -⟩ := h
  obtain rfl : s₁ = s₂ := Except.ok.inj (hsort.symm.trans hsort')
  rw [moduleInitialization_eq (by decide) hne, hsort] at hrun
  obtain ⟨-, hsize, hend⟩ := initializeTable_stops hrun
  -- the loop has not failed, so it has gone through the whole table
  have hused := hend.resolve_left (by rw [hres]; decide)
  have hidx : s₁.handle.tableIndex = (x :: q).length := by rw [hw.index, List.length_map]
  rw [hindex, hidx, hsize] at hused
  exact hused.trans hw.size

/-- The modules of a report that fills the table all have their turn. -/
theorem ModuleSet.RefusesCycle.null (h : P.RefusesCycle ih) (hne : P.linkerset ≠ [])
    (hlen : (x :: q).length = P.linkerset.length)
    (hsort : topologicalSortModules P (P.fresh .exact ih) = .ok s₁)
    (hw : Wrote (P.fresh .exact ih) s₁ B .cycle ((x :: q).map some)) :
    ∀ m ∈ x :: q, P.initFn m = none := by
  obtain ⟨-, s₂, -, hrun, hcalls, -⟩ := h
  obtain ⟨s', T, ev, hrun', -, hturns, hinits, -⟩ := moduleInitialization_run hlen hne hsort hw
  obtain rfl : s₂ = s' := Except.ok.inj (hrun.symm.trans hrun')
  rw [initCalls, hinits] at hcalls
  have hpass : ∀ y ∈ T, Passed y.2 := passed_of_called (by rw [hcalls]; simp)
  intro m hm
  by_contra hf
  have hmem : m ∈ (called T).map Prod.fst :=
    (mem_called_map hturns).2 ⟨by rw [hturns.complete hpass]; exact hm, hf⟩
  rw [hcalls] at hmem
  cases hmem

/-- Without functions, the loop passes over the report and changes nothing of it. -/
theorem refusesCycle_of_null (hne : P.linkerset ≠ [])
    (hlen : (x :: q).length = P.linkerset.length)
    (hsort : topologicalSortModules P (P.fresh .exact ih) = .ok s₁)
    (hw : Wrote (P.fresh .exact ih) s₁ B .cycle ((x :: q).map some))
    (hnull : ∀ m ∈ x :: q, P.initFn m = none) : P.RefusesCycle ih := by
  obtain ⟨s', T, ev, hrun, hR, hturns, hinits, -⟩ := moduleInitialization_run hlen hne hsort hw
  have hT : ∀ y ∈ T, y.2 = none := by
    intro y hy
    have hyl : y.1 ∈ x :: q := hturns.front.subset (List.mem_map.2 ⟨y, hy, rfl⟩)
    exact (hturns.null_iff y hy).2 (hnull y.1 hyl)
  have hcalls : called T = [] :=
    List.filterMap_eq_nil_iff.2 fun y hy => by rw [hT y hy]; rfl
  refine ⟨s₁, s', hsort, hrun, by rw [initCalls, hinits, hcalls], ?_⟩
  obtain ⟨hpass, hres, hx, -⟩ | ⟨-, -, -, -, -⟩ := hR.ends
  · have hindex : s'.handle.tableIndex = s₁.handle.tableIndex := by
      have hTlen := congrArg List.length (hturns.complete hpass)
      rw [List.length_map] at hTlen
      rw [hx, hTlen, hw.index, List.length_map, Nat.zero_add]
    refine ⟨hres.trans hw.result, hindex, ?_⟩
    unfold State.entries
    rw [hR.table, hindex]; rfl
  · have hlast := hT _ (List.mem_append_right _ (List.mem_singleton.2 rfl))
    cases hlast

end Report

/-- **A cycle is refused** exactly when the report fills the table and none of its
modules has an init function. -/
theorem refuses_cycle_iff (hcyc : P.Cyclic)
    (hin : ∀ i m, .store i m ∈ (topologicalSortModules P (P.fresh .exact ih)).state.trace →
      i < P.linkerset.length) :
    P.RefusesCycle ih ↔ ∀ x q, CyclicWalk P.imports P.linkerset x q →
      q.length + 1 = P.linkerset.length ∧ ∀ m ∈ q, P.initFn m = none := by
  obtain ⟨s₁, x, q, hwalk, hsort, hq, hw⟩ := sort_report hcyc hin
  have hne : P.linkerset ≠ [] := by
    rintro h
    rw [h] at hq
    simp at hq
  constructor
  · intro h x' q' hwalk'
    obtain ⟨rfl, rfl⟩ := hwalk.unique hwalk'
    have hfull := h.fills hne hsort hw
    have hnull := h.null hne hfull hsort hw
    exact ⟨hfull, fun m hm => hnull m (List.mem_cons_of_mem x hm)⟩
  · intro h
    obtain ⟨hfull, hnull⟩ := h x q hwalk
    -- the repeated module `x` is on the walk itself
    have hnull' : ∀ m ∈ x :: q, P.initFn m = none :=
      List.forall_mem_cons.2 ⟨hnull x hwalk.closes, hnull⟩
    exact refusesCycle_of_null hne hfull hsort hw hnull'

/-- The modules of the program `cycle_example`. -/
inductive CycleModule where
  | modA
  | modB
  | modC
  | cycle0
  | cycle1
  | cycle2
  deriving DecidableEq, Repr

/-- The program `cycle_example`, in link order. -/
def cycleProgram : ModuleSet CycleModule where
  info
    | .modA => ⟨"mod_a", [.modB], some fun _ => 0, some fun _ => 0⟩
    | .modB => ⟨"mod_b", [], some fun _ => 0, some fun _ => 0⟩
    | .modC => ⟨"mod_c", [.modB, .modA], some fun _ => 0, some fun _ => 0⟩
    | .cycle0 => ⟨"mod_cycle_0", [.cycle2], some fun _ => 0, some fun _ => 0⟩
    | .cycle1 => ⟨"mod_cycle_1", [.cycle0], some fun _ => 0, some fun _ => 0⟩
    | .cycle2 => ⟨"mod_cycle_2", [.cycle1], some fun _ => 0, some fun _ => 0⟩
  linkerset := [.modB, .modC, .modA, .cycle0, .cycle1, .cycle2]
  nodup := by decide
  complete := by intro m; cases m <;> decide
  fits := by decide

theorem cycleProgram_cyclic : cycleProgram.Cyclic := by
  have h02 : Edge cycleProgram.imports .cycle0 .cycle2 := List.mem_singleton.2 rfl
  have h21 : Edge cycleProgram.imports .cycle2 .cycle1 := List.mem_singleton.2 rfl
  have h10 : Edge cycleProgram.imports .cycle1 .cycle0 := List.mem_singleton.2 rfl
  exact ⟨.cycle0, .head h02 (.head h21 (.single h10))⟩

theorem cycleProgram_fits : ∀ i m,
    .store i m ∈ (topologicalSortModules cycleProgram (cycleProgram.fresh .exact default)).state.trace →
      i < cycleProgram.linkerset.length := by
  intro i m hm
  change Event.store i m ∈ [.store 0 .modB, .index 1, .store 1 .modA, .index 2, .store 2 .modC,
    .index 3, .store 0 .cycle0, .index 1, .store 1 .cycle1, .index 2, .store 2 .cycle2, .index 3,
    .store 3 .cycle0, .index 4] at hm
  simp at hm
  simp [cycleProgram]
  omega

theorem refuses_cycle_iff_example : cycleProgram.RefusesCycle default ↔
    ∀ x q, CyclicWalk cycleProgram.imports cycleProgram.linkerset x q →
      q.length + 1 = 6 ∧ ∀ m ∈ q, cycleProgram.initFn m = none :=
  refuses_cycle_iff cycleProgram_cyclic cycleProgram_fits

/-- The modules of the cycle are initialized, one of them twice, and then an entry
is used that was never stored. -/
theorem cycleProgram_not_refused :
    cycleProgram.Cyclic ∧
    (∀ i m, .store i m ∈
      (topologicalSortModules cycleProgram (cycleProgram.fresh .exact default)).state.trace →
        i < cycleProgram.linkerset.length) ∧
    (∃ s', moduleInitialization cycleProgram .exact (State.boot default) = .error (.nullEntry 4, s') ∧
      initCalls s'.trace = [(.cycle0, 0), (.cycle1, 0), (.cycle2, 0), (.cycle0, 0)]) ∧
    ¬ cycleProgram.RefusesCycle default := by
  refine ⟨cycleProgram_cyclic, cycleProgram_fits, ⟨_, rfl, rfl⟩, ?_⟩
  rintro ⟨s₁, s', -, hrun, -⟩
  cases hrun

end Linkerset
