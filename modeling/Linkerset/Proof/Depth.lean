import Linkerset.Proof.Calls

/-!
# The depth of the recursion

`topological_sort_module` follows imports that may lead in circles, from whatever marks
it finds. What bounds it is the number of modules marked `IS_UNINITIALIZED`: a call that
enters its loop takes one away, and none ever comes back.

* `topologicalSortModule_onward`: no call marks a module `IS_UNINITIALIZED`.
* `Passes.nesting_le`: the bound on the active calls, at every point of a run.
* `topologicalSortModule_terminates`: from any marks, in a table without end, every call
  returns, and nests at most one level deeper than there are such modules.
-/

namespace Linkerset

open Linkerset.Graph

variable {M : Type*}

/-- From `s` to `s'` no module has become `IS_UNINITIALIZED`. -/
def State.Onward (s s' : State M) : Prop :=
  ∀ m, s'.marks m = .uninitialized → s.marks m = .uninitialized

theorem State.Onward.trans {s s₁ s₂ : State M} (h : s.Onward s₁) (h' : s₁.Onward s₂) :
    s.Onward s₂ := fun m hm => h m (h' m hm)

variable [DecidableEq M]

theorem State.Onward.setMark {s s' : State M} {mip : M} {st : InitState} (h : s.Onward s')
    (hst : st ≠ .uninitialized) : s.Onward (s'.setMark mip st) := by
  intro m hm
  by_cases he : m = mip
  · subst he
    rw [setMark_marks, Function.update_self] at hm
    exact absurd hm hst
  · rw [setMark_marks, Function.update_of_ne he] at hm
    exact h m hm

/-- The modules marked `IS_UNINITIALIZED`. -/
def ModuleSet.uninitialized (P : ModuleSet M) (s : State M) : Finset M :=
  P.linkerset.toFinset.filter fun m => s.marks m = .uninitialized

section Marks

variable {P : ModuleSet M} {depth : ℕ} {s s' : State M} {mip : M}

theorem mem_uninitialized {m : M} : m ∈ P.uninitialized s ↔ s.marks m = .uninitialized := by
  simp [ModuleSet.uninitialized, P.complete m]

theorem State.Onward.card_le (h : s.Onward s') :
    (P.uninitialized s').card ≤ (P.uninitialized s).card := by
  apply Finset.card_le_card
  intro m hm
  rw [mem_uninitialized] at hm ⊢
  exact h m hm

/-- Entering its loop, a call takes one module away. -/
theorem uninitialized_enter (hm : s.marks mip = .uninitialized) :
    (P.uninitialized (s.setMark mip .initializing)).card + 1 = (P.uninitialized s).card := by
  have hmem : mip ∈ P.uninitialized s := mem_uninitialized.2 hm
  have he : P.uninitialized (s.setMark mip .initializing) = (P.uninitialized s).erase mip := by
    ext m
    rw [Finset.mem_erase, mem_uninitialized, mem_uninitialized]
    by_cases hmm : m = mip
    · subst hmm; simp
    · simp [hmm]
  rw [he, Finset.card_erase_of_mem hmem]
  have hpos : 0 < (P.uninitialized s).card := Finset.card_pos.2 ⟨mip, hmem⟩
  omega

theorem sortImports_onward {sort : State M → M → Exec M (State M)}
    (hsort : ∀ {s w s'}, sort s w = .ok s' → s.Onward s') :
    ∀ {ws : List M} {s s' : State M}, sortImports sort mip ws s = .ok s' → s.Onward s' := by
  intro ws
  induction ws with
  | nil =>
    intro s s' h
    rw [sortImports, appendModule] at h
    cases hst : s.store s.handle.tableIndex mip with
    | error e => rw [hst] at h; cases h
    | ok s₁ =>
      rw [hst] at h
      cases h
      rw [State.store_eq_ok hst]
      exact State.Onward.setMark (fun _ hm => hm) (by decide)
  | cons w ws ih =>
    intro s s' h
    rw [sortImports] at h
    cases hw : sort s w with
    | error e => rw [hw] at h; cases h
    | ok s₁ =>
      rw [hw] at h
      have h₁ := hsort hw
      simp only [bind, Except.bind] at h
      cases hr : s₁.handle.initState with
      | cycle =>
        rw [hr] at h
        simp only at h
        cases hst : s₁.store s₁.handle.tableIndex mip with
        | error e => rw [hst] at h; cases h
        | ok s₂ =>
          rw [hst] at h
          cases h
          rw [State.store_eq_ok hst]
          exact h₁
      | success =>
        rw [hr] at h
        exact h₁.trans (ih h)
      | failed | memory =>
        rw [hr] at h
        cases h
        exact h₁

/-- **No call marks a module `IS_UNINITIALIZED`**, and what it leaves so was so. -/
theorem topologicalSortModule_onward : ∀ {depth : ℕ} {s s' : State M} {mip : M},
    topologicalSortModule P depth s mip = .ok s' → s.Onward s' := by
  intro depth
  induction depth with
  | zero => intro s s' mip h; cases h
  | succ depth ih =>
    intro s s' mip h
    rw [topologicalSortModule] at h
    cases hm : s.marks mip with
    | initialized => rw [hm] at h; cases h; exact fun _ hm => hm
    | initializing =>
      rw [hm] at h
      simp only [bind, Except.bind] at h
      cases hst : (s.setResult .cycle).store 0 mip with
      | error e => rw [hst] at h; cases h
      | ok s₁ =>
        rw [hst] at h
        cases h
        rw [State.store_eq_ok hst]
        exact fun _ hm => hm
    | uninitialized =>
      rw [hm] at h
      have henter : s.Onward (s.setMark mip .initializing) :=
        State.Onward.setMark (fun _ hm => hm) (by decide)
      exact henter.trans (sortImports_onward ih h)

/-- **The bound on the active calls**, at every point of a run: they have taken a module
each away. -/
theorem Passes.nesting_le {depth₀ : ℕ} {roots active rest : List M} {s₀ : State M}
    (h : Passes P depth₀ roots s₀ depth active rest s) :
    active.length + (P.uninitialized s).card ≤ (P.uninitialized s₀).card := by
  induction h with
  | start => simp
  | enter _ hm ih =>
    have henter := uninitialized_enter (P := P) hm
    rw [List.length_cons]
    omega
  | next _ hrun _ ih =>
    have hle := (topologicalSortModule_onward hrun).card_le (P := P)
    omega

end Marks

/-! ## Enough depth -/

section Total

variable {P : ModuleSet M} {depth : ℕ} {mip : M}

/-- The loop over the imports returns, if the recursive calls return that find fewer than
`n` modules `IS_UNINITIALIZED`. -/
theorem sortImports_total {n : ℕ} {sort : State M → M → Exec M (State M)}
    (hsort : ∀ {s w}, s.extent = some none → (P.uninitialized s).card < n →
      ∃ s', sort s w = .ok s' ∧ s'.extent = some none ∧ s.Onward s') :
    ∀ {ws : List M} {s : State M}, s.extent = some none → (P.uninitialized s).card < n →
      ∃ s', sortImports sort mip ws s = .ok s' ∧ s'.extent = some none := by
  intro ws
  induction ws with
  | nil =>
    intro s hs _
    rw [sortImports, appendModule, State.store_ok (State.covers_of_unbounded hs _)]
    exact ⟨_, rfl, by simpa using hs⟩
  | cons w ws ih =>
    intro s hs hn
    obtain ⟨s₁, hw, hs₁, hon⟩ := hsort (w := w) hs hn
    have hle := hon.card_le (P := P)
    rw [sortImports, hw]
    simp only [bind, Except.bind]
    cases hr : s₁.handle.initState with
    | cycle =>
      simp only [State.store_ok (State.covers_of_unbounded hs₁ _)]
      exact ⟨_, rfl, by simpa using hs₁⟩
    | success => exact ih hs₁ (by omega)
    | failed | memory => exact ⟨s₁, rfl, hs₁⟩

/-- **Enough depth**: one level more than there are modules `IS_UNINITIALIZED`. -/
theorem topologicalSortModule_total : ∀ {depth : ℕ} {s : State M}, s.extent = some none →
    (P.uninitialized s).card < depth →
      ∀ mip, ∃ s', topologicalSortModule P depth s mip = .ok s' ∧ s'.extent = some none := by
  intro depth
  induction depth with
  | zero => intro s _ h; omega
  | succ depth ih =>
    intro s hs hn mip
    rw [topologicalSortModule]
    cases hm : s.marks mip with
    | initialized => exact ⟨s, rfl, hs⟩
    | initializing =>
      have hc : (s.setResult .cycle).Covers 0 := State.covers_of_unbounded hs 0
      simp only [bind, Except.bind, State.store_ok hc]
      exact ⟨_, rfl, by simpa using hs⟩
    | uninitialized =>
      -- the module is taken away, so what is left is fewer than the next level has
      have henter := uninitialized_enter (P := P) hm
      have hcalls : ∀ {s₁ w}, s₁.extent = some none → (P.uninitialized s₁).card < depth →
          ∃ s', topologicalSortModule P depth s₁ w = .ok s' ∧ s'.extent = some none ∧
            s₁.Onward s' := by
        intro s₁ w hs₁ hn₁
        obtain ⟨s₂, hrun, hs₂⟩ := ih hs₁ hn₁ w
        exact ⟨s₂, hrun, hs₂, topologicalSortModule_onward hrun⟩
      have hs' : (s.setMark mip .initializing).extent = some none := hs
      exact sortImports_total hcalls hs' (by omega)

/-- What the loop does depends only on the calls that return. -/
theorem sortImports_mono {sort sort' : State M → M → Exec M (State M)}
    (hsort : ∀ {s w s'}, sort s w = .ok s' → sort' s w = .ok s') :
    ∀ {ws : List M} {s s' : State M}, sortImports sort mip ws s = .ok s' →
      sortImports sort' mip ws s = .ok s' := by
  intro ws
  induction ws with
  | nil => intro s s' h; exact h
  | cons w ws ih =>
    intro s s' h
    rw [sortImports] at h ⊢
    cases hw : sort s w with
    | error e => rw [hw] at h; cases h
    | ok s₁ =>
      rw [hw] at h
      rw [hsort hw]
      simp only [bind, Except.bind] at h ⊢
      cases hr : s₁.handle.initState with
      | success => rw [hr] at h; exact ih h
      | cycle | failed | memory => rw [hr] at h; exact h

/-- A call that returns does the same with more levels to spare. -/
theorem topologicalSortModule_mono : ∀ {depth : ℕ} {s s' : State M} {mip : M},
    topologicalSortModule P depth s mip = .ok s' →
      topologicalSortModule P (depth + 1) s mip = .ok s' := by
  intro depth
  induction depth with
  | zero => intro s s' mip h; cases h
  | succ depth ih =>
    intro s s' mip h
    rw [topologicalSortModule] at h ⊢
    cases hm : s.marks mip with
    | initialized | initializing => rw [hm] at h; exact h
    | uninitialized => rw [hm] at h; exact sortImports_mono ih h

theorem topologicalSortModule_depth {depth' : ℕ} {s s' : State M}
    (h : topologicalSortModule P depth s mip = .ok s') (hle : depth ≤ depth') :
    topologicalSortModule P depth' s mip = .ok s' := by
  induction hle with
  | refl => exact h
  | step _ ih => exact topologicalSortModule_mono ih

end Total

/-- **The recursion ends.** From any marks, in a table without end, every call returns, in
the same state whatever depth above the number of modules `IS_UNINITIALIZED` it is given;
and whatever it is given, its calls nest at most one level deeper than that number. -/
theorem topologicalSortModule_terminates (P : ModuleSet M) {s : State M}
    (hs : s.extent = some none) (mip : M) :
    (∃ s', ∀ depth, (P.uninitialized s).card + 1 ≤ depth →
      topologicalSortModule P depth s mip = .ok s') ∧
    ∀ depth₀ depth active m rest s₁, Passes P depth₀ [mip] s depth active (m :: rest) s₁ →
      active.length + 1 ≤ (P.uninitialized s).card + 1 := by
  constructor
  · obtain ⟨s', hrun, -⟩ := topologicalSortModule_total (P := P) hs (Nat.lt_succ_self _) mip
    exact ⟨s', fun depth hle => topologicalSortModule_depth hrun hle⟩
  · intro depth₀ depth active m rest s₁ h
    have hle := h.nesting_le
    omega

/-- A module that imports itself, found `IS_UNINITIALIZED`. -/
theorem topologicalSortModule_terminates_example :
    (∃ s', ∀ depth, (selfImport.uninitialized (selfImport.fresh .unbounded default)).card + 1 ≤ depth →
      topologicalSortModule selfImport depth (selfImport.fresh .unbounded default) () = .ok s') ∧
    ∀ depth₀ depth active m rest s₁,
      Passes selfImport depth₀ [()] (selfImport.fresh .unbounded default) depth active (m :: rest) s₁ →
        active.length + 1 ≤ (selfImport.uninitialized (selfImport.fresh .unbounded default)).card + 1 :=
  topologicalSortModule_terminates selfImport rfl ()

end Linkerset
