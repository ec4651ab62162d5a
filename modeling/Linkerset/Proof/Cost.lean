import Linkerset.Proof.Depth
import Mathlib.Algebra.BigOperators.Group.Finset.Basic
import Mathlib.Algebra.GroupWithZero.Nat
import Mathlib.Algebra.Order.BigOperators.Group.Finset

/-!
# How many calls a sort makes

`sortCalls` follows `topological_sort_module` and counts its calls. A call goes through
an import list only if it finds its module `IS_UNINITIALIZED`, so every list is gone
through at most once, whatever is imported in circles.

* `topologicalSortModule_spends`: what is left to count (`unmet`) pays for the calls.
* `sort_calls`: one call for each element of the linkerset and one for each `IMPORT`,
  or fewer if a cycle or a fault ends the sort.
-/

namespace Linkerset

open Linkerset.Graph

variable {M : Type*}

/-- The calls that a loop makes over `ws`, each by `sort`, which makes `count` calls itself:
it stops where `init_state` is no longer `IR_SUCCESS`. -/
def loopCalls (count : State M → M → ℕ) (sort : State M → M → Exec M (State M)) :
    List M → State M → ℕ
  | [], _ => 0
  | impp :: p, s => count s impp +
    match sort s impp with
    | .ok s' => if s'.handle.initState = .success then loopCalls count sort p s' else 0
    | .error _ => 0

variable [DecidableEq M]

/-- The calls of `topological_sort_module` that one call makes, with itself. -/
def topologicalSortModuleCalls (P : ModuleSet M) : ℕ → State M → M → ℕ
  | 0, _, _ => 0
  | depth + 1, s, mip =>
    match s.marks mip with
    | .uninitialized =>
      1 + loopCalls (topologicalSortModuleCalls P depth) (topologicalSortModule P depth)
        (P.imports mip) (s.setMark mip .initializing)
    | _ => 1

/-- The calls of `topological_sort_module` in `topological_sort_modules`. -/
def ModuleSet.sortCalls (P : ModuleSet M) (s : State M) : ℕ :=
  loopCalls (topologicalSortModuleCalls P P.depth) (topologicalSortModule P P.depth) P.linkerset s

/-- The uses of `IMPORT` by modules that are not met yet. -/
def ModuleSet.unmet (P : ModuleSet M) (s : State M) : ℕ :=
  ∑ m ∈ P.uninitialized s, (P.imports m).length

variable {P : ModuleSet M} {s s' : State M} {mip : M}

/-- Entering its loop, a call meets the imports of its module. -/
theorem unmet_enter (hm : s.marks mip = .uninitialized) :
    P.unmet (s.setMark mip .initializing) + (P.imports mip).length = P.unmet s := by
  have hmem : mip ∈ P.uninitialized s := mem_uninitialized.2 hm
  have he : P.uninitialized (s.setMark mip .initializing) = (P.uninitialized s).erase mip := by
    ext m
    rw [Finset.mem_erase, mem_uninitialized, mem_uninitialized]
    by_cases hmm : m = mip
    · subst hmm; simp
    · simp [hmm]
  unfold ModuleSet.unmet
  rw [he, Finset.sum_erase_add _ _ hmem]

/-- Where the same modules are not met, the same imports are not. -/
theorem unmet_congr (h : ∀ m, s'.marks m = .uninitialized ↔ s.marks m = .uninitialized) :
    P.unmet s' = P.unmet s := by
  have he : P.uninitialized s' = P.uninitialized s := by
    ext m
    rw [mem_uninitialized, mem_uninitialized, h m]
  unfold ModuleSet.unmet
  rw [he]

/-- A module that is not `IS_UNINITIALIZED` may be marked. -/
theorem unmet_setMark {st : InitState} (hm : s.marks mip ≠ .uninitialized)
    (hst : st ≠ .uninitialized) : P.unmet (s.setMark mip st) = P.unmet s := by
  apply unmet_congr
  intro m
  by_cases hmm : m = mip
  · subst hmm
    simp [hm, hst]
  · simp [hmm]

/-- **What calls cost**: `k` calls, `n` of them made directly, on the way from `s` to `r`.
The others are paid by imports that are met on the way; all are, if the way ends with
`IR_SUCCESS`. -/
def Spends (P : ModuleSet M) (s : State M) (n k : ℕ) : Exec M (State M) → Prop
  | .ok s' => k + P.unmet s' ≤ n + P.unmet s ∧
      (s'.handle.initState = .success → k + P.unmet s' = n + P.unmet s)
  | .error _ => k ≤ n + P.unmet s

theorem Spends.le {n k : ℕ} {r : Exec M (State M)} (h : Spends P s n k r) : k ≤ n + P.unmet s := by
  cases r with
  | ok s' => have hle := h.1; omega
  | error e => exact h

/-- A loop that stops has paid for its calls so far. -/
theorem Spends.stop {n k : ℕ} {s₁ : State M} (h : Spends P s 1 k (.ok s₁))
    (hr : s'.handle.initState ≠ .success) (hm : s'.marks = s₁.marks) :
    Spends P s (n + 1) k (.ok s') := by
  have hu : P.unmet s' = P.unmet s₁ := unmet_congr fun m => by rw [hm]
  have hle := h.1
  exact ⟨by omega, fun hs => absurd hs hr⟩

/-- A loop that goes on pays for one call more. -/
theorem Spends.cons {n k k' : ℕ} {s₁ : State M} {r : Exec M (State M)}
    (h : Spends P s 1 k (.ok s₁)) (hr : s₁.handle.initState = .success)
    (h' : Spends P s₁ n k' r) : Spends P s (n + 1) (k + k') r := by
  have heq := h.2 hr
  cases r with
  | error e =>
    have hle : k' ≤ n + P.unmet s₁ := h'
    show k + k' ≤ n + 1 + P.unmet s
    omega
  | ok s₂ =>
    obtain ⟨hle, hsuccess⟩ := h'
    refine ⟨by omega, fun hs => ?_⟩
    have heq' := hsuccess hs
    omega

/-- To append a module costs nothing. -/
theorem appendModule_spends (hm : s.marks mip ≠ .uninitialized) :
    Spends P s 0 0 (appendModule mip s) := by
  rw [appendModule]
  cases hst : s.store s.handle.tableIndex mip with
  | error e => exact Nat.zero_le _
  | ok s₁ =>
    have hs₁ := State.store_eq_ok hst
    subst hs₁
    have hu : ∀ v, P.unmet (((s.stored s.handle.tableIndex mip).setIndex v).setMark mip
        .initialized) = P.unmet s := fun v => unmet_setMark hm (by decide)
    exact ⟨by rw [hu], fun _ => by rw [hu]⟩

section Loop

variable {count : State M → M → ℕ} {sort : State M → M → Exec M (State M)}

/-- The loop over the imports of `mip`, which it has marked. -/
theorem sortImports_spends (hcount : ∀ s w, Spends P s 1 (count s w) (sort s w))
    (hsort : ∀ {s w s'}, sort s w = .ok s' → s.Onward s') :
    ∀ {ws : List M} {s : State M}, s.marks mip ≠ .uninitialized →
      Spends P s ws.length (loopCalls count sort ws s) (sortImports sort mip ws s) := by
  intro ws
  induction ws with
  | nil =>
    intro s hm
    rw [sortImports, loopCalls]
    exact appendModule_spends hm
  | cons w ws ih =>
    intro s hm
    have hw := hcount s w
    rw [sortImports, loopCalls, List.length_cons]
    cases hrun : sort s w with
    | error e =>
      rw [hrun] at hw
      have hle : count s w ≤ 1 + P.unmet s := hw
      show count s w + 0 ≤ ws.length + 1 + P.unmet s
      omega
    | ok s₁ =>
      rw [hrun] at hw
      have hm₁ : s₁.marks mip ≠ .uninitialized := fun h => hm (hsort hrun mip h)
      simp only [bind, Except.bind]
      cases hr : s₁.handle.initState with
      | success =>
        rw [if_pos rfl]
        exact hw.cons hr (ih hm₁)
      | failed | memory =>
        rw [if_neg (by decide), Nat.add_zero]
        exact hw.stop (by rw [hr]; decide) rfl
      | cycle =>
        rw [if_neg (by decide), Nat.add_zero]
        dsimp only
        cases hst : s₁.store s₁.handle.tableIndex mip with
        | error e =>
          have hle := hw.le
          show count s w ≤ ws.length + 1 + P.unmet s
          omega
        | ok s₂ =>
          have hs₂ := State.store_eq_ok hst
          subst hs₂
          refine hw.stop ?_ rfl
          show s₁.handle.initState ≠ .success
          rw [hr]
          decide

end Loop

/-- **A call is paid for** by the imports that are met in it. -/
theorem topologicalSortModule_spends : ∀ (depth : ℕ) (s : State M) (mip : M),
    Spends P s 1 (topologicalSortModuleCalls P depth s mip) (topologicalSortModule P depth s mip) := by
  intro depth
  induction depth with
  | zero => intro s mip; exact Nat.zero_le _
  | succ depth ih =>
    intro s mip
    rw [topologicalSortModule, topologicalSortModuleCalls]
    cases hm : s.marks mip with
    | initialized => exact ⟨le_rfl, fun _ => rfl⟩
    | initializing =>
      dsimp only
      cases hst : (s.setResult .cycle).store 0 mip with
      | error e => exact Nat.le_add_right 1 _
      | ok s₁ =>
        have hs₁ := State.store_eq_ok hst
        subst hs₁
        exact ⟨le_rfl, fun hs => by cases hs⟩
    | uninitialized =>
      dsimp only
      have hmark : (s.setMark mip .initializing).marks mip ≠ .uninitialized := by simp
      have hloop : Spends P _ (P.imports mip).length _ _ :=
        sortImports_spends ih topologicalSortModule_onward hmark
      have henter := unmet_enter (P := P) hm
      generalize sortImports (topologicalSortModule P depth) mip (P.imports mip)
        (s.setMark mip .initializing) = r at hloop ⊢
      -- the imports of `mip` are met by this call
      cases r with
      | error e =>
        have hle := hloop.le
        show 1 + _ ≤ 1 + P.unmet s
        omega
      | ok s' =>
        obtain ⟨hle, hsuccess⟩ := hloop
        refine ⟨by omega, fun hs => ?_⟩
        have heq := hsuccess hs
        omega

/-- The loop over the linkerset. -/
theorem sortLinkerset_spends : ∀ {ws : List M} {s : State M},
    Spends P s ws.length (loopCalls (topologicalSortModuleCalls P P.depth)
      (topologicalSortModule P P.depth) ws s) (sortLinkerset P ws s) := by
  intro ws
  induction ws with
  | nil =>
    intro s
    rw [sortLinkerset, loopCalls]
    split
    · exact ⟨le_rfl, fun _ => rfl⟩
    · exact Nat.zero_le _
  | cons w ws ih =>
    intro s
    have hw := topologicalSortModule_spends (P := P) P.depth s w
    rw [sortLinkerset, loopCalls, List.length_cons]
    cases hrun : topologicalSortModule P P.depth s w with
    | error e =>
      rw [hrun] at hw
      have hle := hw.le
      show _ + 0 ≤ ws.length + 1 + P.unmet s
      omega
    | ok s₁ =>
      rw [hrun] at hw
      simp only [bind, Except.bind]
      by_cases hr : s₁.handle.initState = .success
      · rw [if_pos hr, if_neg (not_not.2 hr)]
        exact hw.cons hr ih
      · rw [if_neg hr, if_pos hr, Nat.add_zero]
        exact hw.stop hr rfl

/-- At program start, no import has been met. -/
theorem unmet_fresh (a : Alloc) (ih : Handle M) :
    P.unmet (P.fresh a ih) = (P.linkerset.map fun m => (P.imports m).length).sum := by
  have he : P.uninitialized (P.fresh a ih) = P.linkerset.toFinset := by
    ext m
    rw [mem_uninitialized]
    simp [P.complete m]
  unfold ModuleSet.unmet
  rw [he, List.sum_toFinset _ P.nodup]

/-- **The sort makes one call for each module and one for each import**, at most; all of
them, unless there is an import cycle or no memory. -/
theorem sort_calls (P : ModuleSet M) (a : Alloc) (ih : Handle M) :
    P.sortCalls (P.fresh a ih) ≤
        P.linkerset.length + (P.linkerset.map fun m => (P.imports m).length).sum ∧
      (a ≠ .null → ¬ P.Cyclic → P.sortCalls (P.fresh a ih) =
        P.linkerset.length + (P.linkerset.map fun m => (P.imports m).length).sum) := by
  have hspends : Spends P (P.fresh a ih) P.linkerset.length (P.sortCalls (P.fresh a ih)) _ :=
    sortLinkerset_spends
  rw [← unmet_fresh a ih]
  refine ⟨hspends.le, fun ha hac => ?_⟩
  obtain ⟨s', ord, -, hrun, hperm, -, hmarked, hw⟩ := sort_acyclic ha hac ih
  rw [topologicalSortModules] at hrun
  rw [hrun] at hspends
  have heq := hspends.2 hw.result
  -- in the end all modules have been met
  have hnone : P.uninitialized s' = ∅ := by
    apply Finset.eq_empty_of_forall_notMem
    intro m hm
    have hm' := mem_uninitialized.1 hm
    rw [(hmarked.initialized m).2 (hperm.mem_iff.2 (P.complete m))] at hm'
    cases hm'
  have hzero : P.unmet s' = 0 := by
    unfold ModuleSet.unmet
    rw [hnone, Finset.sum_empty]
  rw [hzero, Nat.add_zero] at heq
  exact heq

theorem sort_calls_example :
    (exampleProgram fun _ => 0).sortCalls ((exampleProgram fun _ => 0).fresh .exact default) =
      3 + (0 + (2 + (1 + 0))) :=
  (sort_calls (exampleProgram fun _ => 0) .exact default).2 (by decide) (exampleProgram_acyclic _)

end Linkerset
