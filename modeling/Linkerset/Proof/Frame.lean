import Linkerset.Proof.Initialize

/-!
# What was printed before

`main` of `example.c` prints a line before it initializes anything. The library does not
see it: its runs depend on the handle, on the marks, and on the calls that were made.

* `topologicalSortModules_behind`, `initializeTable_behind`,
  `moduleInitialization_behind`: a run behind the events `pre` is the run without them,
  with `pre` in front of its trace, if nothing was called in `pre`.
-/

namespace Linkerset

variable {M : Type*}

/-- The same memory, behind the events `pre`. -/
def State.behind (pre : List (Event M)) (s : State M) : State M := { s with trace := pre ++ s.trace }

/-- The same run, behind the events `pre`. -/
def Exec.behind (pre : List (Event M)) : Exec M (State M) → Exec M (State M)
  | .ok s => .ok (s.behind pre)
  | .error (f, s) => .error (f, s.behind pre)

variable {pre : List (Event M)}

section Fields

variable (s : State M) (v : ℕ) (e : Event M) (r : InitializationResult) (m : M) (st : InitState)

@[simp] theorem behind_handle : (s.behind pre).handle = s.handle := rfl
@[simp] theorem behind_marks : (s.behind pre).marks = s.marks := rfl
@[simp] theorem behind_trace : (s.behind pre).trace = pre ++ s.trace := rfl

@[simp] theorem behind_log : (s.behind pre).log e = (s.log e).behind pre := by
  simp [State.behind, State.log]

@[simp] theorem behind_setIndex : (s.behind pre).setIndex v = (s.setIndex v).behind pre := by
  simp [State.behind, State.setIndex]

@[simp] theorem behind_setResult : (s.behind pre).setResult r = (s.setResult r).behind pre := rfl

@[simp] theorem behind_setMark [DecidableEq M] :
    (s.behind pre).setMark m st = (s.setMark m st).behind pre := rfl

end Fields

/-- A step that does the same behind `pre` goes on with the same run. -/
theorem Exec.behind_bind {r : Exec M (State M)} {f : State M → Exec M (State M)}
    (hf : ∀ s, f (s.behind pre) = (f s).behind pre) :
    r.behind pre >>= f = Exec.behind pre (r >>= f) := by
  cases r with
  | ok s => exact hf s
  | error e => rfl

theorem store_behind (s : State M) (i : ℕ) (m : M) :
    (s.behind pre).store i m = (s.store i m).behind pre := by
  unfold State.store
  simp only [behind_log]
  rw [behind_handle]
  cases (s.log (.store i m)).handle.table with
  | none => rfl
  | some t =>
    by_cases hc : t.Covers i
    · simp only [if_pos hc]
      rfl
    · simp only [if_neg hc]
      rfl

theorem load_behind (s : State M) (i : ℕ) :
    (s.behind pre).load i =
      match s.load i with
      | .ok (m, s') => .ok (m, s'.behind pre)
      | .error (f, s') => .error (f, s'.behind pre) := by
  unfold State.load
  simp only [behind_log]
  rw [behind_handle]
  cases (s.log (.load i)).handle.table with
  | none => rfl
  | some t =>
    by_cases hc : t.Covers i
    · simp only [if_pos hc]
      cases t.cell i with
      | none => rfl
      | some m => rfl
    · simp only [if_neg hc]

/-! ## The sort -/

section Sorting

variable [DecidableEq M] {P : ModuleSet M}

theorem appendModule_behind (m : M) (s : State M) :
    appendModule m (s.behind pre) = (appendModule m s).behind pre := by
  unfold appendModule
  rw [behind_handle, store_behind]
  exact Exec.behind_bind fun s => by
    simp only [behind_handle, behind_setIndex, behind_setMark]
    rfl

theorem sortImports_behind {sort : State M → M → Exec M (State M)} {mip : M}
    (hsort : ∀ s w, sort (s.behind pre) w = (sort s w).behind pre) :
    ∀ (ws : List M) (s : State M),
      sortImports sort mip ws (s.behind pre) = (sortImports sort mip ws s).behind pre := by
  intro ws
  induction ws with
  | nil => intro s; exact appendModule_behind mip s
  | cons w ws ih =>
    intro s
    rw [sortImports, sortImports, hsort]
    apply Exec.behind_bind
    intro s₁
    rw [behind_handle]
    cases s₁.handle.initState with
    | success => exact ih s₁
    | failed | memory => rfl
    | cycle =>
      dsimp only
      rw [store_behind]
      exact Exec.behind_bind fun s => by
        simp only [behind_handle, behind_setIndex]
        rfl

theorem topologicalSortModule_behind : ∀ (depth : ℕ) (s : State M) (m : M),
    topologicalSortModule P depth (s.behind pre) m =
      (topologicalSortModule P depth s m).behind pre := by
  intro depth
  induction depth with
  | zero => intro s m; rfl
  | succ depth ih =>
    intro s m
    rw [topologicalSortModule, topologicalSortModule, behind_marks]
    cases s.marks m with
    | initialized => rfl
    | initializing =>
      dsimp only
      rw [behind_setResult, store_behind]
      exact Exec.behind_bind fun s => by
        simp only [behind_setIndex]
        rfl
    | uninitialized =>
      dsimp only
      rw [behind_setMark]
      exact sortImports_behind ih _ _

theorem sortLinkerset_behind : ∀ (ws : List M) (s : State M),
    sortLinkerset P ws (s.behind pre) = (sortLinkerset P ws s).behind pre := by
  intro ws
  induction ws with
  | nil =>
    intro s
    rw [sortLinkerset, sortLinkerset, behind_handle]
    split <;> rfl
  | cons w ws ih =>
    intro s
    rw [sortLinkerset, sortLinkerset, topologicalSortModule_behind]
    apply Exec.behind_bind
    intro s₁
    rw [behind_handle]
    split
    · rfl
    · exact ih s₁

theorem topologicalSortModules_behind (s : State M) :
    topologicalSortModules P (s.behind pre) = (topologicalSortModules P s).behind pre :=
  sortLinkerset_behind P.linkerset s

end Sorting

/-! ## Initialization -/

section Initialization

variable {P : ModuleSet M}

/-- Callbacks are given the calls before theirs, and there are none in `pre`. -/
theorem calls_behind (hpre : calls pre = []) (s : State M) :
    calls (s.behind pre).trace = calls s.trace := by
  rw [behind_trace, calls_append, hpre, List.nil_append]

variable [DecidableEq M]

theorem initializeTable_behind (hpre : calls pre = []) : ∀ (n : ℕ) (s : State M),
    initializeTable P n (s.behind pre) = (initializeTable P n s).behind pre := by
  intro n
  induction n with
  | zero => intro s; rfl
  | succ n ih =>
    intro s
    rw [initializeTable, initializeTable, behind_handle, load_behind]
    by_cases hlt : s.handle.tableIndex < s.handle.tableSize
    · rw [if_pos hlt, if_pos hlt]
      cases hl : s.load s.handle.tableIndex with
      | error e => rfl
      | ok x =>
        obtain ⟨m, s₁⟩ := x
        simp only [bind, Except.bind]
        cases (P.info m).initFn with
        | none =>
          simp only [behind_marks, behind_log, behind_handle, behind_setIndex]
          exact ih _
        | some f =>
          simp only [behind_setMark, calls_behind hpre, behind_marks, behind_log]
          split
          · rw [behind_setResult]
            rfl
          · rw [behind_handle, behind_setIndex]
            exact ih _
    · rw [if_neg hlt, if_neg hlt]
      split <;> rfl

/-- **Initialization behind `pre`.** -/
theorem moduleInitialization_behind (hpre : calls pre = []) (a : Alloc) (s : State M) :
    moduleInitialization P a (s.behind pre) = (moduleInitialization P a s).behind pre := by
  have hinit : ∀ n, moduleHandleInitialize a (s.behind pre) n =
      (moduleHandleInitialize a s n).behind pre := fun _ => rfl
  unfold moduleInitialization
  simp only [hinit, behind_handle]
  cases (moduleHandleInitialize a s P.linkerset.length).handle.table with
  | none => rfl
  | some t =>
    dsimp only
    rw [topologicalSortModules_behind]
    apply Exec.behind_bind
    intro s₁
    rw [behind_handle, behind_setIndex]
    exact initializeTable_behind hpre _ _

end Initialization

end Linkerset
