import Linkerset.Proof.Initialize
import Linkerset.Proof.Finalize

/-!
# Which events an operation adds

Every exit of an operation, faults included, is reached by adding events to the trace. Of
which kinds these are follows from the code step by step, whatever the memory holds.

* `always_bind`: what every exit of a run satisfies.
* `topologicalSortModules_adds`, `moduleInitialization_adds`, `moduleFinalization_adds`.
* `moduleInitialization_printed`, `moduleFinalization_printed`: the library prints nothing.
-/

namespace Linkerset

variable {M : Type*}

theorem printed_append (t t' : List (Event M)) : printed (t ++ t') = printed t ++ printed t' :=
  List.filterMap_append

/-- What holds of the last state of a run, at whichever exit. -/
def Always (Q : State M → Prop) (r : Exec M (State M)) : Prop := Q r.state

/-- **A run in two steps**: what the first leaves at any exit is kept by the second. -/
theorem always_bind {Q : State M → Prop} {r : Exec M (State M)} {f : State M → Exec M (State M)}
    (hr : Always Q r) (hf : ∀ s, Q s → Always Q (f s)) : Always Q (r >>= f) := by
  cases r with
  | ok s => exact hf s hr
  | error e => exact hr

/-- A load, and what is done with the module that it finds. -/
theorem always_load {Q : State M → Prop} {s : State M} {i : ℕ}
    {f : M × State M → Exec M (State M)} (hs : Q (s.log (.load i)))
    (hf : ∀ m, Always Q (f (m, s.log (.load i)))) : Always Q (s.load i >>= f) := by
  unfold State.load
  dsimp only
  cases (s.log (.load i)).handle.table with
  | none => exact hs
  | some t =>
    dsimp only
    split
    · cases t.cell i with
      | none => exact hs
      | some m => exact hf m
    · exact hs

/-- Behind the trace `t`, only events of the kind `A` have happened. -/
def Adds (A : Event M → Prop) (t : List (Event M)) (s : State M) : Prop :=
  ∃ ev, s.trace = t ++ ev ∧ ∀ e ∈ ev, A e

variable {A : Event M → Prop} {t : List (Event M)} {s : State M} {P : ModuleSet M}

theorem Adds.refl (A : Event M → Prop) (s : State M) : Adds A s.trace s :=
  ⟨[], (List.append_nil _).symm, by simp⟩

theorem Adds.log (h : Adds A t s) {e : Event M} (he : A e) : Adds A t (s.log e) := by
  obtain ⟨ev, htr, hev⟩ := h
  refine ⟨ev ++ [e], by rw [State.log_trace, htr, List.append_assoc], ?_⟩
  intro e' he'
  rcases List.mem_append.1 he' with hm | hm
  · exact hev e' hm
  · rw [List.mem_singleton.1 hm]
    exact he

/-! ## The sort -/

section Sorting

variable (hstore : ∀ i m, A (.store i m)) (hindex : ∀ v, A (.index v))

include hindex in
theorem setIndex_adds (h : Adds A t s) (v : ℕ) : Adds A t (s.setIndex v) := h.log (hindex v)

include hstore in
theorem store_adds (h : Adds A t s) (i : ℕ) (m : M) : Always (Adds A t) (s.store i m) := by
  have hlog := h.log (hstore i m)
  unfold State.store Always
  dsimp only
  cases (s.log (.store i m)).handle.table with
  | none => exact hlog
  | some t =>
    dsimp only
    split
    · exact hlog
    · exact hlog

variable [DecidableEq M]

include hstore hindex

theorem sortImports_adds {sort : State M → M → Exec M (State M)} {mip : M}
    (hsort : ∀ s w, Adds A t s → Always (Adds A t) (sort s w)) :
    ∀ (ws : List M) (s : State M), Adds A t s → Always (Adds A t) (sortImports sort mip ws s) := by
  intro ws
  induction ws with
  | nil =>
    intro s h
    exact always_bind (store_adds hstore h _ _) fun s hs => setIndex_adds hindex hs _
  | cons w ws ih =>
    intro s h
    rw [sortImports]
    refine always_bind (hsort s w h) fun s₁ hs₁ => ?_
    cases s₁.handle.initState with
    | success => exact ih s₁ hs₁
    | failed | memory => exact hs₁
    | cycle => exact always_bind (store_adds hstore hs₁ _ _) fun s hs => setIndex_adds hindex hs _

theorem topologicalSortModule_adds : ∀ (depth : ℕ) (s : State M) (m : M), Adds A t s →
    Always (Adds A t) (topologicalSortModule P depth s m) := by
  intro depth
  induction depth with
  | zero => intro s m h; exact h
  | succ depth ih =>
    intro s m h
    rw [topologicalSortModule]
    cases s.marks m with
    | initialized => exact h
    | initializing =>
      have hs : Adds A t (s.setResult .cycle) := h
      exact always_bind (store_adds hstore hs _ _) fun s hs => setIndex_adds hindex hs _
    | uninitialized =>
      have hs : Adds A t (s.setMark m .initializing) := h
      exact sortImports_adds hstore hindex ih _ _ hs

theorem sortLinkerset_adds : ∀ (ws : List M) (s : State M), Adds A t s →
    Always (Adds A t) (sortLinkerset P ws s) := by
  intro ws
  induction ws with
  | nil =>
    intro s h
    rw [sortLinkerset]
    split
    · exact h
    · exact h
  | cons w ws ih =>
    intro s h
    rw [sortLinkerset]
    refine always_bind (topologicalSortModule_adds hstore hindex _ s w h) fun s₁ hs₁ => ?_
    split
    · exact hs₁
    · exact ih s₁ hs₁

/-- **The sort** adds stores, and values of `table_index`. -/
theorem topologicalSortModules_adds (h : Adds A t s) :
    Always (Adds A t) (topologicalSortModules P s) :=
  sortLinkerset_adds hstore hindex P.linkerset s h

end Sorting

/-! ## Initialization and finalization -/

section Turns

variable (hstore : ∀ i m, A (.store i m)) (hindex : ∀ v, A (.index v)) (hload : ∀ i, A (.load i))

section Initialization

variable [DecidableEq M] (hinit : ∀ m marks r, A (.init m marks r))

include hindex hload hinit

theorem initializeTable_adds : ∀ (n : ℕ) (s : State M), Adds A t s →
    Always (Adds A t) (initializeTable P n s) := by
  intro n
  induction n with
  | zero => intro s h; exact h
  | succ n ih =>
    intro s h
    rw [initializeTable]
    split
    · refine always_load (h.log (hload _)) fun m => ?_
      have hs₁ := h.log (hload s.handle.tableIndex)
      generalize s.log (.load s.handle.tableIndex) = s₁ at hs₁
      dsimp only
      cases (P.info m).initFn with
      | none => exact ih _ (setIndex_adds hindex (hs₁.log (hinit _ _ _)) _)
      | some f =>
        have hturn : ∀ r, Adds A t ((s₁.setMark m .initializing).log
            (.init m (s₁.setMark m .initializing).marks r)) := fun r => hs₁.log (hinit _ _ r)
        dsimp only
        split
        · exact hturn _
        · exact ih _ (setIndex_adds hindex (hturn _) _)
    · split
      · exact h
      · exact h

include hstore in
/-- **Initialization** adds loads and turns to what the sort adds. -/
theorem moduleInitialization_adds (a : Alloc) (h : Adds A t s) :
    Always (Adds A t) (moduleInitialization P a s) := by
  have hs : Adds A t (moduleHandleInitialize a s P.linkerset.length) := h
  unfold moduleInitialization
  dsimp only
  cases (moduleHandleInitialize a s P.linkerset.length).handle.table with
  | none => exact hs
  | some t =>
    refine always_bind (topologicalSortModules_adds hstore hindex hs) fun s₁ hs₁ => ?_
    exact initializeTable_adds hindex hload hinit _ _ (setIndex_adds hindex hs₁ 0)

end Initialization

variable (hfina : ∀ m r, A (.fina m r))

include hindex hload hfina

theorem finalizeEntry_adds {i : ℕ} {next : State M → Exec M (State M)}
    (hnext : ∀ s, Adds A t s → Always (Adds A t) (next s)) (s : State M) (h : Adds A t s) :
    Always (Adds A t) (finalizeEntry P i next s) := by
  unfold finalizeEntry
  have hidx := setIndex_adds hindex h i
  refine always_load (hidx.log (hload i)) fun m => ?_
  have hs₁ := hidx.log (hload i)
  generalize (s.setIndex i).log (.load i) = s₁ at hs₁
  dsimp only
  cases (P.info m).finaFn with
  | none => exact hnext _ (hs₁.log (hfina m none))
  | some f =>
    dsimp only
    split
    · exact hs₁.log (hfina m _)
    · exact hnext _ (hs₁.log (hfina m _))

theorem finalizeTable_adds : ∀ (i : ℕ) (s : State M), Adds A t s →
    Always (Adds A t) (finalizeTable P i s) := by
  intro i
  induction i with
  | zero => exact finalizeEntry_adds hindex hload hfina fun s h => h
  | succ i ih => exact finalizeEntry_adds hindex hload hfina ih

/-- **Finalization** adds loads, turns and values of `table_index`. -/
theorem moduleFinalization_adds (h : Adds A t s) : Always (Adds A t) (moduleFinalization P s) := by
  unfold moduleFinalization
  cases s.handle.table with
  | none => exact h
  | some t => exact finalizeTable_adds hindex hload hfina _ s h

end Turns

/-! ## Prints and calls -/

/-- No line is printed. -/
def Event.Mute : Event M → Prop
  | .print _ => False
  | _ => True

theorem Adds.printed (h : Adds Event.Mute t s) : printed s.trace = printed t := by
  obtain ⟨ev, htr, hev⟩ := h
  have hnone : Linkerset.printed ev = [] := by
    refine List.filterMap_eq_nil_iff.2 fun e he => ?_
    have hmute := hev e he
    cases e with
    | print line => exact hmute.elim
    | _ => rfl
  rw [htr, printed_append, hnone, List.append_nil]

/-- Nothing is called in these events, and no module has its turn. -/
structure Silent (ev : List (Event M)) : Prop where
  calls : calls ev = []
  inits : initTurns ev = []
  finas : finaTurns ev = []

section Initialization

variable [DecidableEq M]

/-- **The sort prints nothing.** -/
theorem topologicalSortModules_printed (s : State M) :
    printed (topologicalSortModules P s).state.trace = printed s.trace :=
  Adds.printed (topologicalSortModules_adds (fun _ _ => trivial) (fun _ => trivial) (.refl _ s))

/-- **Initialization prints nothing.** -/
theorem moduleInitialization_printed (a : Alloc) (s : State M) :
    printed (moduleInitialization P a s).state.trace = printed s.trace :=
  Adds.printed (moduleInitialization_adds (fun _ _ => trivial) (fun _ => trivial) (fun _ => trivial)
    (fun _ _ _ => trivial) a (.refl _ s))

end Initialization

/-- **Finalization prints nothing.** -/
theorem moduleFinalization_printed (s : State M) :
    printed (moduleFinalization P s).state.trace = printed s.trace :=
  Adds.printed (moduleFinalization_adds (fun _ => trivial) (fun _ => trivial) (fun _ _ => trivial)
    (.refl _ s))

end Linkerset
