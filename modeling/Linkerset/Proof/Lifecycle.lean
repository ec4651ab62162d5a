import Linkerset.Proof.Finalize

/-!
# Using the handle more than once

The table belongs to the handle, and `module_handle_finalize` resets it. The marks
belong to the modules, and nothing resets them; nor does `module_finalization` release
the table when it is done.

* `repetitions_iff`: a program can be initialized, finalized and released once. The
  second time the sort takes all modules for done, and its assertion fails.
* `safe_calls_iff`: any calls of the two finalizing operations are safe, unless the first
  two are both `module_finalization`.
-/

namespace Linkerset

open Linkerset.Graph

variable {M : Type*} {P : ModuleSet M}

/-! ## What finalization preserves -/

/-- A property that holds after every turn holds after one round and the rest of the
loop, `next`. -/
theorem finalizeEntry_preserves {Q : State M → Prop} {i : ℕ} {next : State M → Exec M (State M)}
    (hturn : ∀ s m r, Q s → Q (s.finaTurn i m r)) (hfail : ∀ s, Q s → Q (s.setResult .failed))
    (hnext : ∀ s s', next s = .ok s' → Q s → Q s') {s s' : State M}
    (h : finalizeEntry P i next s = .ok s') (hQ : Q s) : Q s' := by
  cases hl : (s.setIndex i).load i with
  | error e =>
    rw [finalizeEntry_fault hl] at h
    cases h
  | ok x =>
    obtain ⟨m, s₁⟩ := x
    rw [State.load_eq_ok hl] at hl
    rw [finalizeEntry_step hl] at h
    cases hf : P.finaFn m with
    | none =>
      rw [hf] at h
      exact hnext (s.finaTurn i m none) s' h (hturn s m none hQ)
    | some f =>
      rw [hf] at h
      dsimp only at h
      split at h
      · exact hnext (s.finaTurn i m (some 0)) s' h (hturn s m (some 0) hQ)
      · rw [← Except.ok.inj h]
        exact hfail _ (hturn s m _ hQ)

/-- **What every turn preserves, the finalization loop preserves.** -/
theorem finalizeTable_preserves {Q : State M → Prop} {n : ℕ}
    (hturn : ∀ i ≤ n, ∀ s m r, Q s → Q (s.finaTurn i m r))
    (hfail : ∀ s, Q s → Q (s.setResult .failed)) :
    ∀ {i : ℕ} {s s' : State M}, i ≤ n → finalizeTable P i s = .ok s' → Q s → Q s' := by
  intro i
  induction i with
  | zero =>
    intro s s' hi h hQ
    refine finalizeEntry_preserves (hturn 0 hi) hfail ?_ h hQ
    intro s s' hs hQ
    rw [← Except.ok.inj hs]
    exact hQ
  | succ i ih =>
    intro s s' hi h hQ
    exact finalizeEntry_preserves (hturn (i + 1) hi) hfail (fun s s' => ih (by omega)) h hQ

/-- Finalization leaves the marks of the modules as they are. -/
theorem moduleFinalization_marks {s s' : State M} (h : moduleFinalization P s = .ok s') :
    s'.marks = s.marks := by
  unfold moduleFinalization at h
  split at h
  · rw [← Except.ok.inj h]
  · exact finalizeTable_preserves (Q := fun s₁ => s₁.marks = s.marks) (fun _ _ _ _ _ hm => hm)
      (fun _ hm => hm) le_rfl h rfl

/-- From `s` to `s₁`, `table_index` has taken values below `n` only. -/
def IndexBelow (n : ℕ) (s s₁ : State M) : Prop :=
  ∃ ev, s₁.trace = s.trace ++ ev ∧ ∀ v, .index v ∈ ev → v < n

theorem IndexBelow.refl (n : ℕ) (s : State M) : IndexBelow n s s := ⟨[], by simp, by simp⟩

theorem IndexBelow.finaTurn {n i : ℕ} {s s₁ : State M} (h : IndexBelow n s s₁) (hi : i < n) (m : M)
    (r : Option ℤ) : IndexBelow n s (s₁.finaTurn i m r) := by
  obtain ⟨ev, htr, hev⟩ := h
  refine ⟨ev ++ [.index i, .load i, .fina m r], by simp [State.finaTurn, htr], ?_⟩
  intro v hv
  rcases List.mem_append.1 hv with hv | hv
  · exact hev v hv
  · simp only [List.mem_cons, Event.index.injEq, reduceCtorEq, List.not_mem_nil, or_false] at hv
    omega

/-- From an index inside the table, `table_index` goes downwards only. -/
theorem moduleFinalization_indices {s s' : State M} (hpos : 0 < s.handle.tableIndex)
    (h : moduleFinalization P s = .ok s') : IndexBelow s.handle.tableIndex s s' := by
  obtain ⟨n, hn⟩ : ∃ n, s.handle.tableIndex = n + 1 := ⟨s.handle.tableIndex - 1, by omega⟩
  have hturn : ∀ i ≤ n, ∀ (s₁ : State M) m r, IndexBelow (n + 1) s s₁ →
      IndexBelow (n + 1) s (s₁.finaTurn i m r) := by
    intro i hi s₁ m r h₁
    exact h₁.finaTurn (by omega) m r
  have hfail : ∀ s₁ : State M, IndexBelow (n + 1) s s₁ →
      IndexBelow (n + 1) s (s₁.setResult .failed) := fun _ h₁ => h₁
  unfold moduleFinalization at h
  split at h
  · rw [← Except.ok.inj h]
    exact .refl _ s
  · rw [hn] at h ⊢
    exact finalizeTable_preserves hturn hfail le_rfl h (.refl _ s)

/-! ## Marks outlive the handle -/

variable [DecidableEq M]

/-- A linkerset of modules that are all marked is passed over. -/
theorem sortLinkerset_marked {s : State M} (hm : s.marks = allInitialized)
    (hs : s.handle.initState = .success) :
    ∀ l, sortLinkerset P l s =
      if s.handle.tableIndex = s.handle.tableSize then .ok s else .error (.assertion, s) := by
  intro l
  induction l with
  | nil => rfl
  | cons m l ih =>
    have hcall : topologicalSortModule P P.depth s m = .ok s := by
      unfold ModuleSet.depth
      rw [topologicalSortModule, hm]
      rfl
    rw [sortLinkerset, hcall]
    simp only [bind, Except.bind]
    rw [if_neg (by rw [hs]; exact not_not.2 rfl)]
    exact ih

/-- **With all modules marked**, nothing is sorted, and the assertion that the table is
full fails. -/
theorem moduleInitialization_marked {s : State M} (hne : P.linkerset ≠ [])
    (hm : s.marks = allInitialized) :
    ∃ s', moduleInitialization P .exact s = .error (.assertion, s') := by
  have hlen : P.linkerset.length ≠ 0 := by simpa using hne
  have ht : (moduleHandleInitialize .exact s P.linkerset.length).handle.table =
      some ⟨some P.linkerset.length, fun _ => none⟩ := if_pos hlen
  have hsort : topologicalSortModules P (moduleHandleInitialize .exact s P.linkerset.length) =
      .error (.assertion, moduleHandleInitialize .exact s P.linkerset.length) := by
    have hm' : (moduleHandleInitialize .exact s P.linkerset.length).marks = allInitialized := hm
    rw [topologicalSortModules, sortLinkerset_marked hm' rfl]
    exact if_neg hlen.symm
  refine ⟨moduleHandleInitialize .exact s P.linkerset.length, ?_⟩
  unfold moduleInitialization
  simp only [ht, hsort]
  rfl

/-! ## Repetitions -/

/-- **One repetition**, from memory `s` to `s'`: initialization, finalization and the
release of the handle. Every init function is called once, after those of the modules
that its module imports. -/
def Repetition (P : ModuleSet M) (s s' : State M) : Prop :=
  ∃ s₁ s₂ ev, moduleInitialization P .exact s = .ok s₁ ∧ s₁.handle.initState = .success ∧
    moduleFinalization P s₁ = .ok s₂ ∧ s' = moduleHandleFinalize .exact s₂ ∧
    s₁.trace = s.trace ++ ev ∧
    (∀ m, P.initFn m ≠ none → ((initCalls ev).map Prod.fst).count m = 1) ∧
    ∀ C₁ m r C₂, initCalls ev = C₁ ++ (m, r) :: C₂ →
      ∀ i, P.Imports m i → P.initFn i ≠ none → i ∈ C₁.map Prod.fst

/-- `n` repetitions, one after the other. -/
inductive Repetitions (P : ModuleSet M) : ℕ → State M → State M → Prop
  | zero {s : State M} : Repetitions P 0 s s
  | succ {n : ℕ} {s s₁ s' : State M} : Repetition P s s₁ → Repetitions P n s₁ s' →
      Repetitions P (n + 1) s s'

variable {ih : Handle M}

/-- The first repetition. -/
theorem exists_repetition (hac : ¬ P.Cyclic) (hne : P.linkerset ≠ [])
    (hzero : ∀ m f, P.initFn m = some f → ∀ h, f h = 0) (ih : Handle M) :
    ∃ s', Repetition P (State.boot ih) s' := by
  obtain ⟨s₁, ord, T, hI⟩ := moduleInitialization_acyclic hac hne ih
  have hpass : ∀ x ∈ T, Passed x.2 := hI.turns.passed hzero
  obtain ⟨s₂, F, hfin, -⟩ := hI.wholeRun hne hpass
  have hsucc : s₁.handle.initState = .success := (hI.success hpass).1
  refine ⟨_, s₁, s₂, s₁.trace, hI.run, hsucc, hfin, rfl, rfl, ?_, ?_⟩
  · intro m hm
    rw [initCalls, hI.inits]
    exact hI.count_called hpass hm
  · intro C₁ m r C₂ hC i hi hf
    rw [initCalls, hI.inits] at hC
    have hcalled : (i, 0) ∈ C₁ := hI.imports_called hC hi hf
    exact List.mem_map.2 ⟨_, hcalled, rfl⟩

/-- A repetition leaves all modules marked. -/
theorem Repetition.marks {s' : State M} (h : Repetition P (State.boot ih) s') (hac : ¬ P.Cyclic)
    (hne : P.linkerset ≠ []) : s'.marks = allInitialized := by
  obtain ⟨s₁, s₂, -, hrun, hs, hfin, rfl, -⟩ := h
  obtain ⟨s₀, ord, T, hI⟩ := moduleInitialization_acyclic hac hne ih
  obtain rfl : s₀ = s₁ := Except.ok.inj (hI.run.symm.trans hrun)
  have hmarks : s₀.marks = allInitialized := by
    obtain ⟨-, -, -, hm⟩ | ⟨-, -, hf, -⟩ := hI.ends
    · exact hm rfl
    · rw [hs] at hf
      cases hf
  exact (moduleFinalization_marks hfin).trans hmarks

/-- A repetition finds some module that is not marked. -/
theorem Repetition.not_marked {s s' : State M} (h : Repetition P s s') (hne : P.linkerset ≠ []) :
    s.marks ≠ allInitialized := by
  intro hm
  obtain ⟨s₁, s₂, -, hrun, -⟩ := h
  obtain ⟨s₀, herr⟩ := moduleInitialization_marked hne hm
  rw [herr] at hrun
  cases hrun

/-- **A program can be started once**: `n` repetitions are possible exactly for `n ≤ 1`. -/
theorem repetitions_iff (hac : ¬ P.Cyclic) (hne : P.linkerset ≠ [])
    (hzero : ∀ m f, P.initFn m = some f → ∀ h, f h = 0) (ih : Handle M) (n : ℕ) :
    (∃ s', Repetitions P n (State.boot ih) s') ↔ n ≤ 1 := by
  constructor
  · rintro ⟨s', h⟩
    cases h with
    | zero => omega
    | succ h₁ hrest =>
      cases hrest with
      | zero => omega
      | succ h₂ _ => exact absurd (h₁.marks hac hne) (h₂.not_marked hne)
  · intro hn
    obtain rfl | rfl : n = 0 ∨ n = 1 := by omega
    · exact ⟨_, .zero⟩
    · obtain ⟨s', h⟩ := exists_repetition hac hne hzero ih
      exact ⟨s', .succ h .zero⟩

theorem repetitions_iff_example :
    (∃ s', Repetitions (exampleProgram fun _ => 0) 1 (State.boot default) s') ↔ 1 ≤ 1 :=
  repetitions_iff (exampleProgram_acyclic _) (exampleProgram_ne_nil _) exampleProgram_init_zero
    default 1

/-- The second initialization stops at the assertion of the sort. -/
theorem exampleProgram_not_repeated : ¬ (exampleProgram fun _ => 0).Cyclic ∧
    (∃ s₁ s₂ s₃, moduleInitialization (exampleProgram fun _ => 0) .exact (State.boot default) = .ok s₁ ∧
      moduleFinalization (exampleProgram fun _ => 0) s₁ = .ok s₂ ∧
      moduleInitialization (exampleProgram fun _ => 0) .exact (moduleHandleFinalize .exact s₂) =
        .error (.assertion, s₃)) ∧
    ¬ ∃ s', Repetitions (exampleProgram fun _ => 0) 2 (State.boot default) s' := by
  refine ⟨exampleProgram_acyclic _, ⟨_, _, _, rfl, rfl, rfl⟩, ?_⟩
  rintro ⟨s', h⟩
  have hne := exampleProgram_ne_nil fun _ => 0
  cases h with
  | succ h₁ hrest =>
    cases hrest with
    | succ h₂ _ => exact h₂.not_marked hne (h₁.marks (exampleProgram_acyclic _) hne)

/-! ## Calls after the initialization -/

/-- A call on the handle. -/
inductive HandleCall where
  | finalization
  | handleFinalize
  deriving DecidableEq, Repr

omit [DecidableEq M] in
/-- Calls on the handle, one after the other. -/
def runCalls (P : ModuleSet M) (cs : List HandleCall) (s : State M) : Exec M (State M) :=
  cs.foldlM (fun s c =>
    match c with
    | .finalization => moduleFinalization P s
    | .handleFinalize => .ok (moduleHandleFinalize .exact s)) s

omit [DecidableEq M] in
/-- **The calls `cs` are safe** in the memory `s`, the events being `ev`. -/
structure SafeCalls (P : ModuleSet M) (s : State M) (cs : List HandleCall) (ev : List (Event M)) :
    Prop where
  /-- Only table entries are accessed. -/
  inTable : ∀ i, .load i ∈ ev → i < s.handle.tableSize
  /-- `table_index` does not go below 0. -/
  noWrap : .index uintMax ∉ ev
  /-- No fina function is called twice. -/
  once : ((finaCalls ev).map Prod.fst).Nodup
  /-- After a finalization that has completed, nothing is called. -/
  quiet : ∀ pre post s₁, cs = pre ++ post → .finalization ∈ pre → runCalls P pre s = .ok s₁ →
    calls (runCalls P cs s).state.trace = calls s₁.trace

omit [DecidableEq M] in
/-- Without a table, nothing is done. -/
theorem runCalls_null : ∀ {cs : List HandleCall} {s : State M}, s.handle.table = none →
    ∃ s', runCalls P cs s = .ok s' ∧ s'.trace = s.trace := by
  intro cs
  induction cs with
  | nil => intro s _; exact ⟨s, rfl, rfl⟩
  | cons c cs ih =>
    intro s ht
    cases c with
    | finalization =>
      obtain ⟨s', hrun, htr⟩ := ih ht
      refine ⟨s', ?_, htr⟩
      rw [runCalls, List.foldlM_cons, moduleFinalization, ht]
      exact hrun
    | handleFinalize =>
      obtain ⟨s', hrun, htr⟩ := ih (s := moduleHandleFinalize .exact s) rfl
      exact ⟨s', hrun, htr⟩

omit [DecidableEq M] in
/-- Calls that start with the release of the handle do nothing else. -/
theorem runCalls_released {pre post : List HandleCall} (hcs : .finalization ∉ (pre ++ post).head?)
    (s : State M) : ∃ s', runCalls P pre s = .ok s' ∧ s'.trace = s.trace := by
  rcases pre with _ | ⟨c, pre⟩
  · exact ⟨s, rfl, rfl⟩
  · cases c with
    | finalization => exact absurd rfl hcs
    | handleFinalize =>
      have ht : (moduleHandleFinalize .exact s).handle.table = none := rfl
      obtain ⟨s', hrun, htr⟩ := runCalls_null (P := P) ht
      exact ⟨s', hrun, htr⟩

omit [DecidableEq M] in
theorem runCalls_released_trace {cs : List HandleCall} (hcs : .finalization ∉ cs.head?) (s : State M) :
    (runCalls P cs s).state.trace = s.trace := by
  have hcs' : .finalization ∉ (cs ++ []).head? := by simpa using hcs
  obtain ⟨s', hrun, htr⟩ := runCalls_released (P := P) hcs' s
  rw [hrun]
  exact htr

omit [DecidableEq M] in
theorem runCalls_finalization {cs : List HandleCall} {s s₁ : State M}
    (hrun : moduleFinalization P s = .ok s₁) :
    runCalls P (.finalization :: cs) s = runCalls P cs s₁ := by
  rw [runCalls, List.foldlM_cons, hrun]
  rfl

/-- **The first finalization** after a successful initialization is safe, and leaves
`table_index` at 0. -/
theorem Initialized.finalization {s : State M} {ord : List M} {T : List (M × Option ℤ)}
    (h : Initialized P ih s ord T) (hne : P.linkerset ≠ []) (hpass : ∀ x ∈ T, Passed x.2)
    (hfina : ∀ m f, P.finaFn m = some f → ∀ h, f h = 0) :
    ∃ s₁ ev, moduleFinalization P s = .ok s₁ ∧ s₁.trace = s.trace ++ ev ∧
      (∀ i, .load i ∈ ev → i < s.handle.tableSize) ∧ .index uintMax ∉ ev ∧
      ((finaCalls ev).map Prod.fst).Nodup ∧ s₁.handle.tableIndex = 0 ∧
      s₁.extent = some (some P.linkerset.length) := by
  obtain ⟨-, hidx⟩ := h.success hpass
  have hpos : 0 < s.handle.tableIndex := by rw [hidx]; exact h.length_pos hne
  obtain ⟨s₁, F, ev, hrun, hR⟩ := h.firstFinalization hne hpass
  refine ⟨s₁, ev, hrun, hR.trace, ?_, ?_, ?_, ?_, ?_⟩
  · intro i hi
    have hlt := hR.loads i hi
    rw [List.length_reverse] at hlt
    rw [h.holds.size]
    exact hlt
  · intro hmem
    obtain ⟨ev', htr', hev'⟩ := moduleFinalization_indices (P := P) hpos hrun
    obtain rfl : ev = ev' := List.append_cancel_left (hR.trace.symm.trans htr')
    have hlt := hev' uintMax hmem
    -- the table has fewer than `uintMax` entries
    have hfits := P.fits
    rw [hidx, h.perm.length_eq] at hlt
    omega
  · have hnodup := hR.turns.nodup (List.nodup_reverse.2 h.topo.nodup)
    rw [finaCalls, hR.finas]
    exact hnodup.sublist (called_sublist F)
  · exact (hR.ends.success (hR.turns.passed hfina)).1
  · exact (congrArg (Option.map Table.extent) hR.table).trans h.extent

omit [DecidableEq M] in
/-- Calls that start with the release of the handle are safe. -/
theorem SafeCalls.of_released {s : State M} {cs : List HandleCall} (hcs : .finalization ∉ cs.head?) :
    SafeCalls P s cs [] where
  inTable := by simp
  noWrap := by simp
  once := .nil
  quiet := by
    rintro pre post s₁ rfl - hrun
    obtain ⟨s₂, hrun₂, htr⟩ := runCalls_released (P := P) hcs s
    obtain rfl : s₁ = s₂ := Except.ok.inj (hrun.symm.trans hrun₂)
    rw [runCalls_released_trace hcs, htr]

omit [DecidableEq M] in
/-- One finalization that is safe, followed by the release of the handle, is safe. -/
theorem SafeCalls.of_finalization {s s₁ : State M} {cs : List HandleCall} {ev : List (Event M)}
    (hfin : moduleFinalization P s = .ok s₁) (hload : ∀ i, .load i ∈ ev → i < s.handle.tableSize)
    (hindex : .index uintMax ∉ ev) (honce : ((finaCalls ev).map Prod.fst).Nodup)
    (hcs : .finalization ∉ cs.head?) : SafeCalls P s (.finalization :: cs) ev where
  inTable := hload
  noWrap := hindex
  once := honce
  quiet := by
    intro pre post s₂ heq hpre hrun
    -- the completed calls start with this finalization
    cases pre with
    | nil => cases hpre
    | cons c pre =>
      obtain ⟨rfl, rfl⟩ := List.cons.inj heq
      obtain ⟨s₃, hrun₃, htr⟩ := runCalls_released (P := P) hcs s₁
      rw [runCalls_finalization hfin] at hrun
      obtain rfl : s₂ = s₃ := Except.ok.inj (hrun.symm.trans hrun₃)
      rw [runCalls_finalization hfin, runCalls_released_trace hcs, htr]

omit [DecidableEq M] in
/-- A second finalization leaves the table. -/
theorem runCalls_twice {s s₁ : State M} {cs : List HandleCall}
    (hfin : moduleFinalization P s = .ok s₁) (h0 : s₁.handle.tableIndex = 0)
    (hext : s₁.extent = some (some P.linkerset.length)) :
    (runCalls P (.finalization :: .finalization :: cs) s).state.trace =
      s₁.trace ++ [.index uintMax, .load uintMax] := by
  have hwrap := moduleFinalization_wraps (P := P) hext h0
  rw [runCalls_finalization hfin, runCalls, List.foldlM_cons, hwrap]
  simp [bind, Except.bind, Exec.state]

/-- **Any calls are safe**, unless the first two are both `module_finalization`. -/
theorem safe_calls_iff (hac : ¬ P.Cyclic) (hne : P.linkerset ≠ [])
    (hinit : ∀ m f, P.initFn m = some f → ∀ h, f h = 0)
    (hfina : ∀ m f, P.finaFn m = some f → ∀ h, f h = 0) (ih : Handle M) (cs : List HandleCall) :
    ∃ s ev, moduleInitialization P .exact (State.boot ih) = .ok s ∧ s.handle.initState = .success ∧
      (runCalls P cs s).state.trace = s.trace ++ ev ∧
      (SafeCalls P s cs ev ↔ ∀ rest, cs ≠ .finalization :: .finalization :: rest) := by
  obtain ⟨s, ord, T, hI⟩ := moduleInitialization_acyclic hac hne ih
  have hpass : ∀ x ∈ T, Passed x.2 := hI.turns.passed hinit
  have hsucc : s.handle.initState = .success := (hI.success hpass).1
  by_cases hhead : .finalization ∈ cs.head?
  · obtain ⟨cs, rfl⟩ := List.head?_eq_some_iff.1 hhead
    obtain ⟨s₁, ev, hfin, htr, hload, hindex, honce, h0, hext⟩ := hI.finalization hne hpass hfina
    by_cases hhead' : .finalization ∈ cs.head?
    · obtain ⟨cs, rfl⟩ := List.head?_eq_some_iff.1 hhead'
      refine ⟨s, ev ++ [.index uintMax, .load uintMax], hI.run, hsucc, ?_, ?_, ?_⟩
      · rw [runCalls_twice hfin h0 hext, htr, List.append_assoc]
      · intro hsafe
        exact absurd (List.mem_append_right ev (List.mem_cons_self ..)) hsafe.noWrap
      · intro h
        exact absurd rfl (h cs)
    · refine ⟨s, ev, hI.run, hsucc, ?_, ?_, fun _ => .of_finalization hfin hload hindex honce hhead'⟩
      · rw [runCalls_finalization hfin, runCalls_released_trace hhead', htr]
      · rintro - rest hcs
        cases hcs
        exact hhead' rfl
  · refine ⟨s, [], hI.run, hsucc, ?_, ?_, fun _ => .of_released hhead⟩
    · rw [runCalls_released_trace hhead, List.append_nil]
    · rintro - rest rfl
      exact hhead rfl

theorem safe_calls_iff_example : ∃ s ev,
    moduleInitialization (exampleProgram fun _ => 0) .exact (State.boot default) = .ok s ∧
      s.handle.initState = .success ∧
      (runCalls (exampleProgram fun _ => 0) [.finalization, .handleFinalize] s).state.trace =
        s.trace ++ ev ∧
      (SafeCalls (exampleProgram fun _ => 0) s [.finalization, .handleFinalize] ev ↔
        ∀ rest, [HandleCall.finalization, .handleFinalize] ≠ .finalization :: .finalization :: rest) :=
  safe_calls_iff (exampleProgram_acyclic _) (exampleProgram_ne_nil _) exampleProgram_init_zero
    exampleProgram_fina_zero default _

/-- Two finalizations in a row use the entry at index 4294967295. -/
theorem exampleProgram_finalized_twice : ¬ (exampleProgram fun _ => 0).Cyclic ∧
    ∃ s s', moduleInitialization (exampleProgram fun _ => 0) .exact (State.boot default) = .ok s ∧
      s.handle.initState = .success ∧
      runCalls (exampleProgram fun _ => 0) [.finalization, .finalization] s =
        .error (.outOfBounds uintMax, s') ∧
      ∀ ev, s'.trace = s.trace ++ ev →
        ¬ SafeCalls (exampleProgram fun _ => 0) s [.finalization, .finalization] ev := by
  obtain ⟨s, s₁, hinit, hs, hidx, hfin, h0, hext⟩ : ∃ s s₁,
      moduleInitialization (exampleProgram fun _ => 0) .exact (State.boot default) = .ok s ∧
        s.handle.initState = .success ∧ s.handle.tableIndex = 3 ∧
        moduleFinalization (exampleProgram fun _ => 0) s = .ok s₁ ∧ s₁.handle.tableIndex = 0 ∧
        s₁.extent = some (some 3) := ⟨_, _, rfl, rfl, rfl, rfl, rfl, rfl⟩
  refine ⟨exampleProgram_acyclic _, s, (s₁.setIndex uintMax).log (.load uintMax), hinit, hs, ?_, ?_⟩
  · rw [runCalls_finalization hfin, runCalls, List.foldlM_cons, moduleFinalization_wraps hext h0]
    rfl
  · intro ev htr hsafe
    obtain ⟨ev₁, htr₁, -⟩ := moduleFinalization_indices (by omega) hfin
    rw [State.log_trace, State.setIndex_trace, htr₁, List.append_assoc, List.append_assoc] at htr
    apply hsafe.noWrap
    rw [← List.append_cancel_left htr]
    simp

end Linkerset
