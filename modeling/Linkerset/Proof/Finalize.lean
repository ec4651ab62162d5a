import Linkerset.Proof.InitCalls

/-!
# `module_finalization`

`finalizeTable_run`: from index `i` on, the loop is a run of turns over the modules
at `i`, `i - 1`, …, `0`.

* `finalization_nested`: after a successful initialization, modules are finalized in
  the reverse order, each after all those that import it.
* `finalizes_failure_iff`: after a failed initialization, finalization does what it
  should exactly when it was not the first module of the table that failed; after
  that, `table_index` is 0 and is decremented before it is used.
-/

namespace Linkerset

open Linkerset.Graph

variable {M : Type*} {P : ModuleSet M}

/-- How the finalization loop over `k` modules ends: after its last turn, or in one
that fails. -/
inductive FinaEnd (res : InitializationResult) (s' : State M) (k : ℕ) : List (M × Option ℤ) → Prop
  | all {T : List (M × Option ℤ)} : (∀ x ∈ T, Passed x.2) → s'.handle.initState = res →
      s'.handle.tableIndex = 0 → FinaEnd res s' k T
  | failed {T : List (M × Option ℤ)} {m : M} {r : ℤ} : (∀ x ∈ T, Passed x.2) → r ≠ 0 →
      s'.handle.initState = .failed → s'.handle.tableIndex + T.length + 1 = k →
      FinaEnd res s' k (T ++ [(m, some r)])

/-- When all turns pass, the loop ends at the front of the table. -/
theorem FinaEnd.success {res : InitializationResult} {s' : State M} {k : ℕ} {T : List (M × Option ℤ)}
    (h : FinaEnd res s' k T) (hp : ∀ x ∈ T, Passed x.2) :
    s'.handle.tableIndex = 0 ∧ s'.handle.initState = res := by
  obtain ⟨-, hs, hx⟩ | ⟨-, hr, -⟩ := h
  · exact ⟨hx, hs⟩
  · exact absurd (eq_zero_of_last hp) hr

/-- **A run of the finalization loop** over `l`, with the turns `T` and the events `ev`. -/
structure FinaRun (P : ModuleSet M) (s s' : State M) (l : List M) (T : List (M × Option ℤ))
    (ev : List (Event M)) : Prop where
  turns : Turns P.finaFn .fina (calls s.trace) l T
  trace : s'.trace = s.trace ++ ev
  inits : initTurns ev = []
  finas : finaTurns ev = T
  loads : ∀ i, .load i ∈ ev → i < l.length
  table : s'.handle.table = s.handle.table
  size : s'.handle.tableSize = s.handle.tableSize
  ends : FinaEnd s.handle.initState s' l.length T

/-- Memory after the turn of `m` at index `i`. -/
def State.finaTurn (s : State M) (i : ℕ) (m : M) (r : Option ℤ) : State M :=
  { s with
    handle := { s.handle with tableIndex := i }
    trace := s.trace ++ [.index i, .load i, .fina m r] }

/-- **One round of the loop**, in one equation. -/
theorem finalizeEntry_step {s : State M} {i : ℕ} {m : M} {next : State M → Exec M (State M)}
    (hload : (s.setIndex i).load i = .ok (m, (s.setIndex i).log (.load i))) :
    finalizeEntry P i next s =
      match P.finaFn m with
      | none => next (s.finaTurn i m none)
      | some f =>
        if f (calls s.trace) = 0 then next (s.finaTurn i m (some 0))
        else .ok ((s.finaTurn i m (some (f (calls s.trace)))).setResult .failed) := by
  have hcalls : calls (s.trace ++ [.index i, .load i]) = calls s.trace := by
    rw [calls_append]; simp [calls]
  unfold finalizeEntry
  simp only [hload, bind, Except.bind, ModuleSet.finaFn]
  cases (P.info m).finaFn with
  | none => simp [State.finaTurn, State.log, State.setIndex]
  | some f =>
    simp only [State.log_trace, State.setIndex_trace, List.append_assoc, List.cons_append,
      List.nil_append, hcalls, ne_eq, ite_not]
    split
    · rename_i hf
      simp [State.finaTurn, State.log, State.setIndex, hf]
    · simp [State.finaTurn, State.log, State.setIndex, State.setResult, pure, Except.pure]

theorem finalizeEntry_fault {s : State M} {i : ℕ} {next : State M → Exec M (State M)}
    {e : Fault × State M} (hload : (s.setIndex i).load i = .error e) :
    finalizeEntry P i next s = .error e := by
  unfold finalizeEntry
  simp only [hload, bind, Except.bind]

/-- **One turn that passes**, in front of the rest of the run. -/
theorem FinaRun.cons {s s' : State M} {i : ℕ} {m : M} {l : List M} {r : Option ℤ}
    {T : List (M × Option ℤ)} {ev : List (Event M)} (hl : l.length = i)
    (hrest : FinaRun P (s.finaTurn i m r) s' l T ev)
    (hturns : Turns P.finaFn .fina (calls (s.finaTurn i m r).trace) l T →
      Turns P.finaFn .fina (calls s.trace) (m :: l) ((m, r) :: T))
    (hr : Passed r) :
    FinaRun P s s' (m :: l) ((m, r) :: T) ([.index i, .load i, .fina m r] ++ ev) where
  turns := hturns hrest.turns
  trace := by rw [hrest.trace, State.finaTurn, List.append_assoc]
  inits := by rw [initTurns_append, hrest.inits]; rfl
  finas := by rw [finaTurns_append, hrest.finas]; rfl
  loads := by
    intro j hj
    rcases List.mem_append.1 hj with hj | hj
    · simp at hj; simp [hj, hl]
    · have hlt := hrest.loads j hj
      rw [List.length_cons]; omega
  table := hrest.table
  size := hrest.size
  ends := by
    cases hrest.ends with
    | all hp hi hx => exact .all (passed_cons.2 ⟨hr, hp⟩) hi hx
    | failed hp h0 hi hx =>
      rw [← List.cons_append]
      exact .failed (passed_cons.2 ⟨hr, hp⟩) h0 hi (by rw [List.length_cons, List.length_cons]; omega)

/-- **One round of the loop**, in front of a rest that runs over `l`. -/
theorem finalizeEntry_run {s : State M} {i : ℕ} {m : M} {l : List M}
    {next : State M → Exec M (State M)} (hl : l.length = i)
    (hload : (s.setIndex i).load i = .ok (m, (s.setIndex i).log (.load i)))
    (hnext : ∀ r, ∃ s' T ev, next (s.finaTurn i m r) = .ok s' ∧
      FinaRun P (s.finaTurn i m r) s' l T ev) :
    ∃ s' T ev, finalizeEntry P i next s = .ok s' ∧ FinaRun P s s' (m :: l) T ev := by
  rw [finalizeEntry_step hload]
  cases hf : P.finaFn m with
  | none =>
    obtain ⟨s', T, ev, hrun, hR⟩ := hnext none
    refine ⟨s', _, _, hrun, hR.cons hl ?_ passed_none⟩
    intro ht
    have hc : calls (s.finaTurn i m none).trace = calls s.trace := by simp [State.finaTurn, calls]
    exact .null hf (hc ▸ ht)
  | some f =>
    by_cases hr : f (calls s.trace) = 0
    · obtain ⟨s', T, ev, hrun, hR⟩ := hnext (some 0)
      dsimp only
      rw [if_pos hr]
      refine ⟨s', _, _, hrun, hR.cons hl ?_ (passed_some.2 rfl)⟩
      intro ht
      have hc : calls (s.finaTurn i m (some 0)).trace = calls s.trace ++ [.fina m 0] := by
        simp [State.finaTurn, calls]
      exact .pass hf hr (hc ▸ ht)
    · dsimp only
      rw [if_neg hr]
      refine ⟨_, _, _, rfl, .fail hf hr, rfl, rfl, rfl, ?_, rfl, rfl, ?_⟩
      · intro j hj
        simp at hj
        simp [hj, hl]
      · exact FinaEnd.failed (T := []) (by simp) hr rfl (by simp [State.finaTurn, hl])

/-- **The finalization loop gives the modules of the table their turns**, from index
`i` downwards. -/
theorem finalizeTable_run : ∀ {i : ℕ} {s : State M} {l : List M}, Holds s l → i < l.length →
    ∃ s' T ev, finalizeTable P i s = .ok s' ∧ FinaRun P s s' (l.take (i + 1)).reverse T ev := by
  intro i
  induction i with
  | zero =>
    intro s l h hi
    have hl : l[0]? = some l[0] := List.getElem?_eq_getElem hi
    have hh : Holds (s.setIndex 0) l := h.of_handle rfl rfl
    have htake : (l.take 1).reverse = [l[0]] := by rw [List.take_one, List.head?_eq_getElem?, hl]; rfl
    rw [finalizeTable, htake]
    refine finalizeEntry_run rfl (hh.load hl) fun r => ⟨_, [], [], rfl, ?_⟩
    exact ⟨.nil, by simp, rfl, rfl, by simp, rfl, rfl, .all (by simp) rfl rfl⟩
  | succ i ih =>
    intro s l h hi
    have hl : l[i + 1]? = some l[i + 1] := List.getElem?_eq_getElem hi
    have hh : Holds (s.setIndex (i + 1)) l := h.of_handle rfl rfl
    have htake : (l.take (i + 1 + 1)).reverse = l[i + 1] :: (l.take (i + 1)).reverse := by
      rw [List.take_succ_eq_append_getElem hi, List.reverse_append]; rfl
    rw [finalizeTable, htake]
    refine finalizeEntry_run (by simp; omega) (hh.load hl) fun r => ?_
    exact ih (h.of_handle rfl rfl) (by omega)

/-- **One call of `module_finalization`**, from an index inside the table. -/
theorem moduleFinalization_run {s : State M} {l : List M} (h : Holds s l)
    (hpos : 0 < s.handle.tableIndex) (hle : s.handle.tableIndex ≤ l.length) :
    ∃ s' T ev, moduleFinalization P s = .ok s' ∧
      FinaRun P s s' (l.take s.handle.tableIndex).reverse T ev := by
  obtain ⟨i, hi⟩ : ∃ i, s.handle.tableIndex = i + 1 := ⟨s.handle.tableIndex - 1, by omega⟩
  obtain ⟨t, ht, -⟩ := h.table
  obtain ⟨s', T, ev, hrun, hR⟩ := finalizeTable_run (P := P) h (show i < l.length by omega)
  refine ⟨s', T, ev, ?_, by rw [hi]; exact hR⟩
  unfold moduleFinalization
  simp only [ht, hi]
  exact hrun

/-! ## After a successful initialization -/

/-- **The nesting of a whole run**: what is known after initialization and one
finalization, in memory `s'`. -/
structure NestedRun (P : ModuleSet M) (s' : State M) : Prop where
  /-- The finalization turns are taken in the reverse order of the initialization turns. -/
  reversed : (finaTurns s'.trace).map Prod.fst <+: ((initTurns s'.trace).map Prod.fst).reverse
  /-- No fina function is called twice. -/
  once : ((finaCalls s'.trace).map Prod.fst).Nodup
  /-- At the turn of `m`, all modules that import it have been finalized. -/
  importersFirst : ∀ F₁ m r F₂, finaTurns s'.trace = F₁ ++ (m, r) :: F₂ →
    ∀ i, P.Imports i m → ∃ o, (i, o) ∈ F₁ ∧ Passed o
  /-- Between the two turns of `m`, what it imports is initialized and not finalized. -/
  nested : ∀ t₁ t₂, s'.trace = t₁ ++ t₂ → ∀ m, m ∈ (initTurns t₁).map Prod.fst →
    m ∉ (finaTurns t₁).map Prod.fst →
    ∀ i, P.Imports m i → FullyInitialized t₁ i ∧ i ∉ (finaTurns t₁).map Prod.fst
  success : (∀ x ∈ finaCalls s'.trace, x.2 = 0) →
    (∀ m, P.finaFn m ≠ none → m ∈ (finaCalls s'.trace).map Prod.fst) ∧
      s'.handle.tableIndex = 0 ∧ s'.handle.initState = .success
  failure : (¬ ∀ x ∈ finaCalls s'.trace, x.2 = 0) →
    s'.handle.initState = .failed ∧
      ∃ C m r, finaCalls s'.trace = C ++ [(m, r)] ∧ r ≠ 0 ∧ (∀ x ∈ C, x.2 = 0) ∧
        s'.entry s'.handle.tableIndex = some m ∧
        ∀ i < s'.handle.tableIndex, ∀ x, s'.entry i = some x →
          x ∉ (finaCalls s'.trace).map Prod.fst

/-- A successful initialization and one finalization: the modules of the table have
taken the turns `T` in order, and the turns `F` in reverse. -/
structure WholeRun (P : ModuleSet M) (s' : State M) (ord : List M) (T F : List (M × Option ℤ)) :
    Prop where
  topo : Topo P.imports ord
  mem : ∀ m, m ∈ ord
  inits : initTurns s'.trace = T
  finas : finaTurns s'.trace = F
  initialization : Turns P.initFn .init [] ord T
  initialized : ∀ x ∈ T, Passed x.2
  finalization : ∃ h, Turns P.finaFn .fina h ord.reverse F
  holds : Holds s' ord
  ends : FinaEnd .success s' ord.length F

namespace WholeRun

variable {s' : State M} {ord : List M} {T F : List (M × Option ℤ)}

theorem reversed (h : WholeRun P s' ord T F) :
    (finaTurns s'.trace).map Prod.fst <+: ((initTurns s'.trace).map Prod.fst).reverse := by
  obtain ⟨c, hF⟩ := h.finalization
  rw [h.inits, h.finas, h.initialization.complete h.initialized]
  exact hF.front

theorem once (h : WholeRun P s' ord T F) : ((finaCalls s'.trace).map Prod.fst).Nodup := by
  obtain ⟨c, hF⟩ := h.finalization
  have hnodup : (F.map Prod.fst).Nodup := hF.nodup (List.nodup_reverse.2 h.topo.nodup)
  rw [finaCalls, h.finas]
  exact hnodup.sublist (called_sublist F)

/-- Read backwards, the turns before that of `m` are the modules behind it in the table. -/
theorem order_split (h : WholeRun P s' ord T F) {F₁ F₂ : List (M × Option ℤ)} {m : M}
    {r : Option ℤ} (hF : F = F₁ ++ (m, r) :: F₂) :
    (∀ x ∈ F₁, Passed x.2) ∧ ∃ B, ord = B ++ m :: (F₁.map Prod.fst).reverse := by
  obtain ⟨c, hturns⟩ := h.finalization
  obtain ⟨hpass, B, hB⟩ := hturns.split hF
  have hrev := congrArg List.reverse hB
  exact ⟨hpass, B.reverse, by simpa using hrev⟩

/-- A finalization turn finds all importers finalized. -/
theorem importersFirst (h : WholeRun P s' ord T F) {F₁ F₂ : List (M × Option ℤ)} {m i : M}
    {r : Option ℤ} (hF : F = F₁ ++ (m, r) :: F₂) (hi : P.Imports i m) :
    ∃ o, (i, o) ∈ F₁ ∧ Passed o := by
  obtain ⟨c, hturns⟩ := h.finalization
  obtain ⟨hpass, -⟩ := hturns.split hF
  have hfront := hturns.front
  rw [hF, List.map_append, List.map_cons] at hfront
  have hiF : i ∈ F₁.map Prod.fst := h.topo.mem_of_prefix_reverse hfront (h.mem i) hi
  obtain ⟨⟨i, o⟩, ho, rfl⟩ := List.mem_map.1 hiF
  exact ⟨o, ho, hpass _ ho⟩

/-- After the initialization of `m`, what it imports is initialized. -/
theorem imports_initialized (h : WholeRun P s' ord T F) {t₁ t₂ : List (Event M)}
    (htr : s'.trace = t₁ ++ t₂) {m i : M} (hm : m ∈ (initTurns t₁).map Prod.fst)
    (hi : P.Imports m i) : FullyInitialized t₁ i := by
  obtain ⟨⟨m, r⟩, hmr, rfl⟩ := List.mem_map.1 hm
  obtain ⟨A, B, hAB⟩ := List.append_of_mem hmr
  have hT : T = A ++ (m, r) :: (B ++ initTurns t₂) := by
    rw [← h.inits, htr, initTurns_append, hAB, List.append_assoc, List.cons_append]
  obtain ⟨hpass, C, hC⟩ := h.initialization.split hT
  have htopo := h.topo
  rw [hC] at htopo
  have hsub : A ⊆ initTurns t₁ := by rw [hAB]; exact List.subset_append_left _ _
  exact fullyInitialized_of_passed hsub hpass (htopo.before hi)

/-- Before the finalization of `m`, what it imports is not finalized. -/
theorem imports_unfinalized (h : WholeRun P s' ord T F) {t₁ t₂ : List (Event M)}
    (htr : s'.trace = t₁ ++ t₂) {m i : M} (hm : m ∉ (finaTurns t₁).map Prod.fst)
    (hi : P.Imports m i) : i ∉ (finaTurns t₁).map Prod.fst := by
  intro hit
  obtain ⟨⟨i, r⟩, hir, rfl⟩ := List.mem_map.1 hit
  obtain ⟨A, B, hAB⟩ := List.append_of_mem hir
  have hF : F = A ++ (i, r) :: (B ++ finaTurns t₂) := by
    rw [← h.finas, htr, finaTurns_append, hAB, List.append_assoc, List.cons_append]
  -- the turn of `i` comes after that of `m`, which is one of its importers
  obtain ⟨o, ho, -⟩ := h.importersFirst hF hi
  have hmt : (m, o) ∈ finaTurns t₁ := by rw [hAB]; exact List.mem_append_left _ ho
  exact hm (List.mem_map.2 ⟨(m, o), hmt, rfl⟩)

theorem success (h : WholeRun P s' ord T F) (hall : ∀ x ∈ finaCalls s'.trace, x.2 = 0) :
    (∀ m, P.finaFn m ≠ none → m ∈ (finaCalls s'.trace).map Prod.fst) ∧
      s'.handle.tableIndex = 0 ∧ s'.handle.initState = .success := by
  obtain ⟨c, hturns⟩ := h.finalization
  rw [finaCalls, h.finas] at hall ⊢
  have hpass : ∀ x ∈ F, Passed x.2 := passed_of_called hall
  refine ⟨fun m hm => (mem_called_map hturns).2 ⟨?_, hm⟩, ?_⟩
  · rw [hturns.complete hpass]
    exact List.mem_reverse.2 (h.mem m)
  · exact h.ends.success hpass

theorem failure (h : WholeRun P s' ord T F) (hfail : ¬ ∀ x ∈ finaCalls s'.trace, x.2 = 0) :
    s'.handle.initState = .failed ∧
      ∃ C m r, finaCalls s'.trace = C ++ [(m, r)] ∧ r ≠ 0 ∧ (∀ x ∈ C, x.2 = 0) ∧
        s'.entry s'.handle.tableIndex = some m ∧
        ∀ i < s'.handle.tableIndex, ∀ x, s'.entry i = some x →
          x ∉ (finaCalls s'.trace).map Prod.fst := by
  rw [finaCalls, h.finas] at hfail ⊢
  obtain ⟨hpass, -⟩ | @⟨F₁, m, r, hpass, hr, hs, hx⟩ := h.ends
  · exact absurd (called_of_passed hpass) hfail
  obtain ⟨-, B, hord⟩ := h.order_split (show F₁ ++ [(m, some r)] = F₁ ++ (m, some r) :: [] from rfl)
  have hlen : s'.handle.tableIndex = B.length := by
    have hordlen := congrArg List.length hord
    simp only [List.length_append, List.length_cons, List.length_reverse, List.length_map] at hordlen
    omega
  refine ⟨hs, called F₁, m, r, by rw [called_append]; rfl, hr, called_of_passed hpass, ?_, ?_⟩
  · apply h.holds.entry
    rw [hlen, hord]; simp
  · intro i hi x hix hmem
    -- `x` stands below the failed module, so it has had no turn
    have hxB : x ∈ B := by
      rw [hlen] at hi
      have hox := h.holds.getElem? (by rw [hord, List.length_append]; omega) hix
      rw [hord, List.getElem?_append_left hi] at hox
      exact List.mem_of_getElem? hox
    have hxF := (called_sublist _).subset hmem
    have hnodup := h.topo.nodup
    rw [hord, List.nodup_append] at hnodup
    exact hnodup.2.2 x hxB x (by simpa [or_comm] using hxF) rfl

end WholeRun

variable [DecidableEq M] {ih : Handle M}

/-- After a successful initialization, finalization goes through the whole table. -/
theorem Initialized.firstFinalization {s₁ : State M} {ord : List M} {T : List (M × Option ℤ)}
    (h : Initialized P ih s₁ ord T) (hne : P.linkerset ≠ []) (hpass : ∀ x ∈ T, Passed x.2) :
    ∃ s' F ev, moduleFinalization P s₁ = .ok s' ∧ FinaRun P s₁ s' ord.reverse F ev := by
  obtain ⟨-, hidx⟩ := h.success hpass
  have hpos : 0 < s₁.handle.tableIndex := by rw [hidx]; exact h.length_pos hne
  obtain ⟨s', F, ev, hrun, hR⟩ := moduleFinalization_run (P := P) h.holds hpos hidx.le
  rw [hidx, List.take_length] at hR
  exact ⟨s', F, ev, hrun, hR⟩

/-- One finalization after a successful initialization. -/
theorem Initialized.wholeRun {s₁ : State M} {ord : List M} {T : List (M × Option ℤ)}
    (h : Initialized P ih s₁ ord T) (hne : P.linkerset ≠ []) (hpass : ∀ x ∈ T, Passed x.2) :
    ∃ s' F, moduleFinalization P s₁ = .ok s' ∧ WholeRun P s' ord T F := by
  obtain ⟨s', F, ev, hrun, hR⟩ := h.firstFinalization hne hpass
  have hends := hR.ends
  rw [(h.success hpass).1, List.length_reverse] at hends
  refine ⟨s', F, hrun, h.topo, h.mem_ord, ?_, ?_, h.turns, hpass, ⟨_, hR.turns⟩, ?_, hends⟩
  · rw [hR.trace, initTurns_append, h.inits, hR.inits, List.append_nil]
  · rw [hR.trace, finaTurns_append, h.finas, hR.finas]; rfl
  · exact h.holds.of_handle hR.table hR.size

/-- **Initialization and finalization are nested.** -/
theorem finalization_nested (hac : ¬ P.Cyclic) (hne : P.linkerset ≠ [])
    (hzero : ∀ m f, P.initFn m = some f → ∀ h, f h = 0) (ih : Handle M) :
    ∃ s₁ s', moduleInitialization P .exact (State.boot ih) = .ok s₁ ∧
      s₁.handle.initState = .success ∧ moduleFinalization P s₁ = .ok s' ∧ NestedRun P s' := by
  obtain ⟨s₁, ord, T, hI⟩ := moduleInitialization_acyclic hac hne ih
  have hpass : ∀ x ∈ T, Passed x.2 := hI.turns.passed hzero
  obtain ⟨s', F, hrun, hW⟩ := hI.wholeRun hne hpass
  refine ⟨s₁, s', hI.run, (hI.success hpass).1, hrun, ?_⟩
  exact {
    reversed := hW.reversed
    once := hW.once
    importersFirst := fun F₁ m r F₂ hF i hi => hW.importersFirst (hW.finas.symm.trans hF) hi
    nested := fun t₁ t₂ htr m hm hm' i hi =>
      ⟨hW.imports_initialized htr hm hi, hW.imports_unfinalized htr hm' hi⟩
    success := hW.success
    failure := hW.failure }

theorem finalization_nested_example :
    ∃ s₁ s', moduleInitialization (exampleProgram fun _ => 0) .exact (State.boot default) = .ok s₁ ∧
      s₁.handle.initState = .success ∧ moduleFinalization (exampleProgram fun _ => 0) s₁ = .ok s' ∧
      NestedRun (exampleProgram fun _ => 0) s' :=
  finalization_nested (exampleProgram_acyclic _) (exampleProgram_ne_nil _)
    exampleProgram_init_zero default

/-! ## After a failed initialization -/

omit [DecidableEq M] in
/-- **What the caller of `module_finalization` expects** after a failure at
`table_index`, the events of the call being `ev`. -/
structure State.FinalizesFailure (P : ModuleSet M) (s : State M) (ev : List (Event M)) : Prop where
  /-- Only table entries are accessed. -/
  inTable : ∀ i, .load i ∈ ev → i < s.handle.tableSize
  /-- Only initialized modules are finalized, each once. -/
  initialized : ∀ x ∈ finaCalls ev, FullyInitialized s.trace x.1
  once : ((finaCalls ev).map Prod.fst).Nodup
  /-- Unless a function fails, the modules below the failed one are all finalized,
  the last one first. -/
  complete : (∀ x ∈ finaCalls ev, x.2 = 0) →
    (finaCalls ev).map Prod.fst =
        s.entries.reverse.reduceOption.filter (fun m => (P.finaFn m).isSome) ∧
      ∃ s', moduleFinalization P s = .ok s' ∧ s'.handle.tableIndex = 0

omit [DecidableEq M] in
/-- With `table_index` 0, the first entry that is used lies behind every table. -/
theorem moduleFinalization_wraps {s : State M} (hext : s.extent = some (some P.linkerset.length))
    (h0 : s.handle.tableIndex = 0) :
    moduleFinalization P s =
      .error (.outOfBounds uintMax, (s.setIndex uintMax).log (.load uintMax)) := by
  obtain ⟨t, ht, htext⟩ := Option.map_eq_some_iff.1 hext
  have hcov : ¬ t.Covers uintMax := by
    have hfits := P.fits
    simp only [Table.Covers, htext]
    omega
  have hload : (s.setIndex uintMax).load uintMax =
      .error (.outOfBounds uintMax, (s.setIndex uintMax).log (.load uintMax)) := by
    simp [State.load, State.log, ht, hcov]
  have hsucc : unsignedPred 0 = 4294967294 + 1 := rfl
  unfold moduleFinalization
  simp only [ht, h0]
  rw [hsucc, finalizeTable]
  exact finalizeEntry_fault hload

/-- The first turn passes unless the first leaf has a function that fails. -/
theorem Initialized.first_passes {s : State M} {ord : List M} {T : List (M × Option ℤ)}
    (h : Initialized P ih s ord T) (hne : P.linkerset ≠ []) :
    (∀ x ∈ T.head?, Passed x.2) ↔ ∀ r ∈ P.linkerset.head?, ∀ leaf, FirstLeaf P.imports r leaf →
      ∀ f ∈ P.initFn leaf, f [] = 0 := by
  obtain ⟨r, roots, hls⟩ := List.exists_cons_of_ne_nil hne
  have hsearch := h.search
  rw [hls] at hsearch
  obtain ⟨u, l, rfl, hu⟩ := visitList_head hsearch
  have hcond : (∀ r ∈ P.linkerset.head?, ∀ leaf, FirstLeaf P.imports r leaf →
      ∀ f ∈ P.initFn leaf, f [] = 0) ↔ ∀ f ∈ P.initFn u, f [] = 0 := by
    rw [hls]
    constructor
    · intro hall
      exact hall r rfl u hu
    · rintro hall r' hr' leaf hleaf
      cases hr'
      rw [hleaf.unique hu]
      exact hall
  rw [hcond]
  -- the first turn is that of `u`, which is called with an empty history
  cases h.turns with
  | null hf _ => simp [hf]
  | pass hf h0 _ => simp [hf, h0]
  | fail hf h0 => simp [hf, h0]

/-- A failure at index 0 is not handled: the first access is out of the table. -/
theorem Initialized.wraps {s : State M} {ord : List M} {T : List (M × Option ℤ)}
    (h : Initialized P ih s ord T) (h0 : s.handle.tableIndex = 0) :
    ∃ ev, (moduleFinalization P s).state.trace = s.trace ++ ev ∧ ¬ s.FinalizesFailure P ev := by
  have hwrap := moduleFinalization_wraps (P := P) h.extent h0
  refine ⟨[.index uintMax, .load uintMax], by rw [hwrap]; simp [Exec.state], ?_⟩
  intro hf
  have hlt := hf.inTable uintMax (by simp)
  rw [h.holds.size, h.perm.length_eq] at hlt
  have hfits := P.fits
  omega

/-- A failure at any other index is handled. -/
theorem Initialized.finalizesFailure {s : State M} {ord : List M} {T₁ : List (M × Option ℤ)} {m : M}
    {r : ℤ} {B : List M} (h : Initialized P ih s ord (T₁ ++ [(m, some r)]))
    (hpass : ∀ x ∈ T₁, Passed x.2) (hord : ord = T₁.map Prod.fst ++ m :: B)
    (hidx : s.handle.tableIndex = (T₁.map Prod.fst).length) (hpos : 0 < s.handle.tableIndex) :
    ∃ ev, (moduleFinalization P s).state.trace = s.trace ++ ev ∧ s.FinalizesFailure P ev := by
  have htake : ord.take s.handle.tableIndex = T₁.map Prod.fst := by
    rw [hidx, hord, List.take_left]
  have hle : s.handle.tableIndex ≤ ord.length := by
    rw [hidx, hord, List.length_append]; omega
  have hbelow : (T₁.map Prod.fst).Nodup := by
    have hnodup := h.topo.nodup
    rw [hord, List.nodup_append] at hnodup
    exact hnodup.1
  -- finalization runs over the modules below the one that failed
  obtain ⟨s', F, ev, hfin, hR⟩ := moduleFinalization_run (P := P) h.holds hpos hle
  have hturns := hR.turns
  rw [htake] at hturns
  refine ⟨ev, by rw [hfin]; exact hR.trace, ?_, ?_, ?_, ?_⟩
  · intro i hi
    have hlt := hR.loads i hi
    rw [List.length_reverse, List.length_take] at hlt
    rw [h.holds.size]
    omega
  · rintro ⟨x, o⟩ hx
    rw [finaCalls, hR.finas] at hx
    have hxF : x ∈ F.map Prod.fst := List.mem_map.2 ⟨_, mem_called.1 hx, rfl⟩
    have hsub : T₁ ⊆ initTurns s.trace := by rw [h.inits]; exact List.subset_append_left _ _
    exact fullyInitialized_of_passed hsub hpass (List.mem_reverse.1 (hturns.front.subset hxF))
  · rw [finaCalls, hR.finas]
    exact (hturns.nodup (List.nodup_reverse.2 hbelow)).sublist (called_sublist F)
  · intro hall
    rw [finaCalls, hR.finas] at hall ⊢
    have hpassF : ∀ x ∈ F, Passed x.2 := passed_of_called hall
    constructor
    · have hred : ∀ l : List M, (l.map some).reverse.reduceOption = l.reverse := fun l => by
        rw [← List.map_reverse]
        exact List.filterMap_map.trans List.filterMap_some
      rw [hturns.called_eq, hturns.complete hpassF, h.holds.entries hle, htake, hred]
    · exact ⟨s', hfin, (hR.ends.success hpassF).1⟩

/-- **Finalization after a failure** does what is expected exactly when the module
that failed was not the first one: the leaf that the first module of the linkerset
leads to. -/
theorem finalizes_failure_iff (hac : ¬ P.Cyclic) (hne : P.linkerset ≠ []) {s : State M}
    (hrun : moduleInitialization P .exact (State.boot ih) = .ok s)
    (hfail : s.handle.initState = .failed) :
    ∃ ev, (moduleFinalization P s).state.trace = s.trace ++ ev ∧
      (s.FinalizesFailure P ev ↔
        ∀ r ∈ P.linkerset.head?, ∀ leaf, FirstLeaf P.imports r leaf →
          ∀ f ∈ P.initFn leaf, f [] = 0) := by
  obtain ⟨s₁, ord, T, hI⟩ := moduleInitialization_acyclic hac hne ih
  obtain rfl : s₁ = s := Except.ok.inj (hI.run.symm.trans hrun)
  have hpass : ¬ ∀ x ∈ T, Passed x.2 := by
    intro hp
    rw [(hI.success hp).1] at hfail
    cases hfail
  rw [← hI.first_passes hne]
  obtain ⟨-, T₁, m, r, B, rfl, hr, hpass₁, hord, hidx, -⟩ := hI.failure hpass
  rcases T₁ with _ | ⟨y, T₀⟩
  · -- the first module has failed
    obtain ⟨ev, htr, hnot⟩ := hI.wraps hidx
    refine ⟨ev, htr, fun h => absurd h hnot, fun h => ?_⟩
    exact absurd (passed_some.1 (h (m, some r) rfl)) hr
  · -- the first module has passed
    have hpos : 0 < s₁.handle.tableIndex := by rw [hidx]; simp
    obtain ⟨ev, htr, hfin⟩ := hI.finalizesFailure hpass₁ hord hidx hpos
    refine ⟨ev, htr, fun _ x hx => ?_, fun _ => hfin⟩
    cases hx
    exact hpass₁ y (List.mem_cons_self ..)

/-- The init function of one module of the program `example` fails. -/
def failing (m : ExampleModule) : ExampleModule → ℤ := fun m' => if m' = m then 1 else 0

theorem finalizes_failure_iff_example :
    ∃ s ev, (moduleFinalization (exampleProgram (failing .modC)) s).state.trace = s.trace ++ ev ∧
      (s.FinalizesFailure (exampleProgram (failing .modC)) ev ↔
        ∀ r ∈ (exampleProgram (failing .modC)).linkerset.head?, ∀ leaf,
          FirstLeaf (exampleProgram (failing .modC)).imports r leaf →
            ∀ f ∈ (exampleProgram (failing .modC)).initFn leaf, f [] = 0) := by
  have hrun : moduleInitialization (exampleProgram (failing .modC)) .exact (State.boot default) =
      .ok _ := rfl
  exact ⟨_, finalizes_failure_iff (exampleProgram_acyclic _) (exampleProgram_ne_nil _) hrun rfl⟩

/-- When `mod_b`, which is the first one, fails, finalization uses the entry at
index 4294967295. -/
theorem exampleProgram_wraps : ¬ (exampleProgram (failing .modB)).Cyclic ∧
    ∃ s s', moduleInitialization (exampleProgram (failing .modB)) .exact (State.boot default) = .ok s ∧
      s.handle.initState = .failed ∧
      moduleFinalization (exampleProgram (failing .modB)) s = .error (.outOfBounds uintMax, s') ∧
      ∀ ev, s'.trace = s.trace ++ ev → ¬ s.FinalizesFailure (exampleProgram (failing .modB)) ev := by
  refine ⟨exampleProgram_acyclic _, _, _, rfl, rfl, moduleFinalization_wraps rfl rfl, ?_⟩
  intro ev htr h
  have hev : [.index uintMax, .load uintMax] = ev := by simpa using htr
  have hlt := h.inTable uintMax (by rw [← hev]; simp)
  exact absurd hlt (by decide)

end Linkerset
