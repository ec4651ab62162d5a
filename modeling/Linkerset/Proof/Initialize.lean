import Linkerset.Proof.Sort
import Linkerset.Proof.Turns

/-!
# `module_initialization`

`initializeTable_run`: over a table that holds the modules `l`, the loop is a run
of turns over `l`. With the sort in front of it this gives the whole operation
(`moduleInitialization_acyclic`).
-/

namespace Linkerset

open Linkerset.Graph

variable {M : Type*}

/-- The table is exactly as long as `l`, and holds it. -/
structure Holds (s : State M) (l : List M) : Prop where
  table : ∃ t, s.handle.table = some t ∧ ∀ i m, l[i]? = some m → t.Covers i ∧ t.cell i = some m
  size : s.handle.tableSize = l.length

theorem Holds.of_handle {s s' : State M} {l : List M} (h : Holds s l)
    (ht : s'.handle.table = s.handle.table) (hs : s'.handle.tableSize = s.handle.tableSize) :
    Holds s' l := ⟨by rw [ht]; exact h.table, by rw [hs]; exact h.size⟩

theorem Holds.load {s : State M} {l : List M} (h : Holds s l) {i : ℕ} {m : M} (hi : l[i]? = some m) :
    s.load i = .ok (m, s.log (.load i)) := by
  obtain ⟨t, ht, hl⟩ := h.table
  exact State.load_ok ht (hl i m hi).1 (hl i m hi).2

theorem Holds.entry {s : State M} {l : List M} (h : Holds s l) {i : ℕ} {m : M}
    (hi : l[i]? = some m) : s.entry i = some m := by
  obtain ⟨t, ht, hl⟩ := h.table
  simp [State.entry, ht, (hl i m hi).2]

theorem Holds.getElem? {s : State M} {l : List M} (h : Holds s l) {i : ℕ} {m : M} (hi : i < l.length)
    (hm : s.entry i = some m) : l[i]? = some m := by
  have hl : l[i]? = some l[i] := List.getElem?_eq_getElem hi
  rw [hl, ← h.entry hl, hm]

/-- The valid entries are the modules below `table_index`. -/
theorem Holds.entries {s : State M} {l : List M} (h : Holds s l) (hi : s.handle.tableIndex ≤ l.length) :
    s.entries = (l.take s.handle.tableIndex).map some := by
  obtain ⟨t, ht, hl⟩ := h.table
  apply List.ext_getElem?
  intro i
  simp only [State.entries, ht, List.getElem?_map, List.getElem?_take]
  by_cases hlt : i < s.handle.tableIndex
  · have hil : i < l.length := by omega
    rw [List.getElem?_range hlt, if_pos hlt, List.getElem?_eq_getElem hil]
    simp [(hl i l[i] (List.getElem?_eq_getElem hil)).2]
  · rw [if_neg hlt, List.getElem?_eq_none (by simpa using hlt)]
    rfl

/-- Every module is marked as the sort leaves it. -/
def allInitialized : M → InitState := fun _ => .initialized

/-- The marks during the turn of `m`, and after it when its function fails. -/
def turnMarks [DecidableEq M] (m : M) (r : Option ℤ) : M → InitState :=
  if r = none then allInitialized else Function.update allInitialized m .initializing

/-- How the initialization loop ends, from the result `res` and the marks `mk₀`:
after its last turn, or in one that fails. -/
inductive InitEnd [DecidableEq M] (res : InitializationResult) (mk₀ : M → InitState) (s' : State M)
    (base : ℕ) : List (M × Option ℤ) → Prop
  | all {T : List (M × Option ℤ)} : (∀ x ∈ T, Passed x.2) → s'.handle.initState = res →
      s'.handle.tableIndex = base + T.length →
      (mk₀ = allInitialized → s'.marks = allInitialized) → InitEnd res mk₀ s' base T
  | failed {T : List (M × Option ℤ)} {m : M} {r : ℤ} : (∀ x ∈ T, Passed x.2) → r ≠ 0 →
      s'.handle.initState = .failed → s'.handle.tableIndex = base + T.length →
      (mk₀ = allInitialized → s'.marks = turnMarks m (some r)) →
      InitEnd res mk₀ s' base (T ++ [(m, some r)])

/-- **A run of the initialization loop** over `l`, from index `base` on, with the
turns `T` and the events `ev`. -/
structure InitRun [DecidableEq M] (P : ModuleSet M) (s s' : State M) (base : ℕ) (l : List M)
    (T : List (M × Option ℤ)) (ev : List (Event M)) : Prop where
  turns : Turns P.initFn .init (calls s.trace) l T
  trace : s'.trace = s.trace ++ ev
  inits : initTurns ev = T
  finas : finaTurns ev = []
  table : s'.handle.table = s.handle.table
  size : s'.handle.tableSize = s.handle.tableSize
  snapshots : s.marks = allInitialized → ∀ m marks r, .init m marks r ∈ ev → marks = turnMarks m r
  ends : InitEnd s.handle.initState s.marks s' base T

theorem calls_append (t t' : List (Event M)) : calls (t ++ t') = calls t ++ calls t' :=
  List.filterMap_append

theorem initTurns_append (t t' : List (Event M)) : initTurns (t ++ t') = initTurns t ++ initTurns t' :=
  List.filterMap_append

theorem finaTurns_append (t t' : List (Event M)) : finaTurns (t ++ t') = finaTurns t ++ finaTurns t' :=
  List.filterMap_append

variable [DecidableEq M] {P : ModuleSet M}

/-- **One turn that passes**, in front of the rest of the run. -/
theorem InitRun.cons {s s₁ s' : State M} {base : ℕ} {m : M} {l : List M} {r : Option ℤ}
    {T : List (M × Option ℤ)} {ev : List (Event M)} {marks : M → InitState}
    (hrest : InitRun P s₁ s' (base + 1) l T ev)
    (hturns : Turns P.initFn .init (calls s₁.trace) l T →
      Turns P.initFn .init (calls s.trace) (m :: l) ((m, r) :: T))
    (hr : Passed r)
    (htr : s₁.trace = s.trace ++ [.load base, .init m marks r, .index (base + 1)])
    (htab : s₁.handle.table = s.handle.table) (hsize : s₁.handle.tableSize = s.handle.tableSize)
    (hres : s₁.handle.initState = s.handle.initState)
    (hmarks : s.marks = allInitialized → s₁.marks = allInitialized ∧ marks = turnMarks m r) :
    InitRun P s s' base (m :: l) ((m, r) :: T)
      ([.load base, .init m marks r, .index (base + 1)] ++ ev) where
  turns := hturns hrest.turns
  trace := by rw [hrest.trace, htr, List.append_assoc]
  inits := by rw [initTurns_append, hrest.inits]; rfl
  finas := by rw [finaTurns_append, hrest.finas]; rfl
  table := hrest.table.trans htab
  size := hrest.size.trans hsize
  snapshots := by
    intro hall m' marks' r' hm
    rcases List.mem_append.1 hm with hm | hm
    · simp only [List.mem_cons, reduceCtorEq, Event.init.injEq, List.not_mem_nil, or_false,
        false_or] at hm
      obtain ⟨rfl, rfl, rfl⟩ := hm
      exact (hmarks hall).2
    · exact hrest.snapshots (hmarks hall).1 m' marks' r' hm
  ends := by
    cases hrest.ends with
    | all hp hi hx hm =>
      refine .all (passed_cons.2 ⟨hr, hp⟩) (hi.trans hres) ?_ (fun h => hm (hmarks h).1)
      rw [hx, List.length_cons]
      omega
    | failed hp h0 hi hx hm =>
      rw [← List.cons_append]
      refine .failed (passed_cons.2 ⟨hr, hp⟩) h0 hi ?_ (fun h => hm (hmarks h).1)
      rw [hx, List.length_cons]
      omega

/-- Memory after the turn of `m` at `table_index`, when the loop goes on; a module
that was called is marked below. -/
def State.initTurn (s : State M) (m : M) (r : Option ℤ) : State M :=
  let marks := if r = none then s.marks else Function.update s.marks m .initializing
  { handle := { s.handle with tableIndex := s.handle.tableIndex + 1 }
    marks := marks
    trace := s.trace ++
      [.load s.handle.tableIndex, .init m marks r, .index (s.handle.tableIndex + 1)] }

/-- Memory after the turn of `m`, when its function fails. -/
def State.initFailure (s : State M) (m : M) (r : ℤ) : State M :=
  let marks := Function.update s.marks m .initializing
  { handle := { s.handle with initState := .failed }
    marks := marks
    trace := s.trace ++ [.load s.handle.tableIndex, .init m marks (some r)] }

/-- **One round of the loop**, in one equation. -/
theorem initializeTable_step {s : State M} {m : M} {n : ℕ}
    (hlt : s.handle.tableIndex < s.handle.tableSize)
    (hload : s.load s.handle.tableIndex = .ok (m, s.log (.load s.handle.tableIndex))) :
    initializeTable P (n + 1) s =
      match P.initFn m with
      | none => initializeTable P n (s.initTurn m none)
      | some f =>
        if f (calls s.trace) = 0 then
          initializeTable P n ((s.initTurn m (some 0)).setMark m .initialized)
        else .ok (s.initFailure m (f (calls s.trace))) := by
  have hcalls : calls (s.trace ++ [.load s.handle.tableIndex]) = calls s.trace := by
    rw [calls_append]; simp [calls]
  rw [initializeTable, if_pos hlt, hload]
  simp only [bind, Except.bind, ModuleSet.initFn]
  cases (P.info m).initFn with
  | none => simp [State.initTurn, State.log, State.setIndex]
  | some f =>
    simp only [State.setMark_trace, State.log_trace, hcalls, ne_eq, ite_not]
    split
    · rename_i hf
      simp [State.initTurn, State.log, State.setIndex, State.setMark, hf]
    · simp [State.initFailure, State.log, State.setMark, State.setResult, pure, Except.pure]

section Rounds

variable {s s' : State M} {base : ℕ} {m : M} {l : List M} {T : List (M × Option ℤ)}
  {ev : List (Event M)} {f : Callback M}

/-- A round that passes over a module without a function. -/
theorem InitRun.of_null (hi : s.handle.tableIndex = base) (hf : P.initFn m = none)
    (hrest : InitRun P (s.initTurn m none) s' (base + 1) l T ev) :
    ∃ ev', InitRun P s s' base (m :: l) ((m, none) :: T) ev' := by
  have hcalls : calls (s.initTurn m none).trace = calls s.trace := by
    simp [State.initTurn, calls]
  have hturns (ht : Turns P.initFn .init (calls (s.initTurn m none).trace) l T) :
      Turns P.initFn .init (calls s.trace) (m :: l) ((m, none) :: T) := .null hf (hcalls ▸ ht)
  have htr : (s.initTurn m none).trace =
      s.trace ++ [.load base, .init m s.marks none, .index (base + 1)] := by
    simp [State.initTurn, hi]
  exact ⟨_, hrest.cons hturns passed_none htr rfl rfl rfl fun hall => ⟨hall, hall⟩⟩

/-- A round whose function returns 0. -/
theorem InitRun.of_pass (hi : s.handle.tableIndex = base) (hf : P.initFn m = some f)
    (h0 : f (calls s.trace) = 0)
    (hrest : InitRun P ((s.initTurn m (some 0)).setMark m .initialized) s' (base + 1) l T ev) :
    ∃ ev', InitRun P s s' base (m :: l) ((m, some 0) :: T) ev' := by
  have hcalls : calls ((s.initTurn m (some 0)).setMark m .initialized).trace =
      calls s.trace ++ [.init m 0] := by
    simp [State.initTurn, calls]
  have hturns (ht : Turns P.initFn .init
        (calls ((s.initTurn m (some 0)).setMark m .initialized).trace) l T) :
      Turns P.initFn .init (calls s.trace) (m :: l) ((m, some 0) :: T) := .pass hf h0 (hcalls ▸ ht)
  have htr : ((s.initTurn m (some 0)).setMark m .initialized).trace =
      s.trace ++ [.load base, .init m (Function.update s.marks m .initializing) (some 0),
        .index (base + 1)] := by
    simp [State.initTurn, hi]
  refine ⟨_, hrest.cons hturns (passed_some.2 rfl) htr rfl rfl rfl fun hall => ⟨?_, ?_⟩⟩
  · -- the mark of `m` is taken away for the call only
    funext x
    by_cases hx : x = m
    · subst hx; simp [State.initTurn, allInitialized]
    · simp [State.initTurn, hall, hx, allInitialized]
  · simp [turnMarks, hall]

/-- A round whose function fails is the last one. -/
theorem InitRun.of_fail (hi : s.handle.tableIndex = base) (hf : P.initFn m = some f)
    (h0 : f (calls s.trace) ≠ 0) :
    ∃ ev, InitRun P s (s.initFailure m (f (calls s.trace))) base (m :: l)
      [(m, some (f (calls s.trace)))] ev := by
  refine ⟨_, .fail hf h0, rfl, rfl, rfl, rfl, rfl, ?_, ?_⟩
  · intro hall m' marks' r' hm
    simp only [List.mem_cons, reduceCtorEq, Event.init.injEq, List.not_mem_nil, or_false,
      false_or] at hm
    obtain ⟨rfl, rfl, rfl⟩ := hm
    simp [turnMarks, hall]
  · refine InitEnd.failed (T := []) (by simp) h0 rfl (by simp [State.initFailure, hi]) ?_
    intro hall
    simp [State.initFailure, turnMarks, hall]

end Rounds

/-- **The initialization loop gives the modules of the table their turns.** The list
`pre` has been used up, `suf` is still to come. -/
theorem initializeTable_run : ∀ {suf pre : List M} {s : State M} {n : ℕ}, Holds s (pre ++ suf) →
    s.handle.tableIndex = pre.length → suf.length < n →
      ∃ s' T ev, initializeTable P n s = .ok s' ∧ InitRun P s s' pre.length suf T ev := by
  intro suf
  induction suf with
  | nil =>
    intro pre s n h hi hn
    obtain ⟨n, rfl⟩ : ∃ k, n = k + 1 := ⟨n - 1, by simp at hn; omega⟩
    have hsize : s.handle.tableSize = pre.length := by simpa using h.size
    refine ⟨s, [], [], ?_, .nil, by simp, rfl, rfl, rfl, rfl, by simp, ?_⟩
    · rw [initializeTable, hi, hsize, if_neg (lt_irrefl _), if_pos rfl]
    · exact .all (by simp) rfl (by simpa using hi) id
  | cons m suf ih =>
    intro pre s n h hi hn
    obtain ⟨n, rfl⟩ : ∃ k, n = k + 1 := ⟨n - 1, by simp at hn; omega⟩
    have hlt : s.handle.tableIndex < s.handle.tableSize := by rw [hi, h.size]; simp
    have hload : s.load s.handle.tableIndex = .ok (m, s.log (.load s.handle.tableIndex)) :=
      h.load (by rw [hi]; simp)
    -- the rest of the loop, from any state that this round leaves
    have hrest : ∀ s₁ : State M, s₁.handle.table = s.handle.table →
        s₁.handle.tableSize = s.handle.tableSize → s₁.handle.tableIndex = pre.length + 1 →
        ∃ s' T ev, initializeTable P n s₁ = .ok s' ∧ InitRun P s₁ s' (pre.length + 1) suf T ev := by
      intro s₁ ht hs hi₁
      have hh : Holds s₁ ((pre ++ [m]) ++ suf) := by simpa using h.of_handle ht hs
      have hnext := ih hh (by simpa using hi₁) (by simpa using hn)
      simpa using hnext
    rw [initializeTable_step hlt hload]
    cases hf : P.initFn m with
    | none =>
      have hidx : (s.initTurn m none).handle.tableIndex = pre.length + 1 := by
        simp [State.initTurn, hi]
      obtain ⟨s', T, ev, hrun, hR⟩ := hrest (s.initTurn m none) rfl rfl hidx
      obtain ⟨ev', hR'⟩ := hR.of_null hi hf
      exact ⟨s', _, ev', hrun, hR'⟩
    | some f =>
      dsimp only
      by_cases h0 : f (calls s.trace) = 0
      · have hidx : ((s.initTurn m (some 0)).setMark m .initialized).handle.tableIndex =
            pre.length + 1 := by
          simp [State.initTurn, hi]
        obtain ⟨s', T, ev, hrun, hR⟩ :=
          hrest ((s.initTurn m (some 0)).setMark m .initialized) rfl rfl hidx
        obtain ⟨ev', hR'⟩ := hR.of_pass hi hf h0
        rw [if_pos h0]
        exact ⟨s', _, ev', hrun, hR'⟩
      · obtain ⟨ev, hR⟩ := InitRun.of_fail (l := suf) hi hf h0
        rw [if_neg h0]
        exact ⟨_, _, ev, rfl, hR⟩

/-! ## The whole operation -/

omit [DecidableEq M] in
theorem Event.SortWithin.silent {B : ℕ} {ev : List (Event M)} (h : ∀ e ∈ ev, e.SortWithin B) :
    calls ev = [] ∧ initTurns ev = [] ∧ finaTurns ev = [] := by
  refine ⟨List.filterMap_eq_nil_iff.2 ?_, List.filterMap_eq_nil_iff.2 ?_,
    List.filterMap_eq_nil_iff.2 ?_⟩ <;>
  · intro e he
    have hwithin := h e he
    cases e <;> simp_all [Event.SortWithin]

/-- With a table, the loop follows the sort, whatever the sort has found. -/
theorem moduleInitialization_eq {a : Alloc} (ha : a ≠ .null) (hne : P.linkerset ≠ []) (ih : Handle M) :
    moduleInitialization P a (State.boot ih) =
      (topologicalSortModules P (P.fresh a ih)).bind fun s =>
        initializeTable P (s.handle.tableSize + 1) (s.setIndex 0) := by
  have hlen : 0 < P.linkerset.length := List.length_pos_of_ne_nil hne
  obtain ⟨t, ht, -⟩ : (P.fresh a ih).Covers 0 := fresh_covers ha hlen
  have ht' : (moduleHandleInitialize a (State.boot ih) P.linkerset.length).handle.table = some t := ht
  unfold moduleInitialization
  simp only [ht']
  rfl

omit [DecidableEq M] in
/-- A table that the sort has filled. -/
theorem Holds.of_wrote {s₁ : State M} {l : List M} {r : InitializationResult} {B : ℕ} {ih : Handle M}
    (hlen : l.length = P.linkerset.length) (hne : P.linkerset ≠ [])
    (hw : Wrote (P.fresh .exact ih) s₁ B r (l.map some)) : Holds (s₁.setIndex 0) l := by
  have hcov : ∀ i < P.linkerset.length, s₁.Covers i := fun i hi =>
    State.covers_of_extent hw.extent (fresh_covers (by decide) hi)
  obtain ⟨t, ht, -⟩ := hcov 0 (List.length_pos_of_ne_nil hne)
  refine ⟨⟨t, ht, ?_⟩, ?_⟩
  · intro i m hi
    obtain ⟨hlt, rfl⟩ := List.getElem?_eq_some_iff.1 hi
    obtain ⟨t', ht', hc⟩ := hcov i (by omega)
    rw [ht] at ht'
    cases ht'
    exact ⟨hc, State.entries_getElem ht hw.entries hlt⟩
  · rw [hlen]; exact hw.size

/-- **The loop after the sort**, over a table that the sort has filled with `l`. -/
theorem moduleInitialization_run {s₁ : State M} {l : List M} {r : InitializationResult} {B : ℕ}
    {ih : Handle M} (hlen : l.length = P.linkerset.length) (hne : P.linkerset ≠ [])
    (hsort : topologicalSortModules P (P.fresh .exact ih) = .ok s₁)
    (hw : Wrote (P.fresh .exact ih) s₁ B r (l.map some)) :
    ∃ s' T ev, moduleInitialization P .exact (State.boot ih) = .ok s' ∧
      InitRun P (s₁.setIndex 0) s' 0 l T ev ∧ Turns P.initFn .init [] l T ∧
      initTurns s'.trace = T ∧ finaTurns s'.trace = [] ∧
      ∀ m marks r, .init m marks r ∈ s'.trace → .init m marks r ∈ ev := by
  have hholds : Holds (s₁.setIndex 0) ([] ++ l) := Holds.of_wrote hlen hne hw
  have hn : l.length < s₁.handle.tableSize + 1 := by
    rw [hlen, hw.size]; exact Nat.lt_succ_self _
  obtain ⟨s', T, ev, hrun, hR⟩ := initializeTable_run (P := P) hholds rfl hn
  obtain ⟨ev₀, htr₀, hev₀⟩ := hw.trace
  have htr₀' : (s₁.setIndex 0).trace = ev₀ ++ [.index 0] := by
    simp [htr₀, ModuleSet.fresh, moduleHandleInitialize, State.boot]
  obtain ⟨hc₀, hi₀, hf₀⟩ := Event.SortWithin.silent hev₀
  refine ⟨s', T, ev, ?_, hR, ?_, ?_, ?_, ?_⟩
  · rw [moduleInitialization_eq (by decide) hne, hsort]; exact hrun
  · have hturns := hR.turns
    rwa [htr₀', calls_append, hc₀] at hturns
  · rw [hR.trace, htr₀', initTurns_append, initTurns_append, hi₀, hR.inits]; rfl
  · rw [hR.trace, htr₀', finaTurns_append, finaTurns_append, hf₀, hR.finas]; rfl
  · intro m marks r hm
    rw [hR.trace, htr₀', List.mem_append, List.mem_append] at hm
    rcases hm with (hm | hm) | hm
    · exact (hev₀ _ hm).elim
    · simp at hm
    · exact hm

/-- **What `module_initialization` leaves without an import cycle**: the table holds
the order `ord`, and its modules have taken the turns `T`. -/
structure Initialized (P : ModuleSet M) (ih : Handle M) (s' : State M) (ord : List M)
    (T : List (M × Option ℤ)) : Prop where
  run : moduleInitialization P .exact (State.boot ih) = .ok s'
  search : visitList P.imports P.depth [] [] P.linkerset = .ok ord
  perm : ord.Perm P.linkerset
  topo : Topo P.imports ord
  extent : s'.extent = some (some P.linkerset.length)
  holds : Holds s' ord
  turns : Turns P.initFn .init [] ord T
  inits : initTurns s'.trace = T
  finas : finaTurns s'.trace = []
  snapshots : ∀ m marks r, .init m marks r ∈ s'.trace → marks = turnMarks m r
  ends : InitEnd .success allInitialized s' 0 T

theorem moduleInitialization_acyclic (hac : ¬ P.Cyclic) (hne : P.linkerset ≠ []) (ih : Handle M) :
    ∃ s' ord T, Initialized P ih s' ord T := by
  obtain ⟨s₁, ord, hsearch, hsort, hperm, htopo, hmarked, hw⟩ :=
    sort_acyclic (a := .exact) (by decide) hac ih
  have hmarks : s₁.marks = allInitialized :=
    funext fun m => (hmarked.initialized m).2 (hperm.mem_iff.2 (P.complete m))
  obtain ⟨s', T, ev, hrun, hR, hturns, hinits, hfinas, hmem⟩ :=
    moduleInitialization_run hperm.length_eq hne hsort hw
  refine ⟨s', ord, T, hrun, hsearch, hperm, htopo, ?_, ?_, hturns, hinits, hfinas, ?_, ?_⟩
  · have hlen : P.linkerset.length ≠ 0 := by simpa using hne
    have hext : s'.extent = s₁.extent := congrArg (Option.map Table.extent) hR.table
    rw [hext, hw.extent]
    simp [State.extent, ModuleSet.fresh, moduleHandleInitialize, calloc, hlen]
  · exact (Holds.of_wrote hperm.length_eq hne hw).of_handle hR.table hR.size
  · intro m marks r hm
    exact hR.snapshots hmarks m marks r (hmem m marks r hm)
  · have hends := hR.ends
    rwa [State.setIndex_marks, hmarks, State.setIndex_initState, hw.result] at hends

variable {ih : Handle M} {s' : State M} {ord : List M} {T : List (M × Option ℤ)}

theorem Initialized.mem_ord (h : Initialized P ih s' ord T) (m : M) : m ∈ ord :=
  h.perm.mem_iff.2 (P.complete m)

theorem Initialized.length_pos (h : Initialized P ih s' ord T) (hne : P.linkerset ≠ []) :
    0 < ord.length := by
  rw [h.perm.length_eq]
  exact List.length_pos_of_ne_nil hne

/-- When all turns pass, the operation succeeds. -/
theorem Initialized.success (h : Initialized P ih s' ord T) (hp : ∀ x ∈ T, Passed x.2) :
    s'.handle.initState = .success ∧ s'.handle.tableIndex = ord.length := by
  obtain ⟨-, hs, hx, -⟩ | ⟨-, hr, -⟩ := h.ends
  · refine ⟨hs, ?_⟩
    rw [hx, ← h.turns.complete hp, List.length_map, Nat.zero_add]
  · exact absurd (eq_zero_of_last hp) hr

/-- When a turn fails, `table_index` is left at its module. -/
theorem Initialized.failure (h : Initialized P ih s' ord T) (hp : ¬ ∀ x ∈ T, Passed x.2) :
    s'.handle.initState = .failed ∧ ∃ T₁ m r B, T = T₁ ++ [(m, some r)] ∧ r ≠ 0 ∧
      (∀ x ∈ T₁, Passed x.2) ∧ ord = T₁.map Prod.fst ++ m :: B ∧
        s'.handle.tableIndex = (T₁.map Prod.fst).length ∧ s'.marks = turnMarks m (some r) := by
  obtain ⟨hpass, -⟩ | @⟨T₁, m, r, hpass, hr, hs, hx, hmk⟩ := h.ends
  · exact absurd hpass hp
  · obtain ⟨-, B, hord⟩ := h.turns.split (show T₁ ++ [(m, some r)] = T₁ ++ (m, some r) :: [] from rfl)
    exact ⟨hs, T₁, m, r, B, rfl, hr, hpass, hord, by simpa using hx, hmk rfl⟩

end Linkerset
