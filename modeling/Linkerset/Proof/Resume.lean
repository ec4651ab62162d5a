import Linkerset.Proof.Finalize

/-!
# Calling `module_finalization` again

A call that fails leaves `table_index` at the module that failed, and the next call
decrements it before the first use: the failed module never gets a second turn, and the
next call goes on with the modules below it.

* `Retried.fails`: what a failing call leaves.
* `finalizes_in_order_iff`: over any calls up to the first one that completes, modules are
  finalized after all that import them exactly when no call is made after the failure of
  a module that imports something that is to be finalized, or stands at index 0.
-/

namespace Linkerset

open Linkerset.Graph

variable {M : Type*} {P : ModuleSet M}

/-- **A call that fails**: some fina function has not returned 0. -/
structure FailedCall (P : ModuleSet M) (s s' : State M) : Prop where
  run : moduleFinalization P s = .ok s'
  fails : ∃ ev, s'.trace = s.trace ++ ev ∧ ∃ x ∈ finaCalls ev, x.2 ≠ 0

/-- **A call that keeps the order**: it ends, and a fina function is called only after
those of all the modules that import its module have returned 0, in this call or in
an earlier one. -/
def FinalizesInOrder (P : ModuleSet M) (s : State M) : Prop :=
  ∃ s', moduleFinalization P s = .ok s' ∧
    ∀ F₁ m r F₂, finaTurns s'.trace = F₁ ++ (m, some r) :: F₂ →
      ∀ i, P.Imports i m → P.finaFn i ≠ none → (i, some 0) ∈ F₁

/-- **A call that can be made again**: after a failure, the module that failed is not the
first of the table, and imports nothing that is to be finalized. -/
def CanResume (P : ModuleSet M) (s : State M) : Prop :=
  s.handle.initState = .failed → 0 < s.handle.tableIndex ∧
    ∀ m, s.entry s.handle.tableIndex = some m → ∀ x, P.Imports m x → P.finaFn x = none

/-- What failing calls have left, in a table that holds `ord`: the modules from
`table_index` on have had their turns, the last one first. -/
structure Retried (P : ModuleSet M) (s : State M) (ord : List M) : Prop where
  topo : Topo P.imports ord
  mem : ∀ m, m ∈ ord
  holds : Holds s ord
  extent : s.extent = some (some P.linkerset.length)
  le : s.handle.tableIndex ≤ ord.length
  turns : (finaTurns s.trace).map Prod.fst ++ (ord.take s.handle.tableIndex).reverse = ord.reverse
  null : ∀ x ∈ finaTurns s.trace, x.2 = none ↔ P.finaFn x.1 = none

/-- What a further call leaves, which may have completed. -/
structure CalledAgain (P : ModuleSet M) (s s' : State M) (ord : List M) (F : List (M × Option ℤ)) :
    Prop where
  run : moduleFinalization P s = .ok s'
  all : finaTurns s'.trace = finaTurns s.trace ++ F
  turns : Turns P.finaFn .fina (calls s.trace) (ord.take s.handle.tableIndex).reverse F
  front : (finaTurns s'.trace).map Prod.fst <+: ord.reverse
  null : ∀ x ∈ finaTurns s'.trace, x.2 = none ↔ P.finaFn x.1 = none

/-- Where the front of a list, read backwards, is split. -/
theorem take_reverse_split {l A B : List M} {m : M} {n : ℕ} (h : (l.take n).reverse = A ++ m :: B) :
    B.length < n ∧ (l.take B.length).reverse = B ∧ l[B.length]? = some m := by
  have hrev : l.take n = B.reverse ++ m :: A.reverse := by
    have hh := congrArg List.reverse h
    simpa using hh
  have hlt : B.length < n := by
    have hlen := congrArg List.length hrev
    simp only [List.length_append, List.length_cons, List.length_reverse, List.length_take] at hlen
    omega
  refine ⟨hlt, ?_, ?_⟩
  · have htake : l.take B.length = (l.take n).take B.length := by
      rw [List.take_take, min_eq_left hlt.le]
    have hfront : (l.take n).take B.length = B.reverse := by
      rw [hrev]
      exact List.take_left' List.length_reverse
    rw [htake, hfront, List.reverse_reverse]
  · have hget : (l.take n)[B.length]? = some m := by
      rw [hrev]
      simp
    rwa [List.getElem?_take_of_lt hlt] at hget

namespace Retried

variable {s s' : State M} {ord : List M}

/-- From index 0, a call leaves the table. -/
theorem pos (h : Retried P s ord) (hrun : moduleFinalization P s = .ok s') :
    0 < s.handle.tableIndex := by
  by_contra h0
  rw [moduleFinalization_wraps h.extent (by omega)] at hrun
  cases hrun

/-- **One more call.** -/
theorem call (h : Retried P s ord) (hpos : 0 < s.handle.tableIndex) :
    ∃ s' F ev, CalledAgain P s s' ord F ∧
      FinaRun P s s' (ord.take s.handle.tableIndex).reverse F ev := by
  obtain ⟨s', F, ev, hrun, hR⟩ := moduleFinalization_run (P := P) h.holds hpos h.le
  have hall : finaTurns s'.trace = finaTurns s.trace ++ F := by
    rw [hR.trace, finaTurns_append, hR.finas]
  refine ⟨s', F, ev, ⟨hrun, hall, hR.turns, ?_, ?_⟩, hR⟩
  · rw [hall, List.map_append, ← h.turns]
    exact (List.prefix_append_right_inj _).2 hR.turns.front
  · rw [hall]
    intro x hx
    rcases List.mem_append.1 hx with hx | hx
    · exact h.null x hx
    · exact hR.turns.null_iff x hx

/-- **A failing call** gives the modules above the one that fails their turns. -/
theorem fails (h : Retried P s ord) (hf : FailedCall P s s') :
    Retried P s' ord ∧ s'.handle.initState = .failed ∧
      s'.handle.tableIndex < s.handle.tableIndex ∧
      ∃ T m r, finaTurns s'.trace = finaTurns s.trace ++ (T ++ [(m, some r)]) ∧ r ≠ 0 ∧
        (∀ x ∈ T, Passed x.2) ∧ s'.entry s'.handle.tableIndex = some m := by
  obtain ⟨s₁, F, ev, hC, hR⟩ := h.call (h.pos hf.run)
  obtain rfl : s₁ = s' := Except.ok.inj (hC.run.symm.trans hf.run)
  obtain ⟨ev', htr', x, hx, hx0⟩ := hf.fails
  obtain rfl : ev = ev' := List.append_cancel_left (hR.trace.symm.trans htr')
  rw [finaCalls, hR.finas] at hx
  obtain ⟨hpass, -⟩ | @⟨T, m, r, hpass, hr, hs, hidx⟩ := hR.ends
  · exact absurd (called_of_passed hpass x hx) hx0
  -- `B` are the modules below the one that failed
  obtain ⟨-, B, hB⟩ := hR.turns.split (show T ++ [(m, some r)] = T ++ (m, some r) :: [] from rfl)
  obtain ⟨hlt, htake, hget⟩ := take_reverse_split hB
  have hlen : s₁.handle.tableIndex = B.length := by
    rw [hB] at hidx
    simp only [List.length_append, List.length_cons, List.length_map] at hidx
    omega
  rw [← hlen] at hlt htake hget
  have hholds : Holds s₁ ord := h.holds.of_handle hR.table hR.size
  have hext : s₁.extent = s.extent := congrArg (Option.map Table.extent) hR.table
  have hle := h.le
  refine ⟨⟨h.topo, h.mem, hholds, hext.trans h.extent, by omega, ?_, hC.null⟩, hs, hlt, T, m, r,
    hC.all, hr, hpass, hholds.entry hget⟩
  rw [← h.turns, hB, hC.all, htake]
  simp

end Retried

namespace CalledAgain

variable {s s' : State M} {ord : List M} {F : List (M × Option ℤ)}

/-- Before the turn of a module, all that import it have had theirs. -/
theorem importers (h : CalledAgain P s s' ord F) (hs : Retried P s ord) {F₁ F₂ : List (M × Option ℤ)}
    {m i : M} {r : Option ℤ} (hF : finaTurns s'.trace = F₁ ++ (m, r) :: F₂) (hi : P.Imports i m) :
    i ∈ F₁.map Prod.fst := by
  have hfront := h.front
  rw [hF, List.map_append, List.map_cons] at hfront
  exact hs.topo.mem_of_prefix_reverse hfront (hs.mem i) hi

/-- A module has one turn. -/
theorem turn_unique (h : CalledAgain P s s' ord F) (hs : Retried P s ord) {m : M} {r r' : Option ℤ}
    (hr : (m, r) ∈ finaTurns s'.trace) (hr' : (m, r') ∈ finaTurns s'.trace) : r = r' := by
  have hnodup : ((finaTurns s'.trace).map Prod.fst).Nodup :=
    (List.nodup_reverse.2 hs.topo.nodup).sublist h.front.sublist
  have heq := List.inj_on_of_nodup_map hnodup hr hr' rfl
  exact (Prod.mk.inj heq).2

/-- The turns before a given one have passed, apart from those of earlier calls. -/
theorem passed_before (h : CalledAgain P s s' ord F) {F₁ F₂ : List (M × Option ℤ)}
    {x : M × Option ℤ} (hF : finaTurns s'.trace = F₁ ++ x :: F₂) :
    ∀ y ∈ F₁, y ∈ finaTurns s.trace ∨ Passed y.2 := by
  intro y hy
  have hsplit := h.all.symm.trans hF
  rcases List.append_eq_append_iff.1 hsplit with ⟨z, rfl, hz⟩ | ⟨z, hz, -⟩
  · rcases List.mem_append.1 hy with hy | hy
    · exact Or.inl hy
    · exact Or.inr ((h.turns.split hz).1 y hy)
  · exact Or.inl (by rw [hz]; exact List.mem_append_left _ hy)

/-- After the failure of `m`, a call that keeps the order gives nothing that `m` imports a
turn: it would need a result of 0 from `m`, which has had its turn. -/
theorem blocked (h : CalledAgain P s s' ord F) (hs : Retried P s ord)
    (horder : ∀ F₁ m r F₂, finaTurns s'.trace = F₁ ++ (m, some r) :: F₂ →
      ∀ i, P.Imports i m → P.finaFn i ≠ none → (i, some 0) ∈ F₁)
    {m x : M} {r : ℤ} (hm : (m, some r) ∈ finaTurns s'.trace) (hr : r ≠ 0) (hfm : P.finaFn m ≠ none)
    (hx : P.Imports m x) (hfx : P.finaFn x ≠ none) : x ∉ F.map Prod.fst := by
  intro hxF
  obtain ⟨⟨x, o⟩, ho, rfl⟩ := List.mem_map.1 hxF
  have ho' : (x, o) ∈ finaTurns s'.trace := by rw [h.all]; exact List.mem_append_right _ ho
  cases o with
  | none => exact hfx ((h.null _ ho').1 rfl)
  | some o =>
    obtain ⟨F₁, F₂, hF⟩ := List.append_of_mem ho'
    have hzero : (m, some 0) ∈ finaTurns s'.trace := by
      rw [hF]
      exact List.mem_append_left _ (horder F₁ x o F₂ hF m hx hfm)
    have heq := h.turn_unique hs hm hzero
    exact hr (Option.some.inj heq)

/-- A module that is still to be finalized, and has no turn in a failing call, stands below
the one that failed. -/
theorem below (h : CalledAgain P s s' ord F) (hs : Retried P s ord) (hs' : Retried P s' ord) {x : M}
    (hx : x ∈ ord.take s.handle.tableIndex) (hxF : x ∉ F.map Prod.fst) :
    x ∈ ord.take s'.handle.tableIndex := by
  have hxrev : x ∈ ord.reverse := List.mem_reverse.2 (hs.mem x)
  rw [← hs'.turns, h.all, List.map_append, List.append_assoc, List.mem_append,
    List.mem_append] at hxrev
  rcases hxrev with hold | hnew | hbelow
  · -- an old turn of `x` contradicts its place in the table
    exfalso
    have hnodup : ord.reverse.Nodup := List.nodup_reverse.2 hs.topo.nodup
    rw [← hs.turns, List.nodup_append] at hnodup
    exact hnodup.2.2 x hold x (List.mem_reverse.2 hx) rfl
  · exact absurd hnew hxF
  · exact List.mem_reverse.1 hbelow

/-- A call whose turns have not all passed has failed. -/
theorem failedCall {ev : List (Event M)} {l : List M} (h : CalledAgain P s s' ord F)
    (hR : FinaRun P s s' l F ev) (hp : ¬ ∀ y ∈ F, Passed y.2) : FailedCall P s s' := by
  refine ⟨h.run, ev, hR.trace, ?_⟩
  rw [finaCalls, hR.finas]
  by_contra hno
  apply hp
  apply passed_of_called
  intro y hy
  by_contra hy0
  exact hno ⟨y, hy, hy0⟩

end CalledAgain

/-- The turns so far have passed, or are those of modules that import nothing that is to
be finalized. -/
def Harmless (P : ModuleSet M) (s : State M) : Prop :=
  ∀ x ∈ finaTurns s.trace, Passed x.2 ∨ ∀ y, P.Imports x.1 y → P.finaFn y = none

/-- **After harmless failures** a call keeps the order. -/
theorem Retried.inOrder {s : State M} {ord : List M} (h : Retried P s ord) (hharm : Harmless P s)
    (hpos : 0 < s.handle.tableIndex) : FinalizesInOrder P s := by
  obtain ⟨s', F, ev, hC, -⟩ := h.call hpos
  refine ⟨s', hC.run, ?_⟩
  intro F₁ m r F₂ hF i hi hfi
  have hm : P.finaFn m ≠ none := by
    intro hn
    have hnull := (hC.null (m, some r) (by rw [hF]; simp)).2 hn
    cases hnull
  obtain ⟨⟨i, o⟩, ho, rfl⟩ := List.mem_map.1 (hC.importers h hF hi)
  have hpass : Passed o := by
    rcases hC.passed_before hF _ ho with hold | hp
    · -- a harmless failure does not import `m`
      exact (hharm _ hold).resolve_right fun hnone => hm (hnone m hi)
    · exact hp
  rcases hpass with rfl | rfl
  · exact absurd ((hC.null (i, none) (by rw [hF]; exact List.mem_append_left _ ho)).1 rfl) hfi
  · exact ho

/-- A failing call, made where it can be, of a module that can be passed over, is harmless. -/
theorem Harmless.step {s s' : State M} {ord : List M} (hharm : Harmless P s) (h : Retried P s ord)
    (hf : FailedCall P s s') (hcan : CanResume P s') : Harmless P s' := by
  obtain ⟨-, hs, -, T, m, r, hturns, -, hpass, hentry⟩ := h.fails hf
  intro x hx
  rw [hturns, List.mem_append, List.mem_append, List.mem_singleton] at hx
  rcases hx with hx | hx | rfl
  · exact hharm x hx
  · exact Or.inl (hpass x hx)
  · exact Or.inr ((hcan hs).2 m hentry)

/-- **A module that failed blocks those below it**: if all further calls keep the order,
no module that it imports is still to be finalized. -/
theorem Retried.blocks {ord : List M} {m x : M} {r : ℤ} (hr : r ≠ 0) (hx : P.Imports m x)
    (hfm : P.finaFn m ≠ none) (hfx : P.finaFn x ≠ none) : ∀ {k : ℕ} {s : State M},
      s.handle.tableIndex = k → Retried P s ord →
      (∀ s', Relation.ReflTransGen (FailedCall P) s s' → FinalizesInOrder P s') →
      (m, some r) ∈ finaTurns s.trace → x ∉ ord.take k := by
  intro k
  induction k using Nat.strong_induction_on with
  | _ k ih =>
  intro s hk h hall hm hxk
  obtain ⟨s₁, hrun, horder⟩ := hall s .refl
  obtain ⟨s', F, ev, hC, hR⟩ := h.call (h.pos hrun)
  obtain rfl : s₁ = s' := Except.ok.inj (hrun.symm.trans hC.run)
  have hm' : (m, some r) ∈ finaTurns s₁.trace := by rw [hC.all]; exact List.mem_append_left _ hm
  have hturn : x ∉ F.map Prod.fst := hC.blocked h horder hm' hr hfm hx hfx
  rw [← hk] at hxk
  by_cases hpass : ∀ y ∈ F, Passed y.2
  · -- the call completes, and every module has its turn
    apply hturn
    rw [hR.turns.complete hpass]
    exact List.mem_reverse.2 hxk
  · -- the call fails, above `x`
    have hfail : FailedCall P s s₁ := hC.failedCall hR hpass
    obtain ⟨h', -, hlt, -⟩ := h.fails hfail
    have hall' : ∀ s', Relation.ReflTransGen (FailedCall P) s₁ s' → FinalizesInOrder P s' :=
      fun s' hs' => hall s' (.head hfail hs')
    have hbelow : x ∈ ord.take s₁.handle.tableIndex := hC.below h h' hxk hturn
    exact ih s₁.handle.tableIndex (by omega) rfl h' hall' hm' hbelow

/-- What a module in the table imports stands below it. -/
theorem Retried.imports_below {s : State M} {ord : List M} {m x : M} (h : Retried P s ord)
    (hlt : s.handle.tableIndex < ord.length) (hm : s.entry s.handle.tableIndex = some m)
    (hx : P.Imports m x) : x ∈ ord.take s.handle.tableIndex := by
  obtain ⟨_, hget⟩ := List.getElem?_eq_some_iff.1 (h.holds.getElem? hlt hm)
  have htopo := h.topo
  rw [← List.take_append_drop s.handle.tableIndex ord, List.drop_eq_getElem_cons hlt, hget] at htopo
  exact htopo.before hx

/-! ## Runs of failing calls -/

variable {ord : List M}

/-- **A run of failing calls** keeps the table and the turns in step. -/
theorem Retried.run {s s' : State M} (h : Retried P s ord)
    (hrun : Relation.ReflTransGen (FailedCall P) s s') : Retried P s' ord := by
  induction hrun with
  | refl => exact h
  | tail _ hstep ih => exact (ih.fails hstep).1

/-- **A run of failing calls that can all be made again** stays harmless. -/
theorem Harmless.run {s s' : State M} (hharm : Harmless P s) (h : Retried P s ord)
    (hpos : 0 < s.handle.tableIndex)
    (hrun : Relation.ReflTransGen (fun s s' => FailedCall P s s' ∧ CanResume P s') s s') :
    Retried P s' ord ∧ Harmless P s' ∧ 0 < s'.handle.tableIndex := by
  induction hrun with
  | refl => exact ⟨h, hharm, hpos⟩
  | tail _ hstep ih =>
    obtain ⟨hf, hcan⟩ := hstep
    obtain ⟨h₀, hharm₀, -⟩ := ih
    obtain ⟨h', hs, -⟩ := h₀.fails hf
    exact ⟨h', hharm₀.step h₀ hf hcan, (hcan hs).1⟩

/-- Where every further call keeps the order, a call that has failed can be made again. -/
theorem Retried.canResume {s s' : State M} (h : Retried P s ord) (hf : FailedCall P s s')
    (hall : ∀ s'', Relation.ReflTransGen (FailedCall P) s' s'' → FinalizesInOrder P s'') :
    CanResume P s' := by
  intro _
  obtain ⟨h', -, hlt, T, m, r, hturns, hr, -, hentry⟩ := h.fails hf
  obtain ⟨s₂, hrun, -⟩ := hall s' .refl
  refine ⟨h'.pos hrun, ?_⟩
  intro m' hm' x hx
  obtain rfl : m = m' := Option.some.inj (hentry.symm.trans hm')
  by_contra hfx
  have hmem : (m, some r) ∈ finaTurns s'.trace := by rw [hturns]; simp
  have hfm : P.finaFn m ≠ none := by
    intro hn
    have hnull := (h'.null _ hmem).2 hn
    cases hnull
  have hle := h.le
  have hbelow := h'.imports_below (by omega) hentry hx
  exact Retried.blocks hr hx hfm hfx rfl h' hall hmem hbelow

variable [DecidableEq M] {ih : Handle M}

/-- A successful initialization leaves all modules to be finalized. -/
theorem Initialized.retried {s₁ : State M} {T : List (M × Option ℤ)}
    (h : Initialized P ih s₁ ord T) (hpass : ∀ x ∈ T, Passed x.2) :
    Retried P s₁ ord where
  topo := h.topo
  mem := h.mem_ord
  holds := h.holds
  extent := h.extent
  le := (h.success hpass).2.le
  turns := by rw [h.finas, (h.success hpass).2, List.take_length]; rfl
  null := by rw [h.finas]; simp

/-- **The order of finalization over several calls.** It is kept in every run in which the
calls that fail can be made again, and in all runs only if all of them can. -/
theorem finalizes_in_order_iff (hac : ¬ P.Cyclic) (hne : P.linkerset ≠ [])
    (hinit : ∀ m f, P.initFn m = some f → ∀ h, f h = 0) (ih : Handle M) :
    ∃ s₁, moduleInitialization P .exact (State.boot ih) = .ok s₁ ∧ s₁.handle.initState = .success ∧
      (∀ s, Relation.ReflTransGen (fun s s' => FailedCall P s s' ∧ CanResume P s') s₁ s →
        FinalizesInOrder P s) ∧
      ((∀ s, Relation.ReflTransGen (FailedCall P) s₁ s → FinalizesInOrder P s) ↔
        ∀ s, Relation.ReflTransGen (FailedCall P) s₁ s → CanResume P s) := by
  obtain ⟨s₁, ord, T, hI⟩ := moduleInitialization_acyclic hac hne ih
  have hpass : ∀ x ∈ T, Passed x.2 := hI.turns.passed hinit
  obtain ⟨hsucc, hidx⟩ := hI.success hpass
  have hpos : 0 < s₁.handle.tableIndex := by rw [hidx]; exact hI.length_pos hne
  have h₁ : Retried P s₁ ord := hI.retried hpass
  have hharm : Harmless P s₁ := by
    unfold Harmless
    rw [hI.finas]
    simp
  have hsafe : ∀ s, Relation.ReflTransGen (fun s s' => FailedCall P s s' ∧ CanResume P s') s₁ s →
      FinalizesInOrder P s := by
    intro s hrun
    obtain ⟨h, hh, hp⟩ := hharm.run h₁ hpos hrun
    exact h.inOrder hh hp
  refine ⟨s₁, hI.run, hsucc, hsafe, ?_, ?_⟩
  · intro hall s hrun
    cases hrun with
    | refl =>
      intro hfailed
      rw [hsucc] at hfailed
      cases hfailed
    | @tail s₀ s hrun₀ hstep =>
      have h₀ : Retried P s₀ ord := h₁.run hrun₀
      have hrun' : Relation.ReflTransGen (FailedCall P) s₁ s := hrun₀.tail hstep
      exact h₀.canResume hstep fun s'' hrun'' => hall s'' (hrun'.trans hrun'')
  · intro hcan s hrun
    apply hsafe
    -- all states reached can be resumed, so the run is one of the safe ones
    induction hrun with
    | refl => exact .refl
    | tail hrun₀ hstep ih => exact ih.tail ⟨hstep, hcan _ (hrun₀.tail hstep)⟩

/-- The program `example`, with the fina function of `mod_c` failing. -/
def stuckProgram : ModuleSet ExampleModule :=
  { exampleProgram fun _ => 0 with
    info := fun m =>
      { (exampleProgram fun _ => 0).info m with finaFn := some fun _ => failing .modC m } }

theorem stuckProgram_acyclic : ¬ stuckProgram.Cyclic := exampleProgram_acyclic fun _ => 0

theorem finalizes_in_order_iff_example : ∃ s₁,
    moduleInitialization stuckProgram .exact (State.boot default) = .ok s₁ ∧
      s₁.handle.initState = .success ∧
      (∀ s, Relation.ReflTransGen (fun s s' => FailedCall stuckProgram s s' ∧ CanResume stuckProgram s')
        s₁ s → FinalizesInOrder stuckProgram s) ∧
      ((∀ s, Relation.ReflTransGen (FailedCall stuckProgram) s₁ s → FinalizesInOrder stuckProgram s) ↔
        ∀ s, Relation.ReflTransGen (FailedCall stuckProgram) s₁ s → CanResume stuckProgram s) :=
  finalizes_in_order_iff stuckProgram_acyclic (exampleProgram_ne_nil fun _ => 0)
    exampleProgram_init_zero default

/-- After the failure of `mod_c`, a second call finalizes the modules it imports. -/
theorem stuckProgram_not_inOrder : ¬ stuckProgram.Cyclic ∧
    ∃ s₁ s₂ s₃, moduleInitialization stuckProgram .exact (State.boot default) = .ok s₁ ∧
      s₁.handle.initState = .success ∧ FailedCall stuckProgram s₁ s₂ ∧
      moduleFinalization stuckProgram s₂ = .ok s₃ ∧
      finaTurns s₃.trace = [(.modC, some 1), (.modA, some 0), (.modB, some 0)] ∧
      ¬ FinalizesInOrder stuckProgram s₂ := by
  obtain ⟨s₁, s₂, s₃, hinit, hs, hfirst, hev, hsecond, hturns⟩ : ∃ s₁ s₂ s₃,
      moduleInitialization stuckProgram .exact (State.boot default) = .ok s₁ ∧
        s₁.handle.initState = .success ∧ moduleFinalization stuckProgram s₁ = .ok s₂ ∧
        s₂.trace = s₁.trace ++ [.index 2, .load 2, .fina .modC (some 1)] ∧
        moduleFinalization stuckProgram s₂ = .ok s₃ ∧
        finaTurns s₃.trace = [(.modC, some 1), (.modA, some 0), (.modB, some 0)] :=
    ⟨_, _, _, rfl, rfl, rfl, rfl, rfl, rfl⟩
  refine ⟨stuckProgram_acyclic, s₁, s₂, s₃, hinit, hs, ⟨hfirst, _, hev, (.modC, 1), ?_, by decide⟩,
    hsecond, hturns, ?_⟩
  · simp [finaCalls, finaTurns, called]
  · rintro ⟨s', hrun, horder⟩
    obtain rfl : s₃ = s' := Except.ok.inj (hsecond.symm.trans hrun)
    have hC : stuckProgram.Imports .modC .modA :=
      .single (show ExampleModule.modA ∈ [ExampleModule.modB, .modA] by simp)
    have hzero := horder [(.modC, some 1)] .modA 0 [(.modB, some 0)] hturns .modC hC (by decide)
    simp at hzero

end Linkerset
