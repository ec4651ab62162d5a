import Linkerset.Proof.Initialize

/-!
# The calls of the init functions

* `moduleInitialization_calls`: without an import cycle, every init function is
  called at most once and after those of all the modules below it, and a failing
  one is the last.
* `marks_honest_iff`: the mark `IS_INITIALIZED` means what its comment says only
  if no module but the last one of the table has an init function, since the sort
  has set it on all of them.
-/

namespace Linkerset

open Linkerset.Graph

variable {M : Type*} {P : ModuleSet M} {ih : Handle M}

/-- What is known of the calls of init functions when `module_initialization` has
returned in memory `s'`. -/
structure InitContract [DecidableEq M] (P : ModuleSet M) (s' : State M) : Prop where
  /-- No init function is called twice. -/
  once : ((initCalls s'.trace).map Prod.fst).Nodup
  /-- When `m` is called, all modules it imports have returned 0, or have no function. -/
  importsFirst : ∀ C₁ m r C₂, initCalls s'.trace = C₁ ++ (m, r) :: C₂ →
    ∀ i, P.Imports m i → P.initFn i ≠ none → (i, 0) ∈ C₁
  /-- If every call returns 0, all are made, and the table is used up. -/
  success : (∀ x ∈ initCalls s'.trace, x.2 = 0) →
    (∀ m, P.initFn m ≠ none → ((initCalls s'.trace).map Prod.fst).count m = 1) ∧
      s'.handle.initState = .success ∧ s'.handle.tableIndex = s'.handle.tableSize
  /-- Otherwise the last call is the one that failed, `table_index` is its index, and
  the calls are those of the functions up to there. -/
  failure : (¬ ∀ x ∈ initCalls s'.trace, x.2 = 0) →
    s'.handle.initState = .failed ∧
      ∃ C m r, initCalls s'.trace = C ++ [(m, r)] ∧ r ≠ 0 ∧ (∀ x ∈ C, x.2 = 0) ∧
        s'.entry s'.handle.tableIndex = some m ∧
        ∀ x, x ∈ (initCalls s'.trace).map Prod.fst ↔
          P.initFn x ≠ none ∧ ∃ i ≤ s'.handle.tableIndex, s'.entry i = some x

theorem passed_of_called {T : List (M × Option ℤ)} (h : ∀ x ∈ called T, x.2 = 0) :
    ∀ x ∈ T, Passed x.2 := by
  rintro ⟨m, r⟩ hx
  cases r with
  | none => exact passed_none
  | some r =>
    exact passed_some.2 (h (m, r) (mem_called.2 hx))

theorem called_of_passed {T : List (M × Option ℤ)} (h : ∀ x ∈ T, Passed x.2) :
    ∀ x ∈ called T, x.2 = 0 := by
  rintro ⟨m, r⟩ hx
  rcases h _ (mem_called.1 hx) with hr | hr
  · cases hr
  · exact Option.some.inj hr

theorem mem_called_map {fn : M → Option (Callback M)} {mk : M → ℤ → Call M} {h : List (Call M)}
    {l : List M} {T : List (M × Option ℤ)} (ht : Turns fn mk h l T) {m : M} :
    m ∈ (called T).map Prod.fst ↔ m ∈ T.map Prod.fst ∧ fn m ≠ none := by
  constructor
  · intro hm
    obtain ⟨⟨m, r⟩, hx, rfl⟩ := List.mem_map.1 hm
    have hT := mem_called.1 hx
    refine ⟨List.mem_map.2 ⟨_, hT, rfl⟩, fun hn => ?_⟩
    have hnull := (ht.null_iff _ hT).2 hn
    cases hnull
  · rintro ⟨hm, hf⟩
    obtain ⟨⟨m, r⟩, hT, rfl⟩ := List.mem_map.1 hm
    cases r with
    | none => exact absurd ((ht.null_iff _ hT).1 rfl) hf
    | some r => exact List.mem_map.2 ⟨(m, r), mem_called.2 hT, rfl⟩

variable [DecidableEq M]

namespace Initialized

variable {s' : State M} {ord : List M} {T : List (M × Option ℤ)}

theorem calls_nodup (h : Initialized P ih s' ord T) : ((called T).map Prod.fst).Nodup :=
  (h.turns.nodup h.topo.nodup).sublist (called_sublist T)

/-- A call finds all that its module imports initialized. -/
theorem imports_called (h : Initialized P ih s' ord T) {C₁ C₂ : List (M × ℤ)} {m i : M} {r : ℤ}
    (hC : called T = C₁ ++ (m, r) :: C₂) (hi : P.Imports m i) (hf : P.initFn i ≠ none) :
    (i, 0) ∈ C₁ := by
  obtain ⟨T₁, T₂, hT, rfl⟩ := called_split hC
  obtain ⟨hpass, B, hord⟩ := h.turns.split hT
  -- `i` stands before `m` in the table, so its turn is one of `T₁`
  have htopo := h.topo
  rw [hord] at htopo
  obtain ⟨⟨i, o⟩, hx, rfl⟩ := List.mem_map.1 (htopo.before hi)
  have hxT : (i, o) ∈ T := by rw [hT]; exact List.mem_append_left _ hx
  rcases hpass _ hx with ho | ho
  · exact absurd ((h.turns.null_iff _ hxT).1 ho) hf
  · exact mem_called.2 (ho ▸ hx)

/-- When all calls return 0, every function is called. -/
theorem count_called (h : Initialized P ih s' ord T) (hpass : ∀ x ∈ T, Passed x.2) {m : M}
    (hm : P.initFn m ≠ none) : ((called T).map Prod.fst).count m = 1 := by
  have hmem : m ∈ T.map Prod.fst := by
    rw [h.turns.complete hpass]
    exact h.mem_ord m
  exact List.count_eq_one_of_mem h.calls_nodup ((mem_called_map h.turns).2 ⟨hmem, hm⟩)

/-- After a failure, the turns are those of the entries up to `table_index`. -/
theorem mem_turns_iff {T₁ : List (M × Option ℤ)} {m : M} {r : ℤ} {B : List M}
    (h : Initialized P ih s' ord (T₁ ++ [(m, some r)])) (hord : ord = T₁.map Prod.fst ++ m :: B)
    (hidx : s'.handle.tableIndex = (T₁.map Prod.fst).length) (x : M) :
    x ∈ (T₁ ++ [(m, some r)]).map Prod.fst ↔ ∃ i ≤ s'.handle.tableIndex, s'.entry i = some x := by
  have htake : (T₁ ++ [(m, some r)]).map Prod.fst = ord.take (s'.handle.tableIndex + 1) := by
    rw [hidx, hord, List.take_append]
    simp
  rw [htake, List.mem_iff_getElem?]
  constructor
  · rintro ⟨i, hi⟩
    rw [List.getElem?_take] at hi
    split at hi
    · exact ⟨i, by omega, h.holds.entry hi⟩
    · cases hi
  · rintro ⟨i, hi, hx⟩
    have hlt : i < ord.length := by
      rw [hord, List.length_append, List.length_cons]
      omega
    have hget := h.holds.getElem? hlt hx
    exact ⟨i, by rw [List.getElem?_take_of_lt (by omega), hget]⟩

end Initialized

/-- **The calls of the init functions.** -/
theorem moduleInitialization_calls (hac : ¬ P.Cyclic) (hne : P.linkerset ≠ []) (ih : Handle M) :
    ∃ s', moduleInitialization P .exact (State.boot ih) = .ok s' ∧ InitContract P s' := by
  obtain ⟨s', ord, T, hI⟩ := moduleInitialization_acyclic hac hne ih
  refine ⟨s', hI.run, ?_, ?_, ?_, ?_⟩ <;> rw [initCalls, hI.inits]
  · exact hI.calls_nodup
  · intro C₁ m r C₂ hC i hi hf
    exact hI.imports_called hC hi hf
  · intro hall
    have hpass := passed_of_called hall
    obtain ⟨hs, hx⟩ := hI.success hpass
    exact ⟨fun m hm => hI.count_called hpass hm, hs, hx.trans hI.holds.size.symm⟩
  · intro hfail
    obtain ⟨hs, T₁, m, r, B, rfl, hr, hpass, hord, hidx, -⟩ :=
      hI.failure fun hp => hfail (called_of_passed hp)
    have hentry : s'.entry s'.handle.tableIndex = some m := by
      apply hI.holds.entry
      rw [hidx, hord]; simp
    have hlast : called (T₁ ++ [(m, some r)]) = called T₁ ++ [(m, r)] := called_append _ _
    refine ⟨hs, called T₁, m, r, hlast, hr, called_of_passed hpass, hentry, ?_⟩
    intro x
    rw [mem_called_map hI.turns, hI.mem_turns_iff hord hidx, and_comm]

theorem moduleInitialization_calls_example :
    ∃ s', moduleInitialization (exampleProgram fun _ => 0) .exact (State.boot default) = .ok s' ∧
      InitContract (exampleProgram fun _ => 0) s' :=
  moduleInitialization_calls (exampleProgram_acyclic _) (exampleProgram_ne_nil _) default

/-! ## The marks -/

omit [DecidableEq M] in
/-- **The marks are honest**: when an init function is called, and at the end, a
module marked `IS_INITIALIZED` is fully initialized. -/
structure State.MarksHonest (s' : State M) : Prop where
  atCalls : ∀ t₁ m marks r t₂, s'.trace = t₁ ++ .init m marks (some r) :: t₂ →
    ∀ x, marks x = .initialized → FullyInitialized t₁ x
  atEnd : ∀ x, s'.marks x = .initialized → FullyInitialized s'.trace x

omit [DecidableEq M] in
theorem fullyInitialized_of_passed {t : List (Event M)} {T : List (M × Option ℤ)}
    (ht : T ⊆ initTurns t) (hp : ∀ x ∈ T, Passed x.2) {m : M} (hm : m ∈ T.map Prod.fst) :
    FullyInitialized t m := by
  obtain ⟨⟨m, r⟩, hx, rfl⟩ := List.mem_map.1 hm
  rcases hp _ hx with hr | hr
  · exact Or.inl (by rw [← hr]; exact ht hx)
  · exact Or.inr (by rw [← hr]; exact ht hx)

omit [DecidableEq M] in
theorem FullyInitialized.mem_turns {t : List (Event M)} {m : M} (h : FullyInitialized t m) :
    m ∈ (initTurns t).map Prod.fst :=
  h.elim (fun h => List.mem_map.2 ⟨_, h, rfl⟩) (fun h => List.mem_map.2 ⟨_, h, rfl⟩)

omit [DecidableEq M] in
/-- A turn splits the trace where it splits the turns. -/
theorem initTurns_split {t : List (Event M)} {T₁ T₂ : List (M × Option ℤ)} {m : M} {r : Option ℤ}
    (h : initTurns t = T₁ ++ (m, r) :: T₂) :
    ∃ t₁ marks t₂, t = t₁ ++ .init m marks r :: t₂ ∧ initTurns t₁ = T₁ := by
  obtain ⟨t₁, t', rfl, ht₁, ht'⟩ := List.filterMap_eq_append_iff.1 h
  obtain ⟨u, e, t₂, rfl, hu, he, -⟩ := List.filterMap_eq_cons_iff.1 ht'
  cases e with
  | init m' marks r' =>
    cases he
    refine ⟨t₁ ++ u, marks, t₂, by simp, ?_⟩
    have hu' : initTurns u = [] := List.filterMap_eq_nil_iff.2 hu
    rw [initTurns_append, hu', List.append_nil]
    exact ht₁
  | store | load | index | fina | print => cases he

variable {s' : State M} {ord : List M} {T : List (M × Option ℤ)}

/-- The last module of the table. -/
theorem Initialized.last (h : Initialized P ih s' ord T) (hne : P.linkerset ≠ []) :
    ∃ l r, ord = l ++ [r] ∧ LastRoot P.imports P.linkerset r :=
  visitList_last hne h.search

theorem Initialized.called_ne_null (h : Initialized P ih s' ord T) {m : M} {r : ℤ}
    (hx : (m, some r) ∈ T) : P.initFn m ≠ none := by
  intro hn
  have hnull := (h.turns.null_iff _ hx).2 hn
  cases hnull

/-- A turn of the last module finds all the others initialized. -/
theorem Initialized.others_passed (h : Initialized P ih s' ord T) {l : List M} {m x : M}
    (hord : ord = l ++ [m]) (hx : x ≠ m) {T₁ T₂ : List (M × Option ℤ)} {r : Option ℤ}
    (hT : T = T₁ ++ (m, r) :: T₂) : x ∈ T₁.map Prod.fst := by
  obtain ⟨-, B, hB⟩ := h.turns.split hT
  have hnodup := h.topo.nodup
  have hmem := h.mem_ord x
  rw [hB] at hnodup hmem
  -- the last module has nothing behind it
  have hnil : B = [] := by
    rcases append_cons_eq_concat (hB.symm.trans hord) with ⟨-, -, hnil⟩ | ⟨z, rfl, -⟩
    · exact hnil
    · rw [List.nodup_append] at hnodup
      exact absurd (List.nodup_cons.1 hnodup.2.1).1 (by simp)
  subst hnil
  simpa [hx] using hmem

/-- Honest marks leave no module behind the first one that has a function: at its
call those behind it are marked, and have had no turn. -/
theorem Initialized.nil_of_honest (h : Initialized P ih s' ord T) (hh : s'.MarksHonest)
    {A B : List M} {f : M} (hord : ord = A ++ f :: B) (hf : P.initFn f ≠ none)
    (hA : ∀ a ∈ A, P.initFn a = none) : B = [] := by
  have hturns := h.turns
  rw [hord] at hturns
  obtain ⟨T', hT, hturns'⟩ := hturns.of_null hA
  -- the modules in front of `f` have no function, so the first call is that of `f`
  obtain ⟨fn, hfn⟩ := Option.ne_none_iff_exists'.1 hf
  obtain ⟨T'', rfl⟩ := hturns'.head_called hfn
  obtain ⟨t₁, marks, t₂, htr, ht₁⟩ := initTurns_split (h.inits.trans hT)
  have hmarks : marks = turnMarks f (some (fn [])) := h.snapshots f marks _ (by rw [htr]; simp)
  have hnodup := h.topo.nodup
  rw [hord, List.nodup_append, List.nodup_cons] at hnodup
  obtain ⟨-, ⟨hfB, -⟩, hdisj⟩ := hnodup
  rw [List.eq_nil_iff_forall_not_mem]
  intro b hb
  have hbf : b ≠ f := by rintro rfl; exact hfB hb
  have hfull : FullyInitialized t₁ b :=
    hh.atCalls t₁ f marks _ t₂ htr b (by simp [hmarks, turnMarks, hbf, allInitialized])
  have hbA : b ∈ A := by simpa [ht₁] using hfull.mem_turns
  exact hdisj b hbA b (List.mem_cons_of_mem _ hb) rfl

/-- If only the last module of the table has a function, the marks are honest. -/
theorem Initialized.honest_of_last (h : Initialized P ih s' ord T) {l : List M} {m₀ : M}
    (hord : ord = l ++ [m₀]) (hlast : ∀ m, P.initFn m ≠ none → m = m₀) : s'.MarksHonest where
  atCalls := by
    rintro t₁ m marks r t₂ htr x hx
    have hT : T = initTurns t₁ ++ (m, some r) :: initTurns t₂ := by
      rw [← h.inits, htr, initTurns_append]; rfl
    obtain ⟨hpass, -⟩ := h.turns.split hT
    have hm₀ : m = m₀ := hlast m (h.called_ne_null (r := r) (by rw [hT]; simp))
    subst hm₀
    -- the module that is called is marked `IS_INITIALIZING`
    have hxm : x ≠ m := by
      rintro rfl
      rw [h.snapshots x marks (some r) (by rw [htr]; simp)] at hx
      simp [turnMarks] at hx
    exact fullyInitialized_of_passed (List.Subset.refl _) hpass (h.others_passed hord hxm hT)
  atEnd := by
    intro x hx
    by_cases hpass : ∀ y ∈ T, Passed y.2
    · refine fullyInitialized_of_passed (by rw [h.inits]; simp) hpass ?_
      rw [h.turns.complete hpass]
      exact h.mem_ord x
    · obtain ⟨-, T₁, m, r, B, rfl, -, hpass₁, -, -, hmk⟩ := h.failure hpass
      have hm₀ : m = m₀ := hlast m (h.called_ne_null (r := r) (by simp))
      subst hm₀
      have hxm : x ≠ m := by
        rintro rfl
        rw [hmk] at hx
        simp [turnMarks] at hx
      refine fullyInitialized_of_passed ?_ hpass₁ (h.others_passed hord hxm
        (show T₁ ++ [(m, some r)] = T₁ ++ (m, some r) :: [] from rfl))
      rw [h.inits]
      exact List.subset_append_left _ _

/-- **The mark `IS_INITIALIZED` is honest** exactly when no module but the last root
has an init function. -/
theorem marks_honest_iff (hac : ¬ P.Cyclic) (hne : P.linkerset ≠ []) (ih : Handle M) :
    ∃ s', moduleInitialization P .exact (State.boot ih) = .ok s' ∧
      (s'.MarksHonest ↔ ∀ m, P.initFn m ≠ none → LastRoot P.imports P.linkerset m) := by
  obtain ⟨s', ord, T, hI⟩ := moduleInitialization_acyclic hac hne ih
  obtain ⟨l, m₀, hord, hlast⟩ := hI.last hne
  refine ⟨s', hI.run, fun hh m hm => ?_, fun h => ?_⟩
  · -- the first module with a function has nothing behind it, so it is the last one
    obtain ⟨f, A, B, hAB, hf, hA⟩ :=
      FirstIn.exists_of_mem (p := fun x => P.initFn x ≠ none) (hI.mem_ord m) hm
    have hA' : ∀ a ∈ A, P.initFn a = none := fun a ha => not_not.1 (hA a ha)
    obtain rfl := hI.nil_of_honest hh hAB hf hA'
    obtain ⟨-, rfl⟩ := List.append_singleton_inj.1 (hord.symm.trans hAB)
    have hmem := hI.mem_ord m
    rw [hAB, List.mem_append, List.mem_singleton] at hmem
    rw [hmem.resolve_left fun hmA => hm (hA' m hmA)]
    exact hlast
  · exact hI.honest_of_last hord fun m hm => (h m hm).unique hlast

theorem marks_honest_iff_example :
    ∃ s', moduleInitialization (exampleProgram fun _ => 0) .exact (State.boot default) = .ok s' ∧
      (s'.MarksHonest ↔ ∀ m, (exampleProgram fun _ => 0).initFn m ≠ none →
        LastRoot (exampleProgram fun _ => 0).imports (exampleProgram fun _ => 0).linkerset m) :=
  marks_honest_iff (exampleProgram_acyclic _) (exampleProgram_ne_nil _) default

/-- While `mod_b` is initialized, `mod_a` is marked as if it were. -/
theorem exampleProgram_not_honest : ¬ (exampleProgram fun _ => 0).Cyclic ∧
    ∃ s', moduleInitialization (exampleProgram fun _ => 0) .exact (State.boot default) = .ok s' ∧
      ¬ s'.MarksHonest := by
  refine ⟨exampleProgram_acyclic _, _, rfl, fun h => ?_⟩
  have hfull := h.atCalls [.store 0 .modB, .index 1, .store 1 .modA, .index 2, .store 2 .modC,
    .index 3, .index 0, .load 0] .modB _ 0 _ rfl .modA rfl
  simp [FullyInitialized, initTurns] at hfull

end Linkerset
