import Linkerset.Proof.Refine
import Linkerset.Graph.Walk

/-!
# `topological_sort_modules`

* `sort_acyclic`, `sort_cyclic`: what the sort leaves in either case, from a
  handle just set up.
* `topologicalSortModules_null`: with no table, the sort stores through `NULL`.
* `topologicalSortModules_sorts`: without an import cycle, the table is a
  topological permutation of the linkerset.
* `topologicalSortModules_cycle_iff`: the sort ends with `IR_CYCLE` exactly when
  there is an import cycle, and then reports a genuine import path into one.
* `stays_in_table_iff`: the stores stay inside the table unless the cyclic walk
  goes through every module: then the report is one entry too long.
-/

namespace Linkerset

open Linkerset.Graph

variable {M : Type*} [DecidableEq M] {P : ModuleSet M} {a : Alloc} {ih : Handle M}

theorem mem_modules (P : ModuleSet M) (m : M) : m ∈ P.linkerset.toFinset :=
  List.mem_toFinset.2 (P.complete m)

theorem card_modules (P : ModuleSet M) : P.linkerset.toFinset.card = P.linkerset.length :=
  List.toFinset_card_of_nodup P.nodup

theorem modules_lt_depth (P : ModuleSet M) : P.linkerset.toFinset.card < P.depth := by
  unfold ModuleSet.depth
  rw [card_modules]
  omega

omit [DecidableEq M] in
theorem cyclic_iff_doomed : P.Cyclic ↔ ∃ m ∈ P.linkerset, Doomed P.imports m := by
  constructor
  · rintro ⟨m, hm⟩
    exact ⟨m, P.complete m, OnCycle.doomed hm⟩
  · rintro ⟨m, -, c, -, hc⟩
    exact ⟨c, hc⟩

/-! ## The fresh handle -/

omit [DecidableEq M] in
theorem fresh_covers (ha : a ≠ .null) {i : ℕ} (hi : i < P.linkerset.length) :
    (P.fresh a ih).Covers i := by
  have h0 : P.linkerset.length ≠ 0 := by omega
  cases a with
  | null => exact absurd rfl ha
  | exact => exact ⟨⟨some P.linkerset.length, fun _ => none⟩, if_pos h0, hi⟩
  | unbounded => exact ⟨⟨none, fun _ => none⟩, if_pos h0, trivial⟩

omit [DecidableEq M] in
/-- A table without end has a place for every entry. -/
theorem fresh_unbounded_covers (hne : P.linkerset ≠ []) (i : ℕ) : (P.fresh .unbounded ih).Covers i := by
  have h0 : P.linkerset.length ≠ 0 := by simpa using hne
  apply State.covers_of_unbounded
  simp [State.extent, ModuleSet.fresh, moduleHandleInitialize, calloc, h0]

omit [DecidableEq M] in
theorem fresh_exact_covers {i : ℕ} (h : (P.fresh .exact ih).Covers i) : i < P.linkerset.length := by
  obtain ⟨t, ht, hc⟩ := h
  simp only [ModuleSet.fresh, moduleHandleInitialize, calloc] at ht
  split at ht
  · cases ht; exact hc
  · cases ht

omit [DecidableEq M] in
theorem fresh_null : (P.fresh .null ih).handle.table = none := by
  simp [ModuleSet.fresh, moduleHandleInitialize, calloc]

omit [DecidableEq M] in
theorem fresh_entries : (P.fresh a ih).entries = [] := by
  unfold State.entries; split <;> simp [ModuleSet.fresh, moduleHandleInitialize]

omit [DecidableEq M] in
@[simp] theorem fresh_marks (m : M) : (P.fresh a ih).marks m = .uninitialized := rfl

omit [DecidableEq M] in
@[simp] theorem fresh_trace : (P.fresh a ih).trace = [] := rfl

omit [DecidableEq M] in
/-- At program start nothing is active or finished. -/
theorem fresh_marked : (P.fresh a ih).Marked [] [] := ⟨by simp, by simp⟩

theorem fresh_ready (ha : a ≠ .null) :
    Ready P.linkerset.toFinset P.linkerset.length (P.fresh a ih) [] [] where
  result := rfl
  marked := fresh_marked
  index := by rw [fresh_entries]; rfl
  room := by
    have hle := untouched_card_le (U := P.linkerset.toFinset) [] []
    rw [card_modules] at hle
    simpa [ModuleSet.fresh, moduleHandleInitialize] using hle
  covers := fun _ hi => fresh_covers ha hi

/-! ## Without a table -/

omit [DecidableEq M] in
theorem State.store_null {s : State M} {i : ℕ} {m : M} (ht : s.handle.table = none) :
    ∃ e, s.store i m = .error e := by
  refine ⟨(.nullTable, s.log (.store i m)), ?_⟩
  simp [State.store, ht]

/-- Without a table, the loop over the imports ends at a fault, if the calls do. -/
theorem sortImports_null {sort : State M → M → Exec M (State M)} {m : M} {s : State M}
    (ht : s.handle.table = none) (hsort : ∀ i, ∃ e, sort s i = .error e) :
    ∀ imports, ∃ e, sortImports sort m imports s = .error e := by
  intro imports
  cases imports with
  | nil =>
    obtain ⟨e, he⟩ := State.store_null (i := s.handle.tableIndex) (m := m) ht
    refine ⟨e, ?_⟩
    rw [sortImports, appendModule, he]
    rfl
  | cons i p =>
    obtain ⟨e, he⟩ := hsort i
    refine ⟨e, ?_⟩
    rw [sortImports, he]
    rfl

/-- **Without a table** every call for a module that is not done ends at a fault. -/
theorem topologicalSortModule_null : ∀ {depth : ℕ} {s : State M} {m : M}, s.handle.table = none →
    (∀ x, s.marks x ≠ .initialized) → ∃ e, topologicalSortModule P depth s m = .error e := by
  intro depth
  induction depth with
  | zero => intro s m _ _; exact ⟨_, rfl⟩
  | succ depth ihd =>
    intro s m ht hm
    rw [topologicalSortModule]
    cases hmark : s.marks m with
    | initialized => exact absurd hmark (hm m)
    | initializing =>
      have htab : (s.setResult .cycle).handle.table = none := ht
      obtain ⟨e, he⟩ := State.store_null (i := 0) (m := m) htab
      refine ⟨e, ?_⟩
      dsimp only
      rw [he]
      rfl
    | uninitialized =>
      -- the descent stores nothing before its first leaf
      have hmarks : ∀ x, (s.setMark m .initializing).marks x ≠ .initialized := by
        intro x
        rw [State.setMark_marks]
        by_cases hx : x = m
        · subst hx
          simp
        · rw [Function.update_of_ne hx]
          exact hm x
      have htab : (s.setMark m .initializing).handle.table = none := ht
      exact sortImports_null htab (fun i => ihd htab hmarks) _

theorem topologicalSortModules_null (hne : P.linkerset ≠ []) (ih : Handle M) :
    ∃ e, topologicalSortModules P (P.fresh .null ih) = .error e := by
  obtain ⟨r, roots, hls⟩ := List.exists_cons_of_ne_nil hne
  have hm : ∀ x, (P.fresh .null ih).marks x ≠ .initialized := by
    intro x
    simp
  obtain ⟨e, he⟩ : ∃ e, topologicalSortModule P P.depth (P.fresh .null ih) r = .error e :=
    topologicalSortModule_null fresh_null hm
  refine ⟨e, ?_⟩
  rw [topologicalSortModules, hls, sortLinkerset, he]
  rfl

/-! ## The loop over the linkerset -/

/-- **Roots whose visits complete**: their calls return with `IR_SUCCESS`, one after
the other, and the loop goes on with the other roots. -/
theorem sortLinkerset_append {U : Finset M} (hU : ∀ m, m ∈ U) {B : ℕ} : ∀ {as : List M} {s : State M}
    {done d : List M}, Ready U B s [] done → visitList P.imports P.depth [] done as = .ok d →
      ∃ s₁ new, d = done ++ new ∧ as.foldlM (topologicalSortModule P P.depth) s = .ok s₁ ∧
        Wrote s s₁ B .success (s.entries ++ new.map some) ∧ Ready U B s₁ [] d ∧
        ∀ bs, sortLinkerset P (as ++ bs) s = sortLinkerset P bs s₁ := by
  intro as
  induction as with
  | nil =>
    intro s done d h hv
    cases hv
    exact ⟨s, [], by simp, rfl, by simpa using h.wrote, h, fun _ => rfl⟩
  | cons w as ihas =>
    intro s done d h hv
    have hr : Refines U B s [] done w (visit P.imports P.depth [] done w)
        (topologicalSortModule P P.depth s w) := topologicalSortModule_refines hU h
    cases hw : visit P.imports P.depth [] done w with
    | error e => rw [visitList_cons_error hw] at hv; cases hv
    | ok d' =>
      rw [visitList_cons_ok hw] at hv
      rw [hw] at hr
      generalize hrun : topologicalSortModule P P.depth s w = r at hr
      cases hr with
      | ok hwr hready =>
        obtain ⟨s₂, new, rfl, hfold, hwr', hready', hrest⟩ := ihas hready hv
        refine ⟨s₂, _ ++ new, List.append_assoc .., ?_, ?_, hready', ?_⟩
        · rw [List.foldlM_cons, hrun]; exact hfold
        · have hboth := hwr.trans hwr' le_rfl
          rw [hwr.entries] at hboth
          simpa using hboth
        · intro bs
          rw [List.cons_append, sortLinkerset, hrun]
          simp only [bind, Except.bind, hready.result, ne_eq, not_true_eq_false, if_false]
          exact hrest bs

/-- A root whose visit meets a closed path ends the loop. -/
theorem sortLinkerset_stop {U : Finset M} (hU : ∀ m, m ∈ U) {B : ℕ} {s : State M} {done : List M}
    {r : M} {bs p d₀ : List M} (h : Ready U B s [] done)
    (hv : visit P.imports P.depth [] done r = .error (.cycle p d₀)) :
    sortLinkerset P (r :: bs) s = topologicalSortModule P P.depth s r ∧
      Unwound s B p p.tail d₀ (topologicalSortModule P P.depth s r) := by
  have hr : Refines U B s [] done r (visit P.imports P.depth [] done r)
      (topologicalSortModule P P.depth s r) := topologicalSortModule_refines hU h
  rw [hv] at hr
  rw [sortLinkerset]
  generalize topologicalSortModule P P.depth s r = res at hr
  cases hr with
  | cycle hp hu =>
    have hu' : Unwound s B p p.tail d₀ res := by rw [hp] at hu ⊢; exact hu
    refine ⟨?_, hu'⟩
    cases hu' with
    | inside hc hw hm => simp [bind, Except.bind, hw.result]; rfl
    | outside => rfl

/-! ## The whole sort -/

/-- **Without an import cycle** the sort completes, and the table is the finished
list of the search. -/
theorem sort_acyclic (ha : a ≠ .null) (hac : ¬ P.Cyclic) (ih : Handle M) :
    ∃ s' ord, visitList P.imports P.depth [] [] P.linkerset = .ok ord ∧
      topologicalSortModules P (P.fresh a ih) = .ok s' ∧ ord.Perm P.linkerset ∧
      Topo P.imports ord ∧ s'.Marked [] ord ∧
      Wrote (P.fresh a ih) s' P.linkerset.length .success (ord.map some) := by
  obtain ⟨ord, hv⟩ := (visitList_ok_iff (mem_modules P) (modules_lt_depth P) P.linkerset).2
    fun r hr hd => hac (cyclic_iff_doomed.2 ⟨r, hr, hd⟩)
  have hg := visitList_ok .nil (by simp) hv
  have hperm : ord.Perm P.linkerset :=
    (List.perm_ext_iff_of_nodup hg.topo.nodup P.nodup).2
      fun m => ⟨fun _ => P.complete m, fun hm => hg.covers m hm⟩
  obtain ⟨s', new, rfl, -, hw, hready, hrest⟩ :=
    sortLinkerset_append (mem_modules P) (fresh_ready ha) hv
  rw [fresh_entries] at hw
  refine ⟨s', ord, hv, ?_, hperm, hg.topo, hready.marked, hw⟩
  have hrun := hrest []
  rw [List.append_nil] at hrun
  rw [topologicalSortModules, hrun, sortLinkerset, if_pos]
  rw [hw.size, hw.index, List.nil_append, List.length_map]
  exact hperm.length_eq

/-- **With an import cycle** the sort stops at the cyclic walk, and stores it. -/
theorem sort_cyclic (ha : a ≠ .null) (hcyc : P.Cyclic) (ih : Handle M) :
    ∃ x q d₀, CyclicWalk P.imports P.linkerset x q ∧ Topo P.imports d₀ ∧ (∀ y ∈ q, y ∉ d₀) ∧
      Unwound (P.fresh a ih) P.linkerset.length (x :: q) q d₀
        (topologicalSortModules P (P.fresh a ih)) ∧
      ∃ as r bs s₁, P.linkerset = as ++ r :: bs ∧
        as.foldlM (topologicalSortModule P P.depth) (P.fresh a ih) = .ok s₁ ∧
        s₁.handle.initState = .success ∧
        topologicalSortModules P (P.fresh a ih) = topologicalSortModule P P.depth s₁ r ∧
        r ∈ q.getLast? := by
  cases hv : visitList P.imports P.depth [] [] P.linkerset with
  | ok done =>
    obtain ⟨m, hm, hd⟩ := cyclic_iff_doomed.1 hcyc
    have hok := (visitList_ok_iff (mem_modules P) (modules_lt_depth P) P.linkerset).1 ⟨done, hv⟩
    exact absurd hd (hok m hm)
  | error e =>
    cases e with
    | limit =>
      have hdepth := lt_of_le_of_lt (untouched_card_le [] []) (modules_lt_depth P)
      exact absurd hv (visitList_limit (mem_modules P) hdepth)
    | cycle p d₀ =>
      -- the roots in front of `r` complete, and the call for `r` ends the loop
      obtain ⟨x, q, rfl, hwalk, htopo, hoff, as, r, bs, d, hls, has, hr, hlast⟩ := visitList_cycle hv
      obtain ⟨s₁, new, rfl, hfold, hw, hready, hrest⟩ :=
        sortLinkerset_append (mem_modules P) (fresh_ready ha) has
      obtain ⟨hrun, hu⟩ := sortLinkerset_stop (mem_modules P) hready hr
      have hrun' : topologicalSortModules P (P.fresh a ih) = topologicalSortModule P P.depth s₁ r := by
        rw [topologicalSortModules, hls, hrest, hrun]
      refine ⟨x, q, d₀, hwalk, htopo, hoff, ?_, as, r, bs, s₁, hls, hfold, hready.result, hrun', hlast⟩
      rw [hrun']
      exact hu.of_wrote hw

/-- **The order of the table.** Without an import cycle, and with the table
allocated, the sort succeeds and fills the table with all the modules, every one
after the modules it imports. -/
theorem topologicalSortModules_sorts (hac : ¬ P.Cyclic) (ih : Handle M) :
    ∃ (s' : State M) (ord : List M), topologicalSortModules P (P.fresh .exact ih) = .ok s' ∧
      s'.handle.initState = .success ∧ s'.handle.tableIndex = s'.handle.tableSize ∧
      s'.handle.tableSize = P.linkerset.length ∧ s'.entries = ord.map some ∧
      ord.Perm P.linkerset ∧ (∀ m, s'.marks m = .initialized) ∧
      ∀ i (hi : i < ord.length), ∀ m ∈ P.imports ord[i],
        ∃ j, ∃ hj : j < ord.length, j < i ∧ ord[j] = m := by
  obtain ⟨s', ord, -, hrun, hperm, htopo, hmarked, hw⟩ :=
    sort_acyclic (a := .exact) (by decide) hac ih
  have hsize : s'.handle.tableSize = P.linkerset.length := hw.size
  refine ⟨s', ord, hrun, hw.result, ?_, hsize, hw.entries, hperm, ?_, ?_⟩
  · rw [hsize, hw.index, List.length_map, hperm.length_eq]
  · intro m
    exact (hmarked.initialized m).2 (hperm.mem_iff.2 (P.complete m))
  · intro i hi m hm
    exact htopo.edge_lt hi hm

/-- The modules of the program `example`. -/
inductive ExampleModule where
  | modA
  | modB
  | modC
  deriving DecidableEq, Repr

/-- The program `example` in link order, with init functions that return `results`;
in the sources they all return 0. -/
def exampleProgram (results : ExampleModule → ℤ) : ModuleSet ExampleModule where
  info
    | .modA => ⟨"mod_a", [.modB], some fun _ => results .modA, some fun _ => 0⟩
    | .modB => ⟨"mod_b", [], some fun _ => results .modB, some fun _ => 0⟩
    | .modC => ⟨"mod_c", [.modB, .modA], some fun _ => results .modC, some fun _ => 0⟩
  linkerset := [.modB, .modC, .modA]
  nodup := by decide
  complete := by intro m; cases m <;> decide
  fits := by decide

theorem exampleProgram_acyclic (results : ExampleModule → ℤ) :
    ¬ (exampleProgram results).Cyclic := by
  have hb : Topo (exampleProgram results).imports ([] ++ [ExampleModule.modB]) :=
    .snoc .nil (by simp) (by simp [exampleProgram, ModuleSet.imports])
  have ha : Topo (exampleProgram results).imports ([] ++ [ExampleModule.modB] ++ [.modA]) :=
    .snoc hb (by simp) (by simp [exampleProgram, ModuleSet.imports])
  have hc : Topo (exampleProgram results).imports ([] ++ [ExampleModule.modB] ++ [.modA] ++ [.modC]) :=
    .snoc ha (by simp) (by simp [exampleProgram, ModuleSet.imports])
  rintro ⟨m, hm⟩
  exact hc.acyclic (by intro m; cases m <;> simp) m hm

theorem exampleProgram_ne_nil (results : ExampleModule → ℤ) :
    (exampleProgram results).linkerset ≠ [] := by
  simp [exampleProgram]

/-- The init functions of the sources return 0. -/
theorem exampleProgram_init_zero : ∀ m f, (exampleProgram fun _ => 0).initFn m = some f →
    ∀ h, f h = 0 := by
  intro m f hf h
  cases m <;> cases hf <;> rfl

theorem exampleProgram_fina_zero : ∀ m f, (exampleProgram fun _ => 0).finaFn m = some f →
    ∀ h, f h = 0 := by
  intro m f hf h
  cases m <;> cases hf <;> rfl

theorem topologicalSortModules_sorts_example :
    ∃ (s' : State ExampleModule) (ord : List ExampleModule),
      topologicalSortModules (exampleProgram fun _ => 0) ((exampleProgram fun _ => 0).fresh .exact
        default) = .ok s' ∧ s'.handle.initState = .success ∧ s'.handle.tableSize = 3 ∧
      s'.entries = ord.map some ∧ ord.Perm [.modB, .modC, .modA] := by
  obtain ⟨s', ord, hrun, hs, -, hsize, he, hperm, -⟩ :=
    topologicalSortModules_sorts (exampleProgram_acyclic fun _ => 0) default
  exact ⟨s', ord, hrun, hs, hsize, he, hperm⟩

/-! ## The cycle report -/

/-- **A cycle report**: an import path read backwards, from the module that was met
twice. -/
structure CycleReport (P : ModuleSet M) (rep : List M) : Prop where
  two_le : 2 ≤ rep.length
  path : ∀ i (h : i + 1 < rep.length), rep[i] ∈ P.imports rep[i + 1]
  distinct : rep.tail.Nodup
  repeats : ∀ x ∈ rep.head?, rep.tail.count x = 1
  cycle : ∀ x ∈ rep.head?, P.Imports x x

theorem CycleReport.of_walk {x : M} {q : List M} (h : CyclicWalk P.imports P.linkerset x q) :
    CycleReport P (x :: q) where
  two_le := by
    have hpos := List.length_pos_of_ne_nil h.ne_nil
    rw [List.length_cons]
    omega
  path i hi := h.edges.getElem i hi
  distinct := h.nodup
  repeats := by
    rintro y hy
    cases hy
    exact List.count_eq_one_of_mem h.nodup h.closes
  cycle := by
    rintro y hy
    cases hy
    exact h.onCycle

/-- **`IR_CYCLE` means an import cycle**, and conversely. In a table without end the
report is then complete, down to the root that was being processed. -/
theorem topologicalSortModules_cycle_iff (P : ModuleSet M) (ih : Handle M) :
    (∀ a, a ≠ .null →
      ((topologicalSortModules P (P.fresh a ih)).state.handle.initState = .cycle ↔ P.Cyclic)) ∧
    ∃ s', topologicalSortModules P (P.fresh .unbounded ih) = .ok s' ∧
      (s'.handle.initState = .cycle → ∃ rep : List M, s'.entries = rep.map some ∧
        s'.handle.tableIndex = rep.length ∧ CycleReport P rep ∧
        ∃ as r bs s₁, P.linkerset = as ++ r :: bs ∧
          as.foldlM (topologicalSortModule P P.depth) (P.fresh .unbounded ih) = .ok s₁ ∧
          s₁.handle.initState = .success ∧ topologicalSortModule P P.depth s₁ r = .ok s' ∧
          rep.getLast? = some r) := by
  by_cases hcyc : P.Cyclic
  · refine ⟨fun a ha => ⟨fun _ => hcyc, fun _ => ?_⟩, ?_⟩
    · obtain ⟨x, q, d₀, -, -, -, hu, -⟩ := sort_cyclic ha hcyc ih
      exact hu.result
    · obtain ⟨x, q, d₀, hwalk, -, -, hu, as, r, bs, s₁, hls, hfold, hs₁, hrun, hr⟩ :=
        sort_cyclic (a := .unbounded) (by decide) hcyc ih
      have hne : P.linkerset ≠ [] := by rw [hls]; simp
      generalize hres : topologicalSortModules P (P.fresh .unbounded ih) = res at hu hrun
      cases hu with
      | inside _ hw _ =>
        refine ⟨_, rfl, fun _ => ⟨x :: q, hw.entries, by simpa using hw.index,
          CycleReport.of_walk hwalk, as, r, bs, s₁, hls, hfold, hs₁, hrun.symm, ?_⟩⟩
        obtain ⟨y, l, rfl⟩ := List.exists_cons_of_ne_nil hwalk.ne_nil
        simpa using hr
      | outside _ hc _ _ => exact absurd (fresh_unbounded_covers hne _) hc
  · have hne : ∀ {s' : State M}, s'.handle.initState = .success → s'.handle.initState ≠ .cycle := by
      intro s' h; rw [h]; decide
    refine ⟨fun a ha => ⟨fun h => ?_, fun h => absurd h hcyc⟩, ?_⟩
    · obtain ⟨s', ord, -, hrun, -, -, -, hw⟩ := sort_acyclic ha hcyc ih
      rw [hrun] at h
      exact absurd h (hne hw.result)
    · obtain ⟨s', ord, -, hrun, -, -, -, hw⟩ :=
        sort_acyclic (a := .unbounded) (by decide) hcyc ih
      exact ⟨s', hrun, fun h => absurd h (hne hw.result)⟩

/-! ## The bounds of the table -/

/-- At every point of the sort `table_index` is at most `table_size`, and every
store has an index below it. -/
def ModuleSet.StaysInTable (P : ModuleSet M) (ih : Handle M) : Prop :=
  (∀ v, .index v ∈ (topologicalSortModules P (P.fresh .exact ih)).state.trace →
    v ≤ P.linkerset.length) ∧
  ∀ i m, .store i m ∈ (topologicalSortModules P (P.fresh .exact ih)).state.trace →
    i < P.linkerset.length

theorem Wrote.staysInTable {s' : State M} {r : InitializationResult} {rows : List (Option M)} {B : ℕ}
    (hrun : topologicalSortModules P (P.fresh .exact ih) = .ok s')
    (hw : Wrote (P.fresh .exact ih) s' B r rows) (hB : B ≤ P.linkerset.length) :
    P.StaysInTable ih := by
  obtain ⟨ev, htr, hev⟩ := (hw.mono hB).trace
  unfold ModuleSet.StaysInTable
  rw [hrun]
  have hmem : ∀ e ∈ (Exec.state (.ok s')).trace, e.SortWithin P.linkerset.length := by
    intro e he
    exact hev e (by simpa [Exec.state, htr] using he)
  exact ⟨fun v h => hmem _ h, fun i m h => hmem _ h⟩

/-- **The sort stays inside its table exactly when the cyclic walk leaves out some
module.** A walk through all the modules is reported with one entry too many. -/
theorem stays_in_table_iff (P : ModuleSet M) (ih : Handle M) :
    P.StaysInTable ih ↔
      ∀ x q, CyclicWalk P.imports P.linkerset x q → q.length < P.linkerset.length := by
  by_cases hcyc : P.Cyclic
  · obtain ⟨x, q, d₀, hwalk, -, -, hu, -⟩ := sort_cyclic (a := .exact) (by decide) hcyc ih
    generalize hrun : topologicalSortModules P (P.fresh .exact ih) = res at hu
    cases hu with
    | inside hc hw _ =>
      have hq : q.length < P.linkerset.length := fresh_exact_covers (hc q.length (by simp))
      refine ⟨fun _ x' q' hwalk' => (hwalk.unique hwalk').2 ▸ hq, fun _ => ?_⟩
      exact hw.staysInTable hrun (max_le le_rfl (by rw [List.length_cons]; exact hq))
    | outside hi hc _ ht =>
      constructor
      · intro hst
        have hlt := hst.2 _ _ (by rw [hrun]; exact ht)
        exact absurd (fresh_covers (by decide) hlt) hc
      · intro hq
        have hlt := hq x q hwalk
        exact absurd (fresh_covers (by decide) (by simp at hi; omega)) hc
  · obtain ⟨s', ord, -, hrun, -, -, -, hw⟩ :=
      sort_acyclic (a := .exact) (by decide) hcyc ih
    exact ⟨fun _ x q hwalk => absurd ⟨x, hwalk.onCycle⟩ hcyc, fun _ => hw.staysInTable hrun le_rfl⟩

/-- One module that imports itself. -/
def selfImport : ModuleSet Unit where
  info _ := ⟨"mod_self", [()], none, none⟩
  linkerset := [()]
  nodup := by simp
  complete := by simp
  fits := by decide

/-- The report of a self-import takes two entries, in a table of one. -/
theorem selfImport_leaves_table : ¬ selfImport.StaysInTable default := by
  intro h
  have hstore : Event.store 1 () ∈ [Event.store 0 (), .index 1, .store 1 ()] := by simp
  have hlt : 1 < selfImport.linkerset.length := h.2 1 () hstore
  simp [selfImport] at hlt

end Linkerset
