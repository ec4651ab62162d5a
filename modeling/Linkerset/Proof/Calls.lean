import Linkerset.Proof.Sort

/-!
# The calls of a sort

`Passes` follows a sort through its loops, into the calls of `topological_sort_module`
and out of them again. A call is made wherever a loop has a module ahead of it.

* `Passes.run_root`, `Passes.run_active`: what the sort, and the innermost active
  call, have left to do. `Passes.sortImports_eq`: there are no other calls.
* `Point.call`: before a cycle is met, the marks and the table are those of a search,
  and a call that returns with `IR_SUCCESS` keeps them so.
* `sort_invariant`: the depth-first invariant, at every entry to a call and at every
  return from one.
-/

namespace Linkerset

open Linkerset.Graph

variable {M : Type*} [DecidableEq M]

/-- **The points of a sort** of `roots` from `s₀`, in calls at most `depth₀` deep: in the
state `s`, the loop over the imports of the innermost active module, or over `roots`, has
`rest` ahead of it. A call made here may be `depth` deep. -/
inductive Passes (P : ModuleSet M) (depth₀ : ℕ) (roots : List M) (s₀ : State M) :
    ℕ → List M → List M → State M → Prop
  | start : Passes P depth₀ roots s₀ depth₀ [] roots s₀
  /-- The next module is met for the first time: its call starts a loop of its own. -/
  | enter {depth : ℕ} {active rest : List M} {mip : M} {s : State M} :
      Passes P depth₀ roots s₀ (depth + 1) active (mip :: rest) s → s.marks mip = .uninitialized →
        Passes P depth₀ roots s₀ depth (mip :: active) (P.imports mip) (s.setMark mip .initializing)
  /-- The call for the next module returns with `IR_SUCCESS`: the loop goes on. -/
  | next {depth : ℕ} {active rest : List M} {mip : M} {s s' : State M} :
      Passes P depth₀ roots s₀ depth active (mip :: rest) s →
        topologicalSortModule P depth s mip = .ok s' → s'.handle.initState = .success →
        Passes P depth₀ roots s₀ depth active rest s'

/-- The points of `topological_sort_modules`, from a handle just set up. -/
abbrev ModuleSet.SortPasses (P : ModuleSet M) (a : Alloc) (ih : Handle M) :
    ℕ → List M → List M → State M → Prop :=
  Passes P P.depth P.linkerset (P.fresh a ih)

/-- The loop over the imports does the same with calls that do the same, as long as `I`
holds of what is ahead of it and of the state. -/
theorem sortImports_congr {sort sort' : State M → M → Exec M (State M)} {mip : M}
    {I : List M → State M → Prop} (hsort : ∀ {w ws s}, I (w :: ws) s → sort s w = sort' s w)
    (hnext : ∀ {w ws s s'}, I (w :: ws) s → sort' s w = .ok s' →
      s'.handle.initState = .success → I ws s') :
    ∀ {ws : List M} {s : State M}, I ws s → sortImports sort mip ws s = sortImports sort' mip ws s := by
  intro ws
  induction ws with
  | nil => intro s _; rfl
  | cons w ws ih =>
    intro s h
    rw [sortImports, sortImports, hsort h]
    cases hrun : sort' s w with
    | error e => rfl
    | ok s₁ =>
      simp only [bind, Except.bind]
      cases hr : s₁.handle.initState with
      | cycle | failed | memory => rfl
      | success => exact ih (hnext h hrun hr)

namespace Passes

variable {P : ModuleSet M} {depth₀ depth : ℕ} {roots active rest : List M} {s₀ s : State M}

/-- Every call that is active has used one of the levels. -/
theorem depth_eq (h : Passes P depth₀ roots s₀ depth active rest s) :
    depth + active.length = depth₀ := by
  induction h with
  | start => rfl
  | enter _ _ ih => rw [List.length_cons]; omega
  | next _ _ _ ih => exact ih

/-- Outside all calls, the sort has the rest of the linkerset left to do. -/
theorem run_root (h : Passes P P.depth P.linkerset s₀ depth active rest s) (ha : active = []) :
    topologicalSortModules P s₀ = sortLinkerset P rest s := by
  induction h with
  | start => rfl
  | enter => cases ha
  | next h hrun hr ih =>
    have hd := h.depth_eq
    rw [ha, List.length_nil, Nat.add_zero] at hd
    rw [hd] at hrun
    rw [ih ha, sortLinkerset, hrun]
    simp [bind, Except.bind, hr]

/-- The innermost active call has the rest of its loop left to do. -/
theorem run_active (h : Passes P depth₀ roots s₀ depth active rest s) {mip : M} {outer : List M}
    (ha : active = mip :: outer) :
    ∃ ahead s₁, Passes P depth₀ roots s₀ (depth + 1) outer (mip :: ahead) s₁ ∧
      topologicalSortModule P (depth + 1) s₁ mip =
        sortImports (topologicalSortModule P depth) mip rest s := by
  induction h with
  | start => cases ha
  | enter h hm _ =>
    obtain ⟨rfl, rfl⟩ := List.cons.inj ha
    refine ⟨_, _, h, ?_⟩
    rw [topologicalSortModule, hm]
  | next h hrun hr ih =>
    obtain ⟨ahead, s₁, h₁, he⟩ := ih ha
    refine ⟨ahead, s₁, h₁, ?_⟩
    rw [he, sortImports, hrun]
    simp [bind, Except.bind, hr]

/-- The loop makes no other calls: any function that does the same at its points does the
same for it. -/
theorem sortImports_eq {sort : State M → M → Exec M (State M)} {mip : M}
    (hsort : ∀ {w ahead s₁}, Passes P depth₀ roots s₀ depth active (w :: ahead) s₁ →
      sort s₁ w = topologicalSortModule P depth s₁ w)
    (h : Passes P depth₀ roots s₀ depth active rest s) :
    sortImports sort mip rest s = sortImports (topologicalSortModule P depth) mip rest s :=
  sortImports_congr hsort (fun h hrun hr => h.next hrun hr) h

end Passes

/-! ## Points before a cycle is met -/

/-- **The marks and the table are those of a search** with the path `active` and the
finished list `done`. -/
structure Point (P : ModuleSet M) (s : State M) (active done : List M) : Prop where
  result : s.handle.initState = .success
  size : s.handle.tableSize = P.linkerset.length
  marked : s.Marked active done
  entries : s.entries = done.map some
  index : s.handle.tableIndex = done.length
  topo : Topo P.imports done
  nodup : active.Nodup
  chain : active.IsChain fun a b => Edge P.imports b a

namespace Point

variable {P : ModuleSet M} {s s' : State M} {active done : List M} {mip : M}

omit [DecidableEq M] in
theorem off (h : Point P s active done) : ∀ x ∈ active, x ∉ done := h.marked.apart

theorem room (h : Point P s active done) :
    (untouched P.linkerset.toFinset active done).card + (active.length + done.length) ≤
      P.linkerset.length := by
  rw [← card_modules]
  apply untouched_add_le (mem_modules P)
  exact List.nodup_append.2 ⟨h.nodup, h.topo.nodup, fun x hx y hy hxy => h.off x hx (hxy ▸ hy)⟩

/-- There are more levels left than modules not met yet. -/
theorem untouched_lt_depth {depth : ℕ} (h : Point P s active done)
    (hd : depth + active.length = P.depth) :
    (untouched P.linkerset.toFinset active done).card < depth := by
  have hroom := h.room
  unfold ModuleSet.depth at hd
  omega

theorem ready (h : Point P s active done) (hc : ∀ i < P.linkerset.length, s.Covers i) :
    Ready P.linkerset.toFinset P.linkerset.length s active done where
  result := h.result
  marked := h.marked
  index := by rw [h.index, h.entries, List.length_map]
  room := by
    have hroom := h.room
    have hindex := h.index
    omega
  covers := hc

/-- What is called here does what the visit does. -/
theorem refines {depth : ℕ} (h : Point P s active done)
    (hc : ∀ i < P.linkerset.length, s.Covers i) :
    Refines P.linkerset.toFinset P.linkerset.length s active done mip
      (visit P.imports depth active done mip) (topologicalSortModule P depth s mip) :=
  topologicalSortModule_refines (mem_modules P) (h.ready hc)

omit [DecidableEq M] in
theorem nothing_initialized (h : Point P s active []) : ∀ m, s.marks m ≠ .initialized := by
  intro m hm
  have hmem := (h.marked.initialized m).1 hm
  cases hmem

/-- A call for a module met for the first time comes to such a point before its loop. -/
theorem enter (h : Point P s active done) (hm : s.marks mip = .uninitialized)
    (hc : (mip :: active).IsChain fun a b => Edge P.imports b a) :
    Point P (s.setMark mip .initializing) (mip :: active) done where
  result := h.result
  size := h.size
  marked := h.marked.enter (h.marked.uninitialized_iff.1 hm).2
  entries := h.entries
  index := h.index
  topo := h.topo
  nodup := List.nodup_cons.2 ⟨(h.marked.uninitialized_iff.1 hm).1, h.nodup⟩
  chain := hc

/-- **A call that returns before a cycle is met** completes a visit. -/
theorem call {depth : ℕ} (h : Point P s active done)
    (hc : ∀ i < P.linkerset.length, s.Covers i)
    (hrun : topologicalSortModule P depth s mip = .ok s') (hr : s'.handle.initState ≠ .cycle) :
    ∃ new, visit P.imports depth active done mip = .ok (done ++ new) ∧
      Wrote s s' P.linkerset.length .success (s.entries ++ new.map some) ∧
      Point P s' active (done ++ new) := by
  have href : Refines _ _ s active done mip _ (topologicalSortModule P depth s mip) := h.refines hc
  rw [hrun] at href
  cases hv : visit P.imports depth active done mip with
  | error e =>
    rw [hv] at href
    cases href with
    | cycle _ hu =>
      cases hu with
      | inside _ hw _ => exact absurd hw.result hr
  | ok d =>
    rw [hv] at href
    cases href with
    | ok hw hready =>
      rename_i new
      have hg := visit_ok h.topo h.off hv
      refine ⟨new, rfl, hw, hready.result, hw.size.trans h.size, hready.marked, ?_, ?_, hg.topo,
        h.nodup, h.chain⟩
      · rw [hw.entries, h.entries, List.map_append]
      · rw [hw.index, h.entries, ← List.map_append, List.length_map]

end Point

section SortPoints

variable {P : ModuleSet M} {a : Alloc} {ih : Handle M} {depth : ℕ} {active rest : List M}
  {s : State M}

omit [DecidableEq M] in
theorem fresh_point (P : ModuleSet M) (a : Alloc) (ih : Handle M) : Point P (P.fresh a ih) [] [] where
  result := rfl
  size := rfl
  marked := fresh_marked
  entries := fresh_entries
  index := rfl
  topo := .nil
  nodup := List.nodup_nil
  chain := List.isChain_nil

/-- Before a loop goes on, each module ahead of it is imported by the innermost active
one. -/
def Ahead (P : ModuleSet M) (active rest : List M) : Prop :=
  ∀ w ∈ rest, (w :: active).IsChain fun a b => Edge P.imports b a

omit [DecidableEq M] in
theorem Ahead.enter {mip : M} (h : Ahead P active (mip :: rest)) :
    Ahead P (mip :: active) (P.imports mip) := by
  intro w hw
  rw [List.isChain_cons_cons]
  exact ⟨hw, h mip (List.mem_cons_self ..)⟩

omit [DecidableEq M] in
theorem Ahead.next {mip : M} (h : Ahead P active (mip :: rest)) : Ahead P active rest :=
  fun w hw => h w (List.mem_cons_of_mem _ hw)

theorem ahead (h : P.SortPasses a ih depth active rest s) : Ahead P active rest := by
  induction h with
  | start => exact fun w _ => List.isChain_singleton w
  | enter _ _ ih => exact ih.enter
  | next _ _ _ ih => exact ih.next

/-- **All points of a sort** in an allocated table are those of a search. -/
theorem sortPasses_point (ha : a ≠ .null) (h : P.SortPasses a ih depth active rest s) :
    s.extent = (P.fresh a ih).extent ∧ ∃ done, Point P s active done := by
  induction h with
  | start => exact ⟨rfl, [], fresh_point P a ih⟩
  | enter h hm ihp =>
    obtain ⟨hext, done, hp⟩ := ihp
    have hchain := ahead h _ (List.mem_cons_self ..)
    exact ⟨hext, done, hp.enter hm hchain⟩
  | @next depth active rest mip s s' h hrun hr ihp =>
    obtain ⟨hext, done, hp⟩ := ihp
    have hcov : ∀ i < P.linkerset.length, s.Covers i := by
      intro i hi
      exact State.covers_of_extent hext (fresh_covers ha hi)
    obtain ⟨new, -, hw, hp'⟩ := hp.call hcov hrun (by rw [hr]; decide)
    exact ⟨hw.extent.trans hext, done ++ new, hp'⟩

/-- The table has a place for every module. -/
theorem sortPasses_covers (ha : a ≠ .null) (h : P.SortPasses a ih depth active rest s) :
    ∀ i < P.linkerset.length, s.Covers i := by
  intro i hi
  exact State.covers_of_extent (sortPasses_point ha h).1 (fresh_covers ha hi)

/-- In a block of the entries asked for, it has no others. -/
theorem sortPasses_covers_iff (h : P.SortPasses .exact ih depth active rest s) {i : ℕ} :
    s.Covers i ↔ i < P.linkerset.length := by
  have hext := (sortPasses_point (by decide) h).1
  constructor
  · intro hc
    exact fresh_exact_covers (State.covers_of_extent hext.symm hc)
  · exact sortPasses_covers (by decide) h i

/-- Without a table, the points are those of a search that has finished nothing. -/
theorem sortPasses_null (h : P.SortPasses .null ih depth active rest s) :
    s.handle.table = none ∧ Point P s active [] := by
  induction h with
  | start => exact ⟨fresh_null, fresh_point P .null ih⟩
  | enter h hm ihp =>
    have hchain := ahead h _ (List.mem_cons_self ..)
    exact ⟨ihp.1, ihp.2.enter hm hchain⟩
  | @next depth active rest mip s s' _ hrun _ ihp =>
    obtain ⟨e, he⟩ := topologicalSortModule_null ihp.1 ihp.2.nothing_initialized
    rw [he] at hrun
    cases hrun

/-! ## The depth-first invariant -/

/-- **The depth-first invariant**, where `topological_sort_module` is called for `mip` or
returns from there, and `active` are the calls around it, innermost first. -/
structure SortInvariant (P : ModuleSet M) (active : List M) (mip : M) (s : State M) : Prop where
  /-- `table[0..table_index)` lists the modules marked `IS_INITIALIZED`, each once and behind
  what it imports. -/
  table : ∃ order : List M, s.entries = order.map some ∧ s.handle.tableIndex = order.length ∧
    order.Nodup ∧ (∀ m, m ∈ order ↔ s.marks m = .initialized) ∧
    ∀ i (hi : i < order.length), ∀ m ∈ P.imports order[i],
      ∃ j, ∃ hj : j < order.length, j < i ∧ order[j] = m
  initializing : ∀ m, s.marks m = .initializing ↔ m ∈ active
  distinct : active.Nodup
  /-- Each call is for a module that the one around it imports. -/
  path : (mip :: active).IsChain fun a b => a ∈ P.imports b
  room : s.handle.tableIndex + (P.linkerset.filter fun m => s.marks m = .initializing).length ≤
    s.handle.tableSize

/-- As many modules are marked `IS_INITIALIZING` as calls are active. -/
theorem Point.count_initializing {done : List M} (h : Point P s active done) :
    (P.linkerset.filter fun m => s.marks m = .initializing).length = active.length := by
  have hperm : (P.linkerset.filter fun m => s.marks m = .initializing).Perm active := by
    apply (List.perm_ext_iff_of_nodup (P.nodup.filter _) h.nodup).2
    intro m
    simp [P.complete m, h.marked.initializing]
  exact hperm.length_eq

theorem Point.sortInvariant {done : List M} {mip : M} (h : Point P s active done)
    (hc : (mip :: active).IsChain fun a b => Edge P.imports b a) :
    SortInvariant P active mip s where
  table := ⟨done, h.entries, h.index, h.topo.nodup, fun m => (h.marked.initialized m).symm,
    fun _ hi _ hm => h.topo.edge_lt hi hm⟩
  initializing := h.marked.initializing
  distinct := h.nodup
  path := hc
  room := by
    have hroom := h.room
    rw [h.count_initializing, h.index, h.size]
    omega

/-- **The depth-first invariant** holds wherever `topological_sort_modules` calls
`topological_sort_module`, directly or from within, and wherever such a call returns before
a cycle is met; also when `calloc` has failed, and the first store is a fault. -/
theorem sort_invariant {mip : M} (h : P.SortPasses a ih depth active (mip :: rest) s) :
    SortInvariant P active mip s ∧
      ∀ s', topologicalSortModule P depth s mip = .ok s' → s'.handle.initState ≠ .cycle →
        SortInvariant P active mip s' := by
  have hchain := ahead h mip (List.mem_cons_self ..)
  by_cases ha : a = .null
  · subst ha
    obtain ⟨ht, hp⟩ := sortPasses_null h
    refine ⟨hp.sortInvariant hchain, ?_⟩
    intro s' hrun
    obtain ⟨e, he⟩ := topologicalSortModule_null ht hp.nothing_initialized
    rw [he] at hrun
    cases hrun
  · obtain ⟨-, done, hp⟩ := sortPasses_point ha h
    refine ⟨hp.sortInvariant hchain, ?_⟩
    intro s' hrun hr
    obtain ⟨new, -, -, hp'⟩ := hp.call (sortPasses_covers ha h) hrun hr
    exact hp'.sortInvariant hchain

end SortPoints

/-- In the program `example`, `mod_b` is linked and sorted first, and imported by `mod_c`. -/
theorem exampleProgram_passes :
    ∃ s s', (exampleProgram fun _ => 0).SortPasses .exact default 3 [.modC] [.modB, .modA] s ∧
      topologicalSortModule (exampleProgram fun _ => 0) 3 s .modB = .ok s' ∧
      s'.handle.initState ≠ .cycle := by
  have hstart : (exampleProgram fun _ => 0).SortPasses .exact default 4 []
    [.modB, .modC, .modA] ((exampleProgram fun _ => 0).fresh .exact default) := .start
  have hmodC := hstart.next rfl rfl
  have hmodB := hmodC.enter rfl
  exact ⟨_, _, hmodB, rfl, by decide⟩

theorem sort_invariant_example :
    ∃ s s', SortInvariant (exampleProgram fun _ => 0) [.modC] .modB s ∧
      topologicalSortModule (exampleProgram fun _ => 0) 3 s .modB = .ok s' ∧
      SortInvariant (exampleProgram fun _ => 0) [.modC] .modB s' := by
  obtain ⟨s, s', h, hrun, hr⟩ := exampleProgram_passes
  exact ⟨s, s', (sort_invariant h).1, hrun, (sort_invariant h).2 s' hrun hr⟩

end Linkerset
