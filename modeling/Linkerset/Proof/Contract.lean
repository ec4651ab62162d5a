import Linkerset.Proof.Calls

/-!
# What one call of `topological_sort_module` does

* `Clear`: nothing that a module imports, directly or not, is being initialized or lies
  on an import cycle, nor does the module itself.
* `CallContract`: for a clear module, the call appends exactly those of these modules that
  are not sorted yet (`Appends`); for any other, it returns with `IR_CYCLE`.
* `topologicalSortModule_contract_iff`: an outermost call whose report has an entry more
  than the table breaks the contract, and no other call does.
-/

namespace Linkerset

open Linkerset.Graph

variable {M : Type*} [DecidableEq M]

/-- No module of the import closure of `mip` is marked `IS_INITIALIZING`, or lies on a cycle
of imports. -/
def ModuleSet.Clear (P : ModuleSet M) (s : State M) (mip : M) : Prop :=
  ∀ m, Reach P.imports mip m → s.marks m ≠ .initializing ∧ ¬ P.Imports m m

/-- **A call for `mip` that appends `new`**, from `s` to `s'`. -/
structure Appends (P : ModuleSet M) (mip : M) (s s' : State M) (new : List M) : Prop where
  result : s'.handle.initState = .success
  /-- The earlier entries stay. -/
  entries : s'.entries = s.entries ++ new.map some
  index : s'.handle.tableIndex = s.handle.tableIndex + new.length
  once : new.Nodup
  closure : ∀ m, m ∈ new ↔ Reach P.imports mip m ∧ s.marks m = .uninitialized
  /-- In the table, every one stands after its imports. -/
  ordered : ∀ as m bs, new = as ++ m :: bs → ∀ i ∈ P.imports m, some i ∈ s.entries ++ as.map some
  last : s.marks mip = .uninitialized → new.getLast? = some mip
  marked : ∀ m ∈ new, s'.marks m = .initialized
  unchanged : ∀ m, m ∉ new → s'.marks m = s.marks m

/-- **What a call for `mip` from `s` is to do**, where `r` is its end: for a clear module,
append the part of its import closure that is not sorted; for any other, return with
`IR_CYCLE`. -/
structure CallContract (P : ModuleSet M) (s : State M) (mip : M) (r : Exec M (State M)) : Prop where
  clear : P.Clear s mip → ∃ s' new, r = .ok s' ∧ Appends P mip s s' new
  cycle : ¬ P.Clear s mip → ∃ s', r = .ok s' ∧ s'.handle.initState = .cycle

omit [DecidableEq M] in
theorem CallContract.returns {P : ModuleSet M} {s : State M} {mip : M} {r : Exec M (State M)}
    (h : CallContract P s mip r) : ∃ s', r = .ok s' := by
  by_cases hc : P.Clear s mip
  · obtain ⟨s', -, hrun, -⟩ := h.clear hc
    exact ⟨s', hrun⟩
  · obtain ⟨s', hrun, -⟩ := h.cycle hc
    exact ⟨s', hrun⟩

/-- Every call that a sort makes before it meets a cycle keeps the contract. -/
def ModuleSet.KeepsContract (P : ModuleSet M) (ih : Handle M) : Prop :=
  ∀ depth active mip rest s, P.SortPasses .exact ih depth active (mip :: rest) s →
    CallContract P s mip (topologicalSortModule P depth s mip)

/-- The report of the cyclic walk from `roots`, if there is one, fits into the table. -/
def ModuleSet.ReportFits (P : ModuleSet M) (roots : List M) : Prop :=
  ∀ x q, CyclicWalk P.imports roots x q → (x :: q).length ≤ P.linkerset.length

namespace Point

variable {P : ModuleSet M} {s s' : State M} {active done new : List M} {mip : M}

omit [DecidableEq M] in
/-- Finishing `new` changes no other marks. -/
theorem marks_eq (h : Point P s active done) (h' : Point P s' active (done ++ new)) {m : M}
    (hm : m ∉ new) : s'.marks m = s.marks m := by
  have hd : m ∈ done ++ new ↔ m ∈ done := by simp [hm]
  have hfin := h'.marked.initialized m
  rw [hd] at hfin
  cases hs : s.marks m with
  | uninitialized =>
    rw [h.marked.uninitialized_iff] at hs
    rw [h'.marked.uninitialized_iff, hd]
    exact hs
  | initializing => exact (h'.marked.initializing m).2 ((h.marked.initializing m).1 hs)
  | initialized => exact hfin.2 ((h.marked.initialized m).1 hs)

/-- A call that completes its visit appends the part of the closure that was not sorted. -/
theorem appends {depth : ℕ} (h : Point P s active done)
    (hv : visit P.imports depth active done mip = .ok (done ++ new))
    (hw : Wrote s s' P.linkerset.length .success (s.entries ++ new.map some))
    (h' : Point P s' active (done ++ new)) : Appends P mip s s' new where
  result := hw.result
  entries := hw.entries
  index := by rw [h'.index, h.index, List.length_append]
  once := (List.nodup_append.1 h'.topo.nodup).2.1
  closure m := by
    rw [mem_new_iff h.topo h.off hv, h.marked.uninitialized_iff]
    constructor
    · rintro ⟨hreach, hd⟩
      have hnew := (mem_new_iff h.topo h.off hv).2 ⟨hreach, hd⟩
      exact ⟨hreach, fun ha => h'.off m ha (List.mem_append_right _ hnew), hd⟩
    · rintro ⟨hreach, -, hd⟩
      exact ⟨hreach, hd⟩
  ordered := by
    rintro as m bs rfl i hi
    have htopo := h'.topo
    rw [← List.append_assoc] at htopo
    have himp := htopo.split.2.2 i hi
    rw [h.entries, ← List.map_append]
    exact List.mem_map_of_mem himp
  last hm := getLast_new (h.marked.uninitialized_iff.1 hm).2 hv
  marked m hm := (h'.marked.initialized m).2 (List.mem_append_right _ hm)
  unchanged m hm := h.marks_eq h' hm

end Point

section Contract

variable {P : ModuleSet M} {a : Alloc} {ih : Handle M} {depth : ℕ} {active done rest : List M}
  {s : State M} {mip : M}

/-- The visit of a module completes exactly if it is clear. -/
theorem visit_ok_iff_clear (hp : Point P s active done) (hd : depth + active.length = P.depth)
    (hc : (mip :: active).IsChain fun a b => Edge P.imports b a) :
    (∃ d, visit P.imports depth active done mip = .ok d) ↔ P.Clear s mip := by
  rw [visit_ok_iff (mem_modules P) (hp.untouched_lt_depth hd) hp.topo hp.off hp.nodup hc]
  simp only [ModuleSet.Clear, ne_eq, hp.marked.initializing, OnCycle]

/-- A call for a clear module appends. -/
theorem topologicalSortModule_clear (ha : a ≠ .null)
    (h : P.SortPasses a ih depth active (mip :: rest) s) (hc : P.Clear s mip) :
    ∃ s' new, topologicalSortModule P depth s mip = .ok s' ∧ Appends P mip s s' new := by
  obtain ⟨-, done, hp⟩ := sortPasses_point ha h
  have hcov := sortPasses_covers ha h
  have hchain := ahead h mip (List.mem_cons_self ..)
  obtain ⟨d, hv⟩ := (visit_ok_iff_clear hp h.depth_eq hchain).2 hc
  have href : Refines _ _ s active done mip _ (topologicalSortModule P depth s mip) :=
    hp.refines hcov
  rw [hv] at href
  generalize hrun : topologicalSortModule P depth s mip = r at href
  cases href with
  | @ok s' new hw _ =>
    obtain ⟨new', hv', hw', hp'⟩ := hp.call hcov hrun (by rw [hw.result]; decide)
    exact ⟨s', new', rfl, hp.appends hv' hw' hp'⟩

/-- **A call for any other module** meets a closed path, and stores what it has of it. -/
theorem topologicalSortModule_unclear (ha : a ≠ .null)
    (h : P.SortPasses a ih depth active (mip :: rest) s) (hn : ¬ P.Clear s mip) :
    ∃ pre x q done d₀, x :: q = pre ++ mip :: active ∧
      Interrupted P.imports active done mip x q d₀ ∧
      Unwound s P.linkerset.length (pre ++ [mip]) q d₀ (topologicalSortModule P depth s mip) := by
  obtain ⟨-, done, hp⟩ := sortPasses_point ha h
  have hchain := ahead h mip (List.mem_cons_self ..)
  have hclear := visit_ok_iff_clear hp h.depth_eq hchain
  have href : Refines _ _ s active done mip _ (topologicalSortModule P depth s mip) :=
    hp.refines (sortPasses_covers ha h)
  cases hv : visit P.imports depth active done mip with
  | ok d => exact absurd (hclear.1 ⟨d, hv⟩) hn
  | error e =>
    rw [hv] at href
    generalize topologicalSortModule P depth s mip = r at href ⊢
    cases href with
    | limit =>
      exact absurd hv (visit_limit (mem_modules P) (hp.untouched_lt_depth h.depth_eq))
    | @cycle pre p d₀ _ hpre hu =>
      obtain ⟨x, q, rfl, hI⟩ := visit_cycle hp.topo hp.off hp.nodup hchain hv
      exact ⟨pre, x, q, done, d₀, hpre, hI, hu⟩

omit [DecidableEq M] in
theorem reportFits_iff {roots q : List M} {x : M} (h : CyclicWalk P.imports roots x q) :
    P.ReportFits roots ↔ (x :: q).length ≤ P.linkerset.length := by
  constructor
  · intro hf
    exact hf x q h
  · intro hle x' q' h'
    obtain ⟨rfl, rfl⟩ := h.unique h'
    exact hle

/-- **Such a call returns** unless it is an outermost one and its report does not fit: the
part of the path that a nested call stores is shorter. -/
theorem unclear_returns_iff (h : P.SortPasses .exact ih depth active (mip :: rest) s)
    (hn : ¬ P.Clear s mip) :
    (∃ s', topologicalSortModule P depth s mip = .ok s') ↔ active ≠ [] ∨ P.ReportFits [mip] := by
  obtain ⟨pre, x, q, done, d₀, hpre, hI, hu⟩ := topologicalSortModule_unclear (by decide) h hn
  have hlen : (x :: q).length = pre.length + 1 + active.length := by
    rw [hpre, List.length_append, List.length_cons]
    omega
  -- the path has each module once
  have hq : q.length ≤ P.linkerset.length :=
    (List.subperm_of_subset hI.nodup fun m _ => P.complete m).length_le
  have hfits : (∃ s', topologicalSortModule P depth s mip = .ok s') ↔
      pre.length + 1 ≤ P.linkerset.length := by
    rw [hu.returns_iff, List.length_append, List.length_singleton]
    simp only [sortPasses_covers_iff h]
    constructor
    · intro hall
      exact hall pre.length (Nat.lt_succ_self _)
    · intro hle i hi
      exact lt_of_lt_of_le hi hle
  rw [hfits]
  rw [List.length_cons] at hlen
  by_cases hactive : active = []
  · subst hactive
    have hwalk : CyclicWalk P.imports [mip] x q :=
      hI.cyclicWalk ⟨[], [], rfl, hI.doomed, by simp⟩
    rw [reportFits_iff hwalk, List.length_cons, hlen, List.length_nil, Nat.add_zero]
    simp
  · have hpos := List.length_pos_of_ne_nil hactive
    exact ⟨fun _ => Or.inl hactive, fun _ => by omega⟩

/-- The contract of one call. -/
theorem callContract_iff (h : P.SortPasses .exact ih depth active (mip :: rest) s) :
    CallContract P s mip (topologicalSortModule P depth s mip) ↔
      P.Clear s mip ∨ active ≠ [] ∨ P.ReportFits [mip] := by
  by_cases hc : P.Clear s mip
  · refine ⟨fun _ => Or.inl hc, fun _ => ?_⟩
    exact ⟨fun _ => topologicalSortModule_clear (by decide) h hc, fun hn => absurd hc hn⟩
  · rw [← unclear_returns_iff h hc]
    constructor
    · intro hcall
      exact Or.inr hcall.returns
    · intro hret
      obtain ⟨s', hrun⟩ := hret.resolve_left hc
      obtain ⟨_, _, _, _, _, -, -, hu⟩ := topologicalSortModule_unclear (by decide) h hc
      have hcycle := hu.result
      rw [hrun] at hcycle
      exact ⟨fun hclear => absurd hclear hc, fun _ => ⟨s', hrun, hcycle⟩⟩

/-! ## All calls of a sort -/

/-- Before an outermost call, the modules in front are sorted. -/
theorem sortPasses_roots (ha : a ≠ .null) (h : P.SortPasses a ih depth active rest s)
    (hactive : active = []) :
    ∃ as done, P.linkerset = as ++ rest ∧ Point P s [] done ∧ ∀ m ∈ as, m ∈ done := by
  induction h with
  | start => exact ⟨[], [], rfl, fresh_point P a ih, by simp⟩
  | enter => cases hactive
  | @next depth active rest mip s s' h hrun hr ihp =>
    obtain ⟨as, done, hl, hp, has⟩ := ihp hactive
    obtain ⟨new, hv, -, hp'⟩ := hp.call (sortPasses_covers ha h) hrun (by rw [hr]; decide)
    have hg := visit_ok hp.topo hp.off hv
    refine ⟨as ++ [mip], done ++ new, by simp [hl], hp', ?_⟩
    intro m hm
    rcases List.mem_append.1 hm with hm | hm
    · exact List.mem_append_left _ (has m hm)
    · exact hg.covers m hm

/-- So a walk that starts at its module is the walk of the linkerset. -/
theorem ModuleSet.ReportFits.root (hf : P.ReportFits P.linkerset)
    (h : P.SortPasses .exact ih depth [] (mip :: rest) s) : P.ReportFits [mip] := by
  obtain ⟨as, done, hl, hp, has⟩ := sortPasses_roots (by decide) h rfl
  intro x q hwalk
  apply hf x q
  apply hwalk.of_roots
  intro r hr
  obtain rfl := List.mem_singleton.1 hr.mem
  exact ⟨as, rest, hl, hr.prop, fun b hb => hp.topo.not_doomed (has b hb)⟩

/-- If the outermost calls all return, the loop over the linkerset has no fault, or only
that of its last assertion. -/
theorem sortLinkerset_returns (ha : a ≠ .null)
    (hret : ∀ depth mip rest s, P.SortPasses a ih depth [] (mip :: rest) s →
      ∃ s', topologicalSortModule P depth s mip = .ok s') :
    ∀ {rest : List M} {s : State M}, P.SortPasses a ih P.depth [] rest s →
      (∃ s', sortLinkerset P rest s = .ok s') ∨
        (sortLinkerset P rest s).state.handle.initState = .success := by
  intro rest
  induction rest with
  | nil =>
    intro s h
    obtain ⟨-, done, hp⟩ := sortPasses_point ha h
    rw [sortLinkerset]
    split
    · exact Or.inl ⟨s, rfl⟩
    · exact Or.inr hp.result
  | cons mip rest ihr =>
    intro s h
    obtain ⟨s', hrun⟩ := hret _ _ _ _ h
    rw [sortLinkerset, hrun]
    simp only [bind, Except.bind]
    by_cases hr : s'.handle.initState = .success
    · rw [if_neg (not_not.2 hr)]
      exact ihr (h.next hrun hr)
    · rw [if_pos hr]
      exact Or.inl ⟨s', rfl⟩

end Contract

/-- **The contract of `topological_sort_module`**, wherever a sort that has not met a cycle
calls it, in a table of `table_size` entries. A call keeps it exactly if its module is
clear, or it is nested in another call, or its report fits into the table; and all calls of
a sort do exactly if the report of the cyclic walk does. -/
theorem topologicalSortModule_contract_iff (P : ModuleSet M) (ih : Handle M) :
    (∀ depth active mip rest s, P.SortPasses .exact ih depth active (mip :: rest) s →
      (CallContract P s mip (topologicalSortModule P depth s mip) ↔
        P.Clear s mip ∨ active ≠ [] ∨ P.ReportFits [mip])) ∧
    (P.KeepsContract ih ↔ P.ReportFits P.linkerset) := by
  refine ⟨fun _ _ _ _ _ h => callContract_iff h, ?_⟩
  constructor
  · intro hkeep x q hwalk
    obtain ⟨x', q', d₀, hwalk', -, -, hu, -⟩ :=
      sort_cyclic (a := .exact) (by decide) ⟨x, hwalk.onCycle⟩ ih
    obtain ⟨rfl, rfl⟩ := hwalk.unique hwalk'
    -- the loop ends with `IR_CYCLE`, so it has returned, and the report has its places
    have hcycle := hu.result
    rw [topologicalSortModules] at hcycle
    have hends := (sortLinkerset_returns (by decide)
      (fun _ _ _ _ h => (hkeep _ _ _ _ _ h).returns) .start).resolve_right (by rw [hcycle]; decide)
    exact fresh_exact_covers (hu.returns_iff.1 hends q.length (by simp))
  · intro hf depth active mip rest s h
    rw [callContract_iff h]
    by_cases hactive : active = []
    · subst hactive
      exact Or.inr (Or.inr (hf.root h))
    · exact Or.inr (Or.inl hactive)

/-- All calls of the program `example` keep the contract. -/
theorem topologicalSortModule_contract_iff_example :
    (exampleProgram fun _ => 0).KeepsContract default := by
  apply (topologicalSortModule_contract_iff _ default).2.2
  intro x q hwalk
  exact absurd ⟨x, hwalk.onCycle⟩ (exampleProgram_acyclic _)

/-- The call for a module that imports itself stores behind its table of one entry. -/
theorem selfImport_breaks_contract : ¬ selfImport.KeepsContract default := by
  intro h
  have hclear : ¬ selfImport.Clear (selfImport.fresh .exact default) () := by
    intro hc
    exact (hc () .refl).2 (.single (List.mem_singleton.2 rfl))
  obtain ⟨s', hrun, -⟩ := (h _ _ _ _ _ .start).cycle hclear
  cases hrun

end Linkerset
