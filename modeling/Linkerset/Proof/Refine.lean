import Linkerset.Proof.Memory
import Linkerset.Graph.Order

/-!
# `topological_sort_module` refines the depth-first visit

`State.Marked` reads the descriptors' marks as the active path and the finished
list of a search. From a state that is `Ready`, `topological_sort_module` does
what `visit` does (`topologicalSortModule_refines`):

* where the visit completes, the modules it finishes are appended to the valid
  entries, and to nothing else (`Wrote`);
* where it meets a closed path, the unwinding calls store the part of that path
  down to the call itself, and stop with `IR_CYCLE`, or leave the table at the
  first entry that is not inside it (`Unwound`).
-/

namespace Linkerset

open Linkerset.Graph

variable {M : Type*}

/-- A store, or a value of `table_index`, that fits a table of `B` entries. -/
def Event.SortWithin (B : ℕ) : Event M → Prop
  | .store i _ => i < B
  | .index v => v ≤ B
  | _ => False

theorem Event.SortWithin.mono {B B' : ℕ} (h : B ≤ B') {e : Event M} (he : e.SortWithin B) :
    e.SortWithin B' := by
  cases e with
  | store i m => exact lt_of_lt_of_le he h
  | index v => exact le_trans he h
  | load | init | fina | print => exact he.elim

/-- **The marks are those of a search** with `path` active and `done` finished. -/
structure State.Marked (s : State M) (path done : List M) : Prop where
  initializing : ∀ m, s.marks m = .initializing ↔ m ∈ path
  initialized : ∀ m, s.marks m = .initialized ↔ m ∈ done

/-- No module is both active and finished. -/
theorem State.Marked.apart {s : State M} {path done : List M} (h : s.Marked path done) :
    ∀ m ∈ path, m ∉ done := by
  intro m hp hd
  have hactive := (h.initializing m).2 hp
  have hfinished := (h.initialized m).2 hd
  rw [hactive] at hfinished
  cases hfinished

/-- The modules that are neither are those not met yet. -/
theorem State.Marked.uninitialized_iff {s : State M} {path done : List M} (h : s.Marked path done)
    {m : M} : s.marks m = .uninitialized ↔ m ∉ path ∧ m ∉ done := by
  rw [← h.initializing, ← h.initialized]
  cases s.marks m with
  | uninitialized | initializing | initialized => simp

/-- A module that is entered becomes the innermost active one. -/
theorem State.Marked.enter [DecidableEq M] {s : State M} {path done : List M} {v : M}
    (h : s.Marked path done) (hd : v ∉ done) :
    (s.setMark v .initializing).Marked (v :: path) done where
  initializing m := by
    by_cases hm : m = v
    · subst hm; simp
    · simp [hm, h.initializing]
  initialized m := by
    by_cases hm : m = v
    · subst hm; simp [hd]
    · simp [hm, h.initialized]

/-- The innermost active module is finished. -/
theorem State.Marked.finish [DecidableEq M] {s : State M} {path done : List M} {v : M}
    (h : s.Marked (v :: path) done) (hp : v ∉ path) :
    (s.setMark v .initialized).Marked path (done ++ [v]) where
  initializing m := by
    by_cases hm : m = v
    · subst hm; simp [hp]
    · simp [hm, h.initializing]
  initialized m := by
    by_cases hm : m = v
    · subst hm; simp
    · simp [hm, h.initialized]

/-- From `s` to `s'` the sort has set the result `r`, and the valid entries are
`rows`. Its stores and index values fit a table of `B` entries. -/
structure Wrote (s s' : State M) (B : ℕ) (r : InitializationResult) (rows : List (Option M)) :
    Prop where
  result : s'.handle.initState = r
  size : s'.handle.tableSize = s.handle.tableSize
  extent : s'.extent = s.extent
  entries : s'.entries = rows
  index : s'.handle.tableIndex = rows.length
  trace : ∃ ev, s'.trace = s.trace ++ ev ∧ ∀ e ∈ ev, e.SortWithin B

namespace Wrote

variable {s s₁ s₂ : State M} {B B' : ℕ} {r r' : InitializationResult} {rows rows' : List (Option M)}

theorem mono (h : Wrote s s₁ B r rows) (hB : B ≤ B') : Wrote s s₁ B' r rows := by
  obtain ⟨ev, ht, he⟩ := h.trace
  exact ⟨h.result, h.size, h.extent, h.entries, h.index, ev, ht, fun e hm => (he e hm).mono hB⟩

theorem trans (h : Wrote s s₁ B r rows) (h' : Wrote s₁ s₂ B' r' rows') (hB : B ≤ B') :
    Wrote s s₂ B' r' rows' := by
  obtain ⟨ev, ht, he⟩ := (h.mono hB).trace
  obtain ⟨ev', ht', he'⟩ := h'.trace
  refine ⟨h'.result, h'.size.trans h.size, h'.extent.trans h.extent, h'.entries, h'.index,
    ev ++ ev', by rw [ht', ht, List.append_assoc], ?_⟩
  intro e hm
  exact (List.mem_append.1 hm).elim (he e) (he' e)

/-- Storing right after the valid entries. -/
theorem push (h : Wrote s s₁ B r rows) (hc : s₁.Covers rows.length) (mip : M)
    (hB : B ≤ B') (hlen : rows.length < B') :
    Wrote s ((s₁.stored rows.length mip).setIndex (rows.length + 1)) B' r (rows ++ [some mip]) := by
  obtain ⟨ev, ht, he⟩ := (h.mono hB).trace
  refine ⟨by simpa using h.result, by simpa using h.size, by simpa using h.extent, ?_, by simp,
    ev ++ [.store rows.length mip, .index (rows.length + 1)], by simp [ht], ?_⟩
  · rw [State.entries_stored hc, ← h.index, State.setIndex_self_entries, h.entries]
  · intro e hm
    rcases List.mem_append.1 hm with hm | hm
    · exact he e hm
    · simp only [List.mem_cons, List.not_mem_nil, or_false] at hm
      rcases hm with rfl | rfl
      · exact hlen
      · exact hlen

/-- Marks do not matter to what is written. -/
theorem setMark [DecidableEq M] (h : Wrote s s₁ B r rows) (m : M) (st : InitState) :
    Wrote s (s₁.setMark m st) B r rows :=
  ⟨h.result, h.size, h.extent, h.entries, h.index, h.trace⟩

theorem of_setMark [DecidableEq M] {m : M} {st : InitState} (h : Wrote (s.setMark m st) s₁ B r rows) :
    Wrote s s₁ B r rows :=
  ⟨h.result, h.size, h.extent, h.entries, h.index, h.trace⟩

end Wrote

/-- What a call of `topological_sort_module` finds: the marks of a search, and
room in the table for every module that is not finished yet. -/
structure Ready (U : Finset M) [DecidableEq M] (B : ℕ) (s : State M) (path done : List M) : Prop where
  result : s.handle.initState = .success
  marked : s.Marked path done
  index : s.handle.tableIndex = s.entries.length
  room : s.handle.tableIndex + (untouched U path done).card + path.length ≤ B
  covers : ∀ i < B, s.Covers i

/-- Nothing is written where nothing happens. -/
theorem Ready.wrote [DecidableEq M] {U : Finset M} {B : ℕ} {s : State M} {path done : List M}
    (h : Ready U B s path done) : Wrote s s B .success s.entries where
  result := h.result
  size := rfl
  extent := rfl
  entries := rfl
  index := h.index
  trace := ⟨[], by simp, by simp⟩

/-- The end of a call that meets a closed path, of which `rep` is stored: it
stops with `IR_CYCLE`, or at the first entry of `rep` that has no place. -/
inductive Unwound (s : State M) (B : ℕ) (rep q d₀ : List M) : Exec M (State M) → Prop
  | inside {s' : State M} : (∀ i < rep.length, s.Covers i) →
      Wrote s s' (max B rep.length) .cycle (rep.map some) → s'.Marked q d₀ →
      Unwound s B rep q d₀ (.ok s')
  | outside {f : Fault} {s' : State M} {i : ℕ} {m : M} : i < rep.length → ¬ s.Covers i →
      s'.handle.initState = .cycle → .store i m ∈ s'.trace → Unwound s B rep q d₀ (.error (f, s'))

/-- **A call does what a visit does.** -/
inductive Refines [DecidableEq M] (U : Finset M) (B : ℕ) (s : State M) (path done : List M) (v : M) :
    Except (Stop M) (List M) → Exec M (State M) → Prop
  | ok {s' : State M} {new : List M} : Wrote s s' B .success (s.entries ++ new.map some) →
      Ready U B s' path (done ++ new) → Refines U B s path done v (.ok (done ++ new)) (.ok s')
  | cycle {pre p d₀ : List M} {r : Exec M (State M)} : p = pre ++ v :: path →
      Unwound s B (pre ++ [v]) p.tail d₀ r → Refines U B s path done v (.error (.cycle p d₀)) r
  | limit {s' : State M} : Refines U B s path done v (.error .limit) (.error (.limit, s'))

theorem Unwound.of_wrote {s s₁ : State M} {B : ℕ} {rep q d₀ : List M} {res : InitializationResult}
    {rows : List (Option M)} {r : Exec M (State M)} (hw : Wrote s s₁ B res rows)
    (h : Unwound s₁ B rep q d₀ r) : Unwound s B rep q d₀ r := by
  cases h with
  | inside hc hw' hm =>
    exact .inside (fun i hi => State.covers_of_extent hw.extent.symm (hc i hi))
      (hw.trans hw' (le_max_left _ _)) hm
  | outside hi hc hr ht =>
    exact .outside hi (fun h => hc (State.covers_of_extent hw.extent h)) hr ht

theorem Unwound.result {s : State M} {B : ℕ} {rep q d₀ : List M} {r : Exec M (State M)}
    (h : Unwound s B rep q d₀ r) : r.state.handle.initState = .cycle := by
  cases h with
  | inside _ hw _ => exact hw.result
  | outside _ _ hr _ => exact hr

/-- It returns exactly if the table has a place for each entry of the report. -/
theorem Unwound.returns_iff {s : State M} {B : ℕ} {rep q d₀ : List M} {r : Exec M (State M)}
    (h : Unwound s B rep q d₀ r) : (∃ s', r = .ok s') ↔ ∀ i < rep.length, s.Covers i := by
  cases h with
  | inside hc _ _ => exact ⟨fun _ => hc, fun _ => ⟨_, rfl⟩⟩
  | outside hi hc _ _ =>
    constructor
    · rintro ⟨s', hs'⟩
      cases hs'
    · intro hall
      exact absurd (hall _ hi) hc

/-- **One more frame unwinds**: it stores its own module after what is there. -/
theorem Unwound.frame {s s₁ : State M} {B : ℕ} {rep q d₀ : List M} (mip : M)
    (h : Unwound s B rep q d₀ (.ok s₁)) :
    Unwound s B (rep ++ [mip]) q d₀ (do
      let s ← s₁.store s₁.handle.tableIndex mip
      return s.setIndex (s.handle.tableIndex + 1)) := by
  cases h with
  | inside hc hw hm =>
    have hi : s₁.handle.tableIndex = rep.length := by rw [hw.index, List.length_map]
    by_cases hcov : s.Covers rep.length
    · have hcov₁ := State.covers_of_extent hw.extent hcov
      rw [hi, State.store_ok hcov₁]
      refine .inside ?_ ?_ ⟨hm.initializing, hm.initialized⟩
      · intro i hi
        exact hcov.mono (by simp at hi; omega)
      · have hlen : (rep.map some).length = rep.length := List.length_map ..
        have hp := hw.push (by rwa [hlen]) mip
          (show max B rep.length ≤ max B (rep ++ [mip]).length by simp; omega) (by simp)
        rw [hlen] at hp
        simpa [hi] using hp
    · have hcov₁ : ¬ s₁.Covers rep.length := fun h => hcov (State.covers_of_extent hw.extent.symm h)
      rw [hi]
      obtain ⟨f, hf⟩ := State.store_fault hcov₁ mip
      rw [hf]
      exact .outside (i := rep.length) (m := mip) (by simp) hcov hw.result (by simp)

theorem Ready.enter [DecidableEq M] {U : Finset M} {B : ℕ} {s : State M} {path done : List M} {v : M}
    (h : Ready U B s path done) (hU : v ∈ U) (hp : v ∉ path) (hd : v ∉ done) :
    Ready U B (s.setMark v .initializing) (v :: path) done where
  result := h.result
  marked := h.marked.enter hd
  index := h.index
  room := by
    -- `v` is no longer untouched, but it is active
    have henter := untouched_enter hU hp hd
    have hroom := h.room
    simp only [State.setMark_handle, List.length_cons]
    omega
  covers := h.covers

section Refinement

variable [DecidableEq M] {U : Finset M} {B : ℕ}

theorem Refines.of_wrote {s s₁ : State M} {path done new : List M} {v : M}
    {x : Except (Stop M) (List M)} {r : Exec M (State M)}
    (hw : Wrote s s₁ B .success (s.entries ++ new.map some))
    (h : Refines U B s₁ path (done ++ new) v x r) : Refines U B s path done v x r := by
  cases h with
  | ok hw' hr =>
    rw [List.append_assoc] at hr ⊢
    refine .ok ?_ hr
    have hboth := hw.trans hw' le_rfl
    rw [hw.entries] at hboth
    simpa using hboth
  | cycle hp hu => exact .cycle hp (hu.of_wrote hw)
  | limit => exact .limit

/-- Marking a module first changes nothing of what is written. -/
theorem Refines.of_setMark {s : State M} {path done : List M} {v m : M} {st : InitState}
    {x : Except (Stop M) (List M)} {r : Exec M (State M)}
    (h : Refines U B (s.setMark m st) path done v x r) : Refines U B s path done v x r := by
  cases h with
  | ok hw hr => exact .ok hw.of_setMark hr
  | cycle hp hu =>
    refine .cycle hp ?_
    cases hu with
    | inside hc hw hm => exact .inside hc hw.of_setMark hm
    | outside hi hc hr ht => exact .outside hi hc hr ht
  | limit => exact .limit

/-- `mip` is appended when its imports are done. -/
theorem appendModule_refines {s : State M} {mip : M} {path done : List M} (hp : mip ∉ path)
    (h : Ready U B s (mip :: path) done) :
    Refines U B s path done mip (.ok (done ++ [mip])) (appendModule mip s) := by
  have hlt : s.entries.length < B := by
    have hroom := h.room
    have hindex := h.index
    rw [List.length_cons] at hroom
    omega
  have hc := h.covers _ hlt
  have hw := (h.wrote.push hc mip le_rfl hlt).setMark mip .initialized
  unfold appendModule
  rw [h.index, State.store_ok hc]
  refine .ok (by simpa [h.index] using hw) ?_
  have hmarked := h.marked.finish hp
  refine ⟨h.result, ⟨hmarked.initializing, hmarked.initialized⟩, ?_, ?_, ?_⟩
  · have hlen := congrArg List.length hw.entries
    simpa [h.index] using hlen.symm
  · -- `mip` is no longer active, and takes one entry of the table
    have hroom := h.room
    rw [untouched_leave]
    rw [List.length_cons] at hroom
    simp
    omega
  · intro i hi
    exact State.covers_of_extent (by simp) (h.covers i hi)

variable {P : ModuleSet M}

/-- The loop over the imports, given that the recursive call refines the visit. -/
theorem sortImports_refines {depth : ℕ} {sort : State M → M → Exec M (State M)} {mip : M}
    {path : List M} (hp : mip ∉ path)
    (hsort : ∀ {s done w}, Ready U B s (mip :: path) done →
      Refines U B s (mip :: path) done w (visit P.imports depth (mip :: path) done w) (sort s w)) :
    ∀ {ws : List M} {s : State M} {done : List M}, Ready U B s (mip :: path) done →
      Refines U B s path done mip
        ((visitList P.imports depth (mip :: path) done ws).map (· ++ [mip]))
        (sortImports sort mip ws s) := by
  intro ws
  induction ws with
  | nil => intro s done h; exact appendModule_refines hp h
  | cons w ws ih =>
    intro s done h
    have hw := hsort (w := w) h
    rw [sortImports]
    cases hv : visit P.imports depth (mip :: path) done w with
    | ok d =>
      rw [hv] at hw
      rw [visitList_cons_ok hv]
      generalize sort s w = r at hw
      cases hw with
      | ok hwrote hready =>
        simp only [bind, Except.bind, hready.result]
        exact (ih hready).of_wrote hwrote
    | error e =>
      rw [hv] at hw
      rw [visitList_cons_error hv]
      generalize sort s w = r at hw
      cases hw with
      | cycle hpre hu =>
        rename_i pre p d₀
        -- the report of the callee ends at `w`, and `mip` comes behind it
        refine .cycle (show p = (pre ++ [w]) ++ mip :: path by simp [hpre]) ?_
        cases hu with
        | inside hc hwrote hm =>
          simp only [bind, Except.bind, hwrote.result]
          exact Unwound.frame mip (.inside hc hwrote hm)
        | outside hi hc hr ht =>
          exact .outside (by simp at hi ⊢; omega) hc hr ht
      | limit => exact .limit

/-- **`topological_sort_module` refines the visit.** -/
theorem topologicalSortModule_refines (hU : ∀ m, m ∈ U) : ∀ {depth : ℕ} {s : State M}
    {path done : List M} {v : M}, Ready U B s path done →
      Refines U B s path done v (visit P.imports depth path done v)
        (topologicalSortModule P depth s v) := by
  intro depth
  induction depth with
  | zero => intro s path done v _; exact .limit
  | succ depth ih =>
    intro s path done v h
    rw [topologicalSortModule]
    by_cases hp : v ∈ path
    · -- a back edge: the report starts
      rw [visit_back hp, (h.marked.initializing v).2 hp]
      refine .cycle (show v :: path = [] ++ v :: path from rfl) ?_
      by_cases hc : s.Covers 0
      · have hc' : (s.setResult .cycle).Covers 0 := hc
        simp only [bind, Except.bind, State.store_ok hc']
        refine .inside (by simpa using hc) ?_ ⟨h.marked.initializing, h.marked.initialized⟩
        refine ⟨rfl, rfl, by simp, ?_, rfl, [.store 0 v, .index 1], ?_, by simp [Event.SortWithin]⟩
        · show (((s.setResult .cycle).stored 0 v).setIndex (0 + 1)).entries = _
          rw [State.entries_stored hc']; simp
        · simp
      · have hc' : ¬ (s.setResult .cycle).Covers 0 := hc
        obtain ⟨f, hf⟩ := State.store_fault hc' v
        simp only [bind, Except.bind, hf]
        exact .outside (i := 0) (m := v) (by simp) hc rfl (by simp)
    by_cases hd : v ∈ done
    · -- finished: nothing is written
      rw [visit_finished hp hd, (h.marked.initialized v).2 hd]
      have hself : Wrote s s B .success (s.entries ++ [].map some) := by simpa using h.wrote
      have hok := Refines.ok (v := v) hself (by simpa using h)
      simpa using hok
    · -- met for the first time: its imports are visited, one level deeper
      rw [visit_tree hp hd, h.marked.uninitialized_iff.2 ⟨hp, hd⟩]
      exact (sortImports_refines hp (fun h => ih h) (h.enter (hU v) hp hd)).of_setMark

end Refinement

end Linkerset
