import Linkerset.Spec.ModuleInit
import Mathlib.Data.List.Nodup

/-!
# Reading and writing the handle

The memory operations of the library, one lemma for each effect. A store succeeds
exactly inside the block (`store_ok`, `store_fault`); stored at `table_index`, the
module becomes the next of the valid entries (`entries_stored`).
-/

namespace Linkerset

variable {M : Type*}

namespace State

/-- The entry at `i` is inside the table. -/
def Covers (s : State M) (i : ℕ) : Prop := ∃ t, s.handle.table = some t ∧ t.Covers i

/-- How much is allocated. -/
def extent (s : State M) : Option (Option ℕ) := s.handle.table.map Table.extent

/-- Memory after a store that stays inside the table. -/
def stored (s : State M) (i : ℕ) (mip : M) : State M :=
  { s with
    trace := s.trace ++ [.store i mip]
    handle := { s.handle with
      table := s.handle.table.map fun t => { t with cell := Function.update t.cell i (some mip) } } }

theorem covers_of_extent {s s' : State M} (h : s'.extent = s.extent) {i : ℕ} (hi : s.Covers i) :
    s'.Covers i := by
  obtain ⟨t, ht, hc⟩ := hi
  simp only [extent, ht, Option.map_some, Option.map_eq_some_iff] at h
  obtain ⟨t', ht', he⟩ := h
  refine ⟨t', ht', ?_⟩
  unfold Table.Covers at hc ⊢
  rwa [he]

/-- A table without end has a place for every entry. -/
theorem covers_of_unbounded {s : State M} (h : s.extent = some none) (i : ℕ) : s.Covers i := by
  obtain ⟨t, ht, he⟩ := Option.map_eq_some_iff.1 h
  refine ⟨t, ht, ?_⟩
  unfold Table.Covers
  rw [he]
  trivial

theorem Covers.mono {s : State M} {i j : ℕ} (h : s.Covers j) (hij : i ≤ j) : s.Covers i := by
  obtain ⟨t, ht, hc⟩ := h
  refine ⟨t, ht, ?_⟩
  unfold Table.Covers at hc ⊢
  split <;> simp_all
  omega

theorem store_ok {s : State M} {i : ℕ} (h : s.Covers i) (mip : M) :
    s.store i mip = .ok (s.stored i mip) := by
  obtain ⟨t, ht, hc⟩ := h
  simp [store, log, stored, ht, hc]

theorem store_fault {s : State M} {i : ℕ} (h : ¬ s.Covers i) (mip : M) :
    ∃ f, s.store i mip = .error (f, s.log (.store i mip)) := by
  cases ht : s.handle.table with
  | none => exact ⟨.nullTable, by simp [store, log, ht]⟩
  | some t =>
    have hc : ¬ t.Covers i := fun hc => h ⟨t, ht, hc⟩
    exact ⟨.outOfBounds i, by simp [store, log, ht, hc]⟩

/-- What a store that succeeds leaves. -/
theorem store_eq_ok {s s₁ : State M} {i : ℕ} {m : M} (h : s.store i m = .ok s₁) :
    s₁ = s.stored i m := by
  by_cases hc : s.Covers i
  · rw [store_ok hc] at h
    exact (Except.ok.inj h).symm
  · obtain ⟨f, hf⟩ := store_fault hc m
    rw [hf] at h
    cases h

theorem load_ok {s : State M} {i : ℕ} {t : Table M} {mip : M} (ht : s.handle.table = some t)
    (hc : t.Covers i) (hm : t.cell i = some mip) : s.load i = .ok (mip, s.log (.load i)) := by
  simp [load, log, ht, hc, hm]

/-- What a load that succeeds leaves. -/
theorem load_eq_ok {s s₁ : State M} {i : ℕ} {m : M} (h : s.load i = .ok (m, s₁)) :
    s₁ = s.log (.load i) := by
  unfold load at h
  simp only at h
  split at h
  · cases h
  · split at h
    · split at h
      · cases h
      · cases h; rfl
    · cases h

section Fields

variable (s : State M) (i v : ℕ) (m : M) (e : Event M) (r : InitializationResult) (st : InitState)

@[simp] theorem log_handle : (s.log e).handle = s.handle := rfl
@[simp] theorem log_marks : (s.log e).marks = s.marks := rfl
@[simp] theorem log_trace : (s.log e).trace = s.trace ++ [e] := rfl

@[simp] theorem setIndex_marks : (s.setIndex v).marks = s.marks := rfl
@[simp] theorem setIndex_trace : (s.setIndex v).trace = s.trace ++ [.index v] := rfl
@[simp] theorem setIndex_initState : (s.setIndex v).handle.initState = s.handle.initState := rfl
@[simp] theorem setIndex_tableIndex : (s.setIndex v).handle.tableIndex = v := rfl
@[simp] theorem setIndex_tableSize : (s.setIndex v).handle.tableSize = s.handle.tableSize := rfl
@[simp] theorem setIndex_table : (s.setIndex v).handle.table = s.handle.table := rfl
@[simp] theorem setIndex_extent : (s.setIndex v).extent = s.extent := rfl

@[simp] theorem setResult_marks : (s.setResult r).marks = s.marks := rfl
@[simp] theorem setResult_trace : (s.setResult r).trace = s.trace := rfl
@[simp] theorem setResult_initState : (s.setResult r).handle.initState = r := rfl
@[simp] theorem setResult_tableIndex :
    (s.setResult r).handle.tableIndex = s.handle.tableIndex := rfl
@[simp] theorem setResult_tableSize : (s.setResult r).handle.tableSize = s.handle.tableSize := rfl
@[simp] theorem setResult_table : (s.setResult r).handle.table = s.handle.table := rfl
@[simp] theorem setResult_extent : (s.setResult r).extent = s.extent := rfl

@[simp] theorem stored_marks : (s.stored i m).marks = s.marks := rfl
@[simp] theorem stored_trace : (s.stored i m).trace = s.trace ++ [.store i m] := rfl
@[simp] theorem stored_initState : (s.stored i m).handle.initState = s.handle.initState := rfl
@[simp] theorem stored_tableIndex : (s.stored i m).handle.tableIndex = s.handle.tableIndex := rfl
@[simp] theorem stored_tableSize : (s.stored i m).handle.tableSize = s.handle.tableSize := rfl
@[simp] theorem stored_extent : (s.stored i m).extent = s.extent := by
  cases h : s.handle.table <;> simp [extent, stored, h]

variable [DecidableEq M]

@[simp] theorem setMark_handle : (s.setMark m st).handle = s.handle := rfl
@[simp] theorem setMark_trace : (s.setMark m st).trace = s.trace := rfl
@[simp] theorem setMark_marks : (s.setMark m st).marks = Function.update s.marks m st := rfl
@[simp] theorem setMark_extent : (s.setMark m st).extent = s.extent := rfl
@[simp] theorem setMark_entries : (s.setMark m st).entries = s.entries := rfl

end Fields

@[simp] theorem setResult_entries (s : State M) (r : InitializationResult) :
    (s.setResult r).entries = s.entries := rfl

theorem setIndex_self_entries (s : State M) : (s.setIndex s.handle.tableIndex).entries = s.entries :=
  rfl

@[simp] theorem setIndex_zero_entries (s : State M) : (s.setIndex 0).entries = [] := by
  unfold entries; split <;> simp

theorem length_entries {s : State M} {t : Table M} (ht : s.handle.table = some t) :
    s.entries.length = s.handle.tableIndex := by simp [entries, ht]

/-- **A store right after the valid entries adds one.** -/
theorem entries_stored {s : State M} {i : ℕ} (h : s.Covers i) (mip : M) :
    ((s.stored i mip).setIndex (i + 1)).entries = (s.setIndex i).entries ++ [some mip] := by
  obtain ⟨t, ht, -⟩ := h
  simp only [entries, stored, setIndex, ht, Option.map_some, List.range_succ, List.map_append,
    List.map_cons, List.map_nil, Function.update_self]
  congr 1
  apply List.map_congr_left
  intro j hj
  rw [Function.update_of_ne (by simp at hj; omega)]

/-- The valid entries, one by one. -/
theorem entries_getElem {s : State M} {t : Table M} (ht : s.handle.table = some t) {l : List M}
    (he : s.entries = l.map some) {i : ℕ} (hi : i < l.length) : t.cell i = some l[i] := by
  have h := congrArg (fun l => l[i]?) he
  have hlen : s.handle.tableIndex = l.length := by rw [← length_entries ht, he, List.length_map]
  simpa [entries, ht, hlen, hi] using h

end State

end Linkerset
