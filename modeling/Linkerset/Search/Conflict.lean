import Mathlib.Data.List.Basic
import Mathlib.Data.List.Perm.Basic

/-!
# Elements that disagree with the first of their key

Every element of a list is compared with the first element that has its key, and
with no other. `conflict_iff`: this finds out whether two elements of a key
disagree in an attribute, because equality of attributes is transitive.
-/

namespace Linkerset.Search

variable {α κ β : Type*} [DecidableEq κ] [DecidableEq β]

/-- The first element of `l` with key `k`. -/
def first (key : α → κ) (k : κ) (l : List α) : Option α := l.find? fun a => key a = k

/-- **The conflicts of `l`**: each element that disagrees with the first element of
its key, behind that element. The elements `seen` stand in front of `l`. -/
def conflicts (key : α → κ) (att : α → β) (seen : List α) : List α → List (α × α)
  | [] => []
  | x :: l =>
    ((first key (key x) seen).toList.filter fun f => att f ≠ att x).map (fun f => (f, x)) ++
      conflicts key att (seen ++ [x]) l

variable {key : α → κ} {att : α → β}

theorem first_eq_some {k : κ} {l : List α} {a : α} (h : first key k l = some a) :
    a ∈ l ∧ key a = k :=
  ⟨List.mem_of_find?_eq_some h, by simpa using List.find?_some h⟩

theorem exists_first {k : κ} {l : List α} {a : α} (ha : a ∈ l) (hk : key a = k) :
    ∃ f, first key k l = some f := by
  cases hf : first key k l with
  | some f => exact ⟨f, rfl⟩
  | none =>
    have hne := List.find?_eq_none.1 hf a ha
    exact absurd (decide_eq_true hk) hne

/-- The first element of a key stays the first when elements are added behind. -/
theorem first_append {k : κ} {l l' : List α} {f : α} (h : first key k l = some f) :
    first key k (l ++ l') = some f := by
  unfold first at h ⊢
  rw [List.find?_append, h, Option.some_or]

/-- **The conflicts in terms of the whole list**: the elements that disagree with the
first of their key, in the order of the list. -/
theorem conflicts_eq_filterMap : ∀ {l seen : List α}, conflicts key att seen l =
    l.filterMap fun x => ((first key (key x) (seen ++ l)).filter fun f => att f ≠ att x).map
      fun f => (f, x) := by
  intro l
  induction l with
  | nil => intro seen; rfl
  | cons x l ih =>
    intro seen
    have hl : seen ++ x :: l = (seen ++ [x]) ++ l := by simp
    rw [conflicts, ih, List.filterMap_cons, ← hl]
    cases hf : first key (key x) seen with
    | some f =>
      rw [first_append hf]
      by_cases h : att f = att x <;> simp [Option.filter_some, h]
    | none =>
      -- `x` is the first of its key, and agrees with itself
      have hx : first key (key x) (seen ++ x :: l) = some x := by
        unfold first at hf ⊢
        rw [List.find?_append, hf, Option.none_or, List.find?_cons_of_pos (by simp)]
      rw [hx]
      simp [Option.filter_some]

theorem mem_conflicts : ∀ {l seen : List α} {f e : α}, (f, e) ∈ conflicts key att seen l ↔
    ∃ l₁ l₂, l = l₁ ++ e :: l₂ ∧ first key (key e) (seen ++ l₁) = some f ∧ att f ≠ att e := by
  intro l
  induction l with
  | nil => intro seen f e; simp [conflicts]
  | cons x l ih =>
    intro seen f e
    rw [conflicts, List.mem_append, ih]
    constructor
    · rintro (h | ⟨l₁, l₂, rfl, hf, hne⟩)
      · simp only [ne_eq, List.mem_map, List.mem_filter, Option.mem_toList, decide_not,
          Bool.not_eq_eq_eq_not, Bool.not_true, decide_eq_false_iff_not, Prod.mk.injEq] at h
        obtain ⟨f', ⟨hf, hne⟩, rfl, rfl⟩ := h
        exact ⟨[], l, rfl, by rw [List.append_nil]; exact hf, hne⟩
      · exact ⟨x :: l₁, l₂, rfl, by simpa using hf, hne⟩
    · rintro ⟨l₁, l₂, hl, hf, hne⟩
      cases l₁ with
      | nil =>
        cases hl
        left
        rw [List.append_nil] at hf
        simp [hf, hne]
      | cons y l₁ =>
        cases hl
        exact Or.inr ⟨l₁, l₂, rfl, by simpa using hf, hne⟩

/-- A conflict is between two elements of one key. -/
theorem conflicts_sound {l : List α} {p : α × α} (h : p ∈ conflicts key att [] l) :
    p.1 ∈ l ∧ p.2 ∈ l ∧ key p.1 = key p.2 ∧ att p.1 ≠ att p.2 := by
  obtain ⟨l₁, l₂, rfl, hf, hne⟩ := mem_conflicts.1 h
  obtain ⟨hmem, hk⟩ := first_eq_some hf
  exact ⟨List.mem_append_left _ (by simpa using hmem), by simp, hk, hne⟩

/-- **Comparing with the first element loses no disagreement.** -/
theorem conflict_iff {l : List α} {k : κ} :
    (∃ p ∈ conflicts key att [] l, key p.1 = k) ↔
      ∃ a ∈ l, ∃ b ∈ l, key a = k ∧ key b = k ∧ att a ≠ att b := by
  constructor
  · rintro ⟨p, hp, rfl⟩
    obtain ⟨h1, h2, hk, hne⟩ := conflicts_sound hp
    exact ⟨p.1, h1, p.2, h2, rfl, hk.symm, hne⟩
  · rintro ⟨a, ha, b, hb, hka, hkb, hne⟩
    obtain ⟨f, hf⟩ := exists_first ha hka
    -- one of the two disagrees with the first element
    obtain ⟨e, he, hke, hfe⟩ : ∃ e ∈ l, key e = k ∧ att f ≠ att e := by
      by_cases hfa : att f = att a
      · exact ⟨b, hb, hkb, by rw [hfa]; exact hne⟩
      · exact ⟨a, ha, hka, hfa⟩
    obtain ⟨l₁, l₂, rfl⟩ := List.append_of_mem he
    have hfirst : first key k l₁ = some f := by
      unfold first at hf ⊢
      rw [List.find?_append] at hf
      cases h₁ : l₁.find? (fun a => key a = k) with
      | some f' => rw [h₁] at hf; exact hf
      | none =>
        -- then `e` itself would be the first element
        rw [h₁, Option.none_or, List.find?_cons_of_pos (by simpa using hke)] at hf
        cases hf
        exact absurd rfl hfe
    exact ⟨(f, e), mem_conflicts.2 ⟨l₁, l₂, rfl, by rw [hke]; exact hfirst, hfe⟩,
      (first_eq_some hf).2⟩

/-- The keys in conflict do not depend on the order. -/
theorem conflict_perm {l l' : List α} (h : l.Perm l') (k : κ) :
    (∃ p ∈ conflicts key att [] l, key p.1 = k) ↔ ∃ p ∈ conflicts key att [] l', key p.1 = k := by
  rw [conflict_iff, conflict_iff]
  simp only [h.mem_iff]

end Linkerset.Search
