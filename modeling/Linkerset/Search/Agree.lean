import Mathlib.Data.List.Flatten
import Linkerset.Search.Tree
import Linkerset.Search.Conflict

/-!
# Lists in which a key determines an attribute

* `exists_first_disagreement`: where it does not, there is a first element that disagrees
  with one before it.
* `agree_flatten_iff`: a list put together from parts agrees when any two of the parts do.
* `flatMap_build_sublist`: what is read off the tree of a part is, in the same order, among
  what is read off the tree of the whole.
-/

namespace Linkerset.Search

variable {α κ β : Type*}

/-- **The key determines the attribute** among the elements of `l`. -/
def Agree (key : α → κ) (att : α → β) (l : List α) : Prop :=
  ∀ a ∈ l, ∀ b ∈ l, key a = key b → att a = att b

variable {key : α → κ} {att : α → β} {l l' : List α}

theorem Agree.subset (h : Agree key att l) (hl : l' ⊆ l) : Agree key att l' :=
  fun a ha b hb => h a (hl ha) b (hl hb)

/-- A further element agrees with the list if it agrees with each of its elements. -/
theorem agree_concat {x : α} : Agree key att (l ++ [x]) ↔
    Agree key att l ∧ ∀ a ∈ l, key a = key x → att a = att x := by
  constructor
  · intro h
    refine ⟨h.subset (List.subset_append_left _ _), fun a ha => ?_⟩
    exact h a (List.mem_append_left _ ha) x (List.mem_append_right _ (List.mem_singleton.2 rfl))
  · rintro ⟨hl, hx⟩ a ha b hb hk
    rcases List.mem_append.1 ha with ha | ha
    · rcases List.mem_append.1 hb with hb | hb
      · exact hl a ha b hb hk
      · rw [List.mem_singleton.1 hb] at hk ⊢
        exact hx a ha hk
    · rw [List.mem_singleton.1 ha] at hk ⊢
      rcases List.mem_append.1 hb with hb | hb
      · exact (hx b hb hk.symm).symm
      · rw [List.mem_singleton.1 hb]

/-- **The first disagreement**: in front of it, the elements agree. -/
theorem exists_first_disagreement (h : ¬ Agree key att l) :
    ∃ pre x post, l = pre ++ x :: post ∧ Agree key att pre ∧
      ∃ a ∈ pre, key a = key x ∧ att a ≠ att x := by
  induction l using List.reverseRecOn with
  | nil => exact absurd (fun a ha => absurd ha List.not_mem_nil) h
  | append_singleton l x ih =>
    by_cases hl : Agree key att l
    · have hx : ¬ ∀ a ∈ l, key a = key x → att a = att x := fun hx => h (agree_concat.2 ⟨hl, hx⟩)
      push Not at hx
      exact ⟨l, x, [], rfl, hl, hx⟩
    · obtain ⟨pre, y, post, rfl, hpre, hy⟩ := ih hl
      exact ⟨pre, y, post ++ [x], by simp, hpre, hy⟩

/-- **Parts that agree in pairs agree as a whole.** -/
theorem agree_flatten_iff {parts : List (List α)} : Agree key att parts.flatten ↔
    ∀ p ∈ parts, ∀ q ∈ parts, Agree key att (p ++ q) := by
  constructor
  · intro h p hp q hq
    refine h.subset (List.append_subset.2 ⟨?_, ?_⟩)
    · exact fun a ha => List.mem_flatten.2 ⟨p, hp, ha⟩
    · exact fun a ha => List.mem_flatten.2 ⟨q, hq, ha⟩
  · intro h a ha b hb
    obtain ⟨p, hp, hap⟩ := List.mem_flatten.1 ha
    obtain ⟨q, hq, hbq⟩ := List.mem_flatten.1 hb
    exact h p hp q hq a (List.mem_append_left _ hap) b (List.mem_append_right _ hbq)

/-! ## The trees of a whole and of a part -/

variable [LinearOrder κ]

open SearchTree

omit [LinearOrder κ] in
/-- What is read off a tree is a function of its keys, where the key determines it. -/
theorem flatMap_eq_keys {f : α → List β} {g : κ → List β} {t : SearchTree α}
    (h : ∀ a ∈ t.toList, f a = g (key a)) : t.toList.flatMap f = (t.toList.map key).flatMap g := by
  rw [List.flatMap_map]
  exact List.flatMap_congr h

/-- The keys of a part are among those of the whole, in the same order. -/
theorem map_key_build_sublist (h : ∀ a ∈ l', key a ∈ l.map key) :
    ((build key l').toList.map key).Sublist ((build key l).toList.map key) := by
  have hs : ∀ m : List α, ((build key m).toList.map key).Pairwise (· < ·) := fun m =>
    List.pairwise_map.2 (sorted_build m)
  have hsub : (build key l').toList.map key ⊆ (build key l).toList.map key := by
    intro k hk
    obtain ⟨a, ha, rfl⟩ := List.mem_map.1 (mem_map_build.1 hk)
    exact mem_map_build.2 (h a ha)
  have hnodup : ((build key l').toList.map key).Nodup := (hs l').imp fun hab => hab.ne
  exact List.sublist_of_subperm_of_pairwise (List.subperm_of_subset hnodup hsub) (hs l') (hs l)

/-- **What is read off the tree of a part** is among what is read off the tree of the whole. -/
theorem flatMap_build_sublist {f : α → List β} (hk : ∀ a ∈ l', key a ∈ l.map key)
    (hf : ∀ a ∈ l', ∀ b ∈ l, key a = key b → f a = f b) :
    ((build key l').toList.flatMap f).Sublist ((build key l).toList.flatMap f) := by
  -- what is read off for a key
  obtain ⟨g, hg⟩ : ∃ g : κ → List β, ∀ k, g k = (((build key l).lookup key k).map f).getD [] :=
    ⟨_, fun _ => rfl⟩
  have hwhole : ∀ b ∈ (build key l).toList, f b = g (key b) := by
    intro b hb
    rw [hg, (sorted_build l).lookup_eq_some.2 ⟨hb, rfl⟩]
    rfl
  have hpart : ∀ a ∈ (build key l').toList, f a = g (key a) := by
    intro a ha
    have hal' := mem_of_mem_build ha
    obtain ⟨b, hb, hba⟩ := List.mem_map.1 (mem_map_build.2 (hk a hal'))
    rw [hg, (sorted_build l).lookup_eq_some.2 ⟨hb, hba⟩]
    exact hf a hal' b (mem_of_mem_build hb) hba.symm
  rw [flatMap_eq_keys hwhole, flatMap_eq_keys hpart]
  exact (map_key_build_sublist hk).flatMap _

end Linkerset.Search
