import Mathlib.Data.List.Induction
import Mathlib.Data.List.Sort

/-!
# Search trees that keep the first element of each key

Elements are compared by a key in a linear order. An element whose key is already
in the tree is not inserted.

* `Sorted.insert`: insertion keeps the elements in strictly increasing key order.
* `lookup_build`: the tree built from a list holds the first element of each key.
* `flatMap_build`: what is read off the built tree in order depends on the set of keys
  only, as long as it depends on the key of an element only.
-/

namespace Linkerset.Search

inductive SearchTree (α : Type*) where
  | nil
  | node (l : SearchTree α) (a : α) (r : SearchTree α)

namespace SearchTree

variable {α κ : Type*}

/-- The elements in order. -/
def toList : SearchTree α → List α
  | nil => []
  | node l a r => l.toList ++ a :: r.toList

def height : SearchTree α → ℕ
  | nil => 0
  | node l _ r => max l.height r.height + 1

@[simp] theorem toList_nil : (nil : SearchTree α).toList = [] := rfl

@[simp] theorem mem_toList_node {l r : SearchTree α} {a b : α} :
    b ∈ (node l a r).toList ↔ b ∈ l.toList ∨ b = a ∨ b ∈ r.toList := by
  simp [toList]

variable [LinearOrder κ] (key : α → κ)

/-- Insertion of `x`, unless there is an element with its key. -/
def insert (x : α) : SearchTree α → SearchTree α
  | nil => node nil x nil
  | node l a r =>
    if key x < key a then node (insert x l) a r
    else if key a < key x then node l a (insert x r)
    else node l a r

/-- The element with key `k`. -/
def lookup (k : κ) : SearchTree α → Option α
  | nil => none
  | node l a r => if k < key a then lookup k l else if key a < k then lookup k r else some a

/-- The tree of the elements of a list, inserted one after the other. -/
def build (l : List α) : SearchTree α := l.foldl (fun t x => insert key x t) nil

/-- **A search tree**: the elements stand in strictly increasing key order. -/
def Sorted (t : SearchTree α) : Prop := t.toList.Pairwise fun a b => key a < key b

variable {key}

theorem sorted_nil : (nil : SearchTree α).Sorted key := .nil

theorem sorted_node {l r : SearchTree α} {a : α} :
    (node l a r).Sorted key ↔ l.Sorted key ∧ r.Sorted key ∧
      (∀ b ∈ l.toList, key b < key a) ∧ ∀ b ∈ r.toList, key a < key b := by
  unfold Sorted
  rw [toList, List.pairwise_append, List.pairwise_cons]
  constructor
  · rintro ⟨hl, ⟨har, hr⟩, hlr⟩
    exact ⟨hl, hr, fun b hb => hlr b hb a (List.mem_cons_self ..), har⟩
  · rintro ⟨hl, hr, hla, har⟩
    refine ⟨hl, ⟨har, hr⟩, ?_⟩
    intro b hb c hc
    rcases List.mem_cons.1 hc with rfl | hc
    · exact hla b hb
    · exact (hla b hb).trans (har c hc)

/-- The root is not an element of the left subtree. -/
theorem Sorted.root_ne_left {l r : SearchTree α} {a : α} (h : (node l a r).Sorted key) :
    ∀ b ∈ l.toList, a ≠ b := by
  rintro b hb rfl
  exact lt_irrefl _ ((sorted_node.1 h).2.2.1 a hb)

theorem Sorted.root_ne_right {l r : SearchTree α} {a : α} (h : (node l a r).Sorted key) :
    ∀ b ∈ r.toList, a ≠ b := by
  rintro b hb rfl
  exact lt_irrefl _ ((sorted_node.1 h).2.2.2 a hb)

/-- The two subtrees have no element in common. -/
theorem Sorted.left_ne_right {l r : SearchTree α} {a : α} (h : (node l a r).Sorted key) :
    ∀ b ∈ l.toList, ∀ c ∈ r.toList, b ≠ c := by
  rintro b hb c hc rfl
  obtain ⟨-, -, hla, har⟩ := sorted_node.1 h
  exact lt_asymm (hla b hb) (har b hc)

/-! ## Insertion -/

theorem mem_of_mem_insert {x b : α} {t : SearchTree α} (hb : b ∈ (insert key x t).toList) :
    b ∈ t.toList ∨ b = x := by
  induction t with
  | nil => exact Or.inr (by simpa [insert, toList] using hb)
  | node l a r ihl ihr =>
    rw [insert] at hb
    split at hb
    · rw [mem_toList_node] at hb ⊢
      rcases hb with hb | hb | hb
      · exact (ihl hb).imp_left Or.inl
      · exact Or.inl (Or.inr (Or.inl hb))
      · exact Or.inl (Or.inr (Or.inr hb))
    · split at hb
      · rw [mem_toList_node] at hb ⊢
        rcases hb with hb | hb | hb
        · exact Or.inl (Or.inl hb)
        · exact Or.inl (Or.inr (Or.inl hb))
        · exact (ihr hb).imp_left fun h => Or.inr (Or.inr h)
      · exact Or.inl hb

theorem mem_insert_of_mem {x b : α} {t : SearchTree α} (hb : b ∈ t.toList) :
    b ∈ (insert key x t).toList := by
  induction t with
  | nil => cases hb
  | node l a r ihl ihr =>
    rw [mem_toList_node] at hb
    rw [insert]
    split
    · rw [mem_toList_node]
      exact hb.imp_left ihl
    · split
      · rw [mem_toList_node]
        exact hb.imp_right fun h => h.imp_right ihr
      · rw [mem_toList_node]
        exact hb

/-- **Insertion keeps a search tree.** -/
theorem Sorted.insert {x : α} {t : SearchTree α} (h : t.Sorted key) : (insert key x t).Sorted key := by
  induction t with
  | nil => exact sorted_node.2 ⟨sorted_nil, sorted_nil, by simp, by simp⟩
  | node l a r ihl ihr =>
    obtain ⟨hl, hr, hla, har⟩ := sorted_node.1 h
    rw [SearchTree.insert]
    split
    · rename_i hx
      refine sorted_node.2 ⟨ihl hl, hr, ?_, har⟩
      intro b hb
      rcases mem_of_mem_insert hb with hb | rfl
      · exact hla b hb
      · exact hx
    · split
      · rename_i hx
        refine sorted_node.2 ⟨hl, ihr hr, hla, ?_⟩
        intro b hb
        rcases mem_of_mem_insert hb with hb | rfl
        · exact har b hb
        · exact hx
      · exact h

theorem height_insert_le (x : α) (t : SearchTree α) : (insert key x t).height ≤ t.height + 1 := by
  induction t with
  | nil => simp [insert, height]
  | node l a r ihl ihr =>
    rw [insert]
    split
    · simp only [height]; omega
    · split
      · simp only [height]; omega
      · simp only [height]; omega

/-! ## Lookup -/

/-- **Lookup finds the element of a key.** -/
theorem Sorted.lookup_eq_some {t : SearchTree α} (h : t.Sorted key) {k : κ} {a : α} :
    t.lookup key k = some a ↔ a ∈ t.toList ∧ key a = k := by
  induction t with
  | nil => simp [lookup]
  | node l b r ihl ihr =>
    obtain ⟨hl, hr, hlb, hbr⟩ := sorted_node.1 h
    rw [lookup, mem_toList_node]
    split
    · rename_i hk
      rw [ihl hl]
      constructor
      · rintro ⟨hm, rfl⟩; exact ⟨Or.inl hm, rfl⟩
      · rintro ⟨hm | rfl | hm, rfl⟩
        · exact ⟨hm, rfl⟩
        · exact absurd hk (lt_irrefl _)
        · exact absurd hk (hbr a hm).asymm
    · split
      · rename_i hk
        rw [ihr hr]
        constructor
        · rintro ⟨hm, rfl⟩; exact ⟨Or.inr (Or.inr hm), rfl⟩
        · rintro ⟨hm | rfl | hm, rfl⟩
          · exact absurd hk (hlb a hm).asymm
          · exact absurd hk (lt_irrefl _)
          · exact ⟨hm, rfl⟩
      · rename_i hk hk'
        have hbk : key b = k := le_antisymm (not_lt.1 hk) (not_lt.1 hk')
        constructor
        · rintro ⟨⟩; exact ⟨Or.inr (Or.inl rfl), hbk⟩
        · rintro ⟨hm | rfl | hm, rfl⟩
          · exact absurd hbk (hlb a hm).ne'
          · rfl
          · exact absurd hbk (hbr a hm).ne

/-- **The first element of a key stays**, and a new one is found. -/
theorem lookup_insert (x : α) (k : κ) (t : SearchTree α) :
    (insert key x t).lookup key k =
      (t.lookup key k).or (if key x = k then some x else none) := by
  induction t with
  | nil =>
    simp only [insert, lookup, Option.none_or]
    rcases lt_trichotomy k (key x) with hk | rfl | hk
    · rw [if_pos hk, if_neg hk.ne']
    · rw [if_neg (lt_irrefl _), if_neg (lt_irrefl _), if_pos rfl]
    · rw [if_neg hk.asymm, if_pos hk, if_neg hk.ne]
  | node l a r ihl ihr =>
    rw [insert, lookup]
    split
    · rename_i hx
      rw [lookup, ihl]
      split
      · rfl
      · rename_i hk
        have hxk : key x ≠ k := by rintro rfl; exact hk hx
        rw [if_neg hxk, Option.or_none]
    · split
      · rename_i hx
        rw [lookup, ihr]
        split
        · rename_i hk
          rw [if_neg (hk.trans hx).ne', Option.or_none]
        · split
          · rfl
          · simp
      · rename_i hx hx'
        have hxa : key x = key a := le_antisymm (not_lt.1 hx') (not_lt.1 hx)
        rw [lookup]
        split
        · rename_i hk
          rw [if_neg (by rw [hxa]; exact hk.ne'), Option.or_none]
        · split
          · rename_i hk
            rw [if_neg (by rw [hxa]; exact hk.ne), Option.or_none]
          · simp

/-! ## The tree of a list -/

theorem build_concat (l : List α) (x : α) : build key (l ++ [x]) = insert key x (build key l) := by
  simp [build]

theorem sorted_build (l : List α) : (build key l).Sorted key := by
  induction l using List.reverseRecOn with
  | nil => exact sorted_nil
  | append_singleton l x ih => rw [build_concat]; exact ih.insert

theorem height_build_le (l : List α) : (build key l).height ≤ l.length := by
  induction l using List.reverseRecOn with
  | nil => exact le_rfl
  | append_singleton l x ih =>
    have hx : (insert key x (build key l)).height ≤ _ := height_insert_le x (build key l)
    rw [build_concat, List.length_append, List.length_singleton]
    omega

/-- **The tree of a list holds the first element of each key.** -/
theorem lookup_build (l : List α) (k : κ) :
    (build key l).lookup key k = l.find? fun a => key a = k := by
  induction l using List.reverseRecOn with
  | nil => rfl
  | append_singleton l x ih =>
    rw [build_concat, lookup_insert, ih, List.find?_append]
    by_cases hx : key x = k <;> simp [hx]

theorem mem_build {l : List α} {a : α} :
    a ∈ (build key l).toList ↔ l.find? (fun b => key b = key a) = some a := by
  rw [← lookup_build, (sorted_build l).lookup_eq_some]
  simp

theorem mem_of_mem_build {l : List α} {a : α} (h : a ∈ (build key l).toList) : a ∈ l :=
  List.mem_of_find?_eq_some (mem_build.1 h)

/-- The keys of the tree are those of the list. -/
theorem mem_map_build {l : List α} {k : κ} :
    k ∈ (build key l).toList.map key ↔ k ∈ l.map key := by
  constructor
  · intro hk
    obtain ⟨a, ha, rfl⟩ := List.mem_map.1 hk
    exact List.mem_map.2 ⟨a, mem_of_mem_build ha, rfl⟩
  · intro hk
    obtain ⟨a, ha, rfl⟩ := List.mem_map.1 hk
    cases hf : l.find? (fun b => key b = key a) with
    | none =>
      have hne := List.find?_eq_none.1 hf a ha
      exact absurd (decide_eq_true rfl) hne
    | some b =>
      have hb : key b = key a := by simpa using List.find?_some hf
      exact List.mem_map.2 ⟨b, mem_build.2 (by rw [hb]; exact hf), hb⟩

/-- The keys of the tree in order are determined by the set of keys. -/
theorem map_key_build {l l' : List α} (h : ∀ k, k ∈ l.map key ↔ k ∈ l'.map key) :
    (build key l).toList.map key = (build key l').toList.map key := by
  have hs : ∀ m : List α, ((build key m).toList.map key).Pairwise (· < ·) := fun m =>
    List.pairwise_map.2 (sorted_build m)
  apply (hs l).eq_of_mem_iff (hs l')
  intro k
  rw [mem_map_build, mem_map_build, h]

/-- **What is read off the tree in order** depends on the set of keys only, if it
depends on the key of an element only. -/
theorem flatMap_build {β : Type*} {l l' : List α} {f : α → List β}
    (h : ∀ k, k ∈ l.map key ↔ k ∈ l'.map key)
    (hf : ∀ a ∈ l, ∀ b ∈ l', key a = key b → f a = f b) :
    (build key l).toList.flatMap f = (build key l').toList.flatMap f := by
  have hkeys := map_key_build h
  have hmem : ∀ a ∈ (build key l).toList, a ∈ l := fun a => mem_of_mem_build
  have hmem' : ∀ b ∈ (build key l').toList, b ∈ l' := fun b => mem_of_mem_build
  generalize (build key l).toList = m at hkeys hmem
  generalize (build key l').toList = m' at hkeys hmem'
  induction m generalizing m' with
  | nil =>
    cases m' with
    | nil => rfl
    | cons b m' => cases hkeys
  | cons a m ih =>
    cases m' with
    | nil => cases hkeys
    | cons b m' =>
      rw [List.map_cons, List.map_cons, List.cons.injEq] at hkeys
      have hab := hf a (hmem a (List.mem_cons_self ..)) b (hmem' b (List.mem_cons_self ..)) hkeys.1
      rw [List.flatMap_cons, List.flatMap_cons, hab,
        ih (fun a ha => hmem a (List.mem_cons_of_mem _ ha)) m' hkeys.2
          fun b hb => hmem' b (List.mem_cons_of_mem _ hb)]

end SearchTree

end Linkerset.Search
