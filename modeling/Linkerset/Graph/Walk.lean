import Linkerset.Graph.Order

/-!
# The ends of a sort, in terms of the graph

Three vertices and one path of a depth-first sort, described without the sort.

* `CyclicWalk.unique`, `CyclicWalk.mem_iff`: the cyclic walk of a row of roots is
  unique, and its vertices are those found along first doomed successors.
* `FirstLeaf`: the leaf found along first successors. The sort finishes it
  first (`visitList_head`).
* `LastRoot`: the last root that no earlier root reaches. The sort finishes it
  last (`visitList_last`).
-/

namespace Linkerset.Graph

open Relation

variable {V : Type*} {succ : V → List V}

/-! ## The cyclic walk -/

/-- Two chains of a functional relation with the same start: one is a prefix of
the other. -/
theorem chain_comparable {R : V → V → Prop} (hR : ∀ a b c, R a b → R a c → b = c) :
    ∀ (l l' : List V) (a : V), (a :: l).IsChain R → (a :: l').IsChain R → l <+: l' ∨ l' <+: l := by
  intro l
  induction l with
  | nil => intro l' a _ _; exact Or.inl List.nil_prefix
  | cons b l ih =>
    intro l' a h h'
    cases l' with
    | nil => exact Or.inr List.nil_prefix
    | cons c l' =>
      rw [List.isChain_cons_cons] at h h'
      obtain rfl := hR a b c h.1 h'.1
      rcases ih l' b h.2 h'.2 with hp | hp
      · exact Or.inl (List.cons_prefix_cons.2 ⟨rfl, hp⟩)
      · exact Or.inr (List.cons_prefix_cons.2 ⟨rfl, hp⟩)

namespace CyclicWalk

variable {roots : List V} {x x' : V} {q q' : List V}

theorem ne_nil (h : CyclicWalk succ roots x q) : q ≠ [] := List.ne_nil_of_mem h.closes

theorem edges (h : CyclicWalk succ roots x q) :
    (x :: q).IsChain (fun a b => Edge succ b a) := h.chain.imp fun _ _ h => FirstDoomed.edge h

theorem onCycle (h : CyclicWalk succ roots x q) : OnCycle succ x :=
  reachPlus_of_chain h.edges h.closes

/-- The walk read from its root, with the repeated vertex at its end. -/
theorem reverse_eq (h : CyclicWalk succ roots x q) {r : V} (hr : FirstIn (Doomed succ) roots r) :
    ∃ l, (x :: q).reverse = r :: l := by
  obtain ⟨s, hs, hfs⟩ := h.root
  obtain rfl := hfs.unique hr
  obtain ⟨a, q, rfl⟩ := List.exists_cons_of_ne_nil h.ne_nil
  rw [Option.mem_def, List.getLast?_eq_head?_reverse] at hs
  rw [List.reverse_cons]
  cases hrev : (a :: q).reverse with
  | nil => simp at hrev
  | cons b l => rw [hrev] at hs; simp only [List.head?_cons, Option.some.injEq] at hs
                exact ⟨l ++ [x], by simp [hs]⟩

/-- A walk cannot go on past its first repetition. -/
theorem eq_of_le (h : CyclicWalk succ roots x q) (h' : CyclicWalk succ roots x' q')
    (hp : (x :: q).reverse <+: (x' :: q').reverse) : x = x' ∧ q = q' := by
  obtain ⟨t, ht⟩ := hp
  rw [List.reverse_cons, List.reverse_cons, List.append_assoc, List.singleton_append] at ht
  rcases append_cons_eq_concat ht with ⟨hq, hx, -⟩ | ⟨z, -, hq⟩
  · exact ⟨hx, List.reverse_injective hq⟩
  · -- the other walk would have `x` twice
    have hn : (q.reverse ++ x :: z).Nodup := by rw [← hq]; exact List.nodup_reverse.2 h'.nodup
    rw [List.nodup_append] at hn
    exact absurd rfl (hn.2.2 x (List.mem_reverse.2 h.closes) x (by simp))

/-- **The cyclic walk is unique.** -/
theorem unique (h : CyclicWalk succ roots x q) (h' : CyclicWalk succ roots x' q') :
    x = x' ∧ q = q' := by
  obtain ⟨r, -, hr⟩ := h.root
  obtain ⟨l, hl⟩ := h.reverse_eq hr
  obtain ⟨l', hl'⟩ := h'.reverse_eq hr
  have hc := List.isChain_reverse.2 h.chain
  have hc' := List.isChain_reverse.2 h'.chain
  rw [hl] at hc
  rw [hl'] at hc'
  have hR : ∀ a b c, FirstDoomed succ b a → FirstDoomed succ c a → b = c :=
    fun a b c hb hc => FirstIn.unique hb hc
  rcases chain_comparable hR l l' r hc hc' with hp | hp
  · exact h.eq_of_le h' (by rw [hl, hl', List.cons_prefix_cons]; exact ⟨rfl, hp⟩)
  · obtain ⟨h1, h2⟩ := h'.eq_of_le h (by rw [hl, hl', List.cons_prefix_cons]; exact ⟨rfl, hp⟩)
    exact ⟨h1.symm, h2.symm⟩

/-- Behind a vertex of the walk comes its first doomed successor. -/
theorem step_mem (h : CyclicWalk succ roots x q) {a b : V} (hb : b ∈ q)
    (hab : FirstDoomed succ a b) : a ∈ q := by
  obtain ⟨l, l', rfl⟩ := List.append_of_mem hb
  have hchain := h.chain
  rw [← List.cons_append] at hchain
  rcases List.eq_nil_or_concat (x :: l) with hnil | ⟨m, c, hm⟩
  · cases hnil
  · rw [hm, List.concat_eq_append, List.append_assoc] at hchain
    have hcb : FirstDoomed succ c b := (List.isChain_append_cons_cons.1 hchain).2.1
    obtain rfl : a = c := FirstIn.unique hab hcb
    -- `a` stands in front of `b`: it is `x`, which is on the walk, or behind `x`
    have ha : a ∈ x :: l := by rw [hm]; simp
    rcases List.mem_cons.1 ha with rfl | ha
    · exact h.closes
    · exact List.mem_append_left _ ha

/-- **The vertices of the walk** are those found from its root along first doomed
successors. -/
theorem mem_iff (h : CyclicWalk succ roots x q) {r : V} (hr : FirstIn (Doomed succ) roots r) {v : V} :
    v ∈ q ↔ ReflTransGen (fun b a => FirstDoomed succ a b) r v := by
  obtain ⟨s, hs, hfs⟩ := h.root
  obtain rfl := hfs.unique hr
  constructor
  · intro hv
    have hchain : q.IsChain (FirstDoomed succ) := h.chain.tail
    clear h
    -- from the root upwards: the walk is written innermost first
    induction q generalizing v with
    | nil => cases hv
    | cons a q ih =>
      cases q with
      | nil =>
        have has : a = s := Option.some.inj hs
        rw [List.mem_singleton.1 hv, has]
      | cons b q =>
        rw [List.isChain_cons_cons] at hchain
        rw [List.getLast?_cons_cons] at hs
        rcases List.mem_cons.1 hv with hva | hv
        · have hb := ih hs (List.mem_cons_self ..) hchain.2
          rw [hva]
          exact hb.tail hchain.1
        · exact ih hs hv hchain.2
  · intro hv
    induction hv with
    | refl => exact List.mem_of_getLast? hs
    | tail _ hab ih => exact h.step_mem ih hab

end CyclicWalk

/-! ## The first leaf -/

variable (succ) in
/-- `u` is the leaf found from `v` along first successors. -/
inductive FirstLeaf : V → V → Prop
  | leaf {v : V} : succ v = [] → FirstLeaf v v
  | step {v w u : V} {ws : List V} : succ v = w :: ws → FirstLeaf w u → FirstLeaf v u

theorem FirstLeaf.unique {v u u' : V} (h : FirstLeaf succ v u) (h' : FirstLeaf succ v u') :
    u = u' := by
  induction h with
  | leaf hv =>
    cases h' with
    | leaf => rfl
    | step hw _ => rw [hv] at hw; cases hw
  | step hw _ ih =>
    cases h' with
    | leaf hv => rw [hv] at hw; cases hw
    | step hw' h' => rw [hw] at hw'; cases hw'; exact ih h'

variable [DecidableEq V]

/-- The first vertex a search finishes is the first leaf. -/
theorem visit_head : ∀ {depth : ℕ} {path done' : List V} {v : V},
    visit succ depth path [] v = .ok done' → ∃ u l, done' = u :: l ∧ FirstLeaf succ v u := by
  intro depth
  induction depth with
  | zero => intro path done' v h; cases h
  | succ depth ih =>
    intro path done' v h
    obtain ⟨-, ⟨hd, -⟩ | ⟨-, d, hl, rfl⟩⟩ := visit_ok_cases h
    · simp at hd
    cases hs : succ v with
    | nil => rw [hs] at hl; cases hl; exact ⟨v, [], rfl, .leaf hs⟩
    | cons w ws =>
      rw [hs] at hl
      cases hw : visit succ depth (v :: path) [] w with
      | error e => rw [visitList_cons_error hw] at hl; cases hl
      | ok d₁ =>
        rw [visitList_cons_ok hw] at hl
        obtain ⟨u, l, rfl, hu⟩ := ih hw
        obtain ⟨t, rfl⟩ := visitList_grows hl
        exact ⟨u, l ++ t ++ [v], by simp, .step hs hu⟩

theorem visitList_head {depth : ℕ} {r : V} {roots done : List V}
    (h : visitList succ depth [] [] (r :: roots) = .ok done) :
    ∃ u l, done = u :: l ∧ FirstLeaf succ r u := by
  cases hr : visit succ depth [] [] r with
  | error e => rw [visitList_cons_error hr] at h; cases h
  | ok d =>
    rw [visitList_cons_ok hr] at h
    obtain ⟨u, l, rfl, hu⟩ := visit_head hr
    obtain ⟨t, rfl⟩ := visitList_grows h
    exact ⟨u, l ++ t, rfl, hu⟩

/-! ## The last root -/

omit [DecidableEq V] in
variable (succ) in
/-- `r` is the last of `roots` that is not reachable from an earlier one. -/
def LastRoot (roots : List V) (r : V) : Prop :=
  ∃ as bs, roots = as ++ r :: bs ∧ (∀ a ∈ as, ¬ Reach succ a r) ∧
    ∀ xs b ys, bs = xs ++ b :: ys → ∃ a ∈ as ++ r :: xs, Reach succ a b

omit [DecidableEq V] in
theorem LastRoot.unique {roots : List V} {r r' : V} (h : LastRoot succ roots r)
    (h' : LastRoot succ roots r') : r = r' := by
  obtain ⟨as, bs, rfl, ha, hb⟩ := h
  obtain ⟨as', bs', he, ha', hb'⟩ := h'
  rcases append_cons_eq_append_cons he with ⟨-, hrr, -⟩ | ⟨z, rfl, rfl⟩ | ⟨z, rfl, rfl⟩
  · exact hrr
  · -- `r'` is a later root, so an earlier one reaches it
    obtain ⟨a, hm, hr⟩ := hb z r' bs' rfl
    exact absurd hr (ha' a hm)
  · obtain ⟨a, hm, hr⟩ := hb' z r bs rfl
    exact absurd hr (ha a hm)

/-- The last vertex a sort finishes is the last root. -/
theorem visitList_last {depth : ℕ} : ∀ {roots done : List V}, roots ≠ [] →
    visitList succ depth [] [] roots = .ok done → ∃ l r, done = l ++ [r] ∧ LastRoot succ roots r := by
  intro roots
  induction roots using List.reverseRecOn with
  | nil => intro done hne; exact absurd rfl hne
  | append_singleton rs b ih =>
    intro done _ h
    rw [visitList_append] at h
    cases hrs : visitList succ depth [] [] rs with
    | error e => rw [hrs] at h; cases h
    | ok d =>
      rw [hrs] at h
      have hb : visit succ depth [] d b = .ok done := by
        cases hb : visit succ depth [] d b with
        | error e => simp only [Except.bind] at h; rw [visitList_cons_error hb] at h; cases h
        | ok d' => simp only [Except.bind] at h; rw [visitList_cons_ok hb] at h; exact h
      have hg := visitList_ok .nil (by simp) hrs
      have hdepth : depth ≠ 0 := by rintro rfl; cases hb
      obtain ⟨depth', rfl⟩ := Nat.exists_eq_succ_of_ne_zero hdepth
      obtain ⟨-, ⟨hbd, rfl⟩ | ⟨hbd, d', -, rfl⟩⟩ := visit_ok_cases hb
      · -- `b` was finished by an earlier root, which is not the last one then
        obtain ⟨w, hw, hwb⟩ := (hg.reached b hbd).resolve_left (by simp)
        obtain ⟨l, r, rfl, as, bs, rfl, ha, hbs⟩ := ih (List.ne_nil_of_mem hw) hrs
        refine ⟨l, r, rfl, as, bs ++ [b], by simp, ha, ?_⟩
        intro xs c ys he
        rcases append_cons_eq_concat he.symm with ⟨rfl, rfl, -⟩ | ⟨z, -, rfl⟩
        · exact ⟨w, hw, hwb⟩
        · exact hbs xs c z rfl
      · refine ⟨d', b, rfl, rs, [], rfl, ?_, by simp⟩
        intro a ha hab
        exact hbd (hg.topo.reach_mem (hg.covers a ha) hab)

end Linkerset.Graph
