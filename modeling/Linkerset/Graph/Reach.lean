import Mathlib.Logic.Relation
import Mathlib.Data.List.Chain
import Mathlib.Data.List.Nodup
import Mathlib.Data.List.Infix

/-!
# Reachability and topological lists

A finite directed graph is given by successor lists, `succ : V → List V`.

* `Doomed`: from the vertex a directed cycle can be reached. These are the
  vertices that no topological order can contain.
* `Topo`: a list without repetition in which every vertex stands after all its
  successors.
* `Topo.before`: in such a list, everything reachable from a vertex in at least
  one step stands before it.
* `Topo.not_doomed`, `Topo.acyclic`: no vertex of such a list reaches a cycle.
-/

namespace Linkerset.Graph

open Relation

variable {V : Type*}

/-! ## Two splits of one list -/

/-- Of two elements of a list, one stands behind the other, or they stand in one place. -/
theorem append_cons_eq_append_cons {as bs as' bs' : List V} {a b : V}
    (h : as ++ a :: bs = as' ++ b :: bs') :
    (as = as' ∧ a = b ∧ bs = bs') ∨ (∃ z, as' = as ++ a :: z ∧ bs = z ++ b :: bs') ∨
      ∃ z, as = as' ++ b :: z ∧ bs' = z ++ a :: bs := by
  rcases List.append_eq_append_iff.1 h with ⟨z, rfl, hz⟩ | ⟨z, rfl, hz⟩
  · cases z with
    | nil =>
      obtain ⟨rfl, rfl⟩ := List.cons.inj hz
      exact Or.inl ⟨(List.append_nil as).symm, rfl, rfl⟩
    | cons c z =>
      obtain ⟨rfl, rfl⟩ := List.cons.inj hz
      exact Or.inr (Or.inl ⟨z, rfl, rfl⟩)
  · cases z with
    | nil =>
      obtain ⟨rfl, rfl⟩ := List.cons.inj hz
      exact Or.inl ⟨List.append_nil as', rfl, rfl⟩
    | cons c z =>
      obtain ⟨rfl, rfl⟩ := List.cons.inj hz
      exact Or.inr (Or.inr ⟨z, rfl, rfl⟩)

/-- An element of a list that ends in `y` is this `y`, or stands before it. -/
theorem append_cons_eq_concat {as bs l : List V} {a y : V} (h : as ++ a :: bs = l ++ [y]) :
    (as = l ∧ a = y ∧ bs = []) ∨ ∃ z, bs = z ++ [y] ∧ l = as ++ a :: z := by
  rcases List.eq_nil_or_concat bs with rfl | ⟨z, b, rfl⟩
  · obtain ⟨hl, ha⟩ := List.append_singleton_inj.1 h
    exact Or.inl ⟨hl, ha, rfl⟩
  · rw [List.concat_eq_append, ← List.cons_append, ← List.append_assoc] at h
    obtain ⟨hl, hb⟩ := List.append_singleton_inj.1 h
    rw [List.concat_eq_append, hb]
    exact Or.inr ⟨z, rfl, hl.symm⟩

/-! ## Reachability -/

variable (succ : V → List V)

/-- `b` is a direct successor of `a`. -/
def Edge (a b : V) : Prop := b ∈ succ a

/-- `b` is reachable from `a`, in any number of steps. -/
abbrev Reach : V → V → Prop := ReflTransGen (Edge succ)

/-- `b` is reachable from `a` in at least one step. -/
abbrev ReachPlus : V → V → Prop := TransGen (Edge succ)

/-- `v` lies on a directed cycle (a self-loop included). -/
def OnCycle (v : V) : Prop := ReachPlus succ v v

/-- A directed cycle can be reached from `v`. -/
def Doomed (v : V) : Prop := ∃ c, Reach succ v c ∧ OnCycle succ c

/-- **A topological list**: no repetition, and every vertex after its successors. -/
inductive Topo : List V → Prop
  | nil : Topo []
  | snoc {l : List V} {v : V} : Topo l → v ∉ l → (∀ w ∈ succ v, w ∈ l) → Topo (l ++ [v])

variable {succ}

theorem OnCycle.doomed {v : V} (h : OnCycle succ v) : Doomed succ v := ⟨v, .refl, h⟩

theorem Doomed.of_edge {v w : V} (hvw : Edge succ v w) (h : Doomed succ w) : Doomed succ v := by
  obtain ⟨c, hwc, hc⟩ := h
  exact ⟨c, .head hvw hwc, hc⟩

/-! ## Topological lists -/

namespace Topo

theorem nodup {l : List V} (h : Topo succ l) : l.Nodup := by
  induction h with
  | nil => exact List.nodup_nil
  | snoc _ hv _ ih => exact List.nodup_append.2 ⟨ih, by simp, by rintro a ha b hb rfl; simp_all⟩

theorem snoc_inv {l : List V} {v : V} (h : Topo succ (l ++ [v])) :
    Topo succ l ∧ v ∉ l ∧ ∀ w ∈ succ v, w ∈ l := by
  generalize hl : l ++ [v] = k at h
  cases h with
  | nil => simp at hl
  | snoc h hv hw =>
    obtain ⟨rfl, rfl⟩ := List.append_singleton_inj.1 hl
    exact ⟨h, hv, hw⟩

/-- A prefix of a topological list is topological. -/
theorem left_of_append {a b : List V} (h : Topo succ (a ++ b)) : Topo succ a := by
  induction b using List.reverseRecOn with
  | nil => simpa using h
  | append_singleton b x ih =>
    rw [← List.append_assoc] at h
    exact ih h.snoc_inv.1

/-- In a topological list, every element has its successors in front. -/
theorem split {a b : List V} {v : V} (h : Topo succ (a ++ v :: b)) :
    Topo succ a ∧ v ∉ a ∧ ∀ w ∈ succ v, w ∈ a := by
  rw [← List.singleton_append, ← List.append_assoc] at h
  exact h.left_of_append.snoc_inv

theorem edge_mem {l : List V} (h : Topo succ l) {v w : V} (hv : v ∈ l) (hw : Edge succ v w) :
    w ∈ l := by
  obtain ⟨a, b, rfl⟩ := List.append_of_mem hv
  exact List.mem_append_left _ (h.split.2.2 w hw)

theorem reach_mem {l : List V} (h : Topo succ l) {v w : V} (hv : v ∈ l) (hw : Reach succ v w) :
    w ∈ l := by
  induction hw with
  | refl => exact hv
  | tail _ he ih => exact h.edge_mem ih he

/-- **Everything below a vertex stands before it.** -/
theorem before {a b : List V} {v : V} (h : Topo succ (a ++ v :: b)) {w : V}
    (hw : ReachPlus succ v w) : w ∈ a := by
  obtain ⟨ha, -, hs⟩ := h.split
  obtain ⟨u, hvu, huw⟩ := TransGen.head'_iff.1 hw
  exact ha.reach_mem (hs u hvu) huw

/-- A vertex stands after all that it reaches. -/
theorem after {a b : List V} {v w : V} (h : Topo succ (a ++ v :: b)) (hmem : w ∈ a ++ v :: b)
    (hw : ReachPlus succ w v) : w ∈ b := by
  obtain ⟨ha, hva, hs⟩ := h.split
  rcases List.mem_append.1 hmem with hwa | hwb
  · exact absurd (ha.reach_mem hwa hw.to_reflTransGen) hva
  · rcases List.mem_cons.1 hwb with rfl | hwb
    · obtain ⟨u, hwu, huw⟩ := TransGen.head'_iff.1 hw
      exact absurd (ha.reach_mem (hs u hwu) huw) hva
    · exact hwb

/-- Read backwards, a vertex stands after all that reach it. -/
theorem mem_of_prefix_reverse {l a b : List V} {v w : V} (h : Topo succ l)
    (hp : a ++ v :: b <+: l.reverse) (hmem : w ∈ l) (hw : ReachPlus succ w v) : w ∈ a := by
  obtain ⟨c, hc⟩ := hp
  have hl : l = (b ++ c).reverse ++ v :: a.reverse := by
    have hrev := congrArg List.reverse hc
    rw [List.reverse_reverse] at hrev
    simpa using hrev.symm
  rw [hl] at h hmem
  exact List.mem_reverse.1 (h.after hmem hw)

/-- The successors of the vertex at index `i` stand at smaller indices. -/
theorem edge_lt {l : List V} (h : Topo succ l) {i : ℕ} (hi : i < l.length) {w : V}
    (hw : w ∈ succ l[i]) : ∃ j, ∃ hj : j < l.length, j < i ∧ l[j] = w := by
  have hl : l = l.take i ++ l[i] :: l.drop (i + 1) := by simp
  have hw' : w ∈ l.take i := by
    rw [hl] at h
    exact h.before (.single hw)
  obtain ⟨j, hj, rfl⟩ := List.getElem_of_mem hw'
  rw [List.length_take] at hj
  exact ⟨j, by omega, by omega, by simp⟩

theorem not_onCycle {l : List V} (h : Topo succ l) {v : V} (hv : v ∈ l) : ¬ OnCycle succ v := by
  intro hc
  obtain ⟨a, b, rfl⟩ := List.append_of_mem hv
  have hva := h.before hc
  have hn := h.nodup
  rw [List.nodup_append] at hn
  exact hn.2.2 v hva v (by simp) rfl

theorem not_doomed {l : List V} (h : Topo succ l) {v : V} (hv : v ∈ l) : ¬ Doomed succ v := by
  rintro ⟨c, hvc, hc⟩
  exact h.not_onCycle (h.reach_mem hv hvc) hc

/-- A topological list of all vertices shows that the graph has no cycle. -/
theorem acyclic {l : List V} (h : Topo succ l) (hall : ∀ v, v ∈ l) (v : V) : ¬ OnCycle succ v :=
  h.not_onCycle (hall v)

end Topo

end Linkerset.Graph
