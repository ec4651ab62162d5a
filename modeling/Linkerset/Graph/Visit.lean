import Linkerset.Graph.Reach
import Mathlib.Data.Finset.Card
import Mathlib.Data.Finset.Insert
import Mathlib.Data.Finset.SDiff

/-!
# Depth-first topological sorting

`visit` is the textbook search: the finished vertices are kept in finishing
order, the active ones innermost first. It ends with the finished list, or with
the closed path it met: the repeated vertex in front of the active path.

* `visit_grows`: the finished list only grows.
* `visit_limit`: a depth above the number of untouched vertices is enough.
-/

namespace Linkerset.Graph

open Relation

variable {V : Type*}

/-- How a search stops early: at a closed path (with the vertices finished so
far), or at the depth limit. -/
inductive Stop (V : Type*) where
  | cycle (closed done : List V)
  | limit

/-- **Depth-first visit** of `v`, with `path` active and `done` finished. -/
def visit [DecidableEq V] (succ : V → List V) : ℕ → List V → List V → V → Except (Stop V) (List V)
  | 0, _, _, _ => .error .limit
  | depth + 1, path, done, v =>
    if v ∈ path then .error (.cycle (v :: path) done)
    else if v ∈ done then .ok done
    else ((succ v).foldlM (visit succ depth (v :: path)) done).map (· ++ [v])

/-- Visits of several vertices in a row. -/
def visitList [DecidableEq V] (succ : V → List V) (depth : ℕ) (path done ws : List V) :
    Except (Stop V) (List V) :=
  ws.foldlM (visit succ depth path) done

section Equations

variable [DecidableEq V] {succ : V → List V} {depth : ℕ} {path done : List V} {v : V}

theorem visit_back (h : v ∈ path) :
    visit succ (depth + 1) path done v = .error (.cycle (v :: path) done) := by
  rw [visit, if_pos h]

theorem visit_finished (h : v ∉ path) (hd : v ∈ done) :
    visit succ (depth + 1) path done v = .ok done := by
  rw [visit, if_neg h, if_pos hd]

theorem visit_tree (h : v ∉ path) (hd : v ∉ done) :
    visit succ (depth + 1) path done v =
      (visitList succ depth (v :: path) done (succ v)).map (· ++ [v]) := by
  rw [visit, if_neg h, if_neg hd, visitList]

@[simp] theorem visitList_nil : visitList succ depth path done [] = .ok done := rfl

theorem visitList_cons (w : V) (ws : List V) :
    visitList succ depth path done (w :: ws) =
      (visit succ depth path done w).bind fun d => visitList succ depth path d ws := by
  simp only [visitList, List.foldlM_cons]; rfl

theorem visitList_cons_ok {w : V} {ws d : List V} (h : visit succ depth path done w = .ok d) :
    visitList succ depth path done (w :: ws) = visitList succ depth path d ws := by
  rw [visitList_cons, h]; rfl

theorem visitList_cons_error {w : V} {ws : List V} {e : Stop V}
    (h : visit succ depth path done w = .error e) :
    visitList succ depth path done (w :: ws) = .error e := by
  rw [visitList_cons, h]; rfl

theorem visitList_append (as bs : List V) :
    visitList succ depth path done (as ++ bs) =
      (visitList succ depth path done as).bind fun d => visitList succ depth path d bs := by
  simp only [visitList, List.foldlM_append]; rfl

/-- A row of visits stops at its first interrupted visit. -/
theorem visitList_error {e : Stop V} : ∀ {ws done : List V},
    visitList succ depth path done ws = .error e →
      ∃ as w bs d, ws = as ++ w :: bs ∧ visitList succ depth path done as = .ok d ∧
        visit succ depth path d w = .error e := by
  intro ws
  induction ws with
  | nil => intro done h; simp at h
  | cons w ws ih =>
    intro done h
    cases hw : visit succ depth path done w with
    | error e' =>
      rw [visitList_cons_error hw] at h
      exact ⟨[], w, ws, done, rfl, rfl, hw.trans h⟩
    | ok d =>
      rw [visitList_cons_ok hw] at h
      obtain ⟨as, u, bs, d', rfl, has, hu⟩ := ih h
      exact ⟨w :: as, u, bs, d', rfl, (visitList_cons_ok hw).trans has, hu⟩

/-- How a completed visit went. -/
theorem visit_ok_cases {done' : List V} (h : visit succ (depth + 1) path done v = .ok done') :
    v ∉ path ∧ (v ∈ done ∧ done' = done ∨
      v ∉ done ∧ ∃ d, visitList succ depth (v :: path) done (succ v) = .ok d ∧ done' = d ++ [v]) := by
  by_cases hp : v ∈ path
  · rw [visit_back hp] at h; cases h
  refine ⟨hp, ?_⟩
  by_cases hd : v ∈ done
  · rw [visit_finished hp hd] at h; cases h; exact Or.inl ⟨hd, rfl⟩
  · rw [visit_tree hp hd] at h
    cases hl : visitList succ depth (v :: path) done (succ v) with
    | error e => rw [hl] at h; cases h
    | ok d => rw [hl] at h; cases h; exact Or.inr ⟨hd, d, rfl, rfl⟩

/-- How an interrupted visit went. -/
theorem visit_error_cases {e : Stop V} (h : visit succ (depth + 1) path done v = .error e) :
    (v ∈ path ∧ e = .cycle (v :: path) done) ∨
      (v ∉ path ∧ v ∉ done ∧ visitList succ depth (v :: path) done (succ v) = .error e) := by
  by_cases hp : v ∈ path
  · rw [visit_back hp] at h; cases h; exact Or.inl ⟨hp, rfl⟩
  by_cases hd : v ∈ done
  · rw [visit_finished hp hd] at h; cases h
  · rw [visit_tree hp hd] at h
    cases hl : visitList succ depth (v :: path) done (succ v) with
    | error e' => rw [hl] at h; cases h; exact Or.inr ⟨hp, hd, rfl⟩
    | ok d => rw [hl] at h; cases h

end Equations

section Depth

variable [DecidableEq V] {succ : V → List V}

theorem visitList_grows_of {depth : ℕ} {path : List V}
    (hv : ∀ {done done' v}, visit succ depth path done v = .ok done' → done <+: done') :
    ∀ {ws done done' : List V}, visitList succ depth path done ws = .ok done' → done <+: done' := by
  intro ws
  induction ws with
  | nil => intro done done' h; cases h; exact List.prefix_rfl
  | cons w ws ih =>
    intro done done' h
    cases hw : visit succ depth path done w with
    | error e => rw [visitList_cons_error hw] at h; cases h
    | ok d =>
      rw [visitList_cons_ok hw] at h
      exact (hv hw).trans (ih h)

/-- **The finished list only grows**, at its end. -/
theorem visit_grows : ∀ {depth : ℕ} {path done done' : List V} {v : V},
    visit succ depth path done v = .ok done' → done <+: done' := by
  intro depth
  induction depth with
  | zero => intro path done done' v h; cases h
  | succ depth ih =>
    intro path done done' v h
    obtain ⟨-, ⟨-, rfl⟩ | ⟨-, d, hd, rfl⟩⟩ := visit_ok_cases h
    · exact List.prefix_rfl
    · exact (visitList_grows_of ih hd).trans (List.prefix_append d [v])

theorem visitList_grows {depth : ℕ} {path done done' ws : List V}
    (h : visitList succ depth path done ws = .ok done') : done <+: done' :=
  visitList_grows_of visit_grows h

/-- The vertices of `U` that are neither active nor finished. -/
def untouched (U : Finset V) (path done : List V) : Finset V :=
  U.filter fun x => x ∉ path ∧ x ∉ done

variable {U : Finset V}

theorem untouched_card_le (path done : List V) : (untouched U path done).card ≤ U.card :=
  Finset.card_le_card (Finset.filter_subset _ _)

theorem untouched_mono (path : List V) {done done' : List V} (h : done <+: done') :
    (untouched U path done').card ≤ (untouched U path done).card := by
  apply Finset.card_le_card
  intro x hx
  simp only [untouched, Finset.mem_filter] at hx ⊢
  exact ⟨hx.1, hx.2.1, fun hd => hx.2.2 (h.subset hd)⟩

/-- Entering a vertex takes it out of the untouched ones. -/
theorem untouched_enter {path done : List V} {v : V} (hU : v ∈ U) (hp : v ∉ path) (hd : v ∉ done) :
    (untouched U (v :: path) done).card + 1 = (untouched U path done).card := by
  have hv : v ∈ untouched U path done := by simp [untouched, hU, hp, hd]
  have he : untouched U (v :: path) done = (untouched U path done).erase v := by
    ext x; simp only [untouched, Finset.mem_filter, Finset.mem_erase, List.mem_cons]; tauto
  rw [he, Finset.card_erase_of_mem hv]
  have hpos : 0 < (untouched U path done).card := Finset.card_pos.2 ⟨v, hv⟩
  omega

/-- Finishing the innermost active vertex leaves the untouched ones as they are. -/
theorem untouched_leave {path done : List V} {v : V} :
    untouched U path (done ++ [v]) = untouched U (v :: path) done := by
  ext x; simp only [untouched, Finset.mem_filter, List.mem_cons, List.mem_append, List.not_mem_nil,
    or_false]; tauto

/-- Active, finished and untouched vertices are different ones. -/
theorem untouched_add_le (hU : ∀ v, v ∈ U) {path done : List V} (h : (path ++ done).Nodup) :
    (untouched U path done).card + (path.length + done.length) ≤ U.card := by
  have hlen : (path ++ done).toFinset.card = path.length + done.length := by
    rw [List.toFinset_card_of_nodup h, List.length_append]
  have hdisj : Disjoint (untouched U path done) (path ++ done).toFinset := by
    rw [Finset.disjoint_left]
    intro x hx
    simp only [untouched, Finset.mem_filter] at hx
    simp [hx.2.1, hx.2.2]
  rw [← hlen, ← Finset.card_union_of_disjoint hdisj]
  exact Finset.card_le_card fun x _ => hU x

/-- **Enough depth.** A depth above the number of untouched vertices is never
reached. -/
theorem visit_limit (hU : ∀ v, v ∈ U) : ∀ {depth : ℕ} {path done : List V} {v : V},
    (untouched U path done).card < depth → visit succ depth path done v ≠ .error .limit := by
  intro depth
  induction depth with
  | zero => intro path done v h; omega
  | succ depth ih =>
    intro path done v h he
    obtain ⟨-, hc⟩ | ⟨hp, hd, hl⟩ := visit_error_cases he
    · cases hc
    · -- `v` has become active, so there is one untouched vertex less for the next level
      have henter := untouched_enter (hU v) hp hd
      obtain ⟨as, w, bs, d, -, has, hw⟩ := visitList_error hl
      have hmono := untouched_mono (U := U) (v :: path) (visitList_grows has)
      exact ih (by omega) hw

theorem visitList_limit (hU : ∀ v, v ∈ U) {depth : ℕ} {path done ws : List V}
    (h : (untouched U path done).card < depth) : visitList succ depth path done ws ≠ .error .limit := by
  intro he
  obtain ⟨as, w, bs, d, -, has, hw⟩ := visitList_error he
  have hmono := untouched_mono (U := U) path (visitList_grows has)
  exact visit_limit hU (by omega) hw

end Depth

end Linkerset.Graph
