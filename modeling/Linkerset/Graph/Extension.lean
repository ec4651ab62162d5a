import Linkerset.Graph.Order

/-!
# The order of a sort, as a function of its roots

* `visitList_of_topo`, `visitList_eq_self_iff`: a row of roots that is topological
  already is left as it is, and no other row is.
* `visitList_split`: each root adds one block to the finished list, of what it
  reaches and no earlier root does, and stands at the end of it.
* `visit_map`, `visit_mono`: a visit does not see the names of the vertices, nor a
  depth that it does not use.
-/

namespace Linkerset.Graph

open Relation

variable {V : Type*} [DecidableEq V] {succ : V → List V}

/-! ## Roots in topological order -/

/-- Visits of finished vertices do nothing. -/
theorem visitList_finished {depth : ℕ} {path done : List V} (ho : ∀ x ∈ path, x ∉ done) :
    ∀ {ws : List V}, (∀ w ∈ ws, w ∈ done) → visitList succ (depth + 1) path done ws = .ok done := by
  intro ws
  induction ws with
  | nil => intro _; rfl
  | cons w ws ih =>
    intro hws
    have hw : w ∈ done := hws w (List.mem_cons_self ..)
    have hp : w ∉ path := fun hp => ho w hp hw
    rw [visitList_cons_ok (visit_finished hp hw)]
    exact ih fun x hx => hws x (List.mem_cons_of_mem w hx)

/-- A vertex whose successors are finished is finished at once. -/
theorem visit_ready {depth : ℕ} {done : List V} {v : V} (hd : v ∉ done)
    (hs : ∀ w ∈ succ v, w ∈ done) : visit succ (depth + 2) [] done v = .ok (done ++ [v]) := by
  have ho : ∀ x ∈ [v], x ∉ done := by
    intro x hx
    rw [List.mem_singleton.1 hx]
    exact hd
  rw [visit_tree List.not_mem_nil hd, visitList_finished ho hs]
  rfl

/-- **A topological row of roots** is finished in its own order. -/
theorem visitList_of_topo {depth : ℕ} : ∀ {ws done : List V}, Topo succ (done ++ ws) →
    visitList succ (depth + 2) [] done ws = .ok (done ++ ws) := by
  intro ws
  induction ws with
  | nil => intro done _; rw [List.append_nil]; rfl
  | cons w ws ih =>
    intro done h
    obtain ⟨-, hw, hs⟩ := h.split
    rw [visitList_cons_ok (visit_ready hw hs)]
    have hrest : Topo succ ((done ++ [w]) ++ ws) := by simpa using h
    rw [ih hrest]
    simp

/-- **A sort leaves its roots as they are** exactly when they are topological. -/
theorem visitList_eq_self_iff {depth : ℕ} {roots : List V} :
    visitList succ (depth + 2) [] [] roots = .ok roots ↔ Topo succ roots := by
  constructor
  · intro h
    have hg := visitList_ok .nil (by simp) h
    exact hg.topo
  · intro h
    have hnil : Topo succ ([] ++ roots) := h
    exact visitList_of_topo hnil

/-! ## The block of a root -/

/-- What a sort has finished is what its roots reach. -/
theorem mem_visitList_iff {depth : ℕ} {ws done : List V}
    (h : visitList succ depth [] [] ws = .ok done) {x : V} :
    x ∈ done ↔ ∃ w ∈ ws, Reach succ w x := by
  have hg := visitList_ok .nil (by simp) h
  constructor
  · intro hx
    exact (hg.reached x hx).resolve_left List.not_mem_nil
  · rintro ⟨w, hw, hwx⟩
    exact hg.topo.reach_mem (hg.covers w hw) hwx

/-- **The block of a root**: the vertices that it reaches, and that no earlier root does,
are finished one after the other, the root itself at last. -/
theorem visitList_split {depth : ℕ} {as bs ord : List V} {r : V}
    (h : visitList succ depth [] [] (as ++ r :: bs) = .ok ord) :
    ∃ pre new post, ord = pre ++ new ++ post ∧ visitList succ depth [] [] as = .ok pre ∧
      (∀ x, x ∈ pre ↔ ∃ a ∈ as, Reach succ a x) ∧
      (∀ x, x ∈ new ↔ Reach succ r x ∧ ∀ a ∈ as, ¬ Reach succ a x) ∧
      (new ≠ [] → new.getLast? = some r) := by
  rw [visitList_append] at h
  cases has : visitList succ depth [] [] as with
  | error e => rw [has] at h; cases h
  | ok pre =>
    rw [has, Except.bind, visitList_cons] at h
    have hpre := visitList_ok .nil (by simp) has
    cases hr : visit succ depth [] pre r with
    | error e => rw [hr] at h; cases h
    | ok d =>
      rw [hr] at h
      obtain ⟨new, rfl⟩ := visit_grows hr
      obtain ⟨post, rfl⟩ := visitList_grows h
      have hmem : ∀ x, x ∈ pre ↔ ∃ a ∈ as, Reach succ a x := fun x => mem_visitList_iff has
      have hnew : ∀ x, x ∈ new ↔ Reach succ r x ∧ x ∉ pre := fun x =>
        mem_new_iff hpre.topo (by simp) hr
      refine ⟨pre, new, post, rfl, rfl, hmem, ?_, ?_⟩
      · intro x
        rw [hnew x, hmem x]
        simp only [not_exists, not_and]
      · intro hne
        by_cases hrp : r ∈ pre
        · -- all that a finished root reaches is finished
          obtain ⟨x, hx⟩ := List.exists_mem_of_ne_nil _ hne
          obtain ⟨hrx, hxp⟩ := (hnew x).1 hx
          exact absurd (hpre.topo.reach_mem hrp hrx) hxp
        · exact getLast_new hrp hr

/-! ## Renaming the vertices -/

section Map

variable {W : Type*} [DecidableEq W] {succ' : W → List W} {f : V → W}

/-- The row of visits, once the single visits are known. -/
theorem visitList_map_of {depth : ℕ} {path : List V}
    (hv : ∀ {done d : List V} {v : V}, visit succ depth path done v = .ok d →
      visit succ' depth (path.map f) (done.map f) (f v) = .ok (d.map f)) :
    ∀ {ws done d : List V}, visitList succ depth path done ws = .ok d →
      visitList succ' depth (path.map f) (done.map f) (ws.map f) = .ok (d.map f) := by
  intro ws
  induction ws with
  | nil => intro done d h; cases h; rfl
  | cons w ws ih =>
    intro done d h
    cases hw : visit succ depth path done w with
    | error e => rw [visitList_cons_error hw] at h; cases h
    | ok d' =>
      rw [visitList_cons_ok hw] at h
      rw [List.map_cons, visitList_cons_ok (hv hw)]
      exact ih h

/-- **A visit does not see the names of the vertices.** -/
theorem visit_map (hf : Function.Injective f) (hs : ∀ v, succ' (f v) = (succ v).map f) :
    ∀ {depth : ℕ} {path done d : List V} {v : V}, visit succ depth path done v = .ok d →
      visit succ' depth (path.map f) (done.map f) (f v) = .ok (d.map f) := by
  intro depth
  induction depth with
  | zero => intro path done d v h; cases h
  | succ depth ih =>
    intro path done d v h
    obtain ⟨hp, hcase⟩ := visit_ok_cases h
    have hp' : f v ∉ path.map f := by rwa [List.mem_map_of_injective hf]
    rcases hcase with ⟨hd, rfl⟩ | ⟨hd, d', hl, rfl⟩
    · exact visit_finished hp' ((List.mem_map_of_injective hf).2 hd)
    · have hd' : f v ∉ done.map f := by rwa [List.mem_map_of_injective hf]
      have hrow := visitList_map_of ih hl
      rw [visit_tree hp' hd', hs, ← List.map_cons, hrow]
      simp [Except.map]

theorem visitList_map (hf : Function.Injective f) (hs : ∀ v, succ' (f v) = (succ v).map f)
    {depth : ℕ} {path ws done d : List V} (h : visitList succ depth path done ws = .ok d) :
    visitList succ' depth (path.map f) (done.map f) (ws.map f) = .ok (d.map f) :=
  visitList_map_of (visit_map hf hs) h

end Map

/-! ## More depth -/

theorem visitList_mono_of {depth depth' : ℕ} {path : List V}
    (hv : ∀ {done d : List V} {v : V}, visit succ depth path done v = .ok d →
      visit succ depth' path done v = .ok d) :
    ∀ {ws done d : List V}, visitList succ depth path done ws = .ok d →
      visitList succ depth' path done ws = .ok d := by
  intro ws
  induction ws with
  | nil => intro done d h; exact h
  | cons w ws ih =>
    intro done d h
    cases hw : visit succ depth path done w with
    | error e => rw [visitList_cons_error hw] at h; cases h
    | ok d' =>
      rw [visitList_cons_ok hw] at h
      rw [visitList_cons_ok (hv hw)]
      exact ih h

/-- **A completed visit stays as it is with more depth.** -/
theorem visit_mono : ∀ {depth depth' : ℕ} {path done d : List V} {v : V}, depth ≤ depth' →
    visit succ depth path done v = .ok d → visit succ depth' path done v = .ok d := by
  intro depth
  induction depth with
  | zero => intro depth' path done d v _ h; cases h
  | succ depth ih =>
    intro depth' path done d v hle h
    obtain ⟨k, rfl⟩ : ∃ k, depth' = k + 1 := ⟨depth' - 1, by omega⟩
    obtain ⟨hp, ⟨hd, rfl⟩ | ⟨hd, d', hl, rfl⟩⟩ := visit_ok_cases h
    · exact visit_finished hp hd
    · have hrow := visitList_mono_of (ih (show depth ≤ k by omega)) hl
      rw [visit_tree hp hd, hrow]
      rfl

theorem visitList_mono {depth depth' : ℕ} (hle : depth ≤ depth') {path ws done d : List V}
    (h : visitList succ depth path done ws = .ok d) :
    visitList succ depth' path done ws = .ok d :=
  visitList_mono_of (visit_mono hle) h

end Linkerset.Graph
