import Linkerset.Graph.Visit
import Mathlib.Data.List.Lemmas

/-!
# What a depth-first sort returns

* `visit_ok`: a completed visit leaves a topological list that has gained the
  visited vertex and vertices reachable from it.
* `visit_cycle`: an interrupted visit shows a closed path, along which each
  vertex is the **first** successor of the next one that reaches a cycle.
* `visit_ok_iff`: a visit completes exactly when nothing reachable from it is active
  or on a cycle; `mem_new_iff`: it then finishes what is reachable.
* `visitList_ok_iff`: a sort completes exactly when no root reaches a cycle.
* `CyclicWalk`: the walk from the first doomed root along first doomed
  successors, up to its first repetition. It depends on the graph alone
  (`CyclicWalk.unique`), and `visitList_cycle` says that an interrupted sort
  returns it.
-/

namespace Linkerset.Graph

open Relation

variable {V : Type*}

/-- `a` is the first element of `l` with property `p`. -/
def FirstIn (p : V → Prop) (l : List V) (a : V) : Prop :=
  ∃ x y, l = x ++ a :: y ∧ p a ∧ ∀ b ∈ x, ¬ p b

theorem FirstIn.unique {p : V → Prop} {l : List V} {a b : V} (ha : FirstIn p l a)
    (hb : FirstIn p l b) : a = b := by
  obtain ⟨x, y, rfl, hpa, hx⟩ := ha
  obtain ⟨x', y', he, hpb, hx'⟩ := hb
  rcases append_cons_eq_append_cons he with ⟨-, hab, -⟩ | ⟨z, rfl, -⟩ | ⟨z, rfl, -⟩
  · exact hab
  · exact absurd hpa (hx' a (by simp))
  · exact absurd hpb (hx b (by simp))

theorem FirstIn.exists_of_mem {p : V → Prop} {l : List V} {a : V} (ha : a ∈ l) (hp : p a) :
    ∃ b, FirstIn p l b := by
  induction l with
  | nil => cases ha
  | cons b l ih =>
    by_cases hb : p b
    · exact ⟨b, [], l, rfl, hb, by simp⟩
    · have hal : a ∈ l := by
        rcases List.mem_cons.1 ha with rfl | hal
        · exact absurd hp hb
        · exact hal
      obtain ⟨c, x, y, rfl, hc, hx⟩ := ih hal
      exact ⟨c, b :: x, y, rfl, hc, List.forall_mem_cons.2 ⟨hb, hx⟩⟩

theorem FirstIn.mem {p : V → Prop} {l : List V} {a : V} (h : FirstIn p l a) : a ∈ l := by
  obtain ⟨x, y, rfl, -, -⟩ := h; simp

theorem FirstIn.prop {p : V → Prop} {l : List V} {a : V} (h : FirstIn p l a) : p a := by
  obtain ⟨-, -, -, hp, -⟩ := h; exact hp

variable (succ : V → List V)

/-- `a` is the first successor of `b` from which a cycle can be reached. -/
def FirstDoomed (a b : V) : Prop := FirstIn (Doomed succ) (succ b) a

/-- **The cyclic walk of a row of roots**, innermost vertex first: it starts at
the first doomed root, goes on to the first doomed successor, and ends when that
successor `x` is already on it. -/
structure CyclicWalk (roots : List V) (x : V) (q : List V) : Prop where
  root : ∃ r ∈ q.getLast?, FirstIn (Doomed succ) roots r
  chain : (x :: q).IsChain (FirstDoomed succ)
  nodup : q.Nodup
  closes : x ∈ q

variable {succ}

theorem FirstDoomed.edge {a b : V} (h : FirstDoomed succ a b) : Edge succ b a := FirstIn.mem h

/-- Of the roots, the walk depends on the first doomed one only. -/
theorem CyclicWalk.of_roots {roots roots' q : List V} {x : V} (h : CyclicWalk succ roots x q)
    (hr : ∀ r, FirstIn (Doomed succ) roots r → FirstIn (Doomed succ) roots' r) :
    CyclicWalk succ roots' x q where
  root := by
    obtain ⟨r, hlast, hfirst⟩ := h.root
    exact ⟨r, hlast, hr r hfirst⟩
  chain := h.chain
  nodup := h.nodup
  closes := h.closes

/-- In a path written innermost first, the head is reachable from the others. -/
theorem reachPlus_of_chain : ∀ {l : List V} {v u : V},
    (v :: l).IsChain (fun a b => Edge succ b a) → u ∈ l → ReachPlus succ u v := by
  intro l
  induction l with
  | nil => intro v u _ hu; simp at hu
  | cons w l ih =>
    intro v u h hu
    rw [List.isChain_cons_cons] at h
    rcases List.mem_cons.1 hu with rfl | hu
    · exact .single h.1
    · exact (ih h.2 hu).tail h.1

/-! ## Completed visits -/

/-- What completed visits of `ws` leave, from the finished list `done`. -/
structure Gained (succ : V → List V) (path done ws done' : List V) : Prop where
  topo : Topo succ done'
  grows : done <+: done'
  covers : ∀ w ∈ ws, w ∈ done'
  reached : ∀ x ∈ done', x ∈ done ∨ ∃ w ∈ ws, Reach succ w x
  off : ∀ x ∈ path, x ∉ done'

theorem Gained.cons {path done d done' ws : List V} {w : V} (h : Gained succ path done [w] d)
    (h' : Gained succ path d ws done') : Gained succ path done (w :: ws) done' where
  topo := h'.topo
  grows := h.grows.trans h'.grows
  covers := by
    have hw : w ∈ done' := h'.grows.subset (h.covers w (List.mem_singleton.2 rfl))
    exact List.forall_mem_cons.2 ⟨hw, h'.covers⟩
  reached := by
    intro x hx
    rcases h'.reached x hx with hx | ⟨u, hu, hux⟩
    · rcases h.reached x hx with hx | ⟨u, hu, hux⟩
      · exact Or.inl hx
      · exact Or.inr ⟨u, by simp_all, hux⟩
    · exact Or.inr ⟨u, List.mem_cons_of_mem _ hu, hux⟩
  off := h'.off

variable [DecidableEq V]

theorem visitList_ok_of {depth : ℕ} {path : List V}
    (hv : ∀ {done done' v}, Topo succ done → (∀ x ∈ path, x ∉ done) →
      visit succ depth path done v = .ok done' → Gained succ path done [v] done') :
    ∀ {ws done done' : List V}, Topo succ done → (∀ x ∈ path, x ∉ done) →
      visitList succ depth path done ws = .ok done' → Gained succ path done ws done' := by
  intro ws
  induction ws with
  | nil =>
    intro done done' ht ho h
    cases h
    exact ⟨ht, List.prefix_rfl, by simp, fun x hx => Or.inl hx, ho⟩
  | cons w ws ih =>
    intro done done' ht ho h
    cases hw : visit succ depth path done w with
    | error e => rw [visitList_cons_error hw] at h; cases h
    | ok d =>
      rw [visitList_cons_ok hw] at h
      have hg := hv ht ho hw
      exact hg.cons (ih hg.topo hg.off h)

/-- **A completed visit** leaves a topological list. -/
theorem visit_ok : ∀ {depth : ℕ} {path done done' : List V} {v : V}, Topo succ done →
    (∀ x ∈ path, x ∉ done) → visit succ depth path done v = .ok done' →
      Gained succ path done [v] done' := by
  intro depth
  induction depth with
  | zero => intro path done done' v _ _ h; cases h
  | succ depth ih =>
    intro path done done' v ht ho h
    obtain ⟨hp, ⟨hd, rfl⟩ | ⟨hd, d, hl, rfl⟩⟩ := visit_ok_cases h
    · exact ⟨ht, List.prefix_rfl, by simpa using hd, fun x hx => Or.inl hx, ho⟩
    have hoff : ∀ x ∈ v :: path, x ∉ done := List.forall_mem_cons.2 ⟨hd, ho⟩
    have hg := visitList_ok_of ih ht hoff hl
    refine ⟨hg.topo.snoc (hg.off v (by simp)) hg.covers, hg.grows.trans (List.prefix_append d [v]),
      by simp, ?_, ?_⟩
    · intro x hx
      rcases List.mem_append.1 hx with hx | hx
      · rcases hg.reached x hx with hx | ⟨w, hw, hwx⟩
        · exact Or.inl hx
        · exact Or.inr ⟨v, by simp, .head hw hwx⟩
      · simp only [List.mem_singleton] at hx
        subst hx
        exact Or.inr ⟨x, by simp, .refl⟩
    · intro x hx hm
      rcases List.mem_append.1 hm with hm | hm
      · exact hg.off x (List.mem_cons_of_mem _ hx) hm
      · simp only [List.mem_singleton] at hm
        subst hm
        exact hp hx

theorem visitList_ok {depth : ℕ} {path done done' ws : List V} (ht : Topo succ done)
    (ho : ∀ x ∈ path, x ∉ done) (h : visitList succ depth path done ws = .ok done') :
    Gained succ path done ws done' :=
  visitList_ok_of visit_ok ht ho h

/-! ## Interrupted visits -/

/-- What an interrupted visit of `v` shows: the path that was active when `x` was
met again, and the vertices finished by then. -/
structure Interrupted (succ : V → List V) (path done : List V) (v x : V) (q done₀ : List V) :
    Prop where
  split : ∃ pre, x :: q = pre ++ v :: path ∧ (pre ++ [v]).IsChain (FirstDoomed succ)
  closes : x ∈ q
  nodup : q.Nodup
  doomed : Doomed succ v
  topo : Topo succ done₀
  grows : done <+: done₀
  off : ∀ y ∈ q, y ∉ done₀

/-- **An interrupted visit** shows a closed path. -/
theorem visit_cycle : ∀ {depth : ℕ} {path done : List V} {v : V} {p done₀ : List V},
    Topo succ done → (∀ x ∈ path, x ∉ done) → path.Nodup →
      (v :: path).IsChain (fun a b => Edge succ b a) →
      visit succ depth path done v = .error (.cycle p done₀) →
        ∃ x q, p = x :: q ∧ Interrupted succ path done v x q done₀ := by
  intro depth
  induction depth with
  | zero => intro path done v p done₀ _ _ _ _ h; cases h
  | succ depth ih =>
    intro path done v p done₀ ht ho hn hc h
    rcases visit_error_cases h with ⟨hp, he⟩ | ⟨hp, hd, hl⟩
    · cases he
      have hcyc : OnCycle succ v := reachPlus_of_chain hc hp
      exact ⟨v, path, rfl, ⟨[], rfl, List.isChain_singleton v⟩, hp, hn, hcyc.doomed, ht,
        List.prefix_rfl, ho⟩
    -- the closed path is met below the successor `w` of `v`
    obtain ⟨as, w, bs, d, hsucc, has, hw⟩ := visitList_error hl
    have hoff : ∀ x ∈ v :: path, x ∉ done := List.forall_mem_cons.2 ⟨hd, ho⟩
    have hg := visitList_ok ht hoff has
    have hvw : Edge succ v w := by unfold Edge; rw [hsucc]; simp
    obtain ⟨x, q, rfl, hI⟩ := ih hg.topo hg.off (List.nodup_cons.2 ⟨hp, hn⟩)
      (List.isChain_cons_cons.2 ⟨hvw, hc⟩) hw
    have hfirst : FirstDoomed succ w v :=
      ⟨as, bs, hsucc, hI.doomed, fun b hb => hg.topo.not_doomed (hg.covers b hb)⟩
    obtain ⟨pre, hpre, hchain⟩ := hI.split
    refine ⟨x, q, rfl, ⟨pre ++ [w], by simp [hpre], ?_⟩, hI.closes, hI.nodup,
      hI.doomed.of_edge hvw, hI.topo, hg.grows.trans hI.grows, hI.off⟩
    refine hchain.append (List.isChain_singleton v) ?_
    intro a ha b hb
    simp only [List.getLast?_append, List.getLast?_singleton, Option.some_or, Option.mem_def,
      Option.some.injEq] at ha
    simp only [List.head?_cons, Option.mem_def, Option.some.injEq] at hb
    subst ha hb
    exact hfirst

section Root

variable {done q done₀ roots : List V} {v x : V}

omit [DecidableEq V] in
/-- Where nothing was active before, the closed path ends at the visited vertex. -/
theorem Interrupted.last (h : Interrupted succ [] done v x q done₀) : v ∈ q.getLast? := by
  obtain ⟨pre, hpre, -⟩ := h.split
  -- `q` is not empty, so its last vertex is the last one of `x :: q`
  obtain ⟨y, l, rfl⟩ := List.exists_cons_of_ne_nil (List.ne_nil_of_mem h.closes)
  have hlast := congrArg List.getLast? hpre
  simpa using hlast

omit [DecidableEq V] in
/-- It is the cyclic walk of every row of roots in which that vertex is the first doomed
one. -/
theorem Interrupted.cyclicWalk (h : Interrupted succ [] done v x q done₀)
    (hr : FirstIn (Doomed succ) roots v) : CyclicWalk succ roots x q where
  root := ⟨v, h.last, hr⟩
  chain := by
    obtain ⟨pre, hpre, hchain⟩ := h.split
    rwa [hpre]
  nodup := h.nodup
  closes := h.closes

end Root

/-! ## What a visit finishes -/

/-- **A completed visit finishes what is reachable**, as far as it was not finished. -/
theorem mem_new_iff {depth : ℕ} {path done new : List V} {v x : V} (ht : Topo succ done)
    (ho : ∀ x ∈ path, x ∉ done) (h : visit succ depth path done v = .ok (done ++ new)) :
    x ∈ new ↔ Reach succ v x ∧ x ∉ done := by
  have hg := visit_ok ht ho h
  constructor
  · intro hx
    have hn := hg.topo.nodup
    rw [List.nodup_append] at hn
    have hxd : x ∉ done := fun hd => hn.2.2 x hd x hx rfl
    rcases hg.reached x (List.mem_append_right _ hx) with hd | ⟨w, hw, hwx⟩
    · exact absurd hd hxd
    · rw [List.mem_singleton.1 hw] at hwx
      exact ⟨hwx, hxd⟩
  · rintro ⟨hvx, hxd⟩
    have hv : v ∈ done ++ new := hg.covers v (List.mem_singleton.2 rfl)
    exact (List.mem_append.1 (hg.topo.reach_mem hv hvx)).resolve_left hxd

/-- The visited vertex is finished last. -/
theorem getLast_new {depth : ℕ} {path done new : List V} {v : V} (hd : v ∉ done)
    (h : visit succ depth path done v = .ok (done ++ new)) : new.getLast? = some v := by
  cases depth with
  | zero => cases h
  | succ depth =>
    obtain ⟨-, ⟨hvd, -⟩ | ⟨-, d, hl, he⟩⟩ := visit_ok_cases h
    · exact absurd hvd hd
    · -- the successors have only added to `done`
      obtain ⟨t, rfl⟩ := visitList_grows hl
      rw [List.append_assoc, List.append_cancel_left_eq] at he
      rw [he]
      simp

/-- **A visit completes exactly when nothing reachable is active or on a cycle.** -/
theorem visit_ok_iff {U : Finset V} (hU : ∀ v, v ∈ U) {depth : ℕ} {path done : List V} {v : V}
    (hdepth : (untouched U path done).card < depth) (ht : Topo succ done)
    (ho : ∀ x ∈ path, x ∉ done) (hn : path.Nodup)
    (hc : (v :: path).IsChain fun a b => Edge succ b a) :
    (∃ d, visit succ depth path done v = .ok d) ↔
      ∀ x, Reach succ v x → x ∉ path ∧ ¬ OnCycle succ x := by
  constructor
  · rintro ⟨d, h⟩ x hvx
    have hg := visit_ok ht ho h
    have hx : x ∈ d := hg.topo.reach_mem (hg.covers v (List.mem_singleton.2 rfl)) hvx
    exact ⟨fun hp => hg.off x hp hx, hg.topo.not_onCycle hx⟩
  · intro hclear
    cases h : visit succ depth path done v with
    | ok d => exact ⟨d, rfl⟩
    | error e =>
      cases e with
      | limit => exact absurd h (visit_limit hU hdepth)
      | cycle p done₀ =>
        obtain ⟨x, q, -, hI⟩ := visit_cycle ht ho hn hc h
        obtain ⟨c, hvc, hcyc⟩ := hI.doomed
        exact absurd hcyc (hclear c hvc).2

/-! ## A whole sort -/

/-- **An interrupted sort** of `roots` returns the cyclic walk, and the vertices
finished when it was met. The walk ends at the root `r` that was being visited. -/
theorem visitList_cycle {depth : ℕ} {roots p done₀ : List V}
    (h : visitList succ depth [] [] roots = .error (.cycle p done₀)) :
    ∃ x q, p = x :: q ∧ CyclicWalk succ roots x q ∧ Topo succ done₀ ∧ (∀ y ∈ q, y ∉ done₀) ∧
      ∃ as r bs d, roots = as ++ r :: bs ∧ visitList succ depth [] [] as = .ok d ∧
        visit succ depth [] d r = .error (.cycle p done₀) ∧ r ∈ q.getLast? := by
  obtain ⟨as, r, bs, d, rfl, has, hr⟩ := visitList_error h
  have hg := visitList_ok .nil (by simp) has
  obtain ⟨x, q, rfl, hI⟩ := visit_cycle hg.topo (by simp) List.nodup_nil (by simp) hr
  refine ⟨x, q, rfl, hI.cyclicWalk ?_, hI.topo, hI.off, as, r, bs, d, rfl, has, hr, hI.last⟩
  exact ⟨as, bs, rfl, hI.doomed, fun b hb => hg.topo.not_doomed (hg.covers b hb)⟩

/-- **A sort completes exactly when no root reaches a cycle.** -/
theorem visitList_ok_iff {U : Finset V} (hU : ∀ v, v ∈ U) {depth : ℕ} (hdepth : U.card < depth)
    (roots : List V) :
    (∃ done, visitList succ depth [] [] roots = .ok done) ↔ ∀ r ∈ roots, ¬ Doomed succ r := by
  constructor
  · rintro ⟨done, h⟩ r hr
    have hg := visitList_ok .nil (by simp) h
    exact hg.topo.not_doomed (hg.covers r hr)
  · intro hr
    cases h : visitList succ depth [] [] roots with
    | ok done => exact ⟨done, rfl⟩
    | error e =>
      cases e with
      | limit =>
        exact absurd h (visitList_limit hU (lt_of_le_of_lt (untouched_card_le [] []) hdepth))
      | cycle p done₀ =>
        obtain ⟨x, q, -, hw, -⟩ := visitList_cycle h
        obtain ⟨r, -, hf⟩ := hw.root
        exact absurd hf.prop (hr r hf.mem)

end Linkerset.Graph
