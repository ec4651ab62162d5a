import Linkerset.Spec.ModuleInit
import Mathlib.Data.List.Nodup
import Mathlib.Data.List.Lemmas

/-!
# Turns of a loop over the table

Initialization and finalization each give the modules of a list their turn, one
after the other: a `NULL` function is passed over, a function that returns 0 lets
the loop go on, any other result ends it. `Turns` is such a run over a list of
modules, from a history of earlier calls.

* `Turns.complete`, `Turns.failed`: either every module has had its turn, or the
  last turn is the only one with a result other than 0.
* `Turns.split`: what the turns before a given one are.
-/

namespace Linkerset

open Linkerset.Graph

variable {M : Type*}

/-- A turn that lets the loop go on. -/
def Passed (r : Option ℤ) : Prop := r = none ∨ r = some 0

@[simp] theorem passed_none : Passed none := Or.inl rfl

@[simp] theorem passed_some {r : ℤ} : Passed (some r) ↔ r = 0 := by
  unfold Passed
  simp

theorem passed_cons {m : M} {r : Option ℤ} {T : List (M × Option ℤ)} :
    (∀ x ∈ (m, r) :: T, Passed x.2) ↔ Passed r ∧ ∀ x ∈ T, Passed x.2 :=
  List.forall_mem_cons

/-- When all turns pass, the last one has no result other than 0. -/
theorem eq_zero_of_last {T : List (M × Option ℤ)} {m : M} {r : ℤ}
    (hp : ∀ x ∈ T ++ [(m, some r)], Passed x.2) : r = 0 :=
  passed_some.1 (hp (m, some r) (List.mem_append_right T (List.mem_singleton.2 rfl)))

/-- **The turns that the modules of a list take**, when `fn` gives their functions
and `mk` records a call in the history. -/
inductive Turns (fn : M → Option (Callback M)) (mk : M → ℤ → Call M) :
    List (Call M) → List M → List (M × Option ℤ) → Prop
  | nil {h : List (Call M)} : Turns fn mk h [] []
  | null {h : List (Call M)} {m : M} {l : List M} {T : List (M × Option ℤ)} : fn m = none →
      Turns fn mk h l T → Turns fn mk h (m :: l) ((m, none) :: T)
  | pass {h : List (Call M)} {m : M} {l : List M} {T : List (M × Option ℤ)} {f : Callback M} :
      fn m = some f → f h = 0 → Turns fn mk (h ++ [mk m 0]) l T →
      Turns fn mk h (m :: l) ((m, some 0) :: T)
  | fail {h : List (Call M)} {m : M} {l : List M} {f : Callback M} : fn m = some f → f h ≠ 0 →
      Turns fn mk h (m :: l) [(m, some (f h))]

namespace Turns

variable {fn : M → Option (Callback M)} {mk : M → ℤ → Call M} {h : List (Call M)} {l : List M}
  {T : List (M × Option ℤ)}

/-- A turn has no result exactly for a `NULL` function. -/
theorem null_iff (ht : Turns fn mk h l T) : ∀ x ∈ T, x.2 = none ↔ fn x.1 = none := by
  induction ht with
  | nil => simp
  | null hm _ ih =>
    rw [List.forall_mem_cons]
    exact ⟨by simp [hm], ih⟩
  | pass hm _ _ ih =>
    rw [List.forall_mem_cons]
    exact ⟨by simp [hm], ih⟩
  | fail hm _ =>
    rw [List.forall_mem_singleton]
    simp [hm]

/-- The turns are taken from the front of the list. -/
theorem front (ht : Turns fn mk h l T) : T.map Prod.fst <+: l := by
  induction ht with
  | nil => simp
  | null _ _ ih => simpa using ih
  | pass _ _ _ ih => simpa using ih
  | fail _ _ => simp

/-- **A loop that is not ended has given every module its turn.** -/
theorem complete (ht : Turns fn mk h l T) (hp : ∀ x ∈ T, Passed x.2) : T.map Prod.fst = l := by
  induction ht with
  | nil => rfl
  | null _ _ ih =>
    have hrest := ih (passed_cons.1 hp).2
    rw [List.map_cons, hrest]
  | pass _ _ _ ih =>
    have hrest := ih (passed_cons.1 hp).2
    rw [List.map_cons, hrest]
  | fail _ hr =>
    exact absurd (eq_zero_of_last (T := []) hp) hr

/-- **A loop that is ended** is ended by its last turn, and by no earlier one. -/
theorem failed (ht : Turns fn mk h l T) (hp : ¬ ∀ x ∈ T, Passed x.2) :
    ∃ T₁ m r B, T = T₁ ++ [(m, some r)] ∧ r ≠ 0 ∧ (∀ x ∈ T₁, Passed x.2) ∧
      l = T₁.map Prod.fst ++ m :: B := by
  induction ht with
  | nil => simp at hp
  | @null h m l T hm ht ih =>
    have hp' : ¬ ∀ x ∈ T, Passed x.2 := fun hall => hp (passed_cons.2 ⟨passed_none, hall⟩)
    obtain ⟨T₁, m', r, B, rfl, hr, hall, rfl⟩ := ih hp'
    refine ⟨(m, none) :: T₁, m', r, B, rfl, hr, ?_, rfl⟩
    exact passed_cons.2 ⟨passed_none, hall⟩
  | @pass h m l T f hm hf ht ih =>
    have hp' : ¬ ∀ x ∈ T, Passed x.2 := fun hall =>
      hp (passed_cons.2 ⟨passed_some.2 rfl, hall⟩)
    obtain ⟨T₁, m', r, B, rfl, hr, hall, rfl⟩ := ih hp'
    refine ⟨(m, some 0) :: T₁, m', r, B, rfl, hr, ?_, rfl⟩
    exact passed_cons.2 ⟨passed_some.2 rfl, hall⟩
  | @fail h m l f hm hf => exact ⟨[], m, f h, l, rfl, hf, by simp, rfl⟩

/-- **Before a turn**, the modules in front have all passed. -/
theorem split (ht : Turns fn mk h l T) {T₁ T₂ : List (M × Option ℤ)} {x : M × Option ℤ}
    (hT : T = T₁ ++ x :: T₂) : (∀ y ∈ T₁, Passed y.2) ∧ ∃ B, l = T₁.map Prod.fst ++ x.1 :: B := by
  have hpass : ∀ y ∈ T₁, Passed y.2 := by
    by_cases hall : ∀ y ∈ T, Passed y.2
    · exact fun y hy => hall y (by simp [hT, hy])
    · obtain ⟨T₀, m, r, B, rfl, -, hp, -⟩ := ht.failed hall
      intro y hy
      -- the ending turn is the last one, so it is not in `T₁`
      rcases append_cons_eq_concat hT.symm with ⟨rfl, -, -⟩ | ⟨z, -, rfl⟩
      · exact hp y hy
      · exact hp y (List.mem_append_left _ hy)
  obtain ⟨B, hB⟩ := ht.front
  exact ⟨hpass, T₂.map Prod.fst ++ B, by rw [← hB, hT]; simp⟩

/-- Modules without a function pass their turns silently. -/
theorem of_null {A B : List M} (hA : ∀ m ∈ A, fn m = none) (ht : Turns fn mk h (A ++ B) T) :
    ∃ T', T = A.map (fun m => (m, none)) ++ T' ∧ Turns fn mk h B T' := by
  induction A generalizing T with
  | nil => exact ⟨T, rfl, ht⟩
  | cons m A ih =>
    cases ht with
    | null hm ht =>
      obtain ⟨T', rfl, hT'⟩ := ih (fun m hm => hA m (List.mem_cons_of_mem _ hm)) ht
      exact ⟨T', rfl, hT'⟩
    | pass hm _ _ => rw [hA m (by simp)] at hm; cases hm
    | fail hm _ => rw [hA m (by simp)] at hm; cases hm

/-- A module with a function is called in its turn. -/
theorem head_called {m : M} {B : List M} {f : Callback M} (hm : fn m = some f)
    (ht : Turns fn mk h (m :: B) T) : ∃ T', T = (m, some (f h)) :: T' := by
  cases ht with
  | null hm' _ => rw [hm] at hm'; cases hm'
  | pass hm' hf _ => rw [hm] at hm'; cases hm'; exact ⟨_, by rw [hf]⟩
  | fail hm' _ => rw [hm] at hm'; cases hm'; exact ⟨[], rfl⟩

/-- Functions that return 0 let the loop go on. -/
theorem passed (ht : Turns fn mk h l T) (hz : ∀ m f, fn m = some f → ∀ c, f c = 0) :
    ∀ x ∈ T, Passed x.2 := by
  induction ht with
  | nil => simp
  | null _ _ ih => exact passed_cons.2 ⟨passed_none, ih⟩
  | pass _ _ _ ih => exact passed_cons.2 ⟨passed_some.2 rfl, ih⟩
  | fail hm hr => exact absurd (hz _ _ hm _) hr

theorem nodup (ht : Turns fn mk h l T) (hl : l.Nodup) : (T.map Prod.fst).Nodup :=
  hl.sublist ht.front.sublist

end Turns

/-! ## The calls among the turns -/

theorem mem_called {T : List (M × Option ℤ)} {m : M} {r : ℤ} :
    (m, r) ∈ called T ↔ (m, some r) ∈ T := by
  simp only [called, List.mem_filterMap, Option.map_eq_some_iff, Prod.mk.injEq, Prod.exists]
  constructor
  · rintro ⟨m', r', hT, r'', rfl, rfl, rfl⟩; exact hT
  · intro hT; exact ⟨m, some r, hT, r, rfl, rfl, rfl⟩

theorem called_append (T T' : List (M × Option ℤ)) : called (T ++ T') = called T ++ called T' :=
  List.filterMap_append

/-- The modules called are a sublist of those that had a turn. -/
theorem called_sublist : ∀ T : List (M × Option ℤ), ((called T).map Prod.fst).Sublist (T.map Prod.fst) := by
  intro T
  induction T with
  | nil => simp [called]
  | cons x T ih =>
    obtain ⟨m, r⟩ := x
    cases r with
    | none => simpa [called] using ih.cons m
    | some r => simpa [called] using ih

/-- The modules called are those that had a turn and have a function. -/
theorem Turns.called_eq {fn : M → Option (Callback M)} {mk : M → ℤ → Call M} {h : List (Call M)}
    {l : List M} {T : List (M × Option ℤ)} (ht : Turns fn mk h l T) :
    (called T).map Prod.fst = (T.map Prod.fst).filter fun m => (fn m).isSome := by
  induction ht with
  | nil => rfl
  | null hm _ ih => simpa [called, hm] using ih
  | pass hm _ _ ih => simpa [called, hm] using ih
  | fail hm _ => simp [called, hm]

/-- A call splits the turns where it splits the calls. -/
theorem called_split {T : List (M × Option ℤ)} {C₁ C₂ : List (M × ℤ)} {m : M} {r : ℤ}
    (h : called T = C₁ ++ (m, r) :: C₂) :
    ∃ T₁ T₂, T = T₁ ++ (m, some r) :: T₂ ∧ called T₁ = C₁ := by
  obtain ⟨T₁, T', rfl, hT₁, hT'⟩ := List.filterMap_eq_append_iff.1 h
  obtain ⟨A, x, T₂, rfl, hA, hx, -⟩ := List.filterMap_eq_cons_iff.1 hT'
  obtain ⟨r', hr', hx'⟩ := Option.map_eq_some_iff.1 hx
  obtain ⟨m', r''⟩ := x
  cases hx'
  simp only at hr'
  subst hr'
  have hA' : called A = [] := List.filterMap_eq_nil_iff.2 hA
  refine ⟨T₁ ++ A, T₂, by simp, ?_⟩
  rw [called_append, hA', List.append_nil]
  exact hT₁

end Linkerset
