import Linkerset.Graph.Reach
import Mathlib.Data.Set.Insert

/-!
# Starting and stopping what depends on each other

The state of this machine is the set of vertices that are up. A vertex may be started
when all that it depends on is up, and stopped when nothing that is up depends on it. An
attempt may fail, and then changes nothing.

* `Run.closed`: whatever is done, all that something up depends on is up.
* `Run.starts`, `Run.stops`: a topological list can be started from front to back, and
  stopped from back to front.
-/

namespace Linkerset.Graph.Live

variable {V : Type*}

/-- What is done to a vertex, and whether it succeeds. -/
inductive Action (V : Type*) where
  | start (v : V) (ok : Bool)
  | stop (v : V) (ok : Bool)

variable (dep : V → V → Prop)

/-- `v` is down, and all it depends on is up. -/
structure MayStart (live : Set V) (v : V) : Prop where
  down : v ∉ live
  deps : ∀ w, dep v w → w ∈ live

/-- `v` is up, and nothing that is up depends on it. -/
structure MayStop (live : Set V) (v : V) : Prop where
  up : v ∈ live
  users : ∀ u ∈ live, ¬ dep u v

/-- **One action**, allowed in `live`. -/
inductive Step : Set V → Action V → Set V → Prop
  | started {live : Set V} {v : V} : MayStart dep live v → Step live (.start v true) (insert v live)
  | startFailed {live : Set V} {v : V} : MayStart dep live v → Step live (.start v false) live
  | stopped {live : Set V} {v : V} : MayStop dep live v → Step live (.stop v true) (live \ {v})
  | stopFailed {live : Set V} {v : V} : MayStop dep live v → Step live (.stop v false) live

/-- **A run of the machine.** -/
inductive Run : Set V → List (Action V) → Set V → Prop
  | nil {live : Set V} : Run live [] live
  | cons {live live₁ live₂ : Set V} {a : Action V} {as : List (Action V)} :
      Step dep live a live₁ → Run live₁ as live₂ → Run live (a :: as) live₂

/-- All that something up depends on is up. -/
def Closed (live : Set V) : Prop := ∀ v ∈ live, ∀ w, dep v w → w ∈ live

variable {dep} {live live₁ live₂ : Set V} {a : Action V} {as bs : List (Action V)}

theorem closed_empty : Closed dep (∅ : Set V) := fun _ hv => absurd hv (Set.notMem_empty _)

/-- **An action keeps the machine closed.** -/
theorem Step.closed (h : Step dep live a live₁) (hc : Closed dep live) : Closed dep live₁ := by
  cases h with
  | started hs =>
    rintro v (rfl | hv) w hw
    · exact Set.mem_insert_of_mem _ (hs.deps w hw)
    · exact Set.mem_insert_of_mem _ (hc v hv w hw)
  | startFailed _ => exact hc
  | stopped hs =>
    rintro v ⟨hv, -⟩ w hw
    refine ⟨hc v hv w hw, fun hwv => ?_⟩
    rw [Set.mem_singleton_iff] at hwv
    subst hwv
    exact hs.users v hv hw
  | stopFailed _ => exact hc

/-- **A run keeps the machine closed.** -/
theorem Run.closed (h : Run dep live as live₁) (hc : Closed dep live) : Closed dep live₁ := by
  induction h with
  | nil => exact hc
  | cons hs _ ih => exact ih (hs.closed hc)

theorem Run.single (h : Step dep live a live₁) : Run dep live [a] live₁ := .cons h .nil

theorem Run.append (h : Run dep live as live₁) (h' : Run dep live₁ bs live₂) :
    Run dep live (as ++ bs) live₂ := by
  induction h with
  | nil => exact h'
  | cons hs _ ih => exact .cons hs (ih h')

/-- A run can be looked at in the middle. -/
theorem Run.split (h : Run dep live (as ++ bs) live₂) :
    ∃ live₁, Run dep live as live₁ ∧ Run dep live₁ bs live₂ := by
  induction as generalizing live with
  | nil => exact ⟨live, .nil, h⟩
  | cons a as ih =>
    cases h with
    | cons hs hr =>
      obtain ⟨live₁, h₁, h₂⟩ := ih hr
      exact ⟨live₁, .cons hs h₁, h₂⟩

/-! ## Topological lists -/

section Topo

variable {succ : V → List V} {A B : List V} {v : V}

/-- Behind the elements in front of it, an element may be started. -/
theorem mayStart_of_topo (h : Topo succ (A ++ v :: B)) :
    MayStart (ReachPlus succ) {x | x ∈ A} v :=
  ⟨h.split.2.1, fun _ hw => h.before hw⟩

/-- The last element may be stopped. -/
theorem mayStop_of_topo (h : Topo succ (A ++ [v])) :
    MayStop (ReachPlus succ) {x | x ∈ A ++ [v]} v where
  up := List.mem_append_right _ (List.mem_singleton.2 rfl)
  users := fun _ hu hd => List.not_mem_nil (h.after hu hd)

/-- **Everything is started from front to back.** -/
theorem Run.starts (h : Topo succ A) :
    Run (ReachPlus succ) ∅ (A.map fun x => .start x true) {x | x ∈ A} := by
  induction A using List.reverseRecOn with
  | nil =>
    have hempty : {x : V | x ∈ ([] : List V)} = ∅ := by ext x; simp
    rw [hempty]
    exact .nil
  | append_singleton l x ih =>
    have hset : {y | y ∈ l ++ [x]} = insert x {y | y ∈ l} := by ext y; simp [or_comm]
    rw [hset, List.map_append]
    exact (ih h.left_of_append).append (.single (.started (mayStart_of_topo h)))

/-- **Everything is stopped from back to front.** -/
theorem Run.stops (h : Topo succ (A ++ B)) :
    Run (ReachPlus succ) {x | x ∈ A ++ B} (B.reverse.map fun x => .stop x true) {x | x ∈ A} := by
  induction B using List.reverseRecOn with
  | nil => rw [List.append_nil]; exact .nil
  | append_singleton l x ih =>
    rw [← List.append_assoc] at h ⊢
    have hx : x ∉ A ++ l := h.snoc_inv.2.1
    have hset : {y | y ∈ A ++ l ++ [x]} \ {x} = {y | y ∈ A ++ l} := by
      ext y
      simp only [Set.mem_sdiff, Set.mem_ofPred_eq, Set.mem_singleton_iff, List.mem_append (t := [x]),
        List.mem_singleton]
      constructor
      · rintro ⟨hy | hy, hne⟩
        · exact hy
        · exact absurd hy hne
      · intro hy
        exact ⟨Or.inl hy, fun hyx => hx (hyx ▸ hy)⟩
    rw [List.reverse_append, List.reverse_singleton, List.singleton_append, List.map_cons]
    have hrest := ih h.left_of_append
    rw [← hset] at hrest
    exact .cons (.stopped (mayStop_of_topo h)) hrest

end Topo

end Linkerset.Graph.Live
