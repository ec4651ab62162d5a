import Linkerset.Proof.InitCalls

/-!
# Two ways to a sorted table

`module_initialization` finds out about a failed `calloc` from the table itself;
`print_order.c` asks the handle, which `module_handle_initialize` never sets to
`IR_MEMORY`.

* `paths_agree_iff`: the two ways agree, and tell of a failed allocation, exactly when
  the linkerset has modules and the allocation succeeds.
-/

namespace Linkerset

open Linkerset.Graph

variable {M : Type*} [DecidableEq M] {P : ModuleSet M} {a : Alloc} {ih : Handle M}

/-- The handle of `print_order.c` never says that there is no memory. -/
theorem printOrderSort_eq :
    printOrderSort P a (State.boot ih) = topologicalSortModules P (P.fresh a ih) := by
  unfold printOrderSort
  exact if_pos (by simp [moduleHandleInitialize])

/-- **The two ways agree**, both without a fault, and say `IR_MEMORY` exactly when an
allocation that was needed has failed. -/
def ModuleSet.PathsAgree (P : ModuleSet M) (a : Alloc) (ih : Handle M) : Prop :=
  ∃ s₁ s₂, moduleInitialization P a (State.boot ih) = .ok s₁ ∧
    printOrderSort P a (State.boot ih) = .ok s₂ ∧
    s₁.handle.initState = s₂.handle.initState ∧
    (s₁.handle.initState = .memory ↔ P.linkerset ≠ [] ∧ a = .null)

/-- Without modules, the table is `NULL`, and `module_initialization` takes this for a
failure. -/
theorem moduleInitialization_nil (hnil : P.linkerset = []) {s₁ : State M}
    (hrun : moduleInitialization P a (State.boot ih) = .ok s₁) : s₁.handle.initState = .memory := by
  unfold moduleInitialization at hrun
  simp only [hnil, moduleHandleInitialize, List.length_nil, ne_eq, not_true_eq_false, if_false] at hrun
  cases hrun
  rfl

/-- **The two ways agree** exactly when there are modules, and memory for them. -/
theorem paths_agree_iff (hac : ¬ P.Cyclic) (hzero : ∀ m f, P.initFn m = some f → ∀ h, f h = 0)
    (ha : a ≠ .unbounded) (ih : Handle M) :
    P.PathsAgree a ih ↔ P.linkerset ≠ [] ∧ a = .exact := by
  constructor
  · rintro ⟨s₁, s₂, hinit, horder, -, hmem⟩
    have hne : P.linkerset ≠ [] := by
      intro hnil
      have hs : s₁.handle.initState = .memory := moduleInitialization_nil hnil hinit
      exact (hmem.1 hs).1 hnil
    refine ⟨hne, ?_⟩
    cases a with
    | exact => rfl
    | unbounded => exact absurd rfl ha
    | null =>
      obtain ⟨e, he⟩ := topologicalSortModules_null hne ih
      rw [printOrderSort_eq, he] at horder
      cases horder
  · rintro ⟨hne, rfl⟩
    obtain ⟨s₁, ord, T, hI⟩ := moduleInitialization_acyclic hac hne ih
    obtain ⟨s₂, ord₂, -, hsort, -, -, -, hw⟩ := sort_acyclic (a := .exact) (by decide) hac ih
    have hpass : ∀ x ∈ T, Passed x.2 := hI.turns.passed hzero
    have hs₁ : s₁.handle.initState = .success := (hI.success hpass).1
    have hs₂ : s₂.handle.initState = .success := hw.result
    have horder : printOrderSort P .exact (State.boot ih) = .ok s₂ := printOrderSort_eq.trans hsort
    refine ⟨s₁, s₂, hI.run, horder, hs₁.trans hs₂.symm, ?_⟩
    rw [hs₁]
    constructor
    · intro h; cases h
    · rintro ⟨-, h⟩; cases h

theorem paths_agree_iff_example : (exampleProgram fun _ => 0).PathsAgree .null default ↔
    (exampleProgram fun _ => 0).linkerset ≠ [] ∧ Alloc.null = .exact :=
  paths_agree_iff (exampleProgram_acyclic _) exampleProgram_init_zero (by decide) default

/-- When `calloc` fails, `module_initialization` says so, and `print_order.c` stores
through the `NULL` table. -/
theorem exampleProgram_paths_differ : ¬ (exampleProgram fun _ => 0).Cyclic ∧
    (∃ s₁, moduleInitialization (exampleProgram fun _ => 0) .null (State.boot default) = .ok s₁ ∧
      s₁.handle.initState = .memory) ∧
    (∃ s₂, printOrderSort (exampleProgram fun _ => 0) .null (State.boot default) =
      .error (.nullTable, s₂)) ∧
    ¬ (exampleProgram fun _ => 0).PathsAgree .null default := by
  refine ⟨exampleProgram_acyclic _, ⟨_, rfl, rfl⟩, ⟨_, rfl⟩, ?_⟩
  rintro ⟨s₁, s₂, -, horder, -⟩
  cases horder

end Linkerset
