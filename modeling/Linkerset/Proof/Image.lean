import Linkerset.Spec.Image
import Linkerset.Proof.Orders
import Linkerset.Proof.PrintOrder

/-!
# From linkersets in memory to lists

* `mains_refine`: **both programs do the same with the linkersets in memory as with the lists
  they hold**; so all that is proved about the lists is true of the pointers.
* `image_lays`: every program has a memory.
* `linkersetSort_canonical`: after `LINKERSET_SORT`, the link order does not matter.
* `linkersetSort_order`: any order of the modules in which imports come first can be chosen by
  `LINKERSET_SORT`.
-/

namespace Linkerset

open Linkerset.Pointer

variable {M : Type*} {I I' : Image M} {P : ModuleSet M}

/-! ## The loops -/

theorem Image.linkersetIterate_eq {name : Pointer.Range} {l : List M}
    (h : Pointer.Holds I.memory name l)
    (body : M → (State M → Exec M (State M)) → State M → Exec M (State M))
    (done : State M → Exec M (State M)) (s : State M) :
    I.linkersetIterate name body done s = walk body done l s := scan_eq_walk h s

/-- The size that is computed from the bounds is the number of modules. -/
theorem Image.Lays.size (h : I.Lays P) : linkersetSize I.moduleInitInfo = P.linkerset.length := by
  have hfits := P.fits
  unfold linkersetSize
  rw [h.moduleInitInfo.size]
  exact Nat.mod_eq_of_lt (by omega)

/-- The loop that prints imports. -/
theorem walk_importLineBody {w : Widths} : ∀ (l : List M) (s : State M),
    walk (importLineBody P w) .ok l s = .ok (printImports P w l s) := by
  intro l
  induction l with
  | nil => intro s; rfl
  | cons imp l ih => intro s; exact ih _

section Sorting

variable [DecidableEq M]

/-- The loop over imports. -/
theorem walk_importBody {sort : State M → M → Exec M (State M)} {mip : M} : ∀ l : List M,
    walk (importBody sort mip) (appendModule mip) l = sortImports sort mip l := by
  intro l
  induction l with
  | nil => rfl
  | cons impp l ih =>
    funext s
    rw [walk, ih]
    rfl

/-- **`topological_sort_module`** does not see the difference. -/
theorem Image.Lays.topologicalSortModule (h : I.Lays P) : ∀ depth,
    I.topologicalSortModule depth = Linkerset.topologicalSortModule P depth := by
  intro depth
  induction depth with
  | zero => rfl
  | succ depth ih =>
    funext s mip
    rw [Image.topologicalSortModule, Linkerset.topologicalSortModule]
    cases s.marks mip with
    | initializing => rfl
    | initialized => rfl
    | uninitialized =>
      dsimp only
      rw [I.linkersetIterate_eq (h.imports mip), walk_importBody, ih]

/-- The loop over `module_init_info`. -/
theorem walk_sortBody : ∀ l : List M,
    walk (sortBody (topologicalSortModule P P.depth)) assertFull l = sortLinkerset P l := by
  intro l
  induction l with
  | nil => rfl
  | cons mi l ih =>
    funext s
    rw [walk, ih]
    rfl

/-- **`topological_sort_modules`** -/
theorem Image.Lays.topologicalSortModules (h : I.Lays P) (s : State M) :
    I.topologicalSortModules s = Linkerset.topologicalSortModules P s := by
  have hdepth : linkersetSize I.moduleInitInfo + 1 = P.depth := by rw [h.size]; rfl
  unfold Image.topologicalSortModules Linkerset.topologicalSortModules
  rw [I.linkersetIterate_eq h.moduleInitInfo, hdepth, h.topologicalSortModule, walk_sortBody]

/-- **`module_initialization`** -/
theorem Image.Lays.moduleInitialization (h : I.Lays P) (a : Alloc) (s : State M) :
    I.moduleInitialization P a s = Linkerset.moduleInitialization P a s := by
  unfold Image.moduleInitialization Linkerset.moduleInitialization
  rw [h.size]
  dsimp only
  cases (moduleHandleInitialize a s P.linkerset.length).handle.table with
  | none => rfl
  | some t =>
    dsimp only
    rw [h.topologicalSortModules]

end Sorting

/-- The second loop of `print_order.c`. -/
theorem Image.Lays.printTable (h : I.Lays P) {N : FunctionNames P} {w : Widths} : ∀ (n : ℕ)
    (s : State M), I.printTable N w n s = Linkerset.printTable N w n s := by
  intro n
  induction n with
  | zero => intro s; rfl
  | succ n ih =>
    intro s
    rw [Image.printTable, Linkerset.printTable]
    split
    · cases hload : s.load s.handle.tableIndex with
      | error e => rfl
      | ok entry =>
        obtain ⟨mip, s₁⟩ := entry
        simp only [bind, Except.bind, I.linkersetIterate_eq (h.imports mip), walk_importLineBody, ih]
    · rfl

/-- **`case IR_SUCCESS`** of `print_order.c` -/
theorem Image.Lays.printOrder (h : I.Lays P) (N : FunctionNames P) (s : State M) :
    I.printOrder N s = Linkerset.printOrder N s := by
  unfold Image.printOrder Linkerset.printOrder
  simp only [h.printTable]

/-! ## `main` -/

variable [DecidableEq M]

theorem Image.Lays.exampleMain (h : I.Lays P) (a : Alloc) (s : State M) :
    I.exampleMain P a s = Linkerset.exampleMain P a s := by
  unfold Image.exampleMain Linkerset.exampleMain
  rw [h.moduleInitialization]

theorem Image.Lays.printOrderSort (h : I.Lays P) (a : Alloc) (s : State M) :
    I.printOrderSort a s = Linkerset.printOrderSort P a s := by
  unfold Image.printOrderSort Linkerset.printOrderSort
  rw [h.size]
  simp only [h.topologicalSortModules]

omit [DecidableEq M] in
theorem Image.Lays.printOrderResult (h : I.Lays P) (N : FunctionNames P) (s : State M) :
    I.printOrderResult N s = Linkerset.printOrderResult N s := by
  unfold Image.printOrderResult Linkerset.printOrderResult
  cases s.handle.initState with
  | success => exact h.printOrder N s
  | cycle | failed | memory => rfl

theorem Image.Lays.printOrderMain (h : I.Lays P) (N : FunctionNames P) (a : Alloc) (s : State M) :
    I.printOrderMain N a s = Linkerset.printOrderMain N a s := by
  unfold Image.printOrderMain Linkerset.printOrderMain
  simp only [h.printOrderSort, h.printOrderResult]

/-- **Pointers and lists**: over a memory in which the program `P` stands, `main` of `example.c` and
`main` of `print_order.c` do what they do over the lists of `P`. -/
theorem mains_refine (h : I.Lays P) (N : FunctionNames P) (a : Alloc) (s : State M) :
    I.exampleMain P a s = exampleMain P a s ∧ I.printOrderMain N a s = printOrderMain N a s :=
  ⟨h.exampleMain a s, h.printOrderMain N a s⟩

/-! ## A memory for a program -/

/-- The imports that stand in front of those of `m`. -/
def ModuleSet.importsBefore (P : ModuleSet M) (m : M) : List M :=
  (P.linkerset.takeWhile (· ≠ m)).flatMap P.imports

/-- **A memory for `P`**: its linkersets, one behind the other. -/
def ModuleSet.image (P : ModuleSet M) : Image M where
  memory := words (P.linkerset ++ P.linkerset.flatMap P.imports)
  moduleInitInfo := ⟨0, wordSize * P.linkerset.length⟩
  imports m := ⟨wordSize * (P.linkerset ++ P.importsBefore m).length,
    wordSize * ((P.linkerset ++ P.importsBefore m).length + (P.imports m).length)⟩

theorem image_lays (P : ModuleSet M) : P.image.Lays P where
  moduleInitInfo := by
    have h := holds_words [] P.linkerset (P.linkerset.flatMap P.imports)
    rw [List.nil_append, List.length_nil, Nat.mul_zero, Nat.zero_add] at h
    exact h
  imports m := by
    obtain ⟨front, rest, hls, hm⟩ := List.eq_append_cons_of_mem (P.complete m)
    have hfront : P.linkerset.takeWhile (· ≠ m) = front := by
      have hne : ∀ x ∈ front, decide (x ≠ m) = true := fun x hx =>
        decide_eq_true fun h => hm (h ▸ hx)
      rw [hls, List.takeWhile_append_of_pos hne]
      simp
    have hflat : P.linkerset.flatMap P.imports =
        P.importsBefore m ++ P.imports m ++ rest.flatMap P.imports := by
      rw [ModuleSet.importsBefore, hfront, hls, List.flatMap_append, List.flatMap_cons,
        List.append_assoc]
    have h := holds_words (P.linkerset ++ P.importsBefore m) (P.imports m) (rest.flatMap P.imports)
    have hmem : P.linkerset ++ P.linkerset.flatMap P.imports =
        P.linkerset ++ P.importsBefore m ++ P.imports m ++ rest.flatMap P.imports := by
      rw [hflat]
      simp only [List.append_assoc]
    unfold ModuleSet.image
    rw [hmem]
    exact h
  apart m := by
    have hlen : P.linkerset.length ≤ (P.linkerset ++ P.importsBefore m).length := by
      rw [List.length_append]
      omega
    exact Or.inl (Nat.mul_le_mul_left _ hlen)

theorem mains_refine_example :
    (exampleProgram fun _ => 0).image.exampleMain (exampleProgram fun _ => 0) .exact
        (State.boot default) =
      exampleMain (exampleProgram fun _ => 0) .exact (State.boot default) ∧
    (exampleProgram fun _ => 0).image.printOrderMain exampleNames .exact (State.boot default) =
      printOrderMain exampleNames .exact (State.boot default) :=
  mains_refine (image_lays _) exampleNames .exact (State.boot default)

/-! ## `LINKERSET_SORT` -/

variable {compare : M → M → ℤ} {l : List M}

omit [DecidableEq M] in
/-- **After `LINKERSET_SORT`** a program stands in memory as if it had been linked in that order. -/
theorem Image.Lays.sorted (h : I.Lays P) (hs : I.LinkersetSort compare I') :
    ∃ l, ∃ hp : l.Perm P.linkerset, (l.Pairwise fun x y => compare x y ≤ 0) ∧
      I'.Lays (P.relink l hp) := by
  obtain ⟨l, hl, hp, hsorted⟩ := hs.memory.words _ h.moduleInitInfo
  refine ⟨l, hp, hsorted, ?_, fun m => ?_, fun m => ?_⟩
  · rw [hs.moduleInitInfo]
    exact hl
  · rw [hs.imports]
    exact hs.memory.frame h.moduleInitInfo (h.imports m) (h.apart m)
  · rw [hs.moduleInitInfo, hs.imports]
    exact h.apart m

/-- The same functions, linked in another order. -/
def FunctionNames.relink (N : FunctionNames P) (l : List M) (h : l.Perm P.linkerset) :
    FunctionNames (P.relink l h) where
  initFnName := N.initFnName
  finaFnName := N.finaFnName
  identifier := N.identifier
  stringized := N.stringized
  fits := N.fits

section Relink

variable (h : l.Perm P.linkerset) (N : FunctionNames P)

theorem initializeTable_relink : ∀ (n : ℕ) (s : State M),
    initializeTable (P.relink l h) n s = initializeTable P n s := by
  intro n
  induction n with
  | zero => intro s; rfl
  | succ n ih => intro s; simp only [initializeTable, ih]; rfl

omit [DecidableEq M] in
theorem finalizeTable_relink : ∀ (i : ℕ) (s : State M),
    finalizeTable (P.relink l h) i s = finalizeTable P i s := by
  intro i
  induction i with
  | zero => intro s; rfl
  | succ i ih =>
    intro s
    have hnext : finalizeTable (P.relink l h) i = finalizeTable P i := funext ih
    rw [finalizeTable, finalizeTable, hnext]
    rfl

omit [DecidableEq M] in
theorem measureTable_relink : ∀ (n : ℕ) (w : Widths) (s : State M),
    measureTable (N.relink l h) n w s = measureTable N n w s := by
  intro n
  induction n with
  | zero => intro w s; rfl
  | succ n ih => intro w s; simp only [measureTable, ih]; rfl

omit [DecidableEq M] in
theorem Image.printTable_relink (w : Widths) : ∀ (n : ℕ) (s : State M),
    I.printTable (N.relink l h) w n s = I.printTable N w n s := by
  intro n
  induction n with
  | zero => intro s; rfl
  | succ n ih => intro s; simp only [Image.printTable, ih]; rfl

/-- `main` of `example.c` sees the linkersets in memory only. -/
theorem Image.exampleMain_relink (a : Alloc) (s : State M) :
    I.exampleMain (P.relink l h) a s = I.exampleMain P a s := by
  have hinit : ∀ s, I.moduleInitialization (P.relink l h) a s = I.moduleInitialization P a s := by
    intro s
    unfold Image.moduleInitialization
    simp only [initializeTable_relink]
  have hfina : ∀ s, finalizeResult (P.relink l h) s = finalizeResult P s := by
    intro s
    unfold finalizeResult moduleFinalization
    simp only [finalizeTable_relink]
  unfold Image.exampleMain
  simp only [hinit, hfina]
  rfl

/-- So does `main` of `print_order.c`. -/
theorem Image.printOrderMain_relink (a : Alloc) (s : State M) :
    I.printOrderMain (N.relink l h) a s = I.printOrderMain N a s := by
  unfold Image.printOrderMain Image.printOrderResult Image.printOrder
  simp only [measureTable_relink, Image.printTable_relink]
  rfl

end Relink

/-- The memory of `P` when its linkerset has become `l`. -/
def ModuleSet.sortedImage (P : ModuleSet M) (l : List M) : Image M :=
  { P.image with memory := words (l ++ P.linkerset.flatMap P.imports) }

theorem image_linkersetSort (hp : l.Perm P.linkerset)
    (hs : l.Pairwise fun x y => compare x y ≤ 0) :
    P.image.LinkersetSort compare (P.sortedImage l) where
  moduleInitInfo := rfl
  imports := rfl
  memory := qsorted_words hp hs _

/-- An order of the modules of `example`, in which imports come first. -/
def compareExample (x y : ExampleModule) : ℤ := rank x - rank y
where
  rank : ExampleModule → ℤ
    | .modB => 0
    | .modA => 1
    | .modC => 2

theorem relinkedExample_perm :
    [ExampleModule.modA, .modB, .modC].Perm (exampleProgram fun _ => 0).linkerset := by decide

/-- `example`, linked in another order. -/
def relinkedExample : ModuleSet ExampleModule :=
  (exampleProgram fun _ => 0).relink [.modA, .modB, .modC] relinkedExample_perm

theorem exampleProgram_linkersetSort : (exampleProgram fun _ => 0).image.LinkersetSort
    compareExample ((exampleProgram fun _ => 0).sortedImage [.modB, .modA, .modC]) :=
  image_linkersetSort (by decide) (by decide)

theorem relinkedExample_linkersetSort : relinkedExample.image.LinkersetSort
    compareExample (relinkedExample.sortedImage [.modB, .modA, .modC]) :=
  image_linkersetSort (by decide) (by decide)

/-- **The link order does not matter after `LINKERSET_SORT`**: when the same object files are linked
in two orders, and both linkersets are sorted by an order that tells the modules apart, then
both programs do the same. -/
theorem linkersetSort_canonical {J J' : Image M} (hl : l.Perm P.linkerset) (hI : I.Lays P)
    (hJ : J.Lays (P.relink l hl)) (hanti : ∀ x y, compare x y ≤ 0 → compare y x ≤ 0 → x = y)
    (hs : I.LinkersetSort compare I') (hs' : J.LinkersetSort compare J') (N : FunctionNames P)
    (a : Alloc) (s : State M) :
    I'.exampleMain P a s = J'.exampleMain P a s ∧
      I'.printOrderMain N a s = J'.printOrderMain N a s := by
  obtain ⟨l₁, hp₁, hsorted₁, h₁⟩ := hI.sorted hs
  obtain ⟨l₂, hp₂, hsorted₂, h₂⟩ := hJ.sorted hs'
  obtain rfl : l₁ = l₂ := List.Perm.eq_of_pairwise (fun x y _ _ => hanti x y) hsorted₁ hsorted₂
    (hp₁.trans (hp₂.trans hl).symm)
  constructor
  · rw [← I'.exampleMain_relink hp₁, h₁.exampleMain, ← J'.exampleMain_relink (hp₂.trans hl)]
    exact (h₂.exampleMain a s).symm
  · rw [← I'.printOrderMain_relink hp₁, h₁.printOrderMain,
      ← J'.printOrderMain_relink (hp₂.trans hl)]
    exact (h₂.printOrderMain ((N.relink l hl).relink l₁ hp₂) a s).symm

theorem linkersetSort_canonical_example :
    ((exampleProgram fun _ => 0).sortedImage [.modB, .modA, .modC]).exampleMain
        (exampleProgram fun _ => 0) .exact (State.boot default) =
      (relinkedExample.sortedImage [.modB, .modA, .modC]).exampleMain
        (exampleProgram fun _ => 0) .exact (State.boot default) ∧
    ((exampleProgram fun _ => 0).sortedImage [.modB, .modA, .modC]).printOrderMain
        exampleNames .exact (State.boot default) =
      (relinkedExample.sortedImage [.modB, .modA, .modC]).printOrderMain
        exampleNames .exact (State.boot default) :=
  linkersetSort_canonical relinkedExample_perm (image_lays _) (image_lays relinkedExample)
    (by intro x y; cases x <;> cases y <;> decide) exampleProgram_linkersetSort
    relinkedExample_linkersetSort exampleNames .exact (State.boot default)

/-- **Any order in which imports come first** can be chosen: the sort keeps it. -/
theorem linkersetSort_order (hI : I.Lays P) (hs : I.LinkersetSort compare I')
    (hrefl : ∀ m, compare m m = 0) (himports : ∀ m, ∀ i ∈ P.imports m, 0 < compare m i)
    (ih : Handle M) :
    ∃ s', ∃ ord : List M, I'.topologicalSortModules (P.fresh .exact ih) = .ok s' ∧
      s'.handle.initState = .success ∧ s'.entries = ord.map some ∧ ord.Perm P.linkerset ∧
      ord.Pairwise fun x y => compare x y ≤ 0 := by
  obtain ⟨l, hp, hsorted, h⟩ := hI.sorted hs
  have hfirst : (P.relink l hp).ImportsFirst (P.relink l hp).linkerset := by
    rintro A m B hAB i hi
    have hls : l = A ++ m :: B := hAB
    have hlt := himports m i hi
    have hmem : i ∈ A ++ m :: B := hls ▸ hp.mem_iff.2 (P.complete i)
    rcases List.mem_append.1 hmem with hA | hB
    · exact hA
    · rcases List.mem_cons.1 hB with rfl | hB
      · rw [hrefl] at hlt
        omega
      · rw [hls, List.pairwise_append] at hsorted
        have hle := (List.pairwise_cons.1 hsorted.2.1).1 i hB
        omega
  have hfresh : (P.relink l hp).fresh .exact ih = P.fresh .exact ih := by
    unfold ModuleSet.fresh
    rw [← hp.length_eq]
    rfl
  obtain ⟨s', hrun, hres, he⟩ := hfirst.sortsTo ih
  rw [hfresh, ← h.topologicalSortModules] at hrun
  exact ⟨s', l, hrun, hres, he, hp, hsorted⟩

theorem linkersetSort_order_example :
    ∃ s', ∃ ord : List ExampleModule,
      ((exampleProgram fun _ => 0).sortedImage [.modB, .modA, .modC]).topologicalSortModules
          ((exampleProgram fun _ => 0).fresh .exact default) = .ok s' ∧
        s'.handle.initState = .success ∧ s'.entries = ord.map some ∧
        ord.Perm [.modB, .modC, .modA] ∧ ord.Pairwise fun x y => compareExample x y ≤ 0 :=
  linkersetSort_order (image_lays (exampleProgram fun _ => 0)) exampleProgram_linkersetSort
    (by intro m; cases m <;> rfl) (by intro m; cases m <;> decide) default

end Linkerset
