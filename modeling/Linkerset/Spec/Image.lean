import Linkerset.Pointer.Range
import Linkerset.Spec.PrintOrder

/-!
# Linkersets in memory (`linkerset.h`)

The code does not see lists. A linkerset is a range of memory, between two symbols that the
linker defines, and it is gone through with a pointer. An `Image` is what the linker leaves:
the pointers in memory, the bounds of `module_init_info`, and the bounds of the imports in
every descriptor. Here is the code that goes through linkersets, over an `Image`; what it does
in between, and all that it does to the table, is the code of `Spec.ModuleInit` and
`Spec.PrintOrder`.
-/

namespace Linkerset

open Linkerset.Pointer

/-- `module_import_info_t` -/
abbrev ModuleImportInfo := Pointer.Range

/-- **The memory that the linker leaves.** -/
structure Image (M : Type*) where
  /-- The pointers to descriptors, by the address they are at. -/
  memory : ℕ → Option M
  /-- `__start_module_init_info`, `__stop_module_init_info` -/
  moduleInitInfo : Pointer.Range
  imports : M → ModuleImportInfo

/-- `LINKERSET_SIZE(name, unsigned)` -/
def linkersetSize (name : Pointer.Range) : ℕ := name.size % (uintMax + 1)

section Operations

variable {M : Type*} (I : Image M)

/-- `LINKERSET_ITERATE`, and the loops over imports: `while (p < stop) { body; p += sizeof(void *); }`.
The body is given the rest of the loop. -/
def Image.linkersetIterate (name : Pointer.Range)
    (body : M → (State M → Exec M (State M)) → State M → Exec M (State M))
    (done : State M → Exec M (State M)) : State M → Exec M (State M) :=
  scan I.memory (fun p s => .error (.nullEntry p, s)) body done name.stop name.start

section Sorting

variable [DecidableEq M]

/-- The body of the loop over the imports of `mip`; `sort` is the recursive call. -/
def importBody (sort : State M → M → Exec M (State M)) (mip impp : M)
    (next : State M → Exec M (State M)) (s : State M) : Exec M (State M) := do
  let s ← sort s impp
  match s.handle.initState with
  | .cycle => do
    let s ← s.store s.handle.tableIndex mip
    return s.setIndex (s.handle.tableIndex + 1)
  | .success => next s
  | _ => return s

/-- `topological_sort_module` -/
def Image.topologicalSortModule : ℕ → State M → M → Exec M (State M)
  | 0, s, _ => .error (.limit, s)
  | depth + 1, s, mip =>
    match s.marks mip with
    | .initializing => do
      let s ← (s.setResult .cycle).store 0 mip
      return s.setIndex 1
    | .uninitialized =>
      I.linkersetIterate (I.imports mip) (importBody (Image.topologicalSortModule depth) mip)
        (appendModule mip) (s.setMark mip .initializing)
    | .initialized => .ok s

omit [DecidableEq M] in
/-- The body of the loop in `topological_sort_modules`. -/
def sortBody (sort : State M → M → Exec M (State M)) (mi : M) (next : State M → Exec M (State M))
    (s : State M) : Exec M (State M) := do
  let s ← sort s mi
  if s.handle.initState ≠ .success then return s
  next s

/-- `topological_sort_modules` -/
def Image.topologicalSortModules (s : State M) : Exec M (State M) :=
  I.linkersetIterate I.moduleInitInfo
    (sortBody (I.topologicalSortModule (linkersetSize I.moduleInitInfo + 1))) assertFull s

end Sorting

variable (P : ModuleSet M)

/-- `module_initialization` -/
def Image.moduleInitialization [DecidableEq M] (a : Alloc) (s : State M) : Exec M (State M) := do
  let s := moduleHandleInitialize a s (linkersetSize I.moduleInitInfo)
  match s.handle.table with
  | none => return s.setResult .memory
  | some _ => do
    let s ← I.topologicalSortModules s
    initializeTable P (s.handle.tableSize + 1) (s.setIndex 0)

/-- `main` of `example.c` -/
def Image.exampleMain [DecidableEq M] (a : Alloc) (s : State M) : Exec M (State M) := do
  let s ← I.moduleInitialization P a (s.log (.print "*** Initializing modules.\n"))
  let s ← printResult P s
  let s ← finalizeResult P s
  return moduleHandleFinalize a s

/-- How `main` of `print_order.c` gets its table. -/
def Image.printOrderSort [DecidableEq M] (a : Alloc) (s : State M) : Exec M (State M) :=
  let s := moduleHandleInitialize a s (linkersetSize I.moduleInitInfo)
  if s.handle.initState ≠ .memory then I.topologicalSortModules s else .ok s

/-- The body of the loop that prints imports. -/
def importLineBody (w : Widths) (imp : M) (next : State M → Exec M (State M)) (s : State M) :
    Exec M (State M) :=
  next (s.log (.print (w.importLine (P.info imp).moduleName)))

variable {P} (N : FunctionNames P)

/-- The second `while` over the table in `print_order.c`. -/
def Image.printTable (w : Widths) : ℕ → State M → Exec M (State M)
  | 0, s => .error (.limit, s)
  | n + 1, s =>
    if s.handle.tableIndex < s.handle.tableSize then do
      let (mip, s) ← s.load s.handle.tableIndex
      let s := s.log (.print
        (w.line (P.info mip).moduleName (N.initFnName mip) (N.finaFnName mip)))
      let s ← I.linkersetIterate (I.imports mip) (importLineBody P w) .ok s
      Image.printTable w n (s.setIndex (s.handle.tableIndex + 1))
    else return s

/-- `case IR_SUCCESS` of `main` in `print_order.c` -/
def Image.printOrder (s : State M) : Exec M (State M) := do
  let (w, s) ← measureTable N (s.handle.tableSize + 1) .headings (s.setIndex 0)
  let s ← assertFull s
  let s := s.log (.print (w.line "Module" "Initialization" "Finalization"))
  let s ← I.printTable N w (s.handle.tableSize + 1) (s.setIndex 0)
  assertFull s

/-- The `switch` of `main` in `print_order.c` -/
def Image.printOrderResult (s : State M) : Exec M (State M) :=
  match s.handle.initState with
  | .success => I.printOrder N s
  | _ => printResult P s

/-- `main` of `print_order.c` -/
def Image.printOrderMain [DecidableEq M] (a : Alloc) (s : State M) : Exec M (State M) := do
  let s ← I.printOrderSort a s
  let s ← I.printOrderResult N s
  return moduleHandleFinalize a s

end Operations

section Properties

variable {M : Type*}

/-- **The program `P` in memory**: its linkersets are where the symbols say, and the one that is
sorted does not overlap the others. -/
structure Image.Lays (I : Image M) (P : ModuleSet M) : Prop where
  moduleInitInfo : Pointer.Holds I.memory I.moduleInitInfo P.linkerset
  imports : ∀ m, Pointer.Holds I.memory (I.imports m) (P.imports m)
  apart : ∀ m, I.moduleInitInfo.Apart (I.imports m)

/-- **`LINKERSET_SORT(module_init_info, compare)`** makes `I'` of `I`. Its assertion, that the size is
the same as `size_t` and as `ptrdiff_t`, holds. -/
structure Image.LinkersetSort (I : Image M) (compare : M → M → ℤ) (I' : Image M) : Prop where
  moduleInitInfo : I'.moduleInitInfo = I.moduleInitInfo
  imports : I'.imports = I.imports
  memory : Qsorted (fun x y => compare x y ≤ 0) I.moduleInitInfo I.memory I'.memory

end Properties

end Linkerset
