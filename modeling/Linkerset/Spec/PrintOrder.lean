import Linkerset.Spec.ModuleInit

/-!
# The table of modules (`print_order.c`)

The program sorts the modules, and prints them in the order in which they are to be
initialized, with the names of their functions and with what they import. Nothing is
initialized. A `String` stands for the `char`s that it is made of, which are ASCII here.

The cases of the `switch` for `IR_CYCLE` and `IR_FAILED` are those of `example.c`
(`printResult`).
-/

namespace Linkerset

/-- The largest `int`. -/
def intMax : ℕ := 2147483647

/-- A C identifier. -/
def Identifier (s : String) : Prop :=
  s.toList ≠ [] ∧ s.toList.all (fun c => c.isAlphanum || c == '_') = true

/-- What the preprocessor makes of an argument with `#`: white space between tokens has become
one blank, and there is none at the ends. -/
def Stringized (s : String) : Prop :=
  s.toList.all (fun c => ' ' ≤ c && c ≤ '~') = true ∧ s.toList.getLast? ≠ some ' '

/-- `init_fn_name` and `fina_fn_name` of every module, as `DECLARE_MODULE` fills them in. The
widths of the columns are `unsigned` in the code, and `int` for `printf`. -/
structure FunctionNames {M : Type*} (P : ModuleSet M) where
  initFnName : M → String
  finaFnName : M → String
  identifier : ∀ m, Identifier (P.info m).moduleName
  stringized : ∀ m, Stringized (initFnName m) ∧ Stringized (finaFnName m)
  fits : ∀ m, (P.info m).moduleName.length ≤ intMax ∧ (initFnName m).length ≤ intMax ∧
    (finaFnName m).length ≤ intMax

/-- `printf("%-*s", width, s)` -/
def padRight (width : ℕ) (s : String) : String := String.ofList (s.toList.rightpad width ' ')

/-- `max_mname`, `max_iname`, `max_fname` -/
structure Widths where
  maxMname : ℕ
  maxIname : ℕ
  maxFname : ℕ
  deriving DecidableEq, Repr

/-- The widths of the headings. -/
def Widths.headings : Widths :=
  ⟨"Module".length, "Initialization".length, "Finalization".length⟩

/-- `printf("%-*s  %-*s  %-*s\n", …)` -/
def Widths.line (w : Widths) (mname iname fname : String) : String :=
  padRight w.maxMname mname ++ "  " ++ padRight w.maxIname iname ++ "  " ++
    padRight w.maxFname fname ++ "\n"

/-- `printf("%-*s  import: %-s\n", …)` -/
def Widths.importLine (w : Widths) (imp : String) : String :=
  padRight w.maxMname " " ++ "  import: " ++ imp ++ "\n"

section Operations

variable {M : Type*} {P : ModuleSet M} (N : FunctionNames P)

/-- `MAX`, for each of the columns. -/
def FunctionNames.widen (w : Widths) (mip : M) : Widths where
  maxMname := max w.maxMname (P.info mip).moduleName.length
  maxIname := max w.maxIname (N.initFnName mip).length
  maxFname := max w.maxFname (N.finaFnName mip).length

/-- The first `while` over the table, at most `n` rounds. -/
def measureTable : ℕ → Widths → State M → Exec M (Widths × State M)
  | 0, _, s => .error (.limit, s)
  | n + 1, w, s =>
    if s.handle.tableIndex < s.handle.tableSize then do
      let (mip, s) ← s.load s.handle.tableIndex
      measureTable n (N.widen w mip) (s.setIndex (s.handle.tableIndex + 1))
    else return (w, s)

variable (P) in
/-- The loop over the linkerset of imports of one module. -/
def printImports (w : Widths) : List M → State M → State M
  | [], s => s
  | imp :: p, s => printImports w p (s.log (.print (w.importLine (P.info imp).moduleName)))

/-- The second `while` over the table, at most `n` rounds. -/
def printTable (w : Widths) : ℕ → State M → Exec M (State M)
  | 0, s => .error (.limit, s)
  | n + 1, s =>
    if s.handle.tableIndex < s.handle.tableSize then do
      let (mip, s) ← s.load s.handle.tableIndex
      let s := s.log (.print
        (w.line (P.info mip).moduleName (N.initFnName mip) (N.finaFnName mip)))
      let s := printImports P w (P.info mip).imports s
      printTable w n (s.setIndex (s.handle.tableIndex + 1))
    else return s

/-- `assert(ih->table_index == ih->table_size)` -/
def assertFull (s : State M) : Exec M (State M) :=
  if s.handle.tableIndex = s.handle.tableSize then .ok s else .error (.assertion, s)

/-- `case IR_SUCCESS` of `main` -/
def printOrder (s : State M) : Exec M (State M) := do
  let (w, s) ← measureTable N (s.handle.tableSize + 1) .headings (s.setIndex 0)
  let s ← assertFull s
  let s := s.log (.print (w.line "Module" "Initialization" "Finalization"))
  let s ← printTable N w (s.handle.tableSize + 1) (s.setIndex 0)
  assertFull s

/-- The `switch` of `main` -/
def printOrderResult (s : State M) : Exec M (State M) :=
  match s.handle.initState with
  | .success => printOrder N s
  | _ => printResult P s

/-- **`main` of `print_order.c`** -/
def printOrderMain [DecidableEq M] (a : Alloc) (s : State M) : Exec M (State M) := do
  let s ← printOrderSort P a s
  let s ← printOrderResult N s
  return moduleHandleFinalize a s

end Operations

/-- Standard output, as it is when the events `t` have happened. -/
def output {M : Type*} (t : List (Event M)) : List Char := (printed t).flatMap String.toList

end Linkerset
