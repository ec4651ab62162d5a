import Mathlib.Logic.Function.Basic
import Mathlib.Data.Nat.Notation
import Mathlib.Data.Int.Notation
import Linkerset.Graph.Reach

/-!
# The module initialization library (`module_init.h`, `example.c`)

A linked program is a `ModuleSet`: the descriptors of its modules, and the
linkerset `module_init_info` that points at each of them once, in link order.
Memory is a `State`: the handle, the `init_state` field of every descriptor (the
other fields are never written), and the trace of what the code has done.

A run ends in a state, or at a `Fault` with the state reached: an access outside
the table, a `NULL` dereference, a failed assertion. In C what follows a fault is
undefined, so a faulted run goes no further.

The table is an allocated block of entries, all `NULL` after `calloc`. `Alloc`
is the outcome of `calloc`; besides failure and a block of the size asked for,
it has a block without end, to speak of what the sort writes when the size of
the table does not matter.
-/

namespace Linkerset

/-- `init_state_t` -/
inductive InitState where
  | uninitialized
  | initializing
  | initialized
  deriving DecidableEq, Repr

/-- `initialization_result_t` -/
inductive InitializationResult where
  | success
  | cycle
  | failed
  | memory
  deriving DecidableEq, Repr

/-- What the code does, as far as an observer of the handle, of the descriptors
and of the callbacks can tell. -/
inductive Event (M : Type*) where
  /-- `table[i] = m` is executed. -/
  | store (i : ℕ) (m : M)
  /-- `table[i]` is read and dereferenced. -/
  | load (i : ℕ)
  /-- `table_index` takes the value `v`. -/
  | index (v : ℕ)
  /-- The turn of `m` in the initialization loop, under these `init_state` marks:
  `init_fn` returned `r`, or is `NULL` (`none`). -/
  | init (m : M) (marks : M → InitState) (r : Option ℤ)
  /-- The turn of `m` in the finalization loop, likewise. -/
  | fina (m : M) (r : Option ℤ)
  /-- A line of standard output. -/
  | print (line : String)

/-- A call of a module's function, with its result. -/
inductive Call (M : Type*) where
  | init (m : M) (r : ℤ)
  | fina (m : M) (r : ℤ)

/-- The calls that a trace has seen. -/
def calls {M : Type*} (t : List (Event M)) : List (Call M) :=
  t.filterMap fun
    | .init m _ (some r) => some (.init m r)
    | .fina m (some r) => some (.fina m r)
    | _ => none

/-- `module_init_fn_t`, `module_fina_fn_t`: a function that touches neither the
handle nor the descriptors, so its result depends on the earlier calls only. -/
abbrev Callback (M : Type*) := List (Call M) → ℤ

/-- `module_init_info_t`, less `init_state` (which is in `State`) and the function
names, which only `print_order.c` prints. -/
structure ModuleInitInfo (M : Type*) where
  moduleName : String
  /-- The linkerset `[imports.start, imports.stop)`. -/
  imports : List M
  initFn : Option (Callback M)
  finaFn : Option (Callback M)

/-- The largest `unsigned`. -/
def uintMax : ℕ := 4294967295

/-- **A linked program**: `M` is the type of its modules, each declared once and
each present once in the linkerset `module_init_info`. -/
structure ModuleSet (M : Type*) where
  info : M → ModuleInitInfo M
  /-- `[__start_module_init_info, __stop_module_init_info)` -/
  linkerset : List M
  nodup : linkerset.Nodup
  complete : ∀ m, m ∈ linkerset
  /-- The counters are `unsigned`; `table_index` goes up to the number of modules,
  or to one more in a cycle report. -/
  fits : linkerset.length < uintMax

/-- An allocated block of table entries; `extent = none` is a block without end. -/
structure Table (M : Type*) where
  extent : Option ℕ
  cell : ℕ → Option M

/-- The entry at `i` lies inside the block. -/
def Table.Covers {M : Type*} (t : Table M) (i : ℕ) : Prop :=
  match t.extent with
  | none => True
  | some n => i < n

instance {M : Type*} (t : Table M) (i : ℕ) : Decidable (t.Covers i) := by
  unfold Table.Covers; split <;> infer_instance

/-- `module_init_handle_t` -/
structure Handle (M : Type*) where
  initState : InitializationResult
  tableIndex : ℕ
  tableSize : ℕ
  /-- `none` is the `NULL` pointer. -/
  table : Option (Table M)

instance {M : Type*} : Inhabited (Handle M) := ⟨⟨.success, 0, 0, none⟩⟩

/-- The memory of a run. -/
structure State (M : Type*) where
  handle : Handle M
  marks : M → InitState
  trace : List (Event M)

/-- What stops a run. `limit` is the model's own bound on recursion and loops. -/
inductive Fault where
  | nullTable
  | outOfBounds (i : ℕ)
  | nullEntry (i : ℕ)
  | assertion
  | limit
  deriving DecidableEq, Repr

/-- A computation ends with a result, or at a fault in the state reached. -/
abbrev Exec (M : Type*) := Except (Fault × State M)

/-- The last state of a run. -/
def Exec.state {M : Type*} : Exec M (State M) → State M
  | .ok s => s
  | .error (_, s) => s

/-- The outcome of `calloc`: `NULL`, the entries asked for, or a block without end. -/
inductive Alloc where
  | null
  | exact
  | unbounded
  deriving DecidableEq, Repr

/-- `calloc(n, sizeof(module_init_info_t *))` -/
def calloc {M : Type*} : Alloc → ℕ → Option (Table M)
  | .null, _ => none
  | .exact, n => some ⟨some n, fun _ => none⟩
  | .unbounded, _ => some ⟨none, fun _ => none⟩

/-- `--i` on an `unsigned`. -/
def unsignedPred : ℕ → ℕ
  | 0 => uintMax
  | i + 1 => i

section Primitives

variable {M : Type*}

namespace State

def log (s : State M) (e : Event M) : State M := { s with trace := s.trace ++ [e] }

def setResult (s : State M) (r : InitializationResult) : State M :=
  { s with handle := { s.handle with initState := r } }

/-- `ih->table_index = v` -/
def setIndex (s : State M) (v : ℕ) : State M :=
  { s with handle := { s.handle with tableIndex := v }, trace := s.trace ++ [.index v] }

/-- `mip->init_state = st` -/
def setMark [DecidableEq M] (s : State M) (mip : M) (st : InitState) : State M :=
  { s with marks := Function.update s.marks mip st }

/-- `ih->table[i] = mip` -/
def store (s : State M) (i : ℕ) (mip : M) : Exec M (State M) :=
  let s := s.log (.store i mip)
  match s.handle.table with
  | none => .error (.nullTable, s)
  | some t =>
    if t.Covers i then
      .ok { s with handle := { s.handle with
        table := some { t with cell := Function.update t.cell i (some mip) } } }
    else .error (.outOfBounds i, s)

/-- `ih->table[i]`, to be dereferenced. -/
def load (s : State M) (i : ℕ) : Exec M (M × State M) :=
  let s := s.log (.load i)
  match s.handle.table with
  | none => .error (.nullTable, s)
  | some t =>
    if t.Covers i then
      match t.cell i with
      | none => .error (.nullEntry i, s)
      | some mip => .ok (mip, s)
    else .error (.outOfBounds i, s)

/-- `table[0..table_index)` -/
def entries (s : State M) : List (Option M) :=
  match s.handle.table with
  | none => []
  | some t => (List.range s.handle.tableIndex).map t.cell

/-- Memory at program start: every `.init_state` is `IS_UNINITIALIZED`, and the
handle holds whatever it holds. -/
def boot (ih : Handle M) : State M := ⟨ih, fun _ => .uninitialized, []⟩

end State

end Primitives

section Operations

variable {M : Type*}

/-- `module_handle_initialize`. The outcome of `calloc` is an argument. -/
def moduleHandleInitialize (a : Alloc) (s : State M) (tableSize : ℕ) : State M :=
  { s with handle :=
    { initState := .success
      tableSize := tableSize
      tableIndex := 0
      table := if tableSize ≠ 0 then calloc a tableSize else none } }

/-- `module_handle_finalize`: the block is freed and the handle reset. -/
def moduleHandleFinalize (a : Alloc) (s : State M) : State M := moduleHandleInitialize a s 0

variable [DecidableEq M]

/-- The end of `topological_sort_module`: `mip` is clear to be initialized. -/
def appendModule (mip : M) (s : State M) : Exec M (State M) := do
  let s ← s.store s.handle.tableIndex mip
  return (s.setIndex (s.handle.tableIndex + 1)).setMark mip .initialized

/-- The loop over the imports of `mip`, and what follows it; `sort` is the
recursive call. -/
def sortImports (sort : State M → M → Exec M (State M)) (mip : M) : List M → State M → Exec M (State M)
  | [], s => appendModule mip s
  | impp :: p, s => do
    let s ← sort s impp
    match s.handle.initState with
    | .cycle => do
      -- unwinding: `mip` goes behind what the calls below have stored
      let s ← s.store s.handle.tableIndex mip
      return s.setIndex (s.handle.tableIndex + 1)
    | .success => sortImports sort mip p s
    | _ => return s

variable (P : ModuleSet M)

/-- **`topological_sort_module`**, at most `depth` calls deep. -/
def topologicalSortModule : ℕ → State M → M → Exec M (State M)
  | 0, s, _ => .error (.limit, s)
  | depth + 1, s, mip =>
    match s.marks mip with
    | .initializing => do
      -- cycle detected: store the offending module in the cycle table
      let s ← (s.setResult .cycle).store 0 mip
      return s.setIndex 1
    | .uninitialized =>
      sortImports (topologicalSortModule depth) mip (P.info mip).imports
        (s.setMark mip .initializing)
    | .initialized => .ok s

/-- The depth that `topological_sort_modules` gives each call. -/
def ModuleSet.depth : ℕ := P.linkerset.length + 1

/-- `LINKERSET_ITERATE` in `topological_sort_modules`, and the closing assertion. -/
def sortLinkerset : List M → State M → Exec M (State M)
  | [], s => if s.handle.tableIndex = s.handle.tableSize then .ok s else .error (.assertion, s)
  | mi :: rest, s => do
    let s ← topologicalSortModule P P.depth s mi
    -- an early return, past the assertion
    if s.handle.initState ≠ .success then return s
    sortLinkerset rest s

/-- `topological_sort_modules` -/
def topologicalSortModules (s : State M) : Exec M (State M) := sortLinkerset P P.linkerset s

/-- The loop of `module_initialization`, at most `n` rounds, and the closing
assertion. -/
def initializeTable : ℕ → State M → Exec M (State M)
  | 0, s => .error (.limit, s)
  | n + 1, s =>
    if s.handle.tableIndex < s.handle.tableSize then do
      let (mip, s) ← s.load s.handle.tableIndex
      match (P.info mip).initFn with
      | none =>
        let s := s.log (.init mip s.marks none)
        initializeTable n (s.setIndex (s.handle.tableIndex + 1))
      | some initFn =>
        let s := s.setMark mip .initializing
        let initResult := initFn (calls s.trace)
        let s := s.log (.init mip s.marks (some initResult))
        -- `table_index` stays at the module that failed
        if initResult ≠ 0 then return s.setResult .failed
        let s := s.setMark mip .initialized
        initializeTable n (s.setIndex (s.handle.tableIndex + 1))
    else if s.handle.tableIndex = s.handle.tableSize then .ok s
    else .error (.assertion, s)

/-- **`module_initialization`**. `LINKERSET_SIZE` is the number of entries of the
linkerset, which its cast to `unsigned` keeps (`ModuleSet.fits`). -/
def moduleInitialization (a : Alloc) (s : State M) : Exec M (State M) := do
  let s := moduleHandleInitialize a s P.linkerset.length
  match s.handle.table with
  | none => return s.setResult .memory
  | some _ => do
    -- the result of the sort is not looked at
    let s ← topologicalSortModules P s
    initializeTable P (s.handle.tableSize + 1) (s.setIndex 0)

omit [DecidableEq M] in
/-- One round of the loop of `module_finalization`, `i` being `table_index` after
the decrement; `next` is the rest of the loop. -/
def finalizeEntry (i : ℕ) (next : State M → Exec M (State M)) (s : State M) : Exec M (State M) := do
  let s := s.setIndex i
  let (mip, s) ← s.load i
  match (P.info mip).finaFn with
  | none => next (s.log (.fina mip none))
  | some finaFn =>
    let initResult := finaFn (calls s.trace)
    let s := s.log (.fina mip (some initResult))
    if initResult ≠ 0 then return s.setResult .failed
    next s

omit [DecidableEq M] in
/-- The `do … while (table_index != 0)` of `module_finalization`. -/
def finalizeTable : ℕ → State M → Exec M (State M)
  | 0, s => finalizeEntry P 0 .ok s
  | i + 1, s => finalizeEntry P (i + 1) (finalizeTable i) s

omit [DecidableEq M] in
/-- **`module_finalization`** -/
def moduleFinalization (s : State M) : Exec M (State M) :=
  match s.handle.table with
  | none => .ok s
  -- the decrement comes before the first use, also at index 0
  | some _ => finalizeTable P (unsignedPred s.handle.tableIndex) s

omit [DecidableEq M] in
/-- The `do … while (i < table_index)` of `example.c` that prints a cycle. -/
def printCycle (s : State M) : Exec M (State M) :=
  (List.range (max 1 s.handle.tableIndex)).foldlM (fun s i => do
    let (mip, s) ← s.load i
    return s.log (.print ("  " ++ (P.info mip).moduleName ++ "\n"))) s

omit [DecidableEq M] in
/-- The first `switch` of `main` in `example.c`: what is printed about the result. -/
def printResult (s : State M) : Exec M (State M) :=
  match s.handle.initState with
  | .cycle => do
    let s ← printCycle P (s.log (.print "Error, cycle detected involving:\n"))
    return s.log (.print "\n")
  | .failed => do
    let (mip, s) ← s.load s.handle.tableIndex
    return s.log (.print ("Module '" ++ (P.info mip).moduleName ++ "' failed to initialized\n"))
  | _ => .ok s

omit [DecidableEq M] in
/-- The second `switch` of `main` in `example.c`. -/
def finalizeResult (s : State M) : Exec M (State M) :=
  match s.handle.initState with
  | .success | .failed => moduleFinalization P (s.log (.print "\n\n*** Finalizing modules.\n"))
  | _ => .ok s

/-- `main` of `example.c` -/
def exampleMain (a : Alloc) (s : State M) : Exec M (State M) := do
  let s ← moduleInitialization P a (s.log (.print "*** Initializing modules.\n"))
  let s ← printResult P s
  let s ← finalizeResult P s
  return moduleHandleFinalize a s

/-- How `main` of `print_order.c` gets its table: it sorts on its own, unless the
handle says that there is no memory. -/
def printOrderSort (a : Alloc) (s : State M) : Exec M (State M) :=
  let s := moduleHandleInitialize a s P.linkerset.length
  if s.handle.initState ≠ .memory then topologicalSortModules P s else .ok s

end Operations

section Properties

variable {M : Type*} (P : ModuleSet M)

/-- The turns of the initialization loop in a trace, in order. -/
def initTurns (t : List (Event M)) : List (M × Option ℤ) :=
  t.filterMap fun
    | .init m _ r => some (m, r)
    | _ => none

/-- The turns of the finalization loop in a trace, in order. -/
def finaTurns (t : List (Event M)) : List (M × Option ℤ) :=
  t.filterMap fun
    | .fina m r => some (m, r)
    | _ => none

/-- The lines of standard output in a trace, in order. -/
def printed (t : List (Event M)) : List String :=
  t.filterMap fun
    | .print line => some line
    | _ => none

/-- The turns in which a function was called, with its result. -/
def called (T : List (M × Option ℤ)) : List (M × ℤ) :=
  T.filterMap fun x => x.2.map fun r => (x.1, r)

/-- The calls of `init_fn` in a trace, in order. -/
abbrev initCalls (t : List (Event M)) : List (M × ℤ) := called (initTurns t)

/-- The calls of `fina_fn` in a trace, in order. -/
abbrev finaCalls (t : List (Event M)) : List (M × ℤ) := called (finaTurns t)

/-- `m` is fully initialized: its turn has passed, and its `init_fn` is `NULL` or
has returned 0. -/
def FullyInitialized (t : List (Event M)) (m : M) : Prop :=
  (m, none) ∈ initTurns t ∨ (m, some 0) ∈ initTurns t

/-- The module that `table[i]` points at. -/
def State.entry (s : State M) (i : ℕ) : Option M := s.handle.table.bind fun t => t.cell i

/-- The modules that `m` imports directly. -/
abbrev ModuleSet.imports (m : M) : List M := (P.info m).imports

abbrev ModuleSet.initFn (m : M) : Option (Callback M) := (P.info m).initFn

abbrev ModuleSet.finaFn (m : M) : Option (Callback M) := (P.info m).finaFn

/-- `a` imports `b`, directly or transitively. -/
abbrev ModuleSet.Imports : M → M → Prop := Graph.ReachPlus P.imports

/-- The import relation has a directed cycle (a self-import included). -/
def ModuleSet.Cyclic : Prop := ∃ m, P.Imports m m

/-- Program start, with a handle just set up for all the modules. -/
def ModuleSet.fresh (a : Alloc) (ih : Handle M) : State M :=
  moduleHandleInitialize a (State.boot ih) P.linkerset.length

end Properties

end Linkerset
