import Mathlib.Logic.Function.Basic
import Mathlib.Data.Nat.Notation
import Mathlib.Data.Int.Notation

/-!
# The symbol information tool (`symbol_info.h`, `symbol_info_manager.c`)

A linked program is a `SymbolSet`: the descriptors that the `SYMINTF_*_ADD` macros
have put into the linkerset `symintf_desc`, in link order. The fields `l` and `r` of
the descriptors, and `linkerset_root`, are the pointer cells of a memory
(`Cell`, `SymbolState`); the other fields are never written.

`size_t` and `unsigned long` have 64 bits. Names and keys are `String`s; only the
sign of `strcmp` is used, and it is the same for code points as for UTF-8 bytes.
-/

namespace Linkerset

/-- `symintf_kind_t` -/
inductive SymintfKind where
  | structField
  | symbolSize
  | enumElement
  | cppInteger
  deriving DecidableEq, Repr

/-- `struct_field_desc_t` -/
structure StructFieldDesc where
  tname : String
  fname : String
  size : BitVec 64
  offset : BitVec 64
  deriving DecidableEq, Repr

/-- `symbol_size_desc_t` -/
structure SymbolSizeDesc where
  tname : String
  size : BitVec 64
  deriving DecidableEq, Repr

/-- `enum_desc_t` -/
structure EnumDesc where
  tname : String
  ename : String
  value : BitVec 64
  size : BitVec 64
  deriving DecidableEq, Repr

/-- `cpp_int_desc_t` -/
structure CppIntDesc where
  sname : String
  value : BitVec 64
  size : BitVec 64
  deriving DecidableEq, Repr

/-- The union `u` of `symintf_desc_t`, tagged by `kind`. -/
inductive SymintfUnion where
  | structField (d : StructFieldDesc)
  | symbolSize (d : SymbolSizeDesc)
  | enumMember (d : EnumDesc)
  | cppInteger (d : CppIntDesc)
  deriving DecidableEq, Repr

/-- `symintf_desc_t`, less `l` and `r`. -/
structure SymintfDesc where
  /-- What `module` points at; `none` is `NULL`. -/
  module : Option String
  file : String
  line : ℕ
  key : String
  u : SymintfUnion
  deriving DecidableEq, Repr

def SymintfDesc.kind (p : SymintfDesc) : SymintfKind :=
  match p.u with
  | .structField _ => .structField
  | .symbolSize _ => .symbolSize
  | .enumMember _ => .enumElement
  | .cppInteger _ => .cppInteger

section Macros

variable (module : Option String) (file : String) (line : ℕ)

/-- `SYMINTF_STRUCT_FIELD_ADD`. `XSTRING_` expands what it is given: the names, and the one
that they are joined to, are taken not to be macros themselves. -/
def symintfStructFieldAdd (tname fname : String) (size offset : BitVec 64) : SymintfDesc :=
  { module, file, line
    key := tname ++ "_" ++ fname
    u := .structField { tname, fname, size, offset } }

/-- `SYMINTF_SYMBOL_SIZE_ADD`; the name is not a macro. -/
def symintfSymbolSizeAdd (tname : String) (size : BitVec 64) : SymintfDesc :=
  { module, file, line
    key := tname
    u := .symbolSize { tname, size } }

/-- `SYMINTF_ENUM_ADD`; the member is converted to `size_t`. As for a field, the names and
the joined one are not macros. -/
def symintfEnumAdd (tname ename : String) (value : ℤ) (size : BitVec 64) : SymintfDesc :=
  { module, file, line
    key := tname ++ "_" ++ ename
    u := .enumMember { tname, ename, value := BitVec.ofInt 64 value, size } }

/-- `SYMINTF_CPP_INT_ADD`; the value is converted to `unsigned long`. -/
def symintfCppIntAdd (sname : String) (value : ℤ) (size : BitVec 64) : SymintfDesc :=
  { module, file, line
    key := sname
    u := .cppInteger { sname, value := BitVec.ofInt 64 value, size } }

end Macros

/-- A descriptor declared with one of the macros. -/
inductive SymintfDesc.Declared : SymintfDesc → Prop
  | structField (module : Option String) (file : String) (line : ℕ) (tname fname : String)
      (size offset : BitVec 64) :
      Declared (symintfStructFieldAdd module file line tname fname size offset)
  | symbolSize (module : Option String) (file : String) (line : ℕ) (tname : String)
      (size : BitVec 64) : Declared (symintfSymbolSizeAdd module file line tname size)
  | enumMember (module : Option String) (file : String) (line : ℕ) (tname ename : String) (value : ℤ)
      (size : BitVec 64) : Declared (symintfEnumAdd module file line tname ename value size)
  | cppInteger (module : Option String) (file : String) (line : ℕ) (sname : String) (value : ℤ)
      (size : BitVec 64) : Declared (symintfCppIntAdd module file line sname value size)

/-- **A program with symbol information**: the linkerset `symintf_desc`, whose
entries point at the descriptors. -/
structure SymbolSet (E : Type*) where
  desc : E → SymintfDesc
  /-- `[__start_symintf_desc, __stop_symintf_desc)` -/
  linkerset : List E

/-- The address of a pointer to a descriptor: `&linkerset_root`, `&p->l`, `&p->r`. -/
inductive Cell (E : Type*) where
  | linkersetRoot
  | l (p : E)
  | r (p : E)
  deriving DecidableEq, Repr

/-- What one comparison writes to `stderr`. -/
structure Report (E : Type*) where
  lp : E
  rp : E
  text : String

/-- The memory of a run, and what it has written. -/
structure SymbolState (E : Type*) where
  cells : Cell E → Option E
  programReturnCode : ℤ
  stderr : List (Report E)
  /-- The lines of standard output. -/
  stdout : List String

/-- What stops a run. `limit` is the model's own bound on recursion. -/
inductive SymbolFault where
  | assertion
  | limit
  deriving DecidableEq, Repr

/-- `strcmp`: 0, or the sign that the first difference decides. -/
def strcmp (a b : String) : ℤ := go a.toList b.toList
where
  go : List Char → List Char → ℤ
    | [], [] => 0
    | [], _ :: _ => -1
    | _ :: _, [] => 1
    | c :: as, d :: bs => if c = d then go as bs else if c < d then -1 else 1

/-- `%zd` of a 64-bit value. -/
def zd (v : BitVec 64) : String := toString v.toInt

section Messages

/-- `show_compilation_model` -/
def showCompilationModel (p : SymintfDesc) : String :=
  match p.module with
  | some module => "  compiled: " ++ module ++ "\n"
  | none => "  compiled: <SYMINTF_SET_MODULE not used>\n"

/-- How every message starts: `"%s %s:%u "`. -/
def position (hdr : String) (p : SymintfDesc) : String :=
  hdr ++ " " ++ p.file ++ ":" ++ toString p.line ++ " "

/-- `struct_field_error` -/
def structFieldError (hdr : String) (p : SymintfDesc) (sp : StructFieldDesc) : String :=
  position hdr p ++ sp.tname ++ "." ++ sp.fname ++ ": (" ++ zd sp.size ++ " bytes, offset: " ++
    zd sp.offset ++ ")" ++ showCompilationModel p

/-- `symbol_size_error` -/
def symbolSizeError (hdr : String) (p : SymintfDesc) (sp : SymbolSizeDesc) : String :=
  position hdr p ++ sp.tname ++ ": " ++ zd sp.size ++ " bytes" ++ showCompilationModel p

/-- `enum_error` -/
def enumError (hdr : String) (p : SymintfDesc) (sp : EnumDesc) : String :=
  position hdr p ++ sp.tname ++ "." ++ sp.ename ++ ": value " ++ zd sp.value ++
    showCompilationModel p

/-- `cpp_integer_error` -/
def cppIntegerError (hdr : String) (p : SymintfDesc) (sp : CppIntDesc) : String :=
  position hdr p ++ sp.sname ++ "  value " ++ zd sp.value ++ showCompilationModel p

end Messages

section Operations

variable {E : Type*}

/-- The messages of a mismatch: both elements and an empty line. -/
def SymbolState.report (s : SymbolState E) (lp rp : E) (text : String) : SymbolState E :=
  { s with stderr := s.stderr ++ [⟨lp, rp, text ++ "\n"⟩] }

variable (S : SymbolSet E)

/-- `compare_structure_field`, the only comparison that sets `program_return_code`. -/
def compareStructureField (lp rp : E) (l r : StructFieldDesc) (s : SymbolState E) : SymbolState E :=
  if l.size ≠ r.size ∨ l.offset ≠ r.offset then
    { s with programReturnCode := 1 }.report lp rp
      (structFieldError "FIELD" (S.desc lp) l ++ structFieldError "     " (S.desc rp) r)
  else s

/-- `compare_symbol_size` -/
def compareSymbolSize (lp rp : E) (l r : SymbolSizeDesc) (s : SymbolState E) : SymbolState E :=
  if l.size ≠ r.size then
    s.report lp rp (symbolSizeError "SIZE " (S.desc lp) l ++ symbolSizeError "     " (S.desc rp) r)
  else s

/-- `compare_enum` -/
def compareEnum (lp rp : E) (l r : EnumDesc) (s : SymbolState E) : SymbolState E :=
  if l.value ≠ r.value then
    s.report lp rp (enumError "ENUM " (S.desc lp) l ++ enumError "     " (S.desc rp) r)
  else s

/-- `compare_cpp_integer` -/
def compareCppInteger (lp rp : E) (l r : CppIntDesc) (s : SymbolState E) : SymbolState E :=
  if l.value ≠ r.value then
    s.report lp rp (cppIntegerError "CPP  " (S.desc lp) l ++ cppIntegerError "     " (S.desc rp) r)
  else s

/-- The assertion of `add_set_element` that the kinds agree, and its `switch`. -/
def compareKinds (p elem : E) (s : SymbolState E) : Except SymbolFault (SymbolState E) :=
  match (S.desc p).u, (S.desc elem).u with
  | .structField l, .structField r => .ok (compareStructureField S p elem l r s)
  | .symbolSize l, .symbolSize r => .ok (compareSymbolSize S p elem l r s)
  | .enumMember l, .enumMember r => .ok (compareEnum S p elem l r s)
  | .cppInteger l, .cppInteger r => .ok (compareCppInteger S p elem l r s)
  | _, _ => .error .assertion

/-- **`add_set_element`**, at most `depth` calls deep; `root` is the cell it is given. -/
def addSetElement [DecidableEq E] :
    ℕ → Cell E → E → SymbolState E → Except SymbolFault (SymbolState E)
  | 0, _, _, _ => .error .limit
  | depth + 1, root, elem, s =>
    match s.cells root with
    | none => .ok { s with cells := Function.update s.cells root (some elem) }
    | some p =>
      let cmp := strcmp (S.desc p).key (S.desc elem).key
      if cmp > 0 then addSetElement depth (.l p) elem s
      else if cmp < 0 then addSetElement depth (.r p) elem s
      -- the key is in the tree: the element that came first stays
      else compareKinds S p elem s

/-- `print_tree_struct_field` -/
def printTreeStructField (p : StructFieldDesc) : List String :=
  ["#define OFFSET__" ++ (p.tname ++ "_" ++ p.fname) ++ " (" ++ zd p.offset ++ ")\n",
    "#define SIZE__" ++ (p.tname ++ "_" ++ p.fname) ++ " (" ++ zd p.size ++ ")\n"]

/-- `print_tree_symbol_size` -/
def printTreeSymbolSize (p : SymbolSizeDesc) : List String :=
  ["#define SIZE__" ++ p.tname ++ " (" ++ zd p.size ++ ")\n"]

/-- `print_tree_enum_element` -/
def printTreeEnumElement (p : EnumDesc) : List String :=
  ["#define " ++ (p.tname ++ "_" ++ p.ename) ++ " (" ++ zd p.value ++ ")\n"]

/-- `print_tree_cpp_integer` -/
def printTreeCppInteger (p : CppIntDesc) : List String :=
  ["#define " ++ p.sname ++ " (" ++ zd p.value ++ ")\n"]

/-- The `switch` of `print_tree`. -/
def printElement (p : SymintfDesc) : List String :=
  match p.u with
  | .structField d => printTreeStructField d
  | .symbolSize d => printTreeSymbolSize d
  | .enumMember d => printTreeEnumElement d
  | .cppInteger d => printTreeCppInteger d

/-- `print_tree`, at most `depth` calls deep. -/
def printTree : ℕ → Option E → SymbolState E → Except SymbolFault (SymbolState E)
  | 0, _, _ => .error .limit
  | _ + 1, none, s => .ok s
  | depth + 1, some elem, s => do
    let s ← printTree depth (s.cells (.l elem)) s
    let s := { s with stdout := s.stdout ++ printElement (S.desc elem) }
    printTree depth (s.cells (.r elem)) s

/-- Memory at program start: all pointers are `NULL`. -/
def SymbolState.start : SymbolState E := ⟨fun _ => none, 0, [], []⟩

/-- The depth that `main` gives each call. -/
def SymbolSet.depth : ℕ := S.linkerset.length + 1

/-- **`main`** of `symbol_info_manager.c`; its exit status is `programReturnCode`. -/
def symbolInfoMain [DecidableEq E] : Except SymbolFault (SymbolState E) := do
  let s ← S.linkerset.foldlM (fun s tp => addSetElement S S.depth .linkersetRoot tp s) .start
  if s.programReturnCode = 0 then printTree S S.depth (s.cells .linkersetRoot) s
  else return s

end Operations

section Properties

variable {E : Type*} (S : SymbolSet E)

/-- The attributes that are compared. -/
def SymintfUnion.compared : SymintfUnion → List (BitVec 64)
  | .structField d => [d.size, d.offset]
  | .symbolSize d => [d.size]
  | .enumMember d => [d.value]
  | .cppInteger d => [d.value]

abbrev SymbolSet.key (e : E) : String := (S.desc e).key

abbrev SymbolSet.compared (e : E) : List (BitVec 64) := (S.desc e).u.compared

/-- Elements with equal keys have equal kinds. -/
def SymbolSet.KindsAgree : Prop :=
  ∀ a ∈ S.linkerset, ∀ b ∈ S.linkerset, S.key a = S.key b → (S.desc a).kind = (S.desc b).kind

/-- Two elements have the same key and differ in a compared attribute. -/
def SymbolSet.Mismatch (a b : E) : Prop := S.key a = S.key b ∧ S.compared a ≠ S.compared b

/-- The keys that a run has reported. -/
def SymbolState.reported (s : SymbolState E) (k : String) : Prop :=
  ∃ r ∈ s.stderr, S.key r.lp = k

end Properties

end Linkerset
