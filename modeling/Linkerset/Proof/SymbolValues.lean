import Linkerset.Proof.Symbols
import Mathlib.Algebra.Ring.Int.Defs

/-!
# The integers in the output

The value of an enumeration member, or of a preprocessor symbol, is stored as an
unsigned 64-bit pattern, and printed with the signed `%zd`.

* `readInt_toString`: a decimal integer reads back.
* `readDefine_line`: what the number of a `#define` line reads back as.
* `reads_back_iff`: it is the value of the symbol exactly when that is below 2^63.
-/

namespace Linkerset

/-! ## Reading decimal integers -/

/-- The number that a row of decimal digits shows. -/
def readNat (cs : List Char) : Option ℕ :=
  if !cs.isEmpty && cs.all Char.isDigit then some (Nat.ofDigitChars 10 cs 0) else none

/-- The integer that decimal digits show, with a `-` in front of a negative one. -/
def readInt : List Char → Option ℤ
  | '-' :: cs => (readNat cs).map fun (n : ℕ) => -(n : ℤ)
  | cs => (readNat cs).map fun (n : ℕ) => (n : ℤ)

/-- The integer in parentheses at the end of a `#define` line. -/
def readDefine (line : String) : Option ℤ :=
  match line.toList.reverse with
  | '\n' :: ')' :: cs => readInt (cs.takeWhile (· ≠ '(')).reverse
  | _ => none

theorem readNat_toDigits (n : ℕ) : readNat (Nat.toDigits 10 n) = some n := by
  have hdigits : ∀ c ∈ Nat.toDigits 10 n, c.isDigit := by
    intro c hc
    exact Nat.isDigit_of_mem_toDigits (by decide) (by decide) hc
  have hread : (!(Nat.toDigits 10 n).isEmpty && (Nat.toDigits 10 n).all Char.isDigit) = true := by
    simpa using hdigits
  unfold readNat
  rw [if_pos hread, Nat.ofDigitChars_ten_toDigits]

/-- A negative integer is written with a sign, any other without. -/
theorem toList_toString (v : ℤ) : (toString v).toList =
    if 0 ≤ v then Nat.toDigits 10 v.toNat else '-' :: Nat.toDigits 10 (-v).toNat := by
  rw [Int.toString_eq_repr, Int.repr_eq_if]
  split
  · rw [Nat.toList_repr]
  · rw [String.toList_append, Nat.toList_repr]
    rfl

/-- **A decimal integer reads back.** -/
theorem readInt_toString (v : ℤ) : readInt (toString v).toList = some v := by
  rw [toList_toString]
  split
  · rename_i hv
    obtain ⟨c, cs, hcs⟩ := List.exists_cons_of_ne_nil (Nat.toDigits_ne_nil (n := v.toNat) (b := 10))
    have hc : c.isDigit := by
      apply Nat.isDigit_of_mem_toDigits (b := 10) (n := v.toNat) (by decide) (by decide)
      rw [hcs]
      exact List.mem_cons_self ..
    have hread := readNat_toDigits v.toNat
    rw [hcs] at hread ⊢
    unfold readInt
    split
    · -- a sign is not a digit
      rename_i h
      rw [(List.cons.inj h).1] at hc
      exact absurd hc (by decide)
    · rw [hread, Option.map_some, Int.toNat_of_nonneg hv]
  · rename_i hv
    rw [readInt, readNat_toDigits, Option.map_some, Int.toNat_of_nonneg (by omega), Int.neg_neg]

/-- A decimal integer has no parenthesis in it. -/
theorem ne_paren_of_mem (v : ℤ) : ∀ c ∈ (toString v).toList, c ≠ '(' := by
  have hdigit : ∀ (n : ℕ), ∀ c ∈ Nat.toDigits 10 n, c ≠ '(' := by
    rintro n c hc rfl
    exact absurd (Nat.isDigit_of_mem_toDigits (by decide) (by decide) hc) (by decide)
  intro c hc
  rw [toList_toString] at hc
  split at hc
  · exact hdigit _ c hc
  · rcases List.mem_cons.1 hc with rfl | hc
    · decide
    · exact hdigit _ c hc

/-- **What a line reads back as**: the 64-bit pattern, taken as a signed number. -/
theorem readDefine_line (name : String) (v : BitVec 64) :
    readDefine ("#define " ++ name ++ " (" ++ zd v ++ ")\n") = some v.toInt := by
  have hrev : ("#define " ++ name ++ " (" ++ zd v ++ ")\n").toList.reverse =
      '\n' :: ')' :: ((zd v).toList.reverse ++ '(' :: ' ' :: ("#define " ++ name).toList.reverse) := by
    simp [String.toList_append]
  have hall : ∀ c ∈ (zd v).toList.reverse, decide (c ≠ '(') = true := by
    intro c hc
    exact decide_eq_true (ne_paren_of_mem v.toInt c (List.mem_reverse.1 hc))
  unfold readDefine
  rw [hrev]
  simp only
  rw [List.takeWhile_append_of_pos hall, List.takeWhile_cons_of_neg (by decide), List.append_nil,
    List.reverse_reverse]
  exact readInt_toString v.toInt

/-! ## Storing and printing -/

/-- A descriptor that `SYMINTF_ENUM_ADD` or `SYMINTF_CPP_INT_ADD` makes of the integer `v`. -/
inductive SymintfDesc.HasValue : SymintfDesc → ℤ → Prop
  | enumMember (module : Option String) (file : String) (line : ℕ) (tname ename : String) (v : ℤ)
      (size : BitVec 64) : HasValue (symintfEnumAdd module file line tname ename v size) v
  | cppInteger (module : Option String) (file : String) (line : ℕ) (sname : String) (v : ℤ)
      (size : BitVec 64) : HasValue (symintfCppIntAdd module file line sname v size) v

/-- Of an integer one line is printed, with the 64-bit pattern of its value. -/
theorem SymintfDesc.HasValue.printElement_eq {p : SymintfDesc} {v : ℤ} (h : p.HasValue v) :
    ∃ name, printElement p =
      ["#define " ++ name ++ " (" ++ zd (BitVec.ofInt 64 v) ++ ")\n"] := by
  cases h with
  | enumMember _ _ _ tname ename => exact ⟨tname ++ "_" ++ ename, rfl⟩
  | cppInteger _ _ _ sname => exact ⟨sname, rfl⟩

/-- **The sign boundary**: a 64-bit pattern, taken as a signed number, is the value it was
made of exactly when that is below 2^63. -/
theorem toInt_ofInt_eq_iff {v : ℤ} (hlo : -2 ^ 63 ≤ v) (hhi : v < 2 ^ 64) :
    (BitVec.ofInt 64 v).toInt = v ↔ v < 2 ^ 63 := by
  rw [BitVec.toInt_ofInt]
  constructor
  · intro h
    have hlt : v.bmod (2 ^ 64) < 2 ^ 63 := Int.bmod_lt (x := v) (m := 2 ^ 64) (by decide)
    omega
  · intro h
    exact Int.bmod_eq_of_le (by omega) (by omega)

section PrintTree

variable {E : Type*} {S : SymbolSet E}

/-- `print_tree` only adds to what is printed. -/
theorem printTree_grows : ∀ {depth : ℕ} {p : Option E} {s s' : SymbolState E},
    printTree S depth p s = .ok s' → s.stdout <+: s'.stdout := by
  intro depth
  induction depth with
  | zero => intro p s s' h; cases h
  | succ depth ih =>
    intro p s s' h
    cases p with
    | none => cases h; exact List.prefix_rfl
    | some elem =>
      rw [printTree] at h
      cases hl : printTree S depth (s.cells (.l elem)) s with
      | error e => rw [hl] at h; cases h
      | ok s₁ =>
        rw [hl] at h
        have hright := ih h
        exact (ih hl).trans ((List.prefix_append _ _).trans hright)

/-- A call of `print_tree` for an element prints its lines. -/
theorem printTree_prints {depth : ℕ} {elem : E} {s s' : SymbolState E}
    (h : printTree S depth (some elem) s = .ok s') :
    ∃ before after, s'.stdout = before ++ printElement (S.desc elem) ++ after := by
  cases depth with
  | zero => cases h
  | succ depth =>
    rw [printTree] at h
    cases hl : printTree S depth (s.cells (.l elem)) s with
    | error e => rw [hl] at h; cases h
    | ok s₁ =>
      rw [hl] at h
      obtain ⟨after, hafter⟩ := printTree_grows h
      exact ⟨s₁.stdout, after, hafter.symm⟩

/-- **A printed integer reads back** exactly when it is below 2^63: wherever `print_tree`
prints an enumeration member or a preprocessor symbol, the number in its line is its value
then, and another number otherwise. -/
theorem reads_back_iff {elem : E} {v : ℤ} (hv : (S.desc elem).HasValue v) (hlo : -2 ^ 63 ≤ v)
    (hhi : v < 2 ^ 64) {depth : ℕ} {s s' : SymbolState E}
    (hrun : printTree S depth (some elem) s = .ok s') :
    ∃ before line after, s'.stdout = before ++ line :: after ∧
      printElement (S.desc elem) = [line] ∧ (readDefine line = some v ↔ v < 2 ^ 63) := by
  obtain ⟨before, after, hout⟩ := printTree_prints hrun
  obtain ⟨name, hline⟩ := hv.printElement_eq
  refine ⟨before, _, after, ?_, hline, ?_⟩
  · rw [hout, hline, List.append_assoc, List.singleton_append]
  · rw [readDefine_line, Option.some.injEq]
    exact toInt_ofInt_eq_iff hlo hhi

end PrintTree

/-- The run of `print_tree` for `N_BITS`, which is 8. -/
theorem reads_back_iff_example :
    ∃ s' before line after, printTree nBitsProgram 2 (some .ittybitty) .start = .ok s' ∧
      s'.stdout = before ++ line :: after ∧ (readDefine line = some 8 ↔ (8 : ℤ) < 2 ^ 63) := by
  have hv : (nBitsProgram.desc .ittybitty).HasValue 8 := .cppInteger ..
  obtain ⟨s', hrun⟩ : ∃ s', printTree nBitsProgram 2 (some .ittybitty) .start = .ok s' := ⟨_, rfl⟩
  obtain ⟨before, line, after, hout, -, hiff⟩ := reads_back_iff hv (by decide) (by decide) hrun
  exact ⟨s', before, line, after, hrun, hout, hiff⟩

/-- One module that declares an all-ones mask, `SYMINTF_CPP_INT_ADD(ALL_ONES)`. -/
def allOnesProgram : SymbolSet Unit where
  desc _ := symintfCppIntAdd none "mask.h" 1 "ALL_ONES" 18446744073709551615 8
  linkerset := [()]

/-- The mask is 2^64 - 1, and the number in its line is -1. -/
theorem allOnesProgram_misread :
    ∃ s' line, symbolInfoMain allOnesProgram = .ok s' ∧ s'.stdout = [line] ∧
      readDefine line = some (-1) ∧ readDefine line ≠ some 18446744073709551615 := by
  have hread : readDefine ("#define " ++ "ALL_ONES" ++ " (" ++
      zd (BitVec.ofInt 64 18446744073709551615) ++ ")\n") = some (-1) := readDefine_line _ _
  refine ⟨_, _, rfl, rfl, hread, ?_⟩
  intro h
  have hne := hread.symm.trans h
  cases hne

end Linkerset
