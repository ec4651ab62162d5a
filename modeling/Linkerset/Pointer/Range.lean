import Mathlib.Data.List.Basic
import Mathlib.Data.Nat.Notation

/-!
# Ranges of pointers in memory

Memory is a function from addresses to the pointers stored there. A range `[start, stop)` holds
a list when its words are the elements of the list, in order, and there are no others.

* `Holds.unique`, `Holds.frame`: the list is determined by the words of the range.
* `scan_eq_walk`: **a `while` loop that goes through a range with a pointer is a recursion over
  the list.**
* `Qsorted`: what `qsort` does to a range, as far as it is specified; by `Qsorted.frame` the
  ranges apart from it keep what they hold.
* `words`: a memory in which a given list stands.
-/

namespace Linkerset.Pointer

variable {α σ ρ : Type*}

/-- `sizeof(void *)` -/
def wordSize : ℕ := 8

/-- The addresses `[start, stop)`. -/
structure Range where
  start : ℕ
  stop : ℕ
  deriving DecidableEq, Repr

/-- The number of words, which is the difference of the bounds as pointers to words. -/
def Range.size (r : Range) : ℕ := (r.stop - r.start) / wordSize

/-- **The range holds the list `l`.** The bounds of an empty range are equal, and may be `NULL`. -/
structure Holds (memory : ℕ → Option α) (r : Range) (l : List α) : Prop where
  stop : r.stop = r.start + wordSize * l.length
  word : ∀ i x, l[i]? = some x → memory (r.start + wordSize * i) = some x

variable {memory memory' : ℕ → Option α} {r r' : Range} {l l' : List α} {x : α}

/-! ## Words -/

theorem Holds.size (h : Holds memory r l) : r.size = l.length := by
  have hw : 0 < wordSize := by decide
  unfold Range.size
  rw [h.stop, Nat.add_sub_cancel_left, Nat.mul_div_cancel_left _ hw]

theorem Holds.head (h : Holds memory r (x :: l)) : memory r.start = some x := h.word 0 x rfl

theorem Holds.tail (h : Holds memory r (x :: l)) : Holds memory ⟨r.start + wordSize, r.stop⟩ l where
  stop := by
    have hs := h.stop
    rw [List.length_cons] at hs
    show r.stop = r.start + wordSize + wordSize * l.length
    rw [hs, Nat.mul_succ]
    omega
  word i y hy := by
    have hi : r.start + wordSize + wordSize * i = r.start + wordSize * (i + 1) := by
      rw [Nat.mul_succ]
      omega
    show memory (r.start + wordSize + wordSize * i) = some y
    rw [hi]
    exact h.word (i + 1) y hy

/-- A range holds one list. -/
theorem Holds.unique (h : Holds memory r l) (h' : Holds memory r l') : l = l' := by
  have hlen : l.length = l'.length := h.size.symm.trans h'.size
  refine List.ext_getElem hlen fun i hi hi' => ?_
  have hw := h.word i l[i] (List.getElem?_eq_getElem hi)
  have hw' := h'.word i l'[i] (List.getElem?_eq_getElem hi')
  exact Option.some.inj (hw.symm.trans hw')

/-- What is done elsewhere does not matter. -/
theorem Holds.frame (h : Holds memory r l)
    (hm : ∀ i < r.size, memory' (r.start + wordSize * i) = memory (r.start + wordSize * i)) :
    Holds memory' r l where
  stop := h.stop
  word i x hx := by
    obtain ⟨hi, -⟩ := List.getElem?_eq_some_iff.1 hx
    rw [hm i (by rw [h.size]; exact hi)]
    exact h.word i x hx

/-! ## Going through a range -/

/-- **`while (p < stop) { … *p … ; p += sizeof(void *); }`** and what follows it. The body gets the
word and the rest of the loop, which it may leave out; `fault` is what happens at a word that
is no pointer. -/
def scan (memory : ℕ → Option α) (fault : ℕ → σ → ρ) (body : α → (σ → ρ) → σ → ρ) (done : σ → ρ)
    (stop p : ℕ) (s : σ) : ρ :=
  if p < stop then
    match memory p with
    | none => fault p s
    | some x => body x (fun s => scan memory fault body done stop (p + wordSize) s) s
  else done s
termination_by stop - p
decreasing_by
  unfold wordSize
  omega

/-- The same loop over a list. -/
def walk (body : α → (σ → ρ) → σ → ρ) (done : σ → ρ) : List α → σ → ρ
  | [], s => done s
  | x :: l, s => body x (walk body done l) s

/-- **A loop over a range is a recursion over the list that it holds.** -/
theorem scan_eq_walk {fault : ℕ → σ → ρ} {body : α → (σ → ρ) → σ → ρ} {done : σ → ρ} :
    ∀ {l : List α} {r : Range}, Holds memory r l → ∀ s,
      scan memory fault body done r.stop r.start s = walk body done l s := by
  intro l
  induction l with
  | nil =>
    intro r h s
    have hend : ¬ r.start < r.stop := by rw [h.stop, List.length_nil]; omega
    rw [scan, if_neg hend, walk]
  | cons x l ih =>
    intro r h s
    have hword : 0 < wordSize := by decide
    have hbegin : r.start < r.stop := by rw [h.stop, List.length_cons, Nat.mul_succ]; omega
    have hrest : (fun s => scan memory fault body done r.stop (r.start + wordSize) s) =
        walk body done l := funext fun s => ih h.tail s
    rw [scan, if_pos hbegin, h.head, walk]
    dsimp only
    rw [hrest]

/-! ## Sorting a range -/

/-- The ranges have no address in common. -/
def Range.Apart (r r' : Range) : Prop := r.stop ≤ r'.start ∨ r'.stop ≤ r.start

/-- **`qsort`** over the words of the range `r`: they are permuted, so that they ascend, and
nothing else is written. In which order equal elements end up is not specified. -/
structure Qsorted (le : α → α → Prop) (r : Range) (memory memory' : ℕ → Option α) : Prop where
  elsewhere : ∀ a, (∀ i < r.size, a ≠ r.start + wordSize * i) → memory' a = memory a
  words : ∀ l, Holds memory r l → ∃ l', Holds memory' r l' ∧ l'.Perm l ∧ l'.Pairwise le

/-- A range apart from the one that is sorted keeps its words. -/
theorem Qsorted.frame {le : α → α → Prop} (h : Qsorted le r memory memory') (hr : Holds memory r l)
    (hr' : Holds memory r' l') (ha : r.Apart r') : Holds memory' r' l' := by
  refine hr'.frame fun j hj => h.elsewhere _ fun i hi => ?_
  have hstop := hr.stop
  have hstop' := hr'.stop
  rw [← hr.size] at hstop
  rw [← hr'.size] at hstop'
  unfold wordSize at *
  rcases ha with ha | ha
  · omega
  · omega

/-! ## A memory for a list -/

/-- The memory that holds the words `l` from address 0 on. -/
def words (l : List α) (a : ℕ) : Option α := if a % wordSize = 0 then l[a / wordSize]? else none

theorem words_mul (l : List α) (i : ℕ) : words l (wordSize * i) = l[i]? := by
  have hw : 0 < wordSize := by decide
  rw [words, if_pos (Nat.mul_mod_right ..), Nat.mul_div_cancel_left _ hw]

/-- A part of the list is held by the range from its first word to its last. -/
theorem holds_words (l B : List α) (r : List α) :
    Holds (words (l ++ B ++ r)) ⟨wordSize * l.length, wordSize * (l.length + B.length)⟩ B where
  stop := Nat.mul_add ..
  word i x hx := by
    obtain ⟨hi, -⟩ := List.getElem?_eq_some_iff.1 hx
    show words (l ++ B ++ r) (wordSize * l.length + wordSize * i) = some x
    rw [← Nat.mul_add, words_mul, List.append_assoc, List.getElem?_append_right (by omega),
      Nat.add_sub_cancel_left, List.getElem?_append_left hi]
    exact hx

/-- Sorting the front of the list. -/
theorem qsorted_words {le : α → α → Prop} (hp : l'.Perm l) (hs : l'.Pairwise le) (rest : List α) :
    Qsorted le ⟨0, wordSize * l.length⟩ (words (l ++ rest)) (words (l' ++ rest)) where
  elsewhere a ha := by
    by_cases hmod : a % wordSize = 0
    · have hmul : a = wordSize * (a / wordSize) := by
        rw [Nat.mul_div_cancel' (Nat.dvd_of_mod_eq_zero hmod)]
      have hlen : l.length ≤ a / wordSize := by
        by_contra hlt
        refine ha (a / wordSize) ?_ (by rw [Nat.zero_add]; exact hmul)
        show (wordSize * l.length - 0) / wordSize > a / wordSize
        rw [Nat.sub_zero, Nat.mul_div_cancel_left _ (by decide)]
        omega
      have hlen' : l'.length ≤ a / wordSize := by rw [hp.length_eq]; exact hlen
      rw [hmul, words_mul, words_mul, List.getElem?_append_right hlen,
        List.getElem?_append_right hlen', hp.length_eq]
    · rw [words, words, if_neg hmod, if_neg hmod]
  words l₀ h₀ := by
    have hl := holds_words [] l rest
    have hl' := holds_words [] l' rest
    rw [List.nil_append, List.length_nil, Nat.mul_zero, Nat.zero_add] at hl hl'
    rw [hp.length_eq] at hl'
    obtain rfl := hl.unique h₀
    exact ⟨l', hl', hp, hs⟩

end Linkerset.Pointer
