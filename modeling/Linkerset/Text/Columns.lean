import Mathlib.Data.List.DropRight
import Mathlib.Data.List.Forall2
import Mathlib.Data.List.Basic
import Mathlib.Data.Nat.Notation

/-!
# Tables in plain text

A table is a heading and records, each a row of cells and the details below it. The cells of
a row are padded to the width of their column; a detail is set behind a tag, under the first
column. Whoever reads it knows the number of columns and the tag, and takes the widths from
the heading.

* `lines_flatMap`: lines are read back.
* `widths_row`, `cells_row`: the widths are read from a heading, and the cells from a row.
* `readTable_table`: **what is read from a table is what was written.**
-/

namespace Linkerset.Text

/-! ## Cells -/

/-- A cell without the blanks behind it. -/
def trim (l : List Char) : List Char := l.rdropWhile (· = ' ')

/-- The text ends in no blank. -/
def Trimmed (l : List Char) : Prop := l.getLast? ≠ some ' '

/-- A word of a heading. -/
structure Word (l : List Char) : Prop where
  ne_nil : l ≠ []
  no_blank : ' ' ∉ l

theorem Word.trimmed {l : List Char} (h : Word l) : Trimmed l := fun hl =>
  h.no_blank (List.mem_of_getLast? hl)

theorem trim_append_blanks (l : List Char) (k : ℕ) : trim (l ++ List.replicate k ' ') = trim l := by
  induction k with
  | zero => rw [List.replicate_zero, List.append_nil]
  | succ k ih =>
    rw [List.replicate_succ', ← List.append_assoc, trim, List.rdropWhile_concat_pos _ _ _ (by simp)]
    exact ih

theorem trim_of_trimmed {l : List Char} (h : Trimmed l) : trim l = l := by
  refine List.rdropWhile_eq_self_iff.2 fun hl => ?_
  simpa [Trimmed, List.getLast?_eq_some_getLast hl] using h

/-- **The padding of a cell is taken away again.** -/
theorem trim_rightpad {l : List Char} (h : Trimmed l) (w : ℕ) : trim (l.rightpad w ' ') = l := by
  rw [List.rightpad, trim_append_blanks, trim_of_trimmed h]

theorem length_rightpad_of_le {l : List Char} {w : ℕ} (h : l.length ≤ w) :
    (l.rightpad w ' ').length = w := by
  rw [List.length_rightpad]
  omega

/-! ## Rows -/

/-- A row: the cells, padded and two blanks apart. -/
def row : List ℕ → List (List Char) → List Char
  | w :: v :: ws, c :: d :: cs => c.rightpad w ' ' ++ (' ' :: ' ' :: row (v :: ws) (d :: cs))
  | [w], [c] => c.rightpad w ' '
  | _, _ => []

/-- The cells of a row with the given widths. -/
def cells : List ℕ → List Char → List (List Char)
  | [], _ => []
  | w :: ws, l => trim (l.take w) :: cells ws (l.drop (w + 2))

/-- The text behind the first word and the blanks that follow it. -/
def skipWord (l : List Char) : List Char := (l.dropWhile (· ≠ ' ')).dropWhile (· = ' ')

/-- The widths of the `k` columns of a heading. -/
def widths : ℕ → List Char → List ℕ
  | 0, _ => []
  | 1, l => [l.length]
  | k + 2, l => (l.length - (skipWord l).length - 2) :: widths (k + 1) (skipWord l)

/-- Each cell fits its column. -/
def Fits (good : List Char → Prop) : List ℕ → List (List Char) → Prop :=
  List.Forall₂ fun w c => c.length ≤ w ∧ good c

variable {ws : List ℕ} {cs : List (List Char)}

/-- **The cells of a row are read back.** -/
theorem cells_row (h : Fits Trimmed ws cs) : cells ws (row ws cs) = cs := by
  induction h with
  | nil => rfl
  | @cons w c ws cs hc hrest ih =>
    obtain ⟨hle, htrim⟩ := hc
    have hlen := length_rightpad_of_le hle
    cases hrest with
    | nil =>
      have htake : (c.rightpad w ' ').take w = c.rightpad w ' ' := List.take_of_length_le hlen.le
      rw [row, cells, cells, htake, trim_rightpad htrim]
    | @cons v d ws cs _ _ =>
      have hdrop : (c.rightpad w ' ' ++ (' ' :: ' ' :: row (v :: ws) (d :: cs))).drop (w + 2) =
          row (v :: ws) (d :: cs) := by
        rw [List.drop_append, hlen, List.drop_eq_nil_of_le (by omega)]
        simp
      have htake : (c.rightpad w ' ' ++ (' ' :: ' ' :: row (v :: ws) (d :: cs))).take w =
          c.rightpad w ' ' := List.take_left' hlen
      rw [row, cells, htake, hdrop, trim_rightpad htrim, ih]

/-- A row is made of its cells, and of blanks. -/
theorem mem_row : ∀ {ws : List ℕ} {cs : List (List Char)} {x : Char}, x ∈ row ws cs →
    x = ' ' ∨ ∃ c ∈ cs, x ∈ c := by
  have hpad {w : ℕ} {c : List Char} {x : Char} (hx : x ∈ c.rightpad w ' ') : x = ' ' ∨ x ∈ c := by
    rcases List.mem_append.1 hx with hx | hx
    · exact Or.inr hx
    · exact Or.inl (List.mem_replicate.1 hx).2
  intro ws cs
  fun_induction row ws cs with
  | case1 w v ws c d cs ih =>
    intro x hx
    rcases List.mem_append.1 hx with hx | hx
    · exact (hpad hx).imp_right fun hc => ⟨c, List.mem_cons_self .., hc⟩
    · rcases List.mem_cons.1 hx with rfl | hx
      · exact Or.inl rfl
      · rcases List.mem_cons.1 hx with rfl | hx
        · exact Or.inl rfl
        · exact (ih hx).imp_right fun ⟨y, hy, hxy⟩ => ⟨y, List.mem_cons_of_mem _ hy, hxy⟩
  | case2 w c =>
    intro x hx
    exact (hpad hx).imp_right fun hc => ⟨c, List.mem_cons_self .., hc⟩
  | case3 => intro x hx; cases hx

/-- A row starts as its first cell does. -/
theorem row_cons (w : ℕ) (ws : List ℕ) (c : List Char) (cs : List (List Char))
    (h : ws.length = cs.length) : ∃ l, row (w :: ws) (c :: cs) = c ++ l := by
  cases ws with
  | nil =>
    obtain rfl : cs = [] := List.length_eq_zero_iff.1 h.symm
    exact ⟨_, rfl⟩
  | cons v ws =>
    cases cs with
    | nil => cases h
    | cons d cs => exact ⟨_, by rw [row, List.rightpad, List.append_assoc]⟩

theorem row_head {w : ℕ} {c : List Char} (hc : Word c) (h : ws.length = cs.length) :
    ∃ x l, row (w :: ws) (c :: cs) = x :: l ∧ x ≠ ' ' := by
  obtain ⟨l, hl⟩ := row_cons w ws c cs h
  cases c with
  | nil => exact absurd rfl hc.ne_nil
  | cons x c =>
    refine ⟨x, c ++ l, hl, ?_⟩
    rintro rfl
    exact hc.no_blank (List.mem_cons_self ..)

/-- Behind the first word of a heading stand the other columns. -/
theorem skipWord_row {w : ℕ} {c rest : List Char} {x : Char} (hc : Word c) (hx : x ≠ ' ') :
    skipWord (c.rightpad w ' ' ++ (' ' :: ' ' :: x :: rest)) = x :: rest := by
  have hblank : ∀ k, (List.replicate k ' ' ++ (' ' :: ' ' :: x :: rest)).dropWhile (· = ' ') =
      x :: rest := by
    intro k
    induction k with
    | zero => simp [hx]
    | succ k ih => rw [List.replicate_succ, List.cons_append, List.dropWhile_cons_of_pos (by simp), ih]
  have hword : ∀ y ∈ c, decide (y ≠ ' ') = true := by
    intro y hy
    refine decide_eq_true ?_
    rintro rfl
    exact hc.no_blank hy
  have hfront : (List.replicate (w - c.length) ' ' ++ (' ' :: ' ' :: x :: rest)).dropWhile (· ≠ ' ') =
      List.replicate (w - c.length) ' ' ++ (' ' :: ' ' :: x :: rest) := by
    cases w - c.length with
    | zero => simp
    | succ k => simp [List.replicate_succ]
  rw [skipWord, List.rightpad, List.append_assoc, List.dropWhile_append_of_pos hword, hfront, hblank]

/-- **The widths are read from a heading.** -/
theorem widths_row (h : Fits Word ws cs) : widths ws.length (row ws cs) = ws := by
  induction h with
  | nil => rfl
  | @cons w c ws cs hc hrest ih =>
    obtain ⟨hle, hword⟩ := hc
    have hlen := length_rightpad_of_le hle
    cases hrest with
    | nil => rw [row, List.length_singleton, widths, hlen]
    | @cons v d ws cs hd hrest =>
      obtain ⟨x, rest, hrow, hx⟩ := row_head (w := v) hd.2 hrest.length_eq
      have hskip : skipWord (row (w :: v :: ws) (c :: d :: cs)) = row (v :: ws) (d :: cs) := by
        rw [row, hrow, skipWord_row hword hx]
      have hwidth : (row (w :: v :: ws) (c :: d :: cs)).length - (row (v :: ws) (d :: cs)).length - 2 =
          w := by
        rw [row, List.length_append, hlen, List.length_cons, List.length_cons]
        omega
      rw [List.length_cons, List.length_cons, widths, hskip, hwidth]
      exact congrArg (w :: ·) ih

/-! ## Lines -/

/-- The lines of a text whose last line is ended too. -/
def lines (text : List Char) : List (List Char) := (text.splitOn '\n').dropLast

/-- **Lines are read back.** -/
theorem lines_flatMap : ∀ {ls : List (List Char)}, (∀ l ∈ ls, '\n' ∉ l) →
    lines (ls.flatMap fun l => l ++ ['\n']) = ls := by
  intro ls
  induction ls with
  | nil => intro _; rfl
  | cons l ls ih =>
    intro h
    obtain ⟨hl, hls⟩ := List.forall_mem_cons.1 h
    have hplain : ∀ c ∈ l, (c == '\n') = false := by
      intro c hc
      refine beq_eq_false_iff_ne.2 ?_
      rintro rfl
      exact hl hc
    have hsplit : ((l :: ls).flatMap fun l => l ++ ['\n']).splitOn '\n' =
        l :: (ls.flatMap fun l => l ++ ['\n']).splitOn '\n' := by
      rw [List.flatMap_cons, List.append_assoc, List.singleton_append, List.splitOn_eq_splitOnP,
        List.splitOn_eq_splitOnP]
      exact List.splitOnP_append_cons_of_forall_mem hplain '\n' (by rfl) _
    rw [lines, hsplit, List.dropLast_cons_of_ne_nil (List.splitOn_ne_nil _ _)]
    exact congrArg (l :: ·) (ih hls)

/-! ## Records -/

/-- A row's cells, and the details below the row. -/
structure Record where
  cells : List (List Char)
  details : List (List Char)
  deriving DecidableEq, Repr

/-- A detail, set under the first column. -/
def detailLine (w : ℕ) (tag d : List Char) : List Char := [' '].rightpad w ' ' ++ tag ++ d

/-- The lines of a record. -/
def Record.lines (ws : List ℕ) (tag : List Char) (r : Record) : List (List Char) :=
  row ws r.cells :: r.details.map (detailLine (ws.headD 0) tag)

/-- The lines of a table. -/
def table (ws : List ℕ) (tag : List Char) (heading : List (List Char)) (rs : List Record) :
    List (List Char) :=
  row ws heading :: rs.flatMap (Record.lines ws tag)

/-- A line that starts with a blank is a detail. -/
def isDetail (l : List Char) : Bool := l.head? = some ' '

/-- Lines, grouped: the details in front of the first row, and each row with the details
below it. -/
def group : List (List Char) → List (List Char) × List (List Char × List (List Char))
  | [] => ([], [])
  | l :: ls =>
    if isDetail l then (l :: (group ls).1, (group ls).2)
    else ([], (l, (group ls).1) :: (group ls).2)

/-- The records of a table with `k` columns. -/
def readTable (k : ℕ) (tag : List Char) : List (List Char) → List Record
  | [] => []
  | heading :: ls =>
    let ws := widths k heading
    (group ls).2.map fun x => ⟨cells ws x.1, x.2.map (List.drop (ws.headD 0 + tag.length))⟩

theorem group_details {ds ls : List (List Char)} (h : ∀ d ∈ ds, isDetail d = true) :
    group (ds ++ ls) = (ds ++ (group ls).1, (group ls).2) := by
  induction ds with
  | nil => rfl
  | cons d ds ih =>
    obtain ⟨hd, hds⟩ := List.forall_mem_cons.1 h
    rw [List.cons_append, group, if_pos hd, ih hds]
    rfl

variable {tag : List Char} {rs : List Record}

theorem isDetail_detailLine (w : ℕ) (d : List Char) :
    isDetail (detailLine w tag d) = true := by
  simp [isDetail, detailLine, List.rightpad]

theorem drop_detailLine {w : ℕ} (hw : 0 < w) (d : List Char) :
    (detailLine w tag d).drop (w + tag.length) = d := by
  have hlen : ([' '].rightpad w ' ' ++ tag).length = w + tag.length := by
    have hone : [' '].length ≤ w := hw
    rw [List.length_append, length_rightpad_of_le hone]
  exact List.drop_left' hlen

/-- **The lines of the records**, grouped again. -/
theorem group_records {w : ℕ} (h : ∀ r ∈ rs, isDetail (row (w :: ws) r.cells) = false) :
    group (rs.flatMap (Record.lines (w :: ws) tag)) =
      ([], rs.map fun r => (row (w :: ws) r.cells, r.details.map (detailLine w tag))) := by
  induction rs with
  | nil => rfl
  | cons r rs ih =>
    obtain ⟨hr, hrs⟩ := List.forall_mem_cons.1 h
    have hdetails : ∀ d ∈ r.details.map (detailLine w tag), isDetail d = true := by
      intro d hd
      obtain ⟨d, -, rfl⟩ := List.mem_map.1 hd
      exact isDetail_detailLine w d
    have hlines : (r :: rs).flatMap (Record.lines (w :: ws) tag) =
        row (w :: ws) r.cells ::
          (r.details.map (detailLine w tag) ++ rs.flatMap (Record.lines (w :: ws) tag)) := rfl
    rw [hlines, group, if_neg (by rw [hr]; decide), group_details hdetails, ih hrs, List.append_nil]
    rfl

/-- **What is read from a table is what was written.** -/
theorem readTable_table {w : ℕ} {heading : List (List Char)} (hw : 0 < w)
    (hhead : Fits Word (w :: ws) heading) (hcells : ∀ r ∈ rs, Fits Trimmed (w :: ws) r.cells)
    (hfirst : ∀ r ∈ rs, ∀ c ∈ r.cells.head?, Word c) :
    readTable (w :: ws).length tag (table (w :: ws) tag heading rs) = rs := by
  have hrow : ∀ r ∈ rs, isDetail (row (w :: ws) r.cells) = false := by
    intro r hr
    have hfit := hcells r hr
    obtain ⟨c, cs, hcs⟩ := List.exists_cons_of_length_eq_add_one hfit.length_eq.symm
    rw [hcs] at hfit ⊢
    have hlen : ws.length = cs.length := by
      have hlen := hfit.length_eq
      rw [List.length_cons, List.length_cons] at hlen
      omega
    obtain ⟨x, l, hl, hx⟩ := row_head (w := w) (hfirst r hr c (by rw [hcs]; rfl)) hlen
    rw [hl]
    simp [isDetail, hx]
  rw [table, readTable, widths_row hhead, group_records hrow]
  dsimp only
  rw [List.map_map]
  conv_rhs => rw [← List.map_id rs]
  refine List.map_congr_left fun r hr => ?_
  have hdetails : (r.details.map (detailLine w tag)).map (List.drop (w + tag.length)) = r.details := by
    rw [List.map_map]
    conv_rhs => rw [← List.map_id r.details]
    exact List.map_congr_left fun d _ => drop_detailLine hw d
  simp only [Function.comp_apply, List.headD_cons, cells_row (hcells r hr), hdetails, id]

end Linkerset.Text
