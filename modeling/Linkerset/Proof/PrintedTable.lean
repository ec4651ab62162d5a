import Linkerset.Proof.PrintOrder
import Linkerset.Proof.Orders

/-!
# Reading what `print_order.c` has printed

* `page_lines`: the page is a table in the sense of `Text.Columns`, with three columns, and
  with the imports of a module as the details below its row.
* `printOrder_readTable`: **what is read from the output is the table of modules**: their
  names, the names of their functions, and what they import.
* `printOrder_announces`: **`example.c` initializes its modules in the order of the rows**,
  and finalizes them in the opposite order.
-/

namespace Linkerset

open Linkerset.Graph

variable {M : Type*} {P : ModuleSet M}

/-- What stands between the first column and the name of an import. -/
def importTag : List Char := "  import: ".toList

/-- What is printed about a module. -/
def FunctionNames.record (N : FunctionNames P) (m : M) : Text.Record where
  cells := [(P.info m).moduleName.toList, (N.initFnName m).toList, (N.finaFnName m).toList]
  details := (P.imports m).map fun imp => (P.info imp).moduleName.toList

/-- The columns, from left to right. -/
def Widths.columns (w : Widths) : List ℕ := [w.maxMname, w.maxIname, w.maxFname]

/-- The headings of the columns. -/
def headings : List (List Char) :=
  ["Module".toList, "Initialization".toList, "Finalization".toList]

/-! ## Names -/

theorem Identifier.word {s : String} (h : Identifier s) : Text.Word s.toList where
  ne_nil := h.1
  no_blank := fun hb => absurd (List.all_eq_true.1 h.2 ' ' hb) (by decide)

theorem Identifier.no_newline {s : String} (h : Identifier s) : '\n' ∉ s.toList :=
  fun hb => absurd (List.all_eq_true.1 h.2 '\n' hb) (by decide)

theorem Stringized.trimmed {s : String} (h : Stringized s) : Text.Trimmed s.toList := h.2

theorem Stringized.no_newline {s : String} (h : Stringized s) : '\n' ∉ s.toList :=
  fun hb => absurd (List.all_eq_true.1 h.1 '\n' hb) (by decide)

/-! ## Widths -/

variable {N : FunctionNames P}

/-- A column is wide enough for a name of the length `k`. -/
structure Widths.Le (w v : Widths) : Prop where
  maxMname : w.maxMname ≤ v.maxMname
  maxIname : w.maxIname ≤ v.maxIname
  maxFname : w.maxFname ≤ v.maxFname

theorem Widths.Le.trans {u v w : Widths} (h : u.Le v) (h' : v.Le w) : u.Le w :=
  ⟨h.maxMname.trans h'.maxMname, h.maxIname.trans h'.maxIname, h.maxFname.trans h'.maxFname⟩

/-- The lengths of a module's names. -/
def FunctionNames.lengths (N : FunctionNames P) (m : M) : Widths where
  maxMname := (P.info m).moduleName.length
  maxIname := (N.initFnName m).length
  maxFname := (N.finaFnName m).length

theorem le_widen (w : Widths) (m : M) : w.Le (N.widen w m) ∧ (N.lengths m).Le (N.widen w m) :=
  ⟨⟨le_max_left .., le_max_left .., le_max_left ..⟩,
    ⟨le_max_right .., le_max_right .., le_max_right ..⟩⟩

/-- Measuring only widens columns, and makes room for every module. -/
theorem le_foldl_widen : ∀ (l : List M) (w : Widths), w.Le (l.foldl N.widen w) ∧
    ∀ m ∈ l, (N.lengths m).Le (l.foldl N.widen w) := by
  intro l
  induction l with
  | nil => intro w; exact ⟨⟨le_rfl, le_rfl, le_rfl⟩, by simp⟩
  | cons m l ih =>
    intro w
    obtain ⟨hw, hm⟩ := le_widen (N := N) w m
    obtain ⟨hfold, hrest⟩ := ih (N.widen w m)
    refine ⟨hw.trans hfold, ?_⟩
    intro x hx
    rcases List.mem_cons.1 hx with rfl | hx
    · exact hm.trans hfold
    · exact hrest x hx

/-! ## Lines -/

@[simp] theorem toList_padRight (w : ℕ) (s : String) :
    (padRight w s).toList = s.toList.rightpad w ' ' := String.toList_ofList

theorem toList_blank : " ".toList = [' '] := by decide

theorem toList_blanks : "  ".toList = [' ', ' '] := by decide

theorem toList_newline : "\n".toList = ['\n'] := by decide

theorem line_toList (w : Widths) (mname iname fname : String) :
    (w.line mname iname fname).toList =
      Text.row w.columns [mname.toList, iname.toList, fname.toList] ++ ['\n'] := by
  simp only [Widths.line, Widths.columns, Text.row, String.toList_append, toList_padRight,
    toList_blanks, toList_newline, List.append_assoc, List.cons_append, List.nil_append]

theorem importLine_toList (w : Widths) (imp : String) :
    (w.importLine imp).toList = Text.detailLine w.maxMname importTag imp.toList ++ ['\n'] := by
  -- for any tag, so that the literal is not taken apart
  have htag : ∀ tag : String, (padRight w.maxMname " " ++ tag ++ imp ++ "\n").toList =
      Text.detailLine w.maxMname tag.toList imp.toList ++ ['\n'] := by
    intro tag
    simp only [Text.detailLine, String.toList_append, toList_padRight, toList_blank, toList_newline]
  exact htag "  import: "

/-- The text of one module is its record. -/
theorem moduleLines_toList (w : Widths) (m : M) :
    (N.moduleLines w m).flatMap String.toList =
      ((N.record m).lines w.columns importTag).flatMap fun l => l ++ ['\n'] := by
  have himports : ∀ ws : List M, (ws.map fun imp => w.importLine (P.info imp).moduleName).flatMap
      String.toList = ((ws.map fun imp => (P.info imp).moduleName.toList).map
        (Text.detailLine w.maxMname importTag)).flatMap fun l => l ++ ['\n'] := by
    intro ws
    rw [List.flatMap_map, List.map_map, List.flatMap_map]
    refine List.flatMap_congr fun imp _ => ?_
    exact importLine_toList w _
  rw [FunctionNames.moduleLines, List.flatMap_cons, himports, line_toList]
  rfl

/-- **The page is a table.** -/
theorem page_lines (l : List M) :
    (N.page l).flatMap String.toList =
      (Text.table (N.widths l).columns importTag headings (l.map N.record)).flatMap
        fun line => line ++ ['\n'] := by
  have hrows : (l.flatMap (N.moduleLines (N.widths l))).flatMap String.toList =
      ((l.map N.record).flatMap (Text.Record.lines (N.widths l).columns importTag)).flatMap
        fun line => line ++ ['\n'] := by
    rw [List.flatMap_assoc, List.flatMap_map, List.flatMap_assoc]
    exact List.flatMap_congr fun m _ => moduleLines_toList _ m
  rw [FunctionNames.page, List.flatMap_cons, hrows, line_toList]
  rfl

/-- The headings are words that fit their columns. -/
theorem fits_headings (l : List M) : Text.Fits Text.Word (N.widths l).columns headings := by
  obtain ⟨h, -⟩ := le_foldl_widen (N := N) l .headings
  have hm : Text.Word "Module".toList := ⟨by decide, by decide⟩
  have hi : Text.Word "Initialization".toList := ⟨by decide, by decide⟩
  have hf : Text.Word "Finalization".toList := ⟨by decide, by decide⟩
  exact .cons ⟨h.maxMname, hm⟩ (.cons ⟨h.maxIname, hi⟩ (.cons ⟨h.maxFname, hf⟩ .nil))

/-- The names of a module in the table fit their columns. -/
theorem fits_record {l : List M} {m : M} (hm : m ∈ l) :
    Text.Fits Text.Trimmed (N.widths l).columns (N.record m).cells := by
  obtain ⟨-, hl⟩ := le_foldl_widen (N := N) l .headings
  have h := hl m hm
  obtain ⟨hi, hf⟩ := N.stringized m
  exact .cons ⟨h.maxMname, (N.identifier m).word.trimmed⟩
    (.cons ⟨h.maxIname, hi.trimmed⟩ (.cons ⟨h.maxFname, hf.trimmed⟩ .nil))

theorem record_no_newline (m : M) : ∀ c ∈ (N.record m).cells ++ (N.record m).details, '\n' ∉ c := by
  intro c hc
  obtain ⟨hi, hf⟩ := N.stringized m
  rcases List.mem_append.1 hc with hc | hc
  · simp only [FunctionNames.record, List.mem_cons, List.not_mem_nil, or_false] at hc
    rcases hc with rfl | rfl | rfl
    · exact (N.identifier m).no_newline
    · exact hi.no_newline
    · exact hf.no_newline
  · obtain ⟨imp, -, rfl⟩ := List.mem_map.1 hc
    exact (N.identifier imp).no_newline

/-- The lines of the table are lines. -/
theorem page_no_newline (l : List M) :
    ∀ line ∈ Text.table (N.widths l).columns importTag headings (l.map N.record), '\n' ∉ line := by
  have hrow {cs : List (List Char)} (hcs : ∀ c ∈ cs, '\n' ∉ c) :
      '\n' ∉ Text.row (N.widths l).columns cs := by
    intro h
    rcases Text.mem_row h with h | ⟨c, hc, hn⟩
    · exact absurd h (by decide)
    · exact hcs c hc hn
  intro line hline
  rcases List.mem_cons.1 hline with rfl | hline
  · exact hrow (by decide)
  · obtain ⟨r, hr, hline⟩ := List.mem_flatMap.1 hline
    obtain ⟨m, -, rfl⟩ := List.mem_map.1 hr
    rcases List.mem_cons.1 hline with rfl | hline
    · exact hrow fun c hc => record_no_newline m c (List.mem_append_left _ hc)
    · obtain ⟨d, hd, rfl⟩ := List.mem_map.1 hline
      intro h
      rcases List.mem_append.1 h with h | h
      · rcases List.mem_append.1 h with h | h
        · rcases List.mem_append.1 h with h | h
          · exact absurd (List.mem_singleton.1 h) (by decide)
          · exact absurd (List.mem_replicate.1 h).2 (by decide)
        · exact absurd h (by decide)
      · exact record_no_newline m d (List.mem_append_right _ hd) h

/-- **The page of `l` is read back.** -/
theorem page_readTable (l : List M) :
    Text.readTable 3 importTag (Text.lines ((N.page l).flatMap String.toList)) = l.map N.record := by
  rw [page_lines, Text.lines_flatMap (page_no_newline l)]
  refine Text.readTable_table ?_ (fits_headings l) ?_ ?_
  · obtain ⟨h, -⟩ := le_foldl_widen (N := N) l .headings
    exact lt_of_lt_of_le (by decide) h.maxMname
  · intro r hr
    obtain ⟨m, hm, rfl⟩ := List.mem_map.1 hr
    exact fits_record hm
  · intro r hr c hc
    obtain ⟨m, -, rfl⟩ := List.mem_map.1 hr
    obtain rfl := Option.some.inj hc
    exact (N.identifier m).word

/-! ## The output of `main` -/

variable [DecidableEq M]

/-- **What is read from the output is the table of modules**, in an order in which imports come
first. -/
theorem printOrder_readTable (hac : ¬ P.Cyclic) (N : FunctionNames P) (ih : Handle M) :
    ∃ s' ord, printOrderMain N .exact (State.boot ih) = .ok s' ∧ s'.handle = default ∧
      Text.readTable 3 importTag (Text.lines (output s'.trace)) = ord.map N.record ∧
      ord.Perm P.linkerset ∧ P.ImportsFirst ord := by
  obtain ⟨s', ord, -, hrun, hh, hp, hperm, htopo⟩ := printOrderMain_acyclic hac N ih
  refine ⟨s', ord, hrun, hh, ?_, hperm, (topo_iff.1 htopo).2⟩
  rw [output, hp]
  exact page_readTable ord

theorem printOrder_readTable_example :
    ∃ s' ord, printOrderMain exampleNames .exact (State.boot default) = .ok s' ∧
      s'.handle = default ∧
      Text.readTable 3 importTag (Text.lines (output s'.trace)) = ord.map exampleNames.record ∧
      ord.Perm [.modB, .modC, .modA] ∧ (exampleProgram fun _ => 0).ImportsFirst ord :=
  printOrder_readTable (exampleProgram_acyclic _) exampleNames default

/-- The names in the first column of a table. -/
def firstColumn (rs : List Text.Record) : List (List Char) := rs.filterMap fun r => r.cells.head?

/-- The names of the modules that took the turns `T`. -/
def turnNames (P : ModuleSet M) (T : List (M × Option ℤ)) : List (List Char) :=
  T.map fun x => (P.info x.1).moduleName.toList

omit [DecidableEq M] in
theorem firstColumn_records (l : List M) :
    firstColumn (l.map N.record) = l.map fun m => (P.info m).moduleName.toList := by
  rw [firstColumn, List.filterMap_map]
  exact congrFun List.filterMap_eq_map' l

/-- **`example.c` initializes its modules in the order of the rows** that `print_order.c` prints
for them, as far as it gets; when no init function fails, it goes through all rows, and then
backwards for the finalization. -/
theorem printOrder_announces (hac : ¬ P.Cyclic) (N : FunctionNames P) (ih ih' : Handle M) :
    ∃ s' rows, printOrderMain N .exact (State.boot ih) = .ok s' ∧
      rows = firstColumn (Text.readTable 3 importTag (Text.lines (output s'.trace))) ∧
      turnNames P (initTurns (exampleMain P .exact (State.boot ih')).state.trace) <+: rows ∧
      ((∀ x ∈ initCalls (exampleMain P .exact (State.boot ih')).state.trace, x.2 = 0) →
        turnNames P (initTurns (exampleMain P .exact (State.boot ih')).state.trace) = rows ∧
        turnNames P (finaTurns (exampleMain P .exact (State.boot ih')).state.trace) <+:
          rows.reverse) := by
  obtain ⟨s', ord, hsearch, hrun, -, hp, hperm, -⟩ := printOrderMain_acyclic hac N ih
  have hrows : firstColumn (Text.readTable 3 importTag (Text.lines (output s'.trace))) =
      ord.map fun m => (P.info m).moduleName.toList := by
    rw [output, hp, page_readTable, firstColumn_records]
  refine ⟨s', _, hrun, hrows.symm, ?_⟩
  have hnames : ∀ T : List (M × Option ℤ), turnNames P T =
      (T.map Prod.fst).map fun m => (P.info m).moduleName.toList := fun T => by
    rw [turnNames, List.map_map]
    rfl
  rw [hnames, hnames]
  by_cases hne : P.linkerset = []
  · obtain ⟨s₁, hmain, -, htr⟩ := exampleMain_memory (a := .exact) (Or.inr hne) ih'
    obtain rfl : ord = [] := List.Perm.eq_nil (hne ▸ hperm)
    rw [hmain, Exec.state, htr]
    simp [initTurns, finaTurns]
  · obtain ⟨s₁, ord₁, T, hI⟩ := moduleInitialization_acyclic hac hne ih'
    obtain rfl : ord₁ = ord := Except.ok.inj (hI.search.symm.trans hsearch)
    obtain ⟨⟨F, hF⟩, -⟩ := hI.mainRun hne
    obtain ⟨c, hfina⟩ := hF.finalization
    rw [initCalls, hF.inits, hF.finas]
    refine ⟨hI.turns.front.map _, fun hzero => ?_⟩
    have hpass : ∀ x ∈ T, Passed x.2 := passed_of_called hzero
    have hall := hI.turns.complete hpass
    rw [up_passed hpass, hall] at hfina
    rw [hall, ← List.map_reverse]
    exact ⟨rfl, hfina.front.map _⟩

theorem printOrder_announces_example :
    ∃ s' rows, printOrderMain exampleNames .exact (State.boot default) = .ok s' ∧
      rows = firstColumn (Text.readTable 3 importTag (Text.lines (output s'.trace))) ∧
      turnNames (exampleProgram fun _ => 0) (initTurns (exampleMain (exampleProgram fun _ => 0) .exact
        (State.boot default)).state.trace) <+: rows ∧
      ((∀ x ∈ initCalls (exampleMain (exampleProgram fun _ => 0) .exact
          (State.boot default)).state.trace, x.2 = 0) →
        turnNames (exampleProgram fun _ => 0) (initTurns (exampleMain (exampleProgram fun _ => 0)
          .exact (State.boot default)).state.trace) = rows ∧
        turnNames (exampleProgram fun _ => 0) (finaTurns (exampleMain (exampleProgram fun _ => 0)
          .exact (State.boot default)).state.trace) <+: rows.reverse) :=
  printOrder_announces (exampleProgram_acyclic _) exampleNames default default

end Linkerset
