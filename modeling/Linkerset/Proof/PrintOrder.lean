import Linkerset.Spec.PrintOrder
import Linkerset.Text.Columns
import Linkerset.Proof.ExampleMain
import Linkerset.Proof.EntryPaths
import Linkerset.Proof.CycleRun

/-!
# What `print_order.c` prints

* `printOrderMain_acyclic`: without an import cycle, the heading and the lines of all modules,
  in the order of the sort.
* `printOrderMain_cycle`: with one, the report, if it fits into the table.
-/

namespace Linkerset

open Linkerset.Graph

variable {M : Type*} {P : ModuleSet M}

/-! ## Reading the table -/

/-- The table starts with the entries `l`. -/
def Shows (s : State M) (l : List M) : Prop :=
  ∀ i m, l[i]? = some m → ∃ t, s.handle.table = some t ∧ t.Covers i ∧ t.cell i = some m

theorem Shows.of_handle {s s' : State M} {l : List M} (h : Shows s l)
    (ht : s'.handle.table = s.handle.table) : Shows s' l := by
  intro i m hi
  rw [ht]
  exact h i m hi

theorem Shows.load {s : State M} {l : List M} (h : Shows s l) {i : ℕ} {m : M} (hi : l[i]? = some m) :
    s.load i = .ok (m, s.log (.load i)) := by
  obtain ⟨t, ht, hc, hm⟩ := h i m hi
  exact State.load_ok ht hc hm

/-- The sort leaves its rows at the front of the table. -/
theorem Shows.of_wrote {s s₁ : State M} {B : ℕ} {r : InitializationResult} {l : List M}
    (hcov : ∀ i < l.length, s.Covers i) (hw : Wrote s s₁ B r (l.map some)) : Shows s₁ l := by
  intro i m hi
  obtain ⟨hlt, rfl⟩ := List.getElem?_eq_some_iff.1 hi
  obtain ⟨t, ht, hc⟩ := State.covers_of_extent hw.extent (hcov i hlt)
  exact ⟨t, ht, hc, State.entries_getElem ht hw.entries hlt⟩

/-! ## The loops over the table -/

/-- The widths that hold the names of the modules `l`. -/
def FunctionNames.widths (N : FunctionNames P) (l : List M) : Widths := l.foldl N.widen .headings

/-- The lines about one module. -/
def FunctionNames.moduleLines (N : FunctionNames P) (w : Widths) (m : M) : List String :=
  w.line (P.info m).moduleName (N.initFnName m) (N.finaFnName m) ::
    (P.imports m).map fun imp => w.importLine (P.info imp).moduleName

/-- The lines about the modules `l`, below their heading. -/
def FunctionNames.page (N : FunctionNames P) (l : List M) : List String :=
  (N.widths l).line "Module" "Initialization" "Finalization" ::
    l.flatMap (N.moduleLines (N.widths l))

/-- What a loop over the table leaves, when it has printed the lines `L`. -/
structure Went (s s' : State M) (k : ℕ) (L : List String) : Prop where
  table : s'.handle.table = s.handle.table
  size : s'.handle.tableSize = s.handle.tableSize
  index : s'.handle.tableIndex = k
  printed : printed s'.trace = printed s.trace ++ L

variable {N : FunctionNames P} {w : Widths}

/-- A loop over the table has gone through the modules `pre`, and has `suf` before it. -/
structure Between (s : State M) (pre suf : List M) : Prop where
  shows : Shows s (pre ++ suf)
  size : s.handle.tableSize = (pre ++ suf).length
  index : s.handle.tableIndex = pre.length

namespace Between

variable {s s' : State M} {pre suf : List M} {m : M}

theorem start (hs : Shows s suf) (hsize : s.handle.tableSize = suf.length) :
    Between (s.setIndex 0) [] suf := ⟨hs.of_handle rfl, hsize, rfl⟩

theorem not_lt (h : Between s pre []) : ¬ s.handle.tableIndex < s.handle.tableSize := by
  rw [h.size, h.index, List.append_nil]
  omega

theorem lt (h : Between s pre (m :: suf)) : s.handle.tableIndex < s.handle.tableSize := by
  rw [h.size, h.index, List.length_append, List.length_cons]
  omega

theorem load (h : Between s pre (m :: suf)) :
    s.load s.handle.tableIndex = .ok (m, s.log (.load s.handle.tableIndex)) :=
  h.shows.load (by rw [h.index]; simp)

/-- `++ih->table_index`, when the handle is as it was. -/
theorem next (h : Between s pre (m :: suf)) (hs' : s'.handle = s.handle) :
    Between (s'.setIndex (s'.handle.tableIndex + 1)) (pre ++ [m]) suf := by
  have hsplit : pre ++ [m] ++ suf = pre ++ m :: suf := by simp
  refine ⟨?_, ?_, ?_⟩
  · rw [hsplit]
    exact h.shows.of_handle (by rw [State.setIndex_table, hs'])
  · rw [hsplit, State.setIndex_tableSize, hs']
    exact h.size
  · rw [State.setIndex_tableIndex, hs', h.index, List.length_append, List.length_singleton]

end Between

/-- **The first loop** measures the modules behind the index. -/
theorem measureTable_run : ∀ {suf pre : List M} {s : State M} {n : ℕ} {w : Widths},
    Between s pre suf → suf.length < n →
      ∃ s', measureTable N n w s = .ok (suf.foldl N.widen w, s') ∧
        Went s s' (pre ++ suf).length [] := by
  intro suf
  induction suf with
  | nil =>
    intro pre s n w h hn
    obtain ⟨n, rfl⟩ : ∃ k, n = k + 1 := ⟨n - 1, by omega⟩
    rw [measureTable, if_neg h.not_lt, List.append_nil]
    exact ⟨s, rfl, rfl, rfl, h.index, (List.append_nil _).symm⟩
  | cons m suf ih =>
    intro pre s n w h hn
    rw [List.length_cons] at hn
    obtain ⟨n, rfl⟩ : ∃ k, n = k + 1 := ⟨n - 1, by omega⟩
    have hload : (s.log (.load s.handle.tableIndex)).handle = s.handle := rfl
    have hn' : suf.length < n := by omega
    obtain ⟨s', hrun, hwent⟩ := ih (w := N.widen w m) (h.next hload) hn'
    have hlen : (pre ++ [m] ++ suf).length = (pre ++ m :: suf).length := by simp
    rw [measureTable, if_pos h.lt, h.load]
    refine ⟨s', hrun, hwent.table, hwent.size, hwent.index.trans hlen, ?_⟩
    rw [hwent.printed, State.setIndex_trace, State.log_trace, printed_append, printed_append]
    simp [printed]

/-- The loop over the imports prints one line for each. -/
theorem printImports_run : ∀ (ws : List M) (s : State M), (printImports P w ws s).handle = s.handle ∧
    printed (printImports P w ws s).trace =
      printed s.trace ++ ws.map fun imp => w.importLine (P.info imp).moduleName := by
  intro ws
  induction ws with
  | nil => intro s; exact ⟨rfl, (List.append_nil _).symm⟩
  | cons imp ws ih =>
    intro s
    obtain ⟨hh, hp⟩ := ih (s.log (.print (w.importLine (P.info imp).moduleName)))
    refine ⟨hh, ?_⟩
    rw [printImports, hp, State.log_trace, printed_append, List.append_assoc]
    rfl

/-- **The second loop** prints the lines of the modules behind the index. -/
theorem printTable_run : ∀ {suf pre : List M} {s : State M} {n : ℕ}, Between s pre suf →
    suf.length < n → ∃ s', printTable N w n s = .ok s' ∧
      Went s s' (pre ++ suf).length (suf.flatMap (N.moduleLines w)) := by
  intro suf
  induction suf with
  | nil =>
    intro pre s n h hn
    obtain ⟨n, rfl⟩ : ∃ k, n = k + 1 := ⟨n - 1, by omega⟩
    rw [printTable, if_neg h.not_lt, List.append_nil]
    exact ⟨s, rfl, rfl, rfl, h.index, (List.append_nil _).symm⟩
  | cons m suf ih =>
    intro pre s n h hn
    rw [List.length_cons] at hn
    obtain ⟨n, rfl⟩ : ∃ k, n = k + 1 := ⟨n - 1, by omega⟩
    generalize hs₁ : (s.log (.load s.handle.tableIndex)).log (.print
      (w.line (P.info m).moduleName (N.initFnName m) (N.finaFnName m))) = s₁
    have hh₁ : s₁.handle = s.handle := by rw [← hs₁]; rfl
    obtain ⟨hh₂, hp₂⟩ := printImports_run (P := P) (w := w) (P.info m).imports s₁
    have hn' : suf.length < n := by omega
    obtain ⟨s', hrun, hwent⟩ := ih (h.next (hh₂.trans hh₁)) hn'
    have hlen : (pre ++ [m] ++ suf).length = (pre ++ m :: suf).length := by simp
    rw [printTable, if_pos h.lt, h.load]
    simp only [bind, Except.bind, hs₁]
    refine ⟨s', hrun, ?_, ?_, hwent.index.trans hlen, ?_⟩
    · rw [hwent.table, State.setIndex_table, hh₂, hh₁]
    · rw [hwent.size, State.setIndex_tableSize, hh₂, hh₁]
    · rw [hwent.printed, State.setIndex_trace, printed_append, hp₂, ← hs₁, State.log_trace,
        State.log_trace, printed_append, printed_append]
      simp [printed, FunctionNames.moduleLines]

/-! ## The page -/

theorem assertFull_ok {s : State M} (h : s.handle.tableIndex = s.handle.tableSize) :
    assertFull s = .ok s := if_pos h

/-- **`case IR_SUCCESS`** prints the page of the modules in the table. -/
theorem printOrder_run {s : State M} {l : List M} (hs : Shows s l)
    (hsize : s.handle.tableSize = l.length) :
    ∃ s', printOrder N s = .ok s' ∧ printed s'.trace = printed s.trace ++ N.page l := by
  have hn : l.length < s.handle.tableSize + 1 := by omega
  obtain ⟨s₁, hrun₁, hwent₁⟩ := measureTable_run (N := N) (w := .headings) (.start hs hsize) hn
  have hsize₁ : s₁.handle.tableSize = l.length := hwent₁.size.trans hsize
  have hfull₁ : s₁.handle.tableIndex = s₁.handle.tableSize := hwent₁.index.trans hsize₁.symm
  generalize hs₂ : s₁.log (.print ((N.widths l).line "Module" "Initialization" "Finalization")) = s₂
  have hh₂ : s₂.handle = s₁.handle := by rw [← hs₂]; rfl
  have hsize₂ : s₂.handle.tableSize = l.length := by rw [hh₂, hsize₁]
  have hshows₂ : Shows s₂ l := hs.of_handle (by rw [hh₂, hwent₁.table, State.setIndex_table])
  have hn₂ : l.length < s₂.handle.tableSize + 1 := by omega
  obtain ⟨s₃, hrun₃, hwent₃⟩ := printTable_run (N := N) (w := N.widths l) (.start hshows₂ hsize₂) hn₂
  have hfull₃ : s₃.handle.tableIndex = s₃.handle.tableSize :=
    hwent₃.index.trans (hwent₃.size.trans hsize₂).symm
  refine ⟨s₃, ?_, ?_⟩
  · have hwidths : l.foldl N.widen .headings = N.widths l := rfl
    unfold printOrder
    rw [hrun₁, hwidths]
    simp only [bind, Except.bind, assertFull_ok hfull₁, hs₂, hrun₃, assertFull_ok hfull₃]
  · rw [hwent₃.printed, State.setIndex_trace, printed_append, ← hs₂, State.log_trace, printed_append,
      hwent₁.printed, State.setIndex_trace, printed_append]
    simp [printed, FunctionNames.page]

/-! ## The report -/

/-- The line about a module of a cycle. -/
def cycleLine (P : ModuleSet M) (m : M) : String := "  " ++ (P.info m).moduleName ++ "\n"

/-- One round of the loop over a report. -/
def cycleEntry (P : ModuleSet M) (s : State M) (i : ℕ) : Exec M (State M) :=
  s.load i >>= fun entry => .ok (entry.2.log (.print (cycleLine P entry.1)))

theorem printCycle_eq (s : State M) :
    printCycle P s = (List.range (max 1 s.handle.tableIndex)).foldlM (cycleEntry P) s := rfl

/-- The loop over a report prints one line for each entry. -/
theorem printCycle_run {s : State M} {l : List M} (hs : Shows s l)
    (hidx : s.handle.tableIndex = l.length) (hne : l ≠ []) :
    ∃ s', printCycle P s = .ok s' ∧ s'.handle = s.handle ∧
      printed s'.trace = printed s.trace ++ l.map (cycleLine P) := by
  have hpos := List.length_pos_of_ne_nil hne
  have hprefix : ∀ k ≤ l.length, ∃ s', (List.range k).foldlM (cycleEntry P) s = Except.ok s' ∧
      s'.handle = s.handle ∧ printed s'.trace = printed s.trace ++ (l.take k).map (cycleLine P) := by
    intro k
    induction k with
    | zero => intro _; exact ⟨s, rfl, rfl, by simp⟩
    | succ k ih =>
      intro hk
      obtain ⟨s₁, hrun, hh, hp⟩ := ih (by omega)
      have hm : l[k]? = some l[k] := List.getElem?_eq_getElem hk
      have hs₁ : Shows s₁ l := hs.of_handle (by rw [hh])
      refine ⟨(s₁.log (.load k)).log (.print (cycleLine P l[k])), ?_, hh, ?_⟩
      · rw [List.range_succ, List.foldlM_append, hrun]
        simp only [bind, Except.bind, List.foldlM_cons, cycleEntry, hs₁.load hm]
        rfl
      · have htake : (l.take (k + 1)).map (cycleLine P) =
            (l.take k).map (cycleLine P) ++ [cycleLine P l[k]] := by
          rw [List.take_succ_eq_append_getElem hk, List.map_append, List.map_singleton]
        rw [State.log_trace, State.log_trace, printed_append, printed_append, hp, htake,
          List.append_assoc, List.append_assoc]
        rfl
  obtain ⟨s', hrun, hh, hp⟩ := hprefix l.length le_rfl
  refine ⟨s', ?_, hh, by rw [hp, List.take_length]⟩
  have hmax : max 1 s.handle.tableIndex = l.length := by omega
  rw [printCycle_eq, hmax]
  exact hrun

/-- **`case IR_CYCLE`** prints the report in the table. -/
theorem printResult_cycle {s : State M} {l : List M} (hs : Shows s l)
    (hstate : s.handle.initState = .cycle) (hidx : s.handle.tableIndex = l.length) (hne : l ≠ []) :
    ∃ s', printResult P s = .ok s' ∧ printed s'.trace =
      printed s.trace ++ "Error, cycle detected involving:\n" :: (l.map (cycleLine P) ++ ["\n"]) := by
  obtain ⟨s', hrun, -, hp⟩ := printCycle_run (P := P)
    (s := s.log (.print "Error, cycle detected involving:\n")) (hs.of_handle rfl) hidx hne
  refine ⟨s'.log (.print "\n"), ?_, ?_⟩
  · unfold printResult
    rw [hstate]
    dsimp only
    rw [hrun]
    rfl
  · rw [State.log_trace, printed_append, hp, State.log_trace, printed_append]
    simp [printed]

/-! ## `main` -/

variable [DecidableEq M] {ih : Handle M}

/-- The sort has printed nothing. -/
theorem sort_printed {a : Alloc} {s₁ : State M}
    (hsort : topologicalSortModules P (P.fresh a ih) = .ok s₁) : printed s₁.trace = [] := by
  have h := topologicalSortModules_printed (P := P) (P.fresh a ih)
  rw [hsort] at h
  exact h

/-- **`main` without an import cycle.** -/
theorem printOrderMain_acyclic (hac : ¬ P.Cyclic) (N : FunctionNames P) (ih : Handle M) :
    ∃ s' ord, visitList P.imports P.depth [] [] P.linkerset = .ok ord ∧
      printOrderMain N .exact (State.boot ih) = .ok s' ∧ s'.handle = default ∧
      printed s'.trace = N.page ord ∧ ord.Perm P.linkerset ∧ Topo P.imports ord := by
  obtain ⟨s₁, ord, hsearch, hsort, hperm, htopo, -, hw⟩ := sort_acyclic (a := .exact) (by decide) hac ih
  have hcov : ∀ i < ord.length, (P.fresh .exact ih).Covers i := by
    intro i hi
    rw [hperm.length_eq] at hi
    exact fresh_covers (by decide) hi
  have hsize : s₁.handle.tableSize = ord.length := by
    rw [hw.size, hperm.length_eq]
    rfl
  obtain ⟨s₂, hrun, hp⟩ := printOrder_run (N := N) (Shows.of_wrote hcov hw) hsize
  refine ⟨moduleHandleFinalize .exact s₂, ord, hsearch, ?_, rfl, ?_, hperm, htopo⟩
  · have hresult : printOrderResult N s₁ = .ok s₂ := by
      unfold printOrderResult
      rw [hw.result]
      exact hrun
    unfold printOrderMain
    rw [printOrderSort_eq, hsort]
    simp only [bind, Except.bind, hresult]
    rfl
  · rw [sort_printed hsort, List.nil_append] at hp
    exact hp

/-- The functions of the program `example`. -/
def exampleNames : FunctionNames (exampleProgram fun _ => 0) where
  initFnName _ := "module_init"
  finaFnName _ := "module_fina"
  identifier := by intro m; unfold Identifier; cases m <;> decide
  stringized := by intro m; unfold Stringized; decide
  fits := by intro m; cases m <;> decide

example : exampleNames.page [.modB, .modA] =
    ["Module  Initialization  Finalization\n", "mod_b   module_init     module_fina \n",
      "mod_a   module_init     module_fina \n", "        import: mod_b\n"] := by decide

/-- **`main` with an import cycle** prints the report, innermost module first, and returns if
the report fits into the table: if its path leaves out some module. -/
theorem printOrderMain_cycle (hcyc : P.Cyclic) (N : FunctionNames P) (ih : Handle M) :
    ∃ x q, CyclicWalk P.imports P.linkerset x q ∧
      ((∃ s', printOrderMain N .exact (State.boot ih) = .ok s') ↔ q.length < P.linkerset.length) ∧
      ∀ s', printOrderMain N .exact (State.boot ih) = .ok s' → s'.handle = default ∧
        printed s'.trace =
          "Error, cycle detected involving:\n" :: ((x :: q).map (cycleLine P) ++ ["\n"]) := by
  obtain ⟨x, q, d₀, hwalk, -, -, hu, -⟩ := sort_cyclic (a := .exact) (by decide) hcyc ih
  refine ⟨x, q, hwalk, ?_⟩
  have hmain : printOrderMain N .exact (State.boot ih) =
      (topologicalSortModules P (P.fresh .exact ih) >>= fun s => printOrderResult N s >>= fun s =>
        .ok (moduleHandleFinalize .exact s)) := by
    unfold printOrderMain
    rw [printOrderSort_eq]
    rfl
  generalize hsort : topologicalSortModules P (P.fresh .exact ih) = res at hu hmain
  cases hu with
  | @inside s₁ hc hw _ =>
    have hq : q.length < P.linkerset.length := fresh_exact_covers (hc q.length (by simp))
    have hidx : s₁.handle.tableIndex = (x :: q).length := by rw [hw.index, List.length_map]
    obtain ⟨s₂, hrun, hp⟩ := printResult_cycle (P := P) (Shows.of_wrote hc hw) hw.result hidx (by simp)
    have hresult : printOrderResult N s₁ = .ok s₂ := by
      unfold printOrderResult
      rw [hw.result]
      exact hrun
    have hok : printOrderMain N .exact (State.boot ih) = .ok (moduleHandleFinalize .exact s₂) := by
      rw [hmain]
      simp only [bind, Except.bind, hresult]
    refine ⟨⟨fun _ => hq, fun _ => ⟨_, hok⟩⟩, ?_⟩
    intro s' hs'
    obtain rfl := Except.ok.inj (hok.symm.trans hs')
    refine ⟨rfl, ?_⟩
    rw [sort_printed hsort, List.nil_append] at hp
    exact hp
  | @outside f s₁ i m hi hc _ _ =>
    have hnot : ∀ s', printOrderMain N .exact (State.boot ih) ≠ .ok s' := by
      intro s' hs'
      rw [hmain] at hs'
      cases hs'
    refine ⟨⟨?_, ?_⟩, fun s' hs' => absurd hs' (hnot s')⟩
    · rintro ⟨s', hs'⟩
      exact absurd hs' (hnot s')
    · intro hq
      rw [List.length_cons] at hi
      exact absurd (fresh_covers (by decide) (by omega)) hc

/-- The functions of the program `cycle_example`. -/
def cycleNames : FunctionNames cycleProgram where
  initFnName
    | .modA | .modB | .modC => "module_init"
    | .cycle0 => "module_cycle_0_init"
    | .cycle1 => "module_cycle_1_init"
    | .cycle2 => "module_cycle_2_init"
  finaFnName
    | .modA | .modB | .modC => "module_fina"
    | .cycle0 => "module_cycle_0_fina"
    | .cycle1 => "module_cycle_1_fina"
    | .cycle2 => "module_cycle_2_fina"
  identifier := by intro m; unfold Identifier; cases m <;> decide
  stringized := by intro m; unfold Stringized; cases m <;> decide
  fits := by intro m; cases m <;> decide

theorem printOrderMain_cycle_example :
    ∃ x q, CyclicWalk cycleProgram.imports cycleProgram.linkerset x q ∧
      ((∃ s', printOrderMain cycleNames .exact (State.boot default) = .ok s') ↔ q.length < 6) ∧
      ∀ s', printOrderMain cycleNames .exact (State.boot default) = .ok s' → s'.handle = default ∧
        printed s'.trace = "Error, cycle detected involving:\n" ::
          ((x :: q).map (cycleLine cycleProgram) ++ ["\n"]) :=
  printOrderMain_cycle cycleProgram_cyclic cycleNames default

end Linkerset
