import Linkerset.Graph.Live
import Linkerset.Proof.Frame
import Linkerset.Proof.Output

/-!
# `main` of `example.c`

The program initializes its modules, says what has happened, finalizes what it has
initialized and releases the handle. What it does to the modules is a run of the machine
of `Graph.Live`: a module is started when what it imports is up, and stopped when nothing
that is up imports it.

* `exampleMain_lifecycle`: without an import cycle, `main` is such a run, whichever init
  and fina functions fail; if no fina function does, all is down in the end.
* `exampleMain_outcome`: the lines it prints, one for each init function that failed; it
  returns unless the first init function fails.
-/

namespace Linkerset

open Linkerset.Graph

variable {M : Type*} {P : ModuleSet M}

/-! ## What is done to the modules -/

/-- The function is `NULL`, or has returned 0. -/
def succeeded (r : Option ℤ) : Bool := r.all fun r => r = 0

theorem succeeded_iff {r : Option ℤ} : succeeded r = true ↔ Passed r := by
  cases r with
  | none => simp [succeeded]
  | some r => simp [succeeded]

/-- The turns in a trace, as actions on the modules. -/
def lifecycle (t : List (Event M)) : List (Live.Action M) :=
  t.filterMap fun
    | .init m _ r => some (.start m (succeeded r))
    | .fina m r => some (.stop m (succeeded r))
    | _ => none

/-- Initialization turns, as actions. -/
def starts (T : List (M × Option ℤ)) : List (Live.Action M) :=
  T.map fun x => .start x.1 (succeeded x.2)

/-- Finalization turns, as actions. -/
def stops (T : List (M × Option ℤ)) : List (Live.Action M) :=
  T.map fun x => .stop x.1 (succeeded x.2)

/-- The modules whose turns have passed. -/
def up (T : List (M × Option ℤ)) : List M := (T.filter fun x => succeeded x.2).map Prod.fst

theorem lifecycle_append (t t' : List (Event M)) : lifecycle (t ++ t') = lifecycle t ++ lifecycle t' :=
  List.filterMap_append

/-- While nothing is finalized, modules are started. -/
theorem lifecycle_of_finas {t : List (Event M)} (h : finaTurns t = []) :
    lifecycle t = starts (initTurns t) := by
  induction t with
  | nil => rfl
  | cons e t ih =>
    have hcons : finaTurns [e] ++ finaTurns t = [] := (finaTurns_append [e] t).symm.trans h
    obtain ⟨he, ht⟩ := List.append_eq_nil_iff.1 hcons
    have hrest := ih ht
    cases e with
    | init m marks r => exact congrArg (Live.Action.start m (succeeded r) :: ·) hrest
    | fina m r => cases he
    | store i m | load i | index v | print line => exact hrest

/-- While nothing is initialized, modules are stopped. -/
theorem lifecycle_of_inits {t : List (Event M)} (h : initTurns t = []) :
    lifecycle t = stops (finaTurns t) := by
  induction t with
  | nil => rfl
  | cons e t ih =>
    have hcons : initTurns [e] ++ initTurns t = [] := (initTurns_append [e] t).symm.trans h
    obtain ⟨he, ht⟩ := List.append_eq_nil_iff.1 hcons
    have hrest := ih ht
    cases e with
    | fina m r => exact congrArg (Live.Action.stop m (succeeded r) :: ·) hrest
    | init m marks r => cases he
    | store i m | load i | index v | print line => exact hrest

theorem starts_passed {T : List (M × Option ℤ)} (h : ∀ x ∈ T, Passed x.2) :
    starts T = (T.map Prod.fst).map fun m => .start m true := by
  rw [List.map_map]
  refine List.map_congr_left fun x hx => ?_
  rw [succeeded_iff.2 (h x hx)]
  rfl

theorem stops_passed {T : List (M × Option ℤ)} (h : ∀ x ∈ T, Passed x.2) :
    stops T = (T.map Prod.fst).map fun m => .stop m true := by
  rw [List.map_map]
  refine List.map_congr_left fun x hx => ?_
  rw [succeeded_iff.2 (h x hx)]
  rfl

theorem up_passed {T : List (M × Option ℤ)} (h : ∀ x ∈ T, Passed x.2) : up T = T.map Prod.fst := by
  have hall : T.filter (fun x => succeeded x.2) = T :=
    List.filter_eq_self.2 fun x hx => succeeded_iff.2 (h x hx)
  rw [up, hall]

/-- The turn that fails brings nothing up. -/
theorem up_failed {T : List (M × Option ℤ)} {m : M} {r : ℤ} (h : ∀ x ∈ T, Passed x.2) (hr : r ≠ 0) :
    up (T ++ [(m, some r)]) = T.map Prod.fst := by
  have hm : up [(m, some r)] = [] := by simp [up, succeeded, hr]
  have happ : up (T ++ [(m, some r)]) = up T ++ up [(m, some r)] := by
    rw [up, List.filter_append, List.map_append]
    rfl
  rw [happ, hm, List.append_nil, up_passed h]

section Turns

variable {fn : M → Option (Callback M)} {mk : M → ℤ → Call M} {h : List (Call M)} {l : List M}
  {T : List (M × Option ℤ)} {succ : M → List M}

/-- **Initialization turns over a topological list** start its modules: those in front of
the one that fails. -/
theorem Turns.starts_run (ht : Turns fn mk h l T) (htopo : Topo succ l) :
    Live.Run (ReachPlus succ) ∅ (starts T) {m | m ∈ up T} := by
  by_cases hp : ∀ x ∈ T, Passed x.2
  · rw [starts_passed hp, up_passed hp, ht.complete hp]
    exact Live.Run.starts htopo
  · obtain ⟨T₁, m, r, B, rfl, hr, hpass, rfl⟩ := ht.failed hp
    have hfail : starts [(m, some r)] = [.start m false] := by simp [starts, succeeded, hr]
    rw [starts, List.map_append, ← starts, ← starts, hfail, starts_passed hpass, up_failed hpass hr]
    exact (Live.Run.starts htopo.left_of_append).append
      (.single (.startFailed (Live.mayStart_of_topo htopo)))

/-- **Finalization turns, from the back of a topological list**, stop its modules: all of
them, unless one fails. -/
theorem Turns.stops_run (ht : Turns fn mk h l.reverse T) (htopo : Topo succ l) :
    ∃ L, Live.Run (ReachPlus succ) {m | m ∈ l} (stops T) L ∧ ((∀ x ∈ T, Passed x.2) → L = ∅) := by
  by_cases hp : ∀ x ∈ T, Passed x.2
  · refine ⟨∅, ?_, fun _ => rfl⟩
    have hempty : (∅ : Set M) = {m | m ∈ ([] : List M)} := by ext m; simp
    rw [stops_passed hp, ht.complete hp, hempty]
    exact Live.Run.stops (A := []) htopo
  · obtain ⟨T₁, m, r, B, rfl, hr, hpass, hl⟩ := ht.failed hp
    have hl' : l = (B.reverse ++ [m]) ++ (T₁.map Prod.fst).reverse := by
      have hrev := congrArg List.reverse hl
      simpa using hrev
    have hfail : stops [(m, some r)] = [.stop m false] := by simp [stops, succeeded, hr]
    subst hl'
    refine ⟨{x | x ∈ B.reverse ++ [m]}, ?_, fun hall => absurd hall hp⟩
    have hrun := Live.Run.stops htopo
    rw [List.reverse_reverse] at hrun
    rw [stops, List.map_append, ← stops, ← stops, hfail, stops_passed hpass]
    exact hrun.append (.single (.stopFailed (Live.mayStop_of_topo htopo.left_of_append)))

end Turns

/-! ## The steps of `main` -/

/-- The line about a module whose init function has failed. -/
def failureLine (P : ModuleSet M) (m : M) : String :=
  "Module '" ++ (P.info m).moduleName ++ "' failed to initialized\n"

/-- The modules whose functions have failed. -/
def failures (T : List (M × Option ℤ)) : List M := ((called T).filter fun x => x.2 ≠ 0).map Prod.fst

theorem failures_passed {T : List (M × Option ℤ)} (h : ∀ x ∈ T, Passed x.2) : failures T = [] := by
  have hnone : (called T).filter (fun x => x.2 ≠ 0) = [] :=
    List.filter_eq_nil_iff.2 fun x hx => by simpa using called_of_passed h x hx
  rw [failures, hnone, List.map_nil]

theorem failures_failed {T : List (M × Option ℤ)} {m : M} {r : ℤ} (h : ∀ x ∈ T, Passed x.2)
    (hr : r ≠ 0) : failures (T ++ [(m, some r)]) = [m] := by
  have hm : failures [(m, some r)] = [m] := by simp [failures, called, hr]
  have happ : failures (T ++ [(m, some r)]) = failures T ++ failures [(m, some r)] := by
    rw [failures, called_append, List.filter_append, List.map_append]
    rfl
  rw [happ, hm, failures_passed h, List.nil_append]

variable [DecidableEq M] {ih : Handle M} {s : State M} {ord : List M} {T : List (M × Option ℤ)}

/-- The modules below `table_index` are those that are up. -/
theorem Initialized.take_index (h : Initialized P ih s ord T) :
    ord.take s.handle.tableIndex = up T := by
  by_cases hp : ∀ x ∈ T, Passed x.2
  · rw [(h.success hp).2, List.take_length, up_passed hp, h.turns.complete hp]
  · obtain ⟨-, T₁, m, r, B, rfl, hr, hpass, hord, hidx, -⟩ := h.failure hp
    rw [hidx, hord, List.take_left, up_failed hpass hr]

theorem Initialized.index_le (h : Initialized P ih s ord T) : s.handle.tableIndex ≤ ord.length := by
  by_cases hp : ∀ x ∈ T, Passed x.2
  · exact (h.success hp).2.le
  · obtain ⟨-, T₁, m, r, B, -, -, -, hord, hidx, -⟩ := h.failure hp
    rw [hidx, hord, List.length_append]
    omega

/-- `table_index` is 0 exactly when the first turn has failed. -/
theorem Initialized.index_pos_iff (h : Initialized P ih s ord T) (hne : P.linkerset ≠ []) :
    0 < s.handle.tableIndex ↔ ∀ x ∈ T.head?, Passed x.2 := by
  by_cases hp : ∀ x ∈ T, Passed x.2
  · rw [(h.success hp).2]
    exact ⟨fun _ x hx => hp x (List.mem_of_mem_head? hx), fun _ => h.length_pos hne⟩
  · obtain ⟨-, T₁, m, r, B, rfl, hr, hpass, -, hidx, -⟩ := h.failure hp
    rw [hidx]
    cases T₁ with
    | nil => simp [hr]
    | cons y T₁ =>
      have hy : Passed y.2 := hpass y (List.mem_cons_self ..)
      simp [hy]

/-- **The first `switch`** after an initialization without a cycle: a module that failed is
named, from its place in the table. -/
theorem Initialized.printResult (h : Initialized P ih s ord T) {s₁ : State M}
    (hs₁ : s₁.handle = s.handle) :
    ∃ msg, printResult P s₁ = .ok { s₁ with trace := s₁.trace ++ msg } ∧ Silent msg ∧
      printed msg = (failures T).map (failureLine P) := by
  have hstate : s₁.handle.initState = s.handle.initState := by rw [hs₁]
  unfold Linkerset.printResult
  rw [hstate]
  by_cases hp : ∀ x ∈ T, Passed x.2
  · rw [(h.success hp).1]
    refine ⟨[], by rw [List.append_nil], ⟨rfl, rfl, rfl⟩, ?_⟩
    rw [failures_passed hp]
    rfl
  · obtain ⟨hfail, T₁, m, r, B, rfl, hr, hpass, hord, hidx, -⟩ := h.failure hp
    have hm : ord[s₁.handle.tableIndex]? = some m := by rw [hs₁, hidx, hord]; simp
    have hholds : Holds s₁ ord := h.holds.of_handle (by rw [hs₁]) (by rw [hs₁])
    rw [hfail]
    dsimp only
    rw [hholds.load hm]
    refine ⟨[.load s₁.handle.tableIndex, .print (failureLine P m)], ?_, ⟨rfl, rfl, rfl⟩, ?_⟩
    · simp [bind, Except.bind, State.log, failureLine, pure, Except.pure]
    · rw [failures_failed hpass hr]
      rfl

/-- **`main` after the initialization**: the messages, one finalization, and the release of
the handle. -/
theorem Initialized.exampleMain_eq (h : Initialized P ih s ord T) :
    ∃ msg, Silent msg ∧ printed msg = (failures T).map (failureLine P) ∧
      exampleMain P .exact (State.boot ih) =
        (moduleFinalization P ⟨s.handle, s.marks, .print "*** Initializing modules.\n" ::
          (s.trace ++ msg ++ [.print "\n\n*** Finalizing modules.\n"])⟩ >>= fun s' =>
            .ok (moduleHandleFinalize .exact s')) := by
  have hbanner : calls [(.print "*** Initializing modules.\n" : Event M)] = [] := rfl
  have hrun := moduleInitialization_behind (P := P) hbanner .exact (State.boot ih)
  have hlog : (State.boot ih).behind [.print "*** Initializing modules.\n"] =
      (State.boot ih).log (.print "*** Initializing modules.\n") := rfl
  rw [h.run, hlog] at hrun
  have hbehind : (s.behind [.print "*** Initializing modules.\n"]).handle = s.handle := rfl
  obtain ⟨msg, hprint, hsilent, hlines⟩ := h.printResult hbehind
  refine ⟨msg, hsilent, hlines, ?_⟩
  have hstate : s.handle.initState = .success ∨ s.handle.initState = .failed := by
    by_cases hp : ∀ x ∈ T, Passed x.2
    · exact Or.inl (h.success hp).1
    · exact Or.inr (h.failure hp).1
  unfold exampleMain
  rw [hrun]
  simp only [Exec.behind, bind, Except.bind, hprint, finalizeResult, behind_handle, behind_trace]
  rcases hstate with hs | hs
  · rw [hs]
    rfl
  · rw [hs]
    rfl

/-! ## The run of `main` -/

/-- **A run of `main`** that ends as `r`: the modules have taken the turns `T`, and those that
are up the turns `F`, the last one first. -/
structure MainRun (P : ModuleSet M) (r : Exec M (State M)) (ord : List M) (T F : List (M × Option ℤ)) :
    Prop where
  initialization : Turns P.initFn .init [] ord T
  finalization : ∃ c, Turns P.finaFn .fina c (up T).reverse F
  inits : initTurns r.state.trace = T
  finas : finaTurns r.state.trace = F
  actions : lifecycle r.state.trace = starts T ++ stops F
  lines : printed r.state.trace = "*** Initializing modules.\n" ::
    ((failures T).map (failureLine P) ++ ["\n\n*** Finalizing modules.\n"])

omit [DecidableEq M] in
/-- The release of the handle leaves the trace. -/
theorem released_trace (a : Alloc) (r : Exec M (State M)) :
    (r >>= fun s' => .ok (moduleHandleFinalize a s')).state.trace = r.state.trace := by
  cases r with
  | ok s => rfl
  | error e => rfl

/-- **The finalization in `main`**: a run over the modules that are up, if there are any; a fault
behind the table, if there are none. -/
theorem Initialized.mainFinalization (h : Initialized P ih s ord T) (hne : P.linkerset ≠ [])
    {s₂ : State M} (hs₂ : s₂.handle = s.handle) :
    ∃ F ev, Turns P.finaFn .fina (calls s₂.trace) (up T).reverse F ∧ initTurns ev = [] ∧
      finaTurns ev = F ∧ (moduleFinalization P s₂).state.trace = s₂.trace ++ ev ∧
      ((∃ s', moduleFinalization P s₂ = .ok s') ↔ ∀ x ∈ T.head?, Passed x.2) ∧
      ((¬ ∀ x ∈ T.head?, Passed x.2) →
        ∃ s', moduleFinalization P s₂ = .error (.outOfBounds uintMax, s')) := by
  by_cases hpos : 0 < s.handle.tableIndex
  · have hhead := (h.index_pos_iff hne).1 hpos
    have hholds : Holds s₂ ord := h.holds.of_handle (by rw [hs₂]) (by rw [hs₂])
    obtain ⟨s', F, ev, hrun, hR⟩ := moduleFinalization_run (P := P) hholds (by rw [hs₂]; exact hpos)
      (by rw [hs₂]; exact h.index_le)
    have hturns := hR.turns
    rw [hs₂, h.take_index] at hturns
    exact ⟨F, ev, hturns, hR.inits, hR.finas, by rw [hrun]; exact hR.trace,
      ⟨fun _ => hhead, fun _ => ⟨s', hrun⟩⟩, fun hnot => absurd hhead hnot⟩
  · have hhead : ¬ ∀ x ∈ T.head?, Passed x.2 := fun hh => hpos ((h.index_pos_iff hne).2 hh)
    have h0 : s.handle.tableIndex = 0 := by omega
    have hup : up T = [] := by rw [← h.take_index, h0, List.take_zero]
    have hext : s₂.extent = some (some P.linkerset.length) := by
      rw [State.extent, hs₂]
      exact h.extent
    have hwrap := moduleFinalization_wraps (P := P) hext (by rw [hs₂]; exact h0)
    refine ⟨[], [.index uintMax, .load uintMax], ?_, rfl, rfl, ?_, ?_, fun _ => ⟨_, hwrap⟩⟩
    · rw [hup]
      exact .nil
    · rw [hwrap]
      simp [Exec.state]
    · refine ⟨?_, fun hh => absurd hh hhead⟩
      rintro ⟨s', hs'⟩
      rw [hwrap] at hs'
      cases hs'

/-- **`main` without an import cycle**: its run, and how it ends. -/
theorem Initialized.mainRun (h : Initialized P ih s ord T) (hne : P.linkerset ≠ []) :
    (∃ F, MainRun P (exampleMain P .exact (State.boot ih)) ord T F) ∧
      ((∃ s', exampleMain P .exact (State.boot ih) = .ok s' ∧ s'.handle = default) ↔
        ∀ x ∈ T.head?, Passed x.2) ∧
      ((¬ ∀ x ∈ T.head?, Passed x.2) →
        ∃ s', exampleMain P .exact (State.boot ih) = .error (.outOfBounds uintMax, s')) := by
  obtain ⟨msg, hsilent, hlines, hmain⟩ := h.exampleMain_eq
  generalize hs₂ : (⟨s.handle, s.marks, .print "*** Initializing modules.\n" ::
    (s.trace ++ msg ++ [.print "\n\n*** Finalizing modules.\n"])⟩ : State M) = s₂ at hmain
  have hhandle : s₂.handle = s.handle := by rw [← hs₂]
  have htrace : s₂.trace = [.print "*** Initializing modules.\n"] ++
      (s.trace ++ msg ++ [.print "\n\n*** Finalizing modules.\n"]) := by rw [← hs₂]; rfl
  obtain ⟨F, ev, hF, hinits, hfinas, hev, hok, hfault⟩ := h.mainFinalization hne hhandle
  have hinits₂ : initTurns s₂.trace = T := by
    rw [htrace, initTurns_append, initTurns_append, initTurns_append, hsilent.inits, h.inits]
    simp [initTurns]
  have hfinas₂ : finaTurns s₂.trace = [] := by
    rw [htrace, finaTurns_append, finaTurns_append, finaTurns_append, hsilent.finas, h.finas]
    rfl
  have hprinted₂ : printed s₂.trace = "*** Initializing modules.\n" ::
      ((failures T).map (failureLine P) ++ ["\n\n*** Finalizing modules.\n"]) := by
    have hinit := moduleInitialization_printed (P := P) .exact (State.boot ih)
    rw [h.run] at hinit
    have hnone : printed s.trace = [] := hinit
    rw [htrace, printed_append, printed_append, printed_append, hlines, hnone]
    rfl
  have hend : (exampleMain P .exact (State.boot ih)).state.trace = s₂.trace ++ ev := by
    rw [hmain, released_trace, hev]
  refine ⟨⟨F, h.turns, ⟨_, hF⟩, ?_, ?_, ?_, ?_⟩, ?_, ?_⟩
  · rw [hend, initTurns_append, hinits₂, hinits, List.append_nil]
  · rw [hend, finaTurns_append, hfinas₂, hfinas, List.nil_append]
  · rw [hend, lifecycle_append, lifecycle_of_finas hfinas₂, lifecycle_of_inits hinits, hinits₂, hfinas]
  · rw [hmain, released_trace, moduleFinalization_printed, hprinted₂]
  · rw [← hok, hmain]
    constructor
    · rintro ⟨s', hs', -⟩
      cases hm : moduleFinalization P s₂ with
      | ok s₃ => exact ⟨s₃, rfl⟩
      | error e => rw [hm] at hs'; cases hs'
    · rintro ⟨s₃, hm⟩
      rw [hm]
      exact ⟨_, rfl, rfl⟩
  · intro hnot
    obtain ⟨s₃, hm⟩ := hfault hnot
    rw [hmain, hm]
    exact ⟨s₃, rfl⟩

/-- Without a table there is nothing to do. -/
theorem exampleMain_memory {a : Alloc} (h : a = .null ∨ P.linkerset = []) (ih : Handle M) :
    ∃ s', exampleMain P a (State.boot ih) = .ok s' ∧ s'.handle = default ∧
      s'.trace = [.print "*** Initializing modules.\n"] := by
  have ht : (moduleHandleInitialize a ((State.boot ih).log (.print "*** Initializing modules.\n"))
      P.linkerset.length).handle.table = none := by
    rcases h with rfl | h
    · simp [moduleHandleInitialize, calloc]
    · simp [moduleHandleInitialize, h]
  unfold exampleMain moduleInitialization
  simp only [ht]
  exact ⟨_, rfl, rfl, rfl⟩

/-- **`main` starts and stops modules in the right order**, whichever of their functions fail:
at any point of the run, what is imported by a module that is up is up. If no fina function
fails, all modules are down in the end. -/
theorem exampleMain_lifecycle (hac : ¬ P.Cyclic) {a : Alloc} (ha : a ≠ .unbounded) (ih : Handle M) :
    ∃ L, Live.Run P.Imports ∅ (lifecycle (exampleMain P a (State.boot ih)).state.trace) L ∧
      ((∀ x ∈ finaCalls (exampleMain P a (State.boot ih)).state.trace, x.2 = 0) → L = ∅) ∧
      ∀ t₁ t₂, (exampleMain P a (State.boot ih)).state.trace = t₁ ++ t₂ →
        ∃ L₁, Live.Run P.Imports ∅ (lifecycle t₁) L₁ ∧ Live.Run P.Imports L₁ (lifecycle t₂) L ∧
          Live.Closed P.Imports L₁ := by
  -- a run can be looked at in the middle, and is closed there
  have hmid {t : List (Event M)} {L : Set M} (hL : Live.Run P.Imports ∅ (lifecycle t) L) :
      ∀ t₁ t₂, t = t₁ ++ t₂ → ∃ L₁, Live.Run P.Imports ∅ (lifecycle t₁) L₁ ∧
        Live.Run P.Imports L₁ (lifecycle t₂) L ∧ Live.Closed P.Imports L₁ := by
    rintro t₁ t₂ rfl
    rw [lifecycle_append] at hL
    obtain ⟨L₁, h₁, h₂⟩ := hL.split
    exact ⟨L₁, h₁, h₂, h₁.closed Live.closed_empty⟩
  by_cases hmem : a = .null ∨ P.linkerset = []
  · obtain ⟨s', hrun, -, htr⟩ := exampleMain_memory hmem ih
    have hempty : Live.Run P.Imports ∅ (lifecycle s'.trace) ∅ := by
      rw [htr]
      exact .nil
    rw [hrun]
    exact ⟨∅, hempty, fun _ => rfl, hmid hempty⟩
  · obtain ⟨hnull, hne⟩ := not_or.1 hmem
    obtain rfl : a = .exact := by cases a <;> simp_all
    obtain ⟨s, ord, T, hI⟩ := moduleInitialization_acyclic hac hne ih
    obtain ⟨⟨F, hF⟩, -⟩ := hI.mainRun hne
    obtain ⟨c, hturns⟩ := hF.finalization
    have hup : Topo P.imports (up T) := by
      rw [← hI.take_index]
      have htopo := hI.topo
      rw [← List.take_append_drop s.handle.tableIndex ord] at htopo
      exact htopo.left_of_append
    obtain ⟨L, hstop, hdown⟩ := hturns.stops_run hup
    have hL : Live.Run P.Imports ∅ (lifecycle (exampleMain P .exact (State.boot ih)).state.trace) L := by
      rw [hF.actions]
      exact (hF.initialization.starts_run hI.topo).append hstop
    refine ⟨L, hL, fun hzero => hdown (passed_of_called ?_), hmid hL⟩
    rwa [finaCalls, hF.finas] at hzero

theorem exampleMain_lifecycle_example :
    ∃ L, Live.Run (exampleProgram (failing .modC)).Imports ∅
        (lifecycle (exampleMain (exampleProgram (failing .modC)) .exact (State.boot default)).state.trace)
          L ∧
      ((∀ x ∈ finaCalls (exampleMain (exampleProgram (failing .modC)) .exact
        (State.boot default)).state.trace, x.2 = 0) → L = ∅) ∧
      ∀ t₁ t₂, (exampleMain (exampleProgram (failing .modC)) .exact (State.boot default)).state.trace =
          t₁ ++ t₂ →
        ∃ L₁, Live.Run (exampleProgram (failing .modC)).Imports ∅ (lifecycle t₁) L₁ ∧
          Live.Run (exampleProgram (failing .modC)).Imports L₁ (lifecycle t₂) L ∧
          Live.Closed (exampleProgram (failing .modC)).Imports L₁ :=
  exampleMain_lifecycle (exampleProgram_acyclic _) (by decide) default

/-- **How `main` ends**: it names the module whose init function has failed, if there is one, and
returns with the handle reset unless the very first init function has failed. Then it uses an
entry far behind the table. -/
theorem exampleMain_outcome (hac : ¬ P.Cyclic) (hne : P.linkerset ≠ []) (ih : Handle M) :
    printed (exampleMain P .exact (State.boot ih)).state.trace =
        "*** Initializing modules.\n" ::
          (((initCalls (exampleMain P .exact (State.boot ih)).state.trace).filter
            fun x => x.2 ≠ 0).map (fun x => failureLine P x.1) ++
              ["\n\n*** Finalizing modules.\n"]) ∧
      ((∃ s', exampleMain P .exact (State.boot ih) = .ok s' ∧ s'.handle = default) ↔
        ∀ r ∈ P.linkerset.head?, ∀ leaf, FirstLeaf P.imports r leaf →
          ∀ f ∈ P.initFn leaf, f [] = 0) ∧
      ((¬ ∃ s', exampleMain P .exact (State.boot ih) = .ok s' ∧ s'.handle = default) →
        ∃ s', exampleMain P .exact (State.boot ih) = .error (.outOfBounds uintMax, s')) := by
  obtain ⟨s, ord, T, hI⟩ := moduleInitialization_acyclic hac hne ih
  obtain ⟨⟨F, hF⟩, hok, hfault⟩ := hI.mainRun hne
  refine ⟨?_, hok.trans (hI.first_passes hne), ?_⟩
  · rw [hF.lines, initCalls, hF.inits, failures, List.map_map]
    rfl
  · intro hnot
    exact hfault fun hh => hnot (hok.2 hh)

theorem exampleMain_outcome_example :
    printed (exampleMain (exampleProgram (failing .modC)) .exact (State.boot default)).state.trace =
        "*** Initializing modules.\n" ::
          (((initCalls (exampleMain (exampleProgram (failing .modC)) .exact
            (State.boot default)).state.trace).filter fun x => x.2 ≠ 0).map
              (fun x => failureLine (exampleProgram (failing .modC)) x.1) ++
                ["\n\n*** Finalizing modules.\n"]) ∧
      ((∃ s', exampleMain (exampleProgram (failing .modC)) .exact (State.boot default) = .ok s' ∧
          s'.handle = default) ↔
        ∀ r ∈ (exampleProgram (failing .modC)).linkerset.head?, ∀ leaf,
          FirstLeaf (exampleProgram (failing .modC)).imports r leaf →
            ∀ f ∈ (exampleProgram (failing .modC)).initFn leaf, f [] = 0) ∧
      ((¬ ∃ s', exampleMain (exampleProgram (failing .modC)) .exact (State.boot default) = .ok s' ∧
          s'.handle = default) →
        ∃ s', exampleMain (exampleProgram (failing .modC)) .exact (State.boot default) =
          .error (.outOfBounds uintMax, s')) :=
  exampleMain_outcome (exampleProgram_acyclic _) (exampleProgram_ne_nil _) default

end Linkerset
