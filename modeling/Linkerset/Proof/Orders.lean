import Linkerset.Proof.Sort
import Linkerset.Graph.Extension

/-!
# The link order and the order of the table

A linkerset is unordered by definition, and the linker collates it in the order of the
object files. What this order decides:

* `sort_fixed_iff`: a linkerset in which imports come first is not rearranged, and no
  other one stays as it is.
* `attainable_orders`: relinking reaches every order in which imports come first.
* `sort_blocks`: every element of the linkerset stands at the end of a block of its own,
  behind the modules that it was the first to need.
* `linked_after_prefix`: object files that are linked behind a program leave the table of
  that program as it is, and their modules go behind it.
-/

namespace Linkerset

open Linkerset.Graph

variable {M N : Type*}

/-- Every module of the list stands behind the modules it imports. -/
def ModuleSet.ImportsFirst (P : ModuleSet M) (ord : List M) : Prop :=
  ∀ A m B, ord = A ++ m :: B → ∀ i ∈ P.imports m, i ∈ A

/-- The same object files, linked in another order. -/
def ModuleSet.relink (P : ModuleSet M) (l : List M) (h : l.Perm P.linkerset) : ModuleSet M where
  info := P.info
  linkerset := l
  nodup := h.nodup_iff.2 P.nodup
  complete m := h.mem_iff.2 (P.complete m)
  fits := by rw [h.length_eq]; exact P.fits

/-- A topological list is one in which imports come first. -/
theorem topo_iff {P : ModuleSet M} {ord : List M} :
    Topo P.imports ord ↔ ord.Nodup ∧ P.ImportsFirst ord := by
  constructor
  · intro h
    refine ⟨h.nodup, ?_⟩
    rintro A m B rfl
    exact h.split.2.2
  · rintro ⟨hn, hf⟩
    induction ord using List.reverseRecOn with
    | nil => exact .nil
    | append_singleton l m ih =>
      obtain ⟨hl, -, hd⟩ := List.nodup_append.1 hn
      have hm : m ∉ l := fun hm => hd m hm m (List.mem_singleton.2 rfl) rfl
      have hfl : P.ImportsFirst l := by
        rintro A x B rfl i hi
        exact hf A x (B ++ [m]) (by simp) i hi
      exact (ih hl hfl).snoc hm (hf l m [] rfl)

variable [DecidableEq M] [DecidableEq N] {P : ModuleSet M} {Q : ModuleSet N} {ih : Handle M}

/-- **The sort succeeds** and leaves the table `ord`. -/
def ModuleSet.SortsTo (P : ModuleSet M) (ih : Handle M) (ord : List M) : Prop :=
  ∃ s', topologicalSortModules P (P.fresh .exact ih) = .ok s' ∧ s'.handle.initState = .success ∧
    s'.entries = ord.map some

theorem ModuleSet.SortsTo.acyclic {ord : List M} (h : P.SortsTo ih ord) : ¬ P.Cyclic := by
  intro hcyc
  obtain ⟨s', hrun, hres, -⟩ := h
  have hcycle := ((topologicalSortModules_cycle_iff P ih).1 .exact (by decide)).2 hcyc
  rw [hrun, Exec.state, hres] at hcycle
  cases hcycle

/-- The table is what the search has finished. -/
theorem sortsTo_iff {ord : List M} :
    P.SortsTo ih ord ↔ visitList P.imports P.depth [] [] P.linkerset = .ok ord := by
  constructor
  · intro h
    obtain ⟨s₁, ord₁, hsearch, hrun₁, -, -, -, hw⟩ :=
      sort_acyclic (a := .exact) (by decide) h.acyclic ih
    obtain ⟨s', hrun, -, he⟩ := h
    obtain rfl : s' = s₁ := Except.ok.inj (hrun.symm.trans hrun₁)
    have hords : ord.map some = ord₁.map some := he.symm.trans hw.entries
    rw [(Option.some_injective M).list_map hords]
    exact hsearch
  · intro h
    have hac : ¬ P.Cyclic := by
      intro hcyc
      obtain ⟨m, hm, hd⟩ := cyclic_iff_doomed.1 hcyc
      have hok := (visitList_ok_iff (mem_modules P) (modules_lt_depth P) P.linkerset).1 ⟨ord, h⟩
      exact hok m hm hd
    obtain ⟨s₁, ord₁, hsearch, hrun, -, -, -, hw⟩ := sort_acyclic (a := .exact) (by decide) hac ih
    obtain rfl : ord = ord₁ := Except.ok.inj (h.symm.trans hsearch)
    exact ⟨s₁, hrun, hw.result, hw.entries⟩

theorem exists_sortsTo (hac : ¬ P.Cyclic) (ih : Handle M) : ∃ ord, P.SortsTo ih ord := by
  obtain ⟨s', ord, hsearch, -⟩ := sort_acyclic (a := .exact) (by decide) hac ih
  exact ⟨ord, sortsTo_iff.2 hsearch⟩

/-! ## Which orders there are -/

/-- In the table of a sort imports come first. -/
theorem ModuleSet.SortsTo.importsFirst {ord : List M} (h : P.SortsTo ih ord) :
    ord.Perm P.linkerset ∧ P.ImportsFirst ord := by
  obtain ⟨s', ord₁, hsearch, -, hperm, htopo, -⟩ :=
    sort_acyclic (a := .exact) (by decide) h.acyclic ih
  obtain rfl : ord = ord₁ := Except.ok.inj ((sortsTo_iff.1 h).symm.trans hsearch)
  exact ⟨hperm, (topo_iff.1 htopo).2⟩

/-- A linkerset in which imports come first is not rearranged. -/
theorem ModuleSet.ImportsFirst.sortsTo (h : P.ImportsFirst P.linkerset) (ih : Handle M) :
    P.SortsTo ih P.linkerset := by
  rw [sortsTo_iff]
  have htopo : Topo P.imports P.linkerset := topo_iff.2 ⟨P.nodup, h⟩
  cases hls : P.linkerset with
  | nil => rfl
  | cons m l =>
    have hdepth : P.depth = l.length + 2 := by
      unfold ModuleSet.depth
      rw [hls, List.length_cons]
    rw [hls] at htopo
    rw [hdepth]
    exact visitList_eq_self_iff.2 htopo

/-- **The sort leaves the link order as it is** exactly when imports come first in it. -/
theorem sort_fixed_iff (P : ModuleSet M) (ih : Handle M) :
    P.SortsTo ih P.linkerset ↔ P.ImportsFirst P.linkerset :=
  ⟨fun h => h.importsFirst.2, fun h => h.sortsTo ih⟩

/-- **The orders that relinking reaches** are those in which imports come first. -/
theorem attainable_orders (P : ModuleSet M) (ih : Handle M) (ord : List M) :
    (∃ l h, (P.relink l h).SortsTo ih ord) ↔ ord.Perm P.linkerset ∧ P.ImportsFirst ord := by
  constructor
  · rintro ⟨l, hl, h⟩
    obtain ⟨hperm, hfirst⟩ := h.importsFirst
    exact ⟨hperm.trans hl, hfirst⟩
  · rintro ⟨hperm, hfirst⟩
    -- linked in the order that is wanted, the program is not rearranged
    have hrelink : (P.relink ord hperm).ImportsFirst (P.relink ord hperm).linkerset := hfirst
    exact ⟨ord, hperm, hrelink.sortsTo ih⟩

/-! ## Blocks -/

/-- **The block of a linkerset element** `r`: the modules that `r` imports, directly or not,
and that no earlier element does, stand together, and `r` stands behind them; the modules
that earlier elements import stand in front. -/
theorem sort_blocks (hac : ¬ P.Cyclic) (ih : Handle M) :
    ∃ ord, P.SortsTo ih ord ∧ ∀ as r bs, P.linkerset = as ++ r :: bs →
      ∃ pre new post, ord = pre ++ new ++ post ∧
        (∀ x, x ∈ pre ↔ ∃ a ∈ as, Reach P.imports a x) ∧
        (∀ x, x ∈ new ↔ Reach P.imports r x ∧ ∀ a ∈ as, ¬ Reach P.imports a x) ∧
        (new ≠ [] → new.getLast? = some r) := by
  obtain ⟨ord, h⟩ := exists_sortsTo hac ih
  refine ⟨ord, h, ?_⟩
  intro as r bs hls
  have hsearch := sortsTo_iff.1 h
  rw [hls] at hsearch
  obtain ⟨pre, new, post, hord, -, hpre, hnew, hlast⟩ := visitList_split hsearch
  exact ⟨pre, new, post, hord, hpre, hnew, hlast⟩

theorem sort_blocks_example :
    ∃ ord, (exampleProgram fun _ => 0).SortsTo default ord ∧
      ∀ as r bs, [ExampleModule.modB, .modC, .modA] = as ++ r :: bs →
        ∃ pre new post, ord = pre ++ new ++ post ∧
          (∀ x, x ∈ pre ↔ ∃ a ∈ as, Reach (exampleProgram fun _ => 0).imports a x) ∧
          (∀ x, x ∈ new ↔ Reach (exampleProgram fun _ => 0).imports r x ∧
            ∀ a ∈ as, ¬ Reach (exampleProgram fun _ => 0).imports a x) ∧
          (new ≠ [] → new.getLast? = some r) :=
  sort_blocks (exampleProgram_acyclic _) default

/-! ## Linking further object files -/

/-- **`Q` is `P` with further object files linked behind it**: `f` says which module of `Q`
a module of `P` is. -/
structure ModuleSet.LinkedAfter (P : ModuleSet M) (Q : ModuleSet N) (f : M → N) : Prop where
  injective : Function.Injective f
  imports : ∀ m, Q.imports (f m) = (P.imports m).map f
  linkerset : P.linkerset.map f <+: Q.linkerset

omit [DecidableEq M] [DecidableEq N] in
/-- An import cycle of a part is one of the whole. -/
theorem ModuleSet.LinkedAfter.cyclic {f : M → N} (h : P.LinkedAfter Q f) (hcyc : P.Cyclic) :
    Q.Cyclic := by
  obtain ⟨m, hm⟩ := hcyc
  have hlift : ∀ a b, Edge P.imports a b → Edge Q.imports (f a) (f b) := by
    intro a b hab
    unfold Edge
    rw [h.imports]
    exact List.mem_map_of_mem hab
  exact ⟨f m, hm.lift f hlift⟩

/-- **What is linked behind a program goes behind its table.** -/
theorem linked_after_prefix {f : M → N} (h : P.LinkedAfter Q f) (hac : ¬ Q.Cyclic)
    (ih : Handle M) (ih' : Handle N) :
    ∃ ord rest, P.SortsTo ih ord ∧ Q.SortsTo ih' (ord.map f ++ rest) := by
  obtain ⟨ord, hP⟩ := exists_sortsTo (fun hcyc => hac (h.cyclic hcyc)) ih
  obtain ⟨ord', hQ⟩ := exists_sortsTo hac ih'
  obtain ⟨extra, hextra⟩ := h.linkerset
  have hdepth : P.depth ≤ Q.depth := by
    have hlen := congrArg List.length hextra
    rw [List.length_append, List.length_map] at hlen
    unfold ModuleSet.depth
    omega
  -- the roots of `P` are visited first, and their visits do not see what is behind them
  have hsearch : visitList Q.imports Q.depth [] [] (P.linkerset.map f) = .ok (ord.map f) :=
    visitList_mono hdepth (visitList_map h.injective h.imports (sortsTo_iff.1 hP))
  have hall := sortsTo_iff.1 hQ
  rw [← hextra, visitList_append, hsearch] at hall
  obtain ⟨rest, rfl⟩ := visitList_grows hall
  exact ⟨ord, rest, hP, hQ⟩

/-- The program `fina_error_example`: `example`, and `mod_error_fina` behind it. -/
def finaErrorProgram : ModuleSet (Option ExampleModule) where
  info
    | some .modA => ⟨"mod_a", [some .modB], some fun _ => 0, some fun _ => 0⟩
    | some .modB => ⟨"mod_b", [], some fun _ => 0, some fun _ => 0⟩
    | some .modC => ⟨"mod_c", [some .modB, some .modA], some fun _ => 0, some fun _ => 0⟩
    | none => ⟨"mod_error_fina", [some .modB, some .modA], some fun _ => 0, some fun _ => 1⟩
  linkerset := [some .modB, some .modC, some .modA, none]
  nodup := by decide
  complete := by
    intro m
    cases m with
    | none => decide
    | some m => cases m <;> decide
  fits := by decide

theorem finaErrorProgram_linkedAfter :
    (exampleProgram fun _ => 0).LinkedAfter finaErrorProgram some where
  injective := Option.some_injective _
  imports := by intro m; cases m <;> rfl
  linkerset := ⟨[none], rfl⟩

theorem finaErrorProgram_acyclic : ¬ finaErrorProgram.Cyclic := by
  have hsort : finaErrorProgram.SortsTo default
      [some .modB, some .modA, some .modC, none] := ⟨_, rfl, rfl, rfl⟩
  exact hsort.acyclic

theorem linked_after_prefix_example :
    ∃ ord rest, (exampleProgram fun _ => 0).SortsTo default ord ∧
      finaErrorProgram.SortsTo default (ord.map some ++ rest) :=
  linked_after_prefix finaErrorProgram_linkedAfter finaErrorProgram_acyclic default default

end Linkerset
