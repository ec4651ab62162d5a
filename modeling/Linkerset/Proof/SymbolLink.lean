import Linkerset.Search.Agree
import Linkerset.Proof.SymbolOutput

/-!
# Linking object files with symbol information

* `assertion_iff`: the assertion in `add_set_element` fails exactly when some two elements
  with one key have different kinds; all other runs return.
* `linksClean_iff`: a run returns without a report exactly when the elements of each key
  agree.
* `links_pairwise`: **object files can be linked together if any two of them can.**
* `header_sublist`: what is printed for some of the files is, in order, among what is printed
  for all of them.
-/

namespace Linkerset

open Search

variable {E : Type*} [DecidableEq E] {S : SymbolSet E}

/-! ## The assertion -/

omit [DecidableEq E] in
theorem compareKinds_assertion {p elem : E} (h : (S.desc p).kind ≠ (S.desc elem).kind)
    (s : SymbolState E) : compareKinds S p elem s = .error .assertion := by
  unfold compareKinds
  unfold SymintfDesc.kind at h
  cases hp : (S.desc p).u <;> cases he : (S.desc elem).u <;> simp_all

/-- **An element that meets one of another kind** stops the run. -/
theorem addSetElement_assertion {elem f : E} : ∀ {t : SearchTree E} {depth : ℕ} {a : Cell E}
    {s : SymbolState E}, Represents s.cells a t → t.height < depth →
      t.lookup S.key (S.key elem) = some f → (S.desc f).kind ≠ (S.desc elem).kind →
        addSetElement S depth a elem s = .error .assertion := by
  intro t
  induction t with
  | nil => intro depth a s _ _ hf _; cases hf
  | node l p r ihl ihr =>
    intro depth a s h hdepth hf hk
    obtain ⟨depth, rfl⟩ : ∃ d, depth = d + 1 := ⟨depth - 1, by omega⟩
    rw [SearchTree.height] at hdepth
    obtain ⟨ha, hl, hr⟩ := h.node_inv
    rw [addSetElement, ha]
    rw [SearchTree.lookup] at hf
    -- the three results of `strcmp`
    rcases lt_trichotomy (S.key elem) (S.key p) with hlt | heq | hgt
    · rw [if_pos hlt] at hf
      simp only [strcmp_pos.2 hlt, if_true]
      exact ihl hl (by omega) hf hk
    · rw [if_neg heq.not_lt, if_neg heq.symm.not_lt] at hf
      obtain rfl := Option.some.inj hf
      simp only [mt strcmp_pos.1 heq.not_lt, mt strcmp_neg.1 heq.symm.not_lt, if_false]
      exact compareKinds_assertion hk s
    · rw [if_neg hgt.asymm, if_pos hgt] at hf
      simp only [mt strcmp_pos.1 hgt.asymm, strcmp_neg.2 hgt, if_true, if_false]
      exact ihr hr (by omega) hf hk

omit [DecidableEq E] in
theorem kindsAgree_iff : S.KindsAgree ↔ Agree S.key (fun e => (S.desc e).kind) S.linkerset := Iff.rfl

/-- `add_set_element` does not look at the linkerset. -/
theorem addSetElement_relinked (l : List E) : ∀ (depth : ℕ) (a : Cell E) (e : E) (s : SymbolState E),
    addSetElement (S.relinked l) depth a e s = addSetElement S depth a e s := by
  intro depth
  induction depth with
  | zero => intro a e s; rfl
  | succ depth ih =>
    intro a e s
    simp only [addSetElement, ih]
    rfl

/-- The loop goes through elements whose kinds agree, whatever stands behind them. -/
theorem insertLoop_prefix {pre rest : List E} (hl : S.linkerset = pre ++ rest)
    (hpre : Agree S.key (fun e => (S.desc e).kind) pre) :
    ∃ s, S.insertLoop pre = .ok s ∧ Inserted S s pre := by
  cases pre with
  | nil => exact ⟨.start, rfl, .nil rfl, fun _ _ => ⟨rfl, rfl⟩⟩
  | cons a pre =>
    -- a linkerset of the same length, which agrees as a whole
    have hmem : ∀ x ∈ (a :: pre) ++ List.replicate rest.length a, x ∈ a :: pre := by
      intro x hx
      rcases List.mem_append.1 hx with hx | hx
      · exact hx
      · rw [(List.mem_replicate.1 hx).2]
        exact List.mem_cons_self ..
    have hagree : (S.relinked ((a :: pre) ++ List.replicate rest.length a)).KindsAgree :=
      fun x hx y hy => hpre x (hmem x hx) y (hmem y hy)
    obtain ⟨s, hrun, hins⟩ := insertLoop_run hagree (l := a :: pre) rfl
    have hdepth : (S.relinked ((a :: pre) ++ List.replicate rest.length a)).depth = S.depth := by
      unfold SymbolSet.depth SymbolSet.relinked
      rw [hl]
      simp
    refine ⟨s, ?_, hins.tree, hins.fresh⟩
    unfold SymbolSet.insertLoop at hrun
    simp only [addSetElement_relinked, hdepth] at hrun
    exact hrun

/-- **A key with two kinds** stops the run. -/
theorem symbolInfoMain_assertion (hk : ¬ S.KindsAgree) : symbolInfoMain S = .error .assertion := by
  obtain ⟨pre, e, post, hl, hpre, a, ha, hkey, hne⟩ :=
    exists_first_disagreement (mt kindsAgree_iff.2 hk)
  obtain ⟨s, hloop, hins⟩ := insertLoop_prefix hl hpre
  -- the element of the tree that has the key of `e`
  obtain ⟨f, hf⟩ := exists_first ha hkey
  obtain ⟨hfl, hfk⟩ := first_eq_some hf
  have hfe : (S.desc f).kind ≠ (S.desc e).kind := by
    have hfa : (S.desc f).kind = (S.desc a).kind := hpre f hfl a ha (hfk.trans hkey.symm)
    rw [hfa]
    exact hne
  have hdepth : (SearchTree.build S.key pre).height < S.depth := by
    have hh : (SearchTree.build S.key pre).height ≤ pre.length := SearchTree.height_build_le pre
    unfold SymbolSet.depth
    rw [hl, List.length_append]
    omega
  have hstop : addSetElement S S.depth .linkersetRoot e s = .error .assertion := by
    refine addSetElement_assertion hins.tree hdepth ?_ hfe
    rw [SearchTree.lookup_build]
    exact hf
  unfold SymbolSet.insertLoop at hloop
  unfold symbolInfoMain
  rw [hl, List.foldlM_append, hloop]
  simp only [bind, Except.bind, List.foldlM_cons, hstop]

/-- A run that returns has seen one kind for each key. -/
theorem kindsAgree_of_run {s' : SymbolState E} (h : symbolInfoMain S = .ok s') : S.KindsAgree := by
  by_contra hk
  rw [symbolInfoMain_assertion hk] at h
  cases h

/-- **When the assertion fails.** -/
theorem assertion_iff (S : SymbolSet E) :
    (symbolInfoMain S = .error .assertion ↔ ¬ S.KindsAgree) ∧
      ((∃ s', symbolInfoMain S = .ok s') ↔ S.KindsAgree) := by
  refine ⟨⟨?_, symbolInfoMain_assertion⟩, ⟨?_, ?_⟩⟩
  · intro h hk
    obtain ⟨s', hR⟩ := symbolInfoMain_run hk
    rw [hR.run] at h
    cases h
  · rintro ⟨s', hrun⟩
    exact kindsAgree_of_run hrun
  · intro hk
    obtain ⟨s', hR⟩ := symbolInfoMain_run hk
    exact ⟨s', hR.run⟩

/-! ## Clean links -/

/-- **The elements `l` link without a complaint.** -/
def SymbolSet.LinksClean (S : SymbolSet E) (l : List E) : Prop :=
  ∃ s', symbolInfoMain (S.relinked l) = .ok s' ∧ s'.stderr = []

omit [DecidableEq E] in
/-- The kind of an element, and what is compared of it. -/
def SymbolSet.attributes (S : SymbolSet E) (e : E) : SymintfKind × List (BitVec 64) :=
  ((S.desc e).kind, S.compared e)

/-- **A link is clean** exactly when the elements of each key agree. -/
theorem linksClean_iff (l : List E) : S.LinksClean l ↔ Agree S.key S.attributes l := by
  have hagree : Agree S.key S.attributes l ↔
      (S.relinked l).KindsAgree ∧ ¬ (S.relinked l).Mismatched := by
    constructor
    · intro h
      refine ⟨fun a ha b hb hk => congrArg Prod.fst (h a ha b hb hk), ?_⟩
      rintro ⟨a, ha, b, hb, hk, hne⟩
      exact hne (congrArg Prod.snd (h a ha b hb hk))
    · rintro ⟨hk, hm⟩ a ha b hb hkey
      refine Prod.ext (hk a ha b hb hkey) ?_
      by_contra hne
      exact hm ⟨a, ha, b, hb, hkey, hne⟩
  rw [hagree]
  constructor
  · rintro ⟨s', hrun, herr⟩
    have hk := kindsAgree_of_run hrun
    obtain ⟨s₁, hR⟩ := symbolInfoMain_run hk
    obtain rfl := Except.ok.inj (hrun.symm.trans hR.run)
    refine ⟨hk, fun hm => ?_⟩
    have hne : s'.stderr ≠ [] := by
      rw [stderr_ne_nil_iff, hR.pairs]
      exact exists_conflict_iff.2 hm
    exact hne herr
  · rintro ⟨hk, hm⟩
    obtain ⟨s', hR⟩ := symbolInfoMain_run hk
    refine ⟨s', hR.run, ?_⟩
    by_contra hne
    rw [← ne_eq, stderr_ne_nil_iff, hR.pairs] at hne
    exact hm (exists_conflict_iff.1 hne)

/-- **Object files link cleanly** exactly when any two of them do. -/
theorem links_pairwise (S : SymbolSet E) (files : List (List E)) :
    S.LinksClean files.flatten ↔ ∀ f ∈ files, ∀ g ∈ files, S.LinksClean (f ++ g) := by
  simp only [linksClean_iff]
  exact agree_flatten_iff

/-! ## Headers -/

/-- What a clean run prints. -/
theorem clean_run {l : List E} (h : S.LinksClean l) :
    ∃ s', symbolInfoMain (S.relinked l) = .ok s' ∧ s'.stderr = [] ∧ s'.programReturnCode = 0 ∧
      s'.stdout = S.lines (SearchTree.build S.key l).toList := by
  obtain ⟨s', hrun, herr⟩ := h
  have hk := kindsAgree_of_run hrun
  obtain ⟨s₁, hR⟩ := symbolInfoMain_run hk
  obtain rfl := Except.ok.inj (hrun.symm.trans hR.run)
  have hpairs : s'.pairs = [] := by rw [SymbolState.pairs, herr, List.map_nil]
  have hcode : s'.programReturnCode = 0 := by
    rw [hR.code, hpairs]
    simp
  refine ⟨s', hrun, herr, hcode, ?_⟩
  rw [hR.stdout, if_pos hcode]
  rfl

omit [DecidableEq E] in
/-- What is printed for an element is determined by its key, where the link is clean. -/
theorem printElement_agree {l : List E} (hd : ∀ e ∈ l, (S.desc e).Declared)
    (h : Agree S.key S.attributes l) : Agree S.key (fun e => printElement (S.desc e)) l := by
  intro a ha b hb hk
  have hab := h a ha b hb hk
  exact printElement_congr (hd a ha) (hd b hb) (congrArg Prod.fst hab) hk (congrArg Prod.snd hab)

/-- **The header of a part** of what links cleanly is, line by line and in order, among the header
of the whole. -/
theorem header_sublist {l l' : List E} (hd : ∀ e ∈ l, (S.desc e).Declared) (h : S.LinksClean l)
    (hl : l' ⊆ l) :
    ∃ s s', symbolInfoMain (S.relinked l) = .ok s ∧ symbolInfoMain (S.relinked l') = .ok s' ∧
      s'.stderr = [] ∧ s'.programReturnCode = 0 ∧ s'.stdout.Sublist s.stdout := by
  have hagree := (linksClean_iff l).1 h
  have h' : S.LinksClean l' := (linksClean_iff l').2 (hagree.subset hl)
  obtain ⟨s, hrun, -, -, hout⟩ := clean_run h
  obtain ⟨s', hrun', herr', hcode', hout'⟩ := clean_run h'
  refine ⟨s, s', hrun, hrun', herr', hcode', ?_⟩
  rw [hout, hout']
  have hprint := printElement_agree hd hagree
  exact flatMap_build_sublist (fun a ha => List.mem_map_of_mem (hl ha))
    fun a ha b hb => hprint a (hl ha) b hb

/-- Some of the symbols of `datatypes.h`. -/
inductive DoublySymbol where
  | nBits
  | apple
  | listPrev
  | listNext
  | listSize
  deriving DecidableEq, Repr

/-- These symbols in the program `doubly_interface`. -/
def doublyProgram : SymbolSet DoublySymbol where
  desc
    | .nBits => symintfCppIntAdd (some "doubly.c") "datatypes.h" 41 "N_BITS" 31 4
    | .apple => symintfEnumAdd (some "doubly.c") "datatypes.h" 73 "enum_t" "apple" 0 4
    | .listPrev => symintfStructFieldAdd (some "doubly.c") "datatypes.h" 90 "list_t" "prev" 8 40
    | .listNext => symintfStructFieldAdd (some "doubly.c") "datatypes.h" 92 "list_t" "next" 8 48
    | .listSize => symintfSymbolSizeAdd (some "doubly.c") "datatypes.h" 93 "list_t" 56
  linkerset := [.nBits, .apple, .listPrev, .listNext, .listSize]

theorem doublyProgram_declared : ∀ e ∈ doublyProgram.linkerset, (doublyProgram.desc e).Declared := by
  intro e _
  cases e with
  | nBits => exact .cppInteger ..
  | apple => exact .enumMember ..
  | listPrev | listNext => exact .structField ..
  | listSize => exact .symbolSize ..

theorem doublyProgram_clean : doublyProgram.LinksClean doublyProgram.linkerset := ⟨_, rfl, rfl⟩

theorem header_sublist_example :
    ∃ s s', symbolInfoMain (doublyProgram.relinked doublyProgram.linkerset) = .ok s ∧
      symbolInfoMain (doublyProgram.relinked [.listSize, .listNext]) = .ok s' ∧ s'.stderr = [] ∧
      s'.programReturnCode = 0 ∧ s'.stdout.Sublist s.stdout :=
  header_sublist doublyProgram_declared doublyProgram_clean (by decide)

end Linkerset
