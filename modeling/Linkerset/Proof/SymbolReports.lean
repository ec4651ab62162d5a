import Linkerset.Proof.SymbolOutput

/-!
# The mismatch reports

Which elements a run compares, which pairs it reports, and what a run without reports
tells about the symbols.

* `symbolInfoMain_reports`: each element that disagrees with the first one of its key is
  reported against it, in link order and with the messages about these two
  (`mismatchReport`), and nothing else is compared or reported.
* `reports_recorded_iff`: the size of an enumeration type or of a CPP integer is recorded
  but not compared, so the run tells whether the symbols of a key are identical only
  where these sizes differ together with something that is compared.
-/

namespace Linkerset

open Search

variable {E : Type*} {S : SymbolSet E}

/-! ## What is compared -/

/-- The element that `add_set_element` compares `elem` with: the one at which its
descent ends. -/
def comparedWith (S : SymbolSet E) : ℕ → Cell E → E → (Cell E → Option E) → Option E
  | 0, _, _, _ => none
  | depth + 1, root, elem, cells =>
    match cells root with
    | none => none
    | some p =>
      let cmp := strcmp (S.desc p).key (S.desc elem).key
      if cmp > 0 then comparedWith S depth (.l p) elem cells
      else if cmp < 0 then comparedWith S depth (.r p) elem cells
      else some p

/-- **Either one comparison is made, or the element is linked.** -/
theorem addSetElement_cases [DecidableEq E] {elem : E} {s s' : SymbolState E} :
    ∀ {depth : ℕ} {root : Cell E}, addSetElement S depth root elem s = .ok s' →
      (∃ p, comparedWith S depth root elem s.cells = some p ∧ compareKinds S p elem s = .ok s') ∨
        (comparedWith S depth root elem s.cells = none ∧
          ∃ c, s.cells c = none ∧ s' = { s with cells := Function.update s.cells c (some elem) }) := by
  intro depth
  induction depth with
  | zero => intro root h; cases h
  | succ depth ih =>
    intro root h
    rw [addSetElement] at h
    rw [comparedWith]
    cases hroot : s.cells root with
    | none =>
      rw [hroot] at h
      exact Or.inr ⟨rfl, root, hroot, (Except.ok.inj h).symm⟩
    | some p =>
      rw [hroot] at h
      dsimp only at h ⊢
      split at h
      · rename_i hpos
        rw [if_pos hpos]
        exact ih h
      · rename_i hpos
        rw [if_neg hpos]
        split at h
        · rename_i hneg
          rw [if_pos hneg]
          exact ih h
        · rename_i hneg
          rw [if_neg hneg]
          exact Or.inl ⟨p, rfl, h⟩

/-- In a search tree, the descent ends at the element of the key. -/
theorem comparedWith_eq_lookup {cells : Cell E → Option E} {elem : E} :
    ∀ {t : SearchTree E} {depth : ℕ} {a : Cell E}, Represents cells a t → t.height < depth →
      comparedWith S depth a elem cells = t.lookup S.key (S.key elem) := by
  intro t
  induction t with
  | nil =>
    intro depth a h hdepth
    obtain ⟨depth, rfl⟩ : ∃ d, depth = d + 1 := ⟨depth - 1, by omega⟩
    rw [comparedWith, h.nil_inv, SearchTree.lookup]
  | node l p r ihl ihr =>
    intro depth a h hdepth
    obtain ⟨depth, rfl⟩ : ∃ d, depth = d + 1 := ⟨depth - 1, by omega⟩
    rw [SearchTree.height] at hdepth
    obtain ⟨ha, hl, hr⟩ := h.node_inv
    have hleft := ihl hl (show l.height < depth by omega)
    have hright := ihr hr (show r.height < depth by omega)
    rw [comparedWith, ha, SearchTree.lookup]
    dsimp only
    rw [hleft, hright]
    simp only [strcmp_pos, strcmp_neg]

/-- In the run over the linkerset, `e` is compared with `f`; the elements `seen` stand in
front of `e`. -/
def SymbolSet.Compares [DecidableEq E] (S : SymbolSet E) (seen : List E) (f e : E) : Prop :=
  ∃ s, S.insertLoop seen = .ok s ∧ comparedWith S S.depth .linkersetRoot e s.cells = some f

variable [DecidableEq E]

/-- **An element is compared with the first one of its key**, and with no other. -/
theorem compares_iff (hk : S.KindsAgree) {seen rest : List E} {f e : E}
    (hl : S.linkerset = seen ++ e :: rest) :
    S.Compares seen f e ↔ first S.key (S.key e) seen = some f := by
  obtain ⟨s, hloop, h⟩ := insertLoop_run hk hl
  have hdepth : (SearchTree.build S.key seen).height < S.depth := by
    have hh : (SearchTree.build S.key seen).height ≤ seen.length := SearchTree.height_build_le seen
    unfold SymbolSet.depth
    rw [hl, List.length_append]
    omega
  have hlookup : comparedWith S S.depth .linkersetRoot e s.cells = first S.key (S.key e) seen := by
    rw [comparedWith_eq_lookup h.tree hdepth, SearchTree.lookup_build]
    rfl
  constructor
  · rintro ⟨s₁, hloop₁, hc⟩
    rw [hloop] at hloop₁
    rw [← Except.ok.inj hloop₁, hlookup] at hc
    exact hc
  · intro hf
    exact ⟨s, hloop, hlookup.trans hf⟩

/-! ## What is reported -/

/-- The report that `e` calls for: the first element of its key is another one, and
disagrees with it. -/
def SymbolSet.mismatchWithFirst (S : SymbolSet E) (e : E) : Option (E × E) :=
  ((first S.key (S.key e) S.linkerset).filter fun f => f ≠ e ∧ S.compared f ≠ S.compared e).map
    fun f => (f, e)

theorem conflicts_eq : conflicts S.key S.compared [] S.linkerset =
    S.linkerset.filterMap S.mismatchWithFirst := by
  rw [conflicts_eq_filterMap]
  congr 1
  funext e
  unfold SymbolSet.mismatchWithFirst
  congr 2
  funext f
  -- an element does not disagree with itself
  have hne : S.compared f ≠ S.compared e → f ≠ e := fun h hfe => h (by rw [hfe])
  simpa using hne

/-- **The reports of a run** are those that its elements call for, in link order, each with
the messages about its two elements. Some two elements mismatch exactly when something is
reported, although nothing is compared with any but the first element of its key. -/
theorem symbolInfoMain_reports (hk : S.KindsAgree) :
    ∃ s', symbolInfoMain S = .ok s' ∧ s'.pairs = S.linkerset.filterMap S.mismatchWithFirst ∧
      s'.stderr = (S.linkerset.filterMap S.mismatchWithFirst).map S.mismatchReport ∧
      (s'.stderr ≠ [] ↔ S.Mismatched) ∧
      ∀ seen e rest f, S.linkerset = seen ++ e :: rest → S.Compares seen f e →
        first S.key (S.key e) S.linkerset = some f := by
  obtain ⟨s', hR⟩ := symbolInfoMain_run hk
  refine ⟨s', hR.run, ?_, ?_, ?_, ?_⟩
  · rw [hR.pairs, conflicts_eq]
  · rw [hR.stderr, conflicts_eq]
  · rw [stderr_ne_nil_iff, hR.pairs, exists_conflict_iff]
  · intro seen e rest f hl hc
    have hfirst : first S.key (S.key e) seen = some f := (compares_iff hk hl).1 hc
    rw [hl]
    exact first_append hfirst

theorem symbolInfoMain_reports_example :
    ∃ s', symbolInfoMain nBitsProgram = .ok s' ∧
      s'.pairs = nBitsProgram.linkerset.filterMap nBitsProgram.mismatchWithFirst ∧
      s'.stderr = (nBitsProgram.linkerset.filterMap nBitsProgram.mismatchWithFirst).map
        nBitsProgram.mismatchReport ∧
      (s'.stderr ≠ [] ↔ nBitsProgram.Mismatched) ∧
      ∀ seen e rest f, nBitsProgram.linkerset = seen ++ e :: rest →
        nBitsProgram.Compares seen f e →
          first nBitsProgram.key (nBitsProgram.key e) nBitsProgram.linkerset = some f :=
  symbolInfoMain_reports nBitsProgram_kindsAgree

example : (nBitsProgram.mismatchReport (.ittybitty, .imported)).text =
    "CPP   datatypes.h:41 N_BITS  value 8  compiled: <SYMINTF_SET_MODULE not used>\n" ++
      "      datatypes.h:41 N_BITS  value 31  compiled: imported.c\n\n" := by decide

/-! ## What is recorded -/

/-- The attributes that are recorded. -/
def SymintfUnion.recorded : SymintfUnion → List (BitVec 64)
  | .structField d => [d.size, d.offset]
  | .symbolSize d => [d.size]
  | .enumMember d => [d.value, d.size]
  | .cppInteger d => [d.value, d.size]

/-- The attribute that is recorded and not compared: the size of an enumeration type or
of a CPP integer. -/
def SymintfUnion.typeSize : SymintfUnion → Option (BitVec 64)
  | .structField _ => none
  | .symbolSize _ => none
  | .enumMember d => some d.size
  | .cppInteger d => some d.size

omit [DecidableEq E] in
/-- Descriptors of one kind that agree in what is compared differ in the type size, if
at all. -/
theorem recorded_eq_iff {p q : SymintfDesc} (hk : p.kind = q.kind) :
    p.u.recorded = q.u.recorded ↔ p.u.compared = q.u.compared ∧ p.u.typeSize = q.u.typeSize := by
  rcases SymintfDesc.kind_cases hk with ⟨l, r, hp, hq⟩ | ⟨l, r, hp, hq⟩ | ⟨l, r, hp, hq⟩ | ⟨l, r, hp, hq⟩
  · simp [hp, hq, SymintfUnion.recorded, SymintfUnion.compared, SymintfUnion.typeSize]
  · simp [hp, hq, SymintfUnion.recorded, SymintfUnion.compared, SymintfUnion.typeSize]
  · simp [hp, hq, SymintfUnion.recorded, SymintfUnion.compared, SymintfUnion.typeSize]
  · simp [hp, hq, SymintfUnion.recorded, SymintfUnion.compared, SymintfUnion.typeSize]

/-- **The run reports every difference**: the key of two elements that differ in a
recorded attribute. -/
def SymbolSet.ReportsDifferences (S : SymbolSet E) (s' : SymbolState E) : Prop :=
  ∀ a ∈ S.linkerset, ∀ b ∈ S.linkerset, S.key a = S.key b →
    (S.desc a).u.recorded ≠ (S.desc b).u.recorded → s'.reported S (S.key a)

/-- Where the type sizes of two elements differ, some two elements of their key differ in
what is compared. -/
def SymbolSet.SizesCompared (S : SymbolSet E) : Prop :=
  ∀ a ∈ S.linkerset, ∀ b ∈ S.linkerset, S.key a = S.key b →
    (S.desc a).u.typeSize ≠ (S.desc b).u.typeSize →
      ∃ c ∈ S.linkerset, ∃ d ∈ S.linkerset, S.key c = S.key a ∧ S.Mismatch c d

/-- A key is reported exactly when two of its elements mismatch. -/
theorem SymbolRun.reported_key_iff {s' : SymbolState E} (h : SymbolRun S s') {k : String} :
    s'.reported S k ↔ ∃ c ∈ S.linkerset, ∃ d ∈ S.linkerset, S.key c = k ∧ S.Mismatch c d := by
  rw [reported_iff, h.pairs, conflict_iff]
  constructor
  · rintro ⟨c, hc, d, hd, hck, hdk, hne⟩
    exact ⟨c, hc, d, hd, hck, hck.trans hdk.symm, hne⟩
  · rintro ⟨c, hc, d, hd, hck, hkey, hne⟩
    exact ⟨c, hc, d, hd, hck, hkey.symm.trans hck, hne⟩

/-- **A run reports every difference** exactly when no key has elements that agree in
all that is compared and differ in their type size. -/
theorem reports_recorded_iff (hk : S.KindsAgree) :
    ∃ s', symbolInfoMain S = .ok s' ∧ (S.ReportsDifferences s' ↔ S.SizesCompared) := by
  obtain ⟨s', hR⟩ := symbolInfoMain_run hk
  refine ⟨s', hR.run, ?_, ?_⟩
  · intro h a ha b hb hkey hsize
    apply hR.reported_key_iff.1
    apply h a ha b hb hkey
    intro heq
    exact hsize ((recorded_eq_iff (hk a ha b hb hkey)).1 heq).2
  · intro h a ha b hb hkey hne
    rw [hR.reported_key_iff]
    by_cases hc : S.compared a = S.compared b
    · -- only the type sizes can differ
      apply h a ha b hb hkey
      intro hsize
      exact hne ((recorded_eq_iff (hk a ha b hb hkey)).2 ⟨hc, hsize⟩)
    · exact ⟨a, ha, b, hb, rfl, hkey, hc⟩

/-- The object files that give the member `apple` of `datatypes.h` the value 0. -/
inductive AppleFile where
  | ittybitty
  | doubly
  deriving DecidableEq, Repr

/-- The member `apple`, with one of the files compiled with short enumerations. -/
def appleProgram : SymbolSet AppleFile where
  desc
    | .ittybitty => symintfEnumAdd none "datatypes.h" 73 "enum_t" "apple" 0 1
    | .doubly => symintfEnumAdd (some "doubly.c") "datatypes.h" 73 "enum_t" "apple" 0 4
  linkerset := [.ittybitty, .doubly]

theorem appleProgram_kindsAgree : appleProgram.KindsAgree := by
  intro a _ b _ _
  cases a <;> cases b <;> rfl

theorem reports_recorded_iff_example : ∃ s', symbolInfoMain appleProgram = .ok s' ∧
    (appleProgram.ReportsDifferences s' ↔ appleProgram.SizesCompared) :=
  reports_recorded_iff appleProgram_kindsAgree

/-- The two type sizes differ, and nothing is reported. -/
theorem appleProgram_not_reported : appleProgram.KindsAgree ∧
    ∃ s', symbolInfoMain appleProgram = .ok s' ∧ s'.pairs = [] ∧
      ¬ appleProgram.ReportsDifferences s' := by
  obtain ⟨s', hrun, hpairs⟩ : ∃ s', symbolInfoMain appleProgram = .ok s' ∧ s'.pairs = [] :=
    ⟨_, rfl, rfl⟩
  refine ⟨appleProgram_kindsAgree, s', hrun, hpairs, ?_⟩
  intro h
  have hdiffer : s'.reported appleProgram (appleProgram.key .ittybitty) :=
    h .ittybitty (by decide) .doubly (by decide) rfl (by decide)
  rw [reported_iff, hpairs] at hdiffer
  obtain ⟨p, hp, -⟩ := hdiffer
  cases hp

end Linkerset
