import Linkerset.Proof.SymbolTree

/-!
# What a run of `symbol_info_manager` tells

* `exits_on_mismatch_iff`: the exit status is 1 after a report only if some
  structure field mismatches, since no other comparison sets
  `program_return_code`.
* `symbolInfoMain_perm`: the order of the linkerset matters neither to the exit
  status nor to the keys reported, and without a report not to the output.
-/

namespace Linkerset

open Search

variable {E : Type*} {S : SymbolSet E} {s' : SymbolState E}

/-- Some two elements of the linkerset mismatch. -/
def SymbolSet.Mismatched (S : SymbolSet E) : Prop :=
  ∃ a ∈ S.linkerset, ∃ b ∈ S.linkerset, S.Mismatch a b

/-- Some two structure fields of the linkerset mismatch. -/
def SymbolSet.FieldMismatched (S : SymbolSet E) : Prop :=
  ∃ a ∈ S.linkerset, ∃ b ∈ S.linkerset, S.Mismatch a b ∧ (S.desc a).kind = .structField

/-- **The exit status tells of every mismatch.** -/
structure SymbolSet.ExitsOnMismatch (S : SymbolSet E) (s' : SymbolState E) : Prop where
  status : s'.programReturnCode = 1 ↔ s'.stderr ≠ []
  complete : s'.stderr ≠ [] ↔ S.Mismatched
  silent : s'.stderr ≠ [] → s'.stdout = []

/-- The reported keys are those of the reported pairs. -/
theorem reported_iff {k : String} : s'.reported S k ↔ ∃ p ∈ s'.pairs, S.key p.1 = k := by
  simp [SymbolState.reported, SymbolState.pairs]

theorem stderr_ne_nil_iff : s'.stderr ≠ [] ↔ ∃ p, p ∈ s'.pairs := by
  have hmap : s'.stderr ≠ [] ↔ s'.pairs ≠ [] := not_congr List.map_eq_nil_iff.symm
  rw [hmap]
  exact ⟨List.exists_mem_of_ne_nil _, fun ⟨_, hp⟩ => List.ne_nil_of_mem hp⟩

theorem exists_conflict_iff : (∃ p, p ∈ conflicts S.key S.compared [] S.linkerset) ↔ S.Mismatched := by
  constructor
  · rintro ⟨p, hp⟩
    obtain ⟨h1, h2, hk, hne⟩ := conflicts_sound hp
    exact ⟨p.1, h1, p.2, h2, hk, hne⟩
  · rintro ⟨a, ha, b, hb, hk, hne⟩
    obtain ⟨p, hp, -⟩ := conflict_iff.2 ⟨a, ha, b, hb, rfl, hk.symm, hne⟩
    exact ⟨p, hp⟩

theorem exists_fieldConflict_iff (hk : S.KindsAgree) :
    (∃ p ∈ conflicts S.key S.compared [] S.linkerset, S.FieldPair p) ↔ S.FieldMismatched := by
  constructor
  · rintro ⟨p, hp, hf⟩
    obtain ⟨h1, h2, hkey, hne⟩ := conflicts_sound hp
    exact ⟨p.1, h1, p.2, h2, ⟨hkey, hne⟩, hf⟩
  · rintro ⟨a, ha, b, hb, ⟨hkey, hne⟩, hf⟩
    obtain ⟨p, hp, hpk⟩ := conflict_iff.2 ⟨a, ha, b, hb, rfl, hkey.symm, hne⟩
    exact ⟨p, hp, (hk p.1 (conflicts_sound hp).1 a ha hpk).trans hf⟩

variable [DecidableEq E]

/-- The exit status is 1 or 0, and tells of structure fields only. -/
theorem SymbolRun.code_cases (h : SymbolRun S s') (hk : S.KindsAgree) :
    (S.FieldMismatched ∧ s'.programReturnCode = 1) ∨
      (¬ S.FieldMismatched ∧ s'.programReturnCode = 0) := by
  have hfield := exists_fieldConflict_iff hk
  rw [← h.pairs] at hfield
  have hcode := h.code
  split at hcode
  · rename_i hp
    exact Or.inl ⟨hfield.1 hp, hcode⟩
  · rename_i hp
    exact Or.inr ⟨fun hf => hp (hfield.2 hf), hcode⟩

/-- **The exit status tells of every mismatch** exactly when there is none, or one
of structure fields. -/
theorem exits_on_mismatch_iff (hk : S.KindsAgree) :
    ∃ s', symbolInfoMain S = .ok s' ∧
      (S.ExitsOnMismatch s' ↔ (S.Mismatched → S.FieldMismatched)) := by
  obtain ⟨s', hR⟩ := symbolInfoMain_run hk
  have hcomplete : s'.stderr ≠ [] ↔ S.Mismatched := by
    rw [stderr_ne_nil_iff, hR.pairs, exists_conflict_iff]
  refine ⟨s', hR.run, ?_, ?_⟩
  · intro h hm
    have hone := h.status.2 (hcomplete.2 hm)
    -- a status of 1 comes from structure fields
    rcases hR.code_cases hk with ⟨hf, -⟩ | ⟨-, hzero⟩
    · exact hf
    · rw [hzero] at hone; cases hone
  · intro h
    have hstatus : s'.programReturnCode = 1 ↔ s'.stderr ≠ [] := by
      rw [hcomplete]
      rcases hR.code_cases hk with ⟨hf, hone⟩ | ⟨hnf, hzero⟩
      · obtain ⟨a, ha, b, hb, hm, -⟩ := hf
        exact ⟨fun _ => ⟨a, ha, b, hb, hm⟩, fun _ => hone⟩
      · rw [hzero]
        constructor
        · intro h01; cases h01
        · intro hm; exact absurd (h hm) hnf
    refine ⟨hstatus, hcomplete, ?_⟩
    intro hne
    rw [hR.stdout, hstatus.2 hne]
    rfl

/-- Two of the object files of `compatability_checker`. -/
inductive ObjectFile where
  | ittybitty
  | imported
  deriving DecidableEq, Repr

/-- The symbol `N_BITS` of `datatypes.h` in these two files. -/
def nBitsProgram : SymbolSet ObjectFile where
  desc
    | .ittybitty => symintfCppIntAdd none "datatypes.h" 41 "N_BITS" 8 4
    | .imported => symintfCppIntAdd (some "imported.c") "datatypes.h" 41 "N_BITS" 31 4
  linkerset := [.ittybitty, .imported]

theorem nBitsProgram_kindsAgree : nBitsProgram.KindsAgree := by
  intro a _ b _ _
  cases a <;> cases b <;> rfl

theorem exits_on_mismatch_iff_example : ∃ s', symbolInfoMain nBitsProgram = .ok s' ∧
    (nBitsProgram.ExitsOnMismatch s' ↔
      (nBitsProgram.Mismatched → nBitsProgram.FieldMismatched)) :=
  exits_on_mismatch_iff nBitsProgram_kindsAgree

/-- The mismatch is reported, but the exit status is 0, and one of the two values is
printed. -/
theorem nBitsProgram_not_exits : nBitsProgram.KindsAgree ∧
    ∃ s', symbolInfoMain nBitsProgram = .ok s' ∧ s'.programReturnCode = 0 ∧
      s'.pairs = [(.ittybitty, .imported)] ∧ s'.stdout = ["#define N_BITS (8)\n"] ∧
      ¬ nBitsProgram.ExitsOnMismatch s' := by
  obtain ⟨s', hrun, hzero, hpairs, hout⟩ : ∃ s', symbolInfoMain nBitsProgram = .ok s' ∧
      s'.programReturnCode = 0 ∧ s'.pairs = [(.ittybitty, .imported)] ∧
      s'.stdout = ["#define N_BITS (8)\n"] := ⟨_, rfl, rfl, rfl, rfl⟩
  refine ⟨nBitsProgram_kindsAgree, s', hrun, hzero, hpairs, hout, ?_⟩
  intro h
  have hone := h.status.2 (stderr_ne_nil_iff.2 ⟨_, by rw [hpairs]; exact List.mem_singleton.2 rfl⟩)
  rw [hzero] at hone
  cases hone

/-! ## The order of the linkerset -/

omit [DecidableEq E] in
/-- What is printed for a declared symbol is determined by its kind, its key and its
compared attributes. -/
theorem printElement_congr {p q : SymintfDesc} (hp : p.Declared) (hq : q.Declared)
    (hkind : p.kind = q.kind) (hkey : p.key = q.key) (hc : p.u.compared = q.u.compared) :
    printElement p = printElement q := by
  cases hp with
  | structField =>
    cases hq with
    | structField =>
      simp only [symintfStructFieldAdd, SymintfUnion.compared, List.cons.injEq, and_true] at hkey hc
      obtain ⟨hsize, hoffset⟩ := hc
      simp only [symintfStructFieldAdd, printElement, printTreeStructField, hkey, hsize, hoffset]
    | symbolSize | enumMember | cppInteger => cases hkind
  | symbolSize =>
    cases hq with
    | symbolSize =>
      simp only [symintfSymbolSizeAdd, SymintfUnion.compared, List.cons.injEq, and_true] at hkey hc
      simp only [symintfSymbolSizeAdd, printElement, printTreeSymbolSize, hkey, hc]
    | structField | enumMember | cppInteger => cases hkind
  | enumMember =>
    cases hq with
    | enumMember =>
      simp only [symintfEnumAdd, SymintfUnion.compared, List.cons.injEq, and_true] at hkey hc
      simp only [symintfEnumAdd, printElement, printTreeEnumElement, hkey, hc]
    | structField | symbolSize | cppInteger => cases hkind
  | cppInteger =>
    cases hq with
    | cppInteger =>
      simp only [symintfCppIntAdd, SymintfUnion.compared, List.cons.injEq, and_true] at hkey hc
      simp only [symintfCppIntAdd, printElement, printTreeCppInteger, hkey, hc]
    | structField | symbolSize | enumMember => cases hkind

/-- The same descriptors, linked in another order. -/
def SymbolSet.relinked (S : SymbolSet E) (l : List E) : SymbolSet E := { S with linkerset := l }

omit [DecidableEq E] in
theorem fieldMismatched_relinked {l : List E} (hl : S.linkerset.Perm l) :
    (S.relinked l).FieldMismatched ↔ S.FieldMismatched := by
  unfold SymbolSet.FieldMismatched SymbolSet.relinked
  simp only [hl.mem_iff]
  rfl

/-- Runs that agree on the mismatches of structure fields exit with one status. -/
theorem SymbolRun.code_eq {S₂ : SymbolSet E} {s₂ : SymbolState E} (h : SymbolRun S s')
    (h₂ : SymbolRun S₂ s₂) (hk : S.KindsAgree) (hk₂ : S₂.KindsAgree)
    (hfield : S₂.FieldMismatched ↔ S.FieldMismatched) :
    s'.programReturnCode = s₂.programReturnCode := by
  rcases h.code_cases hk with ⟨hf, hone⟩ | ⟨hnf, hzero⟩
  · have hone₂ := (h₂.code_cases hk₂).resolve_right fun h => h.1 (hfield.2 hf)
    rw [hone, hone₂.2]
  · have hzero₂ := (h₂.code_cases hk₂).resolve_left fun h => hnf (hfield.1 h.1)
    rw [hzero, hzero₂.2]

/-- Without a report, elements of one key agree in what is compared. -/
theorem SymbolRun.agree (h : SymbolRun S s') (hnone : ∀ k, ¬ s'.reported S k) {a b : E}
    (ha : a ∈ S.linkerset) (hb : b ∈ S.linkerset) (hkey : S.key a = S.key b) :
    S.compared a = S.compared b := by
  by_contra hne
  apply hnone (S.key a)
  rw [reported_iff, h.pairs]
  exact conflict_iff.2 ⟨a, ha, b, hb, rfl, hkey.symm, hne⟩

/-- **The order of the linkerset does not matter** to the exit status, to the keys
reported, and, without a report, to the output. -/
theorem symbolInfoMain_perm {l : List E} (hl : S.linkerset.Perm l)
    (hd : ∀ e ∈ S.linkerset, (S.desc e).Declared) (hk : S.KindsAgree) :
    ∃ s₁ s₂, symbolInfoMain S = .ok s₁ ∧ symbolInfoMain (S.relinked l) = .ok s₂ ∧
      s₁.programReturnCode = s₂.programReturnCode ∧
      (∀ k, s₁.reported S k ↔ s₂.reported S k) ∧
      ((∀ k, ¬ s₁.reported S k) → s₁.stdout = s₂.stdout) := by
  have hmem : ∀ e, e ∈ l → e ∈ S.linkerset := fun e he => hl.mem_iff.2 he
  have hk' : (S.relinked l).KindsAgree := fun a ha b hb => hk a (hmem a ha) b (hmem b hb)
  obtain ⟨s₁, h₁⟩ := symbolInfoMain_run hk
  obtain ⟨s₂, h₂⟩ := symbolInfoMain_run hk'
  have hcode : s₁.programReturnCode = s₂.programReturnCode :=
    h₁.code_eq h₂ hk hk' (fieldMismatched_relinked hl)
  refine ⟨s₁, s₂, h₁.run, h₂.run, hcode, ?_, ?_⟩
  · intro k
    rw [reported_iff, reported_iff, h₁.pairs, h₂.pairs]
    exact conflict_perm hl k
  · intro hnone
    have hnf : ¬ S.FieldMismatched := by
      rintro ⟨a, ha, b, hb, ⟨hkey, hne⟩, -⟩
      exact hne (h₁.agree hnone ha hb hkey)
    have hzero := (h₁.code_cases hk).resolve_left fun h => hnf h.1
    rw [h₁.stdout, h₂.stdout, ← hcode, if_pos hzero.2, if_pos hzero.2]
    -- both trees have the same keys, and what is printed depends on the key alone
    apply SearchTree.flatMap_build
    · exact fun k => (hl.map S.key).mem_iff
    · intro a ha b hb hkey
      have hb' := hmem b hb
      exact printElement_congr (hd a ha) (hd b hb') (hk a ha b hb' hkey) hkey
        (h₁.agree hnone ha hb' hkey)

theorem symbolInfoMain_perm_example :
    ∃ s₁ s₂, symbolInfoMain nBitsProgram = .ok s₁ ∧
      symbolInfoMain (nBitsProgram.relinked [.imported, .ittybitty]) = .ok s₂ ∧
      s₁.programReturnCode = s₂.programReturnCode ∧
      (∀ k, s₁.reported nBitsProgram k ↔ s₂.reported nBitsProgram k) ∧
      ((∀ k, ¬ s₁.reported nBitsProgram k) → s₁.stdout = s₂.stdout) := by
  have hd : ∀ e ∈ nBitsProgram.linkerset, (nBitsProgram.desc e).Declared := by
    intro e _
    cases e <;> exact .cppInteger ..
  exact symbolInfoMain_perm (List.Perm.swap ..) hd nBitsProgram_kindsAgree

end Linkerset
