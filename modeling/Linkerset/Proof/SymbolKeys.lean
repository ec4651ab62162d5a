import Linkerset.Proof.SymbolReports
import Linkerset.Graph.Reach

/-!
# Keys and symbols

A key is made of the names of a symbol, joined with an underscore, which names may
contain themselves, and it does not tell the kind.

* `key_eq_iff`: the symbols that share a key are the same, or clash: they have the same
  names and different kinds, or the underscore was put at different places.
* `keys_identify_iff`: the keys identify the symbols of a program, in whatever order it
  is linked, exactly when no two of them clash.
-/

namespace Linkerset

open Search Linkerset.Graph

/-- The name components of a symbol. -/
def SymintfDesc.names (p : SymintfDesc) : List String :=
  match p.u with
  | .structField d => [d.tname, d.fname]
  | .symbolSize d => [d.tname]
  | .enumMember d => [d.tname, d.ename]
  | .cppInteger d => [d.sname]

/-- **The descriptors describe the same symbol.** -/
structure SameSymbol (p q : SymintfDesc) : Prop where
  kind : p.kind = q.kind
  names : p.names = q.names

/-- **Different symbols that get the same key.** -/
inductive Clash (p q : SymintfDesc) : Prop
  /-- One name, or pair of names, is used for two kinds. -/
  | kinds : p.names = q.names → p.kind ≠ q.kind → Clash p q
  /-- A single name looks like a pair. -/
  | joined (t f : String) : p.names = [t, f] → q.names = [t ++ "_" ++ f] → Clash p q
  /-- Two pairs share the part between their underscores. -/
  | shifted (t x f : String) : p.names = [t, x ++ "_" ++ f] → q.names = [t ++ "_" ++ x, f] → Clash p q

/-! ## Joined names -/

/-- **Where two joined pairs of names agree**, they are the same, or what stands between
the two underscores belongs to the first name of one and to the second of the other. -/
theorem join_eq_join {t f t' f' : String} (h : t ++ "_" ++ f = t' ++ "_" ++ f') :
    (t = t' ∧ f = f') ∨ (∃ x, t' = t ++ "_" ++ x ∧ f = x ++ "_" ++ f') ∨
      ∃ x, t = t' ++ "_" ++ x ∧ f' = x ++ "_" ++ f := by
  have hl : t.toList ++ '_' :: f.toList = t'.toList ++ '_' :: f'.toList := by
    have hh := congrArg String.toList h
    simpa [String.toList_append] using hh
  rcases append_cons_eq_append_cons hl with ⟨ht, -, hf⟩ | ⟨z, ht, hf⟩ | ⟨z, ht, hf⟩
  · exact Or.inl ⟨String.toList_inj.1 ht, String.toList_inj.1 hf⟩
  · refine Or.inr (Or.inl ⟨String.ofList z, ?_, ?_⟩)
    · apply String.toList_inj.1
      simp [String.toList_append, ht]
    · apply String.toList_inj.1
      simp [String.toList_append, hf]
  · refine Or.inr (Or.inr ⟨String.ofList z, ?_, ?_⟩)
    · apply String.toList_inj.1
      simp [String.toList_append, ht]
    · apply String.toList_inj.1
      simp [String.toList_append, hf]

/-- A name is shorter than what it is joined into. -/
theorem ne_join (t x : String) : t ≠ t ++ "_" ++ x := by
  intro h
  have hl := congrArg String.length h
  rw [String.length_append, String.length_append] at hl
  have h1 : "_".length = 1 := rfl
  omega

/-- How the macros make a key. -/
theorem SymintfDesc.Declared.key_eq {p : SymintfDesc} (h : p.Declared) :
    p.key = "_".intercalate p.names := by
  cases h with
  | structField | symbolSize | enumMember | cppInteger => rfl

theorem SymintfDesc.names_cases (p : SymintfDesc) :
    (∃ n, p.names = [n]) ∨ ∃ t f, p.names = [t, f] := by
  unfold SymintfDesc.names
  cases p.u with
  | structField d => exact Or.inr ⟨d.tname, d.fname, rfl⟩
  | symbolSize d => exact Or.inl ⟨d.tname, rfl⟩
  | enumMember d => exact Or.inr ⟨d.tname, d.ename, rfl⟩
  | cppInteger d => exact Or.inl ⟨d.sname, rfl⟩

theorem intercalate_two (t f : String) : "_".intercalate [t, f] = t ++ "_" ++ f := rfl

theorem Clash.intercalate_eq {p q : SymintfDesc} (h : Clash p q) :
    "_".intercalate p.names = "_".intercalate q.names := by
  cases h with
  | kinds hn _ => rw [hn]
  | joined t f hp hq => rw [hp, hq, String.intercalate_singleton, intercalate_two]
  | shifted t x f hp hq =>
    rw [hp, hq, intercalate_two, intercalate_two]
    simp only [String.append_assoc]

theorem Clash.not_sameSymbol {p q : SymintfDesc} (h : Clash p q) : ¬ SameSymbol p q := by
  intro hs
  have hn := hs.names
  cases h with
  | kinds _ hk => exact hk hs.kind
  | joined t f hp hq => simp [hp, hq] at hn
  | shifted t x f hp hq =>
    rw [hp, hq, List.cons.injEq] at hn
    exact ne_join t x hn.1

/-- Names that are joined to the same key are those of one symbol, or clash. -/
theorem sameSymbol_or_clash {p q : SymintfDesc}
    (hkey : "_".intercalate p.names = "_".intercalate q.names) :
    SameSymbol p q ∨ Clash p q ∨ Clash q p := by
  have hnames : p.names = q.names → SameSymbol p q ∨ Clash p q ∨ Clash q p := by
    intro hn
    by_cases hk : p.kind = q.kind
    · exact Or.inl ⟨hk, hn⟩
    · exact Or.inr (Or.inl (.kinds hn hk))
  rcases p.names_cases with ⟨n, hp⟩ | ⟨t, f, hp⟩
  · rcases q.names_cases with ⟨m, hq⟩ | ⟨t', f', hq⟩
    · rw [hp, hq, String.intercalate_singleton, String.intercalate_singleton] at hkey
      apply hnames
      rw [hp, hq, hkey]
    · rw [hp, hq, String.intercalate_singleton, intercalate_two] at hkey
      exact Or.inr (Or.inr (.joined t' f' hq (by rw [hp, hkey])))
  · rcases q.names_cases with ⟨m, hq⟩ | ⟨t', f', hq⟩
    · rw [hp, hq, String.intercalate_singleton, intercalate_two] at hkey
      exact Or.inr (Or.inl (.joined t f hp (by rw [hq, hkey])))
    · -- two pairs: the underscores may stand at different places
      rw [hp, hq, intercalate_two, intercalate_two] at hkey
      rcases join_eq_join hkey with ⟨rfl, rfl⟩ | ⟨x, rfl, rfl⟩ | ⟨x, rfl, rfl⟩
      · exact hnames (hp.trans hq.symm)
      · exact Or.inr (Or.inl (.shifted t x f' hp hq))
      · exact Or.inr (Or.inr (.shifted t' x f hq hp))

/-- **The symbols that share a key** are the same, or clash. -/
theorem key_eq_iff {p q : SymintfDesc} (hp : p.Declared) (hq : q.Declared) :
    p.key = q.key ↔ SameSymbol p q ∨ Clash p q ∨ Clash q p := by
  rw [hp.key_eq, hq.key_eq]
  constructor
  · exact sameSymbol_or_clash
  · rintro (hs | hc | hc)
    · rw [hs.names]
    · exact hc.intercalate_eq
    · exact hc.intercalate_eq.symm

/-! ## Runs over declared symbols -/

section Runs

variable {E : Type*} [DecidableEq E]

/-- **A run that keeps different symbols apart.** -/
structure SymbolSet.KeepsApart (S : SymbolSet E) : Prop where
  /-- No assertion fails, and every symbol has an output entry of its own. -/
  entries : ∃ s' t, symbolInfoMain S = .ok s' ∧ Represents s'.cells .linkersetRoot t ∧
    ∀ e ∈ S.linkerset, ∃ f ∈ t.toList, S.key f = S.key e ∧ SameSymbol (S.desc f) (S.desc e)
  compared : ∀ seen e rest f, S.linkerset = seen ++ e :: rest → S.Compares seen f e →
    SameSymbol (S.desc f) (S.desc e)

/-- **The keys identify the symbols**, and all runs keep different ones apart. -/
structure SymbolSet.KeysIdentify (S : SymbolSet E) : Prop where
  keys : ∀ a ∈ S.linkerset, ∀ b ∈ S.linkerset, S.key a = S.key b → SameSymbol (S.desc a) (S.desc b)
  runs : ∀ l, S.linkerset.Perm l → (S.relinked l).KeepsApart

variable {S : SymbolSet E}

/-- Where a key stands for one symbol, a run keeps the symbols apart. -/
theorem SymbolSet.keepsApart_of_keys (h : ∀ a ∈ S.linkerset, ∀ b ∈ S.linkerset, S.key a = S.key b →
    SameSymbol (S.desc a) (S.desc b)) : S.KeepsApart := by
  have hk : S.KindsAgree := fun a ha b hb hkey => (h a ha b hb hkey).kind
  obtain ⟨s', hR⟩ := symbolInfoMain_run hk
  refine ⟨⟨s', _, hR.run, hR.tree, ?_⟩, ?_⟩
  · intro e he
    -- the entry of `e` is that of its key
    have hkey : S.key e ∈ (SearchTree.build S.key S.linkerset).toList.map S.key :=
      SearchTree.mem_map_build.2 (List.mem_map_of_mem he)
    obtain ⟨f, hf, hfe⟩ := List.mem_map.1 hkey
    exact ⟨f, hf, hfe, h f (SearchTree.mem_of_mem_build hf) e he hfe⟩
  · intro seen e rest f hl hc
    have hfirst : first S.key (S.key e) seen = some f := (compares_iff hk hl).1 hc
    obtain ⟨hf, hfe⟩ := first_eq_some hfirst
    have hfl : f ∈ S.linkerset := by rw [hl]; exact List.mem_append_left _ hf
    have hel : e ∈ S.linkerset := by rw [hl]; simp
    exact h f hfl e hel hfe

/-- **The keys identify the declared symbols** exactly when no two of them clash. -/
theorem keys_identify_iff (hd : ∀ e ∈ S.linkerset, (S.desc e).Declared) :
    S.KeysIdentify ↔ ∀ a ∈ S.linkerset, ∀ b ∈ S.linkerset, ¬ Clash (S.desc a) (S.desc b) := by
  constructor
  · intro h a ha b hb hc
    have hkey : S.key a = S.key b := (key_eq_iff (hd a ha) (hd b hb)).2 (Or.inr (Or.inl hc))
    exact hc.not_sameSymbol (h.keys a ha b hb hkey)
  · intro h
    have hkeys : ∀ a ∈ S.linkerset, ∀ b ∈ S.linkerset, S.key a = S.key b →
        SameSymbol (S.desc a) (S.desc b) := by
      intro a ha b hb hkey
      rcases (key_eq_iff (hd a ha) (hd b hb)).1 hkey with hs | hc | hc
      · exact hs
      · exact absurd hc (h a ha b hb)
      · exact absurd hc (h b hb a ha)
    refine ⟨hkeys, fun l hl => ?_⟩
    apply SymbolSet.keepsApart_of_keys
    intro a ha b hb hkey
    exact hkeys a (hl.mem_iff.2 ha) b (hl.mem_iff.2 hb) hkey

end Runs

/-- A field of a structure, and a member of an enumeration. -/
inductive DataSymbol where
  | dataMaxSize
  | dataMaxMember
  deriving DecidableEq, Repr

/-- `SYMINTF_STRUCT_FIELD_ADD(data, max_size)` and `SYMINTF_ENUM_ADD(data_max, size)`. -/
def dataProgram : SymbolSet DataSymbol where
  desc
    | .dataMaxSize => symintfStructFieldAdd none "data.h" 10 "data" "max_size" 8 0
    | .dataMaxMember => symintfEnumAdd none "data.h" 17 "data_max" "size" 0 4
  linkerset := [.dataMaxSize, .dataMaxMember]

theorem dataProgram_declared : ∀ e ∈ dataProgram.linkerset, (dataProgram.desc e).Declared := by
  intro e _
  cases e with
  | dataMaxSize => exact .structField ..
  | dataMaxMember => exact .enumMember ..

theorem keys_identify_iff_example : dataProgram.KeysIdentify ↔
    ∀ a ∈ dataProgram.linkerset, ∀ b ∈ dataProgram.linkerset,
      ¬ Clash (dataProgram.desc a) (dataProgram.desc b) :=
  keys_identify_iff dataProgram_declared

/-- Both have the key `data_max_size`, and the assertion fails. -/
theorem dataProgram_not_identified : (∀ e ∈ dataProgram.linkerset, (dataProgram.desc e).Declared) ∧
    symbolInfoMain dataProgram = .error .assertion ∧ ¬ dataProgram.KeysIdentify := by
  refine ⟨dataProgram_declared, rfl, ?_⟩
  intro h
  have hs := h.keys .dataMaxSize (by decide) .dataMaxMember (by decide) (by decide)
  cases hs.kind

end Linkerset
