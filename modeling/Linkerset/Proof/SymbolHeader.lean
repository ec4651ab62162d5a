import Mathlib.Data.List.Pairwise
import Linkerset.Proof.SymbolLink
import Linkerset.Proof.SymbolValues

/-!
# The header as a table of macros

What `symbol_info_manager` prints is to be included in an assembler source. It is read here as
the assembler reads it: a line defines a macro, whose name stands behind `#define`, as the
number in parentheses.

* `header_run`, `mem_header`: the macros that a clean run defines.
* `header_once_iff`: no macro is defined twice, unless an enumeration member or a preprocessor
  symbol has the name that the header gives to the size or offset of another symbol.
* `header_lookup`: then every element finds its own numbers in the header.
-/

namespace Linkerset

open Search

/-! ## Lines -/

/-- The name that a `#define` line defines. -/
def macroName (line : String) : List Char := (line.toList.drop 8).takeWhile (· ≠ ' ')

/-- The macros that are printed for a descriptor, and the 64-bit patterns they stand for. -/
def SymintfDesc.macros (p : SymintfDesc) : List (String × BitVec 64) :=
  match p.u with
  | .structField d => [("OFFSET__" ++ p.key, d.offset), ("SIZE__" ++ p.key, d.size)]
  | .symbolSize d => [("SIZE__" ++ p.key, d.size)]
  | .enumMember d => [(p.key, d.value)]
  | .cppInteger d => [(p.key, d.value)]

/-- The line that defines a macro. -/
def defineLine (x : String × BitVec 64) : String := "#define " ++ x.1 ++ " (" ++ zd x.2 ++ ")\n"

/-- **What is printed for a descriptor defines its macros.** -/
theorem SymintfDesc.Declared.printElement_eq {p : SymintfDesc} (h : p.Declared) :
    printElement p = p.macros.map defineLine := by
  cases h with
  | structField module file line tname fname size offset =>
    simp only [printElement, symintfStructFieldAdd, printTreeStructField, SymintfDesc.macros,
      defineLine, List.map_cons, List.map_nil, ← String.append_assoc]
    rfl
  | symbolSize =>
    simp only [printElement, symintfSymbolSizeAdd, printTreeSymbolSize, SymintfDesc.macros,
      defineLine, List.map_cons, List.map_nil, ← String.append_assoc]
    rfl
  | enumMember => rfl
  | cppInteger => rfl

theorem readDefine_defineLine (x : String × BitVec 64) : readDefine (defineLine x) = some x.2.toInt :=
  readDefine_line x.1 x.2

/-- The name of a macro is read back, if there is no blank in it. -/
theorem macroName_defineLine {x : String × BitVec 64} (hx : ' ' ∉ x.1.toList) :
    macroName (defineLine x) = x.1.toList := by
  have hline : (defineLine x).toList.drop 8 =
      x.1.toList ++ ' ' :: '(' :: ((zd x.2).toList ++ [')', '\n']) := by
    simp [defineLine, String.toList_append]
  have hname : ∀ c ∈ x.1.toList, decide (c ≠ ' ') = true := by
    intro c hc
    refine decide_eq_true ?_
    rintro rfl
    exact hx hc
  unfold macroName
  rw [hline, List.takeWhile_append_of_pos hname, List.takeWhile_cons_of_neg (by decide),
    List.append_nil]

/-! ## Names -/

/-- **The descriptor `p` takes the name that the header gives to the offset or the size of `q`.** -/
def Shadows (p q : SymintfDesc) : Prop :=
  (p.kind = .enumElement ∨ p.kind = .cppInteger) ∧
    ((q.kind = .structField ∧ p.key = "OFFSET__" ++ q.key) ∨
      ((q.kind = .structField ∨ q.kind = .symbolSize) ∧ p.key = "SIZE__" ++ q.key))

instance (p q : SymintfDesc) : Decidable (Shadows p q) := inferInstanceAs (Decidable (_ ∧ _))

/-- The names of a descriptor's macros. -/
theorem mem_macros_names {p : SymintfDesc} {n : String} : n ∈ p.macros.map Prod.fst ↔
    (p.kind = .structField ∧ n = "OFFSET__" ++ p.key) ∨
      ((p.kind = .structField ∨ p.kind = .symbolSize) ∧ n = "SIZE__" ++ p.key) ∨
      ((p.kind = .enumElement ∨ p.kind = .cppInteger) ∧ n = p.key) := by
  unfold SymintfDesc.macros SymintfDesc.kind
  cases p.u <;> simp

theorem offset_ne_size (a b : String) : "OFFSET__" ++ a ≠ "SIZE__" ++ b := by
  intro h
  have hhead := congrArg (fun s => s.toList.head?) h
  simp [String.toList_append] at hhead

/-- **Descriptors that define one name** have the same key, unless one shadows the other. -/
theorem key_eq_or_shadows {p q : SymintfDesc} {n : String} (hp : n ∈ p.macros.map Prod.fst)
    (hq : n ∈ q.macros.map Prod.fst) : p.key = q.key ∨ Shadows p q ∨ Shadows q p := by
  rcases mem_macros_names.1 hp with ⟨kp, rfl⟩ | ⟨kp, rfl⟩ | ⟨kp, rfl⟩
  · rcases mem_macros_names.1 hq with ⟨kq, h⟩ | ⟨kq, h⟩ | ⟨kq, h⟩
    · exact Or.inl ((String.append_right_inj _).1 h)
    · exact absurd h (offset_ne_size _ _)
    · exact Or.inr (Or.inr ⟨kq, Or.inl ⟨kp, h.symm⟩⟩)
  · rcases mem_macros_names.1 hq with ⟨kq, h⟩ | ⟨kq, h⟩ | ⟨kq, h⟩
    · exact absurd h.symm (offset_ne_size _ _)
    · exact Or.inl ((String.append_right_inj _).1 h)
    · exact Or.inr (Or.inr ⟨kq, Or.inr ⟨kp, h.symm⟩⟩)
  · rcases mem_macros_names.1 hq with ⟨kq, h⟩ | ⟨kq, h⟩ | ⟨kq, h⟩
    · exact Or.inr (Or.inl ⟨kp, Or.inl ⟨kq, h⟩⟩)
    · exact Or.inr (Or.inl ⟨kp, Or.inr ⟨kq, h⟩⟩)
    · exact Or.inl h

/-- What shadows another descriptor defines one of its names, and is of another kind. -/
theorem Shadows.clash {p q : SymintfDesc} (h : Shadows p q) :
    p.key ∈ p.macros.map Prod.fst ∧ p.key ∈ q.macros.map Prod.fst ∧ p.kind ≠ q.kind := by
  obtain ⟨kp, hq⟩ := h
  refine ⟨mem_macros_names.2 (Or.inr (Or.inr ⟨kp, rfl⟩)), mem_macros_names.2 ?_, ?_⟩
  · exact hq.imp_right Or.inl
  · rintro hk
    rw [hk] at kp
    rcases hq with ⟨kq, -⟩ | ⟨kq | kq, -⟩ <;> rcases kp with kp | kp <;> rw [kq] at kp <;> cases kp

theorem macros_names_nodup (p : SymintfDesc) : (p.macros.map Prod.fst).Nodup := by
  unfold SymintfDesc.macros
  cases p.u with
  | structField d => simp [offset_ne_size p.key p.key]
  | symbolSize d => simp
  | enumMember d => simp
  | cppInteger d => simp

/-- The header's names have no blank in them, if the keys have none. -/
theorem no_blank_of_macros {p : SymintfDesc} {x : String × BitVec 64} (hx : x ∈ p.macros)
    (hb : ' ' ∉ p.key.toList) : ' ' ∉ x.1.toList := by
  rcases mem_macros_names.1 (List.mem_map_of_mem hx) with ⟨-, hn⟩ | ⟨-, hn⟩ | ⟨-, hn⟩
  · rw [hn, String.toList_append]
    simpa using hb
  · rw [hn, String.toList_append]
    simpa using hb
  · rw [hn]
    exact hb

/-! ## The header of a clean run -/

variable {E : Type*} {S : SymbolSet E} {l : List E}

/-- The macros that a run over `l` defines, in the order of the keys. -/
def SymbolSet.header (S : SymbolSet E) (l : List E) : List (String × BitVec 64) :=
  (SearchTree.build S.key l).toList.flatMap fun e => (S.desc e).macros

/-- The macros of an element are determined by its key, where the link is clean. -/
theorem macros_agree (h : Agree S.key S.attributes l) : Agree S.key (fun e => (S.desc e).macros) l := by
  intro a ha b hb hk
  have hkey : (S.desc a).key = (S.desc b).key := hk
  have hab := h a ha b hb hk
  have hkind : (S.desc a).kind = (S.desc b).kind := congrArg Prod.fst hab
  have hcomp : (S.desc a).u.compared = (S.desc b).u.compared := congrArg Prod.snd hab
  show (S.desc a).macros = (S.desc b).macros
  unfold SymintfDesc.macros
  rcases SymintfDesc.kind_cases hkind with ⟨c, d, hc, hd⟩ | ⟨c, d, hc, hd⟩ | ⟨c, d, hc, hd⟩ |
    ⟨c, d, hc, hd⟩
  all_goals
    rw [hc, hd] at hcomp ⊢
    simp only [SymintfUnion.compared, List.cons.injEq, and_true] at hcomp
    simp [hcomp, hkey]

/-- The element of the tree that stands for an element. -/
theorem exists_representative {e : E} (he : e ∈ l) :
    ∃ f ∈ (SearchTree.build S.key l).toList, f ∈ l ∧ S.key f = S.key e := by
  obtain ⟨f, hf, hk⟩ := List.mem_map.1
    (SearchTree.mem_map_build.2 (List.mem_map_of_mem (f := S.key) he))
  exact ⟨f, hf, SearchTree.mem_of_mem_build hf, hk⟩

/-- **The header defines the macros of all elements**, and no others. -/
theorem mem_header (h : Agree S.key S.attributes l) {x : String × BitVec 64} :
    x ∈ S.header l ↔ ∃ e ∈ l, x ∈ (S.desc e).macros := by
  constructor
  · intro hx
    obtain ⟨f, hf, hx⟩ := List.mem_flatMap.1 hx
    exact ⟨f, SearchTree.mem_of_mem_build hf, hx⟩
  · rintro ⟨e, he, hx⟩
    obtain ⟨f, hf, hfl, hk⟩ := exists_representative (S := S) he
    have hmacros : (S.desc f).macros = (S.desc e).macros := macros_agree h f hfl e he hk
    exact List.mem_flatMap.2 ⟨f, hf, by rw [hmacros]; exact hx⟩

/-- The names in the header are read back. -/
theorem header_names (hb : ∀ e ∈ l, ' ' ∉ (S.key e).toList) :
    ((S.header l).map defineLine).map macroName = ((S.header l).map Prod.fst).map String.toList := by
  rw [List.map_map, List.map_map]
  refine List.map_congr_left fun x hx => macroName_defineLine ?_
  obtain ⟨e, he, hxe⟩ := List.mem_flatMap.1 hx
  exact no_blank_of_macros hxe (hb e (SearchTree.mem_of_mem_build he))

/-- **The names in the header are distinct** exactly when no element shadows another. -/
theorem header_nodup_iff (h : Agree S.key S.attributes l) :
    ((S.header l).map Prod.fst).Nodup ↔ ∀ a ∈ l, ∀ b ∈ l, ¬ Shadows (S.desc a) (S.desc b) := by
  have hkind : ∀ a ∈ l, ∀ b ∈ l, S.key a = S.key b → (S.desc a).kind = (S.desc b).kind :=
    fun a ha b hb hk => congrArg Prod.fst (h a ha b hb hk)
  rw [SymbolSet.header, List.map_flatMap, List.nodup_flatMap]
  constructor
  · rintro ⟨-, hpair⟩ a ha b hb hs
    obtain ⟨a', ha', hal, hka⟩ := exists_representative (S := S) ha
    obtain ⟨b', hb', hbl, hkb⟩ := exists_representative (S := S) hb
    have hma : (S.desc a').macros = (S.desc a).macros := macros_agree h a' hal a ha hka
    have hmb : (S.desc b').macros = (S.desc b).macros := macros_agree h b' hbl b hb hkb
    obtain ⟨hna, hnb, hne⟩ := hs.clash
    -- elements of different kinds are different elements
    have hne' : a' ≠ b' := by
      rintro rfl
      exact hne ((hkind a' hal a ha hka).symm.trans (hkind a' hbl b hb hkb))
    have hsymm : Std.Symm (Function.onFun List.Disjoint fun e => (S.desc e).macros.map Prod.fst) :=
      ⟨fun _ _ hxy _ hn hn' => hxy hn' hn⟩
    have hdisj : List.Disjoint ((S.desc a').macros.map Prod.fst) ((S.desc b').macros.map Prod.fst) :=
      hpair.forall ha' hb' hne'
    rw [hma, hmb] at hdisj
    exact hdisj hna hnb
  · intro hs
    refine ⟨fun e _ => macros_names_nodup _, ?_⟩
    have hsorted : (SearchTree.build S.key l).Sorted S.key := SearchTree.sorted_build l
    refine hsorted.imp_of_mem fun {a b} ha hb hab => ?_
    intro n hna hnb
    have hal := SearchTree.mem_of_mem_build ha
    have hbl := SearchTree.mem_of_mem_build hb
    rcases key_eq_or_shadows hna hnb with hk | hk | hk
    · exact hab.ne hk
    · exact hs a hal b hbl hk
    · exact hs b hbl a hal hk

variable [DecidableEq E]

/-- **What a clean run prints is its header.** -/
theorem header_run (hd : ∀ e ∈ l, (S.desc e).Declared) (h : S.LinksClean l) :
    ∃ s', symbolInfoMain (S.relinked l) = .ok s' ∧ s'.stderr = [] ∧ s'.programReturnCode = 0 ∧
      s'.stdout = (S.header l).map defineLine := by
  obtain ⟨s', hrun, herr, hcode, hout⟩ := clean_run h
  refine ⟨s', hrun, herr, hcode, ?_⟩
  rw [hout, SymbolSet.header, List.map_flatMap]
  exact List.flatMap_congr fun e he => (hd e (SearchTree.mem_of_mem_build he)).printElement_eq

/-- **No macro is defined twice**, unless an enumeration member or a preprocessor symbol has the
name of another element's offset or size. -/
theorem header_once_iff (hd : ∀ e ∈ l, (S.desc e).Declared) (hb : ∀ e ∈ l, ' ' ∉ (S.key e).toList)
    (h : S.LinksClean l) :
    ∃ s', symbolInfoMain (S.relinked l) = .ok s' ∧ s'.programReturnCode = 0 ∧
      ((s'.stdout.map macroName).Nodup ↔
        ∀ a ∈ l, ∀ b ∈ l, ¬ Shadows (S.desc a) (S.desc b)) := by
  obtain ⟨s', hrun, -, hcode, hout⟩ := header_run hd h
  refine ⟨s', hrun, hcode, ?_⟩
  rw [hout, header_names hb, ← header_nodup_iff ((linksClean_iff l).1 h)]
  exact List.nodup_map_iff fun _ _ => String.toList_inj.1

theorem doublyProgram_keys :
    ∀ e ∈ doublyProgram.linkerset, ' ' ∉ (doublyProgram.key e).toList := by decide

theorem header_once_iff_example :
    ∃ s', symbolInfoMain (doublyProgram.relinked doublyProgram.linkerset) = .ok s' ∧
      s'.programReturnCode = 0 ∧
      ((s'.stdout.map macroName).Nodup ↔ ∀ a ∈ doublyProgram.linkerset,
        ∀ b ∈ doublyProgram.linkerset, ¬ Shadows (doublyProgram.desc a) (doublyProgram.desc b)) :=
  header_once_iff doublyProgram_declared doublyProgram_keys doublyProgram_clean

/-- What a macro stands for, where the header is included. -/
def lookupMacro (out : List String) (name : String) : Option ℤ :=
  (out.find? fun line => macroName line = name.toList).bind readDefine

/-- **Every element finds its numbers in the header.** -/
theorem header_lookup (hd : ∀ e ∈ l, (S.desc e).Declared) (hb : ∀ e ∈ l, ' ' ∉ (S.key e).toList)
    (h : S.LinksClean l) (hs : ∀ a ∈ l, ∀ b ∈ l, ¬ Shadows (S.desc a) (S.desc b)) :
    ∃ s', symbolInfoMain (S.relinked l) = .ok s' ∧ s'.programReturnCode = 0 ∧
      ∀ e ∈ l, ∀ x ∈ (S.desc e).macros, lookupMacro s'.stdout x.1 = some x.2.toInt := by
  have hagree := (linksClean_iff l).1 h
  obtain ⟨s', hrun, -, hcode, hout⟩ := header_run hd h
  refine ⟨s', hrun, hcode, ?_⟩
  intro e he x hx
  have hmem : defineLine x ∈ (S.header l).map defineLine :=
    List.mem_map_of_mem ((mem_header hagree).2 ⟨e, he, hx⟩)
  have hnodup : (((S.header l).map defineLine).map macroName).Nodup := by
    rw [header_names hb]
    exact ((header_nodup_iff hagree).2 hs).map fun _ _ => String.toList_inj.1
  have hname := macroName_defineLine (no_blank_of_macros hx (hb e he))
  rw [hout, lookupMacro]
  cases hf : ((S.header l).map defineLine).find? fun line => macroName line = x.1.toList with
  | none =>
    have hno := List.find?_eq_none.1 hf _ hmem
    exact absurd (decide_eq_true hname) hno
  | some line =>
    have hline : macroName line = x.1.toList := by simpa using List.find?_some hf
    have hsame : line = defineLine x :=
      List.inj_on_of_nodup_map hnodup (List.mem_of_find?_eq_some hf) hmem (hline.trans hname.symm)
    rw [Option.bind_some, hsame, readDefine_defineLine]

theorem header_lookup_example :
    ∃ s', symbolInfoMain (doublyProgram.relinked doublyProgram.linkerset) = .ok s' ∧
      s'.programReturnCode = 0 ∧ ∀ e ∈ doublyProgram.linkerset,
        ∀ x ∈ (doublyProgram.desc e).macros, lookupMacro s'.stdout x.1 = some x.2.toInt :=
  header_lookup doublyProgram_declared doublyProgram_keys doublyProgram_clean (by decide)

end Linkerset
