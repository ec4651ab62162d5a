import Linkerset.Spec.SymbolInfo
import Linkerset.Search.Tree
import Linkerset.Search.Conflict
import Mathlib.Data.String.Basic

/-!
# The tree of `symbol_info_manager.c`

`Represents` reads the pointer cells as a search tree, by the key order of `strcmp`.

* `addSetElement_refines`: `add_set_element` inserts, and compares an element with
  the one that has its key already.
* `printTree_refines`: `print_tree` prints the elements in order.
* `symbolInfoMain_run`: what a whole run leaves.
-/

namespace Linkerset

open Search

/-! ## `strcmp` -/

/-- The three results of the comparison, in the lexicographic order. -/
theorem strcmp_go_cases : ∀ as bs : List Char,
    (as < bs ∧ strcmp.go as bs < 0) ∨ (as = bs ∧ strcmp.go as bs = 0) ∨
      (bs < as ∧ 0 < strcmp.go as bs) := by
  intro as
  induction as with
  | nil => intro bs; cases bs <;> simp [strcmp.go]
  | cons c as ih =>
    intro bs
    cases bs with
    | nil => simp [strcmp.go]
    | cons d bs =>
      simp only [strcmp.go, List.cons_lt_cons_iff, List.cons.injEq]
      rcases lt_trichotomy c d with hcd | rfl | hdc
      · rw [if_neg hcd.ne, if_pos hcd]
        simp [hcd]
      · -- the first characters agree, and the rest decides
        simpa using ih bs
      · rw [if_neg hdc.ne', if_neg hdc.asymm]
        simp [hdc]

/-- **The sign of `strcmp` is the order of strings.** -/
theorem strcmp_pos {a b : String} : strcmp a b > 0 ↔ b < a := by
  rw [String.lt_iff_toList_lt]
  unfold strcmp
  rcases strcmp_go_cases a.toList b.toList with ⟨hlt, hs⟩ | ⟨heq, hs⟩ | ⟨hlt, hs⟩
  · exact ⟨fun h => by omega, fun h => absurd h hlt.asymm⟩
  · rw [heq] at *
    exact ⟨fun h => by omega, fun h => absurd h (lt_irrefl _)⟩
  · exact ⟨fun _ => hlt, fun _ => hs⟩

theorem strcmp_neg {a b : String} : strcmp a b < 0 ↔ a < b := by
  rw [String.lt_iff_toList_lt]
  unfold strcmp
  rcases strcmp_go_cases a.toList b.toList with ⟨hlt, hs⟩ | ⟨heq, hs⟩ | ⟨hlt, hs⟩
  · exact ⟨fun _ => hlt, fun _ => hs⟩
  · rw [heq] at *
    exact ⟨fun h => by omega, fun h => absurd h (lt_irrefl _)⟩
  · exact ⟨fun h => by omega, fun h => absurd h hlt.asymm⟩

/-! ## The cells as a tree -/

variable {E : Type*}

/-- **The cell `a` and those below it hold the tree.** -/
inductive Represents (cells : Cell E → Option E) : Cell E → SearchTree E → Prop
  | nil {a : Cell E} : cells a = none → Represents cells a .nil
  | node {a : Cell E} {e : E} {l r : SearchTree E} : cells a = some e → Represents cells (.l e) l →
      Represents cells (.r e) r → Represents cells a (.node l e r)

theorem Represents.nil_inv {cells : Cell E → Option E} {a : Cell E}
    (h : Represents cells a .nil) : cells a = none := by
  cases h with
  | nil ha => exact ha

theorem Represents.node_inv {cells : Cell E → Option E} {a : Cell E} {l r : SearchTree E} {e : E}
    (h : Represents cells a (.node l e r)) :
    cells a = some e ∧ Represents cells (.l e) l ∧ Represents cells (.r e) r := by
  cases h with
  | node ha hl hr => exact ⟨ha, hl, hr⟩

/-- Cells outside the tree do not matter. -/
theorem Represents.frame {cells cells' : Cell E → Option E} {a : Cell E} {t : SearchTree E}
    (h : Represents cells a t) (ha : cells' a = cells a)
    (hb : ∀ p ∈ t.toList, cells' (.l p) = cells (.l p) ∧ cells' (.r p) = cells (.r p)) :
    Represents cells' a t := by
  induction h with
  | nil h => exact .nil (ha.trans h)
  | @node a e l r h _ _ ihl ihr =>
    obtain ⟨hel, her⟩ := hb e (by simp)
    refine .node (ha.trans h) (ihl hel ?_) (ihr her ?_)
    · intro p hp
      exact hb p (by simp [hp])
    · intro p hp
      exact hb p (by simp [hp])

/-! ## Comparisons -/

/-- The pairs of elements that have been reported. -/
def SymbolState.pairs (s : SymbolState E) : List (E × E) := s.stderr.map fun r => (r.lp, r.rp)

/-- A pair of structure fields. -/
def SymbolSet.FieldPair (S : SymbolSet E) (p : E × E) : Prop := (S.desc p.1).kind = .structField

instance (S : SymbolSet E) (p : E × E) : Decidable (S.FieldPair p) :=
  inferInstanceAs (Decidable (_ = _))

/-- How the messages about a mismatch start. -/
def SymintfKind.header : SymintfKind → String
  | .structField => "FIELD"
  | .symbolSize => "SIZE "
  | .enumElement => "ENUM "
  | .cppInteger => "CPP  "

/-- The message about one of the two elements. -/
def SymintfDesc.message (hdr : String) (p : SymintfDesc) : String :=
  match p.u with
  | .structField d => structFieldError hdr p d
  | .symbolSize d => symbolSizeError hdr p d
  | .enumMember d => enumError hdr p d
  | .cppInteger d => cppIntegerError hdr p d

/-- **What is written about a mismatch**: the message about the element that came first, under
the header of its kind, that about the other one, and an empty line. -/
def SymbolSet.mismatchReport (S : SymbolSet E) (p : E × E) : Report E where
  lp := p.1
  rp := p.2
  text := (S.desc p.1).message (S.desc p.1).kind.header ++ (S.desc p.2).message "     " ++ "\n"

/-- **From `s` to `s'` the mismatches `N` are reported.** -/
structure Reported (S : SymbolSet E) (s s' : SymbolState E) (N : List (E × E)) : Prop where
  stderr : s'.stderr = s.stderr ++ N.map S.mismatchReport
  code : s'.programReturnCode = if ∃ p ∈ N, S.FieldPair p then 1 else s.programReturnCode
  stdout : s'.stdout = s.stdout

variable {S : SymbolSet E}

theorem Reported.none {s s' : SymbolState E} (herr : s'.stderr = s.stderr)
    (hcode : s'.programReturnCode = s.programReturnCode) (hout : s'.stdout = s.stdout) :
    Reported S s s' [] :=
  ⟨by simp [herr], by simpa using hcode, hout⟩

theorem Reported.trans {s s₁ s₂ : SymbolState E} {N N' : List (E × E)} (h : Reported S s s₁ N)
    (h' : Reported S s₁ s₂ N') : Reported S s s₂ (N ++ N') where
  stderr := by rw [h'.stderr, h.stderr, List.map_append, List.append_assoc]
  code := by
    rw [h'.code, h.code]
    by_cases hN' : ∃ p ∈ N', S.FieldPair p
    · obtain ⟨p, hp, hf⟩ := hN'
      rw [if_pos ⟨p, hp, hf⟩, if_pos ⟨p, List.mem_append_right _ hp, hf⟩]
    · rw [if_neg hN']
      by_cases hN : ∃ p ∈ N, S.FieldPair p
      · obtain ⟨p, hp, hf⟩ := hN
        rw [if_pos ⟨p, hp, hf⟩, if_pos ⟨p, List.mem_append_left _ hp, hf⟩]
      · rw [if_neg hN, if_neg]
        rintro ⟨p, hp, hf⟩
        rcases List.mem_append.1 hp with hp | hp
        · exact hN ⟨p, hp, hf⟩
        · exact hN' ⟨p, hp, hf⟩
  stdout := h'.stdout.trans h.stdout

/-- The pair that the comparison of `f` with `elem` reports, if any. -/
def SymbolSet.checked (S : SymbolSet E) (f : Option E) (elem : E) : List (E × E) :=
  (f.toList.filter fun f => S.compared f ≠ S.compared elem).map fun f => (f, elem)

/-- What the four comparisons share: from `s₁`, a mismatch is reported. -/
theorem Reported.of_differ {f elem : E} {s s₁ : SymbolState E} {differ : Prop} [Decidable differ]
    {text : String} (hd : differ ↔ S.compared f ≠ S.compared elem)
    (htext : (S.mismatchReport (f, elem)).text = text ++ "\n") (herr : s₁.stderr = s.stderr)
    (hout : s₁.stdout = s.stdout) (hcode : s₁.programReturnCode =
      if (S.desc f).kind = .structField then 1 else s.programReturnCode) :
    Reported S s (if differ then s₁.report f elem text else s) (S.checked (some f) elem) := by
  by_cases h : differ
  · have hN : S.checked (some f) elem = [(f, elem)] := by simp [SymbolSet.checked, hd.1 h]
    rw [if_pos h, hN]
    refine ⟨?_, ?_, hout⟩
    · rw [List.map_singleton, ← herr]
      unfold SymbolState.report
      rw [← htext]
      rfl
    · simp [SymbolState.report, hcode, SymbolSet.FieldPair]
  · have hN : S.checked (some f) elem = [] := by
      have heq : S.compared f = S.compared elem := not_not.1 fun hne => h (hd.2 hne)
      simp [SymbolSet.checked, heq]
    rw [if_neg h, hN]
    exact .none rfl rfl rfl

/-- **Descriptors of one kind** have the same member of the union. -/
theorem SymintfDesc.kind_cases {p q : SymintfDesc} (h : p.kind = q.kind) :
    (∃ l r, p.u = .structField l ∧ q.u = .structField r) ∨
      (∃ l r, p.u = .symbolSize l ∧ q.u = .symbolSize r) ∨
      (∃ l r, p.u = .enumMember l ∧ q.u = .enumMember r) ∨
      ∃ l r, p.u = .cppInteger l ∧ q.u = .cppInteger r := by
  unfold SymintfDesc.kind at h
  cases hp : p.u <;> cases hq : q.u <;> simp_all

/-- **The comparison of two elements of one kind.** Only that of structure fields
sets `program_return_code`. -/
theorem compareKinds_reported {f elem : E} (hk : (S.desc f).kind = (S.desc elem).kind)
    (s : SymbolState E) : ∃ s', compareKinds S f elem s = .ok s' ∧ s'.cells = s.cells ∧
      Reported S s s' (S.checked (some f) elem) := by
  unfold compareKinds
  rcases SymintfDesc.kind_cases hk with ⟨l, r, hf, he⟩ | ⟨l, r, hf, he⟩ | ⟨l, r, hf, he⟩ | ⟨l, r, hf, he⟩
  · rw [hf, he]
    refine ⟨_, rfl, ?_, Reported.of_differ ?_ ?_ rfl rfl ?_⟩
    · unfold compareStructureField; split <;> rfl
    · simp [SymbolSet.compared, SymintfUnion.compared, hf, he]; tauto
    · simp only [SymbolSet.mismatchReport, SymintfDesc.message, SymintfDesc.kind, hf, he, SymintfKind.header]
    · simp [SymintfDesc.kind, hf]
  · rw [hf, he]
    refine ⟨_, rfl, ?_, Reported.of_differ ?_ ?_ rfl rfl ?_⟩
    · unfold compareSymbolSize; split <;> rfl
    · simp [SymbolSet.compared, SymintfUnion.compared, hf, he]
    · simp only [SymbolSet.mismatchReport, SymintfDesc.message, SymintfDesc.kind, hf, he, SymintfKind.header]
    · simp [SymintfDesc.kind, hf]
  · rw [hf, he]
    refine ⟨_, rfl, ?_, Reported.of_differ ?_ ?_ rfl rfl ?_⟩
    · unfold compareEnum; split <;> rfl
    · simp [SymbolSet.compared, SymintfUnion.compared, hf, he]
    · simp only [SymbolSet.mismatchReport, SymintfDesc.message, SymintfDesc.kind, hf, he, SymintfKind.header]
    · simp [SymintfDesc.kind, hf]
  · rw [hf, he]
    refine ⟨_, rfl, ?_, Reported.of_differ ?_ ?_ rfl rfl ?_⟩
    · unfold compareCppInteger; split <;> rfl
    · simp [SymbolSet.compared, SymintfUnion.compared, hf, he]
    · simp only [SymbolSet.mismatchReport, SymintfDesc.message, SymintfDesc.kind, hf, he, SymintfKind.header]
    · simp [SymintfDesc.kind, hf]

/-! ## Insertion -/

/-- `b` is not a cell of an element of the tree. -/
def Above (b : Cell E) (t : SearchTree E) : Prop := ∀ p ∈ t.toList, b ≠ .l p ∧ b ≠ .r p

theorem Above.of_ne {p : E} {t : SearchTree E} (h : ∀ q ∈ t.toList, p ≠ q) :
    Above (.l p) t ∧ Above (.r p) t :=
  ⟨fun q hq => ⟨by simpa using h q hq, by simp⟩, fun q hq => ⟨by simp, by simpa using h q hq⟩⟩

theorem Above.node {b : Cell E} {l r : SearchTree E} {p : E} (h : Above b (.node l p r)) :
    (b ≠ .l p ∧ b ≠ .r p) ∧ Above b l ∧ Above b r :=
  ⟨h p (by simp), fun q hq => h q (by simp [hq]), fun q hq => h q (by simp [hq])⟩

/-- A change inside one tree leaves a disjoint one as it is. -/
theorem Represents.frame_disjoint {cells cells' : Cell E → Option E} {a c : Cell E} {t u : SearchTree E}
    (h : Represents cells a t) (hframe : ∀ b, b ≠ c → Above b u → cells' b = cells b) (hac : a ≠ c)
    (hau : Above a u) (hc : Above c t) (hdisj : ∀ p ∈ t.toList, ∀ q ∈ u.toList, p ≠ q) :
    Represents cells' a t := by
  apply h.frame (hframe a hac hau)
  intro p hp
  obtain ⟨hl, hr⟩ := Above.of_ne (hdisj p hp)
  exact ⟨hframe _ (hc p hp).1.symm hl, hframe _ (hc p hp).2.symm hr⟩

/-- **What `add_set_element` finds** in the cell `a` that it is given. -/
structure Addable (S : SymbolSet E) (s : SymbolState E) (a : Cell E) (t : SearchTree E) (elem : E) :
    Prop where
  tree : Represents s.cells a t
  sorted : t.Sorted S.key
  kinds : ∀ p ∈ t.toList, S.key p = S.key elem → (S.desc p).kind = (S.desc elem).kind
  fresh : elem ∉ t.toList → s.cells (.l elem) = none ∧ s.cells (.r elem) = none
  above : Above a t
  apart : a ≠ .l elem ∧ a ≠ .r elem

/-- **What `add_set_element` leaves**: the element is in the tree, and a mismatch with
the element that had its key is reported. -/
structure Added (S : SymbolSet E) (s s' : SymbolState E) (a : Cell E) (t : SearchTree E) (elem : E) :
    Prop where
  tree : Represents s'.cells a (t.insert S.key elem)
  frame : ∀ b, b ≠ a → Above b t → s'.cells b = s.cells b
  reported : Reported S s s' (S.checked (t.lookup S.key (S.key elem)) elem)

section Branches

variable {s s' : SymbolState E} {a : Cell E} {l r : SearchTree E} {p elem : E}

theorem Addable.left (h : Addable S s a (.node l p r) elem) (hlt : S.key elem < S.key p) :
    Addable S s (.l p) l elem where
  tree := h.tree.node_inv.2.1
  sorted := (SearchTree.sorted_node.1 h.sorted).1
  kinds q hq := h.kinds q (by simp [hq])
  fresh hl := by
    apply h.fresh
    -- the elements of the right subtree have larger keys
    have hright := (SearchTree.sorted_node.1 h.sorted).2.2.2 elem
    rw [SearchTree.mem_toList_node]
    rintro (hm | rfl | hm)
    · exact hl hm
    · exact lt_irrefl _ hlt
    · exact lt_asymm hlt (hright hm)
  above := (Above.of_ne h.sorted.root_ne_left).1
  apart := ⟨by rintro ⟨⟩; exact lt_irrefl _ hlt, by simp⟩

theorem Addable.right (h : Addable S s a (.node l p r) elem) (hgt : S.key p < S.key elem) :
    Addable S s (.r p) r elem where
  tree := h.tree.node_inv.2.2
  sorted := (SearchTree.sorted_node.1 h.sorted).2.1
  kinds q hq := h.kinds q (by simp [hq])
  fresh hr := by
    apply h.fresh
    have hleft := (SearchTree.sorted_node.1 h.sorted).2.2.1 elem
    rw [SearchTree.mem_toList_node]
    rintro (hm | rfl | hm)
    · exact lt_asymm hgt (hleft hm)
    · exact lt_irrefl _ hgt
    · exact hr hm
  above := (Above.of_ne h.sorted.root_ne_right).2
  apart := ⟨by simp, by rintro ⟨⟩; exact lt_irrefl _ hgt⟩

/-- An insertion into the left subtree is one into the tree. -/
theorem Added.of_left (h : Addable S s a (.node l p r) elem) (hlt : S.key elem < S.key p)
    (h' : Added S s s' (.l p) l elem) : Added S s s' a (.node l p r) elem where
  tree := by
    obtain ⟨ha, -, hr⟩ := h.tree.node_inv
    obtain ⟨hap, hal, -⟩ := h.above.node
    have hroot : s'.cells a = some p := (h'.frame a hap.1 hal).trans ha
    have hright : Represents s'.cells (.r p) r :=
      hr.frame_disjoint h'.frame (by simp) (Above.of_ne h.sorted.root_ne_left).2
        (Above.of_ne h.sorted.root_ne_right).1 fun q hq q' hq' => (h.sorted.left_ne_right q' hq' q hq).symm
    rw [SearchTree.insert, if_pos hlt]
    exact .node hroot h'.tree hright
  frame b _ hb := h'.frame b hb.node.1.1 hb.node.2.1
  reported := by
    rw [SearchTree.lookup, if_pos hlt]
    exact h'.reported

theorem Added.of_right (h : Addable S s a (.node l p r) elem) (hgt : S.key p < S.key elem)
    (h' : Added S s s' (.r p) r elem) : Added S s s' a (.node l p r) elem where
  tree := by
    obtain ⟨ha, hl, -⟩ := h.tree.node_inv
    obtain ⟨hap, -, har⟩ := h.above.node
    have hroot : s'.cells a = some p := (h'.frame a hap.2 har).trans ha
    have hleft : Represents s'.cells (.l p) l :=
      hl.frame_disjoint h'.frame (by simp) (Above.of_ne h.sorted.root_ne_right).1
        (Above.of_ne h.sorted.root_ne_left).2 h.sorted.left_ne_right
    rw [SearchTree.insert, if_neg hgt.asymm, if_pos hgt]
    exact .node hroot hleft h'.tree
  frame b _ hb := h'.frame b hb.node.1.2 hb.node.2.2
  reported := by
    rw [SearchTree.lookup, if_neg hgt.asymm, if_pos hgt]
    exact h'.reported

/-- An element whose key is that of the root is compared, and not inserted. -/
theorem Added.of_root (h : Addable S s a (.node l p r) elem) (heq : S.key elem = S.key p)
    (hcells : s'.cells = s.cells) (hreported : Reported S s s' (S.checked (some p) elem)) :
    Added S s s' a (.node l p r) elem where
  tree := by
    rw [SearchTree.insert, if_neg heq.not_lt, if_neg heq.symm.not_lt, hcells]
    exact h.tree
  frame b _ _ := by rw [hcells]
  reported := by
    rw [SearchTree.lookup, if_neg heq.not_lt, if_neg heq.symm.not_lt]
    exact hreported

end Branches

variable [DecidableEq E]

/-- An element of a new key becomes a leaf. -/
theorem Added.of_nil {s : SymbolState E} {a : Cell E} {elem : E} (h : Addable S s a .nil elem) :
    Added S s { s with cells := Function.update s.cells a (some elem) } a .nil elem where
  tree := by
    obtain ⟨hl, hr⟩ := h.fresh (by simp)
    refine .node (Function.update_self ..) (.nil ?_) (.nil ?_)
    · exact (Function.update_of_ne h.apart.1.symm ..).trans hl
    · exact (Function.update_of_ne h.apart.2.symm ..).trans hr
  frame b hb _ := Function.update_of_ne hb ..
  reported := .none rfl rfl rfl

/-- **`add_set_element` inserts into the tree**, and compares with the element that has
the key already. -/
theorem addSetElement_refines {elem : E} : ∀ {t : SearchTree E} {depth : ℕ} {a : Cell E}
    {s : SymbolState E}, Addable S s a t elem → t.height < depth →
      ∃ s', addSetElement S depth a elem s = .ok s' ∧ Added S s s' a t elem := by
  intro t
  induction t with
  | nil =>
    intro depth a s h hdepth
    obtain ⟨depth, rfl⟩ : ∃ d, depth = d + 1 := ⟨depth - 1, by omega⟩
    have ha : s.cells a = none := h.tree.nil_inv
    rw [addSetElement, ha]
    exact ⟨_, rfl, .of_nil h⟩
  | node l p r ihl ihr =>
    intro depth a s h hdepth
    obtain ⟨depth, rfl⟩ : ∃ d, depth = d + 1 := ⟨depth - 1, by omega⟩
    rw [SearchTree.height] at hdepth
    have ha : s.cells a = some p := h.tree.node_inv.1
    rw [addSetElement, ha]
    -- the three results of `strcmp`
    rcases lt_trichotomy (S.key elem) (S.key p) with hlt | heq | hgt
    · obtain ⟨s', hrun, h'⟩ := ihl (h.left hlt) (show l.height < depth by omega)
      refine ⟨s', ?_, .of_left h hlt h'⟩
      simp only [strcmp_pos.2 hlt, if_true]
      exact hrun
    · have hk : (S.desc p).kind = (S.desc elem).kind := h.kinds p (by simp) heq.symm
      obtain ⟨s', hrun, hcells, hreported⟩ := compareKinds_reported hk s
      refine ⟨s', ?_, .of_root h heq hcells hreported⟩
      simp only [mt strcmp_pos.1 heq.not_lt, mt strcmp_neg.1 heq.symm.not_lt, if_false]
      exact hrun
    · obtain ⟨s', hrun, h'⟩ := ihr (h.right hgt) (show r.height < depth by omega)
      refine ⟨s', ?_, .of_right h hgt h'⟩
      simp only [mt strcmp_pos.1 hgt.asymm, strcmp_neg.2 hgt, if_true, if_false]
      exact hrun

/-! ## The whole run -/

omit [DecidableEq E] in
/-- **`print_tree` prints the elements in order.** -/
theorem printTree_refines : ∀ {t : SearchTree E} {depth : ℕ} {a : Cell E} {s : SymbolState E},
    Represents s.cells a t → t.height < depth → printTree S depth (s.cells a) s =
      .ok { s with stdout := s.stdout ++ t.toList.flatMap fun e => printElement (S.desc e) } := by
  intro t
  induction t with
  | nil =>
    intro depth a s hrep hdepth
    obtain ⟨depth, rfl⟩ : ∃ d, depth = d + 1 := ⟨depth - 1, by omega⟩
    rw [hrep.nil_inv, printTree]
    simp
  | node tl e tr ihl ihr =>
    intro depth a s hrep hdepth
    obtain ⟨depth, rfl⟩ : ∃ d, depth = d + 1 := ⟨depth - 1, by omega⟩
    rw [SearchTree.height] at hdepth
    have hdl : tl.height < depth := by omega
    have hdr : tr.height < depth := by omega
    obtain ⟨ha, hl, hr⟩ := hrep.node_inv
    -- what has been printed before does not change what the right subtree prints
    have hright : ∀ out, printTree S depth (s.cells (.r e)) { s with stdout := out } =
        .ok { s with stdout := out ++ tr.toList.flatMap fun e => printElement (S.desc e) } :=
      fun out => ihr (s := { s with stdout := out }) hr hdr
    rw [ha, printTree, ihl hl hdl]
    simp only [bind, Except.bind]
    rw [hright]
    simp [SearchTree.toList]

/-- What the insertion loop has reached after the elements `seen`. -/
structure Inserted (S : SymbolSet E) (s : SymbolState E) (seen : List E) : Prop where
  tree : Represents s.cells .linkersetRoot (SearchTree.build S.key seen)
  fresh : ∀ e, e ∉ (SearchTree.build S.key seen).toList → s.cells (.l e) = none ∧ s.cells (.r e) = none

/-- **One round of the loop in `main`.** -/
theorem Inserted.step {s : SymbolState E} {seen : List E} {e : E} {l : List E} (h : Inserted S s seen)
    (hl : S.linkerset = seen ++ e :: l) (hk : S.KindsAgree) :
    ∃ s', addSetElement S S.depth .linkersetRoot e s = .ok s' ∧ Inserted S s' (seen ++ [e]) ∧
      Reported S s s' (S.checked (first S.key (S.key e) seen) e) := by
  have hmem : ∀ p ∈ seen, p ∈ S.linkerset := fun p hp => by rw [hl]; exact List.mem_append_left _ hp
  have he : e ∈ S.linkerset := by rw [hl]; simp
  have hdepth : (SearchTree.build S.key seen).height < S.depth := by
    have hh : (SearchTree.build S.key seen).height ≤ seen.length := SearchTree.height_build_le seen
    unfold SymbolSet.depth
    rw [hl, List.length_append]
    omega
  have hfound : Addable S s .linkersetRoot (SearchTree.build S.key seen) e :=
    { tree := h.tree
      sorted := SearchTree.sorted_build seen
      kinds := fun p hp => hk p (hmem p (SearchTree.mem_of_mem_build hp)) e he
      fresh := h.fresh e
      above := fun p _ => ⟨by simp, by simp⟩
      apart := ⟨by simp, by simp⟩ }
  obtain ⟨s', hrun, h'⟩ := addSetElement_refines hfound hdepth
  refine ⟨s', hrun, ⟨by rw [SearchTree.build_concat]; exact h'.tree, ?_⟩, ?_⟩
  · intro e' he'
    rw [SearchTree.build_concat] at he'
    -- an element that is not in the new tree was not in the old one
    have hold : e' ∉ (SearchTree.build S.key seen).toList := fun hm => he' (SearchTree.mem_insert_of_mem hm)
    have hne : ∀ q ∈ (SearchTree.build S.key seen).toList, e' ≠ q := by rintro q hq rfl; exact hold hq
    obtain ⟨hal, har⟩ := Above.of_ne hne
    rw [h'.frame _ (by simp) hal, h'.frame _ (by simp) har]
    exact h.fresh e' hold
  · have hreported := h'.reported
    rw [SearchTree.lookup_build] at hreported
    exact hreported

/-- **The loop in `main`** reports the conflicts of the elements it has gone through. -/
theorem Inserted.run (hk : S.KindsAgree) : ∀ {l rest seen : List E} {s : SymbolState E},
    S.linkerset = seen ++ (l ++ rest) → Inserted S s seen →
      ∃ s', l.foldlM (fun s tp => addSetElement S S.depth .linkersetRoot tp s) s = .ok s' ∧
        Inserted S s' (seen ++ l) ∧ Reported S s s' (conflicts S.key S.compared seen l) := by
  intro l
  induction l with
  | nil =>
    intro rest seen s _ h
    refine ⟨s, rfl, ?_, .none rfl rfl rfl⟩
    rw [List.append_nil]
    exact h
  | cons e l ih =>
    intro rest seen s hl h
    obtain ⟨s₁, hrun, h₁, hreported⟩ := h.step hl hk
    obtain ⟨s', hrun', h', hreported'⟩ := ih (show S.linkerset = (seen ++ [e]) ++ (l ++ rest) by
      rw [hl]; simp) h₁
    rw [List.append_assoc, List.singleton_append] at h'
    refine ⟨s', ?_, h', hreported.trans hreported'⟩
    rw [List.foldlM_cons, hrun]
    exact hrun'

/-- What `print_tree` prints for the first elements of all keys. -/
def SymbolSet.output (S : SymbolSet E) : List String :=
  (SearchTree.build S.key S.linkerset).toList.flatMap fun e => printElement (S.desc e)

/-- **What a run of the program leaves.** -/
structure SymbolRun (S : SymbolSet E) (s' : SymbolState E) : Prop where
  run : symbolInfoMain S = .ok s'
  tree : Represents s'.cells .linkersetRoot (SearchTree.build S.key S.linkerset)
  stderr : s'.stderr = (conflicts S.key S.compared [] S.linkerset).map S.mismatchReport
  code : s'.programReturnCode = if ∃ p ∈ s'.pairs, S.FieldPair p then 1 else 0
  stdout : s'.stdout = if s'.programReturnCode = 0 then S.output else []

omit [DecidableEq E] in
theorem pairs_of_stderr {s : SymbolState E} {N : List (E × E)} (h : s.stderr = N.map S.mismatchReport) :
    s.pairs = N := by
  rw [SymbolState.pairs, h, List.map_map]
  exact List.map_id N

theorem SymbolRun.pairs {s' : SymbolState E} (h : SymbolRun S s') :
    s'.pairs = conflicts S.key S.compared [] S.linkerset := pairs_of_stderr h.stderr

theorem symbolInfoMain_run (hk : S.KindsAgree) : ∃ s', SymbolRun S s' := by
  have hstart : Inserted S .start [] := ⟨.nil rfl, fun _ _ => ⟨rfl, rfl⟩⟩
  obtain ⟨s, hrun, h, hstderr, hcode, hout⟩ := Inserted.run hk (List.append_nil _).symm hstart
  have hstderr' : s.stderr = (conflicts S.key S.compared [] S.linkerset).map S.mismatchReport := hstderr
  rw [← pairs_of_stderr hstderr'] at hcode
  by_cases h0 : s.programReturnCode = 0
  · refine ⟨{ s with stdout := S.output }, ?_, h.tree, hstderr', hcode, (if_pos h0).symm⟩
    have hdepth : (SearchTree.build S.key S.linkerset).height < S.depth :=
      Nat.lt_succ_of_le (SearchTree.height_build_le _)
    unfold symbolInfoMain
    rw [hrun]
    simp only [bind, Except.bind]
    rw [if_pos h0, printTree_refines h.tree hdepth, hout]
    rfl
  · refine ⟨s, ?_, h.tree, hstderr', hcode, ?_⟩
    · unfold symbolInfoMain
      rw [hrun]
      simp only [bind, Except.bind]
      rw [if_neg h0]
      rfl
    · rw [if_neg h0, hout]
      rfl

end Linkerset
