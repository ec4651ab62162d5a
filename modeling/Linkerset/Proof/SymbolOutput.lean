import Linkerset.Proof.Symbols

/-!
# The tree and the output

What the insertion loop of `main` leaves at `linkerset_root`, and what `print_tree`
makes of it.

* `Inserted.treeAfterLoop`: after the loop, the tree is a strict search tree under `strcmp`,
  has one node for each key, which is the first element of the key, and nothing else is
  linked.
* `symbolInfoMain_output`: a run that exits with 0 prints the `#define` lines of these
  elements, in the order of their keys.
-/

namespace Linkerset

open Search

variable {E : Type*} {S : SymbolSet E}

/-- **A strict search tree** under `strcmp`: at every node, smaller keys on the left and
larger ones on the right. -/
def SymbolSet.StrictTree (S : SymbolSet E) : SearchTree E → Prop
  | .nil => True
  | .node l p r => S.StrictTree l ∧ S.StrictTree r ∧
      (∀ q ∈ l.toList, strcmp (S.key q) (S.key p) < 0) ∧
      ∀ q ∈ r.toList, strcmp (S.key p) (S.key q) < 0

theorem strictTree_iff {t : SearchTree E} : S.StrictTree t ↔ t.Sorted S.key := by
  induction t with
  | nil => exact ⟨fun _ => SearchTree.sorted_nil, fun _ => trivial⟩
  | node l p r ihl ihr =>
    rw [SymbolSet.StrictTree, SearchTree.sorted_node, ihl, ihr]
    simp only [strcmp_neg]

/-- The elements of a search tree have strictly increasing keys under `strcmp`. -/
theorem sorted_strcmp {t : SearchTree E} (h : t.Sorted S.key) :
    (t.toList.map S.key).Pairwise fun a b => strcmp a b < 0 := by
  rw [List.pairwise_map]
  apply List.Pairwise.imp _ h
  intro a b hab
  exact strcmp_neg.2 hab

/-- What a cell holds is an element of the tree, if it is the root or a cell of an
element of the tree. -/
theorem Represents.mem_of_cell {cells : Cell E → Option E} {a : Cell E} {t : SearchTree E}
    (h : Represents cells a t) : ∀ c e, cells c = some e →
      (c = a ∨ ∃ p ∈ t.toList, c = .l p ∨ c = .r p) → e ∈ t.toList := by
  induction h with
  | nil ha =>
    intro c e hc hcell
    rcases hcell with rfl | ⟨p, hp, -⟩
    · rw [ha] at hc; cases hc
    · cases hp
  | @node a p l r ha _ _ ihl ihr =>
    intro c e hc hcell
    rw [SearchTree.mem_toList_node]
    rcases hcell with rfl | ⟨q, hq, hcq⟩
    · rw [ha] at hc
      exact Or.inr (Or.inl (Option.some.inj hc).symm)
    · rw [SearchTree.mem_toList_node] at hq
      rcases hq with hq | rfl | hq
      · exact Or.inl (ihl c e hc (Or.inr ⟨q, hq, hcq⟩))
      · -- the cells of the root lead into its subtrees
        rcases hcq with rfl | rfl
        · exact Or.inl (ihl _ e hc (Or.inl rfl))
        · exact Or.inr (Or.inr (ihr _ e hc (Or.inl rfl)))
      · exact Or.inr (Or.inr (ihr c e hc (Or.inr ⟨q, hq, hcq⟩)))

/-- The lines that `print_tree` prints for the elements `l`. -/
def SymbolSet.lines (S : SymbolSet E) (l : List E) : List String :=
  l.flatMap fun e => printElement (S.desc e)

/-- **The tree at `linkerset_root`** after the insertion loop. -/
structure TreeAfterLoop (S : SymbolSet E) (s : SymbolState E) (t : SearchTree E) : Prop where
  tree : Represents s.cells .linkersetRoot t
  strict : S.StrictTree t
  increasing : (t.toList.map S.key).Pairwise fun a b => strcmp a b < 0
  keys : ∀ k, k ∈ t.toList.map S.key ↔ k ∈ S.linkerset.map S.key
  firsts : ∀ e, e ∈ t.toList ↔ first S.key (S.key e) S.linkerset = some e
  links : ∀ c e, s.cells c = some e → e ∈ t.toList

variable [DecidableEq E]

/-- The insertion loop of `main`, over the elements `l`. -/
def SymbolSet.insertLoop (S : SymbolSet E) (l : List E) : Except SymbolFault (SymbolState E) :=
  l.foldlM (fun s tp => addSetElement S S.depth .linkersetRoot tp s) .start

omit [DecidableEq E] in
/-- What the loop has inserted is a strict search tree of the first elements of all keys, and no
cell links any other element. -/
theorem Inserted.treeAfterLoop {s : SymbolState E} (h : Inserted S s S.linkerset) :
    TreeAfterLoop S s (SearchTree.build S.key S.linkerset) where
  tree := h.tree
  strict := strictTree_iff.2 (SearchTree.sorted_build _)
  increasing := sorted_strcmp (SearchTree.sorted_build _)
  keys _ := SearchTree.mem_map_build
  firsts _ := SearchTree.mem_build
  links c e hc := by
    by_cases hcell : c = .linkersetRoot ∨
        ∃ p ∈ (SearchTree.build S.key S.linkerset).toList, c = .l p ∨ c = .r p
    · exact h.tree.mem_of_cell c e hc hcell
    · -- the pointers of an element outside the tree are still `NULL`
      exfalso
      cases c with
      | linkersetRoot => exact hcell (Or.inl rfl)
      | l p =>
        have hp := h.fresh p fun hp => hcell (Or.inr ⟨p, hp, Or.inl rfl⟩)
        rw [hp.1] at hc
        cases hc
      | r p =>
        have hp := h.fresh p fun hp => hcell (Or.inr ⟨p, hp, Or.inr rfl⟩)
        rw [hp.2] at hc
        cases hc

/-- The loop, up to some element of the linkerset. -/
theorem insertLoop_run (hk : S.KindsAgree) {l rest : List E} (hl : S.linkerset = l ++ rest) :
    ∃ s, S.insertLoop l = .ok s ∧ Inserted S s l := by
  have hstart : Inserted S .start [] := ⟨.nil rfl, fun _ _ => ⟨rfl, rfl⟩⟩
  obtain ⟨s, hrun, h, -⟩ := Inserted.run hk (show S.linkerset = [] ++ (l ++ rest) from hl) hstart
  exact ⟨s, hrun, h⟩

/-- **The tree and the output of a run.** -/
theorem symbolInfoMain_output (hk : S.KindsAgree) :
    ∃ (s s' : SymbolState E) (t : SearchTree E),
      S.insertLoop S.linkerset = .ok s ∧ TreeAfterLoop S s t ∧
      printTree S S.depth (s.cells .linkersetRoot) s =
        .ok { s with stdout := s.stdout ++ S.lines t.toList } ∧
      symbolInfoMain S = .ok s' ∧
      (s'.programReturnCode = 0 → s'.stdout = S.lines t.toList) := by
  obtain ⟨s, hloop, hins⟩ := insertLoop_run hk (List.append_nil _).symm
  obtain ⟨s', hR⟩ := symbolInfoMain_run hk
  have hdepth : (SearchTree.build S.key S.linkerset).height < S.depth :=
    Nat.lt_succ_of_le (SearchTree.height_build_le _)
  have hprint := printTree_refines (S := S) hins.tree hdepth
  refine ⟨s, s', _, hloop, hins.treeAfterLoop, hprint, hR.run, ?_⟩
  intro h0
  rw [hR.stdout, if_pos h0]
  rfl

theorem symbolInfoMain_output_example :
    ∃ (s s' : SymbolState ObjectFile) (t : SearchTree ObjectFile),
      nBitsProgram.insertLoop nBitsProgram.linkerset = .ok s ∧ TreeAfterLoop nBitsProgram s t ∧
      printTree nBitsProgram nBitsProgram.depth (s.cells .linkersetRoot) s =
        .ok { s with stdout := s.stdout ++ nBitsProgram.lines t.toList } ∧
      symbolInfoMain nBitsProgram = .ok s' ∧
      (s'.programReturnCode = 0 → s'.stdout = nBitsProgram.lines t.toList) :=
  symbolInfoMain_output nBitsProgram_kindsAgree

end Linkerset
