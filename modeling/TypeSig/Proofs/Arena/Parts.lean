/-
  TypeSig.Proofs.Arena.Parts

  The parts of a tree that is read off an arena. Each stands at a node of its own
  or shares one, so there are no more different parts than nodes
  (`exists_tree?_of_mem_subtrees`), also where links lead to one node from two
  parents. Where no node is shared, none is shared in a part either, and there is a
  node for each node of the tree (`Holds.subtree`, `Holds.size_le`).
-/

import TypeSig.Proofs.Arena.Spans
import TypeSig.Proofs.Tree.Regular
import Mathlib.Data.List.Perm.Subperm

namespace TypeSig.Arena

variable {a : Arena}

/-- More steps read the same trees. -/
theorem forestFrom_mono {steps more : Nat} {start : Option Nat} {trees : List TypeTree}
    (h : a.forestFrom steps start = some trees) (hle : steps ≤ more) :
    a.forestFrom more start = some trees := by
  induction steps generalizing start trees more with
  | zero =>
    cases start with
    | none => cases more <;> exact h
    | some id => cases h
  | succ steps ih =>
    obtain ⟨more, rfl⟩ : ∃ k, more = k + 1 := ⟨more - 1, by omega⟩
    cases start with
    | none => exact h
    | some id =>
      simp only [forestFrom, Option.bind_eq_bind, Option.bind_eq_some_iff] at h ⊢
      obtain ⟨node, hnode, children, hchildren, rest, hrest, htrees⟩ := h
      exact ⟨node, hnode, children, ih hchildren (by omega), rest, ih hrest (by omega), htrees⟩

/-- Each tree of a chain is the tree below a node. -/
theorem exists_tree?_of_mem_forest {steps : Nat} {start : Option Nat} {trees : List TypeTree}
    (h : a.forestFrom steps start = some trees) (hle : steps ≤ a.size) :
    ∀ tree ∈ trees, ∃ id, a.tree? id = some tree := by
  induction steps generalizing start trees with
  | zero =>
    cases start with
    | none => cases h; simp
    | some id => cases h
  | succ steps ih =>
    cases start with
    | none => cases h; simp
    | some id =>
      simp only [forestFrom, Option.bind_eq_bind, Option.bind_eq_some_iff] at h
      obtain ⟨node, hnode, children, hchildren, rest, hrest, htrees⟩ := h
      cases htrees
      intro tree htree
      rcases List.mem_cons.1 htree with rfl | htree
      · have hbelow := forestFrom_mono hchildren (show steps ≤ a.size by omega)
        exact ⟨id, by simp [tree?, hnode, hbelow]⟩
      · exact ih hrest (by omega) tree htree

/-- What a node says is what the root of its tree says, and its children are the
    trees below nodes. -/
theorem tree?_eq_some {id : Nat} {label : Label} {children : List TypeTree}
    (h : a.tree? id = some (.node label children)) :
    (∃ node, a.node? id = some node ∧ node.label = label) ∧
      ∀ child ∈ children, ∃ k, a.tree? k = some child := by
  simp only [tree?, Option.bind_eq_bind, Option.bind_eq_some_iff] at h
  obtain ⟨node, hnode, below, hbelow, htree⟩ := h
  cases htree
  exact ⟨⟨node, hnode, rfl⟩, exists_tree?_of_mem_forest hbelow (Nat.le_refl _)⟩

/-- Each part of a tree is the tree below a node. -/
theorem exists_tree?_of_mem_subtrees {id : Nat} {tree : TypeTree} (h : a.tree? id = some tree) :
    ∀ part ∈ tree.subtrees, ∃ k, a.tree? k = some part := by
  refine TypeTree.forall_mem_subtrees (fun label children htree => ?_) ⟨id, h⟩
  obtain ⟨k, htree⟩ := htree
  exact (tree?_eq_some htree).2

/-- A walk along siblings is as long as its steps at most. -/
theorem length_le_of_forestFrom {steps : Nat} {start : Option Nat}
    {trees : List TypeTree} (h : a.forestFrom steps start = some trees) : trees.length ≤ steps := by
  induction steps generalizing start trees with
  | zero =>
    cases start with
    | none =>
      cases h
      exact Nat.le_refl 0
    | some id => cases h
  | succ steps ih =>
    cases start with
    | none =>
      cases h
      exact Nat.zero_le _
    | some id =>
      simp only [forestFrom, Option.bind_eq_bind, Option.bind_eq_some_iff] at h
      obtain ⟨node, -, children, -, rest, hrest, htrees⟩ := h
      cases htrees
      exact Nat.succ_le_succ (ih hrest)

/-- A node has no more children than there are nodes. -/
theorem length_children_le {id : Nat} {tree : TypeTree} (h : a.tree? id = some tree) :
    tree.children.length ≤ a.size := by
  simp only [tree?, Option.bind_eq_bind, Option.bind_eq_some_iff] at h
  obtain ⟨node, -, children, hchildren, htree⟩ := h
  cases htree
  exact length_le_of_forestFrom hchildren

theorem lt_of_tree? {id : Nat} {tree : TypeTree} (h : a.tree? id = some tree) : id < a.size := by
  obtain ⟨label, children⟩ := tree
  obtain ⟨⟨node, hnode, -⟩, -⟩ := tree?_eq_some h
  exact (List.getElem?_eq_some_iff.1 hnode).1

/-! ## Parts without shared nodes -/

/-- Each tree of a chain is held by some of its nodes. -/
theorem SpansChain.exists_spans {start : Option Nat} {trees : List TypeTree} {ids : List Nat}
    (h : a.SpansChain start trees ids) :
    ∀ tree ∈ trees, ∃ k ks, a.Spans k tree ks ∧ ks.Sublist ids := by
  induction h with
  | nil => simp
  | @cons id node children rest ids more hn hcount hc _ _ ihr =>
    refine List.forall_mem_cons.2 ⟨⟨id, _, .intro hn hcount hc, ?_⟩, fun tree htree => ?_⟩
    · exact (List.sublist_append_left ids more).cons_cons id
    · obtain ⟨k, ks, hspans, hsub⟩ := ihr tree htree
      exact ⟨k, ks, hspans, (hsub.trans (List.sublist_append_right ids more)).cons id⟩

theorem Holds.subtree {id : Nat} {tree : TypeTree} (h : a.Holds id tree) :
    ∀ part ∈ tree.subtrees, ∃ k, a.Holds k part := by
  refine TypeTree.forall_mem_subtrees (fun label children hnode child hchild => ?_) ⟨id, h⟩
  obtain ⟨k, ids, hspans, hd⟩ := hnode
  cases hspans with
  | intro _ _ hc =>
    obtain ⟨k', ks, hchild, hsub⟩ := hc.exists_spans child hchild
    exact ⟨k', ks, hchild, (List.nodup_cons.1 hd).2.sublist hsub⟩

theorem Holds.size_le {id : Nat} {tree : TypeTree} (h : a.Holds id tree) : tree.size ≤ a.size := by
  obtain ⟨ids, hspans, hd⟩ := h
  have hsubset : ids ⊆ List.range a.size := fun k hk => List.mem_range.2 (hspans.lt k hk)
  simpa [hspans.length] using (List.Nodup.subperm hd hsubset).length_le

theorem Holds.tree?_eq {id : Nat} {tree : TypeTree} (h : a.Holds id tree) :
    a.tree? id = some tree := by
  obtain ⟨ids, hspans, -⟩ := h
  exact hspans.tree?_eq

end TypeSig.Arena
