/-
  TypeSig.Proofs.Arena.Spans

  What it means that an arena holds a tree. `Spans` relates a node to the tree
  that its links lead through and to the nodes met on the way, in the order of
  the walk. Nothing is said about where the nodes lie, and two parts of a tree
  may share nodes; `Holds` adds that they do not. The link from the root to its
  own next sibling is no part of either, so a root can be chained to others
  without any change to its tree.

  Main statements: the walk reads off exactly the tree (`Spans.tree?_eq`), and
  structural equality of two nodes decides whether they are roots of equal trees
  (`sameTree_iff`). Both walks count down from the number of nodes, which
  suffices because a walk does not return to a node that it left
  (`SpansChain.start_notMem`).
-/

import TypeSig.Arena.Equality
import Mathlib.Data.Finset.Card

namespace TypeSig

/-- A node was given as many children as there are, and none if it is atomic. -/
structure Node.Counts (node : Node) (children : List TypeTree) : Prop where
  count : node.childCount = children.length
  leaf : node.isAtomic = true → children = []

namespace Arena

variable {a b : Arena}

/-! ## The nodes of a tree -/

/-- A chain of siblings that holds the given trees, with the nodes of these trees
    in the order of the walk. -/
inductive SpansChain (a : Arena) : Option Nat → List TypeTree → List Nat → Prop
  | nil : SpansChain a none [] []
  | cons {id : Nat} {node : Node} {children rest : List TypeTree} {ids more : List Nat} :
      a.node? id = some node → node.Counts children →
      SpansChain a node.firstChild children ids →
      SpansChain a node.nextSibling rest more →
      SpansChain a (some id) (.node node.label children :: rest) (id :: (ids ++ more))

/-- A node that is the root of a tree, with the nodes of the tree in the order of
    the walk. -/
inductive Spans (a : Arena) (id : Nat) : TypeTree → List Nat → Prop
  | intro {node : Node} {children : List TypeTree} {ids : List Nat} :
      a.node? id = some node → node.Counts children →
      SpansChain a node.firstChild children ids →
      Spans a id (.node node.label children) (id :: ids)

/-- Several roots of trees, which need not be linked to each other, with all nodes
    of their trees. -/
inductive SpansEach (a : Arena) : List Nat → List TypeTree → List Nat → Prop
  | nil : SpansEach a [] [] []
  | cons {id : Nat} {roots : List Nat} {tree : TypeTree} {trees : List TypeTree}
      {ids more : List Nat} :
      Spans a id tree ids → SpansEach a roots trees more →
      SpansEach a (id :: roots) (tree :: trees) (ids ++ more)

/-- A node is the root of a tree, and the walk through it meets no node twice. -/
def Holds (a : Arena) (id : Nat) (tree : TypeTree) : Prop :=
  ∃ ids, a.Spans id tree ids ∧ ids.Nodup

theorem node?_lt {id : Nat} {node : Node} (h : a.node? id = some node) : id < a.size :=
  (List.getElem?_eq_some_iff.1 h).1

theorem SpansChain.length {start : Option Nat} {trees : List TypeTree} {ids : List Nat}
    (h : a.SpansChain start trees ids) : ids.length = TypeTree.sizeAll trees := by
  induction h with
  | nil => rfl
  | cons _ _ _ _ ihc ihr =>
    simp only [List.length_cons, List.length_append, ihc, ihr, TypeTree.sizeAll, TypeTree.size]
    omega

theorem SpansChain.lt {start : Option Nat} {trees : List TypeTree} {ids : List Nat}
    (h : a.SpansChain start trees ids) : ∀ k ∈ ids, k < a.size := by
  induction h with
  | nil => simp
  | cons hn _ _ _ ihc ihr =>
    intro k hk
    rcases List.mem_cons.1 hk with rfl | hk
    · exact node?_lt hn
    · rcases List.mem_append.1 hk with hk | hk
      · exact ihc k hk
      · exact ihr k hk

theorem Spans.length {id : Nat} {tree : TypeTree} {ids : List Nat} (h : a.Spans id tree ids) :
    ids.length = tree.size := by
  cases h with
  | intro _ _ hc => simp [TypeTree.size, hc.length]

theorem Spans.lt {id : Nat} {tree : TypeTree} {ids : List Nat} (h : a.Spans id tree ids) :
    ∀ k ∈ ids, k < a.size := by
  cases h with
  | intro hn _ hc =>
    intro k hk
    rcases List.mem_cons.1 hk with rfl | hk
    · exact node?_lt hn
    · exact hc.lt k hk

theorem Spans.root_mem {id : Nat} {tree : TypeTree} {ids : List Nat} (h : a.Spans id tree ids) :
    id ∈ ids := by
  cases h with
  | intro => exact List.mem_cons_self

/-! ## Walks do not return -/

/-- A walk meets the same trees and nodes whenever it is taken. -/
theorem SpansChain.unique {start : Option Nat} {ts : List TypeTree} {ids : List Nat}
    (h : a.SpansChain start ts ids) :
    ∀ {us : List TypeTree} {ids' : List Nat},
      a.SpansChain start us ids' → ts = us ∧ ids = ids' := by
  induction h with
  | nil =>
    intro us ids' h'
    cases h' with
    | nil => exact ⟨rfl, rfl⟩
  | cons hn _ _ _ ihc ihr =>
    intro us ids' h'
    cases h' with
    | cons hn' _ hc' hr' =>
      obtain rfl := Option.some.inj (hn.symm.trans hn')
      obtain ⟨rfl, rfl⟩ := ihc hc'
      obtain ⟨rfl, rfl⟩ := ihr hr'
      exact ⟨rfl, rfl⟩

/-- From each node that a walk meets, a walk goes on which is no longer. -/
theorem SpansChain.exists_of_mem {start : Option Nat} {trees : List TypeTree} {ids : List Nat}
    (h : a.SpansChain start trees ids) :
    ∀ k ∈ ids, ∃ later ks, a.SpansChain (some k) later ks ∧ ks.length ≤ ids.length := by
  induction h with
  | nil => simp
  | @cons id node children rest ids more hn hcount hc hr ihc ihr =>
    intro k hk
    rcases List.mem_cons.1 hk with rfl | hk
    · exact ⟨_, _, .cons hn hcount hc hr, Nat.le_refl _⟩
    · simp only [List.length_cons, List.length_append]
      rcases List.mem_append.1 hk with hk | hk
      · obtain ⟨later, ks, hlater, hle⟩ := ihc k hk
        exact ⟨later, ks, hlater, by omega⟩
      · obtain ⟨later, ks, hlater, hle⟩ := ihr k hk
        exact ⟨later, ks, hlater, by omega⟩

/-- A walk does not come back to the node that it starts at: it would go round
    without end. -/
theorem SpansChain.start_notMem {id : Nat} {node : Node} {children rest : List TypeTree}
    {ids more : List Nat} (hn : a.node? id = some node) (hcount : node.Counts children)
    (hc : a.SpansChain node.firstChild children ids)
    (hr : a.SpansChain node.nextSibling rest more) :
    id ∉ ids ∧ id ∉ more := by
  -- a later walk from `id` would be this walk again, but it is shorter
  have hwalk := SpansChain.cons hn hcount hc hr
  constructor
  · intro hid
    obtain ⟨later, ks, hlater, hle⟩ := hc.exists_of_mem id hid
    rw [← (hwalk.unique hlater).2, List.length_cons, List.length_append] at hle
    omega
  · intro hid
    obtain ⟨later, ks, hlater, hle⟩ := hr.exists_of_mem id hid
    rw [← (hwalk.unique hlater).2, List.length_cons, List.length_append] at hle
    omega

/-- A part of a walk that leaves out one node meets fewer nodes. -/
theorem card_toFinset_lt {id : Nat} {part all : List Nat} (hid : id ∉ part)
    (hsub : part ⊆ all) : part.toFinset.card < (id :: all).toFinset.card := by
  refine Finset.card_lt_card ⟨fun k hk => ?_, fun hall => hid ?_⟩
  · exact List.mem_toFinset.2 (List.mem_cons_of_mem _ (hsub (List.mem_toFinset.1 hk)))
  · exact List.mem_toFinset.1 (hall (List.mem_toFinset.2 List.mem_cons_self))

theorem SpansChain.card_le {start : Option Nat} {trees : List TypeTree} {ids : List Nat}
    (h : a.SpansChain start trees ids) : ids.toFinset.card ≤ a.size := by
  have hsub : ids.toFinset ⊆ Finset.range a.size := fun k hk =>
    Finset.mem_range.2 (h.lt k (List.mem_toFinset.1 hk))
  simpa using Finset.card_le_card hsub

/-! ## Reading a tree off -/

/-- As many steps as a walk meets nodes suffice to read its trees. -/
theorem SpansChain.forestFrom_eq {start : Option Nat} {trees : List TypeTree} {ids : List Nat}
    (h : a.SpansChain start trees ids) :
    ∀ steps, ids.toFinset.card ≤ steps → a.forestFrom steps start = some trees := by
  induction h with
  | nil => intro steps _; cases steps <;> rfl
  | @cons id node children rest ids more hn hcount hc hr ihc ihr =>
    intro steps hle
    -- neither walk comes back to `id`, so one step less is enough for each
    have hnot := SpansChain.start_notMem hn hcount hc hr
    have hltc := card_toFinset_lt hnot.1 (List.subset_append_left ids more)
    have hltr := card_toFinset_lt hnot.2 (List.subset_append_right ids more)
    obtain ⟨steps, rfl⟩ : ∃ k, steps = k + 1 := ⟨steps - 1, by omega⟩
    have hchildren := ihc steps (by omega)
    have hrest := ihr steps (by omega)
    simp [forestFrom, hn, hchildren, hrest]

/-- The walk reads off the tree that a node is the root of. -/
theorem Spans.tree?_eq {id : Nat} {tree : TypeTree} {ids : List Nat} (h : a.Spans id tree ids) :
    a.tree? id = some tree := by
  cases h with
  | intro hn _ hc => simp [tree?, hn, hc.forestFrom_eq a.size hc.card_le]

theorem Holds.lt {id : Nat} {tree : TypeTree} (h : a.Holds id tree) : id < a.size := by
  obtain ⟨ids, hs, -⟩ := h
  exact hs.lt id hs.root_mem

end Arena

/-! ## Structural equality -/

/-- Two nodes with equal labels whose children are found equal, or are none at all,
    are roots of equal trees. -/
theorem Node.Counts.same_iff {m n : Node} {ts us : List TypeTree} {same : Bool}
    (hm : m.Counts ts) (hn : n.Counts us) (hsame : same = true ↔ ts = us) :
    (m.agrees n && (m.isAtomic || same)) = true ↔
      TypeTree.node m.label ts = .node n.label us := by
  -- the children are compared by number first and then, unless atomic, one by one
  simp only [Node.agrees, Bool.and_eq_true, Bool.or_eq_true, beq_iff_eq, hm.count, hn.count,
    hsame, TypeTree.node.injEq]
  constructor
  · rintro ⟨⟨hlabel, hlen⟩, hleaf | heq⟩
    -- an atomic node has no children, and the other has as many
    · have hnil := hm.leaf hleaf
      rw [hnil, List.length_nil, eq_comm, List.length_eq_zero_iff] at hlen
      exact ⟨hlabel, hnil.trans hlen.symm⟩
    · exact ⟨hlabel, heq⟩
  · rintro ⟨hlabel, heq⟩
    exact ⟨⟨hlabel, by rw [heq]⟩, Or.inr heq⟩

namespace Arena

variable {a b : Arena}

/-- Walking two chains in step decides whether they hold equal trees. -/
theorem sameChain_iff {start : Option Nat} {ts : List TypeTree} {ids : List Nat}
    (h : a.SpansChain start ts ids) :
    ∀ {steps : Nat} {start' : Option Nat} {us : List TypeTree} {ids' : List Nat},
      b.SpansChain start' us ids' → ids.toFinset.card ≤ steps →
      (sameChain a b steps start start' = true ↔ ts = us) := by
  induction h with
  | nil =>
    intro steps start' us ids' h' _
    cases h' with
    | nil => cases steps <;> simp [sameChain]
    | cons => cases steps <;> simp [sameChain]
  | @cons id m children rest ids more hn hcount hc hr ihc ihr =>
    intro steps start' us ids' h' hle
    -- the walks go in step, so the nodes of the first bound both
    have hnot := SpansChain.start_notMem hn hcount hc hr
    have hltc := card_toFinset_lt hnot.1 (List.subset_append_left ids more)
    have hltr := card_toFinset_lt hnot.2 (List.subset_append_right ids more)
    obtain ⟨steps, rfl⟩ : ∃ k, steps = k + 1 := ⟨steps - 1, by omega⟩
    cases h' with
    | nil => simp [sameChain]
    | @cons _ n children' rest' _ _ hn' hcount' hc' hr' =>
      have hchildren := ihc hc' (show ids.toFinset.card ≤ steps by omega)
      have hrest := ihr hr' (show more.toFinset.card ≤ steps by omega)
      simp only [sameChain, hn, hn']
      rw [Bool.and_eq_true, hcount.same_iff hcount' hchildren, hrest, List.cons.injEq]

/-- Structural equality of two nodes decides whether they are roots of equal trees. -/
theorem sameTree_iff {i j : Nat} {s t : TypeTree} {ids ids' : List Nat} (hi : a.Spans i s ids)
    (hj : b.Spans j t ids') : a.sameTree i b j = true ↔ s = t := by
  cases hi with
  | @intro m children _ hn hcount hc =>
    cases hj with
    | @intro n children' _ hn' hcount' hc' =>
      have hchildren := sameChain_iff hc hc' hc.card_le
      simp only [sameTree, hn, hn']
      rw [hcount.same_iff hcount' hchildren]

end Arena

end TypeSig
