/-
  TypeSig.Proofs.Arena.Relocation

  Trees in an arena that is put behind another one. Merging moves each node, and with
  it both of its links, by the number of nodes in front; a link that leads nowhere
  still does. So a walk through moved nodes meets the moved ids and the same trees
  (`Spans.beside`), and the nodes in front are as they were.

  `Grows.beside` says it for the way in which arenas are put together: after merging,
  the roots of what was there and the moved root of what came have no node in common.
-/

import TypeSig.Proofs.Arena.Links
import TypeSig.Proofs.Arena.Parts

namespace TypeSig

/-- A moved node counts its children as before. -/
theorem Node.Counts.shift {node : Node} {children : List TypeTree} (h : node.Counts children)
    (offset : Nat) : (node.shift offset).Counts children :=
  ⟨h.count, h.leaf⟩

namespace Arena

variable {a b : Arena}

/-! ## Moved nodes -/

theorem node?_beside_of_eq {k : Nat} {node : Node} (h : b.node? k = some node) (a : Arena) :
    (a.beside b).node? (k + a.size) = some (node.shift a.size) := by
  rw [node?_beside_add, h, Option.map_some]

/-- A chain of moved siblings holds the same trees. -/
theorem SpansChain.beside {start : Option Nat} {trees : List TypeTree} {ids : List Nat}
    (h : b.SpansChain start trees ids) (a : Arena) :
    (a.beside b).SpansChain (start.map (· + a.size)) trees (ids.map (· + a.size)) := by
  induction h with
  | nil => exact .nil
  | @cons id node children rest ids more hn hcount _ _ ihc ihr =>
    rw [List.map_cons, List.map_append]
    exact @SpansChain.cons _ _ (node.shift a.size) _ _ _ _ (node?_beside_of_eq hn a)
      (hcount.shift a.size) ihc ihr

/-- A moved node is the root of the same tree. -/
theorem Spans.beside {id : Nat} {tree : TypeTree} {ids : List Nat} (h : b.Spans id tree ids)
    (a : Arena) : (a.beside b).Spans (id + a.size) tree (ids.map (· + a.size)) := by
  cases h with
  | @intro node children ids hn hcount hc =>
    rw [List.map_cons]
    exact @Spans.intro _ _ (node.shift a.size) _ _ (node?_beside_of_eq hn a)
      (hcount.shift a.size) (hc.beside a)

theorem Holds.beside {id : Nat} {tree : TypeTree} (h : b.Holds id tree) (a : Arena) :
    (a.beside b).Holds (id + a.size) tree := by
  obtain ⟨ids, hspans, hd⟩ := h
  exact ⟨_, hspans.beside a, hd.map fun _ _ => Nat.add_right_cancel⟩

/-- The nodes in front hold what they held. -/
theorem Holds.front {id : Nat} {tree : TypeTree} (h : a.Holds id tree) (b : Arena) :
    (a.beside b).Holds id tree := by
  obtain ⟨ids, hspans, hd⟩ := h
  exact ⟨ids, hspans.frame_all fun k hk => node?_beside_lt (hspans.lt k hk), hd⟩

/-! ## Trees read off -/

/-- What is read off along links in front is read off there as before. -/
theorem forestFrom_front {steps : Nat} {start : Option Nat} {trees : List TypeTree}
    (h : a.forestFrom steps start = some trees) (b : Arena) :
    (a.beside b).forestFrom steps start = some trees := by
  induction steps generalizing start trees with
  | zero =>
    cases start with
    | none => exact h
    | some id => cases h
  | succ steps ih =>
    cases start with
    | none => exact h
    | some id =>
      simp only [forestFrom, Option.bind_eq_bind, Option.bind_eq_some_iff] at h ⊢
      obtain ⟨node, hnode, children, hchildren, rest, hrest, htrees⟩ := h
      exact ⟨node, (node?_beside_lt (node?_lt hnode)).trans hnode, children, ih hchildren, rest,
        ih hrest, htrees⟩

/-- Along moved links the same trees are read off. -/
theorem forestFrom_beside {steps : Nat} {start : Option Nat} {trees : List TypeTree}
    (h : b.forestFrom steps start = some trees) (a : Arena) :
    (a.beside b).forestFrom steps (start.map (· + a.size)) = some trees := by
  induction steps generalizing start trees with
  | zero =>
    cases start with
    | none => exact h
    | some id => cases h
  | succ steps ih =>
    cases start with
    | none => exact h
    | some id =>
      simp only [forestFrom, Option.map_some, Option.bind_eq_bind, Option.bind_eq_some_iff] at h ⊢
      obtain ⟨node, hnode, children, hchildren, rest, hrest, htrees⟩ := h
      exact ⟨node.shift a.size, node?_beside_of_eq hnode a, children, ih hchildren, rest,
        ih hrest, htrees⟩

/-- The tree below a node in front is the same, also where nodes are shared. -/
theorem tree?_front {id : Nat} {tree : TypeTree} (h : a.tree? id = some tree) (b : Arena) :
    (a.beside b).tree? id = some tree := by
  simp only [tree?, Option.bind_eq_bind, Option.bind_eq_some_iff] at h ⊢
  obtain ⟨node, hnode, children, hchildren, htree⟩ := h
  have hsteps : a.size ≤ (a.beside b).size := by simp
  exact ⟨node, (node?_beside_lt (node?_lt hnode)).trans hnode, children,
    forestFrom_mono (forestFrom_front hchildren b) hsteps, htree⟩

/-- The tree below a moved node is the same. -/
theorem tree?_beside {id : Nat} {tree : TypeTree} (h : b.tree? id = some tree) (a : Arena) :
    (a.beside b).tree? (id + a.size) = some tree := by
  simp only [tree?, Option.bind_eq_bind, Option.bind_eq_some_iff] at h ⊢
  obtain ⟨node, hnode, children, hchildren, htree⟩ := h
  have hsteps : b.size ≤ (a.beside b).size := by simp
  exact ⟨node.shift a.size, node?_beside_of_eq hnode a, children,
    forestFrom_mono (forestFrom_beside hchildren a) hsteps, htree⟩

/-! ## Merging -/

theorem merge_of_le {capacity : Nat} (h : a.size + b.size ≤ capacity) :
    a.merge capacity b = (a.beside b, .ok a.size) :=
  if_pos h

theorem merge_of_lt {capacity : Nat} (h : capacity < a.size + b.size) :
    a.merge capacity b = (a, .error .mergeTooLarge) :=
  if_neg (Nat.not_le.2 h)

/-- An arena grows by the nodes of the arena that is merged into it, with the moved root
    as a new root. -/
theorem Grows.beside {id : Nat} {tree : TypeTree} (h : b.Holds id tree) (a : Arena) :
    a.Grows (a.beside b) b.size [id + a.size] [tree] := by
  obtain ⟨ids, hspans, hd⟩ := h
  refine ⟨size_beside a b, fun k hk => node?_beside_lt hk, ids.map (· + a.size),
    .single (hspans.beside a), hd.map fun _ _ => Nat.add_right_cancel, fun k hk => ?_⟩
  obtain ⟨old, -, rfl⟩ := List.mem_map.1 hk
  exact Nat.le_add_left _ _

end Arena

end TypeSig
