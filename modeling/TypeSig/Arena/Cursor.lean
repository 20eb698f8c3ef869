/-
  TypeSig.Arena.Cursor

  Walking through an arena by its links, and reading off the tree below a node.

  The walk to a tree counts down from the number of nodes. Links that were made
  by the growing operations never return to a node they left, so the count
  suffices; for links that do, there is no tree.
-/

import TypeSig.Arena.Basic

namespace TypeSig.Arena

/-! ## Single steps -/

/-- The first child of a node. -/
def firstChild (arena : Arena) (id : Nat) : Option Nat :=
  (arena.node? id).bind Node.firstChild

/-- The node that follows among the children of the same parent. -/
def nextSibling (arena : Arena) (id : Nat) : Option Nat :=
  (arena.node? id).bind Node.nextSibling

/-- The node a number of steps along a chain of siblings. -/
def sibling (arena : Arena) : Nat → Option Nat → Option Nat
  | 0, start => start
  | _ + 1, none => none
  | steps + 1, some id => sibling arena steps (arena.nextSibling id)

/-- The child at an index. Every index below one means the first child. -/
def child (arena : Arena) (id : Nat) (index : Int) : Option Nat :=
  arena.sibling index.toNat (arena.firstChild id)

/-- What the nodes along a chain of siblings say, of so many of them at most. -/
def labelsFrom (arena : Arena) : Nat → Option Nat → List Label
  | steps + 1, some id =>
    match arena.node? id with
    | some node => node.label :: labelsFrom arena steps node.nextSibling
    | none => []
  | _, _ => []

/-! ## Paths -/

/-- Follows child indices down from a node. -/
def descend (arena : Arena) : Option Nat → List Int → Option Nat
  | none, _ => none
  | some id, [] => some id
  | some id, index :: path => descend arena (arena.child id index) path

/-- The stations of a path: where it starts and where each index leads, up to
    the first index that leads nowhere. -/
def trail (arena : Arena) : Option Nat → List Int → List (Option Nat)
  | none, _ => [none]
  | some id, [] => [some id]
  | some id, index :: path => some id :: trail arena (arena.child id index) path

/-! ## Trees -/

/-- The trees of a node and of all siblings behind it. -/
def forestFrom (arena : Arena) : Nat → Option Nat → Option (List TypeTree)
  | _, none => some []
  | 0, some _ => none
  | steps + 1, some id => do
    let node ← arena.node? id
    let children ← forestFrom arena steps node.firstChild
    let rest ← forestFrom arena steps node.nextSibling
    some (.node node.label children :: rest)

/-- The tree below a node. -/
def tree? (arena : Arena) (id : Nat) : Option TypeTree := do
  let node ← arena.node? id
  let children ← arena.forestFrom arena.size node.firstChild
  some (.node node.label children)

end TypeSig.Arena

namespace TypeSig.StoredTree

/-- The tree below the root. -/
def tree? (stored : StoredTree) : Option TypeTree :=
  stored.root.bind stored.arena.tree?

/-- The same arena with the node that a path leads to as root. -/
def descend (stored : StoredTree) (path : List Int) : StoredTree :=
  { stored with root := stored.arena.descend stored.root path }

end TypeSig.StoredTree
