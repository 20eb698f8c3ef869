/-
  TypeSig.Arena.Equality

  Structural equality of two nodes, each in its own arena. Ids, storage order,
  nodes that nothing refers to and the siblings of the two nodes themselves do
  not matter. Two nodes agree when their labels do and they were given equally
  many children; the walk then compares the children in step.
-/

import TypeSig.Arena.Cursor

namespace TypeSig

/-- Two nodes say the same, apart from their children. -/
def Node.agrees (m n : Node) : Bool :=
  m.label == n.label && m.childCount == n.childCount

/-- The node is an atomic type, whose children are not looked at. -/
def Node.isAtomic (node : Node) : Bool :=
  node.label.kind == .atomic

namespace Arena

/-- Two chains of siblings hold equal trees. -/
def sameChain (a b : Arena) : Nat → Option Nat → Option Nat → Bool
  | _, none, none => true
  | steps + 1, some i, some j =>
    match a.node? i, b.node? j with
    | some m, some n =>
      m.agrees n && (m.isAtomic || sameChain a b steps m.firstChild n.firstChild) &&
        sameChain a b steps m.nextSibling n.nextSibling
    | _, _ => false
  | _, _, _ => false

/-- Node `i` of the first arena and node `j` of the second are roots of equal
    trees. -/
def sameTree (a : Arena) (i : Nat) (b : Arena) (j : Nat) : Bool :=
  match a.node? i, b.node? j with
  | some m, some n =>
    m.agrees n && (m.isAtomic || sameChain a b a.size m.firstChild n.firstChild)
  | _, _ => false

end Arena

namespace StoredTree

/-- The roots of two stored trees are roots of equal trees. Without a root there
    is nothing to compare. -/
def same (s t : StoredTree) : Bool :=
  match s.root, t.root with
  | some i, some j => s.arena.sameTree i t.arena j
  | _, _ => false

/-- The roots of two stored trees are the same when read as atomic types. -/
def sameAtomicType (s t : StoredTree) : Bool :=
  match s.root.bind s.arena.node?, t.root.bind t.arena.node? with
  | some m, some n => m.label.atomicType == n.label.atomicType
  | _, _ => false

end StoredTree

end TypeSig
