/-
  TypeSig.Arena.Basic

  Trees are kept in an arena: a list of nodes that only grows, in which a node
  names its first child and its next sibling by their places. A node is stored
  after its children. The capacity of an arena is not part of it: each growing
  operation is told how many nodes there may be.

  An operation answers with the arena it leaves as well as with its result,
  because a refused parent has already linked its children to each other. That
  link is not read by anything: the children are roots, and the siblings of a
  root are nobody's children.
-/

import TypeSig.Tree.Basic
import TypeSig.Byte.Terminated
import TypeSig.Text.Bounded

namespace TypeSig

/-- A stored node: its label, its links, and the number of children it was
    given. -/
structure Node where
  label : Label
  firstChild : Option Nat
  nextSibling : Option Nat
  childCount : Nat
  deriving DecidableEq, Repr

/-- Nodes in the order in which they were stored; the place of a node is its id. -/
structure Arena where
  nodes : List Node
  deriving DecidableEq, Repr

namespace Node

/-- A node without links. -/
def leaf (label : Label) : Node :=
  ⟨label, none, none, 0⟩

/-- The same node in an arena whose ids begin `offset` higher. -/
def shift (offset : Nat) (node : Node) : Node :=
  { node with
    firstChild := node.firstChild.map (· + offset)
    nextSibling := node.nextSibling.map (· + offset) }

end Node

namespace Arena

/-! ## Storage -/

/-- The arena without nodes. -/
def empty : Arena := ⟨[]⟩

/-- The number of nodes. -/
def size (arena : Arena) : Nat := arena.nodes.length

/-- No further node has room. -/
def isFull (capacity : Nat) (arena : Arena) : Bool :=
  capacity ≤ arena.size

/-- The node with a given id. -/
def node? (arena : Arena) (id : Nat) : Option Node :=
  arena.nodes[id]?

/-- Stores a node behind all others and answers with its id. -/
def push (capacity : Nat) (arena : Arena) (node : Node) : Arena × Except Fault Nat :=
  if arena.isFull capacity then
    (arena, .error .arenaFull)
  else
    (⟨arena.nodes ++ [node]⟩, .ok arena.size)

/-! ## Links -/

/-- Says which node follows a given one among the children of its parent. -/
def setNextSibling (arena : Arena) (id : Nat) (next : Option Nat) : Arena :=
  ⟨arena.nodes.modify id fun node => { node with nextSibling := next }⟩

/-- Links nodes to each other in the given order; nothing follows the last. -/
def chain (arena : Arena) : List Nat → Arena
  | [] => arena
  | [id] => arena.setNextSibling id none
  | id :: next :: rest => chain (arena.setNextSibling id (some next)) (next :: rest)

/-! ## Growing -/

/-- Stores an atomic type. -/
def addAtomic (capacity : Nat) (arena : Arena) (kind : AtomicKind) (text : Bytes) :
    Arena × Except Fault Nat :=
  if text.length ≤ nameLimit then
    arena.push capacity (.leaf (.atomic ⟨kind, stored text⟩))
  else
    (arena, .error .typeNameTooLong)

/-- Stores a node over existing ones, which become its children. -/
def addLabelled (capacity : Nat) (arena : Arena) (label : Label) (children : List Nat) :
    Arena × Except Fault Nat :=
  (arena.chain children).push capacity ⟨label, children.head?, none, children.length⟩

/-- Stores a node of a given sort over existing ones. -/
def addParent (capacity : Nat) (arena : Arena) (kind : NodeKind) (children : List Nat) :
    Arena × Except Fault Nat :=
  arena.addLabelled capacity (.blank kind) children

/-- Stores a field over its type. -/
def addField (capacity : Nat) (arena : Arena) (name : Bytes) (type : Nat) (optional : Bool) :
    Arena × Except Fault Nat :=
  if name.length ≤ nameLimit then
    arena.addLabelled capacity (.field (stored name) optional) [type]
  else
    (arena, .error .fieldNameTooLong)

/-- Stores all nodes of another arena and answers with the id of the first. -/
def merge (capacity : Nat) (arena other : Arena) : Arena × Except Fault Nat :=
  if arena.size + other.size ≤ capacity then
    (⟨arena.nodes ++ other.nodes.map (.shift arena.size)⟩, .ok arena.size)
  else
    (arena, .error .mergeTooLarge)

/-! ## Sizes -/

@[simp] theorem size_empty : empty.size = 0 := rfl

@[simp] theorem size_setNextSibling (arena : Arena) (id : Nat) (next : Option Nat) :
    (arena.setNextSibling id next).size = arena.size := by
  simp [setNextSibling, size]

@[simp] theorem size_chain (arena : Arena) (ids : List Nat) :
    (arena.chain ids).size = arena.size := by
  fun_induction chain arena ids <;> simp_all

end Arena

/-- An arena together with the root of one tree in it; there is no root where no
    tree could be made. -/
structure StoredTree where
  arena : Arena
  root : Option Nat
  deriving DecidableEq, Repr

/-- No tree at all. -/
def StoredTree.rootless : StoredTree := ⟨.empty, none⟩

end TypeSig
