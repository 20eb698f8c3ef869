/-
  TypeSig.Tree.Basic

  Types of the signature language as ordered trees. A node carries a label: an
  atomic type, an object, a field of an object with its name and whether it may
  be left out, an array, or a union.

  The labels do not force a shape. A union may have no case, an object may hold
  nodes that are not fields, and an array may lack its element; every function
  on trees says what it does with these.
-/

import TypeSig.Byte.Class

namespace TypeSig

/-! ## Labels -/

/-- The sorts of atomic types. -/
inductive AtomicKind
  | string
  | number
  | bool
  | func
  | object
  | element
  | elementType
  /-- A quoted text, which stands for itself. -/
  | stringLiteral
  /-- Any other name, which is passed on unchanged. -/
  | other
  deriving DecidableEq, Repr

/-- An atomic type: its sort, and the text of a literal or of a name. -/
structure Atomic where
  kind : AtomicKind
  text : Bytes
  deriving DecidableEq, Repr

/-- The sorts of tree nodes. -/
inductive NodeKind
  | atomic
  | object
  | field
  | array
  | union
  deriving DecidableEq, Repr

/-- What a tree node says, apart from its children. -/
inductive Label
  | atomic (type : Atomic)
  | object
  | field (name : Bytes) (optional : Bool)
  | array
  | union
  deriving DecidableEq, Repr

namespace Label

/-- The sort of the node. -/
def kind : Label → NodeKind
  | .atomic _ => .atomic
  | .object => .object
  | .field _ _ => .field
  | .array => .array
  | .union => .union

/-- The text of a node: of an atomic type or the name of a field. -/
def text : Label → Bytes
  | .atomic type => type.text
  | .field name _ => name
  | .object | .array | .union => []

/-- The node is a field that may be left out. -/
def optional : Label → Bool
  | .field _ optional => optional
  | _ => false

/-- The node read as an atomic type; a node of another sort is an unknown name. -/
def atomicType : Label → Atomic
  | .atomic type => type
  | label => ⟨.other, label.text⟩

/-- The text of a string literal. -/
def literal? : Label → Option Bytes
  | .atomic ⟨.stringLiteral, text⟩ => some text
  | _ => none

/-- The node is a string literal. -/
def isLiteral (label : Label) : Bool :=
  label.literal?.isSome

/-- The label of a fresh node of a given sort. -/
def blank : NodeKind → Label
  | .atomic => .atomic ⟨.other, []⟩
  | .object => .object
  | .field => .field [] false
  | .array => .array
  | .union => .union

@[simp] theorem kind_blank (kind : NodeKind) : (blank kind).kind = kind := by
  cases kind <;> rfl

end Label

/-! ## Trees -/

/-- A type as an ordered tree. -/
inductive TypeTree
  | node (label : Label) (children : List TypeTree)
  deriving Repr

namespace TypeTree

def label : TypeTree → Label
  | .node label _ => label

def children : TypeTree → List TypeTree
  | .node _ children => children

@[simp] theorem label_node (label : Label) (children : List TypeTree) :
    (node label children).label = label := rfl

@[simp] theorem children_node (label : Label) (children : List TypeTree) :
    (node label children).children = children := rfl

/-- A property that passes from the children of every node to the node holds of
    every tree. -/
@[elab_as_elim]
theorem induction {motive : TypeTree → Prop}
    (node : ∀ label children, (∀ child ∈ children, motive child) →
      motive (.node label children)) :
    ∀ tree, motive tree
  | .node label children => node label children (go children)
where
  /-- The same for every tree of a list. -/
  go : ∀ children : List TypeTree, ∀ child ∈ children, motive child
    | [] => fun _ h => nomatch h
    | first :: rest => fun child h =>
      (List.mem_cons.1 h).elim (fun e => e ▸ induction node first) (go rest child)

/-! ## Equality -/

mutual

/-- Decides whether two trees are equal. -/
def decEq : (s t : TypeTree) → Decidable (s = t)
  | .node label children, .node label' children' =>
    have := decEqAll children children'
    decidable_of_iff (label = label' ∧ children = children') (by simp)

def decEqAll : (ss ts : List TypeTree) → Decidable (ss = ts)
  | [], [] => isTrue rfl
  | [], _ :: _ | _ :: _, [] => isFalse (by simp)
  | s :: ss, t :: ts =>
    have := decEq s t
    have := decEqAll ss ts
    decidable_of_iff (s = t ∧ ss = ts) (by simp)

end

instance : DecidableEq TypeTree := decEq

/-! ## Trees by sort -/

/-- An atomic type. -/
def atomic (kind : AtomicKind) (text : Bytes) : TypeTree :=
  .node (.atomic ⟨kind, text⟩) []

def array (element : TypeTree) : TypeTree :=
  .node .array [element]

def union (cases : List TypeTree) : TypeTree :=
  .node .union cases

def object (fields : List TypeTree) : TypeTree :=
  .node .object fields

/-- A field with its name, whether it may be left out, and its type. -/
def field (name : Bytes) (optional : Bool) (type : TypeTree) : TypeTree :=
  .node (.field name optional) [type]

/-! ## Number of nodes -/

mutual

/-- The number of nodes of a tree. -/
def size : TypeTree → Nat
  | .node _ children => sizeAll children + 1

def sizeAll : List TypeTree → Nat
  | [] => 0
  | tree :: rest => tree.size + sizeAll rest

end

theorem size_pos (tree : TypeTree) : 0 < tree.size := by
  cases tree with
  | node label children => simp [size]

end TypeTree

end TypeSig
