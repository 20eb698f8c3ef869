/-
  TypeSig.Generate

  What the library is for: the overloads for a signature text. A text that
  cannot be read is a failed reading; a tree that was read and for which no
  overloads can be made is a fault.
-/

import TypeSig.Arena.Cursor
import TypeSig.Rules.Variant
import TypeSig.Signature.Reader
import TypeSig.Signature.Writer

namespace TypeSig

namespace StoredTree

/-- The tree below the root, or the fault that there is none. -/
def requireTree (stored : StoredTree) : Except Fault TypeTree :=
  match stored.tree? with
  | some tree => .ok tree
  | none => .error .missingRoot

theorem requireTree_of_tree? {stored : StoredTree} {tree : TypeTree}
    (h : stored.tree? = some tree) : stored.requireTree = .ok tree := by
  simp [requireTree, h]

theorem requireTree_eq (stored : StoredTree) :
    (∃ tree, stored.tree? = some tree ∧ stored.requireTree = .ok tree) ∨
      stored.requireTree = .error .missingRoot := by
  unfold requireTree
  cases stored.tree? with
  | none => exact Or.inr rfl
  | some tree => exact Or.inl ⟨tree, rfl, rfl⟩

/-- The type expression for a stored tree. -/
def nested (rules : Rules) (stored : StoredTree) : Except Fault Text := do
  let tree ← stored.requireTree
  rules.nested tree

/-- The overloads for a stored tree. -/
def topLevel (rules : Rules) (stored : StoredTree) : Except Fault OverloadList := do
  let tree ← stored.requireTree
  rules.topLevel tree

/-- The texts of the children of the root, each read as the name of a field. One more
    than there is room for is read, and is refused later; what is below the children is
    not looked at. -/
def childTexts (capacity : Nat) (stored : StoredTree) : Except Fault (List Bytes) :=
  match stored.root.bind stored.arena.node? with
  | some node => .ok ((stored.arena.labelsFrom (capacity + 1) node.firstChild).map Label.text)
  | none => .error .missingRoot

/-- The names for the children of the root, each read as a field. -/
def fieldNames (capacity : Nat) (stored : StoredTree) : Except Fault (List Identifier) := do
  let sources ← stored.childTexts capacity
  Target.fieldNames capacity sources

/-- The object literal over the children of the root, each read as a field. -/
def objectLiteral (capacity : Nat) (stored : StoredTree) : Except Fault Text := do
  let sources ← stored.childTexts capacity
  Target.objectLiteral capacity sources

/-- The signature text of a stored tree. -/
def write (stored : StoredTree) : Except Fault Text := do
  let tree ← stored.requireTree
  Signature.write tree

end StoredTree

/-- The overloads for a signature text. -/
def generate (capacity : Nat) (custom : Customization) (text : Bytes) :
    Except Fault (Except ReadFailure OverloadList) :=
  match Signature.read capacity text with
  | .error failure => .ok (.error failure)
  | .ok stored => (stored.topLevel (custom.rules capacity)).map .ok

end TypeSig
