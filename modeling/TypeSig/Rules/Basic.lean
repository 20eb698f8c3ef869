/-
  TypeSig.Rules.Basic

  Rules turn a tree into code of the target language, one rule for each sort of
  node and position. In line, a tree becomes a type expression; as the outermost
  type of a signature, it becomes the overloads of a method.

  All that the rules here make use of is what a node says and what each part of
  it becomes under the same rules, so this is what they are handed, and a rule
  that is replaced is replaced at every depth. A part that cannot be rendered is
  seen as its fault, and the rule decides when to report it. Rules that look at
  the node itself or fail in ways of their own are in
  `TypeSig.Proofs.Rules.Bundle`.
-/

import TypeSig.Overload.List
import TypeSig.Tree.Basic

namespace TypeSig

/-! ## What rules see -/

/-- A child of an object: the name it gives, whether it may be left out, and the
    type expression for its type. -/
structure FieldView where
  name : Bytes
  optional : Bool
  type : Except Fault Text

/-- A case of a union with its type expression. -/
structure CaseView where
  label : Label
  type : Except Fault Text

/-- A case of an outermost union with its overloads. -/
structure CaseOverloads where
  label : Label
  overloads : Except Fault OverloadList

/-- An outermost object: its type expression, and its fields. -/
structure ObjectView where
  inline : Except Fault Text
  fields : List FieldView

/-- An outermost union: its type expression, and its cases. -/
structure UnionView where
  inline : Except Fault Text
  cases : List CaseOverloads

/-- An outermost array: the type expression for its element, and the overloads
    that the element alone would have. -/
structure ArrayView where
  element : Except Fault Text
  overloads : Except Fault OverloadList

/-! ## Rules -/

/-- What every rule may use: how many overloads and names there may be, the most
    cases of a union, and the rule for atomic types. -/
structure Settings where
  capacity : Nat
  maxUnionArity : Nat
  atomic : Atomic → Except Fault Text

/-- A rule for each sort of node in each position. -/
structure Rules extends Settings where
  innerObject : Settings → List FieldView → Except Fault Text
  innerUnion : Settings → List CaseView → Except Fault Text
  innerArray : Settings → Except Fault Text → Except Fault Text
  topLevelObject : Settings → ObjectView → Except Fault OverloadList
  topLevelUnion : Settings → UnionView → Except Fault OverloadList
  topLevelArray : Settings → ArrayView → Except Fault OverloadList

/-- A rendered part as a piece of a larger text. -/
def partPiece (part : Except Fault Text) : Piece :=
  part.map BoundedText.bytes

/-- The body of an overload that passes on its only parameter. -/
def valueBody : Text := ⟨ascii "value", by decide⟩

/-- The one overload that takes a value of a type and passes it on. -/
def valueOverloads (capacity : Nat) (type : Except Fault Text) :
    Except Fault OverloadList := do
  let params ← BoundedText.render [.ok (ascii "(value: "), partPiece type, .ok (ascii ")")]
  OverloadList.ofList capacity [.regular params valueBody]

namespace Rules

/-! ## Types in line -/

mutual

/-- The type expression for a tree. A field stands for its type. -/
def nested (rules : Rules) : TypeTree → Except Fault Text
  | .node (.atomic type) _ => rules.atomic type
  | .node .object children => rules.innerObject rules.toSettings (fieldViews rules children)
  | .node (.field _ _) children => nestedHead rules children
  | .node .array children => rules.innerArray rules.toSettings (nestedHead rules children)
  | .node .union children => rules.innerUnion rules.toSettings (caseViews rules children)

/-- The type expression for the first of several trees. -/
def nestedHead (rules : Rules) : List TypeTree → Except Fault Text
  | [] => .error .missingRoot
  | tree :: _ => nested rules tree

/-- The children of an object, each read as a field. -/
def fieldViews (rules : Rules) : List TypeTree → List FieldView
  | [] => []
  | .node label children :: rest =>
    ⟨label.text, label.optional, nestedHead rules children⟩ :: fieldViews rules rest

/-- The children of a union. -/
def caseViews (rules : Rules) : List TypeTree → List CaseView
  | [] => []
  | tree :: rest => ⟨tree.label, nested rules tree⟩ :: caseViews rules rest

end

theorem fieldViews_eq_map (rules : Rules) (trees : List TypeTree) :
    rules.fieldViews trees = trees.map fun tree =>
      ⟨tree.label.text, tree.label.optional, rules.nestedHead tree.children⟩ := by
  induction trees with
  | nil => rfl
  | cons tree rest ih =>
    obtain ⟨label, children⟩ := tree
    simp [fieldViews, ih]

theorem caseViews_eq_map (rules : Rules) (trees : List TypeTree) :
    rules.caseViews trees = trees.map fun tree => ⟨tree.label, rules.nested tree⟩ := by
  induction trees with
  | nil => rfl
  | cons tree rest ih => simp [caseViews, ih]

/-! ## Outermost types -/

mutual

/-- The overloads for a tree as the outermost type. -/
def topLevel (rules : Rules) : TypeTree → Except Fault OverloadList
  | .node (.atomic type) _ => valueOverloads rules.capacity (rules.atomic type)
  | .node .object children =>
    rules.topLevelObject rules.toSettings
      ⟨rules.nested (.node .object children), rules.fieldViews children⟩
  | .node (.field _ _) children => topLevelHead rules children
  | .node .array children =>
    rules.topLevelArray rules.toSettings
      ⟨rules.nestedHead children, topLevelHead rules children⟩
  | .node .union children =>
    rules.topLevelUnion rules.toSettings
      ⟨rules.nested (.node .union children), caseOverloads rules children⟩

/-- The overloads for the first of several trees. -/
def topLevelHead (rules : Rules) : List TypeTree → Except Fault OverloadList
  | [] => .error .missingRoot
  | tree :: _ => topLevel rules tree

/-- The children of an outermost union. -/
def caseOverloads (rules : Rules) : List TypeTree → List CaseOverloads
  | [] => []
  | tree :: rest => ⟨tree.label, topLevel rules tree⟩ :: caseOverloads rules rest

end

theorem caseOverloads_eq_map (rules : Rules) (trees : List TypeTree) :
    rules.caseOverloads trees = trees.map fun tree => ⟨tree.label, rules.topLevel tree⟩ := by
  induction trees with
  | nil => rfl
  | cons tree rest ih => simp [caseOverloads, ih]

end Rules

end TypeSig
