/-
  TypeSig.Rules.Default

  The rules that hold unless they are replaced.

  In line, an array is `T []`, an object an anonymous record whose optional
  members are options, and a union one of the erased unions `U2`, `U3` and so
  on. String literals have no type of their own and widen to the type of
  strings; cases that render alike count once, so a union may come down to a
  single type.

  As an outermost type, an object takes its fields as named parameters and
  passes on an object literal, an array takes any number of values, and a union
  gives the overloads of its cases, with one enumerated method for each literal.
-/

import TypeSig.Rules.Basic
import TypeSig.Target.Literal

namespace TypeSig.Default

/-- The most cases that a union of the target language has. -/
def maxUnionArity : Nat := 9

/-! ## Types in line -/

/-- The type expression for an atomic type. -/
def atomic (type : Atomic) : Except Fault Text :=
  match type.kind with
  | .string => BoundedText.ofBytes (ascii "string")
  | .number => BoundedText.ofBytes (ascii "float")
  | .bool => BoundedText.ofBytes (ascii "bool")
  | .func => BoundedText.ofBytes (ascii "Func<obj, obj>")
  | .object => BoundedText.ofBytes (ascii "obj")
  | .element => BoundedText.ofBytes (ascii "ReactElement")
  | .elementType => BoundedText.ofBytes (ascii "ReactElementType")
  | .stringLiteral => Target.quotedCode type.text
  | .other => BoundedText.ofBytes type.text

/-- An array of an element type. -/
def innerArray (_ : Settings) (element : Except Fault Text) : Except Fault Text :=
  BoundedText.render [partPiece element, .ok (ascii " []")]

/-- A member of an anonymous record. -/
def memberPieces (field : FieldView) (name : Identifier) : List Piece :=
  [.ok name.bytes, .ok (ascii ": "), partPiece field.type] ++
    if field.optional then [.ok (ascii " option")] else []

/-- An anonymous record with the given fields. -/
def innerObject (settings : Settings) (fields : List FieldView) : Except Fault Text := do
  let names ← Target.fieldNames settings.capacity (fields.map FieldView.name)
  BoundedText.render
    (.ok (ascii "\x7b| ") ::
      joinPieces (ascii "; ") (List.zipWith memberPieces fields names) ++
      [.ok (ascii " |\x7d")])

/-- The type expression for a case of a union; a literal widens. -/
def caseType (settings : Settings) (case : CaseView) : Except Fault Text :=
  if case.label.isLiteral then settings.atomic ⟨.string, []⟩ else case.type

/-- The distinct type expressions of cases, behind those that are known. A new
    one must be within the arity that unions may have, unless it is the first,
    and within the capacity. -/
def distinctTypes (settings : Settings) (known : List Text) :
    List CaseView → Except Fault (List Text)
  | [] => .ok known
  | case :: rest => do
    let type ← caseType settings case
    if type ∈ known then
      distinctTypes settings known rest
    else if known ≠ [] ∧ settings.maxUnionArity ≤ known.length then
      .error (.unsupportedArity settings.maxUnionArity)
    else if settings.capacity ≤ known.length then
      .error .tooManyCases
    else
      distinctTypes settings (known ++ [type]) rest

/-- The union of distinct types. -/
def unionOf (types : List Text) : Except Fault Text :=
  match types with
  | [] => .error .emptyUnion
  | [only] => .ok only
  | types =>
    BoundedText.render
      (.ok (ascii "U") :: .ok (decimal types.length) :: .ok (ascii "<") ::
        joinPieces (ascii ", ") (types.map fun type => [.ok type.bytes]) ++
        [.ok (ascii ">")])

/-- The union of cases. -/
def innerUnion (settings : Settings) (cases : List CaseView) : Except Fault Text := do
  let types ← distinctTypes settings [] cases
  unionOf types

/-! ## Outermost types -/

/-- A named parameter. -/
def parameterPieces (field : FieldView) (name : Identifier) : List Piece :=
  (if field.optional then [.ok [Byte.questionMark]] else []) ++
    [.ok name.bytes, .ok (ascii ": "), partPiece field.type]

/-- The parameter list for fields. -/
def parameters (fields : List FieldView) (names : List Identifier) : Except Fault Text :=
  BoundedText.render
    (.ok (ascii "(") ::
      joinPieces (ascii ", ") (List.zipWith parameterPieces fields names) ++
      [.ok (ascii ")")])

/-- An object as named parameters. -/
def topLevelObject (settings : Settings) (object : ObjectView) :
    Except Fault OverloadList := do
  let sources := object.fields.map FieldView.name
  let names ← Target.fieldNames settings.capacity sources
  let params ← parameters object.fields names
  let body ← Target.objectLiteral settings.capacity sources
  OverloadList.ofList settings.capacity [.regular params body]

/-- The enumerated method for a literal. -/
def literalOverload (text : Bytes) : Except Fault Overload := do
  let method ← Target.adaptName text
  let value ← Target.quotedCode text
  .ok (.enum method value)

/-- The overloads that a case adds to a union. -/
def caseItems (case : CaseOverloads) : Except Fault (List Overload) :=
  match case.label.literal? with
  | some text => (literalOverload text).map fun overload => [overload]
  | none => case.overloads.map OverloadList.items

/-- The overloads of cases, behind those of the cases before them. -/
def collect (capacity : Nat) (list : OverloadList) :
    List CaseOverloads → Except Fault OverloadList
  | [] => .ok list
  | case :: rest => do
    let items ← caseItems case
    let list ← list.extend capacity items
    collect capacity list rest

/-- A union as the overloads of its cases. -/
def topLevelUnion (settings : Settings) (union : UnionView) : Except Fault OverloadList :=
  collect settings.capacity .empty union.cases

/-- The body of an overload that takes any number of values. -/
def valuesBody : Text := ⟨ascii "values", by decide⟩

/-- An array as any number of values. -/
def topLevelArray (settings : Settings) (array : ArrayView) : Except Fault OverloadList := do
  let params ← BoundedText.render
    [.ok (ascii "([<ParamArray>] values: "), partPiece array.element, .ok (ascii " [])")]
  OverloadList.ofList settings.capacity [.regular params valuesBody]

end TypeSig.Default

namespace TypeSig

/-- The default rules for trees of a capacity. -/
def Rules.standard (capacity : Nat) : Rules where
  capacity := capacity
  maxUnionArity := Default.maxUnionArity
  atomic := Default.atomic
  innerObject := Default.innerObject
  innerUnion := Default.innerUnion
  innerArray := Default.innerArray
  topLevelObject := Default.topLevelObject
  topLevelUnion := Default.topLevelUnion
  topLevelArray := Default.topLevelArray

end TypeSig
