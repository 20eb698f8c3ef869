/-
  TypeSig.Rules.Variant

  Rules that may stand in for the default ones, and the choice among them. A
  customization picks one rule for each slot, so there are finitely many
  bundles of rules apart from the arity of unions.
-/

import TypeSig.Rules.Default

namespace TypeSig

/-! ## Variants of each rule -/

/-- Rules for atomic types. -/
inductive AtomicRule
  | standard
  /-- Strings are `str`. -/
  | shortString
  /-- Numbers are `int`. -/
  | intNumber
  /-- Functions handle events, and `ReactNode` is an element. -/
  | handler
  /-- Everything is `obj`. -/
  | allObj
  deriving DecidableEq, Repr

/-- Rules for objects in line. -/
inductive InnerObjectRule
  | standard
  /-- The record in a box. -/
  | boxed
  deriving DecidableEq, Repr

/-- Rules for unions in line. -/
inductive InnerUnionRule
  | standard
  /-- The first case stands for all. -/
  | firstCase
  deriving DecidableEq, Repr

/-- Rules for arrays in line. -/
inductive InnerArrayRule
  | standard
  /-- An array that can grow. -/
  | resizeArray
  deriving DecidableEq, Repr

/-- Rules for outermost objects. -/
inductive TopLevelObjectRule
  | standard
  /-- Also without parameters, for the object without fields. -/
  | withEmpty
  /-- Also with the whole object as one value. -/
  | orValue
  deriving DecidableEq, Repr

/-- Rules for outermost unions. -/
inductive TopLevelUnionRule
  | standard
  /-- The union as one value. -/
  | unionAsValue
  deriving DecidableEq, Repr

/-- Rules for outermost arrays. -/
inductive TopLevelArrayRule
  | standard
  /-- Also the overloads of one element, of no element, and of none. -/
  | spread
  deriving DecidableEq, Repr

namespace Variant

def shortString (type : Atomic) : Except Fault Text :=
  if type.kind = .string then BoundedText.ofBytes (ascii "str") else Default.atomic type

def intNumber (type : Atomic) : Except Fault Text :=
  if type.kind = .number then BoundedText.ofBytes (ascii "int") else Default.atomic type

def handler (type : Atomic) : Except Fault Text :=
  if type.kind = .func then
    BoundedText.ofBytes (ascii "(Browser.Types.Event -> unit)")
  else if type.kind = .other ∧ type.text = ascii "ReactNode" then
    BoundedText.ofBytes (ascii "ReactElement")
  else
    Default.atomic type

def allObj (_ : Atomic) : Except Fault Text :=
  BoundedText.ofBytes (ascii "obj")

def boxed (settings : Settings) (fields : List FieldView) : Except Fault Text :=
  BoundedText.render
    [.ok (ascii "Box<"), partPiece (Default.innerObject settings fields), .ok (ascii ">")]

def firstCase (_ : Settings) (cases : List CaseView) : Except Fault Text :=
  match cases with
  | [] => .error .missingRoot
  | case :: _ => case.type

def resizeArray (_ : Settings) (element : Except Fault Text) : Except Fault Text :=
  BoundedText.render [.ok (ascii "ResizeArray<"), partPiece element, .ok (ascii ">")]

/-- The parameter list without parameters. -/
def noParameters : Text := ⟨ascii "()", by decide⟩

/-- The object literal without entries. -/
def emptyObject : Text := ⟨ascii "createObj []", by decide⟩

def withEmpty (settings : Settings) (object : ObjectView) : Except Fault OverloadList := do
  let list ← Default.topLevelObject settings object
  list.extend settings.capacity [.regular noParameters emptyObject]

def orValue (settings : Settings) (object : ObjectView) : Except Fault OverloadList := do
  let list ← Default.topLevelObject settings object
  let value ← valueOverloads settings.capacity object.inline
  list.extend settings.capacity value.items

def unionAsValue (settings : Settings) (union : UnionView) : Except Fault OverloadList :=
  valueOverloads settings.capacity union.inline

/-- The empty array. -/
def emptyArray : Text := ⟨ascii "[||]", by decide⟩

/-- The method for no array at all. -/
def noneMethod : Identifier := ⟨ascii "none", by decide⟩

/-- No value. -/
def nullValue : Text := ⟨ascii "null", by decide⟩

def spread (settings : Settings) (array : ArrayView) : Except Fault OverloadList := do
  let list ← Default.topLevelArray settings array
  let element ← array.overloads
  list.extend settings.capacity
    (element.items ++ [.regular noParameters emptyArray, .enum noneMethod nullValue])

end Variant

/-! ## The rule that each choice names -/

def AtomicRule.apply : AtomicRule → Atomic → Except Fault Text
  | .standard => Default.atomic
  | .shortString => Variant.shortString
  | .intNumber => Variant.intNumber
  | .handler => Variant.handler
  | .allObj => Variant.allObj

def InnerObjectRule.apply :
    InnerObjectRule → Settings → List FieldView → Except Fault Text
  | .standard => Default.innerObject
  | .boxed => Variant.boxed

def InnerUnionRule.apply :
    InnerUnionRule → Settings → List CaseView → Except Fault Text
  | .standard => Default.innerUnion
  | .firstCase => Variant.firstCase

def InnerArrayRule.apply :
    InnerArrayRule → Settings → Except Fault Text → Except Fault Text
  | .standard => Default.innerArray
  | .resizeArray => Variant.resizeArray

def TopLevelObjectRule.apply :
    TopLevelObjectRule → Settings → ObjectView → Except Fault OverloadList
  | .standard => Default.topLevelObject
  | .withEmpty => Variant.withEmpty
  | .orValue => Variant.orValue

def TopLevelUnionRule.apply :
    TopLevelUnionRule → Settings → UnionView → Except Fault OverloadList
  | .standard => Default.topLevelUnion
  | .unionAsValue => Variant.unionAsValue

def TopLevelArrayRule.apply :
    TopLevelArrayRule → Settings → ArrayView → Except Fault OverloadList
  | .standard => Default.topLevelArray
  | .spread => Variant.spread

/-! ## Customizations -/

/-- A choice of one rule for each slot; without a choice, the default. -/
structure Customization where
  atomic : AtomicRule := .standard
  innerObject : InnerObjectRule := .standard
  innerUnion : InnerUnionRule := .standard
  innerArray : InnerArrayRule := .standard
  topLevelObject : TopLevelObjectRule := .standard
  topLevelUnion : TopLevelUnionRule := .standard
  topLevelArray : TopLevelArrayRule := .standard
  maxUnionArity : Nat := Default.maxUnionArity
  deriving DecidableEq, Repr

/-- The chosen rules for trees of a capacity. -/
def Customization.rules (custom : Customization) (capacity : Nat) : Rules where
  capacity := capacity
  maxUnionArity := custom.maxUnionArity
  atomic := custom.atomic.apply
  innerObject := custom.innerObject.apply
  innerUnion := custom.innerUnion.apply
  innerArray := custom.innerArray.apply
  topLevelObject := custom.topLevelObject.apply
  topLevelUnion := custom.topLevelUnion.apply
  topLevelArray := custom.topLevelArray.apply

theorem Customization.rules_default (capacity : Nat) :
    ({} : Customization).rules capacity = Rules.standard capacity := rfl

end TypeSig
