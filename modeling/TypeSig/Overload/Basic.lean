/-
  TypeSig.Overload.Basic

  One generated method. A regular overload has a parameter list and an
  expression that it passes on; an enumerated one is a method without parameters
  that stands for a fixed value.

  Two regular overloads are the same method if parameters and body agree; two
  enumerated ones are if names and parameters do, whatever they stand for.
-/

import TypeSig.Text.Bounded

namespace TypeSig

/-- The sorts of generated methods. -/
inductive OverloadKind
  | regular
  | enum
  deriving DecidableEq, Repr

/-- A generated method. Its body is the expression that it passes on, or the value
    that it stands for. -/
structure Overload where
  kind : OverloadKind
  name : Identifier
  params : Text
  body : Text
  deriving DecidableEq

namespace Overload

/-- A method with parameters, which has no name of its own. -/
def regular (params body : Text) : Overload :=
  ⟨.regular, .empty, params, body⟩

/-- A method without parameters for a value. -/
def enum (name : Identifier) (value : Text) : Overload :=
  ⟨.enum, name, .empty, value⟩

@[simp] theorem regular_inj {params params' body body' : Text} :
    regular params body = regular params' body' ↔ params = params' ∧ body = body' := by
  simp [regular]

/-- Two overloads declare the same method. -/
def sameIdentity (x y : Overload) : Bool :=
  x.kind == y.kind &&
    match x.kind with
    | .regular => x.params == y.params && x.body == y.body
    | .enum => x.name == y.name && x.params == y.params

@[simp] theorem sameIdentity_enum (name name' : Identifier) (value value' : Text) :
    (enum name value).sameIdentity (enum name' value') = (name == name') := by
  simp [sameIdentity, enum]

end Overload

end TypeSig
