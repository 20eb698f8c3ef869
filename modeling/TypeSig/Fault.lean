/-
  TypeSig.Fault

  The faults that stop the building of a tree, the rendering of a text or the
  collecting of overloads. Each is one cause; `kind` and `detail` give its
  report. None of them has a place in the signature text, so all are reported
  by the second stage at offset zero.
-/

import TypeSig.Diagnostic

namespace TypeSig

/-- Why a tree, a text or a list of overloads could not be made. -/
inductive Fault
  /-- No node is left for another tree node. -/
  | arenaFull
  /-- No room for all nodes of a merged arena. -/
  | mergeTooLarge
  /-- The text of an atomic type does not fit in a node. -/
  | typeNameTooLong
  /-- A field name does not fit in a node. -/
  | fieldNameTooLong
  /-- A rendered text outgrows its bound, which is that of a code fragment or of a name. -/
  | textTooLong (limit : Nat)
  /-- More fields than field names are kept for. -/
  | tooManyFields
  /-- A new overload for a full list. -/
  | overloadsFull
  /-- More distinct union cases than are kept. -/
  | tooManyCases
  /-- A union without a case has no type. -/
  | emptyUnion
  /-- More distinct union cases than the target language has unions for. -/
  | unsupportedArity (limit : Nat)
  /-- A tree, or a part that a rule needs, is missing. -/
  | missingRoot
  deriving DecidableEq, Repr

namespace Fault

/-- The kind of error that a fault is reported as. -/
def kind : Fault → ErrorKind
  | .emptyUnion => .emptyUnion
  | .unsupportedArity _ => .unsupportedArity
  | .missingRoot => .parse
  | _ => .capacityExceeded

/-- The detail of the report. -/
def detail : Fault → Bytes
  | .arenaFull => ascii "TypeAST capacity exceeded"
  | .mergeTooLarge => ascii "TypeAST capacity exceeded in merge"
  | .typeNameTooLong => ascii "type name too long"
  | .fieldNameTooLong => ascii "field name too long"
  | .textTooLong _ => ascii "rendered text exceeds FixedString capacity"
  | .tooManyFields => ascii "object has too many fields"
  | .overloadsFull => ascii "OverloadList capacity exceeded"
  | .tooManyCases => ascii "union has too many distinct cases"
  | .emptyUnion => ascii "union cannot be empty"
  | .unsupportedArity limit =>
    ascii "unions with more than " ++ decimal limit ++ ascii " cases are not supported"
  | .missingRoot => ascii "type tree has no root node"

/-- The report of a fault. -/
def diagnostic (fault : Fault) : Diagnostic :=
  Diagnostic.make fault.kind .translate fault.detail 0

end Fault

end TypeSig
