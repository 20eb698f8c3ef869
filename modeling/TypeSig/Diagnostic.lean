/-
  TypeSig.Diagnostic

  The one shape in which every failure is reported: its kind, the stage that
  found it, the offset in the signature text, and a message. A message reads
  `<stage> error: <detail>`, and for a reading failure it names the column,
  which is the offset counted from one. It holds 191 bytes at most and ends at
  its first NUL.
-/

import TypeSig.Byte.Terminated
import TypeSig.Text.Clipped

namespace TypeSig

/-- What went wrong. -/
inductive ErrorKind
  | parse
  | emptyUnion
  | unsupportedArity
  | capacityExceeded
  deriving DecidableEq, Repr

/-- The name of a kind of error in answers. -/
def ErrorKind.name : ErrorKind → Bytes
  | .parse => ascii "parse"
  | .emptyUnion => ascii "empty union"
  | .unsupportedArity => ascii "unsupported arity"
  | .capacityExceeded => ascii "capacity exceeded"

/-- The stage that reports an error: reading a signature text, or all that comes
    after it. -/
inductive Stage
  | parse
  | translate
  deriving DecidableEq, Repr

/-- The name of a stage, which opens every message of that stage. -/
def Stage.name : Stage → Bytes
  | .parse => ascii "parse"
  | .translate => ascii "translate"

/-- A reported failure. -/
structure Diagnostic where
  kind : ErrorKind
  stage : Stage
  position : Nat
  message : Bytes
  deriving DecidableEq

namespace Diagnostic

/-- The most bytes that a message holds. -/
def messageLimit : Nat := 191

/-- The words before the detail. Only a reading failure has a column. -/
def heading (stage : Stage) (column : Nat) : ClippedText messageLimit :=
  let opened := (ClippedText.empty.append stage.name).append (ascii " error")
  match stage with
  | .parse => (opened.append (ascii " at column ")).appendDecimal column
  | .translate => opened

/-- The message about a detail at a column. -/
def messageAt (stage : Stage) (column : Nat) (detail : Bytes) : Bytes :=
  stored (((heading stage column).append (ascii ": ")).append detail).bytes

/-- A diagnostic for an offset given as a 64-bit word. The column is the word
    after it, so the column of the last offset is zero. -/
def make (kind : ErrorKind) (stage : Stage) (detail : Bytes) (position : UInt64) :
    Diagnostic where
  kind := kind
  stage := stage
  position := position.toNat
  message := messageAt stage (position + 1).toNat detail

end Diagnostic

end TypeSig
