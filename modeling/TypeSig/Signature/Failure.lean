/-
  TypeSig.Signature.Failure

  Why a signature text cannot be read, and where. A text fails either because it
  is not in the language, at the first token that no continuation allows, or
  because it does not fit: too many nodes, a name that no node can hold, or too
  many types open at once.
-/

import TypeSig.Fault

namespace TypeSig

/-- What the language asks for at some place. -/
inductive Expected
  | fieldName
  | colon
  | commaOrBrace
  | closeAngle
  | type
  | endOfInput
  deriving DecidableEq, Repr

/-- The words for what is asked for. -/
def Expected.detail : Expected → Bytes
  | .fieldName => ascii "expected field name"
  | .colon => ascii "expected ':'"
  | .commaOrBrace => ascii "expected ',' or '\x7d'"
  | .closeAngle => ascii "expected '>'"
  | .type => ascii "expected a type"
  | .endOfInput => ascii "expected end of input"

/-- Why reading stops. -/
inductive ReadCause
  | expected (what : Expected)
  | nulInLiteral
  | unterminatedLiteral
  | tooManyNodes
  | textTooLong
  | nestedTooDeeply
  /-- The arena refused a node after the reader had made sure of its room. -/
  | refused (fault : Fault)
  deriving DecidableEq, Repr

namespace ReadCause

/-- The kind of error that a cause is reported as. -/
def kind : ReadCause → ErrorKind
  | .expected _ | .nulInLiteral | .unterminatedLiteral => .parse
  | .tooManyNodes | .textTooLong | .nestedTooDeeply => .capacityExceeded
  | .refused fault => fault.kind

/-- The detail of the report. -/
def detail : ReadCause → Bytes
  | .expected what => what.detail
  | .nulInLiteral => ascii "NUL character in string literal"
  | .unterminatedLiteral => ascii "unterminated string literal"
  | .tooManyNodes => ascii "signature has too many nodes"
  | .textTooLong => ascii "name or literal too long"
  | .nestedTooDeeply => ascii "signature nested too deeply"
  | .refused fault => fault.detail

end ReadCause

/-- A failed reading: its cause and the offset it is about. -/
structure ReadFailure where
  cause : ReadCause
  position : Nat
  deriving DecidableEq, Repr

/-- The report of a failed reading. -/
def ReadFailure.diagnostic (failure : ReadFailure) : Diagnostic where
  kind := failure.cause.kind
  stage := .parse
  position := failure.position
  message := Diagnostic.messageAt .parse (failure.position + 1) failure.cause.detail

end TypeSig
