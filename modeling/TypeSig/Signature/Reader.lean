/-
  TypeSig.Signature.Reader

  Reading a signature text. The tokens are taken from left to right and the tree
  grows in an arena while they are, so a text that does not fit fails at the
  token for which there is no room, also where a later token is wrong.

    Type    is one Case, or several with bars between them
    Case    is an object, an array, a quoted literal or a name
    Object  is one or more Fields in braces, with commas between them and
            possibly one behind the last
    Field   is a name or a quoted text, perhaps a question mark, a colon, a Type
    Array   is the name Array and a Type in angle brackets

  `Array` is an ordinary name where no angle bracket follows. A union keeps the
  first of equal cases; the nodes of the others stay in the arena, and a union
  that is left with one case is that case.

  A reader is given the readers of its parts, so nesting is bounded by a count
  that only `readType` takes down. Each loop is bounded by the number of tokens
  that are left, since every round takes one.
-/

import TypeSig.Arena.Equality
import TypeSig.Signature.Failure
import TypeSig.Signature.Token

namespace TypeSig.Signature

/-! ## Where the reading stands -/

/-- The arena so far, the tokens that are left, and the length of the text. -/
structure Progress where
  arena : Arena
  rest : List Lexeme
  finish : Nat
  deriving DecidableEq, Repr

/-- A part of the language, read from where the reading stands: its value and
    where the reading stands behind it. -/
abbrev Reader (α : Type) := Progress → Except ReadFailure (α × Progress)

namespace Progress

/-- The offset of the next token, or the end of the text. -/
def position (s : Progress) : Nat :=
  match s.rest with
  | [] => s.finish
  | lexeme :: _ => lexeme.start

/-- The next token is a given byte. -/
def nextIs (b : UInt8) (s : Progress) : Bool :=
  match s.rest with
  | ⟨.byte c, _⟩ :: _ => c == b
  | _ => false

/-- Takes the next token if it is a given byte. -/
def eat? (b : UInt8) (s : Progress) : Option Progress :=
  if s.nextIs b then some { s with rest := s.rest.tail } else none

/-- Fails at the next token. -/
def expect {α : Type} (what : Expected) (s : Progress) : Except ReadFailure α :=
  .error ⟨.expected what, s.position⟩

/-- Takes a given byte; the answer holds the offset behind it. -/
def eat (b : UInt8) (what : Expected) (s : Progress) : Except ReadFailure (Nat × Progress) :=
  match s.eat? b with
  | some next => .ok (s.position + 1, next)
  | none => s.expect what

/-- Makes sure that a node with a given text fits. -/
def ensureRoom (capacity : Nat) (text : Bytes) (position : Nat) (s : Progress) :
    Except ReadFailure Unit :=
  if s.arena.isFull capacity then .error ⟨.tooManyNodes, position⟩
  else if text.length ≤ nameLimit then .ok ()
  else .error ⟨.textTooLong, position⟩

/-- Goes on with the arena and the node that a growing operation left. -/
def keep (position : Nat) (s : Progress) :
    Arena × Except Fault Nat → Except ReadFailure (Nat × Progress)
  | (arena, .ok id) => .ok (id, { s with arena := arena })
  | (_, .error fault) => .error ⟨.refused fault, position⟩

/-- Stores an atomic type that was read at a position. -/
def storeAtomic (capacity : Nat) (kind : AtomicKind) (text : Bytes) (position : Nat)
    (s : Progress) : Except ReadFailure (Nat × Progress) :=
  s.keep position (s.arena.addAtomic capacity kind text)

/-- Stores a parent whose last token ended at a position, if it fits. -/
def storeParent (capacity : Nat) (kind : NodeKind) (children : List Nat) (position : Nat)
    (s : Progress) : Except ReadFailure (Nat × Progress) := do
  s.ensureRoom capacity [] position
  s.keep position (s.arena.addParent capacity kind children)

end Progress

/-! ## Names -/

/-- The names that mean a type of their own; any other name is passed on. -/
def keywords : List (Bytes × AtomicKind) :=
  [(ascii "string", .string),
   (ascii "number", .number),
   (ascii "bool", .bool),
   (ascii "boolean", .bool),
   (ascii "func", .func),
   (ascii "object", .object),
   (ascii "element", .element),
   (ascii "elementType", .elementType)]

/-- The sort of atomic type that a name means. -/
def keywordKind (name : Bytes) : AtomicKind :=
  (keywords.lookup name).getD .other

/-- The name that takes an element type. -/
def arrayName : Bytes := ascii "Array"

/-- Stores the type that a name means; a keyword leaves no text. -/
def storeName (capacity : Nat) (name : Bytes) (position : Nat) : Reader Nat := fun s => do
  s.ensureRoom capacity name position
  let kind := keywordKind name
  s.storeAtomic capacity kind (if kind = .other then name else []) position

/-- The name of a field: a name, or any quoted text. -/
def readFieldName : Reader Bytes := fun s =>
  match s.rest with
  | ⟨.name text, _⟩ :: rest => .ok (text, { s with rest := rest })
  | ⟨.quoted text, _⟩ :: rest => .ok (text, { s with rest := rest })
  | ⟨.quotedNul offset, _⟩ :: _ => .error ⟨.nulInLiteral, offset⟩
  | ⟨.unclosed, start⟩ :: _ => .error ⟨.unterminatedLiteral, start⟩
  | _ => s.expect .fieldName

/-! ## Objects and arrays -/

/-- One field. Room for it is asked for when its type has been read, at the
    place of its name. -/
def readField (capacity : Nat) (readType : Reader Nat) : Reader Nat := fun s => do
  let position := s.position
  let (name, s) ← readFieldName s
  let optional := s.nextIs Byte.questionMark
  let s := (s.eat? Byte.questionMark).getD s
  let (_, s) ← s.eat Byte.colon .colon
  let (type, s) ← readType s
  s.ensureRoom capacity name position
  s.keep position (s.arena.addField capacity name type optional)

/-- One or more fields; a comma may stand in front of the closing brace. -/
def readFields (capacity : Nat) (readType : Reader Nat) : Nat → Reader (List Nat)
  | 0, s => s.expect .fieldName
  | rounds + 1, s => do
    let (field, s) ← readField capacity readType s
    match s.eat? Byte.comma with
    | none => .ok ([field], s)
    | some s =>
      if s.nextIs Byte.closeBrace then
        .ok ([field], s)
      else
        let (fields, s) ← readFields capacity readType rounds s
        .ok (field :: fields, s)

/-- An object behind its opening brace. -/
def readObject (capacity : Nat) (readType : Reader Nat) : Reader Nat := fun s => do
  let (fields, s) ← readFields capacity readType s.rest.length s
  let (stop, s) ← s.eat Byte.closeBrace .commaOrBrace
  s.storeParent capacity .object fields stop

/-- An array behind its opening angle bracket. -/
def readArray (capacity : Nat) (readType : Reader Nat) : Reader Nat := fun s => do
  let (element, s) ← readType s
  let (stop, s) ← s.eat Byte.closeAngle .closeAngle
  s.storeParent capacity .array [element] stop

/-! ## Unions -/

/-- One case of a union. -/
def readCase (capacity : Nat) (readType : Reader Nat) : Reader Nat := fun s =>
  match s.rest with
  | ⟨.byte b, _⟩ :: rest =>
    if b = Byte.openBrace then
      readObject capacity readType { s with rest := rest }
    else
      s.expect .type
  | ⟨.quoted text, start⟩ :: rest => do
    s.ensureRoom capacity text start
    { s with rest := rest }.storeAtomic capacity .stringLiteral text start
  | ⟨.quotedNul offset, _⟩ :: _ => .error ⟨.nulInLiteral, offset⟩
  | ⟨.unclosed, start⟩ :: _ => .error ⟨.unterminatedLiteral, start⟩
  | ⟨.name text, start⟩ :: rest =>
    let s := { s with rest := rest }
    match if text = arrayName then s.eat? Byte.openAngle else none with
    | some s => readArray capacity readType s
    | none => storeName capacity text start s
  | [] => s.expect .type

/-- The cases with a new one behind them, unless an equal one is there. -/
def insertCase (arena : Arena) (cases : List Nat) (new : Nat) : List Nat :=
  if cases.any fun old => arena.sameTree old arena new then cases else cases ++ [new]

/-- The distinct cases of a union, behind those that were read before. -/
def readCases (capacity : Nat) (readType : Reader Nat) : Nat → List Nat → Reader (List Nat)
  | 0, _, s => s.expect .type
  | rounds + 1, cases, s => do
    let (new, s) ← readCase capacity readType s
    let cases := insertCase s.arena cases new
    match s.eat? Byte.bar with
    | none => .ok (cases, s)
    | some s => readCases capacity readType rounds cases s

/-- A union, or its only case. -/
def readUnion (capacity : Nat) (readType : Reader Nat) : Reader Nat := fun s => do
  let (cases, s) ← readCases capacity readType s.rest.length [] s
  match cases with
  | [only] => .ok (only, s)
  | _ => s.storeParent capacity .union cases s.position

/-! ## Types and whole texts -/

/-- A type, when so many more types may be open at once. -/
def readType (capacity : Nat) : Nat → Reader Nat
  | 0, s => .error ⟨.nestedTooDeeply, s.position⟩
  | levels + 1, s => readUnion capacity (readType capacity levels) s

/-- Reads a whole text. As many types may be open as there may be nodes. -/
def read (capacity : Nat) (text : Bytes) : Except ReadFailure StoredTree := do
  let (root, s) ← readType capacity capacity ⟨.empty, tokens text, text.length⟩
  if s.rest.isEmpty then
    .ok ⟨s.arena, some root⟩
  else
    s.expect .endOfInput

end TypeSig.Signature
