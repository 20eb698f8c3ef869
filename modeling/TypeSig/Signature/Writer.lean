/-
  TypeSig.Signature.Writer

  Writing a tree as signature text, in the one form that the reader turns back
  into the same tree: keywords and names as they are, `bool` for both spellings,
  a blank behind each colon and comma and on both sides of each bar, no comma
  behind the last field. Literals, and field names that are no names of the
  language, stand in double quotes, or in single quotes if they hold a double
  one. A union inside a union would need brackets, which the language does not
  have; its cases are written in line.
-/

import TypeSig.Tree.Basic
import TypeSig.Text.Bounded

namespace TypeSig.Signature

/-- The keyword for a sort of atomic type. -/
def keyword : AtomicKind → Bytes
  | .string => ascii "string"
  | .number => ascii "number"
  | .bool => ascii "bool"
  | .func => ascii "func"
  | .object => ascii "object"
  | .element => ascii "element"
  | .elementType => ascii "elementType"
  | .stringLiteral | .other => []

/-- The quote that a text is put in: the double one unless the text holds it. -/
def quoteFor (text : Bytes) : UInt8 :=
  if Byte.doubleQuote ∈ text then Byte.singleQuote else Byte.doubleQuote

/-- A text in quotes. -/
def quotedPieces (text : Bytes) : List Piece :=
  [.ok [quoteFor text], .ok text, .ok [quoteFor text]]

/-- An atomic type. -/
def atomicPieces (type : Atomic) : List Piece :=
  match type.kind with
  | .other => [.ok type.text]
  | .stringLiteral => quotedPieces type.text
  | kind => [.ok (keyword kind)]

/-- The name of a field with what stands between it and its type. -/
def fieldPieces (name : Bytes) (optional : Bool) : List Piece :=
  (if isName name then [.ok name] else quotedPieces name) ++
    (if optional then [.ok [Byte.questionMark]] else []) ++
    [.ok (ascii ": ")]

/-- The pieces of a node of which only the first child counts. -/
def headPieces : List (List Piece) → List Piece
  | [] => [.error .missingRoot]
  | pieces :: _ => pieces

mutual

/-- The pieces of a tree in the order in which they are written. -/
def pieces : TypeTree → List Piece
  | .node (.atomic type) _ => atomicPieces type
  | .node .array children =>
    .ok (ascii "Array<") :: headPieces (piecesEach children) ++ [.ok [Byte.closeAngle]]
  | .node .union children => joinPieces (ascii " | ") (piecesEach children)
  | .node .object children =>
    .ok [Byte.openBrace] :: joinPieces (ascii ", ") (piecesEach children) ++
      [.ok [Byte.closeBrace]]
  | .node (.field name optional) children =>
    fieldPieces name optional ++ headPieces (piecesEach children)

/-- The pieces of each of several trees. -/
def piecesEach : List TypeTree → List (List Piece)
  | [] => []
  | tree :: rest => pieces tree :: piecesEach rest

end

theorem piecesEach_eq_map (trees : List TypeTree) : piecesEach trees = trees.map pieces := by
  induction trees with
  | nil => rfl
  | cons tree rest ih => simp [piecesEach, ih]

/-- The signature text of a tree. -/
def write (tree : TypeTree) : Except Fault Text :=
  BoundedText.render (pieces tree)

end TypeSig.Signature
