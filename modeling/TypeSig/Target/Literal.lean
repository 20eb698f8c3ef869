/-
  TypeSig.Target.Literal

  Literals of the target language: a text in double quotes, and the object that
  pairs each source name, as such a text, with the name of the value for it.
-/

import TypeSig.Target.FieldNames

namespace TypeSig.Target

/-! ## Text literals -/

/-- A byte as it stands inside a text literal. -/
def escaped (b : UInt8) : Bytes :=
  if b = Byte.doubleQuote ∨ b = Byte.backslash then [Byte.backslash, b] else [b]

/-- The literal for a text. -/
def quotedCode (text : Bytes) : Except Fault Text :=
  BoundedText.render
    (.ok [Byte.doubleQuote] :: text.map (fun b => .ok (escaped b)) ++
      [.ok [Byte.doubleQuote]])

/-! ## Object literals -/

/-- A source name paired with the name of its value. -/
def entryPieces (source : Bytes) (name : Identifier) : List Piece :=
  [(quotedCode source).map BoundedText.bytes, .ok (ascii " ==> "), .ok name.bytes]

/-- The object with the given source names; the names of the values are those of
    the fields. -/
def objectLiteral (capacity : Nat) (sources : List Bytes) : Except Fault Text := do
  let names ← fieldNames capacity sources
  BoundedText.render
    (.ok (ascii "createObj [ ") ::
      joinPieces (ascii "; ") (List.zipWith entryPieces sources names) ++
      [.ok (ascii " ]")])

end TypeSig.Target
