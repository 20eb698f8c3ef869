/-
  TypeSig.Byte.Class

  Texts are byte strings. Nothing here knows an encoding: lengths and offsets
  count bytes, the character classes and the case map are those of ASCII, and a
  byte from 0x80 up belongs to no class.

  A name of the signature language starts with a letter, `_` or `$` and goes on
  with these or digits. A word of the target language has letters, digits and
  `_` only; every other byte separates words.
-/

namespace TypeSig

/-- A text as its bytes. -/
abbrev Bytes := List UInt8

/-- The bytes of a string of ASCII characters. -/
def ascii (s : String) : Bytes :=
  s.toList.map fun c => UInt8.ofNat c.toNat

namespace Byte

/-! ## Punctuation -/

def nul : UInt8 := 0x00
def doubleQuote : UInt8 := 0x22
def singleQuote : UInt8 := 0x27
def backslash : UInt8 := 0x5c
def openBrace : UInt8 := 0x7b
def closeBrace : UInt8 := 0x7d
def openAngle : UInt8 := 0x3c
def closeAngle : UInt8 := 0x3e
def comma : UInt8 := 0x2c
def colon : UInt8 := 0x3a
def questionMark : UInt8 := 0x3f
def bar : UInt8 := 0x7c
def underscore : UInt8 := 0x5f
def dollar : UInt8 := 0x24

/-! ## Classes -/

/-- Blank, tab, line feed, vertical tab, form feed or carriage return. -/
def isSpace (b : UInt8) : Bool :=
  b == 0x20 || (0x09 ≤ b && b ≤ 0x0d)

/-- A lower-case letter. -/
def isLower (b : UInt8) : Bool :=
  0x61 ≤ b && b ≤ 0x7a

/-- A letter of either case. -/
def isLetter (b : UInt8) : Bool :=
  isLower b || (0x41 ≤ b && b ≤ 0x5a)

/-- A decimal digit. -/
def isDigit (b : UInt8) : Bool :=
  0x30 ≤ b && b ≤ 0x39

/-- A byte that may start a name. -/
def isNameStart (b : UInt8) : Bool :=
  isLetter b || b == underscore || b == dollar

/-- A byte that may continue a name. -/
def isNameByte (b : UInt8) : Bool :=
  isNameStart b || isDigit b

/-- A byte of a word of the target language. -/
def isWordByte (b : UInt8) : Bool :=
  isLetter b || isDigit b || b == underscore

/-- One of the two quotes. -/
def isQuote (b : UInt8) : Bool :=
  b == doubleQuote || b == singleQuote

/-- The upper-case letter of a lower-case one, and any other byte itself. -/
def toUpper (b : UInt8) : UInt8 :=
  if isLower b then b - 0x20 else b

/-! ## The classes are disjoint where the language needs it -/

theorem isNameByte_of_isNameStart {b : UInt8} (h : isNameStart b = true) :
    isNameByte b = true := by
  simp [isNameByte, h]

end Byte

/-- A name of the signature language. -/
def isName : Bytes → Bool
  | [] => false
  | b :: rest => Byte.isNameStart b && rest.all Byte.isNameByte

@[simp] theorem isName_nil : isName [] = false := rfl

@[simp] theorem isName_cons (b : UInt8) (rest : Bytes) :
    isName (b :: rest) = (Byte.isNameStart b && rest.all Byte.isNameByte) := rfl

end TypeSig
