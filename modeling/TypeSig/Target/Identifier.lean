/-
  TypeSig.Target.Identifier

  Names of the target language made from names of the source language. The words
  of the source name, which are its runs of letters, digits and underscores, are
  put together; a later word begins with a capital, or has an underscore before
  its first digit. A name without a word is `empty`, a name that would begin
  with a digit gets an underscore in front, and a reserved word is put in double
  backticks.

  The source name is taken byte by byte, so a spelling that outgrows its bound
  is refused as soon as it does.
-/

import TypeSig.Text.Bounded

namespace TypeSig.Target

/-! ## Reserved words -/

/-- The words that F# keeps for itself, now or later. -/
def reservedWords : List Bytes :=
  ["abstract", "and", "as", "assert", "base", "begin", "class", "const", "default",
   "delegate", "do", "done", "downcast", "downto", "elif", "else", "end", "exception",
   "extern", "false", "finally", "fixed", "for", "fun", "function", "global", "if", "in",
   "inherit", "inline", "interface", "internal", "lazy", "let", "match", "member", "module",
   "mutable", "namespace", "new", "not", "null", "of", "open", "or", "override", "private",
   "public", "rec", "return", "select", "sig", "static", "struct", "then", "to", "true",
   "try", "type", "upcast", "use", "val", "void", "when", "while", "with", "yield"].map ascii

/-- The text is a reserved word. -/
def isReserved (text : Bytes) : Bool :=
  reservedWords.contains text

/-- What stands on both sides of a reserved word that is used as a name. -/
def escapeMark : Bytes := ascii "``"

/-- A spelling as a name that may be used: a reserved word is escaped. -/
def escapeReserved (spelling : Identifier) : Except Fault Identifier :=
  if isReserved spelling.bytes then do
    let opened ← BoundedText.ofBytes escapeMark
    let filled ← opened.append spelling.bytes
    filled.append escapeMark
  else
    .ok spelling

/-! ## Spelling -/

/-- A spelling under way, and whether a byte that is in no word came last. -/
structure Spelling where
  text : Identifier
  atBreak : Bool
  deriving DecidableEq

namespace Spelling

/-- The spelling of nothing. -/
def start : Spelling := ⟨.empty, false⟩

/-- Takes in one byte of the source name. -/
def step (s : Spelling) (b : UInt8) : Except Fault Spelling :=
  if Byte.isWordByte b then
    if s.atBreak && !s.text.isEmpty then do
      let text ← if Byte.isDigit b then s.text.push Byte.underscore else .ok s.text
      let text ← text.push (Byte.toUpper b)
      .ok ⟨text, false⟩
    else do
      let text ← s.text.push b
      .ok ⟨text, false⟩
  else
    .ok { s with atBreak := true }

/-- The spelling with what it needs at its start. -/
def finish (s : Spelling) : Except Fault Identifier :=
  match s.text.bytes with
  | [] => BoundedText.ofBytes (ascii "empty")
  | b :: _ =>
    if Byte.isDigit b then do
      let opened ← BoundedText.ofBytes [Byte.underscore]
      opened.append s.text.bytes
    else
      .ok s.text

end Spelling

/-- The spelling of a source name in the target language, which may still be a
    reserved word. -/
def spell (source : Bytes) : Except Fault Identifier := do
  let s ← source.foldlM Spelling.step Spelling.start
  s.finish

/-- The name in the target language for a name of the source language. -/
def adaptName (source : Bytes) : Except Fault Identifier := do
  let spelling ← spell source
  escapeReserved spelling

end TypeSig.Target
