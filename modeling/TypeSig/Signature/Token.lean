/-
  TypeSig.Signature.Token

  The tokens of a signature text. Blanks separate tokens and are dropped; a name
  takes in as many bytes as it can; a quoted text ends at the quote it began
  with, whatever other bytes it holds; any other byte is a token by itself.

  Two things can be wrong with a quoted text: a NUL in front of its closing
  quote, or no closing quote. Both are tokens, so that the reader decides
  whether it is the place where reading fails. Nothing behind such a token can
  be read, and `tokens` ends there.
-/

import TypeSig.Byte.Class

namespace TypeSig

/-- A token of the signature language. -/
inductive Token
  | name (text : Bytes)
  | quoted (text : Bytes)
  /-- A quoted text with a NUL inside, at an offset of the whole text. -/
  | quotedNul (offset : Nat)
  /-- A quoted text without its closing quote. -/
  | unclosed
  | byte (b : UInt8)
  deriving DecidableEq, Repr

/-- A token with the offset of its first byte. -/
structure Lexeme where
  token : Token
  start : Nat
  deriving DecidableEq, Repr

/-! ## Quoted texts -/

/-- How a quoted text goes on behind its opening quote. -/
inductive QuotedBody
  | closed (text : Bytes)
  | nul (before : Nat)
  | unclosed
  deriving DecidableEq, Repr

/-- The same body with one more byte in front. -/
def QuotedBody.cons (b : UInt8) : QuotedBody → QuotedBody
  | .closed text => .closed (b :: text)
  | .nul before => .nul (before + 1)
  | .unclosed => .unclosed

/-- Reads up to the closing quote. The first NUL in front of it is reported, and
    a NUL counts also where the closing quote is missing. -/
def quotedBody (quote : UInt8) : Bytes → QuotedBody
  | [] => .unclosed
  | b :: rest =>
    if b = quote then .closed []
    else if b = Byte.nul then .nul 0
    else (quotedBody quote rest).cons b

/-! ## The tokens of a text -/

/-- The tokens of a text that begins at an offset, behind `skip` bytes that the
    token in front has already taken. -/
def tokensFrom : Nat → Nat → Bytes → List Lexeme
  | _, _, [] => []
  | skip + 1, offset, _ :: rest => tokensFrom skip (offset + 1) rest
  | 0, offset, b :: rest =>
    if Byte.isSpace b then
      tokensFrom 0 (offset + 1) rest
    else if Byte.isNameStart b then
      let more := rest.takeWhile Byte.isNameByte
      ⟨.name (b :: more), offset⟩ ::
        tokensFrom more.length (offset + 1) rest
    else if Byte.isQuote b then
      match quotedBody b rest with
      | .closed text =>
        ⟨.quoted text, offset⟩ :: tokensFrom (text.length + 1) (offset + 1) rest
      | .nul before => [⟨.quotedNul (offset + before + 1), offset⟩]
      | .unclosed => [⟨.unclosed, offset⟩]
    else
      ⟨.byte b, offset⟩ :: tokensFrom 0 (offset + 1) rest

/-- The tokens of a whole text. -/
def tokens (text : Bytes) : List Lexeme :=
  tokensFrom 0 0 text

end TypeSig
