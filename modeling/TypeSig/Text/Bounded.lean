/-
  TypeSig.Text.Bounded

  A text of at most `limit` bytes that refuses what does not fit. All rendered
  code is written this way: an append either takes the whole piece or is a
  fault, and nothing is ever cut.

  Renderers are lists of pieces. A piece may itself be a fault, of a part that
  could not be rendered, and pieces are taken from left to right, so the first
  fault in reading order is the one reported.
-/

import TypeSig.Fault

namespace TypeSig

/-- A text that holds at most `limit` bytes. -/
structure BoundedText (limit : Nat) where
  bytes : Bytes
  length_le : bytes.length ≤ limit

/-- Rendered types and code fragments. -/
abbrev Text := BoundedText 511

/-- Names of the target language: the longest stored name and eight bytes for
    what adapting it may add. -/
abbrev Identifier := BoundedText 71

/-- The most bytes that a name or a literal has in a stored tree. -/
def nameLimit : Nat := 63

/-- Names and literals as a stored tree holds them. -/
abbrev Name := BoundedText nameLimit

/-- A part of a rendered text, or the fault that kept it from being rendered. -/
abbrev Piece := Except Fault Bytes

namespace BoundedText

variable {limit : Nat}

@[ext] theorem ext {s t : BoundedText limit} (h : s.bytes = t.bytes) : s = t := by
  cases s; cases t; cases h; rfl

instance : DecidableEq (BoundedText limit) := fun _ _ =>
  decidable_of_iff _ ⟨ext, congrArg bytes⟩

/-- The empty text. -/
def empty : BoundedText limit := ⟨[], Nat.zero_le _⟩

def size (t : BoundedText limit) : Nat := t.bytes.length

def isEmpty (t : BoundedText limit) : Bool := t.bytes.isEmpty

/-- Puts a piece at the end, or refuses it as a whole. -/
def append (t : BoundedText limit) (piece : Bytes) : Except Fault (BoundedText limit) :=
  if h : t.bytes.length + piece.length ≤ limit then
    .ok ⟨t.bytes ++ piece, by simpa using h⟩
  else
    .error (.textTooLong limit)

def push (t : BoundedText limit) (b : UInt8) : Except Fault (BoundedText limit) :=
  t.append [b]

/-- Puts a number in decimal at the end. -/
def appendDecimal (t : BoundedText limit) (n : Nat) : Except Fault (BoundedText limit) :=
  t.append (decimal n)

/-- The text with the given bytes, if they fit. -/
def ofBytes (bytes : Bytes) : Except Fault (BoundedText limit) :=
  empty.append bytes

/-- Puts pieces at the end, one after the other, up to the first fault. -/
def appendAll : List Piece → BoundedText limit → Except Fault (BoundedText limit)
  | [], t => .ok t
  | piece :: rest, t => do
    let bytes ← piece
    let t ← t.append bytes
    appendAll rest t

/-- The text of a list of pieces. -/
def render (pieces : List Piece) : Except Fault (BoundedText limit) :=
  appendAll pieces empty

/-- Two texts hold the same bytes, whatever their bounds. -/
def sameBytes {other : Nat} (s : BoundedText limit) (t : BoundedText other) : Bool :=
  s.bytes == t.bytes

@[simp] theorem bytes_empty : (empty : BoundedText limit).bytes = [] := rfl

theorem append_of_le {t : BoundedText limit} {piece : Bytes}
    (h : t.bytes.length + piece.length ≤ limit) :
    t.append piece = .ok ⟨t.bytes ++ piece, by simpa using h⟩ := by
  simp [append, h]

theorem append_of_lt {t : BoundedText limit} {piece : Bytes}
    (h : limit < t.bytes.length + piece.length) :
    t.append piece = .error (.textTooLong limit) := by
  simp [append, Nat.not_le.2 h]

@[simp] theorem appendAll_nil (t : BoundedText limit) : appendAll [] t = .ok t := rfl

end BoundedText

/-- The pieces of several items, with a separator between two items. -/
def joinPieces (separator : Bytes) (items : List (List Piece)) : List Piece :=
  List.intercalate [.ok separator] items

end TypeSig
