/-
  TypeSig.Text.Clipped

  A text of at most `limit` bytes that drops what does not fit. Error messages
  are written this way: a message that is too long is cut, never refused.

  `bytes_append_eq_take` says what an append leaves: the first `limit` bytes of
  the text and the piece in a row. Hence appends in a row are one append
  (`append_append`).
-/

import TypeSig.Byte.Decimal

namespace TypeSig

/-- A text that is cut at `limit` bytes. -/
structure ClippedText (limit : Nat) where
  bytes : Bytes
  length_le : bytes.length ≤ limit
  deriving DecidableEq

namespace ClippedText

variable {limit : Nat}

@[ext] theorem ext {s t : ClippedText limit} (h : s.bytes = t.bytes) : s = t := by
  cases s; cases t; cases h; rfl

/-- The empty text. -/
def empty : ClippedText limit := ⟨[], Nat.zero_le _⟩

/-- Puts as much of a piece at the end as there is room for. -/
def append (t : ClippedText limit) (piece : Bytes) : ClippedText limit where
  bytes := t.bytes ++ piece.take (limit - t.bytes.length)
  length_le := by
    have := t.length_le
    simp only [List.length_append, List.length_take]
    omega

/-- Puts a number in decimal at the end. -/
def appendDecimal (t : ClippedText limit) (n : Nat) : ClippedText limit :=
  t.append (decimal n)

@[simp] theorem bytes_empty : (empty : ClippedText limit).bytes = [] := rfl

theorem bytes_append (t : ClippedText limit) (piece : Bytes) :
    (t.append piece).bytes = t.bytes ++ piece.take (limit - t.bytes.length) := rfl

/-- What an append leaves is the start of the unclipped text. -/
theorem bytes_append_eq_take (t : ClippedText limit) (piece : Bytes) :
    (t.append piece).bytes = (t.bytes ++ piece).take limit := by
  rw [bytes_append, List.take_append, List.take_of_length_le t.length_le]

theorem append_nil (t : ClippedText limit) : t.append [] = t := by
  ext1
  rw [bytes_append, List.take_nil, List.append_nil]

/-- What was cut off does not come back, and what follows is cut off with it. -/
theorem append_append (t : ClippedText limit) (piece more : Bytes) :
    (t.append piece).append more = t.append (piece ++ more) := by
  ext1
  rw [bytes_append_eq_take, bytes_append_eq_take, bytes_append_eq_take, ← List.append_assoc]
  generalize t.bytes ++ piece = front
  rw [List.take_append, List.take_append, List.take_take, Nat.min_self, List.length_take]
  congr 2
  omega

end ClippedText

end TypeSig
