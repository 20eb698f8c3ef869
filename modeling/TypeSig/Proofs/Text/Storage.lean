/-
  TypeSig.Proofs.Text.Storage

  Texts in the cells that keep them. A storage has a fixed number of cells, of which
  the first ones are in use; a step says which cell it is about, and has no answer
  where that cell is not there.

  A truncating append takes cells in use while one is left for the closing NUL, and
  writes the NUL behind. A number is written twice: its digits come out last one first,
  so they are collected in a scratch storage and appended from there one by one,
  backwards.

  After such an append the cells hold what the clipped text is said to be, the NUL, and
  behind it what they held before (`appendClipped_closed`, `appendNumber_closed`).
-/

import TypeSig.Proofs.Text.Decimal
import TypeSig.Text.Clipped

namespace TypeSig

/-! ## Words of 64 bits in decimal -/

theorem toNat_div_ten (n : UInt64) : (n / 10).toNat = n.toNat / 10 := by
  rw [UInt64.toNat_div]
  rfl

theorem div_ten_pos_iff {n : UInt64} : 0 < n / 10 ↔ 10 ≤ n.toNat := by
  rw [UInt64.lt_iff_toNat_lt, toNat_div_ten, show (0 : UInt64).toNat = 0 from rfl]
  omega

/-- The last digit of a word. -/
theorem toUInt8_last_digit (n : UInt64) : (0x30 + n % 10).toUInt8 = digitByte (n.toNat % 10) := by
  rw [← UInt8.toNat_inj, toNat_digitByte (by omega), UInt64.toNat_toUInt8, UInt64.toNat_add,
    UInt64.toNat_mod, show (0x30 : UInt64).toNat = 48 from rfl,
    show (10 : UInt64).toNat = 10 from rfl]
  omega

/-- A word has twenty digits at most. -/
theorem length_decimal_toNat_le (n : UInt64) : (decimal n.toNat).length ≤ 20 :=
  length_decimal_le (by decide) (Nat.lt_trans n.toNat_lt (by decide))

/-! ## Storage -/

/-- Cells, and how many of them are in use. -/
structure Storage where
  cells : Bytes
  used : Nat

namespace Storage

/-- The bytes in use. -/
def text (s : Storage) : Bytes := s.cells.take s.used

/-- Cells that are all NUL, with none in use. -/
def blank (capacity : Nat) : Storage := ⟨List.replicate capacity Byte.nul, 0⟩

/-- Writes the first cell that is not in use. -/
def write (b : UInt8) (s : Storage) : Option Storage :=
  if s.used < s.cells.length then some { s with cells := s.cells.set s.used b } else none

/-- Writes a byte and takes its cell in use. -/
def push (b : UInt8) (s : Storage) : Option Storage := do
  let s ← s.write b
  some { s with used := s.used + 1 }

/-- Takes bytes in use as long as there is a cell for one more behind them. -/
def pushClipped : Bytes → Storage → Option Storage
  | [], s => some s
  | b :: rest, s =>
    -- the last cell is kept for the NUL
    if s.used < s.cells.length - 1 then do
      let s ← s.push b
      pushClipped rest s
    else
      some s

/-- Puts as much of a piece at the end as there is room for, and a NUL behind it. -/
def appendClipped (piece : Bytes) (s : Storage) : Option Storage := do
  let s ← s.pushClipped piece
  s.write Byte.nul

/-- Takes the digits of a number in use, the last digit first. -/
def pushDigits (n : UInt64) (s : Storage) : Option Storage := do
  let s ← s.push (0x30 + n % 10).toUInt8
  if h : 0 < n / 10 then pushDigits (n / 10) s else some s
termination_by n.toNat
decreasing_by
  rw [div_ten_pos_iff] at h
  rw [toNat_div_ten]
  omega

/-- Appends the first cells of a scratch storage one by one, the last of them first. -/
def appendReversed (scratch : Storage) : Nat → Storage → Option Storage
  | 0, s => some s
  | i + 1, s => do
    let b ← scratch.cells[i]?
    let s ← s.appendClipped [b]
    appendReversed scratch i s

/-- Puts a number in decimal at the end, as much of it as there is room for. -/
def appendNumber (n : UInt64) (s : Storage) : Option Storage := do
  let scratch ← (blank 24).pushDigits n
  appendReversed scratch scratch.used s

/-! ## Cells in use and cells behind -/

/-- The storage with a text in use and given cells behind it. -/
def split (text behind : Bytes) : Storage := ⟨text ++ behind, text.length⟩

@[simp] theorem text_split (text behind : Bytes) : (split text behind).text = text :=
  List.take_left

theorem blank_eq_split (capacity : Nat) :
    blank capacity = split [] (List.replicate capacity Byte.nul) := rfl

theorem write_split (text behind : Bytes) (b c : UInt8) :
    (split text (c :: behind)).write b = some (split text (b :: behind)) := by
  simp [write, split, List.set_append_right]

theorem push_split (text behind : Bytes) (b c : UInt8) :
    (split text (c :: behind)).push b = some (split (text ++ [b]) behind) := by
  rw [push, write_split]
  simp [split]

/-- All but one of the cells behind are there for a piece. -/
theorem pushClipped_split (piece text behind : Bytes) (c : UInt8) :
    (split text (c :: behind)).pushClipped piece =
      some (split (text ++ piece.take behind.length)
        ((c :: behind).drop (piece.take behind.length).length)) := by
  induction piece generalizing text behind c with
  | nil => simp [pushClipped]
  | cons b rest ih =>
    cases behind with
    | nil => simp [pushClipped, split]
    | cons d behind =>
      have hroom : (split text (c :: d :: behind)).used <
          (split text (c :: d :: behind)).cells.length - 1 := by
        simp [split]
      rw [pushClipped, if_pos hroom, push_split]
      simp only [Option.bind_eq_bind, Option.bind_some, ih]
      simp

theorem appendClipped_split (piece text behind : Bytes) (c : UInt8) :
    (split text (c :: behind)).appendClipped piece =
      some (split (text ++ piece.take behind.length)
        (Byte.nul :: behind.drop (piece.take behind.length).length)) := by
  have hroom : (piece.take behind.length).length < (c :: behind).length := by
    rw [List.length_cons, List.length_take]
    omega
  rw [appendClipped, pushClipped_split, List.drop_eq_getElem_cons hroom, List.drop_succ_cons]
  exact write_split _ _ _ _

/-- The digits of a number in the cells behind a text. -/
theorem pushDigits_split (text behind : Bytes) (n : UInt64)
    (hroom : (decimal n.toNat).length ≤ behind.length) :
    (split text behind).pushDigits n =
      some (split (text ++ (decimal n.toNat).reverse)
        (behind.drop (decimal n.toNat).length)) := by
  -- digit by digit of the number; the word for the digits in front is the quotient
  generalize hm : n.toNat = m at hroom
  induction m using decimal_induction generalizing n text behind with
  | digit d hd =>
    rw [decimal_digit hd] at hroom ⊢
    obtain ⟨c, behind, rfl⟩ := List.exists_cons_of_length_pos hroom
    have hlast : ¬ 0 < n / 10 := by
      rw [div_ten_pos_iff]
      omega
    rw [pushDigits, push_split, toUInt8_last_digit, hm, Nat.mod_eq_of_lt hd]
    simp [hlast]
  | more k d hk hd ih =>
    rw [decimal_concat hk hd, List.length_append, List.length_singleton] at hroom
    obtain ⟨c, behind, rfl⟩ := List.exists_cons_of_length_pos (Nat.lt_of_lt_of_le (by omega) hroom)
    have hmore : 0 < n / 10 := by
      rw [div_ten_pos_iff]
      omega
    rw [pushDigits, push_split, toUInt8_last_digit, hm, show (10 * k + d) % 10 = d by omega]
    simp only [Option.bind_eq_bind, Option.bind_some, hmore, dite_true]
    rw [ih _ behind (n / 10) (by rw [toNat_div_ten]; omega) (by simpa using hroom),
      decimal_concat hk hd]
    simp

/-! ## Clipped texts in storage -/

/-- The storage of a clipped text, with a NUL behind it and then what is left of the
    cells that were there at first. -/
def closed (behind : Bytes) (t : ClippedText behind.length) : Storage :=
  split t.bytes (Byte.nul :: behind.drop t.bytes.length)

variable {behind : Bytes}

theorem length_cells_closed (t : ClippedText behind.length) :
    (closed behind t).cells.length = behind.length + 1 := by
  have := t.length_le
  simp only [closed, split, List.length_append, List.length_cons, List.length_drop]
  omega

theorem appendClipped_closed (piece : Bytes) (t : ClippedText behind.length) :
    (closed behind t).appendClipped piece = some (closed behind (t.append piece)) := by
  rw [closed, appendClipped_split, List.length_drop, List.drop_drop, closed,
    ClippedText.bytes_append, List.length_append]

theorem appendReversed_closed (scratch : Storage) (i : Nat) (hi : i ≤ scratch.cells.length)
    (t : ClippedText behind.length) :
    scratch.appendReversed i (closed behind t) =
      some (closed behind (t.append (scratch.cells.take i).reverse)) := by
  induction i generalizing t with
  | zero => rw [appendReversed, List.take_zero, List.reverse_nil, ClippedText.append_nil]
  | succ i ih =>
    rw [appendReversed, List.getElem?_eq_getElem hi]
    simp only [Option.bind_eq_bind, Option.bind_some, appendClipped_closed]
    rw [ih (Nat.le_of_lt hi), ClippedText.append_append, List.take_succ_eq_append_getElem hi,
      List.reverse_append, List.reverse_singleton]

theorem appendNumber_closed (n : UInt64) (t : ClippedText behind.length) :
    (closed behind t).appendNumber n = some (closed behind (t.appendDecimal n.toNat)) := by
  have hroom : (decimal n.toNat).length ≤ (List.replicate 24 Byte.nul).length := by
    have := length_decimal_toNat_le n
    rw [List.length_replicate]
    omega
  rw [appendNumber, blank_eq_split, pushDigits_split _ _ _ hroom]
  show appendReversed (split _ _) (split _ _).used (closed behind t) = _
  -- backwards, the digits stand in the order in which a number is written
  rw [appendReversed_closed _ _ (by simp [split])]
  show some (closed behind (t.append (split _ _).text.reverse)) = _
  rw [text_split, List.nil_append, List.reverse_reverse, ClippedText.appendDecimal]

/-- Every number is whole in a scratch storage. -/
theorem exists_appendNumber_blank (n : UInt64) :
    ∃ s, (blank 24).appendNumber n = some s ∧ s.text = decimal n.toNat := by
  have hstore := appendNumber_closed n (.empty : ClippedText (List.replicate 23 Byte.nul).length)
  refine ⟨_, hstore, ?_⟩
  rw [closed, text_split, ClippedText.appendDecimal, ClippedText.bytes_append_eq_take,
    ClippedText.bytes_empty, List.nil_append, List.take_of_length_le]
  have := length_decimal_toNat_le n
  rw [List.length_replicate]
  omega

end Storage

end TypeSig
