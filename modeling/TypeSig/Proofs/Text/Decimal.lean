/-
  TypeSig.Proofs.Text.Decimal

  Numbers in decimal. A number is short: so many digits suffice for every number below
  that power of ten. Its notation is the only canonical one: digits, at least one, no
  zero in front of others, and reading them gives the number back (`isDecimal_iff`).

  Induction goes digit by digit, from the number that stands in front of the last one
  (`decimal_induction`).
-/

import TypeSig.Byte.Decimal
import Mathlib.Algebra.Group.Nat.Defs
import Mathlib.Data.List.Basic
import Mathlib.Data.List.Induction

namespace TypeSig

theorem length_decimal_le_iff {n k : Nat} (hk : 0 < k) : (decimal n).length ≤ k ↔ n < 10 ^ k := by
  rw [decimal, List.length_map]
  exact Nat.length_toDigits_le_iff (by decide) hk

theorem length_decimal_le {n k : Nat} (hk : 0 < k) (h : n < 10 ^ k) : (decimal n).length ≤ k :=
  (length_decimal_le_iff hk).2 h

/-! ## Digits -/

theorem Byte.isDigit_iff {b : UInt8} : Byte.isDigit b = true ↔ 48 ≤ b.toNat ∧ b.toNat ≤ 57 := by
  simp [Byte.isDigit, UInt8.le_iff_toNat_le]

/-- The byte of a digit. -/
def digitByte (d : Nat) : UInt8 := UInt8.ofNat (48 + d)

theorem toNat_digitByte {d : Nat} (h : d < 10) : (digitByte d).toNat = 48 + d := by
  rw [digitByte, UInt8.toNat_ofNat']
  omega

theorem isDigit_digitByte {d : Nat} (h : d < 10) : Byte.isDigit (digitByte d) = true := by
  rw [Byte.isDigit_iff, toNat_digitByte h]
  omega

theorem digitByte_sub {b : UInt8} (h : Byte.isDigit b = true) : digitByte (b.toNat - 48) = b := by
  obtain ⟨hlow, hhigh⟩ := Byte.isDigit_iff.1 h
  rw [← UInt8.toNat_inj, toNat_digitByte (by omega)]
  omega

/-! ## Digit by digit -/

theorem decimal_digit {d : Nat} (h : d < 10) : decimal d = [digitByte d] := by
  rw [decimal_of_lt h, Nat.toNat_digitChar_of_lt_ten h, digitByte]

/-- A digit behind a number that is not zero. -/
theorem decimal_concat {n d : Nat} (hn : 0 < n) (hd : d < 10) :
    decimal (10 * n + d) = decimal n ++ [digitByte d] := by
  rw [decimal_eq (by omega), show (10 * n + d) / 10 = n by omega,
    show (10 * n + d) % 10 = d by omega, decimal_digit hd]

theorem decimal_induction {motive : Nat → Prop} (digit : ∀ d < 10, motive d)
    (more : ∀ n d, 0 < n → d < 10 → motive n → motive (10 * n + d)) (n : Nat) : motive n := by
  induction n using Nat.strongRecOn with
  | ind n ih =>
    rcases Nat.lt_or_ge n 10 with hsmall | hlarge
    · exact digit n hsmall
    · have hstep := more (n / 10) (n % 10) (by omega) (by omega) (ih (n / 10) (by omega))
      rwa [Nat.div_add_mod] at hstep

/-- The bytes of a number in decimal are digits. -/
theorem isDigit_of_mem_decimal {n : Nat} {b : UInt8} (h : b ∈ decimal n) :
    Byte.isDigit b = true := by
  induction n using decimal_induction with
  | digit d hd =>
    rw [decimal_digit hd, List.mem_singleton] at h
    rw [h, isDigit_digitByte hd]
  | more n d hn hd ih =>
    rw [decimal_concat hn hd, List.mem_append, List.mem_singleton] at h
    rcases h with hfront | rfl
    · exact ih hfront
    · exact isDigit_digitByte hd

theorem nul_notMem_decimal (n : Nat) : Byte.nul ∉ decimal n := by
  intro h
  exact absurd (isDigit_of_mem_decimal h) (by decide)

theorem head?_decimal_ne {n : Nat} (h : 0 < n) : (decimal n).head? ≠ some 0x30 := by
  induction n using decimal_induction with
  | digit d hd =>
    rw [decimal_digit hd, List.head?_cons]
    intro hzero
    have hvalue : 48 + d = 48 := by
      rw [← toNat_digitByte hd, Option.some.inj hzero]
      rfl
    omega
  | more n d hn hd ih =>
    rw [decimal_concat hn hd, List.head?_append_of_ne_nil _ (decimal_ne_nil n)]
    exact ih hn

/-! ## Reading digits -/

/-- The number that a row of digits stands for. -/
def decimalValue (text : Bytes) : Nat :=
  text.foldl (fun value b => 10 * value + (b.toNat - 0x30)) 0

@[simp] theorem decimalValue_nil : decimalValue [] = 0 := rfl

@[simp] theorem decimalValue_concat (text : Bytes) (b : UInt8) :
    decimalValue (text ++ [b]) = 10 * decimalValue text + (b.toNat - 0x30) := by
  simp [decimalValue]

theorem decimalValue_singleton (b : UInt8) : decimalValue [b] = b.toNat - 0x30 := by
  simpa using decimalValue_concat [] b

theorem decimalValue_decimal (n : Nat) : decimalValue (decimal n) = n := by
  induction n using decimal_induction with
  | digit d hd =>
    rw [decimal_digit hd, decimalValue_singleton, toNat_digitByte hd]
    omega
  | more n d hn hd ih =>
    rw [decimal_concat hn hd, decimalValue_concat, ih, toNat_digitByte hd]
    omega

/-- A number can be told from its digits. -/
theorem decimal_injective {m n : Nat} (h : decimal m = decimal n) : m = n := by
  rw [← decimalValue_decimal m, h, decimalValue_decimal]

/-! ## Canonical notations -/

/-- A canonical decimal notation of a number. -/
structure IsDecimal (text : Bytes) (n : Nat) : Prop where
  ne_nil : text ≠ []
  digits : ∀ b ∈ text, Byte.isDigit b = true
  no_leading_zero : 1 < text.length → text.head? ≠ some 0x30
  value : decimalValue text = n

theorem isDecimal_decimal (n : Nat) : IsDecimal (decimal n) n where
  ne_nil := decimal_ne_nil n
  digits := fun _ => isDigit_of_mem_decimal
  no_leading_zero := by
    intro hlong
    refine head?_decimal_ne (Nat.pos_of_ne_zero ?_)
    rintro rfl
    exact absurd hlong (by decide)
  value := decimalValue_decimal n

theorem eq_decimal_decimalValue {text : Bytes} (hne : text ≠ [])
    (hdigits : ∀ b ∈ text, Byte.isDigit b = true)
    (hzero : 1 < text.length → text.head? ≠ some 0x30) : text = decimal (decimalValue text) := by
  induction text using List.reverseRecOn with
  | nil => exact absurd rfl hne
  | append_singleton front b ih =>
    obtain ⟨hfront, hb⟩ : (∀ c ∈ front, Byte.isDigit c = true) ∧ Byte.isDigit b = true := by
      simpa [or_imp, forall_and] using hdigits
    have hsmall : b.toNat - 48 < 10 := by
      have := Byte.isDigit_iff.1 hb
      omega
    by_cases hnil : front = []
    · rw [hnil, List.nil_append, decimalValue_singleton, decimal_digit hsmall, digitByte_sub hb]
    · have hlong : 1 < (front ++ [b]).length := by
        have := List.length_pos_iff.2 hnil
        simp only [List.length_append, List.length_singleton]
        omega
      have hhead : front.head? ≠ some 0x30 := by
        rw [← List.head?_append_of_ne_nil front hnil]
        exact hzero hlong
      have hdecimal := ih hnil hfront fun _ => hhead
      -- digits that stand for zero would be a single zero
      have hpos : 0 < decimalValue front := by
        refine Nat.pos_of_ne_zero fun hvalue => hhead ?_
        rw [hdecimal, hvalue]
        rfl
      rw [decimalValue_concat, decimal_concat hpos hsmall, digitByte_sub hb, ← hdecimal]

/-- A number has one canonical notation, the one that is written. -/
theorem isDecimal_iff {text : Bytes} {n : Nat} : IsDecimal text n ↔ text = decimal n := by
  constructor
  · rintro ⟨hne, hdigits, hzero, rfl⟩
    exact eq_decimal_decimalValue hne hdigits hzero
  · rintro rfl
    exact isDecimal_decimal n

end TypeSig
