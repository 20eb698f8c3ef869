/-
  TypeSig.Byte.Decimal

  Numbers in decimal, as they stand in messages, in numbered names and in the
  arity of a rendered union. `decimal_eq` takes the last digit off the end,
  which is the equation that proofs about numbered names use.
-/

import TypeSig.Byte.Class

namespace TypeSig

/-- The decimal digits of a number: no sign, no leading zero, `0` for zero. -/
def decimal (n : Nat) : Bytes :=
  (Nat.toDigits 10 n).map fun c => UInt8.ofNat c.toNat

theorem decimal_ne_nil (n : Nat) : decimal n ≠ [] := by
  simp [decimal]

theorem decimal_of_lt {n : Nat} (h : n < 10) :
    decimal n = [UInt8.ofNat (n.digitChar).toNat] := by
  simp [decimal, Nat.toDigits_of_lt_base h]

/-- The last digit stands at the end, behind the digits of the tenth part. -/
theorem decimal_eq {n : Nat} (h : 10 ≤ n) :
    decimal n = decimal (n / 10) ++ decimal (n % 10) := by
  rw [decimal_of_lt (Nat.mod_lt n (by decide))]
  simp [decimal, Nat.toDigits_of_base_le (by decide) h]

end TypeSig
