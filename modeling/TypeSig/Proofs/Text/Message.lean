/-
  TypeSig.Proofs.Text.Message

  What a message says. It is written as a whole, cut at its limit, and read up to its
  first NUL (`messageAt_eq`), so it names the whole detail of a failure where that is
  short and has no NUL (`messageAt_parse`).
-/

import TypeSig.Proofs.Text.Decimal
import TypeSig.Signature.Failure

namespace TypeSig

namespace Diagnostic

/-- A message as long as it is. -/
def wholeMessage (stage : Stage) (column : Nat) (detail : Bytes) : Bytes :=
  stage.name ++ ascii " error" ++
    (if stage = .parse then ascii " at column " ++ decimal column else []) ++ ascii ": " ++ detail

/-- A message is cut where it gets too long, and then ends at its first NUL. -/
theorem messageAt_eq (stage : Stage) (column : Nat) (detail : Bytes) :
    messageAt stage column detail =
      stored ((wholeMessage stage column detail).take messageLimit) := by
  have happends : ((heading stage column).append (ascii ": ")).append detail =
      ClippedText.empty.append (wholeMessage stage column detail) := by
    cases stage <;>
      simp [heading, ClippedText.appendDecimal, ClippedText.append_append, wholeMessage]
  rw [messageAt, happends, ClippedText.bytes_append_eq_take, ClippedText.bytes_empty,
    List.nil_append]

end Diagnostic

/-- The words before the column. -/
def columnHeading : Bytes := ascii "parse error at column "

/-- A message of the reading stage is whole for every column that has twenty digits
    at most. -/
theorem messageAt_parse {column : Nat} {detail : Bytes} (hcolumn : column < 10 ^ 20)
    (hdetail : detail.length ≤ 147) (hnul : Byte.nul ∉ detail) :
    Diagnostic.messageAt .parse column detail =
      columnHeading ++ decimal column ++ ascii ": " ++ detail := by
  have hwhole : Diagnostic.wholeMessage .parse column detail =
      columnHeading ++ decimal column ++ ascii ": " ++ detail := by
    rw [Diagnostic.wholeMessage, if_pos rfl, ← List.append_assoc]
    rfl
  have hlength : (columnHeading ++ decimal column ++ ascii ": " ++ detail).length ≤
      Diagnostic.messageLimit := by
    have hdigits := length_decimal_le (by decide) hcolumn
    have hheading : columnHeading.length = 22 := by decide
    have hcolon : (ascii ": ").length = 2 := by decide
    have hlimit : Diagnostic.messageLimit = 191 := rfl
    simp only [List.length_append]
    omega
  rw [Diagnostic.messageAt_eq, hwhole, List.take_of_length_le hlength, stored_of_nul_notMem]
  simp only [List.mem_append, not_or]
  exact ⟨⟨⟨by decide, nul_notMem_decimal column⟩, by decide⟩, hnul⟩

end TypeSig
