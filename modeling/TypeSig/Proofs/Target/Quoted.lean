/-
  TypeSig.Proofs.Target.Quoted

  Text literals. A literal says where it ends and what its text is, whatever stands
  behind it: on the way to the closing quote a backslash is taken together with the byte
  behind it, so a quote or a backslash of the text is passed over with the backslash that
  was put in front of it. Hence a text can be told from its literal, and from any code
  that begins with it.

  There is a literal for a text exactly if there is room for the text, the backslashes
  that are put into it and the two quotes.

  Main statement: `quotedCode_selfDelimiting`.
-/

import TypeSig.Proofs.Target.Decode

namespace TypeSig.Target

/-! ## Reading a literal -/

/-- The number of bytes from the opening quote of a literal on, which was read, to the
    closing one. A backslash is taken together with the byte behind it; `held` tells that
    one was read. -/
def bytesToQuote (held : Bool) : Bytes → Option Nat
  | [] => none
  | b :: rest =>
    if held then
      (bytesToQuote false rest).map (· + 1)
    else if b = Byte.doubleQuote then
      some 0
    else
      (bytesToQuote (b = Byte.backslash) rest).map (· + 1)

/-- The place of the closing quote of the literal that a text begins with. -/
def closingQuote (text : Bytes) : Option Nat := do
  let text ← text.dropPrefix? [Byte.doubleQuote]
  (bytesToQuote false text).map (· + 1)

/-- The text of the literal that a text begins with, with escapes undone, and what comes
    behind the literal. -/
def readLiteral (text : Bytes) : Option (Bytes × Bytes) := do
  let text ← text.dropPrefix? [Byte.doubleQuote]
  readQuoted false text

/-! ## Literals -/

/-- An escaped byte is passed over. -/
theorem bytesToQuote_escaped_append (b : UInt8) (rest : Bytes) :
    bytesToQuote false (escaped b ++ rest) =
      (bytesToQuote false rest).map (· + (escaped b).length) := by
  have hmark : Byte.backslash ≠ Byte.doubleQuote := by decide
  by_cases hspecial : b = Byte.doubleQuote ∨ b = Byte.backslash
  · -- the backslash in front takes the byte along, whatever it is
    rw [escaped, if_pos hspecial]
    simp [bytesToQuote, hmark, Function.comp_def]
  · obtain ⟨hquote, hback⟩ := not_or.1 hspecial
    rw [escaped, if_neg hspecial]
    simp [bytesToQuote, hquote, hback]

/-- An escaped text is passed over up to the quote behind it. -/
theorem bytesToQuote_flatMap_escaped (text after : Bytes) :
    bytesToQuote false (text.flatMap escaped ++ Byte.doubleQuote :: after) =
      some (text.flatMap escaped).length := by
  induction text with
  | nil => rfl
  | cons b rest ih =>
    rw [List.flatMap_cons, List.append_assoc, bytesToQuote_escaped_append, ih, Option.map_some,
      List.length_append, Nat.add_comm]

theorem quotedCode_append (text after : Bytes) :
    Unbounded.quotedCode text ++ after =
      [Byte.doubleQuote] ++ (text.flatMap escaped ++ Byte.doubleQuote :: after) := by
  simp [Unbounded.quotedCode]

/-- The closing quote is the last byte. -/
theorem closingQuote_quotedCode (text after : Bytes) :
    closingQuote (Unbounded.quotedCode text ++ after) =
      some ((Unbounded.quotedCode text).length - 1) := by
  rw [quotedCode_append, closingQuote, dropPrefix?_append]
  simp [bytesToQuote_flatMap_escaped, Unbounded.quotedCode]

theorem readLiteral_quotedCode (text after : Bytes) :
    readLiteral (Unbounded.quotedCode text ++ after) = some (text, after) := by
  rw [quotedCode_append, readLiteral, dropPrefix?_append]
  exact readQuoted_escaped text after

/-! ## Room -/

/-- Each quote and each backslash takes one byte more. -/
theorem length_flatMap_escaped_eq (text : Bytes) :
    (text.flatMap escaped).length =
      text.length + (text.count Byte.doubleQuote + text.count Byte.backslash) := by
  have hmark : Byte.backslash ≠ Byte.doubleQuote := by decide
  induction text with
  | nil => rfl
  | cons b rest ih =>
    rw [List.flatMap_cons, List.length_append, ih, List.length_cons, List.count_cons,
      List.count_cons, escaped]
    by_cases hquote : b = Byte.doubleQuote
    · simp [hquote, hmark.symm]
      omega
    · by_cases hback : b = Byte.backslash
      · simp [hback, hmark]
        omega
      · simp [hquote, hback]
        omega

theorem length_quotedCode (text : Bytes) :
    (Unbounded.quotedCode text).length =
      text.length + (text.count Byte.doubleQuote + text.count Byte.backslash) + 2 := by
  simp only [Unbounded.quotedCode, List.length_append, List.length_singleton,
    length_flatMap_escaped_eq]
  omega

/-- A text has no literal only if this would be too long. -/
theorem quotedCode_eq_error {text : Bytes} {fault : Fault} (h : quotedCode text = .error fault) :
    fault = .textTooLong 511 ∧ 511 < (Unbounded.quotedCode text).length := by
  rcases BoundedText.render_eq_error h with hpiece | ⟨hfault, hlong⟩
  · simp at hpiece
  · rw [wording_quotedPieces] at hlong
    exact ⟨hfault, hlong⟩

/-- A text has a literal exactly if the bytes of the text, one more for each quote and each
    backslash in it and the two quotes around it are no more than 511. The closing quote of
    the literal is its last byte, and reading it gives the text back. This does not depend
    on what stands behind the literal, so the text can be told from any code that begins
    with its literal. -/
theorem quotedCode_selfDelimiting (text : Bytes) :
    (511 < text.length + (text.count Byte.doubleQuote + text.count Byte.backslash) + 2 →
      quotedCode text = .error (.textTooLong 511) ∧
        (Fault.textTooLong 511).kind = .capacityExceeded) ∧
    (text.length + (text.count Byte.doubleQuote + text.count Byte.backslash) + 2 ≤ 511 →
      ∃ code, quotedCode text = .ok code ∧
        (∀ after, closingQuote (code.bytes ++ after) = some (code.bytes.length - 1) ∧
          readLiteral (code.bytes ++ after) = some (text, after)) ∧
        ∀ (other : Bytes) (code' : Text) (after after' : Bytes),
          quotedCode other = .ok code' → code.bytes ++ after = code'.bytes ++ after' →
            text = other ∧ after = after') := by
  rw [← length_quotedCode]
  cases hcode : quotedCode text with
  | error fault =>
    obtain ⟨rfl, hlong⟩ := quotedCode_eq_error hcode
    exact ⟨fun _ => ⟨rfl, rfl⟩, fun hfits => absurd hfits (Nat.not_le_of_lt hlong)⟩
  | ok code =>
    have hbytes := quotedCode_bytes hcode
    refine ⟨fun hlong => ?_, fun _ => ⟨code, rfl, fun after => ?_, ?_⟩⟩
    · rw [← hbytes] at hlong
      exact absurd code.length_le (Nat.not_le_of_lt hlong)
    · rw [hbytes]
      exact ⟨closingQuote_quotedCode text after, readLiteral_quotedCode text after⟩
    · intro other code' after after' hother hsame
      -- both readings of the same code give the text and what stands behind
      rw [hbytes, quotedCode_bytes hother] at hsame
      have hread := readLiteral_quotedCode text after
      rw [hsame, readLiteral_quotedCode, Option.some.injEq, Prod.mk.injEq] at hread
      exact ⟨hread.1.symm, hread.2.symm⟩

theorem quotedCode_selfDelimiting_sample :
    (∃ code, quotedCode (ascii "\\\"\\") = .ok code ∧ code.bytes = ascii "\"\\\\\\\"\\\\\"" ∧
      closingQuote (code.bytes ++ ascii "\"; x") = some 7 ∧
      readLiteral (code.bytes ++ ascii "\"; x") = some (ascii "\\\"\\", ascii "\"; x")) ∧
    quotedCode (List.replicate 255 Byte.doubleQuote) = .error (.textTooLong 511) := by
  obtain ⟨code, hcode, hread, -⟩ := (quotedCode_selfDelimiting (ascii "\\\"\\")).2 (by decide)
  obtain ⟨hclosing, htext⟩ := hread (ascii "\"; x")
  have hbytes : code.bytes = ascii "\"\\\\\\\"\\\\\"" := by
    rw [quotedCode_bytes hcode]
    decide
  refine ⟨⟨code, hcode, hbytes, ?_, htext⟩, ?_⟩
  · rw [hclosing, hbytes]
    rfl
  · refine ((quotedCode_selfDelimiting (List.replicate 255 Byte.doubleQuote)).1 ?_).1
    rw [List.length_replicate, List.count_replicate_self]
    omega

end TypeSig.Target
