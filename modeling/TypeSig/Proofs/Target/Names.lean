/-
  TypeSig.Proofs.Target.Names

  Names of the target language have room for what adapting adds to a stored name.
  A spelling takes no more bytes than its source, since an underscore between two
  words stands where the source has a byte that is in no word; a leading digit
  costs one byte. That leaves seven bytes for a number, and a reserved word is
  short, so its escape fits as well.

  Main statements: a stored name always has a name in the target language
  (`adaptName_of_length_le`), and so has its spelling with a number of seven digits
  behind it (`numberedName_of_lt`).
-/

import TypeSig.Proofs.Text.Message
import TypeSig.Proofs.Text.Rendering
import TypeSig.Target.Literal

namespace TypeSig.Target

/-! ## Spelling -/

namespace Spelling

/-- The bytes that are used, with one set aside for the break that may have come. -/
def reserve (s : Spelling) : Nat :=
  s.text.bytes.length + if s.atBreak then 1 else 0

/-- A byte of the source name needs one byte of room. -/
theorem step_of_reserve_lt {s : Spelling} (b : UInt8) (h : s.reserve < 71) :
    ∃ next, s.step b = .ok next ∧ next.reserve ≤ s.reserve + 1 := by
  obtain ⟨text, atBreak⟩ := s
  by_cases hword : Byte.isWordByte b = true
  · by_cases hbreak : (atBreak && !text.isEmpty) = true
    -- the byte set aside for the break is the underscore's, if there is one
    · obtain ⟨rfl, -⟩ := Bool.and_eq_true_iff.1 hbreak
      simp only [reserve, if_true] at h ⊢
      by_cases hdigit : Byte.isDigit b = true
      · obtain ⟨opened, hopened, hbytes⟩ := BoundedText.exists_append (t := text)
          (show text.bytes.length + [Byte.underscore].length ≤ 71 by simp; omega)
        obtain ⟨longer, hlonger, hbytes'⟩ := BoundedText.exists_append (t := opened)
          (show opened.bytes.length + [Byte.toUpper b].length ≤ 71 by simp [hbytes]; omega)
        refine ⟨⟨longer, false⟩, ?_, by simp [hbytes', hbytes]⟩
        simp [step, hword, hbreak, hdigit, BoundedText.push, hopened, hlonger, bind, Except.bind]
      · obtain ⟨longer, hlonger, hbytes⟩ := BoundedText.exists_append (t := text)
          (show text.bytes.length + [Byte.toUpper b].length ≤ 71 by simp; omega)
        refine ⟨⟨longer, false⟩, ?_, by simp [hbytes]⟩
        simp [step, hword, hbreak, hdigit, BoundedText.push, hlonger, bind, Except.bind]
    · have hlength : text.bytes.length < 71 := Nat.lt_of_le_of_lt (Nat.le_add_right _ _) h
      obtain ⟨longer, hlonger, hbytes⟩ := BoundedText.exists_append (t := text)
        (show text.bytes.length + [b].length ≤ 71 from hlength)
      refine ⟨⟨longer, false⟩, ?_, by simp [reserve, hbytes]⟩
      simp [step, hword, hbreak, BoundedText.push, hlonger, bind, Except.bind]
  · exact ⟨⟨text, true⟩, by simp [step, hword], by simp [reserve]⟩

/-- A source name needs as many bytes of room as it has. -/
theorem foldlM_of_reserve_le {source : Bytes} :
    ∀ {s : Spelling}, s.reserve + source.length ≤ 71 →
      ∃ last, source.foldlM step s = .ok last ∧ last.reserve ≤ s.reserve + source.length := by
  induction source with
  | nil => exact fun _ => ⟨_, rfl, Nat.le_refl _⟩
  | cons b rest ih =>
    intro s h
    rw [List.length_cons] at h
    obtain ⟨next, hnext, hreserve⟩ := step_of_reserve_lt b (show s.reserve < 71 by omega)
    obtain ⟨last, hlast, hle⟩ := ih (show next.reserve + rest.length ≤ 71 by omega)
    refine ⟨last, ?_, ?_⟩
    · simp only [List.foldlM_cons, hnext, bind, Except.bind]
      exact hlast
    · rw [List.length_cons]
      omega

theorem finish_of_length_le {s : Spelling} (h : s.text.bytes.length ≤ nameLimit) :
    ∃ name, s.finish = .ok name ∧ name.bytes.length ≤ nameLimit + 1 := by
  obtain ⟨⟨bytes, hbytes⟩, atBreak⟩ := s
  have hlimit : nameLimit = 63 := rfl
  cases bytes with
  | nil => exact ⟨⟨ascii "empty", by decide⟩, rfl, by decide⟩
  | cons b rest =>
    by_cases hdigit : Byte.isDigit b = true
    · let opened : Identifier := ⟨[Byte.underscore], by decide⟩
      obtain ⟨name, hname, hlonger⟩ := BoundedText.exists_append (t := opened)
        (show [Byte.underscore].length + (b :: rest).length ≤ 71 by
          simp only [List.length_cons, List.length_nil] at h ⊢
          omega)
      refine ⟨name, ?_, ?_⟩
      · simp only [finish, hdigit, if_true]
        exact hname
      · simp only [hlonger, List.length_append, List.length_cons, opened, List.length_nil] at h ⊢
        omega
    · exact ⟨⟨b :: rest, hbytes⟩, by simp [finish, hdigit], by simp only at h ⊢; omega⟩

end Spelling

theorem spell_of_length_le {source : Bytes} (h : source.length ≤ nameLimit) :
    ∃ spelling, spell source = .ok spelling ∧ spelling.bytes.length ≤ nameLimit + 1 := by
  have hlimit : nameLimit = 63 := rfl
  have hstart : Spelling.start.reserve = 0 := rfl
  obtain ⟨last, hlast, hreserve⟩ := Spelling.foldlM_of_reserve_le
    (show Spelling.start.reserve + source.length ≤ 71 by omega)
  have hlength : last.text.bytes.length ≤ nameLimit := by
    simp only [Spelling.reserve] at hreserve hstart
    omega
  obtain ⟨name, hname, hle⟩ := Spelling.finish_of_length_le hlength
  refine ⟨name, ?_, hle⟩
  simp only [spell, hlast, bind, Except.bind]
  exact hname

/-! ## Reserved words and numbers -/

theorem length_le_of_isReserved {text : Bytes} (h : isReserved text = true) : text.length ≤ 9 := by
  have hwords : ∀ word ∈ reservedWords, word.length ≤ 9 := by decide
  exact hwords text (List.contains_iff_mem.1 h)

/-- Every spelling can be used as a name. -/
theorem exists_escapeReserved (spelling : Identifier) :
    ∃ name, escapeReserved spelling = .ok name := by
  unfold escapeReserved
  split
  · next hreserved =>
    have hshort := length_le_of_isReserved hreserved
    have hmark : escapeMark.length = 2 := rfl
    let opened : Identifier := ⟨escapeMark, by decide⟩
    obtain ⟨filled, hfilled, hbytes⟩ := BoundedText.exists_append (t := opened)
      (show escapeMark.length + spelling.bytes.length ≤ 71 by omega)
    obtain ⟨closed, hclosed, -⟩ := BoundedText.exists_append (t := filled)
      (show filled.bytes.length + escapeMark.length ≤ 71 by
        rw [hbytes, List.length_append]
        show escapeMark.length + spelling.bytes.length + escapeMark.length ≤ 71
        omega)
    exact ⟨closed, bind_eq_ok_iff.2 ⟨opened, rfl, bind_eq_ok_iff.2 ⟨filled, hfilled, hclosed⟩⟩⟩
  · exact ⟨spelling, rfl⟩

/-- A stored name has a name in the target language. -/
theorem adaptName_of_length_le {source : Bytes} (h : source.length ≤ nameLimit) :
    ∃ name, adaptName source = .ok name := by
  obtain ⟨spelling, hspelling, -⟩ := spell_of_length_le h
  obtain ⟨name, hname⟩ := exists_escapeReserved spelling
  exact ⟨name, bind_eq_ok_iff.2 ⟨spelling, hspelling, hname⟩⟩

/-- Behind the spelling of a stored name is room for seven digits. -/
theorem numberedName_of_lt {spelling : Identifier} {n : Nat}
    (h : spelling.bytes.length ≤ nameLimit + 1) (hn : n < 10 ^ 7) :
    ∃ name, numberedName spelling n = .ok name := by
  have hlimit : nameLimit = 63 := rfl
  have hdigits := length_decimal_le (by decide) hn
  have hroom : spelling.bytes.length + (decimal n).length ≤ 71 := by omega
  obtain ⟨name, hname⟩ := exists_escapeReserved ⟨spelling.bytes ++ decimal n, by simpa using hroom⟩
  exact ⟨name, bind_eq_ok_iff.2 ⟨_, BoundedText.append_of_le hroom, hname⟩⟩

/-- A number does not fit behind a spelling, or the name can be used. -/
theorem numberedName_eq_error {spelling : Identifier} {n : Nat} {fault : Fault}
    (h : numberedName spelling n = .error fault) : fault = .textTooLong 71 := by
  rcases bind_eq_error_iff.1 h with happend | ⟨numbered, -, hescape⟩
  · exact (BoundedText.append_eq_error happend).1
  · obtain ⟨name, hname⟩ := exists_escapeReserved numbered
    rw [hname] at hescape
    cases hescape

/-! ## Text literals -/

theorem length_flatMap_escaped (text : Bytes) :
    (text.flatMap escaped).length ≤ 2 * text.length := by
  induction text with
  | nil => exact Nat.le_refl 0
  | cons b rest ih =>
    have hshort : (escaped b).length ≤ 2 := by
      unfold escaped
      split <;> simp
    rw [List.flatMap_cons, List.length_append, List.length_cons]
    omega

/-- A stored text has a literal, which is at most two bytes for each of its own and the
    quotes. -/
theorem quotedCode_of_length_le {text : Bytes} (h : text.length ≤ nameLimit) :
    ∃ code, quotedCode text = .ok code ∧ code.bytes.length ≤ 2 * nameLimit + 2 := by
  have hlimit : nameLimit = 63 := rfl
  have hescaped := length_flatMap_escaped text
  have hlength : (wording (.ok [Byte.doubleQuote] :: text.map (fun b => .ok (escaped b)) ++
      [.ok [Byte.doubleQuote]])).length ≤ 2 * nameLimit + 2 := by
    rw [List.cons_append, wording_ok_cons, wording_append, wording_map_ok]
    simp only [List.length_append, List.length_singleton, wording_ok_cons, wording_nil,
      List.append_nil]
    omega
  obtain ⟨code, hcode, hbytes⟩ := BoundedText.exists_render
    (fun fault => by simp) (Nat.le_trans hlength (show 2 * nameLimit + 2 ≤ 511 by decide))
  exact ⟨code, hcode, hbytes ▸ hlength⟩

end TypeSig.Target
