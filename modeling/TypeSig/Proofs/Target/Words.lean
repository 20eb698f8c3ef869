/-
  TypeSig.Proofs.Target.Words

  The spelling of a name by its words. A source name is split at every byte that no
  word has; what is left of it are its words, and these are put together one after the
  other (`wordSpelling`). Taking the name in byte by byte comes to the same, since a
  break that is remembered is just the difference between going on with a word and
  beginning one (`Spelling.foldl_step`).

  A text has no room for a spelling only if the whole of it is too long, because a
  spelling under way never gets shorter. Legal names are their own names: a word is the
  only word in it, and backticks separate words.

  Main statement: `adaptName_eq_wordSpelling`.
-/

import TypeSig.Proofs.Target.Legal

namespace TypeSig

namespace Byte

theorem toUpper_of_isDigit {b : UInt8} (h : isDigit b = true) : toUpper b = b := by
  unfold toUpper
  split
  · next hlower =>
    simp only [isDigit, isLower, Bool.and_eq_true, decide_eq_true_eq,
      UInt8.le_iff_toNat_le] at h hlower
    have hlow : 97 ≤ b.toNat := hlower.1
    have hhigh : b.toNat ≤ 57 := h.2
    omega
  · rfl

/-- No digit starts a word. -/
theorem isDigit_of_isWordStart {b : UInt8} (h : isWordStart b = true) : isDigit b = false := by
  rw [Bool.eq_false_iff]
  intro hdigit
  simp only [isWordStart, isLetter, isLower, isDigit, underscore, Bool.or_eq_true,
    Bool.and_eq_true, decide_eq_true_eq, beq_iff_eq, UInt8.le_iff_toNat_le] at h hdigit
  have hlow : 48 ≤ b.toNat := hdigit.1
  have hhigh : b.toNat ≤ 57 := hdigit.2
  rcases h with (⟨hlower, -⟩ | ⟨hupper, -⟩) | rfl
  · have : 97 ≤ b.toNat := hlower
    omega
  · have : 65 ≤ b.toNat := hupper
    omega
  · have : (0x5f : UInt8).toNat = 95 := rfl
    omega

end Byte

namespace Target

/-! ## Words -/

/-- The parts of a name between the bytes that are in no word. -/
def parts (source : Bytes) : List Bytes :=
  source.splitOnP fun b => !Byte.isWordByte b

/-- The words of a name: its longest runs of letters, digits and underscores. -/
def words (source : Bytes) : List Bytes :=
  (parts source).filter fun part => !part.isEmpty

/-- A word behind another one. It begins with a capital, or has an underscore before its
    first digit. -/
def laterWord : Bytes → Bytes
  | [] => []
  | b :: rest => if Byte.isDigit b then Byte.underscore :: b :: rest else Byte.toUpper b :: rest

/-- Words put together: the first as it is, then the others. -/
def joinWords : List Bytes → Bytes
  | [] => []
  | first :: later => first ++ later.flatMap laterWord

/-- The spelling of a name by its words, with what it needs at its start. -/
def wordSpelling (source : Bytes) : Bytes :=
  match joinWords (words source) with
  | [] => ascii "empty"
  | b :: rest => if Byte.isDigit b then Byte.underscore :: b :: rest else b :: rest

theorem parts_cons_of_not {b : UInt8} (h : Byte.isWordByte b = false) (rest : Bytes) :
    parts (b :: rest) = [] :: parts rest := by
  rw [parts, List.splitOnP_cons_eq_if_modifyHead, if_pos (by simp [h])]
  rfl

/-- A byte of a word goes in front of the first part. -/
theorem exists_parts_cons {b : UInt8} (h : Byte.isWordByte b = true) (rest : Bytes) :
    ∃ first later, parts rest = first :: later ∧ parts (b :: rest) = (b :: first) :: later := by
  obtain ⟨first, later, hparts⟩ := List.exists_cons_of_ne_nil
    (List.splitOnP_ne_nil (fun b => !Byte.isWordByte b) rest)
  refine ⟨first, later, hparts, ?_⟩
  rw [parts, List.splitOnP_cons_eq_if_modifyHead, if_neg (by simp [h]), hparts]
  rfl

/-- Empty parts add nothing behind a word. -/
theorem flatMap_laterWord_filter (parts : List Bytes) :
    (parts.filter fun part => !part.isEmpty).flatMap laterWord = parts.flatMap laterWord := by
  induction parts with
  | nil => rfl
  | cons part rest ih =>
    cases part with
    | nil => exact ih
    | cons b word =>
      rw [List.filter_cons_of_pos rfl, List.flatMap_cons, List.flatMap_cons, ih]

theorem words_append_cons (source : Bytes) {b : UInt8} (h : Byte.isWordByte b = false)
    (rest : Bytes) : words (source ++ b :: rest) = words source ++ words rest := by
  rw [words, parts, List.splitOnP_append_cons source rest (by simp [h]), List.filter_append]
  rfl

/-- A word is the only word in it. -/
theorem words_of_isWord {word : Bytes} (h : isWord word = true) : words word = [word] := by
  have hbytes : ∀ b ∈ word, (!Byte.isWordByte b) = false := by
    intro b hb
    simp [isWordByte_of_mem h b hb]
  rw [words, parts, List.splitOnP_eq_singleton hbytes]
  cases word with
  | nil => cases h
  | cons b rest => rfl

theorem wordSpelling_of_words {source word : Bytes} (h : isWord word = true)
    (hwords : words source = [word]) : wordSpelling source = word := by
  rw [wordSpelling, hwords]
  cases word with
  | nil => cases h
  | cons b rest =>
    have hdigit := Byte.isDigit_of_isWordStart (Bool.and_eq_true_iff.1 h).1
    simp [joinWords, hdigit]

end Target

/-! ## Taking a name in byte by byte -/

namespace Unbounded

open Target (parts words joinWords laterWord wordSpelling)

/-- Behind a spelling that has begun, the parts of what comes are put: the first goes on
    with the word under way, unless a break came last. -/
theorem Spelling.foldl_step (source : Bytes) :
    ∀ {text : Bytes}, text ≠ [] →
      (source.foldl step ⟨text, false⟩).text = text ++ joinWords (parts source) ∧
        (source.foldl step ⟨text, true⟩).text = text ++ (parts source).flatMap laterWord := by
  induction source with
  | nil => exact fun _ => ⟨(List.append_nil _).symm, (List.append_nil _).symm⟩
  | cons b rest ih =>
    intro text htext
    have hempty : text.isEmpty = false := by simpa using htext
    rw [List.foldl_cons, List.foldl_cons]
    by_cases hword : Byte.isWordByte b = true
    · -- the byte belongs to the first part; only its spelling depends on the break
      obtain ⟨first, later, hrest, hparts⟩ := Target.exists_parts_cons hword rest
      have hgoOn : step ⟨text, false⟩ b = ⟨text ++ [b], false⟩ := by simp [step, hword]
      have hbegin : step ⟨text, true⟩ b = ⟨text ++ laterWord [b], false⟩ := by
        by_cases hdigit : Byte.isDigit b = true
        · simp [step, hword, hempty, laterWord, hdigit, Byte.toUpper_of_isDigit hdigit]
        · simp [step, hword, hempty, laterWord, hdigit]
      have hmore : laterWord (b :: first) = laterWord [b] ++ first := by
        simp only [laterWord]
        split <;> rfl
      have hne : ∀ more, text ++ more ≠ [] := fun more hnil =>
        htext (List.append_eq_nil_iff.1 hnil).1
      rw [hgoOn, hbegin, (ih (hne [b])).1, (ih (hne (laterWord [b]))).1, hrest, hparts]
      simp [joinWords, hmore]
    · -- the break is remembered, whether it is the first or not
      have hbreak : ∀ atBreak, step ⟨text, atBreak⟩ b = ⟨text, true⟩ := by simp [step, hword]
      rw [hbreak, hbreak, (ih htext).2,
        Target.parts_cons_of_not (Bool.eq_false_iff.2 hword) rest]
      exact ⟨rfl, rfl⟩

/-- Breaks in front of the first word leave no trace. -/
theorem Spelling.foldl_step_nil (source : Bytes) :
    ∀ atBreak, (source.foldl step ⟨[], atBreak⟩).text = joinWords (words source) := by
  induction source with
  | nil => exact fun _ => rfl
  | cons b rest ih =>
    intro atBreak
    rw [List.foldl_cons]
    by_cases hword : Byte.isWordByte b = true
    · -- the first word begins here, as it is
      obtain ⟨first, later, hrest, hparts⟩ := Target.exists_parts_cons hword rest
      have hstep : step ⟨[], atBreak⟩ b = ⟨[b], false⟩ := by simp [step, hword]
      rw [hstep, (foldl_step rest (List.cons_ne_nil b [])).1, hrest, words, hparts,
        List.filter_cons_of_pos rfl, joinWords, joinWords, Target.flatMap_laterWord_filter]
      rfl
    · have hstep : step ⟨[], atBreak⟩ b = ⟨[], true⟩ := by simp [step, hword]
      rw [hstep, ih, words, words, Target.parts_cons_of_not (Bool.eq_false_iff.2 hword) rest]
      rfl

theorem spell_eq_wordSpelling (source : Bytes) : spell source = wordSpelling source := by
  have htext := Spelling.foldl_step_nil source false
  rw [spell, Spelling.finish, wordSpelling, ← htext]
  rfl

/-! ## Spellings only grow -/

theorem Spelling.length_le_step (s : Spelling) (b : UInt8) :
    s.text.length ≤ (s.step b).text.length := by
  unfold step
  split
  · split
    · simp only [List.length_append]
      omega
    · simp only [List.length_append]
      omega
  · exact Nat.le_refl _

theorem Spelling.length_le_foldl (source : Bytes) :
    ∀ s : Spelling, s.text.length ≤ (source.foldl step s).text.length := by
  induction source with
  | nil => exact fun s => Nat.le_refl _
  | cons b rest ih => exact fun s => Nat.le_trans (s.length_le_step b) (ih (s.step b))

theorem Spelling.length_le_finish (s : Spelling) : s.text.length ≤ s.finish.length := by
  obtain ⟨text, atBreak⟩ := s
  cases text with
  | nil => exact Nat.zero_le _
  | cons b rest =>
    simp only [finish]
    split
    · exact Nat.le_succ _
    · exact Nat.le_refl _

end Unbounded

namespace Target

/-! ## Spellings without room -/

/-- The last byte of a step has no room only if the text with it is too long. -/
theorem Spelling.push_eq_error {text : Identifier} {b : UInt8} {fault : Fault}
    (h : (do
      let text ← text.push b
      .ok (Spelling.mk text false) : Except Fault Spelling) = .error fault) :
    fault = .textTooLong 71 ∧ 71 < text.bytes.length + 1 := by
  rcases bind_eq_error_iff.1 h with hpush | ⟨_, -, hok⟩
  · exact BoundedText.append_eq_error hpush
  · cases hok

/-- A byte is refused only if the spelling with it is too long. -/
theorem Spelling.step_eq_error {s : Spelling} {b : UInt8} {fault : Fault}
    (h : s.step b = .error fault) :
    fault = .textTooLong 71 ∧ 71 < (s.forget.step b).text.length := by
  unfold step at h
  unfold Unbounded.Spelling.step
  by_cases hword : Byte.isWordByte b = true
  · rw [if_pos hword] at h ⊢
    have hopen : (s.forget.atBreak && !s.forget.text.isEmpty) = (s.atBreak && !s.text.isEmpty) :=
      rfl
    have hlength : s.forget.text.length = s.text.bytes.length := rfl
    rw [hopen]
    by_cases hbreak : (s.atBreak && !s.text.isEmpty) = true
    · rw [if_pos hbreak] at h ⊢
      simp only [List.length_append, List.length_singleton, hlength]
      by_cases hdigit : Byte.isDigit b = true
      · -- an underscore and the digit: either of them may be the first without room
        simp only [hdigit, if_true, List.length_singleton] at h ⊢
        rcases bind_eq_error_iff.1 h with hmark | ⟨opened, hopened, h⟩
        · obtain ⟨hfault, hlong⟩ := BoundedText.append_eq_error hmark
          exact ⟨hfault, Nat.lt_succ_of_lt hlong⟩
        · obtain ⟨hfault, hlong⟩ := push_eq_error h
          rw [BoundedText.append_eq_ok hopened, List.length_append] at hlong
          exact ⟨hfault, hlong⟩
      · simp only [hdigit, Bool.false_eq_true, if_false] at h ⊢
        obtain ⟨_, hsame, h⟩ := (bind_eq_error_iff.1 h).resolve_left (by rintro ⟨⟩)
        cases hsame
        exact push_eq_error h
    · rw [if_neg hbreak] at h ⊢
      rw [List.length_append, hlength]
      exact push_eq_error h
  · rw [if_neg hword] at h
    cases h

theorem Spelling.foldlM_eq_error {source : Bytes} {fault : Fault} :
    ∀ {s : Spelling}, source.foldlM step s = .error fault →
      fault = .textTooLong 71 ∧ 71 < (source.foldl Unbounded.Spelling.step s.forget).text.length := by
  induction source with
  | nil =>
    intro s h
    cases h
  | cons b rest ih =>
    intro s h
    rw [List.foldlM_cons] at h
    rw [List.foldl_cons]
    rcases bind_eq_error_iff.1 h with hstep | ⟨next, hnext, hrest⟩
    · -- what comes behind makes it no shorter
      obtain ⟨hfault, hlong⟩ := step_eq_error hstep
      have hgrown := Unbounded.Spelling.length_le_foldl rest (s.forget.step b)
      exact ⟨hfault, by omega⟩
    · rw [← step_forget hnext]
      exact ih hrest

theorem Spelling.finish_eq_error {s : Spelling} {fault : Fault} (h : s.finish = .error fault) :
    fault = .textTooLong 71 ∧ 71 < s.forget.finish.length := by
  obtain ⟨⟨bytes, hbytes⟩, atBreak⟩ := s
  cases bytes with
  | nil => cases h
  | cons b rest =>
    by_cases hdigit : Byte.isDigit b = true
    · -- the spelling had room, but has none with the underscore in front
      simp only [finish, hdigit, if_true] at h
      obtain ⟨opened, hopened, h⟩ := (bind_eq_error_iff.1 h).resolve_left (by rintro ⟨⟩)
      obtain ⟨hfault, hlong⟩ := BoundedText.append_eq_error h
      rw [BoundedText.append_eq_ok hopened] at hlong
      refine ⟨hfault, ?_⟩
      simp only [forget, Unbounded.Spelling.finish, hdigit, if_true, List.length_cons]
      simp only [List.length_cons, List.length_append, BoundedText.bytes_empty] at hlong
      simp only [List.length_nil] at hlong
      omega
    · simp only [finish, hdigit] at h
      cases h

theorem spell_eq_error {source : Bytes} {fault : Fault} (h : spell source = .error fault) :
    fault = .textTooLong 71 ∧ 71 < (Unbounded.spell source).length := by
  rcases bind_eq_error_iff.1 h with hfold | ⟨last, hlast, hfinish⟩
  · obtain ⟨hfault, hlong⟩ := Spelling.foldlM_eq_error hfold
    have hgrown := (source.foldl Unbounded.Spelling.step .start).length_le_finish
    exact ⟨hfault, Nat.lt_of_lt_of_le hlong hgrown⟩
  · rw [Unbounded.spell]
    have hforget := Spelling.foldlM_forget hlast
    have hstart : Spelling.start.forget = .start := rfl
    rw [hstart] at hforget
    rw [← hforget]
    exact Spelling.finish_eq_error hfinish

/-- A name fails to be adapted if the spelling is too long, and for no other reason. -/
theorem adaptName_eq_error_iff {source : Bytes} {fault : Fault} :
    adaptName source = .error fault ↔
      fault = .textTooLong 71 ∧ 71 < (Unbounded.spell source).length := by
  constructor
  · intro h
    rcases bind_eq_error_iff.1 h with hspell | ⟨spelling, -, hescape⟩
    · exact spell_eq_error hspell
    · obtain ⟨name, hname⟩ := exists_escapeReserved spelling
      rw [hname] at hescape
      cases hescape
  · rintro ⟨rfl, hlong⟩
    cases hspell : spell source with
    | error fault =>
      obtain ⟨rfl, -⟩ := spell_eq_error hspell
      exact bind_eq_error_iff.2 (.inl hspell)
    | ok spelling =>
      rw [← spell_bytes hspell] at hlong
      exact absurd spelling.length_le (Nat.not_le_of_lt hlong)

/-! ## Legal names are their own names -/

/-- What stands around a reserved word separates words. -/
theorem words_escaped {word : Bytes} (h : isWord word = true) :
    words (escapeMark ++ word ++ escapeMark) = [word] := by
  have hmark : Byte.isWordByte 0x60 = false := by decide
  have hcode : escapeMark ++ word ++ escapeMark =
      [] ++ 0x60 :: ([] ++ 0x60 :: (word ++ 0x60 :: ([] ++ 0x60 :: []))) := by
    simp [escapeMark, ascii]
  have hnil : words [] = [] := rfl
  rw [hcode, words_append_cons _ hmark, words_append_cons _ hmark, words_append_cons _ hmark,
    words_append_cons _ hmark, words_of_isWord h, hnil]
  rfl

theorem IsLegal.adaptName_eq {text : Bytes} (h : IsLegal text) :
    Unbounded.adaptName text = text := by
  rw [Unbounded.adaptName, Unbounded.spell_eq_wordSpelling]
  cases h with
  | word hword hfree =>
    rw [wordSpelling_of_words hword (words_of_isWord hword), Unbounded.escapeReserved,
      if_neg (Bool.eq_false_iff.1 hfree)]
  | escaped hreserved =>
    have hword := isWord_of_isReserved hreserved
    rw [wordSpelling_of_words hword (words_escaped hword), Unbounded.escapeReserved,
      if_pos hreserved]

/-! ## Names -/

theorem isLegal_of_adaptName {source : Bytes} {name : Identifier}
    (h : adaptName source = .ok name) : IsLegal name.bytes := by
  obtain ⟨spelling, hspelling, hescape⟩ := bind_eq_ok_iff.1 h
  exact isLegal_of_escapeReserved (isWord_of_spell hspelling) hescape

/-- Adapting a name again leaves it as it is. -/
theorem adaptName_idempotent {source : Bytes} {name : Identifier}
    (h : adaptName source = .ok name) : adaptName name.bytes = .ok name := by
  have hsame := (isLegal_of_adaptName h).adaptName_eq
  cases hagain : adaptName name.bytes with
  | ok again =>
    have hbytes : again.bytes = name.bytes := (adaptName_bytes hagain).trans hsame
    rw [BoundedText.ext hbytes]
  | error fault =>
    -- the spelling is a part of the name, so it has room
    obtain ⟨-, hlong⟩ := adaptName_eq_error_iff.1 hagain
    have hpart : (Unbounded.spell name.bytes).length ≤ (Unbounded.adaptName name.bytes).length := by
      rw [Unbounded.adaptName, Unbounded.escapeReserved]
      split
      · simp only [List.length_append]
        omega
      · exact Nat.le_refl _
    rw [hsame] at hpart
    exact absurd (Nat.le_trans hpart name.length_le) (Nat.not_le_of_lt hlong)

/-- The name for a source name is its spelling by words, in double backticks if that is a
    reserved word. There is no name exactly if the spelling is longer than 71 bytes, which
    it is for no stored name. A name is always legal, and it is its own name. -/
theorem adaptName_eq_wordSpelling (source : Bytes) :
    (source.length ≤ nameLimit → (wordSpelling source).length ≤ 71) ∧
    (71 < (wordSpelling source).length →
      adaptName source = .error (.textTooLong 71) ∧
        (Fault.textTooLong 71).kind = .capacityExceeded) ∧
    ((wordSpelling source).length ≤ 71 →
      ∃ name, adaptName source = .ok name ∧
        (isReserved (wordSpelling source) = false → name.bytes = wordSpelling source) ∧
        (isReserved (wordSpelling source) = true →
          name.bytes = escapeMark ++ wordSpelling source ++ escapeMark) ∧
        IsLegal name.bytes ∧ adaptName name.bytes = .ok name) := by
  rw [← Unbounded.spell_eq_wordSpelling]
  refine ⟨fun hshort => ?_, fun hlong => ?_, fun hfits => ?_⟩
  · obtain ⟨spelling, hspelling, -⟩ := spell_of_length_le hshort
    rw [← spell_bytes hspelling]
    exact spelling.length_le
  · exact ⟨adaptName_eq_error_iff.2 ⟨rfl, hlong⟩, rfl⟩
  · cases hname : adaptName source with
    | error fault =>
      obtain ⟨-, hlong⟩ := adaptName_eq_error_iff.1 hname
      exact absurd hfits (Nat.not_le_of_lt hlong)
    | ok name =>
      have hbytes := adaptName_bytes hname
      rw [Unbounded.adaptName, Unbounded.escapeReserved] at hbytes
      refine ⟨name, rfl, fun hfree => ?_, fun hreserved => ?_, isLegal_of_adaptName hname,
        adaptName_idempotent hname⟩
      · rwa [if_neg (Bool.eq_false_iff.1 hfree)] at hbytes
      · rwa [if_pos hreserved] at hbytes

theorem adaptName_eq_wordSpelling_sample :
    (∃ name, adaptName (ascii "--1st top-9x") = .ok name ∧ name.bytes = ascii "_1stTop_9x" ∧
      adaptName name.bytes = .ok name) ∧
    (∃ name, adaptName (ascii " end?") = .ok name ∧ name.bytes = ascii "``end``" ∧
      adaptName name.bytes = .ok name) ∧
    adaptName (List.replicate 71 0x31) = .error (.textTooLong 71) := by
  have hdigit : wordSpelling (ascii "--1st top-9x") = ascii "_1stTop_9x" := by decide
  have hword : wordSpelling (ascii " end?") = ascii "end" := by decide
  obtain ⟨name, hname, hbytes, -, -, hagain⟩ :=
    (adaptName_eq_wordSpelling (ascii "--1st top-9x")).2.2 (by rw [hdigit]; decide)
  obtain ⟨name', hname', -, hbytes', -, hagain'⟩ :=
    (adaptName_eq_wordSpelling (ascii " end?")).2.2 (by rw [hword]; decide)
  refine ⟨⟨name, hname, ?_, hagain⟩, ⟨name', hname', ?_, hagain'⟩, ?_⟩
  · rw [hbytes (by rw [hdigit]; decide), hdigit]
  · rw [hbytes' (by rw [hword]; decide), hword]
    rfl
  · exact ((adaptName_eq_wordSpelling (List.replicate 71 0x31)).2.1 (by decide)).1

end Target

end TypeSig
