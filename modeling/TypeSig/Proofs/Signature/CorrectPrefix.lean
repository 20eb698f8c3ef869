/-
  TypeSig.Proofs.Signature.CorrectPrefix

  A text that is not in the language is reported at the first byte with which no
  text of the language goes on. All that stands in front of it can be completed,
  because the reader is viable; and no text that agrees with this one up to and
  including that byte is in the language, because the reader would look at the
  same tokens and fail at the same place.

  A quoted text without its closing quote is the exception: it is reported where
  it begins, and the bytes behind show why it never ends.
-/

import TypeSig.Proofs.Signature.Viable
import TypeSig.Proofs.Text.Message

namespace TypeSig.Signature

/-- A text of the language. -/
def InLanguage (text : Bytes) : Prop := ∃ phrase, Derives phrase text

variable {capacity : Nat} {text : Bytes}

/-! ## Places in the text -/

/-- Where the reading of a text has come to, its tokens and its bytes are both cut
    in two, and what is left begins at once with its first token. -/
structure Cut (text : Bytes) (taken : List Lexeme) (stop : Progress) (front back : Bytes) :
    Prop where
  text_eq : text = front ++ back
  scans : Scans 0 taken front back
  rest_eq : tokensFrom 0 front.length back = stop.rest
  position_eq : stop.position = front.length
  head : ∀ b ∈ back.head?, Byte.isSpace b = false

/-- The text is cut where its tokens are. -/
theorem exists_cut {taken : List Lexeme} {stop : Progress}
    (hstop : start text = stop.rewind .empty taken) (hwhole : ∀ l ∈ taken, l.token.isWhole = true) :
    ∃ front back, Cut text taken stop front back := by
  have htokens : tokensFrom 0 0 text = taken ++ stop.rest := congrArg Progress.rest hstop
  have hfinish : text.length = stop.finish := congrArg Progress.finish hstop
  obtain ⟨front, back, hcut, hscans, hrest, hhead⟩ := exists_scans text 0 htokens hwhole
  rw [Nat.zero_add] at hrest
  refine ⟨front, back, hcut, hscans, hrest, ?_, hhead⟩
  cases back with
  | nil =>
    -- no token is left, and the reading stands at the end
    have hnil : stop.rest = [] := hrest.symm
    rw [Progress.position, hnil, ← hfinish, hcut, List.append_nil]
  | cons b back =>
    obtain ⟨token, more, hmore, -⟩ := exists_tokensFrom_eq_cons (hhead b rfl) front.length back
    have hcons : stop.rest = ⟨token, front.length⟩ :: more := by rw [← hrest, hmore]
    rw [Progress.position, hcons]

/-- Tokens with which a type begins are whole. -/
theorem Begins.isWhole {ts : List Token} (h : Begins IsType ts) : ∀ t ∈ ts, t.isWhole = true := by
  obtain ⟨more, -, phrase, hphrase⟩ := h
  intro t ht
  refine phrase.isWhole t ?_
  rw [hphrase]
  exact List.mem_append_left _ ht

theorem Takes.exists_cut {ts : List Token} {stop : Progress} (h : Takes (start text) ts stop)
    (hwhole : ∀ t ∈ ts, t.isWhole = true) :
    ∃ taken front back, taken.map Lexeme.token = ts ∧ Cut text taken stop front back := by
  obtain ⟨taken, hstop, rfl⟩ := h
  obtain ⟨front, back, hcut⟩ := Signature.exists_cut hstop fun l hl =>
    hwhole _ (List.mem_map_of_mem hl)
  exact ⟨taken, front, back, rfl, hcut⟩

/-- What stands in front of the cut is completed by plain tokens. -/
theorem Cut.exists_inLanguage {taken : List Lexeme} {stop : Progress} {front back : Bytes}
    (h : Cut text taken stop front back) (hbegins : Begins IsType (taken.map Lexeme.token)) :
    ∃ more, InLanguage (text.take stop.position ++ more) := by
  obtain ⟨ts, hplain, phrase, hphrase⟩ := hbegins
  obtain ⟨more, hspells, hends⟩ := exists_spells hplain
  have hfront : text.take stop.position = front := by
    rw [h.text_eq, h.position_eq, List.take_left]
  refine ⟨more, phrase, ?_⟩
  rw [Derives, hphrase, hfront]
  exact (h.scans.congr (.inl hends)).spells hspells

/-- A text in the language has whole tokens only. -/
theorem InLanguage.isWhole (h : InLanguage text) : ∀ l ∈ tokens text, l.token.isWhole = true := by
  obtain ⟨phrase, hderives⟩ := h
  intro l hl
  have hmem : l.token ∈ (tokens text).map Lexeme.token := List.mem_map_of_mem hl
  rw [Spells.tokens_eq hderives] at hmem
  exact phrase.isWhole _ hmem

/-- A text in the language fails for lack of room only. -/
theorem InLanguage.kind_eq {failure : ReadFailure} (h : InLanguage text)
    (hread : read capacity text = .error failure) : failure.cause.kind = .capacityExceeded := by
  obtain ⟨phrase, hderives⟩ := h
  exact (hderives.lacks hread).kind_eq

/-! ## An expectation that is not met -/

theorem readAll_of_read {failure : ReadFailure} (h : read capacity text = .error failure) :
    readAll capacity (start text) = .error failure := by
  rw [read_eq_readAll] at h
  cases hall : readAll capacity (start text) with
  | ok r =>
    rw [hall] at h
    cases h
  | error failure' =>
    rw [hall] at h
    cases h
    rfl

/-- Where something else was expected, no text of the language goes on with the
    byte that stands there. -/
theorem not_inLanguage_of_expected {what : Expected} {position : Nat}
    (hread : read capacity text = .error ⟨.expected what, position⟩)
    (hlt : position < text.length) (more : Bytes) :
    ¬ InLanguage (text.take (position + 1) ++ more) := by
  have hlooks := readAll_looksAt capacity (start text)
  obtain ⟨taken, stop, hstop, rfl, hsame⟩ := hlooks.expected what position (readAll_of_read hread)
  change start text = stop.rewind .empty taken at hstop
  change ∀ u : Progress, u.sight = stop.sight → readAll capacity (u.rewind .empty taken) = _
    at hsame
  have htokens : tokensFrom 0 0 text = taken ++ stop.rest := congrArg Progress.rest hstop
  -- a token is left, since the place is not the end of the text
  rcases hrest : stop.rest with _ | ⟨l, ls⟩
  · have hfinish : text.length = stop.finish := congrArg Progress.finish hstop
    rw [Progress.position, hrest, hfinish] at hlt
    exact absurd hlt (Nat.lt_irrefl _)
  rw [hrest] at htokens
  obtain ⟨front, back, hcut⟩ := exists_cut hstop (isWhole_of_tokensFrom_eq htokens)
  obtain ⟨rfl, hscans, hback, hposition, hhead⟩ := hcut
  rcases back with _ | ⟨b, back⟩
  · rw [hrest] at hback
    cases hback
  -- the other text has the same tokens up to there, and a token of the same sort behind
  intro hother
  have hshared : (front ++ b :: back).take (stop.position + 1) ++ more = front ++ b :: more := by
    rw [hposition]
    simp [List.take_append]
  rw [hshared] at hother
  have hscans' : Scans 0 taken front (b :: more) := hscans.congr (.inr rfl)
  obtain ⟨token, ls', hls, hsort⟩ := exists_tokensFrom_eq_cons (hhead b rfl) front.length back
  obtain ⟨token', ls'', hls', hsort'⟩ := exists_tokensFrom_eq_cons (hhead b rfl) front.length more
  let other : Progress :=
    ⟨.empty, tokensFrom 0 front.length (b :: more), (front ++ b :: more).length⟩
  have hstart : start (front ++ b :: more) = other.rewind .empty taken := by
    have heq := hscans'.tokensFrom_eq
    rw [Nat.zero_add] at heq
    rw [start, tokens, heq]
    rfl
  have hsight : other.sight = stop.sight := by
    have hl : stop.rest = ⟨token, front.length⟩ :: ls' := by rw [← hback, hls]
    simp [other, Progress.sight, Progress.position, hl, hls', hsort, hsort']
  have hfails := hsame other hsight
  rw [← hstart] at hfails
  have hread' : read capacity (front ++ b :: more) = .error ⟨.expected what, stop.position⟩ := by
    rw [read_eq_readAll, hfails]
    rfl
  have hkind := hother.kind_eq hread'
  cases hkind

/-- What cannot be in the language at the end of the text is the text itself. -/
theorem not_inLanguage_of_read {failure : ReadFailure}
    (hread : read capacity text = .error failure) (hkind : failure.cause.kind = .parse) :
    ¬ InLanguage text := by
  intro h
  rw [h.kind_eq hread] at hkind
  cases hkind

/-! ## Broken quoted texts -/

section

variable {taken : List Lexeme} {stop : Progress} {front back : Bytes} {position : Nat}
  {more : List Lexeme}

/-- Behind a quote and some bytes stands the NUL that is reported. -/
theorem Cut.eq_of_quotedNul {first : Nat} (h : Cut text taken stop front back)
    (hrest : stop.rest = ⟨.quotedNul position, first⟩ :: more) :
    ∃ q body after, back = q :: (body ++ Byte.nul :: after) ∧
      position = (front ++ q :: body).length ∧ Byte.isQuote q = true ∧ q ∉ body ∧
      Byte.nul ∉ body := by
  obtain ⟨-, -, hback, -, hhead⟩ := h
  rw [hrest] at hback
  cases back with
  | nil => cases hback
  | cons q back =>
    obtain ⟨hquote, body, after, rfl, hposition, hq, hnul⟩ :=
      Signature.eq_of_quotedNul (hhead q rfl) hback
    refine ⟨q, body, after, rfl, ?_, hquote, hq, hnul⟩
    rw [hposition, List.length_append, List.length_cons]
    omega

/-- Another text in its place completes a quoted text with a NUL. -/
theorem Cut.exists_inLanguage_quoted {q : UInt8} {body : Bytes}
    (h : Cut text taken stop front (q :: back)) (hquote : Byte.isQuote q = true) (hq : q ∉ body)
    (hnul : Byte.nul ∉ body)
    (hbegins : Begins IsType (taken.map Lexeme.token ++ [.quoted body])) :
    ∃ more, InLanguage (front ++ q :: body ++ more) := by
  obtain ⟨ts, hplain, phrase, hphrase⟩ := hbegins
  obtain ⟨more, hspells, -⟩ := exists_spells hplain
  refine ⟨q :: more, phrase, ?_⟩
  have hquoted := Spells.quoted hquote hq hnul hspells
  have hscans : Scans 0 taken front (q :: (body ++ q :: more)) := h.scans.congr (.inr rfl)
  have hall := hscans.spells hquoted
  rw [Derives, hphrase]
  simpa using hall

/-- No text of the language goes on with a NUL in a quoted text. -/
theorem Cut.not_inLanguage_nul {q : UInt8} {body : Bytes}
    (h : Cut text taken stop front (q :: back)) (hquote : Byte.isQuote q = true) (hq : q ∉ body)
    (hnul : Byte.nul ∉ body) (after : Bytes) :
    ¬ InLanguage (front ++ q :: (body ++ Byte.nul :: after)) := by
  intro hother
  have hscans : Scans 0 taken front (q :: (body ++ Byte.nul :: after)) := h.scans.congr (.inr rfl)
  have htokens := hscans.tokensFrom_eq
  rw [tokensFrom_quotedNul after hquote hq hnul] at htokens
  have hwhole := hother.isWhole
  rw [tokens, htokens] at hwhole
  exact Bool.false_ne_true (hwhole _ (List.mem_append_right _ (List.mem_singleton_self _)))

/-- A quoted text without its closing quote is all that is left. -/
theorem Cut.eq_of_unclosed (h : Cut text taken stop front back)
    (hrest : stop.rest = ⟨.unclosed, position⟩ :: more) :
    ∃ q after, back = q :: after ∧ position = front.length ∧ Byte.isQuote q = true ∧ q ∉ after ∧
      Byte.nul ∉ after := by
  obtain ⟨-, -, hback, hposition, hhead⟩ := h
  rw [Progress.position, hrest] at hposition
  rw [hrest] at hback
  cases back with
  | nil => cases hback
  | cons q back => exact ⟨q, back, rfl, hposition, Signature.eq_of_unclosed (hhead q rfl) hback⟩

end

/-! ## Reports of wrong texts -/

/-- A text of which something else was expected. -/
theorem expected_correctPrefix {what : Expected} {position : Nat}
    (hread : read capacity text = .error ⟨.expected what, position⟩) :
    (∃ more, InLanguage (text.take position ++ more)) ∧ position ≤ text.length := by
  have hviable := readAll_viable capacity (start text)
  rw [readAll_of_read hread] at hviable
  obtain ⟨ts, stop, htakes, rfl, hbegins⟩ := hviable
  obtain ⟨taken, front, back, rfl, hcut⟩ := htakes.exists_cut hbegins.isWhole
  refine ⟨hcut.exists_inLanguage hbegins, ?_⟩
  rw [hcut.position_eq, hcut.text_eq, List.length_append]
  exact Nat.le_add_right _ _

/-- A text with a NUL in a quoted text. -/
theorem nulInLiteral_correctPrefix {position : Nat}
    (hread : read capacity text = .error ⟨.nulInLiteral, position⟩) :
    (∃ more, InLanguage (text.take position ++ more)) ∧ position < text.length ∧
      ∀ more, ¬ InLanguage (text.take (position + 1) ++ more) := by
  have hviable := readAll_viable capacity (start text)
  rw [readAll_of_read hread] at hviable
  obtain ⟨ts, stop, htakes, ⟨first, more, hrest⟩, hbegins⟩ := hviable
  obtain ⟨taken, front, back, rfl, hcut⟩ := htakes.exists_cut fun t ht =>
    (hbegins []).isWhole t (List.mem_append_left _ ht)
  obtain ⟨q, body, after, rfl, rfl, hquote, hq, hnul⟩ := hcut.eq_of_quotedNul hrest
  -- the text is what stands before the NUL, the NUL and the rest
  have htext : text = (front ++ q :: body) ++ Byte.nul :: after := by
    rw [hcut.text_eq]
    simp
  have hnext : text.take ((front ++ q :: body).length + 1) = front ++ q :: body ++ [Byte.nul] := by
    rw [htext, List.take_length_add_append]
    simp
  refine ⟨?_, ?_, fun others hother => ?_⟩
  · rw [htext, List.take_left]
    exact hcut.exists_inLanguage_quoted hquote hq hnul (hbegins body)
  · have hlength := congrArg List.length htext
    rw [List.length_append, List.length_cons] at hlength
    omega
  · rw [hnext] at hother
    refine hcut.not_inLanguage_nul hquote hq hnul others ?_
    simpa using hother

/-- A text with a quoted text that is not closed. -/
theorem unterminatedLiteral_correctPrefix {position : Nat}
    (hread : read capacity text = .error ⟨.unterminatedLiteral, position⟩) :
    (∃ more, InLanguage (text.take position ++ more)) ∧
      ∃ q, text[position]? = some q ∧ Byte.isQuote q = true ∧ q ∉ text.drop (position + 1) ∧
        Byte.nul ∉ text.drop (position + 1) := by
  have hviable := readAll_viable capacity (start text)
  rw [readAll_of_read hread] at hviable
  obtain ⟨ts, stop, htakes, ⟨more, hrest⟩, hbegins⟩ := hviable
  obtain ⟨taken, front, back, rfl, hcut⟩ := htakes.exists_cut hbegins.isWhole
  obtain ⟨q, after, rfl, rfl, hquote, hq, hnul⟩ := hcut.eq_of_unclosed hrest
  have hbefore := hcut.exists_inLanguage hbegins
  rw [hcut.position_eq] at hbefore
  have hdrop : text.drop (front.length + 1) = after := by
    rw [hcut.text_eq, List.drop_length_add_append]
    rfl
  refine ⟨hbefore, q, ?_, hquote, ?_, ?_⟩
  · rw [hcut.text_eq, List.getElem?_append_right (Nat.le_refl _), Nat.sub_self]
    rfl
  · rwa [hdrop]
  · rwa [hdrop]

/-- The causes of which a text is wrong, and not too large. -/
theorem cause_of_read {failure : ReadFailure} (hread : read capacity text = .error failure)
    (hkind : failure.cause.kind = .parse) :
    (∃ what, failure.cause = .expected what) ∨ failure.cause = .nulInLiteral ∨
      failure.cause = .unterminatedLiteral := by
  have hviable := readAll_viable capacity (start text)
  rw [readAll_of_read hread] at hviable
  obtain ⟨ts, stop, -, hblames⟩ := hviable
  rcases failure with ⟨cause, position⟩
  cases cause with
  | expected what => exact .inl ⟨what, rfl⟩
  | nulInLiteral => exact .inr (.inl rfl)
  | unterminatedLiteral => exact .inr (.inr rfl)
  | tooManyNodes | textTooLong | nestedTooDeeply => cases hkind
  | refused => exact hblames.elim

theorem detail_ne_unterminated (what : Expected) :
    what.detail ≠ ascii "unterminated string literal" := by
  cases what <;> decide

/-- The report of a wrong text is not cut, whatever the column. -/
theorem message_of_read {failure : ReadFailure} (hread : read capacity text = .error failure)
    (hkind : failure.cause.kind = .parse) (hlength : failure.position < 2 ^ 64) :
    failure.diagnostic.message =
      columnHeading ++ decimal (failure.position + 1) ++ ascii ": " ++ failure.cause.detail := by
  have hfits : failure.cause.detail.length ≤ 147 ∧ Byte.nul ∉ failure.cause.detail := by
    rcases cause_of_read hread hkind with ⟨what, hcause⟩ | hcause | hcause
    · rw [hcause]
      cases what <;> decide
    · rw [hcause]
      decide
    · rw [hcause]
      decide
  exact messageAt_parse (by omega) hfits.1 hfits.2

/-- A text that is reported as wrong is right up to the place that is named, and no
    text of the language goes on with the byte that stands there. Only a quoted text
    without its closing quote is named where it begins. -/
theorem read_error_correctPrefix {capacity : Nat} {text : Bytes} {failure : ReadFailure}
    (hread : read capacity text = .error failure) (hkind : failure.diagnostic.kind = .parse) :
    (∃ more, InLanguage (text.take failure.position ++ more)) ∧
    (failure.cause.detail ≠ ascii "unterminated string literal" →
      (failure.position = text.length ∧ ¬ InLanguage text) ∨
      (failure.position < text.length ∧
        ∀ more, ¬ InLanguage (text.take (failure.position + 1) ++ more))) ∧
    (failure.cause.detail = ascii "unterminated string literal" →
      ∃ q, text[failure.position]? = some q ∧ Byte.isQuote q = true ∧
        q ∉ text.drop (failure.position + 1) ∧ Byte.nul ∉ text.drop (failure.position + 1)) ∧
    (text.length < 2 ^ 64 → failure.diagnostic.message =
      ascii "parse error at column " ++ decimal (failure.position + 1) ++ ascii ": " ++
        failure.cause.detail) := by
  have hwrong := not_inLanguage_of_read hread hkind
  have hmessage := message_of_read hread hkind
  have hcause := cause_of_read hread hkind
  rcases failure with ⟨cause, position⟩
  dsimp only at hcause hmessage ⊢
  rcases hcause with ⟨what, rfl⟩ | rfl | rfl
  · obtain ⟨hbefore, hle⟩ := expected_correctPrefix hread
    refine ⟨hbefore, fun _ => ?_, fun hdetail => ?_, fun hlength => hmessage (by omega)⟩
    · rcases Nat.lt_or_eq_of_le hle with hlt | rfl
      · exact .inr ⟨hlt, not_inLanguage_of_expected hread hlt⟩
      · exact .inl ⟨rfl, hwrong⟩
    · exact absurd hdetail (detail_ne_unterminated what)
  · obtain ⟨hbefore, hlt, hdead⟩ := nulInLiteral_correctPrefix hread
    refine ⟨hbefore, fun _ => .inr ⟨hlt, hdead⟩, fun hdetail => ?_, fun hlength =>
      hmessage (by omega)⟩
    exact absurd hdetail (by decide)
  · obtain ⟨hbefore, q, hq, hopen⟩ := unterminatedLiteral_correctPrefix hread
    obtain ⟨hlt, -⟩ := List.getElem?_eq_some_iff.1 hq
    exact ⟨hbefore, fun hdetail => absurd rfl hdetail, fun _ => ⟨q, hq, hopen⟩, fun hlength =>
      hmessage (by omega)⟩

/-- A brace where a type should be: a name could stand there, and nothing in the
    language goes on with the brace. -/
theorem read_error_correctPrefix_sample :
    ∃ failure, read 8 (ascii "\x7ba:\x7d") = .error failure ∧ failure.position = 3 ∧
      (∃ more, InLanguage (ascii "\x7ba:" ++ more)) ∧
      (∀ more, ¬ InLanguage (ascii "\x7ba:\x7d" ++ more)) ∧
      failure.diagnostic.message = ascii "parse error at column 4: expected a type" := by
  have hread : read 8 (ascii "\x7ba:\x7d") = .error ⟨.expected .type, 3⟩ := by decide +kernel
  obtain ⟨hbefore, hdead, -, hmessage⟩ := read_error_correctPrefix hread rfl
  refine ⟨_, hread, rfl, hbefore, ?_, ?_⟩
  · rcases hdead (by decide) with ⟨hend, -⟩ | ⟨-, hdead⟩
    · exact absurd hend (by decide)
    · exact hdead
  · rw [hmessage (by decide)]
    decide +kernel

end TypeSig.Signature
