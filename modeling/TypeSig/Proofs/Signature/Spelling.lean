/-
  TypeSig.Proofs.Signature.Spelling

  The lexical rules of the signature language, said without a scanner. `Spells`
  relates tokens to the texts that are made of them: blanks may stand anywhere
  between tokens and around them, a name is followed by no byte that would
  lengthen it, a quoted text holds neither its own quote nor a NUL, and a byte
  that begins none of these stands for itself.

  Main statements: the tokens that a text spells are the ones the scanner finds
  (`Spells.tokens_eq`), and what the scanner finds is spelled by the text unless
  a quoted text in it is broken (`spells_tokens`).
-/

import TypeSig.Signature.Token

namespace TypeSig

namespace Byte

/-! ## The beginnings of tokens are told apart by one byte -/

theorem isSpace_of_isNameStart {b : UInt8} (h : isNameStart b = true) : isSpace b = false := by
  rw [Bool.eq_false_iff]
  intro hs
  simp [isNameStart, isLetter, isLower, underscore, dollar, UInt8.le_iff_toNat_le,
    ← UInt8.toNat_inj] at h
  simp [isSpace, UInt8.le_iff_toNat_le, ← UInt8.toNat_inj] at hs
  omega

theorem isSpace_of_isQuote {b : UInt8} (h : isQuote b = true) : isSpace b = false := by
  simp only [isQuote, Bool.or_eq_true, beq_iff_eq] at h
  rcases h with rfl | rfl <;> decide

theorem isNameStart_of_isQuote {b : UInt8} (h : isQuote b = true) : isNameStart b = false := by
  simp only [isQuote, Bool.or_eq_true, beq_iff_eq] at h
  rcases h with rfl | rfl <;> decide

end Byte

/-! ## Texts and their tokens -/

theorem length_pos_of_isName {n : Bytes} (h : isName n = true) : 0 < n.length := by
  cases n with
  | nil => cases h
  | cons b rest => exact Nat.zero_lt_succ _

theorem isNameByte_of_isName {n : Bytes} (h : isName n = true) :
    ∀ b ∈ n, Byte.isNameByte b = true := by
  cases n with
  | nil => cases h
  | cons b rest =>
    rw [isName_cons, Bool.and_eq_true, List.all_eq_true] at h
    exact List.forall_mem_cons.2 ⟨Byte.isNameByte_of_isNameStart h.1, h.2⟩

/-- A token that stands for a part of a text, and not for a broken quoted text. -/
def Token.isWhole : Token → Bool
  | .name _ | .quoted _ | .byte _ => true
  | .quotedNul _ | .unclosed => false

/-- A text that can stand in quotes: without a NUL, and without one of the two
    quotes. -/
structure Quotable (text : Bytes) : Prop where
  nul : Byte.nul ∉ text
  quote : ¬ (Byte.doubleQuote ∈ text ∧ Byte.singleQuote ∈ text)

theorem Quotable.of_isQuote {q : UInt8} {text : Bytes} (hquote : Byte.isQuote q = true)
    (hq : q ∉ text) (hnul : Byte.nul ∉ text) : Quotable text := by
  refine ⟨hnul, fun hboth => ?_⟩
  simp only [Byte.isQuote, Bool.or_eq_true, beq_iff_eq] at hquote
  rcases hquote with rfl | rfl
  · exact hq hboth.1
  · exact hq hboth.2

theorem Quotable.of_isName {text : Bytes} (h : isName text = true) : Quotable text := by
  have hbytes := isNameByte_of_isName h
  constructor
  · intro hnul
    exact absurd (hbytes _ hnul) (by decide)
  · rintro ⟨hdouble, -⟩
    exact absurd (hbytes _ hdouble) (by decide)

/-- What a token holds when a text is made of it. -/
def Token.Proper : Token → Prop
  | .name n => isName n = true
  | .quoted body => Quotable body
  | .byte _ => True
  | .quotedNul _ | .unclosed => False

namespace Signature

/-- The text does not go on with a byte that would lengthen a name. -/
def EndsName (text : Bytes) : Prop :=
  ∀ b ∈ text.head?, Byte.isNameByte b = false

/-- The text is made of these tokens. -/
inductive Spells : List Token → Bytes → Prop
  | nil : Spells [] []
  | blank {b : UInt8} {ts : List Token} {text : Bytes} :
      Byte.isSpace b = true → Spells ts text → Spells ts (b :: text)
  | name {n : Bytes} {ts : List Token} {text : Bytes} :
      isName n = true → EndsName text → Spells ts text → Spells (.name n :: ts) (n ++ text)
  | quoted {q : UInt8} {body : Bytes} {ts : List Token} {text : Bytes} :
      Byte.isQuote q = true → q ∉ body → Byte.nul ∉ body →
      Spells ts text → Spells (.quoted body :: ts) (q :: (body ++ q :: text))
  | byte {b : UInt8} {ts : List Token} {text : Bytes} :
      Byte.isSpace b = false → Byte.isNameStart b = false → Byte.isQuote b = false →
      Spells ts text → Spells (.byte b :: ts) (b :: text)

/-! ## Quoted texts -/

theorem quotedBody_append {q : UInt8} {body : Bytes} (text : Bytes) (hq : q ∉ body)
    (hnul : Byte.nul ∉ body) : quotedBody q (body ++ q :: text) = .closed body := by
  induction body with
  | nil => simp [quotedBody]
  | cons b body ih =>
    simp only [List.mem_cons, not_or] at hq hnul
    simp [quotedBody, Ne.symm hq.1, Ne.symm hnul.1, ih hq.2 hnul.2, QuotedBody.cons]

/-- What stands behind an opening quote that is closed without a NUL before. -/
theorem eq_append_of_quotedBody {q : UInt8} {text body : Bytes}
    (h : quotedBody q text = .closed body) :
    q ∉ body ∧ Byte.nul ∉ body ∧ ∃ rest, text = body ++ q :: rest := by
  induction text generalizing body with
  | nil => simp [quotedBody] at h
  | cons b text ih =>
    simp only [quotedBody] at h
    split at h
    · next hb =>
      -- the text begins with the quote that closes it
      cases h
      exact ⟨List.not_mem_nil, List.not_mem_nil, text, by rw [hb]; rfl⟩
    · next hb =>
      split at h
      · cases h
      · next hnul =>
        cases hrest : quotedBody q text with
        | closed more =>
          rw [hrest] at h
          cases h
          obtain ⟨hq, hn, rest, rfl⟩ := ih hrest
          refine ⟨?_, ?_, rest, rfl⟩
          · simpa using ⟨fun e => hb e.symm, hq⟩
          · simpa using ⟨fun e => hnul e.symm, hn⟩
        | nul => rw [hrest] at h; cases h
        | unclosed => rw [hrest] at h; cases h

/-- A NUL comes before the closing quote. -/
theorem quotedBody_eq_nul_iff {q : UInt8} {text : Bytes} {before : Nat} (hq : q ≠ Byte.nul) :
    quotedBody q text = .nul before ↔
      ∃ body rest, text = body ++ Byte.nul :: rest ∧ body.length = before ∧
        q ∉ body ∧ Byte.nul ∉ body := by
  induction text generalizing before with
  | nil => simp [quotedBody]
  | cons b text ih =>
    simp only [quotedBody]
    constructor
    · intro h
      split at h
      · cases h
      · next hb =>
        split at h
        · next hnul =>
          cases h
          exact ⟨[], text, by rw [hnul]; rfl, rfl, List.not_mem_nil, List.not_mem_nil⟩
        · next hnul =>
          cases hrest : quotedBody q text with
          | closed body => rw [hrest] at h; cases h
          | unclosed => rw [hrest] at h; cases h
          | nul less =>
            rw [hrest] at h
            cases h
            obtain ⟨body, rest, rfl, rfl, hbody, hn⟩ := ih.1 hrest
            refine ⟨b :: body, rest, rfl, rfl, ?_, ?_⟩
            · simpa using ⟨fun e => hb e.symm, hbody⟩
            · simpa using ⟨fun e => hnul e.symm, hn⟩
    · rintro ⟨body, rest, htext, hlen, hbody, hn⟩
      cases body with
      | nil =>
        obtain ⟨rfl, rfl⟩ := List.cons.inj htext
        subst hlen
        simp [Ne.symm hq]
      | cons c body =>
        obtain ⟨rfl, rfl⟩ := List.cons.inj htext
        simp only [List.mem_cons, not_or] at hbody hn
        have hrest : quotedBody q (body ++ Byte.nul :: rest) = .nul body.length :=
          ih.2 ⟨body, rest, rfl, rfl, hbody.2, hn.2⟩
        rw [if_neg (Ne.symm hbody.1), if_neg (Ne.symm hn.1)]
        show (quotedBody q (body ++ Byte.nul :: rest)).cons b = _
        rw [hrest]
        simpa [QuotedBody.cons] using hlen

/-- Neither the quote nor a NUL comes. -/
theorem quotedBody_eq_unclosed_iff {q : UInt8} {text : Bytes} :
    quotedBody q text = .unclosed ↔ q ∉ text ∧ Byte.nul ∉ text := by
  induction text with
  | nil => simp [quotedBody]
  | cons b text ih =>
    rw [List.mem_cons, List.mem_cons, not_or, not_or, quotedBody]
    split
    · next hb => simp [hb]
    · next hb =>
      split
      · next hnul => simp [hnul]
      · next hnul =>
        have hcons : (quotedBody q text).cons b = .unclosed ↔ quotedBody q text = .unclosed := by
          cases quotedBody q text <;> simp [QuotedBody.cons]
        rw [hcons, ih]
        simp [Ne.symm hb, Ne.symm hnul]

/-! ## The scanner finds the tokens of a text -/

/-- The bytes that a token has taken are passed over. -/
theorem tokensFrom_append (taken rest : Bytes) (offset : Nat) :
    tokensFrom taken.length offset (taken ++ rest) =
      tokensFrom 0 (offset + taken.length) rest := by
  induction taken generalizing offset with
  | nil => rfl
  | cons b taken ih =>
    simp only [List.length_cons, List.cons_append, tokensFrom, ih]
    congr 1
    omega

theorem tokensFrom_blank {b : UInt8} (h : Byte.isSpace b = true) (offset : Nat) (text : Bytes) :
    tokensFrom 0 offset (b :: text) = tokensFrom 0 (offset + 1) text := by
  simp [tokensFrom, h]

theorem tokensFrom_blanks {blanks : Bytes} (h : ∀ b ∈ blanks, Byte.isSpace b = true)
    (text : Bytes) : ∀ offset, tokensFrom 0 offset (blanks ++ text) =
      tokensFrom 0 (offset + blanks.length) text := by
  induction blanks with
  | nil => exact fun _ => rfl
  | cons b blanks ih =>
    intro offset
    obtain ⟨hb, hblanks⟩ := List.forall_mem_cons.1 h
    rw [List.cons_append, tokensFrom_blank hb, ih hblanks, List.length_cons, Nat.add_assoc,
      Nat.add_comm 1]

theorem takeWhile_isNameByte_append {more text : Bytes} (hmore : more.all Byte.isNameByte = true)
    (htext : EndsName text) :
    (more ++ text).takeWhile Byte.isNameByte = more := by
  rw [List.takeWhile_append_of_pos (List.all_eq_true.1 hmore)]
  cases text with
  | nil => simp
  | cons b text =>
    -- the first byte behind the name already stops the scan
    simp [htext b rfl]

theorem tokensFrom_name {n text : Bytes} (hn : isName n = true) (htext : EndsName text)
    (offset : Nat) :
    tokensFrom 0 offset (n ++ text) =
      ⟨.name n, offset⟩ :: tokensFrom 0 (offset + n.length) text := by
  cases n with
  | nil => simp at hn
  | cons b more =>
    rw [isName_cons, Bool.and_eq_true] at hn
    have hmore := takeWhile_isNameByte_append hn.2 htext
    simp only [List.cons_append, tokensFrom, Byte.isSpace_of_isNameStart hn.1, hn.1, hmore,
      tokensFrom_append, List.length_cons]
    simp [Nat.add_assoc, Nat.add_comm 1]

theorem tokensFrom_quoted {q : UInt8} {body : Bytes} (text : Bytes) (hquote : Byte.isQuote q = true)
    (hq : q ∉ body) (hnul : Byte.nul ∉ body) (offset : Nat) :
    tokensFrom 0 offset (q :: (body ++ q :: text)) =
      ⟨.quoted body, offset⟩ :: tokensFrom 0 (offset + body.length + 2) text := by
  -- the body and the closing quote are what the token takes behind its first byte
  have hclose : body ++ q :: text = (body ++ [q]) ++ text := by simp
  have hskip := tokensFrom_append (body ++ [q]) text (offset + 1)
  rw [← hclose, List.length_append, List.length_singleton] at hskip
  simp only [tokensFrom, Byte.isSpace_of_isQuote hquote, Byte.isNameStart_of_isQuote hquote,
    hquote, quotedBody_append text hq hnul, hskip]
  simp [Nat.add_assoc, Nat.add_comm 1]

theorem tokensFrom_byte {b : UInt8} (hspace : Byte.isSpace b = false)
    (hname : Byte.isNameStart b = false) (hquote : Byte.isQuote b = false) (offset : Nat)
    (text : Bytes) :
    tokensFrom 0 offset (b :: text) = ⟨.byte b, offset⟩ :: tokensFrom 0 (offset + 1) text := by
  simp [tokensFrom, hspace, hname, hquote]

/-- A NUL in front of the closing quote ends the scan. -/
theorem tokensFrom_quotedNul {q : UInt8} {body : Bytes} (rest : Bytes)
    (hquote : Byte.isQuote q = true) (hq : q ∉ body) (hnul : Byte.nul ∉ body) (offset : Nat) :
    tokensFrom 0 offset (q :: (body ++ Byte.nul :: rest)) =
      [⟨.quotedNul (offset + body.length + 1), offset⟩] := by
  have hne : q ≠ Byte.nul := by
    rintro rfl
    exact absurd hquote (by decide)
  have hbody := (quotedBody_eq_nul_iff hne).2 ⟨body, rest, rfl, rfl, hq, hnul⟩
  simp [tokensFrom, Byte.isSpace_of_isQuote hquote, Byte.isNameStart_of_isQuote hquote, hquote,
    hbody]

theorem tokensFrom_unclosed {q : UInt8} {text : Bytes} (hquote : Byte.isQuote q = true)
    (hq : q ∉ text) (hnul : Byte.nul ∉ text) (offset : Nat) :
    tokensFrom 0 offset (q :: text) = [⟨.unclosed, offset⟩] := by
  have hbody := quotedBody_eq_unclosed_iff.2 ⟨hq, hnul⟩
  simp [tokensFrom, Byte.isSpace_of_isQuote hquote, Byte.isNameStart_of_isQuote hquote, hquote,
    hbody]

/-- What a text that does not begin with a blank begins with, and its tokens from an offset
    on: none, a token and those behind it, or a broken quoted text. -/
inductive FirstToken (offset : Nat) : Bytes → List Lexeme → Prop
  | done : FirstToken offset [] []
  | name {n after : Bytes} : isName n = true → EndsName after →
      FirstToken offset (n ++ after) (⟨.name n, offset⟩ :: tokensFrom 0 (offset + n.length) after)
  | quoted {q : UInt8} {body after : Bytes} :
      Byte.isQuote q = true → q ∉ body → Byte.nul ∉ body →
      FirstToken offset (q :: (body ++ q :: after))
        (⟨.quoted body, offset⟩ :: tokensFrom 0 (offset + body.length + 2) after)
  | quotedNul {q : UInt8} {body after : Bytes} :
      Byte.isQuote q = true → q ∉ body → Byte.nul ∉ body →
      FirstToken offset (q :: (body ++ Byte.nul :: after))
        [⟨.quotedNul (offset + body.length + 1), offset⟩]
  | unclosed {q : UInt8} {after : Bytes} :
      Byte.isQuote q = true → q ∉ after → Byte.nul ∉ after →
      FirstToken offset (q :: after) [⟨.unclosed, offset⟩]
  | byte {b : UInt8} {after : Bytes} :
      Byte.isSpace b = false → Byte.isNameStart b = false → Byte.isQuote b = false →
      FirstToken offset (b :: after) (⟨.byte b, offset⟩ :: tokensFrom 0 (offset + 1) after)

/-- The scanner tells these beginnings apart by the first byte. -/
theorem firstToken_tokensFrom (offset : Nat) (text : Bytes)
    (h : ∀ b ∈ text.head?, Byte.isSpace b = false) :
    FirstToken offset text (tokensFrom 0 offset text) := by
  cases text with
  | nil => exact .done
  | cons b text =>
    have hspace : Byte.isSpace b = false := h b rfl
    by_cases hname : Byte.isNameStart b = true
    -- the name goes on as long as the bytes can continue one
    · have hsplit := List.takeWhile_append_dropWhile (p := Byte.isNameByte) (l := text)
      have hn : isName (b :: text.takeWhile Byte.isNameByte) = true := by
        simp [hname, List.all_takeWhile]
      have hend : EndsName (text.dropWhile Byte.isNameByte) := by
        intro c hc
        have hstop := List.head?_dropWhile_not Byte.isNameByte text
        rw [Option.mem_def.1 hc] at hstop
        simpa using hstop
      have hfirst : FirstToken offset _ _ := .name hn hend
      rwa [← tokensFrom_name hn hend, List.cons_append, hsplit] at hfirst
    rw [Bool.not_eq_true] at hname
    by_cases hquote : Byte.isQuote b = true
    · have hne : b ≠ Byte.nul := by
        rintro rfl
        exact absurd hquote (by decide)
      cases hbody : quotedBody b text with
      | closed body =>
        obtain ⟨hq, hnul, after, rfl⟩ := eq_append_of_quotedBody hbody
        rw [tokensFrom_quoted after hquote hq hnul]
        exact .quoted hquote hq hnul
      | nul before =>
        obtain ⟨body, after, rfl, -, hq, hnul⟩ := (quotedBody_eq_nul_iff hne).1 hbody
        rw [tokensFrom_quotedNul after hquote hq hnul]
        exact .quotedNul hquote hq hnul
      | unclosed =>
        obtain ⟨hq, hnul⟩ := quotedBody_eq_unclosed_iff.1 hbody
        rw [tokensFrom_unclosed hquote hq hnul]
        exact .unclosed hquote hq hnul
    · rw [Bool.not_eq_true] at hquote
      rw [tokensFrom_byte hspace hname hquote]
      exact .byte hspace hname hquote

/-- The scanner finds the tokens that a text is made of, wherever the text begins. -/
theorem Spells.tokensFrom_eq {ts : List Token} {text : Bytes} (h : Spells ts text) :
    ∀ offset, (tokensFrom 0 offset text).map Lexeme.token = ts := by
  induction h with
  | nil => intro offset; rfl
  | blank hb _ ih => intro offset; rw [tokensFrom_blank hb, ih]
  | name hn htext _ ih => intro offset; rw [tokensFrom_name hn htext, List.map_cons, ih]
  | quoted hq hbody hnul _ ih =>
    intro offset
    rw [tokensFrom_quoted _ hq hbody hnul, List.map_cons, ih]
  | byte hs hn hq _ ih => intro offset; rw [tokensFrom_byte hs hn hq, List.map_cons, ih]

/-- The scanner finds the tokens that a text is made of. -/
theorem Spells.tokens_eq {ts : List Token} {text : Bytes} (h : Spells ts text) :
    (tokens text).map Lexeme.token = ts :=
  h.tokensFrom_eq 0

/-! ## A text is made of the tokens that the scanner finds -/

/-- Where the scanner finds no broken quoted text, the text is made of what it
    finds. -/
theorem spells_tokensFrom (text : Bytes) (offset : Nat)
    (h : ∀ l ∈ tokensFrom 0 offset text, l.token.isWhole = true) :
    Spells ((tokensFrom 0 offset text).map Lexeme.token) text := by
  by_cases hblank : ∃ b rest, text = b :: rest ∧ Byte.isSpace b = true
  · obtain ⟨b, rest, rfl, hspace⟩ := hblank
    rw [tokensFrom_blank hspace] at h ⊢
    exact .blank hspace (spells_tokensFrom rest _ h)
  have hhead : ∀ b ∈ text.head?, Byte.isSpace b = false := by
    intro b hb
    obtain ⟨rest, rfl⟩ := List.head?_eq_some_iff.1 hb
    exact Bool.eq_false_iff.2 fun hspace => hblank ⟨b, rest, rfl, hspace⟩
  have hfirst := firstToken_tokensFrom offset text hhead
  generalize tokensFrom 0 offset text = ls at h hfirst
  cases hfirst with
  | done => exact .nil
  | @name n after hn hend =>
    have hpos := length_pos_of_isName hn
    exact .name hn hend (spells_tokensFrom after _ fun l hl => h l (List.mem_cons_of_mem _ hl))
  | @quoted q body after hquote hq hnul =>
    exact .quoted hquote hq hnul
      (spells_tokensFrom after _ fun l hl => h l (List.mem_cons_of_mem _ hl))
  | quotedNul | unclosed => exact absurd (h _ List.mem_cons_self) Bool.false_ne_true
  | @byte b after hspace hname hquote =>
    exact .byte hspace hname hquote
      (spells_tokensFrom after _ fun l hl => h l (List.mem_cons_of_mem _ hl))
termination_by text.length
decreasing_by
  all_goals subst_vars
  all_goals simp only [List.length_append, List.length_cons]
  all_goals omega

/-- A text in which no quoted text is broken is made of the tokens that the
    scanner finds. -/
theorem spells_tokens {text : Bytes} (h : ∀ l ∈ tokens text, l.token.isWhole = true) :
    Spells ((tokens text).map Lexeme.token) text :=
  spells_tokensFrom text 0 h

/-- The tokens of a text hold names and quotable texts. -/
theorem Spells.proper {ts : List Token} {text : Bytes} (h : Spells ts text) :
    ∀ token ∈ ts, token.Proper := by
  induction h with
  | nil => simp
  | blank _ _ ih => exact ih
  | name hn _ _ ih => exact List.forall_mem_cons.2 ⟨hn, ih⟩
  | quoted hquote hq hnul _ ih => exact List.forall_mem_cons.2 ⟨.of_isQuote hquote hq hnul, ih⟩
  | byte _ _ _ _ ih => exact List.forall_mem_cons.2 ⟨trivial, ih⟩

end Signature

end TypeSig
