/-
  TypeSig.Proofs.Signature.Bytewise

  Scanning by offsets. The guarded reader goes through the bytes of a text and the reader
  through its tokens; both stand at the same place when the tokens that are left are those
  of the bytes from the offset on (`Standing`). Where blanks were passed over, the next
  byte tells what the next token is (`Settled.firstToken`).

  Main statements: no step that looks at bytes breaks a guard, and each comes to the place
  that the token ends at (`skipBlanks_apply`, `eat_apply`, `scanName_name` and
  `scanQuoted_quoted` with what they do where there is no such token or a broken one).
-/

import TypeSig.Proofs.Signature.Guarded
import TypeSig.Proofs.Signature.Scan
import TypeSig.Proofs.Signature.Steps

namespace TypeSig.Signature

/-! ## Offsets and tokens -/

variable {text : Bytes} {offset : Nat} {s : Progress}

/-- A reading has come to an offset of a text: the tokens that are left are those from
    there on. -/
structure Standing (text : Bytes) (offset : Nat) (s : Progress) : Prop where
  offset_le : offset ≤ text.length
  rest_eq : s.rest = tokensFrom 0 offset (text.drop offset)
  finish_eq : s.finish = text.length

/-- The same, and no blank comes next. -/
structure Settled (text : Bytes) (offset : Nat) (s : Progress) : Prop
    extends Standing text offset s where
  head : ∀ b ∈ (text.drop offset).head?, Byte.isSpace b = false

/-- Behind some bytes, the tokens are those of the other bytes. -/
theorem Standing.of_drop {taken after : Bytes} (h : Standing text offset s)
    (htext : text.drop offset = taken ++ after) (arena : Arena) :
    Standing text (offset + taken.length)
      ⟨arena, tokensFrom 0 (offset + taken.length) after, s.finish⟩ where
  offset_le := by
    have hlength := congrArg List.length htext
    have hle := h.offset_le
    rw [List.length_drop, List.length_append] at hlength
    omega
  rest_eq := by
    rw [← List.drop_drop, htext, List.drop_left]
  finish_eq := h.finish_eq

theorem Standing.grown (h : Standing text offset s) (arena : Arena) :
    Standing text offset ⟨arena, s.rest, s.finish⟩ :=
  ⟨h.offset_le, h.rest_eq, h.finish_eq⟩

/-- There are no more tokens than bytes. -/
theorem length_tokensFrom_le (text : Bytes) :
    ∀ skip offset, (tokensFrom skip offset text).length ≤ text.length := by
  induction text with
  | nil => exact fun skip _ => by cases skip <;> simp [tokensFrom]
  | cons b rest ih =>
    intro skip offset
    cases skip with
    | succ skip =>
      have hrest := ih skip (offset + 1)
      rw [tokensFrom, List.length_cons]
      omega
    | zero =>
      -- a token is for the byte that it begins with, whatever it takes behind that
      have hrest := fun skip => ih skip (offset + 1)
      rw [tokensFrom, List.length_cons]
      split
      · exact Nat.le_succ_of_le (hrest 0)
      · split
        · exact Nat.succ_le_succ (hrest _)
        · split
          · split
            · exact Nat.succ_le_succ (hrest _)
            · exact Nat.succ_le_succ (Nat.zero_le _)
            · exact Nat.succ_le_succ (Nat.zero_le _)
          · exact Nat.succ_le_succ (hrest 0)

theorem Standing.length_rest_le (h : Standing text offset s) :
    s.rest.length ≤ text.length - offset := by
  rw [h.rest_eq, ← List.length_drop]
  exact length_tokensFrom_le _ 0 offset

namespace Settled

/-- The next byte tells what the next token is. -/
theorem firstToken (h : Settled text offset s) : FirstToken offset (text.drop offset) s.rest :=
  h.rest_eq ▸ firstToken_tokensFrom offset _ h.head

theorem position_eq (h : Settled text offset s) : s.position = offset := by
  have hfirst := h.firstToken
  have hfinish := h.finish_eq
  have hle := h.offset_le
  rcases s with ⟨arena, rest, finish⟩
  generalize hdrop : text.drop offset = bytes at hfirst
  simp only at hfirst hfinish
  cases hfirst with
  | done =>
    have hend := List.drop_eq_nil_iff.1 hdrop
    show finish = offset
    omega
  | _ => rfl

/-- No byte is left where no token is. -/
theorem isEmpty_eq (h : Settled text offset s) :
    (text.drop offset).isEmpty = s.rest.isEmpty := by
  have hfirst := h.firstToken
  generalize text.drop offset = bytes at hfirst
  generalize s.rest = rest at hfirst
  cases hfirst with
  | name hn =>
    have hne := List.ne_nil_of_length_pos (length_pos_of_isName hn)
    simp [hne]
  | _ => rfl

end Settled

/-- A byte that stands for itself wherever it begins a token. -/
def isMark (b : UInt8) : Bool :=
  !Byte.isSpace b && !Byte.isNameStart b && !Byte.isQuote b && b != Byte.nul

theorem sortOf_of_isMark {b : UInt8} (h : isMark b = true) : sortOf b = .byte b := by
  simp only [isMark, Bool.and_eq_true, Bool.not_eq_true'] at h
  simp [sortOf, h.1.1.2, h.1.2]

theorem ne_nul_of_isMark {b : UInt8} (h : isMark b = true) : b ≠ Byte.nul := by
  rintro rfl
  cases h

namespace Settled

variable {b : UInt8}

/-- A mark is the next token if it is the next byte. -/
theorem head?_eq_iff (h : Settled text offset s) (hb : isMark b = true) :
    s.tokens.head? = some (.byte b) ↔ (text.drop offset).head? = some b := by
  rw [Progress.tokens, h.rest_eq]
  cases hdrop : text.drop offset with
  | nil => simp [tokensFrom]
  | cons c after =>
    have hc : Byte.isSpace c = false := h.head c (by rw [hdrop]; rfl)
    -- only a byte that begins neither a name nor a quoted text is of a sort of its own
    obtain ⟨token, more, htokens, hsort⟩ := exists_tokensFrom_eq_cons hc offset after
    simp only [htokens, List.map_cons, List.head?_cons, Option.some.injEq]
    constructor
    · rintro rfl
      have hbyte : TokenSort.byte b = sortOf c := hsort
      unfold sortOf at hbyte
      split at hbyte
      · cases hbyte
      · split at hbyte
        · cases hbyte
        · exact (TokenSort.byte.inj hbyte).symm
    · rintro rfl
      rw [sortOf_of_isMark hb] at hsort
      cases token with
      | byte d => rw [Token.sort, TokenSort.byte.injEq] at hsort; rw [hsort]
      | _ => cases hsort

/-- Behind a mark. -/
theorem skip (h : Settled text offset s) (hb : isMark b = true)
    (hhead : s.tokens.head? = some (.byte b)) : Standing text (offset + 1) s.skip := by
  obtain ⟨after, hdrop⟩ := List.head?_eq_some_iff.1 ((h.head?_eq_iff hb).1 hhead)
  have hbyte : tokensFrom 0 offset (b :: after) =
      ⟨.byte b, offset⟩ :: tokensFrom 0 (offset + 1) after := by
    simp only [isMark, Bool.and_eq_true, Bool.not_eq_true'] at hb
    exact tokensFrom_byte hb.1.1.1 hb.1.1.2 hb.1.2 offset after
  have hfirst : text.drop offset = [b] ++ after := hdrop
  have hbehind := h.of_drop hfirst s.arena
  have hskip : s.skip = ⟨s.arena, tokensFrom 0 (offset + 1) after, s.finish⟩ := by
    rw [Progress.skip, h.rest_eq, hdrop, hbyte, List.tail_cons]
  rwa [hskip]

end Settled

namespace Guarded

/-! ## Single steps -/

section

variable {α β : Type} {c : Cursor}

theorem bind_apply (m : Guarded α) (f : α → Guarded β) (c : Cursor) :
    (m >>= f) c = match m c with
      | none => none
      | some (none, d) => some (none, d)
      | some (some x, d) => f x d := rfl

@[simp] theorem pure_apply (x : α) (c : Cursor) :
    (pure x : Guarded α) c = some (some x, c) := rfl

/-- A step with an answer is followed by what comes next. -/
theorem bind_of_eq {m : Guarded α} {x : α} {d : Cursor} (h : m c = some (some x, d))
    (k : α → Guarded β) : (m >>= k) c = k x d := by
  rw [bind_apply, h]

@[simp] theorem look_bind (f : Cursor → α) (k : α → Guarded β) (c : Cursor) :
    (look f >>= k) c = k (f c) c := rfl

@[simp] theorem keep_bind (arena : Arena) (k : Unit → Guarded β) (c : Cursor) :
    (keep arena >>= k) c = k () { c with arena := arena } := rfl

@[simp] theorem hasFailed_bind (k : Bool → Guarded β) (c : Cursor) :
    (hasFailed >>= k) c = k c.failure.isSome c := rfl

@[simp] theorem advance_bind (k : Unit → Guarded β) (c : Cursor) :
    (advance >>= k) c = k () { c with offset := c.offset + 1 } := rfl

theorem check_bind {p : Cursor → Bool} (h : p c = true) (k : Unit → Guarded β) :
    (check p >>= k) c = k () c := by
  simp [bind_apply, check, h]

/-- Nothing is left behind the last byte. -/
theorem atEnd_bind (k : Bool → Guarded β) (c : Cursor) :
    (atEnd >>= k) c = k (c.text.drop c.offset).isEmpty c := by
  have hend : decide (c.text.length ≤ c.offset) = (c.text.drop c.offset).isEmpty := by
    rw [Bool.eq_iff_iff, decide_eq_true_iff, List.isEmpty_iff, List.drop_eq_nil_iff]
  rw [atEnd, look_bind, hend]

/-- A byte that is left can be looked at. -/
theorem current_apply {b : UInt8} {after : Bytes} (h : c.text.drop c.offset = b :: after) :
    current c = some (some b, c) := by
  have hbyte : c.text[c.offset]? = some b := by
    rw [← List.head?_drop, h]
    rfl
  rw [current, hbyte]
  rfl

theorem current_bind {b : UInt8} {after : Bytes} (h : c.text.drop c.offset = b :: after)
    (k : UInt8 → Guarded β) : (current >>= k) c = k b c :=
  bind_of_eq (current_apply h) k

theorem peek_bind (k : UInt8 → Guarded β) (c : Cursor) :
    (peek >>= k) c = k ((c.text.drop c.offset).headD Byte.nul) c := by
  have hpeek : peek c = some (some ((c.text.drop c.offset).headD Byte.nul), c) := by
    rw [peek, atEnd_bind]
    cases hdrop : c.text.drop c.offset with
    | nil => rfl
    | cons b after => exact current_apply hdrop
  exact bind_of_eq hpeek k

theorem rounds_bind (k : Nat → Guarded β) (c : Cursor) :
    (rounds >>= k) c = k ((c.text.drop c.offset).length + 1) c := by
  rw [rounds, look_bind, List.length_drop]

/-- The bytes between two offsets of the text. -/
theorem slice_bind {start : Nat} {taken after : Bytes} (htext : c.text.drop start = taken ++ after)
    (hstart : start ≤ c.text.length) (hoffset : c.offset = start + taken.length)
    (k : Bytes → Guarded β) : (slice start >>= k) c = k taken c := by
  have hlength := congrArg List.length htext
  rw [List.length_drop, List.length_append] at hlength
  have hslice : slice start c = some (some taken, c) := by
    rw [slice, check_bind (decide_eq_true (by omega))]
    have htake : (c.text.drop start).take (c.offset - start) = taken := by
      rw [htext, hoffset, Nat.add_sub_cancel_left, List.take_left]
    exact congrArg (fun bytes => some (some bytes, c)) htake
  exact bind_of_eq hslice k

end

/-! ## Loops over bytes -/

variable {arena : Arena} {failure : Option ReadFailure}

/-- The bytes of a sort are passed over, one in each round. -/
theorem skipWhile_apply {p : UInt8 → Bool} {taken after : Bytes}
    (htaken : ∀ b ∈ taken, p b = true) (hafter : ∀ b ∈ after.head?, p b = false) :
    ∀ {offset rounds : Nat}, text.drop offset = taken ++ after → taken.length < rounds →
      skipWhile p rounds ⟨text, offset, arena, failure⟩ =
        some (some (), ⟨text, offset + taken.length, arena, failure⟩) := by
  induction taken with
  | nil =>
    intro offset rounds htext hrounds
    obtain ⟨rounds, rfl⟩ := Nat.exists_eq_add_of_lt hrounds
    -- one round is left to see the end, or a byte of another sort
    rw [List.length_nil, Nat.zero_add, skipWhile, atEnd_bind]
    simp only [htext, List.nil_append]
    cases after with
    | nil => rfl
    | cons b after =>
      simp only [List.isEmpty_cons, Bool.false_eq_true, if_false]
      rw [current_bind (by exact htext), hafter b rfl]
      rfl
  | cons b taken ih =>
    intro offset rounds htext hrounds
    obtain ⟨hb, htaken⟩ := List.forall_mem_cons.1 htaken
    obtain ⟨rounds, rfl⟩ := Nat.exists_eq_add_of_lt hrounds
    have hnext : text.drop (offset + 1) = taken ++ after := by
      rw [← List.drop_drop, htext]
      rfl
    rw [skipWhile, atEnd_bind]
    simp only [htext, List.cons_append, List.isEmpty_cons, Bool.false_eq_true, if_false]
    rw [current_bind (by exact htext)]
    simp only [hb, if_true, advance_bind]
    rw [ih htaken hnext (by rw [List.length_cons]; omega), List.length_cons, Nat.add_right_comm,
      Nat.add_assoc]

/-- Where blanks may stand they are passed over, and then the next byte is none. -/
theorem skipBlanks_apply (arena : Arena) (failure : Option ReadFailure)
    (h : Standing text offset s) : ∃ next, Settled text next s ∧
    skipBlanks ⟨text, offset, arena, failure⟩ = some (some (), ⟨text, next, arena, failure⟩) := by
  have hsplit : text.drop offset = (text.drop offset).takeWhile Byte.isSpace ++
      (text.drop offset).dropWhile Byte.isSpace := List.takeWhile_append_dropWhile.symm
  generalize hblanks : (text.drop offset).takeWhile Byte.isSpace = blanks at hsplit
  generalize hafter : (text.drop offset).dropWhile Byte.isSpace = after at hsplit
  have hspace : ∀ b ∈ blanks, Byte.isSpace b = true := by
    rw [← hblanks]
    exact List.all_eq_true.1 List.all_takeWhile
  have hstop : ∀ b ∈ after.head?, Byte.isSpace b = false := by
    intro b hb
    have hnot := List.head?_dropWhile_not Byte.isSpace (text.drop offset)
    rw [hafter, Option.mem_def.1 hb] at hnot
    simpa using hnot
  have hdrop : text.drop (offset + blanks.length) = after := by
    rw [← List.drop_drop, hsplit, List.drop_left]
  -- blanks give no tokens, so what is left stays the same
  have hrest : s.rest = tokensFrom 0 (offset + blanks.length) after := by
    rw [h.rest_eq, hsplit, tokensFrom_blanks hspace]
  have hlength := congrArg List.length hsplit
  rw [List.length_drop, List.length_append] at hlength
  have hle := h.offset_le
  refine ⟨offset + blanks.length, ⟨⟨by omega, by rw [hdrop, hrest], h.finish_eq⟩, ?_⟩, ?_⟩
  · rw [hdrop]
    exact hstop
  · rw [skipBlanks, rounds_bind]
    refine skipWhile_apply hspace hstop hsplit ?_
    simp only [List.length_drop]
    omega

/-- The next token begins inside the text, or else the text ends there. -/
theorem position_le (h : Standing text offset s) : s.position ≤ text.length := by
  obtain ⟨next, hnext, -⟩ := skipBlanks_apply .empty none h
  rw [hnext.position_eq]
  exact hnext.offset_le

/-- A byte is taken if it comes next. -/
theorem eat_apply {b : UInt8} (hb : b ≠ Byte.nul) (c : Cursor) :
    eat b c = if (c.text.drop c.offset).head? = some b then
      some (some true, { c with offset := c.offset + 1 }) else some (some false, c) := by
  rw [eat, peek_bind]
  cases hdrop : c.text.drop c.offset with
  | nil => simp [Ne.symm hb]
  | cons d after =>
    by_cases hd : d = b
    · simp [hd]
    · simp [hd]

/-! ## Names and quoted texts -/

section

variable {n body after : Bytes} {q : UInt8}

theorem scanName_of_isName (hle : offset ≤ text.length) (hdrop : text.drop offset = n ++ after)
    (hn : isName n = true) (hafter : EndsName after) :
    scanName ⟨text, offset, arena, failure⟩ =
      some (some (some n), ⟨text, offset + n.length, arena, failure⟩) := by
  have hrun : skipWhile Byte.isNameByte ((n ++ after).length + 1) ⟨text, offset, arena, failure⟩ =
      some (some (), ⟨text, offset + n.length, arena, failure⟩) :=
    skipWhile_apply (isNameByte_of_isName hn) hafter hdrop
      (by rw [List.length_append]; omega)
  cases n with
  | nil => cases hn
  | cons b more =>
    have hb : Byte.isNameStart b = true := by
      rw [isName_cons, Bool.and_eq_true] at hn
      exact hn.1
    rw [scanName, look_bind, peek_bind]
    simp only [hdrop, List.cons_append, List.headD_cons, hb, if_true]
    rw [rounds_bind]
    simp only [hdrop]
    rw [bind_of_eq hrun, slice_bind hdrop hle rfl]
    rfl

theorem scanName_of_head (h : ∀ b ∈ (text.drop offset).head?, Byte.isNameStart b = false) :
    scanName ⟨text, offset, arena, failure⟩ =
      some (some none, ⟨text, offset, arena, failure⟩) := by
  have hstart : Byte.isNameStart ((text.drop offset).headD Byte.nul) = false := by
    cases hdrop : text.drop offset with
    | nil => rfl
    | cons b after => exact h b (by rw [hdrop]; rfl)
  rw [scanName, look_bind, peek_bind]
  simp only [hstart]
  rfl

/-- The bytes inside a quoted text are passed over, one in each round. -/
theorem scanBody_append (hq : q ∉ body) (hnul : Byte.nul ∉ body) :
    ∀ {offset : Nat} (rounds : Nat), text.drop offset = body ++ after →
      scanBody q (rounds + body.length) ⟨text, offset, arena, failure⟩ =
        scanBody q rounds ⟨text, offset + body.length, arena, failure⟩ := by
  induction body with
  | nil => exact fun _ _ => rfl
  | cons b body ih =>
    intro offset rounds hdrop
    simp only [List.mem_cons, not_or] at hq hnul
    have hnext : text.drop (offset + 1) = body ++ after := by
      rw [← List.drop_drop, hdrop]
      rfl
    rw [List.length_cons, ← Nat.add_assoc, scanBody, atEnd_bind]
    simp only [hdrop, List.cons_append, List.isEmpty_cons, Bool.false_eq_true, if_false]
    rw [current_bind (by exact hdrop), if_neg (Ne.symm hq.1), current_bind (by exact hdrop),
      if_neg (Ne.symm hnul.1), advance_bind]
    rw [ih hq.2 hnul.2 rounds hnext, Nat.add_assoc, Nat.add_comm 1]

/-- The body of a quoted text ends in front of the closing quote. -/
theorem scanBody_closed (hdrop : text.drop offset = body ++ q :: after) (hq : q ∉ body)
    (hnul : Byte.nul ∉ body) :
    scanBody q ((text.drop offset).length + 1) ⟨text, offset, arena, failure⟩ =
      some (some true, ⟨text, offset + body.length, arena, failure⟩) := by
  have hend : text.drop (offset + body.length) = q :: after := by
    rw [← List.drop_drop, hdrop, List.drop_left]
  -- a round for each byte of the body leaves one to see the quote
  have hrounds : (body ++ q :: after).length + 1 = after.length + 1 + 1 + body.length := by
    simp only [List.length_append, List.length_cons]
    omega
  rw [hdrop, hrounds, scanBody_append hq hnul _ hdrop, scanBody, atEnd_bind]
  simp only [hend, List.isEmpty_cons, Bool.false_eq_true, if_false]
  rw [current_bind (by exact hend), if_pos rfl]
  rfl

/-- It also ends in front of a NUL, which is a failure. -/
theorem scanBody_nul (hdrop : text.drop offset = body ++ Byte.nul :: after) (hq : q ∉ body)
    (hnul : Byte.nul ∉ body) (hne : q ≠ Byte.nul) :
    scanBody q ((text.drop offset).length + 1) ⟨text, offset, arena, none⟩ =
      some (some false, ⟨text, offset + body.length, arena,
        some ⟨.nulInLiteral, offset + body.length⟩⟩) := by
  have hend : text.drop (offset + body.length) = Byte.nul :: after := by
    rw [← List.drop_drop, hdrop, List.drop_left]
  have hrounds : (body ++ Byte.nul :: after).length + 1 = after.length + 1 + 1 + body.length := by
    simp only [List.length_append, List.length_cons]
    omega
  rw [hdrop, hrounds, scanBody_append hq hnul _ hdrop, scanBody, atEnd_bind]
  simp only [hend, List.isEmpty_cons, Bool.false_eq_true, if_false]
  rw [current_bind (by exact hend), if_neg (Ne.symm hne), current_bind (by exact hend), if_pos rfl]
  rfl

/-- And it ends where the text ends. -/
theorem scanBody_unclosed (hdrop : text.drop offset = body) (hq : q ∉ body)
    (hnul : Byte.nul ∉ body) :
    scanBody q ((text.drop offset).length + 1) ⟨text, offset, arena, failure⟩ =
      some (some true, ⟨text, offset + body.length, arena, failure⟩) := by
  have hend : text.drop (offset + body.length) = [] := by
    rw [← List.drop_drop, hdrop, List.drop_length]
  have hwhole : text.drop offset = body ++ [] := hdrop.trans (List.append_nil body).symm
  rw [hdrop, Nat.add_comm, scanBody_append hq hnul _ hwhole, scanBody, atEnd_bind]
  simp only [hend, List.isEmpty_nil, if_true]
  rfl

theorem scanQuoted_closed (hle : offset ≤ text.length)
    (hdrop : text.drop offset = q :: (body ++ q :: after)) (hquote : Byte.isQuote q = true)
    (hq : q ∉ body) (hnul : Byte.nul ∉ body) :
    scanQuoted ⟨text, offset, arena, failure⟩ =
      some (some (some body), ⟨text, offset + 1 + body.length + 1, arena, failure⟩) := by
  have hinside : text.drop (offset + 1) = body ++ q :: after := by
    rw [← List.drop_drop, hdrop]
    rfl
  have hend : text.drop (offset + 1 + body.length) = q :: after := by
    rw [← List.drop_drop, hinside, List.drop_left]
  have hlt : offset + 1 ≤ text.length := by
    have hlength := congrArg List.length hdrop
    rw [List.length_drop, List.length_cons] at hlength
    omega
  rw [scanQuoted, peek_bind]
  simp only [hdrop, List.headD_cons, hquote, if_true, look_bind, advance_bind]
  rw [rounds_bind, bind_of_eq (scanBody_closed hinside hq hnul)]
  simp only [if_true]
  rw [atEnd_bind]
  simp only [hend, List.isEmpty_cons, Bool.false_eq_true, if_false]
  rw [slice_bind hinside hlt rfl]
  rfl

theorem scanQuoted_nul (hdrop : text.drop offset = q :: (body ++ Byte.nul :: after))
    (hquote : Byte.isQuote q = true) (hq : q ∉ body) (hnul : Byte.nul ∉ body) :
    scanQuoted ⟨text, offset, arena, none⟩ =
      some (some none, ⟨text, offset + 1 + body.length, arena,
        some ⟨.nulInLiteral, offset + 1 + body.length⟩⟩) := by
  have hinside : text.drop (offset + 1) = body ++ Byte.nul :: after := by
    rw [← List.drop_drop, hdrop]
    rfl
  have hne : q ≠ Byte.nul := by
    rintro rfl
    exact absurd hquote (by decide)
  rw [scanQuoted, peek_bind]
  simp only [hdrop, List.headD_cons, hquote, if_true, look_bind, advance_bind]
  rw [rounds_bind, bind_of_eq (scanBody_nul hinside hq hnul hne)]
  rfl

theorem scanQuoted_unclosed (hdrop : text.drop offset = q :: body)
    (hquote : Byte.isQuote q = true) (hq : q ∉ body) (hnul : Byte.nul ∉ body) :
    scanQuoted ⟨text, offset, arena, none⟩ =
      some (some none, ⟨text, offset, arena, some ⟨.unterminatedLiteral, offset⟩⟩) := by
  have hinside : text.drop (offset + 1) = body := by
    rw [← List.drop_drop, hdrop]
    rfl
  have hend : text.drop (offset + 1 + body.length) = [] := by
    rw [← List.drop_drop, hinside, List.drop_length]
  rw [scanQuoted, peek_bind]
  simp only [hdrop, List.headD_cons, hquote, if_true, look_bind, advance_bind]
  rw [rounds_bind, bind_of_eq (scanBody_unclosed hinside hq hnul)]
  simp only [if_true]
  rw [atEnd_bind]
  simp only [hend, List.isEmpty_nil, if_true]
  rfl

theorem scanQuoted_of_head (h : ∀ b ∈ (text.drop offset).head?, Byte.isQuote b = false) :
    scanQuoted ⟨text, offset, arena, failure⟩ =
      some (some none, ⟨text, offset, arena, failure⟩) := by
  have hstart : Byte.isQuote ((text.drop offset).headD Byte.nul) = false := by
    cases hdrop : text.drop offset with
    | nil => rfl
    | cons b after => exact h b (by rw [hdrop]; rfl)
  rw [scanQuoted, peek_bind]
  simp only [hstart]
  rfl

end

end Guarded

/-! ## What comes next -/

namespace Settled

variable {b : UInt8} {n body : Bytes} {start finish : Nat} {rest : List Lexeme} {arena : Arena}
  {failure : Option ReadFailure}

theorem headD_eq_iff (h : Settled text offset s) (hb : isMark b = true) :
    (text.drop offset).headD Byte.nul = b ↔ s.tokens.head? = some (.byte b) := by
  rw [h.head?_eq_iff hb]
  cases text.drop offset with
  | nil => simp [Ne.symm (ne_nul_of_isMark hb)]
  | cons c after => simp

theorem eat_of_head (h : Settled text offset s) (hb : isMark b = true)
    (hhead : s.tokens.head? = some (.byte b)) :
    Guarded.eat b ⟨text, offset, arena, failure⟩ =
      some (some true, ⟨text, offset + 1, arena, failure⟩) := by
  rw [Guarded.eat_apply (ne_nul_of_isMark hb), if_pos ((h.head?_eq_iff hb).1 hhead)]

theorem eat_of_head_ne (h : Settled text offset s) (hb : isMark b = true)
    (hhead : s.tokens.head? ≠ some (.byte b)) :
    Guarded.eat b ⟨text, offset, arena, failure⟩ =
      some (some false, ⟨text, offset, arena, failure⟩) := by
  rw [Guarded.eat_apply (ne_nul_of_isMark hb), if_neg (mt (h.head?_eq_iff hb).2 hhead)]

/-- A mark that may be there. -/
theorem eat_mark (h : Settled text offset s) (hb : isMark b = true) :
    ∃ next, Standing text next ((s.eat? b).getD s) ∧
      Guarded.eat b ⟨text, offset, arena, failure⟩ =
        some (some (s.nextIs b), ⟨text, next, arena, failure⟩) := by
  by_cases hhead : s.tokens.head? = some (.byte b)
  · refine ⟨offset + 1, ?_, ?_⟩
    · rw [Progress.eat?_of_head hhead]
      exact h.skip hb hhead
    · rw [h.eat_of_head hb hhead, Progress.nextIs_eq, hhead, beq_self_eq_true]
  · refine ⟨offset, ?_, ?_⟩
    · rw [Progress.eat?_of_head_ne hhead]
      exact h.toStanding
    · rw [h.eat_of_head_ne hb hhead, Progress.nextIs_eq, beq_eq_false_iff_ne.2 hhead]

theorem scanName_name (h : Settled text offset ⟨arena, ⟨.name n, start⟩ :: rest, finish⟩) :
    ∃ next, Standing text next ⟨arena, rest, finish⟩ ∧
      Guarded.scanName ⟨text, offset, arena, failure⟩ =
        some (some (some n), ⟨text, next, arena, failure⟩) := by
  have hfirst := h.firstToken
  generalize hdrop : text.drop offset = bytes at hfirst
  cases hfirst with
  | name hn hend =>
    exact ⟨_, h.of_drop hdrop arena, Guarded.scanName_of_isName h.offset_le hdrop hn hend⟩

theorem scanName_none (h : Settled text offset s) (hhead : ∀ n, s.tokens.head? ≠ some (.name n)) :
    Guarded.scanName ⟨text, offset, arena, failure⟩ =
      some (some none, ⟨text, offset, arena, failure⟩) := by
  refine Guarded.scanName_of_head fun b hb => ?_
  have hfirst := h.firstToken
  rcases s with ⟨_, rest, _⟩
  generalize text.drop offset = bytes at hfirst hb
  cases hfirst with
  | done => cases hb
  | name => exact absurd rfl (hhead _)
  | quoted hquote | quotedNul hquote | unclosed hquote =>
    cases hb
    exact Byte.isNameStart_of_isQuote hquote
  | byte _ hname =>
    cases hb
    exact hname

theorem scanQuoted_quoted (h : Settled text offset ⟨arena, ⟨.quoted body, start⟩ :: rest, finish⟩) :
    ∃ next, Standing text next ⟨arena, rest, finish⟩ ∧
      Guarded.scanQuoted ⟨text, offset, arena, failure⟩ =
        some (some (some body), ⟨text, next, arena, failure⟩) := by
  have hfirst := h.firstToken
  generalize hdrop : text.drop offset = bytes at hfirst
  cases hfirst with
  | @quoted q _ after hquote hq hnul =>
    have hwhole : text.drop offset = q :: (body ++ [q]) ++ after := by simp [hdrop]
    have hbehind := h.of_drop hwhole arena
    have hlength : offset + (q :: (body ++ [q])).length = offset + body.length + 2 := by
      simp only [List.length_cons, List.length_append, List.length_nil]
      omega
    -- both quotes belong to the token
    rw [hlength] at hbehind
    refine ⟨_, hbehind, ?_⟩
    rw [Guarded.scanQuoted_closed h.offset_le hdrop hquote hq hnul, Nat.add_right_comm offset 1]

theorem scanQuoted_nul {nul : Nat}
    (h : Settled text offset ⟨arena, ⟨.quotedNul nul, start⟩ :: rest, finish⟩) :
    nul ≤ text.length ∧ Guarded.scanQuoted ⟨text, offset, arena, none⟩ =
      some (some none, ⟨text, nul, arena, some ⟨.nulInLiteral, nul⟩⟩) := by
  have hfirst := h.firstToken
  generalize hdrop : text.drop offset = bytes at hfirst
  cases hfirst with
  | quotedNul hquote hq hnul =>
    have hlength := congrArg List.length hdrop
    simp only [List.length_drop, List.length_cons, List.length_append] at hlength
    refine ⟨by omega, ?_⟩
    rw [Guarded.scanQuoted_nul hdrop hquote hq hnul, Nat.add_right_comm]

theorem scanQuoted_unclosed
    (h : Settled text offset ⟨arena, ⟨.unclosed, start⟩ :: rest, finish⟩) :
    Guarded.scanQuoted ⟨text, offset, arena, none⟩ =
      some (some none, ⟨text, offset, arena, some ⟨.unterminatedLiteral, offset⟩⟩) := by
  have hfirst := h.firstToken
  generalize hdrop : text.drop offset = bytes at hfirst
  cases hfirst with
  | unclosed hquote hq hnul => exact Guarded.scanQuoted_unclosed hdrop hquote hq hnul

theorem scanQuoted_none (h : Settled text offset s)
    (hhead : ∀ token, s.tokens.head? = some token → token.sort ≠ .quoted) :
    Guarded.scanQuoted ⟨text, offset, arena, failure⟩ =
      some (some none, ⟨text, offset, arena, failure⟩) := by
  refine Guarded.scanQuoted_of_head fun b hb => ?_
  have hfirst := h.firstToken
  rcases s with ⟨_, rest, _⟩
  generalize text.drop offset = bytes at hfirst hb
  cases hfirst with
  | done => cases hb
  | @name n after hn _ =>
    cases n with
    | nil => cases hn
    | cons c n =>
      cases hb
      rw [isName_cons, Bool.and_eq_true] at hn
      rw [← Bool.not_eq_true]
      intro hquote
      rw [Byte.isNameStart_of_isQuote hquote] at hn
      exact Bool.false_ne_true hn.1
  | quoted | quotedNul | unclosed => exact absurd rfl (hhead _ rfl)
  | byte _ _ hquote =>
    cases hb
    exact hquote

end Settled

namespace Guarded

variable {arena : Arena} {failure : Option ReadFailure} {name : Bytes}

/-- The angle bracket is found behind blanks, where the reading then stands. -/
theorem opensArray_of_head (h : Standing text offset s) (hname : name = arrayName)
    (hhead : s.tokens.head? = some (.byte Byte.openAngle)) :
    ∃ next, Settled text next s ∧ opensArray name ⟨text, offset, arena, failure⟩ =
      some (some true, ⟨text, next, arena, failure⟩) := by
  obtain ⟨next, hnext, hrun⟩ := skipBlanks_apply arena failure h
  have hangle := (hnext.headD_eq_iff (by decide)).2 hhead
  refine ⟨next, hnext, ?_⟩
  rw [opensArray, if_pos hname, look_bind, bind_of_eq hrun, peek_bind]
  simp only [hangle, if_true]
  rfl

theorem opensArray_of_head_ne (h : Standing text offset s)
    (hne : ¬ (name = arrayName ∧ s.tokens.head? = some (.byte Byte.openAngle))) :
    opensArray name ⟨text, offset, arena, failure⟩ =
      some (some false, ⟨text, offset, arena, failure⟩) := by
  by_cases hname : name = arrayName
  · obtain ⟨next, hnext, hrun⟩ := skipBlanks_apply arena failure h
    have hangle : (text.drop next).headD Byte.nul ≠ Byte.openAngle := fun hhead =>
      hne ⟨hname, (hnext.headD_eq_iff (by decide)).1 hhead⟩
    rw [opensArray, if_pos hname, look_bind, bind_of_eq hrun, peek_bind]
    simp only [hangle, if_false]
    rfl
  · rw [opensArray, if_neg hname]
    rfl

end Guarded

end TypeSig.Signature
