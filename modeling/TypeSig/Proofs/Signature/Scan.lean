/-
  TypeSig.Proofs.Signature.Scan

  Scanning the front of a text. `Scans` relates the tokens at the beginning of a
  text to the bytes that they take, with the bytes behind them in view, since a
  name is over only where the text does not go on with it. What stands further
  behind is free: the same front in front of another text that begins with the
  same byte, or with no byte of a name, gives the same tokens (`Scans.congr`).

  Main statement: wherever the scanner's tokens are cut in two, the text is cut
  in two with them, and the second part begins with its first token
  (`exists_scans`). A broken quoted text is always the last token
  (`isWhole_of_tokensFrom_eq`), and how it is broken shows in the bytes.
-/

import TypeSig.Proofs.Signature.Spelling
import Mathlib.Data.List.Induction

namespace TypeSig

/-! ## Sorts of tokens -/

/-- What the first byte of a token tells: a name, a quoted text, broken or not, or
    a byte that stands for itself. -/
inductive TokenSort
  | name
  | quoted
  | byte (b : UInt8)
  deriving DecidableEq

def Token.sort : Token → TokenSort
  | .name _ => .name
  | .quoted _ | .quotedNul _ | .unclosed => .quoted
  | .byte b => .byte b

namespace Signature

/-! ## The front of a text -/

/-- At an offset, the text in front gives these tokens when the other text stands
    behind it. -/
inductive Scans : Nat → List Lexeme → Bytes → Bytes → Prop
  | done {offset : Nat} {back : Bytes} : Scans offset [] [] back
  | blank {offset : Nat} {ls : List Lexeme} {b : UInt8} {front back : Bytes} :
      Byte.isSpace b = true → Scans (offset + 1) ls front back →
      Scans offset ls (b :: front) back
  | name {offset : Nat} {ls : List Lexeme} {n front back : Bytes} :
      isName n = true → EndsName (front ++ back) → Scans (offset + n.length) ls front back →
      Scans offset (⟨.name n, offset⟩ :: ls) (n ++ front) back
  | quoted {offset : Nat} {ls : List Lexeme} {q : UInt8} {body front back : Bytes} :
      Byte.isQuote q = true → q ∉ body → Byte.nul ∉ body →
      Scans (offset + body.length + 2) ls front back →
      Scans offset (⟨.quoted body, offset⟩ :: ls) (q :: (body ++ q :: front)) back
  | byte {offset : Nat} {ls : List Lexeme} {b : UInt8} {front back : Bytes} :
      Byte.isSpace b = false → Byte.isNameStart b = false → Byte.isQuote b = false →
      Scans (offset + 1) ls front back →
      Scans offset (⟨.byte b, offset⟩ :: ls) (b :: front) back

variable {offset : Nat} {ls : List Lexeme} {front back after : Bytes}

/-- The scanner finds these tokens and goes on behind them. -/
theorem Scans.tokensFrom_eq (h : Scans offset ls front back) :
    tokensFrom 0 offset (front ++ back) = ls ++ tokensFrom 0 (offset + front.length) back := by
  induction h with
  | done => rfl
  | blank hb _ ih =>
    rw [List.cons_append, tokensFrom_blank hb, ih, List.length_cons]
    congr 2
    omega
  | name hn hend _ ih =>
    rw [List.append_assoc, tokensFrom_name hn hend, ih, List.cons_append, List.length_append,
      Nat.add_assoc]
  | @quoted offset ls q body front back hquote hq hnul _ ih =>
    have hsplit : q :: (body ++ q :: front) ++ back = q :: (body ++ q :: (front ++ back)) := by
      simp
    rw [hsplit, tokensFrom_quoted _ hquote hq hnul, ih, List.cons_append]
    congr 3
    simp only [List.length_cons, List.length_append]
    omega
  | byte hs hn hq _ ih =>
    rw [List.cons_append, tokensFrom_byte hs hn hq, ih, List.cons_append, List.length_cons]
    congr 3
    omega

/-- A text that spells tokens goes on spelling them behind these. -/
theorem Scans.spells {ts : List Token} (h : Scans offset ls front back) (hback : Spells ts back) :
    Spells (ls.map Lexeme.token ++ ts) (front ++ back) := by
  induction h with
  | done => exact hback
  | blank hb _ ih => exact .blank hb (ih hback)
  | name hn hend _ ih =>
    rw [List.append_assoc]
    exact .name hn hend (ih hback)
  | quoted hquote hq hnul _ ih => simpa using Spells.quoted hquote hq hnul (ih hback)
  | byte hs hn hq _ ih => exact .byte hs hn hq (ih hback)

/-- Of what stands behind, only the first byte counts, and it counts only if it is
    a byte of a name. -/
theorem Scans.congr (h : Scans offset ls front back)
    (hafter : EndsName after ∨ after.head? = back.head?) : Scans offset ls front after := by
  induction h with
  | done => exact .done
  | blank hb _ ih => exact .blank hb (ih hafter)
  | @name _ _ n front back hn hend _ ih =>
    refine .name hn ?_ (ih hafter)
    -- the byte behind the name is in the front, or the first of what stands behind
    cases front with
    | cons c front => exact hend
    | nil =>
      rcases hafter with hends | hsame
      · exact hends
      · rw [EndsName, List.nil_append, hsame]
        exact hend
  | quoted hquote hq hnul _ ih => exact .quoted hquote hq hnul (ih hafter)
  | byte hs hn hq _ ih => exact .byte hs hn hq (ih hafter)

/-! ## The first token -/

/-- The sort of the token that a byte begins. -/
def sortOf (b : UInt8) : TokenSort :=
  if Byte.isNameStart b then .name else if Byte.isQuote b then .quoted else .byte b

theorem sortOf_of_isQuote {q : UInt8} (h : Byte.isQuote q = true) : sortOf q = .quoted := by
  simp [sortOf, Byte.isNameStart_of_isQuote h, h]

/-- A byte that is no blank begins a token of its sort. -/
theorem exists_tokensFrom_eq_cons {b : UInt8} (hb : Byte.isSpace b = false) (offset : Nat)
    (text : Bytes) : ∃ token more,
      tokensFrom 0 offset (b :: text) = ⟨token, offset⟩ :: more ∧ token.sort = sortOf b := by
  have hfirst := firstToken_tokensFrom offset (b :: text) (by simpa using hb)
  generalize tokensFrom 0 offset (b :: text) = tokens at hfirst
  generalize htext : b :: text = whole at hfirst
  cases hfirst with
  | done => cases htext
  | @name n after hn _ =>
    refine ⟨_, _, rfl, ?_⟩
    cases n with
    | nil => cases hn
    | cons c n =>
      obtain ⟨rfl, -⟩ := List.cons.inj htext
      rw [isName_cons, Bool.and_eq_true] at hn
      simp [Token.sort, sortOf, hn.1]
  | quoted hquote | quotedNul hquote | unclosed hquote =>
    obtain ⟨rfl, -⟩ := List.cons.inj htext
    exact ⟨_, _, rfl, (sortOf_of_isQuote hquote).symm⟩
  | byte _ hname hquote =>
    obtain ⟨rfl, -⟩ := List.cons.inj htext
    exact ⟨_, _, rfl, by simp [Token.sort, sortOf, hname, hquote]⟩

/-! ## Broken quoted texts -/

/-- A token with a NUL inside is a quote, bytes without that quote or a NUL, and a
    NUL. -/
theorem eq_of_quotedNul {b : UInt8} {text : Bytes} {nul start : Nat} {more : List Lexeme}
    (hb : Byte.isSpace b = false)
    (h : tokensFrom 0 offset (b :: text) = ⟨.quotedNul nul, start⟩ :: more) :
    Byte.isQuote b = true ∧ ∃ body rest, text = body ++ Byte.nul :: rest ∧
      nul = offset + 1 + body.length ∧ b ∉ body ∧ Byte.nul ∉ body := by
  have hfirst := firstToken_tokensFrom offset (b :: text) (by simpa using hb)
  rw [h] at hfirst
  generalize htext : b :: text = whole at hfirst
  cases hfirst with
  | quotedNul hquote hq hnul =>
    obtain ⟨rfl, rfl⟩ := List.cons.inj htext
    exact ⟨hquote, _, _, rfl, by omega, hq, hnul⟩

/-- A token without its closing quote is a quote, and behind it neither that quote
    nor a NUL comes. -/
theorem eq_of_unclosed {b : UInt8} {text : Bytes} {start : Nat} {more : List Lexeme}
    (hb : Byte.isSpace b = false)
    (h : tokensFrom 0 offset (b :: text) = ⟨.unclosed, start⟩ :: more) :
    Byte.isQuote b = true ∧ b ∉ text ∧ Byte.nul ∉ text := by
  have hfirst := firstToken_tokensFrom offset (b :: text) (by simpa using hb)
  rw [h] at hfirst
  generalize htext : b :: text = whole at hfirst
  cases hfirst with
  | unclosed hquote hq hnul =>
    obtain ⟨rfl, rfl⟩ := List.cons.inj htext
    exact ⟨hquote, hq, hnul⟩

/-- Nothing is scanned behind a broken quoted text. -/
theorem eq_nil_of_broken {b : UInt8} {text : Bytes} {l : Lexeme} {more : List Lexeme}
    (hb : Byte.isSpace b = false) (h : tokensFrom 0 offset (b :: text) = l :: more)
    (hl : l.token.isWhole = false) : more = [] := by
  have hfirst := firstToken_tokensFrom offset (b :: text) (by simpa using hb)
  rw [h] at hfirst
  generalize b :: text = whole at hfirst
  cases hfirst with
  | name | quoted | byte => cases hl
  | quotedNul | unclosed => rfl

/-! ## Cutting a text where its tokens are cut -/

/-- Where the tokens of a text are cut in front of a token, or behind the last, the
    text is cut in front of that token's first byte, or at its end. -/
theorem exists_scans (text : Bytes) (offset : Nat) {ls rest : List Lexeme}
    (h : tokensFrom 0 offset text = ls ++ rest) (hwhole : ∀ l ∈ ls, l.token.isWhole = true) :
    ∃ front back, text = front ++ back ∧ Scans offset ls front back ∧
      tokensFrom 0 (offset + front.length) back = rest ∧
      ∀ b ∈ back.head?, Byte.isSpace b = false := by
  by_cases hblank : ∃ b rest, text = b :: rest ∧ Byte.isSpace b = true
  · obtain ⟨b, rest, rfl, hspace⟩ := hblank
    rw [tokensFrom_blank hspace] at h
    obtain ⟨front, back, rfl, hscans, hrest, hback⟩ := exists_scans rest (offset + 1) h hwhole
    refine ⟨b :: front, back, rfl, .blank hspace hscans, ?_, hback⟩
    rw [← hrest, List.length_cons]
    congr 1
    omega
  have hhead : ∀ b ∈ text.head?, Byte.isSpace b = false := by
    intro b hb
    obtain ⟨rest, rfl⟩ := List.head?_eq_some_iff.1 hb
    exact Bool.eq_false_iff.2 fun hspace => hblank ⟨b, rest, rfl, hspace⟩
  cases ls with
  | nil => exact ⟨[], text, rfl, .done, h, hhead⟩
  | cons l ls =>
    have hfirst := firstToken_tokensFrom offset text hhead
    rw [h, List.cons_append] at hfirst
    obtain ⟨hl, hls⟩ := List.forall_mem_cons.1 hwhole
    -- behind the first token the others are cut off in the same way
    generalize hmore : ls ++ rest = more at hfirst
    cases hfirst with
    | @name n after hn hend =>
      have hpos := length_pos_of_isName hn
      obtain ⟨front, back, rfl, hscans, hrest, hback⟩ := exists_scans after _ hmore.symm hls
      refine ⟨n ++ front, back, by rw [List.append_assoc], .name hn hend hscans, ?_, hback⟩
      rw [← hrest, List.length_append, Nat.add_assoc]
    | @quoted q body after hquote hq hnul =>
      obtain ⟨front, back, rfl, hscans, hrest, hback⟩ := exists_scans after _ hmore.symm hls
      refine ⟨q :: (body ++ q :: front), back, by simp, .quoted hquote hq hnul hscans, ?_, hback⟩
      rw [← hrest]
      congr 1
      simp only [List.length_cons, List.length_append]
      omega
    | quotedNul | unclosed => cases hl
    | @byte b after hspace hname hquote =>
      obtain ⟨front, back, rfl, hscans, hrest, hback⟩ := exists_scans after _ hmore.symm hls
      refine ⟨b :: front, back, rfl, .byte hspace hname hquote hscans, ?_, hback⟩
      rw [← hrest, List.length_cons]
      congr 1
      omega
termination_by text.length
decreasing_by
  all_goals subst_vars
  all_goals simp only [List.length_append, List.length_cons]
  all_goals omega

/-- No token that another one follows is broken. -/
theorem isWhole_of_tokensFrom_eq {text : Bytes} {l : Lexeme} {more : List Lexeme}
    (h : tokensFrom 0 offset text = ls ++ l :: more) : ∀ x ∈ ls, x.token.isWhole = true := by
  induction ls using List.reverseRecOn generalizing l more with
  | nil => simp
  | append_singleton ls x ih =>
    rw [List.append_assoc, List.singleton_append] at h
    have hls := ih h
    obtain ⟨front, back, -, -, hrest, hback⟩ := exists_scans text offset h hls
    rw [List.forall_mem_append, List.forall_mem_singleton]
    refine ⟨hls, ?_⟩
    cases back with
    | nil => simp [tokensFrom] at hrest
    | cons b back =>
      by_contra hx
      rw [Bool.not_eq_true] at hx
      have hnil := eq_nil_of_broken (hback b rfl) hrest hx
      exact List.cons_ne_nil _ _ hnil

end Signature

end TypeSig
