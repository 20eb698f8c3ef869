/-
  TypeSig.Proofs.Target.Legal

  Which texts are names of the target language, and that all names made here are
  such. A spelling is always a word: it begins with a letter or an underscore and
  goes on with bytes of words, and a number put behind it leaves it one. Escaping
  then makes a legal name of every word.

  A word has no backtick in it, so escaping can be undone (`escapeReserved_injective`)
  and the numbered names of one spelling all differ from each other and from the
  name without a number (`numberedName_injective`, `numberedName_ne`).
-/

import TypeSig.Proofs.Target.Unbounded

namespace TypeSig

namespace Byte

/-- A byte that may start a word of the target language. -/
def isWordStart (b : UInt8) : Bool :=
  isLetter b || b == underscore

theorem isWordByte_of_isWordStart {b : UInt8} (h : isWordStart b = true) :
    isWordByte b = true := by
  simp only [isWordStart, isWordByte, Bool.or_eq_true] at h ⊢
  rcases h with hletter | hunderscore
  · exact Or.inl (Or.inl hletter)
  · exact Or.inr hunderscore

theorem isWordByte_of_isDigit {b : UInt8} (h : isDigit b = true) : isWordByte b = true := by
  simp [isWordByte, h]

/-- A byte of a word starts a word unless it is a digit. -/
theorem isWordStart_of_isWordByte {b : UInt8} (h : isWordByte b = true)
    (hdigit : isDigit b = false) : isWordStart b = true := by
  simpa [isWordByte, isWordStart, hdigit] using h

/-- The upper-case letter is a letter. -/
theorem isWordByte_toUpper {b : UInt8} (h : isWordByte b = true) :
    isWordByte (toUpper b) = true := by
  unfold toUpper
  split
  · next hlower =>
    simp only [isLower, Bool.and_eq_true, decide_eq_true_eq, UInt8.le_iff_toNat_le] at hlower
    obtain ⟨hlow, hhigh⟩ := hlower
    change 97 ≤ b.toNat at hlow
    change b.toNat ≤ 122 at hhigh
    have hupper : (b - 0x20).toNat = b.toNat - 32 := by
      have hle : (0x20 : UInt8) ≤ b := UInt8.le_iff_toNat_le.2 (show 32 ≤ b.toNat by omega)
      rw [UInt8.toNat_sub_of_le _ _ hle]
      rfl
    have hletter : isLetter (b - 0x20) = true := by
      simp only [isLetter, Bool.or_eq_true, Bool.and_eq_true, decide_eq_true_eq,
        UInt8.le_iff_toNat_le, hupper]
      refine Or.inr ⟨?_, ?_⟩
      · show 65 ≤ b.toNat - 32
        omega
      · show b.toNat - 32 ≤ 90
        omega
    simp [isWordByte, hletter]
  · exact h

end Byte

namespace Target

/-! ## Words and names -/

/-- A word of the target language. -/
def isWord : Bytes → Bool
  | [] => false
  | b :: rest => Byte.isWordStart b && rest.all Byte.isWordByte

/-- A text that may be used as a name: a word that is not reserved, or a reserved word
    in double backticks. -/
inductive IsLegal : Bytes → Prop
  | word {text : Bytes} : isWord text = true → isReserved text = false → IsLegal text
  | escaped {word : Bytes} : isReserved word = true →
      IsLegal (escapeMark ++ word ++ escapeMark)

theorem isWord_of_isReserved {text : Bytes} (h : isReserved text = true) :
    isWord text = true := by
  have hwords : ∀ word ∈ reservedWords, isWord word = true := by decide
  exact hwords text (List.contains_iff_mem.1 h)

theorem isWordByte_of_mem {text : Bytes} (h : isWord text = true) :
    ∀ b ∈ text, Byte.isWordByte b = true := by
  cases text with
  | nil => cases h
  | cons first rest =>
    obtain ⟨hfirst, hrest⟩ := Bool.and_eq_true_iff.1 h
    exact List.forall_mem_cons.2 ⟨Byte.isWordByte_of_isWordStart hfirst, List.all_eq_true.1 hrest⟩

/-- A word stays a word when more bytes of words are put behind it. -/
theorem isWord_append {text more : Bytes} (h : isWord text = true)
    (hmore : ∀ b ∈ more, Byte.isWordByte b = true) : isWord (text ++ more) = true := by
  cases text with
  | nil => cases h
  | cons first rest =>
    obtain ⟨hfirst, hrest⟩ := Bool.and_eq_true_iff.1 h
    rw [List.cons_append, isWord, List.all_append, hfirst, hrest, List.all_eq_true.2 hmore]
    rfl

theorem isWord_append_decimal {text : Bytes} (h : isWord text = true) (n : Nat) :
    isWord (text ++ decimal n) = true :=
  isWord_append h fun _ hb => Byte.isWordByte_of_isDigit (isDigit_of_mem_decimal hb)

end Target

/-! ## Spellings are words -/

namespace Unbounded

/-- Each byte that is taken in leaves bytes of words only. -/
theorem Spelling.isWordByte_step {s : Spelling} (h : ∀ c ∈ s.text, Byte.isWordByte c = true)
    (b : UInt8) : ∀ c ∈ (s.step b).text, Byte.isWordByte c = true := by
  unfold step
  by_cases hword : Byte.isWordByte b = true
  · rw [if_pos hword]
    split
    · have hmark : ∀ c ∈ (if Byte.isDigit b then [Byte.underscore] else []),
          Byte.isWordByte c = true := by
        split
        · exact List.forall_mem_singleton.2 rfl
        · exact List.forall_mem_nil _
      rw [List.forall_mem_append, List.forall_mem_append]
      exact ⟨⟨h, hmark⟩, List.forall_mem_singleton.2 (Byte.isWordByte_toUpper hword)⟩
    · exact List.forall_mem_append.2 ⟨h, List.forall_mem_singleton.2 hword⟩
  · rw [if_neg hword]
    exact h

theorem Spelling.isWordByte_foldl (source : Bytes) :
    ∀ {s : Spelling}, (∀ c ∈ s.text, Byte.isWordByte c = true) →
      ∀ c ∈ (source.foldl step s).text, Byte.isWordByte c = true := by
  induction source with
  | nil => exact fun h => h
  | cons b rest ih => exact fun h => ih (isWordByte_step h b)

theorem Spelling.isWord_finish {s : Spelling} (h : ∀ c ∈ s.text, Byte.isWordByte c = true) :
    Target.isWord s.finish = true := by
  obtain ⟨text, atBreak⟩ := s
  cases text with
  | nil => rfl
  | cons b rest =>
    obtain ⟨hb, hrest⟩ := List.forall_mem_cons.1 h
    by_cases hdigit : Byte.isDigit b = true
    · simp only [finish, hdigit, if_true]
      have hopened : Target.isWord [Byte.underscore] = true := rfl
      exact Target.isWord_append hopened h
    · have hstart := Byte.isWordStart_of_isWordByte hb (Bool.eq_false_iff.2 hdigit)
      simp only [finish, hdigit]
      exact Bool.and_eq_true_iff.2 ⟨hstart, List.all_eq_true.2 hrest⟩

theorem isWord_spell (source : Bytes) : Target.isWord (spell source) = true :=
  Spelling.isWord_finish (Spelling.isWordByte_foldl source (List.forall_mem_nil _))

end Unbounded

namespace Target

theorem isWord_of_spell {source : Bytes} {spelling : Identifier} (h : spell source = .ok spelling) :
    isWord spelling.bytes = true := by
  rw [spell_bytes h]
  exact Unbounded.isWord_spell source

/-! ## Escaped words -/

/-- The name of a word is legal. -/
theorem isLegal_of_escapeReserved {spelling name : Identifier}
    (hword : isWord spelling.bytes = true) (h : escapeReserved spelling = .ok name) :
    IsLegal name.bytes := by
  rw [escapeReserved_bytes h, Unbounded.escapeReserved]
  split
  · next hreserved => exact .escaped hreserved
  · next hfree => exact .word hword (Bool.eq_false_iff.2 hfree)

/-- What is escaped begins with a backtick, which no word does. -/
theorem escaped_ne_word {word text : Bytes} (htext : isWord text = true) :
    escapeMark ++ word ++ escapeMark ≠ text := by
  rintro rfl
  have hmark := isWordByte_of_mem htext 0x60 (by simp [escapeMark, ascii])
  exact absurd hmark (by decide)

/-- The word can be told from its name. -/
theorem escapeReserved_injective {s t name : Identifier} (hs : isWord s.bytes = true)
    (ht : isWord t.bytes = true) (hsname : escapeReserved s = .ok name)
    (htname : escapeReserved t = .ok name) : s = t := by
  have heq := (escapeReserved_bytes hsname).symm.trans (escapeReserved_bytes htname)
  unfold Unbounded.escapeReserved at heq
  apply BoundedText.ext
  split at heq
  · split at heq
    · exact List.append_cancel_left (List.append_cancel_right heq)
    · exact absurd heq (escaped_ne_word ht)
  · split at heq
    · exact absurd heq.symm (escaped_ne_word hs)
    · exact heq

/-! ## Numbered names -/

theorem isLegal_of_numberedName {spelling name : Identifier} {n : Nat}
    (hword : isWord spelling.bytes = true) (h : numberedName spelling n = .ok name) :
    IsLegal name.bytes := by
  obtain ⟨numbered, hnumbered, hescape⟩ := bind_eq_ok_iff.1 h
  refine isLegal_of_escapeReserved ?_ hescape
  rw [BoundedText.append_eq_ok hnumbered]
  exact isWord_append_decimal hword n

/-- Numbers put behind the same spelling can be told from the names. -/
theorem numberedName_injective {spelling name : Identifier} {m n : Nat}
    (hword : isWord spelling.bytes = true) (hm : numberedName spelling m = .ok name)
    (hn : numberedName spelling n = .ok name) : m = n := by
  obtain ⟨s, hs, hsname⟩ := bind_eq_ok_iff.1 hm
  obtain ⟨t, ht, htname⟩ := bind_eq_ok_iff.1 hn
  have hsbytes := BoundedText.append_eq_ok hs
  have htbytes := BoundedText.append_eq_ok ht
  obtain rfl := escapeReserved_injective (hsbytes ▸ isWord_append_decimal hword m)
    (htbytes ▸ isWord_append_decimal hword n) hsname htname
  exact decimal_injective (List.append_cancel_left (hsbytes.symm.trans htbytes))

/-- A numbered name is not the name without a number. -/
theorem numberedName_ne {spelling name : Identifier} {n : Nat}
    (hword : isWord spelling.bytes = true) (hname : escapeReserved spelling = .ok name) :
    numberedName spelling n ≠ .ok name := by
  intro hn
  obtain ⟨t, ht, htname⟩ := bind_eq_ok_iff.1 hn
  have htbytes := BoundedText.append_eq_ok ht
  obtain rfl := escapeReserved_injective hword (htbytes ▸ isWord_append_decimal hword n) hname
    htname
  exact decimal_ne_nil n (List.self_eq_append_right.1 htbytes)

end Target

end TypeSig
