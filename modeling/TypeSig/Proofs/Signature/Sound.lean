/-
  TypeSig.Proofs.Signature.Sound

  Whatever the reader accepts is derived by the grammar. A reader of a part is
  sound when the tokens that it takes are those of a phrase, and no token is left
  with which the phrase would go on. Readers that are given sound readers of
  their parts are sound, so by induction on the levels of nesting the reader of
  types is.

  Only tokens are followed here. What is stored on the way is settled by the
  phrase that they turn out to be.
-/

import TypeSig.Proofs.Signature.Complete

namespace TypeSig.Signature

/-! ## Storing takes no token -/

namespace Progress

theorem tokens_of_keep {s t : Progress} {position id : Nat} {grown : Arena × Except Fault Nat}
    (h : s.keep position grown = .ok (id, t)) : t.tokens = s.tokens := by
  rcases grown with ⟨arena, fault | root⟩
  · cases h
  · cases h
    rfl

theorem tokens_of_storeParent {s t : Progress} {capacity position id : Nat} {kind : NodeKind}
    {children : List Nat} (h : s.storeParent capacity kind children position = .ok (id, t)) :
    t.tokens = s.tokens := by
  obtain ⟨_, -, hkeep⟩ := bind_eq_ok_iff.1 h
  exact tokens_of_keep hkeep

end Progress

theorem tokens_of_storeName {s t : Progress} {capacity position id : Nat} {name : Bytes}
    (h : storeName capacity name position s = .ok (id, t)) : t.tokens = s.tokens := by
  obtain ⟨_, -, hkeep⟩ := bind_eq_ok_iff.1 h
  exact Progress.tokens_of_keep hkeep

theorem tokens_of_storeLiteral {s t : Progress} {capacity position id : Nat} {text : Bytes}
    (h : storeLiteral capacity text position s = .ok (id, t)) : t.tokens = s.tokens := by
  obtain ⟨_, -, hkeep⟩ := bind_eq_ok_iff.1 h
  exact Progress.tokens_of_keep hkeep

/-! ## Sound readers -/

/-- The tokens that a reader takes are those of a type, and the type ends there. -/
def IsSound (readType : Reader Nat) : Prop :=
  ∀ s id t, readType s = .ok (id, t) →
    ∃ phrase : TypePhrase, s.tokens = phrase.tokens ++ t.tokens ∧ phrase.EndsBefore t.tokens

variable {capacity : Nat} {readType : Reader Nat}

theorem eq_cons_of_head? {s : Progress} {token : Token} (h : s.tokens.head? = some token) :
    s.tokens = token :: s.skip.tokens := by
  obtain ⟨ts, hts⟩ := List.head?_eq_some_iff.1 h
  rw [Progress.tokens_skip, hts]
  rfl

theorem IsSound.field (h : IsSound readType) {s t : Progress} {id : Nat}
    (hread : readField capacity readType s = .ok (id, t)) :
    ∃ (name : FieldName) (optional : Bool) (type : TypePhrase),
      s.tokens = name.token :: (mark Byte.questionMark optional ++
        .byte Byte.colon :: (type.tokens ++ t.tokens)) := by
  obtain ⟨⟨text, u⟩, hname, hread⟩ := bind_eq_ok_iff.1 hread
  obtain ⟨name, hhead, -, rfl⟩ := readFieldName_eq_ok_iff.1 hname
  obtain ⟨⟨stop, v⟩, heat, hread⟩ := bind_eq_ok_iff.1 hread
  obtain ⟨hcolon, rfl, -⟩ := Progress.eat_eq_ok_iff.1 heat
  obtain ⟨⟨type, w⟩, htype, hread⟩ := bind_eq_ok_iff.1 hread
  obtain ⟨_, -, hkeep⟩ := bind_eq_ok_iff.1 hread
  obtain ⟨phrase, htokens, -⟩ := h _ _ _ htype
  refine ⟨name, s.skip.nextIs Byte.questionMark, phrase, ?_⟩
  rw [eq_cons_of_head? hhead, Progress.tokens_eq_mark_append s.skip Byte.questionMark,
    eq_cons_of_head? hcolon, htokens, Progress.tokens_of_keep hkeep]

theorem IsSound.fields (h : IsSound readType) {rounds : Nat} {s t : Progress} {ids : List Nat}
    (hread : readFields capacity readType rounds s = .ok (ids, t)) :
    ∃ phrase : FieldsPhrase, s.tokens = phrase.tokens ++ t.tokens := by
  induction rounds generalizing s ids with
  | zero => cases hread
  | succ rounds ih =>
    rw [readFields] at hread
    obtain ⟨⟨field, u⟩, hfield, hread⟩ := bind_eq_ok_iff.1 hread
    obtain ⟨name, optional, type, htokens⟩ := h.field hfield
    -- behind a field the object ends, or a comma stands with or without a field behind
    cases hcomma : u.eat? Byte.comma with
    | none =>
      simp only [hcomma] at hread
      cases hread
      exact ⟨.last name optional type false, by simp [FieldsPhrase.tokens, mark, htokens]⟩
    | some v =>
      obtain ⟨hhead, rfl⟩ := Progress.eat?_eq_some_iff.1 hcomma
      rw [eq_cons_of_head? hhead] at htokens
      simp only [hcomma] at hread
      split at hread
      · cases hread
        exact ⟨.last name optional type true, by simp [FieldsPhrase.tokens, mark, htokens]⟩
      · obtain ⟨⟨others, w⟩, hothers, hread⟩ := bind_eq_ok_iff.1 hread
        cases hread
        obtain ⟨rest, hrest⟩ := ih hothers
        exact ⟨.more name optional type rest, by simp [FieldsPhrase.tokens, htokens, hrest]⟩

theorem IsSound.object (h : IsSound readType) {s t : Progress} {id : Nat}
    (hread : readObject capacity readType s = .ok (id, t)) :
    ∃ phrase : FieldsPhrase,
      s.tokens = phrase.tokens ++ .byte Byte.closeBrace :: t.tokens := by
  obtain ⟨⟨fields, u⟩, hfields, hread⟩ := bind_eq_ok_iff.1 hread
  obtain ⟨⟨stop, v⟩, hclose, hread⟩ := bind_eq_ok_iff.1 hread
  obtain ⟨phrase, htokens⟩ := h.fields hfields
  obtain ⟨hhead, rfl, -⟩ := Progress.eat_eq_ok_iff.1 hclose
  refine ⟨phrase, ?_⟩
  rw [htokens, eq_cons_of_head? hhead, Progress.tokens_of_storeParent hread]

theorem IsSound.array (h : IsSound readType) {s t : Progress} {id : Nat}
    (hread : readArray capacity readType s = .ok (id, t)) :
    ∃ phrase : TypePhrase,
      s.tokens = phrase.tokens ++ .byte Byte.closeAngle :: t.tokens := by
  obtain ⟨⟨element, u⟩, helement, hread⟩ := bind_eq_ok_iff.1 hread
  obtain ⟨⟨stop, v⟩, hclose, hread⟩ := bind_eq_ok_iff.1 hread
  obtain ⟨phrase, htokens, -⟩ := h _ _ _ helement
  obtain ⟨hhead, rfl, -⟩ := Progress.eat_eq_ok_iff.1 hclose
  refine ⟨phrase, ?_⟩
  rw [htokens, eq_cons_of_head? hhead, Progress.tokens_of_storeParent hread]

theorem IsSound.case (h : IsSound readType) {s t : Progress} {id : Nat}
    (hread : readCase capacity readType s = .ok (id, t)) :
    ∃ phrase : CasePhrase, s.tokens = phrase.tokens ++ t.tokens ∧ phrase.EndsBefore t.tokens := by
  rcases readCase_eq_ok hread with ⟨ts, hs⟩ | ⟨text, ts, hs⟩ | ⟨text, ts, hs⟩
  · rw [readCase_object hs] at hread
    obtain ⟨fields, htokens⟩ := h.object hread
    rw [Progress.tokens_skip, hs, List.tail_cons] at htokens
    refine ⟨.object fields, ?_, fun hends => absurd hends Bool.false_ne_true⟩
    rw [hs, htokens]
    simp [CasePhrase.tokens]
  · rw [readCase_literal hs] at hread
    have hkeeps := tokens_of_storeLiteral hread
    rw [Progress.tokens_skip, hs, List.tail_cons] at hkeeps
    exact ⟨.literal text, by rw [hs, hkeeps]; rfl, fun hends => absurd hends Bool.false_ne_true⟩
  -- `Array` is a name like any other unless an angle bracket follows
  · by_cases harray : text = arrayName ∧ ts.head? = some (.byte Byte.openAngle)
    · obtain ⟨rfl, hangle⟩ := harray
      obtain ⟨us, rfl⟩ := List.head?_eq_some_iff.1 hangle
      rw [readCase_array hs] at hread
      obtain ⟨element, htokens⟩ := h.array hread
      rw [Progress.tokens_skip, Progress.tokens_skip, hs] at htokens
      simp only [List.tail_cons] at htokens
      refine ⟨.array element, ?_, fun hends => absurd hends Bool.false_ne_true⟩
      rw [hs, htokens]
      simp [CasePhrase.tokens]
    · have hplain : text = arrayName → ts.head? ≠ some (.byte Byte.openAngle) :=
        fun htext hangle => harray ⟨htext, hangle⟩
      rw [readCase_name hs hplain] at hread
      have hkeeps := tokens_of_storeName hread
      rw [Progress.tokens_skip, hs, List.tail_cons] at hkeeps
      refine ⟨.name text, by rw [hs, hkeeps]; rfl, fun hends => ?_⟩
      rw [hkeeps]
      exact hplain (by simpa [CasePhrase.endsInArray] using hends)

theorem IsSound.cases (h : IsSound readType) {rounds : Nat} {s t : Progress}
    {before ids : List Nat} (hread : readCases capacity readType rounds before s = .ok (ids, t)) :
    ∃ phrase : TypePhrase, s.tokens = phrase.tokens ++ t.tokens ∧ phrase.EndsBefore t.tokens := by
  induction rounds generalizing s before with
  | zero => cases hread
  | succ rounds ih =>
    rw [readCases] at hread
    obtain ⟨⟨new, u⟩, hcase, hread⟩ := bind_eq_ok_iff.1 hread
    obtain ⟨c, htokens, hends⟩ := h.case hcase
    cases hbar : u.eat? Byte.bar with
    | none =>
      simp only [hbar] at hread
      cases hread
      exact ⟨.last c, htokens, Progress.eat?_eq_none_iff.1 hbar, hends⟩
    | some v =>
      obtain ⟨hhead, rfl⟩ := Progress.eat?_eq_some_iff.1 hbar
      simp only [hbar] at hread
      obtain ⟨rest, hrest, hend⟩ := ih hread
      refine ⟨.more c rest, ?_, hend⟩
      rw [htokens, eq_cons_of_head? hhead, hrest]
      simp [TypePhrase.tokens]

/-- A union takes the tokens of its cases and no more. -/
theorem IsSound.union (h : IsSound readType) : IsSound (readUnion capacity readType) := by
  intro s id t hread
  obtain ⟨⟨ids, u⟩, hcases, hread⟩ := bind_eq_ok_iff.1 hread
  obtain ⟨phrase, htokens, hends⟩ := h.cases hcases
  -- storing the union takes no token, and a single case is not stored again
  have hkeeps : t.tokens = u.tokens := by
    rcases ids with _ | ⟨only, _ | ⟨second, others⟩⟩
    · exact Progress.tokens_of_storeParent hread
    · cases hread
      rfl
    · exact Progress.tokens_of_storeParent hread
  rw [hkeeps]
  exact ⟨phrase, htokens, hends⟩

/-- Whatever is read as a type is derived as a type, however many levels there are. -/
theorem readType_isSound (capacity levels : Nat) :
    IsSound (Signature.readType capacity levels) := by
  induction levels with
  | zero =>
    intro s id t hread
    cases hread
  | succ levels ih => exact ih.union

end TypeSig.Signature
