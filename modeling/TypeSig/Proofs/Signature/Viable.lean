/-
  TypeSig.Proofs.Signature.Viable

  Where the reader gives up a text as wrong, the tokens in front of that place are
  the beginning of something that the grammar derives. For each reader the way to
  complete them is known: what is open is closed, and where a name, a colon or a
  type is missing the shortest one is put in.

  `Begins` says that tokens can be completed in a language, `Viable` that a reader
  fails only where they can. When tokens have been taken, what counts from then on
  is the language of the tokens that may follow them, so a step and the rest of a
  reader are put together by taking the quotient (`Viable.of_takes`).

  Main statement: all that is taken of a text before the place of a failure can be
  completed to a type (`readAll_viable`).
-/

import TypeSig.Proofs.Signature.Lookahead

namespace TypeSig

/-- A name, or a byte that begins neither a name nor a quoted text. -/
def Token.isPlain : Token → Bool
  | .name n => isName n
  | .byte b => !Byte.isSpace b && !Byte.isNameStart b && !Byte.isQuote b
  | .quoted _ | .quotedNul _ | .unclosed => false

namespace Signature

/-- Plain tokens are spelled with a blank in front of each. -/
theorem exists_spells {ts : List Token} (h : ∀ t ∈ ts, t.isPlain = true) :
    ∃ text, Spells ts text ∧ EndsName text := by
  have hblank : Byte.isSpace 0x20 = true := by decide
  have hends : ∀ text : Bytes, EndsName (0x20 :: text) := by
    intro text b hb
    obtain rfl := Option.some.inj hb
    decide
  induction ts with
  | nil => exact ⟨[], .nil, by simp [EndsName]⟩
  | cons t ts ih =>
    obtain ⟨ht, hts⟩ := List.forall_mem_cons.1 h
    obtain ⟨text, hspells, htext⟩ := ih hts
    cases t with
    | name n => exact ⟨0x20 :: (n ++ text), .blank hblank (.name ht htext hspells), hends _⟩
    | byte b =>
      simp only [Token.isPlain, Bool.and_eq_true, Bool.not_eq_true'] at ht
      obtain ⟨⟨hspace, hname⟩, hquote⟩ := ht
      exact ⟨0x20 :: b :: text, .blank hblank (.byte hspace hname hquote hspells), hends _⟩
    | quoted | quotedNul | unclosed => cases ht

/-! ## The parts of the grammar as languages -/

def IsType (ts : List Token) : Prop := ∃ phrase : TypePhrase, phrase.tokens = ts

def IsCase (ts : List Token) : Prop := ∃ phrase : CasePhrase, phrase.tokens = ts

def AreFields (ts : List Token) : Prop := ∃ phrase : FieldsPhrase, phrase.tokens = ts

def IsField (ts : List Token) : Prop :=
  ∃ (name : FieldName) (optional : Bool) (type : TypePhrase),
    name.token :: (mark Byte.questionMark optional ++ .byte Byte.colon :: type.tokens) = ts

theorem IsCase.isType {ts : List Token} : IsCase ts → IsType ts
  | ⟨phrase, h⟩ => ⟨.last phrase, h⟩

theorem IsField.areFields {ts : List Token} : IsField ts → AreFields ts
  | ⟨name, optional, type, h⟩ =>
    ⟨.last name optional type false, by simp [FieldsPhrase.tokens, ← h, mark]⟩

/-- The shortest name, for where one is missing. -/
def someName : Bytes := ascii "a"

theorem isType_someName : IsType [.name someName] := ⟨.last (.name someName), rfl⟩

theorem isField_someName : IsField [.name someName, .byte Byte.colon, .name someName] :=
  ⟨.plain someName, false, .last (.name someName), rfl⟩

/-! ## Tokens that can be completed -/

/-- Plain tokens complete these ones. -/
def Begins (yields : List Token → Prop) (taken : List Token) : Prop :=
  ∃ more, (∀ t ∈ more, t.isPlain = true) ∧ yields (taken ++ more)

section

variable {yields yields' : List Token → Prop} {taken : List Token}

theorem Begins.of_yields (h : yields taken) : Begins yields taken :=
  ⟨[], List.forall_mem_nil _, by rwa [List.append_nil]⟩

/-- What can be completed in a part can be completed in the whole. -/
theorem Begins.imp (h : Begins yields taken) (himp : ∀ ts, yields ts → Begins yields' ts) :
    Begins yields' taken := by
  obtain ⟨more, hmore, hyields⟩ := h
  obtain ⟨tail, htail, hyields'⟩ := himp _ hyields
  refine ⟨more ++ tail, List.forall_mem_append.2 ⟨hmore, htail⟩, ?_⟩
  rwa [← List.append_assoc]

theorem Begins.of_append {ts : List Token} (h : Begins (fun more => yields (ts ++ more)) taken) :
    Begins yields (ts ++ taken) := by
  obtain ⟨more, hmore, hyields⟩ := h
  exact ⟨more, hmore, by rwa [List.append_assoc]⟩

/-- A failure is about the place where the reading stopped: what was taken before
    can be completed, where a quoted text is broken even with any text in its
    place. A failure for lack of room says nothing about the text, and the arena
    refuses nothing. -/
def Blames (yields : List Token → Prop) (taken : List Token) (stop : Progress) :
    ReadFailure → Prop
  | ⟨.expected _, position⟩ => position = stop.position ∧ Begins yields taken
  | ⟨.nulInLiteral, position⟩ =>
    (∃ start more, stop.rest = ⟨.quotedNul position, start⟩ :: more) ∧
      ∀ body, Begins yields (taken ++ [.quoted body])
  | ⟨.unterminatedLiteral, position⟩ =>
    (∃ more, stop.rest = ⟨.unclosed, position⟩ :: more) ∧ Begins yields taken
  | ⟨.tooManyNodes, _⟩ | ⟨.textTooLong, _⟩ | ⟨.nestedTooDeeply, _⟩ => True
  | ⟨.refused _, _⟩ => False

theorem Blames.imp {stop : Progress} {failure : ReadFailure}
    (h : Blames yields taken stop failure) (taken' : List Token)
    (himp : ∀ ts, Begins yields ts → Begins yields' (taken' ++ ts)) :
    Blames yields' (taken' ++ taken) stop failure := by
  rcases failure with ⟨cause, position⟩
  cases cause with
  | expected => exact ⟨h.1, himp _ h.2⟩
  | nulInLiteral =>
    refine ⟨h.1, fun body => ?_⟩
    rw [List.append_assoc]
    exact himp _ (h.2 body)
  | unterminatedLiteral => exact ⟨h.1, himp _ h.2⟩
  | tooManyNodes | textTooLong | nestedTooDeeply => trivial
  | refused => exact h

end

/-- The reading has come from the first place to the second and took these tokens. -/
def Takes (s : Progress) (ts : List Token) (t : Progress) : Prop :=
  ∃ taken, s = t.rewind s.arena taken ∧ taken.map Lexeme.token = ts

/-- A reading that began here succeeded, or failed where what it had taken can be
    completed. -/
def Viable {α : Type} (yields : List Token → Prop) (s : Progress) :
    Except ReadFailure (α × Progress) → Prop
  | .ok _ => True
  | .error failure => ∃ ts stop, Takes s ts stop ∧ Blames yields ts stop failure

/-! ## Taking tokens -/

theorem takes_nil (s : Progress) : Takes s [] s :=
  ⟨[], rfl, rfl⟩

theorem Takes.trans {s t u : Progress} {ts ts' : List Token} (h : Takes s ts t)
    (h' : Takes t ts' u) : Takes s (ts ++ ts') u := by
  obtain ⟨taken, hs, rfl⟩ := h
  obtain ⟨taken', ht, rfl⟩ := h'
  refine ⟨taken ++ taken', ?_, List.map_append⟩
  rw [← Progress.rewind_rewind u t.arena, ← ht, ← hs]

theorem takes_skip {s : Progress} {token : Token} (h : s.tokens.head? = some token) :
    Takes s [token] s.skip := by
  rcases s with ⟨arena, _ | ⟨l, rest⟩, finish⟩
  · cases h
  · exact ⟨[l], rfl, by simpa [Progress.tokens] using h⟩

/-- A mark that may be there is taken if it is. -/
theorem takes_mark (s : Progress) (b : UInt8) :
    Takes s (mark b (s.nextIs b)) ((s.eat? b).getD s) := by
  by_cases h : s.tokens.head? = some (.byte b)
  · rw [Progress.eat?_of_head h, Progress.nextIs_eq, h]
    simpa [mark] using takes_skip h
  · rw [Progress.eat?_of_head_ne h, Progress.nextIs_eq]
    simpa [mark, h] using takes_nil s

/-- A reader takes the tokens that are missing behind it. -/
theorem LooksAt.takes {α : Type} {R : Reader α} {s t : Progress} {x : α} {ts : List Token}
    (h : LooksAt R s) (hread : R s = .ok (x, t)) (htokens : s.tokens = ts ++ t.tokens) :
    Takes s ts t := by
  obtain ⟨taken, hs, -⟩ := h.ok x t hread
  have hsame : taken.map Lexeme.token ++ t.tokens = ts ++ t.tokens := by
    rw [← htokens, hs]
    simp [Progress.tokens]
  exact ⟨taken, hs, List.append_cancel_right hsame⟩

/-! ## Putting readers together -/

namespace Viable

variable {α β : Type} {yields yields' : List Token → Prop} {s t : Progress}
  {x : Except ReadFailure (α × Progress)}

theorem imp (h : Viable yields s x) (himp : ∀ ts, yields ts → Begins yields' ts) :
    Viable yields' s x := by
  cases x with
  | ok r => trivial
  | error failure =>
    obtain ⟨ts, stop, htakes, hblames⟩ := h
    exact ⟨ts, stop, htakes, hblames.imp [] fun _ hts => hts.imp himp⟩

/-- When tokens have been taken, those count that may follow them. -/
theorem of_takes {ts : List Token} (h : Takes s ts t)
    (hrest : Viable (fun more => yields (ts ++ more)) t x) : Viable yields s x := by
  cases x with
  | ok r => trivial
  | error failure =>
    obtain ⟨ts', stop, htakes, hblames⟩ := hrest
    exact ⟨ts ++ ts', stop, h.trans htakes, hblames.imp ts fun _ hts => hts.of_append⟩

theorem bind {f : α × Progress → Except ReadFailure (β × Progress)} (h : Viable yields s x)
    (hf : ∀ y t, x = .ok (y, t) → Viable yields s (f (y, t))) : Viable yields s (x >>= f) := by
  cases x with
  | ok r => exact hf r.1 r.2 rfl
  | error failure => exact h

/-! ## Single steps -/

theorem expect (what : Expected) (h : Begins yields []) :
    Viable (α := α) yields s (s.expect what) :=
  ⟨[], s, takes_nil s, rfl, h⟩

theorem eat (b : UInt8) (what : Expected) (h : Begins yields []) :
    Viable yields s (s.eat b what) := by
  unfold Progress.eat
  split
  · trivial
  · exact expect what h

/-- Storing a node fails at most for lack of room once room was made sure of. -/
theorem room {text : Bytes} {capacity position : Nat}
    (h : s.arena.size < capacity → text.length ≤ nameLimit → Viable yields t x) :
    Viable yields t (s.ensureRoom capacity text position >>= fun _ => x) := by
  by_cases hfull : capacity ≤ s.arena.size
  · have hroom : s.ensureRoom capacity text position = .error ⟨.tooManyNodes, position⟩ := by
      simp [Progress.ensureRoom, Arena.isFull, hfull]
    rw [hroom]
    exact ⟨[], t, takes_nil t, trivial⟩
  by_cases hlen : text.length ≤ nameLimit
  · have hroom : s.ensureRoom capacity text position = .ok () := by
      simp [Progress.ensureRoom, Arena.isFull, hfull, hlen]
    rw [hroom]
    exact h (Nat.lt_of_not_le hfull) hlen
  · have hroom : s.ensureRoom capacity text position = .error ⟨.textTooLong, position⟩ := by
      simp [Progress.ensureRoom, Arena.isFull, hfull, hlen]
    rw [hroom]
    exact ⟨[], t, takes_nil t, trivial⟩

theorem keep {position id : Nat} {grown : Arena × Except Fault Nat} (h : grown.2 = .ok id) :
    Viable yields t (s.keep position grown) := by
  rcases grown with ⟨arena, result⟩
  obtain rfl : result = .ok id := h
  trivial

theorem storeParent {capacity position : Nat} {kind : NodeKind} {children : List Nat} :
    Viable yields t (s.storeParent capacity kind children position) :=
  room fun hroom _ => keep (Arena.addLabelled_of_lt hroom)

theorem storeName {capacity position : Nat} {name : Bytes} :
    Viable yields t (storeName capacity name position s) := by
  refine room fun hroom hlen => ?_
  have hkept : (if keywordKind name = .other then name else []).length ≤ nameLimit := by
    split
    · exact hlen
    · exact Nat.zero_le _
  exact keep (Arena.addAtomic_of_lt hroom hkept)

theorem storeLiteral {capacity position : Nat} {text : Bytes} :
    Viable yields t (storeLiteral capacity text position s) :=
  room fun hroom hlen => keep (Arena.addAtomic_of_lt hroom hlen)

/-! ## The parts of a type -/

/-- A name is missing, or a quoted text in its place is broken. -/
theorem fieldName (h : Begins yields []) (hquoted : ∀ body, Begins yields [.quoted body]) :
    Viable yields s (readFieldName s) := by
  rcases s with ⟨arena, _ | ⟨⟨token, start⟩, rest⟩, finish⟩
  · exact expect _ h
  · cases token with
    | name | quoted => trivial
    | quotedNul offset => exact ⟨[], _, takes_nil _, ⟨start, rest, rfl⟩, hquoted⟩
    | unclosed => exact ⟨[], _, takes_nil _, ⟨rest, rfl⟩, h⟩
    | byte => exact expect _ h

section

variable {capacity : Nat} {readType : Reader Nat} (hsound : IsSound readType)
  (hlooks : ∀ s, LooksAt readType s) (htype : ∀ s, Viable IsType s (readType s))

include htype

theorem field (s : Progress) : Viable IsField s (readField capacity readType s) := by
  refine (fieldName ⟨_, ?_, isField_someName⟩ fun body => ?_).bind fun text t hname => ?_
  · decide
  · exact ⟨[.byte Byte.colon, .name someName], by decide,
      .quoted body, false, .last (.name someName), rfl⟩
  -- the name, perhaps a question mark, and a colon
  obtain ⟨name, hhead, -, rfl⟩ := readFieldName_eq_ok_iff.1 hname
  have hrest : ∀ ts, IsType ts →
      IsField ([name.token] ++ (mark Byte.questionMark (s.skip.nextIs Byte.questionMark) ++
        ([.byte Byte.colon] ++ ts))) := by
    rintro ts ⟨type, rfl⟩
    exact ⟨name, _, type, rfl⟩
  have hmissing : Begins (fun more => IsField ([name.token] ++
      (mark Byte.questionMark (s.skip.nextIs Byte.questionMark) ++ more))) [] :=
    ⟨[.byte Byte.colon, .name someName], by decide, hrest _ isType_someName⟩
  refine of_takes (takes_skip hhead) (of_takes (takes_mark s.skip Byte.questionMark) ?_)
  refine (eat _ _ hmissing).bind fun _ u heat => ?_
  obtain ⟨hcolon, rfl, -⟩ := Progress.eat_eq_ok_iff.1 heat
  refine of_takes (takes_skip hcolon) ?_
  -- a type that is complete completes the field
  have hthen := (htype ((s.skip.eat? Byte.questionMark).getD s.skip).skip).imp fun ts hts =>
    Begins.of_yields (hrest ts hts)
  exact hthen.bind fun type v _ => room fun hroom hlen => keep (Arena.addField_of_lt hroom hlen)

include hsound hlooks

theorem fields (rounds : Nat) (s : Progress) :
    Viable AreFields s (readFields capacity readType rounds s) := by
  induction rounds generalizing s with
  | zero => exact expect _ ⟨_, by decide, isField_someName.areFields⟩
  | succ rounds ih =>
    rw [readFields]
    have hfirst : Viable AreFields s (readField capacity readType s) :=
      (field htype s).imp fun ts hts => .of_yields hts.areFields
    refine hfirst.bind fun id t hread => ?_
    obtain ⟨name, optional, type, htokens⟩ := hsound.field hread
    have htaken : Takes s (name.token ::
        (mark Byte.questionMark optional ++ .byte Byte.colon :: type.tokens)) t :=
      (LooksAt.field hlooks s).takes hread (by simp [htokens])
    cases hcomma : t.eat? Byte.comma with
    | none =>
      simp only [hcomma]
      trivial
    | some u =>
      obtain ⟨hhead, rfl⟩ := Progress.eat?_eq_some_iff.1 hcomma
      simp only [hcomma]
      split
      · trivial
      -- behind the comma more fields stand
      · refine of_takes htaken (of_takes (takes_skip hhead) ?_)
        have hmore : ∀ ts, AreFields ts → AreFields
            (name.token :: (mark Byte.questionMark optional ++ .byte Byte.colon :: type.tokens) ++
              ([.byte Byte.comma] ++ ts)) := by
          rintro ts ⟨rest, rfl⟩
          exact ⟨.more name optional type rest, by simp [FieldsPhrase.tokens]⟩
        have hrest := (ih t.skip).imp fun ts hts => .of_yields (hmore ts hts)
        exact hrest.bind (f := fun r => .ok (id :: r.1, r.2)) fun ids v _ => trivial

theorem object (s : Progress) :
    Viable (fun ts => IsCase (.byte Byte.openBrace :: ts)) s (readObject capacity readType s) := by
  have hclose : ∀ ts, AreFields ts →
      IsCase (.byte Byte.openBrace :: (ts ++ [.byte Byte.closeBrace])) :=
    fun ts ⟨fields, hfields⟩ => ⟨.object fields, by rw [CasePhrase.tokens, hfields]⟩
  have hfields : Viable (fun ts => IsCase (.byte Byte.openBrace :: ts)) s
      (readFields capacity readType s.rest.length s) :=
    (fields hsound hlooks htype _ s).imp fun ts hts =>
      ⟨[.byte Byte.closeBrace], by decide, hclose ts hts⟩
  refine hfields.bind fun ids t hread => ?_
  obtain ⟨phrase, htokens⟩ := hsound.fields hread
  have htaken := (LooksAt.fields hsound hlooks s).takes hread htokens
  have hmissing :
      Begins (fun more => IsCase (.byte Byte.openBrace :: (phrase.tokens ++ more))) [] :=
    ⟨[.byte Byte.closeBrace], by decide, hclose _ ⟨phrase, rfl⟩⟩
  exact of_takes htaken ((eat _ _ hmissing).bind fun stop u _ => storeParent)

theorem array (s : Progress) :
    Viable (fun ts => IsCase (.name arrayName :: .byte Byte.openAngle :: ts)) s
      (readArray capacity readType s) := by
  have hclose : ∀ ts, IsType ts →
      IsCase (.name arrayName :: .byte Byte.openAngle :: (ts ++ [.byte Byte.closeAngle])) :=
    fun ts ⟨element, helement⟩ => ⟨.array element, by rw [CasePhrase.tokens, helement]⟩
  have helement : Viable (fun ts => IsCase (.name arrayName :: .byte Byte.openAngle :: ts)) s
      (readType s) :=
    (htype s).imp fun ts hts => ⟨[.byte Byte.closeAngle], by decide, hclose ts hts⟩
  refine helement.bind fun id t hread => ?_
  obtain ⟨phrase, htokens, -⟩ := hsound _ _ _ hread
  have htaken := (hlooks s).takes hread htokens
  have hmissing : Begins (fun more =>
      IsCase (.name arrayName :: .byte Byte.openAngle :: (phrase.tokens ++ more))) [] :=
    ⟨[.byte Byte.closeAngle], by decide, hclose _ ⟨phrase, rfl⟩⟩
  exact of_takes htaken ((eat _ _ hmissing).bind fun stop u _ => storeParent)

theorem case (s : Progress) : Viable IsCase s (readCase capacity readType s) := by
  have hmissing : Begins IsCase [] := ⟨[.name someName], by decide, .name someName, rfl⟩
  have hliteral : ∀ body, Begins IsCase [.quoted body] :=
    fun body => .of_yields ⟨.literal body, rfl⟩
  rcases hs : s.rest with _ | ⟨⟨token, start⟩, rest⟩
  · rw [readCase, hs]
    exact expect _ hmissing
  have htokens : s.tokens = token :: rest.map Lexeme.token := by rw [Progress.tokens, hs]; rfl
  have hhead : s.tokens.head? = some token := by rw [htokens, List.head?_cons]
  cases token with
  | quotedNul offset =>
    rw [readCase, hs]
    exact ⟨[], s, takes_nil s, ⟨start, rest, hs⟩, hliteral⟩
  | unclosed =>
    rw [readCase, hs]
    exact ⟨[], s, takes_nil s, ⟨rest, hs⟩, hmissing⟩
  | quoted text =>
    rw [readCase_literal htokens]
    exact storeLiteral
  | byte b =>
    by_cases hb : b = Byte.openBrace
    · subst hb
      rw [readCase_object htokens]
      exact of_takes (takes_skip hhead) (object hsound hlooks htype s.skip)
    · have hexpect : readCase capacity readType s = s.expect .type := by
        rw [readCase, hs]
        exact if_neg hb
      rw [hexpect]
      exact expect _ hmissing
  | name text =>
    by_cases harray : text = arrayName ∧ s.skip.tokens.head? = some (.byte Byte.openAngle)
    · obtain ⟨rfl, hangle⟩ := harray
      rw [readCase_array (by rw [eq_cons_of_head? hhead, eq_cons_of_head? hangle])]
      refine of_takes (takes_skip hhead) (of_takes (takes_skip hangle) ?_)
      exact array hsound hlooks htype s.skip.skip
    · rw [readCase_name (eq_cons_of_head? hhead) fun htext hangle => harray ⟨htext, hangle⟩]
      exact storeName

/-- The cases of a union, behind those that were read before. -/
theorem cases (rounds : Nat) (before : List Nat) (s : Progress) :
    Viable IsType s (readCases capacity readType rounds before s) := by
  induction rounds generalizing before s with
  | zero => exact expect _ ⟨_, by decide, isType_someName⟩
  | succ rounds ih =>
    rw [readCases]
    have hfirst : Viable IsType s (readCase capacity readType s) :=
      (case hsound hlooks htype s).imp fun ts hts => .of_yields hts.isType
    refine hfirst.bind fun id t hread => ?_
    obtain ⟨phrase, htokens, -⟩ := hsound.case hread
    have htaken := (LooksAt.case hsound hlooks s).takes hread htokens
    cases hbar : t.eat? Byte.bar with
    | none =>
      simp only [hbar]
      trivial
    | some u =>
      obtain ⟨hhead, rfl⟩ := Progress.eat?_eq_some_iff.1 hbar
      simp only [hbar]
      refine of_takes htaken (of_takes (takes_skip hhead) ?_)
      refine (ih _ t.skip).imp ?_
      rintro ts ⟨rest, rfl⟩
      exact .of_yields ⟨.more phrase rest, by simp [TypePhrase.tokens]⟩

theorem union (s : Progress) : Viable IsType s (readUnion capacity readType s) := by
  refine (cases hsound hlooks htype s.rest.length [] s).bind fun ids t _ => ?_
  rcases ids with _ | ⟨only, _ | ⟨second, others⟩⟩
  · exact storeParent
  · trivial
  · exact storeParent

end

end Viable

/-- A type, however many levels there are. -/
theorem readType_viable (capacity levels : Nat) (s : Progress) :
    Viable IsType s (readType capacity levels s) := by
  induction levels generalizing s with
  | zero => exact ⟨[], s, takes_nil s, trivial⟩
  | succ levels ih =>
    exact .union (readType_isSound capacity levels) (readType_looksAt capacity levels) ih s

/-- Wherever the reading of a whole text fails, what was taken before can be
    completed to a type, unless room is what is missing. -/
theorem readAll_viable (capacity : Nat) (s : Progress) :
    Viable IsType s (readAll capacity s) := by
  refine (readType_viable capacity capacity s).bind fun root t hread => ?_
  obtain ⟨phrase, htokens, -⟩ := readType_isSound capacity capacity _ _ _ hread
  refine .of_takes ((readType_looksAt capacity capacity s).takes hread htokens) ?_
  simp only
  split
  · trivial
  · exact .expect _ (.of_yields ⟨phrase, (List.append_nil _).symm⟩)

end Signature

end TypeSig
