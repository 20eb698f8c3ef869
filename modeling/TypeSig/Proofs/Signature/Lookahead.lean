/-
  TypeSig.Proofs.Signature.Lookahead

  The reader decides by one token at a time. What it makes of a text up to some
  place depends on the tokens that it took until then and on the sort of the next
  one; the rest of the text, and the bytes inside the next token, it has not seen.

  `LooksAt` says this of a reader at one place, both for what it reads and for an
  expectation that is not met: put another text behind the tokens that were
  taken, of which no more differs than what the reader has not seen, and the
  reader does the same. It passes from the steps to the whole by `LooksAt.bind`,
  and through a loop by the number of tokens that are left.

  Main statement: reading a whole text looks one token ahead (`readAll_looksAt`).
-/

import TypeSig.Proofs.Signature.Scan
import TypeSig.Proofs.Signature.Language

namespace TypeSig.Signature

/-! ## What a reader can see -/

namespace Progress

/-- What shows where the reading stands: the sort of the next token, and where it
    begins. -/
def sight (s : Progress) : Option TokenSort × Nat :=
  (s.rest.head?.map fun lexeme => lexeme.token.sort, s.position)

/-- Where the reading stood before it took these tokens. -/
def rewind (s : Progress) (arena : Arena) (taken : List Lexeme) : Progress :=
  ⟨arena, taken ++ s.rest, s.finish⟩

@[simp] theorem arena_rewind (s : Progress) (arena : Arena) (taken : List Lexeme) :
    (s.rewind arena taken).arena = arena := rfl

@[simp] theorem rest_rewind (s : Progress) (arena : Arena) (taken : List Lexeme) :
    (s.rewind arena taken).rest = taken ++ s.rest := rfl

theorem rewind_nil {s : Progress} {arena : Arena} (h : s.arena = arena) :
    s.rewind arena [] = s := by
  rw [← h]
  rfl

@[simp] theorem rewind_rewind (s : Progress) (arena arena' : Arena) (taken taken' : List Lexeme) :
    (s.rewind arena taken).rewind arena' taken' = s.rewind arena' (taken' ++ taken) := by
  simp [rewind]

/-- What has been taken is seen the same, whatever stands behind. -/
theorem sight_rewind {s t : Progress} (h : s.sight = t.sight) (arena arena' : Arena)
    (taken : List Lexeme) : (s.rewind arena taken).sight = (t.rewind arena' taken).sight := by
  cases taken with
  | nil => exact h
  | cons l taken => rfl

theorem position_of_sight {s t : Progress} (h : s.sight = t.sight) : s.position = t.position :=
  congrArg Prod.snd h

/-- A byte that stands for itself is told by the sort of its token. -/
theorem nextIs_eq_sight (s : Progress) (b : UInt8) :
    s.nextIs b = (s.sight.1 == some (.byte b)) := by
  rcases s with ⟨arena, _ | ⟨⟨token, start⟩, rest⟩, finish⟩
  · rfl
  · cases token <;> simp [nextIs, sight, Token.sort]

theorem nextIs_of_sight {s t : Progress} (h : s.sight = t.sight) (b : UInt8) :
    s.nextIs b = t.nextIs b := by
  rw [nextIs_eq_sight, nextIs_eq_sight, h]

theorem isEmpty_of_sight {s t : Progress} (h : s.sight = t.sight) :
    s.rest.isEmpty = t.rest.isEmpty := by
  have hhead := congrArg Prod.fst h
  cases hs : s.rest <;> cases ht : t.rest <;> simp_all [sight]

/-- Behind a token that was taken the reading stands where the token is put back. -/
theorem eq_rewind_of_nextIs {s : Progress} {b : UInt8} (h : s.nextIs b = true) :
    ∃ l, s = s.skip.rewind s.arena [l] ∧ l.token = .byte b := by
  rcases s with ⟨arena, _ | ⟨⟨token, start⟩, rest⟩, finish⟩
  · cases h
  · cases token with
    | byte c =>
      have hc : c = b := by simpa [nextIs] using h
      exact ⟨⟨.byte c, start⟩, rfl, by rw [hc]⟩
    | name | quoted | quotedNul | unclosed => cases h

end Progress

/-- A reader depends only on the tokens that it takes and on what shows of the next
    one, where it reads and where it fails at an expectation. -/
structure LooksAt {α : Type} (R : Reader α) (s : Progress) : Prop where
  ok : ∀ (x : α) (t : Progress), R s = .ok (x, t) → ∃ taken, s = t.rewind s.arena taken ∧
    ∀ u : Progress, u.arena = t.arena → u.sight = t.sight →
      R (u.rewind s.arena taken) = .ok (x, u)
  expected : ∀ what position, R s = .error ⟨.expected what, position⟩ →
    ∃ (taken : List Lexeme) (stop : Progress), s = stop.rewind s.arena taken ∧
      position = stop.position ∧
      ∀ u : Progress, u.sight = stop.sight →
        R (u.rewind s.arena taken) = .error ⟨.expected what, position⟩

namespace LooksAt

variable {α β : Type} {R f : Reader α} {s t : Progress}

/-! ## Putting readers together -/

/-- Two readers in a row. -/
theorem bind {f : α → Reader β} (h : LooksAt R s)
    (hf : ∀ x t, R s = .ok (x, t) → LooksAt (f x) t) :
    LooksAt (fun s => R s >>= fun r => f r.1 r.2) s := by
  constructor
  · intro y v hread
    obtain ⟨⟨x, t⟩, hx, hy⟩ := bind_eq_ok_iff.1 hread
    obtain ⟨taken, hs, hsame⟩ := h.ok x t hx
    obtain ⟨taken', ht, hsame'⟩ := (hf x t hx).ok y v hy
    refine ⟨taken ++ taken', ?_, fun u harena hsight => ?_⟩
    · rw [← Progress.rewind_rewind v t.arena, ← ht, ← hs]
    · -- behind the first reader stands what the second one takes, so it sees the same
      have hfirst := hsame (u.rewind t.arena taken') rfl (by
        rw [Progress.sight_rewind hsight t.arena t.arena, ← ht])
      rw [Progress.rewind_rewind] at hfirst
      show R (u.rewind s.arena (taken ++ taken')) >>= (fun r => f r.1 r.2) = _
      rw [hfirst]
      exact hsame' u harena hsight
  · intro what position hread
    cases hx : R s with
    | error failure =>
      rw [hx] at hread
      cases hread
      obtain ⟨taken, stop, hs, hposition, hsame⟩ := h.expected what position hx
      refine ⟨taken, stop, hs, hposition, fun u hsight => ?_⟩
      show R (u.rewind s.arena taken) >>= (fun r => f r.1 r.2) = _
      rw [hsame u hsight]
      rfl
    | ok r =>
      obtain ⟨x, t⟩ := r
      rw [hx] at hread
      obtain ⟨taken, hs, hsame⟩ := h.ok x t hx
      obtain ⟨taken', stop, ht, hposition, hsame'⟩ := (hf x t hx).expected what position hread
      refine ⟨taken ++ taken', stop, ?_, hposition, fun u hsight => ?_⟩
      · rw [← Progress.rewind_rewind stop t.arena, ← ht, ← hs]
      · have hfirst := hsame (u.rewind t.arena taken') rfl (by
          rw [Progress.sight_rewind hsight t.arena t.arena, ← ht])
        rw [Progress.rewind_rewind] at hfirst
        show R (u.rewind s.arena (taken ++ taken')) >>= (fun r => f r.1 r.2) = _
        rw [hfirst]
        exact hsame' u hsight

/-- A reader that does what another one does wherever the same shows and the same
    is stored. -/
theorem congr (h : ∀ u : Progress, u.sight = s.sight → u.arena = s.arena → R u = f u)
    (hf : LooksAt f s) : LooksAt R s := by
  have hfirst := h s rfl rfl
  constructor
  · intro x t hread
    obtain ⟨taken, hs, hsame⟩ := hf.ok x t (hfirst ▸ hread)
    refine ⟨taken, hs, fun u harena hsight => ?_⟩
    have hseen := Progress.sight_rewind hsight s.arena s.arena taken
    rw [← hs] at hseen
    rw [h _ hseen rfl]
    exact hsame u harena hsight
  · intro what position hread
    obtain ⟨taken, stop, hs, hposition, hsame⟩ := hf.expected what position (hfirst ▸ hread)
    refine ⟨taken, stop, hs, hposition, fun u hsight => ?_⟩
    have hseen := Progress.sight_rewind hsight s.arena s.arena taken
    rw [← hs] at hseen
    rw [h _ hseen rfl]
    exact hsame u hsight

/-- A reader that goes by whether a byte comes next. -/
theorem ifNext (b : UInt8) {g : Reader α} (hf : LooksAt f s) (hg : LooksAt g s) :
    LooksAt (fun s => if s.nextIs b then f s else g s) s := by
  by_cases hb : s.nextIs b = true
  · exact hf.congr fun u hu _ => if_pos (Progress.nextIs_of_sight hu b ▸ hb)
  · exact hg.congr fun u hu _ => if_neg (Progress.nextIs_of_sight hu b ▸ hb)

/-- A reader that takes a token and goes on with another one. -/
theorem take {l : Lexeme} (hs : s = t.rewind s.arena [l]) (harena : t.arena = s.arena)
    (hR : ∀ u : Progress, u.arena = s.arena → R (u.rewind s.arena [l]) = f u) (h : LooksAt f t) :
    LooksAt R s := by
  have hfirst : R s = f t := by
    rw [← hR t harena, ← hs]
  constructor
  · intro x v hread
    obtain ⟨taken, ht, hsame⟩ := h.ok x v (hfirst ▸ hread)
    refine ⟨l :: taken, ?_, fun u hu hsight => ?_⟩
    · rw [hs, ht]
      simp
    · have hrest := hR (u.rewind s.arena taken) rfl
      rw [Progress.rewind_rewind] at hrest
      rw [← List.singleton_append, hrest, ← harena]
      exact hsame u hu hsight
  · intro what position hread
    obtain ⟨taken, stop, ht, hposition, hsame⟩ := h.expected what position (hfirst ▸ hread)
    refine ⟨l :: taken, stop, ?_, hposition, fun u hsight => ?_⟩
    · rw [hs, ht]
      simp
    · have hrest := hR (u.rewind s.arena taken) rfl
      rw [Progress.rewind_rewind] at hrest
      rw [← List.singleton_append, hrest, ← harena]
      exact hsame u hsight

/-- A reader that goes on behind a byte if it comes, and where it stands if not. -/
theorem branch {b : UInt8} {f g : Reader α} (hf : s.nextIs b = true → LooksAt f s.skip)
    (hg : LooksAt g s) :
    LooksAt (fun s => match s.eat? b with
      | some t => f t
      | none => g s) s := by
  by_cases hb : s.nextIs b = true
  · obtain ⟨l, hs, hl⟩ := Progress.eq_rewind_of_nextIs hb
    refine take hs rfl (fun u hu => ?_) (hf hb)
    have heat : (u.rewind s.arena [l]).eat? b = some u := by
      rcases l with ⟨token, start⟩
      obtain rfl : token = .byte b := hl
      rcases u with ⟨arena, rest, finish⟩
      obtain rfl : arena = s.arena := hu
      simp [Progress.eat?, Progress.nextIs, Progress.rewind]
    simp only [heat]
  · -- whoever sees what shows here sees another token
    refine hg.congr fun u hu _ => ?_
    have hnone : u.eat? b = none := by
      simp [Progress.eat?, Progress.nextIs_of_sight hu, hb]
    simp only [hnone]

/-! ## Single steps -/

/-- A value without reading. -/
theorem pure (x : α) (s : Progress) : LooksAt (fun s => .ok (x, s)) s := by
  constructor
  · rintro _ _ ⟨⟩
    exact ⟨[], rfl, fun u harena _ => by rw [Progress.rewind_nil harena]⟩
  · rintro _ _ ⟨⟩

/-- An expectation that is not met where the reading stands. -/
theorem expect (what : Expected) (s : Progress) :
    LooksAt (fun s => (s.expect what : Except ReadFailure (α × Progress))) s := by
  constructor
  · rintro _ _ ⟨⟩
  · rintro _ _ ⟨⟩
    refine ⟨[], s, rfl, rfl, fun u hsight => ?_⟩
    have hposition : (u.rewind s.arena []).position = s.position :=
      Progress.position_of_sight hsight
    show Except.error _ = _
    rw [hposition]

/-- A failure for another cause says nothing of what was expected. -/
theorem of_error {failure : ReadFailure} (h : R s = .error failure)
    (hcause : ∀ what, failure.cause ≠ .expected what) : LooksAt R s := by
  constructor
  · intro x t hread
    rw [h] at hread
    cases hread
  · intro what position hread
    rw [h] at hread
    cases hread
    exact absurd rfl (hcause what)

/-- Taking a given byte. -/
theorem eat (b : UInt8) (what : Expected) (s : Progress) :
    LooksAt (fun s => s.eat b what) s := by
  have hbranch := branch (b := b) (s := s) (f := fun t => .ok (s.position + 1, t))
    (g := fun s => s.expect what) (fun _ => pure _ _) (expect what s)
  refine hbranch.congr fun u hu _ => ?_
  cases htake : u.eat? b <;> simp only [Progress.eat, htake, Progress.position_of_sight hu]

/-- Taking a byte if it comes. -/
theorem optionally (b : UInt8) (s : Progress) :
    LooksAt (fun s => .ok (s.nextIs b, (s.eat? b).getD s)) s := by
  have hbranch := branch (b := b) (s := s) (f := fun t => .ok (s.nextIs b, t))
    (g := fun t => .ok (s.nextIs b, t)) (fun _ => pure _ _) (pure _ _)
  refine hbranch.congr fun u hu _ => ?_
  rw [Progress.nextIs_of_sight hu]
  cases u.eat? b <;> rfl

/-- Keeping what an arena has grown to. -/
theorem keep (position : Nat) (grow : Arena → Arena × Except Fault Nat) (s : Progress) :
    LooksAt (fun s => s.keep position (grow s.arena)) s := by
  rcases hgrow : grow s.arena with ⟨arena, fault | id⟩
  · constructor
    all_goals
      intro _ _ hread
      rw [hgrow] at hread
      cases hread
  · constructor
    · intro x t hread
      rw [hgrow] at hread
      cases hread
      refine ⟨[], rfl, fun u harena _ => ?_⟩
      show (u.rewind s.arena []).keep position (grow s.arena) = _
      rw [hgrow]
      show Except.ok (id, u.rewind arena []) = _
      rw [Progress.rewind_nil harena]
    · intro _ _ hread
      rw [hgrow] at hread
      cases hread

/-- Asking for room before reading on. -/
theorem room {text : Bytes} {capacity position : Nat} (h : LooksAt R s) :
    LooksAt (fun s => s.ensureRoom capacity text position >>= fun _ => R s) s := by
  have hroom : ∀ u : Progress, u.arena = s.arena →
      u.ensureRoom capacity text position = s.ensureRoom capacity text position := fun u hu => by
    simp [Progress.ensureRoom, hu]
  constructor
  · intro x t hread
    obtain ⟨_, hfits, hx⟩ := bind_eq_ok_iff.1 hread
    obtain ⟨taken, hs, hsame⟩ := h.ok x t hx
    refine ⟨taken, hs, fun u harena hsight => ?_⟩
    simp only [hroom (u.rewind s.arena taken) rfl, hfits]
    exact hsame u harena hsight
  · intro what position' hread
    cases hfits : s.ensureRoom capacity text position with
    | error failure =>
      rw [hfits] at hread
      cases hread
      unfold Progress.ensureRoom at hfits
      repeat' split at hfits
      all_goals cases hfits
    | ok _ =>
      rw [hfits] at hread
      obtain ⟨taken, stop, hs, hposition, hsame⟩ := h.expected what position' hread
      refine ⟨taken, stop, hs, hposition, fun u hsight => ?_⟩
      simp only [hroom (u.rewind s.arena taken) rfl, hfits]
      exact hsame u hsight

theorem storeParent (capacity : Nat) (kind : NodeKind) (children : List Nat) (position : Nat)
    (s : Progress) : LooksAt (fun s => s.storeParent capacity kind children position) s :=
  room (keep position (fun arena => arena.addParent capacity kind children) s)

theorem storeName (capacity : Nat) (name : Bytes) (position : Nat) (s : Progress) :
    LooksAt (storeName capacity name position) s :=
  room (keep position (fun arena => arena.addAtomic capacity (keywordKind name)
    (if keywordKind name = .other then name else [])) s)

theorem storeLiteral (capacity : Nat) (text : Bytes) (position : Nat) (s : Progress) :
    LooksAt (storeLiteral capacity text position) s :=
  room (keep position (fun arena => arena.addAtomic capacity .stringLiteral text) s)

end LooksAt

/-! ## Loops without their bound -/

variable {capacity : Nat} {readType : Reader Nat}

theorem length_tokens (s : Progress) : s.tokens.length = s.rest.length :=
  List.length_map _

/-- A field takes tokens. -/
theorem IsSound.field_length (h : IsSound readType) {s t : Progress} {id : Nat}
    (hread : readField capacity readType s = .ok (id, t)) : t.rest.length < s.rest.length := by
  obtain ⟨name, optional, type, htokens⟩ := h.field hread
  have hlen := congrArg List.length htokens
  simp only [List.length_cons, List.length_append, length_tokens] at hlen
  omega

/-- A case takes tokens. -/
theorem IsSound.case_length (h : IsSound readType) {s t : Progress} {id : Nat}
    (hread : readCase capacity readType s = .ok (id, t)) : t.rest.length < s.rest.length := by
  obtain ⟨phrase, htokens, -⟩ := h.case hread
  have hlen := congrArg List.length htokens
  have hpos := List.length_pos_iff.2 phrase.tokens_ne_nil
  simp only [List.length_append, length_tokens] at hlen
  omega

theorem length_le_of_eat? {s t : Progress} {b : UInt8} (h : s.eat? b = some t) :
    t.rest.length ≤ s.rest.length := by
  obtain ⟨-, rfl⟩ := Progress.eat?_eq_some_iff.1 h
  exact List.length_tail ▸ Nat.sub_le _ _

/-- Without tokens no field is read, however many rounds there are. -/
theorem readFields_of_nil {s : Progress} (h : s.rest = []) (rounds : Nat) :
    readFields capacity readType rounds s = s.expect .fieldName := by
  cases rounds with
  | zero => rfl
  | succ rounds =>
    rw [readFields, readField, readFieldName, h]
    rfl

theorem readCases_of_nil {s : Progress} (h : s.rest = []) (rounds : Nat) (cases : List Nat) :
    readCases capacity readType rounds cases s = s.expect .type := by
  cases rounds with
  | zero => rfl
  | succ rounds =>
    rw [readCases, readCase, h]
    rfl

/-- The bound on the rounds is never what ends the fields of an object. -/
theorem IsSound.readFields_rounds (h : IsSound readType) {rounds rounds' : Nat} {s : Progress}
    (hle : s.rest.length ≤ rounds) (hle' : s.rest.length ≤ rounds') :
    readFields capacity readType rounds s = readFields capacity readType rounds' s := by
  induction rounds generalizing rounds' s with
  | zero =>
    have hnil := List.length_eq_zero_iff.1 (Nat.le_zero.1 hle)
    rw [readFields_of_nil hnil, readFields_of_nil hnil]
  | succ rounds ih =>
    cases rounds' with
    | zero =>
      have hnil := List.length_eq_zero_iff.1 (Nat.le_zero.1 hle')
      rw [readFields_of_nil hnil, readFields_of_nil hnil]
    | succ rounds' =>
      rw [readFields, readFields]
      cases hfield : readField capacity readType s with
      | error failure => rfl
      | ok r =>
        obtain ⟨id, t⟩ := r
        have hlen := h.field_length hfield
        simp only [bind, Except.bind]
        cases hcomma : t.eat? Byte.comma with
        | none => rfl
        | some u =>
          have hlen' := length_le_of_eat? hcomma
          have hrest : readFields capacity readType rounds u =
              readFields capacity readType rounds' u := ih (by omega) (by omega)
          simp only [hrest]

/-- The bound on the rounds is never what ends the cases of a union. -/
theorem IsSound.readCases_rounds (h : IsSound readType) {rounds rounds' : Nat} {s : Progress}
    {cases : List Nat} (hle : s.rest.length ≤ rounds) (hle' : s.rest.length ≤ rounds') :
    readCases capacity readType rounds cases s = readCases capacity readType rounds' cases s := by
  induction rounds generalizing rounds' s cases with
  | zero =>
    have hnil := List.length_eq_zero_iff.1 (Nat.le_zero.1 hle)
    rw [readCases_of_nil hnil, readCases_of_nil hnil]
  | succ rounds ih =>
    cases rounds' with
    | zero =>
      have hnil := List.length_eq_zero_iff.1 (Nat.le_zero.1 hle')
      rw [readCases_of_nil hnil, readCases_of_nil hnil]
    | succ rounds' =>
      rw [readCases, readCases]
      cases hcase : readCase capacity readType s with
      | error failure => rfl
      | ok r =>
        obtain ⟨id, t⟩ := r
        have hlen := h.case_length hcase
        simp only [bind, Except.bind]
        cases hbar : t.eat? Byte.bar with
        | none => rfl
        | some u =>
          have hlen' := length_le_of_eat? hbar
          exact ih (by omega) (by omega)

/-- The fields of an object, in as many rounds as there are tokens. -/
def readAllFields (capacity : Nat) (readType : Reader Nat) : Reader (List Nat) := fun s =>
  readFields capacity readType s.rest.length s

/-- The cases of a union, in as many rounds as there are tokens. -/
def readAllCases (capacity : Nat) (readType : Reader Nat) (cases : List Nat) :
    Reader (List Nat) := fun s =>
  readCases capacity readType s.rest.length cases s

/-- What follows a field: the end of the fields, or a comma with or without more
    fields behind it. -/
def readMoreFields (capacity : Nat) (readType : Reader Nat) (field : Nat) :
    Reader (List Nat) := fun s =>
  match s.eat? Byte.comma with
  | some t =>
    if t.nextIs Byte.closeBrace then .ok ([field], t)
    else readAllFields capacity readType t >>= fun r => .ok (field :: r.1, r.2)
  | none => .ok ([field], s)

/-- What follows a case: the end of the cases, or a bar and more cases. -/
def readMoreCases (capacity : Nat) (readType : Reader Nat) (cases : List Nat) (new : Nat) :
    Reader (List Nat) := fun s =>
  match s.eat? Byte.bar with
  | some t => readAllCases capacity readType (insertCase s.arena cases new) t
  | none => .ok (insertCase s.arena cases new, s)

/-- What becomes of cases that were read: a single case is the type, and several are
    stored where the reading stands. -/
def storeCases (capacity : Nat) (cases : List Nat) : Reader Nat := fun s =>
  match cases with
  | [only] => .ok (only, s)
  | _ => s.storeParent capacity .union cases s.position

theorem IsSound.readAllFields_eq (h : IsSound readType) :
    readAllFields capacity readType = fun s =>
      readField capacity readType s >>= fun r => readMoreFields capacity readType r.1 r.2 := by
  funext s
  rw [readAllFields, h.readFields_rounds (Nat.le_refl _) (Nat.le_succ _), readFields]
  cases hfield : readField capacity readType s with
  | error failure => rfl
  | ok r =>
    obtain ⟨id, t⟩ := r
    have hlen := h.field_length hfield
    simp only [bind, Except.bind, readMoreFields]
    cases hcomma : t.eat? Byte.comma with
    | none => rfl
    | some u =>
      have hlen' := length_le_of_eat? hcomma
      have hrest : readFields capacity readType s.rest.length u =
          readFields capacity readType u.rest.length u :=
        h.readFields_rounds (by omega) (Nat.le_refl _)
      simp only [readAllFields, hrest]

theorem IsSound.readAllCases_eq (h : IsSound readType) (cases : List Nat) :
    readAllCases capacity readType cases = fun s =>
      readCase capacity readType s >>= fun r =>
        readMoreCases capacity readType cases r.1 r.2 := by
  funext s
  rw [readAllCases, h.readCases_rounds (Nat.le_refl _) (Nat.le_succ _), readCases]
  cases hcase : readCase capacity readType s with
  | error failure => rfl
  | ok r =>
    obtain ⟨id, t⟩ := r
    have hlen := h.case_length hcase
    simp only [bind, Except.bind, readMoreCases]
    cases hbar : t.eat? Byte.bar with
    | none => rfl
    | some u =>
      have hlen' := length_le_of_eat? hbar
      exact h.readCases_rounds (by omega) (Nat.le_refl _)

/-! ## The parts of a type -/

theorem readFieldName_of_sight {s : Progress} (hname : s.sight.1 ≠ some .name)
    (hquoted : s.sight.1 ≠ some .quoted) : readFieldName s = s.expect .fieldName := by
  rcases s with ⟨arena, _ | ⟨⟨token, start⟩, rest⟩, finish⟩
  · rfl
  · cases token with
    | name => exact absurd rfl hname
    | quoted | quotedNul | unclosed => exact absurd rfl hquoted
    | byte => rfl

theorem readCase_of_sight {s : Progress} (hname : s.sight.1 ≠ some .name)
    (hquoted : s.sight.1 ≠ some .quoted) (hopen : s.sight.1 ≠ some (.byte Byte.openBrace)) :
    readCase capacity readType s = s.expect .type := by
  rcases s with ⟨arena, _ | ⟨⟨token, start⟩, rest⟩, finish⟩
  · rfl
  · cases token with
    | name => exact absurd rfl hname
    | quoted | quotedNul | unclosed => exact absurd rfl hquoted
    | byte b =>
      have hb : b ≠ Byte.openBrace := fun e => hopen (by rw [e]; rfl)
      simp [readCase, hb]

namespace LooksAt

/-- Taking the next token, whatever it is, and going on with another reader. -/
theorem skip {l : Lexeme} {rest : List Lexeme} (hs : s.rest = l :: rest)
    (hR : ∀ u : Progress, R (u.rewind s.arena [l]) = f ⟨s.arena, u.rest, u.finish⟩)
    (hf : LooksAt f s.skip) : LooksAt R s := by
  refine take (l := l) (t := s.skip) ?_ rfl (fun u hu => ?_) hf
  · rcases s with ⟨arena, rest', finish⟩
    obtain rfl := hs
    rfl
  · rw [hR u, ← hu]

theorem fieldName (s : Progress) : LooksAt readFieldName s := by
  have hexpect := expect (α := Bytes) .fieldName s
  rcases hs : s.rest with _ | ⟨⟨token, start⟩, rest⟩
  · refine hexpect.congr fun u hu _ => readFieldName_of_sight ?_ ?_
    all_goals
      rw [hu]
      simp [Progress.sight, hs]
  · cases token with
    | name text => exact skip hs (f := fun t => .ok (text, t)) (fun u => rfl) (pure _ _)
    | quoted text => exact skip hs (f := fun t => .ok (text, t)) (fun u => rfl) (pure _ _)
    | quotedNul offset =>
      have hnul : readFieldName s = .error ⟨.nulInLiteral, offset⟩ := by rw [readFieldName, hs]
      exact of_error hnul (by rintro _ ⟨⟩)
    | unclosed =>
      have hopen : readFieldName s = .error ⟨.unterminatedLiteral, start⟩ := by
        rw [readFieldName, hs]
      exact of_error hopen (by rintro _ ⟨⟩)
    | byte b =>
      refine hexpect.congr fun u hu _ => readFieldName_of_sight ?_ ?_
      all_goals
        rw [hu]
        simp [Progress.sight, hs, Token.sort]

theorem field (h : ∀ s, LooksAt readType s) (s : Progress) :
    LooksAt (readField capacity readType) s := by
  -- the steps behind the name, each given what was read before
  have hstore : ∀ name optional type t, LooksAt (fun t : Progress =>
      t.ensureRoom capacity name s.position >>= fun _ =>
        t.keep s.position (t.arena.addField capacity name type optional)) t :=
    fun name optional type t =>
      room (keep s.position (fun arena => arena.addField capacity name type optional) t)
  have htype := fun name optional t => (h t).bind fun type t _ => hstore name optional type t
  have hcolon := fun name optional t =>
    (eat Byte.colon .colon t).bind fun _ t _ => htype name optional t
  have hmark := fun name t =>
    (optionally Byte.questionMark t).bind fun optional t _ => hcolon name optional t
  refine ((fieldName s).bind fun name t _ => hmark name t).congr fun u hu _ => ?_
  rw [readField, Progress.position_of_sight hu]
  rfl

variable (hsound : IsSound readType) (hlooks : ∀ s, LooksAt readType s)

include hsound hlooks

/-- The fields of an object, by the number of tokens that are left. -/
theorem fields (s : Progress) : LooksAt (readAllFields capacity readType) s := by
  induction hlen : s.rest.length using Nat.strong_induction_on generalizing s with
  | _ n ih =>
    rw [hsound.readAllFields_eq]
    refine (field hlooks s).bind fun id t hread => ?_
    have hshorter := hsound.field_length hread
    refine branch (fun hcomma => ifNext _ (pure _ _) ?_) (pure _ _)
    have hskip : t.skip.rest.length ≤ t.rest.length := List.length_tail ▸ Nat.sub_le _ _
    exact (ih _ (by omega) t.skip rfl).bind fun fields u _ => pure _ u

theorem object (s : Progress) : LooksAt (readObject capacity readType) s := by
  have hstore := fun fields t =>
    (eat Byte.closeBrace .commaOrBrace t).bind fun stop t _ =>
      storeParent capacity .object fields stop t
  exact (fields hsound hlooks s).bind fun fields t _ => hstore fields t

omit hsound in
theorem array (s : Progress) : LooksAt (readArray capacity readType) s := by
  have hstore := fun element t =>
    (eat Byte.closeAngle .closeAngle t).bind fun stop t _ =>
      storeParent capacity .array [element] stop t
  exact (hlooks s).bind fun element t _ => hstore element t

theorem case (s : Progress) : LooksAt (readCase capacity readType) s := by
  have hexpect := expect (α := Nat) .type s
  rcases hs : s.rest with _ | ⟨⟨token, start⟩, rest⟩
  · refine hexpect.congr fun u hu _ => readCase_of_sight ?_ ?_ ?_
    all_goals
      rw [hu]
      simp [Progress.sight, hs]
  · cases token with
    | quotedNul offset =>
      have hnul : readCase capacity readType s = .error ⟨.nulInLiteral, offset⟩ := by
        rw [readCase, hs]
      exact of_error hnul (by rintro _ ⟨⟩)
    | unclosed =>
      have hopen : readCase capacity readType s = .error ⟨.unterminatedLiteral, start⟩ := by
        rw [readCase, hs]
      exact of_error hopen (by rintro _ ⟨⟩)
    | quoted text =>
      exact skip hs (fun u => rfl) (LooksAt.storeLiteral capacity text start s.skip)
    | byte b =>
      by_cases hb : b = Byte.openBrace
      · subst hb
        exact skip hs (fun u => rfl) (object hsound hlooks s.skip)
      · refine hexpect.congr fun u hu _ => readCase_of_sight ?_ ?_ ?_
        all_goals
          rw [hu]
          simp [Progress.sight, hs, Token.sort, hb]
    | name text =>
      have hstore := LooksAt.storeName capacity text start s.skip
      by_cases htext : text = arrayName
      · subst htext
        -- an angle bracket behind the name makes it an array
        have hbranch := branch (b := Byte.openAngle) (s := s.skip)
          (f := readArray capacity readType) (g := Signature.storeName capacity arrayName start)
          (fun _ => array hlooks s.skip.skip) hstore
        refine skip hs (fun u => ?_) hbranch
        show readCase capacity readType ⟨s.arena, ⟨.name arrayName, start⟩ :: u.rest, u.finish⟩ = _
        cases htake : (Progress.mk s.arena u.rest u.finish).eat? Byte.openAngle <;>
          simp only [readCase, htake, if_true]
      · refine skip hs (fun u => ?_) hstore
        show readCase capacity readType ⟨s.arena, ⟨.name text, start⟩ :: u.rest, u.finish⟩ = _
        rw [readCase]
        simp only [htext, if_false]

/-- The cases of a union, by the number of tokens that are left. -/
theorem cases (before : List Nat) (s : Progress) :
    LooksAt (readAllCases capacity readType before) s := by
  induction hlen : s.rest.length using Nat.strong_induction_on generalizing s before with
  | _ n ih =>
    rw [hsound.readAllCases_eq]
    refine (case hsound hlooks s).bind fun id t hread => ?_
    have hshorter := hsound.case_length hread
    have hskip : t.skip.rest.length ≤ t.rest.length := List.length_tail ▸ Nat.sub_le _ _
    have hbranch := branch (b := Byte.bar) (s := t)
      (f := readAllCases capacity readType (insertCase t.arena before id))
      (g := fun u => .ok (insertCase t.arena before id, u))
      (fun _ => ih _ (by omega) _ t.skip rfl) (pure _ _)
    refine hbranch.congr fun u _ harena => ?_
    rw [readMoreCases, harena]

theorem union (s : Progress) : LooksAt (readUnion capacity readType) s := by
  have hstore : ∀ ids t, LooksAt (storeCases capacity ids) t := by
    intro ids t
    rcases ids with _ | ⟨only, _ | ⟨second, others⟩⟩
    · refine (storeParent capacity .union [] t.position t).congr fun u hu _ => ?_
      simp only [storeCases, Progress.position_of_sight hu]
    · exact pure only t
    · refine (storeParent capacity .union (only :: second :: others) t.position t).congr
        fun u hu _ => ?_
      simp only [storeCases, Progress.position_of_sight hu]
  exact (cases hsound hlooks [] s).bind fun ids t _ => hstore ids t

end LooksAt

/-- A type, however many levels there are. -/
theorem readType_looksAt (capacity levels : Nat) (s : Progress) :
    LooksAt (Signature.readType capacity levels) s := by
  induction levels generalizing s with
  | zero =>
    have hdeep : Signature.readType capacity 0 s = .error ⟨.nestedTooDeeply, s.position⟩ := rfl
    exact .of_error hdeep nofun
  | succ levels ih => exact .union (readType_isSound capacity levels) ih s

/-! ## Whole texts -/

/-- A type with nothing behind it. -/
def readAll (capacity : Nat) : Reader Nat := fun s => do
  let (root, s) ← Signature.readType capacity capacity s
  if s.rest.isEmpty then .ok (root, s) else s.expect .endOfInput

/-- A text is read from its start to its end. -/
theorem read_eq_readAll (capacity : Nat) (text : Bytes) :
    read capacity text =
      (readAll capacity (start text)).map fun r => ⟨r.2.arena, some r.1⟩ := by
  rw [read, readAll, start]
  cases Signature.readType capacity capacity ⟨.empty, TypeSig.tokens text, text.length⟩ with
  | error failure => rfl
  | ok r =>
    obtain ⟨root, t⟩ := r
    simp only [bind, Except.bind]
    split
    · rfl
    · rfl

/-- Reading a whole text looks one token ahead. -/
theorem readAll_looksAt (capacity : Nat) (s : Progress) : LooksAt (readAll capacity) s := by
  have hend : ∀ (root : Nat) (t : Progress), LooksAt (fun t : Progress =>
      if t.rest.isEmpty then .ok (root, t) else t.expect .endOfInput) t := by
    intro root t
    by_cases hempty : t.rest.isEmpty = true
    · refine (LooksAt.pure root t).congr fun u hu _ => ?_
      rw [Progress.isEmpty_of_sight hu, if_pos hempty]
    · refine (LooksAt.expect .endOfInput t).congr fun u hu _ => ?_
      rw [Progress.isEmpty_of_sight hu, if_neg hempty]
  exact (readType_looksAt capacity capacity s).bind fun root t _ => hend root t

end TypeSig.Signature
