/-
  TypeSig.Proofs.Target.Unbounded

  Names and literals of the target language as they are where texts have no bound:
  the same spelling, the same escape of reserved words and the same search for a
  number, on plain bytes. Each function here is the reference for the function of the
  same name that works on bounded texts, and where that one comes to a result, the
  bytes of the result are those of the reference.

  Main statements: `adaptName_bytes`, `fieldNames_bytes` and `wording_quotedPieces`.
-/

import TypeSig.Proofs.Target.Names

namespace TypeSig

/-! ## The references -/

namespace Unbounded

/-- A spelling under way, and whether a byte that is in no word came last. -/
structure Spelling where
  text : Bytes
  atBreak : Bool

namespace Spelling

/-- The spelling of nothing. -/
def start : Spelling := ⟨[], false⟩

/-- Takes in one byte of the source name. -/
def step (s : Spelling) (b : UInt8) : Spelling :=
  if Byte.isWordByte b then
    if s.atBreak && !s.text.isEmpty then
      ⟨s.text ++ (if Byte.isDigit b then [Byte.underscore] else []) ++ [Byte.toUpper b], false⟩
    else
      ⟨s.text ++ [b], false⟩
  else
    { s with atBreak := true }

/-- The spelling with what it needs at its start. -/
def finish (s : Spelling) : Bytes :=
  match s.text with
  | [] => ascii "empty"
  | b :: rest => if Byte.isDigit b then Byte.underscore :: b :: rest else b :: rest

end Spelling

/-- The spelling of a source name, which may still be a reserved word. -/
def spell (source : Bytes) : Bytes :=
  (source.foldl Spelling.step .start).finish

/-- A spelling as a name: a reserved word is escaped. -/
def escapeReserved (spelling : Bytes) : Bytes :=
  if Target.isReserved spelling then
    Target.escapeMark ++ spelling ++ Target.escapeMark
  else
    spelling

/-- The name for a name of the source language. -/
def adaptName (source : Bytes) : Bytes :=
  escapeReserved (spell source)

/-- A spelling with a number behind it, as a name. -/
def numberedName (spelling : Bytes) (n : Nat) : Bytes :=
  escapeReserved (spelling ++ decimal n)

/-- The first numbered name from `n` on that is not taken. -/
def freeNumberedName (taken : List Bytes) (spelling : Bytes) : Nat → Nat → Bytes
  | 0, n => numberedName spelling n
  | tries + 1, n =>
    if numberedName spelling n ∈ taken then
      freeNumberedName taken spelling tries (n + 1)
    else
      numberedName spelling n

/-- A name for a field that no field in front of it has. -/
def freeName (taken : List Bytes) (source : Bytes) : Bytes :=
  if adaptName source ∈ taken then
    freeNumberedName taken (spell source) taken.length 2
  else
    adaptName source

/-- The names for the fields of an object, in their order. -/
def fieldNames (sources : List Bytes) : List Bytes :=
  sources.foldl (fun taken source => taken ++ [freeName taken source]) []

/-- The literal for a text. -/
def quotedCode (text : Bytes) : Bytes :=
  [Byte.doubleQuote] ++ text.flatMap Target.escaped ++ [Byte.doubleQuote]

end Unbounded

/-! ## Bounded names are these -/

/-- A text is among others if its bytes are among theirs. -/
theorem BoundedText.bytes_mem_map_iff {limit : Nat} {texts : List (BoundedText limit)}
    {text : BoundedText limit} : text.bytes ∈ texts.map bytes ↔ text ∈ texts := by
  constructor
  · intro h
    obtain ⟨other, hother, hbytes⟩ := List.mem_map.1 h
    rwa [← BoundedText.ext hbytes]
  · exact List.mem_map_of_mem

namespace Target

/-- What a spelling says, without its bound. -/
def Spelling.forget (s : Spelling) : Unbounded.Spelling :=
  ⟨s.text.bytes, s.atBreak⟩

theorem Spelling.step_forget {s next : Spelling} {b : UInt8} (h : s.step b = .ok next) :
    next.forget = s.forget.step b := by
  unfold step at h
  unfold Unbounded.Spelling.step
  by_cases hword : Byte.isWordByte b = true
  · rw [if_pos hword] at h ⊢
    have hopen : (s.forget.atBreak && !s.forget.text.isEmpty) = (s.atBreak && !s.text.isEmpty) :=
      rfl
    rw [hopen]
    by_cases hbreak : (s.atBreak && !s.text.isEmpty) = true
    · rw [if_pos hbreak] at h ⊢
      by_cases hdigit : Byte.isDigit b = true
      · simp only [hdigit, if_true] at h
        obtain ⟨opened, hopened, h⟩ := bind_eq_ok_iff.1 h
        obtain ⟨longer, hlonger, h⟩ := bind_eq_ok_iff.1 h
        cases h
        rw [if_pos hdigit, forget, BoundedText.append_eq_ok hlonger,
          BoundedText.append_eq_ok hopened]
        rfl
      · -- nothing is put in front of a letter, so the text stays as it is before the byte
        simp only [hdigit, Bool.false_eq_true, if_false] at h
        obtain ⟨_, hsame, h⟩ := bind_eq_ok_iff.1 h
        obtain ⟨longer, hlonger, h⟩ := bind_eq_ok_iff.1 h
        cases h
        cases hsame
        rw [if_neg hdigit, List.append_nil, forget, BoundedText.append_eq_ok hlonger]
        rfl
    · rw [if_neg hbreak] at h ⊢
      obtain ⟨longer, hlonger, h⟩ := bind_eq_ok_iff.1 h
      cases h
      rw [forget, BoundedText.append_eq_ok hlonger]
      rfl
  · rw [if_neg hword] at h ⊢
    cases h
    rfl

theorem Spelling.foldlM_forget {source : Bytes} {s last : Spelling}
    (h : source.foldlM step s = .ok last) :
    last.forget = source.foldl Unbounded.Spelling.step s.forget := by
  induction source generalizing s with
  | nil =>
    cases h
    rfl
  | cons b rest ih =>
    rw [List.foldlM_cons] at h
    obtain ⟨next, hnext, hrest⟩ := bind_eq_ok_iff.1 h
    rw [List.foldl_cons, ← step_forget hnext]
    exact ih hrest

theorem Spelling.finish_bytes {s : Spelling} {name : Identifier} (h : s.finish = .ok name) :
    name.bytes = s.forget.finish := by
  obtain ⟨⟨bytes, hbytes⟩, atBreak⟩ := s
  cases bytes with
  | nil =>
    cases h
    rfl
  | cons b rest =>
    by_cases hdigit : Byte.isDigit b = true
    · simp only [finish, hdigit, if_true] at h
      obtain ⟨opened, hopened, h⟩ := bind_eq_ok_iff.1 h
      rw [BoundedText.append_eq_ok h, BoundedText.append_eq_ok hopened]
      simp [forget, Unbounded.Spelling.finish, hdigit]
    · simp only [finish, hdigit] at h
      cases h
      simp [forget, Unbounded.Spelling.finish, hdigit]

theorem spell_bytes {source : Bytes} {name : Identifier} (h : spell source = .ok name) :
    name.bytes = Unbounded.spell source := by
  obtain ⟨last, hlast, hfinish⟩ := bind_eq_ok_iff.1 h
  rw [Spelling.finish_bytes hfinish, Spelling.foldlM_forget hlast]
  rfl

theorem escapeReserved_bytes {spelling name : Identifier} (h : escapeReserved spelling = .ok name) :
    name.bytes = Unbounded.escapeReserved spelling.bytes := by
  unfold escapeReserved at h
  unfold Unbounded.escapeReserved
  by_cases hreserved : isReserved spelling.bytes = true
  · rw [if_pos hreserved] at h ⊢
    obtain ⟨opened, hopened, h⟩ := bind_eq_ok_iff.1 h
    obtain ⟨filled, hfilled, h⟩ := bind_eq_ok_iff.1 h
    rw [BoundedText.append_eq_ok h, BoundedText.append_eq_ok hfilled,
      BoundedText.append_eq_ok hopened]
    rfl
  · rw [if_neg hreserved] at h ⊢
    cases h
    rfl

theorem adaptName_bytes {source : Bytes} {name : Identifier} (h : adaptName source = .ok name) :
    name.bytes = Unbounded.adaptName source := by
  obtain ⟨spelling, hspelling, hescape⟩ := bind_eq_ok_iff.1 h
  rw [escapeReserved_bytes hescape, spell_bytes hspelling]
  rfl

theorem numberedName_bytes {spelling name : Identifier} {n : Nat}
    (h : numberedName spelling n = .ok name) :
    name.bytes = Unbounded.numberedName spelling.bytes n := by
  obtain ⟨numbered, hnumbered, hescape⟩ := bind_eq_ok_iff.1 h
  rw [escapeReserved_bytes hescape, BoundedText.append_eq_ok hnumbered]
  rfl

theorem freeNumberedName_bytes {taken : List Identifier} {spelling name : Identifier}
    {tries : Nat} :
    ∀ {n : Nat}, freeNumberedName taken spelling tries n = .ok name →
      name.bytes =
        Unbounded.freeNumberedName (taken.map BoundedText.bytes) spelling.bytes tries n := by
  induction tries with
  | zero => exact fun h => numberedName_bytes h
  | succ tries ih =>
    intro n h
    obtain ⟨numbered, hnumbered, h⟩ := bind_eq_ok_iff.1 h
    rw [Unbounded.freeNumberedName, ← numberedName_bytes hnumbered]
    -- both searches go on at the same numbers
    by_cases htaken : numbered ∈ taken
    · rw [if_pos htaken] at h
      rw [if_pos (BoundedText.bytes_mem_map_iff.2 htaken)]
      exact ih h
    · rw [if_neg htaken] at h
      rw [if_neg fun hmem => htaken (BoundedText.bytes_mem_map_iff.1 hmem)]
      cases h
      rfl

theorem freeName_bytes {taken : List Identifier} {source : Bytes} {name : Identifier}
    (h : freeName taken source = .ok name) :
    name.bytes = Unbounded.freeName (taken.map BoundedText.bytes) source := by
  obtain ⟨spelling, hspelling, h⟩ := bind_eq_ok_iff.1 h
  obtain ⟨bare, hbare, h⟩ := bind_eq_ok_iff.1 h
  have hadapt : bare.bytes = Unbounded.adaptName source :=
    adaptName_bytes (bind_eq_ok_iff.2 ⟨spelling, hspelling, hbare⟩)
  rw [Unbounded.freeName, ← hadapt, ← spell_bytes hspelling, List.length_map]
  by_cases htaken : bare ∈ taken
  · rw [if_pos htaken] at h
    rw [if_pos (BoundedText.bytes_mem_map_iff.2 htaken)]
    exact freeNumberedName_bytes h
  · rw [if_neg htaken] at h
    rw [if_neg fun hmem => htaken (BoundedText.bytes_mem_map_iff.1 hmem)]
    cases h
    rfl

theorem extendNames_bytes {capacity : Nat} {sources : List Bytes} {names : List Identifier} :
    ∀ {taken : List Identifier}, extendNames capacity taken sources = .ok names →
      names.map BoundedText.bytes =
        sources.foldl (fun taken source => taken ++ [Unbounded.freeName taken source])
          (taken.map BoundedText.bytes) := by
  induction sources with
  | nil =>
    intro taken h
    cases h
    rfl
  | cons source rest ih =>
    intro taken h
    rw [extendNames] at h
    split at h
    · cases h
    · obtain ⟨name, hname, hrest⟩ := bind_eq_ok_iff.1 h
      rw [ih hrest, List.map_append, List.map_singleton, freeName_bytes hname, List.foldl_cons]

theorem fieldNames_bytes {capacity : Nat} {sources : List Bytes} {names : List Identifier}
    (h : fieldNames capacity sources = .ok names) :
    names.map BoundedText.bytes = Unbounded.fieldNames sources :=
  extendNames_bytes h

/-- A text literal says what the reference says, if it has room. -/
theorem wording_quotedPieces (text : Bytes) :
    wording (.ok [Byte.doubleQuote] :: text.map (fun b => .ok (escaped b)) ++
      [.ok [Byte.doubleQuote]]) = Unbounded.quotedCode text := by
  rw [List.cons_append, wording_ok_cons, wording_append, wording_map_ok, wording_ok_cons,
    wording_nil, List.append_nil, ← List.append_assoc]
  rfl

end Target

namespace Unbounded

/-- There is a name for each field. -/
theorem length_fieldNames (sources : List Bytes) :
    (fieldNames sources).length = sources.length := by
  have hlength : ∀ (sources taken : List Bytes),
      (sources.foldl (fun taken source => taken ++ [freeName taken source]) taken).length =
        taken.length + sources.length := by
    intro sources
    induction sources with
    | nil => exact fun taken => rfl
    | cons source rest ih =>
      intro taken
      rw [List.foldl_cons, ih, List.length_append, List.length_singleton, List.length_cons]
      omega
  rw [fieldNames, hlength, List.length_nil, Nat.zero_add]

end Unbounded

end TypeSig
