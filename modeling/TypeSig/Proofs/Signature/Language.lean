/-
  TypeSig.Proofs.Signature.Language

  Reading whole texts. The reader accepts exactly the texts that the grammar
  derives, as far as it does not give up for lack of room, and it gives up
  exactly when the text asks for more than there is.

  The two halves meet here. A text that is read is derived, since the tokens
  that the reader took are those of a phrase. A text that is derived is read at
  the cost of its phrase or fails for a lack that the phrase explains. That every
  open type costs a node makes the bound on nesting follow from the bound on
  nodes.
-/

import TypeSig.Proofs.Signature.Sound

namespace TypeSig.Signature

variable {capacity : Nat} {text : Bytes} {phrase : TypePhrase}

/-! ## Texts in the language -/

theorem isWhole_of_mem_mark {b : UInt8} {present : Bool} :
    ∀ t ∈ mark b present, t.isWhole = true := by
  cases present <;> simp [mark, Token.isWhole]

theorem FieldName.isWhole_token (name : FieldName) : name.token.isWhole = true := by
  cases name <;> rfl

mutual

/-- A type is derived from whole tokens. -/
theorem TypePhrase.isWhole : ∀ (phrase : TypePhrase), ∀ t ∈ phrase.tokens, t.isWhole = true
  | .last c => c.isWhole
  | .more c rest => by
    simp only [TypePhrase.tokens, List.forall_mem_append, List.forall_mem_cons]
    exact ⟨c.isWhole, rfl, rest.isWhole⟩

theorem CasePhrase.isWhole : ∀ (phrase : CasePhrase), ∀ t ∈ phrase.tokens, t.isWhole = true
  | .name _ => List.forall_mem_singleton.2 rfl
  | .literal _ => List.forall_mem_singleton.2 rfl
  | .array element => by
    simp only [CasePhrase.tokens, List.forall_mem_append, List.forall_mem_cons]
    exact ⟨rfl, rfl, element.isWhole, rfl, List.forall_mem_nil _⟩
  | .object fields => by
    simp only [CasePhrase.tokens, List.forall_mem_append, List.forall_mem_cons]
    exact ⟨rfl, fields.isWhole, rfl, List.forall_mem_nil _⟩

theorem FieldsPhrase.isWhole : ∀ (phrase : FieldsPhrase), ∀ t ∈ phrase.tokens, t.isWhole = true
  | .last name _ type _ => by
    simp only [FieldsPhrase.tokens, List.forall_mem_append, List.forall_mem_cons]
    exact ⟨name.isWhole_token, isWhole_of_mem_mark, rfl, type.isWhole, isWhole_of_mem_mark⟩
  | .more name _ type rest => by
    simp only [FieldsPhrase.tokens, List.forall_mem_append, List.forall_mem_cons]
    exact ⟨name.isWhole_token, isWhole_of_mem_mark, rfl, type.isWhole, rfl, rest.isWhole⟩

end

theorem FieldName.quotable (name : FieldName) (h : name.token.Proper) : Quotable name.text := by
  cases name with
  | plain text => exact .of_isName h
  | quoted text => exact h

mutual

/-- The texts in a type are names or can stand in quotes. -/
theorem TypePhrase.quotable : ∀ phrase : TypePhrase, (∀ t ∈ phrase.tokens, t.Proper) →
    ∀ text ∈ phrase.texts, Quotable text
  | .last c, h => c.quotable h
  | .more c rest, h => by
    simp only [TypePhrase.tokens, List.forall_mem_append, List.forall_mem_cons] at h
    obtain ⟨hc, -, hrest⟩ := h
    exact List.forall_mem_append.2 ⟨c.quotable hc, rest.quotable hrest⟩

theorem CasePhrase.quotable : ∀ phrase : CasePhrase, (∀ t ∈ phrase.tokens, t.Proper) →
    ∀ text ∈ phrase.texts, Quotable text
  | .name _, h => List.forall_mem_singleton.2 (.of_isName (h _ List.mem_cons_self))
  | .literal _, h => List.forall_mem_singleton.2 (h _ List.mem_cons_self)
  | .array element, h => by
    simp only [CasePhrase.tokens, List.forall_mem_append, List.forall_mem_cons] at h
    obtain ⟨-, -, helement, -⟩ := h
    exact element.quotable helement
  | .object fields, h => by
    simp only [CasePhrase.tokens, List.forall_mem_append, List.forall_mem_cons] at h
    obtain ⟨-, hfields, -⟩ := h
    exact fields.quotable hfields

theorem FieldsPhrase.quotable : ∀ phrase : FieldsPhrase, (∀ t ∈ phrase.tokens, t.Proper) →
    ∀ text ∈ phrase.texts, Quotable text
  | .last name _ type _, h => by
    simp only [FieldsPhrase.tokens, List.forall_mem_append, List.forall_mem_cons] at h
    obtain ⟨hname, -, -, htype, -⟩ := h
    exact List.forall_mem_cons.2 ⟨name.quotable hname, type.quotable htype⟩
  | .more name _ type rest, h => by
    simp only [FieldsPhrase.tokens, List.forall_mem_append, List.forall_mem_cons] at h
    obtain ⟨hname, -, -, htype, -, hrest⟩ := h
    have hothers := List.forall_mem_append.2 ⟨type.quotable htype, rest.quotable hrest⟩
    exact List.forall_mem_cons.2 ⟨name.quotable hname, hothers⟩

end

/-- No text in a phrase that derives a text holds a NUL. -/
theorem Derives.nul_notMem (h : Derives phrase text) : ∀ t ∈ phrase.texts, Byte.nul ∉ t :=
  fun t ht => (phrase.quotable (Spells.proper h) t ht).nul

/-! ## Reading a text -/

/-- Where the reading of a text starts. -/
def start (text : Bytes) : Progress :=
  ⟨.empty, tokens text, text.length⟩

theorem Derives.tokens_start (h : Derives phrase text) :
    (start text).tokens = phrase.tokens ++ [] := by
  rw [List.append_nil]
  exact Spells.tokens_eq h

/-- A text that is read is derived. -/
theorem exists_derives_of_read {stored : StoredTree} (h : read capacity text = .ok stored) :
    ∃ phrase, Derives phrase text := by
  obtain ⟨⟨root, t⟩, htype, hread⟩ := bind_eq_ok_iff.1 h
  obtain ⟨phrase, htokens, -⟩ := readType_isSound capacity capacity _ _ _ htype
  -- a token behind the type would have been reported
  have hnil : t.tokens = [] := by
    by_cases hempty : t.rest.isEmpty = true
    · rw [Progress.tokens, List.isEmpty_iff.1 hempty, List.map_nil]
    · simp [hempty, Progress.expect] at hread
  rw [hnil, List.append_nil] at htokens
  have hwhole : ∀ l ∈ tokens text, l.token.isWhole = true := by
    intro l hl
    exact phrase.isWhole l.token (htokens ▸ List.mem_map_of_mem hl)
  refine ⟨phrase, ?_⟩
  rw [Derives, ← htokens]
  exact spells_tokens hwhole

/-- A text that is derived is read, down to its end, as the phrase says, or what
    the phrase asks for is missing, with any number of levels. -/
theorem Derives.outcome (h : Derives phrase text) (capacity levels : Nat) :
    Outcome phrase.demand capacity levels 0
      (fun id => StandsAt .empty phrase.cost [phrase.value] [] [id])
      (readType capacity levels (start text)) := by
  -- at the end of the text nothing can go on
  have hends : phrase.EndsBefore [] := ⟨by simp, fun _ => by simp⟩
  exact phrase.isRead h.nul_notMem levels (start text) [] h.tokens_start hends

/-- What is read of a derived text stands in an arena that was grown for it, and
    all that the phrase asks for was there. -/
theorem Derives.grows {stored : StoredTree} (h : Derives phrase text)
    (hread : read capacity text = .ok stored) :
    phrase.demand.Fits capacity capacity 0 ∧ ∃ root, stored.root = some root ∧
      Arena.empty.Grows stored.arena phrase.cost [root] [phrase.value] := by
  obtain ⟨⟨root, t⟩, htype, hread⟩ := bind_eq_ok_iff.1 hread
  have houtcome := h.outcome capacity capacity
  rw [start, htype] at houtcome
  obtain ⟨hfits, hstands, hgrows⟩ := houtcome
  -- no token is left, so the text counts as read to its end
  have hempty : t.rest.isEmpty = true := by
    rw [List.isEmpty_iff]
    exact List.map_eq_nil_iff.1 hstands
  simp only [hempty] at hread
  cases hread
  exact ⟨hfits, root, rfl, hgrows⟩

/-- A derived text that is not read asks for something that is missing. -/
theorem Derives.lacks {failure : ReadFailure} (h : Derives phrase text)
    (hread : read capacity text = .error failure) :
    phrase.demand.Lacks capacity capacity 0 failure.cause := by
  have houtcome := h.outcome capacity capacity
  rw [read, ← start] at hread
  cases htype : readType capacity capacity (start text) with
  | error failure' =>
    rw [htype] at hread houtcome
    cases hread
    exact houtcome
  | ok r =>
    rw [htype] at hread houtcome
    have hempty : r.2.rest.isEmpty = true := by
      rw [List.isEmpty_iff]
      exact List.map_eq_nil_iff.1 houtcome.2.1
    simp [bind, Except.bind, hempty] at hread

/-! ## The language that is read -/

/-- A type in which `Array` stands before an angle bracket and as a plain name,
    two spellings of one keyword are cases of a union, and a comma stands last. -/
def sampleText : Bytes :=
  ascii "\x7ba?:Array<bool>|Array|boolean|bool ,\x7d"

/-- The derivation of that type. -/
def samplePhrase : TypePhrase :=
  .last (.object (.last (.plain (ascii "a")) true
    (.more (.array (.last (.name (ascii "bool"))))
      (.more (.name (ascii "Array"))
        (.more (.name (ascii "boolean")) (.last (.name (ascii "bool")))))) true))

theorem derives_sample : Derives samplePhrase sampleText := by
  have htokens : (tokens sampleText).map Lexeme.token = samplePhrase.tokens := by decide +kernel
  rw [Derives, ← htokens]
  exact spells_tokens (by decide +kernel)

/-- Where room does not run out, a text is read exactly when the grammar derives
    it, and the tree that the root leads to is the value of the derivation. -/
theorem read_ok_iff_derives (capacity : Nat) (text : Bytes)
    (hroom : ∀ failure, read capacity text = .error failure →
      failure.diagnostic.kind ≠ .capacityExceeded) :
    ((∃ stored, read capacity text = .ok stored) ↔ ∃ phrase, Derives phrase text) ∧
    ∀ stored phrase, read capacity text = .ok stored → Derives phrase text →
      stored.tree? = some phrase.value := by
  refine ⟨⟨fun ⟨_, hread⟩ => exists_derives_of_read hread, ?_⟩, ?_⟩
  · rintro ⟨phrase, hderives⟩
    cases hread : read capacity text with
    | ok stored => exact ⟨stored, rfl⟩
    | error failure =>
      have hkind : failure.diagnostic.kind = .capacityExceeded := (hderives.lacks hread).kind_eq
      exact absurd hkind (hroom failure hread)
  · intro stored phrase hread hderives
    obtain ⟨-, root, hroot, hgrows⟩ := hderives.grows hread
    exact hgrows.tree?_eq hroot

theorem read_ok_iff_derives_sample :
    (∀ failure, read 8 sampleText = .error failure →
      failure.diagnostic.kind ≠ .capacityExceeded) ∧
    ∃ stored, read 8 sampleText = .ok stored ∧
      stored.tree? = some (.object [.field (ascii "a") true (.union
        [.array (.atomic .bool []), .atomic .other (ascii "Array"), .atomic .bool []])]) := by
  have hok : (read 8 sampleText).isOk = true := by decide +kernel
  have hroom : ∀ failure, read 8 sampleText = .error failure →
      failure.diagnostic.kind ≠ .capacityExceeded := by
    intro failure hread
    rw [hread] at hok
    cases hok
  obtain ⟨haccepts, hvalue⟩ := read_ok_iff_derives 8 sampleText hroom
  obtain ⟨stored, hread⟩ := haccepts.2 ⟨samplePhrase, derives_sample⟩
  refine ⟨hroom, stored, hread, ?_⟩
  rw [hvalue stored samplePhrase hread derives_sample]
  decide +kernel

/-! ## Room -/

/-- With at least as many levels as nodes, all that a type asks for is there as
    soon as the nodes and the room for texts are. -/
theorem TypePhrase.fits_iff (phrase : TypePhrase) {levels : Nat} (h : capacity ≤ levels) :
    phrase.demand.Fits capacity levels 0 ↔
      (∀ t ∈ phrase.texts, t.length ≤ nameLimit) ∧ phrase.cost ≤ capacity := by
  constructor
  · intro hfits
    have hnodes := hfits.nodes
    rw [Nat.zero_add] at hnodes
    exact ⟨hfits.texts, hnodes⟩
  · rintro ⟨htexts, hcost⟩
    -- the levels follow from the nodes, since every open type costs one
    have hdepth := phrase.depth_le_cost
    refine ⟨?_, htexts, ?_⟩
    · rw [Nat.zero_add]
      exact hcost
    · exact Nat.le_trans hdepth (Nat.le_trans hcost h)

/-- However many levels there are beyond the number of nodes, a derived text is
    read as a type exactly when its texts and its nodes fit. -/
theorem Derives.readType_ok_iff (h : Derives phrase text) {levels : Nat}
    (hlevels : capacity ≤ levels) :
    (∃ r, readType capacity levels (start text) = .ok r) ↔
      (∀ t ∈ phrase.texts, t.length ≤ nameLimit) ∧ phrase.cost ≤ capacity := by
  have houtcome := h.outcome capacity levels
  rw [← phrase.fits_iff hlevels]
  constructor
  · rintro ⟨r, hread⟩
    rw [hread] at houtcome
    exact houtcome.1
  · intro hfits
    cases hread : readType capacity levels (start text) with
    | ok r => exact ⟨r, rfl⟩
    | error failure =>
      rw [hread] at houtcome
      exact absurd hfits houtcome.not_fits

theorem Derives.read_ok_iff (h : Derives phrase text) :
    (∃ stored, read capacity text = .ok stored) ↔
      (∀ t ∈ phrase.texts, t.length ≤ nameLimit) ∧ phrase.cost ≤ capacity := by
  rw [← phrase.fits_iff (Nat.le_refl capacity)]
  constructor
  · rintro ⟨stored, hread⟩
    exact (h.grows hread).1
  · intro hfits
    cases hread : read capacity text with
    | ok stored => exact ⟨stored, rfl⟩
    | error failure => exact absurd hfits (h.lacks hread).not_fits

/-- A derived text is read exactly when each of its names and literals fits in a
    node and its nodes fit in the arena; then these are the nodes of the arena.
    Otherwise room is what is missing. The bound on nesting is reported only where
    the nodes would not have fitted, and no verdict changes without it. -/
theorem read_ok_iff_fits {phrase : TypePhrase} {text : Bytes} (h : Derives phrase text)
    (capacity : Nat) :
    ((∃ stored, read capacity text = .ok stored) ↔
      (∀ t ∈ phrase.texts, t.length ≤ nameLimit) ∧ phrase.cost ≤ capacity) ∧
    (∀ stored, read capacity text = .ok stored → stored.arena.size = phrase.cost) ∧
    (∀ failure, read capacity text = .error failure →
      failure.diagnostic.kind = .capacityExceeded ∧
      (failure.cause = .nestedTooDeeply → capacity < phrase.cost)) ∧
    ∀ levels, capacity ≤ levels →
      ((∃ r, readType capacity levels (start text) = .ok r) ↔
        ∃ stored, read capacity text = .ok stored) := by
  refine ⟨h.read_ok_iff, ?_, ?_, ?_⟩
  · intro stored hread
    obtain ⟨-, root, -, hgrows⟩ := h.grows hread
    exact hgrows.size_eq
  · intro failure hread
    have hlacks := h.lacks hread
    refine ⟨hlacks.kind_eq, fun hcause => ?_⟩
    -- too deep means that there are more open types than levels, and each costs a node
    rw [hcause] at hlacks
    exact Nat.lt_of_lt_of_le hlacks phrase.depth_le_cost
  · intro levels hlevels
    rw [h.readType_ok_iff hlevels, h.read_ok_iff]

theorem read_ok_iff_fits_sample :
    Derives samplePhrase sampleText ∧
    (∃ stored, read 8 sampleText = .ok stored ∧ stored.arena.size = 8) ∧
    ∃ failure, read 7 sampleText = .error failure ∧
      failure.diagnostic.kind = .capacityExceeded := by
  have hcost : samplePhrase.cost = 8 := by decide +kernel
  obtain ⟨hok, hsize, -⟩ := read_ok_iff_fits derives_sample 8
  obtain ⟨stored, hread⟩ := hok.2 ⟨by decide +kernel, hcost.le⟩
  obtain ⟨hok', -, hfailure, -⟩ := read_ok_iff_fits derives_sample 7
  refine ⟨derives_sample, ⟨stored, hread, hcost ▸ hsize stored hread⟩, ?_⟩
  cases hread' : read 7 sampleText with
  | ok stored' =>
    have hle := (hok'.1 ⟨stored', hread'⟩).2
    rw [hcost] at hle
    omega
  | error failure => exact ⟨failure, rfl, (hfailure failure hread').1⟩

end TypeSig.Signature
