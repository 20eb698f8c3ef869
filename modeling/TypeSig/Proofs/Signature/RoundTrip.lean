/-
  TypeSig.Proofs.Signature.RoundTrip

  Writing a tree and reading the text again. A canonical tree is the value of a
  phrase that derives what is written for the tree, at a cost of one node for
  each node of the tree, so reading the text gives the tree back.

  The phrase is found by the shape of the tree. What it derives is said for a
  text that goes on: `Writes` takes the tokens of the phrase and the pieces of
  the tree to any text behind them that does not go on with a name.

  Main statement: writing and reading is the identity on canonical trees, however
  they are stored (`read_write`).
-/

import TypeSig.Generate
import TypeSig.Proofs.Signature.Canonical

namespace TypeSig

namespace Signature

/-! ## Tokens in front of a text -/

/-- In front of any text that does not go on with a name, the pieces are made of
    the tokens. -/
def Writes (tokens : List Token) (pieces : List Piece) : Prop :=
  ∀ {ts : List Token} {text : Bytes}, Spells ts text → EndsName text →
    Spells (tokens ++ ts) (wording pieces ++ text)

theorem endsName_cons {b : UInt8} (h : Byte.isNameByte b = false) (text : Bytes) :
    EndsName (b :: text) := by
  intro c hc
  cases hc
  exact h

theorem isQuote_quoteFor (text : Bytes) : Byte.isQuote (quoteFor text) = true := by
  unfold quoteFor
  split <;> rfl

theorem quoteFor_notMem {text : Bytes} (h : Quotable text) : quoteFor text ∉ text := by
  unfold quoteFor
  split
  · next hdouble => exact fun hsingle => h.quote ⟨hdouble, hsingle⟩
  · next hdouble => exact hdouble

theorem writes_name {name : Bytes} (h : isName name = true) : Writes [.name name] [.ok name] := by
  intro ts text hts htext
  rw [wording_ok_cons, wording_nil, List.append_nil]
  exact .name h htext hts

theorem writes_quoted {text : Bytes} (h : Quotable text) :
    Writes [.quoted text] (quotedPieces text) := by
  intro ts after hts _
  have hspells := Spells.quoted (isQuote_quoteFor text) (quoteFor_notMem h) h.nul hts
  simpa [quotedPieces] using hspells

/-! ## Phrases for trees -/

/-- Tokens that pieces are made of, with what storing them asks for: so many nodes,
    and texts that fit in a node. -/
structure Restates (demand : Demand) (tokens : List Token) (size : Nat) (pieces : List Piece) :
    Prop where
  cost : demand.cost = size
  texts : ∀ text ∈ demand.texts, text.length ≤ nameLimit
  writes : Writes tokens pieces

/-- What is written for the tree is a case that means the tree. -/
def HasCase (tree : TypeTree) : Prop :=
  ∃ phrase : CasePhrase, phrase.value = tree ∧
    Restates phrase.demand phrase.tokens tree.size (pieces tree)

/-- What is written for the tree is a type that means the tree. -/
def HasType (tree : TypeTree) : Prop :=
  ∃ phrase : TypePhrase, phrase.value = tree ∧
    Restates phrase.demand phrase.tokens tree.size (pieces tree)

/-- What is written for the trees with bars between them is a type of which they are
    the cases. -/
def HasCases (trees : List TypeTree) : Prop :=
  ∃ phrase : TypePhrase, phrase.caseValues = trees ∧
    Restates phrase.casesDemand phrase.tokens (TypeTree.sizeAll trees)
      (joinPieces (ascii " | ") (piecesEach trees))

/-- What is written for the trees with commas between them are fields that mean the
    trees. -/
def HasFields (trees : List TypeTree) : Prop :=
  ∃ phrase : FieldsPhrase, phrase.values = trees ∧
    Restates phrase.demand phrase.tokens (TypeTree.sizeAll trees)
      (joinPieces (ascii ", ") (piecesEach trees))

/-- The tree is a field with a name that can be written and a type that has a
    phrase. -/
def HasField (tree : TypeTree) : Prop :=
  ∃ name optional type, tree = .field name optional type ∧ Storable name ∧ HasType type

/-! ### Cases -/

theorem hasCase_keyword {kind : AtomicKind} (hname : isName (keyword kind) = true)
    (hmeaning : keywordMeaning (keyword kind) = some kind)
    (hlen : (keyword kind).length ≤ nameLimit)
    (hpieces : atomicPieces ⟨kind, []⟩ = [.ok (keyword kind)]) : HasCase (.atomic kind []) := by
  refine ⟨.name (keyword kind), ?_, rfl, List.forall_mem_singleton.2 hlen, ?_⟩
  · rw [CasePhrase.value, nameValue, hmeaning]
  · rw [TypeTree.atomic, pieces, hpieces]
    exact writes_name hname

theorem hasCase_atomic {type : Atomic} (h : AtomicShape type) :
    HasCase (.node (.atomic type) []) := by
  obtain ⟨kind, text⟩ := type
  cases kind with
  | other =>
    obtain ⟨hname, hmeaning, hlen⟩ := h
    refine ⟨.name text, ?_, rfl, List.forall_mem_singleton.2 hlen, writes_name hname⟩
    rw [CasePhrase.value, nameValue, hmeaning]
    rfl
  | stringLiteral =>
    -- a literal that holds one of the quotes is put in the other
    have hstorable : Storable text := h
    exact ⟨.literal text, rfl, rfl, List.forall_mem_singleton.2 hstorable.length_le,
      writes_quoted hstorable.toQuotable⟩
  | _ =>
    -- every other sort has a keyword, which means that sort again
    obtain rfl : text = [] := h
    exact hasCase_keyword (by decide) (by decide) (by decide) rfl

theorem hasCase_array {element : TypeTree} (h : HasType element) : HasCase (.array element) := by
  obtain ⟨phrase, rfl, hrestates⟩ := h
  refine ⟨.array phrase, rfl, ?_, hrestates.texts, ?_⟩
  · have hcost : phrase.cost = phrase.value.size := hrestates.cost
    show phrase.cost + 1 = phrase.value.size + 0 + 1
    omega
  · intro ts text hts htext
    -- from the closing bracket back to the name, each token in front of the last
    have hclose : Spells (.byte Byte.closeAngle :: ts) (Byte.closeAngle :: text) :=
      .byte rfl rfl rfl hts
    have helement := hrestates.writes hclose (endsName_cons rfl text)
    have hopen : Spells (.byte Byte.openAngle :: _) (Byte.openAngle :: _) :=
      .byte rfl rfl rfl helement
    have hname := Spells.name (show isName arrayName = true by decide) (endsName_cons rfl _) hopen
    have hsplit : ascii "Array<" = arrayName ++ [Byte.openAngle] := by decide
    simpa [CasePhrase.tokens, TypeTree.array, pieces, piecesEach, headPieces, hsplit] using hname

theorem hasCase_object {fields : List TypeTree} (h : HasFields fields) :
    HasCase (.object fields) := by
  obtain ⟨phrase, rfl, hrestates⟩ := h
  refine ⟨.object phrase, rfl, ?_, hrestates.texts, ?_⟩
  · have hcost : phrase.cost = TypeTree.sizeAll phrase.values := hrestates.cost
    show phrase.cost + 1 = TypeTree.sizeAll phrase.values + 1
    omega
  · intro ts text hts htext
    have hclose : Spells (.byte Byte.closeBrace :: ts) (Byte.closeBrace :: text) :=
      .byte rfl rfl rfl hts
    have hfields := hrestates.writes hclose (endsName_cons rfl text)
    have hopen : Spells (.byte Byte.openBrace :: _) (Byte.openBrace :: _) :=
      .byte rfl rfl rfl hfields
    simpa [CasePhrase.tokens, TypeTree.object, pieces] using hopen

/-! ### Fields -/

/-- The name of a field as it is written. -/
def FieldName.written (name : Bytes) : FieldName :=
  if isName name then .plain name else .quoted name

theorem FieldName.text_written (name : Bytes) : (FieldName.written name).text = name := by
  unfold FieldName.written
  split <;> rfl

/-- What is written in front of the type of a field. -/
theorem spells_field {name : Bytes} (hname : Quotable name) (optional : Bool) {ts : List Token}
    {text : Bytes} (h : Spells ts text) :
    Spells ((FieldName.written name).token ::
      (mark Byte.questionMark optional ++ .byte Byte.colon :: ts))
      (wording (fieldPieces name optional) ++ text) := by
  have hcolon : Spells (.byte Byte.colon :: ts) (ascii ": " ++ text) :=
    .byte rfl rfl rfl (.blank rfl h)
  -- whether or not the mark is there, what follows the name ends it
  have hmark : ∃ after, wording (fieldPieces name optional) ++ text =
      wording (if isName name then [.ok name] else quotedPieces name) ++ after ∧
      EndsName after ∧
      Spells (mark Byte.questionMark optional ++ .byte Byte.colon :: ts) after := by
    cases optional with
    | false =>
      exact ⟨ascii ": " ++ text, by simp [fieldPieces], endsName_cons rfl _, hcolon⟩
    | true =>
      refine ⟨Byte.questionMark :: (ascii ": " ++ text), by simp [fieldPieces],
        endsName_cons rfl _, ?_⟩
      exact .byte rfl rfl rfl hcolon
  obtain ⟨after, hsplit, hends, hafter⟩ := hmark
  rw [hsplit, FieldName.written]
  by_cases hplain : isName name = true
  · rw [if_pos hplain, if_pos hplain]
    exact writes_name hplain hafter hends
  · rw [if_neg hplain, if_neg hplain]
    exact writes_quoted hname hafter hends

theorem hasFields_singleton {tree : TypeTree} (h : HasField tree) : HasFields [tree] := by
  obtain ⟨name, optional, type, rfl, hname, phrase, rfl, hrestates⟩ := h
  refine ⟨.last (.written name) optional phrase false, ?_, ?_, ?_, ?_⟩
  · simp only [FieldsPhrase.values, FieldName.text_written]
    rfl
  · have hcost : phrase.cost = phrase.value.size := hrestates.cost
    show phrase.cost + 1 = (phrase.value.size + 0 + 1) + 0
    omega
  · refine List.forall_mem_cons.2 ⟨?_, hrestates.texts⟩
    rw [FieldName.text_written]
    exact hname.length_le
  · intro ts text hts htext
    have hfield := spells_field hname.toQuotable optional (hrestates.writes hts htext)
    simpa [FieldsPhrase.tokens, mark, TypeTree.field, pieces, piecesEach, headPieces,
      joinPieces_singleton] using hfield

theorem hasFields_cons {tree next : TypeTree} {trees : List TypeTree} (h : HasField tree)
    (hrest : HasFields (next :: trees)) : HasFields (tree :: next :: trees) := by
  obtain ⟨name, optional, type, rfl, hname, phrase, rfl, hrestates⟩ := h
  obtain ⟨rest, hvalues, hothers⟩ := hrest
  refine ⟨.more (.written name) optional phrase rest, ?_, ?_, ?_, ?_⟩
  · simp only [FieldsPhrase.values, FieldName.text_written, hvalues]
    rfl
  · have hcost : phrase.cost = phrase.value.size := hrestates.cost
    have hmore : rest.cost = TypeTree.sizeAll (next :: trees) := hothers.cost
    show phrase.cost + 1 + rest.cost =
      (phrase.value.size + 0 + 1) + TypeTree.sizeAll (next :: trees)
    omega
  · refine List.forall_mem_cons.2 ⟨?_, List.forall_mem_append.2 ⟨hrestates.texts, hothers.texts⟩⟩
    rw [FieldName.text_written]
    exact hname.length_le
  · intro ts text hts htext
    have hothers := hothers.writes hts htext
    have hcomma : Spells (.byte Byte.comma :: _) (ascii ", " ++ _) :=
      .byte rfl rfl rfl (.blank rfl hothers)
    have htype := hrestates.writes hcomma (endsName_cons rfl _)
    have hfield := spells_field hname.toQuotable optional htype
    simpa [FieldsPhrase.tokens, TypeTree.field, pieces, piecesEach, headPieces] using hfield

theorem hasFields {fields : List TypeTree} (hne : fields ≠ [])
    (h : ∀ field ∈ fields, HasField field) : HasFields fields := by
  induction fields with
  | nil => exact absurd rfl hne
  | cons field fields ih =>
    obtain ⟨hfield, hfields⟩ := List.forall_mem_cons.1 h
    cases fields with
    | nil => exact hasFields_singleton hfield
    | cons next fields => exact hasFields_cons hfield (ih (List.cons_ne_nil _ _) hfields)

/-! ### Types -/

theorem HasCase.hasCases_singleton {tree : TypeTree} (h : HasCase tree) : HasCases [tree] := by
  obtain ⟨phrase, rfl, hrestates⟩ := h
  refine ⟨.last phrase, rfl, ?_, hrestates.texts, ?_⟩
  · exact hrestates.cost
  · rw [piecesEach, piecesEach, joinPieces_singleton]
    exact hrestates.writes

theorem HasCase.hasCases_cons {tree next : TypeTree} {trees : List TypeTree} (h : HasCase tree)
    (hrest : HasCases (next :: trees)) : HasCases (tree :: next :: trees) := by
  obtain ⟨phrase, rfl, hrestates⟩ := h
  obtain ⟨rest, hvalues, hothers⟩ := hrest
  refine ⟨.more phrase rest, ?_, ?_, List.forall_mem_append.2 ⟨hrestates.texts, hothers.texts⟩, ?_⟩
  · rw [TypePhrase.caseValues, hvalues]
  · have hcost : phrase.cost = phrase.value.size := hrestates.cost
    have hmore : rest.caseCost = TypeTree.sizeAll (next :: trees) := hothers.cost
    show phrase.cost + rest.caseCost = phrase.value.size + TypeTree.sizeAll (next :: trees)
    omega
  · intro ts text hts htext
    have hothers := hothers.writes hts htext
    have hbar : Spells (.byte Byte.bar :: _) (ascii " | " ++ _) :=
      .blank rfl (.byte rfl rfl rfl (.blank rfl hothers))
    have hcase := hrestates.writes hbar (endsName_cons rfl _)
    simpa [TypePhrase.tokens, piecesEach] using hcase

theorem hasCases {cases : List TypeTree} (hne : cases ≠ []) (h : ∀ case ∈ cases, HasCase case) :
    HasCases cases := by
  induction cases with
  | nil => exact absurd rfl hne
  | cons case cases ih =>
    obtain ⟨hcase, hcases⟩ := List.forall_mem_cons.1 h
    cases cases with
    | nil => exact hcase.hasCases_singleton
    | cons next cases => exact hcase.hasCases_cons (ih (List.cons_ne_nil _ _) hcases)

/-- A union of distinct cases keeps them all. -/
theorem hasType_union {cases : List TypeTree} (htwo : 2 ≤ cases.length) (hdistinct : cases.Nodup)
    (h : HasCases cases) : HasType (.union cases) := by
  obtain ⟨phrase, rfl, hrestates⟩ := h
  -- no case is dropped, so the union costs its own node and those of the cases
  have hdedup := eraseDups_of_nodup hdistinct
  have hkept : 2 ≤ phrase.caseValues.eraseDups.length := by rwa [hdedup]
  refine ⟨phrase, ?_, ?_, hrestates.texts, ?_⟩
  · rw [TypePhrase.value, unionOf_of_two_le hkept, hdedup]
  · have hcost : phrase.caseCost = TypeTree.sizeAll phrase.caseValues := hrestates.cost
    show phrase.caseCost + unionCost phrase.caseValues = TypeTree.sizeAll phrase.caseValues + 1
    rw [unionCost_of_two_le hkept, hcost]
  · rw [TypeTree.union, pieces]
    exact hrestates.writes

theorem HasCase.hasType {tree : TypeTree} (h : HasCase tree) : HasType tree := by
  obtain ⟨phrase, rfl, hrestates⟩ := h
  have honly : [phrase.value].eraseDups = [phrase.value] :=
    eraseDups_of_nodup (List.nodup_singleton _)
  refine ⟨.last phrase, unionOf_of_single honly, ?_, hrestates.texts, hrestates.writes⟩
  show phrase.cost + unionCost [phrase.value] = phrase.value.size
  rw [unionCost_of_single honly]
  exact hrestates.cost

/-! ## Canonical trees have phrases -/

/-- What is written for a tree has a phrase of the sort that the tree calls for. -/
structure Restated (tree : TypeTree) : Prop where
  field : tree.label.kind = .field → HasField tree
  case : tree.label.kind ≠ .field → tree.label.kind ≠ .union → HasCase tree
  type : tree.label.kind ≠ .field → HasType tree

theorem HasCase.restated {tree : TypeTree} (h : HasCase tree) (hkind : tree.label.kind ≠ .field) :
    Restated tree :=
  ⟨fun hfield => absurd hfield hkind, fun _ _ => h, fun _ => h.hasType⟩

theorem WellShaped.restated {tree : TypeTree} (h : WellShaped tree) : Restated tree := by
  induction h with
  | @node label children hshape hfields _ ih =>
    cases label with
    | atomic type =>
      obtain ⟨htype, rfl⟩ := hshape
      exact (hasCase_atomic htype).restated nofun
    | object =>
      have hparts : ∀ child ∈ children, HasField child := fun child hchild =>
        (ih child hchild).field ((hfields child hchild).2 rfl)
      exact (hasCase_object (hasFields hshape hparts)).restated nofun
    | field name optional =>
      -- the type of a field is no field, as it does not stand under an object
      obtain ⟨hname, hone⟩ := hshape
      obtain ⟨type, rfl⟩ := List.length_eq_one_iff.1 hone
      have hmem : type ∈ [type] := List.mem_singleton_self type
      have hkind : type.label.kind ≠ .field := fun hfield =>
        nomatch (hfields type hmem).1 hfield
      have htype := (ih type hmem).type hkind
      exact ⟨fun _ => ⟨name, optional, type, rfl, hname, htype⟩, nofun, nofun⟩
    | array =>
      obtain ⟨element, rfl⟩ := List.length_eq_one_iff.1 hshape
      have hmem : element ∈ [element] := List.mem_singleton_self element
      have hkind : element.label.kind ≠ .field := fun hfield =>
        nomatch (hfields element hmem).1 hfield
      exact (hasCase_array ((ih element hmem).type hkind)).restated nofun
    | union =>
      -- no case is a union, so each is written as a case of this one
      obtain ⟨htwo, hdistinct, hcases⟩ := hshape
      have hparts : ∀ child ∈ children, HasCase child := fun child hchild =>
        (ih child hchild).case (fun hfield => nomatch (hfields child hchild).1 hfield)
          (hcases child hchild)
      have hne : children ≠ [] := List.ne_nil_of_length_pos (by omega)
      have htype := hasType_union htwo hdistinct (hasCases hne hparts)
      exact ⟨nofun, fun _ hunion => absurd rfl hunion, fun _ => htype⟩

/-- What is written for a canonical tree is derived by a phrase that means the tree
    and costs a node for each of its nodes. -/
theorem Canonical.exists_derives {tree : TypeTree} {text : Text} (h : Canonical tree)
    (hwrite : write tree = .ok text) :
    ∃ phrase, Derives phrase text.bytes ∧ phrase.value = tree ∧ phrase.cost = tree.size ∧
      ∀ t ∈ phrase.texts, t.length ≤ nameLimit := by
  obtain ⟨phrase, hvalue, hcost, htexts, hwrites⟩ := h.wellShaped.restated.type h.notField
  have hspells := hwrites .nil (show EndsName [] from nofun)
  rw [List.append_nil, List.append_nil, ← BoundedText.render_eq_ok hwrite] at hspells
  exact ⟨phrase, hspells, hvalue, hcost, htexts⟩

/-! ## Writing and reading -/

theorem write_eq_of_tree? {stored : StoredTree} {tree : TypeTree} (h : stored.tree? = some tree) :
    stored.write = write tree := by
  rw [StoredTree.write, StoredTree.requireTree, h]
  rfl

/-- If a canonical tree can be written, then with room for its nodes the text is read
    as the same tree, into an arena of just these nodes, and written in the same way
    again. The nodes may lie anywhere in the first arena, among any others; one that
    parts of the tree share counts for each of them. -/
theorem read_write {stored : StoredTree} {root : Nat} {tree : TypeTree} {ids : List Nat}
    {text : Text} {capacity : Nat} (hroot : stored.root = some root)
    (hspans : stored.arena.Spans root tree ids) (hcanonical : Canonical tree)
    (hroom : ids.length ≤ capacity) (hwrite : stored.write = .ok text) :
    ∃ parsed, read capacity text.bytes = .ok parsed ∧
      parsed.same stored = true ∧ stored.same parsed = true ∧
      parsed.arena.size = ids.length ∧ parsed.write = .ok text := by
  have htree : stored.tree? = some tree := by
    rw [StoredTree.tree?, hroot]
    exact hspans.tree?_eq
  rw [write_eq_of_tree? htree] at hwrite
  -- the phrase of the text fits, since it costs what the tree has nodes
  obtain ⟨phrase, hderives, rfl, hcost, htexts⟩ := hcanonical.exists_derives hwrite
  rw [hspans.length, ← hcost] at hroom ⊢
  obtain ⟨parsed, hread⟩ := hderives.read_ok_iff.2 ⟨htexts, hroom⟩
  obtain ⟨-, root', hroot', hgrows⟩ := hderives.grows hread
  obtain ⟨ids', hspans', -⟩ := hgrows.holds
  refine ⟨parsed, hread, ?_, ?_, ?_, ?_⟩
  · rw [StoredTree.same, hroot, hroot']
    exact (Arena.sameTree_iff hspans' hspans).2 rfl
  · rw [StoredTree.same, hroot, hroot']
    exact (Arena.sameTree_iff hspans hspans').2 rfl
  · exact hgrows.size_eq
  · rw [write_eq_of_tree? (hgrows.tree?_eq hroot'), hwrite]

/-- A tree in an arena that was not grown bottom up: the root comes first, one node
    belongs to no tree, and children lie before and behind their parents. -/
def scattered : StoredTree where
  arena := ⟨[
    ⟨.union, some 4, none, 2⟩,
    .leaf (.atomic ⟨.other, ascii "stray"⟩),
    .leaf (.atomic ⟨.stringLiteral, [Byte.doubleQuote]⟩),
    .leaf (.atomic ⟨.other, arrayName⟩),
    ⟨.array, some 6, some 3, 1⟩,
    ⟨.field (ascii "a\x27b") true, some 2, none, 1⟩,
    ⟨.object, some 5, none, 1⟩]⟩
  root := some 0

/-- The tree that is scattered there. -/
def scatteredTree : TypeTree :=
  .union
    [.array (.object
      [.field (ascii "a\x27b") true (.atomic .stringLiteral [Byte.doubleQuote])]),
    .atomic .other arrayName]

/-- What is written for that tree. -/
def scatteredText : Text where
  bytes := ascii "Array<\x7b\x22a\x27b\x22?: \x27\x22\x27\x7d> | Array"
  length_le := by decide

theorem spans_scattered : scattered.arena.Spans 0 scatteredTree [0, 4, 6, 5, 2, 3] := by
  have hliteral : scattered.arena.SpansChain (some 2) _ _ := .cons rfl ⟨rfl, fun _ => rfl⟩ .nil .nil
  have hfield : scattered.arena.SpansChain (some 5) _ _ := .cons rfl ⟨rfl, nofun⟩ hliteral .nil
  have hobject : scattered.arena.SpansChain (some 6) _ _ := .cons rfl ⟨rfl, nofun⟩ hfield .nil
  have hname : scattered.arena.SpansChain (some 3) _ _ := .cons rfl ⟨rfl, fun _ => rfl⟩ .nil .nil
  have harray : scattered.arena.SpansChain (some 4) _ _ := .cons rfl ⟨rfl, nofun⟩ hobject hname
  have hunion : scattered.arena.Spans 0 _ _ := .intro rfl ⟨rfl, nofun⟩ harray
  exact hunion

theorem canonical_scatteredTree : Canonical scatteredTree := by
  have hliteral : CanonicalCase (.atomic .stringLiteral [Byte.doubleQuote]) :=
    canonicalCase_atomic (show Storable _ from ⟨⟨by decide, by decide⟩, by decide⟩)
  have hstorable : Storable (ascii "a\x27b") := ⟨⟨by decide, by decide⟩, by decide⟩
  have hfield : CanonicalField (.field _ true _) :=
    canonicalField_field hstorable hliteral.toCanonical
  have hobject := canonicalCase_object (List.cons_ne_nil _ _) (List.forall_mem_singleton.2 hfield)
  have hname : CanonicalCase (.atomic .other arrayName) :=
    canonicalCase_atomic ⟨by decide, by decide, by decide⟩
  have hcases := List.forall_mem_cons.2
    ⟨canonicalCase_array hobject.toCanonical, List.forall_mem_singleton.2 hname⟩
  exact canonical_unionOf (List.cons_ne_nil _ _) hcases

theorem read_write_scattered :
    scattered.write = .ok scatteredText ∧
    ∃ parsed, read 6 scatteredText.bytes = .ok parsed ∧
      parsed.same scattered = true ∧ scattered.same parsed = true ∧
      parsed.arena.size = 6 ∧ parsed.write = .ok scatteredText := by
  have hwrite : scattered.write = .ok scatteredText := rfl
  exact ⟨hwrite,
    read_write rfl spans_scattered canonical_scatteredTree (Nat.le_refl 6) hwrite⟩

end Signature

end TypeSig
