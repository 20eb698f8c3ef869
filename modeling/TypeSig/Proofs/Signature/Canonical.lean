/-
  TypeSig.Proofs.Signature.Canonical

  The trees that the language has a text for. `WellShaped` says for each node of
  a tree what may stand in it and what its children may be: an object has fields
  and only an object has them, a field has a name and one type, an array has one
  element, a union has two or more distinct cases that are no unions, a name is
  no keyword, and every text fits in a node and can be written. A tree is
  canonical when it is well shaped and no field.

  Main statement: whatever is read is canonical (`read_canonical`). The value of
  a phrase is canonical by the form of the phrase, and the tree that the reader
  leaves is such a value.
-/

import TypeSig.Proofs.Signature.Language

namespace TypeSig.Signature

/-! ## Shape -/

/-- A text that can stand in quotes and fits in a node. -/
structure Storable (text : Bytes) : Prop extends Quotable text where
  length_le : text.length ≤ nameLimit

/-- What may stand in an atomic type: a name that is no keyword, a literal, or the
    sort that a keyword stands for, without a text. A node has no room for longer
    texts. -/
def AtomicShape (type : Atomic) : Prop :=
  match type.kind with
  | .other =>
    isName type.text = true ∧ keywordMeaning type.text = none ∧ type.text.length ≤ nameLimit
  | .stringLiteral => Storable type.text
  | _ => type.text = []

/-- What may stand in a node over the given children. That the cases of a union are
    distinct is what comparing their nodes decides (`Arena.sameTree_iff`). -/
def Shape : Label → List TypeTree → Prop
  | .atomic type, children => AtomicShape type ∧ children = []
  | .object, children => children ≠ []
  | .field name _, children => Storable name ∧ children.length = 1
  | .array, children => children.length = 1
  | .union, children =>
    2 ≤ children.length ∧ children.Nodup ∧ ∀ child ∈ children, child.label.kind ≠ .union

/-- Every node of the tree has its shape, and fields stand under objects and
    nowhere else. -/
inductive WellShaped : TypeTree → Prop
  | node {label : Label} {children : List TypeTree} :
      Shape label children →
      (∀ child ∈ children, child.label.kind = .field ↔ label.kind = .object) →
      (∀ child ∈ children, WellShaped child) →
      WellShaped (.node label children)

/-- A well-shaped tree that is a type, and not the field of an object. -/
structure Canonical (tree : TypeTree) : Prop where
  wellShaped : WellShaped tree
  notField : tree.label.kind ≠ .field

/-- A canonical tree that can be a case: the type is no union. -/
structure CanonicalCase (tree : TypeTree) : Prop extends Canonical tree where
  notUnion : tree.label.kind ≠ .union

/-- A well-shaped field. -/
structure CanonicalField (tree : TypeTree) : Prop where
  wellShaped : WellShaped tree
  isField : tree.label.kind = .field

/-! ## Canonical trees from canonical parts -/

theorem canonicalCase_atomic {kind : AtomicKind} {text : Bytes} (h : AtomicShape ⟨kind, text⟩) :
    CanonicalCase (.atomic kind text) where
  wellShaped := .node ⟨h, rfl⟩ (by simp) (by simp)
  notField := nofun
  notUnion := nofun

theorem canonicalCase_array {element : TypeTree} (h : Canonical element) :
    CanonicalCase (.array element) where
  wellShaped := by
    refine .node rfl (List.forall_mem_singleton.2 ?_) (List.forall_mem_singleton.2 h.wellShaped)
    exact iff_of_false h.notField nofun
  notField := nofun
  notUnion := nofun

theorem canonicalCase_object {fields : List TypeTree} (hne : fields ≠ [])
    (h : ∀ field ∈ fields, CanonicalField field) : CanonicalCase (.object fields) where
  wellShaped := by
    refine .node hne (fun field hfield => ?_) fun field hfield => (h field hfield).wellShaped
    exact iff_of_true (h field hfield).isField rfl
  notField := nofun
  notUnion := nofun

theorem canonicalField_field {name : Bytes} {optional : Bool} {type : TypeTree}
    (hname : Storable name) (h : Canonical type) :
    CanonicalField (.field name optional type) where
  wellShaped := by
    refine .node ⟨hname, rfl⟩ (List.forall_mem_singleton.2 ?_)
      (List.forall_mem_singleton.2 h.wellShaped)
    exact iff_of_false h.notField nofun
  isField := rfl

/-- The union of canonical cases is canonical, whether it is left with one case or
    with several. -/
theorem canonical_unionOf {cases : List TypeTree} (hne : cases ≠ [])
    (h : ∀ case ∈ cases, CanonicalCase case) : Canonical (unionOf cases) := by
  have hkept : ∀ case ∈ cases.eraseDups, CanonicalCase case := fun case hcase =>
    h case (List.mem_eraseDups.1 hcase)
  have hpos := List.length_pos_iff.2 (eraseDups_ne_nil hne)
  by_cases htwo : 2 ≤ cases.eraseDups.length
  -- what is left has no repetition, and no case is a union or a field
  · rw [unionOf_of_two_le htwo]
    refine ⟨.node ⟨htwo, nodup_eraseDups cases, fun case hcase => ?_⟩ ?_ ?_, nofun⟩
    · exact (hkept case hcase).notUnion
    · exact fun case hcase => iff_of_false (hkept case hcase).notField nofun
    · exact fun case hcase => (hkept case hcase).wellShaped
  -- the only case left is the type, and it is canonical as a case
  · obtain ⟨only, honly⟩ := List.length_eq_one_iff.1 (show cases.eraseDups.length = 1 by omega)
    rw [unionOf_of_single honly]
    exact (hkept only (honly ▸ List.mem_singleton_self only)).toCanonical

/-! ## What phrases denote -/

theorem atomicShape_keyword {name : Bytes} {kind : AtomicKind}
    (h : keywordMeaning name = some kind) : AtomicShape ⟨kind, []⟩ := by
  revert h
  unfold keywordMeaning
  repeat' split
  all_goals
    intro h
    cases h
  all_goals rfl

/-- What a name means is a keyword's sort or the name, which is no keyword then. -/
theorem canonicalCase_nameValue {name : Bytes} (hname : isName name = true)
    (hlen : name.length ≤ nameLimit) : CanonicalCase (nameValue name) := by
  unfold nameValue
  split
  · next kind hmeaning => exact canonicalCase_atomic (atomicShape_keyword hmeaning)
  · next hmeaning => exact canonicalCase_atomic ⟨hname, hmeaning, hlen⟩

theorem FieldsPhrase.values_ne_nil (phrase : FieldsPhrase) : phrase.values ≠ [] := by
  cases phrase <;> simp [FieldsPhrase.values]

mutual

/-- The cases of a type are canonical, if its texts fit. -/
theorem TypePhrase.canonicalCases : ∀ phrase : TypePhrase, (∀ t ∈ phrase.tokens, t.Proper) →
    (∀ text ∈ phrase.texts, text.length ≤ nameLimit) →
    ∀ case ∈ phrase.caseValues, CanonicalCase case
  | .last c, htokens, htexts => List.forall_mem_singleton.2 (c.canonicalCase htokens htexts)
  | .more c rest, htokens, htexts => by
    simp only [TypePhrase.tokens, List.forall_mem_append, List.forall_mem_cons] at htokens
    obtain ⟨hc, -, hrest⟩ := htokens
    obtain ⟨hctexts, hrtexts⟩ := List.forall_mem_append.1 htexts
    exact List.forall_mem_cons.2 ⟨c.canonicalCase hc hctexts, rest.canonicalCases hrest hrtexts⟩

theorem CasePhrase.canonicalCase : ∀ phrase : CasePhrase, (∀ t ∈ phrase.tokens, t.Proper) →
    (∀ text ∈ phrase.texts, text.length ≤ nameLimit) → CanonicalCase phrase.value
  | .name text, htokens, htexts =>
    canonicalCase_nameValue (htokens _ List.mem_cons_self) (htexts _ List.mem_cons_self)
  | .literal text, htokens, htexts => by
    have hstorable : Storable text := ⟨htokens _ List.mem_cons_self, htexts _ List.mem_cons_self⟩
    exact canonicalCase_atomic hstorable
  | .array element, htokens, htexts => by
    simp only [CasePhrase.tokens, List.forall_mem_append, List.forall_mem_cons] at htokens
    obtain ⟨-, -, helement, -⟩ := htokens
    have hcases := element.canonicalCases helement htexts
    exact canonicalCase_array (canonical_unionOf element.caseValues_ne_nil hcases)
  | .object fields, htokens, htexts => by
    simp only [CasePhrase.tokens, List.forall_mem_append, List.forall_mem_cons] at htokens
    obtain ⟨-, hfields, -⟩ := htokens
    exact canonicalCase_object fields.values_ne_nil (fields.canonicalFields hfields htexts)

theorem FieldsPhrase.canonicalFields : ∀ phrase : FieldsPhrase,
    (∀ t ∈ phrase.tokens, t.Proper) → (∀ text ∈ phrase.texts, text.length ≤ nameLimit) →
    ∀ field ∈ phrase.values, CanonicalField field
  | .last name _ type _, htokens, htexts => by
    simp only [FieldsPhrase.tokens, List.forall_mem_append, List.forall_mem_cons] at htokens
    obtain ⟨hname, -, -, htype, -⟩ := htokens
    obtain ⟨hlen, htexts⟩ := List.forall_mem_cons.1 htexts
    have hcases := type.canonicalCases htype htexts
    exact List.forall_mem_singleton.2 (canonicalField_field ⟨name.quotable hname, hlen⟩
      (canonical_unionOf type.caseValues_ne_nil hcases))
  | .more name _ type rest, htokens, htexts => by
    simp only [FieldsPhrase.tokens, List.forall_mem_append, List.forall_mem_cons] at htokens
    obtain ⟨hname, -, -, htype, -, hrest⟩ := htokens
    obtain ⟨hlen, htexts⟩ := List.forall_mem_cons.1 htexts
    obtain ⟨httexts, hrtexts⟩ := List.forall_mem_append.1 htexts
    have hcases := type.canonicalCases htype httexts
    exact List.forall_mem_cons.2 ⟨canonicalField_field ⟨name.quotable hname, hlen⟩
      (canonical_unionOf type.caseValues_ne_nil hcases), rest.canonicalFields hrest hrtexts⟩

end

/-- The value of a phrase that derives a text is canonical, if its texts fit. -/
theorem Derives.canonical {phrase : TypePhrase} {text : Bytes} (h : Derives phrase text)
    (htexts : ∀ t ∈ phrase.texts, t.length ≤ nameLimit) : Canonical phrase.value :=
  canonical_unionOf phrase.caseValues_ne_nil (phrase.canonicalCases (Spells.proper h) htexts)

/-! ## What is read -/

/-- Whatever is read, the root is a node of the arena, the arena is within its
    capacity, no node below the root is met twice, and the tree there is
    canonical. -/
theorem read_canonical {capacity : Nat} {text : Bytes} {stored : StoredTree}
    (h : read capacity text = .ok stored) :
    ∃ root tree, stored.root = some root ∧ root < stored.arena.size ∧
      stored.arena.size ≤ capacity ∧ stored.arena.Holds root tree ∧
      stored.tree? = some tree ∧ Canonical tree := by
  obtain ⟨phrase, hderives⟩ := exists_derives_of_read h
  obtain ⟨hfits, root, hroot, hgrows⟩ := hderives.grows h
  -- the arena began empty, so all its nodes were paid for by the phrase
  have hholds := hgrows.holds
  have hnodes := hfits.nodes
  refine ⟨root, phrase.value, hroot, hholds.lt, ?_, hholds, hgrows.tree?_eq hroot, ?_⟩
  · rw [hgrows.size_eq]
    exact Nat.le_trans (Nat.le_add_left _ _) hnodes
  · exact hderives.canonical hfits.texts

theorem read_canonical_sample :
    ∃ stored, read 8 sampleText = .ok stored ∧
      ∃ root tree, stored.root = some root ∧ root < stored.arena.size ∧
        stored.arena.size ≤ 8 ∧ stored.arena.Holds root tree ∧
        stored.tree? = some tree ∧ Canonical tree := by
  have hok : (read 8 sampleText).isOk = true := by decide +kernel
  cases hread : read 8 sampleText with
  | ok stored => exact ⟨stored, rfl, read_canonical hread⟩
  | error failure =>
    rw [hread] at hok
    cases hok

end TypeSig.Signature
