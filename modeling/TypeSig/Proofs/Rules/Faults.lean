/-
  TypeSig.Proofs.Rules.Faults

  The ways in which the default rules fail on a tree that fits in an arena. A tree in
  line has a union without cases in it, or a union with too many, or one of the texts
  that are put together for its parts is too long, or it has an object of so many fields
  that the number behind a name needs an eighth digit (`nested_eq_error`). An outermost
  type asks for type expressions of array elements and of field types only, so an
  empty union elsewhere does no harm (`topLevel_eq_error_of_case`).

  The other faults of the rules guard stores that are as large as the arena. They are
  not reached because whatever is stored, the names of fields and the distinct cases
  of a union, has a node of its own.

  `nestedTexts` and `topLevelTexts` list the texts that are put together, as pieces,
  so that a text that is too long is one of these and can be looked at.
-/

import TypeSig.Proofs.Rules.Default
import TypeSig.Proofs.Target.FieldNames

namespace TypeSig

open TypeTree

/-! ## Texts that are put together -/

/-- Items with names, one behind the other. -/
def namedItems {α : Type} (opening separator closing : Bytes)
    (item : α → Identifier → List Piece) (items : List α) (names : List Identifier) : List Piece :=
  .ok opening :: joinPieces separator (List.zipWith item items names) ++ [.ok closing]

/-- An anonymous record. -/
def recordText : List FieldView → List Identifier → List Piece :=
  namedItems (ascii "\x7b| ") (ascii "; ") (ascii " |\x7d") Default.memberPieces

/-- A parameter list. -/
def parameterText : List FieldView → List Identifier → List Piece :=
  namedItems (ascii "(") (ascii ", ") (ascii ")") Default.parameterPieces

/-- An object literal. -/
def literalText : List Bytes → List Identifier → List Piece :=
  namedItems (ascii "createObj [ ") (ascii "; ") (ascii " ]") Target.entryPieces

/-- An erased union. -/
def unionText (types : List Text) : List Piece :=
  .ok (ascii "U") :: .ok (decimal types.length) :: .ok (ascii "<") ::
    joinPieces (ascii ", ") (types.map fun type => [.ok type.bytes]) ++ [.ok (ascii ">")]

namespace Rules

variable (rules : Rules)

/-- The texts that are put together for a node in line out of what its children
    become. None is for an object whose fields cannot all be named. -/
def inlineTexts : TypeTree → List (List Piece)
  | .node (.atomic _) _ | .node (.field _ _) _ => []
  | .node .object children =>
    let fields := rules.fieldViews children
    match Target.fieldNames rules.capacity (fields.map FieldView.name) with
    | .ok names => [recordText fields names]
    | .error _ => []
  | .node .array children => [[partPiece (rules.nestedHead children), .ok (ascii " []")]]
  | .node .union children =>
    match Default.distinctTypes rules.toSettings [] (rules.caseViews children) with
    | .ok (first :: second :: rest) => [unionText (first :: second :: rest)]
    | _ => []

/-- The texts that are put together for a tree in line. -/
def nestedTexts (tree : TypeTree) : List (List Piece) :=
  tree.subtrees.flatMap rules.inlineTexts

mutual

/-- The texts that are put together for an outermost type. -/
def topLevelTexts : TypeTree → List (List Piece)
  | .node (.atomic _) _ => []
  | .node .object children =>
    let fields := rules.fieldViews children
    let sources := fields.map FieldView.name
    let own := match Target.fieldNames rules.capacity sources with
      | .ok names => [parameterText fields names, literalText sources names]
      | .error _ => []
    own ++ (subtreesAll children).flatMap rules.inlineTexts
  | .node .array children =>
    [.ok (ascii "([<ParamArray>] values: "), partPiece (rules.nestedHead children),
      .ok (ascii " [])")] :: (subtreesAll children).flatMap rules.inlineTexts
  | .node (.field _ _) children | .node .union children => topLevelTextsAll children

def topLevelTextsAll : List TypeTree → List (List Piece)
  | [] => []
  | tree :: rest => topLevelTexts tree ++ topLevelTextsAll rest

end

/-- The faults of a tree in line. -/
inductive NestedFault (tree : TypeTree) : Fault → Prop
  /-- Somewhere in it is a union without cases. -/
  | emptyUnion : .union [] ∈ tree.subtrees → NestedFault tree .emptyUnion
  | unsupportedArity : NestedFault tree (.unsupportedArity rules.maxUnionArity)
  /-- A text that is put together for it has more than 511 bytes. -/
  | textTooLong {text : List Piece} : text ∈ rules.nestedTexts tree →
      511 < (wording text).length → NestedFault tree (.textTooLong 511)
  /-- An object in it has ten million fields or more. -/
  | nameTooLong {part : TypeTree} : part ∈ tree.subtrees → part.label = .object →
      Target.maxNumberedFields < part.children.length → NestedFault tree (.textTooLong 71)

/-- The faults of an outermost type. -/
inductive TopLevelFault (tree : TypeTree) : Fault → Prop
  /-- A union without cases is in the element of an array or in the type of a field. -/
  | emptyUnion {part : TypeTree} : part ∈ tree.subtrees →
      part.label.kind = .array ∨ part.label.kind = .field → .union [] ∈ part.subtrees →
      TopLevelFault tree .emptyUnion
  | unsupportedArity : TopLevelFault tree (.unsupportedArity rules.maxUnionArity)
  /-- A text that is put together for it has more than 511 bytes. -/
  | textTooLong {text : List Piece} : text ∈ rules.topLevelTexts tree →
      511 < (wording text).length → TopLevelFault tree (.textTooLong 511)
  /-- An object in it has ten million fields or more. -/
  | nameTooLong {part : TypeTree} : part ∈ tree.subtrees → part.label = .object →
      Target.maxNumberedFields < part.children.length → TopLevelFault tree (.textTooLong 71)

variable {rules}

theorem nestedTexts_subset {tree part : TypeTree} (h : part ∈ tree.subtrees) :
    ∀ text ∈ rules.nestedTexts part, text ∈ rules.nestedTexts tree := by
  intro text htext
  obtain ⟨inner, hinner, htext⟩ := List.mem_flatMap.1 htext
  exact List.mem_flatMap.2 ⟨inner, mem_subtrees_trans h inner hinner, htext⟩

theorem mem_nestedTexts_of_inline {tree : TypeTree} {text : List Piece}
    (h : text ∈ rules.inlineTexts tree) : text ∈ rules.nestedTexts tree :=
  List.mem_flatMap.2 ⟨tree, tree.self_mem_subtrees, h⟩

/-- The faults of a part in line are faults of the tree in line. -/
theorem NestedFault.lift {tree part : TypeTree} {fault : Fault} (hpart : part ∈ tree.subtrees)
    (h : rules.NestedFault part fault) : rules.NestedFault tree fault := by
  cases h with
  | emptyUnion hempty => exact .emptyUnion (mem_subtrees_trans hpart _ hempty)
  | unsupportedArity => exact .unsupportedArity
  | textTooLong htext hlong => exact .textTooLong (nestedTexts_subset hpart _ htext) hlong
  | nameTooLong hinner hlabel hmany =>
    exact .nameTooLong (mem_subtrees_trans hpart _ hinner) hlabel hmany

end Rules

/-! ## Rules that put texts together -/

/-- An item of two lists in step is made from a member of each. -/
theorem exists_of_mem_zipWith {α β γ : Type} {f : α → β → γ} {xs : List α} {ys : List β} {z : γ}
    (h : z ∈ List.zipWith f xs ys) : ∃ x ∈ xs, ∃ y, z = f x y := by
  rw [← List.map_uncurry_zip_eq_zipWith] at h
  obtain ⟨⟨x, y⟩, hxy, rfl⟩ := List.mem_map.1 h
  exact ⟨x, (List.of_mem_zip hxy).1, y, rfl⟩

theorem error_mem_memberPieces {field : FieldView} {name : Identifier} {fault : Fault}
    (h : .error fault ∈ Default.memberPieces field name) : field.type = .error fault := by
  obtain ⟨source, optional, type⟩ := field
  cases type <;> cases optional <;> simp_all [Default.memberPieces, partPiece, Except.map]

theorem error_mem_parameterPieces {field : FieldView} {name : Identifier} {fault : Fault}
    (h : .error fault ∈ Default.parameterPieces field name) : field.type = .error fault := by
  obtain ⟨source, optional, type⟩ := field
  cases type <;> cases optional <;> simp_all [Default.parameterPieces, partPiece, Except.map]

theorem eq_error_of_partPiece {part : Except Fault Text} {fault : Fault}
    (h : partPiece part = .error fault) : part = .error fault := by
  cases part <;> simp_all [partPiece, Except.map]

section NamedItems

variable {α : Type} {opening separator closing : Bytes} {item : α → Identifier → List Piece}
  {items : List α} {names : List Identifier} {fault : Fault}

/-- A fault among items with names comes from one of the items. -/
theorem error_mem_namedItems
    (h : .error fault ∈ namedItems opening separator closing item items names) :
    ∃ x ∈ items, ∃ name, .error fault ∈ item x name := by
  simp only [namedItems, List.cons_append, List.mem_cons, reduceCtorEq, List.mem_append,
    List.not_mem_nil, or_false, false_or] at h
  rcases mem_joinPieces h with hseparator | ⟨pieces, hpieces, hfault⟩
  · cases hseparator
  · obtain ⟨x, hx, name, rfl⟩ := exists_of_mem_zipWith hpieces
    exact ⟨x, hx, name, hfault⟩

/-- A text with the names of stored sources fails with one of its items, for want of an
    eighth digit in a name, or because it is too long. -/
theorem namedItems_eq_error {capacity : Nat} {source : α → Bytes}
    (hsources : ∀ x ∈ items, (source x).length ≤ nameLimit) (hcapacity : items.length ≤ capacity)
    (h : (Target.fieldNames capacity (items.map source) >>= fun names =>
      (BoundedText.render (namedItems opening separator closing item items names) :
        Except Fault Text)) = .error fault) :
    (∃ x ∈ items, ∃ name, .error fault ∈ item x name) ∨
      (fault = .textTooLong 71 ∧ Target.maxNumberedFields < items.length) ∨
      fault = .textTooLong 511 ∧
        ∃ names, Target.fieldNames capacity (items.map source) = .ok names ∧
          511 < (wording (namedItems opening separator closing item items names)).length := by
  rcases bind_eq_error_iff.1 h with hnames | ⟨names, hnames, hrender⟩
  · obtain ⟨rfl, hmany⟩ :=
      Target.fieldNames_eq_error (by simpa using hsources) (by simpa using hcapacity) hnames
    exact Or.inr (Or.inl ⟨rfl, List.length_map source ▸ hmany⟩)
  · rcases BoundedText.render_eq_error hrender with hpiece | ⟨rfl, hlong⟩
    · exact Or.inl (error_mem_namedItems hpiece)
    · exact Or.inr (Or.inr ⟨rfl, names, hnames, hlong⟩)

end NamedItems

section Fields

variable {fields : List FieldView} {fault : Fault}

/-- A record fails with the type of a field, or it has too many fields, or it is too
    long. -/
theorem innerObject_eq_error {settings : Settings}
    (hnames : ∀ field ∈ fields, field.name.length ≤ nameLimit)
    (hcapacity : fields.length ≤ settings.capacity)
    (h : Default.innerObject settings fields = .error fault) :
    (∃ field ∈ fields, field.type = .error fault) ∨
      (fault = .textTooLong 71 ∧ Target.maxNumberedFields < fields.length) ∨
      fault = .textTooLong 511 ∧
        ∃ names, Target.fieldNames settings.capacity (fields.map FieldView.name) = .ok names ∧
          511 < (wording (recordText fields names)).length := by
  refine (namedItems_eq_error hnames hcapacity h).imp_left ?_
  rintro ⟨field, hfield, name, hpiece⟩
  exact ⟨field, hfield, error_mem_memberPieces hpiece⟩

/-- A parameter list fails with the type of a field, or it has too many fields, or it is
    too long. -/
theorem parameters_eq_error {capacity : Nat}
    (hnames : ∀ field ∈ fields, field.name.length ≤ nameLimit)
    (hcapacity : fields.length ≤ capacity)
    (h : (Target.fieldNames capacity (fields.map FieldView.name) >>= fun names =>
      Default.parameters fields names) = .error fault) :
    (∃ field ∈ fields, field.type = .error fault) ∨
      (fault = .textTooLong 71 ∧ Target.maxNumberedFields < fields.length) ∨
      fault = .textTooLong 511 ∧
        ∃ names, Target.fieldNames capacity (fields.map FieldView.name) = .ok names ∧
          511 < (wording (parameterText fields names)).length := by
  refine (namedItems_eq_error hnames hcapacity h).imp_left ?_
  rintro ⟨field, hfield, name, hpiece⟩
  exact ⟨field, hfield, error_mem_parameterPieces hpiece⟩

end Fields

/-- An object literal fails only if it has too many fields or is too long. -/
theorem objectLiteral_eq_error {capacity : Nat} {sources : List Bytes} {fault : Fault}
    (hsources : ∀ source ∈ sources, source.length ≤ nameLimit)
    (hcapacity : sources.length ≤ capacity)
    (h : Target.objectLiteral capacity sources = .error fault) :
    (fault = .textTooLong 71 ∧ Target.maxNumberedFields < sources.length) ∨
      fault = .textTooLong 511 ∧ ∃ names, Target.fieldNames capacity sources = .ok names ∧
        511 < (wording (literalText sources names)).length := by
  have hrender : (Target.fieldNames capacity (sources.map fun source => source) >>= fun names =>
      (BoundedText.render (literalText sources names) : Except Fault Text)) = .error fault := by
    rwa [List.map_id']
  rcases namedItems_eq_error hsources hcapacity hrender with
    ⟨source, hsource, name, hpiece⟩ | hlong
  -- no entry fails, since every name has a literal
  · obtain ⟨code, hcode, -⟩ := Target.quotedCode_of_length_le (hsources source hsource)
    simp [Target.entryPieces, hcode, Except.map] at hpiece
  · rwa [List.map_id'] at hlong

/-! ## Unions in line -/

section Unions

variable {settings : Settings} {fault : Fault}

/-- Telling cases apart fails with one of them, or there are too many; the store for
    distinct cases is not full before. -/
theorem distinctTypes_eq_error {cases : List CaseView} :
    ∀ {known : List Text}, known.length + cases.length ≤ settings.capacity →
      Default.distinctTypes settings known cases = .error fault →
      (∃ case ∈ cases, Default.caseType settings case = .error fault) ∨
        fault = .unsupportedArity settings.maxUnionArity := by
  induction cases with
  | nil => exact fun _ h => nomatch h
  | cons case rest ih =>
    intro known hcapacity h
    rw [List.length_cons] at hcapacity
    have hlater : ∀ {known : List Text}, known.length + rest.length ≤ settings.capacity →
        Default.distinctTypes settings known rest = .error fault →
        (∃ later ∈ case :: rest, Default.caseType settings later = .error fault) ∨
          fault = .unsupportedArity settings.maxUnionArity := by
      intro known hroom hrest
      refine (ih hroom hrest).imp_left ?_
      rintro ⟨later, hmem, hlater⟩
      exact ⟨later, List.mem_cons_of_mem _ hmem, hlater⟩
    rcases bind_eq_error_iff.1 h with htype | ⟨type, -, h⟩
    · exact Or.inl ⟨case, List.mem_cons_self, htype⟩
    · split at h
      · exact hlater (by omega) h
      · split at h
        · cases h
          exact Or.inr rfl
        · rw [if_neg (by omega)] at h
          exact hlater (by rw [List.length_append, List.length_singleton]; omega) h

/-- Of some cases at least one is kept. -/
theorem distinctTypes_ne_nil {cases : List CaseView} {types : List Text} :
    ∀ {known : List Text}, Default.distinctTypes settings known cases = .ok types →
      known ≠ [] ∨ cases ≠ [] → types ≠ [] := by
  induction cases with
  | nil =>
    intro known h hne
    cases h
    exact hne.resolve_right (fun h => h rfl)
  | cons case rest ih =>
    intro known h _
    obtain ⟨type, -, h⟩ := bind_eq_ok_iff.1 h
    split at h
    · next hknown => exact ih h (Or.inl (List.ne_nil_of_mem hknown))
    · split at h
      · cases h
      · split at h
        · cases h
        · exact ih h (Or.inl (by simp))

/-- What a union is put together from are texts. -/
theorem error_notMem_unionText (types : List Text) : ∀ fault, .error fault ∉ unionText types := by
  intro fault hfault
  simp only [unionText, List.cons_append, List.mem_cons, reduceCtorEq, List.mem_append,
    List.not_mem_nil, or_false, false_or] at hfault
  rcases mem_joinPieces hfault with hseparator | ⟨item, hitem, hpiece⟩
  · cases hseparator
  · obtain ⟨type, -, rfl⟩ := List.mem_map.1 hitem
    cases List.mem_singleton.1 hpiece

/-- A union in line fails with one of its cases, because there are too many or none,
    or because it is too long. -/
theorem innerUnion_eq_error {cases : List CaseView}
    (hcapacity : cases.length ≤ settings.capacity)
    (h : Default.innerUnion settings cases = .error fault) :
    (∃ case ∈ cases, Default.caseType settings case = .error fault) ∨
      fault = .unsupportedArity settings.maxUnionArity ∨
      (fault = .emptyUnion ∧ cases = []) ∨
      fault = .textTooLong 511 ∧ ∃ first second rest,
        Default.distinctTypes settings [] cases = .ok (first :: second :: rest) ∧
          511 < (wording (unionText (first :: second :: rest))).length := by
  rcases bind_eq_error_iff.1 h with htypes | ⟨types, htypes, h⟩
  · rcases distinctTypes_eq_error (by simpa using hcapacity) htypes with hcase | harity
    · exact Or.inl hcase
    · exact Or.inr (Or.inl harity)
  · match types with
    | [] =>
      refine Or.inr (Or.inr (Or.inl ?_))
      cases h
      refine ⟨rfl, ?_⟩
      cases cases with
      | nil => rfl
      | cons case rest => exact absurd rfl (distinctTypes_ne_nil htypes (Or.inr (by simp)))
    | [only] => cases h
    | first :: second :: rest =>
      have hrender : (BoundedText.render (unionText (first :: second :: rest)) :
          Except Fault Text) = .error fault := h
      rcases BoundedText.render_eq_error hrender with hpiece | ⟨rfl, hlong⟩
      · exact absurd hpiece (error_notMem_unionText _ fault)
      · exact Or.inr (Or.inr (Or.inr ⟨rfl, first, second, rest, htypes, hlong⟩))

end Unions

/-! ## Trees in line -/

/-- Every atomic type has a type expression, and that is short. -/
theorem exists_atomic {type : Atomic} (h : type.text.length ≤ nameLimit) :
    ∃ text, Default.atomic type = .ok text ∧ text.bytes.length ≤ 2 * nameLimit + 2 := by
  obtain ⟨kind, bytes⟩ := type
  cases kind with
  | stringLiteral => exact Target.quotedCode_of_length_le h
  | other =>
    have hlimit : nameLimit = 63 := rfl
    obtain ⟨text, htext, hbytes⟩ := BoundedText.exists_append (t := (BoundedText.empty : Text))
      (show 0 + bytes.length ≤ 511 by simp only at h; omega)
    refine ⟨text, htext, ?_⟩
    rw [hbytes, BoundedText.bytes_empty, List.nil_append]
    simp only at h
    omega
  | _ => exact ⟨⟨_, by decide⟩, rfl, by decide⟩

namespace Rules

variable {capacity arity : Nat} {fault : Fault}

theorem fieldView_mem {rules : Rules} {children : List TypeTree} {field : FieldView}
    (h : field ∈ rules.fieldViews children) :
    ∃ child ∈ children, field.name = child.label.text ∧
      field.type = rules.nestedHead child.children := by
  rw [fieldViews_eq_map] at h
  obtain ⟨child, hchild, rfl⟩ := List.mem_map.1 h
  exact ⟨child, hchild, rfl, rfl⟩

theorem length_fieldViews (rules : Rules) (children : List TypeTree) :
    (rules.fieldViews children).length = children.length := by
  rw [fieldViews_eq_map, List.length_map]

/-- The fields of an object that fits have short names, and there is room for all. -/
theorem fieldViews_fit {children : List TypeTree}
    (h : (TypeTree.node .object children).Fits capacity) :
    (∀ field ∈ (ofArity capacity arity).fieldViews children, field.name.length ≤ nameLimit) ∧
      ((ofArity capacity arity).fieldViews children).length ≤ capacity := by
  refine ⟨fun field hfield => ?_, ?_⟩
  · obtain ⟨child, hchild, hname, -⟩ := fieldView_mem hfield
    rw [hname]
    exact (h.child child hchild).label_text_le
  · rw [length_fieldViews]
    exact h.length_children_le

/-- A field whose type fails is a child that fails. -/
theorem exists_child_of_fieldViews {children : List TypeTree}
    (hregular : (TypeTree.node .object children).Regular) {field : FieldView}
    (hfield : field ∈ (ofArity capacity arity).fieldViews children)
    (h : field.type = .error fault) :
    ∃ child ∈ children, child.label.kind = .field ∧
      (ofArity capacity arity).nested child = .error fault := by
  obtain ⟨child, hchild, -, htype⟩ := fieldView_mem hfield
  obtain ⟨name, optional, type, rfl, -, -⟩ := hregular.exists_field child hchild
  exact ⟨_, hchild, rfl, htype.symm.trans h⟩

theorem child_mem_subtrees {label : Label} {children : List TypeTree} {child : TypeTree}
    (h : child ∈ children) : child ∈ (TypeTree.node label children).subtrees :=
  mem_subtrees_node.2 (Or.inr ⟨child, h, child.self_mem_subtrees⟩)

/-- A tree in line that fits in an arena fails only in these ways. -/
theorem nested_eq_error {tree : TypeTree} :
    tree.Fits capacity → ∀ {fault : Fault},
      (ofArity capacity arity).nested tree = .error fault →
      (ofArity capacity arity).NestedFault tree fault := by
  induction tree using TypeTree.induction with
  | node label children ih =>
    intro hfits fault h
    have hpart : ∀ child ∈ children, (ofArity capacity arity).nested child = .error fault →
        (ofArity capacity arity).NestedFault (.node label children) fault :=
      fun child hchild herror =>
        (ih child hchild (hfits.child child hchild) herror).lift (child_mem_subtrees hchild)
    cases label with
    | atomic type =>
      obtain ⟨text, htext, -⟩ := exists_atomic hfits.label_text_le
      rw [nested_atomic, htext] at h
      cases h
    | object =>
      obtain ⟨hnames, hroom⟩ := @fieldViews_fit capacity arity children hfits
      rw [nested_object] at h
      rcases innerObject_eq_error hnames hroom h with ⟨field, hfield, herror⟩ | ⟨rfl, hmany⟩ |
        ⟨rfl, names, hnamed, hlong⟩
      · obtain ⟨child, hchild, -, herror⟩ := exists_child_of_fieldViews hfits.regular hfield herror
        exact hpart child hchild herror
      · exact .nameTooLong (self_mem_subtrees _) rfl (length_fieldViews _ _ ▸ hmany)
      · refine .textTooLong (mem_nestedTexts_of_inline ?_) hlong
        simp only [inlineTexts, hnamed, List.mem_singleton]
    | field name optional =>
      obtain ⟨type, rfl, -, -⟩ := hfits.regular.exists_only (Or.inr rfl)
      rw [← TypeTree.field, nested_field] at h
      exact hpart type List.mem_cons_self h
    | array =>
      obtain ⟨element, rfl, -, -⟩ := hfits.regular.exists_only (Or.inl rfl)
      rw [← array, nested_array] at h
      rcases BoundedText.render_eq_error h with hpiece | ⟨rfl, hlong⟩
      · simp only [List.mem_cons, reduceCtorEq, List.not_mem_nil, or_false] at hpiece
        exact hpart element List.mem_cons_self (eq_error_of_partPiece hpiece.symm)
      · exact .textTooLong (mem_nestedTexts_of_inline List.mem_cons_self) hlong
    | union =>
      rw [nested_union] at h
      have hviews : ((ofArity capacity arity).caseViews children).length ≤ capacity := by
        rw [caseViews_eq_map, List.length_map]
        exact hfits.length_children_le
      rcases innerUnion_eq_error hviews h with ⟨case, hcase, herror⟩ | rfl | ⟨rfl, hnone⟩ |
        ⟨rfl, first, second, rest, htypes, hlong⟩
      -- a literal widens, and that does not fail
      · rw [caseViews_eq_map] at hcase
        obtain ⟨child, hchild, rfl⟩ := List.mem_map.1 hcase
        unfold Default.caseType at herror
        split at herror
        · cases herror
        · exact hpart child hchild herror
      · exact .unsupportedArity
      · rw [caseViews_eq_map, List.map_eq_nil_iff] at hnone
        exact .emptyUnion (hnone ▸ self_mem_subtrees _)
      · refine .textTooLong (mem_nestedTexts_of_inline ?_) hlong
        simp only [inlineTexts, htypes, List.mem_singleton]

/-! ## Outermost types -/

/-- What fails in line below an object or an array fails there in the same way for the
    outermost type; an empty union is in the element of an array or in the type of a
    field then. -/
theorem TopLevelFault.of_nested {label : Label} {children : List TypeTree} {child part : TypeTree}
    (hchild : child ∈ children) (h : (ofArity capacity arity).NestedFault child fault)
    (hpart : part = .node label children ∨ part = child)
    (hkind : part.label.kind = .array ∨ part.label.kind = .field)
    (htexts : ∀ text ∈ (subtreesAll children).flatMap (ofArity capacity arity).inlineTexts,
      text ∈ (ofArity capacity arity).topLevelTexts (.node label children)) :
    (ofArity capacity arity).TopLevelFault (.node label children) fault := by
  cases h with
  | emptyUnion hempty =>
    rcases hpart with rfl | rfl
    · exact .emptyUnion (self_mem_subtrees _) hkind
        (mem_subtrees_trans (child_mem_subtrees hchild) _ hempty)
    · exact .emptyUnion (child_mem_subtrees hchild) hkind hempty
  | unsupportedArity => exact .unsupportedArity
  | textTooLong htext hlong =>
    refine .textTooLong (htexts _ ?_) hlong
    obtain ⟨inner, hinner, htext⟩ := List.mem_flatMap.1 htext
    refine List.mem_flatMap.2 ⟨inner, ?_, htext⟩
    rw [subtreesAll_eq_flatMap]
    exact List.mem_flatMap.2 ⟨child, hchild, hinner⟩
  | nameTooLong hinner hlabel hmany =>
    exact .nameTooLong (mem_subtrees_trans (child_mem_subtrees hchild) _ hinner) hlabel hmany

/-- A list of one overload is made wherever there is room for a node. -/
theorem ofList_singleton_ne_error (hcapacity : 0 < capacity) (overload : Overload) :
    OverloadList.ofList capacity [overload] ≠ .error fault := by
  have hone : (Overload.distinct [overload]).length ≤ capacity := hcapacity
  rw [OverloadList.ofList_distinct _ hone]
  nofun

/-- An outermost type that is neither a union nor a field fails only in these ways. -/
theorem topLevel_eq_error_of_case {tree : TypeTree} (hfits : tree.Fits capacity)
    (hunion : tree.label ≠ .union) (hfield : tree.label.kind ≠ .field)
    (h : (ofArity capacity arity).topLevel tree = .error fault) :
    (ofArity capacity arity).TopLevelFault tree fault := by
  obtain ⟨label, children⟩ := tree
  cases label with
  | atomic type =>
    obtain ⟨text, htext, hlength⟩ := exists_atomic hfits.label_text_le
    have hlimit : nameLimit = 63 := rfl
    rw [topLevel_atomic, htext] at h
    rcases bind_eq_error_iff.1 h with hrender | ⟨params, -, hlist⟩
    · rcases BoundedText.render_eq_error hrender with hpiece | ⟨-, hlong⟩
      · simp [partPiece, Except.map] at hpiece
      · have hwords : (ascii "(value: ").length = 8 ∧ (ascii ")").length = 1 := ⟨rfl, rfl⟩
        simp only [partPiece, Except.map, wording_ok_cons, wording_nil, List.append_nil,
          List.length_append] at hlong
        omega
    · exact absurd hlist (ofList_singleton_ne_error hfits.pos _)
  | object =>
    obtain ⟨hnames, hroom⟩ := @fieldViews_fit capacity arity children hfits
    have htexts : ∀ text ∈ (subtreesAll children).flatMap (ofArity capacity arity).inlineTexts,
        text ∈ (ofArity capacity arity).topLevelTexts (.node .object children) :=
      fun text htext => List.mem_append_right _ htext
    have hown : ∀ {names}, Target.fieldNames (ofArity capacity arity).capacity
        (((ofArity capacity arity).fieldViews children).map FieldView.name) = .ok names →
        ∀ text ∈ [parameterText ((ofArity capacity arity).fieldViews children) names,
            literalText (((ofArity capacity arity).fieldViews children).map FieldView.name) names],
          text ∈ (ofArity capacity arity).topLevelTexts (.node .object children) := by
      intro names hnamed text htext
      simp only [topLevelTexts, hnamed]
      exact List.mem_append_left _ htext
    have hmanyFields : Target.maxNumberedFields <
          ((ofArity capacity arity).fieldViews children).length →
        (ofArity capacity arity).TopLevelFault (.node .object children) (.textTooLong 71) :=
      fun hmany => .nameTooLong (self_mem_subtrees _) rfl (length_fieldViews _ _ ▸ hmany)
    have hparams : ∀ {fault},
        (Target.fieldNames capacity (((ofArity capacity arity).fieldViews children).map
          FieldView.name) >>= Default.parameters ((ofArity capacity arity).fieldViews children)) =
            .error fault →
        (ofArity capacity arity).TopLevelFault (.node .object children) fault := by
      intro fault hparams
      rcases parameters_eq_error hnames hroom hparams with ⟨field, hmem, herror⟩ | ⟨rfl, hmany⟩ |
        ⟨rfl, names, hnamed, hlong⟩
      · obtain ⟨child, hchild, hkind, herror⟩ :=
          exists_child_of_fieldViews hfits.regular hmem herror
        exact .of_nested hchild (nested_eq_error (hfits.child child hchild) herror) (Or.inr rfl)
          (Or.inr hkind) htexts
      · exact hmanyFields hmany
      · exact .textTooLong (hown hnamed _ List.mem_cons_self) hlong
    rw [topLevel_object] at h
    rcases bind_eq_error_iff.1 h with hnone | ⟨names, hsome, h⟩
    · exact hparams (bind_eq_error_iff.2 (Or.inl hnone))
    rcases bind_eq_error_iff.1 h with hnone | ⟨params, -, h⟩
    · exact hparams (bind_eq_error_iff.2 (Or.inr ⟨names, hsome, hnone⟩))
    rcases bind_eq_error_iff.1 h with hbody | ⟨body, -, hlist⟩
    · rcases objectLiteral_eq_error (by simpa using hnames) (by simpa using hroom) hbody with
        ⟨rfl, hmany⟩ | ⟨rfl, names, hnamed, hlong⟩
      · exact hmanyFields (List.length_map FieldView.name ▸ hmany)
      · exact .textTooLong (hown hnamed _ (List.mem_cons_of_mem _ List.mem_cons_self)) hlong
    · exact absurd hlist (ofList_singleton_ne_error hfits.pos _)
  | array =>
    obtain ⟨element, rfl, -, -⟩ := hfits.regular.exists_only (Or.inl rfl)
    rw [topLevel_array] at h
    rcases bind_eq_error_iff.1 h with hrender | ⟨params, -, hlist⟩
    · rcases BoundedText.render_eq_error hrender with hpiece | ⟨rfl, hlong⟩
      · simp only [List.mem_cons, reduceCtorEq, List.not_mem_nil, or_false, false_or] at hpiece
        have herror := eq_error_of_partPiece hpiece.symm
        exact .of_nested List.mem_cons_self
          (nested_eq_error (hfits.child element List.mem_cons_self) herror) (Or.inl rfl)
          (Or.inl rfl) (fun text htext => List.mem_cons_of_mem _ htext)
      · exact .textTooLong List.mem_cons_self hlong
    · exact absurd hlist (ofList_singleton_ne_error hfits.pos _)
  | field => exact absurd rfl hfield
  | union => exact absurd rfl hunion

end Rules

end TypeSig
