/-
  TypeSig.Proofs.Rules.Objects

  An outermost object as named parameters that are put together again. The names are
  made twice, for the parameters and for the object literal in the body, and the body
  pairs each source name with the parameter of that field: one list of `Parameter`s
  says both texts.

  Main statement: `StoredTree.topLevel_object_decodes`. It asks only that the rule for
  outermost objects is the default one; what the types of the fields become is up to
  the other rules.
-/

import TypeSig.Proofs.Overload.Distinct
import TypeSig.Proofs.Target.Decode

namespace TypeSig

/-! ## Parameters -/

/-- A named parameter for a field: the name of the field, whether it may be left out, the
    name of the parameter and its type. -/
structure Parameter where
  source : Bytes
  optional : Bool
  label : Identifier
  type : Text

namespace Parameter

/-- The parameter as it stands in a parameter list. -/
def code (p : Parameter) : Bytes :=
  (if p.optional then [Byte.questionMark] else []) ++ p.label.bytes ++ ascii ": " ++ p.type.bytes

/-- The source name with the name of its value. -/
def entry (p : Parameter) : Bytes × Bytes :=
  (p.source, p.label.bytes)

/-- The field as rules see it. -/
def view (p : Parameter) : FieldView :=
  ⟨p.source, p.optional, .ok p.type⟩

/-- The parameter list for parameters. -/
def listCode (parameters : List Parameter) : Bytes :=
  ascii "(" ++ List.intercalate (ascii ", ") (parameters.map code) ++ ascii ")"

/-- The parameter is one for a field, with the type that rules give to the field. -/
def IsFor (rules : Rules) (child : TypeTree) (p : Parameter) : Prop :=
  ∃ type, child = .field p.source p.optional type ∧ rules.nested type = .ok p.type

theorem wording_parameterPieces (p : Parameter) :
    wording (Default.parameterPieces p.view p.label) = p.code := by
  obtain ⟨source, optional, label, type⟩ := p
  cases optional <;>
    simp [Default.parameterPieces, view, code, partPiece, Except.map, wording_ok_cons]

/-- A parameter list says the code of each parameter. -/
theorem parameters_bytes {parameters : List Parameter} {params : Text}
    (h : Default.parameters (parameters.map view) (parameters.map label) = .ok params) :
    params.bytes = listCode parameters := by
  have hcodes : (List.zipWith Default.parameterPieces (parameters.map view)
      (parameters.map label)).map wording = parameters.map code := by
    rw [List.zipWith_map, List.zipWith_self, List.map_map]
    exact List.map_congr_left fun p _ => wording_parameterPieces p
  rw [BoundedText.render_eq_ok h, List.cons_append, wording_ok_cons, wording_append,
    wording_joinPieces, hcodes, listCode, List.append_assoc]
  rfl

section Fields

variable {rules : Rules} {children : List TypeTree}

theorem fieldViews_eq {parameters : List Parameter}
    (h : List.Forall₂ (IsFor rules) children parameters) :
    rules.fieldViews children = parameters.map view := by
  induction h with
  | nil => rfl
  | cons hfirst _ ih =>
    obtain ⟨type, rfl, htype⟩ := hfirst
    rw [TypeTree.field, Rules.fieldViews, ih, List.map_cons, view, ← htype]
    rfl

/-- Fields have parameters with any names that are given, if what is written for a field
    is never a fault. -/
theorem exists_isFor {names : List Identifier} (hlength : names.length = children.length)
    (hfields : ∀ child ∈ children, ∃ name optional type, child = .field name optional type)
    (hpieces : ∀ item ∈ List.zipWith Default.parameterPieces (rules.fieldViews children) names,
      ∀ fault, .error fault ∉ item) :
    ∃ parameters, List.Forall₂ (IsFor rules) children parameters ∧
      parameters.map label = names := by
  induction children generalizing names with
  | nil =>
    obtain rfl := List.length_eq_zero_iff.1 hlength
    exact ⟨[], .nil, rfl⟩
  | cons child rest ih =>
    obtain ⟨⟨source, optional, type, rfl⟩, hrest⟩ := List.forall_mem_cons.1 hfields
    cases names with
    | nil => cases hlength
    | cons label names =>
      obtain ⟨hfirst, hothers⟩ := List.forall_mem_cons.1 hpieces
      obtain ⟨parameters, hfor, hlabels⟩ := ih (Nat.succ.inj hlength) hrest hothers
      -- a type that is not rendered is a piece of what is written for the field
      cases htype : rules.nested type with
      | error fault =>
        have hview : rules.nestedHead [type] = .error fault := htype
        refine absurd ?_ (hfirst fault)
        simp [Default.parameterPieces, partPiece, hview, Except.map]
      | ok text =>
        exact ⟨⟨source, optional, label, text⟩ :: parameters, .cons ⟨type, rfl, htype⟩ hfor,
          congrArg (label :: ·) hlabels⟩

end Fields

end Parameter

/-! ## Outermost objects -/

namespace Default

/-- An outermost object over fields is one overload, and parameters for the fields say its
    parameter list and, read back, its body. -/
theorem topLevelObject_eq_ok {rules : Rules} {inline : Except Fault Text}
    {children : List TypeTree} {list : OverloadList}
    (hfields : ∀ child ∈ children, ∃ name optional type, child = .field name optional type)
    (h : topLevelObject rules.toSettings ⟨inline, rules.fieldViews children⟩ = .ok list) :
    ∃ (parameters : List Parameter) (params body : Text),
      list = ⟨[.regular params body]⟩ ∧
      List.Forall₂ (Parameter.IsFor rules) children parameters ∧
      Target.fieldNames rules.capacity (children.map fun child => child.label.text) =
        .ok (parameters.map Parameter.label) ∧
      Target.objectLiteral rules.capacity (children.map fun child => child.label.text) =
        .ok body ∧
      params.bytes = Parameter.listCode parameters ∧
      Target.readObject body.bytes = some (parameters.map Parameter.entry) := by
  obtain ⟨names, hnames, h⟩ := bind_eq_ok_iff.1 h
  obtain ⟨params, hparams, h⟩ := bind_eq_ok_iff.1 h
  obtain ⟨body, hbody, hlist⟩ := bind_eq_ok_iff.1 h
  have hsources : (rules.fieldViews children).map FieldView.name =
      children.map fun child => child.label.text := by
    rw [Rules.fieldViews_eq_map, List.map_map]
    rfl
  simp only [hsources] at hnames hbody
  have hlength : names.length = children.length := by
    rw [(Target.fieldNames_isNameFor hnames).1, List.length_map]
  have hpieces : ∀ item ∈ List.zipWith parameterPieces (rules.fieldViews children) names,
      ∀ fault, .error fault ∉ item := fun item hitem fault hfault =>
    BoundedText.error_notMem_of_render hparams fault (by simp [mem_joinPieces_of_mem hitem hfault])
  obtain ⟨parameters, hfor, rfl⟩ := Parameter.exists_isFor hlength hfields hpieces
  have hviews := Parameter.fieldViews_eq hfor
  rw [hviews] at hparams
  refine ⟨parameters, params, body, OverloadList.eq_of_ofList_singleton hlist, hfor, hnames,
    hbody, Parameter.parameters_bytes hparams, ?_⟩
  -- the body has its names made once more, out of the same source names
  obtain ⟨names', hnames', hread⟩ := Target.readObject_objectLiteral hbody
  obtain rfl := Except.ok.inj (hnames.symm.trans hnames')
  rw [hread, ← hsources, hviews, List.map_map, List.map_map, List.zip_map']
  rfl

end Default

namespace StoredTree

/-- An outermost object whose children are fields, under any bundle of rules that has the
    default rule for it. If there are overloads, there is one, and a list of parameters
    for the fields, in their order, describes both of its texts: it is the parameter list,
    and the body is read back as the source name of each field with the name of its
    parameter. The names of the parameters are all different. An object literal, of
    whatever object, can be read back, so objects with the same literal have the same
    source names. -/
theorem topLevel_object_decodes :
    (∀ (rules : Rules) (stored : StoredTree) (fields : List TypeTree) (list : OverloadList),
      rules.topLevelObject = Default.topLevelObject →
      stored.tree? = some (.object fields) →
      (∀ child ∈ fields, ∃ name optional type, child = .field name optional type) →
      stored.topLevel rules = .ok list →
      ∃ (parameters : List Parameter) (params body : Text),
        list = ⟨[.regular params body]⟩ ∧
        List.Forall₂ (Parameter.IsFor rules) fields parameters ∧
        (parameters.map Parameter.label).Nodup ∧
        stored.fieldNames rules.capacity = .ok (parameters.map Parameter.label) ∧
        stored.objectLiteral rules.capacity = .ok body ∧
        params.bytes = Parameter.listCode parameters ∧
        Target.readObject body.bytes = some (parameters.map Parameter.entry)) ∧
    ∀ (capacity capacity' : Nat) (stored stored' : StoredTree) (fields fields' : List TypeTree)
      (body : Text), stored.tree? = some (.object fields) →
      stored'.tree? = some (.object fields') →
      stored.objectLiteral capacity = .ok body → stored'.objectLiteral capacity' = .ok body →
      fields.map (fun child => child.label.text) =
        fields'.map fun child => child.label.text := by
  refine ⟨fun rules stored fields list hrule htree hfields h => ?_,
    fun capacity capacity' stored stored' fields fields' body htree htree' h h' => ?_⟩
  · rw [topLevel, requireTree_of_tree? htree] at h
    change rules.topLevelObject rules.toSettings
      ⟨rules.nested (.object fields), rules.fieldViews fields⟩ = .ok list at h
    rw [hrule] at h
    obtain ⟨parameters, params, body, rfl, hfor, hnames, hbody, hparams, hread⟩ :=
      Default.topLevelObject_eq_ok hfields h
    refine ⟨parameters, params, body, rfl, hfor, Target.nodup_fieldNames hnames, ?_, ?_, hparams,
      hread⟩
    · exact (fieldNames_eq htree rules.capacity).trans hnames
    · exact (objectLiteral_eq htree rules.capacity).trans hbody
  · rw [objectLiteral_eq htree] at h
    rw [objectLiteral_eq htree'] at h'
    exact Target.sources_eq_of_objectLiteral h h'

/-- An arena that holds an object with two fields of a sort of types. Their names have a
    quote and a backslash in them and give the same name in the target language. -/
def quotedFields (kind : AtomicKind) : StoredTree :=
  ⟨⟨[.leaf (.atomic ⟨kind, []⟩), ⟨.field (ascii "a\"b") false, some 0, some 3, 1⟩,
    .leaf (.atomic ⟨kind, []⟩), ⟨.field (ascii "a\\b") true, some 2, none, 1⟩,
    ⟨.object, some 1, none, 2⟩]⟩, some 4⟩

theorem topLevel_object_decodes_sample :
    ∃ (parameters : List Parameter) (params body : Text),
      (quotedFields .number).topLevel (Rules.standard 8) = .ok ⟨[.regular params body]⟩ ∧
      params.bytes = ascii "(aB: float, ?aB2: float)" ∧
      body.bytes = ascii "createObj [ \"a\\\"b\" ==> aB; \"a\\\\b\" ==> aB2 ]" ∧
      params.bytes = Parameter.listCode parameters ∧
      parameters.map Parameter.entry =
        [(ascii "a\"b", ascii "aB"), (ascii "a\\b", ascii "aB2")] ∧
      (quotedFields .bool).objectLiteral 5 = .ok body ∧
      ((quotedFields .bool).tree?.map fun tree =>
        tree.children.map fun child => child.label.text) = some [ascii "a\"b", ascii "a\\b"] := by
  let fields (kind : AtomicKind) : List TypeTree :=
    [.field (ascii "a\"b") false (.atomic kind []), .field (ascii "a\\b") true (.atomic kind [])]
  let params : Text := ⟨ascii "(aB: float, ?aB2: float)", by decide⟩
  let body : Text :=
    ⟨ascii "createObj [ \"a\\\"b\" ==> aB; \"a\\\\b\" ==> aB2 ]", by decide⟩
  have htree : (quotedFields .number).tree? = some (.object (fields .number)) := by decide
  have htree' : (quotedFields .bool).tree? = some (.object (fields .bool)) := by decide
  have hfields : ∀ child ∈ fields .number, ∃ name optional type,
      child = .field name optional type :=
    List.forall_mem_cons.2 ⟨⟨_, _, _, rfl⟩, List.forall_mem_singleton.2 ⟨_, _, _, rfl⟩⟩
  have hlist : (quotedFields .number).topLevel (Rules.standard 8) =
      .ok ⟨[.regular params body]⟩ := by decide +kernel
  have hliteral' : (quotedFields .bool).objectLiteral 5 = .ok body := by decide +kernel
  obtain ⟨parameters, params', body', hone, -, -, -, hliteral, hparams, hread⟩ :=
    topLevel_object_decodes.1 _ _ _ _ rfl htree hfields hlist
  obtain ⟨rfl, rfl⟩ : params = params' ∧ body = body' := by simpa using hone
  have hsources := topLevel_object_decodes.2 _ 5 _ _ _ _ body htree htree' hliteral hliteral'
  have hentries : Target.readObject body.bytes =
      some [(ascii "a\"b", ascii "aB"), (ascii "a\\b", ascii "aB2")] := by decide +kernel
  refine ⟨parameters, params, body, hlist, rfl, rfl, hparams,
    Option.some.inj (hread.symm.trans hentries), hliteral', ?_⟩
  rw [htree', Option.map_some]
  exact congrArg some hsources.symm

end StoredTree

end TypeSig
