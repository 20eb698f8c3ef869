/-
  TypeSig.Proofs.Rules.Lockstep

  The same rules side by side under two sets of bounds, of which the second are no
  lower. A rule hands on what its parts become and asks for a bound in between: for
  room in a list of overloads, for names, and for cases of a union, and for the most
  cases that a union may have. Whatever it asks, the lower bound lets it pass and so
  does the higher one, or the fault is that the lower bound is met (`BoundMet`). So the
  higher bounds change nothing but that fault, also where a part fails and where one
  rule stands in for another.

  `Follows` says this of the rules at a node, `Customization.follows` says that the
  rules of every customization are of that sort, and `Follows.nested` and
  `Follows.topLevel` carry it from the parts of a tree to the tree.

  Main statement: `StoredTree.outputs_of_arity_le`.
-/

import TypeSig.Generate
import TypeSig.Proofs.Overload.Growth
import TypeSig.Proofs.Text.SameUnless

namespace TypeSig

/-! ## Bounds -/

/-- The same rule for atomic types, with bounds that are no lower. -/
structure Settings.Within (s t : Settings) : Prop where
  capacity_le : s.capacity ≤ t.capacity
  arity_le : s.maxUnionArity ≤ t.maxUnionArity
  atomic_eq : t.atomic = s.atomic

/-- The faults of a run that meets one of its bounds where the other run has a higher
    one. -/
inductive BoundMet (s t : Settings) : Fault → Prop
  | overloadsFull : s.capacity < t.capacity → BoundMet s t .overloadsFull
  | tooManyFields : s.capacity < t.capacity → BoundMet s t .tooManyFields
  | tooManyCases : s.capacity < t.capacity → BoundMet s t .tooManyCases
  | unsupportedArity : s.maxUnionArity < t.maxUnionArity →
      BoundMet s t (.unsupportedArity s.maxUnionArity)

/-! ## Views that are compared part by part -/

section Views

variable (excused : Fault → Prop)

/-- One field with its type in two runs. -/
structure FieldView.Alike (field field' : FieldView) : Prop where
  name_eq : field'.name = field.name
  optional_eq : field'.optional = field.optional
  type : SameUnless excused field.type field'.type

/-- One case with its type in two runs. -/
structure CaseView.Alike (case case' : CaseView) : Prop where
  label_eq : case'.label = case.label
  type : SameUnless excused case.type case'.type

/-- One case with its overloads in two runs. -/
structure CaseOverloads.Alike (case case' : CaseOverloads) : Prop where
  label_eq : case'.label = case.label
  overloads : SameUnless excused case.overloads case'.overloads

/-- Two bundles of rules that make the same of a node whose parts came to the same, each
    unless the first fails for a reason that is excused. -/
structure Rules.Follows (rules wide : Rules) : Prop where
  atomic : ∀ type, SameUnless excused (rules.atomic type) (wide.atomic type)
  value : ∀ {type type'}, SameUnless excused type type' →
    SameUnless excused (valueOverloads rules.capacity type) (valueOverloads wide.capacity type')
  innerObject : ∀ {fields fields'}, List.Forall₂ (FieldView.Alike excused) fields fields' →
    SameUnless excused (rules.innerObject rules.toSettings fields)
      (wide.innerObject wide.toSettings fields')
  innerUnion : ∀ {cases cases'}, List.Forall₂ (CaseView.Alike excused) cases cases' →
    SameUnless excused (rules.innerUnion rules.toSettings cases)
      (wide.innerUnion wide.toSettings cases')
  innerArray : ∀ {element element'}, SameUnless excused element element' →
    SameUnless excused (rules.innerArray rules.toSettings element)
      (wide.innerArray wide.toSettings element')
  topLevelObject : ∀ {object object' : ObjectView},
    SameUnless excused object.inline object'.inline →
    List.Forall₂ (FieldView.Alike excused) object.fields object'.fields →
    SameUnless excused (rules.topLevelObject rules.toSettings object)
      (wide.topLevelObject wide.toSettings object')
  topLevelUnion : ∀ {union union' : UnionView}, SameUnless excused union.inline union'.inline →
    List.Forall₂ (CaseOverloads.Alike excused) union.cases union'.cases →
    SameUnless excused (rules.topLevelUnion rules.toSettings union)
      (wide.topLevelUnion wide.toSettings union')
  topLevelArray : ∀ {array array' : ArrayView},
    SameUnless excused array.element array'.element →
    SameUnless excused array.overloads array'.overloads →
    SameUnless excused (rules.topLevelArray rules.toSettings array)
      (wide.topLevelArray wide.toSettings array')

end Views

/-! ## From the parts of a tree to the tree -/

namespace Rules.Follows

variable {excused : Fault → Prop} {rules wide : Rules} (h : rules.Follows excused wide)
  {children : List TypeTree}

/-- The first of several trees is alike if all are. -/
theorem nestedHead_of
    (hall : ∀ child ∈ children, SameUnless excused (rules.nested child) (wide.nested child)) :
    SameUnless excused (rules.nestedHead children) (wide.nestedHead children) := by
  cases children with
  | nil => exact .refl _
  | cons child rest => exact hall child List.mem_cons_self

theorem topLevelHead_of (hall : ∀ child ∈ children,
      SameUnless excused (rules.topLevel child) (wide.topLevel child)) :
    SameUnless excused (rules.topLevelHead children) (wide.topLevelHead children) := by
  cases children with
  | nil => exact .refl _
  | cons child rest => exact hall child List.mem_cons_self

theorem fieldViews_of (hall : ∀ child ∈ children,
      SameUnless excused (rules.nestedHead child.children) (wide.nestedHead child.children)) :
    List.Forall₂ (FieldView.Alike excused) (rules.fieldViews children)
      (wide.fieldViews children) := by
  rw [fieldViews_eq_map, fieldViews_eq_map, List.forall₂_map_left_iff,
    List.forall₂_map_right_iff, List.forall₂_same]
  exact fun child hchild => ⟨rfl, rfl, hall child hchild⟩

include h

/-- In line, a tree and its first child, which is the type of a field, come to the same
    in both runs. -/
theorem nested_and_head (tree : TypeTree) :
    SameUnless excused (rules.nested tree) (wide.nested tree) ∧
      SameUnless excused (rules.nestedHead tree.children) (wide.nestedHead tree.children) := by
  induction tree using TypeTree.induction with
  | node label children ih =>
    have hhead := nestedHead_of fun child hchild => (ih child hchild).1
    refine ⟨?_, hhead⟩
    cases label with
    | atomic type => exact h.atomic type
    | object => exact h.innerObject (fieldViews_of fun child hchild => (ih child hchild).2)
    | field name optional => exact hhead
    | array => exact h.innerArray hhead
    | union =>
      apply h.innerUnion
      rw [caseViews_eq_map, caseViews_eq_map, List.forall₂_map_left_iff,
        List.forall₂_map_right_iff, List.forall₂_same]
      exact fun child hchild => ⟨rfl, (ih child hchild).1⟩

theorem nested (tree : TypeTree) : SameUnless excused (rules.nested tree) (wide.nested tree) :=
  (h.nested_and_head tree).1

/-- So does an outermost tree. -/
theorem topLevel (tree : TypeTree) :
    SameUnless excused (rules.topLevel tree) (wide.topLevel tree) := by
  induction tree using TypeTree.induction with
  | node label children ih =>
    cases label with
    | atomic type => exact h.value (h.atomic type)
    | object =>
      exact h.topLevelObject (h.nested _)
        (fieldViews_of fun child _ => (h.nested_and_head child).2)
    | field name optional => exact topLevelHead_of ih
    | array =>
      exact h.topLevelArray (nestedHead_of fun child _ => h.nested child) (topLevelHead_of ih)
    | union =>
      refine h.topLevelUnion (h.nested _) ?_
      show List.Forall₂ _ (rules.caseOverloads children) (wide.caseOverloads children)
      rw [caseOverloads_eq_map, caseOverloads_eq_map, List.forall₂_map_left_iff,
        List.forall₂_map_right_iff, List.forall₂_same]
      exact fun child hchild => ⟨rfl, ih child hchild⟩

end Rules.Follows

/-! ## Stores of a capacity -/

section Bounds

variable {s t : Settings} (h : s.Within t)

include h

/-- An overload that the smaller list takes in, the larger one takes in, too. -/
theorem OverloadList.add_sameUnless (list : OverloadList) (overload : Overload) :
    SameUnless (BoundMet s t) (list.add s.capacity overload) (list.add t.capacity overload) := by
  have hle := h.capacity_le
  unfold add
  split
  · exact .refl _
  · by_cases hfull : s.capacity ≤ list.size
    · rw [if_pos hfull]
      by_cases hfull' : t.capacity ≤ list.size
      · rw [if_pos hfull']
        exact .refl _
      · exact .of_excused (.overloadsFull (by omega)) _
    · rw [if_neg hfull, if_neg (show ¬ t.capacity ≤ list.size by omega)]
      exact .refl _

theorem OverloadList.extend_sameUnless (overloads : List Overload) :
    ∀ list : OverloadList, SameUnless (BoundMet s t) (list.extend s.capacity overloads)
      (list.extend t.capacity overloads) := by
  induction overloads with
  | nil => exact fun list => .refl _
  | cons overload rest ih =>
    intro list
    rw [extend_cons, extend_cons]
    exact (list.add_sameUnless h overload).bind fun added => ih added.1

theorem OverloadList.ofList_sameUnless (overloads : List Overload) :
    SameUnless (BoundMet s t) (OverloadList.ofList s.capacity overloads)
      (OverloadList.ofList t.capacity overloads) :=
  empty.extend_sameUnless h overloads

/-- Fields that the smaller store has names for have the same names in the larger one. -/
theorem Target.extendNames_sameUnless (sources : List Bytes) :
    ∀ taken : List Identifier, SameUnless (BoundMet s t) (extendNames s.capacity taken sources)
      (extendNames t.capacity taken sources) := by
  have hle := h.capacity_le
  induction sources with
  | nil => exact fun taken => .refl _
  | cons source rest ih =>
    intro taken
    rw [extendNames, extendNames]
    by_cases hfull : s.capacity ≤ taken.length
    · rw [if_pos hfull]
      by_cases hfull' : t.capacity ≤ taken.length
      · rw [if_pos hfull']
        exact .refl _
      · exact .of_excused (.tooManyFields (by omega)) _
    · rw [if_neg hfull, if_neg (show ¬ t.capacity ≤ taken.length by omega)]
      exact (SameUnless.refl (freeName taken source)).bind fun name => ih _

theorem Target.fieldNames_sameUnless (sources : List Bytes) :
    SameUnless (BoundMet s t) (fieldNames s.capacity sources) (fieldNames t.capacity sources) :=
  extendNames_sameUnless h sources []

theorem Target.objectLiteral_sameUnless (sources : List Bytes) :
    SameUnless (BoundMet s t) (objectLiteral s.capacity sources)
      (objectLiteral t.capacity sources) :=
  (fieldNames_sameUnless h sources).bind fun _ => .refl _

end Bounds

/-! ## The default rules -/

section Pieces

variable {excused : Fault → Prop}

theorem partPiece_sameUnless {part part' : Except Fault Text}
    (hpart : SameUnless excused part part') :
    SameUnless excused (partPiece part) (partPiece part') :=
  hpart.map BoundedText.bytes

/-- A text around one part. -/
theorem render_around (before after : Bytes) {part part' : Except Fault Text}
    (hpart : SameUnless excused part part') :
    SameUnless excused
      (BoundedText.render [.ok before, partPiece part, .ok after] : Except Fault Text)
      (BoundedText.render [.ok before, partPiece part', .ok after]) :=
  .render (.cons (.refl _) (.cons (partPiece_sameUnless hpart) (.cons (.refl _) .nil)))

/-- A text of fields with their names. -/
theorem render_fields (before separator after : Bytes)
    {item : FieldView → Identifier → List Piece}
    (hitem : ∀ {field field' : FieldView}, field.Alike excused field' → ∀ name,
      List.Forall₂ (SameUnless excused) (item field name) (item field' name))
    {fields fields' : List FieldView}
    (hfields : List.Forall₂ (FieldView.Alike excused) fields fields') (names : List Identifier) :
    SameUnless excused
      (BoundedText.render
        (.ok before :: joinPieces separator (List.zipWith item fields names) ++ [.ok after]) :
        Except Fault Text)
      (BoundedText.render
        (.ok before :: joinPieces separator (List.zipWith item fields' names) ++ [.ok after])) := by
  have hitems : List.Forall₂ (List.Forall₂ (SameUnless excused))
      (List.zipWith item fields names) (List.zipWith item fields' names) := by
    induction hfields generalizing names with
    | nil => exact .nil
    | cons hfield _ ih =>
      cases names with
      | nil => exact .nil
      | cons name names => exact .cons (hitem hfield name) (ih names)
  exact .render (.cons (.refl _)
    (List.rel_append (forall₂_intercalate (.refl _) hitems) (.cons (.refl _) .nil)))

/-- Fields in two runs give the same names. -/
theorem map_name_of_alike {fields fields' : List FieldView}
    (hfields : List.Forall₂ (FieldView.Alike excused) fields fields') :
    fields'.map FieldView.name = fields.map FieldView.name := by
  induction hfields with
  | nil => rfl
  | cons hfield _ ih => rw [List.map_cons, List.map_cons, hfield.name_eq, ih]

theorem memberPieces_alike {field field' : FieldView} (hfield : field.Alike excused field')
    (name : Identifier) :
    List.Forall₂ (SameUnless excused) (Default.memberPieces field name)
      (Default.memberPieces field' name) := by
  rw [Default.memberPieces, Default.memberPieces, hfield.optional_eq]
  refine List.rel_append ?_ (List.forall₂_same.2 fun piece _ => .refl piece)
  exact .cons (.refl _) (.cons (.refl _) (.cons (partPiece_sameUnless hfield.type) .nil))

theorem parameterPieces_alike {field field' : FieldView} (hfield : field.Alike excused field')
    (name : Identifier) :
    List.Forall₂ (SameUnless excused) (Default.parameterPieces field name)
      (Default.parameterPieces field' name) := by
  rw [Default.parameterPieces, Default.parameterPieces, hfield.optional_eq]
  refine List.rel_append (List.forall₂_same.2 fun piece _ => .refl piece) ?_
  exact .cons (.refl _) (.cons (.refl _) (.cons (partPiece_sameUnless hfield.type) .nil))

/-- A literal gives its method in both runs, and anything else what it came to. -/
theorem caseItems_sameUnless {case case' : CaseOverloads} (hcase : case.Alike excused case') :
    SameUnless excused (Default.caseItems case) (Default.caseItems case') := by
  rw [Default.caseItems, Default.caseItems, hcase.label_eq]
  cases case.label.literal? with
  | some text => exact .refl _
  | none => exact hcase.overloads.map OverloadList.items

end Pieces

section Rules

variable {s t : Settings} (h : s.Within t)

include h

theorem valueOverloads_sameUnless {type type' : Except Fault Text}
    (htype : SameUnless (BoundMet s t) type type') :
    SameUnless (BoundMet s t) (valueOverloads s.capacity type) (valueOverloads t.capacity type') :=
  (render_around _ _ htype).bind fun _ => OverloadList.ofList_sameUnless h _

namespace Default

theorem innerObject_sameUnless {fields fields' : List FieldView}
    (hfields : List.Forall₂ (FieldView.Alike (BoundMet s t)) fields fields') :
    SameUnless (BoundMet s t) (innerObject s fields) (innerObject t fields') := by
  rw [innerObject, innerObject, map_name_of_alike hfields]
  exact (Target.fieldNames_sameUnless h _).bind fun names =>
    render_fields _ _ _ memberPieces_alike hfields names

theorem caseType_sameUnless {case case' : CaseView} (hcase : case.Alike (BoundMet s t) case') :
    SameUnless (BoundMet s t) (caseType s case) (caseType t case') := by
  rw [caseType, caseType, hcase.label_eq, h.atomic_eq]
  split
  · exact .refl _
  · exact hcase.type

/-- The run with the lower bounds knows the same types at each case, up to the case at
    which it meets one of them. -/
theorem distinctTypes_sameUnless {cases cases' : List CaseView}
    (hcases : List.Forall₂ (CaseView.Alike (BoundMet s t)) cases cases') :
    ∀ known : List Text, SameUnless (BoundMet s t) (distinctTypes s known cases)
      (distinctTypes t known cases') := by
  have hcapacity := h.capacity_le
  have harity := h.arity_le
  induction hcases with
  | nil => exact fun known => .refl _
  | cons hcase _ ih =>
    intro known
    refine (caseType_sameUnless h hcase).bind fun type => ?_
    by_cases hold : type ∈ known
    · rw [if_pos hold, if_pos hold]
      exact ih known
    rw [if_neg hold, if_neg hold]
    by_cases hwide : known ≠ [] ∧ s.maxUnionArity ≤ known.length
    · rw [if_pos hwide]
      -- too many cases for the first run; for the second only if its bound is the same
      by_cases hraised : s.maxUnionArity < t.maxUnionArity
      · exact .of_excused (.unsupportedArity hraised) _
      · have heq : t.maxUnionArity = s.maxUnionArity := by omega
        rw [heq, if_pos hwide]
        exact .refl _
    have hwide' : ¬ (known ≠ [] ∧ t.maxUnionArity ≤ known.length) :=
      fun hmany => hwide ⟨hmany.1, Nat.le_trans harity hmany.2⟩
    rw [if_neg hwide, if_neg hwide']
    by_cases hfull : s.capacity ≤ known.length
    · rw [if_pos hfull]
      by_cases hfull' : t.capacity ≤ known.length
      · rw [if_pos hfull']
        exact .refl _
      · exact .of_excused (.tooManyCases (by omega)) _
    · rw [if_neg hfull, if_neg (show ¬ t.capacity ≤ known.length by omega)]
      exact ih _

theorem innerUnion_sameUnless {cases cases' : List CaseView}
    (hcases : List.Forall₂ (CaseView.Alike (BoundMet s t)) cases cases') :
    SameUnless (BoundMet s t) (innerUnion s cases) (innerUnion t cases') :=
  (distinctTypes_sameUnless h hcases []).bind fun _ => .refl _

theorem topLevelObject_sameUnless {object object' : ObjectView}
    (hfields : List.Forall₂ (FieldView.Alike (BoundMet s t)) object.fields object'.fields) :
    SameUnless (BoundMet s t) (topLevelObject s object) (topLevelObject t object') := by
  rw [topLevelObject, topLevelObject, map_name_of_alike hfields]
  refine (Target.fieldNames_sameUnless h _).bind fun names => ?_
  refine (render_fields _ _ _ parameterPieces_alike hfields names).bind fun params => ?_
  exact (Target.objectLiteral_sameUnless h _).bind fun body => OverloadList.ofList_sameUnless h _

theorem collect_sameUnless {cases cases' : List CaseOverloads}
    (hcases : List.Forall₂ (CaseOverloads.Alike (BoundMet s t)) cases cases') :
    ∀ list : OverloadList, SameUnless (BoundMet s t) (collect s.capacity list cases)
      (collect t.capacity list cases') := by
  induction hcases with
  | nil => exact fun list => .refl _
  | cons hcase _ ih =>
    intro list
    refine (caseItems_sameUnless hcase).bind fun items => ?_
    exact (list.extend_sameUnless h items).bind ih

theorem topLevelArray_sameUnless {array array' : ArrayView}
    (helement : SameUnless (BoundMet s t) array.element array'.element) :
    SameUnless (BoundMet s t) (topLevelArray s array) (topLevelArray t array') :=
  (render_around _ _ helement).bind fun _ => OverloadList.ofList_sameUnless h _

end Default

end Rules

/-! ## Customizations -/

/-- The same choice of rules with another bound on the arity of unions. -/
def Customization.withArity (custom : Customization) (arity : Nat) : Customization :=
  { custom with maxUnionArity := arity }

/-- The rules of a customization with bounds that are no lower go through the same
    steps, whichever rules are chosen. -/
theorem Customization.follows (custom : Customization) {capacity capacity' arity : Nat}
    (hcapacity : capacity ≤ capacity') (harity : custom.maxUnionArity ≤ arity) :
    (custom.rules capacity).Follows
      (BoundMet (custom.rules capacity).toSettings
        ((custom.withArity arity).rules capacity').toSettings)
      ((custom.withArity arity).rules capacity') := by
  have h : (custom.rules capacity).toSettings.Within
      ((custom.withArity arity).rules capacity').toSettings :=
    ⟨hcapacity, harity, rfl⟩
  constructor
  case atomic => exact fun type => .refl _
  case value => exact fun htype => valueOverloads_sameUnless h htype
  case innerObject =>
    intro fields fields' hfields
    have hrecord := Default.innerObject_sameUnless h hfields
    show SameUnless _ (custom.innerObject.apply _ fields) (custom.innerObject.apply _ fields')
    cases custom.innerObject with
    | standard => exact hrecord
    | boxed => exact render_around _ _ hrecord
  case innerUnion =>
    intro cases cases' hcases
    show SameUnless _ (custom.innerUnion.apply _ cases) (custom.innerUnion.apply _ cases')
    cases custom.innerUnion with
    | standard => exact Default.innerUnion_sameUnless h hcases
    | firstCase =>
      cases hcases with
      | nil => exact .refl _
      | cons hcase _ => exact hcase.type
  case innerArray =>
    intro element element' helement
    show SameUnless _ (custom.innerArray.apply _ element) (custom.innerArray.apply _ element')
    cases custom.innerArray with
    | standard => exact .render (.cons (partPiece_sameUnless helement) (.cons (.refl _) .nil))
    | resizeArray => exact render_around _ _ helement
  case topLevelObject =>
    intro object object' hinline hfields
    have hlist := Default.topLevelObject_sameUnless h hfields
    show SameUnless _ (custom.topLevelObject.apply _ object) (custom.topLevelObject.apply _ object')
    cases custom.topLevelObject with
    | standard => exact hlist
    | withEmpty => exact hlist.bind fun list => list.extend_sameUnless h _
    | orValue =>
      refine hlist.bind fun list => ?_
      exact (valueOverloads_sameUnless h hinline).bind fun value => list.extend_sameUnless h _
  case topLevelUnion =>
    intro union union' hinline hcases
    show SameUnless _ (custom.topLevelUnion.apply _ union) (custom.topLevelUnion.apply _ union')
    cases custom.topLevelUnion with
    | standard => exact Default.collect_sameUnless h hcases .empty
    | unionAsValue => exact valueOverloads_sameUnless h hinline
  case topLevelArray =>
    intro array array' helement hoverloads
    have hlist := Default.topLevelArray_sameUnless h helement
    show SameUnless _ (custom.topLevelArray.apply _ array) (custom.topLevelArray.apply _ array')
    cases custom.topLevelArray with
    | standard => exact hlist
    | spread =>
      refine hlist.bind fun list => ?_
      exact hoverloads.bind fun element => list.extend_sameUnless h _

/-! ## Stored trees -/

namespace StoredTree

variable {excused : Fault → Prop} {rules wide : Rules}

theorem nested_sameUnless (h : rules.Follows excused wide) (stored : StoredTree) :
    SameUnless excused (stored.nested rules) (stored.nested wide) :=
  (SameUnless.refl stored.requireTree).bind h.nested

theorem topLevel_sameUnless (h : rules.Follows excused wide) (stored : StoredTree) :
    SameUnless excused (stored.topLevel rules) (stored.topLevel wide) :=
  (SameUnless.refl stored.requireTree).bind h.topLevel

/-- Raising the bound on the arity of unions changes nothing but the fault that a union has
    too many cases. Whichever rules are chosen, the type expression of any stored tree is
    the same under both bounds, or it fails with the same fault, unless the lower bound is
    what it fails at; and so are its overloads. -/
theorem outputs_of_arity_le (custom : Customization) {arity arity' : Nat} (hle : arity ≤ arity')
    (capacity : Nat) (stored : StoredTree) :
    ((∀ fault, stored.nested ((custom.withArity arity).rules capacity) = .error fault →
        fault.kind ≠ .unsupportedArity) →
      stored.nested ((custom.withArity arity').rules capacity) =
        stored.nested ((custom.withArity arity).rules capacity)) ∧
    ((∀ fault, stored.topLevel ((custom.withArity arity).rules capacity) = .error fault →
        fault.kind ≠ .unsupportedArity) →
      stored.topLevel ((custom.withArity arity').rules capacity) =
        stored.topLevel ((custom.withArity arity).rules capacity)) := by
  have hfollows := (custom.withArity arity).follows (Nat.le_refl capacity) hle
  -- of the bounds, only the arity differs
  have hkind : ∀ {fault : Fault}, BoundMet ((custom.withArity arity).rules capacity).toSettings
      ((custom.withArity arity').rules capacity).toSettings fault →
      fault.kind = .unsupportedArity := by
    intro fault hmet
    cases hmet with
    | overloadsFull hlt => exact absurd hlt (Nat.lt_irrefl capacity)
    | tooManyFields hlt => exact absurd hlt (Nat.lt_irrefl capacity)
    | tooManyCases hlt => exact absurd hlt (Nat.lt_irrefl capacity)
    | unsupportedArity _ => rfl
  refine ⟨fun hnested => ?_, fun htop => ?_⟩
  · apply (nested_sameUnless hfollows stored).eq_of_not_excused
    exact fun fault herror hmet => hnested fault herror (hkind hmet)
  · apply (topLevel_sameUnless hfollows stored).eq_of_not_excused
    exact fun fault herror hmet => htop fault herror (hkind hmet)

/-- A union of a number and a boolean, stored. -/
def numberOrBool : StoredTree :=
  ⟨⟨[⟨.atomic ⟨.number, []⟩, none, some 1, 0⟩, .leaf (.atomic ⟨.bool, []⟩),
    ⟨.union, some 0, none, 2⟩]⟩, some 2⟩

theorem outputs_of_arity_le_sample :
    2 ≤ 9 ∧
      numberOrBool.nested ((Customization.withArity { atomic := .intNumber } 2).rules 3) =
        .ok ⟨ascii "U2<int, bool>", by decide⟩ ∧
      numberOrBool.nested ((Customization.withArity { atomic := .intNumber } 9).rules 3) =
        .ok ⟨ascii "U2<int, bool>", by decide⟩ ∧
      numberOrBool.topLevel
          ((Customization.withArity { topLevelUnion := .unionAsValue } 9).rules 3) =
        .ok ⟨[.regular ⟨ascii "(value: U2<float, bool>)", by decide⟩ valueBody]⟩ := by
  have hle : 2 ≤ 9 := by decide
  have hnested : numberOrBool.nested
      ((Customization.withArity { atomic := .intNumber } 2).rules 3) =
        .ok ⟨ascii "U2<int, bool>", by decide⟩ := by decide
  have htop : numberOrBool.topLevel
      ((Customization.withArity { topLevelUnion := .unionAsValue } 2).rules 3) =
        .ok ⟨[.regular ⟨ascii "(value: U2<float, bool>)", by decide⟩ valueBody]⟩ := by decide
  have hraised := (outputs_of_arity_le { atomic := .intNumber } hle 3 numberOrBool).1
    (by rw [hnested]; rintro _ ⟨⟩)
  have hraised' := (outputs_of_arity_le { topLevelUnion := .unionAsValue } hle 3 numberOrBool).2
    (by rw [htop]; rintro _ ⟨⟩)
  exact ⟨hle, hnested, hraised.trans hnested, hraised'.trans htop⟩

end StoredTree

end TypeSig
