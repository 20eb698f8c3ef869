/-
  TypeSig.Proofs.Rules.Isolation

  A rule that is replaced shows only where it is asked. A tree as the outermost type
  has parts in two positions: the tree itself, and the cases of a union that stands
  outermost, stand outermost as well, and everything else is nested. The rules for
  types in line are asked at nested parts, the rules for outermost types at the
  others, and the rule for atomic types at every atomic type but a literal among the
  cases of a union, for which a nested union asks it about strings instead.

  `Customization.Keeps` says that a customization does what the default rules do at
  one part, `nested_eq_standard` and `topLevel_eq_standard` that a tree whose parts are
  all kept becomes what it becomes by the default rules. There are traps: the rules for
  outermost types are handed a type expression of the whole tree, and that for arrays
  the overloads of the element; the default ones do not look at them.

  Main statement: `StoredTree.outputs_of_replacement`.
-/

import TypeSig.Generate
import TypeSig.Proofs.Tree.Regular

namespace TypeSig

/-! ## Positions -/

/-- Where a type stands: as the outermost type, or in another type. -/
inductive Position
  | outermost
  | nested
  deriving DecidableEq

/-- Where the children of a node stand. The cases of a union stand where the union does,
    and the type of a field where the field does. -/
def Label.below (label : Label) (position : Position) : Position :=
  match label with
  | .union | .field _ _ => position
  | .atomic _ | .object | .array => .nested

@[simp] theorem Label.below_nested (label : Label) : label.below .nested = .nested := by
  cases label <;> rfl

/-- A part of a tree with its position, if that of the tree is known. The literals among
    the cases of a union are left out: they have no type expression of their own. -/
inductive TypeTree.Stands : TypeTree → Position → TypeTree → Position → Prop
  | self (tree : TypeTree) (p : Position) : Stands tree p tree p
  | child {label : Label} {children : List TypeTree} {child part : TypeTree} {p q : Position} :
      child ∈ children → (label = .union → child.label.isLiteral = false) →
      Stands child (label.below p) part q → Stands (.node label children) p part q

/-- The parts are the same wherever the tree stands. -/
theorem TypeTree.Stands.move {tree part : TypeTree} {p q : Position} (h : tree.Stands p part q)
    (p' : Position) : ∃ q', tree.Stands p' part q' := by
  induction h generalizing p' with
  | self tree p => exact ⟨p', .self tree p'⟩
  | @child label children child part p q hmem hcase _ ih =>
    obtain ⟨q', hpart⟩ := ih (label.below p')
    exact ⟨q', .child hmem hcase hpart⟩

/-- All parts of a nested tree are nested. -/
theorem TypeTree.Stands.eq_nested {tree part : TypeTree} {p q : Position}
    (h : tree.Stands p part q) (hp : p = .nested) : q = .nested := by
  induction h with
  | self tree p => exact hp
  | @child label children child part p q _ _ _ ih =>
    subst hp
    exact ih label.below_nested

/-! ## Parts that are kept -/

namespace Customization

/-- A nested union of the given cases becomes what it becomes by the default rules. Its
    literals widen to strings. -/
structure KeepsUnion (custom : Customization) (cases : List TypeTree) : Prop where
  rule : custom.innerUnion = .standard
  arity : custom.maxUnionArity = Default.maxUnionArity
  widened : (∃ case ∈ cases, case.label.isLiteral = true) →
    custom.atomic.apply ⟨.string, []⟩ = Default.atomic ⟨.string, []⟩

/-- What a customization makes of a part in a position out of what its children become
    is what the default rules make of it. -/
def Keeps (custom : Customization) : Position → TypeTree → Prop
  | _, .node (.atomic type) _ => custom.atomic.apply type = Default.atomic type
  | _, .node (.field _ _) _ => True
  | .nested, .node .object _ => custom.innerObject = .standard
  | .nested, .node .array _ => custom.innerArray = .standard
  | .nested, .node .union cases => custom.KeepsUnion cases
  | .outermost, .node .object _ => custom.topLevelObject = .standard
  | .outermost, .node .array _ => custom.topLevelArray = .standard
  | .outermost, .node .union _ => custom.topLevelUnion = .standard

end Customization

/-! ## What the default rules look at -/

namespace Default

/-- Unions in line ask for the types of their cases, a literal among them for that of
    strings, and for the bounds. -/
theorem distinctTypes_congr {s t : Settings} (hcapacity : s.capacity = t.capacity)
    (harity : s.maxUnionArity = t.maxUnionArity) {cases cases' : List CaseView}
    (h : cases.map (caseType s) = cases'.map (caseType t)) (known : List Text) :
    distinctTypes s known cases = distinctTypes t known cases' := by
  induction cases generalizing known cases' with
  | nil =>
    obtain rfl := List.map_eq_nil_iff.1 h.symm
    rfl
  | cons case rest ih =>
    cases cases' with
    | nil => cases h
    | cons case' rest' =>
      obtain ⟨hcase, hrest⟩ := List.cons.inj h
      rw [distinctTypes, distinctTypes, hcase, hcapacity, harity]
      refine bind_congr fun type => ?_
      rw [ih hrest, ih hrest]

/-- Outermost unions ask for what their cases give. -/
theorem collect_congr (capacity : Nat) {cases cases' : List CaseOverloads}
    (h : cases.map caseItems = cases'.map caseItems) (list : OverloadList) :
    collect capacity list cases = collect capacity list cases' := by
  induction cases generalizing list cases' with
  | nil =>
    obtain rfl := List.map_eq_nil_iff.1 h.symm
    rfl
  | cons case rest ih =>
    cases cases' with
    | nil => cases h
    | cons case' rest' =>
      obtain ⟨hcase, hrest⟩ := List.cons.inj h
      rw [collect, collect, hcase]
      exact bind_congr fun items => bind_congr fun list => ih hrest list

end Default

namespace Rules

section Congruence

variable {rules rules' : Rules} {children : List TypeTree}

theorem nestedHead_congr (h : ∀ child ∈ children, rules.nested child = rules'.nested child) :
    rules.nestedHead children = rules'.nestedHead children := by
  cases children with
  | nil => rfl
  | cons child rest => exact h child List.mem_cons_self

theorem topLevelHead_congr (h : ∀ child ∈ children, rules.topLevel child = rules'.topLevel child) :
    rules.topLevelHead children = rules'.topLevelHead children := by
  cases children with
  | nil => rfl
  | cons child rest => exact h child List.mem_cons_self

/-- The fields of an object are seen alike if they become the same in line. -/
theorem fieldViews_congr (hregular : TypeTree.Regular (.node .object children))
    (h : ∀ child ∈ children, rules.nested child = rules'.nested child) :
    rules.fieldViews children = rules'.fieldViews children := by
  rw [fieldViews_eq_map, fieldViews_eq_map]
  apply List.map_congr_left
  intro child hchild
  obtain ⟨name, optional, type, rfl, -, -⟩ := hregular.exists_field child hchild
  have htype : rules.nested type = rules'.nested type :=
    h (.field name optional type) hchild
  exact congrArg (FieldView.mk name optional) htype

end Congruence

/-! ## Trees of which all parts are kept -/

variable {custom : Customization} {capacity : Nat}

/-- The bounds of a kept union and the types of its cases are the default ones. -/
theorem innerUnion_eq_standard {children : List TypeTree} (hkeeps : custom.KeepsUnion children)
    (h : ∀ child ∈ children, child.label.isLiteral = false →
      (custom.rules capacity).nested child = (Rules.standard capacity).nested child) :
    Default.innerUnion (custom.rules capacity).toSettings
        ((custom.rules capacity).caseViews children) =
      Default.innerUnion (Rules.standard capacity).toSettings
        ((Rules.standard capacity).caseViews children) := by
  have htypes : ((custom.rules capacity).caseViews children).map
        (Default.caseType (custom.rules capacity).toSettings) =
      ((Rules.standard capacity).caseViews children).map
        (Default.caseType (Rules.standard capacity).toSettings) := by
    rw [caseViews_eq_map, caseViews_eq_map, List.map_map, List.map_map]
    apply List.map_congr_left
    intro child hchild
    show Default.caseType _ ⟨child.label, _⟩ = Default.caseType _ ⟨child.label, _⟩
    unfold Default.caseType
    by_cases hliteral : child.label.isLiteral = true
    · rw [if_pos hliteral, if_pos hliteral]
      exact hkeeps.widened ⟨child, hchild, hliteral⟩
    · rw [if_neg hliteral, if_neg hliteral]
      exact h child hchild (by simpa using hliteral)
  have harity : (custom.rules capacity).maxUnionArity = (Rules.standard capacity).maxUnionArity :=
    hkeeps.arity
  have hcapacity : (custom.rules capacity).capacity = (Rules.standard capacity).capacity := rfl
  rw [Default.innerUnion, Default.innerUnion,
    Default.distinctTypes_congr hcapacity harity htypes]

/-- In line, a tree becomes what it becomes by the default rules if these are kept at
    all its parts. -/
theorem nested_eq_standard {tree : TypeTree} (hregular : tree.Regular)
    (hkeeps : ∀ part q, tree.Stands .nested part q → custom.Keeps q part) :
    (custom.rules capacity).nested tree = (Rules.standard capacity).nested tree := by
  induction tree using TypeTree.induction with
  | node label children ih =>
    have hself := hkeeps _ _ (.self (.node label children) .nested)
    have hchild : ∀ child ∈ children, (label = .union → child.label.isLiteral = false) →
        (custom.rules capacity).nested child = (Rules.standard capacity).nested child := by
      intro child hmem hcase
      apply ih child hmem (hregular.child child hmem)
      intro part q hpart
      rw [← label.below_nested] at hpart
      exact hkeeps part q (.child hmem hcase hpart)
    cases label with
    | atomic type => exact hself
    | field name optional => exact nestedHead_congr fun child hmem => hchild child hmem nofun
    | object =>
      have hrule : custom.innerObject = .standard := hself
      have hfields := fieldViews_congr hregular fun child hmem => hchild child hmem nofun
      show custom.innerObject.apply _ ((custom.rules capacity).fieldViews children) = _
      rw [hrule, hfields]
      rfl
    | array =>
      have hrule : custom.innerArray = .standard := hself
      have hhead := nestedHead_congr fun child hmem => hchild child hmem nofun
      show custom.innerArray.apply _ ((custom.rules capacity).nestedHead children) = _
      rw [hrule, hhead]
      rfl
    | union =>
      have hunion : custom.KeepsUnion children := hself
      show custom.innerUnion.apply _ ((custom.rules capacity).caseViews children) = _
      rw [hunion.rule]
      exact innerUnion_eq_standard hunion fun child hmem hcase => hchild child hmem fun _ => hcase

/-- So does an outermost tree. -/
theorem topLevel_eq_standard {tree : TypeTree} (hregular : tree.Regular)
    (hkeeps : ∀ part q, tree.Stands .outermost part q → custom.Keeps q part) :
    (custom.rules capacity).topLevel tree = (Rules.standard capacity).topLevel tree := by
  induction tree using TypeTree.induction with
  | node label children ih =>
    have hself := hkeeps _ _ (.self (.node label children) .outermost)
    -- children of a node whose children are nested, and of one whose children are outermost
    have hinner : label.below .outermost = .nested → label ≠ .union → ∀ child ∈ children,
        (custom.rules capacity).nested child = (Rules.standard capacity).nested child := by
      intro hbelow hunion child hmem
      apply nested_eq_standard (hregular.child child hmem)
      intro part q hpart
      rw [← hbelow] at hpart
      exact hkeeps part q (.child hmem (fun h => absurd h hunion) hpart)
    have houter : label.below .outermost = .outermost → ∀ child ∈ children,
        (label = .union → child.label.isLiteral = false) →
        (custom.rules capacity).topLevel child = (Rules.standard capacity).topLevel child := by
      intro hbelow child hmem hcase
      apply ih child hmem (hregular.child child hmem)
      intro part q hpart
      rw [← hbelow] at hpart
      exact hkeeps part q (.child hmem hcase hpart)
    cases label with
    | atomic type =>
      have htype : custom.atomic.apply type = Default.atomic type := hself
      show valueOverloads capacity (custom.atomic.apply type) = _
      rw [htype]
      rfl
    | field name optional =>
      exact topLevelHead_congr fun child hmem => houter rfl child hmem nofun
    | object =>
      -- the default rule does not look at the type expression, which may differ
      have hrule : custom.topLevelObject = .standard := hself
      have hfields := fieldViews_congr hregular (hinner rfl nofun)
      show custom.topLevelObject.apply _ ⟨_, (custom.rules capacity).fieldViews children⟩ = _
      rw [hrule, hfields]
      rfl
    | array =>
      have hrule : custom.topLevelArray = .standard := hself
      have hhead := nestedHead_congr (hinner rfl nofun)
      show custom.topLevelArray.apply _ ⟨(custom.rules capacity).nestedHead children, _⟩ = _
      rw [hrule, hhead]
      rfl
    | union =>
      have hrule : custom.topLevelUnion = .standard := hself
      have hitems : ((custom.rules capacity).caseOverloads children).map Default.caseItems =
          ((Rules.standard capacity).caseOverloads children).map Default.caseItems := by
        rw [caseOverloads_eq_map, caseOverloads_eq_map, List.map_map, List.map_map]
        apply List.map_congr_left
        intro child hmem
        show Default.caseItems ⟨child.label, _⟩ = Default.caseItems ⟨child.label, _⟩
        unfold Default.caseItems
        cases hliteral : child.label.literal? with
        | some text => rfl
        | none => rw [houter rfl child hmem fun _ => by simp [Label.isLiteral, hliteral]]
      show custom.topLevelUnion.apply _ ⟨_, (custom.rules capacity).caseOverloads children⟩ = _
      rw [hrule]
      exact Default.collect_congr capacity hitems .empty

end Rules

/-! ## One slot replaced -/

/-- One slot of the rules with what is put there. -/
inductive Replacement
  | atomic (rule : AtomicRule)
  | innerObject (rule : InnerObjectRule)
  | innerUnion (rule : InnerUnionRule)
  | innerArray (rule : InnerArrayRule)
  | maxUnionArity (arity : Nat)
  | topLevelObject (rule : TopLevelObjectRule)
  | topLevelUnion (rule : TopLevelUnionRule)
  | topLevelArray (rule : TopLevelArrayRule)

namespace Replacement

/-- The default rules but for the replaced slot. -/
def custom : Replacement → Customization
  | .atomic rule => { atomic := rule }
  | .innerObject rule => { innerObject := rule }
  | .innerUnion rule => { innerUnion := rule }
  | .innerArray rule => { innerArray := rule }
  | .maxUnionArity arity => { maxUnionArity := arity }
  | .topLevelObject rule => { topLevelObject := rule }
  | .topLevelUnion rule => { topLevelUnion := rule }
  | .topLevelArray rule => { topLevelArray := rule }

/-- The position and the sort of the nodes that the slot is for. Atomic types have one
    rule for both positions. -/
def scope : Replacement → Option (Position × NodeKind)
  | .atomic _ => none
  | .innerObject _ => some (.nested, .object)
  | .innerUnion _ | .maxUnionArity _ => some (.nested, .union)
  | .innerArray _ => some (.nested, .array)
  | .topLevelObject _ => some (.outermost, .object)
  | .topLevelUnion _ => some (.outermost, .union)
  | .topLevelArray _ => some (.outermost, .array)

variable {r : Replacement} {position q : Position} {kind : NodeKind} {part : TypeTree}

/-- A part that the slot is not for is kept. -/
theorem keeps_of_scope (hscope : r.scope = some (position, kind))
    (h : q = position → part.label.kind ≠ kind) : r.custom.Keeps q part := by
  obtain ⟨label, children⟩ := part
  -- in each position and at each sort of node another slot decides, which is the default one
  cases r <;> cases hscope <;> cases label <;> cases q <;> first
    | exact absurd rfl (h rfl)
    | exact ⟨rfl, rfl, fun _ => rfl⟩
    | exact trivial
    | rfl

/-- A part is kept where the rule for atomic types agrees with the default one on the part
    itself, and on strings if literals widen there. -/
theorem keeps_of_atomic {rule : AtomicRule}
    (hatomic : ∀ type, part.label = .atomic type → rule.apply type = Default.atomic type)
    (hstring : ∀ cases, q = .nested → part = .union cases →
      (∃ case ∈ cases, case.label.isLiteral = true) →
      rule.apply ⟨.string, []⟩ = Default.atomic ⟨.string, []⟩) :
    (atomic rule).custom.Keeps q part := by
  obtain ⟨label, children⟩ := part
  cases label with
  | atomic type => exact hatomic type rfl
  | field name optional => cases q <;> trivial
  | object => cases q <;> rfl
  | array => cases q <;> rfl
  | union =>
    cases q with
    | outermost => rfl
    | nested => exact ⟨rfl, rfl, hstring children rfl rfl⟩

end Replacement

namespace StoredTree

variable {stored : StoredTree} {tree : TypeTree} {custom : Customization} {capacity : Nat}

theorem nested_eq_standard (htree : stored.tree? = some tree) (hregular : tree.Regular)
    (hkeeps : ∀ part q, tree.Stands .nested part q → custom.Keeps q part) :
    stored.nested (custom.rules capacity) = stored.nested (.standard capacity) := by
  rw [nested, nested, requireTree_of_tree? htree]
  exact Rules.nested_eq_standard hregular hkeeps

theorem topLevel_eq_standard (htree : stored.tree? = some tree) (hregular : tree.Regular)
    (hkeeps : ∀ part q, tree.Stands .outermost part q → custom.Keeps q part) :
    stored.topLevel (custom.rules capacity) = stored.topLevel (.standard capacity) := by
  rw [topLevel, topLevel, requireTree_of_tree? htree]
  exact Rules.topLevel_eq_standard hregular hkeeps

/-- A customization of a single slot does not show where the slot is not for. Let the
    default rules be changed in one slot, and a regular tree be stored.
    If the slot is for types in line, or the bound on the arity of unions, and no node of
    its sort is nested in the tree, the overloads stay what they are, or the fault does;
    and so they do if it is for outermost types and no node of its sort stands outermost.
    In the latter case, the type expression stays what it is for every tree.
    A rule for atomic types that agrees with the default one on all atomic types of the
    tree but the literals among the cases of unions leaves the type expression alone, if
    it agrees on strings or no union has a literal, and the overloads, if it agrees on
    strings or no nested union has one. -/
theorem outputs_of_replacement (htree : stored.tree? = some tree) (hregular : tree.Regular)
    (capacity : Nat) :
    (∀ (r : Replacement) (position : Position) (kind : NodeKind),
      r.scope = some (position, kind) →
      (∀ part, tree.Stands .outermost part position → part.label.kind ≠ kind) →
      stored.topLevel (r.custom.rules capacity) = stored.topLevel (.standard capacity)) ∧
    (∀ (r : Replacement) (kind : NodeKind), r.scope = some (.outermost, kind) →
      stored.nested (r.custom.rules capacity) = stored.nested (.standard capacity)) ∧
    (∀ rule : AtomicRule,
      (∀ part q type, tree.Stands .outermost part q → part.label = .atomic type →
        rule.apply type = Default.atomic type) →
      ((∀ cases, tree.Stands .nested (.union cases) .nested →
          (∃ case ∈ cases, case.label.isLiteral = true) →
          rule.apply ⟨.string, []⟩ = Default.atomic ⟨.string, []⟩) →
        stored.nested ((Replacement.atomic rule).custom.rules capacity) =
          stored.nested (.standard capacity)) ∧
      ((∀ cases, tree.Stands .outermost (.union cases) .nested →
          (∃ case ∈ cases, case.label.isLiteral = true) →
          rule.apply ⟨.string, []⟩ = Default.atomic ⟨.string, []⟩) →
        stored.topLevel ((Replacement.atomic rule).custom.rules capacity) =
          stored.topLevel (.standard capacity))) := by
  refine ⟨fun r position kind hscope hnone => ?_, fun r kind hscope => ?_,
    fun rule hatomic => ⟨fun hstring => ?_, fun hstring => ?_⟩⟩
  · apply topLevel_eq_standard htree hregular
    intro part q hpart
    apply Replacement.keeps_of_scope hscope
    rintro rfl
    exact hnone part hpart
  · apply nested_eq_standard htree hregular
    intro part q hpart
    apply Replacement.keeps_of_scope hscope
    -- no part of a tree in line stands outermost
    rintro rfl
    cases hpart.eq_nested rfl
  · apply nested_eq_standard htree hregular
    intro part q hpart
    obtain ⟨q', hpart'⟩ := hpart.move .outermost
    refine Replacement.keeps_of_atomic (fun type => hatomic part q' type hpart') ?_
    rintro cases rfl rfl
    exact hstring cases hpart
  · apply topLevel_eq_standard htree hregular
    intro part q hpart
    refine Replacement.keeps_of_atomic (fun type => hatomic part q type hpart) ?_
    rintro cases rfl rfl
    exact hstring cases hpart

/-- An array of strings, stored. -/
def stringArray : StoredTree :=
  ⟨⟨[.leaf (.atomic ⟨.string, []⟩), ⟨.array, some 0, none, 1⟩]⟩, some 1⟩

theorem outputs_of_replacement_sample :
    stringArray.tree? = some (.array (.atomic .string [])) ∧
      (TypeTree.array (.atomic .string [])).Regular ∧
      stringArray.topLevel ((Replacement.innerArray .resizeArray).custom.rules 2) =
        .ok ⟨[.regular ⟨ascii "([<ParamArray>] values: string [])", by decide⟩
          Default.valuesBody]⟩ ∧
      stringArray.nested ((Replacement.topLevelArray .spread).custom.rules 2) =
        .ok ⟨ascii "string []", by decide⟩ ∧
      stringArray.nested ((Replacement.atomic .intNumber).custom.rules 2) =
        .ok ⟨ascii "string []", by decide⟩ := by
  have htree : stringArray.tree? = some (.array (.atomic .string [])) := by decide
  have hregular : (TypeTree.array (.atomic .string [])).Regular := by decide
  have hnested : stringArray.nested (.standard 2) = .ok ⟨ascii "string []", by decide⟩ := rfl
  obtain ⟨hinner, houter, hatomic⟩ := outputs_of_replacement htree hregular 2
  refine ⟨htree, hregular, ?_, ?_, ?_⟩
  · apply (hinner (.innerArray .resizeArray) .nested .array rfl ?_).trans rfl
    intro part hpart
    cases hpart with
    | child hmem _ hpart =>
      obtain rfl := List.mem_singleton.1 hmem
      cases hpart with
      | self => simp [TypeTree.atomic, Label.kind]
      | child hmem => exact absurd hmem List.not_mem_nil
  · rw [houter (.topLevelArray .spread) .array rfl, hnested]
  · refine ((hatomic .intNumber ?_).1 fun _ _ _ => rfl).trans hnested
    intro part q type hpart hlabel
    cases hpart with
    | self => cases hlabel
    | child hmem _ hpart =>
      obtain rfl := List.mem_singleton.1 hmem
      cases hpart with
      | self =>
        cases hlabel
        rfl
      | child hmem => exact absurd hmem List.not_mem_nil

end StoredTree

end TypeSig
