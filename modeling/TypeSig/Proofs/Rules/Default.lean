/-
  TypeSig.Proofs.Rules.Default

  The default rules, with any bound on the arity of unions, at each sort of node.
  The equations say what a node becomes out of what its children become; the rules
  themselves are not looked into any further up.

  An outermost type that is no union has a single overload, which is a regular one
  (`topLevel_eq_ok`): only unions give several, and only literals in unions give
  enumerated ones.
-/

import TypeSig.Proofs.Overload.Distinct
import TypeSig.Proofs.Text.Rendering
import TypeSig.Proofs.Tree.Regular
import TypeSig.Rules.Variant

namespace TypeSig

/-- The default rules with a bound of their own on the arity of unions. -/
def Rules.ofArity (capacity arity : Nat) : Rules :=
  Customization.rules { maxUnionArity := arity } capacity

namespace Rules

variable {capacity arity : Nat}

@[simp] theorem capacity_ofArity : (ofArity capacity arity).capacity = capacity := rfl

@[simp] theorem maxUnionArity_ofArity : (ofArity capacity arity).maxUnionArity = arity := rfl

/-! ## Types in line -/

theorem nested_atomic (type : Atomic) (children : List TypeTree) :
    (ofArity capacity arity).nested (.node (.atomic type) children) = Default.atomic type := rfl

theorem nested_object (children : List TypeTree) :
    (ofArity capacity arity).nested (.node .object children) =
      Default.innerObject (ofArity capacity arity).toSettings
        ((ofArity capacity arity).fieldViews children) := rfl

theorem nested_field (name : Bytes) (optional : Bool) (type : TypeTree) :
    (ofArity capacity arity).nested (.field name optional type) =
      (ofArity capacity arity).nested type := rfl

theorem nested_array (element : TypeTree) :
    (ofArity capacity arity).nested (.array element) =
      BoundedText.render
        [partPiece ((ofArity capacity arity).nested element), .ok (ascii " []")] := rfl

theorem nested_union (children : List TypeTree) :
    (ofArity capacity arity).nested (.node .union children) =
      Default.innerUnion (ofArity capacity arity).toSettings
        ((ofArity capacity arity).caseViews children) := rfl

/-! ## Outermost types -/

theorem topLevel_atomic (type : Atomic) (children : List TypeTree) :
    (ofArity capacity arity).topLevel (.node (.atomic type) children) =
      valueOverloads capacity (Default.atomic type) := rfl

theorem topLevel_object (children : List TypeTree) :
    (ofArity capacity arity).topLevel (.node .object children) =
      Default.topLevelObject (ofArity capacity arity).toSettings
        ⟨(ofArity capacity arity).nested (.node .object children),
          (ofArity capacity arity).fieldViews children⟩ := rfl

theorem topLevel_field (name : Bytes) (optional : Bool) (type : TypeTree) :
    (ofArity capacity arity).topLevel (.field name optional type) =
      (ofArity capacity arity).topLevel type := rfl

theorem topLevel_array (children : List TypeTree) :
    (ofArity capacity arity).topLevel (.node .array children) =
      Default.topLevelArray (ofArity capacity arity).toSettings
        ⟨(ofArity capacity arity).nestedHead children,
          (ofArity capacity arity).topLevelHead children⟩ := rfl

theorem topLevel_union (children : List TypeTree) :
    (ofArity capacity arity).topLevel (.node .union children) =
      Default.collect capacity .empty ((ofArity capacity arity).caseOverloads children) := rfl

/-- An outermost type that is neither a union nor a field has one regular overload. -/
theorem topLevel_eq_ok {tree : TypeTree} {list : OverloadList} (hunion : tree.label ≠ .union)
    (hfield : tree.label.kind ≠ .field)
    (h : (ofArity capacity arity).topLevel tree = .ok list) :
    ∃ params body, list = ⟨[.regular params body]⟩ := by
  obtain ⟨label, children⟩ := tree
  cases label with
  | atomic type =>
    rw [topLevel_atomic] at h
    obtain ⟨params, -, h⟩ := bind_eq_ok_iff.1 h
    exact ⟨params, valueBody, OverloadList.eq_of_ofList_singleton h⟩
  | object =>
    rw [topLevel_object] at h
    obtain ⟨names, -, h⟩ := bind_eq_ok_iff.1 h
    obtain ⟨params, -, h⟩ := bind_eq_ok_iff.1 h
    obtain ⟨body, -, h⟩ := bind_eq_ok_iff.1 h
    exact ⟨params, body, OverloadList.eq_of_ofList_singleton h⟩
  | array =>
    rw [topLevel_array] at h
    obtain ⟨params, -, h⟩ := bind_eq_ok_iff.1 h
    exact ⟨params, Default.valuesBody, OverloadList.eq_of_ofList_singleton h⟩
  | field => exact absurd rfl hfield
  | union => exact absurd rfl hunion

/-! ## Cases of outermost unions -/

/-- The overloads that a case of an outermost union gives on its own: the enumerated
    method of a literal, and those of the outermost type of anything else. -/
def overloadsOf (rules : Rules) (case : TypeTree) : Except Fault (List Overload) :=
  match case.label.literal? with
  | some text => do
    let method ← Target.adaptName text
    let value ← Target.quotedCode text
    .ok [.enum method value]
  | none => (rules.topLevel case).map OverloadList.items

/-- The overloads that cases give one after the other, up to the first fault. -/
def overloadsOfAll (rules : Rules) : List TypeTree → Except Fault (List Overload)
  | [] => .ok []
  | case :: rest => do
    let first ← rules.overloadsOf case
    let others ← overloadsOfAll rules rest
    .ok (first ++ others)

theorem caseItems_eq (rules : Rules) (case : TypeTree) :
    Default.caseItems ⟨case.label, rules.topLevel case⟩ = rules.overloadsOf case := by
  unfold Default.caseItems overloadsOf
  cases case.label.literal? with
  | none => rfl
  | some text =>
    simp only [Default.literalOverload]
    cases Target.adaptName text <;> cases Target.quotedCode text <;> rfl

theorem text_of_literal? {label : Label} {text : Bytes} (h : label.literal? = some text) :
    label.text = text := by
  cases label with
  | atomic type =>
    obtain ⟨kind, bytes⟩ := type
    cases kind <;> simp_all [Label.literal?, Label.text]
  | _ => cases h

/-- A case that is neither a union nor a field gives one overload: the enumerated
    method of a literal, or a regular one. -/
theorem overloadsOf_eq_ok {case : TypeTree} {overloads : List Overload}
    (hunion : case.label ≠ .union) (hfield : case.label.kind ≠ .field)
    (h : (ofArity capacity arity).overloadsOf case = .ok overloads) :
    (∃ text method value, case.label.literal? = some text ∧ Target.adaptName text = .ok method ∧
        Target.quotedCode text = .ok value ∧ overloads = [.enum method value]) ∨
      ∃ params body, case.label.literal? = none ∧ overloads = [.regular params body] := by
  unfold overloadsOf at h
  cases hliteral : case.label.literal? with
  | some text =>
    rw [hliteral] at h
    obtain ⟨method, hmethod, h⟩ := bind_eq_ok_iff.1 h
    obtain ⟨value, hvalue, h⟩ := bind_eq_ok_iff.1 h
    cases h
    exact Or.inl ⟨text, method, value, rfl, hmethod, hvalue, rfl⟩
  | none =>
    rw [hliteral] at h
    cases htop : (ofArity capacity arity).topLevel case with
    | error fault => simp [htop, Except.map] at h
    | ok list =>
      obtain ⟨params, body, rfl⟩ := topLevel_eq_ok hunion hfield htop
      simp only [htop, Except.map, Except.ok.injEq] at h
      exact Or.inr ⟨params, body, rfl, h.symm⟩

/-- A case that is neither a union nor a field gives a single overload. -/
theorem exists_eq_singleton {case : TypeTree} {overloads : List Overload}
    (hunion : case.label ≠ .union) (hfield : case.label.kind ≠ .field)
    (h : (ofArity capacity arity).overloadsOf case = .ok overloads) :
    ∃ x, overloads = [x] := by
  rcases overloadsOf_eq_ok hunion hfield h with ⟨_, _, _, -, -, -, rfl⟩ | ⟨_, _, -, rfl⟩
  · exact ⟨_, rfl⟩
  · exact ⟨_, rfl⟩

section All

variable {rules : Rules}

theorem overloadsOfAll_append (cases more : List TypeTree) :
    rules.overloadsOfAll (cases ++ more) =
      (rules.overloadsOfAll cases).bind fun first =>
        (rules.overloadsOfAll more).map fun others => first ++ others := by
  induction cases with
  | nil => cases h : rules.overloadsOfAll more <;> simp [overloadsOfAll, h, Except.bind, Except.map]
  | cons case rest ih =>
    simp only [List.cons_append, overloadsOfAll, ih]
    cases rules.overloadsOf case <;> cases rules.overloadsOfAll rest <;>
      cases rules.overloadsOfAll more <;> simp [bind, Except.bind, Except.map]

/-- Without a fault, the overloads of all cases stand in a row. -/
theorem overloadsOfAll_eq_flatMap {cases : List TypeTree} {given : TypeTree → List Overload}
    (h : ∀ case ∈ cases, rules.overloadsOf case = .ok (given case)) :
    rules.overloadsOfAll cases = .ok (cases.flatMap given) := by
  induction cases with
  | nil => rfl
  | cons case rest ih =>
    obtain ⟨hcase, hrest⟩ := List.forall_mem_cons.1 h
    simp [overloadsOfAll, hcase, ih hrest, bind, Except.bind]

/-- The first fault is reported. -/
theorem overloadsOfAll_eq_error {before after : List TypeTree} {case : TypeTree} {fault : Fault}
    (hbefore : ∀ earlier ∈ before, ∃ overloads, rules.overloadsOf earlier = .ok overloads)
    (hcase : rules.overloadsOf case = .error fault) :
    rules.overloadsOfAll (before ++ case :: after) = .error fault := by
  induction before with
  | nil => simp [overloadsOfAll, hcase, bind, Except.bind]
  | cons earlier before ih =>
    obtain ⟨⟨overloads, hearlier⟩, hbefore⟩ := List.forall_mem_cons.1 hbefore
    simp [overloadsOfAll, hearlier, ih hbefore, bind, Except.bind]

end All

end Rules

end TypeSig
