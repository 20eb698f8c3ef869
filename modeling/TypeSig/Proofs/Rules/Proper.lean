/-
  TypeSig.Proofs.Rules.Proper

  Whatever rules are chosen, the overloads of an outermost type are a proper list: no
  two of them declare the same method, and there are no more than the capacity. Every
  rule makes its list by adding overloads to the empty one or to that of another rule,
  so nothing has to be known about the overloads themselves.

  Main statement: `Rules.topLevel_isProper`.
-/

import TypeSig.Proofs.Overload.Growth
import TypeSig.Rules.Variant

namespace TypeSig

/-! ## Each rule -/

/-- The overloads of one value are a proper list. -/
theorem valueOverloads_isProper {capacity : Nat} {type : Except Fault Text} {list : OverloadList}
    (h : valueOverloads capacity type = .ok list) : list.IsProper capacity := by
  obtain ⟨_, -, h⟩ := bind_eq_ok_iff.1 h
  exact .ofList h

theorem Default.topLevelObject_isProper {settings : Settings} {object : ObjectView}
    {list : OverloadList} (h : Default.topLevelObject settings object = .ok list) :
    list.IsProper settings.capacity := by
  obtain ⟨_, -, h⟩ := bind_eq_ok_iff.1 h
  obtain ⟨_, -, h⟩ := bind_eq_ok_iff.1 h
  obtain ⟨_, -, h⟩ := bind_eq_ok_iff.1 h
  exact .ofList h

theorem Default.topLevelArray_isProper {settings : Settings} {array : ArrayView}
    {list : OverloadList} (h : Default.topLevelArray settings array = .ok list) :
    list.IsProper settings.capacity := by
  obtain ⟨_, -, h⟩ := bind_eq_ok_iff.1 h
  exact .ofList h

theorem Default.collect_isProper {capacity : Nat} {list next : OverloadList}
    {cases : List CaseOverloads} (h : collect capacity list cases = .ok next)
    (hlist : list.IsProper capacity) : next.IsProper capacity := by
  induction cases generalizing list with
  | nil =>
    cases h
    exact hlist
  | cons case rest ih =>
    rw [collect] at h
    obtain ⟨_, -, h⟩ := bind_eq_ok_iff.1 h
    obtain ⟨added, hadded, h⟩ := bind_eq_ok_iff.1 h
    exact ih h (hlist.extend hadded)

theorem TopLevelObjectRule.apply_isProper {rule : TopLevelObjectRule} {settings : Settings}
    {object : ObjectView} {list : OverloadList} (h : rule.apply settings object = .ok list) :
    list.IsProper settings.capacity := by
  cases rule with
  | standard => exact Default.topLevelObject_isProper h
  | withEmpty =>
    obtain ⟨_, hlist, h⟩ := bind_eq_ok_iff.1 h
    exact (Default.topLevelObject_isProper hlist).extend h
  | orValue =>
    obtain ⟨_, hlist, h⟩ := bind_eq_ok_iff.1 h
    obtain ⟨_, -, h⟩ := bind_eq_ok_iff.1 h
    exact (Default.topLevelObject_isProper hlist).extend h

theorem TopLevelArrayRule.apply_isProper {rule : TopLevelArrayRule} {settings : Settings}
    {array : ArrayView} {list : OverloadList} (h : rule.apply settings array = .ok list) :
    list.IsProper settings.capacity := by
  cases rule with
  | standard => exact Default.topLevelArray_isProper h
  | spread =>
    obtain ⟨_, hlist, h⟩ := bind_eq_ok_iff.1 h
    obtain ⟨_, -, h⟩ := bind_eq_ok_iff.1 h
    exact (Default.topLevelArray_isProper hlist).extend h

theorem TopLevelUnionRule.apply_isProper {rule : TopLevelUnionRule} {settings : Settings}
    {union : UnionView} {list : OverloadList} (h : rule.apply settings union = .ok list) :
    list.IsProper settings.capacity := by
  cases rule with
  | standard => exact Default.collect_isProper h .empty
  | unionAsValue => exact valueOverloads_isProper h

/-! ## Each tree -/

/-- Whatever the rules are, an outermost type has a proper list of overloads. -/
theorem Rules.topLevel_isProper {custom : Customization} {capacity : Nat} (tree : TypeTree) :
    ∀ {list : OverloadList},
      (custom.rules capacity).topLevel tree = .ok list → list.IsProper capacity := by
  induction tree using TypeTree.induction with
  | node label children ih =>
    intro list h
    cases label with
    | atomic type => exact valueOverloads_isProper h
    | object => exact TopLevelObjectRule.apply_isProper h
    | array => exact TopLevelArrayRule.apply_isProper h
    | union => exact TopLevelUnionRule.apply_isProper h
    | field name optional =>
      cases children with
      | nil => cases h
      | cons type rest => exact ih type List.mem_cons_self h

end TypeSig
