/-
  TypeSig.Proofs.Tree.Regular

  The least that a tree needs for the rules to make sense of it. `Regular` asks
  of each node only how many children it has, if it is an array or a field, and
  where fields may stand; unions may be empty or alike, and texts are free. The
  inversion lemmas say what the children of a regular node of each sort are.

  `flatCases` reads off the cases of a union with those of the unions in it, and
  `subtrees` all parts of a tree. As every part of a regular tree is regular, what
  holds of all regular trees holds at every node of one.
-/

import TypeSig.Text.Bounded
import TypeSig.Tree.Basic

namespace TypeSig.TypeTree

/-! ## Regular trees -/

/-- Arrays and fields have one child each, and fields stand under objects and
    nowhere else. A field on its own is regular as well. -/
inductive Regular : TypeTree → Prop
  | node {label : Label} {children : List TypeTree} :
      (label.kind = .array ∨ label.kind = .field → children.length = 1) →
      (∀ child ∈ children, child.label.kind = .field ↔ label.kind = .object) →
      (∀ child ∈ children, Regular child) →
      Regular (.node label children)

theorem regular_iff {label : Label} {children : List TypeTree} :
    Regular (.node label children) ↔
      (label.kind = .array ∨ label.kind = .field → children.length = 1) ∧
        (∀ child ∈ children, child.label.kind = .field ↔ label.kind = .object) ∧
        ∀ child ∈ children, Regular child := by
  constructor
  · rintro ⟨hone, hfields, hchildren⟩
    exact ⟨hone, hfields, hchildren⟩
  · rintro ⟨hone, hfields, hchildren⟩
    exact .node hone hfields hchildren

mutual

/-- Decides whether a tree is regular. -/
def decRegular : (tree : TypeTree) → Decidable tree.Regular
  | .node _ children =>
    have := decRegularAll children
    decidable_of_iff _ regular_iff.symm

def decRegularAll : (trees : List TypeTree) → Decidable (∀ tree ∈ trees, tree.Regular)
  | [] => isTrue (List.forall_mem_nil _)
  | tree :: rest =>
    have := decRegular tree
    have := decRegularAll rest
    decidable_of_iff _ List.forall_mem_cons.symm

end

instance : DecidablePred Regular := decRegular

namespace Regular

variable {label : Label} {children : List TypeTree}

theorem child (h : Regular (.node label children)) : ∀ child ∈ children, Regular child := by
  cases h with
  | node _ _ hchildren => exact hchildren

/-- Under a node that is no object stand no fields. -/
theorem child_notField (h : Regular (.node label children)) (hlabel : label.kind ≠ .object) :
    ∀ child ∈ children, child.label.kind ≠ .field := by
  cases h with
  | node _ hfields _ => exact fun child hchild hfield => hlabel ((hfields child hchild).1 hfield)

/-- Arrays and fields have one child, which is a type. -/
theorem exists_only (h : Regular (.node label children))
    (hlabel : label.kind = .array ∨ label.kind = .field) :
    ∃ only, children = [only] ∧ Regular only ∧ only.label.kind ≠ .field := by
  have hobject : label.kind ≠ .object := by rcases hlabel with h | h <;> simp [h]
  have hnotField := h.child_notField hobject
  have hchild := h.child
  cases h with
  | node hone _ _ =>
    obtain ⟨only, rfl⟩ := List.length_eq_one_iff.1 (hone hlabel)
    exact ⟨only, rfl, hchild only List.mem_cons_self, hnotField only List.mem_cons_self⟩

/-- The children of an object are fields over types. -/
theorem exists_field (h : Regular (.node .object children)) :
    ∀ child ∈ children, ∃ name optional type,
      child = .field name optional type ∧ Regular type ∧ type.label.kind ≠ .field := by
  intro child hchild
  have hregular := h.child child hchild
  cases h with
  | node _ hfields _ =>
    have hkind := (hfields child hchild).2 rfl
    obtain ⟨label, below⟩ := child
    cases label with
    | field name optional =>
      obtain ⟨type, rfl, htype, hnotField⟩ := hregular.exists_only (Or.inr rfl)
      exact ⟨name, optional, type, rfl, htype, hnotField⟩
    | _ => simp [Label.kind] at hkind

end Regular

/-! ## Parts of a tree -/

mutual

/-- A tree and all trees below it. -/
def subtrees : TypeTree → List TypeTree
  | .node label children => .node label children :: subtreesAll children

def subtreesAll : List TypeTree → List TypeTree
  | [] => []
  | tree :: rest => subtrees tree ++ subtreesAll rest

end

theorem subtreesAll_eq_flatMap (trees : List TypeTree) :
    subtreesAll trees = trees.flatMap subtrees := by
  induction trees with
  | nil => rfl
  | cons tree rest ih => simp [subtreesAll, ih]

@[simp] theorem self_mem_subtrees (tree : TypeTree) : tree ∈ tree.subtrees := by
  cases tree with
  | node label children => simp [subtrees]

theorem mem_subtrees_node {label : Label} {children : List TypeTree} {part : TypeTree} :
    part ∈ subtrees (.node label children) ↔
      part = .node label children ∨ ∃ child ∈ children, part ∈ child.subtrees := by
  rw [subtrees, List.mem_cons, subtreesAll_eq_flatMap, List.mem_flatMap]

/-- A property that passes from every node to its children passes to all parts. -/
theorem forall_mem_subtrees {motive : TypeTree → Prop}
    (hchild : ∀ label children, motive (.node label children) →
      ∀ child ∈ children, motive child) :
    ∀ {tree : TypeTree}, motive tree → ∀ part ∈ tree.subtrees, motive part := by
  intro tree
  induction tree using TypeTree.induction with
  | node label children ih =>
    intro h part hpart
    rcases mem_subtrees_node.1 hpart with rfl | ⟨child, hmem, hpart⟩
    · exact h
    · exact ih child hmem (hchild label children h child hmem) part hpart

/-- Parts of parts are parts. -/
theorem mem_subtrees_trans {tree part : TypeTree} (h : part ∈ tree.subtrees) :
    ∀ inner ∈ part.subtrees, inner ∈ tree.subtrees := by
  refine forall_mem_subtrees (motive := fun t => ∀ inner ∈ t.subtrees, inner ∈ tree.subtrees)
    (fun label children hall child hchild inner hinner => ?_) (fun _ h => h) part h
  exact hall inner (mem_subtrees_node.2 (Or.inr ⟨child, hchild, hinner⟩))

theorem Regular.subtree {tree : TypeTree} (h : tree.Regular) :
    ∀ part ∈ tree.subtrees, part.Regular :=
  forall_mem_subtrees (fun _ _ h => h.child) h

theorem size_le_sizeAll {trees : List TypeTree} : ∀ tree ∈ trees, tree.size ≤ sizeAll trees := by
  induction trees with
  | nil => simp
  | cons first rest ih =>
    rw [sizeAll]
    refine List.forall_mem_cons.2 ⟨Nat.le_add_right _ _, fun tree htree => ?_⟩
    exact Nat.le_trans (ih tree htree) (Nat.le_add_left _ _)

theorem length_le_sizeAll (trees : List TypeTree) : trees.length ≤ sizeAll trees := by
  induction trees with
  | nil => exact Nat.le_refl 0
  | cons first rest ih =>
    have hpos := first.size_pos
    rw [sizeAll, List.length_cons]
    omega

theorem size_le_of_mem_subtrees {tree part : TypeTree} (h : part ∈ tree.subtrees) :
    part.size ≤ tree.size := by
  refine forall_mem_subtrees (motive := fun t => t.size ≤ tree.size)
    (fun label children hle child hchild => ?_) (Nat.le_refl _) part h
  have hchild := size_le_sizeAll child hchild
  rw [size] at hle
  omega

/-! ## Trees that fit -/

/-- A regular tree that an arena with so many nodes can hold, where each node has room
    for its text. -/
structure Fits (capacity : Nat) (tree : TypeTree) : Prop where
  regular : tree.Regular
  size_le : tree.size ≤ capacity
  text_le : ∀ part ∈ tree.subtrees, part.label.text.length ≤ nameLimit

namespace Fits

variable {capacity : Nat} {tree : TypeTree} {label : Label} {children : List TypeTree}

theorem subtree (h : tree.Fits capacity) : ∀ part ∈ tree.subtrees, part.Fits capacity :=
  fun part hpart =>
    { regular := h.regular.subtree part hpart
      size_le := Nat.le_trans (size_le_of_mem_subtrees hpart) h.size_le
      text_le := fun inner hinner => h.text_le inner (mem_subtrees_trans hpart inner hinner) }

theorem child (h : (TypeTree.node label children).Fits capacity) :
    ∀ child ∈ children, child.Fits capacity :=
  fun child hchild => h.subtree child
    (mem_subtrees_node.2 (Or.inr ⟨child, hchild, child.self_mem_subtrees⟩))

theorem label_text_le (h : tree.Fits capacity) : tree.label.text.length ≤ nameLimit :=
  h.text_le tree tree.self_mem_subtrees

theorem pos (h : tree.Fits capacity) : 0 < capacity :=
  Nat.lt_of_lt_of_le tree.size_pos h.size_le

/-- There is room for something of each child. -/
theorem length_children_le (h : (TypeTree.node label children).Fits capacity) :
    children.length ≤ capacity := by
  have hle := h.size_le
  have hlength := length_le_sizeAll children
  rw [size] at hle
  omega

end Fits

/-! ## Cases of unions -/

mutual

/-- The cases that a tree adds to a union around it, from left to right: a union
    adds its own, and any other tree itself. -/
def flatCases : TypeTree → List TypeTree
  | .node label children =>
    if label = .union then flatCasesAll children else [.node label children]

def flatCasesAll : List TypeTree → List TypeTree
  | [] => []
  | tree :: rest => flatCases tree ++ flatCasesAll rest

end

@[simp] theorem flatCases_union (children : List TypeTree) :
    flatCases (.node .union children) = flatCasesAll children := by
  simp [flatCases]

theorem flatCases_of_ne {tree : TypeTree} (h : tree.label ≠ .union) :
    tree.flatCases = [tree] := by
  cases tree with
  | node label children => simp [flatCases, show label ≠ .union from h]

theorem flatCasesAll_eq_flatMap (trees : List TypeTree) :
    flatCasesAll trees = trees.flatMap flatCases := by
  induction trees with
  | nil => rfl
  | cons tree rest ih => simp [flatCasesAll, ih]

mutual

/-- There are no more flattened cases than nodes. -/
theorem length_flatCases_le (tree : TypeTree) : tree.flatCases.length ≤ tree.size := by
  cases tree with
  | node label children =>
    have hall := length_flatCasesAll_le children
    by_cases hunion : label = .union
    · subst hunion
      rw [flatCases_union, size]
      omega
    · simp [flatCases, hunion, size]

theorem length_flatCasesAll_le (trees : List TypeTree) :
    (flatCasesAll trees).length ≤ sizeAll trees := by
  cases trees with
  | nil => exact Nat.le_refl 0
  | cons tree rest =>
    have htree := length_flatCases_le tree
    have hrest := length_flatCasesAll_le rest
    rw [flatCasesAll, sizeAll, List.length_append]
    omega

end

/-- A property that passes from every union to its children passes to the
    flattened cases, which are no unions. -/
theorem forall_mem_flatCases {motive : TypeTree → Prop}
    (hchild : ∀ children, motive (.node .union children) → ∀ child ∈ children, motive child) :
    ∀ {tree : TypeTree}, motive tree →
      ∀ case ∈ tree.flatCases, motive case ∧ case.label ≠ .union := by
  intro tree
  induction tree using TypeTree.induction with
  | node label children ih =>
    intro h case hcase
    by_cases hunion : label = .union
    · subst hunion
      rw [flatCases_union, flatCasesAll_eq_flatMap, List.mem_flatMap] at hcase
      obtain ⟨child, hmem, hcase⟩ := hcase
      exact ih child hmem (hchild children h child hmem) case hcase
    · have hlabel : (TypeTree.node label children).label ≠ .union := hunion
      rw [flatCases_of_ne hlabel, List.mem_singleton] at hcase
      exact hcase ▸ ⟨h, hlabel⟩

/-- Flattened cases are parts of the tree. -/
theorem flatCases_subset (tree : TypeTree) : ∀ case ∈ tree.flatCases, case ∈ tree.subtrees := by
  intro case hcase
  have hpart := forall_mem_flatCases (motive := fun t => t ∈ tree.subtrees)
    (fun children h child hchild => mem_subtrees_trans h child ?_) tree.self_mem_subtrees case hcase
  · exact hpart.1
  · exact mem_subtrees_node.2 (Or.inr ⟨child, hchild, child.self_mem_subtrees⟩)

/-- Without an empty union there is a case to add. -/
theorem flatCases_ne_nil {tree : TypeTree} : .union [] ∉ tree.subtrees → tree.flatCases ≠ [] := by
  induction tree using TypeTree.induction with
  | node label children ih =>
    intro hempty
    by_cases hunion : label = .union
    · subst hunion
      cases children with
      | nil => exact absurd (self_mem_subtrees _) hempty
      | cons child rest =>
        have hchild := ih child List.mem_cons_self fun hmem =>
          hempty (mem_subtrees_node.2 (Or.inr ⟨child, List.mem_cons_self, hmem⟩))
        rw [flatCases_union, flatCasesAll]
        exact List.append_ne_nil_of_left_ne_nil hchild _
    · simp [flatCases, hunion]

/-- Flattened cases of a regular tree that is a type are types, and no unions. -/
theorem Regular.of_mem_flatCases {tree : TypeTree} (h : tree.Regular)
    (hnotField : tree.label.kind ≠ .field) :
    ∀ case ∈ tree.flatCases,
      (case.Regular ∧ case.label.kind ≠ .field) ∧ case.label ≠ .union := by
  refine forall_mem_flatCases (fun children h child hmem => ?_) ⟨h, hnotField⟩
  exact ⟨h.1.child child hmem, h.1.child_notField nofun child hmem⟩

end TypeSig.TypeTree
