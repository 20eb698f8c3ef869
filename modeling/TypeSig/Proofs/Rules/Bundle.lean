/-
  TypeSig.Proofs.Rules.Bundle

  Rules for types in line of any sort. A rule of a `Bundle` is handed the node that it is
  for, so it may look at everything below that node and at what the bundle makes of it,
  and it may fail in ways of its own. A bundle holds what its rules do once they know the
  bundle, for which each of them is a function.

  The `Rules` that the library is run with see the parts of a node as what became of them.
  They are bundles as well (`Rules.bundle`), and they make the same of every stored tree.

  Main statements: `Rules.nested_bundle`, and `StoredTree.tree?_children` for the walk
  along the children of a node.
-/

import TypeSig.Generate
import TypeSig.Proofs.Arena.Parts

namespace TypeSig

/-! ## Nodes by their links -/

/-- The nodes along a chain of siblings, so many of them at most. -/
def Arena.idsFrom (a : Arena) : Nat → Option Nat → List Nat
  | steps + 1, some id => id :: idsFrom a steps (a.nextSibling id)
  | _, _ => []

namespace StoredTree

/-- What the root says. -/
def label? (stored : StoredTree) : Option Label :=
  (stored.root.bind stored.arena.node?).map Node.label

/-- The first child of the root. -/
def firstChild (stored : StoredTree) : StoredTree :=
  ⟨stored.arena, stored.root.bind stored.arena.firstChild⟩

/-- The children of the root in their order. -/
def children (stored : StoredTree) : List StoredTree :=
  (stored.arena.idsFrom stored.arena.size stored.firstChild.root).map fun id =>
    ⟨stored.arena, some id⟩

end StoredTree

/-! ## Bundles -/

/-- Rules for types in line. The rule for arrays is handed the element. -/
structure Bundle (Failure : Type) where
  capacity : Nat
  maxUnionArity : Nat
  /-- The failure that stands for a fault of the library. -/
  raise : Fault → Failure
  atomic : Atomic → Except Failure Text
  innerObject : StoredTree → Except Failure Text
  innerUnion : StoredTree → Except Failure Text
  innerArray : StoredTree → Except Failure Text

namespace Bundle

variable {Failure : Type} (bundle : Bundle Failure)

/-- The rule for a node, by its sort. A field stands for its type, which may be a field
    again, so many nodes deep at most. -/
def nestedWithin : Nat → StoredTree → Except Failure Text
  | 0, _ => .error (bundle.raise .missingRoot)
  | depth + 1, stored =>
    match stored.label? with
    | some (.atomic type) => bundle.atomic type
    | some .object => bundle.innerObject stored
    | some .array => bundle.innerArray stored.firstChild
    | some .union => bundle.innerUnion stored
    | some (.field _ _) => nestedWithin depth stored.firstChild
    | none => .error (bundle.raise .missingRoot)

/-- The type expression for a node. A field and its types are different nodes, so there are
    no more of them than nodes. -/
def nested (stored : StoredTree) : Except Failure Text :=
  bundle.nestedWithin (stored.arena.size + 1) stored

theorem nestedWithin_field {depth : Nat} {stored : StoredTree} {name : Bytes} {optional : Bool}
    (h : stored.label? = some (.field name optional)) :
    bundle.nestedWithin (depth + 1) stored = bundle.nestedWithin depth stored.firstChild := by
  rw [nestedWithin, h]

/-- The type expression for a case of a union: that for strings if it is a literal. -/
def caseText (case : StoredTree) : Except Failure Text :=
  if case.label?.any Label.isLiteral then bundle.atomic ⟨.string, []⟩ else bundle.nested case

end Bundle

/-- Rules that see what became of the parts of a node, as rules that are handed the node. -/
def Rules.bundle (rules : Rules) : Bundle Fault where
  capacity := rules.capacity
  maxUnionArity := rules.maxUnionArity
  raise := id
  atomic := rules.atomic
  innerObject stored := do
    let tree ← stored.requireTree
    rules.innerObject rules.toSettings (rules.fieldViews tree.children)
  innerUnion stored := do
    let tree ← stored.requireTree
    rules.innerUnion rules.toSettings (rules.caseViews tree.children)
  innerArray element := rules.innerArray rules.toSettings (element.nested rules)

/-! ## Stored trees -/

namespace Arena

variable {a : Arena}

/-- A chain of siblings that are roots of trees starts at the root of the first. -/
theorem bind_tree?_of_forestFrom {steps : Nat} {start : Option Nat} {trees : List TypeTree}
    (h : a.forestFrom steps start = some trees) (hle : steps ≤ a.size) :
    start.bind a.tree? = trees.head? := by
  cases start with
  | none =>
    cases steps <;> cases h <;> rfl
  | some id =>
    cases steps with
    | zero => cases h
    | succ steps =>
      simp only [forestFrom, Option.bind_eq_bind, Option.bind_eq_some_iff] at h
      obtain ⟨node, hnode, children, hchildren, rest, -, htrees⟩ := h
      cases htrees
      have hbelow := forestFrom_mono hchildren (show steps ≤ a.size by omega)
      simp [tree?, hnode, hbelow]

/-- The trees of a chain are those below its nodes. -/
theorem map_tree?_idsFrom {steps : Nat} {start : Option Nat} {trees : List TypeTree}
    (h : a.forestFrom steps start = some trees) (hle : steps ≤ a.size) :
    (a.idsFrom steps start).map a.tree? = trees.map some := by
  induction steps generalizing start trees with
  | zero =>
    cases start with
    | none => cases h; rfl
    | some id => cases h
  | succ steps ih =>
    cases start with
    | none => cases h; rfl
    | some id =>
      have hfirst : a.tree? id = trees.head? := bind_tree?_of_forestFrom h hle
      simp only [forestFrom, Option.bind_eq_bind, Option.bind_eq_some_iff] at h
      obtain ⟨node, hnode, children, -, rest, hrest, htrees⟩ := h
      cases htrees
      have hnext : a.nextSibling id = node.nextSibling := by simp [nextSibling, hnode]
      rw [idsFrom, hnext, List.map_cons, List.map_cons, hfirst, ih hrest (by omega)]
      rfl

end Arena

namespace StoredTree

variable {stored : StoredTree} {label : Label} {below : List TypeTree}

/-- A node with a tree below it is there, and its children are the roots of trees. -/
theorem exists_node_of_tree? (h : stored.tree? = some (.node label below)) :
    ∃ id node, stored.root = some id ∧ stored.arena.node? id = some node ∧ node.label = label ∧
      stored.arena.forestFrom stored.arena.size node.firstChild = some below := by
  obtain ⟨id, hid, htree⟩ := Option.bind_eq_some_iff.1 h
  simp only [Arena.tree?, Option.bind_eq_bind, Option.bind_eq_some_iff] at htree
  obtain ⟨node, hnode, children, hchildren, htree⟩ := htree
  cases htree
  exact ⟨id, node, hid, hnode, rfl, hchildren⟩

theorem label?_eq (h : stored.tree? = some (.node label below)) : stored.label? = some label := by
  obtain ⟨id, node, hid, hnode, rfl, -⟩ := exists_node_of_tree? h
  simp [label?, hid, hnode]

theorem firstChild_root (h : stored.tree? = some (.node label below)) :
    stored.arena.forestFrom stored.arena.size stored.firstChild.root = some below := by
  obtain ⟨id, node, hid, hnode, -, hbelow⟩ := exists_node_of_tree? h
  simpa [firstChild, Arena.firstChild, hid, hnode] using hbelow

/-- The children of a node are the roots of the trees below it. -/
theorem tree?_children (h : stored.tree? = some (.node label below)) :
    stored.children.map tree? = below.map some := by
  rw [children, List.map_map]
  exact Arena.map_tree?_idsFrom (firstChild_root h) (Nat.le_refl _)

/-- A node has no more children than there are nodes. -/
theorem length_children_le (h : stored.tree? = some (.node label below)) :
    stored.children.length ≤ stored.arena.size := by
  obtain ⟨id, -, htree⟩ := Option.bind_eq_some_iff.1 h
  have hlength : stored.children.length = below.length := by
    simpa using congrArg List.length (tree?_children h)
  exact hlength.trans_le (Arena.length_children_le htree)

theorem nested_eq_of_tree? {rules : Rules} {tree : TypeTree} (h : stored.tree? = some tree) :
    stored.nested rules = rules.nested tree := by
  rw [nested, requireTree_of_tree? h]
  rfl

/-- A chain of siblings that are roots of trees is rendered by its first one. -/
theorem nested_of_forestFrom {rules : Rules} {a : Arena} {steps : Nat} {start : Option Nat}
    (h : a.forestFrom steps start = some below) (hle : steps ≤ a.size) :
    nested rules ⟨a, start⟩ = rules.nestedHead below := by
  have hfirst : tree? ⟨a, start⟩ = below.head? := Arena.bind_tree?_of_forestFrom h hle
  cases below with
  | nil => simp only [nested, requireTree, hfirst]; rfl
  | cons first rest => exact nested_eq_of_tree? hfirst

end StoredTree

namespace Rules

variable {rules : Rules}

/-- At a node that is no field the bundle has a rule, and it sees there what becomes of the
    parts of the tree. -/
theorem nestedWithin_bundle_of_ne {depth : Nat} {stored : StoredTree} {label : Label}
    {below : List TypeTree} (h : stored.tree? = some (.node label below))
    (hlabel : label.kind ≠ .field) :
    rules.bundle.nestedWithin (depth + 1) stored = rules.nested (.node label below) := by
  have hrequire := StoredTree.requireTree_of_tree? h
  rw [Bundle.nestedWithin, StoredTree.label?_eq h]
  cases label with
  | atomic type => rfl
  | object =>
    simp only [bundle, hrequire]
    rw [nested]
    rfl
  | union =>
    simp only [bundle, hrequire]
    rw [nested]
    rfl
  | array =>
    have helement : stored.firstChild.nested rules = rules.nestedHead below :=
      StoredTree.nested_of_forestFrom (StoredTree.firstChild_root h) (Nat.le_refl _)
    simp only [bundle, helement]
    rw [nested]
  | field => exact absurd rfl hlabel

/-- Of the trees in a chain of siblings the bundle renders the first, whatever fields it has
    to go through. -/
theorem nestedWithin_bundle {a : Arena} {depth : Nat} :
    ∀ {start : Option Nat} {below : List TypeTree},
      a.forestFrom depth start = some below → depth ≤ a.size →
      rules.bundle.nestedWithin depth ⟨a, start⟩ = rules.nestedHead below := by
  induction depth with
  | zero =>
    intro start below h _
    cases start with
    | none => cases h; rfl
    | some id => cases h
  | succ depth ih =>
    intro start below h hle
    cases start with
    | none => cases h; rfl
    | some id =>
      have hfirst : StoredTree.tree? ⟨a, some id⟩ = below.head? :=
        Arena.bind_tree?_of_forestFrom h hle
      simp only [Arena.forestFrom, Option.bind_eq_bind, Option.bind_eq_some_iff] at h
      obtain ⟨node, hnode, children, hchildren, rest, -, hbelow⟩ := h
      cases hbelow
      cases hlabel : node.label with
      | field name optional =>
        rw [hlabel] at hfirst
        have hsame : StoredTree.firstChild ⟨a, some id⟩ = ⟨a, node.firstChild⟩ := by
          simp [StoredTree.firstChild, Arena.firstChild, hnode]
        rw [Bundle.nestedWithin_field _ (StoredTree.label?_eq hfirst), hsame,
          ih hchildren (by omega), nestedHead, nested]
      | _ =>
        rw [hlabel] at hfirst
        exact nestedWithin_bundle_of_ne hfirst (by simp [Label.kind])

/-- The bundle renders a stored tree as the rules do. -/
theorem nested_bundle {stored : StoredTree} {tree : TypeTree} (h : stored.tree? = some tree) :
    rules.bundle.nested stored = rules.nested tree := by
  obtain ⟨label, below⟩ := tree
  cases label with
  | field name optional =>
    rw [Bundle.nested, Bundle.nestedWithin_field _ (StoredTree.label?_eq h), nested]
    exact nestedWithin_bundle (StoredTree.firstChild_root h) (Nat.le_refl _)
  | _ => exact nestedWithin_bundle_of_ne h (by simp [Label.kind])

end Rules

end TypeSig
