/-
  TypeSig.Proofs.Target.Children

  Names for the children of a node, for which the links to the next sibling are followed
  and nothing below the children is looked at. Where there is a tree below the node, its
  children are met, up to one more than there is room for (`labelsFrom_eq`). One too many
  is refused whatever comes behind it, so the names and the object literal are those for
  all children (`StoredTree.fieldNames_eq`, `StoredTree.objectLiteral_eq`).
-/

import TypeSig.Generate
import TypeSig.Proofs.Text.Rendering

namespace TypeSig

namespace Arena

variable {arena : Arena}

/-- Along siblings that are roots of trees, the labels of these trees are read. -/
theorem labelsFrom_eq {steps : Nat} {start : Option Nat} {trees : List TypeTree}
    (h : arena.forestFrom steps start = some trees) :
    ∀ limit, arena.labelsFrom limit start = (trees.map TypeTree.label).take limit := by
  induction steps generalizing start trees with
  | zero =>
    cases start with
    | none =>
      cases h
      exact fun limit => by simp [labelsFrom]
    | some id => cases h
  | succ steps ih =>
    intro limit
    cases start with
    | none =>
      cases h
      simp [labelsFrom]
    | some id =>
      simp only [forestFrom, Option.bind_eq_bind, Option.bind_eq_some_iff] at h
      obtain ⟨node, hnode, children, -, rest, hrest, htrees⟩ := h
      cases htrees
      cases limit with
      | zero => rfl
      | succ limit => simp [labelsFrom, hnode, ih hrest limit]

end Arena

namespace Target

variable {capacity : Nat}

/-- Each source name gets a name. -/
theorem length_extendNames {sources : List Bytes} {names : List Identifier} :
    ∀ {taken : List Identifier}, extendNames capacity taken sources = .ok names →
      names.length = taken.length + sources.length := by
  induction sources with
  | nil =>
    rintro taken ⟨⟩
    rfl
  | cons source rest ih =>
    intro taken h
    rw [extendNames] at h
    split at h
    · cases h
    · obtain ⟨name, -, h⟩ := bind_eq_ok_iff.1 h
      rw [ih h, List.length_append, List.length_singleton, List.length_cons]
      omega

/-- Source names behind one for which there is no room are not looked at. -/
theorem extendNames_take {sources : List Bytes} :
    ∀ {taken : List Identifier} {limit : Nat}, taken.length ≤ capacity →
      capacity < taken.length + limit →
      extendNames capacity taken (sources.take limit) = extendNames capacity taken sources := by
  induction sources with
  | nil => exact fun _ _ => by rw [List.take_nil]
  | cons source rest ih =>
    intro taken limit htaken hlimit
    obtain ⟨more, rfl⟩ : ∃ more, limit = more + 1 := ⟨limit - 1, by omega⟩
    simp only [List.take_succ_cons, extendNames]
    split
    · rfl
    · cases freeName taken source with
      | error fault => rfl
      | ok name =>
        have hlength : (taken ++ [name]).length = taken.length + 1 := by simp
        exact ih (by omega) (by omega)

theorem fieldNames_take (sources : List Bytes) :
    fieldNames capacity (sources.take (capacity + 1)) = fieldNames capacity sources :=
  extendNames_take (Nat.zero_le _) (by simp)

theorem objectLiteral_take (sources : List Bytes) :
    objectLiteral capacity (sources.take (capacity + 1)) = objectLiteral capacity sources := by
  rw [objectLiteral, objectLiteral, fieldNames_take]
  cases hnames : fieldNames capacity sources with
  | error fault => rfl
  | ok names =>
    -- where there are names, there is one for each source name, so none is left out
    have hall := length_extendNames hnames
    have htaken := length_extendNames ((fieldNames_take sources).trans hnames)
    rw [hall, Nat.add_left_cancel_iff, List.length_take] at htaken
    rw [List.take_of_length_le (by omega)]

end Target

namespace StoredTree

variable {stored : StoredTree} {tree : TypeTree}

theorem childTexts_eq (h : stored.tree? = some tree) (capacity : Nat) :
    stored.childTexts capacity =
      .ok ((tree.children.map fun child => child.label.text).take (capacity + 1)) := by
  obtain ⟨id, hroot, htree⟩ := Option.bind_eq_some_iff.1 h
  simp only [Arena.tree?, Option.bind_eq_bind, Option.bind_eq_some_iff] at htree
  obtain ⟨node, hnode, children, hchildren, htree⟩ := htree
  cases htree
  have hmap : children.map (fun child => child.label.text) =
      (children.map TypeTree.label).map Label.text := by
    rw [List.map_map]
    rfl
  simp only [childTexts, hroot, Option.bind_some, hnode, Arena.labelsFrom_eq hchildren,
    TypeTree.children_node, hmap, List.map_take]

/-- The names are those for the children of the tree. -/
theorem fieldNames_eq (h : stored.tree? = some tree) (capacity : Nat) :
    stored.fieldNames capacity =
      Target.fieldNames capacity (tree.children.map fun child => child.label.text) := by
  rw [fieldNames, childTexts_eq h, ← Target.fieldNames_take]
  rfl

/-- The object literal is that over the children of the tree. -/
theorem objectLiteral_eq (h : stored.tree? = some tree) (capacity : Nat) :
    stored.objectLiteral capacity =
      Target.objectLiteral capacity (tree.children.map fun child => child.label.text) := by
  rw [objectLiteral, childTexts_eq h, ← Target.objectLiteral_take]
  rfl

end StoredTree

end TypeSig
