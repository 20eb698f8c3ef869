/-
  TypeSig.Proofs.Arena.Walk

  Computing something of a tree without reading the tree off first. A visitor is
  shown a node with what it made of the children before, and with their ids; the walk
  follows the links and brings it to each node of a chain. As it sees ids, it may
  tell the first child from the others by its id, as a writer of separators does.

  Main statement: `Spans.visitAt_eq`. A visitor that makes the value of a tree out of
  those of its parts, wherever the parts are stored, makes that value at the root.
-/

import TypeSig.Proofs.Arena.Spans

namespace TypeSig.Arena

variable {α : Type} {a : Arena} {visit : Node → List (Nat × α) → α} {value : TypeTree → α}

/-- What a visitor makes of the nodes in a chain of siblings, each with its id. -/
def walk (visit : Node → List (Nat × α) → α) (a : Arena) : Nat → Option Nat → List (Nat × α)
  | steps + 1, some id =>
    match a.node? id with
    | some node =>
      (id, visit node (walk visit a steps node.firstChild)) ::
        walk visit a steps node.nextSibling
    | none => []
  | _, _ => []

/-- What a visitor makes of one node. -/
def visitAt (visit : Node → List (Nat × α) → α) (a : Arena) (id : Nat) : Option α :=
  (a.node? id).map fun node => visit node (a.walk visit a.size node.firstChild)

/-- A visitor makes the value of a tree out of the values of its parts. The parts stand
    at different nodes, and the first child is the first of them; nothing else is said of
    their ids. -/
def Makes (visit : Node → List (Nat × α) → α) (value : TypeTree → α) : Prop :=
  ∀ (node : Node) (roots : List Nat) (trees : List TypeTree),
    node.firstChild = roots.head? → roots.Nodup → roots.length = trees.length →
    visit node (roots.zip (trees.map value)) = value (.node node.label trees)

/-- As many steps as a walk meets nodes suffice to make the values of its trees. -/
theorem SpansChain.walk_eq (hmakes : Makes visit value) {start : Option Nat}
    {trees : List TypeTree} {ids : List Nat} (h : a.SpansChain start trees ids) :
    ∃ roots : List Nat, start = roots.head? ∧ roots.Nodup ∧ roots ⊆ ids ∧
      roots.length = trees.length ∧
      ∀ steps, ids.toFinset.card ≤ steps →
        a.walk visit steps start = roots.zip (trees.map value) := by
  induction h with
  | nil =>
    refine ⟨[], rfl, List.nodup_nil, List.Subset.refl [], rfl, fun steps _ => ?_⟩
    cases steps <;> rfl
  | @cons id node children rest ids more hn hcount hc hr ihc ihr =>
    obtain ⟨roots, hfirst, hd, -, hlength, hbelow⟩ := ihc
    obtain ⟨others, -, hdOthers, hsub, hlengthOthers, hbehind⟩ := ihr
    -- neither walk comes back to `id`, so it is no later sibling and one step less is enough
    have hnot := SpansChain.start_notMem hn hcount hc hr
    have hltc := card_toFinset_lt hnot.1 (List.subset_append_left ids more)
    have hltr := card_toFinset_lt hnot.2 (List.subset_append_right ids more)
    refine ⟨id :: others, rfl, List.nodup_cons.2 ⟨fun hid => hnot.2 (hsub hid), hdOthers⟩,
      List.cons_subset_cons id (List.Subset.trans hsub (List.subset_append_right ids more)),
      by simp [hlengthOthers], fun steps hle => ?_⟩
    obtain ⟨steps, rfl⟩ : ∃ k, steps = k + 1 := ⟨steps - 1, by omega⟩
    have hchildren := hbelow steps (by omega)
    have hrest := hbehind steps (by omega)
    simp only [walk, hn, hchildren, hrest, hmakes node roots children hfirst hd hlength,
      List.map_cons, List.zip_cons_cons]

/-- The walk from the root of a tree makes the value of the tree. -/
theorem Spans.visitAt_eq (hmakes : Makes visit value) {id : Nat} {tree : TypeTree}
    {ids : List Nat} (h : a.Spans id tree ids) : a.visitAt visit id = some (value tree) := by
  cases h with
  | @intro node children ids hn _ hc =>
    obtain ⟨roots, hfirst, hd, -, hlength, hwalk⟩ := hc.walk_eq hmakes
    rw [visitAt, hn, Option.map_some, hwalk a.size hc.card_le,
      hmakes node roots children hfirst hd hlength]

theorem Holds.visitAt_eq (hmakes : Makes visit value) {id : Nat} {tree : TypeTree}
    (h : a.Holds id tree) : a.visitAt visit id = some (value tree) := by
  obtain ⟨_, hspans, -⟩ := h
  exact hspans.visitAt_eq hmakes

end TypeSig.Arena
