/-
  TypeSig.Proofs.Rules.Layout

  What is made of a tree does not depend on how the tree is stored. But for the names of
  fields, the library reads the tree off the links first and works on that. The visitors
  here make the same out
  of the links themselves: one for the rules, one for the signature text, which puts a
  separator in front of every child whose id is not that of the first child, and one
  for the names that the children give.

  Main statements: `Rules.visit_makes`, `Signature.visitPieces_makes` and
  `visitNames_makes` say that the visitors make what the library makes, whatever the
  ids are; `Construction.outputs_eq_of_sameTree` draws the conclusion for nodes that
  are found to be equal.
-/

import TypeSig.Proofs.Arena.Equality
import TypeSig.Proofs.Arena.Walk
import TypeSig.Proofs.Target.Children

namespace TypeSig

open Arena (Makes)

/-! ## Code -/

/-- What the rules make of a node: its type expression, that for its first child, which
    is the type of a field, and its overloads. -/
structure Rendered where
  label : Label
  inline : Except Fault Text
  first : Except Fault Text
  overloads : Except Fault OverloadList

namespace Rendered

/-- A node that is read as a field. -/
def fieldView (part : Rendered) : FieldView :=
  ⟨part.label.text, part.label.optional, part.first⟩

/-- A node as a case of a union. -/
def caseView (part : Rendered) : CaseView :=
  ⟨part.label, part.inline⟩

/-- A node as a case of an outermost union. -/
def caseOverloads (part : Rendered) : CaseOverloads :=
  ⟨part.label, part.overloads⟩

/-- The type expression for the first of several nodes. -/
def headInline (parts : List Rendered) : Except Fault Text :=
  (parts.head?.map inline).getD (.error .missingRoot)

/-- The overloads for the first of several nodes. -/
def headOverloads (parts : List Rendered) : Except Fault OverloadList :=
  (parts.head?.map overloads).getD (.error .missingRoot)

end Rendered

namespace Rules

/-- The rule for a node in line, by its sort. -/
def inlineOf (rules : Rules) (label : Label) (parts : List Rendered) : Except Fault Text :=
  match label with
  | .atomic type => rules.atomic type
  | .object => rules.innerObject rules.toSettings (parts.map Rendered.fieldView)
  | .field _ _ => Rendered.headInline parts
  | .array => rules.innerArray rules.toSettings (Rendered.headInline parts)
  | .union => rules.innerUnion rules.toSettings (parts.map Rendered.caseView)

/-- The rule for an outermost node, by its sort. -/
def overloadsByLabel (rules : Rules) (label : Label) (parts : List Rendered) :
    Except Fault OverloadList :=
  match label with
  | .atomic type => valueOverloads rules.capacity (rules.atomic type)
  | .object =>
    rules.topLevelObject rules.toSettings
      ⟨rules.inlineOf .object parts, parts.map Rendered.fieldView⟩
  | .field _ _ => Rendered.headOverloads parts
  | .array =>
    rules.topLevelArray rules.toSettings
      ⟨Rendered.headInline parts, Rendered.headOverloads parts⟩
  | .union =>
    rules.topLevelUnion rules.toSettings
      ⟨rules.inlineOf .union parts, parts.map Rendered.caseOverloads⟩

/-- The visitor that applies the rules. -/
def visit (rules : Rules) (node : Node) (below : List (Nat × Rendered)) : Rendered :=
  let parts := below.map Prod.snd
  ⟨node.label, rules.inlineOf node.label parts, Rendered.headInline parts,
    rules.overloadsByLabel node.label parts⟩

/-- What the rules make of a tree. -/
def rendered (rules : Rules) (tree : TypeTree) : Rendered :=
  ⟨tree.label, rules.nested tree, rules.nestedHead tree.children, rules.topLevel tree⟩

variable {rules : Rules}

theorem map_fieldView (trees : List TypeTree) :
    (trees.map rules.rendered).map Rendered.fieldView = rules.fieldViews trees := by
  rw [fieldViews_eq_map, List.map_map]
  rfl

theorem map_caseView (trees : List TypeTree) :
    (trees.map rules.rendered).map Rendered.caseView = rules.caseViews trees := by
  rw [caseViews_eq_map, List.map_map]
  rfl

theorem map_caseOverloads (trees : List TypeTree) :
    (trees.map rules.rendered).map Rendered.caseOverloads = rules.caseOverloads trees := by
  rw [caseOverloads_eq_map, List.map_map]
  rfl

theorem headInline_map (trees : List TypeTree) :
    Rendered.headInline (trees.map rules.rendered) = rules.nestedHead trees := by
  cases trees <;> rfl

theorem headOverloads_map (trees : List TypeTree) :
    Rendered.headOverloads (trees.map rules.rendered) = rules.topLevelHead trees := by
  cases trees <;> rfl

theorem inlineOf_map (label : Label) (trees : List TypeTree) :
    rules.inlineOf label (trees.map rules.rendered) = rules.nested (.node label trees) := by
  cases label with
  | atomic type => rfl
  | object => rw [inlineOf, map_fieldView, nested]
  | field name optional => rw [inlineOf, headInline_map, nested]
  | array => rw [inlineOf, headInline_map, nested]
  | union => rw [inlineOf, map_caseView, nested]

theorem overloadsByLabel_map (label : Label) (trees : List TypeTree) :
    rules.overloadsByLabel label (trees.map rules.rendered) =
      rules.topLevel (.node label trees) := by
  cases label with
  | atomic type => rfl
  | object => rw [overloadsByLabel, inlineOf_map, map_fieldView, topLevel]
  | field name optional => rw [overloadsByLabel, headOverloads_map, topLevel]
  | array => rw [overloadsByLabel, headInline_map, headOverloads_map, topLevel]
  | union => rw [overloadsByLabel, inlineOf_map, map_caseOverloads, topLevel]

/-- The rules do not look at ids. -/
theorem visit_makes (rules : Rules) : Makes rules.visit rules.rendered := by
  intro node roots trees _ _ hlength
  have hparts : (roots.zip (trees.map rules.rendered)).map Prod.snd = trees.map rules.rendered :=
    List.map_snd_zip (by simp [hlength])
  simp only [visit, hparts, inlineOf_map, headInline_map, overloadsByLabel_map, rendered,
    TypeTree.label_node, TypeTree.children_node]

end Rules

/-! ## Signature text -/

namespace Signature

/-- Parts with a separator in front of each but the one at a given node. -/
def separated (separator : Bytes) (first : Option Nat) (parts : List (Nat × List Piece)) :
    List Piece :=
  parts.flatMap fun part => if some part.1 = first then part.2 else .ok separator :: part.2

/-- The visitor that writes. -/
def visitPieces (node : Node) (below : List (Nat × List Piece)) : List Piece :=
  match node.label with
  | .atomic type => atomicPieces type
  | .array =>
    .ok (ascii "Array<") :: headPieces (below.map Prod.snd) ++ [.ok [Byte.closeAngle]]
  | .union => separated (ascii " | ") node.firstChild below
  | .object =>
    .ok [Byte.openBrace] :: separated (ascii ", ") node.firstChild below ++
      [.ok [Byte.closeBrace]]
  | .field name optional => fieldPieces name optional ++ headPieces (below.map Prod.snd)

theorem joinPieces_cons (separator : Bytes) (item : List Piece) (items : List (List Piece)) :
    joinPieces separator (item :: items) =
      item ++ items.flatMap fun later => .ok separator :: later := by
  induction items generalizing item with
  | nil => simp [joinPieces]
  | cons next items ih =>
    rw [joinPieces, List.intercalate_cons_cons, ← joinPieces, ih]
    simp

/-- Where no later part stands at the first one's node, the separators stand between
    the parts. -/
theorem separated_zip (separator : Bytes) {roots : List Nat} (hd : roots.Nodup)
    {items : List (List Piece)} (hlength : roots.length = items.length) :
    separated separator roots.head? (roots.zip items) = joinPieces separator items := by
  cases roots with
  | nil =>
    obtain rfl := List.length_eq_zero_iff.1 hlength.symm
    rfl
  | cons root rest =>
    cases items with
    | nil => cases hlength
    | cons item items =>
      have hlater : ∀ part ∈ rest.zip items,
          (if some part.1 = some root then part.2 else .ok separator :: part.2) =
            .ok separator :: part.2 := by
        intro part hpart
        have hmem := (List.of_mem_zip hpart).1
        refine if_neg fun heq => (List.nodup_cons.1 hd).1 ?_
        rwa [← Option.some.inj heq]
      have hrest : (rest.zip items).map Prod.snd = items :=
        List.map_snd_zip (Nat.le_of_eq (Nat.succ.inj hlength).symm)
      rw [joinPieces_cons, separated, List.zip_cons_cons, List.flatMap_cons, List.head?_cons,
        if_pos rfl, List.flatMap_congr hlater]
      conv_rhs => rw [← hrest, List.flatMap_map]

/-- The writer looks at ids, but only to find the first child. -/
theorem visitPieces_makes : Makes visitPieces pieces := by
  intro node roots trees hfirst hd hlength
  have hlength' : roots.length = (trees.map pieces).length := by simp [hlength]
  have hparts : (roots.zip (trees.map pieces)).map Prod.snd = trees.map pieces :=
    List.map_snd_zip (Nat.le_of_eq hlength'.symm)
  unfold visitPieces
  cases node.label with
  | atomic type => simp only [pieces]
  | array => simp only [pieces, hparts, piecesEach_eq_map]
  | union => simp only [pieces, hfirst, separated_zip _ hd hlength', piecesEach_eq_map]
  | object => simp only [pieces, hfirst, separated_zip _ hd hlength', piecesEach_eq_map]
  | field name optional => simp only [pieces, hparts, piecesEach_eq_map]

end Signature

/-! ## Names of fields -/

/-- The visitor that collects the texts of a node and of its children, which are the
    names that these give when they are read as fields. -/
def visitNames (node : Node) (below : List (Nat × Bytes × List Bytes)) : Bytes × List Bytes :=
  (node.label.text, (below.map Prod.snd).map Prod.fst)

/-- The texts of a tree and of its children. -/
def names (tree : TypeTree) : Bytes × List Bytes :=
  (tree.label.text, tree.children.map fun child => child.label.text)

theorem visitNames_makes : Makes visitNames names := by
  intro node roots trees _ _ hlength
  have hparts : (roots.zip (trees.map names)).map Prod.snd = trees.map names :=
    List.map_snd_zip (by simp [hlength])
  simp only [visitNames, hparts, names, List.map_map, TypeTree.label_node, TypeTree.children_node]
  rfl

/-! ## Equal nodes -/

namespace Construction

/-- A node together with the arena that it is stored in. -/
def stored (c : Construction) (id : Nat) : StoredTree :=
  ⟨c.arena, some id⟩

variable {c : Construction} {id : Nat} {tree : TypeTree}

theorem requireTree_stored (h : c.arena.Holds id tree) :
    (c.stored id).requireTree = .ok tree := by
  simp only [StoredTree.requireTree, StoredTree.tree?, stored, Option.bind_some, h.tree?_eq]

/-- The rules may as well work on the links. -/
theorem rendered_stored (h : c.arena.Holds id tree) (rules : Rules) :
    c.arena.visitAt rules.visit id = some (rules.rendered tree) ∧
      (c.stored id).nested rules = (rules.rendered tree).inline ∧
      (c.stored id).topLevel rules = (rules.rendered tree).overloads := by
  refine ⟨h.visitAt_eq (Rules.visit_makes rules), ?_, ?_⟩
  · rw [StoredTree.nested, requireTree_stored h]
    rfl
  · rw [StoredTree.topLevel, requireTree_stored h]
    rfl

/-- The writer may as well work on the links. -/
theorem write_stored (h : c.arena.Holds id tree) :
    c.arena.visitAt Signature.visitPieces id = some (Signature.pieces tree) ∧
      (c.stored id).write = BoundedText.render (Signature.pieces tree) := by
  refine ⟨h.visitAt_eq Signature.visitPieces_makes, ?_⟩
  rw [StoredTree.write, requireTree_stored h]
  rfl

/-- The names of fields may as well be collected along the links. -/
theorem names_stored (h : c.arena.Holds id tree) (capacity : Nat) :
    c.arena.visitAt visitNames id = some (names tree) ∧
      (c.stored id).fieldNames capacity = Target.fieldNames capacity (names tree).2 ∧
      (c.stored id).objectLiteral capacity = Target.objectLiteral capacity (names tree).2 := by
  have htree : (c.stored id).tree? = some tree := h.tree?_eq
  exact ⟨h.visitAt_eq visitNames_makes, StoredTree.fieldNames_eq htree capacity,
    StoredTree.objectLiteral_eq htree capacity⟩

/-- Everything that the library makes of a node depends on its tree alone. For two
    nodes that are found to be equal, each in an arena that was built up, the signature
    text, the names of fields, the object literal, the type expression and the overloads
    are the same, or fail with the same fault, under every customization. It is also
    what comes out where the links are followed instead of the tree, with ids in sight:
    such a walk makes the same at both nodes. -/
theorem outputs_eq_of_sameTree {capacity : Nat} {s t : Construction}
    (hs : s.Reachable capacity) (ht : t.Reachable capacity) {i j : Nat}
    (hi : i < s.arena.size) (hj : j < t.arena.size)
    (hsame : s.arena.sameTree i t.arena j = true) (custom : Customization) :
    ((s.stored i).write = (t.stored j).write ∧
      (s.stored i).fieldNames capacity = (t.stored j).fieldNames capacity ∧
      (s.stored i).objectLiteral capacity = (t.stored j).objectLiteral capacity ∧
      (s.stored i).nested (custom.rules capacity) =
        (t.stored j).nested (custom.rules capacity) ∧
      (s.stored i).topLevel (custom.rules capacity) =
        (t.stored j).topLevel (custom.rules capacity)) ∧
    (∃ part, s.arena.visitAt (custom.rules capacity).visit i = some part ∧
      t.arena.visitAt (custom.rules capacity).visit j = some part ∧
      (s.stored i).nested (custom.rules capacity) = part.inline ∧
      (s.stored i).topLevel (custom.rules capacity) = part.overloads) ∧
    (∃ pieces, s.arena.visitAt Signature.visitPieces i = some pieces ∧
      t.arena.visitAt Signature.visitPieces j = some pieces ∧
      (s.stored i).write = BoundedText.render pieces) ∧
    (∃ texts, s.arena.visitAt visitNames i = some texts ∧
      t.arena.visitAt visitNames j = some texts ∧
      (s.stored i).fieldNames capacity = Target.fieldNames capacity texts.2 ∧
      (s.stored i).objectLiteral capacity = Target.objectLiteral capacity texts.2) := by
  obtain ⟨tree, hx⟩ := hs.exists_tree hi
  obtain ⟨_, hy⟩ := ht.exists_tree hj
  obtain rfl := (sameTree_iff_eq hx hy).1 hsame
  obtain ⟨hvisit, hnested, htop⟩ := rendered_stored hx (custom.rules capacity)
  obtain ⟨hvisit', hnested', htop'⟩ := rendered_stored hy (custom.rules capacity)
  obtain ⟨hpieces, hwrite⟩ := write_stored hx
  obtain ⟨hpieces', hwrite'⟩ := write_stored hy
  obtain ⟨htexts, hfields, hobject⟩ := names_stored hx capacity
  obtain ⟨htexts', hfields', hobject'⟩ := names_stored hy capacity
  exact ⟨⟨hwrite.trans hwrite'.symm, hfields.trans hfields'.symm, hobject.trans hobject'.symm,
      hnested.trans hnested'.symm, htop.trans htop'.symm⟩,
    ⟨_, hvisit, hvisit', hnested, htop⟩, ⟨_, hpieces, hpieces', hwrite⟩,
    ⟨_, htexts, htexts', hfields, hobject⟩⟩

theorem outputs_eq_of_sameTree_sample :
    ∃ s : Construction, s.Reachable 8 ∧ numberFirst.Reachable 8 ∧
      s.arena.sameTree 2 numberFirst.arena 3 = true ∧
      ∃ text list, (s.stored 2).write = .ok text ∧ (numberFirst.stored 3).write = .ok text ∧
        text.bytes = ascii "\"a\" | number" ∧
        (s.stored 2).topLevel (Customization.rules {} 8) = .ok list ∧
        (numberFirst.stored 3).topLevel (Customization.rules {} 8) = .ok list ∧
        list.size = 2 := by
  let literal := empty.perform 8 (.atomic .stringLiteral (ascii "a"))
  let both := literal.perform 8 (.atomic .number [])
  let union := both.perform 8 (.parent .union [0, 1])
  have hboth : both.Reachable 8 := .step (.step .empty trivial nofun) trivial nofun
  have hunion : union.Reachable 8 := .step hboth (by decide) nofun
  have hsame : union.arena.sameTree 2 numberFirst.arena 3 = true := by decide
  obtain ⟨⟨hwrite, -, -, -, htop⟩, -⟩ :=
    outputs_eq_of_sameTree (i := 2) (j := 3) hunion reachable_numberFirst (by decide) (by decide)
      hsame {}
  refine ⟨union, hunion, reachable_numberFirst, hsame, ⟨ascii "\"a\" | number", by decide⟩,
    ⟨[.enum ⟨ascii "a", by decide⟩ ⟨ascii "\"a\"", by decide⟩,
      .regular ⟨ascii "(value: float)", by decide⟩ valueBody]⟩,
    ?_, ?_, rfl, ?_, ?_, rfl⟩
  · decide +kernel
  · rw [← hwrite]
    decide +kernel
  · decide +kernel
  · rw [← htop]
    decide +kernel

end Construction

end TypeSig
