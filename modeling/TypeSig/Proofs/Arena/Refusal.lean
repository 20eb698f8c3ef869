/-
  TypeSig.Proofs.Arena.Refusal

  Operations that are refused. Most leave the arena as it is, but a parent or a field
  that finds it full has linked its children to each other before. Nothing that is below
  a node is touched by that: the links below a node are those of children, and the
  linked nodes are nobody's children, however many links refused parents have left
  between them (`IsForest.mem_given_of_isChild`).

  Here parents may be of any sort, also atomic types with children; the links are those
  of an arena whose parents are all unions (`Attained.exists_reachable`).

  Main statement: `Attained.refused_keeps_trees`.
-/

import TypeSig.Proofs.Arena.Attained
import TypeSig.Proofs.Rules.Layout

namespace TypeSig

namespace Arena

variable {a b a' b' : Arena}

/-! ## What lies below the nodes of an arena -/

/-- A node that the links lead to as a child of some node. -/
inductive IsChild (a : Arena) : Nat → Prop
  | first {parent id : Nat} : a.firstChild parent = some id → IsChild a id
  | next {id later : Nat} : IsChild a id → a.nextSibling id = some later → IsChild a later

/-- Two arenas differ in nothing but the links to the next sibling of nodes that are
    nobody's children. -/
structure SameBelow (a b : Arena) : Prop where
  size : b.size = a.size
  node : ∀ id, ∃ next, b.node? id =
    (a.node? id).map fun node => { node with nextSibling := next }
  child : ∀ id, a.IsChild id → b.node? id = a.node? id

theorem IsChild.firstChild {parent : Nat} {node : Node} (h : a.node? parent = some node) {id : Nat}
    (hfirst : node.firstChild = some id) : a.IsChild id :=
  .first (by rw [Arena.firstChild, h, Option.bind_some, hfirst])

theorem IsChild.nextSibling {id : Nat} (h : a.IsChild id) {node : Node}
    (hnode : a.node? id = some node) {later : Nat} (hnext : node.nextSibling = some later) :
    a.IsChild later :=
  h.next (by rw [Arena.nextSibling, hnode, Option.bind_some, hnext])

namespace SameBelow

theorem refl (a : Arena) : a.SameBelow a where
  size := rfl
  node id := by
    cases hnode : a.node? id with
    | none => exact ⟨none, rfl⟩
    | some node => exact ⟨node.nextSibling, rfl⟩
  child _ _ := rfl

/-- Linking nodes that are nobody's children. -/
theorem chain {ids : List Nat} (h : ∀ id ∈ ids, ¬ a.IsChild id) : a.SameBelow (a.chain ids) where
  size := size_chain a ids
  node id := by
    cases hnode : a.node? id with
    | none =>
      have hlarge : a.size ≤ id := List.getElem?_eq_none_iff.1 hnode
      refine ⟨none, List.getElem?_eq_none_iff.2 ?_⟩
      exact Nat.le_trans (Nat.le_of_eq (size_chain a ids)) hlarge
    | some node => exact exists_node?_chain hnode ids
  child id hchild := node?_chain fun hid => h id hid hchild

/-- The same trees are read off along siblings that are children. -/
theorem forestFrom_eq (h : a.SameBelow b) :
    ∀ (steps : Nat) {start : Option Nat}, (∀ id, start = some id → a.IsChild id) →
      b.forestFrom steps start = a.forestFrom steps start := by
  intro steps
  -- both links of a child lead to children, so the walk never gets to a node that differs
  induction steps with
  | zero =>
    intro start _
    cases start <;> rfl
  | succ steps ih =>
    intro start hstart
    cases start with
    | none => rfl
    | some id =>
      have hchild := hstart id rfl
      simp only [forestFrom, h.child id hchild]
      cases hnode : a.node? id with
      | none => rfl
      | some node =>
        have hbelow := ih fun k hk => IsChild.firstChild hnode hk
        have hbehind := ih fun k hk => hchild.nextSibling hnode hk
        simp only [Option.bind_eq_bind, Option.bind_some, hbelow, hbehind]

theorem tree?_eq (h : a.SameBelow b) (id : Nat) : b.tree? id = a.tree? id := by
  obtain ⟨next, hb⟩ := h.node id
  simp only [tree?, hb, h.size]
  cases hnode : a.node? id with
  | none => rfl
  | some node =>
    have hbelow := h.forestFrom_eq a.size fun k hk => IsChild.firstChild hnode hk
    simp only [Option.map_some, Option.bind_eq_bind, Option.bind_some, hbelow]

/-- A visitor meets the same children, with the same links. -/
theorem walk_eq (h : a.SameBelow b) {α : Type} (visit : Node → List (Nat × α) → α) :
    ∀ (steps : Nat) {start : Option Nat}, (∀ id, start = some id → a.IsChild id) →
      b.walk visit steps start = a.walk visit steps start := by
  intro steps
  induction steps with
  | zero =>
    intro start _
    cases start <;> rfl
  | succ steps ih =>
    intro start hstart
    cases start with
    | none => rfl
    | some id =>
      have hchild := hstart id rfl
      simp only [walk, h.child id hchild]
      cases hnode : a.node? id with
      | none => rfl
      | some node =>
        have hbelow := ih fun k hk => IsChild.firstChild hnode hk
        have hbehind := ih fun k hk => hchild.nextSibling hnode hk
        simp only [hbelow, hbehind]

/-- What a visitor makes of a node is the same if it does not ask which node follows. -/
theorem visitAt_eq (h : a.SameBelow b) {α : Type} {visit : Node → List (Nat × α) → α}
    (hvisit : ∀ node next below, visit { node with nextSibling := next } below = visit node below)
    (id : Nat) : b.visitAt visit id = a.visitAt visit id := by
  obtain ⟨next, hb⟩ := h.node id
  simp only [visitAt, hb, h.size]
  cases hnode : a.node? id with
  | none => rfl
  | some node =>
    have hbelow := h.walk_eq visit a.size fun k hk => IsChild.firstChild hnode hk
    simp only [Option.map_some, hbelow, hvisit]

/-- Children are compared as before. -/
theorem sameChain_eq (h : a.SameBelow a') (h' : b.SameBelow b') :
    ∀ (steps : Nat) {i j : Option Nat}, (∀ id, i = some id → a.IsChild id) →
      (∀ id, j = some id → b.IsChild id) →
      sameChain a' b' steps i j = sameChain a b steps i j := by
  intro steps
  induction steps with
  | zero =>
    intro i j _ _
    cases i <;> cases j <;> rfl
  | succ steps ih =>
    intro i j hi hj
    cases i with
    | none => cases j <;> rfl
    | some i =>
      cases j with
      | none => rfl
      | some j =>
        have hichild := hi i rfl
        have hjchild := hj j rfl
        simp only [sameChain, h.child i hichild, h'.child j hjchild]
        cases hm : a.node? i with
        | none => rfl
        | some m =>
          cases hn : b.node? j with
          | none => rfl
          | some n =>
            have hbelow := ih (fun k hk => IsChild.firstChild hm hk)
              (fun k hk => IsChild.firstChild hn hk)
            have hbehind := ih (fun k hk => hichild.nextSibling hm hk)
              (fun k hk => hjchild.nextSibling hn hk)
            simp only [hbelow, hbehind]

theorem sameTree_eq (h : a.SameBelow a') (h' : b.SameBelow b') (i j : Nat) :
    a'.sameTree i b' j = a.sameTree i b j := by
  obtain ⟨next, ha⟩ := h.node i
  obtain ⟨next', hb⟩ := h'.node j
  simp only [sameTree, ha, hb, h.size]
  cases hm : a.node? i with
  | none => rfl
  | some m =>
    cases hn : b.node? j with
    | none => rfl
    | some n =>
      have hbelow := h.sameChain_eq h' a.size (fun k hk => IsChild.firstChild hm hk)
        (fun k hk => IsChild.firstChild hn hk)
      simp only [Option.map_some, hbelow]
      rfl

/-- The labels of children are read as before. -/
theorem labelsFrom_eq (h : a.SameBelow b) :
    ∀ (limit : Nat) {start : Option Nat}, (∀ id, start = some id → a.IsChild id) →
      b.labelsFrom limit start = a.labelsFrom limit start := by
  intro limit
  induction limit with
  | zero =>
    intro start _
    cases start <;> rfl
  | succ limit ih =>
    intro start hstart
    cases start with
    | none => rfl
    | some id =>
      have hchild := hstart id rfl
      simp only [labelsFrom, h.child id hchild]
      cases hnode : a.node? id with
      | none => rfl
      | some node =>
        have hbehind := ih fun k hk => hchild.nextSibling hnode hk
        simp only [hbehind]

theorem childTexts_eq (h : a.SameBelow b) (id capacity : Nat) :
    (StoredTree.mk b (some id)).childTexts capacity =
      (StoredTree.mk a (some id)).childTexts capacity := by
  obtain ⟨next, hb⟩ := h.node id
  simp only [StoredTree.childTexts, Option.bind_some, hb]
  cases hnode : a.node? id with
  | none => rfl
  | some node =>
    have hbelow := h.labelsFrom_eq (capacity + 1) fun k hk => IsChild.firstChild hnode hk
    simp only [Option.map_some, hbelow]

theorem requireTree_eq (h : a.SameBelow b) (id : Nat) :
    (StoredTree.mk b (some id)).requireTree = (StoredTree.mk a (some id)).requireTree := by
  simp only [StoredTree.requireTree, StoredTree.tree?, Option.bind_some, h.tree?_eq]

end SameBelow

/-! ## Refused operations -/

variable {capacity : Nat} {left : Arena} {fault : Fault}

theorem addAtomic_eq_error {kind : AtomicKind} {text : Bytes}
    (h : a.addAtomic capacity kind text = (left, .error fault)) : left = a := by
  unfold addAtomic push at h
  split at h
  · split at h <;> cases h
    rfl
  · cases h
    rfl

/-- A parent is refused in a full arena only, and its children are linked by then. -/
theorem addLabelled_eq_error {label : Label} {children : List Nat}
    (h : a.addLabelled capacity label children = (left, .error fault)) :
    left = a.chain children ∧ fault = .arenaFull ∧ a.isFull capacity = true := by
  unfold addLabelled push at h
  split at h
  · next hfull =>
    cases h
    rw [isFull, size_chain] at hfull
    exact ⟨rfl, rfl, hfull⟩
  · cases h

theorem addField_eq_error {name : Bytes} {type : Nat} {optional : Bool}
    (h : a.addField capacity name type optional = (left, .error fault)) :
    (nameLimit < name.length ∧ left = a) ∨
      (name.length ≤ nameLimit ∧ left = a.chain [type] ∧ fault = .arenaFull ∧
        a.isFull capacity = true) := by
  unfold addField at h
  split at h
  · next hname => exact .inr ⟨hname, addLabelled_eq_error h⟩
  · next hname =>
    cases h
    exact .inl ⟨Nat.lt_of_not_le hname, rfl⟩

theorem merge_eq_error {other : Arena} (h : a.merge capacity other = (left, .error fault)) :
    left = a := by
  unfold merge at h
  split at h
  · cases h
  · cases h
    rfl

/-! ## Links to children -/

theorem IsChild.of_linkage (h : a.linkage = b.linkage) {id : Nat} (hchild : a.IsChild id) :
    b.IsChild id := by
  induction hchild with
  | first hfirst =>
    rw [firstChild_eq_linkage, h, ← firstChild_eq_linkage] at hfirst
    exact .first hfirst
  | next _ hnext ih =>
    rw [nextSibling_eq_linkage, h, ← nextSibling_eq_linkage] at hnext
    exact ih.next hnext

/-- A chain goes on inside itself. -/
theorem Links.mem_of_nextSibling {start : Option Nat} {ids : List Nat} (h : a.Links start ids)
    {id later : Nat} (hid : id ∈ ids) (hnext : a.nextSibling id = some later) : later ∈ ids := by
  induction h with
  | nil => cases hid
  | @cons first rest hrest ih =>
    rcases List.mem_cons.1 hid with rfl | hid
    · rw [hnext] at hrest
      cases hrest with
      | cons => exact List.mem_cons_of_mem _ List.mem_cons_self
    · exact List.mem_cons_of_mem _ (ih hid)

end Arena

/-! ## Refused operations of constructions -/

namespace Construction

variable {capacity : Nat} {c : Construction}

/-- The links lead to no child that was not given to some node. -/
theorem IsForest.mem_given_of_isChild (h : c.IsForest capacity) {id : Nat}
    (hchild : c.arena.IsChild id) : id ∈ c.given.flatten := by
  induction hchild with
  | @first parent id hfirst =>
    obtain ⟨node, hnode, hid⟩ := Option.bind_eq_some_iff.1 hfirst
    obtain ⟨children, hgiven⟩ := h.exists_given (Arena.node?_lt hnode)
    obtain ⟨_, hsame, hleads⟩ := h.leads parent children hgiven
    obtain rfl := Option.some.inj (hnode.symm.trans hsame)
    have hlinks := hleads.links
    -- the links of the parent go along the children that it was given, so `id` is the first
    rw [hid] at hlinks
    refine List.mem_flatten.2 ⟨children, List.mem_of_getElem? hgiven, ?_⟩
    cases hlinks with
    | cons => exact List.mem_cons_self
  | @next id later _ hnext ih =>
    -- and from one of them the next link leads to another one
    obtain ⟨children, hmem, hid⟩ := List.mem_flatten.1 ih
    obtain ⟨parent, hgiven⟩ := List.mem_iff_getElem?.1 hmem
    obtain ⟨_, -, hleads⟩ := h.leads parent children hgiven
    exact List.mem_flatten.2 ⟨children, hmem, hleads.links.mem_of_nextSibling hid hnext⟩

/-- A node without a parent is nobody's child by the links either. -/
theorem Attained.not_isChild (h : c.Attained capacity) {id : Nat} (hfree : c.IsFree id) :
    ¬ c.arena.IsChild id := by
  obtain ⟨r, hr, hlike⟩ := h.exists_reachable
  intro hchild
  exact (hlike.isFree hfree).2 (hr.isForest.mem_given_of_isChild (hchild.of_linkage hlike.linkage))

/-- An operation is refused before it does anything, or when it has linked its children
    and the arena is full. -/
theorem eq_of_refused {arena left : Arena} {op : Operation} {fault : Fault}
    (h : op.run capacity arena = (left, .error fault)) :
    left = arena ∨
      left = arena.chain op.children ∧ fault = .arenaFull ∧ arena.isFull capacity = true := by
  cases op with
  | atomic kind text => exact .inl (Arena.addAtomic_eq_error h)
  | parent kind children => exact .inr (Arena.addLabelled_eq_error h)
  | field name type optional =>
    rcases Arena.addField_eq_error h with ⟨-, hsame⟩ | ⟨-, hlinked⟩
    · exact .inl hsame
    · exact .inr hlinked
  | merge other => exact .inl (Arena.merge_eq_error h)

/-- An operation that is refused in an arena that came out of any operations, with children
    that were not given to a node before, changes no tree. The arena has as many nodes, and
    each is as it was, but for the link to the next sibling of the children of a parent or a
    field that finds the arena full; an atomic type, a merge or a field whose name is too
    long leaves all as it was. Below each node is the tree that was there, so comparing
    nodes, the signature text, the names of fields, the object literal, type expressions and
    overloads come out the same, and so does every walk that starts at a node and follows
    the links to the first child and from there to the next siblings. -/
theorem Attained.refused_keeps_trees (h : c.Attained capacity) {op : Operation}
    (hoffers : c.Offers op) {left : Arena} {fault : Fault}
    (hrefused : op.run capacity c.arena = (left, .error fault)) :
    left.size = c.arena.size ∧
    (∀ id node, c.arena.node? id = some node →
      left.node? id = some node ∨
        id ∈ op.children ∧ fault = .arenaFull ∧ c.arena.isFull capacity = true ∧
          ∃ next, left.node? id = some { node with nextSibling := next }) ∧
    (∀ kind text, op = .atomic kind text → left = c.arena) ∧
    (∀ other, op = .merge other → left = c.arena) ∧
    (∀ name type optional, op = .field name type optional → nameLimit < name.length →
      left = c.arena) ∧
    (∀ id < c.arena.size, ∃ tree, c.arena.tree? id = some tree ∧ left.tree? id = some tree) ∧
    (∀ (α : Type) (visit : Node → List (Nat × α) → α),
      (∀ node next below, visit { node with nextSibling := next } below = visit node below) →
      ∀ id, left.visitAt visit id = c.arena.visitAt visit id) ∧
    (∀ i j, left.sameTree i left j = c.arena.sameTree i c.arena j ∧
      ∀ other : Arena, left.sameTree i other j = c.arena.sameTree i other j ∧
        other.sameTree j left i = other.sameTree j c.arena i) ∧
    ∀ id, (StoredTree.mk left (some id)).write = (c.stored id).write ∧
      (∀ capacity', (StoredTree.mk left (some id)).fieldNames capacity' =
        (c.stored id).fieldNames capacity' ∧
        (StoredTree.mk left (some id)).objectLiteral capacity' =
          (c.stored id).objectLiteral capacity') ∧
      ∀ rules : Rules, (StoredTree.mk left (some id)).nested rules = (c.stored id).nested rules ∧
        (StoredTree.mk left (some id)).topLevel rules = (c.stored id).topLevel rules := by
  -- links were set at nodes only that no other node leads to, so what is below stays
  have hlinked : c.arena.SameBelow (c.arena.chain op.children) :=
    .chain fun id hid => h.not_isChild (hoffers.2 id hid)
  have hsame : c.arena.SameBelow left := by
    rcases eq_of_refused hrefused with rfl | ⟨rfl, -⟩
    · exact .refl c.arena
    · exact hlinked
  refine ⟨hsame.size, fun id node hnode => ?_, ?_, ?_, ?_, fun id hid => ?_,
    fun α visit hvisit => hsame.visitAt_eq hvisit,
    fun i j => ⟨hsame.sameTree_eq hsame i j, fun other => ⟨hsame.sameTree_eq (.refl other) i j,
      Arena.SameBelow.sameTree_eq (.refl other) hsame j i⟩⟩, fun id => ?_⟩
  · rcases eq_of_refused hrefused with rfl | ⟨rfl, hfault, hfull⟩
    · exact .inl hnode
    · by_cases hid : id ∈ op.children
      · exact .inr ⟨hid, hfault, hfull, Arena.exists_node?_chain hnode op.children⟩
      · exact .inl (by rw [Arena.node?_chain hid, hnode])
  · rintro kind text rfl
    exact Arena.addAtomic_eq_error hrefused
  · rintro other rfl
    exact Arena.merge_eq_error hrefused
  · rintro name type optional rfl hname
    rcases Arena.addField_eq_error hrefused with ⟨-, hleft⟩ | ⟨hfits, -⟩
    · exact hleft
    · exact absurd hname (Nat.not_lt.2 hfits)
  · obtain ⟨tree, htree⟩ := h.exists_tree? hid
    exact ⟨tree, htree, (hsame.tree?_eq id).trans htree⟩
  · -- everything is made of the tree that is required first, or of the texts of the children
    have hrequire : (StoredTree.mk left (some id)).requireTree = (c.stored id).requireTree :=
      hsame.requireTree_eq id
    have htexts : ∀ capacity', (StoredTree.mk left (some id)).childTexts capacity' =
        (c.stored id).childTexts capacity' := hsame.childTexts_eq id
    simp only [StoredTree.write, StoredTree.fieldNames, StoredTree.objectLiteral,
      StoredTree.nested, StoredTree.topLevel, hrequire, htexts, and_self, implies_true]

theorem Attained.refused_keeps_trees_sample :
    ∃ c : Construction, c.Attained 5 ∧ c.Offers (.parent .field [2, 4]) ∧
      ∃ left fault, Operation.run 5 c.arena (.parent .field [2, 4]) = (left, .error fault) ∧
        c.arena.nextSibling 4 = some 2 ∧ left.nextSibling 2 = some 4 ∧
        left.tree? 2 = some (.union [.atomic .number [], .atomic .stringLiteral (ascii "a")]) ∧
        left.sameTree 2 left 4 = c.arena.sameTree 2 c.arena 4 := by
  let number := Construction.empty.perform 5 (.atomic .number [])
  let literal := number.perform 5 (.atomic .stringLiteral (ascii "a"))
  let union := literal.perform 5 (.parent .union [0, 1])
  let name := union.perform 5 (.atomic .other (ascii "T"))
  let parent := name.perform 5 (.parent .atomic [3])
  have hnumber : number.Attained 5 := .step .empty (by decide) (by rintro _ ⟨⟩)
  have hliteral : literal.Attained 5 := .step hnumber (by decide) (by rintro _ ⟨⟩)
  have hunion : union.Attained 5 := .step hliteral (by decide) (by rintro _ ⟨⟩)
  have hname : name.Attained 5 := .step hunion (by decide) (by rintro _ ⟨⟩)
  have hparent : parent.Attained 5 := .step hname (by decide) (by rintro _ ⟨⟩)
  -- the arena is full, and this parent leaves a link from 4 to 2
  let linked := parent.perform 5 (.parent .array [4, 2])
  have hlinked : linked.Attained 5 := .step hparent (by decide) (by rintro _ ⟨⟩)
  have hoffers : linked.Offers (.parent .field [2, 4]) := by decide
  let left := linked.arena.chain [2, 4]
  have hrefused : Operation.run 5 linked.arena (.parent .field [2, 4]) =
      (left, .error .arenaFull) := by decide
  obtain ⟨-, -, -, -, -, htrees, -, hcompared, -⟩ := hlinked.refused_keeps_trees hoffers hrefused
  obtain ⟨tree, htree, hleft⟩ := htrees 2 (by decide)
  have hcases : linked.arena.tree? 2 =
      some (.union [.atomic .number [], .atomic .stringLiteral (ascii "a")]) := by decide
  exact ⟨linked, hlinked, hoffers, left, .arenaFull, hrefused, by decide, by decide,
    hleft.trans (htree.symm.trans hcases), (hcompared 2 4).1⟩

end Construction

end TypeSig
