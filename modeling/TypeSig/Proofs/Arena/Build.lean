/-
  TypeSig.Proofs.Arena.Build

  Trees that are built bottom-up. A tree is built when each of its parts was, so an
  arena that comes out holds the tree and nothing else, with the root behind all other
  nodes (`IsBuilt`). Nothing but a lack of room keeps a tree from being built
  (`Storable`): one text too long, or one node too many, in a part or in the whole.

  Main statement: `Construction.merge_and_build_keep_trees`, which says what becomes of
  trees when arenas are merged and which trees can be built.
-/

import TypeSig.Arena.Build
import TypeSig.Proofs.Arena.Attained

namespace TypeSig

namespace TypeTree

/-! ## Trees to be built -/

/-- A tree that the growing operations can make: an array and a field have one child, an
    atomic type has none, and no text has a NUL in it. -/
inductive Buildable : TypeTree → Prop
  | atomic {kind : AtomicKind} {text : Bytes} :
      Byte.nul ∉ text → Buildable (.atomic kind text)
  | array {element : TypeTree} : Buildable element → Buildable (.array element)
  | union {cases : List TypeTree} : (∀ case ∈ cases, Buildable case) → Buildable (.union cases)
  | field {name : Bytes} {optional : Bool} {type : TypeTree} :
      Byte.nul ∉ name → Buildable type → Buildable (.field name optional type)
  | object {fields : List TypeTree} :
      (∀ field ∈ fields, Buildable field) → Buildable (.object fields)

/-- So many nodes are enough for a tree, and a node has room for each of its texts. -/
structure Storable (capacity : Nat) (tree : TypeTree) : Prop where
  size_le : tree.size ≤ capacity
  text_le : ∀ part ∈ tree.subtrees, part.label.text.length ≤ nameLimit

theorem storable_node_iff {capacity : Nat} {label : Label} {children : List TypeTree} :
    Storable capacity (.node label children) ↔
      sizeAll children + 1 ≤ capacity ∧ label.text.length ≤ nameLimit ∧
        ∀ child ∈ children, Storable capacity child := by
  constructor
  · rintro ⟨hsize, htext⟩
    rw [size] at hsize
    refine ⟨hsize, htext _ (self_mem_subtrees _), fun child hchild => ⟨?_, fun part hpart => ?_⟩⟩
    · have hle := size_le_sizeAll child hchild
      omega
    · exact htext part (mem_subtrees_node.2 (Or.inr ⟨child, hchild, hpart⟩))
  · rintro ⟨hsize, htext, hchildren⟩
    refine ⟨by rwa [size], fun part hpart => ?_⟩
    rcases mem_subtrees_node.1 hpart with rfl | ⟨child, hchild, hpart⟩
    · exact htext
    · exact (hchildren child hchild).text_le part hpart

/-- An arena holds a tree and nothing else, and its last node is the root. -/
structure IsBuilt (tree : TypeTree) (part : Arena × Nat) : Prop where
  grows : Arena.empty.Grows part.1 tree.size [part.2] [tree]
  root : part.2 + 1 = tree.size

/-- What building a tree comes to: the tree is built if there is room for it, and is
    refused for a lack of room if there is none. -/
inductive BuildOutcome (capacity : Nat) (tree : TypeTree) : Except Fault (Arena × Nat) → Prop
  | built {part : Arena × Nat} :
      Storable capacity tree → tree.IsBuilt part → BuildOutcome capacity tree (.ok part)
  | refused {fault : Fault} :
      ¬ Storable capacity tree → fault.kind = .capacityExceeded →
      BuildOutcome capacity tree (.error fault)

/-- The same for several trees, each in an arena of its own. -/
inductive BuildAllOutcome (capacity : Nat) (trees : List TypeTree) :
    Except Fault (List (Arena × Nat)) → Prop
  | built {parts : List (Arena × Nat)} :
      (∀ tree ∈ trees, Storable capacity tree) → List.Forall₂ IsBuilt trees parts →
      BuildAllOutcome capacity trees (.ok parts)
  | refused {fault : Fault} :
      ¬ (∀ tree ∈ trees, Storable capacity tree) → fault.kind = .capacityExceeded →
      BuildAllOutcome capacity trees (.error fault)

end TypeTree

namespace Arena

open TypeTree

variable {capacity : Nat}

/-! ## Putting arenas together -/

theorem settle_of_error {result : Arena × Except Fault Nat} {fault : Fault}
    (h : result.2 = .error fault) : settle result = .error fault := by
  obtain ⟨left, answer⟩ := result
  cases h
  rfl

/-- Arenas of built trees are merged if they have room, and their moved roots are roots
    of the trees. -/
theorem gather_of_le {trees : List TypeTree} {parts : List (Arena × Nat)}
    (h : List.Forall₂ IsBuilt trees parts) :
    ∀ {a : Arena}, a.size + sizeAll trees ≤ capacity →
      ∃ b roots, a.gather capacity parts = .ok (b, roots) ∧
        a.Grows b (sizeAll trees) roots trees := by
  induction h with
  | nil => exact fun {a} _ => ⟨a, [], rfl, .refl a⟩
  | @cons tree part trees parts hpart _ ih =>
    intro a hroom
    rw [sizeAll] at hroom
    have hsize : part.1.size = tree.size := hpart.grows.size_eq
    -- the part is moved behind what was gathered, so the trees have no node in common
    have hmerged := Grows.beside hpart.grows.holds a
    rw [hsize] at hmerged
    obtain ⟨b, roots, hgather, hgrows⟩ := ih (a := a.beside part.1) (by
      rw [size_beside]
      omega)
    refine ⟨b, (part.2 + a.size) :: roots, ?_, hmerged.append hgrows⟩
    rw [gather, merge_of_le (by omega)]
    simp only [settle, hgather, bind, Except.bind]

/-- Without room for all nodes, some arena is too large to be merged. -/
theorem gather_of_lt {trees : List TypeTree} {parts : List (Arena × Nat)}
    (h : List.Forall₂ IsBuilt trees parts) :
    ∀ {a : Arena}, a.size ≤ capacity → capacity < a.size + sizeAll trees →
      a.gather capacity parts = .error .mergeTooLarge := by
  induction h with
  | nil => exact fun hle hlt => absurd hle (Nat.not_le.2 hlt)
  | @cons tree part trees parts hpart _ ih =>
    intro a hle hlt
    rw [sizeAll] at hlt
    have hsize : part.1.size = tree.size := hpart.grows.size_eq
    -- either this part has room and a later one has not, or this one is too large
    by_cases hroom : a.size + part.1.size ≤ capacity
    · have hrest := ih (a := a.beside part.1) (by rwa [size_beside]) (by
        rw [size_beside]
        omega)
      rw [gather, merge_of_le hroom]
      simp only [settle, hrest, bind, Except.bind]
    · rw [gather, merge_of_lt (Nat.lt_of_not_le hroom)]
      rfl

/-- A parent over an arena that holds its children and nothing else. -/
theorem addLabelled_outcome {b : Arena} {label : Label} {roots : List Nat}
    {children : List TypeTree} (hlabel : label.kind ≠ .atomic)
    (htext : label.text.length ≤ nameLimit) (hchildren : ∀ child ∈ children, Storable capacity child)
    (h : empty.Grows b (sizeAll children) roots children) :
    BuildOutcome capacity (.node label children)
      (settle (b.addLabelled capacity label roots)) := by
  have hsize := h.size_eq
  by_cases hroom : b.size < capacity
  · obtain ⟨c, hadd, hgrows⟩ := h.parent label hroom hlabel
    have hstorable : Storable capacity (.node label children) :=
      storable_node_iff.2 ⟨by omega, htext, hchildren⟩
    rw [hadd]
    exact .built hstorable ⟨hgrows, by rw [hsize]; rfl⟩
  · rw [settle_of_error (addLabelled_of_le (Nat.le_of_not_lt hroom))]
    refine .refused (fun hstorable => ?_) rfl
    have hle := (storable_node_iff.1 hstorable).1
    omega

/-- A parent over built trees. -/
theorem compose_outcome {kind : NodeKind} {children : List TypeTree}
    {parts : List (Arena × Nat)} (hkind : kind ≠ .atomic)
    (hchildren : ∀ child ∈ children, Storable capacity child)
    (h : List.Forall₂ IsBuilt children parts) :
    BuildOutcome capacity (.node (.blank kind) children) (compose capacity kind parts) := by
  have htext : (Label.blank kind).text.length ≤ nameLimit := by
    cases kind <;> exact Nat.zero_le _
  by_cases hroom : sizeAll children ≤ capacity
  · have hfits : empty.size + sizeAll children ≤ capacity := by rwa [size_empty, Nat.zero_add]
    obtain ⟨b, roots, hgather, hgrows⟩ := gather_of_le h hfits
    rw [compose, hgather]
    exact addLabelled_outcome (by rwa [Label.kind_blank]) htext hchildren hgrows
  · -- without room for the children there is none for a node over them
    have hlarge : capacity < empty.size + sizeAll children := by
      rw [size_empty]
      omega
    rw [compose, gather_of_lt h (Nat.zero_le capacity) hlarge]
    refine .refused (fun hstorable => ?_) rfl
    have hle := (storable_node_iff.1 hstorable).1
    omega

end Arena

namespace TypeTree

variable {capacity : Nat}

/-! ## Building -/

/-- The first tree that is refused decides, and the trees behind it are not built. -/
theorem buildAll_outcome {trees : List TypeTree}
    (h : ∀ tree ∈ trees, BuildOutcome capacity tree (tree.build capacity)) :
    BuildAllOutcome capacity trees (buildAll capacity trees) := by
  induction trees with
  | nil => exact .built (List.forall_mem_nil _) .nil
  | cons tree rest ih =>
    obtain ⟨htree, hrest⟩ := List.forall_mem_cons.1 h
    have hothers := ih hrest
    rw [buildAll]
    generalize tree.build capacity = first at htree ⊢
    generalize buildAll capacity rest = others at hothers ⊢
    cases htree with
    | refused hnot hkind => exact .refused (fun hall => hnot (hall tree List.mem_cons_self)) hkind
    | built hstorable hpart =>
      cases hothers with
      | refused hnot hkind =>
        exact .refused (fun hall => hnot (List.forall_mem_cons.1 hall).2) hkind
      | built hall hparts =>
        exact .built (List.forall_mem_cons.2 ⟨hstorable, hall⟩) (.cons hpart hparts)

/-- A tree is refused with any of its children; if these are built, it is up to the node
    above them. -/
theorem BuildAllOutcome.bind {label : Label} {children : List TypeTree}
    {result : Except Fault (List (Arena × Nat))}
    {next : List (Arena × Nat) → Except Fault (Arena × Nat)}
    (h : BuildAllOutcome capacity children result)
    (hnext : ∀ parts, (∀ child ∈ children, Storable capacity child) →
      List.Forall₂ IsBuilt children parts →
      BuildOutcome capacity (.node label children) (next parts)) :
    BuildOutcome capacity (.node label children) (result >>= next) := by
  cases h with
  | built hstorable hparts => exact hnext _ hstorable hparts
  | refused hnot hkind =>
    exact .refused (fun hstorable => hnot (storable_node_iff.1 hstorable).2.2) hkind

theorem composite_outcome {kind : NodeKind} (hkind : kind ≠ .atomic) {children : List TypeTree}
    (h : ∀ child ∈ children, BuildOutcome capacity child (child.build capacity)) :
    BuildOutcome capacity (.node (.blank kind) children)
      (buildAll capacity children >>= Arena.compose capacity kind) :=
  (buildAll_outcome h).bind fun _ hstorable hparts => Arena.compose_outcome hkind hstorable hparts

theorem atomic_outcome {kind : AtomicKind} {text : Bytes} (hnul : Byte.nul ∉ text) :
    BuildOutcome capacity (.atomic kind text) (build capacity (.atomic kind text)) := by
  have hbuild : build capacity (.atomic kind text) =
      Arena.settle (Arena.empty.addAtomic capacity kind text) := rfl
  rw [hbuild]
  by_cases htext : text.length ≤ nameLimit
  · by_cases hroom : 0 < capacity
    · obtain ⟨b, hadd, hgrows⟩ := Arena.Grows.atomic (a := Arena.empty) kind hroom htext
      rw [stored_of_nul_notMem hnul] at hgrows
      rw [hadd]
      exact .built (storable_node_iff.2 ⟨hroom, htext, List.forall_mem_nil _⟩) ⟨hgrows, rfl⟩
    · rw [Arena.addAtomic, if_pos htext, Arena.push_of_le (Nat.le_of_not_lt hroom)]
      exact .refused (fun hstorable => hroom (storable_node_iff.1 hstorable).1) rfl
  · rw [Arena.addAtomic, if_neg htext]
    exact .refused (fun hstorable => htext (storable_node_iff.1 hstorable).2.1) rfl

/-- A field is put over its type in the arena that holds it. -/
theorem field_outcome {name : Bytes} {optional : Bool} {type : TypeTree} (hnul : Byte.nul ∉ name)
    (h : BuildOutcome capacity type (type.build capacity)) :
    BuildOutcome capacity (.field name optional type)
      (build capacity (.field name optional type)) := by
  rw [field, build]
  refine (buildAll_outcome (List.forall_mem_singleton.2 h)).bind fun parts hstorable hparts => ?_
  obtain ⟨part, rest, hpart, hrest, rfl⟩ := List.forall₂_cons_left_iff.1 hparts
  show BuildOutcome capacity _ (Arena.settle (part.1.addField capacity name part.2 optional))
  -- the name is looked at before the room for a node
  by_cases hname : name.length ≤ nameLimit
  · rw [Arena.addField, if_pos hname, stored_of_nul_notMem hnul]
    exact Arena.addLabelled_outcome (by simp [Label.kind]) hname hstorable hpart.grows
  · rw [Arena.addField, if_neg hname]
    exact .refused (fun hfits => hname (storable_node_iff.1 hfits).2.1) rfl

/-- Each tree that can be made at all is built or refused as there is room for it. -/
theorem Buildable.outcome {tree : TypeTree} (h : tree.Buildable) :
    BuildOutcome capacity tree (tree.build capacity) := by
  induction h with
  | atomic hnul => exact atomic_outcome hnul
  | array _ ih =>
    exact composite_outcome (show NodeKind.array ≠ .atomic by decide)
      (List.forall_mem_singleton.2 ih)
  | union _ ih => exact composite_outcome (show NodeKind.union ≠ .atomic by decide) ih
  | field hnul _ ih => exact field_outcome hnul ih
  | object _ ih => exact composite_outcome (show NodeKind.object ≠ .atomic by decide) ih

end TypeTree

/-! ## Merging and building -/

namespace Construction

/-- Merging and building keep trees. An arena that came out of any operations, refused ones
    included and with parents of any sort, takes in another one of its capacity if there is
    room for all nodes, and answers with the number of nodes that it had: each of these
    nodes is the root of the tree that it was the root of, and so is each node that was
    moved, so many places higher; where no node was met twice, none is. Without room nothing
    is changed.
    So a tree that can be made at all is built if it has no more nodes than the capacity
    and each text has room in a node. The arena then has as many nodes as the tree, and
    the last of them is the root of this tree. Otherwise the capacity is exceeded. -/
theorem merge_and_build_keep_trees (capacity : Nat) :
    (∀ a b : Construction, a.Attained capacity → b.Attained capacity →
      (a.arena.size + b.arena.size ≤ capacity →
        ∃ merged, a.arena.merge capacity b.arena = (merged, .ok a.arena.size) ∧
          merged.size = a.arena.size + b.arena.size ∧
          (∀ id < a.arena.size,
            ∃ tree, a.arena.tree? id = some tree ∧ merged.tree? id = some tree) ∧
          (∀ i < b.arena.size,
            ∃ tree, b.arena.tree? i = some tree ∧
              merged.tree? (a.arena.size + i) = some tree) ∧
          (∀ id tree, a.arena.Holds id tree → merged.Holds id tree) ∧
          ∀ i tree, b.arena.Holds i tree → merged.Holds (a.arena.size + i) tree) ∧
      (capacity < a.arena.size + b.arena.size →
        a.arena.merge capacity b.arena = (a.arena, .error .mergeTooLarge) ∧
          Fault.mergeTooLarge.kind = .capacityExceeded)) ∧
    ∀ tree : TypeTree, tree.Buildable →
      (tree.Storable capacity →
        ∃ arena, tree.build capacity = .ok (arena, tree.size - 1) ∧ arena.size = tree.size ∧
          arena.Holds (tree.size - 1) tree) ∧
      (¬ tree.Storable capacity →
        ∃ fault, tree.build capacity = .error fault ∧ fault.kind = .capacityExceeded) := by
  refine ⟨fun a b ha hb => ⟨fun hroom => ?_, fun hlarge => ⟨Arena.merge_of_lt hlarge, rfl⟩⟩,
    fun tree hbuildable => ?_⟩
  · have hmoved : ∀ i, a.arena.size + i = i + a.arena.size := Nat.add_comm a.arena.size
    refine ⟨_, Arena.merge_of_le hroom, Arena.size_beside a.arena b.arena, fun id hid => ?_,
      fun i hi => ?_, fun id tree hholds => hholds.front b.arena,
      fun i tree hholds => hmoved i ▸ hholds.beside a.arena⟩
    · obtain ⟨tree, htree⟩ := ha.exists_tree? hid
      exact ⟨tree, htree, Arena.tree?_front htree b.arena⟩
    · obtain ⟨tree, htree⟩ := hb.exists_tree? hi
      exact ⟨tree, htree, hmoved i ▸ Arena.tree?_beside htree a.arena⟩
  · have houtcome : tree.BuildOutcome capacity (tree.build capacity) := hbuildable.outcome
    generalize tree.build capacity = result at houtcome ⊢
    cases houtcome with
    | @built part hstorable hpart =>
      refine ⟨fun _ => ?_, fun hnot => absurd hstorable hnot⟩
      obtain ⟨arena, root⟩ := part
      obtain rfl : root = tree.size - 1 := Nat.eq_sub_of_add_eq hpart.root
      exact ⟨arena, rfl, hpart.grows.size_eq, hpart.grows.holds⟩
    | @refused fault hnot hkind =>
      exact ⟨fun hstorable => absurd hstorable hnot, fun _ => ⟨fault, rfl, hkind⟩⟩

theorem merge_and_build_keep_trees_sample :
    let number := Construction.empty.perform 4 (.atomic .number [])
    let parent := number.perform 4 (.parent .atomic [0])
    let twice := parent.perform 4 (.merge parent)
    let tree : TypeTree := .object [.field (ascii "a") true (.array (.atomic .number []))]
    parent.Attained 4 ∧
      (∃ merged tree, parent.arena.merge 4 parent.arena = (merged, .ok 2) ∧
        parent.arena.tree? 1 = some tree ∧ merged.tree? 3 = some tree) ∧
      twice.Attained 4 ∧
      twice.arena.merge 4 parent.arena = (twice.arena, .error .mergeTooLarge) ∧
      (∃ arena, tree.build 4 = .ok (arena, 3) ∧ arena.Holds 3 tree) ∧
      ∃ fault, tree.build 3 = .error fault ∧ fault.kind = .capacityExceeded := by
  intro number parent twice tree
  have hnumber : number.Attained 4 := .step .empty (by decide) (by rintro _ ⟨⟩)
  -- an atomic type with a child
  have hparent : parent.Attained 4 := .step hnumber (by decide) (by rintro _ ⟨⟩)
  have htwice : twice.Attained 4 := .step hparent (by decide) (by rintro _ ⟨⟩; exact hparent)
  have hbuildable : tree.Buildable :=
    .object (List.forall_mem_singleton.2 (.field (by decide) (.array (.atomic (by decide)))))
  obtain ⟨hmerge, hbuild⟩ := merge_and_build_keep_trees 4
  obtain ⟨merged, hmerged, -, -, hmoved, -⟩ := (hmerge _ _ hparent hparent).1 (by decide)
  obtain ⟨below, hbelow, hbelow'⟩ := hmoved 1 (by decide)
  have hrefused := ((hmerge _ _ htwice hparent).2 (by decide)).1
  obtain ⟨arena, hbuilt, -, hholds⟩ := (hbuild tree hbuildable).1 ⟨by decide, by decide⟩
  have hsmall := ((merge_and_build_keep_trees 3).2 tree hbuildable).2 fun hstorable =>
    absurd hstorable.size_le (by decide)
  exact ⟨hparent, ⟨merged, below, hmerged, hbelow, hbelow'⟩, htwice, hrefused,
    ⟨arena, hbuilt, hholds⟩, hsmall⟩

end Construction

end TypeSig
