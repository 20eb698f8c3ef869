/-
  TypeSig.Proofs.Rules.Safety

  Making overloads for a stored tree under the default rules. Either there are
  overloads, all of different methods and no more than nodes, or the tree has one of
  the faults that the rules are meant to report. The stores for overloads, for names
  of fields and for distinct cases are as large as the arena and are never full. A name
  of the target language has room for what adapting adds and for a number of seven
  digits, so it is too long only in an object of ten million fields or more; of one name
  such fields cannot all be named (`topLevel_alikeFields`).

  A tree that was read has no empty union, so that fault does not occur, and there is
  always an overload.

  Main statement: `topLevel_safe`.
-/

import TypeSig.Proofs.Arena.Build
import TypeSig.Proofs.Rules.Faults
import TypeSig.Proofs.Rules.Flatten
import TypeSig.Proofs.Signature.Canonical

namespace TypeSig

open TypeTree

namespace Rules

variable {capacity arity : Nat} {fault : Fault}

/-! ## Faults of cases -/

theorem topLevelTextsAll_eq_flatMap (rules : Rules) (trees : List TypeTree) :
    rules.topLevelTextsAll trees = trees.flatMap rules.topLevelTexts := by
  induction trees with
  | nil => rfl
  | cons tree rest ih => rw [topLevelTextsAll, ih, List.flatMap_cons]

/-- What is put together for a flattened case is put together for the union. -/
theorem topLevelTexts_of_mem_flatCases {rules : Rules} (tree : TypeTree) :
    ∀ case ∈ tree.flatCases, ∀ text ∈ rules.topLevelTexts case,
      text ∈ rules.topLevelTexts tree := by
  induction tree using TypeTree.induction with
  | node label children ih =>
    intro case hcase text htext
    by_cases hunion : label = .union
    · subst hunion
      rw [flatCases_union, flatCasesAll_eq_flatMap, List.mem_flatMap] at hcase
      obtain ⟨child, hchild, hcase⟩ := hcase
      rw [topLevelTexts, topLevelTextsAll_eq_flatMap]
      exact List.mem_flatMap.2 ⟨child, hchild, ih child hchild case hcase text htext⟩
    · have hlabel : (TypeTree.node label children).label ≠ .union := hunion
      rw [flatCases_of_ne hlabel, List.mem_singleton] at hcase
      exact hcase ▸ htext

/-- The faults of a part are faults of the tree, if what is put together for the part is
    put together for the tree. -/
theorem TopLevelFault.lift {rules : Rules} {tree part : TypeTree} (hpart : part ∈ tree.subtrees)
    (htexts : ∀ text ∈ rules.topLevelTexts part, text ∈ rules.topLevelTexts tree)
    (h : rules.TopLevelFault part fault) : rules.TopLevelFault tree fault := by
  cases h with
  | emptyUnion hinner hkind hempty =>
    exact .emptyUnion (mem_subtrees_trans hpart _ hinner) hkind hempty
  | unsupportedArity => exact .unsupportedArity
  | textTooLong htext hlong => exact .textTooLong (htexts _ htext) hlong
  | nameTooLong hinner hlabel hmany =>
    exact .nameTooLong (mem_subtrees_trans hpart _ hinner) hlabel hmany

/-- A case that gives no overloads fails as an outermost type; a literal never fails. -/
theorem topLevel_eq_error_of_overloadsOf {case : TypeTree}
    (hle : case.label.text.length ≤ nameLimit)
    (h : (ofArity capacity arity).overloadsOf case = .error fault) :
    (ofArity capacity arity).topLevel case = .error fault := by
  unfold overloadsOf at h
  cases hliteral : case.label.literal? with
  | none =>
    rw [hliteral] at h
    cases htop : (ofArity capacity arity).topLevel case with
    | ok list => simp [htop, Except.map] at h
    | error fault' => simpa [htop, Except.map] using h
  | some text =>
    have htext : text.length ≤ nameLimit := text_of_literal? hliteral ▸ hle
    obtain ⟨method, hmethod⟩ := Target.adaptName_of_length_le htext
    obtain ⟨value, hvalue, -⟩ := Target.quotedCode_of_length_le htext
    simp [hliteral, hmethod, hvalue, bind, Except.bind] at h

theorem exists_of_overloadsOfAll_eq_error {rules : Rules} {cases : List TypeTree}
    (h : rules.overloadsOfAll cases = .error fault) :
    ∃ case ∈ cases, rules.overloadsOf case = .error fault := by
  induction cases with
  | nil => cases h
  | cons case rest ih =>
    rcases bind_eq_error_iff.1 h with hcase | ⟨first, -, h⟩
    · exact ⟨case, List.mem_cons_self, hcase⟩
    rcases bind_eq_error_iff.1 h with hrest | ⟨others, -, h⟩
    · obtain ⟨later, hlater, herror⟩ := ih hrest
      exact ⟨later, List.mem_cons_of_mem _ hlater, herror⟩
    · cases h

/-- Cases give one overload each. -/
theorem length_overloadsOfAll {cases : List TypeTree} {overloads : List Overload}
    (hcases : ∀ case ∈ cases, case.label.kind ≠ .field ∧ case.label ≠ .union)
    (h : (ofArity capacity arity).overloadsOfAll cases = .ok overloads) :
    overloads.length = cases.length := by
  induction cases generalizing overloads with
  | nil =>
    cases h
    rfl
  | cons case rest ih =>
    obtain ⟨⟨hkind, hlabel⟩, hrest⟩ := List.forall_mem_cons.1 hcases
    obtain ⟨first, hfirst, h⟩ := bind_eq_ok_iff.1 h
    obtain ⟨others, hothers, h⟩ := bind_eq_ok_iff.1 h
    cases h
    obtain ⟨x, rfl⟩ := exists_eq_singleton hlabel hkind hfirst
    rw [List.length_append, List.length_singleton, ih hrest hothers, List.length_cons, Nat.add_comm]

/-! ## Outermost types -/

/-- What becomes of an outermost type: overloads of different methods, no more than
    nodes and at least one if there is no empty union, or one of the faults. -/
structure Outcome (rules : Rules) (tree : TypeTree) (result : Except Fault OverloadList) :
    Prop where
  distinct : ∀ list, result = .ok list →
    list.items.Pairwise fun x y => x.sameIdentity y = false
  size_le : ∀ list, result = .ok list → list.size ≤ tree.size
  ne_nil : ∀ list, result = .ok list → .union [] ∉ tree.subtrees → list.items ≠ []
  fault : ∀ fault, result = .error fault → rules.TopLevelFault tree fault

/-- The outcome for a stored union. -/
theorem outcome_union {arena : Arena} {id : Nat} {children : List TypeTree}
    (htree : arena.tree? id = some (.union children)) (hsize : arena.size ≤ capacity)
    (hfits : (TypeTree.union children).Fits capacity) :
    (ofArity capacity arity).Outcome (.union children)
      ((ofArity capacity arity).topLevel (.union children)) := by
  have hcases := fun case hcase => hfits.regular.of_mem_flatCases (by rintro ⟨⟩) case hcase
  have hplain : ∀ case ∈ (TypeTree.union children).flatCases,
      case.label.kind ≠ .field ∧ case.label ≠ .union :=
    fun case hcase => ⟨(hcases case hcase).1.2, (hcases case hcase).2⟩
  rw [topLevel_eq_distinct htree hfits.regular hsize]
  cases hall : (ofArity capacity arity).overloadsOfAll (TypeTree.union children).flatCases with
  | ok overloads =>
    have hlength := length_overloadsOfAll hplain hall
    refine ⟨?_, ?_, ?_, by rintro _ ⟨⟩⟩
    all_goals rintro list hlist; cases hlist
    · exact Overload.pairwise_distinct overloads
    · calc (Overload.distinct overloads).length
          ≤ overloads.length := Overload.length_distinct_le_length overloads
        _ = (TypeTree.union children).flatCases.length := hlength
        _ ≤ (TypeTree.union children).size := length_flatCases_le _
    · intro hempty
      have hne := flatCases_ne_nil hempty
      cases overloads with
      | nil => exact absurd (List.length_eq_zero_iff.1 hlength.symm) hne
      | cons first rest => simp [Overload.distinct]
  | error fault =>
    refine ⟨by rintro _ ⟨⟩, by rintro _ ⟨⟩, by rintro _ ⟨⟩, fun fault' herror => ?_⟩
    cases herror
    obtain ⟨case, hcase, herror⟩ := exists_of_overloadsOfAll_eq_error hall
    have hpart := flatCases_subset _ case hcase
    have hfitsCase := hfits.subtree case hpart
    have htop := topLevel_eq_error_of_overloadsOf hfitsCase.label_text_le herror
    obtain ⟨hkind, hlabel⟩ := hplain case hcase
    exact (topLevel_eq_error_of_case hfitsCase hlabel hkind htop).lift hpart
      (topLevelTexts_of_mem_flatCases _ case hcase)

/-- The outcome for a stored tree that is neither a union nor a field. -/
theorem outcome_case {tree : TypeTree} (hfits : tree.Fits capacity) (hunion : tree.label ≠ .union)
    (hfield : tree.label.kind ≠ .field) :
    (ofArity capacity arity).Outcome tree ((ofArity capacity arity).topLevel tree) where
  distinct list hlist := by
    obtain ⟨params, body, rfl⟩ := topLevel_eq_ok hunion hfield hlist
    exact List.pairwise_singleton _ _
  size_le list hlist := by
    obtain ⟨params, body, rfl⟩ := topLevel_eq_ok hunion hfield hlist
    exact tree.size_pos
  ne_nil list hlist _ := by
    obtain ⟨params, body, rfl⟩ := topLevel_eq_ok hunion hfield hlist
    exact List.cons_ne_nil _ _
  fault _ herror := topLevel_eq_error_of_case hfits hunion hfield herror

/-- The outcome for a field is that for its type. -/
theorem Outcome.field {rules : Rules} {name : Bytes} {optional : Bool} {type : TypeTree}
    {result : Except Fault OverloadList} (h : rules.Outcome type result) :
    rules.Outcome (.field name optional type) result where
  distinct := h.distinct
  size_le list hlist := by
    have hle := h.size_le list hlist
    simp only [TypeTree.field, size, sizeAll]
    omega
  ne_nil list hlist hempty := by
    refine h.ne_nil list hlist fun hmem => hempty ?_
    exact mem_subtrees_trans (child_mem_subtrees List.mem_cons_self) _ hmem
  fault fault herror := by
    refine (h.fault fault herror).lift (child_mem_subtrees List.mem_cons_self) fun text htext => ?_
    rw [TypeTree.field, topLevelTexts, topLevelTextsAll, topLevelTextsAll, List.append_nil]
    exact htext

/-- The outcome for any stored tree that fits. -/
theorem outcome {arena : Arena} {id : Nat} {tree : TypeTree} (htree : arena.tree? id = some tree)
    (hsize : arena.size ≤ capacity) (hfits : tree.Fits capacity) :
    (ofArity capacity arity).Outcome tree ((ofArity capacity arity).topLevel tree) := by
  -- a type is a union or no union; a field stands for its type, which is stored as well
  have htype : ∀ {id : Nat} {type : TypeTree}, arena.tree? id = some type → type.Fits capacity →
      type.label.kind ≠ .field →
      (ofArity capacity arity).Outcome type ((ofArity capacity arity).topLevel type) := by
    intro id type htype hfits hfield
    by_cases hunion : type.label = .union
    · obtain ⟨label, children⟩ := type
      obtain rfl : label = .union := hunion
      exact outcome_union htype hsize hfits
    · exact outcome_case hfits hunion hfield
  by_cases hfield : tree.label.kind = .field
  · obtain ⟨label, children⟩ := tree
    cases label with
    | field name optional =>
      obtain ⟨type, rfl, -, hkind⟩ := hfits.regular.exists_only (Or.inr rfl)
      obtain ⟨k, hk⟩ := (Arena.tree?_eq_some htree).2 type List.mem_cons_self
      rw [← TypeTree.field, topLevel_field]
      exact (htype hk (hfits.child type List.mem_cons_self) hkind).field
    | _ => simp [Label.kind] at hfield
  · exact htype htree hfits hfield

end Rules

/-! ## Trees that were read -/

namespace Signature

theorem WellShaped.regular {tree : TypeTree} (h : WellShaped tree) : tree.Regular := by
  induction h with
  | @node label children hshape hfields _ ih =>
    refine .node (fun hkind => ?_) hfields ih
    cases label with
    | array => exact hshape
    | field => exact hshape.2
    | _ => simp [Label.kind] at hkind

theorem WellShaped.subtree {tree : TypeTree} (h : WellShaped tree) :
    ∀ part ∈ tree.subtrees, WellShaped part := by
  refine forall_mem_subtrees (fun label children hnode => ?_) h
  cases hnode with
  | node _ _ hchildren => exact hchildren

theorem WellShaped.text_le {tree : TypeTree} (h : WellShaped tree) :
    tree.label.text.length ≤ nameLimit := by
  cases h with
  | @node label children hshape _ _ =>
    cases label with
    | atomic type =>
      obtain ⟨kind, text⟩ := type
      have htype := hshape.1
      cases kind with
      | other => exact htype.2.2
      | stringLiteral => exact htype.length_le
      | _ =>
        obtain rfl : text = [] := htype
        exact Nat.zero_le _
    | field => exact hshape.1.length_le
    | _ => exact Nat.zero_le _

theorem WellShaped.ne_emptyUnion {tree : TypeTree} (h : WellShaped tree) : tree ≠ .union [] := by
  rintro rfl
  cases h with
  | node hshape _ _ => exact absurd hshape.1 (by simp)

/-- Each part of a tree that was read is held in an arena within its capacity, fits
    there, and is no empty union. -/
theorem part_of_read {capacity : Nat} {text : Bytes} {stored : StoredTree} {whole : TypeTree}
    (h : read capacity text = .ok stored) (hwhole : stored.tree? = some whole) :
    stored.arena.size ≤ capacity ∧ ∀ part ∈ whole.subtrees,
      (∃ k, stored.arena.Holds k part) ∧ part.Fits capacity ∧ .union [] ∉ part.subtrees := by
  obtain ⟨phrase, hderives⟩ := exists_derives_of_read h
  obtain ⟨hfits, root, hroot, hgrows⟩ := hderives.grows h
  have htree := hgrows.tree?_eq hroot
  obtain rfl : phrase.value = whole := Option.some.inj (htree.symm.trans hwhole)
  have hshaped := (hderives.canonical hfits.texts).wellShaped
  have hsize : stored.arena.size ≤ capacity := by
    have hnodes := hfits.nodes
    rwa [hgrows.size_eq, ← Nat.zero_add phrase.cost]
  refine ⟨hsize, fun part hpart => ?_⟩
  have hpartShaped := hshaped.subtree part hpart
  obtain ⟨k, hk⟩ := hgrows.holds.subtree part hpart
  refine ⟨⟨k, hk⟩, ⟨hpartShaped.regular, Nat.le_trans hk.size_le hsize, fun inner hinner => ?_⟩,
    fun hempty => ?_⟩
  · exact (hpartShaped.subtree inner hinner).text_le
  · exact (hpartShaped.subtree _ hempty).ne_emptyUnion rfl

end Signature

/-! ## Stored trees -/

/-- Making overloads under the default rules for any node of a regular tree that an arena
    holds without shared nodes, each with room for its text. The overloads are of
    different methods and no more than the nodes below. A failure is one of four: an
    empty union in the element of an array or the type of a field, too many cases, a
    text of more than 511 bytes, or a name of more than 71 bytes; no store of the rules is
    ever full, and no part is missing. The last failure takes an object of ten million
    fields. Literals and the fields of smaller objects have names in the target language.
    At the nodes of a tree that was read, all of this holds, the first failure does not
    occur, and there is always an overload. -/
theorem StoredTree.topLevel_safe {capacity arity : Nat} {arena : Arena} {id : Nat}
    {tree : TypeTree} (hholds : arena.Holds id tree) (hsize : arena.size ≤ capacity)
    (htexts : ∀ part ∈ tree.subtrees, part.label.text.length ≤ nameLimit)
    (hregular : tree.Regular) :
    (∀ list, topLevel (.ofArity capacity arity) ⟨arena, some id⟩ = .ok list →
      (list.items.Pairwise fun x y => x.sameIdentity y = false) ∧ list.size ≤ tree.size) ∧
    (∀ fault, topLevel (.ofArity capacity arity) ⟨arena, some id⟩ = .error fault →
      (Rules.ofArity capacity arity).TopLevelFault tree fault ∧
      fault ∉ [.overloadsFull, .tooManyFields, .tooManyCases, .missingRoot]) ∧
    ((∀ part ∈ tree.subtrees, part.label = .object →
        part.children.length ≤ Target.maxNumberedFields) →
      topLevel (.ofArity capacity arity) ⟨arena, some id⟩ ≠ .error (.textTooLong 71)) ∧
    (∀ part ∈ tree.subtrees,
      (∀ text, part.label.literal? = some text → ∃ method, Target.adaptName text = .ok method) ∧
      (part.children.length ≤ Target.maxNumberedFields →
        ∃ names, Target.fieldNames capacity (part.children.map fun child => child.label.text) =
          .ok names)) ∧
    (∀ text stored whole, Signature.read capacity text = .ok stored → stored.tree? = some whole →
      stored.arena.size ≤ capacity ∧ ∀ part ∈ whole.subtrees, ∃ k, stored.arena.Holds k part ∧
        (∀ inner ∈ part.subtrees, inner.label.text.length ≤ nameLimit) ∧ part.Regular ∧
        topLevel (.ofArity capacity arity) ⟨stored.arena, some k⟩ ≠ .error .emptyUnion ∧
        ∀ list, topLevel (.ofArity capacity arity) ⟨stored.arena, some k⟩ = .ok list →
          list.items ≠ []) := by
  -- the outcome at any node, also of trees that were read
  have houtcome : ∀ {a : Arena} {k : Nat} {t : TypeTree}, a.Holds k t → a.size ≤ capacity →
      t.Fits capacity →
      (Rules.ofArity capacity arity).Outcome t
        (topLevel (.ofArity capacity arity) ⟨a, some k⟩) := by
    intro a k t hholds hsize hfits
    have htree := hholds.tree?_eq
    have hrequire : requireTree ⟨a, some k⟩ = .ok t := by
      simp [requireTree, tree?, htree]
    rw [topLevel, hrequire]
    exact Rules.outcome htree hsize hfits
  have hfits : tree.Fits capacity := ⟨hregular, Nat.le_trans hholds.size_le hsize, htexts⟩
  have hthis := houtcome hholds hsize hfits
  refine ⟨fun list hlist => ⟨hthis.distinct list hlist, hthis.size_le list hlist⟩,
    fun fault herror => ⟨hthis.fault fault herror, ?_⟩, fun hfew herror => ?_,
    fun part hpart => ⟨fun text hliteral => ?_, fun hnumbers => ?_⟩,
    fun text stored whole hread hwhole => ?_⟩
  · cases hthis.fault fault herror <;> simp
  · cases hthis.fault _ herror with
    | nameTooLong hpart hlabel hmany => exact absurd (hfew _ hpart hlabel) (Nat.not_le.2 hmany)
  · have hlabel := htexts part hpart
    rw [Rules.text_of_literal? hliteral] at hlabel
    exact Target.adaptName_of_length_le hlabel
  · obtain ⟨label, children⟩ := part
    have hpartFits := hfits.subtree _ hpart
    refine Target.fieldNames_of_length_le (fun source hsource => ?_) ?_ ?_
    · obtain ⟨child, hchild, rfl⟩ := List.mem_map.1 hsource
      exact (hpartFits.child child hchild).label_text_le
    · rw [List.length_map]
      exact hpartFits.length_children_le
    · rwa [List.length_map]
  · obtain ⟨hroom, hparts⟩ := Signature.part_of_read hread hwhole
    refine ⟨hroom, fun part hpart => ?_⟩
    obtain ⟨⟨k, hk⟩, hpartFits, hempty⟩ := hparts part hpart
    have hpartOutcome := houtcome hk hroom hpartFits
    refine ⟨k, hk, hpartFits.text_le, hpartFits.regular, fun herror => ?_,
      fun list hlist => hpartOutcome.ne_nil list hlist hempty⟩
    cases hpartOutcome.fault _ herror with
    | emptyUnion hinner _ hunion => exact hempty (mem_subtrees_trans hinner _ hunion)

/-- An arena that holds a union of a literal and a number. -/
def literalOrNumber : Arena :=
  ⟨[⟨.atomic ⟨.stringLiteral, ascii "a"⟩, none, some 1, 0⟩, .leaf (.atomic ⟨.number, []⟩),
    ⟨.union, some 0, none, 2⟩]⟩

theorem StoredTree.topLevel_safe_sample :
    ∃ tree, literalOrNumber.Holds 2 tree ∧ literalOrNumber.size ≤ 3 ∧
      (∀ part ∈ tree.subtrees, part.label.text.length ≤ nameLimit) ∧ tree.Regular ∧
      ∃ list, topLevel (.ofArity 3 9) ⟨literalOrNumber, some 2⟩ = .ok list ∧
        (list.items.Pairwise fun x y => x.sameIdentity y = false) ∧ list.size ≤ tree.size := by
  have hholds : literalOrNumber.Holds 2
      (.union [.atomic .stringLiteral (ascii "a"), .atomic .number []]) := by
    have hnumber := @Arena.SpansChain.cons literalOrNumber 1 (.leaf (.atomic ⟨.number, []⟩))
      [] [] [] [] rfl ⟨rfl, fun _ => rfl⟩ .nil .nil
    have hchain := @Arena.SpansChain.cons literalOrNumber 0
      ⟨.atomic ⟨.stringLiteral, ascii "a"⟩, none, some 1, 0⟩
      [] _ [] _ rfl ⟨rfl, fun _ => rfl⟩ .nil hnumber
    exact ⟨_, @Arena.Spans.intro literalOrNumber 2 ⟨.union, some 0, none, 2⟩ _ _ rfl
      ⟨rfl, by decide⟩ hchain, by decide⟩
  have htexts : ∀ part ∈ (TypeTree.union [.atomic .stringLiteral (ascii "a"),
      .atomic .number []]).subtrees, part.label.text.length ≤ nameLimit := by decide
  have hregular : (TypeTree.union [.atomic .stringLiteral (ascii "a"),
      .atomic .number []]).Regular := by decide
  have hsize : literalOrNumber.size ≤ 3 := by decide
  have hlist : topLevel (.ofArity 3 9) ⟨literalOrNumber, some 2⟩ =
      .ok ⟨[.enum ⟨ascii "a", by decide⟩ ⟨ascii "\"a\"", by decide⟩,
        .regular ⟨ascii "(value: float)", by decide⟩ valueBody]⟩ := rfl
  exact ⟨_, hholds, hsize, htexts, hregular, _, hlist,
    (topLevel_safe hholds hsize htexts hregular).1 _ hlist⟩

/-! ## Fields of one name -/

namespace TypeTree

/-- A number under a name of 63 digits. A name of the target language does not begin with a
    digit, so adapting puts an underscore in front. -/
def digitsField : TypeTree :=
  .field (List.replicate nameLimit 0x30) false (.atomic .number [])

/-- An object of so many fields that are all alike. -/
def alikeFields (count : Nat) : TypeTree :=
  .object (List.replicate count digitsField)

theorem sizeAll_replicate (count : Nat) (tree : TypeTree) :
    sizeAll (List.replicate count tree) = count * tree.size := by
  induction count with
  | zero => rw [List.replicate_zero, sizeAll, Nat.zero_mul]
  | succ count ih =>
    rw [List.replicate_succ, sizeAll, ih, Nat.succ_mul, Nat.add_comm]

theorem size_alikeFields (count : Nat) : (alikeFields count).size = 2 * count + 1 := by
  rw [alikeFields, object, size, sizeAll_replicate, Nat.mul_comm]
  rfl

theorem alikeFields_fits (count : Nat) : (alikeFields count).Fits (2 * count + 1) where
  regular := by
    refine .node (fun hkind => by simp [Label.kind] at hkind) (fun child hchild => ?_)
      fun child hchild => ?_
    all_goals rw [List.eq_of_mem_replicate hchild]
    · exact ⟨fun _ => rfl, fun _ => rfl⟩
    · decide
  size_le := (size_alikeFields count).le
  text_le := by
    have hfield : ∀ part ∈ digitsField.subtrees, part.label.text.length ≤ nameLimit := by decide
    intro part hpart
    rcases mem_subtrees_node.1 hpart with rfl | ⟨child, hchild, hpart⟩
    · exact Nat.zero_le _
    · exact hfield part (List.eq_of_mem_replicate hchild ▸ hpart)

theorem alikeFields_buildable (count : Nat) : (alikeFields count).Buildable := by
  refine .object fun child hchild => ?_
  rw [List.eq_of_mem_replicate hchild]
  exact .field (by decide) (.atomic (by decide))

/-- An arena with room for all nodes can hold such an object. -/
theorem exists_holds_alikeFields (count : Nat) :
    ∃ (arena : Arena) (id : Nat),
      arena.Holds id (alikeFields count) ∧ arena.size ≤ 2 * count + 1 := by
  have houtcome : BuildOutcome (2 * count + 1) (alikeFields count) _ :=
    (alikeFields_buildable count).outcome
  have hfits := alikeFields_fits count
  generalize (alikeFields count).build (2 * count + 1) = result at houtcome
  cases houtcome with
  | @built part _ hpart =>
    refine ⟨part.1, part.2, hpart.grows.holds, ?_⟩
    rw [hpart.grows.size_eq]
    exact hfits.size_le
  | refused hnot => exact absurd ⟨hfits.size_le, hfits.text_le⟩ hnot

end TypeTree

/-- Ten million such fields cannot all be named. -/
theorem StoredTree.topLevel_alikeFields {arena : Arena} {id capacity arity count : Nat}
    (hholds : arena.Holds id (alikeFields count)) (hcount : Target.maxNumberedFields < count)
    (hcapacity : count ≤ capacity) :
    topLevel (.ofArity capacity arity) ⟨arena, some id⟩ = .error (.textTooLong 71) := by
  have hsources : ((Rules.ofArity capacity arity).fieldViews
      (List.replicate count digitsField)).map FieldView.name =
        List.replicate count (List.replicate nameLimit 0x30) := by
    rw [Rules.fieldViews_eq_map, List.map_replicate, List.map_replicate]
    rfl
  have hspelling : Target.spell (List.replicate nameLimit 0x30) =
      .ok ⟨Byte.underscore :: List.replicate nameLimit 0x30, by decide⟩ := by decide
  have hnames := Target.fieldNames_replicate hspelling (by decide) (by decide) hcount hcapacity
  have hrequire : requireTree ⟨arena, some id⟩ = .ok (alikeFields count) := by
    simp [requireTree, tree?, hholds.tree?_eq]
  rw [topLevel, hrequire]
  show (Rules.ofArity capacity arity).topLevel (.node .object (List.replicate count digitsField)) =
    .error (.textTooLong 71)
  rw [Rules.topLevel_object]
  exact bind_eq_error_iff.2 (Or.inl (hsources ▸ hnames))

/-- A name of the target language can be too long. -/
theorem StoredTree.topLevel_name_tooLong :
    ∃ arena id, arena.Holds id (alikeFields 10000000) ∧ arena.size ≤ 20000001 ∧
      (∀ part ∈ (alikeFields 10000000).subtrees, part.label.text.length ≤ nameLimit) ∧
      (alikeFields 10000000).Regular ∧
      topLevel (.ofArity 20000001 9) ⟨arena, some id⟩ = .error (.textTooLong 71) := by
  have hfits := alikeFields_fits 10000000
  obtain ⟨arena, id, hholds, hsize⟩ := exists_holds_alikeFields 10000000
  exact ⟨arena, id, hholds, hsize, hfits.text_le, hfits.regular,
    topLevel_alikeFields hholds (by decide) (by decide)⟩

end TypeSig
