/-
  TypeSig.Proofs.Rules.Exact

  Bounded type expressions and signature texts against the ones without a bound. A text
  is put together from parts that have bounds of their own, so rendering may fail long
  before the whole is there. It never fails without need: a part that is too long is
  somewhere in the whole, or an equal one is, so the whole is too long as well
  (`Exact`, `render_exact`).

  The stores of the rules have room for whatever a stored tree asks of them
  (`TypeTree.HasRoom`). Only the names of fields can run out, when more than seven digits
  are needed for a number, and then there are so many fields that what stands between
  them is too long (`named_exact`).

  Main statements: `Rules.nested_exact` and `Signature.write_exact`.
-/

import TypeSig.Proofs.Arena.Parts
import TypeSig.Proofs.Rules.Faults
import TypeSig.Proofs.Rules.Layout
import TypeSig.Proofs.Rules.Unbounded
import TypeSig.Proofs.Signature.Grammar
import TypeSig.Proofs.Text.SameUnless

namespace TypeSig

open Unbounded (Part concat listing)

/-! ## Texts with and without a bound -/

/-- What a piece comes to, against the same part without a bound: the same bytes, or the
    fault that these are too long. Where there is no such part, the piece is some fault. -/
inductive Exact : Part → Piece → Prop
  | ok (bytes : Bytes) : Exact (some bytes) (.ok bytes)
  | tooLong {bytes : Bytes} {limit : Nat} :
      511 < bytes.length → Exact (some bytes) (.error (.textTooLong limit))
  | none (fault : Fault) : Exact none (.error fault)

/-- A rendered text against the text without a bound. -/
theorem exact_part_iff {part : Part} {result : Except Fault Text} :
    Exact part (partPiece result) ↔
      (∃ text, result = .ok text ∧ part = some text.bytes) ∨
        ((∃ limit, result = .error (.textTooLong limit)) ∧
          ∃ bytes, part = some bytes ∧ 511 < bytes.length) ∨
          (part = none ∧ ∃ fault, result = .error fault) := by
  constructor
  · intro h
    cases result with
    | ok text =>
      cases h with
      | ok => exact Or.inl ⟨text, rfl, rfl⟩
    | error fault =>
      cases h with
      | tooLong hlong => exact Or.inr (Or.inl ⟨⟨_, rfl⟩, _, rfl, hlong⟩)
      | none => exact Or.inr (Or.inr ⟨rfl, fault, rfl⟩)
  · rintro (⟨text, rfl, rfl⟩ | ⟨⟨limit, rfl⟩, bytes, rfl, hlong⟩ | ⟨rfl, fault, rfl⟩)
    · exact .ok text.bytes
    · exact .tooLong hlong
    · exact .none fault

/-- A text that was rendered is the one without a bound. -/
theorem eq_of_exact_ok {part : Part} {text : Text} (h : Exact part (partPiece (.ok text))) :
    part = some text.bytes := by
  rcases exact_part_iff.1 h with ⟨_, hok, hpart⟩ | ⟨⟨_, herror⟩, -⟩ | ⟨-, _, herror⟩
  · cases hok
    exact hpart
  · cases herror
  · cases herror

/-- What becomes of a text that exists without a bound. -/
theorem eq_of_exact_some {bytes : Bytes} {result : Except Fault Text}
    (h : Exact (some bytes) (partPiece result)) :
    (∀ hfits : bytes.length ≤ 511, result = .ok ⟨bytes, hfits⟩) ∧
      (511 < bytes.length → ∃ limit, result = .error (.textTooLong limit)) := by
  rcases exact_part_iff.1 h with ⟨text, rfl, hbytes⟩ | ⟨⟨limit, rfl⟩, _, hbytes, hlong⟩ |
    ⟨hnone, -⟩
  · cases hbytes
    exact ⟨fun _ => rfl, fun hlong => absurd text.length_le (Nat.not_le_of_lt hlong)⟩
  · cases hbytes
    exact ⟨fun hfits => absurd hfits (Nat.not_le_of_lt hlong), fun _ => ⟨limit, rfl⟩⟩
  · cases hnone

/-! ### Parts in a row -/

theorem concat_some_cons (bytes : Bytes) (parts : List Part) :
    concat (some bytes :: parts) = (concat parts).map fun rest => bytes ++ rest := by
  cases h : concat parts <;> simp [concat, h]

theorem concat_append (parts more : List Part) :
    concat (parts ++ more) =
      (concat parts).bind fun bytes => (concat more).map fun rest => bytes ++ rest := by
  induction parts with
  | nil => cases h : concat more <;> simp [concat, h]
  | cons part parts ih =>
    rw [List.cons_append]
    cases part with
    | none => rfl
    | some bytes =>
      rw [concat_some_cons, concat_some_cons, ih]
      cases concat parts <;> cases concat more <;> simp

theorem appendAll_exact {parts : List Part} {pieces : List Piece}
    (h : List.Forall₂ Exact parts pieces) :
    ∀ t : Text, Exact ((concat parts).map fun rest => t.bytes ++ rest)
      (partPiece (BoundedText.appendAll pieces t)) := by
  induction h with
  | nil =>
    intro t
    show Exact (some (t.bytes ++ [])) (.ok t.bytes)
    rw [List.append_nil]
    exact .ok t.bytes
  | @cons part piece parts pieces hpiece _ ih =>
    intro t
    cases hpiece with
    | none fault => exact .none fault
    | @tooLong bytes limit hlong =>
      -- the whole is no shorter than the piece, if it exists
      rw [concat_some_cons]
      cases concat parts with
      | none => exact .none (.textTooLong limit)
      | some rest =>
        refine .tooLong ?_
        rw [List.length_append, List.length_append]
        omega
    | ok bytes =>
      rw [concat_some_cons, Option.map_map]
      by_cases hroom : t.bytes.length + bytes.length ≤ 511
      · obtain ⟨longer, hlonger, hbytes⟩ := BoundedText.exists_append hroom
        have hrun : BoundedText.appendAll (.ok bytes :: pieces) t =
            BoundedText.appendAll pieces longer := by
          rw [BoundedText.appendAll]
          simp only [bind, Except.bind, hlonger]
        have hassoc : (fun rest => t.bytes ++ rest) ∘ (fun rest => bytes ++ rest) =
            fun rest => longer.bytes ++ rest := by
          funext rest
          rw [hbytes, List.append_assoc]
          rfl
        rw [hrun, hassoc]
        exact ih longer
      · -- what is there already and the piece are too long together
        have hrun : BoundedText.appendAll (.ok bytes :: pieces) t = .error (.textTooLong 511) := by
          rw [BoundedText.appendAll]
          simp only [bind, Except.bind, BoundedText.append_of_lt (Nat.lt_of_not_le hroom)]
        rw [hrun]
        cases concat parts with
        | none => exact .none (.textTooLong 511)
        | some rest =>
          refine .tooLong ?_
          show 511 < (t.bytes ++ (bytes ++ rest)).length
          rw [List.length_append, List.length_append]
          omega

/-- A text of parts is exact if the parts are. -/
theorem render_exact {parts : List Part} {pieces : List Piece}
    (h : List.Forall₂ Exact parts pieces) :
    Exact (concat parts) (partPiece (BoundedText.render pieces)) := by
  have happend := appendAll_exact h .empty
  rwa [show (fun rest : Bytes => (BoundedText.empty : Text).bytes ++ rest) = id from rfl,
    Option.map_id] at happend

/-- A text of pieces without a fault is their wording, if that fits. -/
theorem render_exact_of_ok {pieces : List Piece} (h : ∀ fault, .error fault ∉ pieces) :
    Exact (some (wording pieces)) (partPiece (BoundedText.render pieces)) := by
  rw [exact_part_iff]
  cases hrender : (BoundedText.render pieces : Except Fault Text) with
  | ok text => exact Or.inl ⟨text, rfl, by rw [BoundedText.render_eq_ok hrender]⟩
  | error fault =>
    rcases BoundedText.render_eq_error hrender with hpiece | ⟨rfl, hlong⟩
    · exact absurd hpiece (h fault)
    · exact Or.inr (Or.inl ⟨⟨511, rfl⟩, _, rfl, hlong⟩)

theorem listing_exact {opening separator closing : Bytes} {items : List (List Part)}
    {pieces : List (List Piece)} (h : List.Forall₂ (List.Forall₂ Exact) items pieces) :
    Exact (listing opening separator closing items)
      (partPiece (BoundedText.render
        (.ok opening :: joinPieces separator pieces ++ [.ok closing]))) :=
  render_exact (.cons (.ok opening)
    (List.rel_append (forall₂_intercalate (.ok separator) h) (.cons (.ok closing) .nil)))

/-- Items that say something each add up. -/
theorem mul_le_length_listing {opening separator closing : Bytes} {items : List (List Part)}
    {least : Nat} (h : ∀ item ∈ items, ∀ bytes, concat item = some bytes → least ≤ bytes.length)
    {text : Bytes} (htext : listing opening separator closing items = some text) :
    items.length * least ≤ text.length := by
  have hitems : ∀ bytes, concat (List.intercalate [some separator] items) = some bytes →
      items.length * least ≤ bytes.length := by
    clear htext
    induction items with
    | nil => simp
    | cons item rest ih =>
      obtain ⟨hitem, hrest⟩ := List.forall_mem_cons.1 h
      cases rest with
      | nil =>
        intro bytes hbytes
        rw [List.intercalate_singleton] at hbytes
        have hleast := hitem bytes hbytes
        rw [List.length_singleton, Nat.one_mul]
        exact hleast
      | cons next rest =>
        intro bytes hbytes
        rw [List.intercalate_cons_cons, List.append_assoc, concat_append] at hbytes
        obtain ⟨first, hfirst, hbytes⟩ := Option.bind_eq_some_iff.1 hbytes
        rw [List.singleton_append, concat_some_cons, Option.map_map] at hbytes
        obtain ⟨others, hothers, rfl⟩ := Option.map_eq_some_iff.1 hbytes
        have hleast := hitem first hfirst
        have hmore := ih hrest others hothers
        rw [List.length_cons, Nat.succ_mul]
        show _ ≤ (first ++ (separator ++ others)).length
        rw [List.length_append, List.length_append]
        omega
  rw [listing, List.cons_append, concat_some_cons, concat_append] at htext
  obtain ⟨inner, hinner, rfl⟩ := Option.map_eq_some_iff.1 htext
  obtain ⟨middle, hmiddle, hinner⟩ := Option.bind_eq_some_iff.1 hinner
  obtain ⟨last, -, rfl⟩ := Option.map_eq_some_iff.1 hinner
  have hleast := hitems middle hmiddle
  rw [List.length_append, List.length_append]
  omega

/-! ## Trees with room -/

/-- A regular tree for which there is room: for the text of each node, and for as many
    values as a node has children. -/
structure TypeTree.HasRoom (capacity : Nat) (tree : TypeTree) : Prop where
  regular : tree.Regular
  text_le : ∀ part ∈ tree.subtrees, part.label.text.length ≤ nameLimit
  length_le : ∀ part ∈ tree.subtrees, part.children.length ≤ capacity

namespace TypeTree.HasRoom

variable {capacity : Nat} {tree : TypeTree} {label : Label} {children : List TypeTree}

theorem subtree (h : tree.HasRoom capacity) : ∀ part ∈ tree.subtrees, part.HasRoom capacity :=
  fun part hpart =>
    { regular := h.regular.subtree part hpart
      text_le := fun inner hinner => h.text_le inner (mem_subtrees_trans hpart inner hinner)
      length_le := fun inner hinner => h.length_le inner (mem_subtrees_trans hpart inner hinner) }

theorem child (h : (TypeTree.node label children).HasRoom capacity) :
    ∀ child ∈ children, child.HasRoom capacity :=
  fun child hchild => h.subtree child
    (mem_subtrees_node.2 (Or.inr ⟨child, hchild, child.self_mem_subtrees⟩))

theorem label_text_le (h : tree.HasRoom capacity) : tree.label.text.length ≤ nameLimit :=
  h.text_le tree tree.self_mem_subtrees

theorem length_children_le (h : (TypeTree.node label children).HasRoom capacity) :
    children.length ≤ capacity :=
  h.length_le _ (self_mem_subtrees _)

end TypeTree.HasRoom

/-- There is room for a tree that an arena holds, also where nodes are shared. -/
theorem TypeTree.HasRoom.of_tree? {a : Arena} {id capacity : Nat} {tree : TypeTree}
    (htree : a.tree? id = some tree) (hsize : a.size ≤ capacity) (hregular : tree.Regular)
    (htexts : ∀ part ∈ tree.subtrees, part.label.text.length ≤ nameLimit) :
    tree.HasRoom capacity := by
  refine ⟨hregular, htexts, fun part hpart => ?_⟩
  obtain ⟨k, hk⟩ := Arena.exists_tree?_of_mem_subtrees htree part hpart
  exact Nat.le_trans (Arena.length_children_le hk) hsize

/-! ## Names and fields -/

/-- Items with the names of sources for which there is room. Where the names run out, there
    are ten million items, so the text is too long in any case. -/
theorem named_exact {α β : Type} {capacity : Nat} {opening separator closing : Bytes}
    {sources : List Bytes} {refs : List α} {items : List β} {parts : α → Bytes → List Part}
    {pieces : β → Identifier → List Piece}
    (hsources : ∀ source ∈ sources, source.length ≤ nameLimit)
    (hcapacity : sources.length ≤ capacity) (hlength : refs.length = sources.length)
    (hitems : List.Forall₂
      (fun ref item => ∀ name : Identifier,
        List.Forall₂ Exact (parts ref name.bytes) (pieces item name)) refs items)
    (htwo : ∀ ref name bytes, concat (parts ref name) = some bytes → 2 ≤ bytes.length) :
    Exact (listing opening separator closing
        (List.zipWith parts refs (Unbounded.fieldNames sources)))
      (partPiece (Target.fieldNames capacity sources >>= fun names =>
        BoundedText.render (namedItems opening separator closing pieces items names))) := by
  cases hnames : Target.fieldNames capacity sources with
  | ok names =>
    rw [← Target.fieldNames_bytes hnames]
    apply listing_exact
    clear hlength hnames
    induction hitems generalizing names with
    | nil => exact .nil
    | cons hitem _ ih =>
      cases names with
      | nil => exact .nil
      | cons name names => exact .cons (hitem name) (ih names)
  | error fault =>
    obtain ⟨rfl, hmany⟩ := Target.fieldNames_eq_error hsources hcapacity hnames
    have hmax : Target.maxNumberedFields = 9999999 := rfl
    show Exact _ (.error (.textTooLong 71))
    cases htext : listing opening separator closing
        (List.zipWith parts refs (Unbounded.fieldNames sources)) with
    | none => exact .none (.textTooLong 71)
    | some text =>
      have hleast : ∀ item ∈ List.zipWith parts refs (Unbounded.fieldNames sources),
          ∀ bytes, concat item = some bytes → 2 ≤ bytes.length := by
        intro item hitem bytes hbytes
        obtain ⟨ref, -, name, rfl⟩ := exists_of_mem_zipWith hitem
        exact htwo ref name bytes hbytes
      -- two bytes for each of ten million items
      have hmul := mul_le_length_listing hleast htext
      rw [List.length_zipWith, Unbounded.length_fieldNames, hlength, Nat.min_self] at hmul
      exact .tooLong (by omega)

/-- A field that is seen alike with and without a bound on its type. -/
structure FieldExact (ref : Unbounded.Field) (field : FieldView) : Prop where
  name_eq : field.name = ref.name
  optional_eq : field.optional = ref.optional
  type : Exact ref.type (partPiece field.type)

section Fields

variable {capacity : Nat} {refs : List Unbounded.Field} {fields : List FieldView}

theorem map_name_of_exact (h : List.Forall₂ FieldExact refs fields) :
    fields.map FieldView.name = refs.map Unbounded.Field.name := by
  induction h with
  | nil => rfl
  | cons hfield _ ih => rw [List.map_cons, List.map_cons, hfield.name_eq, ih]

theorem memberParts_exact {ref : Unbounded.Field} {field : FieldView} (h : FieldExact ref field)
    (name : Identifier) :
    List.Forall₂ Exact (Unbounded.memberParts ref name.bytes)
      (Default.memberPieces field name) := by
  rw [Unbounded.memberParts, Default.memberPieces, h.optional_eq]
  refine List.rel_append (.cons (.ok _) (.cons (.ok _) (.cons h.type .nil))) ?_
  cases ref.optional
  · exact .nil
  · exact .cons (.ok _) .nil

theorem parameterParts_exact {ref : Unbounded.Field} {field : FieldView}
    (h : FieldExact ref field) (name : Identifier) :
    List.Forall₂ Exact (Unbounded.parameterParts ref name.bytes)
      (Default.parameterPieces field name) := by
  rw [Unbounded.parameterParts, Default.parameterPieces, h.optional_eq]
  refine List.rel_append ?_ (.cons (.ok _) (.cons (.ok _) (.cons h.type .nil)))
  cases ref.optional
  · exact .nil
  · exact .cons (.ok _) .nil

theorem two_le_memberParts (ref : Unbounded.Field) (name bytes : Bytes)
    (h : concat (Unbounded.memberParts ref name) = some bytes) : 2 ≤ bytes.length := by
  have hcolon : (ascii ": ").length = 2 := rfl
  rw [Unbounded.memberParts, List.cons_append, concat_some_cons] at h
  obtain ⟨rest, hrest, rfl⟩ := Option.map_eq_some_iff.1 h
  rw [List.cons_append, concat_some_cons] at hrest
  obtain ⟨rest, -, rfl⟩ := Option.map_eq_some_iff.1 hrest
  rw [List.length_append, List.length_append]
  omega

theorem two_le_parameterParts (ref : Unbounded.Field) (name bytes : Bytes)
    (h : concat (Unbounded.parameterParts ref name) = some bytes) : 2 ≤ bytes.length := by
  have hcolon : (ascii ": ").length = 2 := rfl
  rw [Unbounded.parameterParts, concat_append] at h
  obtain ⟨mark, -, h⟩ := Option.bind_eq_some_iff.1 h
  obtain ⟨rest, hrest, rfl⟩ := Option.map_eq_some_iff.1 h
  rw [concat_some_cons, concat_some_cons, Option.map_map] at hrest
  obtain ⟨type, -, rfl⟩ := Option.map_eq_some_iff.1 hrest
  show 2 ≤ (mark ++ (name ++ (ascii ": " ++ type))).length
  rw [List.length_append, List.length_append, List.length_append]
  omega

variable (hsources : ∀ ref ∈ refs, ref.name.length ≤ nameLimit)
  (hcapacity : refs.length ≤ capacity)

include hsources hcapacity

theorem innerObject_exact {settings : Settings} (hsettings : settings.capacity = capacity)
    (h : List.Forall₂ FieldExact refs fields) :
    Exact (Unbounded.record refs) (partPiece (Default.innerObject settings fields)) := by
  rw [Default.innerObject, map_name_of_exact h, hsettings]
  exact named_exact (by simpa using hsources) (by simpa using hcapacity)
    (by rw [List.length_map]) (h.imp fun ref field hfield => memberParts_exact hfield)
    two_le_memberParts

theorem parameters_exact (h : List.Forall₂ FieldExact refs fields) :
    Exact (Unbounded.parameters refs)
      (partPiece (Target.fieldNames capacity (refs.map Unbounded.Field.name) >>= fun names =>
        Default.parameters fields names)) :=
  named_exact (by simpa using hsources) (by simpa using hcapacity)
    (by rw [List.length_map]) (h.imp fun ref field hfield => parameterParts_exact hfield)
    two_le_parameterParts

end Fields

/-! ## Literals and atomic types -/

theorem quotedCode_exact (text : Bytes) :
    Exact (some (Unbounded.quotedCode text)) (partPiece (Target.quotedCode text)) := by
  rw [← Target.wording_quotedPieces]
  exact render_exact_of_ok fun fault => by simp

theorem ofBytes_exact (bytes : Bytes) :
    Exact (some bytes) (partPiece (BoundedText.ofBytes bytes)) := by
  rw [exact_part_iff, BoundedText.ofBytes]
  by_cases hroom : bytes.length ≤ 511
  · obtain ⟨text, htext, hbytes⟩ := BoundedText.exists_append (t := (BoundedText.empty : Text))
      (show 0 + bytes.length ≤ 511 by omega)
    exact Or.inl ⟨text, htext, by rw [hbytes]; rfl⟩
  · have hlong : 511 < bytes.length := by omega
    exact Or.inr (Or.inl ⟨⟨511, BoundedText.append_of_lt (show 511 < 0 + bytes.length by omega)⟩,
      bytes, rfl, hlong⟩)

theorem atomic_exact (type : Atomic) :
    Exact (some (Unbounded.atomic type)) (partPiece (Default.atomic type)) := by
  obtain ⟨kind, text⟩ := type
  cases kind with
  | stringLiteral => exact quotedCode_exact text
  | other => exact ofBytes_exact text
  | _ => exact ofBytes_exact _

theorem entryParts_exact (source : Bytes) (name : Identifier) :
    List.Forall₂ Exact (Unbounded.entryParts source name.bytes)
      (Target.entryPieces source name) :=
  .cons (quotedCode_exact source) (.cons (.ok _) (.cons (.ok _) .nil))

theorem two_le_entryParts (source name bytes : Bytes)
    (h : concat (Unbounded.entryParts source name) = some bytes) : 2 ≤ bytes.length := by
  have hquotes : 2 ≤ (Unbounded.quotedCode source).length := by
    rw [Unbounded.quotedCode, List.length_append, List.length_append, List.length_singleton]
    omega
  rw [Unbounded.entryParts, concat_some_cons] at h
  obtain ⟨rest, -, rfl⟩ := Option.map_eq_some_iff.1 h
  rw [List.length_append]
  omega

theorem objectLiteral_exact {capacity : Nat} {sources : List Bytes}
    (hsources : ∀ source ∈ sources, source.length ≤ nameLimit)
    (hcapacity : sources.length ≤ capacity) :
    Exact (Unbounded.objectLiteral sources) (partPiece (Target.objectLiteral capacity sources)) :=
  named_exact hsources hcapacity rfl
    (List.forall₂_same.2 fun source _ => entryParts_exact source) two_le_entryParts

/-! ## Unions -/

section Unions

/-- One more type among distinct ones, and what is known of them afterwards. -/
theorem map_bytes_concat {known : List Text} {done : List Bytes}
    (hknown : known.map BoundedText.bytes = done.eraseDups) (type : Text) :
    (if type ∈ known then known else known ++ [type]).map BoundedText.bytes =
      (done ++ [type.bytes]).eraseDups := by
  have hmem : type.bytes ∈ done.eraseDups ↔ type ∈ known := by
    rw [← hknown]
    exact BoundedText.bytes_mem_map_iff
  rw [eraseDups_append_singleton]
  by_cases hold : type ∈ known
  · rw [if_pos hold, if_pos (hmem.2 hold), hknown]
  · rw [if_neg hold, if_neg fun h => hold (hmem.1 h), List.map_append, hknown, List.map_singleton]

variable {capacity arity : Nat} {rules : Rules} {children : List TypeTree}
  (hcases : ∀ child ∈ children, Exact
    (Unbounded.caseType child.label (Unbounded.nested arity child))
    (partPiece (Default.caseType rules.toSettings ⟨child.label, rules.nested child⟩)))

include hcases

/-- The types that are told apart are the distinct ones of all cases, and there are not
    too many. -/
theorem distinctTypes_exact_ok (harity : rules.maxUnionArity = arity) {types : List Text} :
    ∀ {known : List Text} {done : List Bytes},
      known.map BoundedText.bytes = done.eraseDups →
      (known.length ≤ 1 ∨ known.length ≤ arity) →
      Default.distinctTypes rules.toSettings known (rules.caseViews children) = .ok types →
      ∃ given, Unbounded.caseTypes arity children = some given ∧
        types.map BoundedText.bytes = (done ++ given).eraseDups ∧
        (types.length ≤ 1 ∨ types.length ≤ arity) := by
  induction children with
  | nil =>
    intro known done hknown hfew h
    cases h
    exact ⟨[], rfl, by rw [List.append_nil, hknown], hfew⟩
  | cons child rest ih =>
    obtain ⟨hchild, hrest⟩ := List.forall_mem_cons.1 hcases
    intro known done hknown hfew h
    obtain ⟨type, htype, h⟩ := bind_eq_ok_iff.1 h
    rw [htype] at hchild
    have hnext := map_bytes_concat hknown type
    have hstep : ∀ {next : List Text},
        next.map BoundedText.bytes = (done ++ [type.bytes]).eraseDups →
        (next.length ≤ 1 ∨ next.length ≤ arity) →
        Default.distinctTypes rules.toSettings next (rules.caseViews rest) = .ok types →
        ∃ given, Unbounded.caseTypes arity (child :: rest) = some given ∧
          types.map BoundedText.bytes = (done ++ given).eraseDups ∧
          (types.length ≤ 1 ∨ types.length ≤ arity) := by
      intro next hbytes hsmall hrun
      -- the child is one of those in front once the rest is looked at
      obtain ⟨given, hgiven, htypes, hbound⟩ := ih hrest hbytes hsmall hrun
      refine ⟨type.bytes :: given, ?_, ?_, hbound⟩
      · rw [Unbounded.caseTypes, eq_of_exact_ok hchild, hgiven]
        rfl
      · rw [htypes, List.append_assoc, List.singleton_append]
    by_cases hold : type ∈ known
    · rw [if_pos hold] at h hnext
      exact hstep hnext hfew h
    · rw [if_neg hold] at h hnext
      split at h
      · cases h
      · next hroom =>
        split at h
        · cases h
        · refine hstep hnext ?_ h
          rw [harity] at hroom
          rw [List.length_append, List.length_singleton]
          -- a first type is one; a later one is within the arity
          by_cases hfirst : known = []
          · subst hfirst
            exact Or.inl (Nat.le_refl 1)
          · have hlt : known.length < arity := Nat.lt_of_not_le fun hmany => hroom ⟨hfirst, hmany⟩
            exact Or.inr hlt

/-- Where the types are not told apart, one of them is too long or there are too many of
    them, or the union does not exist anyway. -/
theorem distinctTypes_exact_error (harity : rules.maxUnionArity = arity)
    (hcapacity : rules.capacity = capacity) {fault : Fault} :
    ∀ {known : List Text} {done given : List Bytes},
      known.map BoundedText.bytes = done.eraseDups →
      done.length + children.length ≤ capacity →
      Unbounded.caseTypes arity children = some given →
      Default.distinctTypes rules.toSettings known (rules.caseViews children) = .error fault →
      ((∃ limit, fault = .textTooLong limit) ∧ ∃ type ∈ given, 511 < type.length) ∨
        (1 < (done ++ given).eraseDups.length ∧ arity < (done ++ given).eraseDups.length) := by
  induction children with
  | nil =>
    intro known done given _ _ _ h
    cases h
  | cons child rest ih =>
    obtain ⟨hchild, hrest⟩ := List.forall_mem_cons.1 hcases
    intro known done given hknown hroom hgiven h
    rw [Unbounded.caseTypes] at hgiven
    obtain ⟨bytes, hbytes, hgiven⟩ := Option.bind_eq_some_iff.1 hgiven
    obtain ⟨others, hothers, rfl⟩ := Option.map_eq_some_iff.1 hgiven
    rw [hbytes] at hchild
    rw [List.length_cons] at hroom
    rcases bind_eq_error_iff.1 h with htype | ⟨type, htype, h⟩
    · rw [htype] at hchild
      cases hchild with
      | tooLong hlong => exact Or.inl ⟨⟨_, rfl⟩, bytes, List.mem_cons_self, hlong⟩
    · rw [htype] at hchild
      obtain rfl := Option.some.inj (eq_of_exact_ok hchild)
      have hnext := map_bytes_concat hknown type
      have hassoc : done ++ type.bytes :: others = done ++ [type.bytes] ++ others := by
        rw [List.append_assoc, List.singleton_append]
      have hstep : ∀ {next : List Text},
          next.map BoundedText.bytes = (done ++ [type.bytes]).eraseDups →
          Default.distinctTypes rules.toSettings next (rules.caseViews rest) = .error fault →
          ((∃ limit, fault = .textTooLong limit) ∧
              ∃ long ∈ type.bytes :: others, 511 < long.length) ∨
            (1 < (done ++ type.bytes :: others).eraseDups.length ∧
              arity < (done ++ type.bytes :: others).eraseDups.length) := by
        intro next hsame hrun
        have hroom' : (done ++ [type.bytes]).length + rest.length ≤ capacity := by
          rw [List.length_append, List.length_singleton]
          omega
        rw [hassoc]
        refine (ih hrest hsame hroom' hothers hrun).imp_left ?_
        rintro ⟨hfault, long, hmem, hlong⟩
        exact ⟨hfault, long, List.mem_cons_of_mem _ hmem, hlong⟩
      by_cases hold : type ∈ known
      · rw [if_pos hold] at h hnext
        exact hstep hnext h
      · rw [if_neg hold] at h hnext
        have hcount : (done ++ [type.bytes]).eraseDups.length = known.length + 1 := by
          rw [← hnext, List.length_map, List.length_append, List.length_singleton]
        have hmore := length_eraseDups_append (done ++ [type.bytes]) others
        rw [← hassoc] at hmore
        split at h
        · next hwide =>
          -- the types known by then are among the distinct ones of all cases
          have hpos : 0 < known.length := List.length_pos_of_ne_nil hwide.1
          rw [harity] at hwide
          exact Or.inr ⟨by omega, by omega⟩
        · split at h
          · next hfull =>
            -- no more types are known than there are cases in front
            have hfew : known.length ≤ done.length := by
              rw [← List.length_map BoundedText.bytes, hknown]
              exact length_eraseDups_le done
            rw [hcapacity] at hfull
            omega
          · exact hstep hnext h

omit hcases

theorem Unbounded.unionOf_single {types : List Bytes} {only : Bytes}
    (h : types.eraseDups = [only]) : unionOf arity types = some only := by
  rw [unionOf, h]

theorem Unbounded.unionOf_many {types : List Bytes} (h : 1 < types.eraseDups.length) :
    unionOf arity types =
      if types.eraseDups.length ≤ arity then
        some (ascii "U" ++ decimal types.eraseDups.length ++ ascii "<" ++
          List.intercalate (ascii ", ") types.eraseDups ++ ascii ">")
      else
        none := by
  unfold unionOf
  split
  · next hnone => simp [hnone] at h
  · next only hone => simp [hone] at h
  · rfl

theorem length_le_intercalate (separator : Bytes) {items : List Bytes} :
    ∀ item ∈ items, item.length ≤ (List.intercalate separator items).length := by
  induction items with
  | nil => simp
  | cons first rest ih =>
    cases rest with
    | nil => simp
    | cons next rest =>
      rw [List.intercalate_cons_cons, List.length_append, List.length_append]
      refine List.forall_mem_cons.2 ⟨by omega, fun item hitem => ?_⟩
      have hle := ih item hitem
      omega

/-- A union is as long as any type in it. -/
theorem Unbounded.length_le_unionOf {types : List Bytes} {type text : Bytes} (hmem : type ∈ types)
    (htext : unionOf arity types = some text) : type.length ≤ text.length := by
  have hdistinct : type ∈ types.eraseDups := List.mem_eraseDups.2 hmem
  by_cases hmany : 1 < types.eraseDups.length
  · rw [unionOf_many hmany] at htext
    split at htext
    · cases htext
      have hjoined := length_le_intercalate (ascii ", ") type hdistinct
      simp only [List.length_append]
      omega
    · cases htext
  · obtain ⟨only, honly⟩ : ∃ only, types.eraseDups = [only] := by
      apply List.length_eq_one_iff.1
      have hpos := List.length_pos_of_mem hdistinct
      omega
    rw [unionOf_single honly] at htext
    cases htext
    rw [honly, List.mem_singleton] at hdistinct
    rw [hdistinct]

/-- The bytes of a union of several types. -/
def unionBytes (types : List Text) : Bytes :=
  ascii "U" ++ decimal types.length ++ ascii "<" ++
    List.intercalate (ascii ", ") (types.map BoundedText.bytes) ++ ascii ">"

/-- The text of a union says the types in it. -/
theorem wording_unionText (types : List Text) : wording (unionText types) = unionBytes types := by
  have hbytes : wording ∘ (fun type : Text => [.ok type.bytes]) = BoundedText.bytes := by
    funext type
    show type.bytes ++ [] = type.bytes
    rw [List.append_nil]
  simp only [unionText, unionBytes, List.cons_append, wording_ok_cons, wording_append,
    wording_joinPieces, List.map_map, hbytes, wording_nil, List.append_nil, List.append_assoc]

theorem unionText_exact (types : List Text) :
    Exact (some (unionBytes types)) (partPiece (BoundedText.render (unionText types))) := by
  rw [← wording_unionText]
  exact render_exact_of_ok (error_notMem_unionText types)

include hcases

/-- A union in line is exact if its cases are. -/
theorem innerUnion_exact (harity : rules.maxUnionArity = arity)
    (hcapacity : rules.capacity = capacity) (hroom : children.length ≤ capacity) :
    Exact ((Unbounded.caseTypes arity children).bind (Unbounded.unionOf arity))
      (partPiece (Default.innerUnion rules.toSettings (rules.caseViews children))) := by
  rw [Default.innerUnion]
  cases hrun : Default.distinctTypes rules.toSettings [] (rules.caseViews children) with
  | error fault =>
    show Exact _ (.error fault)
    cases hgiven : Unbounded.caseTypes arity children with
    | none => exact .none fault
    | some given =>
      show Exact (Unbounded.unionOf arity given) (.error fault)
      have hnone : ([] : List Text).map BoundedText.bytes = ([] : List Bytes).eraseDups := rfl
      -- a type that is too long is in the text of the union, also where it came up twice
      rcases distinctTypes_exact_error hcases harity hcapacity hnone (by simpa using hroom) hgiven
        hrun with ⟨⟨limit, rfl⟩, type, hmem, hlong⟩ | ⟨hmany, hwide⟩
      · cases htext : Unbounded.unionOf arity given with
        | none => exact .none (.textTooLong limit)
        | some text =>
          have hle := Unbounded.length_le_unionOf hmem htext
          exact .tooLong (by omega)
      · rw [List.nil_append] at hmany hwide
        rw [Unbounded.unionOf_many hmany, if_neg (by omega)]
        exact .none fault
  | ok types =>
    obtain ⟨given, hgiven, htypes, hfew⟩ := distinctTypes_exact_ok hcases harity
      (show ([] : List Text).map BoundedText.bytes = ([] : List Bytes).eraseDups from rfl)
      (Or.inl (Nat.zero_le 1)) hrun
    rw [hgiven]
    show Exact (Unbounded.unionOf arity given) (partPiece (Default.unionOf types))
    rw [List.nil_append] at htypes
    rcases types with _ | ⟨only, _ | ⟨second, others⟩⟩
    · have hempty : Unbounded.unionOf arity given = none := by
        rw [Unbounded.unionOf, ← htypes]
        rfl
      rw [hempty]
      exact .none .emptyUnion
    · rw [Unbounded.unionOf_single htypes.symm]
      exact .ok only.bytes
    · have hcount : given.eraseDups.length = (only :: second :: others).length := by
        rw [← htypes, List.length_map]
      have hlength : (only :: second :: others).length = others.length + 2 := rfl
      rw [Unbounded.unionOf_many (by omega), if_pos (by omega), hcount, ← htypes]
      exact unionText_exact _

end Unions

/-! ## Types in line -/

namespace Rules

open TypeTree

variable {capacity arity : Nat} {children : List TypeTree}

/-- The fields of a regular object are exact if they are as trees. -/
theorem fields_exact (hregular : TypeTree.Regular (.node .object children))
    (h : ∀ child ∈ children, Exact (Unbounded.nested arity child)
      (partPiece ((ofArity capacity arity).nested child))) :
    List.Forall₂ FieldExact (Unbounded.fields arity children)
      ((ofArity capacity arity).fieldViews children) := by
  rw [Unbounded.fields_eq_map, fieldViews_eq_map, List.forall₂_map_left_iff,
    List.forall₂_map_right_iff, List.forall₂_same]
  intro child hchild
  obtain ⟨name, optional, type, rfl, -, -⟩ := hregular.exists_field child hchild
  exact ⟨rfl, rfl, h (.field name optional type) hchild⟩

theorem name_le_of_mem_fields (hroom : (TypeTree.node .object children).HasRoom capacity) :
    ∀ ref ∈ Unbounded.fields arity children, ref.name.length ≤ nameLimit := by
  rw [Unbounded.fields_eq_map]
  intro ref href
  obtain ⟨child, hchild, rfl⟩ := List.mem_map.1 href
  exact (hroom.child child hchild).label_text_le

theorem length_fields_le (hroom : (TypeTree.node .object children).HasRoom capacity) :
    (Unbounded.fields arity children).length ≤ capacity := by
  rw [Unbounded.fields_eq_map, List.length_map]
  exact hroom.length_children_le

theorem caseType_exact {child : TypeTree} (h : Exact (Unbounded.nested arity child)
      (partPiece ((ofArity capacity arity).nested child))) :
    Exact (Unbounded.caseType child.label (Unbounded.nested arity child))
      (partPiece (Default.caseType (ofArity capacity arity).toSettings
        ⟨child.label, (ofArity capacity arity).nested child⟩)) := by
  unfold Unbounded.caseType Default.caseType
  by_cases hliteral : child.label.isLiteral = true
  · rw [if_pos hliteral, if_pos hliteral]
    exact atomic_exact ⟨.string, []⟩
  · rw [if_neg hliteral, if_neg hliteral]
    exact h

/-- The type expression for a tree with room is the one without a bound if that fits, and
    too long if it does not. -/
theorem nested_exact {tree : TypeTree} (hroom : tree.HasRoom capacity) :
    Exact (Unbounded.nested arity tree) (partPiece ((ofArity capacity arity).nested tree)) := by
  induction tree using TypeTree.induction with
  | node label children ih =>
    have hchild := fun child hmem => ih child hmem (hroom.child child hmem)
    cases label with
    | atomic type => exact atomic_exact type
    | object =>
      exact innerObject_exact (name_le_of_mem_fields hroom) (length_fields_le hroom) rfl
        (fields_exact hroom.regular hchild)
    | field name optional =>
      obtain ⟨type, rfl, -, -⟩ := hroom.regular.exists_only (Or.inr rfl)
      exact hchild type List.mem_cons_self
    | array =>
      obtain ⟨element, rfl, -, -⟩ := hroom.regular.exists_only (Or.inl rfl)
      exact render_exact (.cons (hchild element List.mem_cons_self) (.cons (.ok _) .nil))
    | union =>
      exact innerUnion_exact (fun child hmem => caseType_exact (hchild child hmem)) rfl rfl
        hroom.length_children_le

end Rules

/-! ## Signature texts -/

namespace Signature

theorem wording_quotedPieces (text : Bytes) :
    wording (quotedPieces text) = Unbounded.inQuotes text := by
  simp [quotedPieces, Unbounded.inQuotes]

theorem wording_pieces (tree : TypeTree) : wording (pieces tree) = Unbounded.signature tree := by
  induction tree using TypeTree.induction with
  | node label children ih =>
    have heach : (piecesEach children).map wording = Unbounded.signatures children := by
      clear label
      induction children with
      | nil => rfl
      | cons child rest ihRest =>
        obtain ⟨hchild, hrest⟩ := List.forall_mem_cons.1 ih
        rw [piecesEach, List.map_cons, hchild, ihRest hrest]
        rfl
    have hhead : wording (headPieces (piecesEach children)) =
        Unbounded.signatureHead children := by
      cases children with
      | nil => rfl
      | cons child rest => exact ih child List.mem_cons_self
    cases label with
    | atomic type =>
      obtain ⟨kind, text⟩ := type
      cases kind with
      | stringLiteral => exact wording_quotedPieces text
      | _ => exact List.append_nil _
    | array =>
      rw [pieces, List.cons_append, wording_ok_cons, wording_append, hhead,
        Unbounded.signature, List.append_assoc]
      rfl
    | union =>
      rw [pieces, wording_joinPieces, heach, Unbounded.signature]
    | object =>
      rw [pieces, List.cons_append, wording_ok_cons, wording_append, wording_joinPieces, heach,
        Unbounded.signature, List.append_assoc]
      rfl
    | field name optional =>
      have hname : wording (if isName name then [.ok name] else quotedPieces name) =
          if isName name then name else Unbounded.inQuotes name := by
        split
        · exact List.append_nil name
        · exact wording_quotedPieces name
      have hmark : wording (if optional then [.ok [Byte.questionMark]] else []) =
          if optional then [Byte.questionMark] else [] := by
        cases optional <;> rfl
      rw [pieces, fieldPieces, wording_append, wording_append, wording_append, hname, hmark,
        hhead, Unbounded.signature]
      rfl

/-- Each node of a regular tree can be written. -/
theorem error_notMem_pieces {tree : TypeTree} (hregular : tree.Regular) (fault : Fault) :
    .error fault ∉ pieces tree := by
  induction tree using TypeTree.induction with
  | node label children ih =>
    have hchild := fun child hmem => ih child hmem (hregular.child child hmem)
    have hjoined : ∀ separator, .error fault ∉ joinPieces separator (piecesEach children) := by
      intro separator hmem
      rcases mem_joinPieces hmem with hseparator | ⟨item, hitem, hpiece⟩
      · cases hseparator
      · rw [piecesEach_eq_map] at hitem
        obtain ⟨child, hmem, rfl⟩ := List.mem_map.1 hitem
        exact hchild child hmem hpiece
    cases label with
    | atomic type =>
      obtain ⟨kind, text⟩ := type
      cases kind <;> simp [pieces, atomicPieces, quotedPieces]
    | union => exact hjoined _
    | object => simp [pieces, hjoined]
    | array =>
      obtain ⟨element, rfl, -, -⟩ := hregular.exists_only (Or.inl rfl)
      simp [pieces, piecesEach, headPieces, hchild]
    | field name optional =>
      obtain ⟨type, rfl, -, -⟩ := hregular.exists_only (Or.inr rfl)
      have hname : .error fault ∉ fieldPieces name optional := by
        unfold fieldPieces
        cases isName name <;> cases optional <;> simp [quotedPieces]
      simp [pieces, piecesEach, headPieces, hchild, hname]

/-- The signature text of a regular tree is the one without a bound if that fits, and too
    long if it does not. -/
theorem write_exact {tree : TypeTree} (hregular : tree.Regular) :
    Exact (some (Unbounded.signature tree)) (partPiece (write tree)) := by
  rw [← wording_pieces]
  exact render_exact_of_ok (error_notMem_pieces hregular)

end Signature

end TypeSig
