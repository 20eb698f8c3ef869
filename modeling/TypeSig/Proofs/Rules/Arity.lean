/-
  TypeSig.Proofs.Rules.Arity

  How many types a union in line may have. The default rule takes the cases one by
  one and keeps the types that are new, so after any number of cases it knows their
  distinct types in the order in which they first came, unless there were more of them
  than it may keep (`distinctTexts_eq`). One type may always be kept, as a union of a
  single type is no union.

  What the rule comes to depends on the order of its faults: a case that cannot be
  rendered stops it, unless it was stopped before by a type too many
  (`distinctTexts_eq_error_of_case`).

  How a case is rendered makes no difference, and neither does the way in which that may
  fail, so all of this is said of texts that are rendered somehow and of any bundle
  (`Bundle.unionRule`). The rule of the library is the case in which the other rules see
  what became of the parts of a node (`Rules.bundle_innerUnion`).

  Main statement: `StoredTree.nested_union_arity`, for every bundle of rules in which
  the rule for unions in line is the default one.
-/

import TypeSig.Proofs.Rules.Bundle
import TypeSig.Proofs.Rules.Exact
import TypeSig.Proofs.Rules.Repeats

namespace TypeSig

variable {Failure : Type}

/-! ## Telling texts apart -/

namespace Default

/-- The distinct ones of texts that are rendered one by one, behind those that are known. -/
def distinctTexts (raise : Fault → Failure) (capacity arity : Nat) (known : List Text) :
    List (Except Failure Text) → Except Failure (List Text)
  | [] => .ok known
  | rendered :: rest => do
    let type ← rendered
    if known.contains type then
      distinctTexts raise capacity arity known rest
    else if known ≠ [] ∧ arity ≤ known.length then
      .error (raise (.unsupportedArity arity))
    else if capacity ≤ known.length then
      .error (raise .tooManyCases)
    else
      distinctTexts raise capacity arity (known ++ [type]) rest

/-- The default rule tells the types of its cases apart. -/
theorem distinctTypes_eq_distinctTexts (settings : Settings) (cases : List CaseView) :
    ∀ known : List Text, distinctTypes settings known cases =
      distinctTexts id settings.capacity settings.maxUnionArity known
        (cases.map (caseType settings)) := by
  induction cases with
  | nil => exact fun _ => rfl
  | cons case rest ih =>
    intro known
    simp only [distinctTypes, List.map_cons, distinctTexts, List.contains_iff_mem, ih, id]

/-- The most types that a union may have. A single one is always allowed. -/
def typeLimit (arity : Nat) : Nat :=
  max arity 1

variable {raise : Fault → Failure} {capacity arity : Nat}

/-- A new type is one too many if as many as allowed are known. -/
theorem typeLimit_le_iff {known : List Text} :
    typeLimit arity ≤ known.length ↔ known ≠ [] ∧ arity ≤ known.length := by
  rw [typeLimit, Nat.max_le, ← List.length_pos_iff]
  exact and_comm

/-- Texts that are all rendered are told apart if there are not too many distinct ones,
    counting those in front. -/
theorem distinctTexts_eq (texts : List Text) :
    ∀ {done : List Text}, done.eraseDups.length ≤ typeLimit arity →
      done.length + texts.length ≤ capacity →
      distinctTexts raise capacity arity done.eraseDups (texts.map .ok) =
        if (done ++ texts).eraseDups.length ≤ typeLimit arity then
          .ok (done ++ texts).eraseDups
        else
          .error (raise (.unsupportedArity arity)) := by
  induction texts with
  | nil =>
    intro done hfew _
    rw [List.append_nil, if_pos hfew]
    rfl
  | cons type texts ih =>
    intro done hfew hroom
    rw [List.length_cons] at hroom
    have hnext := eraseDups_append_singleton done type
    have hassoc : done ++ type :: texts = done ++ [type] ++ texts := by
      rw [List.append_assoc, List.singleton_append]
    have hroom' : (done ++ [type]).length + texts.length ≤ capacity := by
      rw [List.length_append, List.length_singleton]
      omega
    simp only [List.map_cons, distinctTexts, List.contains_iff_mem, bind, Except.bind]
    rw [hassoc]
    by_cases hold : type ∈ done.eraseDups
    · rw [if_pos hold] at hnext ⊢
      rw [← hnext] at hfew ⊢
      exact ih hfew hroom'
    · rw [if_neg hold] at hnext ⊢
      have hcount : (done ++ [type]).eraseDups.length = done.eraseDups.length + 1 := by
        rw [hnext, List.length_append, List.length_singleton]
      by_cases hwide : typeLimit arity ≤ done.eraseDups.length
      · -- the types known by now and this one are among the distinct ones of all cases
        have hmore := length_eraseDups_append (done ++ [type]) texts
        rw [if_pos (typeLimit_le_iff.1 hwide), if_neg (by omega)]
      · -- no more types are known than there were cases
        have hkept := length_eraseDups_le done
        rw [if_neg fun hmany => hwide (typeLimit_le_iff.2 hmany), if_neg (by omega), ← hnext]
        exact ih (by omega) hroom'

theorem distinctTexts_of_texts {texts : List Text} (hroom : texts.length ≤ capacity) :
    distinctTexts raise capacity arity [] (texts.map .ok) =
      if texts.eraseDups.length ≤ typeLimit arity then
        .ok texts.eraseDups
      else
        .error (raise (.unsupportedArity arity)) := by
  have hfrom := @distinctTexts_eq Failure raise capacity arity texts [] (Nat.zero_le _)
    (by rwa [List.length_nil, Nat.zero_add])
  rwa [List.eraseDups_nil, List.nil_append] at hfrom

theorem distinctTexts_append (front more : List (Except Failure Text)) :
    ∀ known : List Text, distinctTexts raise capacity arity known (front ++ more) =
      distinctTexts raise capacity arity known front >>= fun types =>
        distinctTexts raise capacity arity types more := by
  induction front with
  | nil => exact fun _ => rfl
  | cons rendered rest ih =>
    intro known
    simp only [List.cons_append, distinctTexts, bind_assoc]
    refine bind_congr fun type => ?_
    split
    · exact ih known
    · split
      · rfl
      · split
        · rfl
        · exact ih _

/-- The first case that is not rendered stops the rule, unless there was a type too many
    before. -/
theorem distinctTexts_eq_error_of_case {texts : List Text} {failure : Failure}
    (hroom : texts.length ≤ capacity) (after : List (Except Failure Text)) :
    distinctTexts raise capacity arity [] (texts.map .ok ++ .error failure :: after) =
      .error (if typeLimit arity < texts.eraseDups.length then
        raise (.unsupportedArity arity) else failure) := by
  rw [distinctTexts_append, distinctTexts_of_texts hroom]
  by_cases hfew : texts.eraseDups.length ≤ typeLimit arity
  · rw [if_pos hfew, if_neg (Nat.not_lt.2 hfew)]
    rfl
  · rw [if_neg hfew, if_pos (Nat.lt_of_not_le hfew)]
    rfl

/-- A union of several types is its text if that fits, and too long if it does not. -/
theorem unionOf_eq {types : List Text} (h : 2 ≤ types.length) :
    (∀ hfits : (unionBytes types).length ≤ 511, unionOf types = .ok ⟨unionBytes types, hfits⟩) ∧
      (511 < (unionBytes types).length → unionOf types = .error (.textTooLong 511)) := by
  have hunion : unionOf types = BoundedText.render (unionText types) := by
    rcases types with _ | ⟨only, _ | ⟨second, others⟩⟩
    · simp at h
    · simp at h
    · rfl
  rw [hunion, ← wording_unionText]
  refine ⟨fun hfits => ?_, BoundedText.render_of_lt (error_notMem_unionText types)⟩
  obtain ⟨text, htext, hbytes⟩ := BoundedText.exists_render (error_notMem_unionText types) hfits
  rw [htext]
  exact congrArg Except.ok (BoundedText.ext hbytes)

end Default

/-! ## Unions in line -/

/-- The default rule for unions in line, as a rule of a bundle. -/
def Bundle.unionRule (bundle : Bundle Failure) (union : StoredTree) : Except Failure Text := do
  let types ← Default.distinctTexts bundle.raise bundle.capacity bundle.maxUnionArity []
    (union.children.map bundle.caseText)
  (Default.unionOf types).mapError bundle.raise

namespace Rules

variable {rules : Rules}

/-- The type expression for a case of a union: that for strings if it is a literal. -/
def caseText (rules : Rules) (case : TypeTree) : Except Fault Text :=
  if case.label.isLiteral then rules.atomic ⟨.string, []⟩ else rules.nested case

theorem map_caseType_caseViews (cases : List TypeTree) :
    (rules.caseViews cases).map (Default.caseType rules.toSettings) =
      cases.map rules.caseText := by
  rw [caseViews_eq_map, List.map_map]
  rfl

theorem bundle_caseText {stored : StoredTree} {case : TypeTree} (h : stored.tree? = some case) :
    rules.bundle.caseText stored = rules.caseText case := by
  obtain ⟨label, below⟩ := case
  rw [Bundle.caseText, StoredTree.label?_eq h, nested_bundle h]
  rfl

/-- The cases of a stored union are rendered as those of the tree. -/
theorem map_bundle_caseText {stored : StoredTree} {label : Label} {cases : List TypeTree}
    (h : stored.tree? = some (.node label cases)) :
    stored.children.map rules.bundle.caseText = cases.map rules.caseText := by
  have htrees := StoredTree.tree?_children h
  rw [← List.forall₂_eq_eq_eq, List.forall₂_map_left_iff, List.forall₂_map_right_iff] at htrees ⊢
  exact htrees.imp fun _ _ hcase => bundle_caseText hcase

/-- Rules with the default rule for unions in line are a bundle with that rule. -/
theorem bundle_innerUnion (hinner : rules.innerUnion = Default.innerUnion) {stored : StoredTree}
    {cases : List TypeTree} (h : stored.tree? = some (.union cases)) :
    rules.bundle.innerUnion stored = rules.bundle.unionRule stored := by
  have hrule : rules.bundle.innerUnion stored =
      Default.innerUnion rules.toSettings (rules.caseViews cases) := by
    simp only [bundle, StoredTree.requireTree_of_tree? h, hinner]
    rfl
  have hraise : ∀ result : Except Fault Text, result.mapError id = result := by
    rintro (_ | _) <;> rfl
  rw [hrule, Default.innerUnion, Default.distinctTypes_eq_distinctTexts, map_caseType_caseViews,
    Bundle.unionRule, map_bundle_caseText h]
  show _ = Default.distinctTexts id _ _ [] _ >>= fun types => (Default.unionOf types).mapError id
  simp only [hraise]
  rfl

end Rules

/-! ## Stored trees -/

namespace StoredTree

open Default

/-- A union in line at any node, under any bundle in which the rule for it is the default
    one, whatever the other rules make of the cases and however they fail. Without a case
    there is no type. If all cases are rendered, their distinct types decide, in the order
    in which they first come: a single one is the type of the union whatever arity unions
    may have; more than the arity allows are a fault; and otherwise they stand side by side
    in a text, if that is not too long. A case that is not rendered is reported if it is
    the first such case and if the cases in front have no type too many. The cases are the
    children of the node, which are the roots of the cases of its tree. All rules that the
    library is run with, if the rule for unions in line is the default one, are such a
    bundle. -/
theorem nested_union_arity {union : StoredTree} {cases : List TypeTree}
    (htree : union.tree? = some (.union cases)) :
    (∀ (Failure : Type) (bundle : Bundle Failure), union.arena.size ≤ bundle.capacity →
      bundle.innerUnion union = bundle.unionRule union →
      (union.children = [] → bundle.nested union = .error (bundle.raise .emptyUnion)) ∧
      (∀ texts : List Text, union.children.map bundle.caseText = texts.map .ok →
        (∀ only, texts.eraseDups = [only] → bundle.nested union = .ok only) ∧
        (2 ≤ texts.eraseDups.length → texts.eraseDups.length ≤ bundle.maxUnionArity →
          (∀ hfits : (unionBytes texts.eraseDups).length ≤ 511,
            bundle.nested union = .ok ⟨unionBytes texts.eraseDups, hfits⟩) ∧
          (511 < (unionBytes texts.eraseDups).length →
            bundle.nested union = .error (bundle.raise (.textTooLong 511)))) ∧
        (2 ≤ texts.eraseDups.length → bundle.maxUnionArity < texts.eraseDups.length →
          bundle.nested union =
            .error (bundle.raise (.unsupportedArity bundle.maxUnionArity)))) ∧
      ∀ (before after : List StoredTree) (case : StoredTree) (texts : List Text)
        (failure : Failure), union.children = before ++ case :: after →
        before.map bundle.caseText = texts.map .ok → bundle.caseText case = .error failure →
        bundle.nested union = .error
          (if max bundle.maxUnionArity 1 + 1 ≤ texts.eraseDups.length then
            bundle.raise (.unsupportedArity bundle.maxUnionArity) else failure)) ∧
    union.children.map tree? = cases.map some ∧
    ∀ rules : Rules, rules.innerUnion = Default.innerUnion →
      union.nested rules = rules.bundle.nested union ∧
      rules.bundle.innerUnion union = rules.bundle.unionRule union ∧
      union.children.map rules.bundle.caseText = cases.map rules.caseText := by
  refine ⟨fun Failure bundle hsize hinner => ?_, tree?_children htree, fun rules hinner =>
    ⟨by rw [nested_eq_of_tree? htree, Rules.nested_bundle htree],
      Rules.bundle_innerUnion hinner htree, Rules.map_bundle_caseText htree⟩⟩
  have hroom : union.children.length ≤ bundle.capacity :=
    Nat.le_trans (length_children_le htree) hsize
  have hnested : bundle.nested union = bundle.unionRule union := by
    rw [Bundle.nested, Bundle.nestedWithin, label?_eq htree]
    exact hinner
  rw [hnested, Bundle.unionRule]
  refine ⟨fun hempty => ?_, fun texts htexts => ?_,
    fun before after case texts failure hcases htexts hcase => ?_⟩
  · rw [hempty]
    rfl
  · have hone : 1 ≤ typeLimit bundle.maxUnionArity := Nat.le_max_right _ _
    have hlength : texts.length = union.children.length := by
      simpa using congrArg List.length htexts.symm
    rw [htexts, distinctTexts_of_texts (hlength ▸ hroom)]
    refine ⟨fun only honly => ?_, fun hmany hfew => ?_, fun hmany hwide => ?_⟩
    · rw [honly, if_pos (by simpa using hone)]
      rfl
    · have hallowed : texts.eraseDups.length ≤ typeLimit bundle.maxUnionArity :=
        Nat.le_trans hfew (Nat.le_max_left _ _)
      rw [if_pos hallowed]
      obtain ⟨hok, herror⟩ := unionOf_eq hmany
      refine ⟨fun hfits => ?_, fun hlong => ?_⟩
      · simp only [bind, Except.bind, hok hfits]
        rfl
      · simp only [bind, Except.bind, herror hlong]
        rfl
    · -- several types are more than the one that is always allowed
      have hrefused : ¬ texts.eraseDups.length ≤ typeLimit bundle.maxUnionArity := by
        rw [typeLimit]
        omega
      rw [if_neg hrefused]
      rfl
  · have hlength : texts.length = before.length := by
      simpa using congrArg List.length htexts.symm
    rw [hcases, List.length_append] at hroom
    rw [hcases, List.map_append, List.map_cons, htexts, hcase,
      distinctTexts_eq_error_of_case (by omega)]
    rfl

/-- An arena that holds a union of a literal, an array of numbers and an array of strings. -/
def literalOrArrays : StoredTree :=
  ⟨⟨[⟨.atomic ⟨.stringLiteral, ascii "a"⟩, none, some 2, 0⟩,
    .leaf (.atomic ⟨.number, []⟩), ⟨.array, some 1, some 4, 1⟩,
    .leaf (.atomic ⟨.string, []⟩), ⟨.array, some 3, none, 1⟩,
    ⟨.union, some 0, none, 3⟩]⟩, some 5⟩

/-- Rules of which the one for arrays looks at the element: only arrays of numbers have a
    type, and others fail with a message of their own. -/
def onlyNumberArrays (arity : Nat) : Bundle (Fault ⊕ Bytes) :=
  let rules : Bundle (Fault ⊕ Bytes) := {
    capacity := 6
    maxUnionArity := arity
    raise := .inl
    atomic type := (Default.atomic type).mapError .inl
    innerObject _ := .error (.inr (ascii "an object"))
    innerUnion _ := .error (.inr (ascii "a union in a union"))
    innerArray element :=
      if element.label? = some (.atomic ⟨.number, []⟩) then .ok ⟨ascii "floats", by decide⟩
      else .error (.inr (ascii "an array")) }
  { rules with innerUnion := rules.unionRule }

theorem nested_union_arity_sample :
    (∃ cases, literalOrArrays.tree? = some (.union cases)) ∧ literalOrArrays.arena.size ≤ 6 ∧
      (∀ arity ∈ [1, 2], (onlyNumberArrays arity).innerUnion literalOrArrays =
        (onlyNumberArrays arity).unionRule literalOrArrays) ∧
      (onlyNumberArrays 2).nested literalOrArrays = .error (.inr (ascii "an array")) ∧
      (onlyNumberArrays 1).nested literalOrArrays = .error (.inl (.unsupportedArity 1)) ∧
      literalOrArrays.nested (.standard 6) =
        .ok ⟨ascii "U3<string, float [], string []>", by decide⟩ := by
  have htree : literalOrArrays.tree? = some (.union [.atomic .stringLiteral (ascii "a"),
      .array (.atomic .number []), .array (.atomic .string [])]) := by decide
  have hsize : literalOrArrays.arena.size ≤ 6 := by decide
  have hinner : ∀ arity ∈ [1, 2], (onlyNumberArrays arity).innerUnion literalOrArrays =
      (onlyNumberArrays arity).unionRule literalOrArrays := by decide
  obtain ⟨hlaw, -, hrules⟩ := nested_union_arity htree
  -- the literal widens, and the second array is the case that fails
  have hfailure : ∀ arity ∈ [1, 2], (onlyNumberArrays arity).nested literalOrArrays =
      .error (if max arity 1 + 1 ≤ 2 then .inl (.unsupportedArity arity)
        else .inr (ascii "an array")) := by
    intro arity harity
    refine (hlaw _ (onlyNumberArrays arity) hsize (hinner arity harity)).2.2
      [⟨literalOrArrays.arena, some 0⟩, ⟨literalOrArrays.arena, some 2⟩] []
      ⟨literalOrArrays.arena, some 4⟩ [⟨ascii "string", by decide⟩, ⟨ascii "floats", by decide⟩]
      (.inr (ascii "an array")) (by decide) ?_ ?_
    all_goals revert arity; decide
  obtain ⟨hnested, hunion, hcases⟩ := hrules (.standard 6) rfl
  have htypes := (hlaw _ (Rules.standard 6).bundle hsize hunion).2.1
    [⟨ascii "string", by decide⟩, ⟨ascii "float []", by decide⟩, ⟨ascii "string []", by decide⟩]
    hcases
  refine ⟨⟨_, htree⟩, hsize, hinner, hfailure 2 (by decide), hfailure 1 (by decide), ?_⟩
  rw [hnested]
  exact (htypes.2.1 (by decide) (by decide)).1 (by decide)

end StoredTree

end TypeSig
