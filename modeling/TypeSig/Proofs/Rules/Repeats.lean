/-
  TypeSig.Proofs.Rules.Repeats

  Cases of a union that are equal to an earlier case, and unions of a single case. A
  rule for unions takes one case after the other; once it took a case, the same case
  leaves things as they are, whatever was taken in between (`Absorbing`). So the
  repeated cases may as well be dropped beforehand, as the reader does
  (`nested_union_eraseDups`, `topLevel_union_eraseDups`).

  An outermost union of a single case puts the overloads of the case into a list of
  its own. It gets them back, because every rule gives a proper list
  (`topLevel_isProper`).

  Main statement: `Construction.outputs_eq_of_distinctCases`, where cases are compared
  in the arena, as the reader compares them.
-/

import TypeSig.Proofs.Rules.Layout
import TypeSig.Proofs.Rules.Proper
import TypeSig.Proofs.Signature.Grammar

namespace TypeSig

/-! ## Loops that pass over what they have met -/

section Loops

variable {σ ε α β : Type} {step : σ → β → Except ε σ} {Absorbed : σ → β → Prop}

/-- A value that was taken is absorbed and stays so, and one that is absorbed changes
    nothing. -/
structure Absorbing (step : σ → β → Except ε σ) (Absorbed : σ → β → Prop) : Prop where
  skip : ∀ {s : σ} {x : β}, Absorbed s x → step s x = .ok s
  take : ∀ {s t : σ} {x : β}, step s x = .ok t → Absorbed t x
  keep : ∀ {s t : σ} {x y : β}, Absorbed s x → step s y = .ok t → Absorbed t x

/-- A run absorbs all that it takes, and goes on absorbing what it absorbed before. -/
theorem Absorbing.of_foldlM (h : Absorbing step Absorbed) {xs : List β} {s t : σ}
    (hrun : xs.foldlM step s = .ok t) {x : β} (hx : Absorbed s x ∨ x ∈ xs) : Absorbed t x := by
  induction xs generalizing s with
  | nil =>
    cases hrun
    exact hx.resolve_right List.not_mem_nil
  | cons y ys ih =>
    rw [List.foldlM_cons] at hrun
    obtain ⟨next, hstep, hrest⟩ := bind_eq_ok_iff.1 hrun
    refine ih hrest ?_
    rcases hx with hx | hx
    · exact .inl (h.keep hx hstep)
    · rcases List.mem_cons.1 hx with rfl | hx
      · exact .inl (h.take hstep)
      · exact .inr hx

/-- Repeated values may as well be dropped before a run over what they are seen as. -/
theorem Absorbing.foldlM_eraseDups [DecidableEq α] (h : Absorbing step Absorbed) (view : α → β)
    (xs : List α) (s : σ) :
    (xs.eraseDups.map view).foldlM step s = (xs.map view).foldlM step s := by
  induction xs using List.reverseRecOn with
  | nil => rfl
  | append_singleton xs x ih =>
    rw [eraseDups_append_singleton, List.map_append, List.foldlM_append, ← ih]
    split
    · next hold =>
      -- the run over the others absorbs the last value, or fails before it comes to it
      cases hrun : (xs.eraseDups.map view).foldlM step s with
      | error fault => rfl
      | ok t =>
        have hlast := h.skip (h.of_foldlM hrun (.inr (List.mem_map_of_mem hold)))
        exact (bind_eq_ok_iff.2 ⟨t, hlast, rfl⟩).symm
    · rw [List.map_append, List.foldlM_append]

end Loops

/-! ## The default rules for unions -/

namespace Default

/-- One more case of a union in line. -/
def distinctStep (settings : Settings) (known : List Text) (case : CaseView) :
    Except Fault (List Text) :=
  distinctTypes settings known [case]

theorem distinctTypes_eq_foldlM (settings : Settings) (known : List Text)
    (cases : List CaseView) :
    distinctTypes settings known cases = cases.foldlM (distinctStep settings) known := by
  induction cases generalizing known with
  | nil => rfl
  | cons case rest ih =>
    simp only [List.foldlM_cons, distinctStep, distinctTypes, bind_assoc]
    refine bind_congr fun type => ?_
    split
    · exact ih known
    · split
      · rfl
      · split
        · rfl
        · exact ih _

/-- The type of a case is known afterwards, and so are the types that were known before. -/
theorem distinctStep_eq_ok {settings : Settings} {known next : List Text}
    {case : CaseView} (h : distinctStep settings known case = .ok next) :
    ∃ type, caseType settings case = .ok type ∧ type ∈ next ∧ known ⊆ next := by
  obtain ⟨type, htype, h⟩ := bind_eq_ok_iff.1 h
  refine ⟨type, htype, ?_⟩
  split at h
  · next hold =>
    cases h
    exact ⟨hold, List.Subset.refl known⟩
  · split at h
    · cases h
    · split at h
      · cases h
      · cases h
        exact ⟨List.mem_append_right _ List.mem_cons_self, List.subset_append_left _ _⟩

theorem distinctStep_absorbing (settings : Settings) :
    Absorbing (distinctStep settings) fun known case =>
      ∃ type, caseType settings case = .ok type ∧ type ∈ known where
  skip := by
    rintro known case ⟨type, htype, hmem⟩
    rw [distinctStep, distinctTypes, htype]
    exact if_pos hmem
  take := by
    intro known next case h
    obtain ⟨type, htype, hmem, -⟩ := distinctStep_eq_ok h
    exact ⟨type, htype, hmem⟩
  keep := by
    rintro known next case other ⟨type, htype, hmem⟩ h
    obtain ⟨_, -, -, hsubset⟩ := distinctStep_eq_ok h
    exact ⟨type, htype, hsubset hmem⟩

/-- One more case of an outermost union. -/
def collectStep (capacity : Nat) (list : OverloadList) (case : CaseOverloads) :
    Except Fault OverloadList :=
  collect capacity list [case]

theorem collect_eq_foldlM (capacity : Nat) (list : OverloadList) (cases : List CaseOverloads) :
    collect capacity list cases = cases.foldlM (collectStep capacity) list := by
  induction cases generalizing list with
  | nil => rfl
  | cons case rest ih =>
    simp only [List.foldlM_cons, collectStep, collect, bind_assoc]
    exact bind_congr fun items => bind_congr fun list => ih list

theorem collectStep_eq_ok {capacity : Nat} {list next : OverloadList}
    {case : CaseOverloads} (h : collectStep capacity list case = .ok next) :
    ∃ items, caseItems case = .ok items ∧ list.extend capacity items = .ok next := by
  obtain ⟨items, hitems, h⟩ := bind_eq_ok_iff.1 h
  obtain ⟨_, hextend, h⟩ := bind_eq_ok_iff.1 h
  cases h
  exact ⟨items, hitems, hextend⟩

theorem collectStep_absorbing (capacity : Nat) :
    Absorbing (collectStep capacity) fun list case =>
      ∃ items, caseItems case = .ok items ∧ ∀ x ∈ items, list.contains x = true where
  skip := by
    rintro list case ⟨items, hitems, hall⟩
    have hsame : list.extend capacity items = .ok list := OverloadList.extend_of_contains hall
    exact bind_eq_ok_iff.2 ⟨items, hitems, bind_eq_ok_iff.2 ⟨list, hsame, rfl⟩⟩
  take := by
    intro list next case h
    obtain ⟨items, hitems, hextend⟩ := collectStep_eq_ok h
    exact ⟨items, hitems, OverloadList.contains_of_mem_extend hextend⟩
  keep := by
    rintro list next case other ⟨items, hitems, hall⟩ h
    obtain ⟨_, -, hextend⟩ := collectStep_eq_ok h
    exact ⟨items, hitems, fun x hx => OverloadList.contains_of_extend hextend (hall x hx)⟩

end Default

/-! ## Unions of trees -/

namespace Rules

variable {custom : Customization} {capacity : Nat}

theorem nested_customUnion (cases : List TypeTree) :
    (custom.rules capacity).nested (.union cases) =
      custom.innerUnion.apply (custom.rules capacity).toSettings
        (cases.map fun case => ⟨case.label, (custom.rules capacity).nested case⟩) := by
  rw [← caseViews_eq_map]
  rfl

theorem topLevel_customUnion (cases : List TypeTree) :
    (custom.rules capacity).topLevel (.union cases) =
      custom.topLevelUnion.apply (custom.rules capacity).toSettings
        ⟨(custom.rules capacity).nested (.union cases),
          cases.map fun case => ⟨case.label, (custom.rules capacity).topLevel case⟩⟩ := by
  rw [← caseOverloads_eq_map]
  rfl

/-! ### Repeated cases -/

/-- In line, a union is what it is without the cases that are repeated. -/
theorem nested_union_eraseDups (cases : List TypeTree) :
    (custom.rules capacity).nested (.union cases.eraseDups) =
      (custom.rules capacity).nested (.union cases) := by
  simp only [nested_customUnion]
  cases custom.innerUnion with
  | standard =>
    simp only [InnerUnionRule.apply, Default.innerUnion, Default.distinctTypes_eq_foldlM,
      (Default.distinctStep_absorbing _).foldlM_eraseDups]
  | firstCase =>
    -- the first case is never dropped
    cases cases with
    | nil => rfl
    | cons case rest => rw [List.eraseDups_cons]; rfl

/-- So is an outermost one. -/
theorem topLevel_union_eraseDups (cases : List TypeTree) :
    (custom.rules capacity).topLevel (.union cases.eraseDups) =
      (custom.rules capacity).topLevel (.union cases) := by
  simp only [topLevel_customUnion, nested_union_eraseDups]
  cases custom.topLevelUnion with
  | standard =>
    simp only [TopLevelUnionRule.apply, Default.topLevelUnion, Default.collect_eq_foldlM,
      (Default.collectStep_absorbing _).foldlM_eraseDups]
  | unionAsValue => rfl

/-! ### A single case -/

/-- In line, a union of a single case that is no literal is that case. -/
theorem nested_union_single {case : TypeTree} (hcapacity : 0 < capacity)
    (hliteral : case.label.isLiteral = false) :
    (custom.rules capacity).nested (.union [case]) = (custom.rules capacity).nested case := by
  rw [nested_customUnion]
  cases custom.innerUnion with
  | firstCase => rfl
  | standard =>
    have hroom : ¬ (custom.rules capacity).capacity ≤ 0 := Nat.not_le.2 hcapacity
    simp only [InnerUnionRule.apply, Default.innerUnion, Default.distinctTypes, Default.caseType,
      List.map_cons, List.map_nil, hliteral]
    cases (custom.rules capacity).nested case with
    | error fault => rfl
    | ok type => simp [bind, Except.bind, hroom, Default.unionOf]

/-- By the default rule, an outermost union of a single case that is no literal is that
    case: the overloads of the case make the list that they came in. -/
theorem topLevel_union_single (hstandard : custom.topLevelUnion = .standard) {case : TypeTree}
    (hliteral : case.label.isLiteral = false) :
    (custom.rules capacity).topLevel (.union [case]) = (custom.rules capacity).topLevel case := by
  have hnone : case.label.literal? = none := by simpa [Label.isLiteral] using hliteral
  simp only [topLevel_customUnion, hstandard, TopLevelUnionRule.apply, Default.topLevelUnion,
    Default.collect, Default.caseItems, List.map_cons, List.map_nil, hnone]
  cases hcase : (custom.rules capacity).topLevel case with
  | error fault => rfl
  | ok list =>
    have hagain : OverloadList.extend capacity .empty list.items = .ok list :=
      (topLevel_isProper case hcase).ofList_items
    exact bind_eq_ok_iff.2 ⟨list.items, rfl, bind_eq_ok_iff.2 ⟨list, hagain, rfl⟩⟩

end Rules

/-! ## Unions in an arena -/

/-- A new case is put behind others unless its tree is there already. -/
theorem Arena.SpansEach.insertCase {a : Arena} {kept ids more : List Nat} {new : Nat}
    {known : List TypeTree} {tree : TypeTree} (h : a.SpansEach kept known.eraseDups ids)
    (hnew : a.Spans new tree more) :
    ∃ all, a.SpansEach (Signature.insertCase a kept new) (known ++ [tree]).eraseDups all := by
  rw [eraseDups_append_singleton, Signature.insertCase]
  by_cases hold : tree ∈ known.eraseDups
  · rw [if_pos hold, if_pos ((h.any_sameTree hnew).2 hold)]
    exact ⟨ids, h⟩
  · rw [if_neg hold, if_neg fun hany => hold ((h.any_sameTree hnew).1 hany)]
    exact ⟨_, h.append (.single hnew)⟩

/-- Of cases that are taken in one after the other, those stay whose tree is new. -/
theorem Arena.SpansEach.foldl_insertCase {a : Arena} {new more : List Nat}
    {trees : List TypeTree} (hnew : a.SpansEach new trees more) {kept ids : List Nat}
    {known : List TypeTree} (h : a.SpansEach kept known.eraseDups ids) :
    ∃ all, a.SpansEach (new.foldl (Signature.insertCase a) kept) (known ++ trees).eraseDups
      all := by
  induction hnew generalizing kept known ids with
  | nil => exact ⟨ids, by simpa using h⟩
  | cons hs _ ih =>
    obtain ⟨_, hstep⟩ := h.insertCase hs
    simpa using ih hstep

namespace Construction

/-- A node is a union of the nodes that it was given. -/
def IsUnion (c : Construction) (id : Nat) (cases : List Nat) : Prop :=
  (c.arena.node? id).map Node.label = some .union ∧ c.given[id]? = some cases

instance (c : Construction) (id : Nat) (cases : List Nat) : Decidable (c.IsUnion id cases) :=
  inferInstanceAs (Decidable (_ ∧ _))

theorem IsUnion.holds {capacity : Nat} {c : Construction} (h : c.Reachable capacity) {id : Nat}
    {cases : List Nat} (hunion : c.IsUnion id cases) :
    ∃ trees ids, c.arena.SpansEach cases trees ids ∧ c.arena.Holds id (.union trees) := by
  obtain ⟨hlabel, hgiven⟩ := hunion
  obtain ⟨node, trees, ids, hnode, heach, hholds⟩ := h.exists_holds hgiven
  rw [hnode] at hlabel
  rw [Option.some.inj hlabel] at hholds
  exact ⟨trees, ids, heach, hholds⟩

theorem IsUnion.holds_single {capacity : Nat} {c : Construction} (h : c.Reachable capacity)
    {id only : Nat} (hunion : c.IsUnion id [only]) {node : Node}
    (hnode : c.arena.node? only = some node) :
    ∃ case, case.label = node.label ∧ c.arena.Holds only case ∧
      c.arena.Holds id (.union [case]) := by
  obtain ⟨trees, _, heach, hholds⟩ := hunion.holds h
  obtain ⟨case, hcase⟩ := h.exists_tree (Arena.node?_lt hnode)
  have htree := hcase.tree?_eq
  cases heach with
  | cons hs hrest =>
    cases hrest
    obtain rfl := Option.some.inj (htree.symm.trans hs.tree?_eq)
    obtain ⟨label, children⟩ := case
    obtain ⟨⟨_, hfound, hlabel⟩, -⟩ := Arena.tree?_eq_some htree
    obtain rfl := Option.some.inj (hnode.symm.trans hfound)
    exact ⟨.node label children, hlabel.symm, hcase, hholds⟩

/-- Dropping repeated cases does not change what a union means. Let the cases of a union
    be taken in one after the other, each unless it is found equal to one of those that
    are there. A union of equal cases, in the same arena or another one, has the same
    type expression and the same overloads, or the same fault, under every
    customization. A union of a single case that is no string literal has the type
    expression of that case, whatever arity unions may have, and its overloads if the
    rule for outermost unions is the default one. -/
theorem outputs_eq_of_distinctCases {capacity : Nat} {s : Construction}
    (hs : s.Reachable capacity) {u : Nat} {cases : List Nat} (hu : s.IsUnion u cases)
    (custom : Customization) :
    (∀ (t : Construction) (v : Nat) (kept : List Nat), t.Reachable capacity → t.IsUnion v kept →
      List.Forall₂ (fun i j => s.arena.sameTree i t.arena j = true)
        (cases.foldl (Signature.insertCase s.arena) []) kept →
      (s.stored u).nested (custom.rules capacity) =
          (t.stored v).nested (custom.rules capacity) ∧
        (s.stored u).topLevel (custom.rules capacity) =
          (t.stored v).topLevel (custom.rules capacity)) ∧
    (∀ (only : Nat) (node : Node), cases = [only] → s.arena.node? only = some node →
      node.label.isLiteral = false →
      (s.stored u).nested (custom.rules capacity) =
          (s.stored only).nested (custom.rules capacity) ∧
        (custom.topLevelUnion = .standard →
          (s.stored u).topLevel (custom.rules capacity) =
            (s.stored only).topLevel (custom.rules capacity))) := by
  refine ⟨fun t v kept ht hv hsame => ?_, fun only node hcases hnode hliteral => ?_⟩
  · obtain ⟨trees, ids, heach, hholds⟩ := hu.holds hs
    obtain ⟨trees', ids', heach', hholds'⟩ := hv.holds ht
    have hnone : s.arena.SpansEach [] (List.eraseDups []) [] := .nil
    obtain ⟨_, hkept⟩ := heach.foldl_insertCase hnone
    obtain rfl := (hkept.forall₂_sameTree_iff heach').1 hsame
    obtain ⟨-, hnested, htop⟩ := rendered_stored hholds (custom.rules capacity)
    obtain ⟨-, hnested', htop'⟩ := rendered_stored hholds' (custom.rules capacity)
    rw [hnested, hnested', htop, htop']
    exact ⟨(Rules.nested_union_eraseDups trees).symm, (Rules.topLevel_union_eraseDups trees).symm⟩
  · subst hcases
    obtain ⟨case, hlabel, hcase, hholds⟩ := hu.holds_single hs hnode
    obtain ⟨-, hnested, htop⟩ := rendered_stored hholds (custom.rules capacity)
    obtain ⟨-, hnestedCase, htopCase⟩ := rendered_stored hcase (custom.rules capacity)
    -- there is room for a type, since the union is stored
    have hcapacity : 0 < capacity :=
      Nat.lt_of_lt_of_le (Nat.zero_lt_of_lt hholds.lt) hs.isForest.size_le
    rw [← hlabel] at hliteral
    rw [hnested, hnestedCase, htop, htopCase]
    exact ⟨Rules.nested_union_single hcapacity hliteral,
      fun hstandard => Rules.topLevel_union_single hstandard hliteral⟩

theorem outputs_eq_of_distinctCases_sample :
    ∃ s : Construction, s.Reachable 8 ∧ s.IsUnion 3 [0, 1, 2] ∧
      (∃ list, (s.stored 3).topLevel (Customization.rules {} 8) = .ok list ∧
        (numberFirst.stored 3).topLevel (Customization.rules {} 8) = .ok list ∧ list.size = 2) ∧
      s.IsUnion 5 [4] ∧
      (s.stored 5).nested (Customization.rules { maxUnionArity := 0 } 8) =
        .ok ⟨ascii "bool", by decide⟩ ∧
      (s.stored 5).topLevel (Customization.rules { maxUnionArity := 0 } 8) =
        (s.stored 4).topLevel (Customization.rules { maxUnionArity := 0 } 8) := by
  let literal := empty.perform 8 (.atomic .stringLiteral (ascii "a"))
  let both := literal.perform 8 (.atomic .number [])
  let again := both.perform 8 (.atomic .stringLiteral (ascii "a"))
  let union := again.perform 8 (.parent .union [0, 1, 2])
  let single := (union.perform 8 (.atomic .bool [])).perform 8 (.parent .union [4])
  have hagain : again.Reachable 8 :=
    .step (.step (.step .empty trivial nofun) trivial nofun) trivial nofun
  have hunion : union.Reachable 8 := .step hagain (by decide) nofun
  have hsingle : single.Reachable 8 := .step (.step hunion trivial nofun) (by decide) nofun
  have hsame : List.Forall₂ (fun i j => single.arena.sameTree i numberFirst.arena j = true)
      ([0, 1, 2].foldl (Signature.insertCase single.arena) []) [2, 0] := by decide
  have hrepeated : single.IsUnion 3 [0, 1, 2] := by decide
  have halone : single.IsUnion 5 [4] := by decide
  obtain ⟨-, htop⟩ := (outputs_eq_of_distinctCases hsingle hrepeated {}).1 numberFirst 3 [2, 0]
    reachable_numberFirst (by decide) hsame
  obtain ⟨hnested, honly⟩ :=
    (outputs_eq_of_distinctCases hsingle halone { maxUnionArity := 0 }).2 4 _ rfl rfl rfl
  refine ⟨single, hsingle, hrepeated,
    ⟨⟨[.enum ⟨ascii "a", by decide⟩ ⟨ascii "\"a\"", by decide⟩,
      .regular ⟨ascii "(value: float)", by decide⟩ valueBody]⟩, ?_, ?_, rfl⟩,
    halone, ?_, honly rfl⟩
  · decide +kernel
  · rw [← htop]
    decide +kernel
  · rw [hnested]
    decide +kernel

end Construction

end TypeSig
