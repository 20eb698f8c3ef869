/-
  TypeSig.Proofs.Rules.Flatten

  The overloads of an outermost union in which unions are nested. Every union in
  it keeps a list of its own and gives it to the union around it, but what comes
  out depends on the flattened cases alone: it is what their overloads leave when
  they are all put in a row (`collect_eq_distinct`).

  No list on the way is ever full. Each flattened case gives one overload and is
  the tree below a node, so no more than one overload for each node is ever kept,
  however the nodes are shared (`length_distinct_le_size`).

  Main statement: `topLevel_flattens_union`.
-/

import TypeSig.Arena.Build
import TypeSig.Generate
import TypeSig.Proofs.Arena.Parts
import TypeSig.Proofs.Rules.Default

namespace TypeSig

namespace Rules

open TypeTree Overload

variable {capacity arity : Nat}

/-! ## Flattening -/

section Room

/- Overloads of which no more than the capacity are ever left. -/
variable {Given : Overload → Prop}
  (hroom : ∀ overloads : List Overload, (∀ x ∈ overloads, Given x) →
    (distinct overloads).length ≤ capacity)

theorem given_of_overloadsOfAll {rules : Rules} {cases : List TypeTree} {overloads : List Overload}
    (hgiven : ∀ case ∈ cases, ∀ overloads, rules.overloadsOf case = .ok overloads →
      ∀ x ∈ overloads, Given x)
    (h : rules.overloadsOfAll cases = .ok overloads) : ∀ x ∈ overloads, Given x := by
  induction cases generalizing overloads with
  | nil => cases h; simp
  | cons case rest ih =>
    obtain ⟨hcase, hrest⟩ := List.forall_mem_cons.1 hgiven
    obtain ⟨first, hfirst, h⟩ := bind_eq_ok_iff.1 h
    obtain ⟨others, hothers, h⟩ := bind_eq_ok_iff.1 h
    cases h
    exact List.forall_mem_append.2 ⟨hcase first hfirst, ih hrest hothers⟩

include hroom in
/-- Behind the distinct ones of some overloads, a union collects the distinct ones of
    these and of all its flattened cases, if that is what its cases give. -/
theorem collect_eq_distinct {children : List TypeTree}
    (hchildren : ∀ child ∈ children, (ofArity capacity arity).overloadsOf child =
      ((ofArity capacity arity).overloadsOfAll child.flatCases).map distinct)
    (hgiven : ∀ case ∈ flatCasesAll children, ∀ overloads,
      (ofArity capacity arity).overloadsOf case = .ok overloads → ∀ x ∈ overloads, Given x) :
    ∀ {done : List Overload}, (∀ x ∈ done, Given x) →
      Default.collect capacity ⟨distinct done⟩ ((ofArity capacity arity).caseOverloads children) =
        ((ofArity capacity arity).overloadsOfAll (flatCasesAll children)).map
          fun overloads => ⟨distinct (done ++ overloads)⟩ := by
  induction children with
  | nil =>
    intro done _
    simp [caseOverloads, Default.collect, flatCasesAll, overloadsOfAll, Except.map]
  | cons child rest ih =>
    intro done hdone
    obtain ⟨hchild, hrest⟩ := List.forall_mem_cons.1 hchildren
    obtain ⟨hgivenChild, hgivenRest⟩ := List.forall_mem_append.1 hgiven
    rw [flatCasesAll, overloadsOfAll_append, caseOverloads, Default.collect, caseItems_eq, hchild]
    cases hflat : (ofArity capacity arity).overloadsOfAll child.flatCases with
    | error fault => rfl
    | ok overloads =>
      -- the child gives what it kept of its cases; that is as good as all of them
      have hnew := given_of_overloadsOfAll hgivenChild hflat
      have hall : ∀ x ∈ done ++ overloads, Given x := List.forall_mem_append.2 ⟨hdone, hnew⟩
      have hextend : OverloadList.extend capacity ⟨distinct done⟩ (distinct overloads) =
          .ok ⟨distinct (done ++ overloads)⟩ := by
        rw [← distinct_append_distinct]
        exact OverloadList.extend_distinct _ _ (by
          rw [distinct_append_distinct]
          exact hroom _ hall)
      have hrest := ih hrest hgivenRest hall
      simp only [Except.map, bind, Except.bind, hextend, hrest]
      cases (ofArity capacity arity).overloadsOfAll (flatCasesAll rest) with
      | error fault => rfl
      | ok others => simp [List.append_assoc]

include hroom in
/-- As a case, a tree gives what is distinct among the overloads of its flattened
    cases. -/
theorem overloadsOf_eq_distinct (tree : TypeTree) :
    (∀ case ∈ tree.flatCases, case.label.kind ≠ .field) →
      (∀ case ∈ tree.flatCases, ∀ overloads,
        (ofArity capacity arity).overloadsOf case = .ok overloads → ∀ x ∈ overloads, Given x) →
      (ofArity capacity arity).overloadsOf tree =
        ((ofArity capacity arity).overloadsOfAll tree.flatCases).map distinct := by
  induction tree using TypeTree.induction with
  | node label children ih =>
    intro hfield hgiven
    by_cases hunion : label = .union
    · subst hunion
      rw [flatCases_union] at hfield hgiven ⊢
      have hsubset : ∀ child ∈ children, ∀ case ∈ child.flatCases,
          case ∈ flatCasesAll children := by
        intro child hchild case hcase
        rw [flatCasesAll_eq_flatMap]
        exact List.mem_flatMap.2 ⟨child, hchild, hcase⟩
      have hchildren := fun child hchild => ih child hchild
        (fun case hcase => hfield case (hsubset child hchild case hcase))
        (fun case hcase => hgiven case (hsubset child hchild case hcase))
      have hcollect := collect_eq_distinct hroom hchildren hgiven (List.forall_mem_nil _)
      have hliteral : Label.union.literal? = none := rfl
      simp only [overloadsOf, label_node, hliteral, topLevel_union]
      rw [show OverloadList.empty = ⟨distinct []⟩ from rfl, hcollect]
      cases (ofArity capacity arity).overloadsOfAll (flatCasesAll children) <;> rfl
    · have hlabel : (TypeTree.node label children).label ≠ .union := hunion
      rw [flatCases_of_ne hlabel] at hfield ⊢
      have hkind := hfield _ List.mem_cons_self
      simp only [overloadsOfAll]
      cases h : (ofArity capacity arity).overloadsOf (.node label children) with
      | error fault => rfl
      | ok overloads =>
        -- a single overload is distinct
        obtain ⟨x, rfl⟩ := exists_eq_singleton hlabel hkind h
        rfl

end Room

/-! ## Room for the cases of a stored tree -/

/-- The overload that the tree below a node gives. -/
def overloadAt (rules : Rules) (arena : Arena) (id : Nat) : Option Overload := do
  let tree ← arena.tree? id
  let overloads ← (rules.overloadsOf tree).toOption
  overloads.head?

/-- Some tree in the arena gives the overload. -/
def GivenIn (rules : Rules) (arena : Arena) (x : Overload) : Prop :=
  ∃ id ∈ List.range arena.size, rules.overloadAt arena id = some x

/-- Of overloads that trees in an arena give, no more are left than there are nodes. -/
theorem length_distinct_le_size {rules : Rules} {arena : Arena} {overloads : List Overload}
    (h : ∀ x ∈ overloads, rules.GivenIn arena x) : (distinct overloads).length ≤ arena.size := by
  simpa using length_distinct_le h

/-- What the flattened cases of a stored tree give, trees in the arena give. -/
theorem givenIn_of_mem_flatCases {arena : Arena} {id : Nat} {tree : TypeTree}
    (htree : arena.tree? id = some tree) (hregular : tree.Regular)
    (hfield : tree.label.kind ≠ .field) :
    ∀ case ∈ tree.flatCases, ∀ overloads,
      (ofArity capacity arity).overloadsOf case = .ok overloads →
        ∀ x ∈ overloads, (ofArity capacity arity).GivenIn arena x := by
  intro case hcase overloads h x hx
  obtain ⟨⟨-, hkind⟩, hlabel⟩ := hregular.of_mem_flatCases hfield case hcase
  obtain ⟨k, hk⟩ := Arena.exists_tree?_of_mem_subtrees htree case (flatCases_subset tree case hcase)
  obtain ⟨y, rfl⟩ := exists_eq_singleton hlabel hkind h
  obtain rfl := List.mem_singleton.1 hx
  refine ⟨k, List.mem_range.2 (Arena.lt_of_tree? hk), ?_⟩
  simp [overloadAt, hk, h, Except.toOption]

/-- The overloads of a stored union are the distinct ones among those of its flattened
    cases. -/
theorem topLevel_eq_distinct {arena : Arena} {id : Nat} {children : List TypeTree}
    (htree : arena.tree? id = some (.union children))
    (hregular : (TypeTree.union children).Regular) (hsize : arena.size ≤ capacity) :
    (ofArity capacity arity).topLevel (.union children) =
      ((ofArity capacity arity).overloadsOfAll (TypeTree.union children).flatCases).map
        fun overloads => ⟨distinct overloads⟩ := by
  have hroom : ∀ overloads : List Overload,
      (∀ x ∈ overloads, (ofArity capacity arity).GivenIn arena x) →
        (distinct overloads).length ≤ capacity :=
    fun overloads h => Nat.le_trans (length_distinct_le_size h) hsize
  have hcase := overloadsOf_eq_distinct hroom (.union children)
    (fun case hcase => (hregular.of_mem_flatCases nofun case hcase).1.2)
    (givenIn_of_mem_flatCases htree hregular nofun)
  -- as a case, the union gives the overloads that it has
  have hitems : (ofArity capacity arity).overloadsOf (.union children) =
      ((ofArity capacity arity).topLevel (.union children)).map OverloadList.items := rfl
  rw [hitems] at hcase
  revert hcase
  cases (ofArity capacity arity).topLevel (.union children) <;>
    cases (ofArity capacity arity).overloadsOfAll (TypeTree.union children).flatCases <;>
    simp only [Except.map, reduceCtorEq, Except.error.injEq, Except.ok.injEq, imp_self]
  exact fun hitems => congrArg OverloadList.mk hitems

/-! ## Where an overload comes from -/

/-- Each case in a row gives some of the overloads. -/
theorem exists_overloads_of_mem {rules : Rules} {cases : List TypeTree}
    {overloads : List Overload} (h : rules.overloadsOfAll cases = .ok overloads) :
    ∀ case ∈ cases, ∃ some, rules.overloadsOf case = .ok some ∧ some ⊆ overloads := by
  induction cases generalizing overloads with
  | nil => simp
  | cons case rest ih =>
    obtain ⟨first, hfirst, h⟩ := bind_eq_ok_iff.1 h
    obtain ⟨others, hothers, h⟩ := bind_eq_ok_iff.1 h
    cases h
    refine List.forall_mem_cons.2 ⟨⟨first, hfirst, List.subset_append_left _ _⟩, ?_⟩
    intro later hlater
    obtain ⟨given, hgiven, hsubset⟩ := ih hothers later hlater
    exact ⟨given, hgiven, fun x hx => List.mem_append_right _ (hsubset hx)⟩

/-- An overload in a row comes from one case, and those in front of it from the cases
    in front of that one. -/
theorem exists_case_of_split {cases : List TypeTree} {x : Overload} {after : List Overload}
    (hcases : ∀ case ∈ cases, case.label.kind ≠ .field ∧ case.label ≠ .union) :
    ∀ {before : List Overload},
      (ofArity capacity arity).overloadsOfAll cases = .ok (before ++ x :: after) →
      ∃ earlier case later, cases = earlier ++ case :: later ∧
        (ofArity capacity arity).overloadsOf case = .ok [x] ∧
        (ofArity capacity arity).overloadsOfAll earlier = .ok before := by
  induction cases with
  | nil =>
    intro before h
    simp [overloadsOfAll] at h
  | cons case rest ih =>
    intro before h
    obtain ⟨⟨hkind, hlabel⟩, hrest⟩ := List.forall_mem_cons.1 hcases
    obtain ⟨first, hfirst, h⟩ := bind_eq_ok_iff.1 h
    obtain ⟨others, hothers, h⟩ := bind_eq_ok_iff.1 h
    obtain ⟨y, rfl⟩ := exists_eq_singleton hlabel hkind hfirst
    have hsplit : y :: others = before ++ x :: after := Except.ok.inj h
    cases before with
    | nil =>
      obtain ⟨rfl, rfl⟩ := List.cons.inj hsplit
      exact ⟨[], case, rest, rfl, hfirst, rfl⟩
    | cons b before =>
      obtain ⟨rfl, rfl⟩ := List.cons.inj hsplit
      obtain ⟨earlier, found, later, rfl, hfound, hearlier⟩ := ih hrest hothers
      refine ⟨case :: earlier, found, later, rfl, hfound, ?_⟩
      simp [overloadsOfAll, hfirst, hearlier, bind, Except.bind]

/-- An enumerated method among the distinct overloads of cases is that of a literal,
    and no literal in front of it adapts to the same name. -/
theorem exists_literal_of_mem_distinct {cases : List TypeTree} {overloads : List Overload}
    {method : Identifier} {value : Text}
    (hcases : ∀ case ∈ cases, case.label.kind ≠ .field ∧ case.label ≠ .union)
    (h : (ofArity capacity arity).overloadsOfAll cases = .ok overloads)
    (hmem : .enum method value ∈ distinct overloads) :
    ∃ before case after text, cases = before ++ case :: after ∧
      case.label.literal? = some text ∧
      Target.adaptName text = .ok method ∧ Target.quotedCode text = .ok value ∧
      ∀ earlier ∈ before, ∀ text, earlier.label.literal? = some text →
        Target.adaptName text ≠ .ok method := by
  obtain ⟨front, back, rfl, hfront⟩ := mem_distinct_iff.1 hmem
  obtain ⟨before, case, after, rfl, hcase, hbefore⟩ := exists_case_of_split hcases h
  obtain ⟨hkind, hlabel⟩ := hcases case (by simp)
  rcases overloadsOf_eq_ok hlabel hkind hcase with
    ⟨text, method', value', hliteral, hmethod, hvalue, hx⟩ | ⟨params, body, -, hx⟩
  · cases hx
    refine ⟨before, case, after, text, rfl, hliteral, hmethod, hvalue, ?_⟩
    intro earlier hearlier text' hliteral' hmethod'
    -- the earlier literal gives the same method, and that stands in front
    obtain ⟨given, hgiven, hsubset⟩ := exists_overloads_of_mem hbefore earlier hearlier
    obtain ⟨hkind', hlabel'⟩ := hcases earlier (by simp [hearlier])
    rcases overloadsOf_eq_ok hlabel' hkind' hgiven with
      ⟨text'', method'', value'', hsame, hadapts, -, rfl⟩ | ⟨_, _, hnone, -⟩
    · obtain rfl := Option.some.inj (hliteral'.symm.trans hsame)
      obtain rfl := Except.ok.inj (hmethod'.symm.trans hadapts)
      have hdiffers := hfront _ (hsubset List.mem_cons_self)
      simp at hdiffers
    · simp [hliteral'] at hnone
  · cases hx

end Rules

/-! ## Stored unions -/

/-- The overloads of a stored union under the default rules depend on its flattened
    cases alone. If each of these gives its overloads, the union has all of them in a
    row without those whose method an earlier one declares; otherwise it has the first
    fault. So unions that are grouped in other ways have the same overloads, and an
    enumerated method stands for the first literal that adapts to its name. -/
theorem StoredTree.topLevel_flattens_union {capacity arity : Nat} {stored : StoredTree}
    {children : List TypeTree} (htree : stored.tree? = some (.union children))
    (hregular : (TypeTree.union children).Regular) (hsize : stored.arena.size ≤ capacity) :
    (∀ given : TypeTree → List Overload,
      (∀ case ∈ (TypeTree.union children).flatCases,
        (Rules.ofArity capacity arity).overloadsOf case = .ok (given case)) →
      stored.topLevel (.ofArity capacity arity) =
        .ok ⟨Overload.distinct ((TypeTree.union children).flatCases.flatMap given)⟩) ∧
    (∀ before case after fault,
      (TypeTree.union children).flatCases = before ++ case :: after →
      (∀ earlier ∈ before, ∃ overloads,
        (Rules.ofArity capacity arity).overloadsOf earlier = .ok overloads) →
      (Rules.ofArity capacity arity).overloadsOf case = .error fault →
      stored.topLevel (.ofArity capacity arity) = .error fault) ∧
    (∀ (other : StoredTree) (others : List TypeTree), other.tree? = some (.union others) →
      (TypeTree.union others).Regular → other.arena.size ≤ capacity →
      (TypeTree.union others).flatCases = (TypeTree.union children).flatCases →
      other.topLevel (.ofArity capacity arity) = stored.topLevel (.ofArity capacity arity)) ∧
    (∀ list method value, stored.topLevel (.ofArity capacity arity) = .ok list →
      .enum method value ∈ list.items →
      ∃ before case after text,
        (TypeTree.union children).flatCases = before ++ case :: after ∧
        case.label.literal? = some text ∧
        Target.adaptName text = .ok method ∧ Target.quotedCode text = .ok value ∧
        ∀ earlier ∈ before, ∀ text, earlier.label.literal? = some text →
          Target.adaptName text ≠ .ok method) := by
  -- what a stored union comes to, for this one and for those it is compared with
  have heq : ∀ (s : StoredTree) (cases : List TypeTree), s.tree? = some (.union cases) →
      (TypeTree.union cases).Regular → s.arena.size ≤ capacity →
      s.topLevel (.ofArity capacity arity) =
        ((Rules.ofArity capacity arity).overloadsOfAll (TypeTree.union cases).flatCases).map
          fun overloads => ⟨Overload.distinct overloads⟩ := by
    intro s cases hs hcases hle
    obtain ⟨id, -, hid⟩ := Option.bind_eq_some_iff.1 hs
    rw [← Rules.topLevel_eq_distinct hid hcases hle, topLevel, requireTree, hs]
    rfl
  have hthis := heq stored children htree hregular hsize
  refine ⟨fun given hgiven => ?_, fun before case after fault hsplit hbefore hcase => ?_,
    fun other others hother hregular' hsize' hsame => ?_, fun list method value hlist hmem => ?_⟩
  · rw [hthis, Rules.overloadsOfAll_eq_flatMap hgiven]
    rfl
  · rw [hthis, hsplit, Rules.overloadsOfAll_eq_error hbefore hcase]
    rfl
  · rw [heq other others hother hregular' hsize', hthis, hsame]
  · rw [hthis] at hlist
    cases hall : (Rules.ofArity capacity arity).overloadsOfAll
        (TypeTree.union children).flatCases with
    | error fault => simp [hall, Except.map] at hlist
    | ok overloads =>
      simp only [hall, Except.map, Except.ok.injEq] at hlist
      subst hlist
      refine Rules.exists_literal_of_mem_distinct (fun case hcase => ?_) hall hmem
      obtain ⟨⟨-, hkind⟩, hlabel⟩ := hregular.of_mem_flatCases (by rintro ⟨⟩) case hcase
      exact ⟨hkind, hlabel⟩

/-- A union beside a literal and a number, with a number and a literal that adapts to
    the same name as the first. -/
def nestedCases : List TypeTree :=
  [.atomic .stringLiteral (ascii "a-b"),
    .union [.atomic .number [], .atomic .stringLiteral (ascii "a b")], .atomic .number []]

theorem StoredTree.topLevel_flattens_union_sample :
    ∃ stored : StoredTree, stored.tree? = some (.union nestedCases) ∧
      (TypeTree.union nestedCases).Regular ∧ stored.arena.size ≤ 6 ∧
      stored.topLevel (.ofArity 6 9) =
        .ok ⟨[.enum ⟨ascii "aB", by decide⟩ ⟨ascii "\"a-b\"", by decide⟩,
          .regular ⟨ascii "(value: float)", by decide⟩ valueBody]⟩ := by
  let stored := ((TypeTree.union nestedCases).store 6).toOption.getD .rootless
  have htree : stored.tree? = some (.union nestedCases) := by decide
  have hregular : (TypeTree.union nestedCases).Regular := by decide
  have hsize : stored.arena.size ≤ 6 := by decide
  refine ⟨stored, htree, hregular, hsize, ?_⟩
  refine ((topLevel_flattens_union htree hregular hsize).1
    (fun case => ((Rules.ofArity 6 9).overloadsOf case).toOption.getD []) ?_).trans rfl
  decide

end TypeSig
