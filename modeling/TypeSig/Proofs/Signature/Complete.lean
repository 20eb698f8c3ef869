/-
  TypeSig.Proofs.Signature.Complete

  The reader on tokens that a phrase derives. It either reads exactly these
  tokens and leaves the value of the phrase in the arena, at the cost of the
  phrase, or fails for lack of nodes, of room for a text or of levels that the
  phrase asks for. No other failure is possible.

  The statement is proved for whole loops at once: for the cases of a type
  behind those that were read before, and for the fields of an object. Both
  follow the phrase. What may stand behind a phrase matters in two places only,
  for a bar would go on with a type and an angle bracket with a last `Array`.
-/

import TypeSig.Proofs.Signature.Room

namespace TypeSig

/-- A new case is put behind the others unless its tree is there already. -/
theorem Arena.Grows.insertCase {a b c : Arena} {cost more new : Nat} {cases : List Nat}
    {values : List TypeTree} {value : TypeTree} (h : a.Grows b cost cases values.eraseDups)
    (h' : b.Grows c more [new] [value]) :
    a.Grows c (cost + more) (Signature.insertCase c cases new) (values ++ [value]).eraseDups := by
  rw [eraseDups_append_singleton]
  by_cases hold : value ∈ values.eraseDups
  · rw [if_pos hold, Signature.insertCase, if_pos ((h.any_sameTree h').2 hold)]
    exact h.skip h'
  · rw [if_neg hold, Signature.insertCase, if_neg fun hany => hold ((h.any_sameTree h').1 hany)]
    exact h.append h'

namespace Signature

/-! ## Demands and their outcomes -/

/-- What storing a type asks for. -/
def TypePhrase.demand (phrase : TypePhrase) : Demand :=
  ⟨phrase.cost, phrase.texts, phrase.depth⟩

/-- What storing the cases of a type asks for, without the union over them. -/
def TypePhrase.casesDemand (phrase : TypePhrase) : Demand :=
  ⟨phrase.caseCost, phrase.texts, phrase.depth⟩

/-- What storing a case asks for. -/
def CasePhrase.demand (phrase : CasePhrase) : Demand :=
  ⟨phrase.cost, phrase.texts, phrase.depth⟩

/-- What storing fields asks for. -/
def FieldsPhrase.demand (phrase : FieldsPhrase) : Demand :=
  ⟨phrase.cost, phrase.texts, phrase.depth⟩

/-- The reading stands at given tokens, and so many nodes were stored since the
    arena was the first one: these are the roots of the trees. -/
def StandsAt (a : Arena) (cost : Nat) (trees : List TypeTree) (after : List Token)
    (roots : List Nat) (t : Progress) : Prop :=
  t.tokens = after ∧ a.Grows t.arena cost roots trees

variable (capacity : Nat)

/-- The reader does justice to a type. -/
def TypePhrase.IsRead (phrase : TypePhrase) : Prop :=
  ∀ (levels : Nat) (s : Progress) (after : List Token),
    s.tokens = phrase.tokens ++ after → phrase.EndsBefore after →
    Outcome phrase.demand capacity levels s.arena.size
      (fun id => StandsAt s.arena phrase.cost [phrase.value] after [id])
      (readType capacity levels s)

/-- The reader does justice to a case. -/
def CasePhrase.IsRead (phrase : CasePhrase) : Prop :=
  ∀ (levels : Nat) (s : Progress) (after : List Token),
    s.tokens = phrase.tokens ++ after → phrase.EndsBefore after →
    Outcome phrase.demand capacity levels s.arena.size
      (fun id => StandsAt s.arena phrase.cost [phrase.value] after [id])
      (readCase capacity (readType capacity levels) s)

/-- The reader does justice to the cases of a type, behind cases that were read
    since the arena was `a`. -/
def TypePhrase.CasesAreRead (phrase : TypePhrase) : Prop :=
  ∀ (levels rounds : Nat) (s : Progress) (after : List Token) (a : Arena) (cost : Nat)
    (cases : List Nat) (values : List TypeTree),
    s.tokens = phrase.tokens ++ after → phrase.EndsBefore after → phrase.count ≤ rounds →
    a.Grows s.arena cost cases values.eraseDups →
    Outcome phrase.casesDemand capacity (levels + 1) s.arena.size
      (StandsAt a (cost + phrase.caseCost) (values ++ phrase.caseValues).eraseDups after)
      (readCases capacity (readType capacity levels) rounds cases s)

/-- The reader does justice to the fields of an object. -/
def FieldsPhrase.AreRead (phrase : FieldsPhrase) : Prop :=
  ∀ (levels rounds : Nat) (s : Progress) (after : List Token),
    s.tokens = phrase.tokens ++ after → after.head? = some (.byte Byte.closeBrace) →
    phrase.count ≤ rounds →
    Outcome phrase.demand capacity levels s.arena.size
      (StandsAt s.arena phrase.cost phrase.values after)
      (readFields capacity (readType capacity levels) rounds s)

variable {capacity}

/-! ## Types -/

/-- A type is read when its cases are. -/
theorem TypePhrase.CasesAreRead.isRead {phrase : TypePhrase}
    (h : phrase.CasesAreRead capacity) : phrase.IsRead capacity := by
  intro levels s after htokens hafter
  cases levels with
  | zero =>
    -- no level is left, and even the smallest type is open while it is read
    exact phrase.depth_pos
  | succ levels =>
    -- there is a round for each case, since every case has a token
    have hrounds : phrase.count ≤ s.rest.length :=
      Nat.le_trans phrase.count_le (Progress.length_le_of_tokens_eq htokens)
    have hcases := h levels s.rest.length s after s.arena 0 [] [] htokens hafter hrounds
      (Arena.Grows.refl s.arena)
    rw [Nat.zero_add, List.nil_append] at hcases
    refine hcases.bind (fun cause hlacks => hlacks.mono ?_ (List.Subset.refl _) (Nat.le_refl _)) ?_
    · exact Nat.add_le_add_left (Nat.le_add_right _ _) _
    intro roots t hfits ⟨hstands, hgrows⟩
    have hlen : roots.length = phrase.caseValues.eraseDups.length := by
      obtain ⟨ids, hs, -⟩ := hgrows.spans
      exact hs.length_eq
    rcases roots with _ | ⟨only, _ | ⟨second, others⟩⟩
    · have hne := eraseDups_ne_nil phrase.caseValues_ne_nil
      exact absurd (List.length_eq_zero_iff.1 hlen.symm) hne
    -- one case is left, and it is the type
    · obtain ⟨value, hvalue⟩ := List.length_eq_one_iff.1 hlen.symm
      rw [hvalue] at hgrows
      have hcost : phrase.cost = phrase.caseCost := by
        rw [TypePhrase.cost, unionCost_of_single hvalue, Nat.add_zero]
      refine ⟨⟨?_, hfits.texts, hfits.levels⟩, hstands, ?_⟩
      · rw [TypePhrase.demand, hcost]
        exact hfits.nodes
      · rw [hcost, TypePhrase.value, unionOf_of_single hvalue]
        exact hgrows
    -- several are left, and a node of their own is stored over them
    · have htwo : 2 ≤ phrase.caseValues.eraseDups.length := by
        rw [← hlen, List.length_cons, List.length_cons]
        omega
      have hcost : phrase.cost = phrase.caseCost + 1 := by
        rw [TypePhrase.cost, unionCost_of_two_le htwo]
      have hstore := storeParent_outcome phrase.demand capacity .union t.position hgrows (by decide)
        hcost fun hnodes => ⟨hnodes, hfits.texts, hfits.levels⟩
      refine hstore.imp (fun _ hlacks => hlacks) ?_
      rintro id t' hfits' ⟨hkept, hunion⟩
      rw [StandsAt, hcost, TypePhrase.value, unionOf_of_two_le htwo]
      exact ⟨hfits', hkept.trans hstands, hunion⟩

/-! ## Cases -/

/-- A phrase ends before a token that goes on with no type. -/
theorem TypePhrase.endsBefore_byte (phrase : TypePhrase) {b : UInt8} (after : List Token)
    (hbar : b ≠ Byte.bar) (hangle : b ≠ Byte.openAngle) :
    phrase.EndsBefore (.byte b :: after) := by
  constructor
  · simpa using hbar
  · intro _
    simpa using hangle

theorem nameIsRead {text : Bytes} (hnul : Byte.nul ∉ text) :
    (CasePhrase.name text).IsRead capacity := by
  intro levels s after htokens hafter
  rw [readCase_name htokens fun htext => hafter (by simpa [CasePhrase.endsInArray] using htext)]
  -- room is asked for the name itself, also where a keyword leaves no text
  have hkept : (if keywordKind text = .other then text else []).length ≤ text.length := by
    split <;> simp
  have hstored : stored (if keywordKind text = .other then text else []) =
      if keywordKind text = .other then text else [] := by
    split
    · exact stored_of_nul_notMem hnul
    · rfl
  refine (storeAtomic_outcome (s := s.skip) hkept).imp (fun _ hlacks => hlacks) ?_
  rintro id t hfits ⟨hkeeps, hgrows⟩
  rw [hstored, ← nameValue_eq] at hgrows
  exact ⟨hfits, by rw [hkeeps, Progress.tokens_skip, htokens]; rfl, hgrows⟩

theorem literalIsRead {text : Bytes} (hnul : Byte.nul ∉ text) :
    (CasePhrase.literal text).IsRead capacity := by
  intro levels s after htokens _
  rw [readCase_literal htokens]
  refine (storeAtomic_outcome (s := s.skip) (Nat.le_refl _)).imp (fun _ hlacks => hlacks) ?_
  rintro id t hfits ⟨hkeeps, hgrows⟩
  rw [stored_of_nul_notMem hnul] at hgrows
  exact ⟨hfits, by rw [hkeeps, Progress.tokens_skip, htokens]; rfl, hgrows⟩

/-- Taking the byte that closes a parent and storing the parent. -/
theorem storeClosed_outcome {a : Arena} {s : Progress} {b : UInt8} {after : List Token}
    {cost levels : Nat} {roots : List Nat} {trees : List TypeTree} {kind : NodeKind} (d : Demand)
    (what : Expected) (htokens : s.tokens = .byte b :: after)
    (h : a.Grows s.arena cost roots trees) (hkind : kind ≠ .atomic) (hcost : d.cost = cost + 1)
    (hfits : a.size + d.cost ≤ capacity → d.Fits capacity levels a.size) :
    Outcome d capacity levels a.size
      (fun id => StandsAt a (cost + 1) [.node (.blank kind) trees] after [id])
      (s.eat b what >>= fun (stop, s) => s.storeParent capacity kind roots stop) := by
  have hhead : s.tokens.head? = some (.byte b) := by rw [htokens, List.head?_cons]
  have hskip : s.skip.tokens = after := by rw [Progress.tokens_skip, htokens, List.tail_cons]
  have hgrows : a.Grows s.skip.arena cost roots trees := h
  rw [Progress.eat_of_head hhead]
  have hstore := storeParent_outcome d capacity kind (s.position + 1) hgrows hkind hcost hfits
  refine hstore.imp (fun _ hlacks => hlacks) ?_
  rintro id t hfits ⟨hkeeps, hparent⟩
  exact ⟨hfits, hkeeps.trans hskip, hparent⟩

theorem TypePhrase.IsRead.array {element : TypePhrase} (h : element.IsRead capacity) :
    (CasePhrase.array element).IsRead capacity := by
  intro levels s after htokens _
  simp only [CasePhrase.tokens, List.cons_append, List.append_assoc, List.nil_append] at htokens
  rw [readCase_array htokens]
  have helement := h levels s.skip.skip (.byte Byte.closeAngle :: after) (by simp [htokens])
    (element.endsBefore_byte after (by decide) (by decide))
  have hcost : (CasePhrase.array element).cost = element.cost + 1 := rfl
  refine helement.bind (fun _ hlacks => hlacks.mono ?_ (List.Subset.refl _) (Nat.le_refl _)) ?_
  · exact Nat.add_le_add_left (Nat.le_succ _) _
  rintro id t hfits ⟨hstands, hgrows⟩
  exact storeClosed_outcome _ .closeAngle hstands hgrows (by decide) hcost fun hnodes =>
    ⟨hnodes, hfits.texts, hfits.levels⟩

theorem FieldsPhrase.AreRead.object {fields : FieldsPhrase} (h : fields.AreRead capacity) :
    (CasePhrase.object fields).IsRead capacity := by
  intro levels s after htokens _
  simp only [CasePhrase.tokens, List.cons_append, List.append_assoc, List.nil_append] at htokens
  rw [readCase_object htokens]
  have hskip : s.skip.tokens = fields.tokens ++ .byte Byte.closeBrace :: after := by
    rw [Progress.tokens_skip, htokens, List.tail_cons]
  have hrounds : fields.count ≤ s.skip.rest.length :=
    Nat.le_trans fields.count_le (Progress.length_le_of_tokens_eq hskip)
  have hfields := h levels _ s.skip (.byte Byte.closeBrace :: after) hskip rfl hrounds
  have hcost : (CasePhrase.object fields).cost = fields.cost + 1 := rfl
  refine hfields.bind (fun _ hlacks => hlacks.mono ?_ (List.Subset.refl _) (Nat.le_refl _)) ?_
  · exact Nat.add_le_add_left (Nat.le_succ _) _
  rintro ids t hfits ⟨hstands, hgrows⟩
  exact storeClosed_outcome _ .commaOrBrace hstands hgrows (by decide) hcost fun hnodes =>
    ⟨hnodes, hfits.texts, hfits.levels⟩

/-! ## Fields -/

/-- One field, behind which given tokens stand. Room for it is asked for when its
    type is stored, so it costs a node more than its type. -/
theorem TypePhrase.IsRead.field {type : TypePhrase} (h : type.IsRead capacity) {name : FieldName}
    {optional : Bool} {s : Progress} {after : List Token} (levels : Nat)
    (hnul : Byte.nul ∉ name.text)
    (htokens : s.tokens = name.token :: (mark Byte.questionMark optional ++
      .byte Byte.colon :: (type.tokens ++ after)))
    (hafter : type.EndsBefore after) :
    Outcome ⟨type.cost + 1, name.text :: type.texts, type.depth⟩ capacity levels s.arena.size
      (fun id => StandsAt s.arena (type.cost + 1) [.field name.text optional type.value] after [id])
      (readField capacity (readType capacity levels) s) := by
  have hname : readFieldName s = .ok (name.text, s.skip) :=
    readFieldName_eq_ok_iff.2 ⟨name, by rw [htokens]; rfl, rfl, rfl⟩
  have hskip : s.skip.tokens = mark Byte.questionMark optional ++
      .byte Byte.colon :: (type.tokens ++ after) := by rw [Progress.tokens_skip, htokens]; rfl
  have hoptional : s.skip.nextIs Byte.questionMark = optional :=
    Progress.nextIs_of_mark hskip (by simp; decide)
  -- with the mark or without it, the reading goes on at the colon
  have hmarked := Progress.tokens_eq_mark_append s.skip Byte.questionMark
  rw [hoptional, hskip] at hmarked
  have hcolon := List.append_cancel_left hmarked
  have hsame := Progress.arena_getD_eat? s.skip Byte.questionMark
  simp only [readField, hname, bind, Except.bind, hoptional]
  generalize (s.skip.eat? Byte.questionMark).getD s.skip = u at hcolon hsame
  rw [Progress.eat_of_head (by rw [← hcolon]; rfl)]
  have htype := h levels u.skip after (by rw [Progress.tokens_skip, ← hcolon]; rfl) hafter
  rw [Progress.arena_skip, hsame, Progress.arena_skip] at htype
  refine htype.bind (fun _ hlacks => hlacks.mono ?_ (List.subset_cons_self _ _) (Nat.le_refl _)) ?_
  · exact Nat.add_le_add_left (Nat.le_succ _) _
  rintro id t hfits ⟨hstands, hgrows⟩
  have hstore := storeField_outcome (d := ⟨type.cost + 1, name.text :: type.texts, type.depth⟩)
    capacity optional s.position hgrows rfl List.mem_cons_self fun hnodes hlen =>
      ⟨hnodes, List.forall_mem_cons.2 ⟨hlen, hfits.texts⟩, hfits.levels⟩
  refine hstore.imp (fun _ hlacks => hlacks) ?_
  rintro id' t' hfits' ⟨hkeeps, hfield⟩
  rw [stored_of_nul_notMem hnul] at hfield
  exact ⟨hfits', hkeeps.trans hstands, hfield⟩

theorem TypePhrase.IsRead.lastField {type : TypePhrase} (h : type.IsRead capacity)
    {name : FieldName} {optional comma : Bool} (hnul : Byte.nul ∉ name.text) :
    (FieldsPhrase.last name optional type comma).AreRead capacity := by
  intro levels rounds s after htokens hafter hrounds
  obtain ⟨rounds, rfl⟩ : ∃ k, rounds = k + 1 := ⟨rounds - 1, by
    simp only [FieldsPhrase.count] at hrounds
    omega⟩
  obtain ⟨behind, hbehind⟩ := List.head?_eq_some_iff.1 hafter
  have hends : type.EndsBefore (mark Byte.comma comma ++ after) := by
    rw [hbehind]
    cases comma with
    | true => exact type.endsBefore_byte _ (by decide) (by decide)
    | false => exact type.endsBefore_byte _ (by decide) (by decide)
  have hfirst : s.tokens = name.token :: (mark Byte.questionMark optional ++
      .byte Byte.colon :: (type.tokens ++ (mark Byte.comma comma ++ after))) := by
    rw [htokens]
    simp [FieldsPhrase.tokens]
  have hfield := h.field levels hnul hfirst hends
  rw [readFields]
  refine hfield.bind (fun _ hlacks => hlacks) ?_
  rintro id t hfits ⟨hstands, hgrows⟩
  cases comma with
  | true =>
    -- a brace stands behind the comma, so no field is looked for
    have hcomma : t.eat? Byte.comma = some t.skip :=
      Progress.eat?_of_head (by rw [hstands]; rfl)
    have hskip : t.skip.tokens = after := by rw [Progress.tokens_skip, hstands]; rfl
    have hclose : t.skip.nextIs Byte.closeBrace = true := by
      rw [Progress.nextIs_eq, hskip, hafter, beq_self_eq_true]
    simp only [hcomma, hclose]
    exact ⟨hfits, hskip, hgrows⟩
  | false =>
    have hstands : t.tokens = after := hstands
    have hcomma : t.eat? Byte.comma = none :=
      Progress.eat?_of_head_ne (by rw [hstands, hafter]; decide)
    simp only [hcomma]
    exact ⟨hfits, hstands, hgrows⟩

theorem TypePhrase.IsRead.moreFields {type : TypePhrase} (h : type.IsRead capacity)
    {name : FieldName} {optional : Bool} {rest : FieldsPhrase} (hnul : Byte.nul ∉ name.text)
    (hrest : rest.AreRead capacity) :
    (FieldsPhrase.more name optional type rest).AreRead capacity := by
  intro levels rounds s after htokens hafter hrounds
  simp only [FieldsPhrase.count] at hrounds
  obtain ⟨rounds, rfl⟩ : ∃ k, rounds = k + 1 := ⟨rounds - 1, by omega⟩
  have hfirst : s.tokens = name.token :: (mark Byte.questionMark optional ++
      .byte Byte.colon :: (type.tokens ++ .byte Byte.comma :: (rest.tokens ++ after))) := by
    rw [htokens]
    simp [FieldsPhrase.tokens]
  have hends := type.endsBefore_byte (rest.tokens ++ after) (b := Byte.comma)
    (by decide) (by decide)
  have hfield := h.field levels hnul hfirst hends
  rw [readFields]
  refine hfield.bind (fun _ hlacks => hlacks.mono ?_ ?_ ?_) ?_
  · exact Nat.add_le_add_left (Nat.le_add_right _ _) _
  · exact List.cons_subset_cons _ (List.subset_append_left _ _)
  · exact Nat.add_le_add_right (Nat.le_max_left _ _) _
  rintro id t hfits ⟨hstands, hgrows⟩
  have hcomma : t.eat? Byte.comma = some t.skip := Progress.eat?_of_head (by rw [hstands]; rfl)
  have hskip : t.skip.tokens = rest.tokens ++ after := by
    rw [Progress.tokens_skip, hstands]
    rfl
  -- a field stands behind the comma, and its name is no brace
  have hclose : t.skip.nextIs Byte.closeBrace = false := by
    rw [Progress.nextIs_eq, hskip]
    exact rest.head?_tokens_append_ne after
  have hfields := hrest levels rounds t.skip after hskip hafter (by omega)
  rw [Progress.arena_skip] at hfields
  have hsize := hgrows.size
  simp only [hcomma, hclose]
  refine hfields.bind (fun _ hlacks => hlacks.mono ?_ ?_ ?_) ?_
  · rw [hsize, Nat.add_assoc]
    exact Nat.le_refl _
  · exact List.subset_cons_of_subset _ (List.subset_append_right _ _)
  · exact Nat.add_le_add_right (Nat.le_max_right _ _) _
  rintro ids u hfits' ⟨hstands', hgrows'⟩
  refine ⟨⟨?_, ?_, Nat.max_le.2 ⟨hfits.levels, hfits'.levels⟩⟩, hstands', hgrows.append hgrows'⟩
  · have hnodes := hfits'.nodes
    rwa [hsize, Nat.add_assoc] at hnodes
  · refine List.forall_mem_cons.2 ⟨hfits.texts _ List.mem_cons_self, ?_⟩
    exact List.forall_mem_append.2 ⟨fun text hmem => hfits.texts text (List.mem_cons_of_mem _ hmem),
      hfits'.texts⟩

/-! ## The cases of a type -/

theorem CasePhrase.IsRead.lastCase {c : CasePhrase} (h : c.IsRead capacity) :
    (TypePhrase.last c).CasesAreRead capacity := by
  intro levels rounds s after a cost cases values htokens hafter hrounds hgrows
  obtain ⟨rounds, rfl⟩ : ∃ k, rounds = k + 1 := ⟨rounds - 1, by
    simp only [TypePhrase.count] at hrounds
    omega⟩
  rw [readCases]
  refine (h levels s after htokens hafter.2).bind (fun _ hlacks => hlacks.mono ?_ ?_ ?_) ?_
  · exact Nat.le_refl _
  · exact List.Subset.refl _
  · show c.depth + (levels + 1) ≤ c.depth + 1 + levels
    omega
  rintro new t hfits ⟨hstands, hcase⟩
  have hbar : t.eat? Byte.bar = none := Progress.eat?_of_head_ne (by rw [hstands]; exact hafter.1)
  simp only [hbar]
  exact ⟨⟨hfits.nodes, hfits.texts, Nat.succ_le_succ hfits.levels⟩, hstands,
    hgrows.insertCase hcase⟩

theorem CasePhrase.IsRead.moreCases {c : CasePhrase} {rest : TypePhrase} (h : c.IsRead capacity)
    (hrest : rest.CasesAreRead capacity) : (TypePhrase.more c rest).CasesAreRead capacity := by
  intro levels rounds s after a cost cases values htokens hafter hrounds hgrows
  simp only [TypePhrase.count] at hrounds
  obtain ⟨rounds, rfl⟩ : ∃ k, rounds = k + 1 := ⟨rounds - 1, by omega⟩
  have hcase := h levels s (.byte Byte.bar :: (rest.tokens ++ after))
    (by rw [htokens]; simp [TypePhrase.tokens]) fun _ => by simp; decide
  rw [readCases]
  refine hcase.bind (fun _ hlacks => hlacks.mono ?_ ?_ ?_) ?_
  · exact Nat.add_le_add_left (Nat.le_add_right _ _) _
  · exact List.subset_append_left _ _
  · show c.depth + (levels + 1) ≤ max (c.depth + 1) rest.depth + levels
    omega
  rintro new t hfits ⟨hstands, hcase⟩
  have hbar : t.eat? Byte.bar = some t.skip := Progress.eat?_of_head (by rw [hstands]; rfl)
  have hskip : t.skip.tokens = rest.tokens ++ after := by
    rw [Progress.tokens_skip, hstands]
    rfl
  have hcases := hrest levels rounds t.skip after a _ _ _ hskip hafter (by omega)
    (hgrows.insertCase hcase)
  rw [Progress.arena_skip] at hcases
  have hsize := hcase.size
  simp only [hbar]
  refine hcases.imp (fun _ hlacks => hlacks.mono ?_ ?_ ?_) ?_
  · rw [hsize, Nat.add_assoc]
    exact Nat.le_refl _
  · exact List.subset_append_right _ _
  · exact Nat.add_le_add_right (Nat.le_max_right _ _) _
  rintro all u hfits' ⟨hstands', hgrows'⟩
  refine ⟨⟨?_, List.forall_mem_append.2 ⟨hfits.texts, hfits'.texts⟩, ?_⟩, hstands', ?_⟩
  · have hnodes := hfits'.nodes
    rwa [hsize, Nat.add_assoc] at hnodes
  · exact Nat.max_le.2 ⟨Nat.succ_le_succ hfits.levels, hfits'.levels⟩
  · simpa [TypePhrase.caseCost, TypePhrase.caseValues, Nat.add_assoc] using hgrows'

/-! ## All phrases -/

mutual

theorem TypePhrase.casesAreRead : ∀ phrase : TypePhrase,
    (∀ text ∈ phrase.texts, Byte.nul ∉ text) → phrase.CasesAreRead capacity
  | .last c, hnul => (c.isRead hnul).lastCase
  | .more c rest, hnul =>
    have hparts := List.forall_mem_append.1 hnul
    (c.isRead hparts.1).moreCases (rest.casesAreRead hparts.2)

theorem CasePhrase.isRead : ∀ phrase : CasePhrase,
    (∀ text ∈ phrase.texts, Byte.nul ∉ text) → phrase.IsRead capacity
  | .name text, hnul => nameIsRead (hnul text (List.mem_singleton_self text))
  | .literal text, hnul => literalIsRead (hnul text (List.mem_singleton_self text))
  | .array element, hnul => (element.casesAreRead hnul).isRead.array
  | .object fields, hnul => (fields.areRead hnul).object

theorem FieldsPhrase.areRead : ∀ phrase : FieldsPhrase,
    (∀ text ∈ phrase.texts, Byte.nul ∉ text) → phrase.AreRead capacity
  | .last _ _ type _, hnul =>
    have hparts := List.forall_mem_cons.1 hnul
    (type.casesAreRead hparts.2).isRead.lastField hparts.1
  | .more _ _ type rest, hnul =>
    have hparts := List.forall_mem_cons.1 hnul
    have htail := List.forall_mem_append.1 hparts.2
    (type.casesAreRead htail.1).isRead.moreFields hparts.1 (rest.areRead htail.2)

end

/-- Reading tokens that a type derives takes these tokens and stores the value of
    the type, or fails for lack of something that the type asks for. -/
theorem TypePhrase.isRead (phrase : TypePhrase)
    (hnul : ∀ text ∈ phrase.texts, Byte.nul ∉ text) : phrase.IsRead capacity :=
  (phrase.casesAreRead hnul).isRead

end Signature

end TypeSig
