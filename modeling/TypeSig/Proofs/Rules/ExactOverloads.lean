/-
  TypeSig.Proofs.Rules.ExactOverloads

  Overloads of bounded texts against the methods without a bound. What an outermost type
  produces is compared as a whole: either every method is there with its texts, or some
  text of them is too long (`Delivers`). A union drops a method that it has already; if a
  text of that one is too long, the one that it has is too long as well, since regular
  methods are only the same if their texts are.

  The lists of overloads have a bound of their own, which is passed over while a tree is
  followed and is then seen never to be met (`Rules.topLevel_ne_overloadsFull`).

  Main statement: `StoredTree.outputs_exact`.
-/

import TypeSig.Proofs.Overload.Growth
import TypeSig.Proofs.Rules.Exact
import TypeSig.Proofs.Rules.Flatten
import TypeSig.Proofs.Rules.Safety

namespace TypeSig

open Unbounded (Method Part)

/-! ## Methods with and without a bound -/

/-- An overload without the bounds on its texts. -/
def Overload.method (overload : Overload) : Method :=
  ⟨overload.kind, overload.name.bytes, overload.params.bytes, overload.body.bytes⟩

theorem Overload.sameIdentity_method (x y : Overload) :
    x.method.sameIdentity y.method = x.sameIdentity y := by
  have hbytes : ∀ {limit : Nat} (s t : BoundedText limit), (s.bytes == t.bytes) = (s == t) := by
    intro limit s t
    rw [Bool.eq_iff_iff, beq_iff_eq, beq_iff_eq, BoundedText.ext_iff]
  cases hkind : x.kind <;> simp [method, Method.sameIdentity, sameIdentity, hbytes, hkind]

theorem Overload.length_le_of_mem_texts (overload : Overload) :
    ∀ text ∈ overload.method.texts, text.length ≤ 511 := by
  obtain ⟨kind, name, params, body⟩ := overload
  cases kind with
  | regular =>
    exact List.forall_mem_cons.2 ⟨params.length_le, List.forall_mem_singleton.2 body.length_le⟩
  | enum => exact List.forall_mem_nil _

namespace Unbounded.Method

/-- The parameters or the body of one of the methods are too long. -/
def SomeTooLong (methods : List Method) : Prop :=
  ∃ method ∈ methods, ∃ text ∈ method.texts, 511 < text.length

theorem mem_insert_of_mem {methods : List Method} {method : Method} (h : method ∈ methods)
    (new : Method) : method ∈ insert methods new := by
  unfold insert
  split
  · exact h
  · exact List.mem_append_left _ h

/-- Where a method is not added, one with the same texts is there already. -/
theorem exists_mem_insert_self (methods : List Method) (new : Method) :
    ∃ old ∈ insert methods new, old.texts = new.texts := by
  unfold insert
  split
  · next hany =>
    obtain ⟨old, hold, hsame⟩ := List.any_eq_true.1 hany
    refine ⟨old, hold, ?_⟩
    obtain ⟨kind, name, params, body⟩ := old
    obtain ⟨kind', name', params', body'⟩ := new
    cases kind <;> cases kind' <;> simp_all [sameIdentity, texts]
  · exact ⟨new, List.mem_append_right _ List.mem_cons_self, rfl⟩

theorem exists_mem_foldl_insert {methods kept : List Method} {method : Method}
    (h : (∃ old ∈ kept, old.texts = method.texts) ∨ method ∈ methods) :
    ∃ old ∈ methods.foldl insert kept, old.texts = method.texts := by
  induction methods generalizing kept with
  | nil => exact h.resolve_right List.not_mem_nil
  | cons first rest ih =>
    rw [List.foldl_cons]
    apply ih
    rcases h with ⟨old, hkept, htexts⟩ | hmem
    · exact Or.inl ⟨old, mem_insert_of_mem hkept first, htexts⟩
    · rcases List.mem_cons.1 hmem with rfl | hrest
      · exact Or.inl (exists_mem_insert_self kept method)
      · exact Or.inr hrest

/-- A text that is too long is still there when repeated methods are dropped. -/
theorem SomeTooLong.foldl_insert {methods : List Method} (h : SomeTooLong methods)
    (kept later : List Method) : SomeTooLong ((methods ++ later).foldl insert kept) := by
  obtain ⟨method, hmem, text, htext, hlong⟩ := h
  obtain ⟨old, hold, htexts⟩ :=
    @exists_mem_foldl_insert (methods ++ later) kept method (Or.inr (List.mem_append_left _ hmem))
  exact ⟨old, hold, text, htexts ▸ htext, hlong⟩

end Unbounded.Method

/-- What overloads come to, against the methods without a bound: the same methods, or the
    fault that a text of them is too long. Where there are no such methods, they are some
    fault. -/
inductive Delivers : Option (List Method) → Except Fault (List Overload) → Prop
  | ok (overloads : List Overload) :
      Delivers (some (overloads.map Overload.method)) (.ok overloads)
  | tooLong {methods : List Method} {limit : Nat} : Method.SomeTooLong methods →
      Delivers (some methods) (.error (.textTooLong limit))
  | none (fault : Fault) : Delivers none (.error fault)

namespace Delivers

variable {result : Except Fault OverloadList}

/-- What becomes of methods that exist without a bound. -/
theorem eq_of_some {methods : List Method}
    (h : Delivers (some methods) (result.map OverloadList.items)) :
    ((∀ method ∈ methods, ∀ text ∈ method.texts, text.length ≤ 511) →
      ∃ list, result = .ok list ∧ list.items.map Overload.method = methods) ∧
      (Method.SomeTooLong methods → ∃ limit, result = .error (.textTooLong limit)) := by
  cases result with
  | ok list =>
    cases h
    refine ⟨fun _ => ⟨list, rfl, rfl⟩, ?_⟩
    rintro ⟨method, hmem, text, htext, hlong⟩
    obtain ⟨overload, -, rfl⟩ := List.mem_map.1 hmem
    exact absurd (overload.length_le_of_mem_texts text htext) (Nat.not_le_of_lt hlong)
  | error fault =>
    cases h with
    | tooLong hlong =>
      refine ⟨fun hfit => ?_, fun _ => ⟨_, rfl⟩⟩
      obtain ⟨method, hmem, text, htext, hlong⟩ := hlong
      exact absurd (hfit method hmem text htext) (Nat.not_le_of_lt hlong)

/-- Overloads that were made are the methods without a bound. -/
theorem eq_of_ok {given : Option (List Method)} {list : OverloadList}
    (h : Delivers given ((Except.ok list).map OverloadList.items)) :
    given = some (list.items.map Overload.method) := by
  cases h
  rfl

end Delivers

/-! ## Lists of overloads -/

namespace OverloadList

variable {capacity : Nat} {list next : OverloadList} {overloads : List Overload}

theorem add_method {overload : Overload} {new : Bool}
    (h : add capacity list overload = .ok (next, new)) :
    next.items.map Overload.method =
      Method.insert (list.items.map Overload.method) overload.method := by
  have hany : (list.items.map Overload.method).any (fun old => old.sameIdentity overload.method) =
      list.contains overload := by
    rw [List.any_map, contains]
    congr 1
    funext old
    exact Overload.sameIdentity_method old overload
  rw [Method.insert, hany]
  rcases add_eq_ok h with ⟨hold, rfl⟩ | ⟨hnew, -, rfl⟩
  · rw [if_pos hold]
  · rw [hnew, if_neg Bool.false_ne_true, List.map_append, List.map_singleton]

theorem extend_method (h : extend capacity list overloads = .ok next) :
    next.items.map Overload.method =
      (overloads.map Overload.method).foldl Method.insert (list.items.map Overload.method) := by
  induction overloads generalizing list with
  | nil =>
    cases h
    rfl
  | cons overload rest ih =>
    rw [extend_cons] at h
    obtain ⟨⟨added, new⟩, hadd, hrest⟩ := bind_eq_ok_iff.1 h
    rw [ih hrest, add_method hadd, List.map_cons, List.foldl_cons]

/-- A list takes in all overloads unless it is full. -/
theorem extend_eq_error {fault : Fault} (h : extend capacity list overloads = .error fault) :
    fault = .overloadsFull := by
  induction overloads generalizing list with
  | nil => cases h
  | cons overload rest ih =>
    rw [extend_cons] at h
    rcases bind_eq_error_iff.1 h with hadd | ⟨added, -, hrest⟩
    · unfold add at hadd
      split at hadd
      · cases hadd
      · split at hadd
        · cases hadd
          rfl
        · cases hadd
    · exact ih hrest

end OverloadList

/-- A single regular overload is exact if its texts are. -/
theorem regular_exact {capacity : Nat} (hpos : 0 < capacity) {params body : Except Fault Text}
    {p b : Part} (hparams : Exact p (partPiece params)) (hbody : Exact b (partPiece body)) :
    Delivers (p.bind fun p => b.bind fun b => some [.regular p b])
      ((params >>= fun params => body >>= fun body =>
        OverloadList.ofList capacity [.regular params body]).map OverloadList.items) := by
  rcases exact_part_iff.1 hparams with
    ⟨text, rfl, rfl⟩ | ⟨⟨limit, rfl⟩, bytes, rfl, hlong⟩ | ⟨rfl, fault, rfl⟩
  · -- with parameters, the overload depends on the body
    rcases exact_part_iff.1 hbody with
      ⟨text', rfl, rfl⟩ | ⟨⟨limit, rfl⟩, bytes, rfl, hlong⟩ | ⟨rfl, fault, rfl⟩
    · have hlist := OverloadList.ofList_distinct [Overload.regular text text'] hpos
      show Delivers _ ((OverloadList.ofList capacity [.regular text text']).map OverloadList.items)
      rw [hlist]
      exact .ok [.regular text text']
    · exact .tooLong ⟨_, List.mem_cons_self, bytes, by simp, hlong⟩
    · exact .none fault
  · cases b with
    | none => exact .none (.textTooLong limit)
    | some code => exact .tooLong ⟨_, List.mem_cons_self, bytes, by simp, hlong⟩
  · exact .none fault

namespace Rules

open TypeTree

variable {capacity arity : Nat}

/-! ## Types without cases -/

theorem topLevelObject_exact (hpos : 0 < capacity) {children : List TypeTree}
    (hroom : (TypeTree.node .object children).HasRoom capacity) :
    Delivers (Unbounded.topLevel arity (.node .object children))
      (((ofArity capacity arity).topLevel (.node .object children)).map OverloadList.items) := by
  have hfields := @fields_exact capacity arity children hroom.regular fun child hmem =>
    nested_exact (hroom.child child hmem)
  have hnames := @name_le_of_mem_fields capacity arity children hroom
  have hlength := @length_fields_le capacity arity children hroom
  have hparams := parameters_exact hnames hlength hfields
  have hbody := @objectLiteral_exact capacity
    ((Unbounded.fields arity children).map Unbounded.Field.name)
    (by simpa using hnames) (by simpa using hlength)
  have hexact := regular_exact hpos hparams hbody
  rw [bind_assoc] at hexact
  rw [topLevel_object, Default.topLevelObject, map_name_of_exact hfields]
  exact hexact

/-- An outermost type that is neither a union nor a field is exact. -/
theorem topLevel_exact_case (hpos : 0 < capacity) {tree : TypeTree} (hroom : tree.HasRoom capacity)
    (hunion : tree.label ≠ .union) (hfield : tree.label.kind ≠ .field) :
    Delivers (Unbounded.topLevel arity tree)
      (((ofArity capacity arity).topLevel tree).map OverloadList.items) := by
  obtain ⟨label, children⟩ := tree
  cases label with
  | atomic type =>
    have hparams := render_exact (.cons (.ok (ascii "(value: ")) (.cons (atomic_exact type)
      (.cons (.ok (ascii ")")) .nil)))
    have hbytes : Unbounded.concat
        [some (ascii "(value: "), some (Unbounded.atomic type), some (ascii ")")] =
        some (ascii "(value: " ++ Unbounded.atomic type ++ ascii ")") := by
      rw [concat_some_cons, concat_some_cons, concat_some_cons]
      simp [Unbounded.concat]
    have hbody : Exact (some (ascii "value")) (partPiece (.ok valueBody)) := .ok (ascii "value")
    rw [hbytes] at hparams
    exact regular_exact hpos hparams hbody
  | object => exact topLevelObject_exact hpos hroom
  | array =>
    obtain ⟨element, rfl, -, -⟩ := hroom.regular.exists_only (Or.inl rfl)
    have helement := @nested_exact capacity arity element (hroom.child element List.mem_cons_self)
    have hparams := render_exact (.cons (.ok (ascii "([<ParamArray>] values: "))
      (.cons helement (.cons (.ok (ascii " [])")) .nil)))
    have hbody : Exact (some (ascii "values")) (partPiece (.ok Default.valuesBody)) :=
      .ok (ascii "values")
    exact regular_exact hpos hparams hbody
  | field name optional => exact absurd rfl hfield
  | union => exact absurd rfl hunion

/-! ## Unions -/

/-- The overloads of a case are exact: a literal has room for its name and its value. -/
theorem overloadsOf_exact {child : TypeTree} (htext : child.label.text.length ≤ nameLimit)
    (h : (ofArity capacity arity).topLevel child ≠ .error .overloadsFull →
      Delivers (Unbounded.topLevel arity child)
        (((ofArity capacity arity).topLevel child).map OverloadList.items))
    (hroom : (ofArity capacity arity).overloadsOf child ≠ .error .overloadsFull) :
    Delivers (Unbounded.caseMethod child.label (Unbounded.topLevel arity child))
      ((ofArity capacity arity).overloadsOf child) := by
  unfold overloadsOf at hroom ⊢
  unfold Unbounded.caseMethod
  cases hliteral : child.label.literal? with
  | some text =>
    -- the text of a node is short, so neither the name nor the value is too long
    rw [text_of_literal? hliteral] at htext
    obtain ⟨method, hmethod⟩ := Target.adaptName_of_length_le htext
    obtain ⟨value, hvalue, -⟩ := Target.quotedCode_of_length_le htext
    have hquoted := quotedCode_exact text
    rw [hvalue] at hquoted
    have hbytes := Option.some.inj (eq_of_exact_ok hquoted)
    simp only [hmethod, hvalue, bind, Except.bind]
    rw [← Target.adaptName_bytes hmethod, hbytes]
    exact .ok [.enum method value]
  | none =>
    rw [hliteral] at hroom
    apply h
    intro hfull
    exact hroom (by rw [hfull]; rfl)

/-- What a union collects is exact if its cases are, up to the fault that the list is
    full. -/
theorem collect_exact {children : List TypeTree}
    (hcases : ∀ child ∈ children,
      (ofArity capacity arity).overloadsOf child ≠ .error .overloadsFull →
      Delivers (Unbounded.caseMethod child.label (Unbounded.topLevel arity child))
        ((ofArity capacity arity).overloadsOf child)) :
    ∀ list : OverloadList,
      Default.collect capacity list ((ofArity capacity arity).caseOverloads children) ≠
        .error .overloadsFull →
      Delivers
        ((Unbounded.caseMethods arity children).map fun methods =>
          methods.foldl Method.insert (list.items.map Overload.method))
        ((Default.collect capacity list
          ((ofArity capacity arity).caseOverloads children)).map OverloadList.items) := by
  induction children with
  | nil => exact fun list _ => .ok list.items
  | cons child rest ih =>
    obtain ⟨hchild, hrest⟩ := List.forall_mem_cons.1 hcases
    intro list hroom
    rw [caseOverloads, Default.collect, caseItems_eq] at hroom ⊢
    rw [Unbounded.caseMethods]
    cases hitems : (ofArity capacity arity).overloadsOf child with
    | error fault =>
      rw [hitems] at hroom hchild
      have hfault : (.error fault : Except Fault (List Overload)) ≠ .error .overloadsFull := by
        rintro ⟨⟩
        exact hroom rfl
      show Delivers _ (.error fault)
      generalize Unbounded.caseMethod child.label (Unbounded.topLevel arity child) = given at hchild
      cases hchild hfault with
      | none => exact .none fault
      | @tooLong methods limit hlong =>
        -- what the later cases would give does not make the text any shorter
        cases Unbounded.caseMethods arity rest with
        | none => exact .none (.textTooLong limit)
        | some later => exact .tooLong (hlong.foldl_insert _ later)
    | ok items =>
      rw [hitems] at hroom hchild
      generalize Unbounded.caseMethod child.label (Unbounded.topLevel arity child) = given at hchild
      cases hchild (by rintro ⟨⟩) with
      | ok =>
        cases hextend : list.extend capacity items with
        | error fault =>
          -- a full list is the one fault that was passed over
          obtain rfl := OverloadList.extend_eq_error hextend
          exact absurd (bind_eq_error_iff.2 (Or.inr ⟨items, rfl,
            bind_eq_error_iff.2 (Or.inl hextend)⟩)) hroom
        | ok next =>
          have hrun : (Except.ok items >>= fun items => list.extend capacity items >>= fun list =>
              Default.collect capacity list ((ofArity capacity arity).caseOverloads rest)) =
              Default.collect capacity next ((ofArity capacity arity).caseOverloads rest) := by
            simp only [bind, Except.bind, hextend]
          rw [hrun] at hroom ⊢
          have hlater := ih hrest next hroom
          rw [OverloadList.extend_method hextend] at hlater
          cases hmethods : Unbounded.caseMethods arity rest with
          | none =>
            rw [hmethods] at hlater
            exact hlater
          | some later =>
            rw [hmethods] at hlater
            show Delivers (some (((items.map Overload.method) ++ later).foldl Method.insert _)) _
            rw [List.foldl_append]
            exact hlater

/-- The overloads of an outermost type with room are those without a bound if all their
    texts fit, and too long if one does not, up to the fault that a list is full. -/
theorem topLevel_exact (hpos : 0 < capacity) {tree : TypeTree} (hroom : tree.HasRoom capacity) :
    (ofArity capacity arity).topLevel tree ≠ .error .overloadsFull →
      Delivers (Unbounded.topLevel arity tree)
        (((ofArity capacity arity).topLevel tree).map OverloadList.items) := by
  induction tree using TypeTree.induction with
  | node label children ih =>
    intro hfull
    by_cases hunion : label = .union
    · subst hunion
      refine collect_exact (fun child hmem => ?_) .empty hfull
      have hchild := hroom.child child hmem
      exact overloadsOf_exact hchild.label_text_le (ih child hmem hchild)
    · by_cases hfield : label.kind = .field
      · obtain ⟨type, rfl, -, -⟩ := hroom.regular.exists_only (Or.inr hfield)
        cases label with
        | field name optional =>
          exact ih type List.mem_cons_self (hroom.child type List.mem_cons_self) hfull
        | _ => cases hfield
      · exact topLevel_exact_case hpos hroom hunion hfield

/-! ## Room for the overloads of stored trees -/

/-- The methods of a union are made of methods of its cases. -/
theorem exists_of_mem_caseMethods {children : List TypeTree} {methods : List Method}
    (h : Unbounded.caseMethods arity children = some methods) :
    ∀ child ∈ children, ∃ given, Unbounded.topLevel arity child = some given := by
  induction children generalizing methods with
  | nil => exact List.forall_mem_nil _
  | cons child rest ih =>
    rw [Unbounded.caseMethods] at h
    obtain ⟨first, hfirst, h⟩ := Option.bind_eq_some_iff.1 h
    obtain ⟨others, hothers, -⟩ := Option.map_eq_some_iff.1 h
    refine List.forall_mem_cons.2 ⟨?_, ih hothers⟩
    obtain ⟨label, below⟩ := child
    cases label with
    | atomic type => exact ⟨_, rfl⟩
    | _ => exact ⟨first, hfirst⟩

theorem exists_of_mem_flatCases {tree : TypeTree} {methods : List Method}
    (h : Unbounded.topLevel arity tree = some methods) :
    ∀ case ∈ tree.flatCases, ∃ given, Unbounded.topLevel arity case = some given := by
  have hchild : ∀ children,
      (∃ given, Unbounded.topLevel arity (.node .union children) = some given) →
      ∀ child ∈ children, ∃ given, Unbounded.topLevel arity child = some given := by
    rintro children ⟨given, hgiven⟩
    obtain ⟨all, hall, -⟩ := Option.map_eq_some_iff.1 hgiven
    exact exists_of_mem_caseMethods hall
  have hcases := forall_mem_flatCases
    (motive := fun part => ∃ given, Unbounded.topLevel arity part = some given) hchild ⟨methods, h⟩
  exact fun case hcase => (hcases case hcase).1

/-- A type without cases gives one overload, and that has room. -/
theorem topLevel_ne_overloadsFull_case (hpos : 0 < capacity) {tree : TypeTree}
    (hroom : tree.HasRoom capacity) (hunion : tree.label ≠ .union)
    (hfield : tree.label.kind ≠ .field) {methods : List Method}
    (hmethods : Unbounded.topLevel arity tree = some methods) :
    (ofArity capacity arity).topLevel tree ≠ .error .overloadsFull := by
  intro hfull
  have hdelivers := @topLevel_exact_case capacity arity hpos tree hroom hunion hfield
  rw [hmethods, hfull] at hdelivers
  cases hdelivers

/-- The lists of overloads are never full for a stored tree that has methods. -/
theorem topLevel_ne_overloadsFull {arena : Arena} {id : Nat} {tree : TypeTree}
    (htree : arena.tree? id = some tree) (hsize : arena.size ≤ capacity)
    (hroom : tree.HasRoom capacity) {methods : List Method}
    (hmethods : Unbounded.topLevel arity tree = some methods) :
    (ofArity capacity arity).topLevel tree ≠ .error .overloadsFull := by
  have hpos : 0 < capacity := by
    have hlt := Arena.lt_of_tree? htree
    omega
  -- a type is a union or no union; a field stands for its type, which is stored as well
  have htype : ∀ {id : Nat} {type : TypeTree}, arena.tree? id = some type →
      type.HasRoom capacity → type.label.kind ≠ .field →
      Unbounded.topLevel arity type = some methods →
      (ofArity capacity arity).topLevel type ≠ .error .overloadsFull := by
    intro id type htype hroom hfield hmethods hfull
    by_cases hunion : type.label = .union
    · obtain ⟨label, children⟩ := type
      obtain rfl : label = .union := hunion
      have hdistinct := (topLevel_eq_distinct htype hroom.regular hsize).symm.trans hfull
      cases hall : (ofArity capacity arity).overloadsOfAll
          (TypeTree.union children).flatCases with
      | ok overloads =>
        rw [hall] at hdistinct
        cases hdistinct
      | error fault =>
        -- the fault comes from a flattened case, and these give one overload each
        rw [hall] at hdistinct
        obtain rfl : fault = .overloadsFull := Except.error.inj hdistinct
        obtain ⟨case, hcase, herror⟩ := exists_of_overloadsOfAll_eq_error hall
        have hcaseRoom := hroom.subtree case (flatCases_subset _ case hcase)
        have hplain := hroom.regular.of_mem_flatCases hfield case hcase
        obtain ⟨given, hgiven⟩ := exists_of_mem_flatCases hmethods case hcase
        exact topLevel_ne_overloadsFull_case hpos hcaseRoom hplain.2 hplain.1.2 hgiven
          (topLevel_eq_error_of_overloadsOf hcaseRoom.label_text_le herror)
    · exact topLevel_ne_overloadsFull_case hpos hroom hunion hfield hmethods hfull
  by_cases hfield : tree.label.kind = .field
  · obtain ⟨label, children⟩ := tree
    cases label with
    | field name optional =>
      obtain ⟨type, rfl, -, hkind⟩ := hroom.regular.exists_only (Or.inr rfl)
      obtain ⟨k, hk⟩ := (Arena.tree?_eq_some htree).2 type List.mem_cons_self
      rw [← TypeTree.field, topLevel_field]
      exact htype hk (hroom.child type List.mem_cons_self) hkind hmethods
    | _ => cases hfield
  · exact htype htree hroom hfield hmethods

end Rules

/-! ## Stored trees -/

namespace StoredTree

variable {capacity arity : Nat} {stored : StoredTree} {tree : TypeTree}

/-- What is made of a stored regular tree under the default rules is what would be made
    of it if texts had no bound, if that exists. Each text is there in full if it has at
    most 511 bytes, and otherwise there is the fault that a text is too long, be it this
    one or a name in it; none is too long because of something that is put together on the
    way and then left out. The
    overloads are all there if the parameters and the body of each have at most 511
    bytes. No text that comes out is ever a part of the one without a bound. -/
theorem outputs_exact (htree : stored.tree? = some tree) (hsize : stored.arena.size ≤ capacity)
    (htexts : ∀ part ∈ tree.subtrees, part.label.text.length ≤ nameLimit)
    (hregular : tree.Regular) :
    (∀ bytes, Unbounded.nested arity tree = some bytes →
      (∀ hfits : bytes.length ≤ 511,
        stored.nested (.ofArity capacity arity) = .ok ⟨bytes, hfits⟩) ∧
      (511 < bytes.length →
        ∃ limit, stored.nested (.ofArity capacity arity) = .error (.textTooLong limit))) ∧
    ((∀ hfits : (Unbounded.signature tree).length ≤ 511,
        stored.write = .ok ⟨Unbounded.signature tree, hfits⟩) ∧
      (511 < (Unbounded.signature tree).length →
        ∃ limit, stored.write = .error (.textTooLong limit))) ∧
    (∀ methods, Unbounded.topLevel arity tree = some methods →
      ((∀ method ∈ methods, ∀ text ∈ method.texts, text.length ≤ 511) →
        ∃ list, stored.topLevel (.ofArity capacity arity) = .ok list ∧
          list.items.map Overload.method = methods) ∧
      ((∃ method ∈ methods, ∃ text ∈ method.texts, 511 < text.length) →
        ∃ limit, stored.topLevel (.ofArity capacity arity) = .error (.textTooLong limit))) ∧
    (∀ text, stored.nested (.ofArity capacity arity) = .ok text →
      Unbounded.nested arity tree = some text.bytes) ∧
    (∀ text, stored.write = .ok text → Unbounded.signature tree = text.bytes) ∧
    (∀ list, stored.topLevel (.ofArity capacity arity) = .ok list →
      Unbounded.topLevel arity tree = some (list.items.map Overload.method)) := by
  have hrequire := requireTree_of_tree? htree
  obtain ⟨id, -, hid⟩ := Option.bind_eq_some_iff.1 htree
  have hroom := TypeTree.HasRoom.of_tree? hid hsize hregular htexts
  have hpos : 0 < capacity := by
    have hlt := Arena.lt_of_tree? hid
    omega
  have hnested : stored.nested (.ofArity capacity arity) =
      (Rules.ofArity capacity arity).nested tree := by
    rw [nested, hrequire]
    rfl
  have hwrite : stored.write = Signature.write tree := by
    rw [write, hrequire]
    rfl
  have htop : stored.topLevel (.ofArity capacity arity) =
      (Rules.ofArity capacity arity).topLevel tree := by
    rw [topLevel, hrequire]
    rfl
  have hexact : Exact (Unbounded.nested arity tree)
      (partPiece ((Rules.ofArity capacity arity).nested tree)) := Rules.nested_exact hroom
  have hsignature := Signature.write_exact hregular
  have hoverloads := @Rules.topLevel_exact capacity arity hpos tree hroom
  rw [hnested, hwrite, htop]
  -- what is expected of a result, and then what a result tells
  refine ⟨fun bytes hbytes => ?_, ?_, fun methods hmethods => ?_, fun text htext => ?_,
    fun text htext => ?_, fun list hlist => ?_⟩
  · rw [hbytes] at hexact
    exact eq_of_exact_some hexact
  · exact eq_of_exact_some hsignature
  · have hdelivers := hoverloads (Rules.topLevel_ne_overloadsFull hid hsize hroom hmethods)
    rw [hmethods] at hdelivers
    exact hdelivers.eq_of_some
  · rw [htext] at hexact
    exact eq_of_exact_ok hexact
  · rw [htext] at hsignature
    exact Option.some.inj (eq_of_exact_ok hsignature)
  · rw [hlist] at hoverloads
    exact (hoverloads (by rintro ⟨⟩)).eq_of_ok

/-- An arena that holds an object with a number under a name that is no word of the target
    language, and with an array of strings that may be left out. -/
def recordOfArray : StoredTree :=
  ⟨⟨[.leaf (.atomic ⟨.number, []⟩), ⟨.field (ascii "a-b") false, some 0, some 4, 1⟩,
    .leaf (.atomic ⟨.string, []⟩), ⟨.array, some 2, none, 1⟩,
    ⟨.field (ascii "c") true, some 3, none, 1⟩, ⟨.object, some 1, none, 2⟩]⟩, some 5⟩

theorem outputs_exact_sample :
    ∃ tree, recordOfArray.tree? = some tree ∧ recordOfArray.arena.size ≤ 6 ∧
      (∀ part ∈ tree.subtrees, part.label.text.length ≤ nameLimit) ∧ tree.Regular ∧
      recordOfArray.nested (.ofArity 6 9) =
        .ok ⟨ascii "\x7b| aB: float; c: string [] option |\x7d", by decide⟩ ∧
      recordOfArray.write =
        .ok ⟨ascii "\x7b\"a-b\": number, c?: Array<string>\x7d", by decide⟩ ∧
      ∃ list, recordOfArray.topLevel (.ofArity 6 9) = .ok list ∧
        list.items.map Overload.method =
          [.regular (ascii "(aB: float, ?c: string [])")
            (ascii "createObj [ \"a-b\" ==> aB; \"c\" ==> c ]")] := by
  let tree : TypeTree := .object [.field (ascii "a-b") false (.atomic .number []),
    .field (ascii "c") true (.array (.atomic .string []))]
  have htree : recordOfArray.tree? = some tree := by decide
  have hsize : recordOfArray.arena.size ≤ 6 := by decide
  have htexts : ∀ part ∈ tree.subtrees, part.label.text.length ≤ nameLimit := by decide
  have hregular : tree.Regular := by decide
  obtain ⟨hnested, hwrite, htop, -⟩ :=
    @outputs_exact 6 9 recordOfArray tree htree hsize htexts hregular
  refine ⟨tree, htree, hsize, htexts, hregular, ?_, ?_, ?_⟩
  · exact (hnested _ (by decide +kernel)).1 (by decide)
  · exact hwrite.1 (by decide)
  · exact (htop _ (by decide +kernel)).1 (by decide +kernel)

end StoredTree

end TypeSig
