/-
  TypeSig.Proofs.Overload.Offers

  What a list of overloads holds after any calls. Each call offers overloads, one at a
  time or those of another list, and the list goes on with what a refused call left. It
  always holds the first overloads of those that declare different methods, as many as it
  has room for (`kept`).

  A call that is refused half-way has offered the rest as well: from then on the list is
  full, and nothing that is offered to a full list is kept (`kept_append_of_le`).

  Main statement: `items_runAll`.
-/

import TypeSig.Proofs.Overload.Growth

namespace TypeSig.OverloadList

open Overload

variable {capacity : Nat}

/-! ## Calls -/

/-- A call that offers overloads to a list. -/
inductive Call
  | add (overload : Overload)
  | append (other : OverloadList)

namespace Call

/-- The overloads that a call offers. -/
def offered : Call → List Overload
  | .add overload => [overload]
  | .append other => other.items

/-- The list that a call leaves, whether it is refused or not. -/
def run (capacity : Nat) (list : OverloadList) : Call → OverloadList
  | .add overload =>
    match list.add capacity overload with
    | .ok (next, _) => next
    | .error _ => list
  | .append other => (list.append capacity other).1

/-- One overload is offered as a list of one is. -/
theorem run_eq_addAll (capacity : Nat) (list : OverloadList) (call : Call) :
    call.run capacity list = (list.addAll capacity call.offered).1 := by
  cases call with
  | add overload =>
    simp only [run, offered, addAll]
    cases list.add capacity overload <;> rfl
  | append other => rfl

end Call

/-- The list that calls make of the empty one, one after the other. -/
def runAll (capacity : Nat) (calls : List Call) : OverloadList :=
  calls.foldl (Call.run capacity) .empty

/-! ## What is kept -/

/-- The first distinct ones of some overloads, as many as there is room for. -/
def kept (capacity : Nat) (overloads : List Overload) : OverloadList :=
  ⟨(distinct overloads).take capacity⟩

theorem size_kept_le (capacity : Nat) (overloads : List Overload) :
    (kept capacity overloads).size ≤ capacity :=
  List.length_take_le capacity (distinct overloads)

/-- Where there is room left, nothing was dropped. -/
theorem kept_of_lt {overloads : List Overload} (h : (kept capacity overloads).size < capacity) :
    kept capacity overloads = ⟨distinct overloads⟩ := by
  simp only [kept, size, List.length_take] at h
  rw [kept, List.take_of_length_le (by omega)]

/-- What is offered to a full list is not kept. -/
theorem kept_append_of_le {overloads : List Overload}
    (h : capacity ≤ (kept capacity overloads).size) (more : List Overload) :
    kept capacity (overloads ++ more) = kept capacity overloads := by
  simp only [kept, size, List.length_take] at h
  rw [kept, distinct_append, List.take_append_of_le_length (by omega), kept]

/-- One more overload is dealt with as what is kept of all of them asks for. -/
theorem add_kept (capacity : Nat) (overloads : List Overload) (overload : Overload) :
    (∃ new, add capacity (kept capacity overloads) overload =
      .ok (kept capacity (overloads ++ [overload]), new)) ∨
    add capacity (kept capacity overloads) overload = .error .overloadsFull ∧
      capacity ≤ (kept capacity overloads).size := by
  rcases Nat.lt_or_ge (kept capacity overloads).size capacity with hroom | hfull
  · -- so far all distinct ones were kept, and with this one there is still room for them
    have hall := kept_of_lt hroom
    rw [hall] at hroom ⊢
    have hlength : (distinct (overloads ++ [overload])).length ≤ capacity := by
      rw [distinct_concat]
      split
      · exact Nat.le_of_lt hroom
      · rw [List.length_append]
        exact hroom
    obtain ⟨new, hadd⟩ := add_distinct overloads overload hlength
    rw [kept, List.take_of_length_le hlength]
    exact .inl ⟨new, hadd⟩
  · rw [kept_append_of_le hfull]
    by_cases hold : (kept capacity overloads).contains overload = true
    · exact .inl ⟨false, by rw [add, if_pos hold]⟩
    · exact .inr ⟨by rw [add, if_neg hold, if_pos hfull], hfull⟩

theorem addAll_kept (overloads more : List Overload) :
    (addAll capacity (kept capacity overloads) more).1 = kept capacity (overloads ++ more) := by
  induction more generalizing overloads with
  | nil => rw [List.append_nil, addAll]
  | cons overload rest ih =>
    rcases add_kept capacity overloads overload with ⟨new, hadd⟩ | ⟨hadd, hfull⟩
    · simp only [addAll, hadd]
      rw [ih, List.append_assoc, List.singleton_append]
    · -- the rest is not tried, and would not be kept either
      simp only [addAll, hadd]
      rw [kept_append_of_le hfull]

theorem foldl_run (calls : List Call) :
    ∀ overloads : List Overload, calls.foldl (Call.run capacity) (kept capacity overloads) =
      kept capacity (overloads ++ calls.flatMap Call.offered) := by
  induction calls with
  | nil => exact fun overloads => by rw [List.flatMap_nil, List.append_nil, List.foldl_nil]
  | cons call rest ih =>
    intro overloads
    rw [List.foldl_cons, Call.run_eq_addAll, addAll_kept, ih, List.flatMap_cons, List.append_assoc]

theorem runAll_eq_kept (capacity : Nat) (calls : List Call) :
    runAll capacity calls = kept capacity (calls.flatMap Call.offered) := by
  have hempty : kept capacity [] = .empty := by simp [kept, empty]
  rw [runAll, ← hempty, foldl_run, List.nil_append]

/-! ## What an addition answers -/

/-- An overload is there already, is put behind the others, or has no room. -/
theorem add_cases (capacity : Nat) (list : OverloadList) (overload : Overload) :
    (list.contains overload = true ∧ list.add capacity overload = .ok (list, false)) ∨
    (list.contains overload = false ∧ list.size < capacity ∧
      list.add capacity overload = .ok (⟨list.items ++ [overload]⟩, true)) ∨
    (list.contains overload = false ∧ capacity ≤ list.size ∧
      list.add capacity overload = .error .overloadsFull) := by
  cases hold : list.contains overload with
  | true => exact .inl ⟨rfl, by rw [add, if_pos hold]⟩
  | false =>
    have hnew : ¬ list.contains overload = true := Bool.eq_false_iff.1 hold
    rcases Nat.lt_or_ge list.size capacity with hroom | hfull
    · exact .inr (.inl ⟨rfl, hroom, by rw [add, if_neg hnew, if_neg (Nat.not_le.2 hroom)]⟩)
    · exact .inr (.inr ⟨rfl, hfull, by rw [add, if_neg hnew, if_pos hfull]⟩)

theorem add_eq_true_iff {list : OverloadList} {overload : Overload} :
    (∃ next, list.add capacity overload = .ok (next, true)) ↔
      list.contains overload = false ∧ list.size < capacity := by
  rcases add_cases capacity list overload with
    ⟨hold, hadd⟩ | ⟨hnew, hroom, hadd⟩ | ⟨hnew, hfull, hadd⟩
  · simp [hold, hadd]
  · simp [hnew, hroom, hadd]
  · simp [hnew, hfull, hadd]

theorem add_eq_false_iff {list : OverloadList} {overload : Overload} :
    (∃ next, list.add capacity overload = .ok (next, false)) ↔ list.contains overload = true := by
  rcases add_cases capacity list overload with ⟨hold, hadd⟩ | ⟨hnew, -, hadd⟩ | ⟨hnew, -, hadd⟩
  · simp [hold, hadd]
  · simp [hnew, hadd]
  · simp [hnew, hadd]

theorem add_eq_error_iff {list : OverloadList} {overload : Overload} {fault : Fault} :
    list.add capacity overload = .error fault ↔
      list.contains overload = false ∧ capacity ≤ list.size ∧ fault = .overloadsFull := by
  rcases add_cases capacity list overload with
    ⟨hold, hadd⟩ | ⟨hnew, hroom, hadd⟩ | ⟨hnew, hfull, hadd⟩
  · simp [hold, hadd]
  · simp [hnew, Nat.not_le.2 hroom, hadd]
  · simp [hnew, hfull, hadd, eq_comm]

theorem runAll_append (capacity : Nat) (calls more : List Call) :
    runAll capacity (calls ++ more) = more.foldl (Call.run capacity) (runAll capacity calls) :=
  List.foldl_append

/-- A list of overloads is the list of the first distinct ones that were ever offered to it,
    as many as it has room for. Declaring the same method is an equivalence, and what calls
    made of the empty list holds, in order, the first overloads of each method among all
    that the calls offered, up to the capacity; an append offers all overloads of the other
    list, also those behind one that was refused. So no two declare the same method, and
    later calls only put more behind them.
    To each such list an overload is added exactly if its method is new and there is room,
    an overload of a method that is there is not added, also if the list is full, and a
    new one for a full list is a fault that leaves the list as it is. -/
theorem items_runAll (capacity : Nat) (calls : List Call) :
    Equivalence (fun x y : Overload => x.sameIdentity y = true) ∧
    (runAll capacity calls).items = (distinct (calls.flatMap Call.offered)).take capacity ∧
    ((runAll capacity calls).items.Pairwise fun x y => x.sameIdentity y = false) ∧
    (∀ more, (runAll capacity calls).items <+: (runAll capacity (calls ++ more)).items) ∧
    ∀ overload,
      ((∃ next, (runAll capacity calls).add capacity overload = .ok (next, true)) ↔
        (∀ item ∈ (runAll capacity calls).items, item.sameIdentity overload = false) ∧
          (runAll capacity calls).size < capacity) ∧
      ((∃ next, (runAll capacity calls).add capacity overload = .ok (next, false)) ↔
        ∃ item ∈ (runAll capacity calls).items, item.sameIdentity overload = true) ∧
      (∀ fault, (runAll capacity calls).add capacity overload = .error fault ↔
        (∀ item ∈ (runAll capacity calls).items, item.sameIdentity overload = false) ∧
          (runAll capacity calls).size = capacity ∧ fault = .overloadsFull) ∧
      Fault.overloadsFull.kind = .capacityExceeded ∧
      ∀ fault, (runAll capacity calls).add capacity overload = .error fault →
        runAll capacity (calls ++ [.add overload]) = runAll capacity calls := by
  have hkept := runAll_eq_kept capacity calls
  have hsize : (runAll capacity calls).size ≤ capacity := hkept ▸ size_kept_le capacity _
  have hnew : ∀ overload, (runAll capacity calls).contains overload = false ↔
      ∀ item ∈ (runAll capacity calls).items, item.sameIdentity overload = false := by
    simp [contains]
  have hold : ∀ overload, (runAll capacity calls).contains overload = true ↔
      ∃ item ∈ (runAll capacity calls).items, item.sameIdentity overload = true := by
    simp [contains]
  refine ⟨⟨sameIdentity_refl, fun hxy => ?_, sameIdentity_trans⟩, by rw [hkept, kept], ?_,
    fun more => ?_, fun overload => ⟨?_, ?_, fun fault => ?_, rfl, fun fault hadd => ?_⟩⟩
  · rwa [sameIdentity_comm]
  · rw [hkept]
    exact (pairwise_distinct _).sublist (List.take_sublist capacity _)
  · -- what was distinct before stands in front of what is
    rw [hkept, runAll_eq_kept, List.flatMap_append, kept, kept, distinct_append]
    exact List.prefix_take_iff.2 ⟨(List.take_prefix _ _).trans (List.prefix_append _ _),
      List.length_take_le capacity _⟩
  · rw [add_eq_true_iff, hnew]
  · rw [add_eq_false_iff, hold]
  · rw [add_eq_error_iff, hnew]
    constructor
    · rintro ⟨hall, hfull, hfault⟩
      exact ⟨hall, Nat.le_antisymm hsize hfull, hfault⟩
    · rintro ⟨hall, hfull, hfault⟩
      exact ⟨hall, Nat.le_of_eq hfull.symm, hfault⟩
  · rw [runAll_append, List.foldl_cons, List.foldl_nil, Call.run, hadd]

end TypeSig.OverloadList
