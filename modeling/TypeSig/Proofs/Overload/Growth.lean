/-
  TypeSig.Proofs.Overload.Growth

  What stays true of a list of overloads while it grows. Overloads that it contains
  it goes on to contain, and one that it contains already does not change it, not
  even when the list is full. No two overloads in it ever declare the same method,
  and there are never more than the capacity (`IsProper`); a list of that sort is
  what its own overloads make.

  Main statements: `contains_of_mem_extend`, `extend_of_contains` and
  `IsProper.ofList_items`.
-/

import TypeSig.Proofs.Overload.Distinct
import TypeSig.Proofs.Text.Rendering

namespace TypeSig.OverloadList

variable {capacity : Nat} {list next : OverloadList} {overload : Overload}
  {overloads : List Overload}

/-! ## One more overload -/

theorem contains_append (list : OverloadList) (overload x : Overload) :
    contains ⟨list.items ++ [overload]⟩ x = (list.contains x || overload.sameIdentity x) := by
  simp [contains]

/-- Adding an overload leaves a list that contains it alone and puts it behind the others
    of a list that does not. -/
theorem add_eq_ok {new : Bool} (h : add capacity list overload = .ok (next, new)) :
    (list.contains overload = true ∧ next = list) ∨
      (list.contains overload = false ∧ list.size < capacity ∧
        next = ⟨list.items ++ [overload]⟩) := by
  unfold add at h
  split at h
  · next hold =>
    cases h
    exact .inl ⟨hold, rfl⟩
  · next hnew =>
    split at h
    · cases h
    · next hroom =>
      cases h
      exact .inr ⟨by simpa using hnew, Nat.not_le.1 hroom, rfl⟩

theorem contains_of_add {new : Bool} (h : add capacity list overload = .ok (next, new)) :
    next.contains overload = true := by
  rcases add_eq_ok h with ⟨hold, rfl⟩ | ⟨-, -, rfl⟩
  · exact hold
  · simp [contains_append]

/-! ## Several overloads -/

theorem extend_cons (capacity : Nat) (list : OverloadList) (overload : Overload)
    (rest : List Overload) :
    extend capacity list (overload :: rest) =
      add capacity list overload >>= fun added => extend capacity added.1 rest := by
  simp only [extend, addAll]
  cases add capacity list overload with
  | error fault => rfl
  | ok added => rfl

/-- What one addition keeps, several keep. -/
theorem extend_induction {motive : OverloadList → Prop}
    (hadd : ∀ {list next : OverloadList} {overload : Overload} {new : Bool},
      add capacity list overload = .ok (next, new) → motive list → motive next)
    (h : extend capacity list overloads = .ok next) (hlist : motive list) : motive next := by
  induction overloads generalizing list with
  | nil =>
    cases h
    exact hlist
  | cons overload rest ih =>
    rw [extend_cons] at h
    obtain ⟨⟨added, new⟩, hadded, hrest⟩ := bind_eq_ok_iff.1 h
    exact ih hrest (hadd hadded hlist)

theorem contains_of_extend (h : extend capacity list overloads = .ok next) {x : Overload}
    (hx : list.contains x = true) : next.contains x = true := by
  refine extend_induction (motive := fun list => list.contains x = true) ?_ h hx
  intro list next overload new hadd hx
  rcases add_eq_ok hadd with ⟨-, rfl⟩ | ⟨-, -, rfl⟩
  · exact hx
  · simp [contains_append, hx]

/-- A list contains what it took in. -/
theorem contains_of_mem_extend (h : extend capacity list overloads = .ok next) :
    ∀ x ∈ overloads, next.contains x = true := by
  induction overloads generalizing list with
  | nil => simp
  | cons overload rest ih =>
    rw [extend_cons] at h
    obtain ⟨⟨added, new⟩, hadded, hrest⟩ := bind_eq_ok_iff.1 h
    exact List.forall_mem_cons.2 ⟨contains_of_extend hrest (contains_of_add hadded), ih hrest⟩

/-- Overloads that a list contains are not added and need no room. -/
theorem extend_of_contains (h : ∀ x ∈ overloads, list.contains x = true) :
    extend capacity list overloads = .ok list := by
  induction overloads with
  | nil => rfl
  | cons overload rest ih =>
    obtain ⟨hfirst, hrest⟩ := List.forall_mem_cons.1 h
    rw [extend_cons, add, if_pos hfirst]
    exact ih hrest

/-! ## Proper lists -/

/-- No two overloads declare the same method, and there is room for all of them. -/
structure IsProper (capacity : Nat) (list : OverloadList) : Prop where
  pairwise : list.items.Pairwise fun x y => x.sameIdentity y = false
  size_le : list.size ≤ capacity

namespace IsProper

theorem empty : IsProper capacity .empty := ⟨.nil, Nat.zero_le _⟩

theorem add {new : Bool} (h : add capacity list overload = .ok (next, new))
    (hlist : list.IsProper capacity) : next.IsProper capacity := by
  rcases add_eq_ok h with ⟨-, rfl⟩ | ⟨hnew, hroom, rfl⟩
  · exact hlist
  · refine ⟨List.pairwise_append.2 ⟨hlist.pairwise, List.pairwise_singleton _ _, ?_⟩, ?_⟩
    · intro x hx y hy
      obtain rfl := List.mem_singleton.1 hy
      simpa using List.any_eq_false.1 hnew x hx
    · simpa [size] using Nat.succ_le_of_lt hroom

theorem extend (h : extend capacity list overloads = .ok next) (hlist : list.IsProper capacity) :
    next.IsProper capacity :=
  extend_induction add h hlist

theorem ofList (h : ofList capacity overloads = .ok next) : next.IsProper capacity :=
  empty.extend h

/-- The overloads of a proper list make that list again. -/
theorem ofList_items (h : list.IsProper capacity) :
    OverloadList.ofList capacity list.items = .ok list := by
  have heq := Overload.distinct_eq_self h.pairwise
  rw [ofList_distinct list.items (by rw [heq]; exact h.size_le), heq]

end IsProper

end TypeSig.OverloadList
