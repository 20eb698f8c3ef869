/-
  TypeSig.Proofs.Overload.Distinct

  What a list of overloads keeps of the overloads that are offered to it: the
  first of each method. `distinct` says this of all overloads that were offered,
  without the list, and `extend_distinct` says that the list arrives there if it
  has room for what is left.

  Offering what a list kept is the same as offering what was offered to that list
  (`distinct_append_distinct`), so lists that are put into each other one level at
  a time may as well be flattened first. Methods are compared by an equivalence
  that is not equality: of two enumerated methods of one name the values may
  differ, and it is the first value that stays.
-/

import TypeSig.Overload.List
import Mathlib.Data.List.Nodup
import Mathlib.Data.List.Perm.Subperm

namespace TypeSig

namespace Overload

/-! ## Declaring the same method -/

@[simp] theorem sameIdentity_refl (x : Overload) : x.sameIdentity x = true := by
  obtain ⟨kind, name, params, body⟩ := x
  cases kind <;> simp [sameIdentity]

theorem sameIdentity_comm (x y : Overload) : x.sameIdentity y = y.sameIdentity x := by
  obtain ⟨kind, name, params, body⟩ := x
  obtain ⟨kind', name', params', body'⟩ := y
  rw [Bool.eq_iff_iff]
  cases kind <;> cases kind' <;>
    simp [sameIdentity, @eq_comm _ name', @eq_comm _ params', @eq_comm _ body']

theorem sameIdentity_trans {x y z : Overload} (hxy : x.sameIdentity y = true)
    (hyz : y.sameIdentity z = true) : x.sameIdentity z = true := by
  obtain ⟨kind, name, params, body⟩ := x
  obtain ⟨kind', name', params', body'⟩ := y
  obtain ⟨kind'', name'', params'', body''⟩ := z
  cases kind <;> cases kind' <;> cases kind'' <;> simp_all [sameIdentity]

/-- Overloads of the same method are the same as the same others. -/
theorem sameIdentity_congr {x y : Overload} (h : x.sameIdentity y = true) (z : Overload) :
    x.sameIdentity z = y.sameIdentity z := by
  rw [Bool.eq_iff_iff]
  exact ⟨sameIdentity_trans (by rwa [sameIdentity_comm]), sameIdentity_trans h⟩

/-! ## The first overload of each method -/

/-- Overloads without those that declare the same method as an earlier one. -/
def distinct : List Overload → List Overload
  | [] => []
  | x :: rest => x :: (distinct rest).filter fun y => !x.sameIdentity y

@[simp] theorem distinct_nil : distinct [] = [] := rfl

@[simp] theorem distinct_singleton (x : Overload) : distinct [x] = [x] := rfl

/-- Behind other overloads stays what is distinct and declares none of their
    methods. -/
theorem distinct_append (xs ys : List Overload) :
    distinct (xs ++ ys) =
      distinct xs ++ (distinct ys).filter fun y => !xs.any fun x => x.sameIdentity y := by
  induction xs with
  | nil => simp
  | cons x xs ih => simp [distinct, ih, List.filter_append, List.filter_filter]

/-- What is left declares the methods that there were. -/
@[simp] theorem any_distinct (xs : List Overload) (y : Overload) :
    (distinct xs).any (fun x => x.sameIdentity y) = xs.any fun x => x.sameIdentity y := by
  induction xs with
  | nil => rfl
  | cons x xs ih =>
    cases h : x.sameIdentity y with
    | true => simp [distinct, h]
    | false =>
      -- whatever `x` displaces is the same as `x`, so it is not the same as `y`
      have hkept : ∀ z : Overload,
          (!x.sameIdentity z && z.sameIdentity y) = z.sameIdentity y := by
        intro z
        cases hz : x.sameIdentity z with
        | false => rfl
        | true => rw [← sameIdentity_congr hz, h]; rfl
      simp [distinct, h, List.any_filter, hkept, ih]

/-- No two of those that are left declare the same method. -/
theorem pairwise_distinct (xs : List Overload) :
    (distinct xs).Pairwise fun x y => x.sameIdentity y = false := by
  induction xs with
  | nil => exact .nil
  | cons x xs ih =>
    refine List.pairwise_cons.2 ⟨fun y hy => ?_, ih.filter _⟩
    simpa using (List.mem_filter.1 hy).2

theorem distinct_eq_self {xs : List Overload}
    (h : xs.Pairwise fun x y => x.sameIdentity y = false) : distinct xs = xs := by
  induction xs with
  | nil => rfl
  | cons x xs ih =>
    obtain ⟨hx, hxs⟩ := List.pairwise_cons.1 h
    rw [distinct, ih hxs, List.filter_eq_self.2]
    intro y hy
    simp [hx y hy]

@[simp] theorem distinct_distinct (xs : List Overload) :
    distinct (distinct xs) = distinct xs :=
  distinct_eq_self (pairwise_distinct xs)

theorem distinct_append_distinct (xs ys : List Overload) :
    distinct (xs ++ distinct ys) = distinct (xs ++ ys) := by
  simp [distinct_append]

/-- One more overload stays if its method is new. -/
theorem distinct_concat (xs : List Overload) (y : Overload) :
    distinct (xs ++ [y]) =
      if xs.any fun x => x.sameIdentity y then distinct xs else distinct xs ++ [y] := by
  rw [distinct_append]
  cases h : xs.any fun x => x.sameIdentity y <;> simp [h]

theorem distinct_subset (xs : List Overload) : ∀ x ∈ distinct xs, x ∈ xs := by
  induction xs with
  | nil => simp
  | cons x xs ih =>
    intro y hy
    rcases List.mem_cons.1 hy with rfl | hy
    · exact List.mem_cons_self
    · exact List.mem_cons_of_mem _ (ih y (List.mem_filter.1 hy).1)

/-- An overload is left exactly where no earlier one declares its method. -/
theorem mem_distinct_iff {xs : List Overload} {y : Overload} :
    y ∈ distinct xs ↔
      ∃ before after, xs = before ++ y :: after ∧ ∀ x ∈ before, x.sameIdentity y = false := by
  induction xs with
  | nil => simp
  | cons x xs ih =>
    simp only [distinct, List.mem_cons, List.mem_filter, ih, Bool.not_eq_true']
    constructor
    · rintro (rfl | ⟨⟨before, after, rfl, hbefore⟩, hx⟩)
      · exact ⟨[], xs, rfl, by simp⟩
      · refine ⟨x :: before, after, rfl, ?_⟩
        simpa [hx] using hbefore
    · rintro ⟨before, after, heq, hbefore⟩
      cases before with
      | nil => exact Or.inl (List.cons.inj heq).1.symm
      | cons first before =>
        obtain ⟨rfl, rfl⟩ := List.cons.inj heq
        have hfirst := List.forall_mem_cons.1 hbefore
        exact Or.inr ⟨⟨before, after, rfl, hfirst.2⟩, hfirst.1⟩

theorem nodup_distinct (xs : List Overload) : (distinct xs).Nodup := by
  refine (pairwise_distinct xs).imp fun {x y} h => ?_
  rintro rfl
  simp at h

/-- There are no more methods than values that the overloads come from. -/
theorem length_distinct_le {α : Type*} {xs : List Overload} {sources : List α}
    {overload? : α → Option Overload} (h : ∀ x ∈ xs, ∃ a ∈ sources, overload? a = some x) :
    (distinct xs).length ≤ sources.length := by
  have hsubset : distinct xs ⊆ sources.filterMap overload? := fun x hx =>
    List.mem_filterMap.2 (h x (distinct_subset xs x hx))
  calc (distinct xs).length
      ≤ (sources.filterMap overload?).length :=
        (List.Nodup.subperm (nodup_distinct xs) hsubset).length_le
    _ ≤ sources.length := List.length_filterMap_le _ _

theorem length_distinct_le_length (xs : List Overload) : (distinct xs).length ≤ xs.length :=
  @length_distinct_le Overload xs xs some fun x hx => ⟨x, hx, rfl⟩

end Overload

/-! ## Filling a list -/

namespace OverloadList

open Overload

variable {capacity : Nat}

/-- A list that keeps the distinct ones of some overloads takes in one more. -/
theorem add_distinct (done : List Overload) (overload : Overload)
    (hroom : (distinct (done ++ [overload])).length ≤ capacity) :
    ∃ new, add capacity ⟨distinct done⟩ overload = .ok (⟨distinct (done ++ [overload])⟩, new) := by
  rw [distinct_concat] at hroom ⊢
  cases h : done.any fun x => x.sameIdentity overload with
  | true => exact ⟨false, by simp [add, contains, h]⟩
  | false =>
    have hsize : ¬ capacity ≤ (distinct done).length := by
      simp [h] at hroom
      omega
    exact ⟨true, by simp [add, contains, size, h, hsize]⟩

/-- A list that keeps the distinct ones of some overloads keeps those of more, if
    there is room for them. -/
theorem extend_distinct (done overloads : List Overload)
    (hroom : (distinct (done ++ overloads)).length ≤ capacity) :
    extend capacity ⟨distinct done⟩ overloads = .ok ⟨distinct (done ++ overloads)⟩ := by
  induction overloads generalizing done with
  | nil => simp [extend, addAll]
  | cons overload rest ih =>
    have hstep : done ++ overload :: rest = done ++ [overload] ++ rest := by simp
    -- what has been kept on the way is a part of what is kept at the end
    have hfirst : (distinct (done ++ [overload])).length ≤ capacity := by
      rw [hstep, distinct_append, List.length_append] at hroom
      omega
    obtain ⟨new, hadd⟩ := add_distinct done overload hfirst
    have hrest := ih (done ++ [overload]) (by rwa [← hstep])
    rw [hstep, ← hrest]
    simp only [extend, addAll, hadd]

theorem ofList_distinct (overloads : List Overload)
    (hroom : (distinct overloads).length ≤ capacity) :
    ofList capacity overloads = .ok ⟨distinct overloads⟩ :=
  extend_distinct [] overloads hroom

/-- A list of one overload. -/
theorem eq_of_ofList_singleton {overload : Overload} {list : OverloadList}
    (h : ofList capacity [overload] = .ok list) : list = ⟨[overload]⟩ := by
  rcases Nat.eq_zero_or_pos capacity with rfl | hpos
  · cases h
  · rw [ofList_distinct [overload] hpos] at h
    exact (Except.ok.inj h).symm

end OverloadList

end TypeSig
