/-
  TypeSig.Proofs.Text.SameUnless

  Two runs side by side, of which the first may stop where the second goes on.
  `SameUnless excused` says that both come to the same result, unless the first
  failed for a reason that is excused. Runs are compared step by step: a step whose
  result is the same leaves both runs at the same place, and a failure of the first
  run is its result whatever comes behind (`SameUnless.bind`).

  Texts are compared piece by piece in the same way (`SameUnless.render`).
-/

import TypeSig.Proofs.Text.Rendering
import Mathlib.Data.List.Forall2

namespace TypeSig

/-! ## Results -/

/-- Both results are the same, unless the first is a failure that is excused. -/
def SameUnless {ε α : Type} (excused : ε → Prop) (x y : Except ε α) : Prop :=
  y = x ∨ ∃ e, x = .error e ∧ excused e

namespace SameUnless

variable {ε α β : Type} {excused : ε → Prop} {x y : Except ε α}

theorem refl (x : Except ε α) : SameUnless excused x x :=
  Or.inl rfl

theorem of_excused {e : ε} (h : excused e) (y : Except ε α) : SameUnless excused (.error e) y :=
  Or.inr ⟨e, rfl, h⟩

/-- Where no failure is excused, the results are the same. -/
theorem eq_of_not_excused (h : SameUnless excused x y)
    (hx : ∀ e, x = .error e → ¬ excused e) : y = x := by
  rcases h with rfl | ⟨e, he, hexcused⟩
  · rfl
  · exact absurd hexcused (hx e he)

/-- Two steps in a row. -/
theorem bind {f g : α → Except ε β} (h : SameUnless excused x y)
    (hfg : ∀ a, SameUnless excused (f a) (g a)) : SameUnless excused (x >>= f) (y >>= g) := by
  rcases h with rfl | ⟨e, rfl, hexcused⟩
  · cases y with
    | error e => exact refl (.error e)
    | ok a => exact hfg a
  · exact of_excused hexcused _

/-- Two steps in a row, of which the first answers with a pair. -/
theorem bind₂ {σ : Type} {x y : Except ε (α × σ)} {f g : α × σ → Except ε β}
    (h : SameUnless excused x y) (hfg : ∀ a s, SameUnless excused (f (a, s)) (g (a, s))) :
    SameUnless excused (x >>= f) (y >>= g) :=
  h.bind fun r => hfg r.1 r.2

theorem map (f : α → β) (h : SameUnless excused x y) :
    SameUnless excused (x.map f) (y.map f) := by
  rcases h with rfl | ⟨e, rfl, hexcused⟩
  · exact refl _
  · exact of_excused hexcused _

end SameUnless

/-! ## Texts -/

/-- Items that are related one by one stay so with separators between them. -/
theorem forall₂_intercalate {α β : Type} {R : α → β → Prop} {a : α} {b : β} (hab : R a b)
    {xs : List (List α)} {ys : List (List β)} (h : List.Forall₂ (List.Forall₂ R) xs ys) :
    List.Forall₂ R (List.intercalate [a] xs) (List.intercalate [b] ys) := by
  induction h with
  | nil => exact .nil
  | @cons x y xs ys hxy hrest ih =>
    cases hrest with
    | nil =>
      rw [List.intercalate_singleton, List.intercalate_singleton]
      exact hxy
    | cons hnext hlater =>
      rw [List.intercalate_cons_cons, List.intercalate_cons_cons]
      exact List.rel_append (List.rel_append hxy (.cons hab .nil)) ih

namespace SameUnless

variable {excused : Fault → Prop}

theorem appendAll {limit : Nat} {pieces pieces' : List Piece}
    (h : List.Forall₂ (SameUnless excused) pieces pieces') (t : BoundedText limit) :
    SameUnless excused (BoundedText.appendAll pieces t) (BoundedText.appendAll pieces' t) := by
  induction h generalizing t with
  | nil => exact refl _
  | cons hpiece _ ih => exact hpiece.bind fun bytes => (refl (t.append bytes)).bind ih

/-- A text of pieces that are compared one by one. -/
theorem render {limit : Nat} {pieces pieces' : List Piece}
    (h : List.Forall₂ (SameUnless excused) pieces pieces') :
    SameUnless excused (BoundedText.render pieces : Except Fault (BoundedText limit))
      (BoundedText.render pieces') :=
  appendAll h .empty

end SameUnless

end TypeSig
