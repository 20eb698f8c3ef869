/-
  TypeSig.Proofs.Signature.Capacity

  Reading one text at two capacities. The capacity is asked for in three places: when
  room for a node is made sure of, when the arena takes the node in, and when a type
  is opened. In each, the smaller capacity either lets the reading pass, and so does
  the larger one, or ends it for lack of room. So both readings go through the same
  states, ids and orphaned nodes included, up to such an end.

  Main statement: `read_sameUnless`.
-/

import TypeSig.Proofs.Text.SameUnless
import TypeSig.Signature.Reader

namespace TypeSig.Signature

/-- The text did not fit. -/
def LacksRoom (failure : ReadFailure) : Prop :=
  failure.cause.kind = .capacityExceeded

/-- An end for lack of room, whatever the other reading comes to. -/
theorem sameUnless_of_lacksRoom {α : Type} {failure : ReadFailure}
    (h : failure.cause.kind = .capacityExceeded) (y : Except ReadFailure α) :
    SameUnless LacksRoom (.error failure) y :=
  Or.inr ⟨failure, rfl, h⟩

/-- Wherever two readers begin, they come to the same result, unless the text did not
    fit for the first. -/
def Alike {α : Type} (r r' : Reader α) : Prop :=
  ∀ s, SameUnless LacksRoom (r s) (r' s)

variable {capacity capacity' : Nat} (hle : capacity ≤ capacity')

include hle

/-! ## Storing -/

namespace Progress

theorem ensureRoom_sameUnless (text : Bytes) (position : Nat) (s : Progress) :
    SameUnless LacksRoom (s.ensureRoom capacity text position)
      (s.ensureRoom capacity' text position) := by
  unfold ensureRoom Arena.isFull
  by_cases hfull : capacity ≤ s.arena.size
  · rw [if_pos (decide_eq_true hfull)]
    exact sameUnless_of_lacksRoom rfl _
  · have hroom : ¬ capacity' ≤ s.arena.size := by omega
    simp only [hfull, hroom, decide_false]
    exact .refl _

/-- A node that the smaller arena takes in, the larger one takes in at the same place. -/
theorem keep_push_sameUnless (position : Nat) (s : Progress) (arena : Arena) (node : Node) :
    SameUnless LacksRoom (s.keep position (arena.push capacity node))
      (s.keep position (arena.push capacity' node)) := by
  unfold Arena.push Arena.isFull
  by_cases hfull : capacity ≤ arena.size
  · rw [if_pos (decide_eq_true hfull)]
    exact sameUnless_of_lacksRoom rfl _
  · have hroom : ¬ capacity' ≤ arena.size := by omega
    simp only [hfull, hroom, decide_false]
    exact .refl _

theorem storeAtomic_sameUnless (kind : AtomicKind) (text : Bytes) (position : Nat)
    (s : Progress) :
    SameUnless LacksRoom (s.storeAtomic capacity kind text position)
      (s.storeAtomic capacity' kind text position) := by
  unfold storeAtomic Arena.addAtomic
  split
  · exact keep_push_sameUnless hle position s _ _
  · exact .refl _

theorem storeParent_sameUnless (kind : NodeKind) (children : List Nat) (position : Nat)
    (s : Progress) :
    SameUnless LacksRoom (s.storeParent capacity kind children position)
      (s.storeParent capacity' kind children position) :=
  (ensureRoom_sameUnless hle [] position s).bind fun _ =>
    keep_push_sameUnless hle position s _ _

end Progress

theorem storeName_alike (name : Bytes) (position : Nat) :
    Alike (storeName capacity name position) (storeName capacity' name position) := fun s =>
  (s.ensureRoom_sameUnless hle name position).bind fun _ =>
    s.storeAtomic_sameUnless hle _ _ position

/-! ## The parts of a type -/

section Parts

variable {r r' : Reader Nat} (hr : Alike r r')

include hr

theorem readField_alike : Alike (readField capacity r) (readField capacity' r') := by
  intro s
  refine (SameUnless.refl (readFieldName s)).bind₂ fun name t => ?_
  refine (SameUnless.refl (Progress.eat Byte.colon .colon _)).bind₂ fun _ u => ?_
  refine (hr u).bind₂ fun type v => ?_
  refine (v.ensureRoom_sameUnless hle name s.position).bind fun _ => ?_
  unfold Arena.addField
  split
  · exact v.keep_push_sameUnless hle s.position _ _
  · exact .refl _

theorem readFields_alike (rounds : Nat) :
    Alike (readFields capacity r rounds) (readFields capacity' r' rounds) := by
  induction rounds with
  | zero => exact fun s => .refl _
  | succ rounds ih =>
    intro s
    refine (readField_alike hle hr s).bind₂ fun field t => ?_
    -- behind a field both readings look at the same byte
    dsimp only
    cases t.eat? Byte.comma with
    | none => exact .refl _
    | some u =>
      dsimp only
      split
      · exact .refl _
      · exact (ih u).bind₂ fun fields v => .refl _

theorem readObject_alike : Alike (readObject capacity r) (readObject capacity' r') := by
  intro s
  refine (readFields_alike hle hr s.rest.length s).bind₂ fun fields t => ?_
  refine (SameUnless.refl (t.eat Byte.closeBrace .commaOrBrace)).bind₂ fun stop u => ?_
  exact u.storeParent_sameUnless hle .object fields stop

theorem readArray_alike : Alike (readArray capacity r) (readArray capacity' r') := by
  intro s
  refine (hr s).bind₂ fun element t => ?_
  refine (SameUnless.refl (t.eat Byte.closeAngle .closeAngle)).bind₂ fun stop u => ?_
  exact u.storeParent_sameUnless hle .array [element] stop

theorem readCase_alike : Alike (readCase capacity r) (readCase capacity' r') := by
  intro s
  unfold readCase
  split
  · split
    · exact readObject_alike hle hr _
    · exact .refl _
  · next text start rest _ =>
    refine (s.ensureRoom_sameUnless hle text start).bind fun _ => ?_
    exact Progress.storeAtomic_sameUnless hle .stringLiteral text start _
  · exact .refl _
  · exact .refl _
  · dsimp only
    split
    · exact readArray_alike hle hr _
    · exact storeName_alike hle _ _ _
  · exact .refl _

theorem readCases_alike (rounds : Nat) :
    ∀ cases, Alike (readCases capacity r rounds cases) (readCases capacity' r' rounds cases) := by
  induction rounds with
  | zero => exact fun cases s => .refl _
  | succ rounds ih =>
    intro cases s
    refine (readCase_alike hle hr s).bind₂ fun new t => ?_
    dsimp only
    cases t.eat? Byte.bar with
    | none => exact .refl _
    | some u => exact ih _ u

theorem readUnion_alike : Alike (readUnion capacity r) (readUnion capacity' r') := by
  intro s
  refine (readCases_alike hle hr s.rest.length [] s).bind₂ fun cases t => ?_
  rcases cases with _ | ⟨only, _ | ⟨second, others⟩⟩
  · exact t.storeParent_sameUnless hle .union _ _
  · exact .refl _
  · exact t.storeParent_sameUnless hle .union _ _

end Parts

/-! ## Types and whole texts -/

/-- A level of nesting that the smaller count has left, the larger one has left too. -/
theorem readType_alike {levels levels' : Nat} (hlevels : levels ≤ levels') :
    Alike (readType capacity levels) (readType capacity' levels') := by
  induction levels generalizing levels' with
  | zero => exact fun s => sameUnless_of_lacksRoom rfl _
  | succ levels ih =>
    obtain ⟨levels', rfl⟩ : ∃ k, levels' = k + 1 := ⟨levels' - 1, by omega⟩
    exact readUnion_alike hle (ih (by omega))

/-- What a text is read as does not depend on the capacity, unless it does not fit. -/
theorem read_sameUnless (text : Bytes) :
    SameUnless LacksRoom (read capacity text) (read capacity' text) := by
  refine (readType_alike hle hle _).bind₂ fun root s => ?_
  exact .refl _

end TypeSig.Signature
