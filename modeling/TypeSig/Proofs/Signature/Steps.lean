/-
  TypeSig.Proofs.Signature.Steps

  The single steps of the reader in terms of the tokens that are left: what is
  taken, what is asked for and what is stored. Readers further up are followed
  by these equations and never unfolded below them.
-/

import TypeSig.Proofs.Arena.Growth
import TypeSig.Proofs.Signature.Grammar
import TypeSig.Proofs.Text.Rendering

namespace TypeSig

namespace Signature

namespace Progress

/-! ## Taking tokens -/

/-- The tokens that are left. -/
def tokens (s : Progress) : List Token :=
  s.rest.map Lexeme.token

/-- Where the reading stands behind the next token. -/
def skip (s : Progress) : Progress :=
  { s with rest := s.rest.tail }

@[simp] theorem arena_skip (s : Progress) : s.skip.arena = s.arena := rfl

@[simp] theorem tokens_skip (s : Progress) : s.skip.tokens = s.tokens.tail := by
  simp [tokens, skip, List.map_tail]

theorem length_le_of_tokens_eq {s : Progress} {ts after : List Token}
    (h : s.tokens = ts ++ after) : ts.length ≤ s.rest.length := by
  have hlen : s.rest.length = (ts ++ after).length := by
    rw [← h, tokens, List.length_map]
  rw [hlen, List.length_append]
  exact Nat.le_add_right _ _

theorem nextIs_eq (s : Progress) (b : UInt8) :
    s.nextIs b = (s.tokens.head? == some (.byte b)) := by
  rcases s with ⟨arena, _ | ⟨⟨token, start⟩, rest⟩, finish⟩
  · rfl
  · cases token <;> simp [nextIs, tokens]

theorem eat?_of_head {s : Progress} {b : UInt8} (h : s.tokens.head? = some (.byte b)) :
    s.eat? b = some s.skip := by
  simp [eat?, nextIs_eq, h, skip]

theorem eat?_of_head_ne {s : Progress} {b : UInt8} (h : s.tokens.head? ≠ some (.byte b)) :
    s.eat? b = none := by
  simp [eat?, nextIs_eq, h]

theorem eat_of_head {s : Progress} {b : UInt8} (h : s.tokens.head? = some (.byte b))
    (what : Expected) : s.eat b what = .ok (s.position + 1, s.skip) := by
  simp [eat, eat?_of_head h]

theorem eat?_eq_some_iff {s t : Progress} {b : UInt8} :
    s.eat? b = some t ↔ s.tokens.head? = some (.byte b) ∧ t = s.skip := by
  by_cases h : s.tokens.head? = some (.byte b)
  · simp [eat?_of_head h, h, eq_comm]
  · simp [eat?_of_head_ne h, h]

theorem eat?_eq_none_iff {s : Progress} {b : UInt8} :
    s.eat? b = none ↔ s.tokens.head? ≠ some (.byte b) := by
  by_cases h : s.tokens.head? = some (.byte b)
  · simp [eat?_of_head h, h]
  · simp [eat?_of_head_ne h, h]

theorem eat_eq_ok_iff {s t : Progress} {b : UInt8} {what : Expected} {stop : Nat} :
    s.eat b what = .ok (stop, t) ↔
      s.tokens.head? = some (.byte b) ∧ t = s.skip ∧ stop = s.position + 1 := by
  by_cases h : s.tokens.head? = some (.byte b)
  · simp [eat_of_head h, h, eq_comm, and_comm]
  · simp [eat, eat?_of_head_ne h, h, expect]

/-- A mark that may be there is taken if it is. -/
theorem tokens_eq_mark_append (s : Progress) (b : UInt8) :
    s.tokens = mark b (s.nextIs b) ++ ((s.eat? b).getD s).tokens := by
  by_cases h : s.tokens.head? = some (.byte b)
  · obtain ⟨ts, hts⟩ := List.head?_eq_some_iff.1 h
    simp [nextIs_eq, eat?_of_head h, mark, hts]
  · simp [nextIs_eq, eat?_of_head_ne h, mark, h]

theorem nextIs_of_mark {s : Progress} {b : UInt8} {present : Bool} {ts : List Token}
    (h : s.tokens = mark b present ++ ts) (hts : ts.head? ≠ some (.byte b)) :
    s.nextIs b = present := by
  cases present with
  | true => simp [nextIs_eq, h, mark]
  | false => simpa [nextIs_eq, h, mark] using hts

@[simp] theorem arena_getD_eat? (s : Progress) (b : UInt8) :
    ((s.eat? b).getD s).arena = s.arena := by
  by_cases h : s.tokens.head? = some (.byte b)
  · simp [eat?_of_head h]
  · simp [eat?_of_head_ne h]

end Progress

/-- The name of a field is the next token, plain or in quotes. -/
theorem readFieldName_eq_ok_iff {s t : Progress} {text : Bytes} :
    readFieldName s = .ok (text, t) ↔
      ∃ name : FieldName, s.tokens.head? = some name.token ∧ name.text = text ∧ t = s.skip := by
  rcases s with ⟨arena, _ | ⟨⟨token, start⟩, rest⟩, finish⟩
  · constructor
    · intro h
      simp [readFieldName, Progress.expect] at h
    · rintro ⟨name, h, -⟩
      simp [Progress.tokens] at h
  · constructor
    · intro h
      cases token with
      | name n => exact ⟨.plain n, by simp_all [readFieldName, Progress.tokens, Progress.skip,
          FieldName.token, FieldName.text, eq_comm]⟩
      | quoted n => exact ⟨.quoted n, by simp_all [readFieldName, Progress.tokens, Progress.skip,
          FieldName.token, FieldName.text, eq_comm]⟩
      | quotedNul | unclosed | byte => simp [readFieldName, Progress.expect] at h
    · rintro ⟨name, h, rfl, rfl⟩
      cases name <;>
        · simp only [Progress.tokens, List.map_cons, List.head?_cons, Option.some.injEq,
            FieldName.token] at h
          subst h
          rfl

/-! ## The four kinds of cases -/

variable {capacity : Nat} {readType : Reader Nat} {s : Progress} {ts : List Token}

/-- Stores a literal that was read at a position. -/
def storeLiteral (capacity : Nat) (text : Bytes) (position : Nat) : Reader Nat := fun s => do
  s.ensureRoom capacity text position
  s.storeAtomic capacity .stringLiteral text position

theorem readCase_object (h : s.tokens = .byte Byte.openBrace :: ts) :
    readCase capacity readType s = readObject capacity readType s.skip := by
  rcases s with ⟨arena, _ | ⟨⟨token, start⟩, rest⟩, finish⟩
  · simp [Progress.tokens] at h
  · obtain ⟨rfl, -⟩ := List.cons.inj h
    simp [readCase, Progress.skip]

theorem readCase_literal {text : Bytes} (h : s.tokens = .quoted text :: ts) :
    readCase capacity readType s = storeLiteral capacity text s.position s.skip := by
  rcases s with ⟨arena, _ | ⟨⟨token, start⟩, rest⟩, finish⟩
  · simp [Progress.tokens] at h
  · obtain ⟨rfl, -⟩ := List.cons.inj h
    rfl

theorem readCase_array (h : s.tokens = .name arrayName :: .byte Byte.openAngle :: ts) :
    readCase capacity readType s = readArray capacity readType s.skip.skip := by
  have hangle : s.skip.tokens.head? = some (.byte Byte.openAngle) := by simp [h]
  rcases s with ⟨arena, _ | ⟨⟨token, start⟩, rest⟩, finish⟩
  · simp [Progress.tokens] at h
  · obtain ⟨rfl, -⟩ := List.cons.inj h
    have heat := Progress.eat?_of_head hangle
    simp only [Progress.skip, List.tail_cons] at heat
    simp [readCase, heat, Progress.skip]

theorem readCase_name {text : Bytes} (h : s.tokens = .name text :: ts)
    (hts : text = arrayName → ts.head? ≠ some (.byte Byte.openAngle)) :
    readCase capacity readType s = storeName capacity text s.position s.skip := by
  rcases s with ⟨arena, _ | ⟨⟨token, start⟩, rest⟩, finish⟩
  · simp [Progress.tokens] at h
  · obtain ⟨rfl, hrest⟩ := List.cons.inj h
    by_cases htext : text = arrayName
    · have hnone : (Progress.mk arena rest finish).eat? Byte.openAngle = none :=
        Progress.eat?_of_head_ne (by simpa [Progress.tokens, ← hrest] using hts htext)
      simp [readCase, htext, hnone, Progress.skip, Progress.position]
    · simp [readCase, htext, Progress.skip, Progress.position]

/-- A case that is read begins with one of the four tokens that cases begin with. -/
theorem readCase_eq_ok {id : Nat} {t : Progress} (h : readCase capacity readType s = .ok (id, t)) :
    (∃ ts, s.tokens = .byte Byte.openBrace :: ts) ∨ (∃ text ts, s.tokens = .quoted text :: ts) ∨
      ∃ text ts, s.tokens = .name text :: ts := by
  rcases s with ⟨arena, _ | ⟨⟨token, start⟩, rest⟩, finish⟩
  · simp [readCase, Progress.expect] at h
  · cases token with
    | name text => exact Or.inr (Or.inr ⟨text, _, rfl⟩)
    | quoted text => exact Or.inr (Or.inl ⟨text, _, rfl⟩)
    | byte b =>
      by_cases hb : b = Byte.openBrace
      · exact Or.inl ⟨_, by rw [hb]; rfl⟩
      · simp [readCase, hb, Progress.expect] at h
    | quotedNul | unclosed => simp [readCase] at h

end Signature

end TypeSig
