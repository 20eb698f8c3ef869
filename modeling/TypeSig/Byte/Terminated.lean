/-
  TypeSig.Byte.Terminated

  Texts kept in storage that ends at its first NUL. `stored` is what can be
  read back of a text that was put there; `copied` is the storage itself, cut to
  the room that was given, with the NUL that ends it.
-/

import TypeSig.Byte.Class

namespace TypeSig

/-- The part of a text that is read back: everything before its first NUL. -/
def stored (text : Bytes) : Bytes :=
  text.takeWhile (· ≠ Byte.nul)

@[simp] theorem stored_nil : stored [] = [] := rfl

theorem nul_notMem_stored (text : Bytes) : Byte.nul ∉ stored text := by
  intro h
  have := List.all_takeWhile (p := (· ≠ Byte.nul)) (l := text)
  rw [List.all_eq_true] at this
  simpa using this _ h

theorem stored_of_nul_notMem {text : Bytes} (h : Byte.nul ∉ text) : stored text = text := by
  induction text with
  | nil => rfl
  | cons b rest ih =>
    simp only [List.mem_cons, not_or] at h
    simp only [stored] at ih ⊢
    rw [List.takeWhile_cons_of_pos (by simpa using fun e => h.1 e.symm), ih h.2]

/-- Whatever stands behind a NUL is not read. -/
theorem stored_append_nul (text rest : Bytes) : stored (text ++ Byte.nul :: rest) = stored text := by
  induction text with
  | nil => rfl
  | cons b text ih =>
    simp only [stored, List.cons_append, List.takeWhile_cons] at ih ⊢
    rw [ih]

@[simp] theorem stored_stored (text : Bytes) : stored (stored text) = stored text :=
  stored_of_nul_notMem (nul_notMem_stored text)

/-- The storage of a text in `room` bytes: as much of it as fits in front of the
    closing NUL. -/
def copied (text : Bytes) (room : Nat) : Bytes :=
  text.take (room - 1) ++ [Byte.nul]

/-- Two stored texts read the same. -/
def sameStored (s t : Bytes) : Bool :=
  stored s == stored t

end TypeSig
