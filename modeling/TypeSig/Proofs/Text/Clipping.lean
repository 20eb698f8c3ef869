/-
  TypeSig.Proofs.Text.Clipping

  Truncating appends one after the other. Wherever the text is cut, in the middle of a
  number too, it is the start of all pieces in a row (`foldl_run`), and this is what
  the cells hold with a NUL behind it (`storeAll_closed`). Cells behind the NUL are not
  touched.

  An error message is written by such appends (`Diagnostic.calls`), so it is what can be
  read of its cells, and that is the start of the whole message.

  Main statement: `runAll_clips`.
-/

import TypeSig.Proofs.Text.Storage
import TypeSig.Proofs.Text.Message

namespace TypeSig

namespace ClippedText

variable {limit : Nat}

/-! ## Calls -/

/-- A truncating append. -/
inductive Call
  | text (piece : Bytes)
  | number (n : UInt64)

namespace Call

/-- The bytes that a call appends. -/
def piece : Call → Bytes
  | .text piece => piece
  | .number n => decimal n.toNat

/-- The text that a call leaves. -/
def run (t : ClippedText limit) : Call → ClippedText limit
  | .text piece => t.append piece
  | .number n => t.appendDecimal n.toNat

/-- The call on the cells of a text. -/
def store (s : Storage) : Call → Option Storage
  | .text piece => s.appendClipped piece
  | .number n => s.appendNumber n

theorem run_eq_append (t : ClippedText limit) (call : Call) : call.run t = t.append call.piece := by
  cases call <;> rfl

theorem store_closed {behind : Bytes} (t : ClippedText behind.length) (call : Call) :
    call.store (Storage.closed behind t) = some (Storage.closed behind (call.run t)) := by
  cases call with
  | text piece => exact Storage.appendClipped_closed piece t
  | number n => exact Storage.appendNumber_closed n t

end Call

/-- The text that calls make of the empty one, one after the other. -/
def runAll (limit : Nat) (calls : List Call) : ClippedText limit :=
  calls.foldl Call.run empty

/-- The calls on the cells of a text, one after the other. -/
def storeAll (calls : List Call) (s : Storage) : Option Storage :=
  calls.foldlM Call.store s

/-! ## Runs -/

/-- Calls in a row are one append of all their pieces. -/
theorem foldl_run (calls : List Call) (t : ClippedText limit) :
    calls.foldl Call.run t = t.append (calls.flatMap Call.piece) := by
  induction calls generalizing t with
  | nil => rw [List.foldl_nil, List.flatMap_nil, append_nil]
  | cons call rest ih =>
    rw [List.foldl_cons, ih, Call.run_eq_append, append_append, List.flatMap_cons]

theorem bytes_runAll_eq_take (limit : Nat) (calls : List Call) :
    (runAll limit calls).bytes = (calls.flatMap Call.piece).take limit := by
  rw [runAll, foldl_run, bytes_append_eq_take, bytes_empty, List.nil_append]

theorem storeAll_closed {behind : Bytes} (calls : List Call) (t : ClippedText behind.length) :
    storeAll calls (Storage.closed behind t) =
      some (Storage.closed behind (calls.foldl Call.run t)) := by
  induction calls generalizing t with
  | nil => rfl
  | cons call rest ih =>
    rw [storeAll, List.foldlM_cons, Call.store_closed, List.foldl_cons]
    exact ih (call.run t)

/-- Calls on cells that are all NUL. -/
theorem exists_storeAll_blank (limit : Nat) (calls : List Call) :
    ∃ s, storeAll calls (Storage.blank (limit + 1)) = some s ∧ s.cells.length = limit + 1 ∧
      s.text = (runAll limit calls).bytes ∧ stored s.cells = stored (runAll limit calls).bytes := by
  have hstore := storeAll_closed calls
    (empty : ClippedText (List.replicate limit Byte.nul).length)
  have hbytes : (runAll (List.replicate limit Byte.nul).length calls).bytes =
      (runAll limit calls).bytes := by
    rw [bytes_runAll_eq_take, bytes_runAll_eq_take, List.length_replicate]
  refine ⟨_, hstore, ?_, ?_, ?_⟩
  · rw [Storage.length_cells_closed, List.length_replicate]
  · rw [Storage.closed, Storage.text_split]
    exact hbytes
  · rw [Storage.closed, Storage.split, stored_append_nul]
    exact congrArg stored hbytes

end ClippedText

/-! ## Messages -/

namespace Diagnostic

open ClippedText (Call storeAll)

/-- The calls that write a message. -/
def calls (stage : Stage) (column : UInt64) (detail : Bytes) : List Call :=
  [.text stage.name, .text (ascii " error")] ++
    (if stage = .parse then [.text (ascii " at column "), .number column] else []) ++
      [.text (ascii ": "), .text detail]

theorem flatMap_piece_calls (stage : Stage) (column : UInt64) (detail : Bytes) :
    (calls stage column detail).flatMap Call.piece = wholeMessage stage column.toNat detail := by
  cases stage <;> simp [calls, wholeMessage, Call.piece]

/-- A message is what can be read of its cells. -/
theorem exists_storeAll_calls (stage : Stage) (column : UInt64) (detail : Bytes) :
    ∃ s, storeAll (calls stage column detail) (Storage.blank (messageLimit + 1)) = some s ∧
      s.cells.length = messageLimit + 1 ∧ stored s.cells = messageAt stage column.toNat detail := by
  obtain ⟨s, hstore, hlength, -, hread⟩ :=
    ClippedText.exists_storeAll_blank messageLimit (calls stage column detail)
  refine ⟨s, hstore, hlength, ?_⟩
  rw [hread, ClippedText.bytes_runAll_eq_take, flatMap_piece_calls, messageAt_eq]

end Diagnostic

namespace ClippedText

/-- Appends to an empty text leave the start of all their pieces in a row, cut where there
    is no more room. In storage, where every append goes byte by byte and no step is about
    a cell that is not there, the cells hold this text, a NUL behind it, and then what they
    held before. The piece of a number is its canonical decimal notation.
    So is every error message the start of the whole message, up to the first NUL, where
    the column is the word behind the position; and it is what can be read of the cells
    that the appends leave. -/
theorem runAll_clips (behind : Bytes) (calls : List Call) :
    (runAll behind.length calls).bytes = (calls.flatMap Call.piece).take behind.length ∧
    (runAll behind.length calls).bytes.length ≤ behind.length ∧
    storeAll calls ⟨Byte.nul :: behind, 0⟩ = some
      { cells := (runAll behind.length calls).bytes ++
          Byte.nul :: behind.drop (runAll behind.length calls).bytes.length
        used := (runAll behind.length calls).bytes.length } ∧
    (∀ (n : UInt64) (digits : Bytes),
      IsDecimal digits n.toNat ↔ digits = (Call.number n).piece) ∧
    ∀ (kind : ErrorKind) (stage : Stage) (detail : Bytes) (position : UInt64),
      (Diagnostic.make kind stage detail position).message =
        stored ((Diagnostic.wholeMessage stage ((position.toNat + 1) % 2 ^ 64) detail).take 191) ∧
      ∃ s, storeAll (Diagnostic.calls stage (position + 1) detail) (Storage.blank 192) = some s ∧
        s.cells.length = 192 ∧
        stored s.cells = (Diagnostic.make kind stage detail position).message := by
  refine ⟨bytes_runAll_eq_take _ calls, (runAll _ calls).length_le, storeAll_closed calls empty,
    fun n digits => isDecimal_iff, fun kind stage detail position => ⟨?_, ?_⟩⟩
  · have hcolumn : (position + 1).toNat = (position.toNat + 1) % 2 ^ 64 :=
      UInt64.toNat_add position 1
    rw [← hcolumn]
    exact Diagnostic.messageAt_eq stage (position + 1).toNat detail
  · exact Diagnostic.exists_storeAll_calls stage (position + 1) detail

-- a number that is cut, and the position whose column is zero
example : (runAll 3 [.text (ascii "a"), .number 12345]).bytes = ascii "a12" := by decide

example : (Diagnostic.make .parse .parse (ascii "x") (0 - 1)).message =
    ascii "parse error at column 0: x" := by decide

end ClippedText

end TypeSig
