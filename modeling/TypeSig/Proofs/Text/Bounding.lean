/-
  TypeSig.Proofs.Text.Bounding

  Bounded texts under any calls, refused ones included. A call puts a piece at the end of
  a text or puts a new text in the place of the old one, and goes through as a whole or
  leaves the text as it was. So a text consists of what went through since it was last
  replaced (`bytes_runAll_eq_retained`).

  The same calls are run on the cells of a text, where a piece is written byte by byte
  and a number comes from a scratch storage (`storeAll_padded`). Texts are compared by the
  cells in use, whatever the others hold.

  Main statement: `runAll_retains`.
-/

import TypeSig.Proofs.Text.Clipping
import TypeSig.Proofs.Text.Rendering

namespace TypeSig

/-! ## Whole pieces in storage -/

namespace Storage

/-- Takes the bytes of a piece in use. -/
def pushAll : Bytes → Storage → Option Storage
  | [], s => some s
  | b :: rest, s => do
    let s ← s.push b
    pushAll rest s

/-- Puts a piece at the end, or refuses it as a whole. One cell is never taken. -/
def appendWhole (piece : Bytes) (s : Storage) : Option (Storage × Except Fault Unit) :=
  -- nothing is written before it is clear that all of it fits
  if s.cells.length - 1 < s.used + piece.length then
    some (s, .error (.textTooLong (s.cells.length - 1)))
  else do
    let s ← s.pushAll piece
    some (s, .ok ())

/-- The cells in use hold the same bytes. -/
def same (s t : Storage) : Bool := s.text == t.text

theorem pushAll_split (piece text behind : Bytes) (h : piece.length ≤ behind.length) :
    (split text behind).pushAll piece =
      some (split (text ++ piece) (behind.drop piece.length)) := by
  induction piece generalizing text behind with
  | nil => simp [pushAll]
  | cons b rest ih =>
    obtain ⟨c, behind, rfl⟩ := List.exists_cons_of_length_pos (Nat.lt_of_lt_of_le (by simp) h)
    rw [pushAll, push_split]
    simp only [Option.bind_eq_bind, Option.bind_some]
    rw [ih _ _ (by simpa using h)]
    simp

/-- A bounded text in its cells, with NULs behind it. -/
def padded {limit : Nat} (t : BoundedText limit) : Storage :=
  split t.bytes (List.replicate (limit + 1 - t.size) Byte.nul)

variable {limit : Nat}

@[simp] theorem text_padded (t : BoundedText limit) : (padded t).text = t.bytes :=
  text_split _ _

theorem padded_empty : padded (.empty : BoundedText limit) = blank (limit + 1) := rfl

theorem length_cells_padded (t : BoundedText limit) : (padded t).cells.length = limit + 1 := by
  have := t.length_le
  simp only [padded, split, BoundedText.size, List.length_append, List.length_replicate]
  omega

theorem appendWhole_padded (piece : Bytes) (t : BoundedText limit) :
    (padded t).appendWhole piece =
      match t.append piece with
      | .ok next => some (padded next, .ok ())
      | .error fault => some (padded t, .error fault) := by
  have hlimit : (padded t).cells.length - 1 = limit := by
    rw [length_cells_padded, Nat.add_sub_cancel]
  have hused : (padded t).used = t.bytes.length := rfl
  rw [appendWhole, hlimit, hused]
  rcases Nat.lt_or_ge limit (t.bytes.length + piece.length) with hlong | hfits
  · rw [if_pos hlong, BoundedText.append_of_lt hlong]
  · have hroom : piece.length ≤ (List.replicate (limit + 1 - t.size) Byte.nul).length := by
      rw [List.length_replicate, BoundedText.size]
      omega
    rw [if_neg (Nat.not_lt.2 hfits), BoundedText.append_of_le hfits, padded,
      pushAll_split _ _ _ hroom, List.drop_replicate]
    simp [padded, BoundedText.size, Nat.sub_sub]

end Storage

namespace BoundedText

/-! ## Room and equality -/

theorem append_eq_error_iff {limit : Nat} {t : BoundedText limit} {piece : Bytes} {fault : Fault} :
    t.append piece = .error fault ↔ limit < t.size + piece.length ∧ fault = .textTooLong limit := by
  constructor
  · intro h
    obtain ⟨hfault, hlong⟩ := append_eq_error h
    exact ⟨hlong, hfault⟩
  · rintro ⟨hlong, rfl⟩
    exact append_of_lt hlong

/-- What stands behind two texts has no part in comparing them. -/
theorem same_split {limit other : Nat} (s : BoundedText limit) (t : BoundedText other)
    (behind behind' : Bytes) :
    (Storage.split s.bytes behind).same (Storage.split t.bytes behind') = s.sameBytes t := by
  rw [Storage.same, Storage.text_split, Storage.text_split, sameBytes]

/-! ## Calls -/

variable {limit : Nat}

/-- What is put into a text: bytes, bytes up to the first NUL, another text of any bound,
    a copy of the text itself, one byte, or a number in decimal. -/
inductive Source
  | bytes (piece : Bytes)
  | terminated (piece : Bytes)
  | text {other : Nat} (t : BoundedText other)
  | own
  | byte (b : UInt8)
  | number (n : UInt64)

namespace Source

/-- The bytes of a source, next to a text that holds the given bytes. -/
def piece (own : Bytes) : Source → Bytes
  | .bytes piece => piece
  | .terminated piece => stored piece
  | .text t => t.bytes
  | .own => own
  | .byte b => [b]
  | .number n => decimal n.toNat

/-- Puts a source at the end of a text. The bytes of the text that is copied are given, as
    a new text starts out empty. -/
def appendTo (own : Bytes) (t : BoundedText limit) : Source → Except Fault (BoundedText limit)
  | .bytes piece => t.append piece
  | .terminated piece => t.append (stored piece)
  | .text other => t.append other.bytes
  | .own => t.append own
  | .byte b => t.push b
  | .number n => t.appendDecimal n.toNat

/-- The bytes of a source next to the cells of a text. A number is written to a scratch
    storage first. -/
def load (s : Storage) : Source → Option Bytes
  | .bytes piece => some piece
  | .terminated piece => some (stored piece)
  | .text t => some t.bytes
  | .own => some s.text
  | .byte b => some [b]
  | .number n => do
    let scratch ← (Storage.blank 24).appendNumber n
    some scratch.text

theorem appendTo_eq_append (own : Bytes) (t : BoundedText limit) (source : Source) :
    source.appendTo own t = t.append (source.piece own) := by
  cases source <;> rfl

theorem load_padded (t : BoundedText limit) (source : Source) :
    source.load (Storage.padded t) = some (source.piece t.bytes) := by
  cases source with
  | bytes | terminated | text | byte => rfl
  | own => rw [load, piece, Storage.text_padded]
  | number n =>
    obtain ⟨scratch, hscratch, htext⟩ := Storage.exists_appendNumber_blank n
    rw [load, hscratch]
    exact congrArg some htext

end Source

/-- A call puts a source at the end of a text, or makes a new text of it that takes the
    place of the old one. -/
inductive Call
  | assign (source : Source)
  | append (source : Source)

/-- What a call is about. -/
def Call.source : Call → Source
  | .assign source | .append source => source

/-- What became of a call: whether it was to replace the text, the bytes it was about, and
    whether it went through. -/
structure Outcome where
  replaces : Bool
  piece : Bytes
  done : Bool

namespace Call

/-- The text that a call puts its source behind. -/
def front (t : BoundedText limit) : Call → BoundedText limit
  | .assign _ => empty
  | .append _ => t

/-- The text that a call makes, or the fault that refuses it. -/
def attempt (t : BoundedText limit) : Call → Except Fault (BoundedText limit)
  | .assign source => source.appendTo t.bytes empty
  | .append source => source.appendTo t.bytes t

/-- The text that a call leaves. -/
def run (t : BoundedText limit) (call : Call) : BoundedText limit :=
  match call.attempt t with
  | .ok next => next
  | .error _ => t

/-- What becomes of a call. -/
def outcome (t : BoundedText limit) (call : Call) : Outcome where
  replaces := call matches .assign _
  piece := call.source.piece t.bytes
  done := (call.attempt t).isOk

/-- The call on the cells of a text. -/
def store (s : Storage) : Call → Option (Storage × Except Fault Unit)
  | .assign source => do
    let piece ← source.load s
    -- made apart, so the old text is still there if it is refused
    let (new, result) ← (Storage.blank s.cells.length).appendWhole piece
    match result with
    | .ok () => some (new, .ok ())
    | .error fault => some (s, .error fault)
  | .append source => do
    let piece ← source.load s
    s.appendWhole piece

theorem attempt_eq_append (t : BoundedText limit) (call : Call) :
    call.attempt t = (call.front t).append (call.source.piece t.bytes) := by
  cases call <;> exact Source.appendTo_eq_append _ _ _

theorem run_of_attempt_error {t : BoundedText limit} {call : Call} {fault : Fault}
    (h : call.attempt t = .error fault) : call.run t = t := by
  rw [run, h]

/-- A text changes only by a call that goes through. -/
theorem bytes_run (t : BoundedText limit) (call : Call) :
    (call.run t).bytes =
      if (call.outcome t).done then
        if (call.outcome t).replaces then (call.outcome t).piece
        else t.bytes ++ (call.outcome t).piece
      else t.bytes := by
  cases hattempt : call.attempt t with
  | error fault =>
    rw [run_of_attempt_error hattempt]
    simp [outcome, hattempt, Except.isOk, Except.toBool]
  | ok next =>
    have hbytes : next.bytes = (call.front t).bytes ++ call.source.piece t.bytes :=
      append_eq_ok (by rw [← attempt_eq_append, hattempt])
    rw [run, hattempt]
    -- the piece stands behind nothing, or behind what was there
    cases call <;> simp [outcome, hattempt, hbytes, front, Except.isOk, Except.toBool]

/-- A call does to the cells of a text what it does to the text, with the same answer. -/
theorem store_padded (t : BoundedText limit) (call : Call) :
    call.store (Storage.padded t) =
      some (Storage.padded (call.run t), (call.attempt t).map fun _ => ()) := by
  rw [run, attempt_eq_append]
  cases call with
  | assign given =>
    rw [store, Source.load_padded, Storage.length_cells_padded, ← Storage.padded_empty]
    simp only [Option.bind_eq_bind, Option.bind_some, Storage.appendWhole_padded, front,
      Call.source]
    cases (empty : BoundedText limit).append (given.piece t.bytes) <;> rfl
  | append given =>
    rw [store, Source.load_padded]
    simp only [Option.bind_eq_bind, Option.bind_some, Storage.appendWhole_padded, front,
      Call.source]
    cases t.append (given.piece t.bytes) <;> rfl

end Call

/-! ## What is retained -/

/-- The text was replaced. -/
def Outcome.replaced (o : Outcome) : Bool := o.replaces && o.done

/-- From the last time on that the text was replaced, or all if it never was. -/
def sinceReplaced : List Outcome → List Outcome
  | [] => []
  | o :: rest => if rest.any Outcome.replaced then sinceReplaced rest else o :: rest

/-- The bytes that went through since the text was last replaced. -/
def retained (outcomes : List Outcome) : Bytes :=
  ((sinceReplaced outcomes).filter Outcome.done).flatMap Outcome.piece

theorem sinceReplaced_concat (outcomes : List Outcome) (o : Outcome) :
    sinceReplaced (outcomes ++ [o]) =
      if o.replaced then [o] else sinceReplaced outcomes ++ [o] := by
  induction outcomes with
  | nil => simp [sinceReplaced]
  | cons first rest ih =>
    rw [List.cons_append, sinceReplaced, ih, List.any_append]
    cases hlast : o.replaced <;> cases hrest : rest.any Outcome.replaced <;>
      simp [sinceReplaced, hlast, hrest]

theorem retained_concat (outcomes : List Outcome) (o : Outcome) :
    retained (outcomes ++ [o]) =
      if o.done then
        if o.replaces then o.piece else retained outcomes ++ o.piece
      else retained outcomes := by
  rw [retained, sinceReplaced_concat]
  cases hdone : o.done <;> cases hreplaces : o.replaces <;>
    simp [Outcome.replaced, retained, hdone, hreplaces]

/-! ## Runs -/

/-- The text that calls make of the empty one, one after the other. -/
def runAll (limit : Nat) (calls : List Call) : BoundedText limit :=
  calls.foldl Call.run empty

/-- What becomes of calls, one after the other. -/
def outcomes (t : BoundedText limit) : List Call → List Outcome
  | [] => []
  | call :: rest => call.outcome t :: outcomes (call.run t) rest

/-- The calls on the cells of a text, one after the other, refused ones included. -/
def storeAll (calls : List Call) (s : Storage) : Option Storage :=
  calls.foldlM (fun s call => (call.store s).map Prod.fst) s

theorem runAll_concat (limit : Nat) (calls : List Call) (call : Call) :
    runAll limit (calls ++ [call]) = call.run (runAll limit calls) := by
  rw [runAll, List.foldl_append]
  rfl

theorem outcomes_concat (t : BoundedText limit) (calls : List Call) (call : Call) :
    outcomes t (calls ++ [call]) = outcomes t calls ++ [call.outcome (calls.foldl Call.run t)] := by
  induction calls generalizing t with
  | nil => rfl
  | cons first rest ih =>
    rw [List.cons_append, outcomes, ih, outcomes, List.cons_append, List.foldl_cons]

/-- A text consists of what went through since it was last replaced. -/
theorem bytes_runAll_eq_retained (limit : Nat) (calls : List Call) :
    (runAll limit calls).bytes = retained (outcomes (empty : BoundedText limit) calls) := by
  induction calls using List.reverseRecOn with
  | nil => rfl
  | append_singleton calls call ih =>
    rw [runAll_concat, Call.bytes_run, outcomes_concat, retained_concat, ih, ← runAll]

theorem storeAll_padded (calls : List Call) (t : BoundedText limit) :
    storeAll calls (Storage.padded t) = some (Storage.padded (calls.foldl Call.run t)) := by
  induction calls generalizing t with
  | nil => rfl
  | cons call rest ih =>
    rw [storeAll, List.foldlM_cons, Call.store_padded, List.foldl_cons]
    exact ih (call.run t)

/-- Whatever calls were made, refused ones included, a text consists of the pieces that went
    through, in order, from the last one on that took the place of the text, and it never
    outgrows its bound. To each such text a piece is appended unless both together are too
    long, which is a fault, and a call that is a fault leaves the text as it is.
    The cells of a text, where pieces are written byte by byte, hold the same bytes after
    the same calls, with the same answer to each. Two texts of any two bounds compare equal
    exactly if their bytes are equal, NULs included, whatever stands in the cells behind. -/
theorem runAll_retains (limit : Nat) (calls : List Call) :
    (runAll limit calls).bytes = retained (outcomes (empty : BoundedText limit) calls) ∧
    (runAll limit calls).size ≤ limit ∧
    (∀ (source : Source) (fault : Fault),
      ((Call.append source).attempt (runAll limit calls) = .error fault ↔
        limit < (runAll limit calls).size + (source.piece (runAll limit calls).bytes).length ∧
          fault = .textTooLong limit) ∧
      ((Call.assign source).attempt (runAll limit calls) = .error fault ↔
        limit < (source.piece (runAll limit calls).bytes).length ∧ fault = .textTooLong limit)) ∧
    (Fault.textTooLong limit).kind = .capacityExceeded ∧
    (∀ (call : Call) (fault : Fault), call.attempt (runAll limit calls) = .error fault →
      runAll limit (calls ++ [call]) = runAll limit calls) ∧
    (∀ (n : UInt64) (own digits : Bytes),
      IsDecimal digits n.toNat ↔ digits = (Source.number n).piece own) ∧
    (storeAll calls (Storage.blank (limit + 1)) = some (Storage.padded (runAll limit calls)) ∧
      ∀ call : Call, call.store (Storage.padded (runAll limit calls)) =
        some (Storage.padded (runAll limit (calls ++ [call])),
          (call.attempt (runAll limit calls)).map fun _ => ())) ∧
    ∀ (other : Nat) (t : BoundedText other),
      ((runAll limit calls).sameBytes t = true ↔ (runAll limit calls).bytes = t.bytes) ∧
      ∀ behind behind', (Storage.split (runAll limit calls).bytes behind).same
        (Storage.split t.bytes behind') = (runAll limit calls).sameBytes t := by
  refine ⟨bytes_runAll_eq_retained limit calls, (runAll limit calls).length_le,
    fun source fault => ⟨?_, ?_⟩, rfl, fun call fault hrefused => ?_,
    fun n own digits => isDecimal_iff, ⟨storeAll_padded calls empty, fun call => ?_⟩,
    fun other t => ⟨beq_iff_eq, same_split (runAll limit calls) t⟩⟩
  · rw [Call.attempt_eq_append, append_eq_error_iff]
    rfl
  · rw [Call.attempt_eq_append, append_eq_error_iff, Call.front, size, bytes_empty,
      List.length_nil, Nat.zero_add]
    rfl
  · rw [runAll_concat, Call.run_of_attempt_error hrefused]
  · rw [runAll_concat, Call.store_padded]

-- a copy that does not fit, then pieces up to the bound
example : (runAll 3 [.append (.bytes (ascii "ab")), .append .own, .append (.number 7),
    .append (.byte Byte.nul), .append (.bytes [])]).bytes = ascii "ab7" := by decide

end BoundedText

end TypeSig
