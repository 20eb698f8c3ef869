/-
  TypeSig.Proofs.Signature.Room

  What storing a phrase asks for, and what comes of it. A demand names the nodes,
  the texts and the levels that are needed; `Fits` says that they are there, and
  `Lacks` which of them a cause of failure says is missing. An `Outcome` is a
  success for which everything was there or a failure for the lack of something,
  so it excludes failures of any other kind.

  Outcomes are put together with `Outcome.bind`: a part may lack only what the
  whole lacks. The storing steps of the reader come last, each with its outcome.
-/

import TypeSig.Proofs.Signature.Steps

namespace TypeSig.Signature

/-- What storing a phrase asks for. -/
structure Demand where
  /-- The number of nodes. -/
  cost : Nat
  /-- The texts that nodes must hold. -/
  texts : List Bytes
  /-- The number of types that are open at once. -/
  depth : Nat

namespace Demand

/-- An arena of a capacity that has a number of nodes already, and so many levels
    of nesting, are enough. -/
structure Fits (d : Demand) (capacity levels size : Nat) : Prop where
  nodes : size + d.cost ≤ capacity
  texts : ∀ text ∈ d.texts, text.length ≤ nameLimit
  levels : d.depth ≤ levels

/-- What a cause of failure says is missing. -/
def Lacks (d : Demand) (capacity levels size : Nat) : ReadCause → Prop
  | .tooManyNodes => capacity < size + d.cost
  | .textTooLong => ∃ text ∈ d.texts, nameLimit < text.length
  | .nestedTooDeeply => levels < d.depth
  | .expected _ | .nulInLiteral | .unterminatedLiteral | .refused _ => False

variable {d d' : Demand} {capacity levels levels' size size' : Nat} {cause : ReadCause}

/-- What is missing is not there. -/
theorem Lacks.not_fits (h : d.Lacks capacity levels size cause) :
    ¬ d.Fits capacity levels size := by
  intro hfits
  cases cause with
  | tooManyNodes => exact Nat.not_lt.2 hfits.nodes h
  | textTooLong =>
    obtain ⟨text, hmem, hlong⟩ := h
    exact Nat.not_lt.2 (hfits.texts text hmem) hlong
  | nestedTooDeeply => exact Nat.not_lt.2 hfits.levels h
  | expected | nulInLiteral | unterminatedLiteral | refused => exact h

theorem Lacks.kind_eq (h : d.Lacks capacity levels size cause) :
    cause.kind = .capacityExceeded := by
  cases cause with
  | tooManyNodes | textTooLong | nestedTooDeeply => rfl
  | expected | nulInLiteral | unterminatedLiteral | refused => exact h.elim

/-- What a part lacks, the whole lacks. -/
theorem Lacks.mono (h : d.Lacks capacity levels size cause)
    (hcost : size + d.cost ≤ size' + d'.cost) (htexts : d.texts ⊆ d'.texts)
    (hdepth : d.depth + levels' ≤ d'.depth + levels) : d'.Lacks capacity levels' size' cause := by
  cases cause with
  | tooManyNodes => exact Nat.lt_of_lt_of_le h hcost
  | textTooLong =>
    obtain ⟨text, hmem, hlong⟩ := h
    exact ⟨text, htexts hmem, hlong⟩
  | nestedTooDeeply =>
    simp only [Lacks] at h ⊢
    omega
  | expected | nulInLiteral | unterminatedLiteral | refused => exact h

end Demand

/-! ## Outcomes -/

/-- A success for which all that was asked for was there, or a failure for the
    lack of something. -/
def Outcome {α : Type} (d : Demand) (capacity levels size : Nat) (post : α → Progress → Prop) :
    Except ReadFailure (α × Progress) → Prop
  | .ok (x, s) => d.Fits capacity levels size ∧ post x s
  | .error failure => d.Lacks capacity levels size failure.cause

variable {d d' : Demand} {capacity levels levels' size size' : Nat}

/-- Two steps in a row, of which the first may lack only what the whole lacks. -/
theorem Outcome.bind {α β : Type} {post : α → Progress → Prop} {post' : β → Progress → Prop}
    {x : Except ReadFailure (α × Progress)}
    {f : α × Progress → Except ReadFailure (β × Progress)}
    (h : Outcome d capacity levels size post x)
    (hlacks : ∀ cause, d.Lacks capacity levels size cause →
      d'.Lacks capacity levels' size' cause)
    (hf : ∀ y t, d.Fits capacity levels size → post y t →
      Outcome d' capacity levels' size' post' (f (y, t))) :
    Outcome d' capacity levels' size' post' (x >>= f) := by
  cases x with
  | error failure => exact hlacks _ h
  | ok r => exact hf r.1 r.2 h.1 h.2

/-- The outcome of a last step is an outcome of the whole. -/
theorem Outcome.imp {α : Type} {post post' : α → Progress → Prop}
    {x : Except ReadFailure (α × Progress)} (h : Outcome d capacity levels size post x)
    (hlacks : ∀ cause, d.Lacks capacity levels size cause →
      d'.Lacks capacity levels' size' cause)
    (hok : ∀ y t, d.Fits capacity levels size → post y t →
      d'.Fits capacity levels' size' ∧ post' y t) :
    Outcome d' capacity levels' size' post' x := by
  cases x with
  | error failure => exact hlacks _ h
  | ok r => exact hok r.1 r.2 h.1 h.2

/-- The room for a node is asked for first. -/
theorem Outcome.of_room {α : Type} {post : α → Progress → Prop} {s : Progress} {text : Bytes}
    {position : Nat} {f : Except ReadFailure (α × Progress)}
    (hnodes : capacity ≤ s.arena.size → capacity < size + d.cost)
    (htext : nameLimit < text.length → text ∈ d.texts)
    (hf : s.arena.size < capacity → text.length ≤ nameLimit →
      Outcome d capacity levels size post f) :
    Outcome d capacity levels size post (s.ensureRoom capacity text position >>= fun _ => f) := by
  -- nodes are counted before the text is measured, so a full arena is reported first
  by_cases hfull : capacity ≤ s.arena.size
  · have hroom : s.ensureRoom capacity text position = .error ⟨.tooManyNodes, position⟩ := by
      simp [Progress.ensureRoom, Arena.isFull, hfull]
    rw [hroom]
    exact hnodes hfull
  by_cases hlen : text.length ≤ nameLimit
  · have hroom : s.ensureRoom capacity text position = .ok () := by
      simp [Progress.ensureRoom, Arena.isFull, hfull, hlen]
    rw [hroom]
    exact hf (Nat.lt_of_not_le hfull) hlen
  · have hroom : s.ensureRoom capacity text position = .error ⟨.textTooLong, position⟩ := by
      simp [Progress.ensureRoom, Arena.isFull, hfull, hlen]
    rw [hroom]
    exact ⟨text, htext (Nat.lt_of_not_le hlen), Nat.lt_of_not_le hlen⟩

/-! ## The storing steps -/

/-- Asking for room and storing an atomic type. -/
theorem storeAtomic_outcome {s : Progress} {kind : AtomicKind} {text kept : Bytes}
    {position : Nat} (hkept : kept.length ≤ text.length) :
    Outcome ⟨1, [text], 0⟩ capacity levels s.arena.size
      (fun id t => t.tokens = s.tokens ∧
        s.arena.Grows t.arena 1 [id] [.atomic kind (stored kept)])
      (s.ensureRoom capacity text position >>= fun _ =>
        s.storeAtomic capacity kind kept position) := by
  refine Outcome.of_room (fun h => Nat.lt_succ_of_le h) (fun _ => List.mem_singleton_self _) ?_
  intro hroom hlen
  obtain ⟨b, hadd, hgrows⟩ := Arena.Grows.atomic kind hroom (Nat.le_trans hkept hlen)
  rw [Progress.storeAtomic, hadd]
  exact ⟨⟨hroom, by simpa using hlen, Nat.zero_le _⟩, rfl, hgrows⟩

/-- Asking for room and storing a parent over roots that have been stored since a
    time at which there were `size` nodes. -/
theorem storeParent_outcome {a : Arena} {s : Progress} (d : Demand) (capacity : Nat)
    (kind : NodeKind) (position : Nat) {cost : Nat} {roots : List Nat} {trees : List TypeTree}
    (h : a.Grows s.arena cost roots trees)
    (hkind : kind ≠ .atomic) (hcost : d.cost = cost + 1)
    (hfits : a.size + d.cost ≤ capacity → d.Fits capacity levels a.size) :
    Outcome d capacity levels a.size
      (fun id t => t.tokens = s.tokens ∧
        a.Grows t.arena (cost + 1) [id] [.node (.blank kind) trees])
      (s.storeParent capacity kind roots position) := by
  have hsize := h.size
  refine Outcome.of_room (fun h => by omega) (fun h => by simp at h) ?_
  intro hroom _
  obtain ⟨b, hadd, hgrows⟩ := h.parent (.blank kind) hroom (by simpa using hkind)
  rw [Arena.addParent, hadd]
  exact ⟨hfits (by omega), rfl, hgrows⟩

/-- Asking for room and storing a field over its type. -/
theorem storeField_outcome {a : Arena} {s : Progress} {name : Bytes} (capacity : Nat)
    (optional : Bool) (position : Nat) {cost type : Nat} {tree : TypeTree}
    (h : a.Grows s.arena cost [type] [tree])
    (hcost : d.cost = cost + 1) (hname : name ∈ d.texts)
    (hfits : a.size + d.cost ≤ capacity → name.length ≤ nameLimit →
      d.Fits capacity levels a.size) :
    Outcome d capacity levels a.size
      (fun id t => t.tokens = s.tokens ∧
        a.Grows t.arena (cost + 1) [id] [.field (stored name) optional tree])
      (s.ensureRoom capacity name position >>= fun _ =>
        s.keep position (s.arena.addField capacity name type optional)) := by
  have hsize := h.size
  refine Outcome.of_room (fun h => by omega) (fun _ => hname) ?_
  intro hroom hlen
  obtain ⟨b, hadd, hgrows⟩ := h.parent (.field (stored name) optional) hroom (by simp [Label.kind])
  rw [Arena.addField, if_pos hlen, hadd]
  exact ⟨hfits (by omega) hlen, rfl, hgrows⟩

end TypeSig.Signature
