/-
  TypeSig.Proofs.Text.Rendering

  What comes of a list of pieces. `wording` is the text of the pieces without a
  bound, where a piece that is a fault adds nothing. A text that is rendered is
  this wording (`render_eq_ok`); where there is none, a piece was a fault or the
  wording is longer than the bound (`render_eq_error`).
-/

import TypeSig.Text.Bounded

namespace TypeSig

/-! ## Steps in a row -/

/-- A computation in two steps succeeds when both steps do. -/
theorem bind_eq_ok_iff {ε α β : Type} {x : Except ε α} {f : α → Except ε β} {y : β} :
    (x >>= f) = .ok y ↔ ∃ a, x = .ok a ∧ f a = .ok y := by
  cases x with
  | error e => simp [bind, Except.bind]
  | ok a => simp [bind, Except.bind]

/-- A computation in two steps fails when one of the steps does. -/
theorem bind_eq_error_iff {ε α β : Type} {x : Except ε α} {f : α → Except ε β} {e : ε} :
    (x >>= f) = .error e ↔ x = .error e ∨ ∃ a, x = .ok a ∧ f a = .error e := by
  cases x with
  | error e' => simp [bind, Except.bind]
  | ok a => simp [bind, Except.bind]

/-! ## What pieces say -/

/-- The bytes of all pieces, one behind the other. -/
def wording (pieces : List Piece) : Bytes :=
  pieces.flatMap fun piece => piece.toOption.getD []

@[simp] theorem wording_nil : wording [] = [] := rfl

@[simp] theorem wording_ok_cons (bytes : Bytes) (pieces : List Piece) :
    wording (.ok bytes :: pieces) = bytes ++ wording pieces := rfl

theorem wording_map_ok {α : Type} (f : α → Bytes) (items : List α) :
    wording (items.map fun item => .ok (f item)) = items.flatMap f := by
  simp [wording, List.flatMap_map, Except.toOption]

@[simp] theorem wording_append (pieces more : List Piece) :
    wording (pieces ++ more) = wording pieces ++ wording more :=
  List.flatMap_append

@[simp] theorem wording_joinPieces_cons (separator : Bytes) (item next : List Piece)
    (items : List (List Piece)) :
    wording (joinPieces separator (item :: next :: items)) =
      wording item ++ (separator ++ wording (joinPieces separator (next :: items))) := by
  simp [joinPieces, List.intercalate_cons_cons]

theorem joinPieces_singleton (separator : Bytes) (item : List Piece) :
    joinPieces separator [item] = item :=
  List.intercalate_singleton

/-- Joined items say what the items say, with the separator in between. -/
theorem wording_joinPieces (separator : Bytes) (items : List (List Piece)) :
    wording (joinPieces separator items) = List.intercalate separator (items.map wording) := by
  induction items with
  | nil => rfl
  | cons item rest ih =>
    cases rest with
    | nil => rw [joinPieces_singleton, List.map_singleton, List.intercalate_singleton]
    | cons next rest =>
      rw [wording_joinPieces_cons, ih]
      simp only [List.map_cons, List.intercalate_cons_cons, List.append_assoc]

theorem mem_joinPieces {separator : Bytes} {items : List (List Piece)} {piece : Piece}
    (h : piece ∈ joinPieces separator items) :
    piece = .ok separator ∨ ∃ item ∈ items, piece ∈ item := by
  induction items with
  | nil => simp [joinPieces] at h
  | cons item rest ih =>
    cases rest with
    | nil =>
      rw [joinPieces_singleton] at h
      exact Or.inr ⟨item, List.mem_cons_self, h⟩
    | cons next rest =>
      rw [joinPieces, List.intercalate_cons_cons, List.mem_append, List.mem_append] at h
      rcases h with (hitem | hseparator) | hrest
      · exact Or.inr ⟨item, List.mem_cons_self, hitem⟩
      · exact Or.inl (List.mem_singleton.1 hseparator)
      · rcases ih hrest with hseparator | ⟨later, hlater, hpiece⟩
        · exact Or.inl hseparator
        · exact Or.inr ⟨later, List.mem_cons_of_mem _ hlater, hpiece⟩

theorem mem_joinPieces_of_mem {separator : Bytes} {items : List (List Piece)} {item : List Piece}
    (hitem : item ∈ items) {piece : Piece} (hpiece : piece ∈ item) :
    piece ∈ joinPieces separator items := by
  induction items with
  | nil => cases hitem
  | cons first rest ih =>
    cases rest with
    | nil =>
      rw [joinPieces_singleton]
      rwa [List.mem_singleton.1 hitem] at hpiece
    | cons next rest =>
      rw [joinPieces, List.intercalate_cons_cons, List.mem_append, List.mem_append]
      rcases List.mem_cons.1 hitem with rfl | hlater
      · exact Or.inl (Or.inl hpiece)
      · exact Or.inr (ih hlater)

namespace BoundedText

variable {limit : Nat}

theorem append_eq_ok {t t' : BoundedText limit} {piece : Bytes} (h : t.append piece = .ok t') :
    t'.bytes = t.bytes ++ piece := by
  unfold append at h
  split at h
  · cases h
    rfl
  · cases h

theorem exists_append {t : BoundedText limit} {piece : Bytes}
    (h : t.bytes.length + piece.length ≤ limit) :
    ∃ longer, t.append piece = .ok longer ∧ longer.bytes = t.bytes ++ piece :=
  ⟨_, append_of_le h, rfl⟩

theorem appendAll_eq_ok {pieces : List Piece} {t t' : BoundedText limit}
    (h : appendAll pieces t = .ok t') : t'.bytes = t.bytes ++ wording pieces := by
  induction pieces generalizing t with
  | nil =>
    cases h
    rw [wording_nil, List.append_nil]
  | cons piece pieces ih =>
    obtain ⟨bytes, rfl, hbytes⟩ := bind_eq_ok_iff.1 h
    obtain ⟨longer, happend, hrest⟩ := bind_eq_ok_iff.1 hbytes
    rw [ih hrest, append_eq_ok happend, wording_ok_cons, List.append_assoc]

theorem render_eq_ok {pieces : List Piece} {t : BoundedText limit} (h : render pieces = .ok t) :
    t.bytes = wording pieces :=
  appendAll_eq_ok h

/-- No piece of a text that is put together is a fault. -/
theorem error_notMem_of_appendAll {pieces : List Piece} {t t' : BoundedText limit}
    (h : appendAll pieces t = .ok t') : ∀ fault, .error fault ∉ pieces := by
  induction pieces generalizing t with
  | nil => exact fun fault => List.not_mem_nil
  | cons piece pieces ih =>
    obtain ⟨bytes, rfl, hbytes⟩ := bind_eq_ok_iff.1 h
    obtain ⟨longer, -, hrest⟩ := bind_eq_ok_iff.1 hbytes
    exact fun fault hmem => ih hrest fault (by simpa using hmem)

theorem error_notMem_of_render {pieces : List Piece} {t : BoundedText limit}
    (h : render pieces = .ok t) : ∀ fault, .error fault ∉ pieces :=
  error_notMem_of_appendAll h

/-- Nothing but a lack of room keeps a piece from being put at the end. -/
theorem append_eq_error {t : BoundedText limit} {piece : Bytes} {fault : Fault}
    (h : t.append piece = .error fault) :
    fault = .textTooLong limit ∧ limit < t.bytes.length + piece.length := by
  unfold append at h
  split at h
  · cases h
  · next hlong =>
    cases h
    exact ⟨rfl, Nat.lt_of_not_le hlong⟩

theorem appendAll_eq_error {pieces : List Piece} {t : BoundedText limit} {fault : Fault}
    (h : appendAll pieces t = .error fault) :
    .error fault ∈ pieces ∨
      fault = .textTooLong limit ∧ limit < t.bytes.length + (wording pieces).length := by
  induction pieces generalizing t with
  | nil => cases h
  | cons piece pieces ih =>
    rcases bind_eq_error_iff.1 h with rfl | ⟨bytes, rfl, hbytes⟩
    · exact Or.inl List.mem_cons_self
    rw [wording_ok_cons, List.length_append]
    rcases bind_eq_error_iff.1 hbytes with happend | ⟨longer, happend, hrest⟩
    · obtain ⟨rfl, hlong⟩ := append_eq_error happend
      exact Or.inr ⟨rfl, by omega⟩
    · rcases ih hrest with hpiece | ⟨rfl, hlong⟩
      · exact Or.inl (List.mem_cons_of_mem _ hpiece)
      · rw [append_eq_ok happend, List.length_append] at hlong
        exact Or.inr ⟨rfl, by omega⟩

/-- A text is not rendered because of a piece, or because all pieces together are too
    long for it. -/
theorem render_eq_error {pieces : List Piece} {fault : Fault}
    (h : (render pieces : Except Fault (BoundedText limit)) = .error fault) :
    .error fault ∈ pieces ∨ fault = .textTooLong limit ∧ limit < (wording pieces).length := by
  simpa using appendAll_eq_error h

/-- Pieces without a fault that are short enough are rendered. -/
theorem exists_render {pieces : List Piece} (hpieces : ∀ fault, .error fault ∉ pieces)
    (hlength : (wording pieces).length ≤ limit) :
    ∃ t : BoundedText limit, render pieces = .ok t ∧ t.bytes = wording pieces := by
  cases h : (render pieces : Except Fault (BoundedText limit)) with
  | ok t => exact ⟨t, rfl, render_eq_ok h⟩
  | error fault =>
    rcases render_eq_error h with hpiece | ⟨-, hlong⟩
    · exact absurd hpiece (hpieces fault)
    · exact absurd hlength (Nat.not_le.2 hlong)

/-- Pieces without a fault that are too long are refused for that. -/
theorem render_of_lt {pieces : List Piece} (hpieces : ∀ fault, .error fault ∉ pieces)
    (hlong : limit < (wording pieces).length) :
    (render pieces : Except Fault (BoundedText limit)) = .error (.textTooLong limit) := by
  cases h : (render pieces : Except Fault (BoundedText limit)) with
  | ok t => exact absurd t.length_le (Nat.not_le.2 (render_eq_ok h ▸ hlong))
  | error fault =>
    rcases render_eq_error h with hpiece | ⟨rfl, -⟩
    · exact absurd hpiece (hpieces fault)
    · rfl

end BoundedText

end TypeSig
