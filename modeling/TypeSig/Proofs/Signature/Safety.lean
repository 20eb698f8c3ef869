/-
  TypeSig.Proofs.Signature.Safety

  No guard is ever broken, whatever the text is. The guarded reader, which goes through the
  bytes of the text, is followed step by step beside the reader, which goes through its
  tokens: `Agrees` says that both give the same answer, that a failure names a place in the
  text, and that its cause is not a refusal by the arena. Wherever a type is read, no blank
  comes next (`Settled`); behind a token a blank may come (`Standing`).

  The tables are long enough because every field and every case has a node of its
  own, and the nodes fit. The ids in them can be looked up because each is the root
  of a tree that was stored since the table was begun (`Arena.Grows`). The rounds of the
  loops last because every round takes a token, and there are no more tokens than bytes.
-/

import TypeSig.Proofs.Signature.Bytewise
import TypeSig.Proofs.Signature.Language

namespace TypeSig

/-! ## Comparing nodes that are there -/

namespace Arena

variable {a b : Arena}

/-- Two chains that can be walked are compared to the end, with as many steps as
    the first of them has nodes. -/
theorem SpansChain.sameChain?_eq {start : Option Nat} {ts : List TypeTree} {ids : List Nat}
    (h : a.SpansChain start ts ids) :
    ∀ {steps : Nat} {start' : Option Nat} {us : List TypeTree} {ids' : List Nat},
      a.SpansChain start' us ids' → ids.toFinset.card ≤ steps →
      a.sameChain? steps start start' = some (sameChain a a steps start start') := by
  induction h with
  | nil =>
    intro steps start' us ids' h' _
    cases h' with
    | nil => cases steps <;> simp [sameChain?, sameChain]
    | cons => cases steps <;> simp [sameChain?, sameChain]
  | @cons id m children rest ids more hn hcount hc hr ihc ihr =>
    intro steps start' us ids' h' hle
    -- neither walk comes back to `id`, so one step less is enough for each
    have hnot := SpansChain.start_notMem hn hcount hc hr
    have hltc := card_toFinset_lt hnot.1 (List.subset_append_left ids more)
    have hltr := card_toFinset_lt hnot.2 (List.subset_append_right ids more)
    obtain ⟨steps, rfl⟩ : ∃ k, steps = k + 1 := ⟨steps - 1, by omega⟩
    cases h' with
    | nil => simp [sameChain?, sameChain]
    | @cons _ n children' rest' _ _ hn' hcount' hc' hr' =>
      have hchildren := ihc hc' (show ids.toFinset.card ≤ steps by omega)
      have hrest := ihr hr' (show more.toFinset.card ≤ steps by omega)
      simp only [sameChain?, sameChain, hn, hn', hchildren, hrest, bind, Option.bind]
      cases m.agrees n with
      | false => rfl
      | true =>
        cases m.isAtomic with
        | true => rfl
        | false => cases sameChain a a steps m.firstChild n.firstChild <;> rfl

/-- The roots of two trees are compared without a guard being broken. -/
theorem Spans.sameTree?_eq {i j : Nat} {s t : TypeTree} {ids ids' : List Nat}
    (hi : a.Spans i s ids) (hj : a.Spans j t ids') :
    a.sameTree? i j = some (a.sameTree i a j) := by
  cases hi with
  | @intro m children _ hn hcount hc =>
    cases hj with
    | @intro n children' _ hn' hcount' hc' =>
      have hchildren := hc.sameChain?_eq hc' hc.card_le
      simp only [sameTree?, sameTree, hn, hn', hchildren, bind, Option.bind]
      cases m.agrees n <;> cases m.isAtomic <;> rfl

/-- A tree that was stored since takes nodes. -/
theorem Grows.size_lt {cost id : Nat} {tree : TypeTree} (h : a.Grows b cost [id] [tree]) :
    a.size < b.size := by
  obtain ⟨ids, hs, -, hge⟩ := h.spans
  have hroot := hs.roots_subset id (List.mem_singleton_self id)
  exact Nat.lt_of_le_of_lt (hge id hroot) (hs.lt id hroot)

/-- The roots of trees that were stored since are stored. -/
theorem Grows.roots_lt {cost : Nat} {roots : List Nat} {trees : List TypeTree}
    (h : a.Grows b cost roots trees) : ∀ id ∈ roots, id < b.size := by
  obtain ⟨ids, hs, -⟩ := h.spans
  exact fun id hid => hs.lt id (hs.roots_subset id hid)

end Arena

namespace Signature

/-! ## Tokens are parts of the text -/

/-- The token is made of the bytes of the text that stand from its offset on: a whole
    token of all of them, a broken quoted text of those up to the NUL or the end. -/
def LiesIn (text : Bytes) (l : Lexeme) : Prop :=
  match l.token with
  | .name n => isName n = true ∧ n <+: text.drop l.start
  | .quoted body => ∃ q, Byte.isQuote q = true ∧ q :: (body ++ [q]) <+: text.drop l.start
  | .quotedNul offset => ∃ q body, Byte.isQuote q = true ∧ offset = l.start + 1 + body.length ∧
      q :: (body ++ [Byte.nul]) <+: text.drop l.start
  | .unclosed => ∃ q after, Byte.isQuote q = true ∧ text.drop l.start = q :: after ∧ q ∉ after
  | .byte b => [b] <+: text.drop l.start

/-- A whole token whose bytes are cut off behind the last. -/
theorem Scans.liesIn {text taken after : Bytes} {offset : Nat} {l : Lexeme}
    (h : Scans offset [l] taken after) (htext : text.drop l.start = taken ++ after)
    (hhead : ∀ b ∈ (taken ++ after).head?, Byte.isSpace b = false) : LiesIn text l := by
  rw [LiesIn, htext]
  cases h with
  | blank hb =>
    rw [hhead _ rfl] at hb
    cases hb
  | name hn => exact ⟨hn, by simp⟩
  | quoted hquote => exact ⟨_, hquote, by simp⟩
  | byte => simp

theorem liesIn_of_mem {text : Bytes} {l : Lexeme} (h : l ∈ tokens text) : LiesIn text l := by
  obtain ⟨ls, more, hsplit⟩ := List.append_of_mem h
  have hwhole := isWhole_of_tokensFrom_eq hsplit
  obtain ⟨front, back, rfl, -, hrest, hhead⟩ := exists_scans text 0 hsplit hwhole
  rw [Nat.zero_add] at hrest
  rcases back with _ | ⟨b, back⟩
  · cases hrest
  obtain ⟨token, rest, hfirst, -⟩ := exists_tokensFrom_eq_cons (hhead b rfl) front.length back
  obtain ⟨rfl, rfl⟩ := List.cons.inj (hfirst.symm.trans hrest)
  have hdrop : (front ++ b :: back).drop front.length = b :: back := List.drop_left
  by_cases htoken : token.isWhole = true
  · obtain ⟨taken, after, hcut, hscans, -⟩ := exists_scans (b :: back) front.length
      (show _ = [_] ++ rest from hfirst) (List.forall_mem_singleton.2 htoken)
    exact hscans.liesIn (hdrop.trans hcut) (hcut ▸ hhead)
  rw [LiesIn, hdrop]
  cases token with
  | quotedNul offset =>
    obtain ⟨hquote, body, after, rfl, hoffset, -⟩ := eq_of_quotedNul (hhead b rfl) hfirst
    exact ⟨b, body, hquote, hoffset, after, by simp⟩
  | unclosed =>
    obtain ⟨hquote, hb, -⟩ := eq_of_unclosed (hhead b rfl) hfirst
    exact ⟨b, back, hquote, rfl, hb⟩
  | name | quoted | byte => exact absurd rfl htoken

/-- Taking a token leaves fewer. -/
theorem length_skip_lt {s : Progress} {token : Token} (h : s.tokens.head? = some token) :
    s.skip.rest.length < s.rest.length := by
  rcases s with ⟨arena, _ | ⟨l, rest⟩, finish⟩
  · cases h
  · exact Nat.lt_succ_self _

/-- With a mark that may be there or without it, the reading is no further back. -/
theorem length_rest_getD_eat?_le (s : Progress) (b : UInt8) :
    ((s.eat? b).getD s).rest.length ≤ s.rest.length := by
  by_cases hhead : s.tokens.head? = some (.byte b)
  · rw [Progress.eat?_of_head hhead]
    exact (length_skip_lt hhead).le
  · rw [Progress.eat?_of_head_ne hhead]
    exact Nat.le_refl _

namespace Guarded

/-! ## Storing -/

theorem hasRoom_bind {β : Type} (capacity : Nat) (text : Bytes) (position : Nat)
    (k : Bool → Guarded β) (c : Cursor) :
    (hasRoom capacity text position >>= k) c =
      if c.arena.isFull capacity then
        k false { c with failure := c.failure.or (some ⟨.tooManyNodes, position⟩) }
      else if text.length ≤ nameLimit then
        k true c
      else
        k false { c with failure := c.failure.or (some ⟨.textTooLong, position⟩) } := by
  rw [bind_apply, hasRoom, look_bind]
  by_cases hfull : c.arena.isFull capacity = true
  · simp only [hfull, if_true]
    rfl
  · by_cases hlen : text.length ≤ nameLimit
    · simp only [hfull, hlen, if_true, Bool.false_eq_true, if_false]
      rfl
    · simp only [hfull, hlen, Bool.false_eq_true, if_false]
      rfl

/-- Storing over nodes that are there, when the arena has room. -/
theorem store_apply {capacity new offset : Nat} {text : Bytes} {children : List Nat}
    {failure : Option ReadFailure} {grow : Arena → Arena × Except Fault Nat} {a b : Arena}
    (hroom : a.size ≤ capacity) (hchildren : ∀ id ∈ children, id < a.size)
    (hgrow : grow a = (b, .ok new)) (hnew : new < b.size) (hsize : b.size ≤ capacity) :
    store capacity children grow ⟨text, offset, a, failure⟩ =
      some (some new, ⟨text, offset, b, failure⟩) := by
  have hall : (children.all fun id => isStored capacity id ⟨text, offset, a, failure⟩) = true := by
    rw [List.all_eq_true]
    intro id hid
    simp [isStored, hchildren id hid, hroom]
  have hlast : isStored capacity new ⟨text, offset, b, failure⟩ = true := by
    simp [isStored, hnew, hsize]
  rw [store, check_bind (by exact hall), look_bind]
  simp only [hgrow, keep_bind]
  rw [check_bind (by exact hlast)]
  rfl

/-! ## Agreement -/

/-- A guarded run breaks no guard and answers as the reader does: with its value, at an
    offset behind what was read, or with its failure as the first one on record. -/
def Agrees {α : Type} (text : Bytes) (post : α → Nat → Progress → Prop)
    (run : Option (Option α × Cursor)) : Except ReadFailure (α × Progress) → Prop
  | .ok (x, t) => ∃ offset, run = some (some x, ⟨text, offset, t.arena, none⟩) ∧ post x offset t
  | .error failure => (∃ c, run = some (none, c) ∧ c.failure = some failure) ∧
      failure.position ≤ text.length ∧ ∀ fault, failure.cause ≠ .refused fault

variable {α β : Type} {capacity offset : Nat} {text : Bytes} {s : Progress}
  {post : α → Nat → Progress → Prop} {post' : β → Nat → Progress → Prop}

theorem Agrees.bind {m : Guarded α} {f : α → Guarded β} {c : Cursor}
    {x : Except ReadFailure (α × Progress)} {g : α × Progress → Except ReadFailure (β × Progress)}
    (h : Agrees text post (m c) x)
    (hf : ∀ y next t, post y next t →
      Agrees text post' (f y ⟨text, next, t.arena, none⟩) (g (y, t))) :
    Agrees text post' ((m >>= f) c) (x >>= g) := by
  cases x with
  | ok r =>
    obtain ⟨next, hrun, hpost⟩ := h
    rw [bind_of_eq hrun]
    exact hf r.1 next r.2 hpost
  | error failure =>
    obtain ⟨⟨d, hrun, hd⟩, hfailure⟩ := h
    rw [bind_apply, hrun]
    exact ⟨⟨d, rfl, hd⟩, hfailure⟩

/-- Behind a step that gives up nothing is done. -/
theorem Agrees.stop {m : Guarded α} {f : α → Guarded β} {c : Cursor} {failure : ReadFailure}
    (h : Agrees text post (m c) (.error failure)) :
    Agrees text post' ((m >>= f) c) (.error failure) := by
  obtain ⟨⟨d, hrun, hd⟩, hfailure⟩ := h
  rw [bind_apply, hrun]
  exact ⟨⟨d, rfl, hd⟩, hfailure⟩

theorem Agrees.imp {post' : α → Nat → Progress → Prop} {run : Option (Option α × Cursor)}
    {x : Except ReadFailure (α × Progress)} (h : Agrees text post run x)
    (himp : ∀ y next t, post y next t → post' y next t) : Agrees text post' run x := by
  cases x with
  | ok r =>
    obtain ⟨next, hrun, hpost⟩ := h
    exact ⟨next, hrun, himp _ _ _ hpost⟩
  | error failure => exact h

/-- Where blanks may stand, the tokens stay the same. -/
theorem Agrees.skipBlanks {arena : Arena} {k : Unit → Guarded α}
    {x : Except ReadFailure (α × Progress)} (hs : Standing text offset s)
    (hk : ∀ next, Settled text next s → Agrees text post (k () ⟨text, next, arena, none⟩) x) :
    Agrees text post ((Guarded.skipBlanks >>= k) ⟨text, offset, arena, none⟩) x := by
  obtain ⟨next, hnext, hrun⟩ := skipBlanks_apply arena none hs
  rw [bind_of_eq hrun]
  exact hk next hnext

/-- Both readers fail at the next token. -/
theorem expect_agrees {arena : Arena} (what : Expected) (hs : Settled text offset s) :
    Agrees text post (expect what ⟨text, offset, arena, none⟩) (s.expect what) := by
  rw [Progress.expect, hs.position_eq]
  exact ⟨⟨_, rfl, rfl⟩, hs.offset_le, by rintro _ ⟨⟩⟩

/-- Making sure of room and storing a node, on which both readers agree. -/
theorem storeWithRoom_agrees {name : Bytes} {position : Nat} {children : List Nat}
    {grow : Arena → Arena × Except Fault Nat} {post : Nat → Nat → Progress → Prop}
    (hroom : s.arena.size ≤ capacity) (hposition : position ≤ text.length)
    (hchildren : ∀ id ∈ children, id < s.arena.size)
    (hgrow : s.arena.size < capacity → name.length ≤ nameLimit →
      ∃ b, grow s.arena = (b, .ok s.arena.size) ∧ b.size = s.arena.size + 1 ∧
        post s.arena.size offset ⟨b, s.rest, s.finish⟩) :
    Agrees text post
      (storeWithRoom capacity name position children grow ⟨text, offset, s.arena, none⟩)
      (s.ensureRoom capacity name position >>= fun _ => s.keep position (grow s.arena)) := by
  rw [storeWithRoom, hasRoom_bind, Progress.ensureRoom]
  split
  · exact ⟨⟨_, rfl, rfl⟩, hposition, by rintro _ ⟨⟩⟩
  next hfull =>
  split
  · next hlen =>
    have hless : s.arena.size < capacity := by simpa [Arena.isFull] using hfull
    obtain ⟨b, hb, hsize, hpost⟩ := hgrow hless hlen
    have hstore : store capacity children grow ⟨text, offset, s.arena, none⟩ =
        some (some s.arena.size, ⟨text, offset, b, none⟩) :=
      store_apply hroom hchildren hb (by omega) (by omega)
    rw [hb]
    exact ⟨offset, hstore, hpost⟩
  · exact ⟨⟨_, rfl, rfl⟩, hposition, by rintro _ ⟨⟩⟩

/-! ## Names and marks -/

/-- What is known where a token was taken and nothing was stored. -/
def Took {α : Type} (text : Bytes) (s : Progress) (_ : α) (offset : Nat) (t : Progress) : Prop :=
  Standing text offset t ∧ t.rest.length < s.rest.length ∧ t.arena = s.arena

/-- What is known where trees were stored: they were since the reading stood at `s`, and the
    nodes fit. -/
def StoredEach (capacity : Nat) (text : Bytes) (s : Progress) (ids : List Nat) (offset : Nat)
    (t : Progress) : Prop :=
  Standing text offset t ∧ t.arena.size ≤ capacity ∧ t.rest.length < s.rest.length ∧
    ∃ cost trees, s.arena.Grows t.arena cost ids trees

/-- What is known where one tree was stored. -/
def Stored (capacity : Nat) (text : Bytes) (s : Progress) (id : Nat) (offset : Nat)
    (t : Progress) : Prop :=
  Standing text offset t ∧ t.arena.size ≤ capacity ∧ t.rest.length < s.rest.length ∧
    ∃ cost tree, s.arena.Grows t.arena cost [id] [tree]

/-- A node that was stored behind some tokens was stored behind more of them. -/
theorem Stored.mono {t u : Progress} {id : Nat} (h : Stored capacity text t id offset u)
    (hrest : t.rest.length ≤ s.rest.length) (harena : t.arena = s.arena) :
    Stored capacity text s id offset u := by
  obtain ⟨hu, hroom, hlen, cost, tree, hgrows⟩ := h
  rw [harena] at hgrows
  exact ⟨hu, hroom, by omega, cost, tree, hgrows⟩

theorem readFieldName_agrees (hs : Settled text offset s) :
    Agrees text (Took text s) (readFieldName ⟨text, offset, s.arena, none⟩)
      (Signature.readFieldName s) := by
  have hposition := hs.position_eq
  have hle := hs.offset_le
  rw [readFieldName]
  rcases s with ⟨arena, _ | ⟨⟨token, start⟩, rest⟩, finish⟩
  · rw [bind_of_eq (hs.scanName_none (by rintro _ ⟨⟩))]
    simp only
    rw [bind_of_eq (hs.scanQuoted_none (by rintro _ ⟨⟩))]
    exact expect_agrees .fieldName hs
  obtain rfl : start = offset := hposition
  by_cases hname : ∃ name, token = .name name
  · obtain ⟨name, rfl⟩ := hname
    obtain ⟨next, hnext, hrun⟩ := hs.scanName_name
    rw [bind_of_eq hrun]
    exact ⟨next, rfl, hnext, Nat.lt_succ_self _, rfl⟩
  -- without a name, a quoted text is looked for at the same place
  have hhead : ∀ name, (Progress.mk arena (⟨token, start⟩ :: rest) finish).tokens.head? ≠
      some (.name name) := fun name hsome => hname ⟨name, Option.some.inj hsome⟩
  rw [bind_of_eq (hs.scanName_none hhead)]
  simp only
  cases token with
  | name name => exact absurd ⟨name, rfl⟩ hname
  | quoted name =>
    obtain ⟨next, hnext, hrun⟩ := hs.scanQuoted_quoted
    rw [bind_of_eq hrun]
    exact ⟨next, rfl, hnext, Nat.lt_succ_self _, rfl⟩
  | quotedNul nul =>
    obtain ⟨hnul, hrun⟩ := hs.scanQuoted_nul
    rw [bind_of_eq hrun]
    exact ⟨⟨_, rfl, rfl⟩, hnul, by rintro _ ⟨⟩⟩
  | unclosed =>
    rw [bind_of_eq hs.scanQuoted_unclosed]
    exact ⟨⟨_, rfl, rfl⟩, hle, by rintro _ ⟨⟩⟩
  | byte b =>
    rw [bind_of_eq (hs.scanQuoted_none (by rintro _ ⟨⟩ ⟨⟩))]
    exact expect_agrees .fieldName hs

theorem require_agrees {b : UInt8} (what : Expected) (hb : isMark b = true)
    (hs : Settled text offset s) :
    Agrees text (fun stop next t => Took text s stop next t ∧ stop ≤ text.length)
      (require b what ⟨text, offset, s.arena, none⟩) (s.eat b what) := by
  rw [require]
  by_cases hhead : s.tokens.head? = some (.byte b)
  · have hnext := hs.skip hb hhead
    rw [bind_of_eq (hs.eat_of_head hb hhead), Progress.eat_of_head hhead, hs.position_eq]
    exact ⟨offset + 1, rfl, ⟨hnext, length_skip_lt hhead, rfl⟩, hnext.offset_le⟩
  · rw [bind_of_eq (hs.eat_of_head_ne hb hhead), Progress.eat, Progress.eat?_of_head_ne hhead]
    exact expect_agrees what hs

/-- Storing a node over roots that were stored since the reading stood at `s`. -/
theorem storeLabelled_agrees {s t : Progress} {label : Label} {name : Bytes} {position : Nat}
    {roots : List Nat} {grow : Arena → Arena × Except Fault Nat} (hlabel : label.kind ≠ .atomic)
    (hgrow : name.length ≤ nameLimit → grow t.arena = t.arena.addLabelled capacity label roots)
    (hposition : position ≤ text.length) (ht : StoredEach capacity text s roots offset t) :
    Agrees text (Stored capacity text s)
      (storeWithRoom capacity name position roots grow ⟨text, offset, t.arena, none⟩)
      (t.ensureRoom capacity name position >>= fun _ => t.keep position (grow t.arena)) := by
  obtain ⟨ht, hroom, hshorter, cost, trees, hgrows⟩ := ht
  refine storeWithRoom_agrees hroom hposition hgrows.roots_lt fun hless hlen => ?_
  obtain ⟨b, hadd, hparent⟩ := hgrows.parent label hless hlabel
  have hsize : b.size = t.arena.size + 1 := by
    rw [hparent.size, hgrows.size]
    rfl
  have hfits : b.size ≤ capacity := by omega
  exact ⟨b, (hgrow hlen).trans hadd, hsize, ht.grown b, hfits, hshorter, _, _, hparent⟩

/-- Storing an atomic type that was read since the reading stood at `s`. -/
theorem storeAtomic_agrees {s t : Progress} {kind : AtomicKind} {name kept : Bytes}
    {position : Nat} (hkept : kept.length ≤ name.length) (ht : Took text s name offset t)
    (hroom : s.arena.size ≤ capacity) (hposition : position ≤ text.length) :
    Agrees text (Stored capacity text s)
      (storeWithRoom capacity name position []
        (fun arena => arena.addAtomic capacity kind kept) ⟨text, offset, t.arena, none⟩)
      (t.ensureRoom capacity name position >>= fun _ =>
        t.keep position (t.arena.addAtomic capacity kind kept)) := by
  obtain ⟨ht, hshorter, harena⟩ := ht
  rw [← harena] at hroom
  refine storeWithRoom_agrees hroom hposition (List.forall_mem_nil _) fun hless hlen => ?_
  obtain ⟨b, hadd, hgrows⟩ := Arena.Grows.atomic kind hless (Nat.le_trans hkept hlen)
  have hsize : b.size = t.arena.size + 1 := hgrows.size
  have hfits : b.size ≤ capacity := by omega
  refine ⟨b, hadd, hsize, ht.grown b, hfits, hshorter, 1, .atomic kind (stored kept), ?_⟩
  rw [← harena]
  exact hgrows

/-! ## The parts of a type -/

section

variable {T : Guarded Nat} {R : Reader Nat}
  (hT : ∀ {offset s}, Settled text offset s → s.arena.size ≤ capacity →
    Agrees text (Stored capacity text s) (T ⟨text, offset, s.arena, none⟩) (R s))

include hT

theorem readField_agrees (hs : Standing text offset s) (hroom : s.arena.size ≤ capacity) :
    Agrees text (Stored capacity text s) (readField capacity T ⟨text, offset, s.arena, none⟩)
      (Signature.readField capacity R s) := by
  rw [readField]
  refine Agrees.skipBlanks hs fun position hs => ?_
  obtain rfl := hs.position_eq
  rw [look_bind]
  refine (readFieldName_agrees hs).bind fun name _ t ⟨ht, htlen, htarena⟩ => ?_
  refine Agrees.skipBlanks ht fun _ ht => ?_
  -- with the mark or without it, the reading goes on at the colon
  obtain ⟨_, hu, hrun⟩ := ht.eat_mark (b := Byte.questionMark) (by decide)
  rw [bind_of_eq hrun]
  refine Agrees.skipBlanks hu fun _ hu => ?_
  rw [← Progress.arena_getD_eat? t Byte.questionMark]
  refine (require_agrees .colon (by decide) hu).bind fun _ _ v ⟨⟨hv, hvlen, hvarena⟩, _⟩ => ?_
  refine Agrees.skipBlanks hv fun _ hv => ?_
  have hvroom : v.arena.size ≤ capacity := by
    rwa [hvarena, Progress.arena_getD_eat?, htarena]
  refine (hT hv hvroom).bind fun type _ w ⟨hw, hwroom, hwlen, cost, tree, hgrows⟩ => ?_
  rw [hvarena, Progress.arena_getD_eat?, htarena] at hgrows
  have hulen := length_rest_getD_eat?_le t Byte.questionMark
  refine storeLabelled_agrees ?_ (fun hlen => if_pos hlen) (hs.position_eq ▸ hs.offset_le)
    ⟨hw, hwroom, ?_, cost, [tree], hgrows⟩
  · simp [Label.kind]
  · omega

/-- The fields of an object. There are no more in the table than there are nodes. -/
theorem readFields_agrees {rounds more count : Nat} (hs : Standing text offset s)
    (hroom : s.arena.size ≤ capacity) (hrounds : s.rest.length ≤ rounds)
    (hmore : s.rest.length < more) (hcount : count ≤ s.arena.size) :
    Agrees text (StoredEach capacity text s)
      (readFields capacity T more count ⟨text, offset, s.arena, none⟩)
      (Signature.readFields capacity R rounds s) := by
  induction rounds generalizing offset s more count with
  | zero =>
    -- without tokens, no name is found
    obtain ⟨more, rfl⟩ := Nat.exists_eq_add_of_lt hmore
    have hfield := readField_agrees hT hs hroom
    have hnone : Signature.readField capacity R s = s.expect .fieldName := by
      rcases s with ⟨arena, _ | ⟨l, rest⟩, finish⟩
      · rfl
      · cases hrounds
    rw [hnone] at hfield
    exact hfield.stop
  | succ rounds ih =>
    obtain ⟨more, rfl⟩ : ∃ k, more = k + 1 := ⟨more - 1, by omega⟩
    rw [readFields, Signature.readFields]
    refine (readField_agrees hT hs hroom).bind fun id _ t hfield => ?_
    obtain ⟨ht, htroom, htlen, cost, tree, hgrows⟩ := hfield
    -- the field has a node of its own, so its place is in the table
    have hsize := hgrows.size_lt
    have hplace : count < capacity := by omega
    rw [check_bind (decide_eq_true hplace)]
    refine Agrees.skipBlanks ht fun _ ht => ?_
    by_cases hcomma : t.tokens.head? = some (.byte Byte.comma)
    · have hskip := length_skip_lt hcomma
      rw [bind_of_eq (ht.eat_of_head (by decide) hcomma)]
      simp only [Progress.eat?_of_head hcomma, if_true]
      refine Agrees.skipBlanks (ht.skip (by decide) hcomma) fun _ hu => ?_
      rw [peek_bind]
      by_cases hclose : t.skip.tokens.head? = some (.byte Byte.closeBrace)
      · have hbyte := (hu.headD_eq_iff (by decide)).2 hclose
        have his : t.skip.nextIs Byte.closeBrace = true := by
          rw [Progress.nextIs_eq, hclose, beq_self_eq_true]
        simp only [hbyte, his, if_true]
        exact ⟨_, rfl, hu.toStanding, htroom, by omega, cost, [tree], hgrows⟩
      · have hbyte := mt (hu.headD_eq_iff (by decide)).1 hclose
        have his : t.skip.nextIs Byte.closeBrace = false := by
          rw [Progress.nextIs_eq, beq_eq_false_iff_ne.2 hclose]
        simp only [hbyte, his, if_false, Bool.false_eq_true]
        -- the next field comes one place behind this one
        have hcount' : count + 1 ≤ t.skip.arena.size := by
          rw [Progress.arena_skip]
          omega
        refine (ih hu.toStanding htroom (by omega) (by omega) hcount').bind fun ids _ u hrest => ?_
        obtain ⟨hu, huroom, hulen, cost', trees, hgrows'⟩ := hrest
        exact ⟨_, rfl, hu, huroom, hulen.trans (hskip.trans htlen), cost + cost', tree :: trees,
          hgrows.append hgrows'⟩
    · rw [bind_of_eq (ht.eat_of_head_ne (by decide) hcomma)]
      simp only [Progress.eat?_of_head_ne hcomma]
      exact ⟨_, rfl, ht.toStanding, htroom, htlen, cost, [tree], hgrows⟩

theorem readObject_agrees (hs : Settled text offset s) (hroom : s.arena.size ≤ capacity)
    (hhead : s.tokens.head? = some (.byte Byte.openBrace)) :
    Agrees text (Stored capacity text s) (readObject capacity T ⟨text, offset, s.arena, none⟩)
      (Signature.readObject capacity R s.skip) := by
  have hinside := hs.skip (by decide) hhead
  have hrounds := hinside.length_rest_le
  have hskip := length_skip_lt hhead
  -- there are no more fields than tokens, and no more tokens than bytes
  rw [readObject, bind_of_eq (hs.eat_of_head (by decide) hhead), rounds_bind, List.length_drop]
  refine (readFields_agrees hT hinside hroom (Nat.le_refl _) (Nat.lt_succ_of_le hrounds)
    (Nat.zero_le _)).bind fun ids _ t ⟨ht, htroom, htlen, cost, trees, hgrows⟩ => ?_
  refine Agrees.skipBlanks ht fun _ ht => ?_
  refine (require_agrees .commaOrBrace (by decide) ht).bind
    fun stop _ u ⟨⟨hu, hulen, huarena⟩, hstop⟩ => ?_
  rw [← huarena] at hgrows htroom
  exact storeLabelled_agrees (by decide) (fun _ => rfl) hstop
    ⟨hu, htroom, by omega, cost, trees, hgrows⟩

theorem readArray_agrees (hs : Settled text offset s) (hroom : s.arena.size ≤ capacity)
    (hhead : s.tokens.head? = some (.byte Byte.openAngle)) :
    Agrees text (Stored capacity text s) (readArray capacity T ⟨text, offset, s.arena, none⟩)
      (Signature.readArray capacity R s.skip) := by
  have hskip := length_skip_lt hhead
  rw [readArray, bind_of_eq (hs.eat_of_head (by decide) hhead)]
  refine Agrees.skipBlanks (hs.skip (by decide) hhead) fun _ hinside => ?_
  refine (hT hinside hroom).bind fun element _ t ⟨ht, htroom, htlen, cost, tree, hgrows⟩ => ?_
  refine Agrees.skipBlanks ht fun _ ht => ?_
  refine (require_agrees .closeAngle (by decide) ht).bind
    fun stop _ u ⟨⟨hu, hulen, huarena⟩, hstop⟩ => ?_
  rw [← huarena] at hgrows htroom
  exact storeLabelled_agrees (by decide) (fun _ => rfl) hstop
    ⟨hu, htroom, by omega, cost, [tree], hgrows⟩

theorem readCase_agrees (hs : Settled text offset s) (hroom : s.arena.size ≤ capacity) :
    Agrees text (Stored capacity text s) (readCase capacity T ⟨text, offset, s.arena, none⟩)
      (Signature.readCase capacity R s) := by
  have hposition := hs.position_eq
  have hle := hs.offset_le
  rw [readCase, peek_bind]
  by_cases hbrace : s.tokens.head? = some (.byte Byte.openBrace)
  · have hcase : Signature.readCase capacity R s = Signature.readObject capacity R s.skip :=
      readCase_object (eq_cons_of_head? hbrace)
    simp only [(hs.headD_eq_iff (by decide)).2 hbrace, if_true]
    rw [hcase]
    exact readObject_agrees hT hs hroom hbrace
  simp only [mt (hs.headD_eq_iff (by decide)).1 hbrace, if_false, look_bind]
  rcases s with ⟨arena, _ | ⟨⟨token, start⟩, rest⟩, finish⟩
  · rw [bind_of_eq (hs.scanQuoted_none (by rintro _ ⟨⟩))]
    simp only [hasFailed_bind, Option.isSome_none, Bool.false_eq_true, if_false]
    rw [bind_of_eq (hs.scanName_none (by rintro _ ⟨⟩))]
    exact expect_agrees .type hs
  obtain rfl : start = offset := hposition
  have hshorter : rest.length < rest.length + 1 := Nat.lt_succ_self _
  cases token with
  | byte b =>
    have hcase : Signature.readCase capacity R ⟨arena, ⟨.byte b, start⟩ :: rest, finish⟩ =
        (Progress.mk arena (⟨.byte b, start⟩ :: rest) finish).expect .type :=
      if_neg fun hb => hbrace (by rw [hb]; rfl)
    rw [bind_of_eq (hs.scanQuoted_none (by rintro _ ⟨⟩ ⟨⟩))]
    simp only [hasFailed_bind, Option.isSome_none, Bool.false_eq_true, if_false]
    rw [bind_of_eq (hs.scanName_none (by rintro _ ⟨⟩)), hcase]
    exact expect_agrees .type hs
  | quoted body =>
    obtain ⟨next, hnext, hrun⟩ := hs.scanQuoted_quoted
    rw [bind_of_eq hrun]
    have htook : Took text ⟨arena, ⟨.quoted body, start⟩ :: rest, finish⟩ body next
        ⟨arena, rest, finish⟩ := ⟨hnext, hshorter, rfl⟩
    exact storeAtomic_agrees (Nat.le_refl _) htook hroom hle
  | quotedNul nul =>
    obtain ⟨hnul, hrun⟩ := hs.scanQuoted_nul
    rw [bind_of_eq hrun]
    exact ⟨⟨_, rfl, rfl⟩, hnul, by rintro _ ⟨⟩⟩
  | unclosed =>
    rw [bind_of_eq hs.scanQuoted_unclosed]
    exact ⟨⟨_, rfl, rfl⟩, hle, by rintro _ ⟨⟩⟩
  | name name =>
    obtain ⟨next, hnext, hrun⟩ := hs.scanName_name
    rw [bind_of_eq (hs.scanQuoted_none (by rintro _ ⟨⟩ ⟨⟩))]
    simp only [hasFailed_bind, Option.isSome_none, Bool.false_eq_true, if_false]
    rw [bind_of_eq hrun]
    -- an angle bracket behind the name makes it an array
    by_cases harray : name = arrayName ∧
        (Progress.mk arena rest finish).tokens.head? = some (.byte Byte.openAngle)
    · obtain ⟨rfl, hangle⟩ := harray
      have htokens := eq_cons_of_head? hangle
      have hcase : Signature.readCase capacity R
          ⟨arena, ⟨.name arrayName, start⟩ :: rest, finish⟩ =
            Signature.readArray capacity R (Progress.mk arena rest finish).skip :=
        readCase_array (congrArg (List.cons (Token.name arrayName)) htokens)
      obtain ⟨_, hopen, hopens⟩ := opensArray_of_head hnext rfl hangle
      rw [hcase]
      simp only
      rw [bind_of_eq hopens]
      exact (readArray_agrees hT hopen hroom hangle).imp fun id _ u h => h.mono hshorter.le rfl
    · have hcase : Signature.readCase capacity R ⟨arena, ⟨.name name, start⟩ :: rest, finish⟩ =
          storeName capacity name start ⟨arena, rest, finish⟩ :=
        readCase_name rfl fun hname hangle => harray ⟨hname, hangle⟩
      rw [hcase]
      simp only
      rw [bind_of_eq (opensArray_of_head_ne hnext harray)]
      have htook : Took text ⟨arena, ⟨.name name, start⟩ :: rest, finish⟩ name next
          ⟨arena, rest, finish⟩ := ⟨hnext, hshorter, rfl⟩
      refine storeAtomic_agrees ?_ htook hroom hle
      split <;> simp

omit hT in
/-- Looking for a tree among those whose roots are in the table. -/
theorem anySame_apply {a : Arena} {new : Nat} {value : TypeTree} {ids all cases : List Nat}
    {trees : List TypeTree} (hnew : a.Spans new value ids)
    (hcases : a.SpansEach cases trees all) :
    anySame new cases ⟨text, offset, a, none⟩ =
      some (some (cases.any fun old => a.sameTree old a new), ⟨text, offset, a, none⟩) := by
  induction hcases with
  | nil => rfl
  | @cons old cases tree trees ids' more hold _ ih =>
    rw [anySame, look_bind, hold.sameTree?_eq hnew, List.any_cons]
    cases a.sameTree old a new with
    | true => rfl
    | false => exact ih

omit hT in
/-- A new case has a node of its own, as the others have, so there is a place left in
    the table. -/
theorem insertCase_apply {a b d : Arena} {cost more new : Nat} {cases : List Nat}
    {trees : List TypeTree} {value : TypeTree} (hgrows : a.Grows b cost cases trees)
    (hnew : b.Grows d more [new] [value]) (hplace : cases.length < capacity) :
    insertCase capacity cases new ⟨text, offset, d, none⟩ =
      some (some (Signature.insertCase d cases new), ⟨text, offset, d, none⟩) := by
  obtain ⟨all, hcases, -⟩ := (hgrows.skip hnew).spans
  obtain ⟨ids, hspans, -⟩ := hnew.holds
  rw [insertCase, bind_of_eq (anySame_apply hspans hcases), Signature.insertCase]
  cases hany : cases.any fun old => d.sameTree old d new with
  | true => rfl
  | false =>
    simp only [Bool.false_eq_true, if_false]
    rw [check_bind (decide_eq_true hplace)]
    rfl

/-- The cases of a union. There are no more in the table than there are nodes. -/
theorem readCases_agrees {rounds more : Nat} {a : Arena} {cost : Nat} {cases : List Nat}
    {values : List TypeTree} (hs : Settled text offset s) (hroom : s.arena.size ≤ capacity)
    (hrounds : s.rest.length ≤ rounds) (hmore : s.rest.length < more)
    (hgrows : a.Grows s.arena cost cases values.eraseDups) (hcount : cases.length ≤ s.arena.size) :
    Agrees text (fun ids next t => Settled text next t ∧ t.arena.size ≤ capacity ∧
        t.rest.length < s.rest.length ∧ ∃ cost trees, a.Grows t.arena cost ids trees)
      (readCases capacity T more cases ⟨text, offset, s.arena, none⟩)
      (Signature.readCases capacity R rounds cases s) := by
  induction rounds generalizing offset s more cost cases values with
  | zero =>
    -- without tokens, no type is found
    obtain ⟨more, rfl⟩ := Nat.exists_eq_add_of_lt hmore
    have hcase := readCase_agrees hT hs hroom
    have hnone : Signature.readCase capacity R s = s.expect .type := by
      rcases s with ⟨arena, _ | ⟨l, rest⟩, finish⟩
      · rfl
      · cases hrounds
    rw [hnone] at hcase
    exact hcase.stop
  | succ rounds ih =>
    obtain ⟨more, rfl⟩ : ∃ k, more = k + 1 := ⟨more - 1, by omega⟩
    rw [readCases, Signature.readCases]
    refine (readCase_agrees hT hs hroom).bind fun new _ t hcase => ?_
    obtain ⟨ht, htroom, htlen, cost', value, hnew⟩ := hcase
    have hsize := hnew.size_lt
    have hcases := hgrows.insertCase hnew
    -- the table grew by one case at most, and the arena by one node at least
    have hlength : (Signature.insertCase t.arena cases new).length ≤ t.arena.size := by
      rw [Signature.insertCase]
      split
      · omega
      · rw [List.length_append, List.length_singleton]
        omega
    rw [bind_of_eq (insertCase_apply hgrows hnew (by omega))]
    refine Agrees.skipBlanks ht fun _ ht => ?_
    by_cases hbar : t.tokens.head? = some (.byte Byte.bar)
    · have hskip := length_skip_lt hbar
      rw [bind_of_eq (ht.eat_of_head (by decide) hbar)]
      simp only [Progress.eat?_of_head hbar, if_true]
      refine Agrees.skipBlanks (ht.skip (by decide) hbar) fun _ hu => ?_
      refine (ih hu htroom (by omega) (by omega) hcases hlength).imp fun ids _ u hids => ?_
      obtain ⟨hu, huroom, hulen, hrest⟩ := hids
      exact ⟨hu, huroom, hulen.trans (hskip.trans htlen), hrest⟩
    · rw [bind_of_eq (ht.eat_of_head_ne (by decide) hbar)]
      simp only [Progress.eat?_of_head_ne hbar]
      exact ⟨_, rfl, ht, htroom, htlen, _, _, hcases⟩

theorem readUnion_agrees (hs : Settled text offset s) (hroom : s.arena.size ≤ capacity) :
    Agrees text (Stored capacity text s) (readUnion capacity T ⟨text, offset, s.arena, none⟩)
      (Signature.readUnion capacity R s) := by
  have hnone : s.arena.Grows s.arena 0 [] ([] : List TypeTree).eraseDups := .refl s.arena
  have hrounds := hs.length_rest_le
  rw [readUnion, rounds_bind, List.length_drop]
  refine (readCases_agrees hT hs hroom (Nat.le_refl _) (Nat.lt_succ_of_le hrounds) hnone
    (Nat.zero_le _)).bind fun ids next t ⟨ht, htroom, htlen, cost, trees, hgrows⟩ => ?_
  obtain rfl := ht.position_eq
  have hstored : StoredEach capacity text s ids t.position t :=
    ⟨ht.toStanding, htroom, htlen, cost, trees, hgrows⟩
  rcases ids with _ | ⟨only, _ | ⟨second, others⟩⟩
  · exact storeLabelled_agrees (by decide) (fun _ => rfl) ht.offset_le hstored
  · -- a single case is the type
    obtain ⟨all, hspans, -⟩ := hgrows.spans
    obtain ⟨tree, rfl⟩ := List.length_eq_one_iff.1 hspans.length_eq.symm
    exact ⟨_, rfl, ht.toStanding, htroom, htlen, cost, tree, hgrows⟩
  · exact storeLabelled_agrees (by decide) (fun _ => rfl) ht.offset_le hstored

end

/-! ## Types and whole texts -/

/-- A type is given up exactly when a failure is on record. -/
theorem answered_agrees {m : Guarded Nat} {c : Cursor} {x : Except ReadFailure (Nat × Progress)}
    {post : Nat → Nat → Progress → Prop} (h : Agrees text post (m c) x) :
    Agrees text post (answered m c) x := by
  cases x with
  | ok r =>
    obtain ⟨next, hrun, hpost⟩ := h
    exact ⟨next, by simp [answered, hrun], hpost⟩
  | error failure =>
    obtain ⟨⟨d, hrun, hd⟩, hfailure⟩ := h
    exact ⟨⟨d, by simp [answered, hrun, hd], hd⟩, hfailure⟩

theorem readType_agrees (levels : Nat) {offset : Nat} {s : Progress} (hs : Settled text offset s)
    (hroom : s.arena.size ≤ capacity) :
    Agrees text (Stored capacity text s)
      (readType capacity levels ⟨text, offset, s.arena, none⟩)
      (Signature.readType capacity levels s) := by
  induction levels generalizing offset s with
  | zero =>
    obtain rfl := hs.position_eq
    exact answered_agrees ⟨⟨_, rfl, rfl⟩, hs.offset_le, by rintro _ ⟨⟩⟩
  | succ levels ih => exact answered_agrees (readUnion_agrees (fun ht => ih ht) hs hroom)

/-- At the beginning nothing is stored, and the tokens are those of the text. -/
theorem standing_start (text : Bytes) : Standing text 0 (start text) :=
  ⟨Nat.zero_le _, rfl, rfl⟩

/-- What is left behind a type is reported. -/
theorem reportRest_apply (hs : Standing text offset s) : ∃ c,
    reportRest ⟨text, offset, s.arena, none⟩ = some (some (), c) ∧ c.arena = s.arena ∧
      c.failure = if s.rest.isEmpty then none else some ⟨.expected .endOfInput, s.position⟩ := by
  obtain ⟨next, hnext, hrun⟩ := skipBlanks_apply s.arena none hs
  rw [reportRest, hasFailed_bind]
  simp only [Option.isSome_none, Bool.false_eq_true, if_false]
  rw [bind_of_eq hrun, atEnd_bind]
  simp only [hnext.isEmpty_eq]
  cases hempty : s.rest.isEmpty with
  | true => exact ⟨_, rfl, rfl, rfl⟩
  | false =>
    refine ⟨_, rfl, rfl, ?_⟩
    simp [hnext.position_eq]

/-- A failure that is on record stays the only one. -/
theorem reportRest_of_failure {c : Cursor} {failure : ReadFailure} (h : c.failure = some failure) :
    reportRest c = some (some (), c) := by
  rw [reportRest, hasFailed_bind, h]
  rfl

/-- The failure on record in the end is the reader's. -/
theorem read_eq (capacity : Nat) (text : Bytes) :
    Guarded.read capacity text = some (Signature.read capacity text) := by
  obtain ⟨next, hstart, hblanks⟩ := skipBlanks_apply .empty none (standing_start text)
  have htype : Agrees text (Stored capacity text (start text))
      (readType capacity capacity ⟨text, next, .empty, none⟩)
      (Signature.readType capacity capacity (start text)) :=
    readType_agrees capacity hstart (Nat.zero_le _)
  rw [Guarded.read, hblanks, Signature.read, ← start]
  cases hread : Signature.readType capacity capacity (start text) with
  | error failure =>
    rw [hread] at htype
    obtain ⟨⟨c, hrun, hc⟩, -⟩ := htype
    simp [hrun, reportRest_of_failure hc, answer, hc, bind, Except.bind]
  | ok r =>
    obtain ⟨root, t⟩ := r
    rw [hread] at htype
    obtain ⟨offset, hrun, ht, -⟩ := htype
    obtain ⟨c, hreport, harena, hfailure⟩ := reportRest_apply ht
    cases hempty : t.rest.isEmpty <;>
      simp [hrun, hreport, answer, harena, hfailure, hempty, bind, Except.bind, Progress.expect]

end Guarded

/-- Reading is safe for every text. Done byte by byte it breaks no guard on the way, so no
    byte behind the end of the text is looked at, no place outside a table or the arena is
    used, no node is refused and no loop runs out of rounds; and it comes to the same. Every
    token is a part of the text, a tree that is returned has a root in an arena that is not
    too large, and a failure names a place in the text. -/
theorem read_safe (capacity : Nat) (text : Bytes) :
    Guarded.read capacity text = some (read capacity text) ∧
    (∀ l ∈ tokens text, LiesIn text l) ∧
    (∀ stored, read capacity text = .ok stored → ∃ root, stored.root = some root ∧
      root < stored.arena.size ∧ 1 ≤ stored.arena.size ∧ stored.arena.size ≤ capacity) ∧
    ∀ failure, read capacity text = .error failure →
      failure.diagnostic.stage = .parse ∧
      (failure.diagnostic.kind = .parse ∨ failure.diagnostic.kind = .capacityExceeded) ∧
      failure.diagnostic.position ≤ text.length := by
  obtain ⟨next, hstart, -⟩ := Guarded.skipBlanks_apply .empty none (Guarded.standing_start text)
  have htype := Guarded.readType_agrees capacity hstart (Nat.zero_le capacity)
  refine ⟨Guarded.read_eq capacity text, fun l hl => liesIn_of_mem hl, ?_⟩
  rw [read, ← start]
  cases hread : readType capacity capacity (start text) with
  | error failure =>
    rw [hread] at htype
    obtain ⟨-, hposition, hrefused⟩ := htype
    refine ⟨by rintro _ ⟨⟩, ?_⟩
    rintro _ ⟨⟩
    refine ⟨rfl, ?_, hposition⟩
    rcases failure with ⟨cause, position⟩
    cases cause with
    | expected | nulInLiteral | unterminatedLiteral => exact .inl rfl
    | tooManyNodes | textTooLong | nestedTooDeeply => exact .inr rfl
    | refused fault => exact absurd rfl (hrefused fault)
  | ok r =>
    obtain ⟨root, t⟩ := r
    rw [hread] at htype
    obtain ⟨offset, -, ht, hroom, -, cost, tree, hgrows⟩ := htype
    have hroot := hgrows.roots_lt root (List.mem_singleton_self root)
    simp only [bind, Except.bind]
    split
    · refine ⟨?_, by rintro _ ⟨⟩⟩
      rintro _ ⟨⟩
      exact ⟨root, rfl, hroot, Nat.succ_le_of_lt (Nat.zero_lt_of_lt hroot), hroom⟩
    · refine ⟨by rintro _ ⟨⟩, ?_⟩
      rintro _ ⟨⟩
      exact ⟨rfl, .inl rfl, Guarded.position_le ht⟩

end Signature

end TypeSig
