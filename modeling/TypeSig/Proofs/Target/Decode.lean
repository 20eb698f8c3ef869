/-
  TypeSig.Proofs.Target.Decode

  Object literals read back. `readObject` takes the text of an object literal apart
  into its entries, each the source name, with escapes undone, and the name of the
  value. Source names are any bytes, so one may hold what separates entries or ends
  the object; a reader is not misled by this because it leaves a text literal only at
  a quote that is not escaped.

  Main statements: an object literal is read back as the source names with the names
  of the fields (`readObject_objectLiteral`), and so it tells the source names
  (`sources_eq_of_objectLiteral`).
-/

import TypeSig.Proofs.Target.FieldNames

namespace TypeSig.Target

/-! ## Reading -/

/-- The text of a literal whose opening quote was read, and what comes behind the closing
    one. After a backslash comes a quote or a backslash and nothing else; `held` tells that
    one was read. -/
def readQuoted (held : Bool) : Bytes → Option (Bytes × Bytes)
  | [] => none
  | b :: rest =>
    if held then
      if b = Byte.doubleQuote ∨ b = Byte.backslash then
        (readQuoted false rest).map fun (text, after) => (b :: text, after)
      else
        none
    else if b = Byte.doubleQuote then
      some ([], rest)
    else if b = Byte.backslash then
      readQuoted true rest
    else
      (readQuoted false rest).map fun (text, after) => (b :: text, after)

/-- A byte that a name may have: one of a word, or of the mark around reserved words. -/
def isLabelByte (b : UInt8) : Bool :=
  Byte.isWordByte b || escapeMark.contains b

/-- A source name and the name of its value, and what comes behind these. -/
def readEntry (text : Bytes) : Option ((Bytes × Bytes) × Bytes) := do
  let text ← text.dropPrefix? [Byte.doubleQuote]
  let (source, text) ← readQuoted false text
  let text ← text.dropPrefix? (ascii " ==> ")
  some ((source, text.takeWhile isLabelByte), text.dropWhile isLabelByte)

/-- Entries up to the end of the object. Each takes one round. -/
def readEntries : Nat → Bytes → Option (List (Bytes × Bytes))
  | 0, _ => none
  | rounds + 1, text => do
    let (entry, text) ← readEntry text
    match text.dropPrefix? (ascii "; ") with
    | some text => (readEntries rounds text).map fun entries => entry :: entries
    | none => if text = ascii " ]" then some [entry] else none

/-- The entries of an object literal, if the text is one. -/
def readObject (text : Bytes) : Option (List (Bytes × Bytes)) := do
  let text ← text.dropPrefix? (ascii "createObj [ ")
  if text = ascii " ]" then some [] else readEntries text.length text

/-! ## What is read -/

/-- An entry as it is written. -/
def entryCode (entry : Bytes × Bytes) : Bytes :=
  Unbounded.quotedCode entry.1 ++ ascii " ==> " ++ entry.2

/-- Entries as they are written, one behind the other. -/
def entriesCode (entries : List (Bytes × Bytes)) : Bytes :=
  List.intercalate (ascii "; ") (entries.map entryCode)

/-- An object as it is written. -/
def objectCode (entries : List (Bytes × Bytes)) : Bytes :=
  ascii "createObj [ " ++ entriesCode entries ++ ascii " ]"

theorem entriesCode_cons_cons (entry next : Bytes × Bytes) (entries : List (Bytes × Bytes)) :
    entriesCode (entry :: next :: entries) =
      entryCode entry ++ (ascii "; " ++ entriesCode (next :: entries)) := by
  simp only [entriesCode, List.map_cons, List.intercalate_cons_cons, List.append_assoc]

theorem entriesCode_singleton (entry : Bytes × Bytes) : entriesCode [entry] = entryCode entry :=
  List.intercalate_singleton

theorem length_le_entriesCode (entries : List (Bytes × Bytes)) :
    entries.length ≤ (entriesCode entries).length := by
  have hentry : ∀ entry, 1 ≤ (entryCode entry).length := by
    intro entry
    simp only [entryCode, Unbounded.quotedCode, List.length_append, List.length_singleton]
    omega
  induction entries with
  | nil => exact Nat.zero_le _
  | cons entry rest ih =>
    have hone := hentry entry
    cases rest with
    | nil =>
      rw [entriesCode_singleton]
      exact hone
    | cons next rest =>
      rw [entriesCode_cons_cons, List.length_append, List.length_append, List.length_cons]
      omega

/-! ## Reading what was written -/

theorem dropPrefix?_append (front rest : Bytes) : (front ++ rest).dropPrefix? front = some rest :=
  List.dropPrefix?_append_of_beq rest (beq_self_eq_true front)

/-- Escapes are undone, and the first quote that is none ends the literal. -/
theorem readQuoted_escaped (text after : Bytes) :
    readQuoted false (text.flatMap escaped ++ Byte.doubleQuote :: after) = some (text, after) := by
  induction text with
  | nil => rfl
  | cons b rest ih =>
    rw [List.flatMap_cons, List.append_assoc]
    by_cases hspecial : b = Byte.doubleQuote ∨ b = Byte.backslash
    -- the backslash in front keeps a quote from ending the literal
    · have hmark : Byte.backslash ≠ Byte.doubleQuote := by decide
      rw [escaped, if_pos hspecial]
      simp [readQuoted, hmark, hspecial, ih]
    · obtain ⟨hquote, hback⟩ := not_or.1 hspecial
      rw [escaped, if_neg hspecial]
      simp [readQuoted, hquote, hback, ih]

/-- An entry is read up to the first byte that is in no name. -/
theorem readEntry_entryCode {entry : Bytes × Bytes} (h : ∀ b ∈ entry.2, isLabelByte b = true)
    {stop : UInt8} (hstop : isLabelByte stop = false) (after : Bytes) :
    readEntry (entryCode entry ++ stop :: after) = some (entry, stop :: after) := by
  obtain ⟨source, label⟩ := entry
  have hcode : entryCode (source, label) ++ stop :: after =
      [Byte.doubleQuote] ++ (source.flatMap escaped ++
        Byte.doubleQuote :: (ascii " ==> " ++ (label ++ stop :: after))) := by
    simp [entryCode, Unbounded.quotedCode]
  have htake : (label ++ stop :: after).takeWhile isLabelByte = label := by
    rw [List.takeWhile_append_of_pos h, List.takeWhile_cons_of_neg (by simp [hstop]),
      List.append_nil]
  have hdrop : (label ++ stop :: after).dropWhile isLabelByte = stop :: after := by
    rw [List.dropWhile_append_of_pos h, List.dropWhile_cons_of_neg (by simp [hstop])]
  rw [hcode, readEntry, dropPrefix?_append]
  simp only [bind, Option.bind, readQuoted_escaped, dropPrefix?_append, htake, hdrop]

/-- Written entries are read one after the other. -/
theorem readEntries_entriesCode {entries : List (Bytes × Bytes)} :
    ∀ {first : Bytes × Bytes} {rounds : Nat}, entries.length < rounds →
      (∀ entry ∈ first :: entries, ∀ b ∈ entry.2, isLabelByte b = true) →
      readEntries rounds (entriesCode (first :: entries) ++ ascii " ]") =
        some (first :: entries) := by
  induction entries with
  | nil =>
    intro first rounds hrounds h
    obtain ⟨rounds, rfl⟩ := Nat.exists_eq_add_one_of_ne_zero (Nat.ne_of_gt hrounds)
    -- the blank ends the name, and no separator follows
    have hread : readEntry (entryCode first ++ ascii " ]") = some (first, ascii " ]") :=
      readEntry_entryCode (h first List.mem_cons_self) (by decide) _
    rw [entriesCode_singleton, readEntries, hread]
    rfl
  | cons next rest ih =>
    intro first rounds hrounds h
    obtain ⟨rounds, rfl⟩ :=
      Nat.exists_eq_add_one_of_ne_zero (Nat.ne_of_gt (Nat.zero_lt_of_lt hrounds))
    obtain ⟨hfirst, hothers⟩ := List.forall_mem_cons.1 h
    let after := entriesCode (next :: rest) ++ ascii " ]"
    -- the separator ends the name, whatever the next source name begins with
    have hread : readEntry (entryCode first ++ (ascii "; " ++ after)) =
        some (first, ascii "; " ++ after) :=
      readEntry_entryCode hfirst (by decide) _
    have hrest : readEntries rounds after = some (next :: rest) :=
      ih (by simpa using hrounds) hothers
    rw [entriesCode_cons_cons, List.append_assoc, List.append_assoc, readEntries, hread]
    simp only [bind, Option.bind, dropPrefix?_append, hrest, Option.map_some]

/-- A written object is read as its entries. -/
theorem readObject_objectCode {entries : List (Bytes × Bytes)}
    (h : ∀ entry ∈ entries, ∀ b ∈ entry.2, isLabelByte b = true) :
    readObject (objectCode entries) = some entries := by
  rw [readObject, objectCode, List.append_assoc, dropPrefix?_append]
  cases entries with
  | nil => rfl
  | cons first rest =>
    have hrounds := length_le_entriesCode (first :: rest)
    -- entries take room, so this is not the object without any
    have hmore : entriesCode (first :: rest) ++ ascii " ]" ≠ ascii " ]" := by
      intro heq
      rw [List.append_left_eq_self.1 heq] at hrounds
      cases hrounds
    simp only [bind, Option.bind, if_neg hmore]
    refine readEntries_entriesCode ?_ h
    rw [List.length_append]
    rw [List.length_cons] at hrounds
    omega

/-! ## Object literals -/

theorem IsLegal.isLabelByte {text : Bytes} (h : IsLegal text) :
    ∀ b ∈ text, isLabelByte b = true := by
  have hword : ∀ {word : Bytes}, isWord word = true → ∀ b ∈ word, Target.isLabelByte b = true :=
    fun hword b hb => by simp [Target.isLabelByte, isWordByte_of_mem hword b hb]
  have hmark : ∀ b ∈ escapeMark, Target.isLabelByte b = true := List.all_eq_true.1 rfl
  cases h with
  | word hspelling _ => exact hword hspelling
  | escaped hreserved =>
    simp only [List.forall_mem_append]
    exact ⟨⟨hmark, hword (isWord_of_isReserved hreserved)⟩, hmark⟩

theorem quotedCode_bytes {text : Bytes} {code : Text} (h : quotedCode text = .ok code) :
    code.bytes = Unbounded.quotedCode text :=
  (BoundedText.render_eq_ok h).trans (wording_quotedPieces text)

/-- An entry says what is written for it, if there is room for its literal. -/
theorem wording_entryPieces {source : Bytes} {name : Identifier}
    (h : ∀ fault, .error fault ∉ entryPieces source name) :
    wording (entryPieces source name) = entryCode (source, name.bytes) := by
  cases hcode : quotedCode source with
  | error fault => exact absurd (by simp [entryPieces, hcode, Except.map]) (h fault)
  | ok code =>
    simp [entryPieces, hcode, Except.map, wording_ok_cons, quotedCode_bytes hcode, entryCode]

/-- An object literal is written with the names of the fields. -/
theorem objectLiteral_bytes {capacity : Nat} {sources : List Bytes} {body : Text}
    (h : objectLiteral capacity sources = .ok body) :
    ∃ names, fieldNames capacity sources = .ok names ∧
      body.bytes = objectCode (sources.zip (names.map BoundedText.bytes)) := by
  obtain ⟨names, hnames, hrender⟩ := bind_eq_ok_iff.1 h
  refine ⟨names, hnames, ?_⟩
  have hpieces := BoundedText.error_notMem_of_render hrender
  have hentries : (List.zipWith entryPieces sources names).map wording =
      (sources.zip (names.map BoundedText.bytes)).map entryCode := by
    rw [← List.map_uncurry_zip_eq_zipWith, List.zip_map_right, List.map_map, List.map_map]
    refine List.map_congr_left fun ⟨source, name⟩ hpair => wording_entryPieces fun fault hfault => ?_
    -- an entry without a literal would have kept the object from being written
    have hitem : entryPieces source name ∈ List.zipWith entryPieces sources names := by
      rw [← List.map_uncurry_zip_eq_zipWith]
      exact List.mem_map.2 ⟨_, hpair, rfl⟩
    exact hpieces fault (by simp [mem_joinPieces_of_mem hitem hfault])
  rw [BoundedText.render_eq_ok hrender, List.cons_append, wording_ok_cons, wording_append,
    wording_joinPieces, hentries, objectCode, entriesCode, List.append_assoc]
  rfl

/-- An object literal is read back as the source names, each with the name of its field. -/
theorem readObject_objectLiteral {capacity : Nat} {sources : List Bytes} {body : Text}
    (h : objectLiteral capacity sources = .ok body) :
    ∃ names, fieldNames capacity sources = .ok names ∧
      readObject body.bytes = some (sources.zip (names.map BoundedText.bytes)) := by
  obtain ⟨names, hnames, hbytes⟩ := objectLiteral_bytes h
  refine ⟨names, hnames, ?_⟩
  rw [hbytes]
  refine readObject_objectCode fun entry hentry => ?_
  obtain ⟨name, hname, hlabel⟩ := List.mem_map.1 (List.of_mem_zip hentry).2
  rw [← hlabel]
  exact (isLegal_fieldNames hnames name hname).isLabelByte

/-- Objects with the same literal have the same source names. -/
theorem sources_eq_of_objectLiteral {capacity capacity' : Nat} {sources sources' : List Bytes}
    {body : Text} (h : objectLiteral capacity sources = .ok body)
    (h' : objectLiteral capacity' sources' = .ok body) : sources = sources' := by
  obtain ⟨names, hnames, hread⟩ := readObject_objectLiteral h
  obtain ⟨names', hnames', hread'⟩ := readObject_objectLiteral h'
  have hlength := (fieldNames_isNameFor hnames).1
  have hlength' := (fieldNames_isNameFor hnames').1
  have hentries := congrArg (List.map Prod.fst) (Option.some.inj (hread.symm.trans hread'))
  rwa [List.map_fst_zip (by simp [hlength]), List.map_fst_zip (by simp [hlength'])] at hentries

end TypeSig.Target
