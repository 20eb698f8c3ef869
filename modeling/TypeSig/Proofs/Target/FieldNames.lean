/-
  TypeSig.Proofs.Target.FieldNames

  Which names the fields of an object get. A field gets its adapted name, or where
  that is taken the first number behind its spelling that makes it new (`IsNameFor`).
  Looking for the number ends because the names that were tried are all different:
  if so many are taken, there are as many earlier fields (`le_of_tried`), so the
  search stops before it has counted these down, and a number has no more digits than
  that of the fields (`fieldNames_of_length_le`).

  Main statement: `StoredTree.fieldNames_distinct`. The names of fields are all
  different, they are legal, and they are the ones that the rule asks for.
-/

import TypeSig.Proofs.Arena.Parts
import TypeSig.Proofs.Target.Children
import TypeSig.Proofs.Target.Legal

namespace TypeSig

namespace Target

/-- The name for a source name where others are taken: the adapted name if it is new,
    and otherwise the spelling with the smallest number `n` from two on that makes it
    new. That is the `n`-th name to be tried, counting the bare one, and at most one
    more is tried than are taken. -/
inductive IsNameFor (taken : List Identifier) (source : Bytes) : Identifier → Prop
  | adapted {name : Identifier} :
      adaptName source = .ok name → name ∉ taken → IsNameFor taken source name
  | numbered {bare spelling name : Identifier} {n : Nat} :
      adaptName source = .ok bare → bare ∈ taken → spell source = .ok spelling →
      2 ≤ n → numberedName spelling n = .ok name → name ∉ taken →
      (∀ m, 2 ≤ m → m < n → ∃ earlier ∈ taken, numberedName spelling m = .ok earlier) →
      n ≤ taken.length + 1 → IsNameFor taken source name

namespace IsNameFor

variable {taken : List Identifier} {source : Bytes} {name : Identifier}

theorem notMem (h : IsNameFor taken source name) : name ∉ taken := by
  cases h with
  | adapted _ hnew => exact hnew
  | numbered _ _ _ _ _ hnew => exact hnew

theorem isLegal (h : IsNameFor taken source name) : IsLegal name.bytes := by
  cases h with
  | adapted hname _ =>
    obtain ⟨spelling, hspelling, hescape⟩ := bind_eq_ok_iff.1 hname
    exact isLegal_of_escapeReserved (isWord_of_spell hspelling) hescape
  | numbered _ _ hspelling _ hname =>
    exact isLegal_of_numberedName (isWord_of_spell hspelling) hname

end IsNameFor

/-! ## Looking for a number -/

section Search

variable {taken : List Identifier} {spelling bare : Identifier}

/-- The search ends at a number such that all names with smaller ones are taken. It ends
    at a taken name only when it runs out of tries. -/
theorem freeNumberedName_eq_ok {tries : Nat} {name : Identifier} :
    ∀ {n : Nat}, freeNumberedName taken spelling tries n = .ok name →
      ∃ k, n ≤ k ∧ numberedName spelling k = .ok name ∧
        (name ∈ taken → k = n + tries) ∧
        ∀ m, n ≤ m → m < k → ∃ earlier ∈ taken, numberedName spelling m = .ok earlier := by
  induction tries with
  | zero => exact fun h => ⟨_, Nat.le_refl _, h, fun _ => rfl, fun m hle hlt => by omega⟩
  | succ tries ih =>
    intro n h
    obtain ⟨first, hfirst, h⟩ := bind_eq_ok_iff.1 h
    by_cases htaken : first ∈ taken
    · rw [if_pos htaken] at h
      obtain ⟨k, hle, hname, hlast, hbefore⟩ := ih h
      refine ⟨k, by omega, hname, fun hmem => ?_, fun m hn hm => ?_⟩
      · have hk := hlast hmem
        omega
      · by_cases hfrom : n + 1 ≤ m
        · exact hbefore m hfrom hm
        · obtain rfl : m = n := by omega
          exact ⟨first, htaken, hfirst⟩
    · rw [if_neg htaken] at h
      cases h
      exact ⟨n, Nat.le_refl n, hfirst, fun hmem => absurd hmem htaken,
        fun m hle hlt => by omega⟩

/-- The names that were tried without success, the bare one and those with the first
    numbers, are different names that are taken. -/
theorem exists_tried (hword : isWord spelling.bytes = true)
    (hbare : escapeReserved spelling = .ok bare) (hmem : bare ∈ taken) {k : Nat}
    (htried : ∀ m, 2 ≤ m → m < k + 2 →
      ∃ earlier ∈ taken, numberedName spelling m = .ok earlier) :
    ∃ tried : List Identifier, tried.Nodup ∧ tried ⊆ taken ∧ tried.length = k + 1 ∧
      ∀ name ∈ tried, name = bare ∨ ∃ m, m < k + 2 ∧ numberedName spelling m = .ok name := by
  induction k with
  | zero =>
    refine ⟨[bare], List.nodup_singleton bare, List.cons_subset.2 ⟨hmem, List.nil_subset taken⟩,
      rfl, ?_⟩
    exact List.forall_mem_singleton.2 (Or.inl rfl)
  | succ k ih =>
    obtain ⟨tried, hd, hsub, hlength, hnames⟩ := ih fun m hle hlt => htried m hle (by omega)
    obtain ⟨last, hlast, hnumbered⟩ := htried (k + 2) (by omega) (by omega)
    -- the last number gives a name that was not tried before
    have hnew : last ∉ tried := by
      intro hold
      rcases hnames last hold with rfl | ⟨m, hm, hname⟩
      · exact numberedName_ne hword hbare hnumbered
      · have heq := numberedName_injective hword hname hnumbered
        omega
    refine ⟨last :: tried, List.nodup_cons.2 ⟨hnew, hd⟩, List.cons_subset.2 ⟨hlast, hsub⟩,
      by rw [List.length_cons, hlength], List.forall_mem_cons.2 ⟨Or.inr ⟨k + 2, by omega, hnumbered⟩,
      fun name hname => ?_⟩⟩
    rcases hnames name hname with hbare | ⟨m, hm, hname⟩
    · exact Or.inl hbare
    · exact Or.inr ⟨m, by omega, hname⟩

/-- No more names were tried without success than are taken. -/
theorem le_of_tried (hword : isWord spelling.bytes = true)
    (hbare : escapeReserved spelling = .ok bare) (hmem : bare ∈ taken) {n : Nat} (hn : 2 ≤ n)
    (htried : ∀ m, 2 ≤ m → m < n → ∃ earlier ∈ taken, numberedName spelling m = .ok earlier) :
    n ≤ taken.length + 1 := by
  obtain ⟨k, rfl⟩ : ∃ k, n = k + 2 := ⟨n - 2, by omega⟩
  obtain ⟨tried, hd, hsub, hlength, -⟩ := exists_tried hword hbare hmem htried
  have hle := (List.Nodup.subperm hd hsub).length_le
  omega

/-- The name that is found is the one for the source name. -/
theorem freeName_isNameFor {source : Bytes} {name : Identifier}
    (h : freeName taken source = .ok name) : IsNameFor taken source name := by
  obtain ⟨spelling, hspelling, h⟩ := bind_eq_ok_iff.1 h
  obtain ⟨bare, hbare, h⟩ := bind_eq_ok_iff.1 h
  have hadapt : adaptName source = .ok bare := bind_eq_ok_iff.2 ⟨spelling, hspelling, hbare⟩
  by_cases hmem : bare ∈ taken
  · rw [if_pos hmem] at h
    obtain ⟨n, hn, hname, hlast, hbefore⟩ := freeNumberedName_eq_ok h
    have hle := le_of_tried (isWord_of_spell hspelling) hbare hmem hn hbefore
    -- the tries would run out at a number that is too large
    refine .numbered hadapt hmem hspelling hn hname (fun htaken => ?_) hbefore hle
    have hend := hlast htaken
    omega
  · rw [if_neg hmem] at h
    cases h
    exact .adapted hadapt hmem

end Search

/-! ## Room for numbers -/

section Room

variable {taken : List Identifier} {spelling bare : Identifier}

/-- A free number is found before it has an eighth digit, as there is at most one more to
    try than are taken. -/
theorem exists_freeNumberedName (hword : isWord spelling.bytes = true)
    (hbare : escapeReserved spelling = .ok bare) (hmem : bare ∈ taken)
    (hshort : spelling.bytes.length ≤ nameLimit + 1) (htaken : taken.length + 1 < 10 ^ 7)
    {tries : Nat} :
    ∀ {n : Nat}, 2 ≤ n → n + tries = taken.length + 2 →
      (∀ m, 2 ≤ m → m < n → ∃ earlier ∈ taken, numberedName spelling m = .ok earlier) →
      ∃ name, freeNumberedName taken spelling tries n = .ok name := by
  induction tries with
  | zero =>
    -- the tries do not run out
    intro n hn hlast htried
    have hle := le_of_tried hword hbare hmem hn htried
    omega
  | succ tries ih =>
    intro n hn hlast htried
    have hle := le_of_tried hword hbare hmem hn htried
    obtain ⟨name, hname⟩ := numberedName_of_lt hshort (show n < 10 ^ 7 by omega)
    by_cases hold : name ∈ taken
    · obtain ⟨later, hlater⟩ := ih (show 2 ≤ n + 1 by omega) (by omega) fun m hm hlt => by
        rcases Nat.lt_succ_iff_lt_or_eq.1 hlt with hearlier | rfl
        · exact htried m hm hearlier
        · exact ⟨name, hold, hname⟩
      exact ⟨later, bind_eq_ok_iff.2 ⟨name, hname, by rw [if_pos hold, hlater]⟩⟩
    · exact ⟨name, bind_eq_ok_iff.2 ⟨name, hname, by rw [if_neg hold]⟩⟩

theorem freeNumberedName_eq_error {tries : Nat} {fault : Fault} :
    ∀ {n : Nat}, freeNumberedName taken spelling tries n = .error fault →
      fault = .textTooLong 71 := by
  induction tries with
  | zero => exact fun h => numberedName_eq_error h
  | succ tries ih =>
    intro n h
    rcases bind_eq_error_iff.1 h with hname | ⟨name, -, h⟩
    · exact numberedName_eq_error hname
    · split at h
      · exact ih h
      · cases h

theorem freeName_of_lt {source : Bytes} (h : source.length ≤ nameLimit)
    (htaken : taken.length + 1 < 10 ^ 7) : ∃ name, freeName taken source = .ok name := by
  obtain ⟨spelling, hspelling, hshort⟩ := spell_of_length_le h
  obtain ⟨bare, hbare⟩ := exists_escapeReserved spelling
  by_cases hmem : bare ∈ taken
  · obtain ⟨name, hname⟩ := exists_freeNumberedName (isWord_of_spell hspelling) hbare hmem hshort
      htaken (Nat.le_refl 2) (Nat.add_comm 2 taken.length) (fun m hm hlt => by omega)
    refine ⟨name, bind_eq_ok_iff.2 ⟨spelling, hspelling, bind_eq_ok_iff.2 ⟨bare, hbare, ?_⟩⟩⟩
    rw [if_pos hmem, hname]
  · refine ⟨bare, bind_eq_ok_iff.2 ⟨spelling, hspelling, bind_eq_ok_iff.2 ⟨bare, hbare, ?_⟩⟩⟩
    rw [if_neg hmem]

theorem freeName_eq_error {source : Bytes} {fault : Fault} (hsource : source.length ≤ nameLimit)
    (h : freeName taken source = .error fault) : fault = .textTooLong 71 := by
  obtain ⟨spelling, hspelling, -⟩ := spell_of_length_le hsource
  obtain ⟨bare, hbare⟩ := exists_escapeReserved spelling
  simp only [freeName, hspelling, hbare, bind, Except.bind] at h
  split at h
  · exact freeNumberedName_eq_error h
  · cases h

end Room

theorem extendNames_of_length_le {capacity : Nat} {sources : List Bytes}
    (h : ∀ source ∈ sources, source.length ≤ nameLimit) :
    ∀ {taken : List Identifier}, taken.length + sources.length ≤ capacity →
      taken.length + sources.length < 10 ^ 7 →
      ∃ names, extendNames capacity taken sources = .ok names := by
  induction sources with
  | nil => exact fun _ _ => ⟨_, rfl⟩
  | cons source rest ih =>
    intro taken hcapacity hnumbers
    rw [List.length_cons] at hcapacity hnumbers
    obtain ⟨hsource, hrest⟩ := List.forall_mem_cons.1 h
    obtain ⟨name, hname⟩ := freeName_of_lt hsource (show taken.length + 1 < 10 ^ 7 by omega)
    have hlength : (taken ++ [name]).length = taken.length + 1 := by simp
    obtain ⟨names, hnames⟩ := ih hrest
      (show (taken ++ [name]).length + rest.length ≤ capacity by omega) (by omega)
    refine ⟨names, ?_⟩
    rw [extendNames, if_neg (by omega)]
    exact bind_eq_ok_iff.2 ⟨name, hname, hnames⟩

theorem extendNames_eq_error {capacity : Nat} {sources : List Bytes} {fault : Fault}
    (h : ∀ source ∈ sources, source.length ≤ nameLimit) :
    ∀ {taken : List Identifier}, taken.length + sources.length ≤ capacity →
      extendNames capacity taken sources = .error fault → fault = .textTooLong 71 := by
  induction sources with
  | nil => exact fun _ herror => nomatch herror
  | cons source rest ih =>
    intro taken hcapacity herror
    rw [List.length_cons] at hcapacity
    obtain ⟨hsource, hrest⟩ := List.forall_mem_cons.1 h
    rw [extendNames, if_neg (by omega)] at herror
    rcases bind_eq_error_iff.1 herror with hname | ⟨name, -, herror⟩
    · exact freeName_eq_error hsource hname
    · exact ih hrest (by rw [List.length_append]; simp only [List.length_singleton]; omega) herror

/-- The most fields for which numbers of seven digits are always enough. -/
def maxNumberedFields : Nat := 9999999

/-- Stored names of fields that fit in an object have names in the target language. -/
theorem fieldNames_of_length_le {capacity : Nat} {sources : List Bytes}
    (h : ∀ source ∈ sources, source.length ≤ nameLimit) (hcapacity : sources.length ≤ capacity)
    (hnumbers : sources.length ≤ maxNumberedFields) :
    ∃ names, fieldNames capacity sources = .ok names := by
  have hmax : maxNumberedFields = 9999999 := rfl
  exact extendNames_of_length_le h (by simpa using hcapacity) (by simp; omega)

/-- Fields that fit in an object lack a name only for want of an eighth digit. -/
theorem fieldNames_eq_error {capacity : Nat} {sources : List Bytes} {fault : Fault}
    (h : ∀ source ∈ sources, source.length ≤ nameLimit) (hcapacity : sources.length ≤ capacity)
    (herror : fieldNames capacity sources = .error fault) :
    fault = .textTooLong 71 ∧ maxNumberedFields < sources.length := by
  refine ⟨extendNames_eq_error h (by simpa using hcapacity) herror, ?_⟩
  refine Nat.lt_of_not_le fun hle => ?_
  obtain ⟨names, hnames⟩ := fieldNames_of_length_le h hcapacity hle
  rw [hnames] at herror
  cases herror

/-! ## Fields of one object -/

/-- Each field gets the name for it where those of the fields before it are taken. -/
theorem extendNames_isNameFor {capacity : Nat} {sources : List Bytes} {names : List Identifier} :
    ∀ {taken : List Identifier}, extendNames capacity taken sources = .ok names →
      ∃ given, names = taken ++ given ∧ given.length = sources.length ∧
        ∀ i source name, sources[i]? = some source → given[i]? = some name →
          IsNameFor (taken ++ given.take i) source name := by
  induction sources with
  | nil =>
    intro taken h
    cases h
    exact ⟨[], (List.append_nil _).symm, rfl, fun i source name hsource => by simp at hsource⟩
  | cons first rest ih =>
    intro taken h
    rw [extendNames] at h
    split at h
    · cases h
    · obtain ⟨name, hname, h⟩ := bind_eq_ok_iff.1 h
      obtain ⟨given, rfl, hlength, hgiven⟩ := ih h
      refine ⟨name :: given, by rw [List.append_assoc, List.singleton_append],
        by rw [List.length_cons, List.length_cons, hlength], fun i source later hsource hlater => ?_⟩
      cases i with
      | zero =>
        cases hsource
        cases hlater
        rw [List.take_zero, List.append_nil]
        exact freeName_isNameFor hname
      | succ i =>
        rw [List.getElem?_cons_succ] at hsource hlater
        have hrule := hgiven i source later hsource hlater
        rwa [List.append_assoc, List.singleton_append] at hrule

theorem fieldNames_isNameFor {capacity : Nat} {sources : List Bytes} {names : List Identifier}
    (h : fieldNames capacity sources = .ok names) :
    names.length = sources.length ∧
      ∀ i source name, sources[i]? = some source → names[i]? = some name →
        IsNameFor (names.take i) source name := by
  obtain ⟨given, rfl, hlength, hgiven⟩ := extendNames_isNameFor h
  exact ⟨hlength, hgiven⟩

section Names

variable {capacity : Nat} {sources : List Bytes} {names : List Identifier}

theorem exists_isNameFor (h : fieldNames capacity sources = .ok names) {i : Nat}
    {name : Identifier} (hname : names[i]? = some name) :
    ∃ source, sources[i]? = some source ∧ IsNameFor (names.take i) source name := by
  obtain ⟨hlength, hrule⟩ := fieldNames_isNameFor h
  have hlt : i < sources.length := hlength ▸ (List.getElem?_eq_some_iff.1 hname).1
  have hsource := List.getElem?_eq_getElem hlt
  exact ⟨_, hsource, hrule i _ name hsource hname⟩

/-- The names of fields are all different. -/
theorem nodup_fieldNames (h : fieldNames capacity sources = .ok names) : names.Nodup := by
  rw [List.nodup_iff_getElem?_ne_getElem?]
  intro i j hij hj heq
  have hlater := List.getElem?_eq_getElem hj
  obtain ⟨source, -, hrule⟩ := exists_isNameFor h hlater
  refine hrule.notMem (List.mem_of_getElem? (i := i) ?_)
  rw [List.getElem?_take_of_lt hij, heq, hlater]

/-- The names of fields are legal. -/
theorem isLegal_fieldNames (h : fieldNames capacity sources = .ok names) :
    ∀ name ∈ names, IsLegal name.bytes := by
  intro name hname
  obtain ⟨i, hi⟩ := List.mem_iff_getElem?.1 hname
  obtain ⟨source, -, hrule⟩ := exists_isNameFor h hi
  exact hrule.isLegal

end Names

/-! ## Fields of one name -/

section Alike

variable {source : Bytes} {spelling : Identifier}

/-- Fields of one name get the adapted name and numbers behind the spelling, so there are no
    more of them than numbers that fit, and one. -/
theorem count_le_of_fieldNames {capacity count last : Nat} {names : List Identifier}
    (hspelling : spell source = .ok spelling)
    (hlast : ∀ n name, numberedName spelling n = .ok name → n < last + 2)
    (h : fieldNames capacity (List.replicate count source) = .ok names) : count ≤ last + 1 := by
  obtain ⟨bare, hbare⟩ := exists_escapeReserved spelling
  let numbered := (List.range last).filterMap fun i => (numberedName spelling (i + 2)).toOption
  have hsub : names ⊆ bare :: numbered := by
    intro name hname
    obtain ⟨i, hi⟩ := List.mem_iff_getElem?.1 hname
    obtain ⟨source', hsource, hrule⟩ := exists_isNameFor h hi
    obtain rfl : source' = source := List.eq_of_mem_replicate (List.mem_of_getElem? hsource)
    cases hrule with
    | adapted hadapt =>
      obtain rfl : bare = name :=
        Except.ok.inj ((bind_eq_ok_iff.2 ⟨spelling, hspelling, hbare⟩).symm.trans hadapt)
      exact List.mem_cons_self
    | @numbered _ spelling' _ n _ _ hspelling' hn hnumber =>
      obtain rfl : spelling = spelling' := Except.ok.inj (hspelling.symm.trans hspelling')
      have hlt := hlast n name hnumber
      refine List.mem_cons_of_mem _ (List.mem_filterMap.2 ⟨n - 2, List.mem_range.2 (by omega), ?_⟩)
      rw [Nat.sub_add_cancel hn, hnumber]
      rfl
  have hle := (List.Nodup.subperm (nodup_fieldNames h) hsub).length_le
  have hnumbers : numbered.length ≤ last :=
    (List.length_filterMap_le _ _).trans_eq List.length_range
  rw [(fieldNames_isNameFor h).1, List.length_replicate, List.length_cons] at hle
  omega

/-- Where the spelling leaves room for seven digits only, ten million fields of one name
    cannot all be named. -/
theorem fieldNames_replicate {capacity count : Nat} (hspelling : spell source = .ok spelling)
    (hlong : spelling.bytes.length = nameLimit + 1) (hsource : source.length ≤ nameLimit)
    (hcount : maxNumberedFields < count) (hcapacity : count ≤ capacity) :
    fieldNames capacity (List.replicate count source) = .error (.textTooLong 71) := by
  have hlimit : nameLimit = 63 := rfl
  have hmax : maxNumberedFields = 9999999 := rfl
  have hlast : ∀ n name, numberedName spelling n = .ok name → n < 9999998 + 2 := by
    intro n name hname
    obtain ⟨numbered, happend, -⟩ := bind_eq_ok_iff.1 hname
    have hbytes := BoundedText.append_eq_ok happend
    have hroom := numbered.length_le
    rw [hbytes, List.length_append] at hroom
    exact (length_decimal_le_iff (k := 7) (by decide)).1 (by omega)
  cases hnames : fieldNames capacity (List.replicate count source) with
  | ok names =>
    have hfew := count_le_of_fieldNames hspelling hlast hnames
    omega
  | error fault =>
    have hsources : ∀ other ∈ List.replicate count source, other.length ≤ nameLimit :=
      fun other hother => List.eq_of_mem_replicate hother ▸ hsource
    obtain ⟨rfl, -⟩ := fieldNames_eq_error hsources (by rwa [List.length_replicate]) hnames
    rfl

end Alike

end Target

/-! ## Stored trees -/

namespace StoredTree

open Target

/-- The children of any node have names when they are read as fields, if each has room
    for its text and there are no more nodes than seven digits can number. There is a
    name for each child, and no two are the same. A child gets the name that its text
    adapts to if no child before it has that name, and otherwise the spelling with the
    smallest number from two on that makes it new; the search tries no more names than
    there are children up to this one. Each name may be used in the target language: it
    is a word that is not reserved, or an escaped reserved word. -/
theorem fieldNames_distinct {capacity : Nat} {stored : StoredTree} {tree : TypeTree}
    (htree : stored.tree? = some tree) (hsize : stored.arena.size ≤ capacity)
    (hnumbers : capacity ≤ maxNumberedFields)
    (htexts : ∀ child ∈ tree.children, child.label.text.length ≤ nameLimit) :
    ∃ names, stored.fieldNames capacity = .ok names ∧
      names.length = tree.children.length ∧ names.Nodup ∧
      (∀ i child name, tree.children[i]? = some child → names[i]? = some name →
        IsNameFor (names.take i) child.label.text name) ∧
      ∀ name ∈ names, IsLegal name.bytes := by
  obtain ⟨id, -, hid⟩ := Option.bind_eq_some_iff.1 htree
  have hroom : tree.children.length ≤ capacity :=
    Nat.le_trans (Arena.length_children_le hid) hsize
  have hsources : ∀ source ∈ tree.children.map fun child => child.label.text,
      source.length ≤ nameLimit := by simpa using htexts
  have hfits : (tree.children.map fun child => child.label.text).length ≤ capacity := by
    rwa [List.length_map]
  obtain ⟨names, hnames⟩ :=
    fieldNames_of_length_le hsources hfits (Nat.le_trans hfits hnumbers)
  obtain ⟨hlength, hrule⟩ := fieldNames_isNameFor hnames
  refine ⟨names, ?_, by rw [hlength, List.length_map], nodup_fieldNames hnames,
    fun i child name hchild hname => ?_, isLegal_fieldNames hnames⟩
  · rw [StoredTree.fieldNames_eq htree, hnames]
  · refine hrule i child.label.text name ?_ hname
    rw [List.getElem?_map, hchild]
    rfl

/-- An arena that holds an object whose first field takes the name of the second, which
    takes the name of the third; the fourth has a reserved word for a name. -/
def collidingFields : StoredTree :=
  ⟨⟨[.leaf (.atomic ⟨.number, []⟩), ⟨.field (ascii "a-b") false, some 0, some 3, 1⟩,
    .leaf (.atomic ⟨.number, []⟩), ⟨.field (ascii "aB") false, some 2, some 5, 1⟩,
    .leaf (.atomic ⟨.number, []⟩), ⟨.field (ascii "aB2") true, some 4, some 7, 1⟩,
    .leaf (.atomic ⟨.number, []⟩), ⟨.field (ascii "type") false, some 6, none, 1⟩,
    ⟨.object, some 1, none, 4⟩]⟩, some 8⟩

theorem fieldNames_distinct_sample :
    ∃ tree, collidingFields.tree? = some tree ∧ collidingFields.arena.size ≤ 16 ∧
      16 ≤ maxNumberedFields ∧
      (∀ child ∈ tree.children, child.label.text.length ≤ nameLimit) ∧
      ∃ names, collidingFields.fieldNames 16 = .ok names ∧ names.Nodup ∧
        names.map BoundedText.bytes =
          [ascii "aB", ascii "aB2", ascii "aB22", ascii "``type``"] := by
  let tree : TypeTree := .object [.field (ascii "a-b") false (.atomic .number []),
    .field (ascii "aB") false (.atomic .number []), .field (ascii "aB2") true (.atomic .number []),
    .field (ascii "type") false (.atomic .number [])]
  have htree : collidingFields.tree? = some tree := by decide
  have hsize : collidingFields.arena.size ≤ 16 := by decide
  have hnumbers : 16 ≤ maxNumberedFields := by decide
  have htexts : ∀ child ∈ tree.children, child.label.text.length ≤ nameLimit := by decide
  obtain ⟨names, hnames, -, hd, -⟩ := fieldNames_distinct htree hsize hnumbers htexts
  refine ⟨tree, htree, hsize, hnumbers, htexts, names, hnames, hd, ?_⟩
  have hbytes : (collidingFields.fieldNames 16).map (List.map BoundedText.bytes) =
      .ok [ascii "aB", ascii "aB2", ascii "aB22", ascii "``type``"] := by decide +kernel
  rw [hnames] at hbytes
  exact Except.ok.inj hbytes

end StoredTree

end TypeSig
