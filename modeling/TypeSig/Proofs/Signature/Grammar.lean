/-
  TypeSig.Proofs.Signature.Grammar

  The signature language as a grammar over tokens, and what its phrases mean.

    Type    := Case ('|' Case)*
    Case    := Object | 'Array' '<' Type '>' | QuotedText | Name
    Object  := '{' Field (',' Field)* ','? '}'
    Field   := (Name | QuotedText) '?'? ':' Type

  A phrase is a derivation of this grammar, kept as a tree. `tokens` are the
  tokens that it derives, `value` is the type that it denotes. A keyword is a
  name like any other as far as derivations go; what it means is looked up when
  the whole name is known. `Array` is derived as a plain name too: no phrase has
  an angle bracket behind a plain name, so nothing is derived in two ways.

  `cost`, `texts` and `depth` are what storing a phrase asks for: nodes, texts
  that a node can hold, and types that are open at once.
-/

import TypeSig.Proofs.Signature.Spelling
import TypeSig.Signature.Reader
import Mathlib.Data.List.Induction
import Mathlib.Data.List.Nodup
import Mathlib.Data.List.Perm.Subperm

namespace TypeSig

/-! ## First occurrences -/

section FirstOccurrences

variable {α : Type} [BEq α] [LawfulBEq α] {xs : List α}

/-- Another value at the end counts unless it is there already. -/
theorem eraseDups_append_singleton (xs : List α) (x : α) :
    (xs ++ [x]).eraseDups = if x ∈ xs.eraseDups then xs.eraseDups else xs.eraseDups ++ [x] := by
  rw [List.eraseDups_append]
  by_cases h : x ∈ xs
  · simp [List.removeAll, h]
  · simp [List.removeAll, h, List.eraseDups_cons]

omit [LawfulBEq α] in
theorem eraseDups_ne_nil (h : xs ≠ []) : xs.eraseDups ≠ [] := by
  cases xs with
  | nil => exact absurd rfl h
  | cons x xs => simp [List.eraseDups_cons]

theorem nodup_eraseDups (xs : List α) : xs.eraseDups.Nodup := by
  induction xs using List.reverseRecOn with
  | nil => exact List.nodup_nil
  | append_singleton xs x ih =>
    rw [eraseDups_append_singleton]
    split
    · exact ih
    · next hnew =>
      refine List.nodup_append'.2 ⟨ih, List.nodup_singleton x, ?_⟩
      exact List.disjoint_singleton.2 hnew

theorem eraseDups_of_nodup (h : xs.Nodup) : xs.eraseDups = xs := by
  induction xs with
  | nil => rfl
  | cons x xs ih =>
    obtain ⟨hx, hxs⟩ := List.nodup_cons.1 h
    -- the first value does not come again, so nothing is filtered out
    have hkeep : xs.filter (fun y => !y == x) = xs := by
      refine List.filter_eq_self.2 fun y hy => ?_
      simpa using ne_of_mem_of_not_mem hy hx
    rw [List.eraseDups_cons, hkeep, ih hxs]

theorem length_eraseDups_le (xs : List α) : xs.eraseDups.length ≤ xs.length :=
  ((nodup_eraseDups xs).subperm fun _ h => List.mem_eraseDups.1 h).length_le

/-- More values have no fewer distinct ones. -/
theorem length_eraseDups_append (xs more : List α) :
    xs.eraseDups.length ≤ (xs ++ more).eraseDups.length := by
  rw [List.eraseDups_append, List.length_append]
  exact Nat.le_add_right _ _

end FirstOccurrences

namespace Signature

/-! ## Derivations -/

/-- The name of a field as it is written: plain, or in quotes. -/
inductive FieldName
  | plain (text : Bytes)
  | quoted (text : Bytes)
  deriving DecidableEq, Repr

mutual

/-- One case, or several with bars between them. -/
inductive TypePhrase
  | last (case : CasePhrase)
  | more (case : CasePhrase) (rest : TypePhrase)

/-- A name, a quoted literal, an array or an object. -/
inductive CasePhrase
  | name (text : Bytes)
  | literal (text : Bytes)
  | array (element : TypePhrase)
  | object (fields : FieldsPhrase)

/-- One or more fields with commas between them; `comma` says whether one stands
    behind the last. -/
inductive FieldsPhrase
  | last (name : FieldName) (optional : Bool) (type : TypePhrase) (comma : Bool)
  | more (name : FieldName) (optional : Bool) (type : TypePhrase) (rest : FieldsPhrase)

end

namespace FieldName

def text : FieldName → Bytes
  | .plain text | .quoted text => text

def token : FieldName → Token
  | .plain text => .name text
  | .quoted text => .quoted text

end FieldName

/-- The token for a byte that stands for itself, if it is there. -/
def mark (b : UInt8) (present : Bool) : List Token :=
  if present then [.byte b] else []

mutual

/-- The tokens of a type. -/
def TypePhrase.tokens : TypePhrase → List Token
  | .last c => c.tokens
  | .more c rest => c.tokens ++ .byte Byte.bar :: rest.tokens

def CasePhrase.tokens : CasePhrase → List Token
  | .name text => [.name text]
  | .literal text => [.quoted text]
  | .array element =>
    .name arrayName :: .byte Byte.openAngle :: (element.tokens ++ [.byte Byte.closeAngle])
  | .object fields => .byte Byte.openBrace :: (fields.tokens ++ [.byte Byte.closeBrace])

def FieldsPhrase.tokens : FieldsPhrase → List Token
  | .last name optional type comma =>
    name.token :: (mark Byte.questionMark optional ++
      .byte Byte.colon :: (type.tokens ++ mark Byte.comma comma))
  | .more name optional type rest =>
    name.token :: (mark Byte.questionMark optional ++
      .byte Byte.colon :: (type.tokens ++ .byte Byte.comma :: rest.tokens))

end

/-- The text is derived by the phrase. -/
def Derives (phrase : TypePhrase) (text : Bytes) : Prop :=
  Spells phrase.tokens text

/-! ## Meaning -/

/-- The type with the given cases: equal cases count once, where they come first,
    and a single case is the type itself. -/
def unionOf (cases : List TypeTree) : TypeTree :=
  match cases.eraseDups with
  | [only] => only
  | distinct => .union distinct

/-- The sort of type that a keyword stands for. No other name is a keyword. -/
def keywordMeaning (name : Bytes) : Option AtomicKind :=
  if name = ascii "string" then some .string
  else if name = ascii "number" then some .number
  else if name = ascii "bool" then some .bool
  else if name = ascii "boolean" then some .bool
  else if name = ascii "func" then some .func
  else if name = ascii "object" then some .object
  else if name = ascii "element" then some .element
  else if name = ascii "elementType" then some .elementType
  else none

/-- The type that a name means: what the keyword stands for, or else itself. -/
def nameValue (name : Bytes) : TypeTree :=
  match keywordMeaning name with
  | some kind => .atomic kind []
  | none => .atomic .other name

mutual

/-- The values of all cases of a type, in order. -/
def TypePhrase.caseValues : TypePhrase → List TypeTree
  | .last c => [c.value]
  | .more c rest => c.value :: rest.caseValues

/-- The value of a case. -/
def CasePhrase.value : CasePhrase → TypeTree
  | .name text => nameValue text
  | .literal text => .atomic .stringLiteral text
  | .array element => .array (unionOf element.caseValues)
  | .object fields => .object fields.values

def FieldsPhrase.values : FieldsPhrase → List TypeTree
  | .last name optional type _ => [.field name.text optional (unionOf type.caseValues)]
  | .more name optional type rest =>
    .field name.text optional (unionOf type.caseValues) :: rest.values

end

/-- The type that a phrase denotes. -/
def TypePhrase.value (phrase : TypePhrase) : TypeTree :=
  unionOf phrase.caseValues

theorem lookup_cons_eq_ite {β : Type} (name key : Bytes) (b : β) (table : List (Bytes × β)) :
    ((key, b) :: table).lookup name = if name = key then some b else table.lookup name := by
  by_cases h : name = key
  · simp [h]
  · have hne : (name == key) = false := by simpa using h
    rw [List.lookup_cons, hne, if_neg h]

theorem keywordKind_eq (name : Bytes) : keywordKind name = (keywordMeaning name).getD .other := by
  simp only [keywordKind, keywords, keywordMeaning, lookup_cons_eq_ite, List.lookup_nil]

theorem keywordMeaning_ne_other (name : Bytes) : keywordMeaning name ≠ some .other := by
  unfold keywordMeaning
  repeat' split
  all_goals simp

/-- A keyword is looked up in a table, and leaves no text where it is found. -/
theorem nameValue_eq (name : Bytes) :
    nameValue name =
      .atomic (keywordKind name) (if keywordKind name = .other then name else []) := by
  rw [keywordKind_eq, nameValue]
  cases hmeaning : keywordMeaning name with
  | none => rfl
  | some kind =>
    -- a keyword never stands for an unknown name, so its text is dropped
    have hne : kind ≠ .other := fun e => keywordMeaning_ne_other name (by rw [hmeaning, e])
    simp [hne]

theorem TypePhrase.caseValues_ne_nil (phrase : TypePhrase) : phrase.caseValues ≠ [] := by
  cases phrase <;> simp [TypePhrase.caseValues]

theorem unionOf_of_single {cases : List TypeTree} {only : TypeTree}
    (h : cases.eraseDups = [only]) : unionOf cases = only := by
  simp [unionOf, h]

theorem unionOf_of_two_le {cases : List TypeTree} (h : 2 ≤ cases.eraseDups.length) :
    unionOf cases = .union cases.eraseDups := by
  unfold unionOf
  split
  · next only hsingle =>
    rw [hsingle, List.length_singleton] at h
    omega
  · rfl

/-! ## What storing a phrase asks for -/

/-- The node of a union that is left with two or more cases. -/
def unionCost (cases : List TypeTree) : Nat :=
  if 2 ≤ cases.eraseDups.length then 1 else 0

theorem unionCost_of_single {cases : List TypeTree} {only : TypeTree}
    (h : cases.eraseDups = [only]) : unionCost cases = 0 := by
  simp [unionCost, h]

theorem unionCost_of_two_le {cases : List TypeTree} (h : 2 ≤ cases.eraseDups.length) :
    unionCost cases = 1 := by
  simp [unionCost, h]

mutual

/-- The nodes of all cases, repeated ones too. -/
def TypePhrase.caseCost : TypePhrase → Nat
  | .last c => c.cost
  | .more c rest => c.cost + rest.caseCost

def CasePhrase.cost : CasePhrase → Nat
  | .name _ | .literal _ => 1
  | .array element => element.caseCost + unionCost element.caseValues + 1
  | .object fields => fields.cost + 1

def FieldsPhrase.cost : FieldsPhrase → Nat
  | .last _ _ type _ => type.caseCost + unionCost type.caseValues + 1
  | .more _ _ type rest => type.caseCost + unionCost type.caseValues + 1 + rest.cost

end

/-- The nodes that storing a type takes. -/
def TypePhrase.cost (phrase : TypePhrase) : Nat :=
  phrase.caseCost + unionCost phrase.caseValues

mutual

/-- The type names, literals and field names in a type. -/
def TypePhrase.texts : TypePhrase → List Bytes
  | .last c => c.texts
  | .more c rest => c.texts ++ rest.texts

def CasePhrase.texts : CasePhrase → List Bytes
  | .name text | .literal text => [text]
  | .array element => element.texts
  | .object fields => fields.texts

def FieldsPhrase.texts : FieldsPhrase → List Bytes
  | .last name _ type _ => name.text :: type.texts
  | .more name _ type rest => name.text :: (type.texts ++ rest.texts)

end

mutual

/-- The types that are open at once, this one among them. -/
def TypePhrase.depth : TypePhrase → Nat
  | .last c => c.depth + 1
  | .more c rest => max (c.depth + 1) rest.depth

def CasePhrase.depth : CasePhrase → Nat
  | .name _ | .literal _ => 0
  | .array element => element.depth
  | .object fields => fields.depth

def FieldsPhrase.depth : FieldsPhrase → Nat
  | .last _ _ type _ => type.depth
  | .more _ _ type rest => max type.depth rest.depth

end

theorem TypePhrase.depth_pos (phrase : TypePhrase) : 0 < phrase.depth := by
  cases phrase with
  | last c => exact Nat.succ_pos _
  | more c rest => exact Nat.lt_of_lt_of_le (Nat.succ_pos _) (Nat.le_max_left _ _)

mutual

/-- Every type that is open costs a node of its own. -/
theorem TypePhrase.depth_le_caseCost : ∀ phrase : TypePhrase, phrase.depth ≤ phrase.caseCost
  | .last c => by
    have := c.depth_lt_cost
    simp only [TypePhrase.depth, TypePhrase.caseCost]
    omega
  | .more c rest => by
    have hc := c.depth_lt_cost
    have hrest := rest.depth_le_caseCost
    simp only [TypePhrase.depth, TypePhrase.caseCost]
    omega

/-- A case costs a node more than there are types open in it. -/
theorem CasePhrase.depth_lt_cost : ∀ phrase : CasePhrase, phrase.depth < phrase.cost
  | .name _ => by simp [CasePhrase.depth, CasePhrase.cost]
  | .literal _ => by simp [CasePhrase.depth, CasePhrase.cost]
  | .array element => by
    have := element.depth_le_caseCost
    simp only [CasePhrase.depth, CasePhrase.cost]
    omega
  | .object fields => by
    have := fields.depth_lt_cost
    simp only [CasePhrase.depth, CasePhrase.cost]
    omega

theorem FieldsPhrase.depth_lt_cost : ∀ phrase : FieldsPhrase, phrase.depth < phrase.cost
  | .last _ _ type _ => by
    have := type.depth_le_caseCost
    simp only [FieldsPhrase.depth, FieldsPhrase.cost]
    omega
  | .more _ _ type rest => by
    have := type.depth_le_caseCost
    have := rest.depth_lt_cost
    simp only [FieldsPhrase.depth, FieldsPhrase.cost]
    omega

end

theorem TypePhrase.depth_le_cost (phrase : TypePhrase) : phrase.depth ≤ phrase.cost :=
  Nat.le_trans phrase.depth_le_caseCost (Nat.le_add_right _ _)

/-! ## Where a phrase ends -/

mutual

/-- The last token is the name `Array`, as a name. -/
def TypePhrase.endsInArray : TypePhrase → Bool
  | .last c => c.endsInArray
  | .more _ rest => rest.endsInArray

def CasePhrase.endsInArray : CasePhrase → Bool
  | .name text => text = arrayName
  | .literal _ | .array _ | .object _ => false

end

/-- No token follows with which the case would go on. -/
def CasePhrase.EndsBefore (phrase : CasePhrase) (after : List Token) : Prop :=
  phrase.endsInArray = true → after.head? ≠ some (.byte Byte.openAngle)

/-- No token follows with which the type would go on. -/
def TypePhrase.EndsBefore (phrase : TypePhrase) (after : List Token) : Prop :=
  after.head? ≠ some (.byte Byte.bar) ∧
    (phrase.endsInArray = true → after.head? ≠ some (.byte Byte.openAngle))

/-- The number of cases. -/
def TypePhrase.count : TypePhrase → Nat
  | .last _ => 1
  | .more _ rest => rest.count + 1

def FieldsPhrase.count : FieldsPhrase → Nat
  | .last .. => 1
  | .more _ _ _ rest => rest.count + 1

theorem CasePhrase.tokens_ne_nil (phrase : CasePhrase) : phrase.tokens ≠ [] := by
  cases phrase <;> simp [CasePhrase.tokens]

theorem TypePhrase.count_le : ∀ phrase : TypePhrase, phrase.count ≤ phrase.tokens.length
  | .last c => List.length_pos_iff.2 c.tokens_ne_nil
  | .more c rest => by
    have := rest.count_le
    simp only [TypePhrase.count, TypePhrase.tokens, List.length_append, List.length_cons]
    omega

theorem FieldsPhrase.count_le : ∀ phrase : FieldsPhrase, phrase.count ≤ phrase.tokens.length
  | .last .. => by simp [FieldsPhrase.count, FieldsPhrase.tokens]
  | .more _ _ _ rest => by
    have := rest.count_le
    simp only [FieldsPhrase.count, FieldsPhrase.tokens, List.length_append, List.length_cons]
    omega

/-- Fields begin with a name and not with a byte of their own. -/
theorem FieldsPhrase.head?_tokens_append_ne (phrase : FieldsPhrase) (after : List Token)
    {b : UInt8} : ((phrase.tokens ++ after).head? == some (.byte b)) = false := by
  cases phrase with
  | last name optional type comma => cases name <;> simp [FieldsPhrase.tokens, FieldName.token]
  | more name optional type rest => cases name <;> simp [FieldsPhrase.tokens, FieldName.token]

end Signature

end TypeSig
