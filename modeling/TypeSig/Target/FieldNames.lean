/-
  TypeSig.Target.FieldNames

  Names for the fields of one object, all different. Two source names may adapt
  to one name; the later field then gets the first number from two on that makes
  its name new, put behind its spelling.

  The numbers to try are counted down from the number of names taken. Among so
  many numbered spellings and the bare one, which all differ, one is free.
-/

import TypeSig.Target.Identifier

namespace TypeSig.Target

/-- A spelling with a number behind it, as a name. -/
def numberedName (spelling : Identifier) (n : Nat) : Except Fault Identifier := do
  let numbered ← spelling.appendDecimal n
  escapeReserved numbered

/-- The first numbered name from `n` on that is not taken; after so many tries
    the next one is not looked up any more. -/
def freeNumberedName (taken : List Identifier) (spelling : Identifier) :
    Nat → Nat → Except Fault Identifier
  | 0, n => numberedName spelling n
  | tries + 1, n => do
    let name ← numberedName spelling n
    if name ∈ taken then freeNumberedName taken spelling tries (n + 1) else .ok name

/-- A name for a field that no field in front of it has. -/
def freeName (taken : List Identifier) (source : Bytes) : Except Fault Identifier := do
  let spelling ← spell source
  let name ← escapeReserved spelling
  if name ∈ taken then freeNumberedName taken spelling taken.length 2 else .ok name

/-- The names already given, with those for more fields behind them. -/
def extendNames (capacity : Nat) (taken : List Identifier) :
    List Bytes → Except Fault (List Identifier)
  | [] => .ok taken
  | source :: rest =>
    if capacity ≤ taken.length then
      .error .tooManyFields
    else do
      let name ← freeName taken source
      extendNames capacity (taken ++ [name]) rest

/-- The names for the fields of an object, in their order. -/
def fieldNames (capacity : Nat) (sources : List Bytes) : Except Fault (List Identifier) :=
  extendNames capacity [] sources

end TypeSig.Target
