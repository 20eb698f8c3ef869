/-
  TypeSig.Overload.List

  Overloads without repetition, in the order in which they first came. A list
  is told its capacity when it grows. An overload that is there already is not
  added and needs no room; a new one for a full list is a fault.
-/

import TypeSig.Overload.Basic

namespace TypeSig

/-- Distinct overloads in the order of their first occurrence. -/
structure OverloadList where
  items : List Overload
  deriving DecidableEq

namespace OverloadList

/-- The list without overloads. -/
def empty : OverloadList := ⟨[]⟩

/-- The number of overloads. -/
def size (list : OverloadList) : Nat := list.items.length

/-- There is no overload. -/
def isEmpty (list : OverloadList) : Bool := list.items.isEmpty

/-- Some overload declares the same method. -/
def contains (list : OverloadList) (overload : Overload) : Bool :=
  list.items.any fun item => item.sameIdentity overload

/-- Adds an overload behind the others, and tells whether it was new. -/
def add (capacity : Nat) (list : OverloadList) (overload : Overload) :
    Except Fault (OverloadList × Bool) :=
  if list.contains overload then
    .ok (list, false)
  else if capacity ≤ list.size then
    .error .overloadsFull
  else
    .ok (⟨list.items ++ [overload]⟩, true)

/-- Adds overloads one by one up to the first fault. The list holds what was
    added, also when there was a fault. -/
def addAll (capacity : Nat) (list : OverloadList) :
    List Overload → OverloadList × Except Fault Unit
  | [] => (list, .ok ())
  | overload :: rest =>
    match list.add capacity overload with
    | .ok (next, _) => addAll capacity next rest
    | .error fault => (list, .error fault)

/-- Adds the overloads of another list. -/
def append (capacity : Nat) (list other : OverloadList) : OverloadList × Except Fault Unit :=
  list.addAll capacity other.items

/-- A list with more overloads behind it, if all of them have room. -/
def extend (capacity : Nat) (list : OverloadList) (overloads : List Overload) :
    Except Fault OverloadList :=
  match list.addAll capacity overloads with
  | (extended, .ok ()) => .ok extended
  | (_, .error fault) => .error fault

/-- The list of the given overloads. -/
def ofList (capacity : Nat) (overloads : List Overload) : Except Fault OverloadList :=
  empty.extend capacity overloads

end OverloadList

end TypeSig
