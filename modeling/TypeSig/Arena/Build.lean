/-
  TypeSig.Arena.Build

  Storing a tree bottom-up. Every subtree is stored in an arena of its own, the
  children from left to right; then their arenas are merged and the parent is
  put over their roots. Each of these arenas has the same capacity, so the first
  subtree that does not fit decides the fault.
-/

import TypeSig.Arena.Cursor

namespace TypeSig

namespace Arena

/-- The arena and the root that a growing operation leaves, if it succeeded. -/
def settle : Arena × Except Fault Nat → Except Fault (Arena × Nat)
  | (arena, .ok id) => .ok (arena, id)
  | (_, .error fault) => .error fault

/-- Merges arenas into one and answers with the new ids of their roots. -/
def gather (capacity : Nat) (arena : Arena) :
    List (Arena × Nat) → Except Fault (Arena × List Nat)
  | [] => .ok (arena, [])
  | (part, root) :: rest => do
    let (merged, offset) ← settle (arena.merge capacity part)
    let (all, roots) ← gather capacity merged rest
    .ok (all, (root + offset) :: roots)

/-- Puts a parent over the roots of several arenas. -/
def compose (capacity : Nat) (kind : NodeKind) (parts : List (Arena × Nat)) :
    Except Fault (Arena × Nat) := do
  let (arena, roots) ← gather capacity empty parts
  settle (arena.addParent capacity kind roots)

end Arena

namespace TypeTree

mutual

/-- Stores a tree in an arena of its own. A field needs its type. -/
def build (capacity : Nat) : TypeTree → Except Fault (Arena × Nat)
  | .node (.atomic type) _ =>
    Arena.settle (Arena.empty.addAtomic capacity type.kind type.text)
  | .node (.field name optional) children => do
    match ← buildAll capacity children with
    | [] => .error .missingRoot
    | (arena, type) :: _ => Arena.settle (arena.addField capacity name type optional)
  | .node .object children => do
    Arena.compose capacity .object (← buildAll capacity children)
  | .node .array children => do
    Arena.compose capacity .array (← buildAll capacity children)
  | .node .union children => do
    Arena.compose capacity .union (← buildAll capacity children)

/-- Stores trees one by one, each in an arena of its own. -/
def buildAll (capacity : Nat) : List TypeTree → Except Fault (List (Arena × Nat))
  | [] => .ok []
  | tree :: rest => do
    let first ← build capacity tree
    let others ← buildAll capacity rest
    .ok (first :: others)

end

/-- The stored form of a tree. -/
def store (capacity : Nat) (tree : TypeTree) : Except Fault StoredTree := do
  let (arena, root) ← tree.build capacity
  .ok ⟨arena, some root⟩

end TypeTree

end TypeSig
