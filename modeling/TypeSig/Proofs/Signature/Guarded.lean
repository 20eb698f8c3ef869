/-
  TypeSig.Proofs.Signature.Guarded

  The reader once more, byte by byte and with a guard in front of everything that must
  not go wrong. It has no tokens: it goes through the text by an offset, passes over
  blanks where they may stand, and looks at one byte at a time. It works on tables of as
  many places as there may be nodes: the fields of an object and the cases of a union are
  written down one after another, and their ids are looked up in the arena. A guard is
  broken by a byte that is looked at behind the end of the text, by a place outside a
  table, by the id of a node that is not stored, by a node that the arena refuses, by a
  loop that goes on when its rounds are used up, and by a type that is given up without a
  failure on record or answered in spite of one.

  A step that gives up may do so with or without recording a failure, and a failure
  is recorded only where none is on record yet. Nothing here stops a step from
  going on after a failure, and nothing but the reader's own questions for the end keeps
  it from looking behind the end; that it does neither has to be proved.
-/

import TypeSig.Signature.Reader

namespace TypeSig

/-! ## Comparing nodes -/

namespace Arena

/-- Compares two chains of siblings, as long as every node is there and the steps
    last. -/
def sameChain? (a : Arena) : Nat → Option Nat → Option Nat → Option Bool
  | _, none, none => some true
  | _, none, some _ => some false
  | _, some _, none => some false
  | 0, some _, some _ => none
  | steps + 1, some i, some j => do
    let m ← a.node? i
    let n ← a.node? j
    if m.agrees n then
      let same ← if m.isAtomic then some true else sameChain? a steps m.firstChild n.firstChild
      if same then sameChain? a steps m.nextSibling n.nextSibling else some false
    else
      some false

/-- Compares the trees of two nodes that are there. -/
def sameTree? (a : Arena) (i j : Nat) : Option Bool := do
  let m ← a.node? i
  let n ← a.node? j
  if m.agrees n then
    if m.isAtomic then some true else sameChain? a a.size m.firstChild n.firstChild
  else
    some false

end Arena

namespace Signature

/-- Where a guarded reading stands: the text, the offset of the byte that comes next, the
    arena so far, and the failure that was recorded first. -/
structure Cursor where
  text : Bytes
  offset : Nat
  arena : Arena
  failure : Option ReadFailure

/-- A step with guards. There is no answer where a guard is broken; otherwise there
    is one, or the step gives up. -/
def Guarded (α : Type) := Cursor → Option (Option α × Cursor)

namespace Guarded

instance : Monad Guarded where
  pure x := fun c => some (some x, c)
  bind m f := fun c =>
    match m c with
    | none => none
    | some (none, d) => some (none, d)
    | some (some x, d) => f x d

/-! ## Single steps -/

/-- A guard that is broken. -/
def broken {α : Type} : Guarded α := fun _ => none

/-- A guard. -/
def check (p : Cursor → Bool) : Guarded Unit := fun c =>
  if p c then some (some (), c) else none

/-- Gives up. -/
def giveUp {α : Type} : Guarded α := fun c => some (none, c)

/-- Records a failure if it is the first. -/
def record (failure : ReadFailure) : Guarded Unit := fun c =>
  some (some (), { c with failure := c.failure.or (some failure) })

/-- There is a failure on record. -/
def hasFailed : Guarded Bool := fun c => some (some c.failure.isSome, c)

/-- What can be said of where the reading stands. -/
def look {α : Type} (f : Cursor → α) : Guarded α := fun c => some (some (f c), c)

/-- Goes to an offset. -/
def goTo (offset : Nat) : Guarded Unit := fun c => some (some (), { c with offset := offset })

/-- Goes on with another arena. -/
def keep (arena : Arena) : Guarded Unit := fun c => some (some (), { c with arena := arena })

/-- Records a failure and gives up. -/
def fail {α : Type} (failure : ReadFailure) : Guarded α := do
  record failure
  giveUp

/-- Fails at the next byte. -/
def expect {α : Type} (what : Expected) : Guarded α := do
  fail ⟨.expected what, ← look Cursor.offset⟩

/-! ## Bytes -/

/-- There is no byte left. -/
def atEnd : Guarded Bool := look fun c => decide (c.text.length ≤ c.offset)

/-- The next byte, which has to be there. -/
def current : Guarded UInt8 := fun c => c.text[c.offset]?.map fun b => (some b, c)

-- Behind the end there is no byte to look at.
example : current ⟨ascii "ab", 2, .empty, none⟩ = none := rfl

/-- The next byte, or a NUL at the end. -/
def peek : Guarded UInt8 := do
  if ← atEnd then pure Byte.nul else current

/-- Passes over the next byte. -/
def advance : Guarded Unit := do
  goTo ((← look Cursor.offset) + 1)

/-- The bytes from an offset up to the next one, which have to be part of the text. -/
def slice (start : Nat) : Guarded Bytes := do
  check fun c => decide (start ≤ c.offset ∧ c.offset ≤ c.text.length)
  look fun c => (c.text.drop start).take (c.offset - start)

/-- More rounds than a loop can make that passes over a byte in each but the last. -/
def rounds : Guarded Nat := look fun c => c.text.length - c.offset + 1

/-- Passes over bytes as long as they are of a sort. -/
def skipWhile (p : UInt8 → Bool) : Nat → Guarded Unit
  | 0 => broken
  | rounds + 1 => do
    if ← atEnd then
      pure ()
    else if p (← current) then
      advance
      skipWhile p rounds
    else
      pure ()

/-- Passes over blanks. -/
def skipBlanks : Guarded Unit := do
  skipWhile Byte.isSpace (← rounds)

/-- Takes a byte if it comes next, and says whether it did. -/
def eat (b : UInt8) : Guarded Bool := do
  if (← peek) = b then
    advance
    pure true
  else
    pure false

/-- Takes a byte that has to come next; the answer is the offset behind it. -/
def require (b : UInt8) (what : Expected) : Guarded Nat := do
  if ← eat b then look Cursor.offset else expect what

/-! ## Storing -/

/-- Whether a node with a given text fits; a failure is recorded if not. -/
def hasRoom (capacity : Nat) (text : Bytes) (position : Nat) : Guarded Bool := do
  if ← look fun c => c.arena.isFull capacity then
    record ⟨.tooManyNodes, position⟩
    pure false
  else if text.length ≤ nameLimit then
    pure true
  else
    record ⟨.textTooLong, position⟩
    pure false

/-- An id that can be looked up: the node is stored, in a place of the arena. -/
def isStored (capacity id : Nat) (c : Cursor) : Bool :=
  id < c.arena.size && c.arena.size ≤ capacity

/-- Stores a node over existing ones. The arena must not refuse it. -/
def store (capacity : Nat) (children : List Nat) (grow : Arena → Arena × Except Fault Nat) :
    Guarded Nat := do
  check fun c => children.all fun id => isStored capacity id c
  let (arena, result) ← look fun c => grow c.arena
  match result with
  | .error _ => broken
  | .ok new => do
    keep arena
    check (isStored capacity new)
    pure new

-- A child that is not there has no outcome.
example : store 4 [0] (fun arena => arena.addParent 4 .array [0]) ⟨[], 0, .empty, none⟩ = none :=
  rfl

/-- Makes sure of the room for a node and stores it. -/
def storeWithRoom (capacity : Nat) (text : Bytes) (position : Nat) (children : List Nat)
    (grow : Arena → Arena × Except Fault Nat) : Guarded Nat := do
  if ← hasRoom capacity text position then
    store capacity children grow
  else
    giveUp

/-! ## Names and quoted texts -/

/-- The name that begins here, if one does. -/
def scanName : Guarded (Option Bytes) := do
  let start ← look Cursor.offset
  if Byte.isNameStart (← peek) then
    skipWhile Byte.isNameByte (← rounds)
    pure (some (← slice start))
  else
    pure none

/-- Passes over the bytes of a quoted text, up to its closing quote or the end. A NUL on the
    way is a failure; the answer is whether there was none. -/
def scanBody (quote : UInt8) : Nat → Guarded Bool
  | 0 => broken
  | rounds + 1 => do
    if ← atEnd then
      pure true
    else if (← current) = quote then
      pure true
    else if (← current) = Byte.nul then
      record ⟨.nulInLiteral, ← look Cursor.offset⟩
      pure false
    else
      advance
      scanBody quote rounds

/-- The quoted text that begins here, if one does. A failure is recorded where it is
    broken. -/
def scanQuoted : Guarded (Option Bytes) := do
  let quote ← peek
  if Byte.isQuote quote then
    let start ← look Cursor.offset
    advance
    if ← scanBody quote (← rounds) then
      if ← atEnd then
        goTo start
        record ⟨.unterminatedLiteral, start⟩
        pure none
      else
        let text ← slice (start + 1)
        advance
        pure (some text)
    else
      pure none
  else
    pure none

def readFieldName : Guarded Bytes := do
  match ← scanName with
  | some text => pure text
  | none =>
    match ← scanQuoted with
    | some text => pure text
    | none => if ← hasFailed then giveUp else expect .fieldName

/-! ## Objects and arrays -/

def readField (capacity : Nat) (readType : Guarded Nat) : Guarded Nat := do
  skipBlanks
  let position ← look Cursor.offset
  let name ← readFieldName
  skipBlanks
  let optional ← eat Byte.questionMark
  skipBlanks
  let _ ← require Byte.colon .colon
  skipBlanks
  let type ← readType
  storeWithRoom capacity name position [type] fun arena =>
    arena.addField capacity name type optional

/-- The fields of an object, of which so many are in the table already. -/
def readFields (capacity : Nat) (readType : Guarded Nat) : Nat → Nat → Guarded (List Nat)
  | 0, _ => broken
  | rounds + 1, count => do
    let field ← readField capacity readType
    check fun _ => count < capacity
    skipBlanks
    if ← eat Byte.comma then
      skipBlanks
      if (← peek) = Byte.closeBrace then
        pure [field]
      else
        let fields ← readFields capacity readType rounds (count + 1)
        pure (field :: fields)
    else
      pure [field]

def readObject (capacity : Nat) (readType : Guarded Nat) : Guarded Nat := do
  let _ ← eat Byte.openBrace
  let fields ← readFields capacity readType (← rounds) 0
  skipBlanks
  let stop ← require Byte.closeBrace .commaOrBrace
  storeWithRoom capacity [] stop fields fun arena => arena.addParent capacity .object fields

def readArray (capacity : Nat) (readType : Guarded Nat) : Guarded Nat := do
  let _ ← eat Byte.openAngle
  skipBlanks
  let element ← readType
  skipBlanks
  let stop ← require Byte.closeAngle .closeAngle
  storeWithRoom capacity [] stop [element] fun arena => arena.addParent capacity .array [element]

/-! ## Unions -/

/-- Whether an angle bracket follows the name that takes one, perhaps behind blanks. If
    not, the reading stays behind the name. -/
def opensArray (name : Bytes) : Guarded Bool := do
  if name = arrayName then
    let after ← look Cursor.offset
    skipBlanks
    if (← peek) = Byte.openAngle then
      pure true
    else
      goTo after
      pure false
  else
    pure false

def readCase (capacity : Nat) (readType : Guarded Nat) : Guarded Nat := do
  if (← peek) = Byte.openBrace then
    readObject capacity readType
  else
    let start ← look Cursor.offset
    match ← scanQuoted with
    | some text =>
      storeWithRoom capacity text start [] fun arena => arena.addAtomic capacity .stringLiteral text
    | none =>
      if ← hasFailed then
        giveUp
      else
        match ← scanName with
        | none => expect .type
        | some name =>
          if ← opensArray name then
            readArray capacity readType
          else
            let kind := keywordKind name
            storeWithRoom capacity name start [] fun arena =>
              arena.addAtomic capacity kind (if kind = .other then name else [])

/-- Whether one of the nodes has the same tree as another node. -/
def anySame (new : Nat) : List Nat → Guarded Bool
  | [] => pure false
  | old :: olds => do
    match ← look fun c => c.arena.sameTree? old new with
    | none => broken
    | some true => pure true
    | some false => anySame new olds

/-- Puts a new case into the table unless its tree is there already. -/
def insertCase (capacity : Nat) (cases : List Nat) (new : Nat) : Guarded (List Nat) := do
  if ← anySame new cases then
    pure cases
  else
    check fun _ => cases.length < capacity
    pure (cases ++ [new])

/-- The distinct cases of a union, of which these are in the table already. -/
def readCases (capacity : Nat) (readType : Guarded Nat) : Nat → List Nat → Guarded (List Nat)
  | 0, _ => broken
  | rounds + 1, cases => do
    let new ← readCase capacity readType
    let cases ← insertCase capacity cases new
    skipBlanks
    if ← eat Byte.bar then
      skipBlanks
      readCases capacity readType rounds cases
    else
      pure cases

def readUnion (capacity : Nat) (readType : Guarded Nat) : Guarded Nat := do
  let cases ← readCases capacity readType (← rounds) []
  match cases with
  | [only] => pure only
  | _ =>
    let position ← look Cursor.offset
    storeWithRoom capacity [] position cases fun arena => arena.addParent capacity .union cases

/-! ## Types and whole texts -/

/-- Breaks where a type is given up without a failure on record, or answered in
    spite of one. -/
def answered (readType : Guarded Nat) : Guarded Nat := fun c => do
  let (answer, d) ← readType c
  if answer.isSome = d.failure.isSome then none else some (answer, d)

def readType (capacity : Nat) : Nat → Guarded Nat
  | 0 => answered do fail ⟨.nestedTooDeeply, ← look Cursor.offset⟩
  | levels + 1 => answered (readUnion capacity (readType capacity levels))

/-- What is left behind a type is a failure, if there is none yet. -/
def reportRest : Guarded Unit := do
  unless ← hasFailed do
    skipBlanks
    unless ← atEnd do
      record ⟨.expected .endOfInput, ← look Cursor.offset⟩

/-- What is answered in the end: the failure on record, or else the tree. -/
def answer (root : Option Nat) (c : Cursor) : Except ReadFailure StoredTree :=
  match c.failure with
  | some failure => .error failure
  | none => .ok ⟨c.arena, root⟩

/-- Reads a whole text. -/
def read (capacity : Nat) (text : Bytes) : Option (Except ReadFailure StoredTree) := do
  let (_, b) ← skipBlanks ⟨text, 0, .empty, none⟩
  let (root, c) ← readType capacity capacity b
  let (_, d) ← reportRest c
  some (answer root d)

end Guarded

end Signature

end TypeSig
