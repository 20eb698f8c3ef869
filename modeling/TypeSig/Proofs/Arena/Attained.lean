/-
  TypeSig.Proofs.Arena.Attained

  Arenas that come out of any operations, with parents of any sort, also atomic types
  with children. What sort a parent is makes no difference to links, so every such arena
  has the links of one whose parents are all unions (`Attained.exists_reachable`). The
  links lead through a tree below each node then (`Attained.exists_tree?`), though the
  tree may have children below an atomic type.
-/

import TypeSig.Proofs.Arena.Equality
import TypeSig.Proofs.Arena.Relocation

namespace TypeSig

namespace Arena

variable {a b : Arena}

/-! ## Arenas with the same links -/

/-- Where the two links of each node lead. -/
def linkage (a : Arena) : List (Option Nat × Option Nat) :=
  a.nodes.map fun node => (node.firstChild, node.nextSibling)

theorem size_eq_of_linkage (h : a.linkage = b.linkage) : a.size = b.size := by
  simpa [linkage, size] using congrArg List.length h

theorem firstChild_eq_linkage (a : Arena) (id : Nat) :
    a.firstChild id = a.linkage[id]?.bind Prod.fst := by
  rw [firstChild, node?, linkage, List.getElem?_map]
  cases a.nodes[id]? <;> rfl

theorem nextSibling_eq_linkage (a : Arena) (id : Nat) :
    a.nextSibling id = a.linkage[id]?.bind Prod.snd := by
  rw [nextSibling, node?, linkage, List.getElem?_map]
  cases a.nodes[id]? <;> rfl

theorem linkage_setNextSibling (a : Arena) (id : Nat) (next : Option Nat) :
    (a.setNextSibling id next).linkage = a.linkage.modify id fun links => (links.1, next) := by
  apply List.ext_getElem?
  intro k
  simp only [linkage, setNextSibling, List.getElem?_map, List.getElem?_modify]
  cases a.nodes[k]? with
  | none => rfl
  | some node =>
    by_cases hk : id = k
    · simp [hk]
    · simp [hk]

theorem linkage_chain (h : a.linkage = b.linkage) (ids : List Nat) :
    (a.chain ids).linkage = (b.chain ids).linkage := by
  induction ids generalizing a b with
  | nil => exact h
  | cons id rest ih =>
    cases rest with
    | nil => simp only [chain, linkage_setNextSibling, h]
    | cons next rest =>
      have hfirst : (a.setNextSibling id (some next)).linkage =
          (b.setNextSibling id (some next)).linkage := by
        rw [linkage_setNextSibling, linkage_setNextSibling, h]
      simpa only [chain] using ih hfirst

theorem linkage_append (a : Arena) (node : Node) :
    (Arena.mk (a.nodes ++ [node])).linkage =
      a.linkage ++ [(node.firstChild, node.nextSibling)] := by
  simp [linkage]

theorem linkage_beside (a b : Arena) :
    (a.beside b).linkage = a.linkage ++
      b.linkage.map (Prod.map (Option.map (· + a.size)) (Option.map (· + a.size))) := by
  simp [linkage, beside, Node.shift]

theorem exists_node?_of_linkage (h : a.linkage = b.linkage) {id : Nat} {node : Node}
    (hnode : a.node? id = some node) :
    ∃ other, b.node? id = some other ∧ other.firstChild = node.firstChild ∧
      other.nextSibling = node.nextSibling := by
  have hid := congrArg (fun links => links[id]?) h
  rw [node?] at hnode
  simp only [linkage, List.getElem?_map, hnode, Option.map_some] at hid
  obtain ⟨other, hother, hlinks⟩ := Option.map_eq_some_iff.1 hid.symm
  exact ⟨other, hother, congrArg Prod.fst hlinks, congrArg Prod.snd hlinks⟩

/-- Where the links of one arena lead through trees, the same links do in another. -/
theorem exists_forestFrom_of_linkage (h : a.linkage = b.linkage) :
    ∀ {steps : Nat} {start : Option Nat} {trees : List TypeTree},
      a.forestFrom steps start = some trees → ∃ others, b.forestFrom steps start = some others := by
  intro steps
  induction steps with
  | zero =>
    intro start trees htrees
    cases start with
    | none => exact ⟨[], rfl⟩
    | some id => cases htrees
  | succ steps ih =>
    intro start trees htrees
    cases start with
    | none => exact ⟨[], rfl⟩
    | some id =>
      simp only [forestFrom, Option.bind_eq_bind, Option.bind_eq_some_iff] at htrees ⊢
      obtain ⟨node, hnode, below, hbelow, behind, hbehind, -⟩ := htrees
      obtain ⟨other, hother, hfirst, hnext⟩ := exists_node?_of_linkage h hnode
      obtain ⟨children, hchildren⟩ := ih hbelow
      obtain ⟨rest, hrest⟩ := ih hbehind
      exact ⟨_, other, hother, children, hfirst ▸ hchildren, rest, hnext ▸ hrest, rfl⟩

theorem exists_tree?_of_linkage (h : a.linkage = b.linkage) {id : Nat} {tree : TypeTree}
    (htree : a.tree? id = some tree) : ∃ other, b.tree? id = some other := by
  simp only [tree?, Option.bind_eq_bind, Option.bind_eq_some_iff] at htree ⊢
  obtain ⟨node, hnode, below, hbelow, -⟩ := htree
  obtain ⟨other, hother, hfirst, -⟩ := exists_node?_of_linkage h hnode
  obtain ⟨children, hchildren⟩ := exists_forestFrom_of_linkage h hbelow
  rw [size_eq_of_linkage h, ← hfirst] at hchildren
  exact ⟨_, other, hother, children, hchildren, rfl⟩

end Arena

/-! ## Constructions with parents of any sort -/

/-- The nodes that an operation takes as children. -/
def Operation.children : Operation → List Nat
  | .parent _ children => children
  | .field _ type _ => [type]
  | .atomic _ _ | .merge _ => []

namespace Construction

variable {capacity : Nat} {c r : Construction}

/-- An operation takes as children different nodes that exist and have no parent. -/
def Offers (c : Construction) (op : Operation) : Prop :=
  op.children.Nodup ∧ ∀ id ∈ op.children, c.IsFree id

instance (c : Construction) (op : Operation) : Decidable (c.Offers op) :=
  inferInstanceAs (Decidable (_ ∧ _))

/-- What finite sequences of operations make of the empty arena, refused ones included,
    where a parent may be of any sort. Whatever is merged was made in the same way. -/
inductive Attained (capacity : Nat) : Construction → Prop
  | empty : Attained capacity .empty
  | step {c : Construction} {op : Operation} :
      Attained capacity c → c.Offers op →
      (∀ other, op = .merge other → Attained capacity other) →
      Attained capacity (c.perform capacity op)

/-- Two constructions with the same links, in which the same children were given. -/
structure Resembles (c r : Construction) : Prop where
  given : c.given = r.given
  linkage : c.arena.linkage = r.arena.linkage

namespace Resembles

theorem size (h : c.Resembles r) : c.arena.size = r.arena.size :=
  Arena.size_eq_of_linkage h.linkage

theorem isFree (h : c.Resembles r) {id : Nat} (hfree : c.IsFree id) : r.IsFree id := by
  rwa [IsFree, ← h.size, ← h.given]

/-- Nodes with the same links are both stored or both refused. -/
theorem push (h : c.Resembles r) (more : List (List Nat)) {m n : Node}
    (hfirst : m.firstChild = n.firstChild) (hnext : m.nextSibling = n.nextSibling) :
    (record c.given more (c.arena.push capacity m)).Resembles
      (record r.given more (r.arena.push capacity n)) := by
  by_cases hroom : c.arena.size < capacity
  · rw [Arena.push_of_lt hroom, Arena.push_of_lt (h.size ▸ hroom)]
    refine ⟨congrArg (· ++ more) h.given, ?_⟩
    show (Arena.mk _).linkage = (Arena.mk _).linkage
    rw [Arena.linkage_append, Arena.linkage_append, h.linkage, hfirst, hnext]
  · have hfull := Nat.le_of_not_lt hroom
    rw [Arena.push_of_le hfull, Arena.push_of_le (h.size ▸ hfull)]
    exact h

/-- What a parent says makes no difference. -/
theorem addLabelled (h : c.Resembles r) (label label' : Label) (children : List Nat) :
    (record c.given [children] (c.arena.addLabelled capacity label children)).Resembles
      (record r.given [children] (r.arena.addLabelled capacity label' children)) :=
  push (c := ⟨c.arena.chain children, c.given⟩) (r := ⟨r.arena.chain children, r.given⟩)
    ⟨h.given, Arena.linkage_chain h.linkage children⟩ [children] rfl rfl

theorem atomic (h : c.Resembles r) (kind : AtomicKind) (text : Bytes) :
    (c.perform capacity (.atomic kind text)).Resembles
      (r.perform capacity (.atomic kind text)) := by
  simp only [perform, Operation.run, Operation.given, Arena.addAtomic]
  split
  · exact h.push [[]] rfl rfl
  · exact h

theorem field (h : c.Resembles r) (name : Bytes) (type : Nat) (optional : Bool) :
    (c.perform capacity (.field name type optional)).Resembles
      (r.perform capacity (.field name type optional)) := by
  simp only [perform, Operation.run, Operation.given, Arena.addField]
  split
  · exact h.addLabelled _ _ [type]
  · exact h

theorem merge (h : c.Resembles r) {other other' : Construction} (hother : other.Resembles other') :
    (c.perform capacity (.merge other)).Resembles (r.perform capacity (.merge other')) := by
  simp only [perform, Operation.run, Operation.given]
  by_cases hroom : c.arena.size + other.arena.size ≤ capacity
  · rw [Arena.merge_of_le hroom, Arena.merge_of_le (h.size ▸ hother.size ▸ hroom)]
    refine ⟨?_, ?_⟩
    · simp only [record, h.given, hother.given, h.size]
    · simp only [record, Arena.linkage_beside, h.linkage, hother.linkage, h.size]
  · have hlarge := Nat.lt_of_not_le hroom
    rw [Arena.merge_of_lt hlarge, Arena.merge_of_lt (h.size ▸ hother.size ▸ hlarge)]
    exact h

end Resembles

/-- Were all parents unions, the links would be the same. -/
theorem Attained.exists_reachable (h : c.Attained capacity) :
    ∃ r : Construction, r.Reachable capacity ∧ c.Resembles r := by
  induction h with
  | empty => exact ⟨.empty, .empty, rfl, rfl⟩
  | @step c op _ hoffers _ ih ihother =>
    -- the same operation is done again, but for the sort of a parent
    obtain ⟨r, hr, hlike⟩ := ih
    have hfree : ∀ id ∈ op.children, r.IsFree id := fun id hid => hlike.isFree (hoffers.2 id hid)
    cases op with
    | atomic kind text =>
      have hallows : r.Allows (.atomic kind text) := trivial
      exact ⟨_, .step hr hallows (by rintro _ ⟨⟩), hlike.atomic kind text⟩
    | parent kind children =>
      -- unions take any number of children of any sort
      have hallows : r.Allows (.parent .union children) := ⟨by decide, hoffers.1, hfree⟩
      exact ⟨_, .step hr hallows (by rintro _ ⟨⟩), hlike.addLabelled _ _ children⟩
    | field name type optional =>
      have hallows : r.Allows (.field name type optional) := hfree type List.mem_cons_self
      exact ⟨_, .step hr hallows (by rintro _ ⟨⟩), hlike.field name type optional⟩
    | merge other =>
      obtain ⟨other', hother', hlikeOther⟩ := ihother other rfl
      have hallows : r.Allows (.merge other') := trivial
      exact ⟨_, .step hr hallows (by rintro _ ⟨⟩; exact hother'), hlike.merge hlikeOther⟩

/-- Each node is the root of a tree. -/
theorem Attained.exists_tree? (h : c.Attained capacity) {id : Nat} (hid : id < c.arena.size) :
    ∃ tree, c.arena.tree? id = some tree := by
  obtain ⟨r, hr, hlike⟩ := h.exists_reachable
  obtain ⟨_, hholds⟩ := hr.exists_tree (hlike.size ▸ hid)
  exact Arena.exists_tree?_of_linkage hlike.linkage.symm hholds.tree?_eq

end Construction

end TypeSig
