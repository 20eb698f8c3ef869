/-
  TypeSig.Proofs.Arena.Forest

  Arenas that come out of the growing operations, in any order and number, refused
  ones included. A `Construction` is an arena with a record of which children each
  node was given; no operation reads the record, and callers owe no more than that
  children exist and are given away once.

  The links agree with the record after every step. They do so although a refused
  parent leaves links between its children behind: these are links of free nodes, and
  the record says nothing about those (`IsForest.relink`). What is below a node is
  then a tree, and no node is met twice in it, because a node has one parent and
  parents come later (`IsForest.exists_holds`).

  Main statements: `IsForest.perform` for a step, `Reachable.isForest` for a run, and
  `Reachable.links_children` for what they say about walks.
-/

import TypeSig.Proofs.Arena.Links
import TypeSig.Proofs.Arena.Parts
import Mathlib.Logic.Relation

namespace TypeSig

/-- An arena with a record of the children that each of its nodes was given. -/
structure Construction where
  arena : Arena
  given : List (List Nat)

/-- An operation that makes an arena grow. An arena is merged as it was built. -/
inductive Operation
  | atomic (kind : AtomicKind) (text : Bytes)
  | parent (kind : NodeKind) (children : List Nat)
  | field (name : Bytes) (type : Nat) (optional : Bool)
  | merge (other : Construction)

namespace Operation

/-- The arena that an operation leaves, and the id or the fault that it answers with. -/
def run (capacity : Nat) (arena : Arena) : Operation → Arena × Except Fault Nat
  | .atomic kind text => arena.addAtomic capacity kind text
  | .parent kind children => arena.addParent capacity kind children
  | .field name type optional => arena.addField capacity name type optional
  | .merge other => arena.merge capacity other.arena

/-- The children of the nodes that an operation stores behind so many others. -/
def given (size : Nat) : Operation → List (List Nat)
  | .atomic _ _ => [[]]
  | .parent _ children => [children]
  | .field _ type _ => [[type]]
  | .merge other => other.given.map (List.map (· + size))

end Operation

namespace Construction

/-! ## Running operations -/

/-- The arena without nodes. -/
def empty : Construction := ⟨.empty, []⟩

/-- A node that exists and has no parent. -/
def IsFree (c : Construction) (id : Nat) : Prop :=
  id < c.arena.size ∧ id ∉ c.given.flatten

instance (c : Construction) (id : Nat) : Decidable (c.IsFree id) :=
  inferInstanceAs (Decidable (_ ∧ _))

/-- What callers see to: children are distinct and free, and a parent that is stored as
    such is an object, an array or a union. -/
def Allows (c : Construction) : Operation → Prop
  | .atomic _ _ => True
  | .parent kind children =>
    kind ∈ [.object, .array, .union] ∧ children.Nodup ∧ ∀ id ∈ children, c.IsFree id
  | .field _ type _ => c.IsFree type
  | .merge _ => True

instance (c : Construction) : DecidablePred c.Allows
  | .atomic _ _ => inferInstanceAs (Decidable True)
  | .parent _ _ => inferInstanceAs (Decidable (_ ∧ _))
  | .field _ type _ => inferInstanceAs (Decidable (c.IsFree type))
  | .merge _ => inferInstanceAs (Decidable True)

/-- The arena that an operation left. New nodes are recorded; a refused operation stored
    none. -/
def record (given more : List (List Nat)) : Arena × Except Fault Nat → Construction
  | (arena, .ok _) => ⟨arena, given ++ more⟩
  | (arena, .error _) => ⟨arena, given⟩

/-- Performs an operation, and goes on with what it leaves also if it is refused. -/
def perform (capacity : Nat) (c : Construction) (op : Operation) : Construction :=
  record c.given (op.given c.arena.size) (op.run capacity c.arena)

/-- What finite sequences of operations make of the empty arena. Whatever is merged was
    built in the same way. -/
inductive Reachable (capacity : Nat) : Construction → Prop
  | empty : Reachable capacity .empty
  | step {c : Construction} {op : Operation} :
      Reachable capacity c → c.Allows op →
      (∀ other, op = .merge other → Reachable capacity other) →
      Reachable capacity (c.perform capacity op)

/-! ## Links and record agree -/

/-- The links of each node lead through the children that it was given. Children come
    before their parent, and no node was given away twice. -/
structure IsForest (capacity : Nat) (c : Construction) : Prop where
  size_le : c.arena.size ≤ capacity
  length : c.given.length = c.arena.size
  leads : ∀ (id : Nat) (children : List Nat), c.given[id]? = some children →
    ∃ node, c.arena.node? id = some node ∧ node.LeadsTo c.arena children
  lt : ∀ (id : Nat) (children : List Nat), c.given[id]? = some children →
    ∀ child ∈ children, child < id
  nodup : c.given.flatten.Nodup

namespace IsForest

variable {capacity : Nat} {c other : Construction}

theorem empty : Construction.empty.IsForest capacity where
  size_le := Nat.zero_le _
  length := rfl
  leads _ _ hgiven := by cases hgiven
  lt _ _ hgiven := by cases hgiven
  nodup := List.nodup_nil

theorem id_lt (h : c.IsForest capacity) {id : Nat} {children : List Nat}
    (hgiven : c.given[id]? = some children) : id < c.arena.size := by
  rw [← h.length]
  exact (List.getElem?_eq_some_iff.1 hgiven).1

theorem child_lt (h : c.IsForest capacity) : ∀ child ∈ c.given.flatten, child < c.arena.size := by
  intro child hchild
  obtain ⟨children, hchildren, hmem⟩ := List.mem_flatten.1 hchild
  obtain ⟨id, hgiven⟩ := List.mem_iff_getElem?.1 hchildren
  exact Nat.lt_trans (h.lt id children hgiven child hmem) (h.id_lt hgiven)

theorem exists_given (h : c.IsForest capacity) {id : Nat} (hid : id < c.arena.size) :
    ∃ children, c.given[id]? = some children :=
  ⟨_, List.getElem?_eq_getElem (by rwa [h.length])⟩

/-- Linking free nodes changes no children. -/
theorem relink (h : c.IsForest capacity) {ids : List Nat} (hfree : ∀ id ∈ ids, c.IsFree id) :
    IsForest capacity ⟨c.arena.chain ids, c.given⟩ where
  size_le := by simpa using h.size_le
  length := by simpa using h.length
  leads id children hgiven := by
    obtain ⟨node, hnode, hleads⟩ := h.leads id children hgiven
    obtain ⟨next, hlinked⟩ := Arena.exists_node?_chain hnode ids
    -- a child of `id` is not free, so its own link is not among those that are set
    have hkept : ∀ k ∈ children, (c.arena.chain ids).nextSibling k = c.arena.nextSibling k := by
      intro k hk
      refine Arena.nextSibling_chain fun hid => (hfree k hid).2 ?_
      exact List.mem_flatten.2 ⟨children, List.mem_of_getElem? hgiven, hk⟩
    exact ⟨_, hlinked, hleads.frame next hkept⟩
  lt := h.lt
  nodup := h.nodup

/-- Storing a node over free ones. -/
theorem store (h : c.IsForest capacity) (hroom : c.arena.size < capacity) {node : Node}
    {children : List Nat} (hleads : node.LeadsTo c.arena children) (hd : children.Nodup)
    (hfree : ∀ id ∈ children, c.IsFree id) :
    IsForest capacity ⟨⟨c.arena.nodes ++ [node]⟩, c.given ++ [children]⟩ := by
  -- each node is an earlier one or the new one
  have hcases : ∀ (id : Nat) (cs : List Nat), (c.given ++ [children])[id]? = some cs →
      c.given[id]? = some cs ∨ id = c.arena.size ∧ cs = children := by
    intro id cs hgiven
    rw [← h.length]
    rcases Nat.lt_or_ge id c.given.length with hid | hid
    · exact Or.inl (by rwa [List.getElem?_append_left hid] at hgiven)
    · rw [List.getElem?_append_right hid, List.getElem?_singleton] at hgiven
      split at hgiven
      · exact Or.inr ⟨by omega, (Option.some.inj hgiven).symm⟩
      · cases hgiven
  -- no chain reaches the new node
  have hkept : ∀ k < c.arena.size, (Arena.mk (c.arena.nodes ++ [node])).nextSibling k =
      c.arena.nextSibling k := fun k hk => Arena.nextSibling_append_lt node hk
  refine ⟨?_, ?_, fun id cs hgiven => ?_, fun id cs hgiven child hchild => ?_, ?_⟩
  · rw [Arena.size_append]
    exact hroom
  · simp [Arena.size_append, h.length]
  · rcases hcases id cs hgiven with hold | ⟨rfl, rfl⟩
    · obtain ⟨old, hnode, hold'⟩ := h.leads id cs hold
      refine ⟨old, by rw [Arena.node?_append_lt node (h.id_lt hold), hnode], ?_⟩
      refine hold'.frame old.nextSibling fun k hk => hkept k ?_
      exact Nat.lt_trans (h.lt id cs hold k hk) (h.id_lt hold)
    · refine ⟨node, Arena.node?_append_self c.arena node, ?_⟩
      exact hleads.frame node.nextSibling fun k hk => hkept k (hfree k hk).1
  · rcases hcases id cs hgiven with hold | ⟨rfl, rfl⟩
    · exact h.lt id cs hold child hchild
    · exact (hfree child hchild).1
  · rw [List.flatten_append, List.flatten_singleton]
    refine List.nodup_append'.2 ⟨h.nodup, hd, fun k hk hk' => (hfree k hk').2 hk⟩

/-- Putting the nodes of another forest behind. -/
theorem beside (h : c.IsForest capacity) (h' : other.IsForest capacity)
    (hroom : c.arena.size + other.arena.size ≤ capacity) :
    IsForest capacity ⟨c.arena.beside other.arena,
      c.given ++ other.given.map (List.map (· + c.arena.size))⟩ := by
  -- each node is an earlier one or a moved one
  have hcases : ∀ (id : Nat) (cs : List Nat),
      (c.given ++ other.given.map (List.map (· + c.arena.size)))[id]? = some cs →
      c.given[id]? = some cs ∨ ∃ k ks, other.given[k]? = some ks ∧ id = k + c.arena.size ∧
        cs = ks.map (· + c.arena.size) := by
    intro id cs hgiven
    rcases Nat.lt_or_ge id c.given.length with hid | hid
    · exact Or.inl (by rwa [List.getElem?_append_left hid] at hgiven)
    · rw [List.getElem?_append_right hid, List.getElem?_map, h.length] at hgiven
      obtain ⟨ks, hks, rfl⟩ := Option.map_eq_some_iff.1 hgiven
      exact Or.inr ⟨_, ks, hks, (Nat.sub_add_cancel (by rwa [← h.length])).symm, rfl⟩
  refine ⟨by simpa using hroom, by simp [h.length, h'.length], fun id cs hgiven => ?_,
    fun id cs hgiven child hchild => ?_, ?_⟩
  · rcases hcases id cs hgiven with hold | ⟨k, ks, hmoved, rfl, rfl⟩
    · obtain ⟨node, hnode, hleads⟩ := h.leads id cs hold
      refine ⟨node, by rw [Arena.node?_beside_lt (h.id_lt hold), hnode], ?_⟩
      refine hleads.frame node.nextSibling fun k hk => Arena.nextSibling_beside_lt ?_
      exact Nat.lt_trans (h.lt id cs hold k hk) (h.id_lt hold)
    · obtain ⟨node, hnode, hleads⟩ := h'.leads k ks hmoved
      exact ⟨node.shift c.arena.size, by rw [Arena.node?_beside_add, hnode]; rfl,
        hleads.beside c.arena⟩
  · rcases hcases id cs hgiven with hold | ⟨k, ks, hmoved, rfl, rfl⟩
    · exact h.lt id cs hold child hchild
    · obtain ⟨below, hbelow, rfl⟩ := List.mem_map.1 hchild
      exact Nat.add_lt_add_right (h'.lt k ks hmoved below hbelow) _
  · rw [List.flatten_append, ← List.map_flatten]
    refine List.nodup_append'.2 ⟨h.nodup, ?_, fun k hk hk' => ?_⟩
    · exact h'.nodup.map fun _ _ => Nat.add_right_cancel
    · obtain ⟨below, -, rfl⟩ := List.mem_map.1 hk'
      exact absurd (h.child_lt _ hk) (Nat.not_lt.2 (Nat.le_add_left _ _))

/-! ## Steps and runs -/

/-- A push is refused in a full arena, and leaves that as it is. -/
theorem push (h : c.IsForest capacity) {node : Node} {children : List Nat}
    (hleads : node.LeadsTo c.arena children) (hd : children.Nodup)
    (hfree : ∀ id ∈ children, c.IsFree id) :
    (record c.given [children] (c.arena.push capacity node)).IsForest capacity := by
  by_cases hroom : c.arena.size < capacity
  · rw [Arena.push_of_lt hroom]
    exact h.store hroom hleads hd hfree
  · rw [Arena.push_of_le (Nat.le_of_not_lt hroom)]
    exact h

/-- A parent is linked to free children before it is stored or refused. -/
theorem addLabelled (h : c.IsForest capacity) {label : Label} (hlabel : label.kind ≠ .atomic)
    {children : List Nat} (hd : children.Nodup) (hfree : ∀ id ∈ children, c.IsFree id) :
    (record c.given [children] (c.arena.addLabelled capacity label children)).IsForest
      capacity := by
  have hleads : Node.LeadsTo ⟨label, children.head?, none, children.length⟩
      (c.arena.chain children) children :=
    ⟨Arena.links_chain hd fun id hid => (hfree id hid).1, rfl,
      fun hatomic => by simp [Node.isAtomic, hlabel] at hatomic⟩
  refine (h.relink hfree).push hleads hd fun id hid => ?_
  exact ⟨by simpa using (hfree id hid).1, (hfree id hid).2⟩

/-- Every operation that is allowed keeps links and record in agreement, whether it is
    refused or not. -/
theorem perform (h : c.IsForest capacity) {op : Operation} (hallows : c.Allows op)
    (hother : ∀ other, op = .merge other → other.IsForest capacity) :
    (c.perform capacity op).IsForest capacity := by
  cases op with
  | atomic kind text =>
    simp only [Construction.perform, Operation.run, Operation.given, Arena.addAtomic]
    split
    · exact h.push ⟨.nil, rfl, fun _ => rfl⟩ List.nodup_nil (List.forall_mem_nil _)
    · exact h
  | parent kind children =>
    obtain ⟨hkind, hd, hfree⟩ := hallows
    refine h.addLabelled ?_ hd hfree
    rintro hatomic
    simp only [Label.kind_blank] at hatomic
    simp [hatomic] at hkind
  | field name type optional =>
    simp only [Construction.perform, Operation.run, Operation.given, Arena.addField]
    have hlabel : (Label.field (stored name) optional).kind ≠ .atomic := by simp [Label.kind]
    split
    · exact h.addLabelled hlabel (List.nodup_singleton _) (List.forall_mem_singleton.2 hallows)
    · exact h
  | merge other =>
    simp only [Construction.perform, Operation.run, Operation.given, Arena.merge]
    split
    · next hroom => exact h.beside (hother other rfl) hroom
    · exact h

end IsForest

theorem Reachable.isForest {capacity : Nat} {c : Construction} (h : c.Reachable capacity) :
    c.IsForest capacity := by
  induction h with
  | empty => exact .empty
  | step _ hallows _ ih ihother => exact ih.perform hallows ihother

/-! ## What is below a node -/

/-- A node was given to another as a child. -/
def ChildOf (c : Construction) (child parent : Nat) : Prop :=
  ∃ children, c.given[parent]? = some children ∧ child ∈ children

/-- A node stands below another, at any depth, or is that node. -/
def Below (c : Construction) : Nat → Nat → Prop :=
  Relation.ReflTransGen c.ChildOf

namespace IsForest

variable {capacity : Nat} {c : Construction}

theorem disjoint (h : c.IsForest capacity) {id other : Nat} {children others : List Nat}
    (hid : c.given[id]? = some children) (hother : c.given[other]? = some others)
    (hne : other ≠ id) : children.Disjoint others := by
  obtain ⟨hlt, rfl⟩ := List.getElem?_eq_some_iff.1 hid
  obtain ⟨hlt', rfl⟩ := List.getElem?_eq_some_iff.1 hother
  have hpairwise := List.pairwise_iff_getElem.1 (List.nodup_flatten.1 h.nodup).2
  rcases Nat.lt_or_gt_of_ne hne with hless | hmore
  · exact (hpairwise other id hlt' hlt hless).symm
  · exact hpairwise id other hlt hlt' hmore

theorem nodup_children (h : c.IsForest capacity) {id : Nat} {children : List Nat}
    (hgiven : c.given[id]? = some children) : children.Nodup :=
  (List.nodup_flatten.1 h.nodup).1 children (List.mem_of_getElem? hgiven)

/-- A node has at most one parent. -/
theorem parent_unique (h : c.IsForest capacity) : Relator.RightUnique c.ChildOf := by
  rintro child parent other ⟨children, hgiven, hchild⟩ ⟨others, hother, hmem⟩
  by_contra hne
  exact h.disjoint hgiven hother (Ne.symm hne) hchild hmem

theorem lt_of_childOf (h : c.IsForest capacity) {child parent : Nat}
    (hchild : c.ChildOf child parent) : child < parent := by
  obtain ⟨children, hgiven, hmem⟩ := hchild
  exact h.lt parent children hgiven child hmem

theorem le_of_below (h : c.IsForest capacity) {k id : Nat} (hbelow : c.Below k id) : k ≤ id := by
  induction hbelow with
  | refl => exact Nat.le_refl k
  | tail _ hchild ih => exact Nat.le_trans ih (Nat.le_of_lt (h.lt_of_childOf hchild))

/-- No child of a node stands below another of its children: their parent would stand
    between them. -/
theorem eq_of_below_sibling (h : c.IsForest capacity) {x y parent : Nat}
    (hx : c.ChildOf x parent) (hy : c.ChildOf y parent) (hbelow : c.Below x y) : x = y := by
  rcases hbelow.cases_head with heq | ⟨next, hnext, hrest⟩
  · exact heq
  · obtain rfl := h.parent_unique hx hnext
    exact absurd (h.lt_of_childOf hy) (Nat.not_lt.2 (h.le_of_below hrest))

/-- No node stands below two children of a node. -/
theorem eq_of_below (h : c.IsForest capacity) {k x y parent : Nat} (hx : c.ChildOf x parent)
    (hy : c.ChildOf y parent) (hkx : c.Below k x) (hky : c.Below k y) : x = y := by
  -- of two nodes above `k` one is above the other
  rcases Relation.ReflTransGen.total_of_right_unique h.parent_unique hkx hky with hxy | hyx
  · exact h.eq_of_below_sibling hx hy hxy
  · exact (h.eq_of_below_sibling hy hx hyx).symm

/-- A node is the root of a tree whose nodes stand below it and are met once each. -/
def Rooted (c : Construction) (id : Nat) : Prop :=
  ∃ tree ids, c.arena.Spans id tree ids ∧ ids.Nodup ∧ ∀ k ∈ ids, c.Below k id

/-- Children of one node that are roots of trees have no node in common. -/
theorem exists_spansEach (h : c.IsForest capacity) {parent : Nat} {roots : List Nat}
    (hroots : ∀ root ∈ roots, c.ChildOf root parent) (hd : roots.Nodup)
    (hrooted : ∀ root ∈ roots, Rooted c root) :
    ∃ trees ids, c.arena.SpansEach roots trees ids ∧ ids.Nodup ∧
      ∀ k ∈ ids, ∃ root ∈ roots, c.Below k root := by
  induction roots with
  | nil => exact ⟨[], [], .nil, List.nodup_nil, List.forall_mem_nil _⟩
  | cons root rest ih =>
    obtain ⟨hroot, hrest⟩ := List.forall_mem_cons.1 hroots
    obtain ⟨hnot, hd⟩ := List.nodup_cons.1 hd
    obtain ⟨⟨tree, ids, hspans, hids, hbelow⟩, hrooted⟩ := List.forall_mem_cons.1 hrooted
    obtain ⟨trees, more, heach, hmore, hbelowRest⟩ := ih hrest hd hrooted
    refine ⟨tree :: trees, ids ++ more, .cons hspans heach, ?_, ?_⟩
    · refine List.nodup_append'.2 ⟨hids, hmore, fun k hk hk' => ?_⟩
      obtain ⟨other, hother, hkother⟩ := hbelowRest k hk'
      obtain rfl := h.eq_of_below hroot (hrest other hother) (hbelow k hk) hkother
      exact hnot hother
    · intro k hk
      rcases List.mem_append.1 hk with hk | hk
      · exact ⟨root, List.mem_cons_self, hbelow k hk⟩
      · obtain ⟨other, hother, hkother⟩ := hbelowRest k hk
        exact ⟨other, List.mem_cons_of_mem _ hother, hkother⟩

/-- A node is the root of a tree if its children are. -/
theorem rooted_of_children (h : c.IsForest capacity) {id : Nat} {children : List Nat}
    (hgiven : c.given[id]? = some children) (hrooted : ∀ child ∈ children, Rooted c child) :
    ∃ node trees ids, c.arena.node? id = some node ∧ c.arena.SpansEach children trees ids ∧
      c.arena.Spans id (.node node.label trees) (id :: ids) ∧ (id :: ids).Nodup ∧
      ∀ k ∈ id :: ids, c.Below k id := by
  obtain ⟨node, hnode, hleads⟩ := h.leads id children hgiven
  have hchildren : ∀ child ∈ children, c.ChildOf child id :=
    fun child hchild => ⟨children, hgiven, hchild⟩
  obtain ⟨trees, ids, heach, hd, hbelow⟩ :=
    h.exists_spansEach hchildren (h.nodup_children hgiven) hrooted
  have hlength := heach.length_eq
  have hcounts : node.Counts trees := by
    refine ⟨hleads.count.trans hlength, fun hatomic => ?_⟩
    rw [hleads.leaf hatomic] at hlength
    exact List.length_eq_zero_iff.1 hlength.symm
  refine ⟨node, trees, ids, hnode, heach, .intro hnode hcounts (heach.linked hleads.links),
    List.nodup_cons.2 ⟨fun hid => ?_, hd⟩, fun k hk => ?_⟩
  · obtain ⟨child, hchild, hle⟩ := hbelow id hid
    exact absurd (h.le_of_below hle) (Nat.not_le.2 (h.lt_of_childOf (hchildren child hchild)))
  · rcases List.mem_cons.1 hk with rfl | hk
    · exact .refl
    · obtain ⟨child, hchild, hkchild⟩ := hbelow k hk
      exact hkchild.tail (hchildren child hchild)

/-- Each node is the root of a tree: its children are, since they come before it. -/
theorem rooted (h : c.IsForest capacity) {id : Nat} (hid : id < c.arena.size) :
    Rooted c id := by
  induction id using Nat.strong_induction_on with
  | _ id ih =>
    obtain ⟨children, hgiven⟩ := h.exists_given hid
    have hchildren : ∀ child ∈ children, Rooted c child := by
      intro child hchild
      have hlt := h.lt id children hgiven child hchild
      exact ih child hlt (Nat.lt_trans hlt hid)
    obtain ⟨node, trees, ids, -, -, hspans, hd, hbelow⟩ := h.rooted_of_children hgiven hchildren
    exact ⟨_, _, hspans, hd, hbelow⟩

end IsForest

/-- Each node holds a tree, whose parts are what the children that it was given hold. -/
theorem Reachable.exists_holds {capacity : Nat} {c : Construction} (h : c.Reachable capacity)
    {id : Nat} {children : List Nat} (hgiven : c.given[id]? = some children) :
    ∃ node trees ids, c.arena.node? id = some node ∧ c.arena.SpansEach children trees ids ∧
      c.arena.Holds id (.node node.label trees) := by
  have hforest := h.isForest
  have hrooted : ∀ child ∈ children, IsForest.Rooted c child := fun child hchild =>
    hforest.rooted (Nat.lt_trans (hforest.lt id children hgiven child hchild)
      (hforest.id_lt hgiven))
  obtain ⟨node, trees, ids, hnode, heach, hspans, hd, -⟩ :=
    hforest.rooted_of_children hgiven hrooted
  exact ⟨node, trees, ids, hnode, heach, _, hspans, hd⟩

/-- After every step of a construction, the arena is within its capacity, and following
    the first child of a node and then the next siblings meets exactly the children that
    the node was given, in their order, as many as it counts, and ends there. Children
    come before their parent and have no other one. So the child at an index exists if
    the index is below the count, and the walk through everything below a node ends and
    meets no node twice. -/
theorem Reachable.links_children {capacity : Nat} {c : Construction} (h : c.Reachable capacity) :
    c.arena.size ≤ capacity ∧ c.given.length = c.arena.size ∧
    ∀ (id : Nat) (children : List Nat), c.given[id]? = some children →
      (∀ steps, c.arena.sibling steps (c.arena.firstChild id) = children[steps]?) ∧
      (∃ node, c.arena.node? id = some node ∧ node.childCount = children.length ∧
        ∀ index : Int, 0 ≤ index →
          ((c.arena.child id index).isSome = true ↔ index < node.childCount)) ∧
      children.Nodup ∧ (∀ child ∈ children, child < id) ∧
      (∀ (other : Nat) (others : List Nat), c.given[other]? = some others → other ≠ id →
        children.Disjoint others) ∧
      ∃ tree, c.arena.Holds id tree ∧ c.arena.tree? id = some tree := by
  have hforest := h.isForest
  refine ⟨hforest.size_le, hforest.length, fun id children hgiven => ?_⟩
  obtain ⟨node, hnode, hleads⟩ := hforest.leads id children hgiven
  have hsteps : ∀ steps, c.arena.sibling steps (c.arena.firstChild id) = children[steps]? := by
    rw [Arena.firstChild, hnode, Option.bind_some]
    exact hleads.links.sibling_eq
  refine ⟨hsteps, ⟨node, hnode, hleads.count, fun index hindex => ?_⟩,
    hforest.nodup_children hgiven, hforest.lt id children hgiven,
    fun other others hother hne => hforest.disjoint hgiven hother hne, ?_⟩
  · obtain ⟨steps, rfl⟩ := Int.eq_ofNat_of_zero_le hindex
    rw [Arena.child, Int.toNat_natCast, hsteps, hleads.count, Int.ofNat_lt]
    simp
  · obtain ⟨_, trees, _, -, -, hholds⟩ := h.exists_holds hgiven
    exact ⟨_, hholds, hholds.tree?_eq⟩

theorem Reachable.links_children_sample :
    ∃ c : Construction, c.Reachable 4 ∧ c.given = [[], [], [1], []] ∧
      c.arena.nextSibling 3 = some 2 ∧ c.arena.size ≤ 4 ∧
      ∀ steps, c.arena.sibling steps (c.arena.firstChild 2) = [1][steps]? := by
  let number := Construction.empty.perform 4 (.atomic .number [])
  let merged := Construction.empty.perform 4 (.merge number)
  let both := merged.perform 4 (.atomic .stringLiteral (ascii "a"))
  let array := both.perform 4 (.parent .array [1])
  let full := array.perform 4 (.atomic .string [])
  have hnumber : number.Reachable 4 := .step .empty trivial nofun
  have hmerged : merged.Reachable 4 := .step .empty trivial (by rintro other ⟨⟩; exact hnumber)
  have hboth : both.Reachable 4 := .step hmerged trivial nofun
  have harray : array.Reachable 4 := .step hboth (by decide) nofun
  have hfull : full.Reachable 4 := .step harray trivial nofun
  -- there is no room for the union, but its cases were linked
  have hrefused : (full.perform 4 (.parent .union [3, 2])).Reachable 4 :=
    .step hfull (by decide) nofun
  have hlinks := hrefused.links_children
  exact ⟨_, hrefused, by decide, by decide, hlinks.1, (hlinks.2.2 2 [1] (by decide)).1⟩

end Construction

end TypeSig
