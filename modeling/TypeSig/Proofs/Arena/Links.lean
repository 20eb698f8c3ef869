/-
  TypeSig.Proofs.Arena.Links

  Chains of siblings by their ids alone. `Links` follows the links from a node to the
  last of its siblings, and `Node.LeadsTo` says that the links and the count of a
  node agree on which nodes are its children.

  A chain depends on nothing but the links of its own nodes (`Links.frame`), so it
  stays when other nodes are linked, as happens before a parent is stored or refused
  (`links_chain`), and when an arena is put behind another (`Links.beside`).
-/

import TypeSig.Proofs.Arena.Growth

namespace TypeSig

namespace Arena

variable {a b : Arena}

/-! ## Chains of siblings -/

/-- The links to the next sibling lead through the given nodes and end there. -/
inductive Links (a : Arena) : Option Nat → List Nat → Prop
  | nil : Links a none []
  | cons {id : Nat} {rest : List Nat} :
      Links a (a.nextSibling id) rest → Links a (some id) (id :: rest)

namespace Links

variable {start : Option Nat} {ids : List Nat}

/-- So many steps along a chain lead to its member at that place, and behind the last
    one nowhere. -/
theorem sibling_eq (h : a.Links start ids) : ∀ steps, a.sibling steps start = ids[steps]? := by
  induction h with
  | nil => intro steps; cases steps <;> rfl
  | @cons id rest _ ih =>
    intro steps
    cases steps with
    | zero => rfl
    | succ steps => rw [sibling, ih, List.getElem?_cons_succ]

/-- A chain stays when the links of its members stay. -/
theorem frame (h : a.Links start ids) (hab : ∀ k ∈ ids, b.nextSibling k = a.nextSibling k) :
    b.Links start ids := by
  induction h with
  | nil => exact .nil
  | @cons id rest _ ih =>
    refine .cons ?_
    rw [hab id List.mem_cons_self]
    exact ih fun k hk => hab k (List.mem_cons_of_mem _ hk)

end Links

/-- Linking nodes makes a chain of them. -/
theorem links_chain {ids : List Nat} (hd : ids.Nodup) (hlt : ∀ id ∈ ids, id < a.size) :
    (a.chain ids).Links ids.head? ids := by
  fun_induction chain a ids with
  | case1 => exact .nil
  | case2 a id =>
    refine .cons ?_
    rw [nextSibling_setNextSibling (hlt id List.mem_cons_self)]
    exact .nil
  | case3 a id next rest ih =>
    obtain ⟨hnot, hd⟩ := List.nodup_cons.1 hd
    obtain ⟨hid, hlt⟩ := List.forall_mem_cons.1 hlt
    -- the links among the others leave that of `id` alone
    have hnext : ((a.setNextSibling id (some next)).chain (next :: rest)).nextSibling id =
        some next := by
      rw [nextSibling, node?_chain hnot, ← nextSibling, nextSibling_setNextSibling hid]
    refine .cons ?_
    rw [hnext]
    exact ih hd (by simpa using hlt)

theorem nextSibling_chain {ids : List Nat} {k : Nat} (h : k ∉ ids) :
    (a.chain ids).nextSibling k = a.nextSibling k := by
  rw [nextSibling, node?_chain h, nextSibling]

theorem exists_node?_setNextSibling {k : Nat} {node : Node} (h : a.node? k = some node)
    (id : Nat) (next : Option Nat) :
    ∃ next', (a.setNextSibling id next).node? k = some { node with nextSibling := next' } := by
  by_cases hk : k = id
  · exact ⟨next, hk ▸ node?_setNextSibling_self (hk ▸ h) next⟩
  · exact ⟨node.nextSibling, by rw [node?_setNextSibling_ne hk, h]⟩

/-- Linking changes nothing of a node but its link to the next sibling. -/
theorem exists_node?_chain {k : Nat} {node : Node} (h : a.node? k = some node)
    (ids : List Nat) :
    ∃ next, (a.chain ids).node? k = some { node with nextSibling := next } := by
  induction ids generalizing a node with
  | nil => exact ⟨node.nextSibling, h⟩
  | cons id rest ih =>
    cases rest with
    | nil => exact exists_node?_setNextSibling h id none
    | cons next rest =>
      obtain ⟨_, hset⟩ := exists_node?_setNextSibling h id (some next)
      have hlinked := ih hset
      exact hlinked

theorem nextSibling_append_lt (node : Node) {k : Nat} (h : k < a.size) :
    (Arena.mk (a.nodes ++ [node])).nextSibling k = a.nextSibling k := by
  rw [nextSibling, node?_append_lt node h, nextSibling]

/-! ## One arena behind another -/

/-- The nodes of an arena, and behind them those of another. -/
def beside (a b : Arena) : Arena :=
  ⟨a.nodes ++ b.nodes.map (.shift a.size)⟩

@[simp] theorem size_beside (a b : Arena) : (a.beside b).size = a.size + b.size := by
  simp [beside, size]

theorem node?_beside_lt {k : Nat} (h : k < a.size) : (a.beside b).node? k = a.node? k :=
  List.getElem?_append_left h

theorem node?_beside_add (a b : Arena) (k : Nat) :
    (a.beside b).node? (k + a.size) = (b.node? k).map (.shift a.size) := by
  simp [beside, node?, size, List.getElem?_append_right (Nat.le_add_left _ k)]

theorem nextSibling_beside_lt {k : Nat} (h : k < a.size) :
    (a.beside b).nextSibling k = a.nextSibling k := by
  rw [nextSibling, node?_beside_lt h, nextSibling]

theorem nextSibling_beside_add (a b : Arena) (k : Nat) :
    (a.beside b).nextSibling (k + a.size) = (b.nextSibling k).map (· + a.size) := by
  rw [nextSibling, node?_beside_add, nextSibling]
  cases b.node? k <;> rfl

/-- A chain that lies in the second arena is a chain of the moved nodes. -/
theorem Links.beside {start : Option Nat} {ids : List Nat} (h : b.Links start ids) (a : Arena) :
    (a.beside b).Links (start.map (· + a.size)) (ids.map (· + a.size)) := by
  induction h with
  | nil => exact .nil
  | cons _ ih =>
    refine .cons ?_
    rw [nextSibling_beside_add]
    exact ih

end Arena

/-! ## The children of a node -/

/-- The links of a node lead through the given children, it counts as many, and there
    are none if it is atomic. -/
structure Node.LeadsTo (node : Node) (a : Arena) (children : List Nat) : Prop where
  links : a.Links node.firstChild children
  count : node.childCount = children.length
  leaf : node.isAtomic = true → children = []

namespace Node.LeadsTo

variable {node : Node} {a b : Arena} {children : List Nat}

/-- The children of a node stay when their links stay, whatever its own link says. -/
theorem frame (h : node.LeadsTo a children) (next : Option Nat)
    (hab : ∀ k ∈ children, b.nextSibling k = a.nextSibling k) :
    { node with nextSibling := next }.LeadsTo b children :=
  ⟨h.links.frame hab, h.count, h.leaf⟩

theorem beside (h : node.LeadsTo b children) (a : Arena) :
    (node.shift a.size).LeadsTo (a.beside b) (children.map (· + a.size)) :=
  ⟨h.links.beside a, by simpa [shift] using h.count, fun hleaf => by simp [h.leaf hleaf]⟩

end Node.LeadsTo

namespace Arena

variable {a : Arena}

/-- Roots of trees that are linked to each other are a chain of their trees. -/
theorem SpansEach.linked {start : Option Nat} {roots ids : List Nat} {trees : List TypeTree}
    (h : a.SpansEach roots trees ids) (hlinks : a.Links start roots) :
    a.SpansChain start trees ids := by
  induction h generalizing start with
  | nil =>
    cases hlinks with
    | nil => exact .nil
  | cons hs _ ih =>
    cases hlinks with
    | cons hrest => exact hs.toChain (ih hrest)

end Arena

end TypeSig
