/-
  TypeSig.Proofs.Arena.Growth

  What the growing operations do to the trees that an arena holds. Linking roots
  into a chain changes nothing below them, so a parent that is stored over roots
  holds their trees, in order, as its children.

  `Grows` says how an arena came out of a smaller one: the nodes that were there
  are as they were, a given number was added, and some of those are roots of
  given trees with no node in common. Steps of growth add up (`Grows.append`),
  and storing a parent over the new roots is one step more (`Grows.parent`).
-/

import TypeSig.Proofs.Arena.Spans
import Mathlib.Data.List.Nodup

namespace TypeSig.Arena

variable {a b c : Arena}

/-! ## Trees do not depend on nodes outside them -/

/-- A chain stays when its nodes stay. -/
theorem SpansChain.frame {start : Option Nat} {trees : List TypeTree} {ids : List Nat}
    (h : a.SpansChain start trees ids) (hab : ∀ k ∈ ids, b.node? k = a.node? k) :
    b.SpansChain start trees ids := by
  induction h with
  | nil => exact .nil
  | cons hn hcount _ _ ihc ihr =>
    refine .cons ?_ hcount (ihc ?_) (ihr ?_)
    · rw [hab _ List.mem_cons_self, hn]
    · exact fun k hk => hab k (List.mem_cons_of_mem _ (List.mem_append_left _ hk))
    · exact fun k hk => hab k (List.mem_cons_of_mem _ (List.mem_append_right _ hk))

/-- A tree stays when its inner nodes stay and its root keeps all but the link to
    its next sibling. -/
theorem Spans.frame {id : Nat} {tree : TypeTree} {ids : List Nat} (h : a.Spans id tree ids)
    (hd : ids.Nodup)
    (hroot : ∀ node, a.node? id = some node →
      ∃ next, b.node? id = some { node with nextSibling := next })
    (hinner : ∀ k ∈ ids, k ≠ id → b.node? k = a.node? k) :
    b.Spans id tree ids := by
  cases h with
  | @intro node children ids hn hcount hc =>
    -- the root is the same node but for its link, which `Spans` does not read
    obtain ⟨next, hb⟩ := hroot node hn
    have hnot : id ∉ ids := (List.nodup_cons.1 hd).1
    have hinner' : ∀ k ∈ ids, b.node? k = a.node? k := by
      intro k hk
      exact hinner k (List.mem_cons_of_mem _ hk) fun e => hnot (e ▸ hk)
    exact @Spans.intro b id { node with nextSibling := next } children ids hb
      ⟨hcount.count, hcount.leaf⟩ (hc.frame hinner')

/-- A tree stays when its nodes stay. -/
theorem Spans.frame_all {id : Nat} {tree : TypeTree} {ids : List Nat} (h : a.Spans id tree ids)
    (hab : ∀ k ∈ ids, b.node? k = a.node? k) : b.Spans id tree ids := by
  cases h with
  | intro hn hcount hc =>
    refine .intro ?_ hcount (hc.frame fun k hk => hab k (List.mem_cons_of_mem _ hk))
    rw [hab _ List.mem_cons_self, hn]

namespace SpansEach

variable {roots roots' ids ids' : List Nat} {trees trees' : List TypeTree}

theorem frame (h : a.SpansEach roots trees ids) (hab : ∀ k ∈ ids, b.node? k = a.node? k) :
    b.SpansEach roots trees ids := by
  induction h with
  | nil => exact .nil
  | cons hs _ ih =>
    refine .cons (hs.frame_all fun k hk => ?_) (ih fun k hk => ?_)
    · exact hab k (List.mem_append_left _ hk)
    · exact hab k (List.mem_append_right _ hk)

theorem append (h : a.SpansEach roots trees ids) (h' : a.SpansEach roots' trees' ids') :
    a.SpansEach (roots ++ roots') (trees ++ trees') (ids ++ ids') := by
  induction h with
  | nil => simpa using h'
  | cons hs _ ih => simpa [List.append_assoc] using SpansEach.cons hs ih

theorem single {id : Nat} {tree : TypeTree} (h : a.Spans id tree ids) :
    a.SpansEach [id] [tree] ids := by
  simpa using SpansEach.cons h .nil

theorem roots_subset (h : a.SpansEach roots trees ids) : ∀ k ∈ roots, k ∈ ids := by
  induction h with
  | nil => simp
  | cons hs _ ih =>
    intro k hk
    rcases List.mem_cons.1 hk with rfl | hk
    · exact List.mem_append_left _ hs.root_mem
    · exact List.mem_append_right _ (ih k hk)

theorem lt (h : a.SpansEach roots trees ids) : ∀ k ∈ ids, k < a.size := by
  induction h with
  | nil => simp
  | cons hs _ ih =>
    intro k hk
    rcases List.mem_append.1 hk with hk | hk
    · exact hs.lt k hk
    · exact ih k hk

theorem length_eq (h : a.SpansEach roots trees ids) : roots.length = trees.length := by
  induction h with
  | nil => rfl
  | cons _ _ ih => simp [ih]

/-- Looking for a tree among the roots finds it exactly when it is among the trees. -/
theorem any_sameTree {new : Nat} {tree : TypeTree} {ids' : List Nat}
    (h : a.SpansEach roots trees ids) (hnew : a.Spans new tree ids') :
    roots.any (fun old => a.sameTree old a new) = true ↔ tree ∈ trees := by
  induction h with
  | nil => simp
  | cons hs _ ih =>
    have hfirst := sameTree_iff hs hnew
    rw [List.any_cons, Bool.or_eq_true, hfirst, ih, List.mem_cons, eq_comm]

end SpansEach

/-! ## Linking -/

theorem node?_setNextSibling_self {id : Nat} {node : Node} (h : a.node? id = some node)
    (next : Option Nat) :
    (a.setNextSibling id next).node? id = some { node with nextSibling := next } := by
  simp only [node?] at h
  simp [setNextSibling, node?, h]

theorem node?_setNextSibling_ne {id k : Nat} (h : k ≠ id) (next : Option Nat) :
    (a.setNextSibling id next).node? k = a.node? k := by
  simp [setNextSibling, node?, h.symm]

theorem nextSibling_setNextSibling {id : Nat} (h : id < a.size) (next : Option Nat) :
    (a.setNextSibling id next).nextSibling id = next := by
  have hn : a.node? id = some a.nodes[id] := List.getElem?_eq_getElem h
  simp [nextSibling, node?_setNextSibling_self hn]

/-- Linking touches no node but the linked ones. -/
theorem node?_chain {roots : List Nat} {k : Nat} (h : k ∉ roots) :
    (a.chain roots).node? k = a.node? k := by
  fun_induction chain a roots with
  | case1 => rfl
  | case2 a id => exact node?_setNextSibling_ne (by simpa using h) none
  | case3 a id next rest ih =>
    rw [ih fun hk => h (List.mem_cons_of_mem _ hk)]
    exact node?_setNextSibling_ne (List.ne_of_not_mem_cons h) _

/-- The link to the next sibling is no part of a tree. -/
theorem Spans.setNextSibling {id : Nat} {tree : TypeTree} {ids : List Nat}
    (h : a.Spans id tree ids) (hd : ids.Nodup) (next : Option Nat) :
    (a.setNextSibling id next).Spans id tree ids := by
  refine h.frame hd ?_ fun k _ hk => node?_setNextSibling_ne hk next
  exact fun node hn => ⟨next, node?_setNextSibling_self hn next⟩

/-- A root and the chain that its next sibling begins are a chain. -/
theorem Spans.toChain {id : Nat} {tree : TypeTree} {rest : List TypeTree} {ids more : List Nat}
    (h : a.Spans id tree ids) (hr : a.SpansChain (a.nextSibling id) rest more) :
    a.SpansChain (some id) (tree :: rest) (ids ++ more) := by
  cases h with
  | intro hn hcount hc =>
    rw [nextSibling, hn, Option.bind_some] at hr
    exact .cons hn hcount hc hr

/-- Linking roots makes a chain of their trees. -/
theorem SpansEach.chain {roots : List Nat} {trees : List TypeTree} {ids : List Nat}
    (h : a.SpansEach roots trees ids) (hd : ids.Nodup) :
    (a.chain roots).SpansChain roots.head? trees ids := by
  induction roots generalizing a trees ids with
  | nil =>
    cases h with
    | nil => exact .nil
  | cons id roots ih =>
    cases h with
    | @cons _ _ tree trees ids more hs hrest =>
      have hdisj := List.nodup_append'.1 hd
      cases roots with
      | nil =>
        refine (hs.setNextSibling hdisj.1 none).toChain ?_
        rw [nextSibling_setNextSibling (hs.lt id hs.root_mem)]
        cases hrest with
        | nil => exact .nil
      | cons next roots =>
        -- first the link from `id`, then all links among the others
        have hnot : id ∉ more := fun hk => hdisj.2.2 hs.root_mem hk
        have hlater : ∀ k ∈ ids, k ∉ next :: roots := fun k hk hr =>
          hdisj.2.2 hk (hrest.roots_subset k hr)
        have hothers : (a.setNextSibling id (some next)).SpansEach (next :: roots) trees more :=
          hrest.frame fun k hk => node?_setNextSibling_ne (ne_of_mem_of_not_mem hk hnot) _
        have hlinked := ih hothers hdisj.2.1
        have hself := (hs.setNextSibling hdisj.1 (some next)).frame_all
          (b := (a.setNextSibling id (some next)).chain (next :: roots))
          fun k hk => node?_chain (hlater k hk)
        refine hself.toChain ?_
        rw [nextSibling, node?_chain (hlater id hs.root_mem), ← nextSibling,
          nextSibling_setNextSibling (hs.lt id hs.root_mem)]
        exact hlinked

/-! ## Storing -/

theorem size_append (a : Arena) (node : Node) :
    (Arena.mk (a.nodes ++ [node])).size = a.size + 1 := by
  simp [size]

theorem node?_append_lt (node : Node) {k : Nat} (h : k < a.size) :
    (Arena.mk (a.nodes ++ [node])).node? k = a.node? k :=
  List.getElem?_append_left h

theorem node?_append_self (a : Arena) (node : Node) :
    (Arena.mk (a.nodes ++ [node])).node? a.size = some node := by
  simp [node?, size]

theorem push_of_lt {capacity : Nat} (h : a.size < capacity) (node : Node) :
    a.push capacity node = (⟨a.nodes ++ [node]⟩, .ok a.size) := by
  simp [push, isFull, Nat.not_le.2 h]

theorem push_of_le {capacity : Nat} (h : capacity ≤ a.size) (node : Node) :
    a.push capacity node = (a, .error .arenaFull) := by
  simp [push, isFull, h]

/-- A parent is refused only where there is no room. -/
theorem addLabelled_of_lt {capacity : Nat} {label : Label} {children : List Nat}
    (h : a.size < capacity) : (a.addLabelled capacity label children).2 = .ok a.size := by
  rw [addLabelled, push_of_lt (by rwa [size_chain]), size_chain]

theorem addLabelled_of_le {capacity : Nat} {label : Label} {children : List Nat}
    (h : capacity ≤ a.size) : (a.addLabelled capacity label children).2 = .error .arenaFull := by
  rw [addLabelled, push_of_le (by rwa [size_chain])]

theorem addField_of_lt {capacity type : Nat} {name : Bytes} {optional : Bool}
    (h : a.size < capacity) (hname : name.length ≤ nameLimit) :
    (a.addField capacity name type optional).2 = .ok a.size := by
  rw [addField, if_pos hname]
  exact addLabelled_of_lt h

theorem addAtomic_of_lt {capacity : Nat} {kind : AtomicKind} {text : Bytes}
    (h : a.size < capacity) (htext : text.length ≤ nameLimit) :
    (a.addAtomic capacity kind text).2 = .ok a.size := by
  rw [addAtomic, if_pos htext, push_of_lt h]

/-- Storing a parent over roots that have no node in common puts their trees under
    it. No node changes but the roots. -/
theorem SpansEach.addLabelled {roots ids : List Nat} {trees : List TypeTree} {label : Label}
    {capacity : Nat} (h : a.SpansEach roots trees ids) (hd : ids.Nodup)
    (hroom : a.size < capacity) (hlabel : label.kind ≠ .atomic) :
    ∃ b, a.addLabelled capacity label roots = (b, .ok a.size) ∧ b.size = a.size + 1 ∧
      b.Spans a.size (.node label trees) (a.size :: ids) ∧
      ∀ k < a.size, k ∉ roots → b.node? k = a.node? k := by
  -- the new node lies behind the linked roots, and nothing is linked to it
  let node : Node := ⟨label, roots.head?, none, roots.length⟩
  have hsize : (a.chain roots).size = a.size := size_chain a roots
  have hpush := push_of_lt (a := a.chain roots) (by rwa [hsize]) node
  have hself := node?_append_self (a.chain roots) node
  have hold : ∀ k < a.size,
      (Arena.mk ((a.chain roots).nodes ++ [node])).node? k = (a.chain roots).node? k :=
    fun k hk => node?_append_lt node (by rwa [hsize])
  rw [hsize] at hpush hself
  refine ⟨_, hpush, by rw [size_append, hsize], ?_, fun k hk hr => ?_⟩
  · refine @Spans.intro _ _ node trees ids hself ⟨h.length_eq, ?_⟩
      ((h.chain hd).frame fun k hk => hold k (h.lt k hk))
    intro hatomic
    simp [node, Node.isAtomic, hlabel] at hatomic
  · rw [hold k hk, node?_chain hr]

/-! ## Growth -/

/-- The second arena is the first with so many nodes more, and among these are
    roots of the given trees, which have no node in common. -/
structure Grows (a b : Arena) (cost : Nat) (roots : List Nat) (trees : List TypeTree) : Prop where
  size : b.size = a.size + cost
  keeps : ∀ k < a.size, b.node? k = a.node? k
  spans : ∃ ids, b.SpansEach roots trees ids ∧ ids.Nodup ∧ ∀ k ∈ ids, a.size ≤ k

namespace Grows

variable {cost more : Nat} {roots roots' : List Nat} {trees trees' : List TypeTree}

theorem refl (a : Arena) : a.Grows a 0 [] [] where
  size := rfl
  keeps _ _ := rfl
  spans := ⟨[], .nil, List.nodup_nil, by simp⟩

/-- Growth in two steps leaves the roots of both. -/
theorem append (h : a.Grows b cost roots trees) (h' : b.Grows c more roots' trees') :
    a.Grows c (cost + more) (roots ++ roots') (trees ++ trees') := by
  obtain ⟨ids, hs, hd, hge⟩ := h.spans
  obtain ⟨ids', hs', hd', hge'⟩ := h'.spans
  have hsize := h.size
  have hsize' := h'.size
  refine ⟨by omega, fun k hk => ?_, ids ++ ids', ?_, ?_, ?_⟩
  · rw [h'.keeps k (by omega), h.keeps k hk]
  -- what the first step stored was there when the second began
  · exact (hs.frame fun k hk => h'.keeps k (hs.lt k hk)).append hs'
  · refine List.nodup_append'.2 ⟨hd, hd', fun k hk hk' => ?_⟩
    exact absurd (hs.lt k hk) (Nat.not_lt.2 (hge' k hk'))
  · intro k hk
    rcases List.mem_append.1 hk with hk | hk
    · exact hge k hk
    · exact le_trans (by omega) (hge' k hk)

/-- Growth of which only the first step's roots are of interest. -/
theorem skip (h : a.Grows b cost roots trees) (h' : b.Grows c more roots' trees') :
    a.Grows c (cost + more) roots trees := by
  -- growth of which nothing is of interest keeps what was there
  have hbare : b.Grows c more [] [] := ⟨h'.size, h'.keeps, [], .nil, List.nodup_nil, by simp⟩
  simpa using h.append hbare

/-- Storing a parent over the new roots. -/
theorem parent {capacity : Nat} (label : Label) (h : a.Grows b cost roots trees)
    (hroom : b.size < capacity) (hlabel : label.kind ≠ .atomic) :
    ∃ c, b.addLabelled capacity label roots = (c, .ok b.size) ∧
      a.Grows c (cost + 1) [b.size] [.node label trees] := by
  obtain ⟨ids, hs, hd, hge⟩ := h.spans
  obtain ⟨c, hadd, hsize, hspan, hkeep⟩ := hs.addLabelled hd hroom hlabel
  have hle : a.size ≤ b.size := by rw [h.size]; omega
  refine ⟨c, hadd, by rw [hsize, h.size]; rfl, fun k hk => ?_, b.size :: ids, .single hspan, ?_, ?_⟩
  · rw [hkeep k (by omega) fun hr => Nat.not_lt.2 (hge k (hs.roots_subset k hr)) hk, h.keeps k hk]
  · exact List.nodup_cons.2 ⟨fun hk => absurd (hs.lt _ hk) (Nat.lt_irrefl _), hd⟩
  · intro k hk
    rcases List.mem_cons.1 hk with rfl | hk
    · exact hle
    · exact hge k hk

/-- Storing an atomic type. -/
theorem atomic {capacity : Nat} {text : Bytes} (kind : AtomicKind) (hroom : a.size < capacity)
    (hlen : text.length ≤ nameLimit) :
    ∃ b, a.addAtomic capacity kind text = (b, .ok a.size) ∧
      a.Grows b 1 [a.size] [.atomic kind (stored text)] := by
  have hpush := push_of_lt hroom (.leaf (.atomic ⟨kind, stored text⟩))
  refine ⟨_, by rw [addAtomic, if_pos hlen, hpush], size_append a _,
    fun k hk => node?_append_lt _ hk, [a.size], .single ?_, List.nodup_singleton _, by simp⟩
  exact .intro (node?_append_self a _) ⟨rfl, fun _ => rfl⟩ .nil

/-- A single new root holds its tree. -/
theorem holds {id : Nat} {tree : TypeTree} (h : a.Grows b cost [id] [tree]) : b.Holds id tree := by
  obtain ⟨ids, hs, hd, -⟩ := h.spans
  cases hs with
  | @cons _ _ _ _ ids more hs hrest =>
    exact ⟨ids, hs, hd.of_append_left⟩

/-- Looking for the last tree among those before finds it exactly when it is there. -/
theorem any_sameTree {new : Nat} {tree : TypeTree} (h : a.Grows b cost roots trees)
    (h' : b.Grows c more [new] [tree]) :
    roots.any (fun old => c.sameTree old c new) = true ↔ tree ∈ trees := by
  -- the earlier roots are looked at in the arena that holds the new one as well
  obtain ⟨ids, hs, -⟩ := (h.skip h').spans
  obtain ⟨ids', hs', -⟩ := h'.holds
  exact hs.any_sameTree hs'

/-- From the empty arena on, all nodes were counted. -/
theorem size_eq (h : empty.Grows b cost roots trees) : b.size = cost := by
  rw [h.size, size_empty, Nat.zero_add]

theorem tree?_eq {stored : StoredTree} {root : Nat} {tree : TypeTree}
    (h : a.Grows stored.arena cost [root] [tree]) (hroot : stored.root = some root) :
    stored.tree? = some tree := by
  obtain ⟨ids, hspans, -⟩ := h.holds
  rw [StoredTree.tree?, hroot]
  exact hspans.tree?_eq

end Grows

end TypeSig.Arena
