/-
  TypeSig.Proofs.Arena.Equality

  Structural equality of nodes in arenas that were built up. Every node of such an
  arena holds a tree, so comparing two nodes decides whether these are one tree,
  wherever the nodes lie and however they came there.

  Main statement: `Construction.sameTree_iff_trees_eq`. It says the same once more
  without trees: two nodes are the same if they say the same and the children that
  they were given are the same one by one.
-/

import TypeSig.Proofs.Arena.Forest

namespace TypeSig

namespace Arena

variable {a b : Arena}

/-- Comparing roots one by one decides whether they are roots of the same trees. -/
theorem SpansEach.forall₂_sameTree_iff {roots roots' ids ids' : List Nat}
    {trees trees' : List TypeTree} (h : a.SpansEach roots trees ids)
    (h' : b.SpansEach roots' trees' ids') :
    List.Forall₂ (fun i j => a.sameTree i b j = true) roots roots' ↔ trees = trees' := by
  induction h generalizing roots' trees' ids' with
  | nil =>
    cases h' with
    | nil => simp
    | cons => simp
  | cons hs _ ih =>
    cases h' with
    | nil => simp
    | cons hs' hrest' => rw [List.forall₂_cons, sameTree_iff hs hs', ih hrest', List.cons.injEq]

end Arena

namespace Construction

/-- A node holds one tree. -/
theorem Reachable.exists_tree {capacity : Nat} {c : Construction} (h : c.Reachable capacity)
    {id : Nat} (hid : id < c.arena.size) : ∃ tree, c.arena.Holds id tree := by
  obtain ⟨children, hgiven⟩ := h.isForest.exists_given hid
  obtain ⟨_, _, _, -, -, hholds⟩ := h.exists_holds hgiven
  exact ⟨_, hholds⟩

theorem sameTree_iff_eq {a b : Arena} {i j : Nat} {x y : TypeTree} (hi : a.Holds i x)
    (hj : b.Holds j y) : a.sameTree i b j = true ↔ x = y := by
  obtain ⟨_, hi, -⟩ := hi
  obtain ⟨_, hj, -⟩ := hj
  exact Arena.sameTree_iff hi hj

/-- Structural equality of two nodes, each in an arena that was built up, in any order
    and to any capacity, decides whether they are roots of one ordered tree. That is so
    if what they say is equal and the children that they were given are equal one by one;
    where the nodes are stored, what else is stored, and which siblings follow the two
    nodes themselves does not matter. It is reflexive, symmetric and transitive. -/
theorem sameTree_iff_trees_eq {capacity capacity' : Nat} {s t : Construction}
    (hs : s.Reachable capacity) (ht : t.Reachable capacity') {i j : Nat}
    (hi : i < s.arena.size) (hj : j < t.arena.size) :
    (∃ x y, s.arena.Holds i x ∧ s.arena.tree? i = some x ∧
      t.arena.Holds j y ∧ t.arena.tree? j = some y ∧
      (s.arena.sameTree i t.arena j = true ↔ x = y)) ∧
    (∃ m n cs ds, s.arena.node? i = some m ∧ s.given[i]? = some cs ∧
      t.arena.node? j = some n ∧ t.given[j]? = some ds ∧
      (s.arena.sameTree i t.arena j = true ↔ m.label = n.label ∧
        List.Forall₂ (fun c d => s.arena.sameTree c t.arena d = true) cs ds)) ∧
    s.arena.sameTree i s.arena i = true ∧
    s.arena.sameTree i t.arena j = t.arena.sameTree j s.arena i ∧
    ∀ (capacity'' : Nat) (u : Construction) (k : Nat), u.Reachable capacity'' →
      k < u.arena.size → s.arena.sameTree i t.arena j = true →
      t.arena.sameTree j u.arena k = true → s.arena.sameTree i u.arena k = true := by
  obtain ⟨x, hx⟩ := hs.exists_tree hi
  obtain ⟨y, hy⟩ := ht.exists_tree hj
  refine ⟨⟨x, y, hx, hx.tree?_eq, hy, hy.tree?_eq, sameTree_iff_eq hx hy⟩, ?_,
    (sameTree_iff_eq hx hx).2 rfl, ?_, fun capacity'' u k hu hk hij hjk => ?_⟩
  · obtain ⟨cs, hcs⟩ := hs.isForest.exists_given hi
    obtain ⟨ds, hds⟩ := ht.isForest.exists_given hj
    obtain ⟨m, trees, _, hm, heach, hholds⟩ := hs.exists_holds hcs
    obtain ⟨n, trees', _, hn, heach', hholds'⟩ := ht.exists_holds hds
    refine ⟨m, n, cs, ds, hm, hcs, hn, hds, ?_⟩
    rw [sameTree_iff_eq hholds hholds', TypeTree.node.injEq, heach.forall₂_sameTree_iff heach']
  · rw [Bool.eq_iff_iff, sameTree_iff_eq hx hy, sameTree_iff_eq hy hx, eq_comm]
  · obtain ⟨z, hz⟩ := hu.exists_tree hk
    obtain rfl := (sameTree_iff_eq hx hy).1 hij
    obtain rfl := (sameTree_iff_eq hy hz).1 hjk
    exact (sameTree_iff_eq hx hz).2 rfl

/-- A union of a literal and a number, with its cases stored the other way round and a
    node between them that belongs to nothing. -/
def numberFirst : Construction :=
  (((empty.perform 8 (.atomic .number [])).perform 8 (.atomic .bool [])).perform 8
    (.atomic .stringLiteral (ascii "a"))).perform 8 (.parent .union [2, 0])

theorem reachable_numberFirst : numberFirst.Reachable 8 :=
  .step (.step (.step (.step .empty trivial nofun) trivial nofun) trivial nofun) (by decide) nofun

theorem sameTree_iff_trees_eq_sample :
    ∃ s : Construction, s.Reachable 3 ∧ numberFirst.Reachable 8 ∧ 2 < s.arena.size ∧
      3 < numberFirst.arena.size ∧ s.arena.sameTree 2 numberFirst.arena 3 = true ∧
      ∃ tree, s.arena.Holds 2 tree ∧ numberFirst.arena.Holds 3 tree := by
  let literal := empty.perform 3 (.atomic .stringLiteral (ascii "a"))
  let both := literal.perform 3 (.atomic .number [])
  have hboth : both.Reachable 3 := .step (.step .empty trivial nofun) trivial nofun
  have hunion : (both.perform 3 (.parent .union [0, 1])).Reachable 3 :=
    .step hboth (by decide) nofun
  have hsame : (both.perform 3 (.parent .union [0, 1])).arena.sameTree 2 numberFirst.arena 3 =
      true := by decide
  obtain ⟨x, y, hx, -, hy, -, hiff⟩ :=
    (sameTree_iff_trees_eq (i := 2) (j := 3) hunion reachable_numberFirst (by decide)
      (by decide)).1
  obtain rfl := hiff.1 hsame
  exact ⟨_, hunion, reachable_numberFirst, by decide, by decide, hsame, x, hx, hy⟩

end Construction

end TypeSig
