/-
  TypeSig.Proofs.Rules.Capacity

  From a text to overloads at two capacities. A text that fits at the smaller capacity
  is read alike at both. The tree that was read then goes through the default rules in
  lockstep, and the faults that could part the two runs, of a store that is full, do
  not come up at trees that were read.

  Main statement: `generate_of_capacity_le`.
-/

import TypeSig.Proofs.Rules.Lockstep
import TypeSig.Proofs.Rules.Safety
import TypeSig.Proofs.Signature.Capacity

namespace TypeSig

open Signature (read)

variable {capacity capacity' : Nat}

/-- The default rules meet no bound that grows with the capacity at a tree that was
    read. -/
theorem StoredTree.not_boundMet_of_read {text : Bytes} {stored : StoredTree} {t : Settings}
    {fault : Fault} (hread : read capacity text = .ok stored)
    (harity : t.maxUnionArity = Default.maxUnionArity)
    (h : stored.topLevel (Customization.rules {} capacity) = .error fault) :
    ¬ BoundMet (Customization.rules {} capacity).toSettings t fault := by
  intro hmet
  rcases stored.requireTree_eq with ⟨tree, htree, hrequire⟩ | hrequire
  · rw [topLevel, hrequire] at h
    obtain ⟨hsize, hparts⟩ := Signature.part_of_read hread htree
    obtain ⟨⟨k, hk⟩, hfits, -⟩ := hparts tree tree.self_mem_subtrees
    have houtcome : (Rules.ofArity capacity Default.maxUnionArity).Outcome tree
        ((Customization.rules {} capacity).topLevel tree) :=
      Rules.outcome hk.tree?_eq hsize hfits
    cases houtcome.fault fault h with
    | unsupportedArity =>
      -- the bound on the arity is the same for both
      cases hmet with
      | unsupportedArity hlt => exact absurd (harity ▸ hlt) (Nat.lt_irrefl _)
    | _ => cases hmet
  · rw [topLevel, hrequire] at h
    cases h
    cases hmet

/-- The capacity does not show until it is exceeded. Where a text is read at one capacity,
    or is refused for another reason than its size, any larger capacity leads to the same
    nodes with the same root, or to the same failure at the same place; and generating
    comes to the same overloads, the same failure, or the same fault. -/
theorem generate_of_capacity_le (hle : capacity ≤ capacity') (text : Bytes)
    (hfits : ∀ failure, read capacity text = .error failure →
      failure.diagnostic.kind ≠ .capacityExceeded) :
    read capacity' text = read capacity text ∧
      generate capacity' {} text = generate capacity {} text := by
  have hread : read capacity' text = read capacity text :=
    (Signature.read_sameUnless hle text).eq_of_not_excused hfits
  refine ⟨hread, ?_⟩
  rw [generate, generate, hread]
  cases hstored : read capacity text with
  | error failure => rfl
  | ok stored =>
    have hsame := StoredTree.topLevel_sameUnless
      (Customization.follows {} hle (Nat.le_refl Default.maxUnionArity)) stored
    have htop := hsame.eq_of_not_excused fun fault herror =>
      StoredTree.not_boundMet_of_read hstored rfl herror
    exact congrArg (Except.map Except.ok) htop

theorem generate_of_capacity_le_sample :
    2 ≤ 5 ∧
      (∀ failure, read 2 (ascii "number | number") = .error failure →
        failure.diagnostic.kind ≠ .capacityExceeded) ∧
      read 5 (ascii "number | number") =
        .ok ⟨⟨[.leaf (.atomic ⟨.number, []⟩), .leaf (.atomic ⟨.number, []⟩)]⟩, some 0⟩ ∧
      generate 5 {} (ascii "number | number") =
        .ok (.ok ⟨[.regular ⟨ascii "(value: float)", by decide⟩ valueBody]⟩) := by
  have hle : 2 ≤ 5 := by decide
  -- the second number is stored and left over
  have hread : read 2 (ascii "number | number") =
      .ok ⟨⟨[.leaf (.atomic ⟨.number, []⟩), .leaf (.atomic ⟨.number, []⟩)]⟩, some 0⟩ := by
    decide +kernel
  have hfits : ∀ failure, read 2 (ascii "number | number") = .error failure →
      failure.diagnostic.kind ≠ .capacityExceeded := by
    rw [hread]
    rintro _ ⟨⟩
  obtain ⟨hsame, hgenerate⟩ := generate_of_capacity_le hle (ascii "number | number") hfits
  refine ⟨hle, hfits, hsame.trans hread, hgenerate.trans ?_⟩
  decide +kernel

end TypeSig
