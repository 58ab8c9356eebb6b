import MachineEmulator.CompleteMerkleTree
import MachineEmulator.FullMerkleTree

/-!
# The three trees over a list of leaves

The complete, the full and the back Merkle tree over the same leaves.

* `completeTree`, `backTree` : a complete tree made from the first leaves at once and from the others one by one, and a
  back tree made from all of them one by one;
* `TreesAgree` : the same root, the same nodes and the same proofs, which verify;
* `treesAgree_iff` : for leaves that fit, the trees exist and agree unless the full tree is too deep.
-/

namespace MachineEmulator

open Merkle

variable {H : Type}

/-- One of the constructors of the complete tree, then leaf after leaf. -/
def completeTree [Inhabited H] (h : Hasher H) (log2RootSize log2LeafSize log2WordSize : Int) (bulk : Option (List H))
    (pushed : List H) : Except String (CompleteMerkleTree H) := do
  let t ← match bulk with
    | none => CompleteMerkleTree.make log2RootSize log2LeafSize log2WordSize
    | some leaves => CompleteMerkleTree.makeFrom h log2RootSize log2LeafSize log2WordSize leaves
  t.pushAll h pushed

def backTree [Inhabited H] (h : Hasher H) (log2RootSize log2LeafSize log2WordSize : Int) (leaves : List H) :
    Except String (BackMerkleTree H) := do
  let t ← BackMerkleTree.make log2RootSize log2LeafSize log2WordSize
  t.run h (leaves.map .push)

structure TreesAgree [DecidableEq H] [Inhabited H] (h : Hasher H) (z : TreeSizes) (c : CompleteMerkleTree H)
    (f : FullMerkleTree H) (b : BackMerkleTree H) : Prop where
  root : ∃ hash, c.getRootHash h = .ok hash ∧ f.getRootHash = .ok hash ∧ b.getRootHash h = hash
  node : ∀ {address : Word} {log2Size : Int}, z.IsNode address log2Size →
    ∃ hash, c.getNodeHash h address log2Size = .ok hash ∧ f.getNodeHash address log2Size = .ok hash
  noNode : ∀ {address : Word} {log2Size : Int}, ¬ z.IsNode address log2Size →
    (∃ e, c.getNodeHash h address log2Size = .error e) ∧ ∃ e, f.getNodeHash address log2Size = .error e
  proof : ∀ {address : Word} {log2Size : Int}, z.IsTarget address log2Size →
    ∃ p, c.getProof h address log2Size = .ok p ∧ f.getProof address log2Size = .ok p ∧ p.verify h = true
  noProof : ∀ {address : Word} {log2Size : Int}, ¬ z.IsTarget address log2Size →
    (∃ e, c.getProof h address log2Size = .error e) ∧ ∃ e, f.getProof address log2Size = .error e

variable {h : Hasher H} {z : TreeSizes}

theorem TreeSizes.IsNode.natCast {address : Word} {log2Size : Int} (hnode : z.IsNode address log2Size) :
    ∃ n : Nat, log2Size = n := Int.eq_ofNat_of_zero_le (by have := hnode.1; omega)

theorem treesAgree [DecidableEq H] [Inhabited H] {ls : List H} {c : CompleteMerkleTree H} {f : FullMerkleTree H}
    {b : BackMerkleTree H} (hcs : c.sizes = z) (hfs : f.sizes = z)
    (hc : HasNodes h z (leavesOf h z ls) (c.getNodeHash h))
    (hf : HasNodes h z (leavesOf h z ls) f.getNodeHash)
    (hb : b.getRootHash h = nodeHash h.concat (leavesOf h z ls) z.depth 0) : TreesAgree h z c f b where
  root := by
    have hroot : z.IsNode 0 z.log2RootSize := by
      refine ⟨?_, Int.le_refl _, Nat.two_pow_pos _⟩
      have := z.leaf_le
      omega
    refine ⟨_, ?_, ?_, rfl⟩
    · rw [CompleteMerkleTree.getRootHash, hcs, hc.hash hroot, hb, listNode, TreeSizes.depth]
      simp
    · rw [FullMerkleTree.getRootHash, hfs, hf.hash hroot, hb, listNode, TreeSizes.depth]
      simp
  node hnode := by
    obtain ⟨n, rfl⟩ := hnode.natCast
    exact ⟨_, hc.hash hnode, hf.hash hnode⟩
  noNode hnode := ⟨hc.throws hnode, hf.throws hnode⟩
  proof {address log2Size} htarget := by
    obtain ⟨n, rfl⟩ := htarget.1.natCast
    obtain ⟨h1, h2, ha⟩ := htarget.1
    refine ⟨listProof h z (leavesOf h z ls) address n, ?_, ?_, listProof_verify (by omega) (by omega) ha⟩
    · rw [CompleteMerkleTree.getProof, hcs, hc.getProof_eq htarget]
    · rw [FullMerkleTree.getProof, hfs, hf.getProof_eq htarget]
  noProof htarget := by
    rw [CompleteMerkleTree.getProof, FullMerkleTree.getProof, hcs, hfs]
    exact ⟨hc.getProof_throws htarget, hf.getProof_throws htarget⟩

section
variable [Inhabited H] {log2RootSize log2LeafSize log2WordSize : Int}
  (hz : checkLog2Sizes log2RootSize log2LeafSize log2WordSize = .ok z)
include hz

theorem completeTree_ok (bulk : Option (List H)) (pushed : List H)
    (hfit : (bulk.getD [] ++ pushed).length ≤ 2 ^ z.depth) :
    ∃ c, completeTree h log2RootSize log2LeafSize log2WordSize bulk pushed = .ok c ∧ c.sizes = z ∧
      c.HoldsList h (bulk.getD [] ++ pushed) := by
  cases bulk with
  | none =>
    obtain ⟨c, hpush, hsizes, hholds⟩ := (CompleteMerkleTree.holdsList_nil (h := h) z).pushAll pushed hfit
    refine ⟨c, ?_, hsizes, hholds⟩
    rw [completeTree, CompleteMerkleTree.make_ok hz]
    exact hpush
  | some leaves =>
    obtain ⟨t, hmake, rfl, hleaves⟩ := CompleteMerkleTree.makeFrom_ok (h := h) hz leaves
    obtain ⟨c, hpush, hsizes, hholds⟩ := hleaves.pushAll pushed hfit
    refine ⟨c, ?_, hsizes, hholds⟩
    rw [completeTree]
    show CompleteMerkleTree.makeFrom h log2RootSize log2LeafSize log2WordSize leaves >>= _ = _
    rw [hmake]
    exact hpush

theorem backTree_ok {leaves : List H} (hfit : leaves.length ≤ 2 ^ z.depth) :
    ∃ b, backTree h log2RootSize log2LeafSize log2WordSize leaves = .ok b ∧
      b.getRootHash h = nodeHash h.concat (leavesOf h z leaves) z.depth 0 := by
  obtain ⟨t, hmake, hdepth, hpristine⟩ : ∃ t : BackMerkleTree H,
      BackMerkleTree.make log2RootSize log2LeafSize log2WordSize = .ok t ∧ t.depth = z.depth ∧
        t.pristine h 0 = z.pristine h 0 := by
    obtain ⟨rfl, rfl, rfl⟩ := checkLog2Sizes_ok hz
    have h1 := z.word_le
    have h2 := z.leaf_le
    have h3 := z.root_lt
    rw [BackMerkleTree.make, if_neg (by omega), if_neg (by omega), if_neg (by omega), if_neg (by omega),
      dif_neg (by omega), dif_neg (by omega), dif_neg (by omega)]
    exact ⟨_, rfl, rfl, rfl⟩
  obtain ⟨b, hrun, hholds, hd, hp⟩ := (BackMerkleTree.make_holdsList hmake).run_push leaves
    (by simpa [hdepth] using hfit)
  refine ⟨b, ?_, ?_⟩
  · rw [backTree, hmake]
    exact hrun
  · rw [hholds.holds.getRootHash_eq, hd, hp, hdepth, hpristine]
    rfl

/-- The complete and the back tree over leaves that fit always exist. The full tree does, and agrees with them, exactly
when its depth is at most 30. -/
theorem treesAgree_iff [DecidableEq H] (bulk : Option (List H)) (pushed : List H)
    (hfit : (bulk.getD [] ++ pushed).length ≤ 2 ^ z.depth) :
    (∃ c f b, completeTree h log2RootSize log2LeafSize log2WordSize bulk pushed = .ok c ∧
      FullMerkleTree.makeFrom h log2RootSize log2LeafSize log2WordSize (bulk.getD [] ++ pushed) = .ok f ∧
      backTree h log2RootSize log2LeafSize log2WordSize (bulk.getD [] ++ pushed) = .ok b ∧
      TreesAgree h z c f b) ↔ z.depth ≤ 30 := by
  constructor
  · rintro ⟨c, f, b, -, hfull, -, -⟩
    by_contra hdepth
    have hlt := z.depth_lt
    by_cases hmax : z.depth = 63
    · rw [FullMerkleTree.makeFrom_bounds hz hfit hmax] at hfull
      cases hfull
    · rw [FullMerkleTree.makeFrom_int hz hfit (by omega) (by omega)] at hfull
      cases hfull
  · intro hdepth
    obtain ⟨c, hc, hcs, hcholds⟩ := completeTree_ok (h := h) hz bulk pushed hfit
    obtain ⟨f, hf, hfs, hfholds⟩ := FullMerkleTree.makeFrom_ok (h := h) hz hfit hdepth
    obtain ⟨b, hb, hroot⟩ := backTree_ok (h := h) hz hfit
    refine ⟨c, f, b, hc, hf, hb, treesAgree hcs hfs ?_ ?_ hroot⟩
    · subst hcs
      exact hcholds.hasNodes
    · subst hfs
      exact hfholds.hasNodes

end

theorem treesAgree_iff_two : ∃ z : TreeSizes, checkLog2Sizes 1 0 0 = .ok z ∧
    ∃ c f b, completeTree freeHasher 1 0 0 (some [.word [7]]) [.word [8]] = .ok c ∧
      FullMerkleTree.makeFrom freeHasher 1 0 0 [.word [7], .word [8]] = .ok f ∧
      backTree freeHasher 1 0 0 [.word [7], .word [8]] = .ok b ∧ TreesAgree freeHasher z c f b := by
  have hz : checkLog2Sizes 1 0 0 = .ok (_ : TreeSizes) := rfl
  exact ⟨_, hz, (treesAgree_iff hz (some [FreeHash.word [7]]) [.word [8]] (by decide)).mpr (by decide)⟩

/-- The heap of the full tree with `2 ^ 63` leaves has no entry, though the other trees are there. -/
theorem fullTree_outOfBounds : (∃ c, completeTree freeHasher 63 0 0 (some []) [] = .ok c) ∧
    (∃ b, backTree freeHasher 63 0 0 [] = .ok b) ∧
    FullMerkleTree.makeFrom freeHasher 63 0 0 [] = .error .outOfBounds := by
  have hz : checkLog2Sizes 63 0 0 = .ok (_ : TreeSizes) := rfl
  refine ⟨?_, ?_, FullMerkleTree.makeFrom_bounds hz (by decide) (by decide)⟩
  · obtain ⟨c, hc, -⟩ := completeTree_ok (h := freeHasher) hz (some []) [] (by decide)
    exact ⟨c, hc⟩
  · obtain ⟨b, hb, -⟩ := backTree_ok (h := freeHasher) hz (show ([] : List FreeHash).length ≤ _ by decide)
    exact ⟨b, hb⟩

end MachineEmulator
