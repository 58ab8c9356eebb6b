import MachineEmulator.BackTreeCapacity

/-!
# The proof for the next leaf of a back Merkle tree

* `Reachable.holds` : a tree after any calls holds some leaves. A tree whose count has wrapped around holds none;
* `getNextLeafProof` : the proof of the first leaf that is still pristine, read off the context;
* `nextLeafLoop_eq` : its siblings are those of that leaf in the tree over the leaves;
* `getNextLeafProof_spec` : the proof verifies, and it gives the root that the tree has after the next push.
-/

namespace MachineEmulator.BackMerkleTree

open Merkle Nat BitVec

variable {H : Type}

/-! ## The proof -/

section
variable (h : Hasher H)

/-- One level of the path: its sibling, and the hash of the node above. -/
def nextLeafStep (t : BackMerkleTree H) (s : List H × H) (i : Nat) : List H × H :=
  if t.leafCount &&& span i ≠ 0 then (s.1 ++ [t.context i], h.concat (t.context i) s.2)
  else (s.1 ++ [t.pristine h i], h.concat s.2 (t.pristine h i))

/-- The siblings of the first `n` levels, and the hash they lead to. -/
def nextLeafLoop (t : BackMerkleTree H) (n : Nat) : List H × H :=
  (List.range n).foldl (t.nextLeafStep h) ([], t.pristine h 0)

/-- The second check is that of the constructor of proofs. A machine takes the amount of a shift modulo the width. -/
def getNextLeafProof (t : BackMerkleTree H) : Except String (MerkleTreeProof H) := do
  throwUnless (¬ t.maxLeaves ≤ t.leafCount) "tree is full"
  throwUnless (0 < t.log2RootSize) "log2_root_size is not positive"
  let path := t.nextLeafLoop h t.depth
  .ok { targetAddress := t.leafCount <<< (t.log2LeafSize % 64), log2TargetSize := t.log2LeafSize,
        targetHash := t.pristine h 0, log2RootSize := t.log2RootSize, rootHash := path.2, siblingHashes := path.1 }

end

variable {h : Hasher H} {t t' : BackMerkleTree H} {f : Nat → H}

/-! ## The leaves of a tree -/

theorem holds_of_empty (hcount : t.leafCount = 0) : t.Holds h fun _ => t.pristine h 0 where
  fits := by
    rw [hcount]
    exact Nat.zero_le _
  frontier := by
    rw [hcount]
    exact frontier_zero
  beyond _ _ := rfl

/-- Padding that did not throw had room, or it has wrapped around and the tree is empty again. -/
theorem fits_or_empty_of_padBack {n : Word} (hle : t.leafCount.toNat ≤ 2 ^ t.depth) (hpad : t.padBack h n = .ok t') :
    t.leafCount.toNat + n.toNat ≤ 2 ^ t.depth ∨ t'.leafCount = 0 := by
  have hcount := leafCount_padBack hpad
  have hpow : 2 ^ t.depth ≤ 2 ^ 63 := Nat.pow_le_pow_right (by decide) (le_of_lt_succ t.depth_lt)
  rw [padBack] at hpad
  split at hpad
  · cases hpad
  rename_i hmany
  obtain ⟨hn, hsum⟩ := not_or.mp hmany
  rw [lt_def, toNat_maxLeaves] at hn hsum
  rw [toNat_add] at hsum
  by_cases hlarge : t.leafCount.toNat + n.toNat < 2 ^ 64
  · rw [mod_eq_of_lt hlarge] at hsum
    exact .inl (Nat.le_of_not_lt hsum)
  · refine .inr ?_
    rw [hcount]
    refine eq_of_toNat_eq ?_
    rw [toNat_add]
    show _ = 0
    omega

theorem Reachable.holds [Inhabited H] (ht : Reachable h t) : ∃ f, t.Holds h f := by
  induction ht with
  | make hmake => exact ⟨_, (make_holdsList hmake).holds⟩
  | @returned t t' ht op hop ih =>
    obtain ⟨f, hf⟩ := ih
    rw [Op.call_eq, outcome_ok] at hop
    cases op with
    | push x => exact ⟨_, (hf.pushBack hop).1⟩
    | pad n =>
      rcases fits_or_empty_of_padBack ht.leafCount_le hop with hfits | hempty
      · exact ⟨f, (hf.padBack hop hfits).1⟩
      · exact ⟨_, holds_of_empty hempty⟩
  | thrown _ hop ih =>
    rw [Op.call_eq, outcome_error] at hop
    obtain ⟨-, rfl⟩ := hop
    exact ih

/-! ## The path of the next leaf -/

/-- The sibling that the context or the pristine hashes have for a level. -/
theorem Holds.sibling_eq (ht : t.Holds h f) (n : Nat) :
    nodeHash h.concat f n (sibling (t.leafCount.toNat / 2 ^ n)) =
      if t.leafCount &&& span n ≠ 0 then t.context n else t.pristine h n := by
  split
  · rename_i hbit
    have hbit := and_span_ne_zero.mp hbit
    rw [ht.frontier n hbit, sibling, div_two_pow_of_testBit hbit, if_neg (by omega)]
  · rename_i hbit
    have hbit := not_testBit_of hbit
    rw [sibling, div_two_pow_of_not_testBit hbit, if_pos (by omega), ← div_two_pow_of_not_testBit hbit,
      ht.nodeHash_next]

theorem nextLeafLoop_eq (ht : t.Holds h f) (n : Nat) :
    t.nextLeafLoop h n = (siblings h.concat f 0 t.leafCount.toNat n,
      nodeHash h.concat f n (t.leafCount.toNat / 2 ^ n)) := by
  induction n with
  | zero =>
    rw [Nat.pow_zero, Nat.div_one]
    exact Prod.ext rfl (ht.beyond _ (Nat.le_refl _)).symm
  | succ n ih =>
    have hloop : t.nextLeafLoop h (n + 1) = t.nextLeafStep h (t.nextLeafLoop h n) n := by
      unfold nextLeafLoop
      rw [List.range_succ, List.foldl_append]
      rfl
    have hsiblings : siblings h.concat f 0 t.leafCount.toNat (n + 1) =
        siblings h.concat f 0 t.leafCount.toNat n ++
          [nodeHash h.concat f n (sibling (t.leafCount.toNat / 2 ^ n))] := by
      rw [siblings_append f 1 n 0, Nat.zero_add]
      rfl
    rw [hloop, ih, hsiblings, ht.sibling_eq, ht.nodeHash_succ, nextLeafStep]
    split <;> rfl

theorem toNat_nextLeaf (hroot : t.log2RootSize ≤ 64) (hroom : t.leafCount.toNat < 2 ^ t.depth) :
    (t.leafCount <<< (t.log2LeafSize % 64)).toNat = t.leafCount.toNat * 2 ^ t.log2LeafSize := by
  have hleaf := t.leaf_le
  by_cases h64 : t.log2LeafSize = 64
  · -- a tree of a single leaf, whose address is 0
    have hdepth : t.depth = 0 := by
      unfold depth
      omega
    have h0 : t.leafCount = 0#64 := eq_of_toNat_eq (by rw [hdepth] at hroom; simpa using hroom)
    rw [h0]
    simp
  · have hmod : t.log2LeafSize % 64 = t.log2LeafSize := mod_eq_of_lt (by omega)
    have hlt : t.leafCount.toNat * 2 ^ t.log2LeafSize < 2 ^ 64 := calc
      _ < 2 ^ t.depth * 2 ^ t.log2LeafSize := Nat.mul_lt_mul_of_pos_right hroom (Nat.two_pow_pos _)
      _ = 2 ^ t.log2RootSize := by rw [← Nat.pow_add, depth, Nat.sub_add_cancel hleaf]
      _ ≤ 2 ^ 64 := Nat.pow_le_pow_right (by decide) hroot
    rw [hmod, BitVec.toNat_shiftLeft, Nat.shiftLeft_eq, Nat.mod_eq_of_lt hlt]

/-- The proof of the next leaf of a tree that is not full verifies, with the root of the tree; and every hash it is
given leads to the root after this hash is pushed. -/
theorem getNextLeafProof_spec [Inhabited H] [DecidableEq H] (ht : Reachable h t) (hpos : 0 < t.log2RootSize)
    (hroot : t.log2RootSize ≤ 64) (hroom : t.leafCount.toNat < 2 ^ t.depth) :
    ∃ p, t.getNextLeafProof h = .ok p ∧ p.verify h = true ∧ p.rootHash = t.getRootHash h ∧
      p.targetHash = t.pristine h 0 ∧ p.targetAddress.toNat = t.leafCount.toNat * 2 ^ t.log2LeafSize ∧
      p.log2TargetSize = t.log2LeafSize ∧ p.log2RootSize = t.log2RootSize ∧
      ∀ x, ∃ t', pushBackCall h x t = .ok () t' ∧ p.bubbleUp h x = t'.getRootHash h := by
  obtain ⟨f, hf⟩ := ht.holds
  have hnotfull : ¬ t.maxLeaves ≤ t.leafCount := by
    rw [le_def, toNat_maxLeaves]
    omega
  have hproof : t.getNextLeafProof h = .ok
      { targetAddress := t.leafCount <<< (t.log2LeafSize % 64), log2TargetSize := t.log2LeafSize,
        targetHash := t.pristine h 0, log2RootSize := t.log2RootSize, rootHash := (t.nextLeafLoop h t.depth).2,
        siblingHashes := (t.nextLeafLoop h t.depth).1 } := by
    simp only [getNextLeafProof, throwUnless, if_pos hnotfull, if_pos hpos]
    rfl
  have haddress := toNat_nextLeaf hroot hroom
  -- climbing from the next leaf in the tree over any leaves that agree with those there are
  have hclimb : ∀ g x, (∀ k, k ≠ t.leafCount.toNat → f k = g k) → g t.leafCount.toNat = x →
      bubbleUp h (t.leafCount <<< (t.log2LeafSize % 64)) t.log2LeafSize x (t.nextLeafLoop h t.depth).1 =
        nodeHash h.concat g t.depth 0 := by
    intro g x hfg hx
    have hlevels : t.log2LeafSize + (t.nextLeafLoop h t.depth).1.length ≤ 64 := by
      have := t.leaf_le
      rw [nextLeafLoop_eq hf, length_siblings, depth]
      omega
    rw [bubbleUp_eq_climb _ _ _ _ _ hlevels, haddress, Nat.mul_div_cancel _ (Nat.two_pow_pos _),
      nextLeafLoop_eq hf, ← hx]
    have hsplice : climb h.concat t.leafCount.toNat (nodeHash h.concat g 0 t.leafCount.toNat)
        (siblings h.concat f 0 t.leafCount.toNat t.depth) =
        nodeHash h.concat g (0 + t.depth) (t.leafCount.toNat / 2 ^ t.depth) :=
      climb_splice t.depth fun j hj => hfg j (by simp at hj; omega)
    rwa [Nat.zero_add, div_eq_of_lt hroom] at hsplice
  have hroothash : (t.nextLeafLoop h t.depth).2 = t.getRootHash h := by
    rw [nextLeafLoop_eq hf, hf.getRootHash_eq, div_eq_of_lt hroom]
  refine ⟨_, hproof, ?_, hroothash, rfl, haddress, rfl, rfl, fun x => ?_⟩
  · rw [MerkleTreeProof.verify, decide_eq_true_iff]
    refine (hclimb f _ (fun _ _ => rfl) (hf.beyond _ (Nat.le_refl _))).trans ?_
    rw [← hf.getRootHash_eq]
    exact hroothash.symm
  · obtain ⟨t', hpush⟩ := pushBack_ok (h := h) hroom x
    obtain ⟨hf', -, hdepth, -⟩ := hf.pushBack hpush
    refine ⟨t', by rw [pushBackCall_eq, hpush]; rfl, ?_⟩
    rw [hf'.getRootHash_eq, hdepth]
    exact hclimb _ x (fun k hk => (Function.update_of_ne hk x f).symm) (Function.update_self ..)

/-- The last leaf of a tree with three leaves. -/
theorem getNextLeafProof_spec_three : ∃ t : BackMerkleTree FreeHash, Reachable freeHasher t ∧ t.leafCount = 3 ∧
    t.depth = 2 ∧ ∃ p t', t.getNextLeafProof freeHasher = .ok p ∧ p.verify freeHasher = true ∧
      p.targetAddress.toNat = 3 ∧ pushBackCall freeHasher (.word [4]) t = .ok () t' ∧
      p.bubbleUp freeHasher (.word [4]) = t'.getRootHash freeHasher := by
  have hmake : make 2 0 0 = Except.ok (_ : BackMerkleTree FreeHash) := rfl
  have ht := (((Reachable.make (h := freeHasher) hmake).push (.word [1]) rfl).push (.word [2]) rfl).push (.word [3]) rfl
  obtain ⟨p, hp, hv, -, -, haddress, -, -, hpush⟩ := getNextLeafProof_spec ht (by decide) (by decide) (by decide)
  obtain ⟨t', ht', hroot⟩ := hpush (.word [4])
  exact ⟨_, ht, rfl, rfl, p, t', hp, hv, haddress, ht', hroot⟩

/-- A tree of one byte is accepted, and there are no proofs for it. -/
theorem getNextLeafProof_zero : ∃ t : BackMerkleTree FreeHash, make 0 0 0 = .ok t ∧
    t.leafCount.toNat < 2 ^ t.depth ∧ t.getNextLeafProof freeHasher = .error "log2_root_size is not positive" :=
  ⟨_, rfl, by decide, rfl⟩

end MachineEmulator.BackMerkleTree
