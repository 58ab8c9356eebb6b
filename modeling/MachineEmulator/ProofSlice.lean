import MachineEmulator.AccessLog

/-!
# Slices of a proof

* `MerkleTreeProof.Made` : what the constructor of proofs establishes, one sibling for each level;
* `pathHash p k` : the hash of the enclosing node of `2 ^ k` bytes on the path of a proof;
* `slice` : the part of a proof between two levels of its path;
* `Cut` : the levels that the address of a proof covers;
* `Made.slice_verifies` : the slice of a proof that verifies does, and a slice of a slice is a slice.
-/

namespace MachineEmulator

open Merkle List BitVec

variable {H : Type}

namespace MerkleTreeProof

/-- What the constructor of proofs establishes. -/
structure Made (p : MerkleTreeProof H) : Prop where
  root_pos : 0 < p.log2RootSize
  target_le : p.log2TargetSize ≤ p.log2RootSize
  length_eq : p.siblingHashes.length = p.log2RootSize - p.log2TargetSize

/-- The siblings from one level up to another. -/
def siblingRange (p : MerkleTreeProof H) (log2From log2To : Nat) : List H :=
  (p.siblingHashes.drop (log2From - p.log2TargetSize)).take (log2To - log2From)

section
variable (h : Hasher H)

/-- The hash reached on the path at a level. -/
def pathHash (p : MerkleTreeProof H) (log2Size : Nat) : H :=
  MachineEmulator.bubbleUp h p.targetAddress p.log2TargetSize p.targetHash
    (p.siblingRange p.log2TargetSize log2Size)

/-- Clear the bits of an address below a level. The machine takes the amount of a shift modulo the width. -/
def alignAddress (address : Word) (log2Size : Nat) : Word :=
  (address >>> (log2Size % 64)) <<< (log2Size % 64)

/-- The part of a proof between two levels. -/
def slice [DecidableEq H] (p : MerkleTreeProof H) (newLog2RootSize newLog2TargetSize : Int) :
    Except String (MerkleTreeProof H) := do
  throwUnless (0 < newLog2RootSize) "log2_root_size is not positive"
  throwUnless (0 ≤ newLog2TargetSize) "log2_target_size is negative"
  throwUnless (newLog2TargetSize ≤ newLog2RootSize) "log2_target_size is greater than log2_root_size"
  throwUnless (newLog2RootSize ≤ p.log2RootSize) "log2_root_size is too large"
  throwUnless (p.log2TargetSize ≤ newLog2TargetSize) "log2_target_size is too small"
  let root := newLog2RootSize.toNat
  let target := newLog2TargetSize.toNat
  let targetHash := p.pathHash h target
  let siblingHashes := p.siblingRange target root
  let sliced : MerkleTreeProof H :=
    { targetAddress := alignAddress p.targetAddress target, log2TargetSize := target, targetHash,
      log2RootSize := root,
      rootHash := MachineEmulator.bubbleUp h p.targetAddress target targetHash siblingHashes,
      siblingHashes }
  throwUnless (sliced.verify h) "produced invalid sliced proof"
  .ok sliced

end

/-! ## Paths -/

variable {h : Hasher H}

theorem bubbleUp_append (address : Word) (ts : List H) : ∀ (ss : List H) (k : Nat) (x : H),
    MachineEmulator.bubbleUp h address k x (ss ++ ts) =
      MachineEmulator.bubbleUp h address (k + ss.length) (MachineEmulator.bubbleUp h address k x ss) ts
  | [], _, _ => rfl
  | s :: ss, k, x => by
    rw [List.cons_append, MachineEmulator.bubbleUp, bubbleUp_append address ts ss, MachineEmulator.bubbleUp,
      length_cons, Nat.add_right_comm, Nat.add_assoc]

theorem bubbleUp_congr {a b : Word} : ∀ (ss : List H) (k : Nat) (x : H), k + ss.length ≤ 64 →
    (∀ i, k ≤ i → a.getLsbD i = b.getLsbD i) →
    MachineEmulator.bubbleUp h a k x ss = MachineEmulator.bubbleUp h b k x ss
  | [], _, _, _, _ => rfl
  | s :: ss, k, x, hle, hab => by
    rw [length_cons] at hle
    rw [MachineEmulator.bubbleUp, MachineEmulator.bubbleUp, Nat.mod_eq_of_lt (by omega), hab k (Nat.le_refl k)]
    exact bubbleUp_congr ss (k + 1) _ (by omega) fun i hi => hab i (by omega)

theorem siblingRange_append (p : MerkleTreeProof H) {a b c : Nat} (ha : p.log2TargetSize ≤ a) (hab : a ≤ b)
    (hbc : b ≤ c) : p.siblingRange a b ++ p.siblingRange b c = p.siblingRange a c := by
  unfold siblingRange
  rw [show c - a = (b - a) + (c - b) by omega, take_add, drop_drop,
    show a - p.log2TargetSize + (b - a) = b - p.log2TargetSize by omega]

theorem Made.length_siblingRange {p : MerkleTreeProof H} (hp : p.Made) {a b : Nat} (ha : p.log2TargetSize ≤ a)
    (hb : b ≤ p.log2RootSize) : (p.siblingRange a b).length = b - a := by
  rw [siblingRange, length_take, length_drop, hp.length_eq]
  omega

theorem verify_iff [DecidableEq H] {p : MerkleTreeProof H} :
    p.verify h = true ↔ p.bubbleUp h p.targetHash = p.rootHash := decide_eq_true_iff

theorem Made.bubbleUp_pathHash {p : MerkleTreeProof H} (hp : p.Made) {a b : Nat} (ha : p.log2TargetSize ≤ a)
    (hab : a ≤ b) (hb : b ≤ p.log2RootSize) :
    MachineEmulator.bubbleUp h p.targetAddress a (p.pathHash h a) (p.siblingRange a b) = p.pathHash h b := by
  rw [pathHash, pathHash, ← p.siblingRange_append (Nat.le_refl _) ha hab, bubbleUp_append,
    hp.length_siblingRange (Nat.le_refl _) (by omega), Nat.add_sub_cancel' ha]

theorem Made.pathHash_root [DecidableEq H] {p : MerkleTreeProof H} (hp : p.Made) (hv : p.verify h = true) :
    p.pathHash h p.log2RootSize = p.rootHash := by
  have hall : p.siblingRange p.log2TargetSize p.log2RootSize = p.siblingHashes := by
    rw [siblingRange, Nat.sub_self, drop_zero, take_of_length_le (by rw [hp.length_eq])]
  rw [pathHash, hall]
  exact verify_iff.mp hv

/-! ## Addresses -/

theorem getLsbD_alignAddress (address : Word) {k : Nat} (hk : k < 64) (i : Nat) :
    (alignAddress address k).getLsbD i = (decide (k ≤ i) && address.getLsbD i) := by
  rw [alignAddress, Nat.mod_eq_of_lt hk, getLsbD_shiftLeft, getLsbD_ushiftRight]
  by_cases hi : i < k
  · simp [hi, Nat.not_le.mpr hi]
  · by_cases hw : i < 64
    · simp [hi, hw, Nat.le_of_not_lt hi, Nat.add_sub_cancel' (Nat.le_of_not_lt hi)]
    · simp [hw, getLsbD_of_ge address i (by omega)]

theorem alignAddress_alignAddress (address : Word) {k l : Nat} (hkl : k ≤ l) (hl : l < 64) :
    alignAddress (alignAddress address k) l = alignAddress address l := by
  apply eq_of_getLsbD_eq
  intro i _
  rw [getLsbD_alignAddress _ hl, getLsbD_alignAddress _ (by omega), getLsbD_alignAddress _ hl]
  by_cases hi : l ≤ i
  · simp [hi, Nat.le_trans hkl hi]
  · simp [hi]

/-! ## Slices -/

section
variable {p q : MerkleTreeProof H} {root target root' target' : Nat}

/-- The slice of a proof, with the hashes of its path. -/
def sliced (h : Hasher H) (p : MerkleTreeProof H) (root target : Nat) : MerkleTreeProof H :=
  { targetAddress := alignAddress p.targetAddress target, log2TargetSize := target,
    targetHash := p.pathHash h target, log2RootSize := root, rootHash := p.pathHash h root,
    siblingHashes := p.siblingRange target root }

/-- A range of levels that a proof can be cut to. The address has the bits of all of them, and the target has an
address of its own. -/
structure Cut (p : MerkleTreeProof H) (root target : Nat) : Prop where
  root_pos : 0 < root
  target_ge : p.log2TargetSize ≤ target
  target_le : target ≤ root
  root_le : root ≤ p.log2RootSize
  root_le_width : root ≤ 64
  target_lt : target < 64

theorem Made.sliced (hp : p.Made) (hc : p.Cut root target) : (p.sliced h root target).Made :=
  ⟨hc.root_pos, hc.target_le, hp.length_siblingRange hc.target_ge hc.root_le⟩

theorem bubbleUp_alignAddress (address : Word) {k : Nat} (hk : k < 64) (x : H) {ss : List H}
    (hle : k + ss.length ≤ 64) :
    MachineEmulator.bubbleUp h (alignAddress address k) k x ss = MachineEmulator.bubbleUp h address k x ss := by
  refine bubbleUp_congr _ _ _ hle fun i hi => ?_
  rw [getLsbD_alignAddress _ hk, decide_eq_true hi, Bool.true_and]

theorem Made.levels_le (hp : p.Made) (hc : p.Cut root target) {k : Nat} (h1 : target ≤ k) (h2 : k ≤ root) :
    target + (p.siblingRange target k).length ≤ 64 := by
  have := hc.root_le_width
  rw [hp.length_siblingRange hc.target_ge (Nat.le_trans h2 hc.root_le)]
  omega

theorem siblingRange_sliced (hc : p.Cut root target) {a b : Nat} (ha : target ≤ a) (hab : a ≤ b)
    (hb : b ≤ root) : (p.sliced h root target).siblingRange a b = p.siblingRange a b := by
  have hge := hc.target_ge
  show (((p.siblingHashes.drop (target - p.log2TargetSize)).take (root - target)).drop (a - target)).take (b - a) = _
  rw [siblingRange, drop_take, drop_drop, List.take_take, Nat.min_eq_left (by omega),
    show target - p.log2TargetSize + (a - target) = a - p.log2TargetSize by omega]

theorem Made.pathHash_sliced (hp : p.Made) (hc : p.Cut root target) {k : Nat} (h1 : target ≤ k) (h2 : k ≤ root) :
    (p.sliced h root target).pathHash h k = p.pathHash h k := by
  have hrange : (p.sliced h root target).siblingRange target k = p.siblingRange target k :=
    siblingRange_sliced hc (Nat.le_refl _) h1 h2
  show MachineEmulator.bubbleUp h (alignAddress p.targetAddress target) target (p.pathHash h target)
    ((p.sliced h root target).siblingRange target k) = _
  rw [hrange, bubbleUp_alignAddress _ hc.target_lt _ (hp.levels_le hc h1 h2)]
  exact hp.bubbleUp_pathHash hc.target_ge h1 (Nat.le_trans h2 hc.root_le)

theorem Made.sliced_sliced (hp : p.Made) (hc : p.Cut root target) (hc' : (p.sliced h root target).Cut root' target') :
    (p.sliced h root target).sliced h root' target' = p.sliced h root' target' := by
  have hge : target ≤ target' := hc'.target_ge
  have hle : root' ≤ root := hc'.root_le
  have h1 := hp.pathHash_sliced (h := h) hc hge (Nat.le_trans hc'.target_le hle)
  have h2 := hp.pathHash_sliced (h := h) hc (Nat.le_trans hge hc'.target_le) hle
  have h3 := siblingRange_sliced (h := h) hc hge hc'.target_le hle
  have h4 : alignAddress (p.sliced h root target).targetAddress target' = alignAddress p.targetAddress target' :=
    alignAddress_alignAddress _ hge hc'.target_lt
  rw [MerkleTreeProof.sliced, h1, h2, h3, h4]
  rfl

variable [DecidableEq H]

theorem Made.verify_sliced (hp : p.Made) (hc : p.Cut root target) : (p.sliced h root target).verify h = true := by
  rw [verify_iff]
  show MachineEmulator.bubbleUp h (alignAddress p.targetAddress target) target (p.pathHash h target)
    (p.siblingRange target root) = p.pathHash h root
  rw [bubbleUp_alignAddress _ hc.target_lt _ (hp.levels_le hc hc.target_le (Nat.le_refl _))]
  exact hp.bubbleUp_pathHash hc.target_ge hc.target_le hc.root_le

theorem Made.slice_eq (hp : p.Made) (hc : p.Cut root target) :
    p.slice h root target = .ok (p.sliced h root target) := by
  have hroot := hp.bubbleUp_pathHash (h := h) hc.target_ge hc.target_le hc.root_le
  have hv := hp.verify_sliced (h := h) hc
  unfold MerkleTreeProof.slice
  simp only [Int.toNat_natCast, hroot, except_bind_ok_iff, throwUnless_ok_iff, exists_const]
  obtain ⟨h0, h1, h2, h3, -⟩ := hc
  exact ⟨by omega, by omega, by omega, by omega, by omega, hv, rfl⟩

/-- Slices of a proof that verifies. -/
theorem Made.slice_verifies (hp : p.Made) (hv : p.verify h = true) (hc : p.Cut root target) :
    ∃ q, p.slice h root target = .ok q ∧ q.Made ∧ q.verify h = true ∧ q.log2RootSize = root ∧
      q.log2TargetSize = target ∧ q.targetHash = p.pathHash h target ∧ q.rootHash = p.pathHash h root ∧
      p.pathHash h p.log2TargetSize = p.targetHash ∧ p.pathHash h p.log2RootSize = p.rootHash ∧
      ∀ root' target', q.Cut root' target' → q.slice h root' target' = p.slice h root' target' := by
  refine ⟨p.sliced h root target, hp.slice_eq hc, hp.sliced hc, hp.verify_sliced hc, rfl, rfl, rfl, rfl, ?_,
    hp.pathHash_root hv, fun root' target' hc' => ?_⟩
  · simp [pathHash, siblingRange, MachineEmulator.bubbleUp]
  · have hc'' : p.Cut root' target' := ⟨hc'.root_pos, Nat.le_trans hc.target_ge hc'.target_ge, hc'.target_le,
      Nat.le_trans hc'.root_le hc.root_le, hc'.root_le_width, hc'.target_lt⟩
    rw [(hp.sliced hc).slice_eq hc', hp.slice_eq hc'', hp.sliced_sliced hc hc']

/-- A proof of the second of the words at a level, with the same hash for every sibling. -/
def uniformProof (log2RootSize : Nat) : MerkleTreeProof FreeHash :=
  { targetAddress := 1, log2TargetSize := 0, targetHash := .word [2], log2RootSize,
    rootHash := MachineEmulator.bubbleUp freeHasher 1 0 (.word [2]) (List.replicate log2RootSize (.word [1])),
    siblingHashes := List.replicate log2RootSize (.word [1]) }

theorem uniformProof_made {log2RootSize : Nat} (hpos : 0 < log2RootSize) : (uniformProof log2RootSize).Made :=
  ⟨hpos, Nat.zero_le _, length_replicate⟩

theorem uniformProof_verify (log2RootSize : Nat) : (uniformProof log2RootSize).verify freeHasher = true :=
  verify_iff.mpr rfl

/-- The two levels in the middle of a proof of four. -/
theorem slice_verifies_four : ∃ q, (uniformProof 4).slice freeHasher (3 : Nat) (1 : Nat) = .ok q ∧
    q.verify freeHasher = true ∧ q.siblingHashes = [.word [1], .word [1]] ∧
    q.slice freeHasher (2 : Nat) (2 : Nat) = (uniformProof 4).slice freeHasher (2 : Nat) (2 : Nat) := by
  have hc : (uniformProof 4).Cut 3 1 := ⟨by decide, by decide, by decide, by decide, by decide, by decide⟩
  obtain ⟨q, h1, h2, h3, h4, h5, -, -, -, -, h6⟩ :=
    (uniformProof_made (show 0 < 4 by decide)).slice_verifies (uniformProof_verify 4) hc
  have hq : ((uniformProof 4).slice freeHasher (3 : Nat) (1 : Nat)).map (·.siblingHashes) =
      .ok [.word [1], .word [1]] := by decide
  obtain ⟨r, hr, hs⟩ := except_map_eq_ok hq
  cases h1.symm.trans hr
  exact ⟨q, h1, h3, hs, h6 2 2 ⟨by decide, by rw [h5]; decide, by decide, by rw [h4]; decide, by decide, by decide⟩⟩

/-- A root of a single byte is refused. A slice to the node of all 64 bits keeps the address, whose bits below the
slice in between are gone. And above the width of an address the bits of the slice are not those of the path. -/
theorem slice_at_ends : ((uniformProof 1).Made ∧ (uniformProof 1).verify freeHasher = true ∧
      (uniformProof 1).slice freeHasher 0 0 = .error "log2_root_size is not positive") ∧
    ((uniformProof 64).Made ∧ (uniformProof 64).verify freeHasher = true ∧
      ∃ q r r', (uniformProof 64).slice freeHasher 64 1 = .ok q ∧ q.slice freeHasher 64 64 = .ok r ∧
        (uniformProof 64).slice freeHasher 64 64 = .ok r' ∧ r.targetAddress ≠ r'.targetAddress) ∧
    ((uniformProof 66).Made ∧ (uniformProof 66).verify freeHasher = true ∧
      (uniformProof 66).slice freeHasher 66 1 = .error "produced invalid sliced proof") := by
  have hmade := uniformProof_made (show 0 < 64 by decide)
  have hc : (uniformProof 64).Cut 64 1 := ⟨by decide, by decide, by decide, by decide, by decide, by decide⟩
  have hq : (uniformProof 64).slice freeHasher 64 1 = .ok ((uniformProof 64).sliced freeHasher 64 1) :=
    hmade.slice_eq hc
  have hr : (((uniformProof 64).sliced freeHasher 64 1).slice freeHasher 64 64).map (·.targetAddress) = .ok 0 := by
    decide
  have hr' : ((uniformProof 64).slice freeHasher 64 64).map (·.targetAddress) = .ok 1 := by decide
  have h66 : (uniformProof 66).slice freeHasher 66 1 = .error "produced invalid sliced proof" := by rfl
  refine ⟨⟨uniformProof_made (by decide), uniformProof_verify 1, rfl⟩, ⟨hmade, uniformProof_verify 64, ?_⟩,
    uniformProof_made (by decide), uniformProof_verify 66, h66⟩
  obtain ⟨r, h1, h2⟩ := except_map_eq_ok hr
  obtain ⟨r', h3, h4⟩ := except_map_eq_ok hr'
  refine ⟨_, r, r', hq, h1, h3, ?_⟩
  rw [h2, h4]
  decide

end

end MerkleTreeProof

end MachineEmulator
