import MachineEmulator.BackMerkleTree

/-!
# Trees over a list of leaves

What the complete and the full Merkle tree share.

* `TreeSizes`, `checkLog2Sizes` : the sizes that their constructors accept;
* `getProof` : the proof of a node, given the hashes of all nodes;
* `HasNodes` : the hashes of the nodes are those of the tree over some leaves, and there are no others;
* `HasNodes.getProof_eq` : then the proofs are those of this tree, and they verify (`listProof_verify`).
-/

namespace MachineEmulator

open Merkle Nat List BitVec

structure TreeSizes where
  log2RootSize : Nat
  log2LeafSize : Nat
  log2WordSize : Nat
  word_le : log2WordSize ≤ log2LeafSize
  leaf_le : log2LeafSize ≤ log2RootSize
  root_lt : log2RootSize < 64

theorem toNat_le_of_not_lt {a b : Int} (hab : ¬ a < b) : b.toNat ≤ a.toNat := by omega

theorem toNat_lt_of_not_le {a : Int} (ha : ¬ 64 ≤ a) : a.toNat < 64 := by omega

def checkLog2Sizes (log2RootSize log2LeafSize log2WordSize : Int) : Except String TreeSizes :=
  if log2RootSize < 0 then .error "log2_root_size is negative"
  else if log2LeafSize < 0 then .error "log2_leaf_size is negative"
  else if log2WordSize < 0 then .error "log2_word_size is negative"
  else if _hleaf : log2RootSize < log2LeafSize then
    .error "log2_leaf_size is greater than log2_root_size"
  else if _hword : log2LeafSize < log2WordSize then
    .error "log2_word_size is greater than log2_word_size"
  else if _hroot : 64 ≤ log2RootSize then .error "tree is too large for address type"
  else
    .ok { log2RootSize := log2RootSize.toNat, log2LeafSize := log2LeafSize.toNat, log2WordSize := log2WordSize.toNat,
          word_le := toNat_le_of_not_lt _hword, leaf_le := toNat_le_of_not_lt _hleaf,
          root_lt := toNat_lt_of_not_le _hroot }

namespace TreeSizes

variable {H : Type}

def depth (z : TreeSizes) : Nat := z.log2RootSize - z.log2LeafSize

/-- The pristine subtree of level `i` above the leaves. -/
def pristine (h : Hasher H) (z : TreeSizes) (i : Nat) : H := h.pristine z.log2WordSize (z.log2LeafSize + i)

theorem pristine_eq (h : Hasher H) (z : TreeSizes) (i : Nat) :
    z.pristine h i = Merkle.pristine h.concat (z.pristine h 0) i := h.pristine_add z.word_le i

theorem depth_lt (z : TreeSizes) : z.depth < 64 := Nat.lt_of_le_of_lt (sub_le _ _) z.root_lt

end TreeSizes

theorem checkLog2Sizes_ok {log2RootSize log2LeafSize log2WordSize : Int} {z : TreeSizes}
    (hok : checkLog2Sizes log2RootSize log2LeafSize log2WordSize = .ok z) :
    log2RootSize = z.log2RootSize ∧ log2LeafSize = z.log2LeafSize ∧ log2WordSize = z.log2WordSize := by
  unfold checkLog2Sizes at hok
  repeat split at hok <;> first | cases hok; done | skip
  obtain rfl := Except.ok.inj hok
  dsimp only
  omega

/-! ## Proofs -/

section
variable {H : Type} (z : TreeSizes) (getNodeHash : Word → Int → Except String H)

/-- The proof of a node. The third check is that of the constructor of proofs. -/
def getProof (address : Word) (log2Size : Int) : Except String (MerkleTreeProof H) := do
  throwUnless (¬ (log2Size < z.log2LeafSize ∨ z.log2RootSize < log2Size)) "log2_size is out of bounds"
  throwUnless (address = (address >>> log2Size.toNat) <<< log2Size.toNat) "address is misaligned"
  throwUnless (0 < z.log2RootSize) "log2_root_size is not positive"
  let rootHash ← getNodeHash 0 z.log2RootSize
  let targetHash ← getNodeHash address log2Size
  let siblingHashes ← (List.range' log2Size.toNat (z.log2RootSize - log2Size.toNat)).mapM fun log2SiblingSize : Nat =>
    getNodeHash (address ^^^ ((1 : Word) <<< log2SiblingSize)) log2SiblingSize
  .ok { targetAddress := address, log2TargetSize := log2Size.toNat, targetHash, log2RootSize := z.log2RootSize,
        rootHash, siblingHashes }

end

variable {H : Type} {h : Hasher H} {z : TreeSizes} {f : Nat → H}

/-- The leaves of a tree, with pristine ones at the end. -/
def leavesOf (h : Hasher H) (z : TreeSizes) (ls : List H) : Nat → H := BackMerkleTree.filled (z.pristine h 0) ls

/-- The sizes and addresses of the nodes of a tree. -/
def TreeSizes.IsNode (z : TreeSizes) (address : Word) (log2Size : Int) : Prop :=
  z.log2LeafSize ≤ log2Size ∧ log2Size ≤ z.log2RootSize ∧ address.toNat < 2 ^ z.log2RootSize

instance (z : TreeSizes) (address : Word) (log2Size : Int) : Decidable (z.IsNode address log2Size) :=
  inferInstanceAs (Decidable (_ ∧ _ ∧ _))

/-- The hash of a node of the tree over the leaves `f`. -/
def listNode (h : Hasher H) (z : TreeSizes) (f : Nat → H) (address : Word) (log2Size : Nat) : H :=
  nodeHash h.concat f (log2Size - z.log2LeafSize) (address.toNat / 2 ^ log2Size)

/-- The proof of a node of the tree over the leaves `f`. -/
def listProof (h : Hasher H) (z : TreeSizes) (f : Nat → H) (address : Word) (log2Size : Nat) : MerkleTreeProof H :=
  { targetAddress := address, log2TargetSize := log2Size, targetHash := listNode h z f address log2Size,
    log2RootSize := z.log2RootSize, rootHash := nodeHash h.concat f z.depth 0,
    siblingHashes := siblings h.concat f (log2Size - z.log2LeafSize) (address.toNat / 2 ^ log2Size)
      (z.log2RootSize - log2Size) }

theorem listProof_verify [DecidableEq H] {address : Word} {log2Size : Nat} (h1 : z.log2LeafSize ≤ log2Size)
    (h2 : log2Size ≤ z.log2RootSize) (haddress : address.toNat < 2 ^ z.log2RootSize) :
    (listProof h z f address log2Size).verify h = true := by
  have hlevels : (listProof h z f address log2Size).log2TargetSize +
      (listProof h z f address log2Size).siblingHashes.length ≤ 64 := by
    simp only [listProof, length_siblings, Nat.add_sub_cancel' h2]
    exact Nat.le_of_lt z.root_lt
  rw [MerkleTreeProof.verify, decide_eq_true_iff, MerkleTreeProof.bubbleUp, bubbleUp_eq_climb _ _ _ _ _ hlevels]
  dsimp only [listProof, listNode]
  rw [climb_siblings, Nat.div_div_eq_div_mul, ← Nat.pow_add, Nat.add_sub_cancel' h2, div_eq_of_lt haddress,
    TreeSizes.depth]
  congr 1
  omega

/-- The hashes of the nodes are those of the tree over the leaves `f`, and there are no other nodes. -/
structure HasNodes (h : Hasher H) (z : TreeSizes) (f : Nat → H) (getNodeHash : Word → Int → Except String H) :
    Prop where
  hash : ∀ {address : Word} {log2Size : Nat}, z.IsNode address log2Size →
    getNodeHash address log2Size = .ok (listNode h z f address log2Size)
  throws : ∀ {address : Word} {log2Size : Int}, ¬ z.IsNode address log2Size →
    ∃ e, getNodeHash address log2Size = .error e

def TreeSizes.IsTarget (z : TreeSizes) (address : Word) (log2Size : Int) : Prop :=
  z.IsNode address log2Size ∧ address.toNat % 2 ^ log2Size.toNat = 0 ∧ 0 < z.log2RootSize

theorem mapM_ok {α β ε : Type} {g : α → Except ε β} {k : α → β} : ∀ {xs : List α}, (∀ x ∈ xs, g x = .ok (k x)) →
    xs.mapM g = .ok (xs.map k)
  | [], _ => rfl
  | x :: xs, hx => by
    obtain ⟨h1, h2⟩ := forall_mem_cons.mp hx
    rw [mapM_cons, h1, mapM_ok h2]
    rfl

theorem toNat_xor_div (address : Word) {k : Nat} (hk : k < 64) :
    (address ^^^ ((1 : Word) <<< k)).toNat / 2 ^ k = sibling (address.toNat / 2 ^ k) := by
  rw [toNat_xor, Bits.toNat_one_shiftLeft hk, ← shiftRight_eq_div_pow, shiftRight_xor_distrib,
    shiftRight_eq_div_pow, shiftRight_eq_div_pow, Nat.div_self (Nat.two_pow_pos k)]
  have hmod : (address.toNat / 2 ^ k ^^^ 1) % 2 = (address.toNat / 2 ^ k + 1) % 2 := xor_mod_two_eq
  have hdiv : (address.toNat / 2 ^ k ^^^ 1) / 2 = address.toNat / 2 ^ k / 2 := by
    rw [Nat.xor_div_two, show 1 / 2 = 0 from rfl, Nat.xor_zero]
  unfold sibling
  split <;> omega

theorem toNat_xor_lt {address : Word} {k n : Nat} (hk : k < 64) (hkn : k < n) (ha : address.toNat < 2 ^ n) :
    (address ^^^ ((1 : Word) <<< k)).toNat < 2 ^ n := by
  rw [toNat_xor, Bits.toNat_one_shiftLeft hk]
  exact xor_lt_two_pow ha (Nat.pow_lt_pow_right (by decide) hkn)

theorem aligned_iff (address : Word) (k : Nat) :
    address = (address >>> k) <<< k ↔ address.toNat % 2 ^ k = 0 := by
  have hle := Nat.div_mul_le_self address.toNat (2 ^ k)
  have hmod := div_add_mod' address.toNat (2 ^ k)
  rw [← BitVec.toNat_inj, BitVec.toNat_shiftLeft, BitVec.toNat_ushiftRight, Nat.shiftRight_eq_div_pow, Nat.shiftLeft_eq,
    mod_eq_of_lt (Nat.lt_of_le_of_lt hle address.isLt)]
  omega

/-- The index of a node is within its level iff its address is within the tree. -/
theorem not_one_shiftLeft_le_iff {address : Word} {k n : Nat} (hn : n < 64) (hk : k ≤ n) :
    ¬ (1 : Word) <<< (n - k) ≤ address >>> k ↔ address.toNat < 2 ^ n := by
  rw [BitVec.not_le, lt_def, Bits.toNat_one_shiftLeft (by omega), toNat_ushiftRight,
    shiftRight_eq_div_pow, Nat.div_lt_iff_lt_mul (Nat.two_pow_pos k), ← Nat.pow_add, Nat.sub_add_cancel hk]

section
variable {getNodeHash : Word → Int → Except String H} (hn : HasNodes h z f getNodeHash)
include hn

theorem HasNodes.siblings_eq {address : Word} {log2Size : Nat} (h1 : z.log2LeafSize ≤ log2Size)
    (ha : address.toNat < 2 ^ z.log2RootSize) :
    ((range' log2Size (z.log2RootSize - log2Size)).mapM fun log2SiblingSize : Nat =>
        getNodeHash (address ^^^ ((1 : Word) <<< log2SiblingSize)) log2SiblingSize) =
      .ok (siblings h.concat f (log2Size - z.log2LeafSize) (address.toNat / 2 ^ log2Size)
        (z.log2RootSize - log2Size)) := by
  have hsiblings : siblings h.concat f (log2Size - z.log2LeafSize) (address.toNat / 2 ^ log2Size)
      (z.log2RootSize - log2Size) = (range' log2Size (z.log2RootSize - log2Size)).map fun k =>
        nodeHash h.concat f (k - z.log2LeafSize) (sibling (address.toNat / 2 ^ k)) := by
    obtain ⟨d, rfl⟩ := Nat.exists_eq_add_of_le h1
    rw [Nat.add_sub_cancel_left, Nat.pow_add, ← Nat.div_div_eq_div_mul, siblings_eq_map, ← map_add_range',
      map_map]
    refine map_congr_left fun k _ => ?_
    rw [Function.comp_apply, Nat.add_sub_cancel_left, Nat.pow_add, Nat.div_div_eq_div_mul]
  rw [hsiblings]
  refine mapM_ok fun k hk => ?_
  obtain ⟨hk1, hk2⟩ := mem_range'_1.mp hk
  have hroot := z.root_lt
  rw [hn.hash ⟨by omega, by omega, toNat_xor_lt (by omega) (by omega) ha⟩, listNode, toNat_xor_div _ (by omega)]

theorem HasNodes.getProof_eq {address : Word} {log2Size : Nat} (ht : z.IsTarget address log2Size) :
    getProof z getNodeHash address log2Size = .ok (listProof h z f address log2Size) := by
  obtain ⟨⟨h1, h2, ha⟩, hmod, hpos⟩ := ht
  have hbounds : ¬ ((log2Size : Int) < z.log2LeafSize ∨ (z.log2RootSize : Int) < log2Size) := by omega
  have haligned := (aligned_iff address log2Size).mpr hmod
  have hroot : getNodeHash 0 z.log2RootSize = .ok (nodeHash h.concat f z.depth 0) := by
    rw [hn.hash ⟨by omega, by omega, Nat.two_pow_pos _⟩, listNode, TreeSizes.depth]
    simp
  have hsiblings := hn.siblings_eq (show z.log2LeafSize ≤ log2Size by omega) ha
  simp only [getProof, throwUnless, Int.toNat_natCast, if_pos hbounds, if_pos haligned, if_pos hpos, hroot,
    hn.hash ⟨h1, h2, ha⟩, hsiblings]
  rfl

theorem HasNodes.getProof_throws {address : Word} {log2Size : Int} (ht : ¬ z.IsTarget address log2Size) :
    ∃ e, getProof z getNodeHash address log2Size = .error e := by
  cases hp : getProof z getNodeHash address log2Size with
  | error e => exact ⟨e, rfl⟩
  | ok p =>
    simp only [getProof, except_bind_ok_iff, throwUnless_ok_iff] at hp
    obtain ⟨-, hbounds, -, haligned, -, hpos, -, -, targetHash, htarget, -⟩ := hp
    refine absurd ⟨?_, (aligned_iff _ _).mp haligned, hpos⟩ ht
    by_contra hnode
    obtain ⟨e, he⟩ := hn.throws hnode
    rw [he] at htarget
    cases htarget

end

end MachineEmulator
