import MachineEmulator.Lib.Bytes
import MachineEmulator.Lib.Merkle

/-!
# Hashes of byte images

* `Hasher` : the hash of a word of data and of two concatenated hashes;
* `Hasher.leaf m`, `Hasher.root m` : the Merkle tree of the `2 ^ 64` bytes of `m`, with leaves of
  `2 ^ 5` bytes;
* `getMerkleTreeHash` : the Merkle hash of a buffer, as the accessors compute it. It is the node of
  any image that holds the buffer (`getMerkleTreeHash_readBytes`);
* `Hasher.CollisionFree` : distinct words and distinct pairs of hashes have distinct hashes. The hasher
  of terms, `freeHasher`, is one.
-/

namespace MachineEmulator

open Merkle

def log2WordSize : Nat := 5
def log2PageSize : Nat := 12
def log2RootSize : Nat := 64
def wordSize : Nat := 32

structure Hasher (H : Type) where
  word : List Byte → H
  concat : H → H → H

namespace Hasher

variable {H : Type} (h : Hasher H)

/-- The hash of the `i`-th word of an image. -/
def leaf (m : Nat → Byte) (i : Nat) : H := h.word (readBytes m (wordSize * i) wordSize)

def root (m : Nat → Byte) : H := nodeHash h.concat (h.leaf m) (log2RootSize - log2WordSize) 0

/-- No two words, and no two pairs of hashes, have the same hash. -/
structure CollisionFree : Prop where
  word_inj : ∀ a b : List Byte, a.length = wordSize → b.length = wordSize →
    h.word a = h.word b → a = b
  concat_inj : Merkle.CollisionFree h.concat

end Hasher

inductive FreeHash where
  | word (bs : List Byte)
  | concat (l r : FreeHash)
  deriving DecidableEq

instance : Inhabited FreeHash := ⟨.word []⟩

def freeHasher : Hasher FreeHash := { word := .word, concat := .concat }

theorem freeHasher_collisionFree : freeHasher.CollisionFree := by
  constructor
  · intro a b _ _ hab
    exact FreeHash.word.inj hab
  · intro a b c d h
    exact FreeHash.concat.inj h

/-- The Merkle hash of a buffer, by halves down to the word size. -/
def getMerkleTreeHash {H : Type} (h : Hasher H) (data : List Byte) : Except String H :=
  if _hlt : wordSize < data.length then
    if data.length % 2 = 1 then
      .error "data_length must be a power of 2 multiple of word_length"
    else
      match getMerkleTreeHash h (data.take (data.length / 2)),
          getMerkleTreeHash h (data.drop (data.length / 2)) with
      | .ok l, .ok r => .ok (h.concat l r)
      | .error e, _ => .error e
      | .ok _, .error e => .error e
  else if data.length ≠ wordSize then
    .error "data_length must be a power of 2 multiple of word_length"
  else .ok (h.word data)
termination_by data.length
decreasing_by
  all_goals
    simp only [List.length_take, List.length_drop, wordSize] at *
    omega

variable {H : Type} {h : Hasher H}

/-! ## Leaves -/

variable {m m' : Nat → Byte} {i d : Nat}

theorem Hasher.leaf_congr (hm : ∀ a, wordSize * i ≤ a → a < wordSize * (i + 1) → m a = m' a) :
    h.leaf m i = h.leaf m' i := by
  unfold Hasher.leaf
  rw [readBytes_congr fun k hk => hm _ (by omega) (by rw [Nat.mul_add]; omega)]

theorem Hasher.CollisionFree.leaf_inj (hcf : h.CollisionFree) (he : h.leaf m i = h.leaf m' i) :
    ∀ a, wordSize * i ≤ a → a < wordSize * (i + 1) → m a = m' a := by
  intro a h1 h2
  have hb := readBytes_inj (hcf.word_inj _ _ (length_readBytes _ _ _) (length_readBytes _ _ _) he)
    (a - wordSize * i) (by rw [Nat.mul_add] at h2; omega)
  rwa [Nat.add_sub_cancel' h1] at hb

theorem Hasher.CollisionFree.node_inj (hcf : h.CollisionFree)
    (he : nodeHash h.concat (h.leaf m) d i = nodeHash h.concat (h.leaf m') d i) :
    ∀ a, wordSize * (i * 2 ^ d) ≤ a → a < wordSize * ((i + 1) * 2 ^ d) → m a = m' a := by
  intro a h1 h2
  have hw : 0 < wordSize := by decide
  refine hcf.leaf_inj (nodeHash_inj hcf.concat_inj he (a / wordSize) ?_ ?_) a ?_ ?_
  · exact (Nat.le_div_iff_mul_le hw).mpr (by rwa [Nat.mul_comm])
  · exact (Nat.div_lt_iff_lt_mul hw).mpr (by rwa [Nat.mul_comm])
  · exact Nat.mul_div_le a wordSize
  · exact Nat.lt_mul_div_succ a hw

/-- Images that agree on the bytes of a node agree on the node. -/
theorem Hasher.node_congr
    (hm : ∀ a, wordSize * (i * 2 ^ d) ≤ a → a < wordSize * ((i + 1) * 2 ^ d) → m a = m' a) :
    nodeHash h.concat (h.leaf m) d i = nodeHash h.concat (h.leaf m') d i := by
  refine nodeHash_congr fun j h1 h2 => Hasher.leaf_congr fun a ha hb => hm a ?_ ?_
  · exact le_trans (Nat.mul_le_mul_left _ h1) ha
  · exact lt_of_lt_of_le hb (Nat.mul_le_mul_left _ h2)

theorem Hasher.CollisionFree.root_inj (hcf : h.CollisionFree)
    (he : h.root m = h.root m') : ∀ a, a < 2 ^ 64 → m a = m' a := by
  intro a ha
  exact hcf.node_inj he a (by simp) (by simpa [wordSize, log2RootSize, log2WordSize] using ha)

/-! ## Buffers -/

theorem getMerkleTreeHash_readBytes (m : Nat → Byte) : ∀ d i,
    getMerkleTreeHash h (readBytes m (wordSize * (i * 2 ^ d)) (wordSize * 2 ^ d)) =
      .ok (nodeHash h.concat (h.leaf m) d i)
  | 0, i => by
    rw [getMerkleTreeHash]
    simp [nodeHash, Hasher.leaf]
  | d + 1, i => by
    have hpos : 0 < 2 ^ d := Nat.two_pow_pos d
    have e : wordSize * 2 ^ (d + 1) = wordSize * 2 ^ d + wordSize * 2 ^ d := by ring
    have hhalf : (wordSize * 2 ^ d + wordSize * 2 ^ d) / 2 = wordSize * 2 ^ d := by omega
    rw [getMerkleTreeHash, e]
    simp only [length_readBytes, hhalf]
    rw [dif_pos (by simp only [wordSize]; omega), if_neg (by omega), readBytes_append,
      List.take_left' (by simp), List.drop_left' (by simp),
      show wordSize * (i * 2 ^ (d + 1)) = wordSize * (2 * i * 2 ^ d) by ring,
      show wordSize * (2 * i * 2 ^ d) + wordSize * 2 ^ d = wordSize * ((2 * i + 1) * 2 ^ d) by ring,
      getMerkleTreeHash_readBytes m d, getMerkleTreeHash_readBytes m d]
    rfl

theorem readBytes_writeBytes_zero (a : Nat) (bs : List Byte) :
    bs = readBytes (writeBytes (fun _ => 0) a bs) a bs.length :=
  (readBytes_writeBytes_same _ a bs).symm

/-- A buffer that hashes to a node of an image is the bytes under that node. -/
theorem Hasher.CollisionFree.readBytes_of_hash (hcf : h.CollisionFree)
    {bs : List Byte} (hl : bs.length = wordSize * 2 ^ d)
    (hh : getMerkleTreeHash h bs = .ok (nodeHash h.concat (h.leaf m) d i)) :
    bs = readBytes m (wordSize * (i * 2 ^ d)) (wordSize * 2 ^ d) := by
  have hb := readBytes_writeBytes_zero (wordSize * (i * 2 ^ d)) bs
  rw [hl] at hb
  rw [hb, getMerkleTreeHash_readBytes] at hh
  rw [hb]
  refine readBytes_congr fun k hk => hcf.node_inj (Except.ok.inj hh) _ (by omega) ?_
  rw [Nat.add_mul, Nat.mul_add, Nat.one_mul]
  omega

end MachineEmulator
