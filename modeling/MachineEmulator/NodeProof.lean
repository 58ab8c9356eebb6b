import MachineEmulator.Consistency
import MachineEmulator.MerkleTree
import MachineEmulator.ProofSlice

/-!
# Proofs of the nodes of the sparse tree

The siblings of a proof come from three places: the nodes on the way down the tree, the hashes of pristine memory
below the last node that is there, and the data of the page the target lies in.

* `getInsidePageSiblingHashes`, `getProof` : as the tree computes them, one sibling at a time;
* `MerkleTreeProof.fill` : a proof with the siblings of some levels set; the loops of `getProof` are such;
* `referenceHash` : the node of a size on the path to an address, in the page if it is smaller;
* `getProof_eq` : the proof of an updated tree, or the error if the page data does not fit the tree.
-/

namespace MachineEmulator

open Merkle List Option Nat Machine MerkleTreeProof

variable {H : Type}

namespace MerkleTreeProof

/-- A proof with room for its siblings. -/
def blank [Inhabited H] (log2RootSize log2TargetSize : Nat) : MerkleTreeProof H :=
  { targetAddress := 0, log2TargetSize, targetHash := default, log2RootSize, rootHash := default
    siblingHashes := List.replicate (log2RootSize - log2TargetSize) default }

def make [Inhabited H] (log2RootSize log2TargetSize : Nat) : Except String (MerkleTreeProof H) := do
  throwUnless (0 < log2RootSize) "log2_root_size is not positive"
  throwUnless (log2TargetSize ≤ log2RootSize) "log2_target_size is greater than log2_root_size"
  .ok (blank log2RootSize log2TargetSize)

def setSiblingHash (p : MerkleTreeProof H) (hash : H) (log2Size : Nat) : Except String (MerkleTreeProof H) :=
  if log2Size < p.log2TargetSize ∨ p.siblingHashes.length ≤ log2Size - p.log2TargetSize then
    .error "log2_size is out of range"
  else .ok { p with siblingHashes := p.siblingHashes.set (log2Size - p.log2TargetSize) hash }

/-- The proof with the siblings of the levels from `lo` up to `hi` set. -/
def fill (p : MerkleTreeProof H) (lo hi : Nat) (s : Nat → H) : MerkleTreeProof H :=
  { p with siblingHashes := p.siblingHashes.mapIdx fun j x =>
      if lo ≤ p.log2TargetSize + j ∧ p.log2TargetSize + j < hi then s (p.log2TargetSize + j) else x }

variable {p : MerkleTreeProof H} {s : Nat → H}

@[simp] theorem length_fill (p : MerkleTreeProof H) (lo hi : Nat) (s : Nat → H) :
    (p.fill lo hi s).siblingHashes.length = p.siblingHashes.length := length_mapIdx

theorem setSiblingHash_eq {k : Nat} (h1 : p.log2TargetSize ≤ k)
    (h2 : k < p.log2TargetSize + p.siblingHashes.length) :
    p.setSiblingHash (s k) k = .ok (p.fill k (k + 1) s) := by
  rw [setSiblingHash, if_neg (by omega), fill]
  congr 2
  refine ext_getElem? fun j => ?_
  rw [List.getElem?_set, List.getElem?_mapIdx]
  by_cases hj : k - p.log2TargetSize = j
  · have hk : p.log2TargetSize + j = k := by omega
    rw [if_pos hj, if_pos (by omega), List.getElem?_eq_getElem (by omega), map_some, hk,
      if_pos ⟨Nat.le_refl _, Nat.lt_succ_self _⟩]
  · have hother : ¬ (k ≤ p.log2TargetSize + j ∧ p.log2TargetSize + j < k + 1) := by omega
    simp only [if_neg hj, if_neg hother, Option.map_id']

theorem fill_fill {a b c d lo hi : Nat}
    (hiff : ∀ k, (a ≤ k ∧ k < b) ∨ (c ≤ k ∧ k < d) ↔ lo ≤ k ∧ k < hi) : (p.fill a b s).fill c d s = p.fill lo hi s := by
  unfold fill
  congr 1
  refine ext_getElem? fun j => ?_
  simp only [List.getElem?_mapIdx, Option.map_map, ← hiff]
  congr 1
  funext x
  split_ifs <;> first | rfl | omega

theorem fill_below {a b c : Nat} (hab : a ≤ b) (hbc : b ≤ c) : (p.fill b c s).fill a b s = p.fill a c s :=
  fill_fill fun k => by omega

theorem fill_above {a b c : Nat} (hab : a ≤ b) (hbc : b ≤ c) : (p.fill a b s).fill b c s = p.fill a c s :=
  fill_fill fun k => by omega

theorem fill_self (a : Nat) : p.fill a a s = p := by
  unfold fill
  have : p.siblingHashes.mapIdx (fun j x =>
      if a ≤ p.log2TargetSize + j ∧ p.log2TargetSize + j < a then s (p.log2TargetSize + j) else x) =
      p.siblingHashes := by
    refine ext_getElem? fun j => ?_
    have hnone : ¬ (a ≤ p.log2TargetSize + j ∧ p.log2TargetSize + j < a) := by omega
    simp only [List.getElem?_mapIdx, if_neg hnone, Option.map_id']
  rw [this]

theorem fill_congr {s' : Nat → H} {lo hi : Nat} (hs : ∀ k, lo ≤ k → k < hi → s k = s' k) :
    p.fill lo hi s = p.fill lo hi s' := by
  unfold fill
  congr 1
  refine List.mapIdx_eq_mapIdx_iff.mpr fun j _ => ?_
  split
  · rename_i hk
    exact hs _ hk.1 hk.2
  · rfl

end MerkleTreeProof

namespace MachineMerkleTree

section
variable (h : Hasher H)

/-- Visiting a node of the page: a sibling of the path is stored, the target too. -/
def visitNode (log2Size log2CurrSize : Nat) (currHash : H) (parentDiverged currDiverged : Bool)
    (proof : MerkleTreeProof H) : Except String (MerkleTreeProof H) :=
  if parentDiverged then .ok proof
  else if currDiverged ∧ proof.log2TargetSize ≤ log2CurrSize then proof.setSiblingHash currHash log2CurrSize
  else if log2CurrSize = log2Size then .ok { proof with targetHash := currHash }
  else .ok proof

/-- The hash of the node above `2 ^ d` words of the page. The flags say whether the parent of the node and the node
itself are off the path to the target. -/
def getInsidePageSiblingHashes (address : Word) (log2Size : Nat) :
    Nat → List Byte → Bool → Bool → MerkleTreeProof H → Except String (H × MerkleTreeProof H)
  | 0, currData, parentDiverged, currDiverged, proof => do
    let currHash := h.word (currData.take wordSize)
    let proof ← visitNode log2Size log2WordSize currHash parentDiverged currDiverged proof
    .ok (currHash, proof)
  | d + 1, currData, parentDiverged, currDiverged, proof => do
    let childBit := address.getLsbD (log2WordSize + d)
    let (firstHash, proof) ← getInsidePageSiblingHashes address log2Size d currData
      (parentDiverged || currDiverged) childBit proof
    let (secondHash, proof) ← getInsidePageSiblingHashes address log2Size d (currData.drop (wordSize * 2 ^ d))
      (parentDiverged || currDiverged) (!childBit) proof
    let currHash := h.concat firstHash secondHash
    let proof ← visitNode log2Size (log2WordSize + (d + 1)) currHash parentDiverged currDiverged proof
    .ok (currHash, proof)

/-- Copy the siblings met on the way down, `n` levels or up to a node that is missing. -/
def copySiblings (t : MachineMerkleTree H) (address : Word) (log2StopSize : Nat) :
    Nat → NodePtr → MerkleTreeProof H → Except String (Option NodePtr × Nat × MerkleTreeProof H)
  | 0, node, proof => .ok (some node, log2StopSize, proof)
  | n + 1, node, proof => do
    let log2ChildSize := log2StopSize + n
    let pathBit := address.getLsbD log2ChildSize
    let proof ← proof.setSiblingHash (t.getChildHash h log2ChildSize node (!pathBit)) log2ChildSize
    match t.child node pathBit with
    | none => .ok (none, log2ChildSize, proof)
    | some child => copySiblings t address log2StopSize n child proof

/-- Set the `n` siblings from the target up to those of pristine memory, the highest first. -/
def setPristine (log2TargetSize : Nat) : Nat → MerkleTreeProof H → Except String (MerkleTreeProof H)
  | 0, proof => .ok proof
  | n + 1, proof => do
    let proof ← proof.setSiblingHash (getPristineHash h (log2TargetSize + n)) (log2TargetSize + n)
    setPristine log2TargetSize n proof

/-- The target below a page, and the hash of the page that goes with it. -/
def getInsidePage (address : Word) (log2TargetSize : Nat) (pageData : Option (List Byte))
    (proof : MerkleTreeProof H) : Except String (H × MerkleTreeProof H) :=
  match pageData with
  | some data =>
    getInsidePageSiblingHashes h address log2TargetSize (log2PageSize - log2WordSize) data false false proof
  | none => do
    let proof ← setPristine h log2TargetSize (log2PageSize - log2TargetSize) proof
    .ok (getPristineHash h log2PageSize, { proof with targetHash := getPristineHash h log2TargetSize })

variable [Inhabited H] [DecidableEq H]

/-- The lower part of a proof, from where the way down the tree ended. -/
def getLowerProof (t : MachineMerkleTree H) (address : Word) (log2TargetSize : Nat) (pageData : Option (List Byte))
    (node : Option NodePtr) (log2NodeSize : Nat) (proof : MerkleTreeProof H) : Except String (MerkleTreeProof H) :=
  match node with
  | none => do
    throwUnless (pageData.isNone = true) "inconsistent merkle tree"
    let proof ← setPristine h log2TargetSize (log2NodeSize - log2TargetSize) proof
    .ok { proof with targetHash := getPristineHash h log2TargetSize }
  | some node =>
    let hash := (t.hashAt node).getD default
    if log2NodeSize = log2PageSize ∧ log2TargetSize < log2PageSize then do
      let (pageHash, proof) ← getInsidePage h address log2TargetSize pageData proof
      throwUnless (hash = pageHash) "inconsistent merkle tree"
      .ok proof
    else .ok { proof with targetHash := hash }

def getProof (t : MachineMerkleTree H) (targetAddress : Word) (log2TargetSize : Int)
    (pageData : Option (List Byte)) : Except String (MerkleTreeProof H) := do
  throwUnless (log2TargetSize ≤ log2RootSize ∧ log2WordSize ≤ log2TargetSize) "log2_target_size is out of bounds"
  throwUnless (targetAddress.toNat % 2 ^ log2TargetSize.toNat = 0) "misaligned target address"
  let log2TargetSize := log2TargetSize.toNat
  let proof ← MerkleTreeProof.make log2RootSize log2TargetSize
  let log2StopSize := max log2TargetSize log2PageSize
  let (node, log2NodeSize, proof) ←
    copySiblings h t targetAddress log2StopSize (log2RootSize - log2StopSize) .root proof
  let proof ← getLowerProof h t targetAddress log2TargetSize pageData node log2NodeSize proof
  .ok { proof with targetAddress := targetAddress, rootHash := t.getRootHash h }

end

/-! ## Inside a page -/

section
variable {h : Hasher H} {address : Word} {log2Size : Nat}

theorem getInsidePageSiblingHashes_diverged (d : Nat) (data : List Byte) (cd : Bool) (p : MerkleTreeProof H) :
    getInsidePageSiblingHashes h address log2Size d data true cd p = .ok (getPageNodeHash h d data, p) := by
  induction d generalizing data cd with
  | zero => rfl
  | succ d ih =>
    rw [getInsidePageSiblingHashes, Bool.true_or, ih]
    dsimp only [bind, Except.bind]
    rw [ih]
    rfl

theorem getInsidePageSiblingHashes_sibling (d : Nat) (data : List Byte) (p : MerkleTreeProof H) :
    getInsidePageSiblingHashes h address log2Size d data false true p =
      (visitNode log2Size (log2WordSize + d) (getPageNodeHash h d data) false true p).map
        fun p => (getPageNodeHash h d data, p) := by
  cases d with
  | zero => rfl
  | succ d =>
    rw [getInsidePageSiblingHashes, Bool.false_or, getInsidePageSiblingHashes_diverged]
    dsimp only [bind, Except.bind]
    rw [getInsidePageSiblingHashes_diverged]
    rfl

/-- The node of a size on the path to an address, and its sibling, in memory with the given bytes. -/
def wordNode (h : Hasher H) (g : Nat → Byte) (log2Size index : Nat) : H :=
  nodeHash h.concat (h.leaf g) (log2Size - log2WordSize) index

/-- The proof with the sibling of a level of the path. -/
def levelFilled (log2Size k : Nat) (s : Nat → H) (p : MerkleTreeProof H) : MerkleTreeProof H :=
  if log2Size ≤ k then p.fill k (k + 1) s else p

/-- The proof with the target and the siblings of the path below a node of the page. -/
def pathFilled (log2Size k : Nat) (targetHash : H) (s : Nat → H) (p : MerkleTreeProof H) : MerkleTreeProof H :=
  if log2Size ≤ k then { p.fill log2Size k s with targetHash } else p

section
variable {k : Nat} {x : H} {s : Nat → H} (p : MerkleTreeProof H)

@[simp] theorem log2TargetSize_levelFilled : (levelFilled log2Size k s p).log2TargetSize = p.log2TargetSize := by
  unfold levelFilled
  split <;> rfl

@[simp] theorem length_levelFilled :
    (levelFilled log2Size k s p).siblingHashes.length = p.siblingHashes.length := by
  unfold levelFilled
  split
  · exact length_fill ..
  · rfl

@[simp] theorem log2TargetSize_pathFilled : (pathFilled log2Size k x s p).log2TargetSize = p.log2TargetSize := by
  unfold pathFilled
  split <;> rfl

@[simp] theorem length_pathFilled :
    (pathFilled log2Size k x s p).siblingHashes.length = p.siblingHashes.length := by
  unfold pathFilled
  split
  · exact length_fill ..
  · rfl

/-- The sibling of a level can be stored before or after the path below it. -/
theorem levelFilled_pathFilled : levelFilled log2Size k s (pathFilled log2Size k x s p) =
    pathFilled log2Size k x s (levelFilled log2Size k s p) := by
  unfold levelFilled pathFilled
  by_cases hle : log2Size ≤ k
  · simp only [if_pos hle]
    rw [fill_below hle (le_succ _),
      ← fill_above (b := k) hle (le_succ _)]
    rfl
  · simp only [if_neg hle]

theorem visitNode_path {currHash : H} (hx : k + 1 = log2Size → currHash = x) :
    visitNode log2Size (k + 1) currHash false false (pathFilled log2Size k x s (levelFilled log2Size k s p)) =
      .ok (pathFilled log2Size (k + 1) x s p) := by
  unfold visitNode pathFilled levelFilled
  rw [if_neg (by simp), if_neg (by simp)]
  by_cases hle : log2Size ≤ k
  · rw [if_neg (by omega), if_pos hle, if_pos hle, if_pos (by omega),
      fill_below hle (le_succ _)]
  · rw [if_neg hle, if_neg hle]
    by_cases htop : k + 1 = log2Size
    · rw [if_pos htop, if_pos (Nat.le_of_eq htop.symm), htop, fill_self, hx htop]
    · rw [if_neg htop, if_neg (by omega)]

end

section
variable {g : Nat → Byte} {s : Nat → H} {p : MerkleTreeProof H}

theorem getInsidePageSiblingHashes_off (hs : ∀ k, s k = wordNode h g k (sibling (address.toNat / 2 ^ k)))
    (hp : p.log2TargetSize = log2Size) {d n i : Nat} (hn : wordSize * 2 ^ d ≤ n)
    (hroom : log2WordSize + d < log2Size + p.siblingHashes.length)
    (hi : i = sibling (address.toNat / 2 ^ (log2WordSize + d))) :
    getInsidePageSiblingHashes h address log2Size d (readBytes g (wordSize * (i * 2 ^ d)) n) false true p =
      .ok (wordNode h g (log2WordSize + d) i, levelFilled log2Size (log2WordSize + d) s p) := by
  have hhash : getPageNodeHash h d (readBytes g (wordSize * (i * 2 ^ d)) n) = s (log2WordSize + d) := by
    rw [getPageNodeHash_readBytes g d i n hn, hs, ← hi, wordNode, Nat.add_sub_cancel_left]
  have hvisit : visitNode log2Size (log2WordSize + d) (s (log2WordSize + d)) false true p =
      .ok (levelFilled log2Size (log2WordSize + d) s p) := by
    unfold visitNode levelFilled
    by_cases hle : log2Size ≤ log2WordSize + d
    · rw [if_neg (by simp), if_pos ⟨rfl, by rwa [hp]⟩, if_pos hle]
      exact setSiblingHash_eq (by rwa [hp]) (by rwa [hp])
    · rw [if_neg (by simp), if_neg (by rw [hp]; exact fun hc => hle hc.2), if_neg (by omega), if_neg hle]
  rw [getInsidePageSiblingHashes_sibling, hhash, hvisit, hs, ← hi]
  rfl

theorem wordNode_succ (d i : Nat) : wordNode h g (log2WordSize + d + 1) i =
    h.concat (wordNode h g (log2WordSize + d) (2 * i)) (wordNode h g (log2WordSize + d) (2 * i + 1)) := by
  rw [wordNode, wordNode, wordNode, Nat.add_assoc, Nat.add_sub_cancel_left, Nat.add_sub_cancel_left, nodeHash]

theorem getInsidePageSiblingHashes_path (hs : ∀ k, s k = wordNode h g k (sibling (address.toNat / 2 ^ k)))
    (hp : p.log2TargetSize = log2Size) (h1 : log2WordSize ≤ log2Size) {d n : Nat} (hn : wordSize * 2 ^ d ≤ n)
    (hroom : log2WordSize + d ≤ log2Size + p.siblingHashes.length) :
    getInsidePageSiblingHashes h address log2Size d
        (readBytes g (wordSize * (address.toNat / 2 ^ (log2WordSize + d) * 2 ^ d)) n) false false p =
      .ok (wordNode h g (log2WordSize + d) (address.toNat / 2 ^ (log2WordSize + d)),
        pathFilled log2Size (log2WordSize + d) (wordNode h g log2Size (address.toNat / 2 ^ log2Size)) s p) := by
  generalize hx : wordNode h g log2Size (address.toNat / 2 ^ log2Size) = x at *
  induction d generalizing n p with
  | zero =>
    have hhash : h.word ((readBytes g (wordSize * (address.toNat / 2 ^ (log2WordSize + 0) * 2 ^ 0)) n).take wordSize) =
        wordNode h g (log2WordSize + 0) (address.toNat / 2 ^ (log2WordSize + 0)) := by
      rw [take_readBytes (by simpa using hn), Nat.pow_zero, Nat.mul_one]
      rfl
    rw [getInsidePageSiblingHashes, hhash]
    unfold visitNode pathFilled
    by_cases hle : log2Size ≤ log2WordSize
    · obtain rfl : log2WordSize = log2Size := Nat.le_antisymm h1 hle
      rw [if_neg (by simp), if_neg (by simp), if_pos rfl, Nat.add_zero, if_pos (Nat.le_refl _),
        fill_self, hx]
      rfl
    · rw [if_neg (by simp), if_neg (by simp), if_neg (by omega), Nat.add_zero, if_neg hle]
      rfl
  | succ d ih =>
    have e : wordSize * 2 ^ (d + 1) = wordSize * 2 ^ d + wordSize * 2 ^ d := by ring
    have hbits := index_bits (i := address.toNat) (n := log2WordSize + d)
    have hvisit : visitNode log2Size (log2WordSize + d + 1)
        (wordNode h g (log2WordSize + d + 1) (address.toNat / 2 ^ (log2WordSize + d + 1))) false false
        (pathFilled log2Size (log2WordSize + d) x s (levelFilled log2Size (log2WordSize + d) s p)) =
        .ok (pathFilled log2Size (log2WordSize + d + 1) x s p) :=
      visitNode_path p fun hk => by rw [hk, hx]
    rw [← Nat.add_assoc] at hroom
    rw [getInsidePageSiblingHashes, drop_readBytes (by omega), Bool.or_false, ← Nat.add_assoc]
    rw [wordNode_succ] at hvisit ⊢
    generalize address.toNat / 2 ^ (log2WordSize + d + 1) = q at hbits hvisit ⊢
    rw [show wordSize * (q * 2 ^ (d + 1)) = wordSize * (2 * q * 2 ^ d) by ring,
      show wordSize * (2 * q * 2 ^ d) + wordSize * 2 ^ d = wordSize * ((2 * q + 1) * 2 ^ d) by ring]
    by_cases hb : address.toNat.testBit (log2WordSize + d) = true
    · -- the path goes right: the sibling comes first
      rw [if_pos hb] at hbits
      have hfirst := getInsidePageSiblingHashes_off hs hp (d := d) (n := n) (i := 2 * q) (by omega) (by omega)
        (by rw [hbits, sibling]; split <;> omega)
      have hsecond := ih (p := levelFilled log2Size (log2WordSize + d) s p) (n := n - wordSize * 2 ^ d) (by simpa)
        (by omega) (by simp; omega)
      rw [hbits] at hsecond
      rw [show address.getLsbD (log2WordSize + d) = true from hb, hfirst]
      dsimp only [bind, Except.bind]
      rw [Bool.not_true, hsecond]
      dsimp only
      rw [hvisit]
    · rw [if_neg hb] at hbits
      have hfirst := ih (p := p) (n := n) hp (by omega) (by omega)
      rw [hbits] at hfirst
      have hsecond := getInsidePageSiblingHashes_off hs
        (p := pathFilled log2Size (log2WordSize + d) x s p) (by simpa) (d := d) (n := n - wordSize * 2 ^ d)
        (i := 2 * q + 1) (by omega) (by simp; omega) (by rw [hbits, sibling, if_pos (by omega)])
      rw [show address.getLsbD (log2WordSize + d) = false from Bool.not_eq_true _ |>.mp hb, hfirst]
      dsimp only [bind, Except.bind]
      rw [Bool.not_false, hsecond]
      dsimp only
      rw [levelFilled_pathFilled, hvisit]

end

/-! ## The way down the tree -/

section
variable {f : Nat → H} {t : MachineMerkleTree H} {p : MerkleTreeProof H}

theorem setPristine_eq (n : Nat) (hroom : log2Size + n ≤ p.log2TargetSize + p.siblingHashes.length)
    (hp : p.log2TargetSize ≤ log2Size) :
    setPristine h log2Size n p = .ok (p.fill log2Size (log2Size + n) (getPristineHash h)) := by
  induction n generalizing p with
  | zero =>
    rw [setPristine, Nat.add_zero, fill_self]
  | succ n ih =>
    rw [setPristine, setSiblingHash_eq (by omega) (by omega)]
    have hroom' : log2Size + n ≤ (p.fill (log2Size + n) (log2Size + n + 1) (getPristineHash h)).log2TargetSize +
        (p.fill (log2Size + n) (log2Size + n + 1) (getPristineHash h)).siblingHashes.length := by
      rw [length_fill]
      exact Nat.le_trans (le_succ _) hroom
    refine (ih hroom' hp).trans ?_
    rw [fill_below (by omega) (by omega), Nat.add_assoc]

theorem Updated.pristine_below (ht : t.Updated h f) {d e i : Nat} (hde : d ≤ e)
    (he : e ≤ treeHeight) (habsent : ¬ t.Mem ⟨e, i / 2 ^ (e - d)⟩) :
    nodeHash h.concat f d i = getPristineHash h (log2PageSize + d) := by
  have hnone : t.hashAt ⟨d, i⟩ = none := by
    by_contra hne
    have hm := ht.path_mem (mem_iff_hashAt.mpr (Option.ne_none_iff_exists'.mp hne)) (e - d) (by omega)
    rw [Nat.add_sub_cancel' hde] at hm
    exact habsent hm
  rw [← ht.hash_eq d i (by omega), hnone, getD_none]

theorem Updated.copySiblings_eq (ht : t.Updated h f) {s : Nat → H} (e n : Nat) (hsib : ∀ k, e ≤ k → k < e + n →
      s (log2PageSize + k) = nodeHash h.concat f k (sibling (address.toNat / 2 ^ (log2PageSize + k))))
    (hen : e + n ≤ treeHeight) (hp : p.log2TargetSize ≤ log2PageSize + e)
    (hroom : log2PageSize + e + n ≤ p.log2TargetSize + p.siblingHashes.length)
    (hm : t.Mem ⟨e + n, address.toNat / 2 ^ (log2PageSize + (e + n))⟩) :
    (t.Mem ⟨e, address.toNat / 2 ^ (log2PageSize + e)⟩ ∧
      copySiblings h t address (log2PageSize + e) n ⟨e + n, address.toNat / 2 ^ (log2PageSize + (e + n))⟩ p =
        .ok (some ⟨e, address.toNat / 2 ^ (log2PageSize + e)⟩, log2PageSize + e,
          p.fill (log2PageSize + e) (log2PageSize + e + n) s)) ∨
    ∃ m, m < n ∧ ¬ t.Mem ⟨e + m, address.toNat / 2 ^ (log2PageSize + (e + m))⟩ ∧
      copySiblings h t address (log2PageSize + e) n ⟨e + n, address.toNat / 2 ^ (log2PageSize + (e + n))⟩ p =
        .ok (none, log2PageSize + e + m, p.fill (log2PageSize + e + m) (log2PageSize + e + n) s) := by
  induction n generalizing p with
  | zero =>
    refine .inl ⟨hm, ?_⟩
    rw [copySiblings, Nat.add_zero, Nat.add_zero, fill_self]
  | succ n ih =>
    have hbits := index_bits (i := address.toNat) (n := log2PageSize + (e + n))
    have hchild : ∀ bit : Bool, (NodePtr.mk (e + (n + 1)) (address.toNat / 2 ^ (log2PageSize + (e + (n + 1))))).childPtr
        bit = ⟨e + n, 2 * (address.toNat / 2 ^ (log2PageSize + (e + n) + 1)) + bit.toNat⟩ := fun bit => rfl
    have hpath : (NodePtr.mk (e + (n + 1)) (address.toNat / 2 ^ (log2PageSize + (e + (n + 1))))).childPtr
        (address.getLsbD (log2PageSize + e + n)) = ⟨e + n, address.toNat / 2 ^ (log2PageSize + (e + n))⟩ := by
      rw [hchild, hbits, BitVec.getLsbD, Nat.add_assoc log2PageSize e n]
      cases address.toNat.testBit (log2PageSize + (e + n)) <;> rfl
    have hhash : t.getChildHash h (log2PageSize + e + n)
        ⟨e + (n + 1), address.toNat / 2 ^ (log2PageSize + (e + (n + 1)))⟩ (!address.getLsbD (log2PageSize + e + n)) =
        s (log2PageSize + e + n) := by
      rw [getChildHash_eq, hchild, Nat.add_assoc log2PageSize e n, ht.hash_eq _ _ (by omega),
        hsib _ (by omega) (by omega), hbits, BitVec.getLsbD, sibling]
      cases address.toNat.testBit (log2PageSize + (e + n)) <;> simp
    rw [copySiblings, hhash, setSiblingHash_eq (by omega) (by omega)]
    rw [child, hpath]
    by_cases hmem : t.Mem ⟨e + n, address.toNat / 2 ^ (log2PageSize + (e + n))⟩
    · simp only [show (t.node _).isSome = true from hmem, if_true]
      have hroom' : log2PageSize + e + n ≤ (p.fill (log2PageSize + e + n) (log2PageSize + e + n + 1) s).log2TargetSize +
          (p.fill (log2PageSize + e + n) (log2PageSize + e + n + 1) s).siblingHashes.length := by
        rw [length_fill]
        exact Nat.le_trans (le_succ _) hroom
      rcases ih (fun k h1 h2 => hsib k h1 (by omega)) (by omega) (by exact hp) hroom' hmem with
        ⟨hlow, heq⟩ | ⟨m, hmn, hno, heq⟩
      · refine .inl ⟨hlow, heq.trans ?_⟩
        rw [fill_below (by omega) (by omega), Nat.add_assoc]
      · refine .inr ⟨m, by omega, hno, heq.trans ?_⟩
        rw [fill_below (by omega) (by omega), Nat.add_assoc (log2PageSize + e) n]
    · simp only [show ¬ (t.node _).isSome = true from hmem]
      exact .inr ⟨n, lt_succ_self n, hmem, rfl⟩

end

/-! ## The proof of a node -/

/-- Memory with the data of a page, or zeros. -/
def pageImage (page : Nat) (pageData : Option (List Byte)) (x : Nat) : Byte :=
  (pageData.getD []).getD (x - pmaPageSize * page) 0

/-- The node of a size in the tree over the page hashes `f`, or in the tree of the page of an address if it is
smaller. -/
def referenceHash (h : Hasher H) (f : Nat → H) (pageData : Option (List Byte)) (address : Word)
    (log2Size index : Nat) : H :=
  if log2Size < log2PageSize then wordNode h (pageImage (address.toNat / pmaPageSize) pageData) log2Size index
  else nodeHash h.concat f (log2Size - log2PageSize) index

/-- The page data that goes with a target: none above the pages; in a page, its data, which may be left out if the
page is pristine. -/
inductive Given (h : Hasher H) (f : Nat → H) (t : MachineMerkleTree H) (address : Word) (log2Size : Nat) :
    Option (List Byte) → Prop
  | above : log2PageSize ≤ log2Size → Given h f t address log2Size none
  | present (data : List Byte) : log2Size < log2PageSize → t.Mem ⟨0, address.toNat / pmaPageSize⟩ →
    data.length = pmaPageSize →
    Machine.getPageNodeHash h (log2PageSize - log2WordSize) data = f (address.toNat / pmaPageSize) →
    Given h f t address log2Size (some data)
  | pristine : log2Size < log2PageSize → f (address.toNat / pmaPageSize) = getPristineHash h log2PageSize →
    Given h f t address log2Size none

section
variable {f : Nat → H} {t : MachineMerkleTree H} {pageData : Option (List Byte)}

theorem readBytes_pageImage (page : Nat) {data : List Byte} (hlen : data.length = pmaPageSize) :
    readBytes (pageImage page (some data)) (wordSize * (page * 2 ^ (log2PageSize - log2WordSize))) pmaPageSize =
      data := by
  have e : wordSize * (page * 2 ^ (log2PageSize - log2WordSize)) = pmaPageSize * page := by
    simp only [pmaPageSize, wordSize, log2PageSize, log2WordSize]
    omega
  refine ext_getElem (by rw [length_readBytes, hlen]) fun k h1 h2 => ?_
  simp only [readBytes, getElem_map, getElem_range, pageImage, getD_some, e, Nat.add_sub_cancel_left]
  rw [getD_eq_getElem _ _ h2]

theorem wordNode_pageImage_none (page d i : Nat) :
    wordNode h (pageImage page none) (log2WordSize + d) i = getPristineHash h (log2WordSize + d) := by
  rw [wordNode, Nat.add_sub_cancel_left]
  exact nodeHash_of_zero fun a _ _ => by simp [pageImage]

theorem Given.pageHash_eq (hg : Given h f t address log2Size pageData) (hlt : log2Size < log2PageSize) :
    f (address.toNat / pmaPageSize) =
      wordNode h (pageImage (address.toNat / pmaPageSize) pageData) log2PageSize (address.toNat / pmaPageSize) := by
  cases hg with
  | above hle => exact absurd hlt (Nat.not_lt.mpr hle)
  | present data _ _ hlen hhash =>
    rw [← hhash, wordNode, ← getPageNodeHash_readBytes _ _ _ pmaPageSize (by decide),
      readBytes_pageImage _ hlen]
  | pristine _ hhash => rw [hhash]; exact (wordNode_pageImage_none _ 7 _).symm

theorem bubbleUp_path {N : Nat → Nat → H} (n : Nat) {k : Nat} (hle : k + n ≤ 64)
    (hstep : ∀ j, k ≤ j → j < k + n → N (j + 1) (address.toNat / 2 ^ (j + 1)) =
      h.concat (N j (2 * (address.toNat / 2 ^ (j + 1)))) (N j (2 * (address.toNat / 2 ^ (j + 1)) + 1))) :
    bubbleUp h address k (N k (address.toNat / 2 ^ k))
        ((List.range' k n).map fun j => N j (sibling (address.toNat / 2 ^ j))) =
      N (k + n) (address.toNat / 2 ^ (k + n)) := by
  induction n generalizing k with
  | zero => rfl
  | succ n ih =>
    have hbits := index_bits (i := address.toNat) (n := k)
    have hup : (if address.getLsbD (k % 64) then h.concat (N k (sibling (address.toNat / 2 ^ k)))
        (N k (address.toNat / 2 ^ k))
        else h.concat (N k (address.toNat / 2 ^ k)) (N k (sibling (address.toNat / 2 ^ k)))) =
        N (k + 1) (address.toNat / 2 ^ (k + 1)) := by
      rw [hstep k (Nat.le_refl k) (by omega), Nat.mod_eq_of_lt (by omega), BitVec.getLsbD]
      generalize address.toNat / 2 ^ (k + 1) = q at hbits ⊢
      rw [hbits, sibling]
      by_cases hb : address.toNat.testBit k = true
      · simp [hb]
      · simp [hb]
    rw [List.range'_succ, List.map_cons, bubbleUp, hup, ih (by omega) fun j h1 h2 => hstep j (by omega) (by omega),
      Nat.add_right_comm, Nat.add_assoc]

theorem referenceHash_succ (hpage : log2Size < log2PageSize → f (address.toNat / pmaPageSize) =
      wordNode h (pageImage (address.toNat / pmaPageSize) pageData) log2PageSize (address.toNat / pmaPageSize))
    (h1 : log2WordSize ≤ log2Size) {j : Nat} (hj : log2Size ≤ j) :
    referenceHash h f pageData address (j + 1) (address.toNat / 2 ^ (j + 1)) =
      h.concat (referenceHash h f pageData address j (2 * (address.toNat / 2 ^ (j + 1))))
        (referenceHash h f pageData address j (2 * (address.toNat / 2 ^ (j + 1)) + 1)) := by
  have hnode : ∀ (g : Nat → Byte) (i : Nat), wordNode h g (j + 1) i =
      h.concat (wordNode h g j (2 * i)) (wordNode h g j (2 * i + 1)) := fun g i => by
    obtain ⟨d, rfl⟩ := Nat.exists_eq_add_of_le (Nat.le_trans h1 hj)
    exact wordNode_succ d i
  unfold referenceHash
  rcases Nat.lt_trichotomy (j + 1) log2PageSize with hlt | heq | hgt
  · rw [if_pos hlt, if_pos (by omega), if_pos (by omega), hnode]
  · rw [if_neg (by omega), if_pos (by omega), if_pos (by omega), ← hnode, heq, Nat.sub_self, nodeHash]
    exact hpage (by omega)
  · rw [if_neg (by omega), if_neg (by omega), if_neg (by omega), Nat.sub_add_comm (by omega), nodeHash]

/-- The levels below an absent node are those of pristine memory. -/
theorem referenceHash_absent (ht : t.Updated h f)
    (h1 : log2WordSize ≤ log2Size) {e k i : Nat} (he : e ≤ treeHeight) (hk : log2Size ≤ k)
    (hke : k ≤ log2PageSize + e)
    (hi : log2PageSize ≤ k → i / 2 ^ (log2PageSize + e - k) = address.toNat / 2 ^ (log2PageSize + e))
    (habsent : ¬ t.Mem ⟨e, address.toNat / 2 ^ (log2PageSize + e)⟩) :
    referenceHash h f none address k i = getPristineHash h k := by
  unfold referenceHash
  split
  · obtain ⟨d, rfl⟩ := Nat.exists_eq_add_of_le (Nat.le_trans h1 hk)
    exact wordNode_pageImage_none _ d i
  · obtain ⟨d, rfl⟩ := Nat.exists_eq_add_of_le (Nat.not_lt.mp ‹_›)
    rw [Nat.add_sub_cancel_left]
    refine ht.pristine_below (e := e) (by omega) he ?_
    rw [show e - d = log2PageSize + e - (log2PageSize + d) by omega, hi (Nat.le_add_right ..)]
    exact habsent

theorem fill_replicate {p : MerkleTreeProof H} {x : H} {n : Nat} (hp : p.siblingHashes = List.replicate n x)
    (s : Nat → H) : (p.fill p.log2TargetSize (p.log2TargetSize + n) s).siblingHashes =
      (List.range' p.log2TargetSize n).map s := by
  refine ext_getElem? fun j => ?_
  rw [fill, hp, List.getElem?_mapIdx, List.getElem?_map, List.getElem?_replicate]
  by_cases hj : j < n
  · rw [if_pos hj, List.getElem?_range' hj, map_some, map_some, if_pos ⟨by omega, by omega⟩, Nat.one_mul]
  · rw [if_neg hj, List.getElem?_eq_none (by simpa using hj)]
    rfl

/-- The siblings on the path to the target. -/
def pathSibling (h : Hasher H) (f : Nat → H) (pageData : Option (List Byte)) (address : Word) (log2Size : Nat) : H :=
  referenceHash h f pageData address log2Size (sibling (address.toNat / 2 ^ log2Size))

theorem Updated.hashAt_getD [Inhabited H] (ht : t.Updated h f) {d i : Nat} (hd : d ≤ treeHeight)
    (hm : t.Mem ⟨d, i⟩) : (t.hashAt ⟨d, i⟩).getD default = nodeHash h.concat f d i := by
  obtain ⟨x, hx⟩ := mem_iff_hashAt.mp hm
  rw [← ht.hash_eq d i hd, hx, getD_some, getD_some]

variable {p : MerkleTreeProof H}

/-- The part of a proof inside a page, from its data or for a pristine page. -/
theorem Given.getInsidePage_eq (hg : Given h f t address log2Size pageData) (hlt : log2Size < log2PageSize)
    (h1 : log2WordSize ≤ log2Size) (hp : p.log2TargetSize = log2Size)
    (hroom : log2PageSize ≤ log2Size + p.siblingHashes.length) :
    getInsidePage h address log2Size pageData p = .ok (f (address.toNat / pmaPageSize),
      { p.fill log2Size log2PageSize (pathSibling h f pageData address) with
        targetHash := referenceHash h f pageData address log2Size (address.toNat / 2 ^ log2Size) }) := by
  have hfill : p.fill log2Size log2PageSize (pathSibling h f pageData address) =
      p.fill log2Size log2PageSize fun k =>
        wordNode h (pageImage (address.toNat / pmaPageSize) pageData) k (sibling (address.toNat / 2 ^ k)) :=
    fill_congr fun k _ hk => if_pos hk
  rw [hfill, referenceHash, if_pos hlt, hg.pageHash_eq hlt]
  cases hg with
  | above hle => exact absurd hlt (Nat.not_lt.mpr hle)
  | present data _ _ hlen _ =>
    have hsib : ∀ k, (fun k => wordNode h (pageImage (address.toNat / pmaPageSize) (some data)) k
        (sibling (address.toNat / 2 ^ k))) k =
        wordNode h (pageImage (address.toNat / pmaPageSize) (some data)) k (sibling (address.toNat / 2 ^ k)) :=
      fun k => rfl
    have hpath := getInsidePageSiblingHashes_path hsib hp h1 (d := log2PageSize - log2WordSize) (n := pmaPageSize)
      (by decide) hroom
    rw [show log2WordSize + (log2PageSize - log2WordSize) = log2PageSize from rfl,
      show 2 ^ log2PageSize = pmaPageSize from rfl, readBytes_pageImage _ hlen, pathFilled,
      if_pos (Nat.le_of_lt hlt)] at hpath
    exact hpath
  | pristine _ _ =>
    have hnode : ∀ k i, log2Size ≤ k → wordNode h (pageImage (address.toNat / pmaPageSize) none) k i =
        getPristineHash h k := fun k i hk => by
      obtain ⟨d, rfl⟩ := Nat.exists_eq_add_of_le (Nat.le_trans h1 hk)
      exact wordNode_pageImage_none _ d i
    have hset := setPristine_eq (h := h) (log2PageSize - log2Size) (p := p) (by omega) (Nat.le_of_eq hp)
    rw [Nat.add_sub_cancel' (Nat.le_of_lt hlt)] at hset
    rw [getInsidePage, hset, hnode _ _ (Nat.le_of_lt hlt), hnode _ _ (Nat.le_refl _),
      fill_congr fun k hk _ => hnode k _ hk]
    rfl

/-- The proof of a node of an updated tree. -/
def nodeProof (h : Hasher H) (f : Nat → H) (pageData : Option (List Byte)) (address : Word) (log2Size : Nat) :
    MerkleTreeProof H :=
  { targetAddress := address, log2TargetSize := log2Size
    targetHash := referenceHash h f pageData address log2Size (address.toNat / 2 ^ log2Size)
    log2RootSize := log2RootSize
    rootHash := nodeHash h.concat f treeHeight 0
    siblingHashes := (List.range' log2Size (log2RootSize - log2Size)).map (pathSibling h f pageData address) }

theorem Given.verify_nodeProof [DecidableEq H] (hg : Given h f t address log2Size pageData)
    (h1 : log2WordSize ≤ log2Size)
    (h2 : log2Size ≤ log2RootSize) : (nodeProof h f pageData address log2Size).verify h = true := by
  refine verify_iff.mpr ?_
  refine (bubbleUp_path (log2RootSize - log2Size) (Nat.le_of_eq (Nat.add_sub_cancel' h2)) fun j hj _ =>
    referenceHash_succ hg.pageHash_eq h1 hj).trans ?_
  rw [Nat.add_sub_cancel' h2, show address.toNat / 2 ^ log2RootSize = 0 from div_eq_of_lt address.isLt]
  rfl

variable [Inhabited H] [DecidableEq H]

section Lower
variable (hg : Given h f t address log2Size pageData) (ht : t.Updated h f) (h1 : log2WordSize ≤ log2Size)
  (hp : p.log2TargetSize = log2Size) {e : Nat} (hroom : log2PageSize + e ≤ log2Size + p.siblingHashes.length)
  (hle : e ≤ treeHeight)
include hg ht h1 hp hroom hle

theorem Given.getLowerProof_present (he : log2PageSize + e = max log2Size log2PageSize)
    (hm : t.Mem ⟨e, address.toNat / 2 ^ (log2PageSize + e)⟩) :
    getLowerProof h t address log2Size pageData (some ⟨e, address.toNat / 2 ^ (log2PageSize + e)⟩)
      (log2PageSize + e) p =
      .ok { p.fill log2Size (log2PageSize + e) (pathSibling h f pageData address) with
        targetHash := referenceHash h f pageData address log2Size (address.toNat / 2 ^ log2Size) } := by
  rw [getLowerProof, ht.hashAt_getD hle hm]
  by_cases hlt : log2Size < log2PageSize
  · obtain rfl : e = 0 := by omega
    rw [if_pos ⟨rfl, hlt⟩, hg.getInsidePage_eq hlt h1 hp (by omega)]
    dsimp only [bind, Except.bind]
    rw [throwUnless, if_pos (show nodeHash h.concat f 0 (address.toNat / 2 ^ (log2PageSize + 0)) =
      f (address.toNat / pmaPageSize) from rfl)]
    rfl
  · obtain rfl : log2PageSize + e = log2Size := by omega
    rw [if_neg (fun hc => hlt hc.2), fill_self, referenceHash, if_neg hlt, Nat.add_sub_cancel_left]

/-- The lower part of a proof, below a node that is missing. -/
theorem Given.getLowerProof_absent (he : log2Size ≤ log2PageSize + e)
    (hm : ¬ t.Mem ⟨e, address.toNat / 2 ^ (log2PageSize + e)⟩) :
    getLowerProof h t address log2Size pageData none (log2PageSize + e) p =
      .ok { p.fill log2Size (log2PageSize + e) (pathSibling h f pageData address) with
        targetHash := referenceHash h f pageData address log2Size (address.toNat / 2 ^ log2Size) } := by
  have hnone : pageData = none := by
    cases hg with
    | above _ => rfl
    | pristine _ _ => rfl
    | present data _ hpage _ _ =>
      refine absurd (ht.path_mem hpage e (by omega)) ?_
      rw [Nat.zero_add, Nat.div_div_eq_div_mul, show pmaPageSize = 2 ^ log2PageSize from rfl, ← Nat.pow_add]
      exact hm
  subst hnone
  have hset := setPristine_eq (h := h) (log2PageSize + e - log2Size) (p := p) (by omega) (Nat.le_of_eq hp)
  rw [Nat.add_sub_cancel' he] at hset
  have hsibling : ∀ k, log2Size ≤ k → k < log2PageSize + e →
      pathSibling h f none address k = getPristineHash h k := fun k hk hke => by
    refine referenceHash_absent ht h1 hle hk (Nat.le_of_lt hke) (fun _ => ?_) hm
    rw [show log2PageSize + e - k = (log2PageSize + e - k - 1) + 1 by omega, Nat.pow_succ', ← Nat.div_div_eq_div_mul,
      sibling_div, Nat.div_div_eq_div_mul, Nat.div_div_eq_div_mul, ← Nat.pow_succ', ← Nat.pow_add]
    congr 2
    omega
  have htarget : referenceHash h f none address log2Size (address.toNat / 2 ^ log2Size) =
      getPristineHash h log2Size := by
    refine referenceHash_absent ht h1 hle (Nat.le_refl _) he (fun _ => ?_) hm
    rw [Nat.div_div_eq_div_mul, ← Nat.pow_add, Nat.add_sub_cancel' he]
  rw [getLowerProof, throwUnless, if_pos isNone_none]
  dsimp only [bind, Except.bind]
  rw [hset, fill_congr hsibling, htarget]

end Lower

/-- The way down ends at the node of the target, or of its page, or at a node that is missing. -/
theorem Updated.getProof_cases (ht : t.Updated h f) (h1 : log2WordSize ≤ log2Size) (h2 : log2Size ≤ log2RootSize)
    (ha : address.toNat % 2 ^ log2Size = 0) (pageData : Option (List Byte)) {e : Nat}
    (he : max log2Size log2PageSize = log2PageSize + e) : ∃ node m, e ≤ m ∧ m ≤ treeHeight ∧
      (m = e ∧ t.Mem ⟨e, address.toNat / 2 ^ (log2PageSize + e)⟩ ∧
          node = some ⟨e, address.toNat / 2 ^ (log2PageSize + e)⟩ ∨
        ¬ t.Mem ⟨m, address.toNat / 2 ^ (log2PageSize + m)⟩ ∧ node = none) ∧
      t.getProof h address log2Size pageData =
        (getLowerProof h t address log2Size pageData node (log2PageSize + m)
          ((MerkleTreeProof.blank log2RootSize log2Size).fill (log2PageSize + m) log2RootSize
            (pathSibling h f pageData address))).map
          fun proof => { proof with targetAddress := address, rootHash := t.getRootHash h } := by
  have hle : e ≤ treeHeight := by
    simp only [treeHeight, log2RootSize, log2PageSize] at *
    omega
  have hroot : NodePtr.root = ⟨e + (treeHeight - e), address.toNat / 2 ^ (log2PageSize + (e + (treeHeight - e)))⟩ := by
    rw [Nat.add_sub_cancel' hle, show address.toNat / 2 ^ (log2PageSize + treeHeight) = 0 from
      Nat.div_eq_of_lt address.isLt]
    rfl
  have hlevels : log2PageSize + e + (treeHeight - e) = log2RootSize := by
    rw [Nat.add_assoc, Nat.add_sub_cancel' hle]
    rfl
  have hmake : MerkleTreeProof.make log2RootSize log2Size =
      .ok (MerkleTreeProof.blank (H := H) log2RootSize log2Size) := by
    rw [MerkleTreeProof.make, throwUnless, if_pos (show 0 < log2RootSize by decide), throwUnless, if_pos h2]
    rfl
  have hlen : (MerkleTreeProof.blank (H := H) log2RootSize log2Size).siblingHashes.length = log2RootSize - log2Size :=
    length_replicate
  have hsib : ∀ k, e ≤ k → k < e + (treeHeight - e) → pathSibling h f pageData address (log2PageSize + k) =
      nodeHash h.concat f k (sibling (address.toNat / 2 ^ (log2PageSize + k))) := fun k _ _ => by
    rw [pathSibling, referenceHash, if_neg (by omega), Nat.add_sub_cancel_left]
  have hcopy := ht.copySiblings_eq (p := MerkleTreeProof.blank log2RootSize log2Size) e (treeHeight - e) hsib (by omega)
    (show log2Size ≤ _ by omega) (by rw [hlevels, hlen]; show _ ≤ log2Size + _; omega)
    (by rw [← hroot]; exact ht.root_mem)
  rw [← hroot, hlevels] at hcopy
  have hproof : ∀ node k p, copySiblings h t address (log2PageSize + e) (treeHeight - e) .root
        (MerkleTreeProof.blank log2RootSize log2Size) = .ok (node, k, p) →
      t.getProof h address log2Size pageData = (getLowerProof h t address log2Size pageData node k p).map
        fun proof => { proof with targetAddress := address, rootHash := t.getRootHash h } := fun node k p hc => by
    unfold getProof
    rw [throwUnless, if_pos (by simp only [log2RootSize, log2WordSize] at *; omega), Int.toNat_natCast, throwUnless,
      if_pos ha]
    dsimp only [bind, Except.bind]
    rw [hmake, he, show log2RootSize - (log2PageSize + e) = treeHeight - e from Nat.sub_add_eq ..]
    dsimp only
    rw [hc]
    rfl
  rcases hcopy with ⟨hm, hcopy⟩ | ⟨m, hmn, hm, hcopy⟩
  · exact ⟨_, e, Nat.le_refl e, hle, .inl ⟨rfl, hm, rfl⟩, hproof _ _ _ hcopy⟩
  · rw [Nat.add_assoc log2PageSize e m] at hcopy
    exact ⟨_, e + m, by omega, by omega, .inr ⟨hm, rfl⟩, hproof _ _ _ hcopy⟩

theorem Given.getProof_eq (hg : Given h f t address log2Size pageData) (ht : t.Updated h f)
    (h1 : log2WordSize ≤ log2Size) (h2 : log2Size ≤ log2RootSize) (ha : address.toNat % 2 ^ log2Size = 0) :
    t.getProof h address log2Size pageData = .ok (nodeProof h f pageData address log2Size) := by
  obtain ⟨e, he⟩ := Nat.exists_eq_add_of_le (Nat.le_max_right log2Size log2PageSize)
  obtain ⟨node, m, hem, hm, hnode, hproof⟩ := ht.getProof_cases h1 h2 ha pageData he
  have htop : log2PageSize + m ≤ log2RootSize := by
    simp only [treeHeight, log2RootSize, log2PageSize] at *
    omega
  have hroom : log2PageSize + m ≤ log2Size + ((blank (H := H) log2RootSize log2Size).fill
      (log2PageSize + m) log2RootSize (pathSibling h f pageData address)).siblingHashes.length := by
    rw [length_fill, show (blank (H := H) log2RootSize log2Size).siblingHashes.length =
      log2RootSize - log2Size from length_replicate]
    omega
  have hlower : getLowerProof h t address log2Size pageData node (log2PageSize + m)
      ((blank log2RootSize log2Size).fill (log2PageSize + m) log2RootSize
        (pathSibling h f pageData address)) =
      .ok { ((blank log2RootSize log2Size).fill (log2PageSize + m) log2RootSize
          (pathSibling h f pageData address)).fill log2Size (log2PageSize + m) (pathSibling h f pageData address) with
        targetHash := referenceHash h f pageData address log2Size (address.toNat / 2 ^ log2Size) } := by
    rcases hnode with ⟨rfl, hmem, rfl⟩ | ⟨hmem, rfl⟩
    · exact hg.getLowerProof_present ht h1 rfl hroom hm he.symm hmem
    · exact hg.getLowerProof_absent ht h1 rfl hroom hm (by omega) hmem
  have hfilled := fill_replicate (p := blank log2RootSize log2Size) rfl
    (pathSibling h f pageData address)
  rw [show (blank (H := H) log2RootSize log2Size).log2TargetSize = log2Size from rfl,
    Nat.add_sub_cancel' h2] at hfilled
  rw [hproof, hlower, fill_below (by omega) htop, ht.getRootHash_eq, nodeProof, ← hfilled]
  rfl

/-- The proof of any node of an updated tree: its target is the node of the reference tree, its root is the root of the
tree, and it verifies. -/
theorem getProof_verifies (ht : t.Updated h f) (h1 : log2WordSize ≤ log2Size) (h2 : log2Size ≤ log2RootSize)
    (ha : address.toNat % 2 ^ log2Size = 0) (hg : Given h f t address log2Size pageData) :
    ∃ proof, t.getProof h address log2Size pageData = .ok proof ∧
      proof.targetAddress = address ∧ proof.log2TargetSize = log2Size ∧ proof.log2RootSize = log2RootSize ∧
      proof.targetHash = referenceHash h f pageData address log2Size (address.toNat / 2 ^ log2Size) ∧
      proof.rootHash = t.getRootHash h ∧ proof.verify h = true :=
  ⟨_, hg.getProof_eq ht h1 h2 ha, rfl, rfl, rfl, rfl, ht.getRootHash_eq.symm, hg.verify_nodeProof h1 h2⟩

def onesPage : List Byte := List.replicate 4096 1

theorem onesPage_hash : getPageNodeHash freeHasher (log2PageSize - log2WordSize) onesPage ≠
    getPristineHash freeHasher log2PageSize := by
  decide

/-- A word of a page that was updated, a word of a page that was not, and the root. -/
theorem getProof_verifies_onesPage :
    let rounds : List (List (Word × FreeHash)) :=
      [[(0, getPageNodeHash freeHasher (log2PageSize - log2WordSize) onesPage)]]
    (∃ proof, (run freeHasher rounds).getProof freeHasher 32 (5 : Nat) (some onesPage) = .ok proof ∧
      proof.verify freeHasher = true) ∧
    (∃ proof, (run freeHasher rounds).getProof freeHasher 8192 (5 : Nat) none = .ok proof ∧
      proof.verify freeHasher = true) ∧
    ∃ proof, (run freeHasher rounds).getProof freeHasher 0 (64 : Nat) none = .ok proof ∧
      proof.verify freeHasher = true := by
  intro rounds
  have hlast : ∀ i, lastHashes freeHasher rounds i = if i = 0 then
      getPageNodeHash freeHasher (log2PageSize - log2WordSize) onesPage
      else getPristineHash freeHasher log2PageSize := fun i => by
    change Function.update (fun _ => getPristineHash freeHasher log2PageSize) 0 _ i = _
    exact Function.update_apply ..
  have ht : (run freeHasher rounds).Updated freeHasher (lastHashes freeHasher rounds) :=
    (ready_run (by decide) (by unfold OfPages; decide)).toUpdated
  have hmem : (run freeHasher rounds).Mem ⟨0, 0⟩ := by
    by_contra hno
    exact onesPage_hash (ht.absent 0 hno)
  have hg1 : Given freeHasher (lastHashes freeHasher rounds) (run freeHasher rounds) 32 5 (some onesPage) :=
    .present onesPage (by decide) hmem (by decide +kernel) (hlast 0).symm
  have hg2 : Given freeHasher (lastHashes freeHasher rounds) (run freeHasher rounds) 8192 5 none :=
    .pristine (by decide) (hlast 2)
  have hg3 : Given freeHasher (lastHashes freeHasher rounds) (run freeHasher rounds) 0 64 none := .above (by decide)
  obtain ⟨p1, hp1, -, -, -, -, -, hv1⟩ := getProof_verifies ht (by decide) (by decide) (by decide) hg1
  obtain ⟨p2, hp2, -, -, -, -, -, hv2⟩ := getProof_verifies ht (by decide) (by decide) (by decide) hg2
  obtain ⟨p3, hp3, -, -, -, -, -, hv3⟩ := getProof_verifies ht (by decide) (by decide) (by decide) hg3
  exact ⟨⟨p1, hp1, hv1⟩, ⟨p2, hp2, hv2⟩, ⟨p3, hp3, hv3⟩⟩

end

end

end MachineMerkleTree

end MachineEmulator
