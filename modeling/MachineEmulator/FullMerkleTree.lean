import MachineEmulator.ListTree

/-!
# The full Merkle tree

A tree that stores all its nodes in a heap: the root has index 1, and the children of node `i` have the indices `2 * i`
and `2 * i + 1`. The indices are of type `int` while the heap is filled.

* `Heap` : the entries and how many there are. An access beyond them is an error, as is an index that is no `int`;
* `makeFrom` : a tree over a list of leaves;
* `initSubtree_ok` : every entry of a subtree becomes the hash of the entries at its bottom;
* `makeFrom_ok`, `makeFrom_int`, `makeFrom_bounds` : the list constructor gives the tree over the list if the depth
  is at most 30. Above that there is no node index for the leaves, and at depth 63 the size of the heap wraps
  around to zero.
-/

namespace MachineEmulator

open Merkle Nat TreeSizes BitVec Bits

/-- How a constructor of the tree fails: with an exception, or with undefined behaviour. -/
inductive FullTreeError where
  | thrown (message : String)
  | intOverflow
  | outOfBounds
  deriving DecidableEq

structure FullMerkleTree (H : Type) where
  sizes : TreeSizes
  /-- The entries of the heap. `getNodeIndex_lt` says that no other entry is read. -/
  tree : Nat → H

namespace FullMerkleTree

variable {H : Type}

/-! ## The heap -/

structure Heap (H : Type) where
  size : Nat
  entry : Nat → H

namespace Heap

def get (tree : Heap H) (index : Nat) : Except FullTreeError H :=
  if index < tree.size then .ok (tree.entry index) else .error .outOfBounds

def update (tree : Heap H) (index : Nat) (hash : H) : Heap H :=
  { tree with entry := Function.update tree.entry index hash }

def set (tree : Heap H) (index : Nat) (hash : H) : Except FullTreeError (Heap H) :=
  if index < tree.size then .ok (tree.update index hash) else .error .outOfBounds

def put (tree : Heap H) (first n : Nat) (hashes : Nat → H) : Heap H :=
  { tree with entry := fun i => if first ≤ i ∧ i < first + n then hashes (i - first) else tree.entry i }

def write (tree : Heap H) (first n : Nat) (hashes : Nat → H) : Except FullTreeError (Heap H) :=
  if n = 0 ∨ first + n ≤ tree.size then .ok (tree.put first n hashes) else .error .outOfBounds

end Heap

def checkInt (n : Nat) : Except FullTreeError Nat := if n < 2 ^ 31 then .ok n else .error .intOverflow

def leftChildIndex (index : Nat) : Except FullTreeError Nat := checkInt (2 * index)

def rightChildIndex (index : Nat) : Except FullTreeError Nat := checkInt (2 * index + 1)

/-! ## The tree -/

section
variable (h : Hasher H)

/-- The nodes above the leaves of a subtree of depth `d`. -/
def initSubtree : Nat → Nat → Heap H → Except FullTreeError (Heap H)
  | 0, _, tree => .ok tree
  | d + 1, index, tree => do
    let left ← leftChildIndex index
    let tree ← initSubtree d left tree
    let right ← rightChildIndex index
    let tree ← initSubtree d right tree
    let leftHash ← tree.get left
    let rightHash ← tree.get right
    tree.set index (h.concat leftHash rightHash)

variable [Inhabited H]

def initTree (z : TreeSizes) (leaves : List H) (tree : Heap H) : Except FullTreeError (Heap H) := do
  let maxLeaves := ((1 : Word) <<< z.depth).toNat
  let tree ← tree.write maxLeaves leaves.length fun k => leaves.getD k default
  let tree ← tree.write (maxLeaves + leaves.length) (maxLeaves - leaves.length) fun _ => z.pristine h 0
  initSubtree h z.depth 1 tree

/-- The heap after `resize`. Its size is computed with 64 bits. -/
def emptyHeap (z : TreeSizes) : Heap H :=
  { size := (2 * (1 : Word) <<< z.depth).toNat, entry := fun _ => default }

/-- A tree over leaves that stand at its left. -/
def makeFrom (log2RootSize log2LeafSize log2WordSize : Int) (leaves : List H) :
    Except FullTreeError (FullMerkleTree H) := do
  let sizes ← (checkLog2Sizes log2RootSize log2LeafSize log2WordSize).mapError .thrown
  (throwUnless (¬ ((1 : Word) <<< sizes.depth).toNat < leaves.length) "too many leaves").mapError .thrown
  let tree ← initTree h sizes leaves (emptyHeap sizes)
  .ok { sizes, tree := tree.entry }

end

def getNodeIndex (z : TreeSizes) (address : Word) (log2Size : Int) : Except String Word := do
  throwUnless (¬ (log2Size < z.log2LeafSize ∨ z.log2RootSize < log2Size)) "log2_size is out of bounds"
  let base := (1 : Word) <<< (z.log2RootSize - log2Size.toNat)
  let address := address >>> log2Size.toNat
  throwUnless (¬ base ≤ address) "address is out of bounds"
  .ok (base + address)

def getNodeHash (t : FullMerkleTree H) (address : Word) (log2Size : Int) : Except String H := do
  let index ← getNodeIndex t.sizes address log2Size
  .ok (t.tree index.toNat)

def getRootHash (t : FullMerkleTree H) : Except String H := t.getNodeHash 0 t.sizes.log2RootSize

def getProof (t : FullMerkleTree H) (address : Word) (log2Size : Int) : Except String (MerkleTreeProof H) :=
  MachineEmulator.getProof t.sizes t.getNodeHash address log2Size

/-! ## Subtrees of the heap -/

variable {index m e d : Nat} {tree : Heap H} {leaves : List H}

theorem not_below_both {e' : Nat} (hpos : 0 < index) (hleft : m / 2 ^ e = 2 * index) :
    m / 2 ^ e' ≠ 2 * index + 1 := by
  intro hright
  rcases Nat.lt_trichotomy e e' with hlt | rfl | hgt
  · obtain ⟨k, rfl⟩ := Nat.exists_eq_add_of_lt hlt
    rw [Nat.add_assoc, Nat.pow_add, ← Nat.div_div_eq_div_mul, hleft] at hright
    have := Nat.div_le_self (2 * index) (2 ^ (k + 1))
    omega
  · omega
  · obtain ⟨k, rfl⟩ := Nat.exists_eq_add_of_lt hgt
    rw [Nat.add_assoc, Nat.pow_add, ← Nat.div_div_eq_div_mul, hright, Nat.pow_succ', ← Nat.div_div_eq_div_mul] at hleft
    have := Nat.div_le_self ((2 * index + 1) / 2) (2 ^ k)
    omega

/-- A node below another one is the node or below one of its children. -/
theorem below_succ (hm : m / 2 ^ (e + 1) = index) : m / 2 ^ e = 2 * index ∨ m / 2 ^ e = 2 * index + 1 := by
  rw [Nat.pow_succ, ← Nat.div_div_eq_div_mul] at hm
  omega

theorem below_parent (hm : m / 2 ^ e = 2 * index ∨ m / 2 ^ e = 2 * index + 1) : m / 2 ^ (e + 1) = index := by
  rw [Nat.pow_succ, ← Nat.div_div_eq_div_mul]
  omega

theorem below_root {j : Nat} (hj : j < 2 ^ e) : (2 ^ e + j) / 2 ^ e = 1 := by
  rw [add_div_left _ (Nat.two_pow_pos e), div_eq_of_lt hj]

theorem leaf_below {k : Nat} (he : e ≤ d) (hm : m / 2 ^ e = index) (h1 : m * 2 ^ (d - e) ≤ k)
    (h2 : k < (m + 1) * 2 ^ (d - e)) : k / 2 ^ d = index := by
  have hk : k / 2 ^ (d - e) = m := Nat.div_eq_of_lt_le h1 h2
  rw [← hm, ← hk, Nat.div_div_eq_div_mul, ← Nat.pow_add, Nat.sub_add_cancel he]

/-- What becomes of the entries when the subtree of a node is made: those below it are the hashes of the entries at the
bottom, and the others stay. -/
structure SubtreeMade (h : Hasher H) (d index : Nat) (tree tree' : Heap H) : Prop where
  size : tree'.size = tree.size
  below : ∀ {e m : Nat}, e ≤ d → m / 2 ^ e = index → tree'.entry m = nodeHash h.concat tree.entry (d - e) m
  others : ∀ {m : Nat}, (∀ e ≤ d, m / 2 ^ e ≠ index) → tree'.entry m = tree.entry m

theorem checkInt_ok {n : Nat} (hn : n < 2 ^ 31) : checkInt n = .ok n := if_pos hn

theorem Heap.get_ok (hi : index < tree.size) : tree.get index = .ok (tree.entry index) :=
  if_pos hi

theorem Heap.set_ok (hi : index < tree.size) (hash : H) :
    tree.set index hash = .ok (tree.update index hash) := if_pos hi

theorem Heap.write_ok {first n : Nat} {hashes : Nat → H} (hn : n = 0 ∨ first + n ≤ tree.size) :
    tree.write first n hashes = .ok (tree.put first n hashes) := if_pos hn

theorem Heap.update_entry_self (tree : Heap H) (index : Nat) (hash : H) : (tree.update index hash).entry index = hash :=
  Function.update_self ..

theorem Heap.update_entry_of_ne (tree : Heap H) (hash : H) (hm : m ≠ index) :
    (tree.update index hash).entry m = tree.entry m := Function.update_of_ne hm _ _

variable {h : Hasher H}

/-- The two children made one after the other, then the node. -/
theorem SubtreeMade.node {tree1 tree2 : Heap H} (hpos : 0 < index)
    (hleft : SubtreeMade h d (2 * index) tree tree1) (hright : SubtreeMade h d (2 * index + 1) tree1 tree2) :
    SubtreeMade h (d + 1) index tree
      (tree2.update index (h.concat (tree2.entry (2 * index)) (tree2.entry (2 * index + 1)))) := by
  have hl : ∀ {e m : Nat}, e ≤ d → m / 2 ^ e = 2 * index →
      tree2.entry m = nodeHash h.concat tree.entry (d - e) m := by
    intro e m he hm
    rw [hright.others fun e' _ => not_below_both hpos hm, hleft.below he hm]
  have hr : ∀ {e m : Nat}, e ≤ d → m / 2 ^ e = 2 * index + 1 →
      tree2.entry m = nodeHash h.concat tree.entry (d - e) m := by
    intro e m he hm
    rw [hright.below he hm]
    refine nodeHash_congr fun k h1 h2 => hleft.others fun e' _ hk => ?_
    exact not_below_both hpos hk (leaf_below he hm h1 h2)
  refine ⟨hright.size.trans hleft.size, fun {e m} he hm => ?_, fun {m} hm => ?_⟩
  · cases e with
    | zero =>
      rw [Nat.pow_zero, Nat.div_one] at hm
      rw [hm, Heap.update_entry_self, hl (e := 0) (Nat.zero_le d) (Nat.div_one _),
        hr (e := 0) (Nat.zero_le d) (Nat.div_one _), Nat.sub_zero, Nat.sub_zero, nodeHash]
    | succ e =>
      have hne : m ≠ index := by
        rintro rfl
        have := Nat.div_lt_self hpos (Nat.one_lt_two_pow (n := e + 1) (by omega))
        omega
      rw [Heap.update_entry_of_ne _ _ hne, Nat.add_sub_add_right]
      rcases below_succ hm with hm | hm
      · exact hl (by omega) hm
      · exact hr (by omega) hm
  · have hne : m ≠ index := by
      rintro rfl
      exact hm 0 (Nat.zero_le _) (Nat.div_one _)
    rw [Heap.update_entry_of_ne _ _ hne, hright.others fun e he hk => hm (e + 1) (by omega) (below_parent (.inr hk)),
      hleft.others fun e he hk => hm (e + 1) (by omega) (below_parent (.inl hk))]

/-- A subtree whose indices are of type `int` and in the heap. -/
theorem initSubtree_ok (tree : Heap H) (hpos : 0 < index) (hint : (index + 1) * 2 ^ d ≤ 2 ^ 31)
    (hsize : (index + 1) * 2 ^ d ≤ tree.size) :
    ∃ tree', initSubtree h d index tree = .ok tree' ∧ SubtreeMade h d index tree tree' := by
  induction d generalizing index tree with
  | zero =>
    refine ⟨tree, rfl, rfl, fun {e m} he hm => ?_, fun _ => rfl⟩
    obtain rfl := le_zero.mp he
    rfl
  | succ d ih =>
    have hpow : (index + 1) * 2 ^ (d + 1) = (2 * index + 1 + 1) * 2 ^ d := by rw [Nat.pow_succ']; ring
    have hle : (2 * index + 1) * 2 ^ d ≤ (2 * index + 1 + 1) * 2 ^ d := Nat.mul_le_mul_right _ (le_succ _)
    have hlast : 2 * index + 1 + 1 ≤ (2 * index + 1 + 1) * 2 ^ d := Nat.le_mul_of_pos_right _ (Nat.two_pow_pos d)
    rw [hpow] at hint hsize
    obtain ⟨tree1, hinit1, hmade1⟩ := ih tree (show 0 < 2 * index by omega) (by omega) (by omega)
    obtain ⟨tree2, hinit2, hmade2⟩ := ih tree1 (show 0 < 2 * index + 1 by omega) hint (by rwa [hmade1.size])
    have hsize2 : tree2.size = tree.size := hmade2.size.trans hmade1.size
    refine ⟨_, ?_, hmade1.node hpos hmade2⟩
    simp only [initSubtree, except_bind_ok_iff]
    exact ⟨_, checkInt_ok (by omega), _, hinit1, _, checkInt_ok (by omega), _, hinit2, _, Heap.get_ok (by omega), _,
      Heap.get_ok (by omega), Heap.set_ok (by omega) _⟩

/-- A subtree whose first leaf has an index that is no `int`. -/
theorem initSubtree_int (tree : Heap H) (hindex : index < 2 ^ 31) (hint : 2 ^ 31 ≤ index * 2 ^ d) :
    initSubtree h d index tree = .error .intOverflow := by
  induction d generalizing index tree with
  | zero => omega
  | succ d ih =>
    rw [show index * 2 ^ (d + 1) = 2 * index * 2 ^ d by rw [Nat.pow_succ']; ring] at hint
    rw [initSubtree, leftChildIndex, checkInt]
    split_ifs with hleft
    · show initSubtree h d (2 * index) tree >>= _ = _
      rw [ih tree hleft hint]
      rfl
    · rfl

/-! ## Trees over a list -/

variable {z : TreeSizes} {f : Nat → H}

/-- The entries of a heap are the nodes of the tree over the leaves `f`. -/
def HoldsNodes (h : Hasher H) (z : TreeSizes) (f entry : Nat → H) : Prop :=
  ∀ {e j : Nat}, e ≤ z.depth → j < 2 ^ e → entry (2 ^ e + j) = nodeHash h.concat f (z.depth - e) j

theorem getNodeIndex_ok_iff {address index : Word} {log2Size : Int} : getNodeIndex z address log2Size = .ok index ↔
    z.IsNode address log2Size ∧
      (1 : Word) <<< (z.log2RootSize - log2Size.toNat) + address >>> log2Size.toNat = index := by
  simp only [getNodeIndex, except_bind_ok_iff, throwUnless_ok_iff, IsNode]
  constructor
  · rintro ⟨-, hbounds, -, hbase, hindex⟩
    have ha := (not_one_shiftLeft_le_iff z.root_lt (by omega)).mp hbase
    exact ⟨⟨by omega, by omega, ha⟩, Except.ok.inj hindex⟩
  · rintro ⟨⟨h1, h2, ha⟩, hindex⟩
    have hbase := (not_one_shiftLeft_le_iff z.root_lt (show log2Size.toNat ≤ z.log2RootSize by omega)).mpr ha
    exact ⟨(), by omega, (), hbase, congrArg Except.ok hindex⟩

theorem toNat_nodeIndex {address : Word} {log2Size : Int} (hnode : z.IsNode address log2Size) :
    ((1 : Word) <<< (z.log2RootSize - log2Size.toNat) + address >>> log2Size.toNat).toNat =
        2 ^ (z.log2RootSize - log2Size.toNat) + address.toNat / 2 ^ log2Size.toNat ∧
      address.toNat / 2 ^ log2Size.toNat < 2 ^ (z.log2RootSize - log2Size.toNat) := by
  obtain ⟨h1, h2, ha⟩ := hnode
  have hroot := z.root_lt
  have hlt : address.toNat / 2 ^ log2Size.toNat < 2 ^ (z.log2RootSize - log2Size.toNat) := by
    rwa [Nat.div_lt_iff_lt_mul (Nat.two_pow_pos _), ← Nat.pow_add, Nat.sub_add_cancel (by omega)]
  have hpow : 2 ^ (z.log2RootSize - log2Size.toNat) ≤ 2 ^ 63 := Nat.pow_le_pow_right (by decide) (by omega)
  refine ⟨?_, hlt⟩
  rw [toNat_add, toNat_one_shiftLeft (by omega), toNat_ushiftRight, shiftRight_eq_div_pow]
  exact mod_eq_of_lt (by omega)

theorem HoldsNodes.hasNodes {t : FullMerkleTree H} (ht : HoldsNodes h t.sizes f t.tree) :
    HasNodes h t.sizes f t.getNodeHash where
  hash {address log2Size} hnode := by
    obtain ⟨hindex, hlt⟩ := toNat_nodeIndex hnode
    obtain ⟨h1, h2, -⟩ := id hnode
    rw [getNodeHash, getNodeIndex_ok_iff.mpr ⟨hnode, rfl⟩]
    show Except.ok (t.tree _) = _
    rw [hindex, ht (by unfold depth; omega) hlt, listNode, Int.toNat_natCast]
    congr 2
    unfold depth
    omega
  throws {address log2Size} hnode := by
    cases hget : t.getNodeHash address log2Size with
    | error e => exact ⟨e, rfl⟩
    | ok hash =>
      obtain ⟨index, hindex, -⟩ := except_bind_ok_iff.mp hget
      exact absurd (getNodeIndex_ok_iff.mp hindex).1 hnode

variable [Inhabited H]

theorem size_emptyHeap (hdepth : z.depth < 63) : (emptyHeap z : Heap H).size = 2 * 2 ^ z.depth := by
  have hpow : 2 ^ z.depth ≤ 2 ^ 62 := Nat.pow_le_pow_right (by decide) (by omega)
  rw [emptyHeap, toNat_mul, toNat_one_shiftLeft (by omega)]
  exact mod_eq_of_lt (by show 2 * _ < _; omega)

/-- The heap with the leaves, before the nodes above them are made. -/
def leafHeap (h : Hasher H) (z : TreeSizes) (leaves : List H) : Heap H :=
  ((emptyHeap z).put (2 ^ z.depth) leaves.length fun k => leaves.getD k default).put (2 ^ z.depth + leaves.length)
    (2 ^ z.depth - leaves.length) fun _ => z.pristine h 0

theorem initTree_eq (hdepth : z.depth < 63) (hfit : leaves.length ≤ 2 ^ z.depth) :
    initTree h z leaves (emptyHeap z) = initSubtree h z.depth 1 (leafHeap h z leaves) := by
  have hsize := size_emptyHeap (H := H) hdepth
  simp only [initTree, toNat_one_shiftLeft z.depth_lt]
  rw [Heap.write_ok (.inr (by omega))]
  show Heap.write _ _ _ _ >>= _ = _
  rw [Heap.write_ok (.inr (by show _ ≤ (emptyHeap z : Heap H).size; omega))]
  rfl

theorem leafHeap_entry (hfit : leaves.length ≤ 2 ^ z.depth) {k : Nat} (hk : k < 2 ^ z.depth) :
    (leafHeap h z leaves).entry (2 ^ z.depth + k) = leavesOf h z leaves k := by
  dsimp only [leafHeap, Heap.put, leavesOf, BackMerkleTree.filled]
  by_cases hlt : k < leaves.length
  · rw [if_neg (by omega), if_pos (by omega), Nat.add_sub_cancel_left, List.getD_eq_getElem _ _ hlt,
      List.getD_eq_getElem _ _ hlt]
  · rw [if_pos (by omega), List.getD_eq_default _ _ (Nat.le_of_not_lt hlt)]

theorem SubtreeMade.holdsNodes (hfit : leaves.length ≤ 2 ^ z.depth)
    (hmade : SubtreeMade h z.depth 1 (leafHeap h z leaves) tree) :
    HoldsNodes h z (leavesOf h z leaves) tree.entry := by
  intro e j he hj
  rw [hmade.below he (below_root hj), nodeHash_shift, ← Nat.pow_add, Nat.add_sub_cancel' he]
  refine nodeHash_congr fun k _ hk => leafHeap_entry hfit ?_
  calc k < (j + 1) * 2 ^ (z.depth - e) := hk
    _ ≤ 2 ^ e * 2 ^ (z.depth - e) := Nat.mul_le_mul_right _ hj
    _ = 2 ^ z.depth := by rw [← Nat.pow_add, Nat.add_sub_cancel' he]

section
variable {log2RootSize log2LeafSize log2WordSize : Int}
  (hz : checkLog2Sizes log2RootSize log2LeafSize log2WordSize = .ok z)
include hz

theorem makeFrom_eq (hfit : leaves.length ≤ 2 ^ z.depth) :
    makeFrom h log2RootSize log2LeafSize log2WordSize leaves =
      (initTree h z leaves (emptyHeap z)).map fun tree => { sizes := z, tree := tree.entry } := by
  have hroom : ¬ ((1 : Word) <<< z.depth).toNat < leaves.length := by
    rw [toNat_one_shiftLeft z.depth_lt]
    omega
  simp only [makeFrom, hz, throwUnless]
  show (if _ then _ else _ : Except String Unit).mapError _ >>= _ = _
  rw [if_pos hroom]
  cases initTree h z leaves (emptyHeap z) <;> rfl

theorem makeFrom_ok (hfit : leaves.length ≤ 2 ^ z.depth) (hdepth : z.depth ≤ 30) :
    ∃ t, makeFrom h log2RootSize log2LeafSize log2WordSize leaves = .ok t ∧ t.sizes = z ∧
      HoldsNodes h z (leavesOf h z leaves) t.tree := by
  have hpow : 2 ^ z.depth ≤ 2 ^ 30 := Nat.pow_le_pow_right (by decide) hdepth
  have hsize : (leafHeap h z leaves).size = 2 * 2 ^ z.depth := size_emptyHeap (H := H) (by omega)
  obtain ⟨tree, hinit, hmade⟩ := initSubtree_ok (h := h) (d := z.depth) (leafHeap h z leaves) Nat.one_pos
    (by omega) (by omega)
  refine ⟨{ sizes := z, tree := tree.entry }, ?_, rfl, hmade.holdsNodes hfit⟩
  rw [makeFrom_eq hz hfit, initTree_eq (by omega) hfit, hinit]
  rfl

theorem makeFrom_int (hfit : leaves.length ≤ 2 ^ z.depth) (hdepth : 30 < z.depth)
    (hlt : z.depth < 63) : makeFrom h log2RootSize log2LeafSize log2WordSize leaves = .error .intOverflow := by
  have hpow : 2 ^ 31 ≤ 1 * 2 ^ z.depth := by
    rw [Nat.one_mul]
    exact Nat.pow_le_pow_right (by decide) hdepth
  rw [makeFrom_eq hz hfit, initTree_eq hlt hfit, initSubtree_int _ (by decide) hpow]
  rfl

theorem makeFrom_bounds (hfit : leaves.length ≤ 2 ^ z.depth) (hdepth : z.depth = 63) :
    makeFrom h log2RootSize log2LeafSize log2WordSize leaves = .error .outOfBounds := by
  have hsize : (emptyHeap z : Heap H).size = 0 := by rw [emptyHeap, hdepth]; rfl
  rw [makeFrom_eq hz hfit, initTree, toNat_one_shiftLeft z.depth_lt]
  by_cases hnone : leaves.length = 0
  · rw [Heap.write_ok (.inl hnone)]
    show (Heap.write _ _ _ _ >>= _ : Except _ _).map _ = _
    rw [Heap.write, if_neg]
    · rfl
    · show ¬ (_ ∨ _ ≤ (emptyHeap z : Heap H).size)
      rw [hnone, hsize, hdepth]
      omega
  · rw [Heap.write, if_neg (by rw [hsize]; omega)]
    rfl

end

end FullMerkleTree

end MachineEmulator
