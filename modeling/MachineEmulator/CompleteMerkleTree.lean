import MachineEmulator.ListTree

/-!
# The complete Merkle tree

A tree that stores, for each of its levels, the hashes that are not pristine. Leaves are added at the end, one by one or
all at once, and the levels above are brought up to date.

* `CompleteMerkleTree` : the levels, by their height above the leaves;
* `bubbleLevel`, `bubbleUp` : a level made from the one below, and all of them in turn;
* `make`, `makeFrom`, `pushBack` : a pristine tree, a tree over some leaves, and a leaf more;
* `levelSize` : how many nodes of a level are not pristine;
* `levelOf` : these nodes. A level that held those of fewer leaves holds those of all of them afterwards
  (`bubbleLevel_eq`);
* `HoldsList` : all levels hold the nodes over a list of leaves. Then the tree has the nodes of this list
  (`HoldsList.hasNodes`).
-/

namespace MachineEmulator

open Merkle BackMerkleTree List Function

structure CompleteMerkleTree (H : Type) where
  sizes : TreeSizes
  /-- The hashes of a level, by its height above the leaves. -/
  level : Nat → List H

namespace CompleteMerkleTree

variable {H : Type}

/-! ## The tree -/

section
variable [Inhabited H] (h : Hasher H)

/-- The checks of the pristine hashes, then those of the tree. -/
def make (log2RootSize log2LeafSize log2WordSize : Int) : Except String (CompleteMerkleTree H) := do
  throwUnless (¬ log2RootSize < 0) "log2_root_size is negative"
  throwUnless (¬ log2WordSize < 0) "log2_word_size is negative"
  throwUnless (¬ log2RootSize < log2WordSize) "log2_word_size is greater than log2_root_size"
  let sizes ← checkLog2Sizes log2RootSize log2LeafSize log2WordSize
  .ok { sizes, level := fun _ => [] }

/-- A list cut or filled up to a length. -/
def resize (xs : List H) (n : Nat) : List H := xs.take n ++ List.replicate (n - xs.length) default

/-- The hashes of a level from those of the one below. The last entry there was may have had a pristine child, so it is
made again. -/
def bubbleLevel (pristine : H) (prev next : List H) : List H :=
  let firstEntry := if next ≠ [] then next.length - 1 else next.length
  let next := resize next ((prev.length + 1) / 2)
  let lastSafeEntry := prev.length / 2
  let next := (List.range' firstEntry (lastSafeEntry - firstEntry)).foldl (fun next entry =>
    next.set entry (h.concat (prev.getD (2 * entry) default) (prev.getD (2 * entry + 1) default))) next
  if 2 * lastSafeEntry < prev.length then next.set lastSafeEntry (h.concat (prev.getLastD default) pristine)
  else next

variable (t : CompleteMerkleTree H)

/-- Bring the level above level `i` up to date. -/
def bubbleStep (i : Nat) : CompleteMerkleTree H :=
  let next := bubbleLevel h (t.sizes.pristine h i) (t.level i) (t.level (i + 1))
  { t with level := Function.update t.level (i + 1) next }

/-- One level after the other, bottom up. -/
def bubbleUp : CompleteMerkleTree H := (List.range t.sizes.depth).foldl (bubbleStep h) t

/-- A tree over leaves that stand at its left. Their number is not checked. -/
def makeFrom (log2RootSize log2LeafSize log2WordSize : Int) (leaves : List H) :
    Except String (CompleteMerkleTree H) := do
  let t ← make log2RootSize log2LeafSize log2WordSize
  .ok (bubbleUp h { t with level := Function.update t.level 0 leaves })

def pushBack (hash : H) : Except String (CompleteMerkleTree H) := do
  throwUnless (¬ ((1 : Word) <<< t.sizes.depth).toNat ≤ (t.level 0).length) "tree is full"
  .ok (bubbleUp h { t with level := Function.update t.level 0 (t.level 0 ++ [hash]) })

def getNodeHash (address : Word) (log2Size : Int) : Except String H := do
  throwUnless (¬ (log2Size < t.sizes.log2LeafSize ∨ t.sizes.log2RootSize < log2Size)) "log2_size is out of bounds"
  let level := t.level (log2Size.toNat - t.sizes.log2LeafSize)
  let address := address >>> log2Size.toNat
  throwUnless (¬ (1 : Word) <<< (t.sizes.log2RootSize - log2Size.toNat) ≤ address) "log2_size is out of bounds"
  if address.toNat < level.length then .ok (level.getD address.toNat default)
  else .ok (h.pristine t.sizes.log2WordSize log2Size.toNat)

def getRootHash : Except String H := t.getNodeHash h 0 t.sizes.log2RootSize

def getProof (address : Word) (log2Size : Int) : Except String (MerkleTreeProof H) :=
  MachineEmulator.getProof t.sizes (t.getNodeHash h) address log2Size

end

/-! ## The nodes of a level -/

/-- The number of nodes of a level that have one of `n` leaves below them. -/
def levelSize (n : Nat) : Nat → Nat
  | 0 => n
  | d + 1 => (levelSize n d + 1) / 2

/-- These nodes of the tree over the leaves `f`. -/
def levelOf (h : Hasher H) (f : Nat → H) (n d : Nat) : List H :=
  (List.range (levelSize n d)).map (nodeHash h.concat f d)

theorem le_levelSize_mul (n d : Nat) : n ≤ levelSize n d * 2 ^ d := by
  induction d with
  | zero => simp [levelSize]
  | succ d ih =>
    have htwo : levelSize n d ≤ levelSize n (d + 1) * 2 := by
      rw [levelSize]
      omega
    calc n ≤ levelSize n d * 2 ^ d := ih
      _ ≤ levelSize n (d + 1) * 2 * 2 ^ d := Nat.mul_le_mul_right _ htwo
      _ = levelSize n (d + 1) * 2 ^ (d + 1) := by rw [Nat.pow_succ']; ring

/-- All nodes but the last have only leaves of the list below them. -/
theorem mul_le_of_lt_levelSize {n d j : Nat} (hj : j + 1 < levelSize n d) : (j + 1) * 2 ^ d ≤ n := by
  induction d generalizing j with
  | zero =>
    rw [levelSize] at hj
    omega
  | succ d ih =>
    rw [levelSize] at hj
    calc (j + 1) * 2 ^ (d + 1) = (2 * j + 1 + 1) * 2 ^ d := by rw [Nat.pow_succ']; ring
      _ ≤ n := ih (by omega)

theorem levelSize_mono {m n : Nat} (hmn : m ≤ n) (d : Nat) : levelSize m d ≤ levelSize n d := by
  induction d with
  | zero => exact hmn
  | succ d ih =>
    rw [levelSize, levelSize]
    omega

theorem levelSize_zero (d : Nat) : levelSize 0 d = 0 := by
  induction d with
  | zero => rfl
  | succ d ih => rw [levelSize, ih]

@[simp] theorem length_levelOf {h : Hasher H} {f : Nat → H} (n d : Nat) :
    (levelOf h f n d).length = levelSize n d := by
  rw [levelOf, length_map, length_range]

theorem getElem?_levelOf {h : Hasher H} {f : Nat → H} {n d j : Nat} (hj : j < levelSize n d) :
    (levelOf h f n d)[j]? = some (nodeHash h.concat f d j) := by
  rw [levelOf, getElem?_map, getElem?_range hj]
  rfl

/-! ## Bringing a level up to date -/

theorem getElem?_resize [Inhabited H] {xs : List H} {n j : Nat} (hj : j < xs.length) (hn : xs.length ≤ n) :
    (resize xs n)[j]? = xs[j]? := by
  rw [resize, take_of_length_le hn, getElem?_append_left hj]

theorem length_resize [Inhabited H] {xs : List H} {n : Nat} (hn : xs.length ≤ n) : (resize xs n).length = n := by
  rw [resize, length_append, length_take, length_replicate]
  omega

theorem length_foldl_set {α : Type} (v : Nat → α) (is : List Nat) (xs : List α) :
    (is.foldl (fun xs i => xs.set i (v i)) xs).length = xs.length := by
  induction is generalizing xs with
  | nil => rfl
  | cons i is ih => rw [foldl_cons, ih, length_set]

theorem getElem?_foldl_set {α : Type} (v : Nat → α) (is : List Nat) (xs : List α) {j : Nat} (hj : j < xs.length) :
    (is.foldl (fun xs i => xs.set i (v i)) xs)[j]? = if j ∈ is then some (v j) else xs[j]? := by
  induction is generalizing xs with
  | nil => rfl
  | cons i is ih =>
    rw [foldl_cons, ih _ (by rwa [length_set])]
    by_cases hmem : j ∈ is
    · rw [if_pos hmem, if_pos (mem_cons_of_mem _ hmem)]
    · rw [if_neg hmem]
      by_cases hij : j = i
      · subst hij
        rw [getElem?_set_self hj, if_pos mem_cons_self]
      · rw [getElem?_set_ne (fun h => hij h.symm), if_neg (by simp [hij, hmem])]

section
variable [Inhabited H] {h : Hasher H} {f g : Nat → H} {m n : Nat}

theorem length_bubbleLevel {z : H} {prev next : List H} (hlen : next.length ≤ (prev.length + 1) / 2) :
    (bubbleLevel h z prev next).length = (prev.length + 1) / 2 := by
  unfold bubbleLevel
  dsimp only
  split
  · rw [length_set, length_foldl_set, length_resize hlen]
  · rw [length_foldl_set, length_resize hlen]

/-- The entries of a level: those that are kept, those with two children, and the last one with a pristine child. -/
theorem getElem?_bubbleLevel {z : H} {prev next : List H} (hlen : next.length ≤ (prev.length + 1) / 2) {j : Nat}
    (hj : j < (prev.length + 1) / 2) : (bubbleLevel h z prev next)[j]? =
      if j + 1 < next.length then next[j]?
      else if j < prev.length / 2 then some (h.concat (prev.getD (2 * j) default) (prev.getD (2 * j + 1) default))
      else some (h.concat (prev.getLastD default) z) := by
  have hfirst : (if next ≠ [] then next.length - 1 else next.length) = next.length - 1 := by
    split
    · rfl
    · simp_all
  have hsize := length_resize hlen
  unfold bubbleLevel
  simp only [hfirst]
  have hfold := getElem?_foldl_set
    (fun entry => h.concat (prev.getD (2 * entry) default) (prev.getD (2 * entry + 1) default))
    (range' (next.length - 1) (prev.length / 2 - (next.length - 1))) (resize next ((prev.length + 1) / 2))
    (hsize.symm ▸ hj)
  generalize hq : (range' (next.length - 1) (prev.length / 2 - (next.length - 1))).foldl (fun next entry =>
    next.set entry (h.concat (prev.getD (2 * entry) default) (prev.getD (2 * entry + 1) default)))
    (resize next ((prev.length + 1) / 2)) = q at hfold ⊢
  have hlast : q.length = (prev.length + 1) / 2 := by rw [← hq, length_foldl_set, hsize]
  -- the entry of an odd level that comes last is set at the end, the others in the loop or not at all
  by_cases hodd : 2 * (prev.length / 2) < prev.length ∧ j = prev.length / 2
  · obtain ⟨hodd, rfl⟩ := hodd
    rw [if_pos hodd, getElem?_set_self (by omega), if_neg (by omega), if_neg (by omega)]
  · have hsame : (if 2 * (prev.length / 2) < prev.length then
        q.set (prev.length / 2) (h.concat (prev.getLastD default) z) else q)[j]? = q[j]? := by
      split
      · exact getElem?_set_ne (by omega)
      · rfl
    rw [hsame, hfold]
    by_cases hkeep : j + 1 < next.length
    · rw [if_neg (by rw [mem_range'_1]; omega), if_pos hkeep, getElem?_resize (by omega) hlen]
    · rw [if_pos (by rw [mem_range'_1]; omega), if_neg hkeep, if_pos (by omega)]

theorem getD_levelOf {d j : Nat} (hj : j < levelSize n d) :
    (levelOf h f n d).getD j default = nodeHash h.concat f d j := by
  rw [getD_eq_getElem?_getD, getElem?_levelOf hj]
  rfl

/-- A level with the nodes of the first leaves, and the level below it with those of all of them. -/
theorem bubbleLevel_eq {z : H} (hmn : m ≤ n) (hfg : ∀ k, k < m → f k = g k) (hz : ∀ k, n ≤ k → g k = z) (d : Nat) :
    bubbleLevel h (pristine h.concat z d) (levelOf h g n d) (levelOf h f m (d + 1)) = levelOf h g n (d + 1) := by
  have hmono := levelSize_mono hmn (d + 1)
  have hlen : (levelOf h f m (d + 1)).length ≤ ((levelOf h g n d).length + 1) / 2 := by
    rwa [length_levelOf, length_levelOf]
  refine ext_getElem? fun j => ?_
  by_cases hj : j < levelSize n (d + 1)
  · rw [getElem?_bubbleLevel hlen (by rwa [length_levelOf]), getElem?_levelOf hj, length_levelOf, length_levelOf]
    rw [levelSize] at hj
    split
    · -- its leaves were there before
      rename_i hkeep
      rw [getElem?_levelOf (by omega)]
      congr 1
      exact nodeHash_congr fun k _ hk => hfg k (Nat.lt_of_lt_of_le hk (mul_le_of_lt_levelSize hkeep))
    · split
      · rw [getD_levelOf (by omega), getD_levelOf (by omega), nodeHash]
      · have hlast : levelSize n d = 2 * j + 1 := by omega
        have hright : nodeHash h.concat g d (2 * j + 1) = pristine h.concat z d := by
          refine nodeHash_beyond hz ?_
          rw [← hlast]
          exact le_levelSize_mul n d
        have hleft : (levelOf h g n d).getLastD default = nodeHash h.concat g d (2 * j) := by
          rw [levelOf, hlast, range_succ, map_append]
          simp
        rw [hleft, nodeHash, hright]
  · rw [getElem?_eq_none, getElem?_eq_none]
    · rw [length_levelOf]
      omega
    · rw [length_bubbleLevel hlen, length_levelOf]
      rw [levelSize] at hj
      omega

end

/-! ## Trees over a list -/

section
variable {h : Hasher H} {t t' : CompleteMerkleTree H} {ls : List H}

/-- Every level holds the nodes over the leaves. -/
def HoldsList (h : Hasher H) (t : CompleteMerkleTree H) (ls : List H) : Prop :=
  ∀ d ≤ t.sizes.depth, t.level d = levelOf h (leavesOf h t.sizes ls) ls.length d

theorem levelOf_zero (z : H) (ls : List H) : levelOf h (filled z ls) ls.length 0 = ls := by
  refine ext_getElem? fun j => ?_
  by_cases hj : j < ls.length
  · rw [getElem?_levelOf hj, nodeHash, filled, getD_eq_getElem _ _ hj, getElem?_eq_getElem hj]
  · rw [getElem?_eq_none, getElem?_eq_none (Nat.le_of_not_lt hj)]
    rw [length_levelOf]
    exact Nat.le_of_not_lt hj

variable [Inhabited H]

theorem bubbleStep_level_self (i : Nat) : (bubbleStep h t i).level (i + 1) =
    bubbleLevel h (t.sizes.pristine h i) (t.level i) (t.level (i + 1)) := update_self ..

theorem bubbleStep_level_of_ne {i d : Nat} (hd : d ≠ i + 1) : (bubbleStep h t i).level d = t.level d :=
  update_of_ne hd _ _

/-- The loop over the levels: those up to level `i` hold all leaves, those above the first ones only. -/
theorem foldl_bubbleStep {ms : List H} (hlevel : t.level 0 = ls ++ ms)
    (hold : ∀ d, 0 < d → d ≤ t.sizes.depth → t.level d = levelOf h (leavesOf h t.sizes ls) ls.length d) {i : Nat}
    (hi : i ≤ t.sizes.depth) :
    let t' := (range i).foldl (bubbleStep h) t
    t'.sizes = t.sizes ∧
      (∀ d ≤ i, t'.level d = levelOf h (leavesOf h t.sizes (ls ++ ms)) (ls ++ ms).length d) ∧
      ∀ d, i < d → t'.level d = t.level d := by
  induction i with
  | zero =>
    refine ⟨rfl, fun d hd => ?_, fun _ _ => rfl⟩
    obtain rfl := Nat.le_zero.mp hd
    exact hlevel.trans (levelOf_zero _ _).symm
  | succ i ih =>
    obtain ⟨hsizes, hdone, hrest⟩ := ih (by omega)
    intro t'
    have ht' : t' = bubbleStep h ((range i).foldl (bubbleStep h) t) i := by
      show (range (i + 1)).foldl _ _ = _
      rw [range_succ, foldl_append]
      rfl
    generalize (range i).foldl (bubbleStep h) t = q at *
    have hnext : bubbleLevel h (q.sizes.pristine h i) (q.level i) (q.level (i + 1)) =
        levelOf h (leavesOf h t.sizes (ls ++ ms)) (ls ++ ms).length (i + 1) := by
      rw [hsizes, hdone i (Nat.le_refl i), hrest (i + 1) (by omega), hold (i + 1) (by omega) hi, TreeSizes.pristine_eq]
      refine bubbleLevel_eq (by simp) (fun k hk => ?_) (fun k hk => ?_) i
      · rw [leavesOf, leavesOf, filled, filled, getD_append _ _ _ _ hk]
      · exact getD_eq_default _ _ hk
    rw [ht']
    refine ⟨hsizes, fun d hd => ?_, fun d hd => ?_⟩
    · by_cases hdi : d = i + 1
      · rw [hdi, bubbleStep_level_self, hnext]
      · rw [bubbleStep_level_of_ne hdi]
        exact hdone d (by omega)
    · rw [bubbleStep_level_of_ne (by omega)]
      exact hrest d (by omega)

theorem bubbleUp_holds (ht : t.HoldsList h ls) (ms : List H) :
    (bubbleUp h { t with level := update t.level 0 (ls ++ ms) }).HoldsList h (ls ++ ms) ∧
      (bubbleUp h { t with level := update t.level 0 (ls ++ ms) }).sizes = t.sizes := by
  have hlevel : update t.level 0 (ls ++ ms) 0 = ls ++ ms := update_self ..
  have hold : ∀ d, 0 < d → d ≤ t.sizes.depth →
      update t.level 0 (ls ++ ms) d = levelOf h (leavesOf h t.sizes ls) ls.length d := by
    intro d hpos hd
    rw [update_of_ne (by omega), ht d hd]
  obtain ⟨hsizes, hdone, -⟩ := foldl_bubbleStep (t := { t with level := update t.level 0 (ls ++ ms) })
    hlevel hold (Nat.le_refl _)
  refine ⟨fun d hd => ?_, hsizes⟩
  rw [bubbleUp, hsizes] at hd ⊢
  exact hdone d hd

omit [Inhabited H] in
theorem holdsList_nil (z : TreeSizes) : HoldsList h { sizes := z, level := fun _ => [] } [] := by
  intro d _
  rw [levelOf, length_nil, levelSize_zero]
  rfl

omit [Inhabited H] in
theorem make_ok {log2RootSize log2LeafSize log2WordSize : Int} {z : TreeSizes}
    (hz : checkLog2Sizes log2RootSize log2LeafSize log2WordSize = .ok z) :
    make log2RootSize log2LeafSize log2WordSize = .ok { sizes := z, level := fun _ => ([] : List H) } := by
  obtain ⟨hr, hl, hw⟩ := checkLog2Sizes_ok hz
  have h1 := z.word_le
  have h2 := z.leaf_le
  simp only [make, throwUnless, hz, if_pos (show ¬ log2RootSize < 0 by omega),
    if_pos (show ¬ log2WordSize < 0 by omega), if_pos (show ¬ log2RootSize < log2WordSize by omega)]
  rfl

theorem makeFrom_ok {log2RootSize log2LeafSize log2WordSize : Int} {z : TreeSizes}
    (hz : checkLog2Sizes log2RootSize log2LeafSize log2WordSize = .ok z) (ls : List H) :
    ∃ t, makeFrom h log2RootSize log2LeafSize log2WordSize ls = .ok t ∧ t.sizes = z ∧ t.HoldsList h ls := by
  obtain ⟨hholds, hsizes⟩ := bubbleUp_holds (h := h) (holdsList_nil z) ls
  refine ⟨_, ?_, hsizes, hholds⟩
  rw [makeFrom, make_ok hz]
  rfl

theorem HoldsList.pushBack (ht : t.HoldsList h ls) (hroom : ls.length < 2 ^ t.sizes.depth) (x : H) :
    ∃ t', t.pushBack h x = .ok t' ∧ t'.sizes = t.sizes ∧ t'.HoldsList h (ls ++ [x]) := by
  have hleaves : t.level 0 = ls := (ht 0 (Nat.zero_le _)).trans (levelOf_zero _ _)
  obtain ⟨hholds, hsizes⟩ := bubbleUp_holds ht [x]
  refine ⟨_, ?_, hsizes, hholds⟩
  rw [CompleteMerkleTree.pushBack, hleaves, Bits.toNat_one_shiftLeft t.sizes.depth_lt, throwUnless, if_pos (by omega)]
  rfl

def pushAll (h : Hasher H) (t : CompleteMerkleTree H) (xs : List H) : Except String (CompleteMerkleTree H) :=
  xs.foldlM (fun t x => t.pushBack h x) t

theorem HoldsList.pushAll (ht : t.HoldsList h ls) (xs : List H) (hroom : (ls ++ xs).length ≤ 2 ^ t.sizes.depth) :
    ∃ t', t.pushAll h xs = .ok t' ∧ t'.sizes = t.sizes ∧ t'.HoldsList h (ls ++ xs) := by
  induction xs generalizing t ls with
  | nil => exact ⟨t, rfl, rfl, by rwa [append_nil]⟩
  | cons x xs ih =>
    rw [length_append, length_cons] at hroom
    obtain ⟨t1, hpush, hsizes1, hholds1⟩ := ht.pushBack (by omega) x
    obtain ⟨t', hrest, hsizes, hholds⟩ := ih hholds1 (by rw [hsizes1]; simp; omega)
    refine ⟨t', ?_, hsizes.trans hsizes1, by rwa [append_cons]⟩
    rw [CompleteMerkleTree.pushAll, foldlM_cons, hpush]
    exact hrest

theorem HoldsList.hasNodes (ht : t.HoldsList h ls) :
    HasNodes h t.sizes (leavesOf h t.sizes ls) (t.getNodeHash h) where
  hash {address log2Size} hnode := by
    obtain ⟨h1, h2, ha⟩ := hnode
    obtain ⟨d, rfl⟩ := Nat.exists_eq_add_of_le (show t.sizes.log2LeafSize ≤ log2Size by omega)
    have hbounds : ¬ (((t.sizes.log2LeafSize + d : Nat) : Int) < t.sizes.log2LeafSize ∨
        (t.sizes.log2RootSize : Int) < (t.sizes.log2LeafSize + d : Nat)) := by omega
    have hbeyond : ¬ (1 : Word) <<< (t.sizes.log2RootSize - (t.sizes.log2LeafSize + d)) ≤
        address >>> (t.sizes.log2LeafSize + d) := (not_one_shiftLeft_le_iff t.sizes.root_lt (by omega)).mpr ha
    have hlevel : t.level d = levelOf h (leavesOf h t.sizes ls) ls.length d := by
      refine ht d ?_
      unfold TreeSizes.depth
      omega
    have hindex : (address >>> (t.sizes.log2LeafSize + d)).toNat = address.toNat / 2 ^ (t.sizes.log2LeafSize + d) := by
      rw [BitVec.toNat_ushiftRight, Nat.shiftRight_eq_div_pow]
    simp only [getNodeHash, throwUnless, Int.toNat_natCast, if_pos hbounds, if_pos hbeyond, Nat.add_sub_cancel_left,
      hlevel, length_levelOf, hindex, listNode]
    generalize address.toNat / 2 ^ (t.sizes.log2LeafSize + d) = j
    by_cases hj : j < levelSize ls.length d
    · rw [if_pos hj, getD_levelOf hj]
      rfl
    · have hpristine : nodeHash h.concat (leavesOf h t.sizes ls) d j = t.sizes.pristine h d := by
        rw [TreeSizes.pristine_eq]
        refine nodeHash_beyond (fun k hk => getD_eq_default _ _ hk) ?_
        exact Nat.le_trans (le_levelSize_mul _ d) (Nat.mul_le_mul_right _ (Nat.le_of_not_lt hj))
      rw [if_neg hj, hpristine]
      rfl
  throws {address log2Size} hnode := by
    cases hget : t.getNodeHash h address log2Size with
    | error e => exact ⟨e, rfl⟩
    | ok hash =>
      simp only [getNodeHash, except_bind_ok_iff, throwUnless_ok_iff] at hget
      obtain ⟨-, hbounds, -, hbeyond, -⟩ := hget
      have ha := (not_one_shiftLeft_le_iff t.sizes.root_lt (by omega)).mp hbeyond
      exact absurd ⟨by omega, by omega, ha⟩ hnode

end

end CompleteMerkleTree

end MachineEmulator
