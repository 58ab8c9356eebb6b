import MachineEmulator.AccessLog
import MachineEmulator.Lib.Bits
import MachineEmulator.Lib.Frontier

/-!
# The back Merkle tree

A Merkle tree over a stream of leaf hashes. It keeps one hash for each bit of the number of leaves so far: the
subtree this bit stands for. Leaves that are still to come count as pristine.

* `BackMerkleTree` : the tree, with the sizes the constructor accepts;
* `pushBack`, `padBack` : a leaf more, and a number of pristine leaves more;
* `getRootHash` : the root, with the missing leaves pristine;
* `Holds h t f` : the tree holds the leaves `f`. Then its root is the root over `f` (`Holds.getRootHash_eq`);
* `Holds.pushBack`, `Holds.padBack` : what the two operations hold afterwards;
* `run` : a sequence of calls, and the leaves it stands for (`Op.leaves`).
-/

namespace MachineEmulator

open Merkle List Function Nat

/-- The hash of `2 ^ log2Size` zeros, with words of `2 ^ log2WordSize` bytes. -/
def Hasher.pristine {H : Type} (h : Hasher H) (log2WordSize log2Size : Nat) : H :=
  Merkle.pristine h.concat (h.word (List.replicate (2 ^ log2WordSize) 0)) (log2Size - log2WordSize)

theorem Hasher.pristine_add {H : Type} (h : Hasher H) {log2WordSize log2LeafSize : Nat}
    (hle : log2WordSize ≤ log2LeafSize) (i : Nat) : h.pristine log2WordSize (log2LeafSize + i) =
      Merkle.pristine h.concat (h.pristine log2WordSize (log2LeafSize + 0)) i := by
  unfold pristine
  rw [pristine_pristine]
  congr 1
  omega

structure BackMerkleTree (H : Type) where
  log2RootSize : Nat
  log2LeafSize : Nat
  /-- The word size of the pristine hashes. -/
  log2WordSize : Nat
  leafCount : Word
  /-- Level `i` is in use when bit `i` of the leaf count is set. -/
  context : Nat → H
  word_le : log2WordSize ≤ log2LeafSize
  leaf_le : log2LeafSize ≤ log2RootSize
  depth_lt : log2RootSize - log2LeafSize < 64

namespace BackMerkleTree

variable {H : Type}

/-- The number of leaves of a subtree of level `i`. -/
def span (i : Nat) : Word := (1 : Word) <<< i

def depth (t : BackMerkleTree H) : Nat := t.log2RootSize - t.log2LeafSize

def maxLeaves (t : BackMerkleTree H) : Word := span t.depth

/-- The checks of the pristine hashes, then those of the tree. -/
def make [Inhabited H] (log2RootSize log2LeafSize log2WordSize : Int) :
    Except String (BackMerkleTree H) :=
  if log2RootSize < 0 then .error "log2_root_size is negative"
  else if log2WordSize < 0 then .error "log2_word_size is negative"
  else if log2RootSize < log2WordSize then .error "log2_word_size is greater than log2_root_size"
  else if log2LeafSize < 0 then .error "log2_leaf_size is negative"
  else if _hleaf : log2RootSize < log2LeafSize then
    .error "log2_leaf_size is greater than log2_root_size"
  else if _hword : log2LeafSize < log2WordSize then
    .error "log2_word_size is greater than log2_word_size"
  else if _hdepth : 64 ≤ log2RootSize - log2LeafSize then .error "tree is too large for address type"
  else
    .ok { log2RootSize := log2RootSize.toNat, log2LeafSize := log2LeafSize.toNat,
          log2WordSize := log2WordSize.toNat, leafCount := 0, context := fun _ => default,
          word_le := by omega, leaf_le := by omega, depth_lt := by omega }

section
variable (h : Hasher H)

def pristine (t : BackMerkleTree H) (i : Nat) : H := h.pristine t.log2WordSize (t.log2LeafSize + i)

/-- Carry a subtree up from level `i`, `n` levels at most: join it to the subtrees of the set bits and store it
at the first level whose bit is clear. Returns this level, if there is one. -/
def carry (leafCount : Word) : Nat → Nat → H → (Nat → H) → Option Nat × (Nat → H)
  | 0, _, _, context => (none, context)
  | n + 1, i, right, context =>
    if leafCount &&& span i ≠ 0 then carry leafCount n (i + 1) (h.concat (context i) right) context
    else (some i, Function.update context i right)

theorem carry_level_ge (leafCount : Word) : ∀ (n i : Nat) (right : H) (context : Nat → H),
    ∀ s ∈ (carry h leafCount n i right context).1, i ≤ s
  | 0, i, right, context => by simp [carry]
  | n + 1, i, right, context => by
    rw [carry]
    split
    · intro s hs
      exact le_of_succ_le (carry_level_ge leafCount n (i + 1) _ _ s hs)
    · simp

/-- The level at which the padding goes on is not below the last one. -/
theorem le_carry_getD (leafCount : Word) (n j : Nat) (right : H) (context : Nat → H) :
    j ≤ (carry h leafCount n j right context).1.getD j := by
  cases hc : (carry h leafCount n j right context).1 with
  | none => exact Nat.le_refl j
  | some i => exact carry_level_ge h _ _ _ _ _ i hc

theorem toNat_sub_span {w leafCount : Word} {j : Nat} (hle : ¬ w < span j) (hbit : leafCount &&& span j ≠ 0) :
    (w - span j).toNat < w.toNat := by
  have hpos : 0 < (span j).toNat := by
    refine toNat_pos_of_ne_zero fun h0 => hbit ?_
    rw [h0]
    exact BitVec.and_zero
  have hle := BitVec.not_lt.mp hle
  rw [BitVec.toNat_sub_of_le hle]
  rw [BitVec.le_def] at hle
  omega

def pushBack (t : BackMerkleTree H) (newLeafHash : H) : Except String (BackMerkleTree H) :=
  if t.maxLeaves ≤ t.leafCount then .error "too many leaves"
  else
    .ok { t with leafCount := t.leafCount + 1,
                 context := (carry h t.leafCount (t.depth + 1) 0 newLeafHash t.context).2 }

/-- What the loops of `padBack` change: the leaves still to be added, the leaf count and the context. -/
structure Padding (H : Type) where
  newLeafCount : Word
  leafCount : Word
  context : Nat → H

/-- While the smallest subtree is not larger than the padding, double it. -/
def padLoop (pristine : Nat → H) (depth j : Nat) (s : Padding H) : Padding H :=
  if depth < j then s
  else
    let jSpan := span j
    if s.newLeafCount < jSpan then s
    else if _hbit : s.leafCount &&& jSpan ≠ 0 then
      let c := carry h s.leafCount (depth + 1 - j) j (pristine j) s.context
      padLoop pristine depth (c.1.getD j) ⟨s.newLeafCount - jSpan, s.leafCount + jSpan, c.2⟩
    else padLoop pristine depth (j + 1) s
termination_by (depth + 1 - j) + s.newLeafCount.toNat
decreasing_by
  · rename_i _ hlt
    have hj := le_carry_getD h s.leafCount (depth + 1 - j) j (pristine j) s.context
    have hn := toNat_sub_span hlt _hbit
    show depth + 1 - _ + (s.newLeafCount - span j).toNat < _
    omega
  · omega

/-- Add a pristine subtree for each bit of the padding that is left. -/
def padRest (pristine : Nat → H) (s : Padding H) (i : Nat) : Padding H :=
  let iSpan := span i
  if s.newLeafCount &&& iSpan ≠ 0 then
    ⟨s.newLeafCount - iSpan, s.leafCount + iSpan, Function.update s.context i (pristine i)⟩
  else s

def padBack (t : BackMerkleTree H) (newLeafCount : Word) : Except String (BackMerkleTree H) :=
  if t.maxLeaves < newLeafCount ∨ t.maxLeaves < t.leafCount + newLeafCount then
    .error "too many leaves"
  else
    let s := padLoop h (t.pristine h) t.depth 0 ⟨newLeafCount, t.leafCount, t.context⟩
    let s := (List.range (t.depth + 1)).foldl (padRest (t.pristine h)) s
    .ok { t with leafCount := s.leafCount, context := s.context }

def getRootHash (t : BackMerkleTree H) : H :=
  if t.leafCount < t.maxLeaves then
    (List.range t.depth).foldl (fun root i =>
      if t.leafCount &&& span i ≠ 0 then h.concat (t.context i) root
      else h.concat root (t.pristine h i)) (t.pristine h 0)
  else t.context t.depth

end

/-! ## Words and numbers -/

variable {i : Nat} {t' : BackMerkleTree H} {ls : List H}

theorem toNat_span (hi : i < 64) : (span i).toNat = 2 ^ i := Bits.toNat_one_shiftLeft hi

theorem and_span_ne_zero {w : Word} : w &&& span i ≠ 0 ↔ w.toNat.testBit i = true := by
  show w &&& (1#64 <<< i) ≠ 0 ↔ _
  rw [← BitVec.twoPow_eq]
  exact Bits.and_twoPow_ne_zero w

theorem not_testBit_of {w : Word} (hw : ¬ w &&& span i ≠ 0) : w.toNat.testBit i = false := by
  rw [Bool.eq_false_iff]
  exact fun hb => hw (and_span_ne_zero.mpr hb)

theorem toNat_maxLeaves (t : BackMerkleTree H) : t.maxLeaves.toNat = 2 ^ t.depth := toNat_span t.depth_lt

variable {h : Hasher H} {t : BackMerkleTree H} {f g : Nat → H}

theorem pristine_eq (t : BackMerkleTree H) (i : Nat) :
    t.pristine h i = Merkle.pristine h.concat (t.pristine h 0) i := h.pristine_add t.word_le i

/-! ## Carries -/

/-- A subtree of `2 ^ j` leaves, carried up to the first clear bit. -/
theorem carry_spec {c : Word} {context : Nat → H} {j depth : Nat} (hf : Frontier h.concat f c.toNat context)
    (hfg : ∀ k, k < c.toNat → f k = g k) (hroom : c.toNat + 2 ^ j ≤ 2 ^ depth) (n i : Nat) (right : H)
    (hn : i + n = depth + 1) (hij : c.toNat % 2 ^ i + 2 ^ j = 2 ^ i)
    (hright : right = nodeHash h.concat g i (c.toNat / 2 ^ i)) :
    ∃ s, (carry h c n i right context).1 = some s ∧ c.toNat % 2 ^ s + 2 ^ j = 2 ^ s ∧
      Frontier h.concat g (c.toNat + 2 ^ j) (carry h c n i right context).2 := by
  induction n generalizing i right with
  | zero =>
    -- the count is below `2 ^ depth`, so a level with a clear bit has been met
    have hi : i = depth + 1 := by omega
    subst hi
    have := mod_le c.toNat (2 ^ (depth + 1))
    rw [Nat.pow_succ] at *
    have := Nat.two_pow_pos depth
    omega
  | succ n ih =>
    rw [carry]
    split
    · rename_i hbit
      have hbit := and_span_ne_zero.mp hbit
      refine ih (i + 1) _ (by omega) ?_ ?_
      · rw [mod_two_pow_succ_of_testBit hbit, Nat.pow_succ]
        omega
      · rw [hright]
        exact (hf.congr hfg).join hbit
    · rename_i hbit
      have hbit := not_testBit_of hbit
      refine ⟨i, rfl, hij, ?_⟩
      rw [hright]
      exact hf.push hfg hbit hij

/-! ## Holding leaves -/

/-- The tree holds the leaves of `f`, which are pristine from the leaf count on. -/
structure Holds (h : Hasher H) (t : BackMerkleTree H) (f : Nat → H) : Prop where
  fits : t.leafCount.toNat ≤ 2 ^ t.depth
  frontier : Frontier h.concat f t.leafCount.toNat t.context
  beyond : ∀ k, t.leafCount.toNat ≤ k → f k = t.pristine h 0

theorem Holds.nodeHash_next (ht : t.Holds h f) (n : Nat) :
    nodeHash h.concat f n (t.leafCount.toNat / 2 ^ n + 1) = t.pristine h n := by
  rw [pristine_eq]
  refine nodeHash_beyond ht.beyond ?_
  rw [Nat.mul_comm]
  exact Nat.le_of_lt (lt_mul_div_succ t.leafCount.toNat (Nat.two_pow_pos n))

theorem Holds.nodeHash_succ (ht : t.Holds h f) (n : Nat) :
    nodeHash h.concat f (n + 1) (t.leafCount.toNat / 2 ^ (n + 1)) =
      if t.leafCount &&& span n ≠ 0 then h.concat (t.context n) (nodeHash h.concat f n (t.leafCount.toNat / 2 ^ n))
      else h.concat (nodeHash h.concat f n (t.leafCount.toNat / 2 ^ n)) (t.pristine h n) := by
  split
  · rename_i hbit
    exact (ht.frontier.join (and_span_ne_zero.mp hbit)).symm
  · rename_i hbit
    rw [node_succ_of_not_testBit (not_testBit_of hbit), ht.nodeHash_next]

theorem getRootHash_loop (ht : t.Holds h f) (n : Nat) : (List.range n).foldl (fun root i =>
      if t.leafCount &&& span i ≠ 0 then h.concat (t.context i) root
      else h.concat root (t.pristine h i)) (t.pristine h 0) =
      nodeHash h.concat f n (t.leafCount.toNat / 2 ^ n) := by
  induction n with
  | zero =>
    rw [Nat.pow_zero, Nat.div_one]
    exact (ht.beyond _ (Nat.le_refl _)).symm
  | succ n ih => rw [List.range_succ, foldl_append, ih, foldl_cons, foldl_nil, ht.nodeHash_succ]

/-- The root of a tree is the root over its leaves, filled up with pristine ones. -/
theorem Holds.getRootHash_eq (ht : t.Holds h f) : t.getRootHash h = nodeHash h.concat f t.depth 0 := by
  unfold getRootHash
  have hmax := t.toNat_maxLeaves
  have hfits := ht.fits
  split
  · rename_i hlt
    rw [BitVec.lt_def, hmax] at hlt
    rw [getRootHash_loop ht, div_eq_of_lt hlt]
  · rename_i hlt
    rw [BitVec.lt_def, hmax] at hlt
    have hfull : t.leafCount.toNat = 2 ^ t.depth := by omega
    rw [ht.frontier t.depth (by rw [hfull, testBit_two_pow_self]), hfull, Nat.div_self (Nat.two_pow_pos _)]

theorem Holds.pushBack (ht : t.Holds h f) {x : H} (hpush : t.pushBack h x = .ok t') :
    t'.Holds h (update f t.leafCount.toNat x) ∧ t'.leafCount.toNat = t.leafCount.toNat + 1 ∧
      t'.depth = t.depth ∧ t'.pristine h = t.pristine h := by
  unfold BackMerkleTree.pushBack at hpush
  split at hpush
  · cases hpush
  rename_i hmax
  obtain rfl := Except.ok.inj hpush
  have hdepth : 2 ^ t.depth ≤ 2 ^ 63 := Nat.pow_le_pow_right (by decide) (by have := t.depth_lt; unfold depth; omega)
  rw [BitVec.le_def, toNat_maxLeaves] at hmax
  have hcount : (t.leafCount + 1).toNat = t.leafCount.toNat + 1 := by
    rw [BitVec.toNat_add, show (1 : Word).toNat = 1 from rfl, mod_eq_of_lt (by omega)]
  have hfg : ∀ k, k < t.leafCount.toNat → f k = update f t.leafCount.toNat x k :=
    fun k hk => (update_of_ne (by omega) x f).symm
  have hroom : t.leafCount.toNat + 2 ^ 0 ≤ 2 ^ t.depth := by omega
  obtain ⟨s, -, -, hs⟩ := carry_spec ht.frontier hfg hroom (t.depth + 1) 0 x (by omega)
    (by simp [mod_one]) (by simp [nodeHash])
  refine ⟨⟨?_, ?_, fun k hk => ?_⟩, hcount, rfl, rfl⟩
  · show (t.leafCount + 1).toNat ≤ 2 ^ t.depth
    omega
  · show Frontier _ _ (t.leafCount + 1).toNat _
    rw [hcount]
    exact hs
  · have hk : (t.leafCount + 1).toNat ≤ k := hk
    rw [update_of_ne (by omega)]
    exact ht.beyond k (by omega)

/-! ## Padding -/

/-- What the loops of the padding keep: the subtrees of the leaves so far, and the number of leaves in the end. -/
structure Padding.Keeps (h : Hasher H) (f : Nat → H) (total : Nat) (s : Padding H) : Prop where
  frontier : Frontier h.concat f s.leafCount.toNat s.context
  total_eq : s.leafCount.toNat + s.newLeafCount.toNat = total

theorem toNat_move {s : Padding H} {total : Nat} (hs : s.leafCount.toNat + s.newLeafCount.toNat = total)
    (htotal : total < 2 ^ 64) (hi : i < 64) (hle : 2 ^ i ≤ s.newLeafCount.toNat) :
    (s.leafCount + span i).toNat = s.leafCount.toNat + 2 ^ i ∧
      (s.newLeafCount - span i).toNat = s.newLeafCount.toNat - 2 ^ i := by
  constructor
  · rw [BitVec.toNat_add, toNat_span hi, mod_eq_of_lt (by omega)]
  · rw [BitVec.toNat_sub_of_le (by rw [BitVec.le_def, toNat_span hi]; exact hle), toNat_span hi]

/-- The padding that is left is smaller than the smallest subtree. -/
structure Padding.Done (h : Hasher H) (f : Nat → H) (total first : Nat) (s : Padding H) : Prop
    extends s.Keeps h f total where
  small : ∃ i, s.leafCount.toNat % 2 ^ i = 0 ∧ s.newLeafCount.toNat < 2 ^ i
  first_le : first ≤ s.leafCount.toNat

theorem padLoop_spec {z : H} {total depth : Nat} (hdepth : depth < 64) (htotal : total ≤ 2 ^ depth)
    (j : Nat) (s : Padding H) (hs : s.Keeps h f total) (hz : ∀ k, s.leafCount.toNat ≤ k → f k = z)
    (hj : s.leafCount.toNat % 2 ^ j = 0) :
    (padLoop h (Merkle.pristine h.concat z) depth j s).Done h f total s.leafCount.toNat := by
  have hbound : 2 ^ depth < 2 ^ 64 := Nat.pow_lt_pow_right (by decide) hdepth
  have htot := hs.total_eq
  induction j, s using padLoop.induct h (Merkle.pristine h.concat z) depth with
  | case1 j s hlt =>
    -- all levels are behind: there are no leaves yet, or nothing is left
    rw [padLoop, if_pos hlt]
    have hlevel : 2 ^ (depth + 1) ≤ 2 ^ j := Nat.pow_le_pow_right (by decide) hlt
    rw [Nat.pow_succ] at hlevel
    have := Nat.two_pow_pos depth
    exact ⟨hs, ⟨j, hj, by omega⟩, Nat.le_refl _⟩
  | case2 j s hle jSpan hlt =>
    rw [padLoop, if_neg hle, if_pos hlt]
    rw [BitVec.lt_def, toNat_span (by omega)] at hlt
    exact ⟨hs, ⟨j, hj, hlt⟩, Nat.le_refl _⟩
  | case3 j s hle jSpan hnew hbit c ih =>
    rw [padLoop, if_neg hle, if_neg hnew, dif_pos hbit]
    have hle' : 2 ^ j ≤ s.newLeafCount.toNat := by
      have := BitVec.not_lt.mp hnew
      rwa [BitVec.le_def, toNat_span (by omega)] at this
    obtain ⟨hcount, hrest⟩ := toNat_move htot (by omega) (by omega : j < 64) hle'
    have hright : Merkle.pristine h.concat z j = nodeHash h.concat f j (s.leafCount.toNat / 2 ^ j) := by
      refine (nodeHash_beyond hz ?_).symm
      rw [Nat.div_mul_cancel (dvd_of_mod_eq_zero hj)]
    have hroom : s.leafCount.toNat + 2 ^ j ≤ 2 ^ depth := by omega
    obtain ⟨i, hi, hmod, hfront⟩ := carry_spec hs.frontier (fun _ _ => rfl) hroom (depth + 1 - j) j _
      (by omega) (by omega) hright
    have hc : c.1.getD j = i := congrArg (Option.getD · j) hi
    have hnext : ((s.leafCount + jSpan).toNat) % 2 ^ i = 0 := by
      rw [hcount, add_two_pow_of_carry hmod, mul_mod_left]
    rw [hc] at ih
    have hdone := ih ⟨by rwa [hcount], by rw [hcount, hrest]; omega⟩
      (fun k hk => hz k (by rw [hcount] at hk; omega)) hnext (by rw [hcount, hrest]; omega)
    show (padLoop h _ depth (c.1.getD j) ⟨s.newLeafCount - jSpan, s.leafCount + jSpan, c.2⟩).Done h f total _
    rw [hc]
    exact ⟨hdone.toKeeps, hdone.small, Nat.le_trans (by rw [hcount]; omega) hdone.first_le⟩
  | case4 j s hle jSpan hnew hbit ih =>
    rw [padLoop, if_neg hle, if_neg hnew, dif_neg hbit]
    refine ih hs hz ?_ htot
    rw [mod_two_pow_succ_of_not_testBit (not_testBit_of hbit)]
    exact hj

/-- The rest of the padding moves to the leaves, whatever their number is. -/
theorem foldl_padRest_sum (z : Nat → H) (is : List Nat) (s : Padding H) :
    (is.foldl (padRest z) s).leafCount + (is.foldl (padRest z) s).newLeafCount = s.leafCount + s.newLeafCount := by
  induction is generalizing s with
  | nil => rfl
  | cons i is ih =>
    rw [foldl_cons, ih, padRest]
    split
    · dsimp only
      rw [BitVec.add_assoc, BitVec.add_comm (span i), BitVec.sub_add_cancel]
    · rfl

theorem foldl_padRest_bits {z : Nat → H} (s : Padding H) (n : Nat) (hn : n ≤ 64) :
    let r := (List.range n).foldl (padRest z) s
    r.newLeafCount.toNat + s.newLeafCount.toNat % 2 ^ n = s.newLeafCount.toNat ∧
      r.context = fun i => if i < n ∧ s.newLeafCount.toNat.testBit i = true then z i else s.context i := by
  induction n with
  | zero => simp [mod_one]
  | succ n ih =>
    obtain ⟨hrest, hctx⟩ := ih (by omega)
    intro r
    have hr : r = padRest z ((List.range n).foldl (padRest z) s) n := by
      show (List.range (n + 1)).foldl _ _ = _
      rw [List.range_succ, foldl_append]
      rfl
    generalize (List.range n).foldl (padRest z) s = q at *
    -- what is left of the padding has the bits from `n` on
    have hq : q.newLeafCount.toNat = s.newLeafCount.toNat / 2 ^ n * 2 ^ n := by
      have := div_add_mod s.newLeafCount.toNat (2 ^ n)
      rw [Nat.mul_comm] at this
      omega
    have hbits : q.newLeafCount.toNat.testBit n = s.newLeafCount.toNat.testBit n :=
      testBit_congr (by rw [hq, Nat.mul_div_cancel _ (Nat.two_pow_pos n)])
    rw [hr, padRest]
    split
    · rename_i hbit
      have hbit := and_span_ne_zero.mp hbit
      have hle := ge_two_pow_of_testBit hbit
      have hsub : (q.newLeafCount - span n).toNat = q.newLeafCount.toNat - 2 ^ n := by
        rw [BitVec.toNat_sub_of_le (by rwa [BitVec.le_def, toNat_span hn]), toNat_span hn]
      rw [hbits] at hbit
      have hmod := mod_two_pow_succ_of_testBit hbit
      refine ⟨by rw [hsub]; omega, ?_⟩
      funext i
      show update q.context n (z n) i = _
      by_cases hin : i = n
      · subst hin
        simp [hbit]
      · rw [update_of_ne hin, hctx]
        simp only [show i < n + 1 ↔ i < n by omega]
    · rename_i hbit
      have hbit := not_testBit_of hbit
      rw [hbits] at hbit
      have hmod := mod_two_pow_succ_of_not_testBit hbit
      refine ⟨by omega, ?_⟩
      rw [hctx]
      funext i
      by_cases hin : i = n
      · subst hin
        simp [hbit]
      · simp only [show i < n + 1 ↔ i < n by omega]

theorem leafCount_foldl_padRest {z : Nat → H} (s : Padding H) {n : Nat} (hn : n ≤ 64)
    (hlt : s.newLeafCount.toNat < 2 ^ n) :
    ((List.range n).foldl (padRest z) s).leafCount = s.leafCount + s.newLeafCount := by
  have hsum := foldl_padRest_sum z (List.range n) s
  have hrest := (foldl_padRest_bits (z := z) s n hn).1
  rw [mod_eq_of_lt hlt] at hrest
  have hzero : ((List.range n).foldl (padRest z) s).newLeafCount = 0#64 := BitVec.eq_of_toNat_eq (by simp; omega)
  rwa [hzero, BitVec.add_zero] at hsum

theorem Holds.padBack (ht : t.Holds h f) {n : Word} (hpad : t.padBack h n = .ok t')
    (hfits : t.leafCount.toNat + n.toNat ≤ 2 ^ t.depth) :
    t'.Holds h f ∧ t'.leafCount.toNat = t.leafCount.toNat + n.toNat ∧ t'.depth = t.depth ∧
      t'.pristine h = t.pristine h := by
  have hbound : 2 ^ t.depth < 2 ^ 64 := Nat.pow_lt_pow_right (by decide) t.depth_lt
  have hdepth : t.depth < 64 := t.depth_lt
  have hpristine : t.pristine h = Merkle.pristine h.concat (t.pristine h 0) := funext t.pristine_eq
  unfold BackMerkleTree.padBack at hpad
  split at hpad
  · cases hpad
  have hdone := padLoop_spec hdepth hfits 0 ⟨n, t.leafCount, t.context⟩ ⟨ht.frontier, rfl⟩ ht.beyond
    (by simp [Nat.mod_one])
  rw [← hpristine] at hdone
  obtain ⟨i, hmod, hsmall⟩ := hdone.small
  have htotal := hdone.total_eq
  generalize padLoop h (t.pristine h) t.depth 0 ⟨n, t.leafCount, t.context⟩ = s at *
  have hleft : s.newLeafCount.toNat < 2 ^ (t.depth + 1) := by
    rw [Nat.pow_succ]
    have := Nat.two_pow_pos t.depth
    omega
  have hctx := (foldl_padRest_bits (z := t.pristine h) s (t.depth + 1) hdepth).2
  have hcount : ((List.range (t.depth + 1)).foldl (padRest (t.pristine h)) s).leafCount.toNat =
      t.leafCount.toNat + n.toNat := by
    rw [leafCount_foldl_padRest s hdepth hleft, BitVec.toNat_add, htotal, Nat.mod_eq_of_lt (by omega)]
  obtain rfl := Except.ok.inj hpad
  have hbeyond : ∀ k, s.leafCount.toNat ≤ k → f k = t.pristine h 0 :=
    fun k hk => ht.beyond k (Nat.le_trans hdone.first_le hk)
  refine ⟨⟨by rwa [hcount], ?_, fun k hk => ?_⟩, hcount, rfl, rfl⟩
  · show Frontier _ _ (BitVec.toNat _) (Padding.context _)
    rw [hcount, hctx, ← htotal]
    have hfront := hdone.frontier.pad hbeyond hmod hsmall
    have hbits : ∀ b, s.newLeafCount.toNat.testBit b = true → b < t.depth + 1 := fun b hb => by
      by_contra hge
      rw [Nat.testBit_lt_two_pow (Nat.lt_of_lt_of_le hleft (Nat.pow_le_pow_right (by decide) (by omega)))] at hb
      cases hb
    rw [hpristine]
    convert hfront using 3 with b
    exact ⟨And.right, fun hb => ⟨hbits b hb, hb⟩⟩
  · rw [hcount] at hk
    exact ht.beyond k (by omega)

/-! ## Sequences of calls -/

inductive Op (H : Type) where
  | push (newLeafHash : H)
  | pad (newLeafCount : Word)

def Op.apply (h : Hasher H) (t : BackMerkleTree H) : Op H → Except String (BackMerkleTree H)
  | .push newLeafHash => t.pushBack h newLeafHash
  | .pad newLeafCount => t.padBack h newLeafCount

/-- The leaves a call stands for; `z` is the pristine leaf. -/
def Op.leaves (z : H) : Op H → List H
  | .push newLeafHash => [newLeafHash]
  | .pad newLeafCount => List.replicate newLeafCount.toNat z

/-- Call after call, up to the first that throws. -/
def run (h : Hasher H) : BackMerkleTree H → List (Op H) → Except String (BackMerkleTree H)
  | t, [] => .ok t
  | t, op :: ops =>
    match op.apply h t with
    | .error e => .error e
    | .ok t' => run h t' ops

def leaves (z : H) (ops : List (Op H)) : List H := ops.flatMap (Op.leaves z)

/-- The leaves of a list, then pristine ones. -/
def filled (z : H) (ls : List H) : Nat → H := fun k => ls.getD k z

theorem filled_append_singleton (z x : H) (ls : List H) :
    filled z (ls ++ [x]) = update (filled z ls) ls.length x := by
  funext k
  unfold filled
  rcases Nat.lt_trichotomy k ls.length with hlt | rfl | hgt
  · rw [update_of_ne (by omega), getD_append _ _ _ _ hlt]
  · rw [update_self, getD_append_right _ _ _ _ (Nat.le_refl _)]
    simp
  · rw [update_of_ne (by omega), getD_eq_default _ _ (by simp; omega),
      getD_eq_default _ _ (by omega)]

theorem filled_append_replicate (z : H) (n : Nat) (ls : List H) :
    filled z (ls ++ List.replicate n z) = filled z ls := by
  funext k
  unfold filled
  by_cases hk : k < ls.length
  · rw [getD_append _ _ _ _ hk]
  · rw [getD_append_right _ _ _ _ (by omega), getD_eq_default ls _ (by omega)]
    by_cases hr : k - ls.length < n
    · rw [getD_replicate _ hr]
    · rw [getD_eq_default _ _ (by simp; omega)]

/-- The tree holds the leaves of a list. -/
structure HoldsList (h : Hasher H) (t : BackMerkleTree H) (ls : List H) : Prop where
  holds : t.Holds h (filled (t.pristine h 0) ls)
  length_eq : t.leafCount.toNat = ls.length

theorem make_holdsList [Inhabited H] {log2RootSize log2LeafSize log2WordSize : Int}
    (hmake : make log2RootSize log2LeafSize log2WordSize = .ok t) : t.HoldsList h [] := by
  have hcount : t.leafCount = 0 := by
    unfold make at hmake
    repeat split at hmake <;> first | cases hmake; done | skip
    obtain rfl := Except.ok.inj hmake
    rfl
  refine ⟨⟨?_, ?_, fun k _ => rfl⟩, ?_⟩
  · rw [hcount]
    exact Nat.zero_le _
  · rw [hcount]
    exact frontier_zero
  · rw [hcount]
    rfl

/-- The number of leaves cannot reach `2 ^ 64`: the tree is too small, or there are too few of them. -/
def CountFits (depth count : Nat) : Prop := depth < 63 ∨ count < 2 ^ 64

theorem HoldsList.apply (ht : t.HoldsList h ls) {op : Op H}
    (hop : op.apply h t = .ok t') (hlt : CountFits t.depth (ls ++ op.leaves (t.pristine h 0)).length) :
    t'.HoldsList h (ls ++ op.leaves (t.pristine h 0)) ∧ t'.depth = t.depth ∧ t'.pristine h = t.pristine h := by
  have hlen := ht.length_eq
  cases op with
  | push x =>
    obtain ⟨h1, h2, h3, h4⟩ := ht.holds.pushBack hop
    refine ⟨⟨?_, ?_⟩, h3, h4⟩
    · rwa [h4, Op.leaves, filled_append_singleton, ← hlen]
    · rw [h2, Op.leaves, length_append, hlen]
      rfl
  | pad n =>
    rw [Op.leaves, length_append, length_replicate] at hlt
    have hfits : t.leafCount.toNat + n.toNat ≤ 2 ^ t.depth := by
      have hok : ¬ (t.maxLeaves < n ∨ t.maxLeaves < t.leafCount + n) := fun hmany => by
        rw [Op.apply, BackMerkleTree.padBack, if_pos hmany] at hop
        cases hop
      obtain ⟨hnew, hsum⟩ := not_or.mp hok
      rw [BitVec.lt_def, toNat_maxLeaves] at hnew
      have hcount : t.leafCount.toNat + n.toNat < 2 ^ 64 := by
        rcases hlt with hsmall | hlt
        · -- the sum of two counts of at most `2 ^ 62`
          have := Nat.pow_le_pow_right (n := 2) (by decide) (show t.depth ≤ 62 by omega)
          have := ht.holds.fits
          omega
        · omega
      rw [BitVec.lt_def, toNat_maxLeaves, BitVec.toNat_add, mod_eq_of_lt hcount] at hsum
      omega
    obtain ⟨h1, h2, h3, h4⟩ := ht.holds.padBack hop hfits
    refine ⟨⟨?_, ?_⟩, h3, h4⟩
    · rwa [h4, Op.leaves, filled_append_replicate]
    · rw [h2, Op.leaves, length_append, length_replicate, hlen]

theorem HoldsList.run {ops : List (Op H)} (ht : t.HoldsList h ls)
    (hrun : t.run h ops = .ok t') (hlt : CountFits t.depth (ls ++ leaves (t.pristine h 0) ops).length) :
    t'.HoldsList h (ls ++ leaves (t.pristine h 0) ops) ∧ t'.depth = t.depth ∧ t'.pristine h = t.pristine h := by
  induction ops generalizing t ls with
  | nil =>
    obtain rfl := Except.ok.inj hrun
    exact ⟨by simpa [leaves] using ht, rfl, rfl⟩
  | cons op ops ih =>
    rw [BackMerkleTree.run] at hrun
    split at hrun
    · cases hrun
    rename_i t1 hop
    rw [leaves, flatMap_cons, ← List.append_assoc] at hlt ⊢
    have hfirst : CountFits t.depth (ls ++ op.leaves (t.pristine h 0)).length :=
      hlt.imp_right fun hlt => by rw [length_append] at hlt; omega
    obtain ⟨h1, h2, h3⟩ := ht.apply hop hfirst
    obtain ⟨h4, h5, h6⟩ := ih h1 hrun (by rwa [h3, h2])
    rw [h3] at h4
    exact ⟨h4, h5.trans h2, h6.trans h3⟩

/-- Trees that hold the same leaves agree on the levels in use. -/
theorem HoldsList.context_eq (ht : t.HoldsList h ls)
    (ht' : t'.HoldsList h ls) (hz : t'.pristine h = t.pristine h) :
    t'.leafCount = t.leafCount ∧ ∀ i, t.leafCount.getLsbD i = true → t'.context i = t.context i := by
  have hcount : t'.leafCount = t.leafCount := BitVec.eq_of_toNat_eq (ht'.length_eq.trans ht.length_eq.symm)
  refine ⟨hcount, fun i hi => ?_⟩
  rw [ht.holds.frontier i hi, ht'.holds.frontier i (by rw [hcount]; exact hi), hcount, hz]

theorem pushBack_ok (hroom : t.leafCount.toNat < 2 ^ t.depth) (x : H) : ∃ t', t.pushBack h x = .ok t' := by
  unfold BackMerkleTree.pushBack
  rw [if_neg (by rw [BitVec.le_def, toNat_maxLeaves]; omega)]
  exact ⟨_, rfl⟩

theorem HoldsList.run_push (ht : t.HoldsList h ls) (xs : List H) (hroom : ls.length + xs.length ≤ 2 ^ t.depth) :
    ∃ t', t.run h (xs.map .push) = .ok t' ∧ t'.HoldsList h (ls ++ xs) ∧ t'.depth = t.depth ∧
      t'.pristine h = t.pristine h := by
  induction xs generalizing t ls with
  | nil => exact ⟨t, rfl, by rwa [append_nil], rfl, rfl⟩
  | cons x xs ih =>
    have hdepth : t.depth < 64 := t.depth_lt
    have hbound : 2 ^ t.depth < 2 ^ 64 := Nat.pow_lt_pow_right (by decide) hdepth
    rw [length_cons] at hroom
    obtain ⟨t1, hpush⟩ := pushBack_ok (h := h) (t := t) (by rw [ht.length_eq]; omega) x
    have hop : (Op.push x).apply h t = .ok t1 := hpush
    obtain ⟨h1, h2, h3⟩ := ht.apply hop (.inr (by simp [Op.leaves]; omega))
    obtain ⟨t', hrun, h4, h5, h6⟩ := ih h1 (by rw [h2]; simp [Op.leaves]; omega)
    refine ⟨t', ?_, by rwa [List.append_cons], h5.trans h2, h6.trans h3⟩
    rw [List.map_cons, BackMerkleTree.run, hop]
    exact hrun

/-- The root after a sequence of calls, and padding as a sequence of pushes. -/
theorem getRootHash_run [Inhabited H] {log2RootSize log2LeafSize log2WordSize : Int} {t0 : BackMerkleTree H}
    {ops : List (Op H)} (hmake : make log2RootSize log2LeafSize log2WordSize = .ok t0)
    (hrun : t0.run h ops = .ok t) (hlt : CountFits t0.depth (leaves (t0.pristine h 0) ops).length) :
    t.getRootHash h = nodeHash h.concat (filled (t0.pristine h 0) (leaves (t0.pristine h 0) ops)) t0.depth 0 ∧
      ∀ n t1, t.padBack h n = .ok t1 → CountFits t0.depth (t.leafCount.toNat + n.toNat) →
        ∃ t2, t.run h (List.replicate n.toNat (.push (t0.pristine h 0))) = .ok t2 ∧
          t2.leafCount = t1.leafCount ∧ (∀ i, t1.leafCount.getLsbD i = true → t2.context i = t1.context i) ∧
          t2.getRootHash h = t1.getRootHash h := by
  obtain ⟨ht, hdepth, hz⟩ := (make_holdsList hmake).run hrun hlt
  rw [nil_append] at ht
  refine ⟨?_, fun n t1 hpad hn => ?_⟩
  · rw [ht.holds.getRootHash_eq, hdepth, hz]
  have hop : (Op.pad n).apply h t = .ok t1 := hpad
  rw [ht.length_eq, ← hdepth] at hn
  obtain ⟨h1, hd1, hz1⟩ := ht.apply hop (by simpa [Op.leaves] using hn)
  have hroom := h1.holds.fits
  rw [h1.length_eq, hd1, length_append, Op.leaves, length_replicate] at hroom
  obtain ⟨t2, hpush, h2, hd2, hz2⟩ := ht.run_push (List.replicate n.toNat (t0.pristine h 0))
    (by rwa [length_replicate])
  rw [map_replicate] at hpush
  rw [Op.leaves, hz] at h1
  have hz12 := hz2.trans hz1.symm
  obtain ⟨hcount, hctx⟩ := h1.context_eq h2 hz12
  refine ⟨t2, hpush, hcount, hctx, ?_⟩
  rw [h2.holds.getRootHash_eq, h1.holds.getRootHash_eq, hd2, hd1, hz12]

theorem getRootHash_run_three : ∃ t0 t : BackMerkleTree FreeHash, make 2 0 0 = .ok t0 ∧
    t0.run freeHasher [.push (.word [7]), .pad 2] = .ok t ∧ CountFits t0.depth
      (leaves (t0.pristine freeHasher 0) [.push (.word [7]), .pad 2]).length ∧ t.getRootHash freeHasher =
      nodeHash freeHasher.concat (filled (t0.pristine freeHasher 0)
        (leaves (t0.pristine freeHasher 0) [.push (.word [7]), .pad 2])) t0.depth 0 := by
  refine ⟨_, _, rfl, rfl, .inl (by decide), ?_⟩
  have hmake : make 2 0 0 = Except.ok (_ : BackMerkleTree FreeHash) := rfl
  exact (getRootHash_run hmake rfl (.inl (by decide))).1

/-- A tree of `2 ^ 63` leaves filled up and padded with `2 ^ 63` leaves more. -/
def wrappingOps : List (Op FreeHash) := [.push (.word [7]), .pad (span 63 - 1), .pad (span 63)]

theorem wrappingOps_leafCount : ∃ t0 t : BackMerkleTree FreeHash, make 63 0 0 = .ok t0 ∧
    t0.run freeHasher wrappingOps = .ok t ∧ t.leafCount = 0 ∧ t.depth = 63 ∧ t0.depth = 63 ∧
    t.pristine freeHasher 0 = .word [0] ∧ t0.pristine freeHasher 0 = .word [0] := by
  have hrun : (make 63 0 0 >>= fun t0 : BackMerkleTree FreeHash => (t0.run freeHasher wrappingOps).map
      fun t => (t.leafCount, t.depth, t0.depth, t.pristine freeHasher 0, t0.pristine freeHasher 0)) =
      .ok (0, 63, 63, .word [0], .word [0]) := by
    decide +kernel
  obtain ⟨t0, hmake, hmap⟩ := except_bind_ok_iff.mp hrun
  obtain ⟨t, ht, hvals⟩ := except_map_eq_ok hmap
  simp only [Prod.mk.injEq] at hvals
  exact ⟨t0, t, hmake, ht, hvals⟩

/-- Padding leaves the levels that are not in use as they were, pushing does not; and a full tree of `2 ^ 63`
leaves loses its leaves when it is padded. -/
theorem padBack_differs : (∃ t0 t1 t2 : BackMerkleTree FreeHash, make 1 0 0 = .ok t0 ∧
      t0.padBack freeHasher 2 = .ok t1 ∧
      t0.run freeHasher (List.replicate 2 (.push (t0.pristine freeHasher 0))) = .ok t2 ∧
      t1.context 0 ≠ t2.context 0) ∧
    ∃ t0 t : BackMerkleTree FreeHash, make 63 0 0 = .ok t0 ∧ t0.run freeHasher wrappingOps = .ok t ∧
      t.getRootHash freeHasher ≠ nodeHash freeHasher.concat
        (filled (t0.pristine freeHasher 0) (leaves (t0.pristine freeHasher 0) wrappingOps)) t0.depth 0 := by
  constructor
  · refine ⟨_, _, _, rfl, rfl, rfl, ?_⟩
    decide +kernel
  obtain ⟨t0, t, hmake, hrun, hcount, hdepth, hdepth0, hz, hz0⟩ := wrappingOps_leafCount
  refine ⟨t0, t, hmake, hrun, fun heq => ?_⟩
  -- the tree has forgotten its leaves, so its root is the pristine one
  have hempty : t.Holds freeHasher fun _ => .word [0] :=
    ⟨by rw [hcount]; exact Nat.zero_le _, by rw [hcount]; exact frontier_zero, fun _ _ => hz.symm⟩
  rw [hempty.getRootHash_eq, hdepth, hdepth0, hz0] at heq
  have hleaf := nodeHash_inj freeHasher_collisionFree.concat_inj heq 0 (Nat.zero_le _) (by decide)
  rw [wrappingOps, leaves, flatMap_cons, Op.leaves, filled, getD_append _ _ _ _ (by decide)] at hleaf
  exact absurd hleaf (by decide)

end BackMerkleTree

end MachineEmulator
