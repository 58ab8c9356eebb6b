import MachineEmulator.BackMerkleTree
import MachineEmulator.Lib.Prog

/-!
# The capacity of the back Merkle tree

The calls that add leaves, as they change the tree: a call that throws leaves behind the tree it has changed so far.

* `getPristineHash` : the table of pristine hashes, which has no entry outside the levels of the tree;
* `pushBackCall`, `padBackCall` : the calls. They are `pushBack` and `padBack`, and a call that throws has changed
  nothing (`pushBackCall_eq`, `padBackCall_eq`);
* `leafCount_padBack` : the leaf count after padding, modulo `2 ^ 64`;
* `Reachable` : a tree after any calls, those that throw included. Its leaf count never exceeds the capacity;
* `ExactCapacity` : the calls throw exactly when there is no room.
-/

namespace MachineEmulator.BackMerkleTree

open EStateM

variable {H : Type}

/-! ## The calls -/

section
variable (h : Hasher H)

def getPristineHash (t : BackMerkleTree H) (log2Size : Nat) : Except String H :=
  if log2Size < t.log2WordSize ∨ t.log2RootSize < log2Size then .error "log2_size is out of range"
  else .ok (h.pristine t.log2WordSize log2Size)

def pushBackCall (newLeafHash : H) : EStateM String (BackMerkleTree H) Unit := do
  EStateM.query fun t => throwUnless (¬ t.maxLeaves ≤ t.leafCount) "too many leaves"
  modify fun t => { t with context := (carry h t.leafCount (t.depth + 1) 0 newLeafHash t.context).2 }
  modify fun t => { t with leafCount := t.leafCount + 1 }

/-- The first loop of the padding. The result is the number of leaves still to be added. -/
def padLoopCall (j : Nat) (newLeafCount : Word) (t : BackMerkleTree H) :
    EStateM.Result String (BackMerkleTree H) Word :=
  if t.depth < j then .ok newLeafCount t
  else if _hle : newLeafCount < span j then .ok newLeafCount t
  else if _hbit : t.leafCount &&& span j ≠ 0 then
    match t.getPristineHash h (t.log2LeafSize + j) with
    | .error e => .error e t
    | .ok right =>
      let c := carry h t.leafCount (t.depth + 1 - j) j right t.context
      padLoopCall (c.1.getD j) (newLeafCount - span j)
        { t with leafCount := t.leafCount + span j, context := c.2 }
  else padLoopCall (j + 1) newLeafCount t
termination_by (t.depth + 1 - j) + newLeafCount.toNat
decreasing_by
  · have hj := le_carry_getD h t.leafCount (t.depth + 1 - j) j right t.context
    have hn := toNat_sub_span _hle _hbit
    show t.depth + 1 - _ + _ < _
    omega
  · omega

/-- One level of the second loop of the padding. -/
def padRestCall (newLeafCount : Word) (i : Nat) : EStateM String (BackMerkleTree H) Word := fun t =>
  if newLeafCount &&& span i ≠ 0 then
    match t.getPristineHash h (t.log2LeafSize + i) with
    | .error e => .error e t
    | .ok hash =>
      .ok (newLeafCount - span i)
        { t with leafCount := t.leafCount + span i, context := Function.update t.context i hash }
  else .ok newLeafCount t

def padBackCall (newLeafCount : Word) : EStateM String (BackMerkleTree H) Unit := do
  EStateM.query fun t =>
    throwUnless (¬ (t.maxLeaves < newLeafCount ∨ t.maxLeaves < t.leafCount + newLeafCount)) "too many leaves"
  let newLeafCount ← padLoopCall h 0 newLeafCount
  let t ← get
  let _ ← (List.range (t.depth + 1)).foldlM (padRestCall h) newLeafCount

end

/-! ## What the calls do -/

variable {h : Hasher H} {t t' : BackMerkleTree H}

/-- The outcome of a call that changes nothing when it throws. -/
def outcome (t : BackMerkleTree H) : Except String (BackMerkleTree H) → EStateM.Result String (BackMerkleTree H) Unit
  | .ok t' => .ok () t'
  | .error e => .error e t

/-- The tree with the counts and the context of a padding. -/
def padded (t : BackMerkleTree H) (s : Padding H) : BackMerkleTree H :=
  { t with leafCount := s.leafCount, context := s.context }

theorem getPristineHash_eq {i : Nat} (hi : i ≤ t.depth) :
    t.getPristineHash h (t.log2LeafSize + i) = .ok (t.pristine h i) := by
  have hword := t.word_le
  have hleaf := t.leaf_le
  unfold depth at hi
  exact if_neg (by omega)

theorem query_throwUnless_ok {p : BackMerkleTree H → Prop} [DecidablePred p] {message : String} (hp : p t) :
    query (fun t => throwUnless (p t) message) t = .ok () t :=
  query_ok_iff.mpr ⟨throwUnless_ok_iff.mpr hp, rfl⟩

theorem query_throwUnless_error {p : BackMerkleTree H → Prop} [DecidablePred p] {message : String} (hp : ¬ p t) :
    query (fun t => throwUnless (p t) message) t = .error message t := by
  rw [query, throwUnless, if_neg hp]

theorem pushBackCall_eq (x : H) : pushBackCall h x t = t.outcome (t.pushBack h x) := by
  unfold pushBack pushBackCall
  split_ifs with hfull
  · exact bind_of_error (query_throwUnless_error (not_not.mpr hfull))
  · rw [bind_of_ok (query_throwUnless_ok hfull)]
    rfl

theorem padLoopCall_eq (j : Nat) (s : Padding H) : padLoopCall h j s.newLeafCount (t.padded s) =
      .ok (padLoop h (t.pristine h) t.depth j s).newLeafCount (t.padded (padLoop h (t.pristine h) t.depth j s)) := by
  have hdepth : (t.padded s).depth = t.depth := rfl
  have hcount : (t.padded s).leafCount = s.leafCount := rfl
  induction j, s using padLoop.induct h (t.pristine h) t.depth with
  | case1 j s hlt => rw [padLoopCall, padLoop, hdepth, if_pos hlt, if_pos hlt]
  | case2 j s hle jSpan hlt =>
    rw [padLoopCall, padLoop, hdepth, if_neg hle, if_neg hle, dif_pos hlt, if_pos hlt]
  | case3 j s hle jSpan hnew hbit c ih =>
    have hhash : (t.padded s).getPristineHash h ((t.padded s).log2LeafSize + j) = .ok (t.pristine h j) :=
      getPristineHash_eq (t := t.padded s) (Nat.le_of_not_lt hle)
    rw [padLoopCall, padLoop, hdepth, hcount, if_neg hle, if_neg hle, dif_neg hnew, if_neg hnew, dif_pos hbit,
      dif_pos hbit, hhash]
    exact ih rfl rfl
  | case4 j s hle jSpan hnew hbit ih =>
    rw [padLoopCall, padLoop, hdepth, hcount, if_neg hle, if_neg hle, dif_neg hnew, if_neg hnew, dif_neg hbit,
      dif_neg hbit]
    exact ih rfl rfl

theorem padRestCall_eq {i : Nat} (hi : i ≤ t.depth) (s : Padding H) :
    padRestCall h s.newLeafCount i (t.padded s) =
      .ok (padRest (t.pristine h) s i).newLeafCount (t.padded (padRest (t.pristine h) s i)) := by
  have hhash : (t.padded s).getPristineHash h ((t.padded s).log2LeafSize + i) = .ok (t.pristine h i) :=
    getPristineHash_eq (t := t.padded s) hi
  unfold padRestCall
  by_cases hbit : s.newLeafCount &&& span i ≠ 0
  · have hs : padRest (t.pristine h) s i =
        ⟨s.newLeafCount - span i, s.leafCount + span i, Function.update s.context i (t.pristine h i)⟩ := if_pos hbit
    rw [if_pos hbit, hhash, hs]
    rfl
  · have hs : padRest (t.pristine h) s i = s := if_neg hbit
    rw [if_neg hbit, hs]

theorem foldlM_padRestCall_eq (is : List Nat) (his : ∀ i ∈ is, i ≤ t.depth) (s : Padding H) :
    is.foldlM (padRestCall h) s.newLeafCount (t.padded s) =
      .ok (is.foldl (padRest (t.pristine h)) s).newLeafCount (t.padded (is.foldl (padRest (t.pristine h)) s)) := by
  induction is generalizing s with
  | nil => rfl
  | cons i is ih =>
    obtain ⟨hi, his⟩ := List.forall_mem_cons.mp his
    rw [List.foldlM_cons, bind_of_ok (padRestCall_eq hi s), List.foldl_cons]
    exact ih his _

theorem padBackCall_eq (n : Word) : padBackCall h n t = t.outcome (t.padBack h n) := by
  unfold padBack padBackCall
  by_cases hmany : t.maxLeaves < n ∨ t.maxLeaves < t.leafCount + n
  · rw [if_pos hmany]
    exact bind_of_error (query_throwUnless_error (not_not.mpr hmany))
  · have hloop := padLoopCall_eq (h := h) (t := t) 0 ⟨n, t.leafCount, t.context⟩
    have hrest := foldlM_padRestCall_eq (h := h) (t := t) (List.range (t.depth + 1))
      (fun i hi => Nat.le_of_lt_succ (List.mem_range.mp hi))
      (padLoop h (t.pristine h) t.depth 0 ⟨n, t.leafCount, t.context⟩)
    have hsame : t.padded ⟨n, t.leafCount, t.context⟩ = t := rfl
    rw [hsame] at hloop
    rw [if_neg hmany]
    refine (bind_of_ok (query_throwUnless_ok hmany)).trans ?_
    refine (bind_of_ok hloop).trans ?_
    exact bind_of_ok hrest

/-! ## The leaf count -/

theorem padLoop_sum (pristine : Nat → H) (depth j : Nat) (s : Padding H) :
    (padLoop h pristine depth j s).leafCount + (padLoop h pristine depth j s).newLeafCount =
        s.leafCount + s.newLeafCount ∧
      (padLoop h pristine depth j s).newLeafCount.toNat ≤ s.newLeafCount.toNat := by
  induction j, s using padLoop.induct h pristine depth with
  | case1 j s hlt =>
    rw [padLoop, if_pos hlt]
    exact ⟨rfl, Nat.le_refl _⟩
  | case2 j s hle jSpan hlt =>
    rw [padLoop, if_neg hle, if_pos hlt]
    exact ⟨rfl, Nat.le_refl _⟩
  | case3 j s hle jSpan hnew hbit c ih =>
    rw [padLoop, if_neg hle, if_neg hnew, dif_pos hbit]
    obtain ⟨hsum, hrest⟩ := ih
    refine ⟨hsum.trans ?_, Nat.le_trans hrest (Nat.le_of_lt (toNat_sub_span hnew hbit))⟩
    show s.leafCount + span j + (s.newLeafCount - span j) = _
    rw [BitVec.add_assoc, BitVec.add_comm (span j), BitVec.sub_add_cancel]
  | case4 j s hle jSpan hnew hbit ih =>
    rw [padLoop, if_neg hle, if_neg hnew, dif_neg hbit]
    exact ih

/-- The count after padding. It wraps around when the sum of the counts does. -/
theorem leafCount_padBack {n : Word} (hpad : t.padBack h n = .ok t') : t'.leafCount = t.leafCount + n := by
  unfold padBack at hpad
  split at hpad
  · cases hpad
  rename_i hmany
  obtain rfl := Except.ok.inj hpad
  obtain ⟨hsum, hrest⟩ := padLoop_sum (h := h) (t.pristine h) t.depth 0 ⟨n, t.leafCount, t.context⟩
  have hn := (not_or.mp hmany).1
  rw [BitVec.lt_def, toNat_maxLeaves] at hn
  have hlt : (padLoop h (t.pristine h) t.depth 0 ⟨n, t.leafCount, t.context⟩).newLeafCount.toNat <
      2 ^ (t.depth + 1) := by
    have hpow : 2 ^ t.depth < 2 ^ (t.depth + 1) := Nat.pow_lt_pow_right (by decide) (Nat.lt_succ_self _)
    dsimp only at hrest
    omega
  exact (leafCount_foldl_padRest _ t.depth_lt hlt).trans hsum

/-! ## Trees after any calls -/

def Op.call (h : Hasher H) : Op H → EStateM String (BackMerkleTree H) Unit
  | .push newLeafHash => pushBackCall h newLeafHash
  | .pad newLeafCount => padBackCall h newLeafCount

/-- A tree that the constructor gives, and what calls make of it. A caller may go on after a call that throws. -/
inductive Reachable [Inhabited H] (h : Hasher H) : BackMerkleTree H → Prop
  | make {log2RootSize log2LeafSize log2WordSize : Int} {t : BackMerkleTree H}
      (hmake : make log2RootSize log2LeafSize log2WordSize = .ok t) : Reachable h t
  | returned {t t' : BackMerkleTree H} (ht : Reachable h t) {op : Op H} (hop : op.call h t = .ok () t') : Reachable h t'
  | thrown {t t' : BackMerkleTree H} (ht : Reachable h t) {op : Op H} {e : String} (hop : op.call h t = .error e t') :
      Reachable h t'

theorem Reachable.push [Inhabited H] {t' : BackMerkleTree H} (ht : Reachable h t) (x : H)
    (hpush : pushBackCall h x t = .ok () t') : Reachable h t' :=
  .returned ht (show (Op.push x).call h t = .ok () t' from hpush)

theorem Op.call_eq (op : Op H) : op.call h t = t.outcome (op.apply h t) := by
  cases op with
  | push x => exact pushBackCall_eq x
  | pad n => exact padBackCall_eq n

theorem outcome_ok {r : Except String (BackMerkleTree H)} : t.outcome r = .ok () t' ↔ r = .ok t' := by
  cases r <;> simp [outcome]

theorem outcome_error {r : Except String (BackMerkleTree H)} {e : String} :
    t.outcome r = .error e t' ↔ r = .error e ∧ t' = t := by
  cases r <;> simp [outcome, eq_comm]

/-- One call keeps the leaf count within the capacity, even if the sum of the counts has wrapped around. -/
theorem leafCount_le_of_apply {op : Op H} (hop : op.apply h t = .ok t') : t'.leafCount ≤ t'.maxLeaves := by
  cases op with
  | push x =>
    rw [Op.apply, pushBack] at hop
    split at hop
    · cases hop
    rename_i hfull
    obtain rfl := Except.ok.inj hop
    show t.leafCount + 1 ≤ t.maxLeaves
    bv_omega
  | pad n =>
    have hcount := leafCount_padBack hop
    rw [Op.apply, padBack] at hop
    split at hop
    · cases hop
    rename_i hmany
    have hmax : t'.maxLeaves = t.maxLeaves := by
      obtain rfl := Except.ok.inj hop
      rfl
    rw [hcount, hmax]
    exact BitVec.not_lt.mp (not_or.mp hmany).2

theorem Reachable.leafCount_le [Inhabited H] (ht : Reachable h t) : t.leafCount.toNat ≤ 2 ^ t.depth := by
  have hle : t.leafCount ≤ t.maxLeaves := by
    induction ht with
    | make hmake =>
      have hcount := (make_holdsList (h := h) hmake).length_eq
      rw [BitVec.le_def, hcount]
      exact Nat.zero_le _
    | returned _ hop _ =>
      rw [Op.call_eq, outcome_ok] at hop
      exact leafCount_le_of_apply hop
    | thrown _ hop ih =>
      rw [Op.call_eq, outcome_error] at hop
      obtain ⟨-, rfl⟩ := hop
      exact ih
  rwa [BitVec.le_def, toNat_maxLeaves] at hle

/-! ## Capacity -/

/-- The calls throw exactly when there is no room for the leaves, and then they change nothing. -/
structure ExactCapacity (h : Hasher H) (t : BackMerkleTree H) (n : Word) : Prop where
  push_throws : ∀ x, (∃ e t', pushBackCall h x t = .error e t') ↔ t.leafCount.toNat = 2 ^ t.depth
  push_unchanged : ∀ x e t', pushBackCall h x t = .error e t' → t' = t
  pad_throws : (∃ e t', padBackCall h n t = .error e t') ↔ 2 ^ t.depth < t.leafCount.toNat + n.toNat
  pad_unchanged : ∀ e t', padBackCall h n t = .error e t' → t' = t

theorem pushBackCall_throws_iff {x : H} :
    (∃ e t', pushBackCall h x t = .error e t') ↔ 2 ^ t.depth ≤ t.leafCount.toNat := by
  rw [pushBackCall_eq, pushBack]
  simp only [outcome_error, ← toNat_maxLeaves, ← BitVec.le_def]
  split <;> simp_all

theorem padBackCall_throws_iff {n : Word} : (∃ e t', padBackCall h n t = .error e t') ↔
    2 ^ t.depth < n.toNat ∨ 2 ^ t.depth < (t.leafCount + n).toNat := by
  rw [padBackCall_eq, padBack]
  simp only [outcome_error, ← toNat_maxLeaves, ← BitVec.lt_def]
  split <;> simp_all

/-- The capacity is exact but for a full tree of `2 ^ 63` leaves that is padded with as many: the sum wraps around. -/
theorem exactCapacity_iff [Inhabited H] (ht : Reachable h t) (n : Word) :
    ExactCapacity h t n ↔ ¬ (t.depth = 63 ∧ t.leafCount.toNat = 2 ^ 63 ∧ n.toNat = 2 ^ 63) := by
  have hle := ht.leafCount_le
  have hdepth : t.depth ≤ 63 := Nat.le_of_lt_succ t.depth_lt
  have hpow : 2 ^ t.depth ≤ 2 ^ 63 := Nat.pow_le_pow_right (by decide) hdepth
  have hsum : (t.leafCount + n).toNat = (t.leafCount.toNat + n.toNat) % 2 ^ 64 := BitVec.toNat_add _ _
  constructor
  · rintro hexact ⟨hd, hcount, hn⟩
    have hthrows := padBackCall_throws_iff.mp (hexact.pad_throws.mpr (by rw [hd, hcount, hn]; decide))
    rw [hd, hsum, hcount, hn] at hthrows
    exact absurd hthrows (by decide)
  · intro hwrap
    refine ⟨fun x => ?_, fun x e t' hx => ?_, ?_, fun e t' hx => ?_⟩
    · rw [pushBackCall_throws_iff]
      omega
    · rw [pushBackCall_eq, outcome_error] at hx
      exact hx.2
    · rw [padBackCall_throws_iff, hsum]
      by_cases hlarge : t.leafCount.toNat + n.toNat < 2 ^ 64
      · rw [Nat.mod_eq_of_lt hlarge]
        omega
      · -- both counts are `2 ^ 63` at most, so the padding is too large, or both are that and the depth is 63
        have hd : n.toNat ≤ 2 ^ t.depth → t.depth = 63 := by
          intro hn
          by_contra hne
          have := Nat.pow_le_pow_right (n := 2) (by decide) (show t.depth ≤ 62 by omega)
          omega
        constructor
        · intro _
          omega
        · intro _
          by_contra hneither
          have hn := Nat.le_of_not_lt (not_or.mp hneither).1
          refine hwrap ⟨hd hn, ?_, ?_⟩ <;> rw [hd hn] at * <;> omega
    · rw [padBackCall_eq, outcome_error] at hx
      exact hx.2

/-- A tree with three of its four leaves: one leaf more can be pushed, and two cannot be padded. -/
theorem exactCapacity_iff_three : ∃ t : BackMerkleTree FreeHash, Reachable freeHasher t ∧ t.depth = 2 ∧
    t.leafCount = 3 ∧ ExactCapacity freeHasher t 2 ∧ ∃ e t', padBackCall freeHasher 2 t = .error e t' := by
  have hmake : make 2 0 0 = Except.ok (_ : BackMerkleTree FreeHash) := rfl
  have ht := (((Reachable.make (h := freeHasher) hmake).push (.word [1]) rfl).push (.word [2]) rfl).push (.word [3]) rfl
  have hexact := (exactCapacity_iff ht 2).mpr (by decide)
  exact ⟨_, ht, rfl, rfl, hexact, hexact.pad_throws.mpr (by decide)⟩

/-- A tree of `2 ^ 63` leaves, filled up and padded with `2 ^ 63` leaves more, is empty again. -/
theorem padBackCall_wraps : ∃ t0 t1 t2 : BackMerkleTree FreeHash, make 63 0 0 = .ok t0 ∧
    padBackCall freeHasher (span 63) t0 = .ok () t1 ∧ t1.leafCount.toNat = 2 ^ t1.depth ∧
    padBackCall freeHasher (span 63) t1 = .ok () t2 ∧ t2.leafCount = 0 := by
  have hrun : (make 63 0 0 >>= fun t0 : BackMerkleTree FreeHash => t0.padBack freeHasher (span 63) >>= fun t1 =>
      (t1.padBack freeHasher (span 63)).map fun t2 => (t1.leafCount, t1.depth, t2.leafCount)) =
      .ok (span 63, 63, 0) := by
    decide +kernel
  obtain ⟨t0, hmake, hrun⟩ := except_bind_ok_iff.mp hrun
  obtain ⟨t1, hpad1, hrun⟩ := except_bind_ok_iff.mp hrun
  obtain ⟨t2, hpad2, hvals⟩ := except_map_eq_ok hrun
  obtain ⟨hcount1, hdepth, hcount2⟩ : t1.leafCount = span 63 ∧ t1.depth = 63 ∧ t2.leafCount = 0 := by
    simpa only [Prod.mk.injEq] using hvals
  refine ⟨t0, t1, t2, hmake, ?_, ?_, ?_, hcount2⟩
  · rw [padBackCall_eq, hpad1]
    rfl
  · rw [hcount1, hdepth]
    rfl
  · rw [padBackCall_eq, hpad2]
    rfl

end MachineEmulator.BackMerkleTree
