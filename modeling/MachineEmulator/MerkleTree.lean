import Mathlib.Data.List.Nodup
import MachineEmulator.MachineTree

/-!
# The sparse Merkle tree

The tree stores the nodes above the pages that were updated so far. A node that is missing stands for pristine
memory. An update round sets the hashes of pages and queues their parents; the end of the round goes over the
queue, bottom up in breadth, and recomputes the hashes of the nodes above. A mark tells the nodes that were queued
in the round.

* `MachineMerkleTree` : the tree, with the queue of the nodes to recompute;
* `updatePageNodeHash`, `endUpdate` : an update round;
* `getNodeHash`, `verifyTree` : what is read off the tree;
* `Pages`, `Holds` : the nodes there are, and what the tree knows about the pages;
* `Queued` : every node whose hash is out of date lies above a node of the queue;
* `Updated` : every node has the hash its children give, and then the hash of its range (`Updated.hash_eq`);
* `ready_run` : the tree after any rounds, as long as the nonce of the rounds has not come back to zero;
* `getRootHash_run_eq_sparseRun` : the tree that the model of a machine keeps has the same root.
-/

namespace MachineEmulator

open Merkle List Function Option Machine SparseTree Nat

/-- A node of the tree. No two nodes subtend the same range, so the range stands for the pointer to its node: `height`
is the number of levels above the pages, `index` the position in its level. -/
structure NodePtr where
  height : Nat
  index : Nat
  deriving DecidableEq

/-- The levels of the tree above the pages. -/
def treeHeight : Nat := log2RootSize - log2PageSize

namespace NodePtr

def root : NodePtr := ⟨treeHeight, 0⟩

def parent (p : NodePtr) : Option NodePtr :=
  if p.height < treeHeight then some ⟨p.height + 1, p.index / 2⟩ else none

/-- Where a child of the node is, if there is one. -/
def childPtr (p : NodePtr) (bit : Bool) : NodePtr := ⟨p.height - 1, 2 * p.index + bit.toNat⟩

/-- The second node is the first, or one of the nodes above it. -/
def Below (q p : NodePtr) : Prop := q.height ≤ p.height ∧ p.index = q.index / 2 ^ (p.height - q.height)

/-- The second node is one of the nodes above the first. -/
def StrictlyBelow (q p : NodePtr) : Prop := q.Below p ∧ p ≠ q

variable {p q : NodePtr}

theorem eq_parent_of_childPtr {bit : Bool} (hpos : 0 < q.height) (hc : q.childPtr bit = p) :
    q = ⟨p.height + 1, p.index / 2⟩ := by
  subst hc
  cases q with
  | mk d i =>
    simp only [childPtr, mk.injEq]
    have := Bool.toNat_lt bit
    constructor
    · simp only at hpos
      omega
    · omega

theorem StrictlyBelow.parent (hb : p.StrictlyBelow q) :
    Below ⟨p.height + 1, p.index / 2⟩ q ∧ p.height < q.height := by
  obtain ⟨⟨hle, hi⟩, hne⟩ := hb
  have hlt : p.height < q.height := by
    refine Nat.lt_of_le_of_ne hle fun he => hne ?_
    rw [he, Nat.sub_self, Nat.pow_zero, Nat.div_one] at hi
    cases p
    cases q
    simp_all
  refine ⟨⟨hlt, ?_⟩, hlt⟩
  rw [hi, Nat.div_div_eq_div_mul, ← Nat.pow_succ']
  congr 2
  show q.height - p.height = q.height - (p.height + 1) + 1
  omega

end NodePtr

structure TreeNode (H : Type) where
  hash : H
  mark : Word

structure MachineMerkleTree (H : Type) where
  pageNodeMap : Word → Option NodePtr
  node : NodePtr → Option (TreeNode H)
  merkleUpdateNonce : Word
  merkleUpdateFifo : List (Nat × NodePtr)

namespace MachineMerkleTree

variable {H : Type}

section
variable (h : Hasher H)

variable (t : MachineMerkleTree H) (log2Size : Nat) (node p : NodePtr) (rest : List (Nat × NodePtr))

def getPristineHash : H := Machine.pristineHash h log2Size

def make : MachineMerkleTree H :=
  { pageNodeMap := fun _ => none
    node := fun p => if p = .root then some ⟨getPristineHash h log2RootSize, 0⟩ else none
    merkleUpdateNonce := 1
    merkleUpdateFifo := [] }

def child (bit : Bool) : Option NodePtr :=
  if (t.node (p.childPtr bit)).isSome then some (p.childPtr bit) else none

def setNode (n : TreeNode H) : MachineMerkleTree H :=
  { t with node := Function.update t.node p (some n) }

def freshNode [Inhabited H] : TreeNode H := ⟨default, 0⟩

/-- Descend `n` levels on the path of the page, creating the nodes that are missing. -/
def descend [Inhabited H] (pageIndex : Word) : Nat → NodePtr → MachineMerkleTree H → NodePtr × MachineMerkleTree H
  | 0, node, t => (node, t)
  | n + 1, node, t =>
    let bit := pageIndex.getLsbD (log2PageSize + n)
    match t.child node bit with
    | some child => descend pageIndex n child t
    | none => descend pageIndex n (node.childPtr bit) (t.setNode (node.childPtr bit) freshNode)

def newPageNode [Inhabited H] (t : MachineMerkleTree H) (pageIndex : Word) : NodePtr × MachineMerkleTree H :=
  let (node, t) := descend pageIndex treeHeight .root t
  (node, { t with pageNodeMap := Function.update t.pageNodeMap pageIndex (some node) })

def beginUpdate : MachineMerkleTree H := { t with merkleUpdateFifo := [] }

/-- Queue the parent of a node, unless it is there already. -/
def enqueueParent : MachineMerkleTree H :=
  match p.parent with
  | none => t
  | some parent =>
    match t.node parent with
    | none => t
    | some n =>
      if n.mark ≠ t.merkleUpdateNonce then
        { t.setNode parent { n with mark := t.merkleUpdateNonce } with
          merkleUpdateFifo := t.merkleUpdateFifo ++ [(log2Size + 1, parent)] }
      else t

def setHash (hash : H) : MachineMerkleTree H :=
  match t.node p with
  | none => t
  | some n => t.setNode p { n with hash }

def updatePageNodeHash [Inhabited H] (t : MachineMerkleTree H) (pageIndex : Word) (hash : H) :
    MachineMerkleTree H :=
  let (node, t) := match t.pageNodeMap pageIndex with
    | some node => (node, t)
    | none => t.newPageNode pageIndex
  (t.setHash node hash).enqueueParent log2PageSize node

def getChildHash (childLog2Size : Nat) (node : NodePtr) (bit : Bool) : H :=
  match t.node (node.childPtr bit) with
  | some n => n.hash
  | none => getPristineHash h childLog2Size

def updateInnerNodeHash : MachineMerkleTree H :=
  t.setHash node (h.concat (t.getChildHash h (log2Size - 1) node false) (t.getChildHash h (log2Size - 1) node true))

/-- How often the nodes of a queue, and the nodes above them, can be taken from it. -/
def fifoWeight (fifo : List (Nat × NodePtr)) : Nat := (fifo.map fun e => treeHeight - e.2.height + 1).sum

theorem enqueueParent_fifo :
    (t.enqueueParent log2Size p).merkleUpdateFifo = t.merkleUpdateFifo ∨
      (p.height < treeHeight ∧ (t.enqueueParent log2Size p).merkleUpdateFifo =
        t.merkleUpdateFifo ++ [(log2Size + 1, ⟨p.height + 1, p.index / 2⟩)]) := by
  unfold enqueueParent NodePtr.parent
  split_ifs with hp
  · dsimp only
    split
    · exact .inl rfl
    · split
      · exact .inr ⟨hp, rfl⟩
      · exact .inl rfl
  · exact .inl rfl

/-- Take the first node of the queue: recompute its hash and queue its parent. -/
def endUpdateStep :
    MachineMerkleTree H :=
  { t.updateInnerNodeHash h log2Size node with merkleUpdateFifo := rest }.enqueueParent log2Size node

theorem endUpdateStep_fifo : (t.endUpdateStep h log2Size node rest).merkleUpdateFifo = rest ∨
      (node.height < treeHeight ∧ (t.endUpdateStep h log2Size node rest).merkleUpdateFifo =
        rest ++ [(log2Size + 1, ⟨node.height + 1, node.index / 2⟩)]) :=
  enqueueParent_fifo _ log2Size node

theorem fifoWeight_endUpdateStep :
    fifoWeight (t.endUpdateStep h log2Size node rest).merkleUpdateFifo < fifoWeight ((log2Size, node) :: rest) := by
  rcases t.endUpdateStep_fifo h log2Size node rest with he | ⟨hlt, he⟩
  · rw [he, fifoWeight, fifoWeight, map_cons, sum_cons]
    omega
  · rw [he, fifoWeight, fifoWeight, map_append, sum_append_nat, map_cons, sum_cons]
    simp only [map_cons, map_nil, sum_cons, sum_nil]
    omega

/-- Recompute the nodes of the queue and those above them. -/
def endUpdateLoop (t : MachineMerkleTree H) : MachineMerkleTree H :=
  match _hfifo : t.merkleUpdateFifo with
  | [] => t
  | (log2Size, node) :: rest => (t.endUpdateStep h log2Size node rest).endUpdateLoop
termination_by fifoWeight t.merkleUpdateFifo
decreasing_by
  rw [_hfifo]
  exact t.fifoWeight_endUpdateStep h log2Size node rest

def endUpdate : MachineMerkleTree H :=
  let t := t.endUpdateLoop h
  { t with merkleUpdateNonce := t.merkleUpdateNonce + 1 }

/-! ## Reading the tree -/

def getRootHash : H :=
  match t.node .root with
  | some n => n.hash
  | none => getPristineHash h log2RootSize

/-- Is every hash below a node of height `d` the one its children give? -/
def verifyNode [DecidableEq H] (t : MachineMerkleTree H) : Nat → NodePtr → Bool
  | 0, _ => true
  | d + 1, p =>
    match t.node p with
    | none => true
    | some n =>
      t.verifyNode d (p.childPtr false) && t.verifyNode d (p.childPtr true) &&
        decide (h.concat (t.getChildHash h (log2PageSize + d) p false)
          (t.getChildHash h (log2PageSize + d) p true) = n.hash)

def verifyTree [DecidableEq H] (t : MachineMerkleTree H) : Bool := t.verifyNode h treeHeight .root

/-- Walk down `n` levels towards an address. -/
def walk (t : MachineMerkleTree H) (targetAddress : Word) : Nat → NodePtr → Option NodePtr
  | 0, p => some p
  | n + 1, p =>
    match t.child p (targetAddress.getLsbD (log2PageSize + (p.height - 1))) with
    | none => none
    | some c => t.walk targetAddress n c

def getNodeHash (targetAddress : Word) (log2TargetSize : Int) : Except String H :=
  if log2RootSize < log2TargetSize ∨ log2TargetSize < log2WordSize then
    .error "log2_target_size is out of bounds"
  else if log2TargetSize < log2PageSize then .error "log2_target_size is smaller than page size"
  -- the amount of a shift counts modulo 64, so the check of the root size passes
  else if targetAddress.toNat % 2 ^ (log2TargetSize.toNat % 64) ≠ 0 then .error "address is not page-aligned"
  else
    match t.walk targetAddress (log2RootSize - log2TargetSize.toNat) .root with
    | none => .ok (getPristineHash h log2TargetSize.toNat)
    | some p =>
      match t.node p with
      | some n => .ok n.hash
      | none => .ok (getPristineHash h log2TargetSize.toNat)

end

/-! ## Hashes and marks of nodes -/

def hashAt (t : MachineMerkleTree H) (p : NodePtr) : Option H := (t.node p).map TreeNode.hash

def markAt (t : MachineMerkleTree H) (p : NodePtr) : Option Word := (t.node p).map TreeNode.mark

def Mem (t : MachineMerkleTree H) (p : NodePtr) : Prop := (t.node p).isSome = true

section
variable {h : Hasher H} {t : MachineMerkleTree H} {p q : NodePtr}

theorem mem_iff_hashAt : t.Mem p ↔ ∃ x, t.hashAt p = some x := by
  unfold Mem hashAt
  cases t.node p <;> simp

theorem mem_iff_markAt : t.Mem p ↔ ∃ m, t.markAt p = some m := by
  unfold Mem markAt
  cases t.node p <;> simp

theorem getChildHash_eq (t : MachineMerkleTree H) (log2Size : Nat) (p : NodePtr) (bit : Bool) :
    t.getChildHash h log2Size p bit = (t.hashAt (p.childPtr bit)).getD (getPristineHash h log2Size) := by
  unfold getChildHash hashAt
  cases t.node (p.childPtr bit) <;> rfl

theorem hashAt_setHash (t : MachineMerkleTree H) (p q : NodePtr) (x : H) (hp : t.Mem p) :
    (t.setHash p x).hashAt q = if q = p then some x else t.hashAt q := by
  obtain ⟨n, hn⟩ := isSome_iff_exists.mp hp
  unfold setHash hashAt
  rw [hn]
  by_cases hq : q = p
  · subst hq
    simp [setNode]
  · simp [setNode, hq]

theorem markAt_setHash (t : MachineMerkleTree H) (p q : NodePtr) (x : H) :
    (t.setHash p x).markAt q = t.markAt q := by
  unfold setHash markAt
  cases hn : t.node p with
  | none => rfl
  | some n =>
    by_cases hq : q = p
    · subst hq
      simp [setNode, hn]
    · simp [setNode, hq]

theorem setHash_frame (t : MachineMerkleTree H) (p : NodePtr) (x : H) :
    (t.setHash p x).pageNodeMap = t.pageNodeMap ∧ (t.setHash p x).merkleUpdateNonce = t.merkleUpdateNonce ∧
      (t.setHash p x).merkleUpdateFifo = t.merkleUpdateFifo := by
  unfold setHash
  cases t.node p <;> exact ⟨rfl, rfl, rfl⟩

theorem hashAt_enqueueParent (t : MachineMerkleTree H) (log2Size : Nat) (p q : NodePtr) :
    (t.enqueueParent log2Size p).hashAt q = t.hashAt q := by
  unfold enqueueParent
  split
  · rfl
  · rename_i parent _
    split
    · rfl
    · rename_i n hn
      split
      · by_cases hq : q = parent
        · subst hq
          simp [hashAt, setNode, hn]
        · simp [hashAt, setNode, hq]
      · rfl

theorem enqueueParent_frame (t : MachineMerkleTree H) (log2Size : Nat) (p : NodePtr) :
    (t.enqueueParent log2Size p).pageNodeMap = t.pageNodeMap ∧
      (t.enqueueParent log2Size p).merkleUpdateNonce = t.merkleUpdateNonce := by
  unfold enqueueParent
  split
  · exact ⟨rfl, rfl⟩
  · split
    · exact ⟨rfl, rfl⟩
    · split <;> exact ⟨rfl, rfl⟩

/-- What queueing a parent does to the marks and the queue: the parent was marked, or it is marked and queued. -/
theorem enqueueParent_cases (t : MachineMerkleTree H) (log2Size : Nat) (hp : p.height < treeHeight)
    (hmem : t.Mem ⟨p.height + 1, p.index / 2⟩) :
    (t.markAt ⟨p.height + 1, p.index / 2⟩ = some t.merkleUpdateNonce ∧ t.enqueueParent log2Size p = t) ∨
      (t.markAt ⟨p.height + 1, p.index / 2⟩ ≠ some t.merkleUpdateNonce ∧
        (t.enqueueParent log2Size p).merkleUpdateFifo =
          t.merkleUpdateFifo ++ [(log2Size + 1, ⟨p.height + 1, p.index / 2⟩)] ∧
        ∀ q, (t.enqueueParent log2Size p).markAt q =
          if q = ⟨p.height + 1, p.index / 2⟩ then some t.merkleUpdateNonce else t.markAt q) := by
  obtain ⟨n, hn⟩ := isSome_iff_exists.mp hmem
  have hparent : p.parent = some ⟨p.height + 1, p.index / 2⟩ := by rw [NodePtr.parent, if_pos hp]
  unfold enqueueParent
  rw [hparent]
  simp only [hn]
  by_cases hm : n.mark = t.merkleUpdateNonce
  · rw [if_neg (not_not.mpr hm)]
    exact .inl ⟨by simp [markAt, hn, hm], rfl⟩
  · rw [if_pos hm]
    refine .inr ⟨by simpa [markAt, hn] using hm, rfl, fun q => ?_⟩
    by_cases hq : q = ⟨p.height + 1, p.index / 2⟩
    · subst hq
      simp [markAt, setNode]
    · simp [markAt, setNode, hq]

theorem enqueueParent_root (t : MachineMerkleTree H) (log2Size : Nat) (hp : ¬ p.height < treeHeight) :
    t.enqueueParent log2Size p = t := by
  rw [enqueueParent, NodePtr.parent, if_neg hp]

end

/-! ## What a tree holds -/

section
variable (h : Hasher H)

/-- The tree has the pages whose hashes are given by `f`; a page that is not there is pristine. -/
structure Pages (f : Nat → H) (t : MachineMerkleTree H) : Prop where
  root_mem : t.Mem .root
  height_le : ∀ p, t.Mem p → p.height ≤ treeHeight
  parent_mem : ∀ p, t.Mem p → p.height < treeHeight → t.Mem ⟨p.height + 1, p.index / 2⟩
  map_eq : ∀ a : Word, a.toNat % pmaPageSize = 0 → t.pageNodeMap a =
    if (t.node ⟨0, a.toNat / pmaPageSize⟩).isSome then some ⟨0, a.toNat / pmaPageSize⟩ else none
  leaf : ∀ i x, t.hashAt ⟨0, i⟩ = some x → x = f i
  absent : ∀ i, ¬ t.Mem ⟨0, i⟩ → f i = getPristineHash h log2PageSize

/-- In a round, the marks are those of this round and of earlier ones. -/
structure Holds (f : Nat → H) (t : MachineMerkleTree H) : Prop extends t.Pages h f where
  nonce_pos : 0 < t.merkleUpdateNonce.toNat
  mark_le : ∀ p m, t.markAt p = some m → m.toNat ≤ t.merkleUpdateNonce.toNat

/-- The hash of an inner node is the one its children give. -/
def Settled (t : MachineMerkleTree H) (p : NodePtr) : Prop :=
  ∀ x, t.hashAt p = some x → 0 < p.height →
    x = h.concat (t.getChildHash h (log2PageSize + (p.height - 1)) p false)
      (t.getChildHash h (log2PageSize + (p.height - 1)) p true)

/-- The queue while the nodes of height `k` are recomputed: it goes up level by level, it has every node above that
is marked, and every node that is not settled lies above one of its nodes, or is one of `others`. -/
structure Queued (k : Nat) (others : NodePtr → Prop) (t : MachineMerkleTree H) : Prop where
  log2Size_eq : ∀ e ∈ t.merkleUpdateFifo, e.1 = log2PageSize + e.2.height
  height_pos : ∀ e ∈ t.merkleUpdateFifo, 0 < e.2.height
  height_ge : ∀ e ∈ t.merkleUpdateFifo, k ≤ e.2.height
  height_le : ∀ e ∈ t.merkleUpdateFifo, e.2.height ≤ k + 1
  mem : ∀ e ∈ t.merkleUpdateFifo, t.Mem e.2
  sorted : t.merkleUpdateFifo.Pairwise fun a b => a.2.height ≤ b.2.height
  marked : ∀ p, t.markAt p = some t.merkleUpdateNonce → k < p.height → ∃ e ∈ t.merkleUpdateFifo, e.2 = p
  covers : ∀ p, ¬ Settled h t p → others p ∨ ∃ e ∈ t.merkleUpdateFifo, e.2.Below p

end

section
variable {h : Hasher H} {f : Nat → H} {t t' : MachineMerkleTree H} {p q : NodePtr}

variable {a : Word} {log2Size k : Nat} {us : List (Word × H)} {rounds : List (List (Word × H))}

theorem Pages.map_of_mem (ht : t.Pages h f) (ha : a.toNat % pmaPageSize = 0)
    (hmem : t.Mem ⟨0, a.toNat / pmaPageSize⟩) : t.pageNodeMap a = some ⟨0, a.toNat / pmaPageSize⟩ :=
  (ht.map_eq a ha).trans (if_pos hmem)

theorem Pages.map_of_not_mem (ht : t.Pages h f) (ha : a.toNat % pmaPageSize = 0)
    (hmem : ¬ t.Mem ⟨0, a.toNat / pmaPageSize⟩) : t.pageNodeMap a = none :=
  (ht.map_eq a ha).trans (if_neg hmem)

theorem Holds.congr (ht : t.Holds h f) (hmem : ∀ q, t'.Mem q ↔ t.Mem q)
    (hleaf : ∀ i, t'.hashAt ⟨0, i⟩ = t.hashAt ⟨0, i⟩) (hmap : t'.pageNodeMap = t.pageNodeMap)
    (hnonce : t'.merkleUpdateNonce = t.merkleUpdateNonce)
    (hmark : ∀ p m, t'.markAt p = some m → m.toNat ≤ t.merkleUpdateNonce.toNat) : t'.Holds h f where
  root_mem := (hmem _).mpr ht.root_mem
  height_le p hp := ht.height_le p ((hmem p).mp hp)
  parent_mem p hp hlt := (hmem _).mpr (ht.parent_mem p ((hmem p).mp hp) hlt)
  map_eq a ha := by
    rw [hmap, ht.map_eq a ha]
    simp only [show ∀ q, ((t'.node q).isSome = true) = ((t.node q).isSome = true) from fun q => propext (hmem q)]
  leaf i x hx := ht.leaf i x (by rwa [← hleaf])
  absent i hi := ht.absent i fun hm => hi ((hmem _).mpr hm)
  nonce_pos := by rw [hnonce]; exact ht.nonce_pos
  mark_le p m hm := by rw [hnonce]; exact hmark p m hm

/-- Settling depends on the hashes of a node and its children. -/
theorem Settled.congr (hs : Settled h t q) (hq : t'.hashAt q = t.hashAt q)
    (hchild : 0 < q.height → ∀ bit, t'.hashAt (q.childPtr bit) = t.hashAt (q.childPtr bit)) : Settled h t' q := by
  intro x hx hpos
  rw [hq] at hx
  rw [hs x hx hpos]
  simp only [getChildHash_eq, hchild hpos]

theorem mem_enqueueParent : (t.enqueueParent log2Size p).Mem q ↔ t.Mem q := by
  rw [mem_iff_hashAt, mem_iff_hashAt, hashAt_enqueueParent]

theorem Settled.enqueueParent : Settled h (t.enqueueParent log2Size p) q ↔ Settled h t q :=
  ⟨fun hs => hs.congr (hashAt_enqueueParent t log2Size p q).symm fun _ _ => (hashAt_enqueueParent t log2Size p _).symm,
    fun hs => hs.congr (hashAt_enqueueParent t log2Size p q) fun _ _ => hashAt_enqueueParent t log2Size p _⟩

/-- Queueing the parent of a node covers the nodes above it. -/
theorem Queued.enqueueParent (ht : t.Holds h f) (hq : t.Queued h p.height p.StrictlyBelow)
    (hp : t.Mem p) (hsize : log2Size = log2PageSize + p.height) : (t.enqueueParent log2Size p).Holds h f ∧
      (t.enqueueParent log2Size p).Queued h p.height (fun _ => False) := by
  obtain ⟨hmap, hnonce⟩ := t.enqueueParent_frame log2Size p
  by_cases hlt : p.height < treeHeight
  swap
  · -- the root has no parent, and nothing lies above it
    rw [t.enqueueParent_root log2Size hlt]
    refine ⟨ht, { hq with covers := fun q hs => ?_ }⟩
    rcases hq.covers q hs with habove | hcov
    · have hmem : t.Mem q := by
        by_contra hno
        refine hs fun x hx => absurd (mem_iff_hashAt.mpr ⟨x, hx⟩) hno
      have := ht.height_le q hmem
      have := (NodePtr.StrictlyBelow.parent habove).2
      omega
    · exact .inr hcov
  rcases t.enqueueParent_cases log2Size hlt (ht.parent_mem p hp hlt) with ⟨hmarked, he⟩ | ⟨hunmarked, hfifo, hmark⟩
  · rw [he]
    obtain ⟨e, hin, hep⟩ := hq.marked _ hmarked (lt_succ_self _)
    refine ⟨ht, { hq with covers := fun q hs => ?_ }⟩
    rcases hq.covers q hs with habove | hcov
    · exact .inr ⟨e, hin, by rw [hep]; exact (NodePtr.StrictlyBelow.parent habove).1⟩
    · exact .inr hcov
  · refine ⟨ht.congr (fun q => mem_enqueueParent) (fun i => hashAt_enqueueParent ..) hmap hnonce fun q m hm => ?_, ?_⟩
    · rw [hmark] at hm
      split at hm
      · rw [← some.inj hm]
      · exact ht.mark_le q m hm
    have hall : ∀ (P : Nat × NodePtr → Prop), (∀ e ∈ t.merkleUpdateFifo, P e) →
        P (log2Size + 1, ⟨p.height + 1, p.index / 2⟩) →
        ∀ e ∈ (t.enqueueParent log2Size p).merkleUpdateFifo, P e := fun P hold hnew e he => by
      rw [hfifo, mem_append, mem_singleton] at he
      rcases he with he | rfl
      · exact hold e he
      · exact hnew
    have hmono : ∀ (P : Nat × NodePtr → Prop), (∃ e ∈ t.merkleUpdateFifo, P e) →
        ∃ e ∈ (t.enqueueParent log2Size p).merkleUpdateFifo, P e := fun P ⟨e, he, hP⟩ =>
      ⟨e, by rw [hfifo]; exact mem_append_left _ he, hP⟩
    have hlast : (log2Size + 1, ⟨p.height + 1, p.index / 2⟩) ∈ (t.enqueueParent log2Size p).merkleUpdateFifo := by
      rw [hfifo]
      simp
    exact
      { log2Size_eq := hall _ hq.log2Size_eq (by rw [hsize, Nat.add_assoc])
        height_pos := hall _ hq.height_pos (succ_pos _)
        height_ge := hall _ hq.height_ge (le_succ _)
        height_le := hall _ hq.height_le (Nat.le_refl _)
        mem := fun e he => mem_enqueueParent.mpr (hall _ hq.mem (ht.parent_mem p hp hlt) e he)
        sorted := by
          rw [hfifo]
          refine pairwise_append.mpr ⟨hq.sorted, pairwise_singleton _ _, fun a ha b hb => ?_⟩
          rw [mem_singleton.mp hb]
          exact hq.height_le a ha
        marked := fun q hm hk => by
          rw [hmark, hnonce] at hm
          split at hm
          · rename_i hqp
            exact ⟨_, hlast, hqp.symm⟩
          · exact hmono _ (hq.marked q hm hk)
        covers := fun q hs => by
          rcases hq.covers q fun hs' => hs (Settled.enqueueParent.mpr hs') with habove | hcov
          · exact .inr ⟨_, hlast, (NodePtr.StrictlyBelow.parent habove).1⟩
          · exact .inr (hmono _ hcov) }

/-- Taking a node from the queue keeps what the queue is for. -/
theorem Queued.step {rest : List (Nat × NodePtr)} (ht : t.Holds h f)
    (hq : t.Queued h k fun _ => False) (hfifo : t.merkleUpdateFifo = (log2Size, p) :: rest) :
    (t.endUpdateStep h log2Size p rest).Holds h f ∧
      (t.endUpdateStep h log2Size p rest).Queued h p.height (fun _ => False) ∧
      (t.endUpdateStep h log2Size p rest).merkleUpdateNonce = t.merkleUpdateNonce := by
  have hhead : (log2Size, p) ∈ t.merkleUpdateFifo := by rw [hfifo]; exact mem_cons_self
  have hrest : ∀ e ∈ rest, e ∈ t.merkleUpdateFifo := fun e he => by rw [hfifo]; exact mem_cons_of_mem _ he
  have hmem : t.Mem p := hq.mem _ hhead
  have hpos : 0 < p.height := hq.height_pos _ hhead
  have hk : k ≤ p.height := hq.height_ge _ hhead
  have hsize : log2Size = log2PageSize + p.height := hq.log2Size_eq _ hhead
  have hsorted := hq.sorted
  rw [hfifo, pairwise_cons] at hsorted
  -- the node with its new hash, out of the queue
  generalize hx : h.concat (t.getChildHash h (log2Size - 1) p false) (t.getChildHash h (log2Size - 1) p true) = x
  generalize ht1 : { t.updateInnerNodeHash h log2Size p with merkleUpdateFifo := rest } = t1
  have hhash1 : ∀ q, t1.hashAt q = if q = p then some x else t.hashAt q := fun q => by
    rw [← ht1, ← hx]
    exact hashAt_setHash t p q _ hmem
  have hmark1 : ∀ q, t1.markAt q = t.markAt q := fun q => by
    rw [← ht1]
    exact markAt_setHash t p q _
  have hnonce1 : t1.merkleUpdateNonce = t.merkleUpdateNonce := by
    rw [← ht1]
    exact (setHash_frame t p _).2.1
  have hmap1 : t1.pageNodeMap = t.pageNodeMap := by
    rw [← ht1]
    exact (setHash_frame t p _).1
  have hfifo1 : t1.merkleUpdateFifo = rest := by rw [← ht1]
  have hmem1 : ∀ q, t1.Mem q ↔ t.Mem q := fun q => by rw [mem_iff_markAt, mem_iff_markAt, hmark1]
  have hstep : t.endUpdateStep h log2Size p rest = t1.enqueueParent log2Size p := by rw [endUpdateStep, ht1]
  have hne : ∀ q, q ≠ p → t1.hashAt q = t.hashAt q := fun q hqp => by rw [hhash1, if_neg hqp]
  have hholds1 : t1.Holds h f := ht.congr hmem1
    (fun i => hne _ fun he => by rw [← he] at hpos; exact absurd hpos (Nat.lt_irrefl 0)) hmap1 hnonce1
    fun q m hm => ht.mark_le q m (by rwa [hmark1] at hm)
  have hsettled : Settled h t1 p := by
    intro y hy _
    rw [hhash1, if_pos rfl] at hy
    have hchild : ∀ bit, t1.hashAt (p.childPtr bit) = t.hashAt (p.childPtr bit) := fun bit => hne _ fun he => by
      have := congrArg NodePtr.height he
      simp only [NodePtr.childPtr] at this
      omega
    rw [← some.inj hy, ← hx, hsize]
    simp only [getChildHash_eq, hchild, Nat.add_sub_assoc hpos]
  have hq1 : t1.Queued h p.height p.StrictlyBelow :=
    { log2Size_eq := fun e he => hq.log2Size_eq e (hrest e (hfifo1 ▸ he))
      height_pos := fun e he => hq.height_pos e (hrest e (hfifo1 ▸ he))
      height_ge := fun e he => hsorted.1 e (hfifo1 ▸ he)
      height_le := fun e he => Nat.le_trans (hq.height_le e (hrest e (hfifo1 ▸ he))) (succ_le_succ hk)
      mem := fun e he => (hmem1 _).mpr (hq.mem e (hrest e (hfifo1 ▸ he)))
      sorted := by rw [hfifo1]; exact hsorted.2
      marked := fun q hm hlt => by
        rw [hmark1, hnonce1] at hm
        obtain ⟨e, he, rfl⟩ := hq.marked q hm (Nat.lt_of_le_of_lt hk hlt)
        rw [hfifo] at he
        rcases mem_cons.mp he with rfl | he
        · exact absurd hlt (Nat.lt_irrefl _)
        · exact ⟨e, by rw [hfifo1]; exact he, rfl⟩
      covers := fun q hs => by
        have hqp : q ≠ p := fun he => hs (he ▸ hsettled)
        by_cases hparent : 0 < q.height ∧ ∃ bit, q.childPtr bit = p
        · -- the parent of the node
          obtain ⟨hq0, bit, hc⟩ := hparent
          refine .inl ⟨?_, hqp⟩
          rw [NodePtr.eq_parent_of_childPtr hq0 hc]
          exact ⟨le_succ _, by simp⟩
        · have hs' : ¬ Settled h t q := fun hold => hs (hold.congr (hne q hqp) fun hq0 bit =>
            hne _ fun hc => hparent ⟨hq0, bit, hc⟩)
          obtain ⟨e, he, hb⟩ := (hq.covers q hs').resolve_left id
          rw [hfifo] at he
          rcases mem_cons.mp he with rfl | he
          · exact .inl ⟨hb, hqp⟩
          · exact .inr ⟨e, by rw [hfifo1]; exact he, hb⟩ }
  obtain ⟨h1, h2⟩ := Queued.enqueueParent hholds1 hq1 ((hmem1 p).mpr hmem) hsize
  rw [hstep]
  exact ⟨h1, h2, (t1.enqueueParent_frame log2Size p).2.trans hnonce1⟩

theorem Queued.endUpdateLoop (ht : t.Holds h f) (hq : t.Queued h k fun _ => False) :
    (t.endUpdateLoop h).Holds h f ∧ (∀ p, Settled h (t.endUpdateLoop h) p) ∧
      (t.endUpdateLoop h).merkleUpdateNonce = t.merkleUpdateNonce ∧ (t.endUpdateLoop h).merkleUpdateFifo = [] := by
  induction t using endUpdateLoop.induct h generalizing k with
  | case1 t hfifo =>
    have he : t.endUpdateLoop h = t := by
      rw [MachineMerkleTree.endUpdateLoop]
      split
      · rfl
      · rename_i hcons
        rw [hfifo] at hcons
        cases hcons
    rw [he]
    refine ⟨ht, fun p => ?_, rfl, hfifo⟩
    by_contra hs
    obtain ⟨e, hin, -⟩ := (hq.covers p hs).resolve_left id
    rw [hfifo] at hin
    cases hin
  | case2 t log2Size node rest hfifo ih =>
    have he : t.endUpdateLoop h = (t.endUpdateStep h log2Size node rest).endUpdateLoop h := by
      rw [MachineMerkleTree.endUpdateLoop]
      split
      · rename_i hnil
        rw [hfifo] at hnil
        cases hnil
      · rename_i hcons
        rw [hfifo] at hcons
        cases hcons
        rfl
    obtain ⟨h1, h2, h3⟩ := hq.step ht hfifo
    obtain ⟨h4, h5, h6, h7⟩ := ih h1 h2
    rw [he]
    exact ⟨h4, h5, h6.trans h3, h7⟩

/-! ## Updating a page -/

theorem getLsbD_pageIndex (a : Word) (n : Nat) :
    a.getLsbD (log2PageSize + n) = (a.toNat / pmaPageSize).testBit n := by
  rw [BitVec.getLsbD, show pmaPageSize = 2 ^ log2PageSize from rfl, testBit_div_two_pow, Nat.add_comm]

theorem childPtr_path (i n : Nat) :
    (NodePtr.mk (n + 1) (i / 2 ^ (n + 1))).childPtr (i.testBit n) = ⟨n, i / 2 ^ n⟩ := by
  have hb := index_bits (i := i) (n := n)
  cases hbit : i.testBit n with
  | false =>
    rw [hbit, if_neg (by simp)] at hb
    simp [NodePtr.childPtr, hb]
  | true =>
    rw [hbit, if_pos rfl] at hb
    simp [NodePtr.childPtr, hb]

theorem Pages.path_mem (ht : t.Pages h f) {d i : Nat} (hi : t.Mem ⟨d, i⟩) (n : Nat) (hn : d + n ≤ treeHeight) :
    t.Mem ⟨d + n, i / 2 ^ n⟩ := by
  induction n with
  | zero => rwa [Nat.pow_zero, Nat.div_one]
  | succ n ih =>
    have := ht.parent_mem _ (ih (by omega)) (lt_of_succ_le hn)
    rwa [Nat.div_div_eq_div_mul, ← Nat.pow_succ] at this

section
variable [Inhabited H]

/-- The nodes of a tree with the nodes of height below `n` on the path of a page. -/
def withPath (t : MachineMerkleTree H) (i n : Nat) (q : NodePtr) : Option (TreeNode H) :=
  if q.height < n ∧ q.index = i / 2 ^ q.height then some ((t.node q).getD freshNode) else t.node q

theorem withPath_zero (t : MachineMerkleTree H) (i : Nat) : t.withPath i 0 = t.node := by
  funext q
  simp [withPath]

/-- One level more of the path: the node was there, or it is created. -/
theorem withPath_succ (t : MachineMerkleTree H) (i n : Nat) :
    t.withPath i (n + 1) = update (t.withPath i n) ⟨n, i / 2 ^ n⟩
      (some ((t.node ⟨n, i / 2 ^ n⟩).getD freshNode)) := by
  funext q
  by_cases hq : q = ⟨n, i / 2 ^ n⟩
  · subst hq
    simp [withPath]
  · rw [update_of_ne hq]
    unfold withPath
    congr 1
    refine propext ⟨fun ⟨hlt, hi⟩ => ⟨?_, hi⟩, fun ⟨hlt, hi⟩ => ⟨by omega, hi⟩⟩
    refine Nat.lt_of_le_of_ne (le_of_lt_succ hlt) fun he => hq ?_
    rw [he] at hi
    cases q
    simp_all

theorem withPath_setNode (t : MachineMerkleTree H) (i n : Nat) (x : TreeNode H) :
    (t.setNode ⟨n, i / 2 ^ n⟩ x).withPath i n = update (t.withPath i n) ⟨n, i / 2 ^ n⟩ (some x) := by
  funext q
  by_cases hq : q = ⟨n, i / 2 ^ n⟩
  · subst hq
    simp [withPath, setNode]
  · simp [withPath, setNode, hq]

theorem descend_eq (a : Word) (n : Nat) (t : MachineMerkleTree H) :
    descend a n ⟨n, a.toNat / pmaPageSize / 2 ^ n⟩ t =
      (⟨0, a.toNat / pmaPageSize⟩, { t with node := t.withPath (a.toNat / pmaPageSize) n }) := by
  induction n generalizing t with
  | zero =>
    rw [descend, Nat.pow_zero, Nat.div_one, withPath_zero]
  | succ n ih =>
    have hc : (NodePtr.mk (n + 1) (a.toNat / pmaPageSize / 2 ^ (n + 1))).childPtr
        (a.getLsbD (log2PageSize + n)) = ⟨n, a.toNat / pmaPageSize / 2 ^ n⟩ := by
      rw [getLsbD_pageIndex, childPtr_path]
    generalize a.toNat / pmaPageSize = i at *
    simp only [descend, child, hc]
    cases hn : t.node ⟨n, i / 2 ^ n⟩ with
    | some x =>
      have hsame : t.withPath i (n + 1) = t.withPath i n := by
        rw [withPath_succ, hn, getD_some, update_eq_self_iff]
        simp [withPath, hn]
      simp [ih, hsame]
    | none =>
      have hnew : (t.setNode ⟨n, i / 2 ^ n⟩ freshNode).withPath i n = t.withPath i (n + 1) := by
        rw [withPath_succ, withPath_setNode, hn, getD_none]
      simp only [isSome_none, Bool.false_eq_true, if_false, ih, hnew]
      rfl

/-- Everything the node of a page needs: the nodes above it, and its place in the map. -/
theorem newPageNode_eq (t : MachineMerkleTree H) (a : Word) : t.newPageNode a = (⟨0, a.toNat / pmaPageSize⟩,
      { t with node := t.withPath (a.toNat / pmaPageSize) treeHeight,
               pageNodeMap := update t.pageNodeMap a (some ⟨0, a.toNat / pmaPageSize⟩) }) := by
  have hroot : NodePtr.root = ⟨treeHeight, a.toNat / pmaPageSize / 2 ^ treeHeight⟩ := by
    simp only [NodePtr.root, NodePtr.mk.injEq, true_and, pmaPageSize, treeHeight, log2RootSize, log2PageSize]
    omega
  rw [newPageNode, hroot, descend_eq]

def withPage (t : MachineMerkleTree H) (a : Word) : MachineMerkleTree H :=
  { t with node := t.withPath (a.toNat / pmaPageSize) treeHeight,
           pageNodeMap := Function.update t.pageNodeMap a (some ⟨0, a.toNat / pmaPageSize⟩) }

theorem Holds.withPage_eq (ht : t.Holds h f) (ha : a.toNat % pmaPageSize = 0)
    (hmem : t.Mem ⟨0, a.toNat / pmaPageSize⟩) : t.withPage a = t := by
  have hnode : t.withPath (a.toNat / pmaPageSize) treeHeight = t.node := by
    funext q
    unfold withPath
    split
    · rename_i hpath
      have hq := ht.path_mem hmem q.height (by rw [Nat.zero_add]; exact Nat.le_of_lt hpath.1)
      rw [← hpath.2, Nat.zero_add] at hq
      obtain ⟨x, hx⟩ := isSome_iff_exists.mp hq
      rw [show t.node q = some x from hx, getD_some]
    · rfl
  have hmap : update t.pageNodeMap a (some ⟨0, a.toNat / pmaPageSize⟩) = t.pageNodeMap := by
    rw [update_eq_self_iff, ht.map_of_mem ha hmem]
  rw [withPage, hnode, hmap]

theorem Holds.updatePageNodeHash_eq (ht : t.Holds h f) (ha : a.toNat % pmaPageSize = 0) (x : H) :
    t.updatePageNodeHash a x = ((t.withPage a).setHash ⟨0, a.toNat / pmaPageSize⟩ x).enqueueParent log2PageSize
        ⟨0, a.toNat / pmaPageSize⟩ := by
  unfold updatePageNodeHash
  by_cases hmem : t.Mem ⟨0, a.toNat / pmaPageSize⟩
  · rw [ht.map_of_mem ha hmem, ht.withPage_eq ha hmem]
  · rw [ht.map_of_not_mem ha hmem, newPageNode_eq]
    rfl

section
variable (t : MachineMerkleTree H) (a : Word) (q : NodePtr)

theorem hashAt_withPage : (t.withPage a).hashAt q =
    if q.height < treeHeight ∧ q.index = a.toNat / pmaPageSize / 2 ^ q.height then
      some ((t.hashAt q).getD default) else t.hashAt q := by
  show (t.withPath (a.toNat / pmaPageSize) treeHeight q).map _ = _
  unfold withPath hashAt
  split
  · cases t.node q <;> rfl
  · rfl

theorem markAt_withPage : (t.withPage a).markAt q =
    if q.height < treeHeight ∧ q.index = a.toNat / pmaPageSize / 2 ^ q.height then
      some ((t.markAt q).getD 0) else t.markAt q := by
  show (t.withPath (a.toNat / pmaPageSize) treeHeight q).map _ = _
  unfold withPath markAt
  split
  · cases t.node q <;> rfl
  · rfl

/-- The nodes just created have the mark `0`. -/
theorem markAt_of_withPage {m : Word} (h : (t.withPage a).markAt q = some m) : m = 0 ∨ t.markAt q = some m := by
  rw [markAt_withPage] at h
  split at h
  · cases hq : t.markAt q with
    | none => exact .inl (by simpa [hq] using h.symm)
    | some m' => exact .inr (by simpa [hq] using h)
  · exact .inr h

theorem mem_withPage : (t.withPage a).Mem q ↔
    t.Mem q ∨ (q.height < treeHeight ∧ q.index = a.toNat / pmaPageSize / 2 ^ q.height) := by
  rw [mem_iff_hashAt, mem_iff_hashAt, hashAt_withPage]
  split
  · rename_i hpath
    simp [hpath]
  · rename_i hpath
    simp [hpath]

theorem page_mem_withPage : (t.withPage a).Mem ⟨0, a.toNat / pmaPageSize⟩ :=
  (mem_withPage t a _).mpr (.inr ⟨show 0 < treeHeight by decide, by simp⟩)

end

theorem Holds.setPage (ht : t.Holds h f) (ha : a.toNat % pmaPageSize = 0) (x : H) :
    ((t.withPage a).setHash ⟨0, a.toNat / pmaPageSize⟩ x).Holds h
      (Function.update f (a.toNat / pmaPageSize) x) := by
  have hpage := t.page_mem_withPage a
  obtain ⟨hmap, hnonce, -⟩ := (t.withPage a).setHash_frame ⟨0, a.toNat / pmaPageSize⟩ x
  generalize ht1 : (t.withPage a).setHash ⟨0, a.toNat / pmaPageSize⟩ x = t1 at hmap hnonce
  have hmark : ∀ q, t1.markAt q = (t.withPage a).markAt q := fun q => by rw [← ht1, markAt_setHash]
  have hhash : ∀ q, t1.hashAt q = if q = ⟨0, a.toNat / pmaPageSize⟩ then some x else (t.withPage a).hashAt q :=
    fun q => by rw [← ht1, hashAt_setHash _ _ _ _ hpage]
  have hmem : ∀ q, t1.Mem q ↔
      t.Mem q ∨ (q.height < treeHeight ∧ q.index = a.toNat / pmaPageSize / 2 ^ q.height) := fun q => by
    rw [mem_iff_markAt, hmark, ← mem_iff_markAt, mem_withPage]
  have hother : ∀ j, j ≠ a.toNat / pmaPageSize → t1.hashAt ⟨0, j⟩ = t.hashAt ⟨0, j⟩ := fun j hj => by
    rw [hhash, if_neg (by simpa using hj), hashAt_withPage, if_neg (by simpa using fun _ => hj)]
  have hmem0 : ∀ j, t1.Mem ⟨0, j⟩ ↔ t.Mem ⟨0, j⟩ ∨ j = a.toNat / pmaPageSize := fun j => by
    rw [hmem]
    simp [treeHeight, log2RootSize, log2PageSize]
  exact
    { root_mem := (hmem _).mpr (.inl ht.root_mem)
      height_le := fun p hp => by
        rcases (hmem p).mp hp with hp | hp
        · exact ht.height_le p hp
        · exact Nat.le_of_lt hp.1
      parent_mem := fun p hp hlt => by
        refine (hmem _).mpr ?_
        rcases (hmem p).mp hp with hp | ⟨-, hp⟩
        · exact .inl (ht.parent_mem p hp hlt)
        · rw [hp, Nat.div_div_eq_div_mul, ← Nat.pow_succ]
          rcases Nat.lt_or_ge (p.height + 1) treeHeight with hin | hge
          · exact .inr ⟨hin, rfl⟩
          · -- the parent is the root
            have htop : p.height.succ = treeHeight := Nat.le_antisymm hlt hge
            have hzero : a.toNat / pmaPageSize / 2 ^ treeHeight = 0 := by
              simp only [pmaPageSize, treeHeight, log2RootSize, log2PageSize]
              omega
            refine .inl ?_
            show t.Mem ⟨p.height.succ, _⟩
            rw [htop, hzero]
            exact ht.root_mem
      map_eq := fun b hb => by
        rw [hmap]
        show Function.update t.pageNodeMap a (some ⟨0, a.toNat / pmaPageSize⟩) b = _
        by_cases hab : b = a
        · subst hab
          rw [update_self]
          exact (if_pos ((hmem0 _).mpr (.inr rfl))).symm
        · have hne : b.toNat / pmaPageSize ≠ a.toNat / pmaPageSize := fun he => hab (BitVec.eq_of_toNat_eq (by
            rw [← Nat.div_add_mod b.toNat pmaPageSize, ← Nat.div_add_mod a.toNat pmaPageSize, he, ha, hb]))
          rw [update_of_ne hab, ht.map_eq b hb]
          have hiff : t1.Mem ⟨0, b.toNat / pmaPageSize⟩ ↔ t.Mem ⟨0, b.toNat / pmaPageSize⟩ := by
            rw [hmem0]
            simp [hne]
          by_cases hm : t.Mem ⟨0, b.toNat / pmaPageSize⟩
          · exact (if_pos hm).trans (if_pos (hiff.mpr hm)).symm
          · exact (if_neg hm).trans (if_neg fun hm' => hm (hiff.mp hm')).symm
      leaf := fun j y hy => by
        by_cases hj : j = a.toNat / pmaPageSize
        · subst hj
          rw [hhash, if_pos rfl] at hy
          rw [update_self, Option.some.inj hy]
        · rw [hother j hj] at hy
          rw [update_of_ne hj, ht.leaf j y hy]
      absent := fun j hj => by
        rw [hmem0, not_or] at hj
        rw [update_of_ne hj.2, ht.absent j hj.1]
      nonce_pos := by
        rw [hnonce]
        exact ht.nonce_pos
      mark_le := fun q m hm => by
        rw [hnonce]
        rcases markAt_of_withPage _ _ _ ((hmark q).symm.trans hm) with rfl | hm
        · exact Nat.zero_le _
        · exact ht.mark_le q m hm }

/-- The hashes that may be out of date then are those above the page. -/
theorem Queued.setPage (ht : t.Holds h f) (hq : t.Queued h 0 fun _ => False) (a : Word) (x : H) :
    ((t.withPage a).setHash ⟨0, a.toNat / pmaPageSize⟩ x).Queued h 0
      (NodePtr.StrictlyBelow ⟨0, a.toNat / pmaPageSize⟩) := by
  have hpage := t.page_mem_withPage a
  obtain ⟨-, hnonce, hfifo⟩ := (t.withPage a).setHash_frame ⟨0, a.toNat / pmaPageSize⟩ x
  generalize ht1 : (t.withPage a).setHash ⟨0, a.toNat / pmaPageSize⟩ x = t1 at hfifo hnonce
  have hnonce : t1.merkleUpdateNonce = t.merkleUpdateNonce := hnonce
  have hfifo : t1.merkleUpdateFifo = t.merkleUpdateFifo := hfifo
  have hmark : ∀ q, t1.markAt q = (t.withPage a).markAt q := fun q => by rw [← ht1, markAt_setHash]
  have hmem : ∀ q, t.Mem q → t1.Mem q := fun q hm => by
    rw [mem_iff_markAt, hmark, ← mem_iff_markAt, mem_withPage]
    exact .inl hm
  have hoff : ∀ q, ¬ NodePtr.Below ⟨0, a.toNat / pmaPageSize⟩ q → t1.hashAt q = t.hashAt q := fun q hb => by
    have hpath : ¬ (q.height < treeHeight ∧ q.index = a.toNat / pmaPageSize / 2 ^ q.height) :=
      fun hp => hb ⟨Nat.zero_le _, hp.2⟩
    have hne : q ≠ ⟨0, a.toNat / pmaPageSize⟩ := fun he => hb (by rw [he]; exact ⟨Nat.le_refl _, by simp⟩)
    rw [← ht1, hashAt_setHash _ _ _ _ hpage, if_neg hne, hashAt_withPage, if_neg hpath]
  refine ⟨?_, ?_, ?_, ?_, ?_, ?_, fun q hm hpos => ?_, fun q hs => ?_⟩
  · rw [hfifo]; exact hq.log2Size_eq
  · rw [hfifo]; exact hq.height_pos
  · rw [hfifo]; exact hq.height_ge
  · rw [hfifo]; exact hq.height_le
  · rw [hfifo]; exact fun e he => hmem _ (hq.mem e he)
  · rw [hfifo]; exact hq.sorted
  · rw [hfifo]
    rw [hmark, hnonce] at hm
    rcases markAt_of_withPage _ _ _ hm with h0 | hm
    · -- a node just created does not have the mark of the round
      have hnonce_pos := ht.nonce_pos
      rw [h0] at hnonce_pos
      exact absurd hnonce_pos (by decide)
    · exact hq.marked q hm hpos
  · rw [hfifo]
    by_cases hb : NodePtr.Below ⟨0, a.toNat / pmaPageSize⟩ q
    · refine .inl ⟨hb, fun he => hs fun y _ hpos => ?_⟩
      rw [he] at hpos
      exact absurd hpos (Nat.lt_irrefl 0)
    · refine .inr ((hq.covers q fun hold => hs (hold.congr (hoff q hb)
        fun hpos bit => hoff _ fun hc => hb ?_)).resolve_left id)
      -- above a child that is above the page
      have hparent := NodePtr.eq_parent_of_childPtr hpos (rfl : q.childPtr bit = q.childPtr bit)
      refine ⟨Nat.zero_le _, ?_⟩
      have hindex := congrArg NodePtr.index hparent
      have hheight := congrArg NodePtr.height hparent
      have hc2 := hc.2
      simp only [Nat.sub_zero] at hindex hheight hc2 ⊢
      rw [hindex, hc2, hheight, Nat.div_div_eq_div_mul, Nat.pow_succ]

theorem Queued.updatePageNodeHash (ht : t.Holds h f) (hq : t.Queued h 0 fun _ => False)
    (ha : a.toNat % pmaPageSize = 0) (x : H) :
    (t.updatePageNodeHash a x).Holds h (update f (a.toNat / pmaPageSize) x) ∧
      (t.updatePageNodeHash a x).Queued h 0 (fun _ => False) ∧
      (t.updatePageNodeHash a x).merkleUpdateNonce = t.merkleUpdateNonce := by
  have hpage : ((t.withPage a).setHash ⟨0, a.toNat / pmaPageSize⟩ x).Mem ⟨0, a.toNat / pmaPageSize⟩ := by
    rw [mem_iff_markAt, markAt_setHash, ← mem_iff_markAt]
    exact t.page_mem_withPage a
  have hqueued := hq.setPage ht a x
  obtain ⟨h1, h2⟩ := Queued.enqueueParent (ht.setPage ha x) hqueued hpage rfl
  rw [ht.updatePageNodeHash_eq ha]
  refine ⟨h1, h2, ?_⟩
  rw [(enqueueParent_frame ..).2, (setHash_frame ..).2.1]
  rfl

end

/-! ## Updated trees -/

structure Updated (h : Hasher H) (f : Nat → H) (t : MachineMerkleTree H) : Prop extends t.Pages h f where
  settled : ∀ p, Settled h t p

theorem getPristineHash_succ (d : Nat) : getPristineHash h (log2PageSize + (d + 1)) =
    h.concat (getPristineHash h (log2PageSize + d)) (getPristineHash h (log2PageSize + d)) := by
  have e : log2PageSize + (d + 1) - log2WordSize = log2PageSize + d - log2WordSize + 1 := by
    simp only [log2PageSize, log2WordSize]
    omega
  rw [getPristineHash, pristineHash, e]
  rfl

/-- In an updated tree the hash of every range is there: in its node, or as the pristine hash. -/
theorem Updated.hash_eq (ht : t.Updated h f) (d i : Nat) (hd : d ≤ treeHeight) :
    (t.hashAt ⟨d, i⟩).getD (getPristineHash h (log2PageSize + d)) = nodeHash h.concat f d i := by
  induction d generalizing i with
  | zero =>
    cases hx : t.hashAt ⟨0, i⟩ with
    | some x => exact ht.leaf i x hx
    | none => exact (ht.absent i fun hm => by
        obtain ⟨x, hx'⟩ := mem_iff_hashAt.mp hm
        rw [hx] at hx'
        cases hx').symm
  | succ d ih =>
    cases hx : t.hashAt ⟨d + 1, i⟩ with
    | some x =>
      rw [getD_some, ht.settled _ x hx (succ_pos d), getChildHash_eq, getChildHash_eq, nodeHash, ← ih _ (by omega),
        ← ih _ (by omega)]
      rfl
    | none =>
      -- a node below would have this one above it
      have hnone : ∀ j, j / 2 = i → t.hashAt ⟨d, j⟩ = none := fun j hj => by
        by_contra hne
        have hm : t.Mem ⟨d, j⟩ := mem_iff_hashAt.mpr (ne_none_iff_exists'.mp hne)
        have hm' := ht.parent_mem _ hm (by simp only; omega)
        simp only [hj] at hm'
        obtain ⟨y, hy⟩ := mem_iff_hashAt.mp hm'
        rw [hx] at hy
        cases hy
      rw [getD_none, nodeHash, ← ih _ (by omega), ← ih _ (by omega), hnone _ (by omega), hnone _ (by omega),
        getD_none, getPristineHash_succ]

theorem getRootHash_eq_getD (t : MachineMerkleTree H) :
    t.getRootHash h = (t.hashAt .root).getD (getPristineHash h log2RootSize) := by
  unfold getRootHash hashAt
  cases t.node .root <;> rfl

theorem Updated.getRootHash_eq (ht : t.Updated h f) : t.getRootHash h = nodeHash h.concat f treeHeight 0 := by
  rw [getRootHash_eq_getD]
  exact ht.hash_eq treeHeight 0 (Nat.le_refl _)

theorem Updated.verifyNode_eq_true [DecidableEq H] (ht : t.Updated h f) (d i : Nat) :
    t.verifyNode h d ⟨d, i⟩ = true := by
  induction d generalizing i with
  | zero => rfl
  | succ d ih =>
    rw [verifyNode]
    split
    · rfl
    · rename_i n hn
      have hx : t.hashAt ⟨d + 1, i⟩ = some n.hash := by rw [hashAt, hn]; rfl
      rw [Bool.and_eq_true, Bool.and_eq_true]
      refine ⟨⟨ih _, ih _⟩, decide_eq_true ?_⟩
      exact (ht.settled _ _ hx (succ_pos d)).symm

theorem Pages.walk_eq (ht : t.Pages h f) (a : Word) (d n : Nat) (hd : d + n ≤ treeHeight)
    (hm : t.Mem ⟨d + n, a.toNat / pmaPageSize / 2 ^ (d + n)⟩) :
    t.walk a n ⟨d + n, a.toNat / pmaPageSize / 2 ^ (d + n)⟩ =
      if (t.node ⟨d, a.toNat / pmaPageSize / 2 ^ d⟩).isSome then some ⟨d, a.toNat / pmaPageSize / 2 ^ d⟩
      else none := by
  induction n with
  | zero =>
    rw [walk]
    exact (if_pos hm).symm
  | succ n ih =>
    have hc : (NodePtr.mk (d + n + 1) (a.toNat / pmaPageSize / 2 ^ (d + n + 1))).childPtr
        (a.getLsbD (log2PageSize + (d + n + 1 - 1))) = ⟨d + n, a.toNat / pmaPageSize / 2 ^ (d + n)⟩ := by
      rw [Nat.add_sub_cancel, getLsbD_pageIndex, childPtr_path]
    rw [walk, child, ← Nat.add_assoc, hc]
    by_cases hchild : t.Mem ⟨d + n, a.toNat / pmaPageSize / 2 ^ (d + n)⟩
    · simp only [show (t.node _).isSome = true from hchild, if_true]
      exact ih (by omega) hchild
    · have hlow : ¬ t.Mem ⟨d, a.toNat / pmaPageSize / 2 ^ d⟩ := fun hlow => hchild (by
        have := ht.path_mem hlow n (by omega)
        rwa [Nat.div_div_eq_div_mul, ← Nat.pow_add] at this)
      simp only [show ¬ (t.node _).isSome = true from hchild, show ¬ (t.node _).isSome = true from hlow]
      rfl

theorem Updated.getNodeHash_eq (ht : t.Updated h f)
    (h1 : log2PageSize ≤ log2Size) (h2 : log2Size ≤ log2RootSize) (ha : a.toNat % 2 ^ log2Size = 0) :
    t.getNodeHash h a log2Size =
      .ok (nodeHash h.concat f (log2Size - log2PageSize) (a.toNat / 2 ^ log2Size)) := by
  obtain ⟨d, rfl⟩ := Nat.exists_eq_add_of_le h1
  have hd : d ≤ treeHeight := by
    simp only [treeHeight, log2RootSize, log2PageSize] at *
    omega
  have hmod : a.toNat % 2 ^ ((log2PageSize + d) % 64) = 0 := by
    rcases Nat.lt_or_eq_of_le h2 with hlt | heq
    · rwa [show (log2PageSize + d) % 64 = log2PageSize + d from Nat.mod_eq_of_lt hlt]
    · rw [heq]
      exact Nat.mod_one _
  have hindex : a.toNat / 2 ^ (log2PageSize + d) = a.toNat / pmaPageSize / 2 ^ d := by
    rw [Nat.pow_add, ← Nat.div_div_eq_div_mul]
    rfl
  have hroot : NodePtr.root = ⟨d + (treeHeight - d), a.toNat / pmaPageSize / 2 ^ (d + (treeHeight - d))⟩ := by
    rw [Nat.add_sub_cancel' hd]
    simp only [NodePtr.root, NodePtr.mk.injEq, true_and, pmaPageSize, treeHeight, log2RootSize, log2PageSize]
    omega
  have hlevels : log2RootSize - (log2PageSize + d) = treeHeight - d := Nat.sub_add_eq ..
  have hwalk := ht.walk_eq a d (treeHeight - d) (by omega) (by rw [← hroot]; exact ht.root_mem)
  rw [← hroot] at hwalk
  have hhash := ht.hash_eq d (a.toNat / pmaPageSize / 2 ^ d) hd
  unfold getNodeHash
  rw [if_neg (by simp only [log2RootSize, log2PageSize, log2WordSize] at *; omega),
    if_neg (by simp only [log2PageSize]; omega), Int.toNat_natCast, if_neg (by rw [hmod]; simp), hlevels, hwalk, hindex,
    Nat.add_sub_cancel_left, ← hhash]
  cases hn : t.node ⟨d, a.toNat / pmaPageSize / 2 ^ d⟩ with
  | none => simp [hashAt, hn]
  | some n => simp [hashAt, hn]

/-! ## Rounds -/

section
variable (h) [Inhabited H]

def round (t : MachineMerkleTree H) (updates : List (Word × H)) : MachineMerkleTree H :=
  (updates.foldl (fun t u => t.updatePageNodeHash u.1 u.2) t.beginUpdate).endUpdate h

/-- Round after round, from the tree of pristine memory. -/
def run (rounds : List (List (Word × H))) : MachineMerkleTree H := rounds.foldl (round h) (make h)

end

/-- Page hashes after a list of updates. -/
def update (f : Nat → H) (updates : List (Word × H)) : Nat → H :=
  updates.foldl (fun f u => Function.update f (u.1.toNat / pmaPageSize) u.2) f

/-- The hash last given to a page, or the pristine one. -/
def lastHashes (h : Hasher H) (rounds : List (List (Word × H))) : Nat → H :=
  rounds.foldl update fun _ => getPristineHash h log2PageSize

/-- A round of the tree a machine's model keeps. -/
def sparseRound (h : Hasher H) (tree : SparseTree H) (updates : List (Word × H)) : SparseTree H :=
  Machine.endUpdate h (updates.foldl (fun tree u => Machine.updatePageNodeHash h tree u.1.toNat u.2) tree)

theorem stores_sparseUpdates {tree : SparseTree H}
    (htree : Stores h.concat (pristineHash h log2PageSize) f pageDepth 0 tree)
    (us : List (Word × H)) :
    Stores h.concat (pristineHash h log2PageSize) (update f us) pageDepth 0
      (us.foldl (fun tree u => Machine.updatePageNodeHash h tree u.1.toNat u.2) tree) := by
  induction us generalizing f tree with
  | nil => exact htree
  | cons u us ih =>
    have hpage : u.1.toNat / pmaPageSize < (0 + 1) * 2 ^ pageDepth := by
      simp only [pmaPageSize, pageDepth, log2RootSize, log2PageSize]
      omega
    exact ih (htree.insert (by simp) hpage)

theorem holds_sparseRun {tree : SparseTree H}
    (htree : SparseTree.Stores h.concat (Machine.pristineHash h log2PageSize) f Machine.pageDepth 0 tree)
    (hp : tree.isPending = false) (rounds : List (List (Word × H))) :
    SparseTree.Holds h.concat (Machine.pristineHash h log2PageSize) (rounds.foldl update f) Machine.pageDepth 0
      (rounds.foldl (sparseRound h) tree) := by
  induction rounds generalizing f tree with
  | nil => exact ⟨htree, hp⟩
  | cons us rounds ih =>
    obtain ⟨h1, h2⟩ := (stores_sparseUpdates htree us).settle
    exact ih h1 h2

/-- The updates of a round are updates of pages. -/
def OfPages (updates : List (Word × H)) : Prop := ∀ u ∈ updates, u.1.toNat % pmaPageSize = 0

/-- A tree between rounds, `k` of them behind it. -/
structure Ready (h : Hasher H) (k : Nat) (f : Nat → H) (t : MachineMerkleTree H) : Prop extends t.Updated h f where
  nonce_eq : t.merkleUpdateNonce.toNat = (k + 1) % 2 ^ 64
  mark_le : ∀ p m, t.markAt p = some m → m.toNat ≤ k

theorem ready_make : (make h).Ready h 0 fun _ => getPristineHash h log2PageSize := by
  have hmem : ∀ p, (make h).Mem p ↔ p = .root := fun p => by
    unfold Mem make
    by_cases hp : p = .root <;> simp [hp]
  have hpage : ∀ i, ¬ (make h).Mem ⟨0, i⟩ := fun i hm => by
    have : 0 = treeHeight := congrArg NodePtr.height ((hmem _).mp hm)
    exact absurd this (by decide)
  have hhash : ∀ p x, (make h).hashAt p = some x → p = .root ∧ x = getPristineHash h log2RootSize := fun p x hx => by
    have hp := (hmem p).mp (mem_iff_hashAt.mpr ⟨x, hx⟩)
    subst hp
    simp only [hashAt, make, if_true, map_some, some.injEq] at hx
    exact ⟨rfl, hx.symm⟩
  refine ⟨⟨⟨(hmem _).mpr rfl, fun p hp => ?_, fun p hp hlt => ?_, fun a _ => ?_, fun i x hx => ?_, fun i _ => rfl⟩,
    fun p x hx _ => ?_⟩, rfl, fun p m hm => ?_⟩
  · rw [(hmem p).mp hp]
    exact Nat.le_refl _
  · rw [(hmem p).mp hp] at hlt
    exact absurd hlt (Nat.lt_irrefl _)
  · exact (if_neg (hpage _)).symm
  · exact absurd (mem_iff_hashAt.mpr ⟨x, hx⟩) (hpage i)
  · obtain ⟨rfl, rfl⟩ := hhash p x hx
    have hnone : ∀ bit, (make h).hashAt (NodePtr.childPtr .root bit) = none := fun bit => by
      cases hc : (make h).hashAt (NodePtr.childPtr .root bit) with
      | none => rfl
      | some y =>
        have : treeHeight - 1 = treeHeight := congrArg NodePtr.height (hhash _ y hc).1
        exact absurd this (by decide)
    rw [getChildHash_eq, getChildHash_eq, hnone, hnone]
    exact getPristineHash_succ 51
  · have hp := (hmem p).mp (mem_iff_markAt.mpr ⟨m, hm⟩)
    subst hp
    simp only [markAt, make, if_true, map_some, some.injEq] at hm
    rw [← hm]
    exact Nat.le_refl _

/-- The tree says what the complete tree over `f` says. -/
structure Refers [DecidableEq H] (h : Hasher H) (f : Nat → H) (t : MachineMerkleTree H) : Prop where
  getRootHash_eq : t.getRootHash h = nodeHash h.concat f treeHeight 0
  getNodeHash_eq : ∀ (address : Word) (log2Size : Nat), log2PageSize ≤ log2Size → log2Size ≤ log2RootSize →
    address.toNat % 2 ^ log2Size = 0 →
    t.getNodeHash h address log2Size =
      .ok (nodeHash h.concat f (log2Size - log2PageSize) (address.toNat / 2 ^ log2Size))
  verifyTree_eq : t.verifyTree h = true

theorem Ready.refers [DecidableEq H] (ht : t.Ready h k f) : t.Refers h f :=
  { getRootHash_eq := ht.toUpdated.getRootHash_eq
    getNodeHash_eq := fun _ _ h1 h2 ha => ht.toUpdated.getNodeHash_eq h1 h2 ha
    verifyTree_eq := ht.verifyNode_eq_true treeHeight 0 }

/-! ## The order of updates -/

/-- Two rounds with the same updates, of different pages, in some order. -/
def Reordered (us us' : List (Word × H)) : Prop := us.Perm us' ∧ (us.map Prod.fst).Nodup

theorem page_injective {b : Word} (ha : a.toNat % pmaPageSize = 0) (hb : b.toNat % pmaPageSize = 0)
    (hab : a.toNat / pmaPageSize = b.toNat / pmaPageSize) : a = b := by
  apply BitVec.eq_of_toNat_eq
  rw [← div_add_mod a.toNat pmaPageSize, ← div_add_mod b.toNat pmaPageSize, ha, hb, hab]

theorem update_reordered {us' : List (Word × H)} (hus : OfPages us) (hp : Reordered us us') (f : Nat → H) :
    update f us = update f us' := by
  refine hp.1.foldl_eq' (fun u hu v hv g => ?_) f
  by_cases huv : u = v
  · rw [huv]
  · refine update_comm (fun hpage => huv ?_) ..
    exact inj_on_of_nodup_map hp.2 hu hv (page_injective (hus u hu) (hus v hv) hpage)

theorem OfPages.reordered {us' : List (Word × H)} (hus : OfPages us) (hp : Reordered us us') : OfPages us' :=
  fun u hu => hus u (hp.1.mem_iff.mpr hu)

theorem reordered_rounds {rounds' : List (List (Word × H))} (hp : Forall₂ Reordered rounds rounds')
    (hus : ∀ us ∈ rounds, OfPages us) :
    (∀ us ∈ rounds', OfPages us) ∧ ∀ f : Nat → H, rounds.foldl update f = rounds'.foldl update f := by
  induction hp with
  | nil => exact ⟨hus, fun _ => rfl⟩
  | cons hp _ ih =>
    obtain ⟨hu, hrest⟩ := forall_mem_cons.mp hus
    obtain ⟨h1, h2⟩ := ih hrest
    exact ⟨forall_mem_cons.mpr ⟨hu.reordered hp, h1⟩, fun f => by
      rw [foldl_cons, foldl_cons, update_reordered hu hp, h2]⟩

/-! ## Whole rounds -/

variable [Inhabited H]

theorem Queued.foldl (ht : t.Holds h f) (hq : t.Queued h 0 fun _ => False) (us : List (Word × H)) (hus : OfPages us) :
    (us.foldl (fun t u => t.updatePageNodeHash u.1 u.2) t).Holds h (update f us) ∧
      (us.foldl (fun t u => t.updatePageNodeHash u.1 u.2) t).Queued h 0 (fun _ => False) ∧
      (us.foldl (fun t u => t.updatePageNodeHash u.1 u.2) t).merkleUpdateNonce = t.merkleUpdateNonce := by
  induction us generalizing t f with
  | nil => exact ⟨ht, hq, rfl⟩
  | cons u us ih =>
    obtain ⟨hu, hus⟩ := forall_mem_cons.mp hus
    obtain ⟨h1, h2, h3⟩ := hq.updatePageNodeHash ht hu u.2
    obtain ⟨h4, h5, h6⟩ := ih h1 h2 hus
    exact ⟨h4, h5, h6.trans h3⟩

/-- One round. The nonce is that of the round as long as it has not come back to zero. -/
theorem Ready.round (ht : t.Ready h k f) (hk : k + 1 < 2 ^ 64) (hus : OfPages us) :
    (t.round h us).Ready h (k + 1) (update f us) := by
  have hnonce : t.beginUpdate.merkleUpdateNonce.toNat = k + 1 := by
    rw [← mod_eq_of_lt hk]
    exact ht.nonce_eq
  have hholds : t.beginUpdate.Holds h f :=
    { root_mem := ht.root_mem, height_le := ht.height_le, parent_mem := ht.parent_mem, map_eq := ht.map_eq,
      leaf := ht.leaf, absent := ht.absent
      nonce_pos := by omega
      mark_le := fun p m hm => Nat.le_trans (ht.mark_le p m hm) (by omega) }
  have hqueued : t.beginUpdate.Queued h 0 fun _ => False :=
    { log2Size_eq := by simp [beginUpdate], height_pos := by simp [beginUpdate], height_ge := by simp [beginUpdate]
      height_le := by simp [beginUpdate], mem := by simp [beginUpdate], sorted := by simp [beginUpdate]
      marked := fun p hm _ => by
        have := ht.mark_le p _ hm
        omega
      covers := fun p hs => absurd (ht.settled p) hs }
  obtain ⟨h1, h2, h3⟩ := hqueued.foldl hholds us hus
  obtain ⟨h4, h5, h6, -⟩ := h2.endUpdateLoop h1
  have hnonce' := congrArg BitVec.toNat (h6.trans h3)
  rw [hnonce] at hnonce'
  refine ⟨⟨⟨h4.root_mem, h4.height_le, h4.parent_mem, h4.map_eq, h4.leaf, h4.absent⟩, h5⟩, ?_, fun p m hm => ?_⟩
  · show (MachineMerkleTree.merkleUpdateNonce _ + 1).toNat = _
    rw [BitVec.toNat_add, hnonce']
    rfl
  · rw [← hnonce']
    exact h4.mark_le p m hm

theorem Ready.foldl (ht : t.Ready h k f) (rounds : List (List (Word × H)))
    (hlen : k + rounds.length < 2 ^ 64) (hus : ∀ us ∈ rounds, OfPages us) :
    (rounds.foldl (MachineMerkleTree.round h) t).Ready h (k + rounds.length) (rounds.foldl update f) := by
  induction rounds generalizing k t f with
  | nil => exact ht
  | cons us rounds ih =>
    rw [length_cons] at hlen
    obtain ⟨hu, hrest⟩ := forall_mem_cons.mp hus
    rw [length_cons, Nat.add_comm rounds.length, ← Nat.add_assoc]
    exact ih (ht.round (by omega) hu) (by omega) hrest

/-- Every tree that update rounds make, up to the round whose nonce is zero. -/
theorem ready_run (hlen : rounds.length < 2 ^ 64) (hus : ∀ us ∈ rounds, OfPages us) :
    (run h rounds).Ready h rounds.length (lastHashes h rounds) := by
  have := (ready_make (h := h)).foldl rounds (by rwa [Nat.zero_add]) hus
  rwa [Nat.zero_add] at this

/-! ## The reference tree -/

/-- Every tree made by less than `2 ^ 64` rounds is the reference tree of the hashes last given, and the updates of a
round can be given in any order if they are of different pages. -/
theorem run_refers [DecidableEq H] (rounds : List (List (Word × H))) (hlen : rounds.length < 2 ^ 64)
    (hus : ∀ us ∈ rounds, OfPages us) : (run h rounds).Refers h (lastHashes h rounds) ∧
      ∀ rounds', List.Forall₂ Reordered rounds rounds' → (run h rounds').Refers h (lastHashes h rounds) := by
  refine ⟨(ready_run hlen hus).refers, fun rounds' hp => ?_⟩
  obtain ⟨hus', hsame⟩ := reordered_rounds hp hus
  have hlen' : rounds'.length < 2 ^ 64 := by rwa [← Forall₂.length_eq hp]
  have := (ready_run (h := h) hlen' hus').refers
  rwa [lastHashes, ← hsame] at this

def twoPages : List (Word × FreeHash) := [(0, .word [1]), (4096, .word [2])]

theorem run_refers_twoPages : ([twoPages].length < 2 ^ 64 ∧ ∀ us ∈ [twoPages], OfPages us) ∧
    (run freeHasher [twoPages]).Refers freeHasher (lastHashes freeHasher [twoPages]) ∧
    (run freeHasher [twoPages.reverse]).Refers freeHasher (lastHashes freeHasher [twoPages]) := by
  have hlen : [twoPages].length < 2 ^ 64 := by decide
  have hus : ∀ us ∈ [twoPages], OfPages us := by
    unfold OfPages
    decide
  have hp : Forall₂ Reordered [twoPages] [twoPages.reverse] :=
    .cons ⟨(reverse_perm _).symm, by decide⟩ .nil
  exact ⟨⟨hlen, hus⟩, (run_refers [twoPages] hlen hus).1, (run_refers [twoPages] hlen hus).2 _ hp⟩

theorem run_replicate_nil (n : Nat) :
    run h (replicate n []) = { make h with merkleUpdateNonce := BitVec.ofNat 64 (n + 1) } := by
  induction n with
  | zero => rfl
  | succ n ih =>
    rw [List.replicate_succ', run, foldl_append]
    change (run h (replicate n [])).round h [] = _
    rw [ih, round, foldl_nil, endUpdate, endUpdateLoop]
    rw [BitVec.ofNat_add n.succ 1]
    rfl

/-- With a zero nonce new nodes count as queued, so nothing above a new page is recomputed. -/
theorem getRootHash_of_nonce_zero (hnonce : t.merkleUpdateNonce = 0) (hfifo : t.merkleUpdateFifo = [])
    (hmap : t.pageNodeMap a = none) (hparent : ¬ t.Mem ⟨1, a.toNat / pmaPageSize / 2⟩) (x : H) :
    (t.round h [(a, x)]).getRootHash h = t.getRootHash h := by
  have hone : (NodePtr.mk 1 (a.toNat / pmaPageSize / 2)).height < treeHeight := show 1 < treeHeight by decide
  have hmark : ((t.withPage a).setHash ⟨0, a.toNat / pmaPageSize⟩ x).markAt ⟨1, a.toNat / pmaPageSize / 2⟩ =
      some t.merkleUpdateNonce := by
    have hnone : t.markAt ⟨1, a.toNat / pmaPageSize / 2⟩ = none := by
      rw [mem_iff_markAt] at hparent
      exact eq_none_iff_forall_ne_some.mpr fun m hm => hparent ⟨m, hm⟩
    rw [markAt_setHash, markAt_withPage, if_pos ⟨hone, by rw [Nat.pow_one]⟩, hnone, hnonce]
    rfl
  obtain ⟨-, hnonce', hfifo'⟩ := (t.withPage a).setHash_frame ⟨0, a.toNat / pmaPageSize⟩ x
  have hupdate : t.updatePageNodeHash a x = (t.withPage a).setHash ⟨0, a.toNat / pmaPageSize⟩ x := by
    have hpage : (NodePtr.mk 0 (a.toNat / pmaPageSize)).height < treeHeight := show 0 < treeHeight by decide
    unfold updatePageNodeHash
    rw [hmap, newPageNode_eq]
    rcases enqueueParent_cases _ log2PageSize hpage (mem_iff_markAt.mpr ⟨_, hmark⟩) with hc | hc
    · exact hc.2
    · exact absurd (hmark.trans (congrArg some hnonce'.symm)) hc.1
  have hround : t.round h [(a, x)] = ((t.withPage a).setHash ⟨0, a.toNat / pmaPageSize⟩ x).endUpdate h := by
    rw [round, show t.beginUpdate = t by rw [beginUpdate, ← hfifo], foldl_cons, foldl_nil, hupdate]
  have hroot : ((t.withPage a).setHash ⟨0, a.toNat / pmaPageSize⟩ x).hashAt .root = t.hashAt .root := by
    rw [hashAt_setHash _ _ _ _ (t.page_mem_withPage a), if_neg (fun hc => absurd (congrArg NodePtr.height hc)
      (show treeHeight ≠ 0 by decide)), hashAt_withPage, if_neg (fun hc => absurd hc.1 (by decide))]
  have hstill : ((t.withPage a).setHash ⟨0, a.toNat / pmaPageSize⟩ x).endUpdateLoop h =
      (t.withPage a).setHash ⟨0, a.toNat / pmaPageSize⟩ x := by
    rw [endUpdateLoop]
    split
    · rfl
    · rename_i hcons
      rw [hfifo', show (t.withPage a).merkleUpdateFifo = [] from hfifo] at hcons
      cases hcons
  rw [hround, endUpdate, hstill, getRootHash_eq_getD, getRootHash_eq_getD, ← hroot]
  rfl

/-- The order matters for two updates of one page; and at the round `2 ^ 64` the nonce has come back to zero, the
mark of new nodes, and the root misses the update. -/
theorem run_order_matters : (run freeHasher [[(0, .word [1]), (0, .word [2])]]).getRootHash freeHasher ≠
      (run freeHasher [[(0, .word [2]), (0, .word [1])]]).getRootHash freeHasher ∧
    (run freeHasher (List.replicate (2 ^ 64 - 1) [] ++ [[(0, .word [1])]])).getRootHash freeHasher ≠
      nodeHash freeHasher.concat (lastHashes freeHasher (List.replicate (2 ^ 64 - 1) [] ++ [[(0, .word [1])]]))
        treeHeight 0 := by
  constructor
  · intro heq
    rw [(ready_run (by decide) (by unfold OfPages; decide)).refers.getRootHash_eq,
      (ready_run (by decide) (by unfold OfPages; decide)).refers.getRootHash_eq] at heq
    exact absurd (nodeHash_inj freeHasher_collisionFree.concat_inj heq 0 (Nat.zero_le _) (by decide)) (by decide)
  · intro heq
    rw [run, foldl_append] at heq
    change ((run freeHasher _).round freeHasher _).getRootHash freeHasher = _ at heq
    have hnew : ¬ (make freeHasher).Mem ⟨1, (0 : Word).toNat / pmaPageSize / 2⟩ := by
      unfold Mem
      decide
    rw [run_replicate_nil, getRootHash_of_nonce_zero (by decide) rfl rfl (by exact hnew)] at heq
    have hpristine : (make freeHasher).getRootHash freeHasher =
        nodeHash freeHasher.concat (fun _ => getPristineHash freeHasher log2PageSize) treeHeight 0 :=
      ready_make.refers.getRootHash_eq
    have hleaf := nodeHash_inj freeHasher_collisionFree.concat_inj (hpristine.symm.trans heq) 0 (Nat.zero_le _)
      (by decide)
    rw [lastHashes, foldl_append] at hleaf
    exact absurd hleaf (by decide)

/-! ## The tree of a machine -/

/-- The rounds of the tree a machine's model keeps lead to the same root. -/
theorem getRootHash_run_eq_sparseRun (hlen : rounds.length < 2 ^ 64) (hus : ∀ us ∈ rounds, OfPages us) :
    (run h rounds).getRootHash h = treeRootHash h (rounds.foldl (sparseRound h) .nil) := by
  rw [(ready_run hlen hus).toUpdated.getRootHash_eq]
  exact (holds_sparseRun (stores_nil fun _ _ _ => rfl) rfl rounds).hash_eq.symm

/-- Two rounds over neighbouring pages, one of which is updated in both. -/
theorem getRootHash_run_twoRounds :
    let rounds := [[(0, .word [1]), (0x1000, .word [2])], [(0x1000, .word [3]), (0x2000, .word [4])]]
    (run freeHasher rounds).getRootHash freeHasher =
      treeRootHash freeHasher (rounds.foldl (sparseRound freeHasher) .nil) :=
  getRootHash_run_eq_sparseRun (by decide) (by unfold OfPages; decide)

end

end MachineMerkleTree

end MachineEmulator
