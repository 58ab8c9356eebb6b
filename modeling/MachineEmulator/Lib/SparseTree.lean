import MachineEmulator.Lib.Merkle

/-!
# Sparse hash trees

A `SparseTree` stores the hashes of the nodes above the leaves written so far; a missing subtree
stands for the pristine one. An update round changes leaves with `insert`, which leaves the hashes
above them pending, and `settle` then computes the pending hashes bottom up.

* `Stores f d i t` : outside its pending nodes `t` holds the nodes below the node of depth `d` and
  index `i` of the tree over `f`; `Holds` when nothing is pending, and then the hash of `t` is that
  node (`Holds.hash_eq`);
* `Stores.insert`, `Stores.settle` : an update round;
* `path`, `Holds.path_eq` : the siblings on the way down to a node;
* `Present d i t` : the leaf of index `i` was written at some point, and stays in the tree.
-/

namespace Merkle

variable {H : Type}

/-- A tree with missing subtrees; a node carries its hash and whether that is still to be computed. -/
inductive SparseTree (H : Type) where
  | nil
  | node (hash : H) (pending : Bool) (left right : SparseTree H)

namespace SparseTree

variable (node : H → H → H) (z : H)

def left : SparseTree H → SparseTree H
  | .nil => .nil
  | .node _ _ l _ => l

def right : SparseTree H → SparseTree H
  | .nil => .nil
  | .node _ _ _ r => r

/-- The hash of a subtree of depth `d`. -/
def hash (d : Nat) : SparseTree H → H
  | .nil => pristine node z d
  | .node h _ _ _ => h

def isPending : SparseTree H → Bool
  | .nil => false
  | .node _ p _ _ => p

/-- Set the hash of the leaf of index `i` below a node of depth `d`. -/
def insert (d i : Nat) (v : H) (t : SparseTree H) : SparseTree H :=
  match d with
  | 0 => .node v false t.left t.right
  | d + 1 =>
    if i.testBit d then .node (t.hash node z (d + 1)) true t.left (t.right.insert d i v)
    else .node (t.hash node z (d + 1)) true (t.left.insert d i v) t.right

/-- Compute the pending hashes below a node of depth `d`. -/
def settle : Nat → SparseTree H → SparseTree H
  | 0, t => t
  | _ + 1, .nil => .nil
  | d + 1, .node h p l r =>
    if p then
      let l' := settle d l
      let r' := settle d r
      .node (node (l'.hash node z d) (r'.hash node z d)) false l' r'
    else .node h p l r

/-- The siblings met on the way down to the node `n` levels below with index `i`, lowest first, and
the subtree there; `d` is the depth of that subtree. -/
def path (d i : Nat) : Nat → SparseTree H → List H × SparseTree H
  | 0, t => ([], t)
  | n + 1, t =>
    if i.testBit n then
      let (ss, u) := path d i n t.right
      (ss ++ [t.left.hash node z (d + n)], u)
    else
      let (ss, u) := path d i n t.left
      (ss ++ [t.right.hash node z (d + n)], u)

/-! ## What a tree stores -/

/-- Outside its pending nodes, `t` holds the nodes below the node of depth `d` and index `i`. -/
def Stores (f : Nat → H) : Nat → Nat → SparseTree H → Prop
  | d, i, .nil => ∀ j, i * 2 ^ d ≤ j → j < (i + 1) * 2 ^ d → f j = z
  | 0, i, .node h p _ _ => h = f i ∧ p = false
  | d + 1, i, .node h p l r => Stores f d (2 * i) l ∧ Stores f d (2 * i + 1) r ∧
      (p = false → l.isPending = false ∧ r.isPending = false ∧
        h = node (l.hash node z d) (r.hash node z d))

/-- `t` holds all nodes below the node of depth `d` and index `i`, none of them pending. -/
def Holds (f : Nat → H) (d i : Nat) (t : SparseTree H) : Prop :=
  Stores node z f d i t ∧ t.isPending = false

variable {node z}

variable {f : Nat → H} {d i : Nat} {t : SparseTree H}

theorem stores_nil (h : ∀ j, i * 2 ^ d ≤ j → j < (i + 1) * 2 ^ d → f j = z) : Stores node z f d i .nil := by
  cases d <;> exact h

theorem Stores.left (h : Stores node z f (d + 1) i t) : Stores node z f d (2 * i) t.left := by
  cases t with
  | nil =>
    exact stores_nil fun j h1 h2 =>
      h j (by rw [Nat.pow_succ]; nlinarith) (by rw [Nat.pow_succ]; nlinarith)
  | node _ _ l r => exact h.1

theorem Stores.right (h : Stores node z f (d + 1) i t) : Stores node z f d (2 * i + 1) t.right := by
  cases t with
  | nil =>
    exact stores_nil fun j h1 h2 =>
      h j (by rw [Nat.pow_succ]; nlinarith) (by rw [Nat.pow_succ]; nlinarith)
  | node _ _ l r => exact h.2.1

theorem Holds.left (h : Holds node z f (d + 1) i t) : Holds node z f d (2 * i) t.left := by
  refine ⟨h.1.left, ?_⟩
  cases t with
  | nil => rfl
  | node _ _ l r => exact (h.1.2.2 h.2).1

theorem Holds.right (h : Holds node z f (d + 1) i t) : Holds node z f d (2 * i + 1) t.right := by
  refine ⟨h.1.right, ?_⟩
  cases t with
  | nil => rfl
  | node _ _ l r => exact (h.1.2.2 h.2).2.1

/-- A tree with nothing pending has the hash of the node it stands for. -/
theorem Holds.hash_eq : ∀ {d i : Nat} {t : SparseTree H},
    Holds node z f d i t → t.hash node z d = nodeHash node f d i
  | d, i, .nil, h => by
    refine (nodeHash_of_pristine ?_).symm
    cases d <;> exact h.1
  | 0, i, .node _ _ _ _, h => h.1.1
  | d + 1, i, .node _ _ l r, h => by
    rw [nodeHash, ← h.left.hash_eq, ← h.right.hash_eq]
    exact (h.1.2.2 h.2).2.2

/-! ## Update rounds -/

theorem stores_congr {g : Nat → H} : ∀ {d i : Nat} {t : SparseTree H},
    (∀ j, i * 2 ^ d ≤ j → j < (i + 1) * 2 ^ d → f j = g j) → Stores node z f d i t → Stores node z g d i t
  | d, i, .nil, hfg, h => by
    have h' : ∀ j, i * 2 ^ d ≤ j → j < (i + 1) * 2 ^ d → f j = z := by cases d <;> exact h
    exact stores_nil fun j h1 h2 => (hfg j h1 h2).symm.trans (h' j h1 h2)
  | 0, i, .node _ _ _ _, hfg, h => ⟨h.1.trans (hfg i (by simp) (by simp)), h.2⟩
  | d + 1, i, .node _ _ l r, hfg, h => by
    refine ⟨stores_congr (fun j h1 h2 => hfg j ?_ ?_) h.1,
      stores_congr (fun j h1 h2 => hfg j ?_ ?_) h.2.1, h.2.2⟩ <;>
    · rw [Nat.pow_succ]
      nlinarith

/-- Bit `d` of an index says which half of a node of depth `d + 1` it lies in. -/
theorem index_of_testBit {j : Nat} (h1 : i * 2 ^ (d + 1) ≤ j) (h2 : j < (i + 1) * 2 ^ (d + 1)) :
    if j.testBit d then (2 * i + 1) * 2 ^ d ≤ j ∧ j < (2 * i + 2) * 2 ^ d
    else 2 * i * 2 ^ d ≤ j ∧ j < (2 * i + 1) * 2 ^ d := by
  have hpos : 0 < 2 ^ d := Nat.two_pow_pos d
  rw [Nat.pow_succ] at h1 h2
  have hq1 : 2 * i ≤ j / 2 ^ d := (Nat.le_div_iff_mul_le hpos).mpr (by nlinarith)
  have hq2 : j / 2 ^ d < 2 * i + 2 := (Nat.div_lt_iff_lt_mul hpos).mpr (by nlinarith)
  have hb : j.testBit d = decide (j / 2 ^ d % 2 = 1) := by
    rw [Nat.testBit_eq_decide_div_mod_eq]
  by_cases hbit : j / 2 ^ d % 2 = 1
  · rw [hb, decide_eq_true hbit, if_pos rfl]
    exact ⟨(Nat.le_div_iff_mul_le hpos).mp (by omega), (Nat.div_lt_iff_lt_mul hpos).mp (by omega)⟩
  · rw [hb, decide_eq_false hbit, if_neg (by simp)]
    exact ⟨(Nat.le_div_iff_mul_le hpos).mp (by omega), (Nat.div_lt_iff_lt_mul hpos).mp (by omega)⟩

theorem Stores.insert {v : H} : ∀ {d i j : Nat} {t : SparseTree H},
    Stores node z f d i t → i * 2 ^ d ≤ j → j < (i + 1) * 2 ^ d →
    Stores node z (Function.update f j v) d i (t.insert node z d j v)
  | 0, i, j, t, _, h1, h2 => by
    have hj : j = i := by simp at h1 h2; omega
    subst hj
    exact ⟨by simp, rfl⟩
  | d + 1, i, j, t, h, h1, h2 => by
    have hhalf := index_of_testBit h1 h2
    rw [SparseTree.insert]
    split at hhalf
    · rename_i hb
      rw [if_pos hb]
      refine ⟨stores_congr (fun k _ hk => ?_) h.left, h.right.insert hhalf.1 hhalf.2, by simp⟩
      rw [Function.update_of_ne (by omega)]
    · rename_i hb
      rw [if_neg hb]
      refine ⟨h.left.insert hhalf.1 hhalf.2, stores_congr (fun k hk _ => ?_) h.right, by simp⟩
      rw [Function.update_of_ne (by omega)]

theorem isPending_settle : ∀ {f : Nat → H} {d i : Nat} {t : SparseTree H},
    Stores node z f d i t → (t.settle node z d).isPending = false
  | _, 0, _, .nil, _ => rfl
  | _, 0, _, .node _ _ _ _, h => h.2
  | _, _ + 1, _, .nil, _ => rfl
  | _, _ + 1, _, .node _ true _ _, _ => rfl
  | _, _ + 1, _, .node _ false _ _, _ => rfl

theorem Stores.settle : ∀ {d i : Nat} {t : SparseTree H},
    Stores node z f d i t → Holds node z f d i (t.settle node z d)
  | 0, i, t, h => ⟨by cases t <;> exact h, isPending_settle h⟩
  | d + 1, i, .nil, h => ⟨h, rfl⟩
  | d + 1, i, .node _ true l r, h => by
    have hl := h.1.settle
    have hr := h.2.1.settle
    exact ⟨⟨hl.1, hr.1, fun _ => ⟨hl.2, hr.2, rfl⟩⟩, rfl⟩
  | d + 1, i, .node _ false l r, h => ⟨h, rfl⟩

/-! ## Paths -/

theorem siblings_snoc (f : Nat → H) : ∀ n d i, siblings node f d i (n + 1) =
    siblings node f d i n ++ [nodeHash node f (d + n) (sibling (i / 2 ^ n))]
  | 0, d, i => by simp [siblings]
  | n + 1, d, i => by
    rw [siblings, siblings_snoc f n, siblings, List.cons_append, Nat.div_div_eq_div_mul,
      Nat.pow_succ', show d + 1 + n = d + (n + 1) by omega]

/-- The path down a complete tree meets the siblings of the node it leads to. -/
theorem Holds.path_eq : ∀ {n : Nat} {t : SparseTree H}, Holds node z f (d + n) (i / 2 ^ n) t →
    (path node z d i n t).1 = siblings node f d i n ∧ Holds node z f d i (path node z d i n t).2
  | 0, t, h => ⟨rfl, by simpa [path] using h⟩
  | n + 1, t, h => by
    have hl := Holds.left (d := d + n) h
    have hr := Holds.right (d := d + n) h
    have hi := index_bits (i := i) (n := n)
    rw [siblings_snoc, path]
    split at hi
    · rename_i hb
      rw [if_pos hb]
      rw [← hi] at hr
      obtain ⟨h1, h2⟩ := hr.path_eq
      refine ⟨?_, h2⟩
      simp only [h1, hl.hash_eq]
      rw [hi, sibling, if_neg (by omega)]
      rfl
    · rename_i hb
      rw [if_neg hb]
      rw [← hi] at hl
      obtain ⟨h1, h2⟩ := hl.path_eq
      refine ⟨?_, h2⟩
      simp only [h1, hr.hash_eq]
      rw [hi, sibling, if_pos (by omega)]

/-! ## Leaves that are in the tree -/

/-- The tree has a node for the leaf of index `i`. -/
def Present : Nat → Nat → SparseTree H → Prop
  | 0, _, t => t ≠ .nil
  | d + 1, i, t => if i.testBit d then Present d i t.right else Present d i t.left

theorem present_insert_self (v : H) : ∀ (d i : Nat) (t : SparseTree H), Present d i (t.insert node z d i v)
  | 0, _, _ => by simp [insert, Present]
  | d + 1, i, t => by
    rw [insert, Present]
    split
    · exact present_insert_self v d i t.right
    · exact present_insert_self v d i t.left

theorem Present.insert {v : H} : ∀ {d i j : Nat} {t : SparseTree H}, Present d i t →
    Present d i (t.insert node z d j v)
  | 0, _, _, _, _ => by simp [SparseTree.insert, Present]
  | d + 1, i, j, t, h => by
    rw [Present] at h ⊢
    rw [SparseTree.insert]
    by_cases hi : i.testBit d = true <;> by_cases hj : j.testBit d = true
    · simp only [hi, hj, if_true] at h ⊢
      exact Present.insert h
    · simp only [hi, hj, if_true] at h ⊢
      exact h
    · simp only [hi, hj, if_true] at h ⊢
      exact h
    · simp only [hi, hj] at h ⊢
      exact Present.insert h

theorem Present.settle : ∀ {d i : Nat} {t : SparseTree H}, Present d i t → Present d i (t.settle node z d)
  | 0, _, _, h => by rwa [SparseTree.settle]
  | d + 1, _, .nil, h => by rwa [SparseTree.settle]
  | d + 1, i, .node x p l r, h => by
    rw [SparseTree.settle]
    split
    · rw [Present] at h ⊢
      split at h
      · rename_i hi
        rw [if_pos hi]
        exact Present.settle h
      · rename_i hi
        rw [if_neg hi]
        exact Present.settle h
    · exact h

theorem Present.path : ∀ {n : Nat} {t : SparseTree H}, Present n i t → (path node z d i n t).2 ≠ .nil
  | 0, _, h => h
  | n + 1, t, h => by
    rw [Present] at h
    rw [SparseTree.path]
    split at h
    · rename_i hi
      rw [if_pos hi]
      exact Present.path h
    · rename_i hi
      rw [if_neg hi]
      exact Present.path h

end SparseTree

end Merkle
