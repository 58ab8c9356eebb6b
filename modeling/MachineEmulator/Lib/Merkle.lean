import Mathlib.Data.Nat.Bitwise
import Mathlib.Tactic.Linarith
import Mathlib.Tactic.Ring

/-!
# Complete binary hash trees

The leaves of a tree are a function `f : Nat → H`, its inner nodes are computed by `node`. The node
of depth `d` and index `i` covers the leaves `i * 2 ^ d ≤ j < (i + 1) * 2 ^ d`.

* `nodeHash node f d i` : the node of depth `d` and index `i`;
* `siblings node f d i n` : the `n` siblings on the path up from that node;
* `climb node i h ss` : the hash reached from `h` at index `i` by folding in the siblings `ss`;
* `nodeHash_inj`, `climb_sound` : what a collision-free `node` pins down;
* `siblings_congr` : a change below a node leaves the siblings of its path alone.
-/

namespace Merkle

open List

variable {H : Type} (node : H → H → H)

/-- The node of depth `d` and index `i` of the tree over `f`. -/
def nodeHash (f : Nat → H) : Nat → Nat → H
  | 0, i => f i
  | d + 1, i => node (nodeHash f d (2 * i)) (nodeHash f d (2 * i + 1))

/-- The index of the other child of the same parent. -/
def sibling (i : Nat) : Nat := if i % 2 = 0 then i + 1 else i - 1

/-- The siblings met on the way up from the node of depth `d` and index `i`, `n` levels. -/
def siblings (f : Nat → H) : Nat → Nat → Nat → List H
  | _, _, 0 => []
  | d, i, n + 1 => nodeHash node f d (sibling i) :: siblings f (d + 1) (i / 2) n

/-- Fold a list of siblings into the hash of the node of index `i`. -/
def climb : Nat → H → List H → H
  | _, h, [] => h
  | i, h, s :: ss => climb (i / 2) (if i % 2 = 0 then node h s else node s h) ss

/-- No two pairs of children have the same hash. -/
def CollisionFree : Prop := ∀ a b c d, node a b = node c d → a = c ∧ b = d

/-! ## Leaves below a node -/

variable {node}

theorem nodeHash_congr {f g : Nat → H} : ∀ {d i : Nat}, (∀ j, i * 2 ^ d ≤ j → j < (i + 1) * 2 ^ d → f j = g j) →
    nodeHash node f d i = nodeHash node g d i
  | 0, i, h => h i (by simp) (by simp)
  | d + 1, i, h => by
    have e : 2 ^ (d + 1) = 2 ^ d + 2 ^ d := by ring
    unfold nodeHash
    congr 1
    · refine nodeHash_congr fun j h1 h2 => h j ?_ ?_ <;> rw [e] <;> nlinarith
    · refine nodeHash_congr fun j h1 h2 => h j ?_ ?_ <;> rw [e] <;> nlinarith

/-- A tree whose leaves are the nodes of depth `e` of another one. -/
theorem nodeHash_nodeHash (f : Nat → H) (e : Nat) : ∀ d i,
    nodeHash node (nodeHash node f e) d i = nodeHash node f (e + d) i
  | 0, _ => rfl
  | d + 1, i => by
    rw [nodeHash, nodeHash_nodeHash f e d, nodeHash_nodeHash f e d, ← Nat.add_assoc, nodeHash]

theorem nodeHash_shift (f : Nat → H) : ∀ d a i,
    nodeHash node f d (a + i) = nodeHash node (fun k => f (a * 2 ^ d + k)) d i
  | 0, a, i => by rw [nodeHash, nodeHash, Nat.pow_zero, Nat.mul_one]
  | d + 1, a, i => by
    rw [nodeHash, nodeHash, Nat.mul_add, Nat.add_assoc, nodeHash_shift f d (2 * a), nodeHash_shift f d (2 * a),
      Nat.pow_succ', ← Nat.mul_assoc, Nat.mul_comm a 2]

theorem nodeHash_inj (hcf : CollisionFree node) {f g : Nat → H} : ∀ {d i : Nat},
    nodeHash node f d i = nodeHash node g d i → ∀ j, i * 2 ^ d ≤ j → j < (i + 1) * 2 ^ d → f j = g j
  | 0, i, h, j, h1, h2 => by
    have hj : j = i := by simp at h1 h2; omega
    subst hj
    exact h
  | d + 1, i, h, j, h1, h2 => by
    have e : 2 ^ (d + 1) = 2 ^ d + 2 ^ d := by ring
    rw [e] at h1 h2
    obtain ⟨hl, hr⟩ := hcf _ _ _ _ h
    by_cases hj : j < (2 * i + 1) * 2 ^ d
    · exact nodeHash_inj hcf hl j (by nlinarith) hj
    · exact nodeHash_inj hcf hr j (by omega) (by nlinarith)

/-! ## Paths -/

theorem sibling_div (i : Nat) : sibling i / 2 = i / 2 := by
  unfold sibling
  split <;> omega

@[simp] theorem length_siblings (f : Nat → H) : ∀ d i n, (siblings node f d i n).length = n
  | _, _, 0 => rfl
  | d, i, n + 1 => by rw [siblings, length_cons, length_siblings f]

theorem nodeHash_parent (f : Nat → H) (d i : Nat) : nodeHash node f (d + 1) (i / 2) =
      if i % 2 = 0 then node (nodeHash node f d i) (nodeHash node f d (sibling i))
      else node (nodeHash node f d (sibling i)) (nodeHash node f d i) := by
  unfold sibling
  split
  · rw [nodeHash, show 2 * (i / 2) = i by omega]
  · rw [nodeHash, show 2 * (i / 2) = i - 1 by omega, show i - 1 + 1 = i by omega]

/-- The last bit of an index says which child of its parent it is. -/
theorem index_bits {i n : Nat} :
    i / 2 ^ n = if i.testBit n then 2 * (i / 2 ^ (n + 1)) + 1 else 2 * (i / 2 ^ (n + 1)) := by
  have hb : i.testBit n = decide (i / 2 ^ n % 2 = 1) := by
    rw [Nat.testBit_eq_decide_div_mod_eq]
  have hd : i / 2 ^ (n + 1) = i / 2 ^ n / 2 := by rw [Nat.pow_succ, Nat.div_div_eq_div_mul]
  rw [hb, hd]
  by_cases hbit : i / 2 ^ n % 2 = 1
  · rw [decide_eq_true hbit, if_pos rfl]; omega
  · rw [decide_eq_false hbit, if_neg (by simp)]; omega

theorem siblings_append (f : Nat → H) (b : Nat) : ∀ a d i, siblings node f d i (a + b) =
    siblings node f d i a ++ siblings node f (d + a) (i / 2 ^ a) b
  | 0, d, i => by simp [siblings]
  | a + 1, d, i => by
    rw [Nat.add_right_comm, siblings, siblings_append f b a, siblings, cons_append,
      Nat.div_div_eq_div_mul, Nat.pow_succ', show d + 1 + a = d + (a + 1) by omega]

theorem siblings_nodeHash (f : Nat → H) (e : Nat) : ∀ n d i,
    siblings node (nodeHash node f e) d i n = siblings node f (e + d) i n
  | 0, _, _ => rfl
  | n + 1, d, i => by
    rw [siblings, siblings_nodeHash f e n, siblings, nodeHash_nodeHash, Nat.add_assoc]

/-- The siblings on the path from a leaf, from one level on. -/
theorem siblings_eq_map (f : Nat → H) (i : Nat) : ∀ n d,
    siblings node f d (i / 2 ^ d) n = (range' d n).map fun k => nodeHash node f k (sibling (i / 2 ^ k))
  | 0, _ => rfl
  | n + 1, d => by
    rw [siblings, range'_succ, map_cons, ← siblings_eq_map f i n (d + 1), Nat.div_div_eq_div_mul, ← Nat.pow_succ]

theorem climb_siblings (f : Nat → H) : ∀ n d i,
    climb node i (nodeHash node f d i) (siblings node f d i n) = nodeHash node f (d + n) (i / 2 ^ n)
  | 0, d, i => by simp [climb, siblings]
  | n + 1, d, i => by
    rw [siblings, climb, ← nodeHash_parent, climb_siblings f n, Nat.div_div_eq_div_mul,
      Nat.pow_succ', show d + 1 + n = d + (n + 1) by omega]

/-- A path that reaches the tree's own node used the tree's own hashes at every level. -/
theorem climb_sound (hcf : CollisionFree node) (f : Nat → H) : ∀ (ss : List H) (d i : Nat) (h : H),
    climb node i h ss = nodeHash node f (d + ss.length) (i / 2 ^ ss.length) →
    h = nodeHash node f d i ∧ ss = siblings node f d i ss.length
  | [], d, i, h, hc => by simpa [climb, siblings] using hc
  | s :: ss, d, i, h, hc => by
    have hc' : climb node (i / 2) (if i % 2 = 0 then node h s else node s h) ss =
        nodeHash node f (d + 1 + ss.length) (i / 2 / 2 ^ ss.length) := by
      rw [Nat.div_div_eq_div_mul, ← Nat.pow_succ', Nat.add_assoc, Nat.add_comm 1]
      exact hc
    obtain ⟨hh, hs⟩ := climb_sound hcf f ss (d + 1) (i / 2) _ hc'
    rw [nodeHash_parent] at hh
    rw [length_cons, siblings, ← hs]
    split at hh
    · obtain ⟨h1, h2⟩ := hcf _ _ _ _ hh
      exact ⟨h1, by rw [h2]⟩
    · obtain ⟨h1, h2⟩ := hcf _ _ _ _ hh
      exact ⟨h2, by rw [h1]⟩

/-- Leaves outside a node, and only those, decide the siblings on the path up from it. -/
theorem siblings_congr {f g : Nat → H} : ∀ {n d i : Nat},
    (∀ j, j < i * 2 ^ d ∨ (i + 1) * 2 ^ d ≤ j → f j = g j) → siblings node f d i n = siblings node g d i n
  | 0, _, _, _ => rfl
  | n + 1, d, i, h => by
    have e : 2 ^ (d + 1) = 2 ^ d + 2 ^ d := by ring
    rw [siblings, siblings]
    congr 1
    · refine nodeHash_congr fun j h1 h2 => h j ?_
      rcases Nat.lt_or_gt_of_ne (show sibling i ≠ i by unfold sibling; split <;> omega) with hlt | hgt
      · exact .inl (lt_of_lt_of_le h2 (Nat.mul_le_mul_right _ hlt))
      · exact .inr (le_trans (Nat.mul_le_mul_right _ hgt) h1)
    · refine siblings_congr fun j hj => h j ?_
      rw [e] at hj
      have hlo : i / 2 * (2 ^ d + 2 ^ d) ≤ i * 2 ^ d := by
        have : i / 2 * 2 ≤ i := Nat.div_mul_le_self i 2
        nlinarith [Nat.mul_le_mul_right (2 ^ d) this]
      have hhi : (i + 1) * 2 ^ d ≤ (i / 2 + 1) * (2 ^ d + 2 ^ d) := by
        have : i + 1 ≤ (i / 2 + 1) * 2 := by omega
        nlinarith [Nat.mul_le_mul_right (2 ^ d) this]
      rcases hj with hj | hj
      · exact .inl (lt_of_lt_of_le hj hlo)
      · exact .inr (le_trans hhi hj)

/-! ## Splicing a node into a tree -/

/-- Folding the old siblings into a new hash of a node gives the tree with that node replaced. -/
theorem climb_splice {f g : Nat → H} {d i : Nat} (n : Nat)
    (h : ∀ j, j < i * 2 ^ d ∨ (i + 1) * 2 ^ d ≤ j → f j = g j) :
    climb node i (nodeHash node g d i) (siblings node f d i n) = nodeHash node g (d + n) (i / 2 ^ n) := by
  rw [siblings_congr h, climb_siblings]

/-! ## Pristine trees -/

/-- The node of depth `d` of the tree all of whose leaves are `z`. -/
def pristine (node : H → H → H) (z : H) : Nat → H
  | 0 => z
  | d + 1 => node (pristine node z d) (pristine node z d)

theorem nodeHash_of_pristine {f : Nat → H} {z : H} : ∀ {d i : Nat},
    (∀ j, i * 2 ^ d ≤ j → j < (i + 1) * 2 ^ d → f j = z) → nodeHash node f d i = pristine node z d := by
  intro d i h
  rw [nodeHash_congr (g := fun _ => z) h]
  clear h
  induction d generalizing i with
  | zero => rfl
  | succ d ih => rw [nodeHash, pristine, ih, ih]

theorem pristine_pristine (node : H → H → H) (z : H) (e : Nat) : ∀ d,
    pristine node (pristine node z e) d = pristine node z (e + d)
  | 0 => rfl
  | d + 1 => by rw [pristine, pristine_pristine node z e d, ← Nat.add_assoc, pristine]

theorem below_ancestor {d i j : Nat} (n : Nat) (h1 : i * 2 ^ d ≤ j) (h2 : j < (i + 1) * 2 ^ d) :
    i / 2 ^ n * 2 ^ (d + n) ≤ j ∧ j < (i / 2 ^ n + 1) * 2 ^ (d + n) := by
  have hhi : i + 1 ≤ (i / 2 ^ n + 1) * 2 ^ n := by
    rw [Nat.mul_comm]
    exact Nat.lt_mul_div_succ _ (Nat.two_pow_pos n)
  rw [Nat.pow_add, Nat.mul_comm (2 ^ d), ← Nat.mul_assoc, ← Nat.mul_assoc]
  exact ⟨le_trans (Nat.mul_le_mul_right _ (Nat.div_mul_le_self i (2 ^ n))) h1,
    lt_of_lt_of_le h2 (Nat.mul_le_mul_right _ hhi)⟩

theorem siblings_of_pristine {f : Nat → H} {z : H} : ∀ {n d i : Nat},
    (∀ j, i / 2 ^ n * 2 ^ (d + n) ≤ j → j < (i / 2 ^ n + 1) * 2 ^ (d + n) → f j = z) →
    siblings node f d i n = (range' d n).map (pristine node z)
  | 0, _, _, _ => rfl
  | n + 1, d, i, h => by
    have hdiv : ∀ k, k / 2 ^ (n + 1) = k / 2 / 2 ^ n := fun k => by
      rw [Nat.pow_succ', Nat.div_div_eq_div_mul]
    rw [siblings, range'_succ, map_cons]
    congr 1
    · refine nodeHash_of_pristine fun j h1 h2 => ?_
      have hj := below_ancestor (n + 1) h1 h2
      rw [hdiv, sibling_div, ← hdiv] at hj
      exact h j hj.1 hj.2
    · refine siblings_of_pristine fun j h1 h2 => h j ?_ ?_
      · rwa [hdiv, show d + (n + 1) = d + 1 + n by omega]
      · rwa [hdiv, show d + (n + 1) = d + 1 + n by omega]

end Merkle
