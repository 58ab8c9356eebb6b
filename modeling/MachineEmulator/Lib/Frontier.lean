import MachineEmulator.Lib.Merkle

/-!
# The frontier of a tree that grows to the right

Of a tree with `n` leaves so far, it is enough to keep one complete subtree for each bit of `n`: bit `i`
stands for the last `2 ^ i` leaves of the first `n / 2 ^ i * 2 ^ i`.

* `Frontier node f n ctx` : `ctx` holds these subtrees of the tree over `f`. Levels whose bit is clear are
  free;
* `Frontier.join` : a subtree and the one to its right give the next level;
* `Frontier.push` : `2 ^ j` more leaves, carried up to the first clear bit;
* `Frontier.pad` : the pristine leaves that are left, when they are fewer than the last subtree has;
* `node_succ_of_not_testBit`, `nodeHash_beyond` : the nodes to the right of the leaves so far.
-/

namespace Merkle

open Nat

variable {H : Type} (node : H → H → H)

/-- The complete subtrees that the bits of `n` stand for. -/
def Frontier (f : Nat → H) (n : Nat) (ctx : Nat → H) : Prop :=
  ∀ i, n.testBit i = true → ctx i = nodeHash node f i (n / 2 ^ i - 1)

variable {node} {f g : Nat → H} {n : Nat} {ctx : Nat → H}

/-! ## Bits and counts -/

theorem div_two_pow_of_testBit {i : Nat} (h : n.testBit i = true) : n / 2 ^ i = 2 * (n / 2 ^ (i + 1)) + 1 := by
  rw [index_bits, if_pos h]

theorem div_two_pow_of_not_testBit {i : Nat} (h : n.testBit i = false) : n / 2 ^ i = 2 * (n / 2 ^ (i + 1)) := by
  rw [index_bits, if_neg (by rw [h]; simp)]

theorem mod_two_pow_succ_of_testBit {i : Nat} (h : n.testBit i = true) : n % 2 ^ (i + 1) = n % 2 ^ i + 2 ^ i := by
  have hd := div_two_pow_of_testBit h
  have h1 := div_add_mod n (2 ^ i)
  have h2 := div_add_mod n (2 ^ (i + 1))
  rw [hd] at h1
  rw [Nat.pow_succ] at *
  nlinarith

theorem mod_two_pow_succ_of_not_testBit {i : Nat} (h : n.testBit i = false) : n % 2 ^ (i + 1) = n % 2 ^ i := by
  have hd := div_two_pow_of_not_testBit h
  have h1 := div_add_mod n (2 ^ i)
  have h2 := div_add_mod n (2 ^ (i + 1))
  rw [hd] at h1
  rw [Nat.pow_succ] at *
  nlinarith

theorem testBit_of_mod_eq_zero {i b : Nat} (h : n % 2 ^ i = 0) (hb : b < i) : n.testBit b = false := by
  have := testBit_mod_two_pow n i b
  rw [h, decide_eq_true hb, Bool.true_and] at this
  rw [← this, zero_testBit]

theorem testBit_congr {m : Nat} {b : Nat} (h : m / 2 ^ b = n / 2 ^ b) : m.testBit b = n.testBit b := by
  rw [testBit_eq_decide_div_mod_eq, testBit_eq_decide_div_mod_eq, h]

/-- Numbers that agree from one bit on agree from every later one. -/
theorem div_two_pow_congr {m i b : Nat} (h : m / 2 ^ i = n / 2 ^ i) (hib : i ≤ b) : m / 2 ^ b = n / 2 ^ b := by
  rw [← Nat.add_sub_cancel' hib, Nat.pow_add, ← Nat.div_div_eq_div_mul, ← Nat.div_div_eq_div_mul, h]

theorem add_two_pow_of_carry {i j : Nat} (h : n % 2 ^ i + 2 ^ j = 2 ^ i) : n + 2 ^ j = (n / 2 ^ i + 1) * 2 ^ i := by
  have := div_add_mod n (2 ^ i)
  nlinarith

/-! ## Leaves -/

theorem Frontier.congr (h : Frontier node f n ctx) (hfg : ∀ k, k < n → f k = g k) : Frontier node g n ctx := by
  intro i hi
  rw [h i hi]
  refine nodeHash_congr fun k _ hk => hfg k (Nat.lt_of_lt_of_le hk ?_)
  rw [Nat.sub_add_cancel (by rw [div_two_pow_of_testBit hi]; omega)]
  exact div_mul_le_self n (2 ^ i)

theorem frontier_zero : Frontier node f 0 ctx := by
  intro i hi
  simp at hi

/-- The subtree of a set bit is a left child, and the node after it is its sibling. -/
theorem Frontier.join (h : Frontier node f n ctx) {i : Nat} (hi : n.testBit i = true) :
    node (ctx i) (nodeHash node f i (n / 2 ^ i)) = nodeHash node f (i + 1) (n / 2 ^ (i + 1)) := by
  rw [h i hi, nodeHash, div_two_pow_of_testBit hi, Nat.add_sub_cancel]

/-- The node over the next leaf is a left child when the bit is clear. -/
theorem node_succ_of_not_testBit {i : Nat} (hi : n.testBit i = false) :
    nodeHash node f (i + 1) (n / 2 ^ (i + 1)) =
      node (nodeHash node f i (n / 2 ^ i)) (nodeHash node f i (n / 2 ^ i + 1)) := by
  rw [nodeHash, div_two_pow_of_not_testBit hi]

/-- A node that starts beyond the leaves so far is pristine. -/
theorem nodeHash_beyond {z : H} (hz : ∀ k, n ≤ k → f k = z) {i j : Nat} (hj : n ≤ j * 2 ^ i) :
    nodeHash node f i j = pristine node z i :=
  nodeHash_of_pristine fun k hk _ => hz k (Nat.le_trans hj hk)

/-! ## Growing -/

/-- `2 ^ j` leaves more. The bits of `n` from `j` up to `i` are set, those below `j` and bit `i` are clear: the
new leaves complete the subtree of level `i`. -/
theorem Frontier.push (h : Frontier node f n ctx) (hfg : ∀ k, k < n → f k = g k) {i j : Nat}
    (hi : n.testBit i = false) (hij : n % 2 ^ i + 2 ^ j = 2 ^ i) :
    Frontier node g (n + 2 ^ j) (Function.update ctx i (nodeHash node g i (n / 2 ^ i))) := by
  have hpos := Nat.two_pow_pos i
  have hn := add_two_pow_of_carry hij
  have hdiv : (n + 2 ^ j) / 2 ^ i = n / 2 ^ i + 1 := by rw [hn, Nat.mul_div_cancel _ hpos]
  have hup : (n + 2 ^ j) / 2 ^ (i + 1) = n / 2 ^ (i + 1) := by
    rw [Nat.pow_succ, ← Nat.div_div_eq_div_mul, ← Nat.div_div_eq_div_mul, hdiv, div_two_pow_of_not_testBit hi]
    omega
  intro b hb
  rcases Nat.lt_trichotomy b i with hlt | rfl | hgt
  · rw [testBit_of_mod_eq_zero (i := i) (by rw [hn, mul_mod_left]) hlt] at hb
    cases hb
  · rw [Function.update_self, hdiv, Nat.add_sub_cancel]
  · have hsame := div_two_pow_congr hup hgt
    rw [Function.update_of_ne (by omega), hsame]
    exact h.congr hfg b (by rwa [← testBit_congr hsame])

/-- The last pristine leaves, fewer than the last subtree has. -/
theorem Frontier.pad (h : Frontier node f n ctx) {z : H} (hz : ∀ k, n ≤ k → f k = z) {j c : Nat}
    (hn : n % 2 ^ j = 0) (hc : c < 2 ^ j) :
    Frontier node f (n + c) fun i => if c.testBit i then pristine node z i else ctx i := by
  intro b hb
  have hnj := div_add_mod n (2 ^ j)
  rw [hn, Nat.add_zero] at hnj
  by_cases hbj : b < j
  · -- a level below the subtrees there are: the bit comes from the new leaves
    have hlow : (n + c).testBit b = c.testBit b := by
      have := testBit_mod_two_pow (n + c) j b
      rw [add_mod, hn, Nat.zero_add, mod_mod, mod_eq_of_lt hc, decide_eq_true hbj,
        Bool.true_and] at this
      exact this.symm
    rw [hlow] at hb
    show (if c.testBit b then _ else _) = _
    rw [if_pos hb]
    refine (nodeHash_beyond hz ?_).symm
    have hdvd : 2 ^ b ∣ n := Nat.dvd_trans (Nat.pow_dvd_pow 2 (Nat.le_of_lt hbj)) ⟨_, hnj.symm⟩
    have hle : 2 ^ b ≤ c := ge_two_pow_of_testBit hb
    obtain ⟨q, rfl⟩ := hdvd
    have hq : q + 1 ≤ (2 ^ b * q + c) / 2 ^ b :=
      (Nat.le_div_iff_mul_le (Nat.two_pow_pos b)).mpr (by nlinarith)
    calc 2 ^ b * q = q * 2 ^ b := Nat.mul_comm _ _
      _ ≤ ((2 ^ b * q + c) / 2 ^ b - 1) * 2 ^ b := Nat.mul_le_mul_right _ (by omega)
  · have hsame : (n + c) / 2 ^ b = n / 2 ^ b := by
      refine div_two_pow_congr (i := j) ?_ (by omega)
      rw [← hnj, mul_add_div (Nat.two_pow_pos j), div_eq_of_lt hc,
        Nat.mul_div_cancel_left _ (Nat.two_pow_pos j), Nat.add_zero]
    have hcb : c.testBit b = false :=
      testBit_lt_two_pow (Nat.lt_of_lt_of_le hc (Nat.pow_le_pow_right (by decide) (by omega)))
    simp only [hcb, hsame]
    exact h b (by rwa [← testBit_congr hsame])

end Merkle
