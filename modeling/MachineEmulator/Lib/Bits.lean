import Mathlib.Data.Nat.Bitwise

/-!
# Testing and clearing bits of a vector
-/

namespace Bits

open BitVec

variable {w k : Nat}

variable (v : BitVec w)

theorem and_twoPow_ne_zero : v &&& BitVec.twoPow w k ≠ 0 ↔ v.getLsbD k = true := by
  rw [and_twoPow]
  by_cases hv : v.getLsbD k = true
  · have hk : k < w := lt_of_getLsbD hv
    simp only [hv, if_true, iff_true]
    intro h0
    have := congrArg (·.getLsbD k) h0
    simp [hk] at this
  · simp [hv]

theorem and_twoPow_eq_zero : v &&& BitVec.twoPow w k = 0 ↔ v.getLsbD k = false := by
  rw [← not_ne_iff, and_twoPow_ne_zero, Bool.not_eq_true]

theorem xor_and_and_twoPow_ne_zero (a v : BitVec w) : ((a ^^^ v) &&& v) &&& BitVec.twoPow w k ≠ 0 ↔
      v &&& BitVec.twoPow w k ≠ 0 ∧ a &&& BitVec.twoPow w k = 0 := by
  rw [and_twoPow_ne_zero, and_twoPow_ne_zero, and_twoPow_eq_zero, getLsbD_and, getLsbD_xor]
  cases a.getLsbD k <;> cases v.getLsbD k <;> decide

theorem or_twoPow_eq_self {v : BitVec w} (h : v &&& BitVec.twoPow w k ≠ 0) : v ||| BitVec.twoPow w k = v := by
  apply eq_of_getLsbD_eq
  intro i hi
  rw [getLsbD_or, getLsbD_twoPow]
  by_cases hik : k = i
  · subst hik
    rw [(and_twoPow_ne_zero v).mp h, Bool.true_or]
  · simp [hik]

theorem shiftRight_and_one_ne_zero : (v >>> k) &&& 1 ≠ 0 ↔ v.getLsbD k = true := by
  have h := and_twoPow_ne_zero (k := 0) (v >>> k)
  simpa [twoPow_eq] using h

theorem shiftRight_and_one_bne_zero : ((v >>> k) &&& 1 != 0) = v.getLsbD k := by
  rw [Bool.eq_iff_iff, bne_iff_ne]
  exact shiftRight_and_one_ne_zero v

@[simp] theorem and_not_and_self (x y : BitVec w) : (x &&& ~~~y) &&& y = 0 := by
  ext i hi
  simp

theorem and_or_self_left (x y : BitVec w) : x &&& (x ||| y) = x := by
  ext i hi
  cases hx : x[i] <;> simp [hx]

theorem and_or_self_right (x y : BitVec w) : y &&& (x ||| y) = y := by
  rw [BitVec.or_comm, and_or_self_left]

theorem toNat_one_shiftLeft (hk : k < w) : ((1 : BitVec w) <<< k).toNat = 2 ^ k := by
  show (1#w <<< k).toNat = _
  rw [← twoPow_eq, toNat_twoPow, Nat.mod_eq_of_lt (Nat.pow_lt_pow_right (by decide) hk)]

theorem getLsbD_one_shiftLeft {i : Nat} (hi : i < w) (j : Nat) :
    ((1 : BitVec w) <<< i).getLsbD j = decide (j = i) := by
  show (1#w <<< i).getLsbD j = _
  rw [← twoPow_eq, getLsbD_twoPow, decide_eq_true hi, Bool.true_and]
  exact decide_eq_decide.mpr eq_comm

theorem or_and_not_self (x y : BitVec w) : (x ||| y) &&& ~~~y = x &&& ~~~y := by
  ext i hi
  cases hy : y[i] <;> simp [hy]

theorem and_not_ne_self_iff {x y : BitVec w} : x &&& ~~~y ≠ x ↔ x &&& y ≠ 0 := by
  refine not_congr ⟨fun h => ?_, fun h => ?_⟩
  · rw [← h, and_not_and_self]
  · ext i hi
    have hi' : (x &&& y)[i] = false := by
      rw [h]
      exact getElem_zero hi
    rw [getElem_and] at hi'
    cases hx : x[i] <;> simp_all

/-- Nothing is left of a word without its highest bit exactly if it has no other bit. -/
theorem and_not_twoPow_log2_eq_zero_iff {x : BitVec w} (hx : x ≠ 0) :
    x &&& ~~~BitVec.twoPow w x.toNat.log2 = 0 ↔ ∃ i < w, x = BitVec.twoPow w i := by
  have hpos : x.toNat ≠ 0 := fun h => hx (eq_of_toNat_eq h)
  constructor
  · intro h
    refine ⟨x.toNat.log2, (Nat.log2_lt hpos).mpr x.isLt, eq_of_getLsbD_eq fun i hi => ?_⟩
    have htop : x.getLsbD x.toNat.log2 = true := Nat.testBit_log2 hpos
    have hother : (x &&& ~~~BitVec.twoPow w x.toNat.log2).getLsbD i = false := by
      rw [h]
      exact getLsbD_zero
    rw [getLsbD_and, getLsbD_not, getLsbD_twoPow] at hother
    rw [getLsbD_twoPow]
    by_cases hi' : x.toNat.log2 = i
    · rw [hi'] at htop
      simp [hi, hi', htop]
    · simpa [hi, hi'] using hother
  · rintro ⟨i, hi, rfl⟩
    have hlog : (BitVec.twoPow w i).toNat.log2 = i := by
      rw [toNat_twoPow, Nat.mod_eq_of_lt (Nat.pow_lt_pow_right (by decide) hi), Nat.log2_two_pow]
    rw [hlog]
    ext j hj
    simp

theorem or_and_eq_zero_iff {x y mask : BitVec w} :
    (x ||| y) &&& mask = 0 ↔ x &&& mask = 0 ∧ y &&& mask = 0 := by
  rw [BitVec.and_comm, BitVec.and_or_distrib_left, BitVec.and_comm mask, BitVec.and_comm mask]
  exact BitVec.or_eq_zero_iff

theorem and_and_eq_zero_of_left {x y mask : BitVec w} (h : x &&& mask = 0) : (x &&& y) &&& mask = 0 := by
  rw [BitVec.and_assoc, BitVec.and_comm y, ← BitVec.and_assoc, h]
  exact BitVec.zero_and

/-- Two words agree under a mask exactly if their difference is outside of it. -/
theorem xor_and_eq_zero_iff {a b mask : BitVec w} : (a ^^^ b) &&& mask = 0 ↔ a &&& mask = b &&& mask := by
  simp only [eq_of_getLsbD_eq_iff]
  refine forall_congr' fun i => forall_congr' fun _ => ?_
  simp only [getLsbD_and, getLsbD_xor, ofNat_eq_ofNat, getLsbD_zero]
  cases a.getLsbD i <;> cases b.getLsbD i <;> cases mask.getLsbD i <;> decide

theorem signExtend_signExtend {n k : Nat} (x : BitVec n) (l : Nat) (hn : 0 < n) (h : n ≤ k) :
    (x.signExtend k).signExtend l = x.signExtend l := by
  apply eq_of_getLsbD_eq
  intro i hi
  simp only [getLsbD_signExtend, msb_eq_getLsbD_last, hi, decide_true, Bool.true_and]
  by_cases hik : i < k
  · simp [hik]
  · simp only [hik, if_false, show k - 1 < k by omega, decide_true, Bool.true_and, show ¬ i < n by omega]
    by_cases hkn : k - 1 < n
    · rw [if_pos hkn, show k - 1 = n - 1 by omega]
    · rw [if_neg hkn]

theorem signExtend_eq_zero_iff {n k : Nat} {x : BitVec n} (h : n ≤ k) : x.signExtend k = 0 ↔ x = 0 := by
  constructor
  · intro hx
    apply eq_of_getLsbD_eq
    intro i hi
    have hbit : (x.signExtend k).getLsbD i = false := by simp [hx]
    rw [getLsbD_signExtend, if_pos hi] at hbit
    simpa [show i < k by omega] using hbit
  · rintro rfl
    apply eq_of_getLsbD_eq
    intro i hi
    simp [getLsbD_signExtend, msb_eq_getLsbD_last]

theorem setWidth_eq_zero_iff {n k : Nat} {x : BitVec n} (h : n ≤ k) : x.setWidth k = 0 ↔ x = 0 := by
  rw [← toNat_inj, ← toNat_inj, toNat_setWidth_of_le h]
  simp

/-! ## Fields as numbers -/

theorem toNat_and_field {n shift : Nat} (h : shift + n ≤ w) :
    (v &&& (BitVec.ofNat w (2 ^ n - 1) <<< shift)).toNat = v.toNat / 2 ^ shift % 2 ^ n * 2 ^ shift := by
  have hmask : v &&& (BitVec.ofNat w (2 ^ n - 1) <<< shift) =
      ((v >>> shift) &&& BitVec.ofNat w (2 ^ n - 1)) <<< shift := by
    apply eq_of_getLsbD_eq
    intro i hi
    simp only [getLsbD_and, getLsbD_shiftLeft, getLsbD_ushiftRight,
      getLsbD_ofNat, Nat.testBit_two_pow_sub_one, hi]
    by_cases his : i < shift
    · simp [his]
    · simp [his, show i - shift < w by omega, show shift + (i - shift) = i by omega]
  have hlt : v.toNat / 2 ^ shift % 2 ^ n * 2 ^ shift < 2 ^ w := by
    calc v.toNat / 2 ^ shift % 2 ^ n * 2 ^ shift < 2 ^ n * 2 ^ shift :=
          Nat.mul_lt_mul_of_pos_right (Nat.mod_lt _ (Nat.two_pow_pos n)) (Nat.two_pow_pos shift)
      _ = 2 ^ (n + shift) := (Nat.pow_add 2 n shift).symm
      _ ≤ 2 ^ w := Nat.pow_le_pow_right (by decide) (by omega)
  have hfield : ((v >>> shift) &&& BitVec.ofNat w (2 ^ n - 1)).toNat = v.toNat / 2 ^ shift % 2 ^ n := by
    have hn : 2 ^ n - 1 < 2 ^ w :=
      Nat.lt_of_lt_of_le (Nat.sub_lt (Nat.two_pow_pos n) (by decide)) (Nat.pow_le_pow_right (by decide) (by omega))
    rw [toNat_and, toNat_ushiftRight, toNat_ofNat, Nat.mod_eq_of_lt hn,
      Nat.and_two_pow_sub_one_eq_mod, Nat.shiftRight_eq_div_pow]
  rw [hmask, toNat_shiftLeft, hfield, Nat.shiftLeft_eq, Nat.mod_eq_of_lt hlt]

theorem toNat_or_of_lt {a b : BitVec w} {n : Nat} (ha : a.toNat % 2 ^ n = 0) (hb : b.toNat < 2 ^ n) :
    (a ||| b).toNat = a.toNat + b.toNat := by
  have hsplit : a.toNat = 2 ^ n * (a.toNat / 2 ^ n) := by
    have := Nat.div_add_mod a.toNat (2 ^ n)
    omega
  rw [toNat_or, hsplit, ← Nat.two_pow_add_eq_or_of_lt hb]

/-- Bits put before others. -/
theorem toNat_append_eq {n k : Nat} (a : BitVec n) (b : BitVec k) :
    (a ++ b).toNat = a.toNat * 2 ^ k + b.toNat := by
  rw [toNat_append, ← Nat.shiftLeft_add_eq_or_of_lt b.isLt, Nat.shiftLeft_eq]

theorem append_eq_zero_iff {n k : Nat} {a : BitVec n} {b : BitVec k} : a ++ b = 0 ↔ a = 0 ∧ b = 0 := by
  simp only [← toNat_inj, toNat_append_eq, ofNat_eq_ofNat, toNat_ofNat, Nat.zero_mod,
    Nat.add_eq_zero_iff, Nat.mul_eq_zero]
  omega

theorem extractLsb_add {w : Nat} (v : BitVec w) (lo n k : Nat) :
    v.extractLsb' lo (n + k) = v.extractLsb' (lo + k) n ++ v.extractLsb' lo k := by
  apply eq_of_getLsbD_eq
  intro i hi
  simp only [getLsbD_extractLsb', getLsbD_append, hi, decide_true, Bool.true_and]
  by_cases hik : i < k
  · simp [hik]
  · simp [hik, show i - k < n by omega, show lo + k + (i - k) = lo + i by omega]

theorem extractLsb_eq_zero_iff {w : Nat} (v : BitVec w) (lo n k : Nat) :
    v.extractLsb' lo (n + k) = 0 ↔ v.extractLsb' (lo + k) n = 0 ∧ v.extractLsb' lo k = 0 := by
  rw [extractLsb_add, append_eq_zero_iff]

/-- A field and the bits below it are determined by their sum. -/
theorem mul_add_inj {a b r s k : Nat} (hr : r < k) (hs : s < k) : a * k + r = b * k + s ↔ a = b ∧ r = s := by
  constructor
  · intro h
    have hdiv (c : Nat) {t : Nat} (ht : t < k) : (c * k + t) / k = c := by
      rw [Nat.mul_comm, Nat.mul_add_div (by omega), Nat.div_eq_of_lt ht, Nat.add_zero]
    have hab : a = b := by rw [← hdiv a hr, h, hdiv b hs]
    rw [hab] at h
    exact ⟨hab, Nat.add_left_cancel h⟩
  · rintro ⟨rfl, rfl⟩
    rfl

end Bits
