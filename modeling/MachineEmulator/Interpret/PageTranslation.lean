import MachineEmulator.Interpret.AddressTranslation

/-!
# Translations of the addresses of a page

* `SamePage` : two addresses that differ at most in their offset within a page;
* `findLeafFor_congr` : they have the same leaf;
* `translate_page` : the translation of an address is that of its page and the offset. Pages go to pages
  (`translate_aligned`).
-/

namespace MachineEmulator.Interpret

open BitVec Nat

variable {m : RunState}

/-- The addresses lie in the same page. -/
def SamePage (v w : Word) : Prop := v.toNat / pmaPageSize = w.toNat / pmaPageSize

theorem SamePage.ushiftRight {v w : Word} (h : SamePage v w) (i : Nat) : v >>> (12 + i) = w >>> (12 + i) := by
  refine eq_of_toNat_eq ?_
  rw [toNat_ushiftRight, toNat_ushiftRight, shiftRight_eq_div_pow, shiftRight_eq_div_pow, Nat.pow_add,
    ← Nat.div_div_eq_div_mul, ← Nat.div_div_eq_div_mul]
  exact congrArg (· / 2 ^ i) h

theorem SamePage.getLsbD {v w : Word} (h : SamePage v w) {k : Nat} (hk : 12 ≤ k) : v.getLsbD k = w.getLsbD k := by
  obtain ⟨i, rfl⟩ := Nat.exists_eq_add_of_le hk
  have hbit := congrArg (·.getLsbD 0) (h.ushiftRight i)
  simpa only [getLsbD_ushiftRight, Nat.add_zero] using hbit

theorem findLeaf_congr {v w : Word} (h : SamePage v w) (ram : Word → Option Word) (levels : Nat) (pteBase : Word) :
    findLeaf ram v levels pteBase = findLeaf ram w levels pteBase := by
  induction levels generalizing pteBase with
  | zero => rfl
  | succ i ih =>
    have hvpn : v >>> (log2PageSize + log2VpnSize * i) = w >>> (log2PageSize + log2VpnSize * i) := h.ushiftRight _
    simp [findLeaf, hvpn, ih]

theorem isCanonical_congr {v w : Word} (h : SamePage v w) {levels : Nat} (hpos : 0 < levels) (hle : levels ≤ 5) :
    isCanonical v levels = isCanonical w levels := by
  rw [isCanonical_eq hle, isCanonical_eq hle, decide_eq_decide]
  refine forall₃_congr fun k _ hk => ?_
  rw [h.getLsbD (by omega), h.getLsbD (by omega)]

theorem satpLevels_bounds {mode : Word} {levels : Nat} (h : satpLevels mode = some levels) :
    0 < levels ∧ levels < 5 := by
  unfold satpLevels at h
  split_ifs at h <;> cases h <;> decide

theorem findLeafFor_congr {v w : Word} (h : SamePage v w) (xwr : Xwr) : m.findLeafFor v xwr = m.findLeafFor w xwr := by
  unfold RunState.findLeafFor
  cases hl : satpLevels (m.s.regs .satp >>> satpModeShift) with
  | none => rfl
  | some levels =>
    obtain ⟨hpos, hlt⟩ := satpLevels_bounds hl
    simp only [isCanonical_congr h hpos hlt.le, findLeaf_congr h]

theorem findLeaf_mask {ram : Word → Option Word} {vaddr : Word} {levels : Nat} {pteBase : Word} {leaf : PteLeaf}
    (h : findLeaf ram vaddr levels pteBase = some leaf) :
    ∃ i < levels, leaf.vaddrMask = 1 <<< (log2PageSize + log2VpnSize * i) - 1 := by
  induction levels generalizing pteBase with
  | zero => cases h
  | succ i ih =>
    rw [findLeaf] at h
    split at h
    · cases h
    · split_ifs at h
      · obtain ⟨j, hj, hmask⟩ := ih h
        exact ⟨j, lt_succ_of_lt hj, hmask⟩
      · cases h
        exact ⟨i, lt_succ_self i, rfl⟩

/-- What a leaf gives for an address: its own pages, and the low bits of the address. -/
theorem findLeafFor_paddr {vaddr : Word} {xwr : Xwr} {leaf : PteLeaf} (h : m.findLeafFor vaddr xwr = some leaf) :
    ∃ i < 5, ∃ n, ∀ v : Word, (leaf.paddr v).toNat = n * 2 ^ (12 + 9 * i) + v.toNat % 2 ^ (12 + 9 * i) := by
  obtain ⟨levels, hlevels, -, hleaf, -⟩ := findLeafFor_eq_some.mp h
  obtain ⟨i, hi, hmask⟩ := findLeaf_mask hleaf
  have hi5 : i < 5 := Nat.lt_trans hi (satpLevels_bounds hlevels).2
  refine ⟨i, hi5, (Sv.Entry.decode leaf.pte).ppn / 2 ^ (9 * i), fun v => ?_⟩
  obtain ⟨addr, pte, mask⟩ := leaf
  obtain rfl : mask = BitVec.ofNat 64 (2 ^ (12 + 9 * i) - 1) := hmask.trans (vaddrMask_eq hi5)
  rw [leaf_paddr_toNat hi5]
  rfl

/-! ## Pages and offsets -/

section
variable {page off : Word} (hpage : page.toNat % pmaPageSize = 0) (hoff : off.toNat < pmaPageSize)
include hpage hoff

theorem toNat_page_add : (page + off).toNat = page.toNat + off.toNat := by
  rw [toNat_add]
  simp only [pmaPageSize] at *
  omega

theorem samePage_add : SamePage page (page + off) := by
  rw [SamePage, toNat_page_add hpage hoff]
  simp only [pmaPageSize] at *
  omega

/-- The translation of an address is that of its page, and the offset. -/
theorem translate_page (xwr : Xwr) : m.translate (page + off) xwr = (m.translate page xwr).map (· + off) := by
  unfold RunState.translate
  split_ifs with hbare
  · rfl
  · rw [← findLeafFor_congr (samePage_add hpage hoff)]
    cases hleaf : m.findLeafFor page xwr with
    | none => rfl
    | some leaf =>
      obtain ⟨i, -, n, hn⟩ := findLeafFor_paddr hleaf
      refine congrArg some (eq_of_toNat_eq ?_)
      have hsplit : ∀ x, x % 2 ^ (12 + 9 * i) = x % pmaPageSize + pmaPageSize * (x / pmaPageSize % 2 ^ (9 * i)) := by
        intro x
        rw [Nat.pow_add]
        exact mod_mul
      have hsum : (leaf.paddr (page + off)).toNat = (leaf.paddr page).toNat + off.toNat := by
        rw [hn, hn, hsplit, hsplit, ← samePage_add hpage hoff, toNat_page_add hpage hoff]
        simp only [pmaPageSize] at *
        omega
      rw [toNat_add, ← hsum, mod_eq_of_lt (leaf.paddr (page + off)).isLt]

omit hoff in
theorem translate_aligned {xwr : Xwr} {paddr : Word} (h : m.translate page xwr = some paddr) :
    paddr.toNat % pmaPageSize = 0 := by
  unfold RunState.translate at h
  split at h
  · cases h
    exact hpage
  · obtain ⟨leaf, hleaf, rfl⟩ := Option.map_eq_some_iff.mp h
    obtain ⟨i, -, n, hn⟩ := findLeafFor_paddr hleaf
    rw [hn, Nat.pow_add, mod_mul]
    have hbase : n * (2 ^ 12 * 2 ^ (9 * i)) = pmaPageSize * (n * 2 ^ (9 * i)) := Nat.mul_left_comm _ _ _
    rw [hbase]
    simp only [pmaPageSize] at *
    omega

end

end MachineEmulator.Interpret
