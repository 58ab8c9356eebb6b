import MachineEmulator.Interpret.CsrEffects

/-!
# The bits of mstatus

What traps, returns and writes do to the bits of `mstatus` that privilege depends on.
-/

namespace MachineEmulator.Interpret

open BitVec

variable {mstatus prv val : Word} {k : Nat}

/-- The bits that the privilege of data accesses depends on: `MPP`, `MPRV`, `SUM` and `MXR`. -/
def prvBits : List Nat := [11, 12, 17, 18, 19]

/-- The privilege level with these two bits. -/
def prvOfBits (b0 b1 : Bool) : Word := BitVec.ofNat 64 (b0.toNat + 2 * b1.toNat)

theorem getLsbD_prvOfBits (b0 b1 : Bool) :
    (prvOfBits b0 b1).getLsbD k = if k = 0 then b0 else if k = 1 then b1 else false := by
  rw [prvOfBits, getLsbD_ofNat]
  match k with
  | 0 => cases b0 <;> cases b1 <;> decide
  | 1 => cases b0 <;> cases b1 <;> decide
  | k + 2 =>
    have hlt : b0.toNat + 2 * b1.toNat < 2 ^ (k + 2) := by
      have hpow : 2 ^ 2 ≤ 2 ^ (k + 2) := Nat.pow_le_pow_right (by decide) (by omega)
      have h0 := b0.toNat_le
      have h1 := b1.toNat_le
      omega
    simp [Nat.testBit_lt_two_pow hlt]

theorem mstatusMpp_eq (mstatus : Word) :
    mstatusMpp mstatus = prvOfBits (mstatus.getLsbD 11) (mstatus.getLsbD 12) := by
  refine eq_of_getLsbD_eq fun i hi => ?_
  rw [mstatusMpp, getLsbD_ushiftRight, getLsbD_and, mstatusMppMask, getLsbD_fieldMask,
    getLsbD_prvOfBits, mstatusMppShift]
  split_ifs with h0 h1
  · subst h0
    simp
  · subst h1
    simp
  · simp [show ¬ 11 + i < 13 by omega]

/-- The privilege levels that are supported. -/
def PrvSupported (prv : Word) : Prop := prv = prvU ∨ prv = prvS ∨ prv = prvM

theorem PrvSupported.of_mpp (h : mstatusMpp mstatus ≠ prvHS) : PrvSupported (mstatusMpp mstatus) := by
  rw [mstatusMpp_eq] at h ⊢
  generalize mstatus.getLsbD 11 = b0 at h ⊢
  generalize mstatus.getLsbD 12 = b1 at h ⊢
  revert h
  unfold PrvSupported
  cases b0 <;> cases b1 <;> decide

theorem mstatusSpp_eq (mstatus : Word) : mstatusSpp mstatus = prvOfBits (mstatus.getLsbD 8) false := by
  refine eq_of_getLsbD_eq fun i hi => ?_
  rw [mstatusSpp, getLsbD_ushiftRight, getLsbD_and, mstatusSppMask, getLsbD_bitMask,
    getLsbD_prvOfBits, mstatusSppShift]
  split_ifs with h0 h1
  · subst h0
    simp
  · subst h1
    simp
  · simp [show ¬ i = 0 by omega]

theorem mstatusSpp_eq_or (mstatus : Word) : mstatusSpp mstatus = prvU ∨ mstatusSpp mstatus = prvS := by
  rw [mstatusSpp_eq]
  cases mstatus.getLsbD 8 <;> decide

/-! ## Traps -/

theorem getLsbD_mstatusTrapS (hprv : prv = prvU ∨ prv = prvS) (hk : k ∈ prvBits) :
    (mstatusTrapS mstatus prv).getLsbD k = mstatus.getLsbD k := by
  simp only [prvBits, List.mem_cons, List.not_mem_nil, or_false] at hk
  rcases hprv with rfl | rfl <;> rcases hk with rfl | rfl | rfl | rfl | rfl <;>
    simp [mstatusTrapS, mstatusSieMask, mstatusSpieMask, mstatusSppMask, mstatusSieShift, mstatusSpieShift,
      mstatusSppShift, getLsbD_bitMask, prvU, prvS, -getLsbD_eq_getElem]

theorem mstatusMpp_mstatusTrapM (hprv : PrvSupported prv) : mstatusMpp (mstatusTrapM mstatus prv) = prv := by
  rw [mstatusMpp_eq]
  rcases hprv with rfl | rfl | rfl <;>
    simp [mstatusTrapM, mstatusMieMask, mstatusMpieMask, mstatusMppMask, mstatusMieShift, mstatusMpieShift,
      mstatusMppShift, getLsbD_bitMask, getLsbD_fieldMask, prvU, prvS, prvM, prvOfBits,
      -getLsbD_eq_getElem]

theorem mstatusMpp_congr {mstatus' : Word} (h : ∀ k ∈ prvBits, mstatus'.getLsbD k = mstatus.getLsbD k) :
    mstatusMpp mstatus' = mstatusMpp mstatus := by
  rw [mstatusMpp_eq, mstatusMpp_eq, h _ (by decide), h _ (by decide)]

/-! ## Returns -/

theorem getLsbD_mstatusSret (hk : k ∈ [11, 12, 18, 19]) :
    (mstatusSret mstatus).getLsbD k = mstatus.getLsbD k := by
  have hspp : (mstatus &&& mstatusSppMask) >>> mstatusSppShift < prvM := by
    rcases mstatusSpp_eq_or mstatus with h | h <;> rw [mstatusSpp] at h <;> rw [h] <;> decide
  simp only [List.mem_cons, List.not_mem_nil, or_false] at hk
  simp only [mstatusSret, if_pos hspp]
  rcases hk with rfl | rfl | rfl | rfl <;>
    simp [mstatusSieMask, mstatusSpieMask, mstatusSppMask, mstatusMprvMask, mstatusSieShift,
      mstatusSpieShift, mstatusSppShift, getLsbD_bitMask, -getLsbD_eq_getElem]

theorem mstatusMpp_mstatusMret : mstatusMpp (mstatusMret mstatus) = prvU := by
  rw [mstatusMpp_eq]
  unfold mstatusMret
  dsimp only
  split_ifs <;>
    simp [mstatusMieMask, mstatusMpieMask, mstatusMppMask, mstatusMprvMask, mstatusMieShift,
      mstatusMpieShift, mstatusMppShift, getLsbD_bitMask, getLsbD_fieldMask, prvOfBits, prvU,
      -getLsbD_eq_getElem]

/-! ## Writes -/

/-- The written value with a level that is not supported replaced. -/
def legalMpp (val : Word) : Word :=
  if (val &&& mstatusMppMask) >>> mstatusMppShift = prvHS then val &&& ~~~mstatusMppMask else val

theorem getLsbD_mstatusWritten {oldMstatus : Word} (hk : k ∈ prvBits) :
    (mstatusWritten oldMstatus val).getLsbD k = (legalMpp val).getLsbD k := by
  have hmasks : ∀ k ∈ prvBits, mstatusWMask.getLsbD k = true ∧ mstatusFsDirty.getLsbD k = false ∧
      mstatusSdMask.getLsbD k = false ∧ (~~~mstatusSdMask).getLsbD k = true ∧
      (~~~mstatusWMask).getLsbD k = false := by decide
  obtain ⟨hW, hfs, hsd, hnsd, hnW⟩ := hmasks k hk
  unfold mstatusWritten
  dsimp only
  split_ifs <;> simp only [legalMpp, maskedWrite, getLsbD_and, getLsbD_or,
    Bool.and_true, Bool.or_false, Bool.and_false, Bool.false_or, *, if_true, if_false]

theorem mstatusMpp_mstatusWritten {oldMstatus : Word} : mstatusMpp (mstatusWritten oldMstatus val) ≠ prvHS := by
  have hlegal : mstatusMpp (legalMpp val) ≠ prvHS := by
    unfold legalMpp
    split_ifs with h
    · rw [mstatusMpp_eq]
      simp [mstatusMppMask, getLsbD_fieldMask, mstatusMppShift, prvOfBits, prvHS, -getLsbD_eq_getElem]
    · exact h
  rwa [mstatusMpp_congr fun k hk => getLsbD_mstatusWritten hk]

end MachineEmulator.Interpret
