import MachineEmulator.Interpret.PageTables
import MachineEmulator.Lib.Sv

/-!
# Address translation

The walk of the page tables against the privileged architecture (`Sv.translate`). Both are executable; the code
works with masks and shifts of words, the architecture with numbers and fields.

* `ptePpn_toNat`, `pteXwr_eq` : the fields of an entry;
* `leafAllows_eq` : the checks of a leaf;
* `findLeaf_eq_walk` : the walk;
* `translate_eq_sv` : translations in the modes that are supported. `Sv57` is not: its addresses all fault.
-/

namespace MachineEmulator.Interpret

open Sv Nat Entry

variable {fuel : Nat} {m : RunState}

/-! ## Fields -/

theorem ptePpn_toNat (pte : Word) : (ptePpn pte).toNat = pte.toNat / 2 ^ 10 % 2 ^ 44 * 2 ^ 12 := by
  have hfield : (pte &&& ptePpnMask).toNat = pte.toNat / 2 ^ 10 % 2 ^ 44 * 2 ^ 10 :=
    toNat_and_fieldMask pte (by decide)
  rw [ptePpn, BitVec.toNat_shiftLeft, hfield, Nat.shiftLeft_eq]
  omega

theorem getLsbD_toNat (w : Word) (k : Nat) : (w.getLsbD k).toNat = w.toNat / 2 ^ k % 2 :=
  toNat_testBit w.toNat k

theorem pteXwr_eq (pte : Word) : pteXwr pte =
    BitVec.ofNat 64 ((pte.getLsbD 1).toNat + 2 * (pte.getLsbD 2).toNat + 4 * (pte.getLsbD 3).toNat) := by
  apply BitVec.eq_of_toNat_eq
  have hbits : (pteXwr pte).toNat = pte.toNat / 2 % 8 := by
    rw [pteXwr, BitVec.toNat_and, BitVec.toNat_ushiftRight, shiftRight_eq_div_pow]
    exact and_two_pow_sub_one_eq_mod _ 3
  rw [hbits, BitVec.toNat_ofNat, getLsbD_toNat, getLsbD_toNat, getLsbD_toNat]
  omega

theorem reserved_iff (pte : Word) :
    pte &&& (pte6054Mask ||| ptePbmtMask ||| pteNMask) = 0 ↔ pte.toNat / 2 ^ 54 = 0 := by
  have hmask : pte6054Mask ||| ptePbmtMask ||| pteNMask = fieldMask 10 54 := by decide
  have hfield : (pte &&& fieldMask 10 54).toNat = pte.toNat / 2 ^ 54 % 2 ^ 10 * 2 ^ 54 :=
    toNat_and_fieldMask pte (by decide)
  rw [hmask, ← BitVec.toNat_inj, hfield]
  show _ = 0 ↔ _
  omega

/-! ## Leaves -/

/-- The access as the architecture names it. -/
def Xwr.access : Xwr → Sv.Access
  | .read => .load
  | .write => .store
  | .execute => .fetch

/-- What permissions depend on, from the registers. -/
def svContext (prv mstatus : Word) : Sv.Context := ⟨prv == prvS, mstatus.getLsbD 18, mstatus.getLsbD 19⟩

theorem xwr_reserved : ∀ r w x : Bool, let bits := BitVec.ofNat 64 (r.toNat + 2 * w.toNat + 4 * x.toNat)
    (bits = pteXwrWMask ∨ bits = pteXwrWMask ||| pteXwrXMask) ↔ (!r && w) = true := by
  decide

theorem xwr_none : ∀ r w x : Bool, BitVec.ofNat 64 (r.toNat + 2 * w.toNat + 4 * x.toNat) = 0 ↔
    (r || w || x) = false := by
  decide

theorem xwr_allows (xwr : Xwr) (e : Entry) (c : Context) :
    let bits := BitVec.ofNat 64 (e.r.toNat + 2 * e.w.toNat + 4 * e.x.toNat)
    ((if c.mxr then bits ||| (bits >>> pteXwrXShift) else bits) >>> xwr.shift) &&& 1 = 0 ↔
      e.forAccess c xwr.access = false := by
  have hall : ∀ r w x mxr : Bool, let bits := BitVec.ofNat 64 (r.toNat + 2 * w.toNat + 4 * x.toNat)
      let shown := if mxr then bits ||| (bits >>> pteXwrXShift) else bits
      (shown >>> Xwr.read.shift &&& 1 = 0 ↔ (r || (mxr && x)) = false) ∧
      (shown >>> Xwr.write.shift &&& 1 = 0 ↔ w = false) ∧ (shown >>> Xwr.execute.shift &&& 1 = 0 ↔ x = false) := by
    decide
  obtain ⟨hread, hwrite, hexecute⟩ := hall e.r e.w e.x c.mxr
  cases xwr with
  | read => exact hread
  | write => exact hwrite
  | execute => exact hexecute

theorem forMode_iff (prv mstatus pte : Word) (xwr : Xwr) :
    (Entry.decode pte).forMode (svContext prv mstatus) xwr.access = false ↔
      (prv = prvS ∧ pte &&& pteUMask ≠ 0 ∧ xwr = .execute) ∨
      (prv = prvS ∧ pte &&& pteUMask ≠ 0 ∧ mstatus &&& mstatusSumMask = 0) ∨
      (prv ≠ prvS ∧ pte &&& pteUMask = 0) := by
  have hu : pte &&& pteUMask ≠ 0 ↔ (Entry.decode pte).u = true := Bits.and_twoPow_ne_zero (k := 4) pte
  have hsum : mstatus &&& mstatusSumMask ≠ 0 ↔ (svContext prv mstatus).sum = true :=
    Bits.and_twoPow_ne_zero (k := 18) mstatus
  have hu' : pte &&& pteUMask = 0 ↔ (Sv.Entry.decode pte).u = false := by rw [← Bool.not_eq_true, ← hu, not_not]
  have hsum' : mstatus &&& mstatusSumMask = 0 ↔ (svContext prv mstatus).sum = false := by
    rw [← Bool.not_eq_true, ← hsum, not_not]
  rw [hu, hu', hsum', Sv.Entry.forMode]
  by_cases hprv : prv = prvS
  · have hsup : (svContext prv mstatus).supervisor = true := by simp [svContext, hprv]
    rw [if_pos hsup]
    simp only [hprv, true_and, ne_eq, not_true_eq_false, false_and, or_false]
    generalize (Entry.decode pte).u = u
    generalize (svContext prvS mstatus).sum = sum
    cases xwr <;> cases u <;> cases sum <;> decide
  · have hsup : (svContext prv mstatus).supervisor = false := by simp [svContext, hprv]
    simp [hsup, hprv]

theorem leafAllows_eq (prv mstatus pte : Word) (xwr : Xwr) (vaddrMask : Word) :
    let e := Sv.Entry.decode pte
    leafAllows prv mstatus pte xwr vaddrMask = (!(!e.r && e.w) && e.forMode (svContext prv mstatus) xwr.access &&
      e.forAccess (svContext prv mstatus) xwr.access && decide (ptePpn pte &&& vaddrMask = 0)) := by
  intro e
  have hbits : pteXwr pte = BitVec.ofNat 64 (e.r.toNat + 2 * e.w.toNat + 4 * e.x.toNat) := pteXwr_eq pte
  have hmxr : mstatus &&& mstatusMxrMask ≠ 0 ↔ (svContext prv mstatus).mxr = true :=
    Bits.and_twoPow_ne_zero (k := 19) mstatus
  have hmode := forMode_iff prv mstatus pte xwr
  unfold leafAllows
  simp only [hbits, hmxr, xwr_reserved, xwr_allows]
  by_cases hres : (!e.r && e.w) = true
  · simp [hres]
  · rw [if_neg hres]
    cases hfor : e.forMode (svContext prv mstatus) xwr.access with
    | false =>
      simp only [Bool.and_false, Bool.false_and]
      split_ifs with h1 h2 h3
      · rfl
      · rfl
      · rfl
      · exact absurd (hmode.mp hfor) (not_or.mpr ⟨h1, not_or.mpr ⟨h2, h3⟩⟩)
      · exact absurd (hmode.mp hfor) (not_or.mpr ⟨h1, not_or.mpr ⟨h2, h3⟩⟩)
    | true =>
      have hmode' := hmode.not.mp (by simp [e, hfor])
      simp only [not_or] at hmode'
      rw [if_neg hmode'.1, if_neg hmode'.2.1, if_neg hmode'.2.2]
      cases e.forAccess (svContext prv mstatus) xwr.access with
      | false => simp
      | true => simp [hres]

/-! ## Addresses -/

theorem pteAddr_eq (pteBase vaddr : Word) (i : Nat) :
    BitVec.ofNat 64 (pteBase.toNat + Sv.vpn vaddr.toNat i * 8) =
      pteBase + (((vaddr >>> (log2PageSize + log2VpnSize * i)) &&& vpnMask) <<< log2PteSize) := by
  have hvpn : ((vaddr >>> (log2PageSize + log2VpnSize * i)) &&& vpnMask).toNat = Sv.vpn vaddr.toNat i := by
    have hfield : (((vaddr >>> (log2PageSize + log2VpnSize * i)) &&& vpnMask)).toNat = _ :=
      toNat_and_fieldMask _ (by decide)
    rw [hfield, BitVec.toNat_ushiftRight, shiftRight_eq_div_pow]
    simp [vpn, log2PageSize, log2VpnSize]
  apply BitVec.eq_of_toNat_eq
  rw [BitVec.toNat_ofNat, BitVec.toNat_add, BitVec.toNat_shiftLeft, hvpn, Nat.shiftLeft_eq, log2PteSize]
  omega

section Address
variable {i : Nat} (hi : i < 5)
include hi

theorem vaddrMask_eq : ((1 <<< (log2PageSize + log2VpnSize * i) - 1 : Word)) =
    BitVec.ofNat 64 (2 ^ (12 + 9 * i) - 1) := by
  have hpow : 2 ^ (12 + 9 * i) < 2 ^ 64 := Nat.pow_lt_pow_right (by decide) (by omega)
  rw [one_shiftLeft]
  apply BitVec.eq_of_toNat_eq
  show (BitVec.ofNat 64 (2 ^ (12 + 9 * i)) - 1#64).toNat = (BitVec.ofNat 64 (2 ^ (12 + 9 * i) - 1)).toNat
  have hpos : 0 < 2 ^ (12 + 9 * i) := Nat.two_pow_pos _
  rw [BitVec.toNat_sub, BitVec.toNat_ofNat, BitVec.toNat_ofNat, BitVec.toNat_ofNat, mod_eq_of_lt hpow]
  omega

theorem mask_lt : 2 ^ (12 + 9 * i) - 1 < 2 ^ 64 :=
  Nat.lt_of_le_of_lt (sub_le _ _) (Nat.pow_lt_pow_right (by decide) (by omega))

theorem ptePpn_aligned_iff (pte : Word) :
    ptePpn pte &&& BitVec.ofNat 64 (2 ^ (12 + 9 * i) - 1) = 0 ↔ (decode pte).ppn % 2 ^ (9 * i) = 0 := by
  rw [← BitVec.toNat_inj, BitVec.toNat_and, BitVec.toNat_ofNat, mod_eq_of_lt (mask_lt hi),
    and_two_pow_sub_one_eq_mod, ptePpn_toNat, Nat.mul_comm, Nat.pow_add, mul_mod_mul_left]
  show 2 ^ 12 * ((decode pte).ppn % 2 ^ (9 * i)) = 0 ↔ _
  omega

theorem leaf_paddr_toNat (addr pte vaddr : Word) :
    (PteLeaf.paddr ⟨addr, pte, BitVec.ofNat 64 (2 ^ (12 + 9 * i) - 1)⟩ vaddr).toNat =
      (decode pte).address vaddr.toNat i := by
  have hoffset : vaddr.toNat % 2 ^ (12 + 9 * i) < 2 ^ (12 + 9 * i) := mod_lt _ (Nat.two_pow_pos _)
  have hppn : (ptePpn pte).toNat / 2 ^ (12 + 9 * i) = (decode pte).ppn / 2 ^ (9 * i) := by
    rw [ptePpn_toNat, Nat.mul_comm, Nat.pow_add, Nat.mul_div_mul_left _ _ (by decide)]
    rfl
  rw [PteLeaf.paddr, BitVec.toNat_or, BitVec.toNat_and, BitVec.toNat_ofNat, mod_eq_of_lt (mask_lt hi),
    and_two_pow_sub_one_eq_mod, toNat_and_not_mask, hppn, Nat.or_comm,
    ← two_pow_add_eq_or_of_lt hoffset, address, Nat.mul_comm]

end Address

/-! ## The walk -/

theorem findLeaf_eq_walk (ram : Word → Option Word) (prv mstatus vaddr : Word) (xwr : Xwr) {levels : Nat}
    (hlevels : levels ≤ 5) (pteBase : Word) :
    ((findLeaf ram vaddr levels pteBase).filter fun leaf => leafAllows prv mstatus leaf.pte xwr leaf.vaddrMask).map
        (fun leaf => (leaf.paddr vaddr).toNat) =
      Sv.walk (fun a => ram (BitVec.ofNat 64 a)) (svContext prv mstatus) xwr.access vaddr.toNat levels
        pteBase.toNat := by
  induction levels generalizing pteBase with
  | zero => rfl
  | succ i ih =>
    rw [findLeaf, Sv.walk, pteAddr_eq]
    cases ram (pteBase + (((vaddr >>> (log2PageSize + log2VpnSize * i)) &&& vpnMask) <<< log2PteSize)) with
    | none => rfl
    | some pte =>
      dsimp only
      have hv : pte &&& pteVMask ≠ 0 ↔ (Sv.Entry.decode pte).v = true := Bits.and_twoPow_ne_zero (k := 0) pte
      have hreserved := reserved_iff pte
      have hxwr : pteXwr pte = 0 ↔
          ((Sv.Entry.decode pte).r || (Sv.Entry.decode pte).w || (Sv.Entry.decode pte).x) = false := by
        rw [pteXwr_eq]
        exact xwr_none _ _ _
      by_cases hvalid : pte &&& pteVMask = 0
      · have hno : (Sv.Entry.decode pte).v = false := by simpa using hv.not.mp (not_not.mpr hvalid)
        simp [hvalid, Sv.Entry.valid, hno]
      by_cases hclear : pte &&& (pte6054Mask ||| ptePbmtMask ||| pteNMask) = 0
      swap
      · have hno : (Sv.Entry.decode pte).reserved ≠ 0 := fun h => hclear (hreserved.mpr h)
        rw [if_neg hvalid, if_pos hclear]
        simp [Sv.Entry.valid, hno]
      have hreserved' : (Sv.Entry.decode pte).reserved = 0 := hreserved.mp hclear
      rw [if_neg hvalid, if_neg (not_not.mpr hclear)]
      by_cases hpointer : pteXwr pte = 0
      · -- a pointer to the next table
        have hnone := hxwr.mp hpointer
        simp only [Bool.or_eq_false_iff] at hnone
        have hbase : (ptePpn pte).toNat = (Sv.Entry.decode pte).ppn * 2 ^ 12 := ptePpn_toNat pte
        simp only [if_pos hpointer, Sv.Entry.valid, Sv.Entry.leaf, hnone, hv.mp hvalid, hreserved',
          ih (by omega) (ptePpn pte), hbase]
        rfl
      · -- a leaf
        rw [if_neg hpointer, vaddrMask_eq (by omega)]
        simp only [Option.filter_some, leafAllows_eq, ptePpn_aligned_iff (show i < 5 by omega), Sv.Entry.valid,
          hv.mp hvalid, hreserved', Bool.true_and, beq_self_eq_true, Bool.and_true, Bool.not_not]
        cases hbad : !(Sv.Entry.decode pte).r && (Sv.Entry.decode pte).w with
        | true => simp
        | false =>
          have hleaf : (Sv.Entry.decode pte).leaf = true := by
            have hany := hxwr.not.mp hpointer
            unfold Sv.Entry.leaf
            generalize (Sv.Entry.decode pte).r = r at hany hbad ⊢
            generalize (Sv.Entry.decode pte).w = w at hany hbad
            generalize (Sv.Entry.decode pte).x = x at hany ⊢
            revert r w x
            decide
          simp only [hleaf, Bool.not_false, Bool.true_and, Bool.false_eq_true, if_false, if_true]
          rw [← leaf_paddr_toNat (show i < 5 by omega), beq_eq_decide]
          split_ifs <;> rfl

/-! ## Translations -/

theorem getLsbD_signExtended {b : Nat} (hb : b < 64) (vaddr : Word) {k : Nat} (hk : k < 64) :
    ((vaddr <<< b).sshiftRight b).getLsbD k = if b + k < 64 then vaddr.getLsbD k else vaddr.getLsbD (63 - b) := by
  rw [BitVec.getLsbD_sshiftRight, BitVec.msb_eq_getLsbD_last, BitVec.getLsbD_shiftLeft, BitVec.getLsbD_shiftLeft]
  have h1 : ¬ 64 ≤ k := by omega
  have h2 : ¬ 64 - 1 < b := by omega
  split_ifs with h
  · simp [h1, h]
  · simp [h1, h2]

theorem isCanonical_eq {levels : Nat} (hlevels : levels ≤ 5) (vaddr : Word) :
    isCanonical vaddr levels = decide (Canonical levels vaddr) := by
  have hb : 64 - (log2PageSize + levels * log2VpnSize) < 64 := by simp only [log2PageSize]; omega
  have htop : 63 - (64 - (log2PageSize + levels * log2VpnSize)) = 11 + 9 * levels := by
    simp only [log2PageSize, log2VpnSize]
    omega
  have hlow : ∀ k, 64 - (log2PageSize + levels * log2VpnSize) + k < 64 ↔ k < 12 + 9 * levels := by
    intro k
    omega
  rw [Bool.eq_iff_iff, isCanonical, beq_iff_eq, decide_eq_true_iff]
  constructor
  · intro h k hk hle
    have hbit := congrArg (·.getLsbD k) h
    simp only [getLsbD_signExtended hb vaddr hk, htop, hlow, if_neg (Nat.not_lt.mpr hle)] at hbit
    exact hbit.symm
  · intro h
    apply BitVec.eq_of_getLsbD_eq
    intro k hk
    rw [getLsbD_signExtended hb vaddr hk, htop]
    split_ifs with hlt
    · rfl
    · exact (h k hk (Nat.not_lt.mp fun h => hlt ((hlow k).mpr h))).symm

theorem satpMode_toNat (satp : Word) : (satp >>> satpModeShift).toNat = satpMode satp := by
  rw [BitVec.toNat_ushiftRight, shiftRight_eq_div_pow]
  rfl

theorem satpLevels_eq {satp : Word} (h : satpMode satp ≠ 10) :
    satpLevels (satp >>> satpModeShift) = levels (satpMode satp) := by
  have h39 : satp >>> satpModeShift = satpModeSv39 ↔ satpMode satp = 8 := by
    rw [← BitVec.toNat_inj, satpMode_toNat]
    rfl
  have h48 : satp >>> satpModeShift = satpModeSv48 ↔ satpMode satp = 9 := by
    rw [← BitVec.toNat_inj, satpMode_toNat]
    rfl
  unfold satpLevels
  simp only [h39, h48]
  split_ifs with h8 h9
  · rw [h8]
    rfl
  · rw [h9]
    rfl
  · unfold levels
    split <;> first | rfl | contradiction

theorem levels_le {mode n : Nat} (h : levels mode = some n) : n ≤ 5 := by
  unfold levels at h
  split at h <;> cases h <;> decide

theorem accessPrv_toNat (regs : Reg → Word) (xwr : Xwr) :
    (accessPrv regs xwr).toNat = Sv.effectivePrv (regs .iprv).toNat (regs .mstatus) xwr.access := by
  have hmprv : regs .mstatus &&& mstatusMprvMask ≠ 0 ↔ (regs .mstatus).getLsbD 17 = true :=
    Bits.and_twoPow_ne_zero (k := 17) _
  have hmpp : ((regs .mstatus &&& mstatusMppMask) >>> mstatusMppShift).toNat = (regs .mstatus).toNat / 2 ^ 11 % 4 := by
    have hfield : (regs .mstatus &&& mstatusMppMask).toNat = (regs .mstatus).toNat / 2 ^ 11 % 2 ^ 2 * 2 ^ 11 :=
      toNat_and_fieldMask _ (by decide)
    rw [BitVec.toNat_ushiftRight, shiftRight_eq_div_pow, hfield]
    exact Nat.mul_div_cancel _ (by decide)
  have hfetch : xwr.access ≠ .fetch ↔ xwr ≠ .execute := by cases xwr <;> decide
  unfold accessPrv effectivePrv Sv.effectivePrv
  simp only [hfetch]
  by_cases hx : xwr ≠ .execute
  · by_cases hset : (regs .mstatus).getLsbD 17 = true
    · rw [if_pos hx, if_pos (hmprv.mpr hset), if_pos ⟨hx, hset⟩, hmpp]
    · rw [if_pos hx, if_neg fun h => hset (hmprv.mp h), if_neg fun h => hset h.2]
  · rw [if_neg hx, if_neg fun h => hx h.1]

theorem isBare_iff (regs : Reg → Word) (xwr : Xwr) :
    IsBare regs xwr ↔ ¬ Sv.Active (regs .iprv).toNat (regs .mstatus) (regs .satp) xwr.access := by
  have hprv : prvS < accessPrv regs xwr ↔ 1 < Sv.effectivePrv (regs .iprv).toNat (regs .mstatus) xwr.access := by
    rw [BitVec.lt_def, accessPrv_toNat]
    rfl
  have hmode : regs .satp >>> satpModeShift = satpModeBare ↔ Sv.satpMode (regs .satp) = 0 := by
    rw [← BitVec.toNat_inj, satpMode_toNat]
    rfl
  rw [IsBare, hprv, hmode, Sv.Active, not_and_or, not_not, Nat.not_le]

/-- The translation of the architecture, for the registers and the memory of a machine. -/
def RunState.svTranslate (m : RunState) (vaddr : Word) (xwr : Xwr) : Option Nat :=
  Sv.translate (fun a => m.ramWord (BitVec.ofNat 64 a)) (m.s.regs .iprv).toNat (m.s.regs .mstatus)
    (m.s.regs .satp) xwr.access vaddr

theorem translate_eq_svTranslate {vaddr : Word} {xwr : Xwr} (hmode : Sv.satpMode (m.s.regs .satp) ≠ 10) :
    (m.translate vaddr xwr).map BitVec.toNat = m.svTranslate vaddr xwr := by
  have hbase : ((m.s.regs .satp &&& satpPpnMask) <<< log2PageSize).toNat = Sv.satpPpn (m.s.regs .satp) * 2 ^ 12 := by
    have hfield : (m.s.regs .satp &&& satpPpnMask).toNat = (m.s.regs .satp).toNat / 2 ^ 0 % 2 ^ 44 * 2 ^ 0 :=
      toNat_and_fieldMask _ (by decide)
    rw [BitVec.toNat_shiftLeft, hfield, Nat.shiftLeft_eq, Sv.satpPpn, log2PageSize]
    omega
  have hcontext : svContext (accessPrv m.s.regs xwr) (m.s.regs .mstatus) =
      ⟨Sv.effectivePrv (m.s.regs .iprv).toNat (m.s.regs .mstatus) xwr.access == 1, (m.s.regs .mstatus).getLsbD 18,
        (m.s.regs .mstatus).getLsbD 19⟩ := by
    have hprv : (accessPrv m.s.regs xwr == prvS) =
        (Sv.effectivePrv (m.s.regs .iprv).toNat (m.s.regs .mstatus) xwr.access == 1) := by
      rw [Bool.eq_iff_iff, beq_iff_eq, beq_iff_eq, ← accessPrv_toNat, ← BitVec.toNat_inj]
      rfl
    rw [svContext, hprv]
  unfold RunState.translate RunState.svTranslate Sv.translate
  by_cases hbare : IsBare m.s.regs xwr
  · rw [if_pos hbare, if_neg ((isBare_iff _ _).mp hbare)]
    rfl
  · rw [if_neg hbare, if_pos (not_not.mp ((isBare_iff _ _).not.mp hbare)), RunState.findLeafFor, satpLevels_eq hmode]
    cases hlevels : Sv.levels (Sv.satpMode (m.s.regs .satp)) with
    | none => rfl
    | some levels =>
      dsimp only
      rw [isCanonical_eq (levels_le hlevels)]
      by_cases hcan : Sv.Canonical levels vaddr
      · rw [if_pos (decide_eq_true hcan), if_pos hcan, ← hcontext, ← hbase,
          ← findLeaf_eq_walk _ _ _ _ _ (levels_le hlevels), Option.map_map]
        rfl
      · rw [if_neg (by simpa using hcan), if_neg hcan]
        rfl

/-- A translation returns, and with `updatePte` off it gives the same answer and changes nothing. In the modes
that are supported, which `Sv57` is not, the answer is that of the architecture; in the mode `Sv57` every
address that is translated faults. -/
theorem translate_eq_sv (fuel : Nat) (m : RunState) (hends : m.TableEnds) (vaddr : Word) (xwr : Xwr) :
    ∃ r m', (translateVirtualAddress true vaddr xwr).run (stateAccess fuel) m = .ok r m' ∧
      (translateVirtualAddress false vaddr xwr).run (stateAccess fuel) m = .ok r m ∧
      (Sv.satpMode (m.s.regs .satp) ≠ 10 → r.map BitVec.toNat = m.svTranslate vaddr xwr) ∧
      (Sv.satpMode (m.s.regs .satp) = 10 →
        r = if Sv.Active (m.s.regs .iprv).toNat (m.s.regs .mstatus) (m.s.regs .satp) xwr.access then none
          else some vaddr) := by
  refine ⟨_, _, run_translateVirtualAddress hends true vaddr xwr, run_translateVirtualAddress hends false vaddr xwr,
    translate_eq_svTranslate, fun hmode => ?_⟩
  have hlevels : satpLevels (m.s.regs .satp >>> satpModeShift) = none := by
    have hmode' : m.s.regs .satp >>> satpModeShift = 10 := by
      rw [← BitVec.toNat_inj, satpMode_toNat, hmode]
      rfl
    rw [hmode']
    rfl
  unfold RunState.translate RunState.findLeafFor
  rw [hlevels]
  by_cases hbare : IsBare m.s.regs xwr
  · rw [if_pos hbare, if_neg ((isBare_iff _ _).mp hbare)]
  · rw [if_neg hbare, if_pos (not_not.mp ((isBare_iff _ _).not.mp hbare))]
    rfl

/-- A machine in supervisor mode with a page table at the start of RAM whose first entry is a leaf. -/
def svMachine (mode : Word) : RunState :=
  let m := RunState.small [(.iprv, prvS), (.satp, (mode <<< satpModeShift) ||| (pmaRamStart >>> log2PageSize))]
  m.withState (m.s.setMem (writeBytes m.s.mem pmaRamStart.toNat (toLE 8 0xcf)))

theorem svMachine_ends (mode : Word) : (svMachine mode).TableEnds := by
  have hlen : smallBoard.ranges.length < pmaMax := by decide
  exact hlen

/-- In the mode `Sv57` the architecture maps the address, and the code faults. -/
theorem translate_sv57 : (svMachine 10).svTranslate pmaRamStart .read = some pmaRamStart.toNat ∧
      (translateVirtualAddress true pmaRamStart .read).run (stateAccess 0) (svMachine 10) =
        .ok none (svMachine 10) := by
  have hsv : (svMachine 10).svTranslate pmaRamStart .read = some pmaRamStart.toNat := by decide
  have hnone : (svMachine 10).translate pmaRamStart .read = none := by decide
  have hleaf : (svMachine 10).findLeafFor pmaRamStart .read = none := by decide
  refine ⟨hsv, ?_⟩
  rw [run_translateVirtualAddress (svMachine_ends 10), hnone, if_pos rfl, RunState.translated, hleaf]
  simp

/-- In the mode `Sv48` the address is mapped as in the architecture. -/
theorem translate_sv48 : (svMachine 9).TableEnds ∧ ∃ r m',
      (translateVirtualAddress true pmaRamStart .read).run (stateAccess 0) (svMachine 9) = .ok r m' ∧
      r.map BitVec.toNat = some pmaRamStart.toNat := by
  have hsv : (svMachine 9).svTranslate pmaRamStart .read = some pmaRamStart.toNat := by decide
  have hmode : satpMode ((svMachine 9).s.regs .satp) ≠ 10 := by decide
  obtain ⟨r, m', hrun, -, heq, -⟩ := translate_eq_sv 0 (svMachine 9) (svMachine_ends 9) pmaRamStart .read
  exact ⟨svMachine_ends 9, r, m', hrun, (heq hmode).trans hsv⟩

end MachineEmulator.Interpret
