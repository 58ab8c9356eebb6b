import MachineEmulator.Create
import MachineEmulator.Lib.Bits

/-!
# RISC-V constants

Privilege levels, the bits of `mstatus`, `mip`, `satp` and the page-table entries, the causes of
exceptions, the addresses of the control and status registers, and the real-time clock.
-/

namespace MachineEmulator.Interpret

def bitMask (shift : Nat) : Word := 1 <<< shift

/-- The word with `n` bits set from `shift` on. -/
def fieldMask (n shift : Nat) : Word := BitVec.ofNat 64 (2 ^ n - 1) <<< shift

theorem getLsbD_bitMask (shift k : Nat) : (bitMask shift).getLsbD k = decide (k = shift ∧ k < 64) := by
  have hmask : bitMask shift = BitVec.ofNat 64 (2 ^ shift) := by
    rw [bitMask, Nat.one_shiftLeft]
    rfl
  rw [hmask, BitVec.getLsbD_ofNat, Nat.testBit_two_pow, Bool.eq_iff_iff]
  simp only [Bool.and_eq_true, decide_eq_true_eq]
  omega

theorem getLsbD_fieldMask (n shift k : Nat) :
    (fieldMask n shift).getLsbD k = decide (shift ≤ k ∧ k < shift + n ∧ k < 64) := by
  rw [fieldMask, BitVec.getLsbD_shiftLeft, BitVec.getLsbD_ofNat, Nat.testBit_two_pow_sub_one]
  by_cases hk : k < 64
  · by_cases hs : k < shift
    · simp [hk, hs]
    · have h1 : k - shift < 64 := by omega
      have h2 : k - shift < n ↔ k < shift + n := by omega
      simp [hk, hs, h1, h2, show shift ≤ k by omega]
  · simp [hk]

theorem toNat_and_fieldMask (w : Word) {n shift : Nat} (h : shift + n ≤ 64) :
    (w &&& fieldMask n shift).toNat = w.toNat / 2 ^ shift % 2 ^ n * 2 ^ shift :=
  Bits.toNat_and_field w h

/-! ## Privilege levels -/

def prvU : Word := 0
def prvS : Word := 1
def prvHS : Word := 2

/-! ## Interrupts -/

def mipSsipShift : Nat := 1
def mipMsipShift : Nat := 3
def mipStipShift : Nat := 5
def mipMtipShift : Nat := 7
def mipSeipShift : Nat := 9
def mipMeipShift : Nat := 11

def mipSsipMask : Word := bitMask mipSsipShift
def mipMsipMask : Word := bitMask mipMsipShift
def mipStipMask : Word := bitMask mipStipShift
def mipMtipMask : Word := bitMask mipMtipShift
def mipSeipMask : Word := bitMask mipSeipShift
def mipMeipMask : Word := bitMask mipMeipShift

/-! ## Causes -/

def mcauseInsnAccessFault : Word := 0x1
def mcauseIllegalInsn : Word := 0x2
def mcauseBreakpoint : Word := 0x3
def mcauseLoadAddressMisaligned : Word := 0x4
def mcauseLoadAccessFault : Word := 0x5
def mcauseStoreAmoAddressMisaligned : Word := 0x6
def mcauseStoreAmoAccessFault : Word := 0x7
def mcauseEcallBase : Word := 0x8
def mcauseFetchPageFault : Word := 0xc
def mcauseLoadPageFault : Word := 0xd
def mcauseStoreAmoPageFault : Word := 0xf
def mcauseInterruptFlag : Word := bitMask 63

/-- The exceptions that can be delegated: all but a call from machine mode. -/
def medelegWMask : Word := 0xb3ff

/-! ## mstatus -/

def mstatusSieShift : Nat := 1
def mstatusMieShift : Nat := 3
def mstatusSpieShift : Nat := 5
def mstatusMpieShift : Nat := 7
def mstatusSppShift : Nat := 8
def mstatusMppShift : Nat := 11
def mstatusFsShift : Nat := 13

def mstatusSieMask : Word := bitMask mstatusSieShift
def mstatusMieMask : Word := bitMask mstatusMieShift
def mstatusSpieMask : Word := bitMask mstatusSpieShift
def mstatusUbeMask : Word := bitMask 6
def mstatusMpieMask : Word := bitMask mstatusMpieShift
def mstatusSppMask : Word := bitMask mstatusSppShift
def mstatusVsMask : Word := fieldMask 2 9
def mstatusMppMask : Word := fieldMask 2 mstatusMppShift
def mstatusFsMask : Word := fieldMask 2 mstatusFsShift
def mstatusXsMask : Word := fieldMask 2 15
def mstatusMprvMask : Word := bitMask 17
def mstatusSumMask : Word := bitMask 18
def mstatusMxrMask : Word := bitMask 19
def mstatusTvmMask : Word := bitMask 20
def mstatusTwMask : Word := bitMask 21
def mstatusTsrMask : Word := bitMask 22
def mstatusUxlMask : Word := fieldMask 2 32
def mstatusSxlMask : Word := fieldMask 2 34
def mstatusSbeMask : Word := bitMask 36
def mstatusMbeMask : Word := bitMask 37
def mstatusSdMask : Word := bitMask 63

def mstatusFsOff : Word := 0
def mstatusFsDirty : Word := 3 <<< mstatusFsShift

def mstatusWMask : Word :=
  mstatusSieMask ||| mstatusMieMask ||| mstatusSpieMask ||| mstatusMpieMask ||| mstatusSppMask |||
    mstatusMppMask ||| mstatusFsMask ||| mstatusMprvMask ||| mstatusSumMask ||| mstatusMxrMask |||
    mstatusTvmMask ||| mstatusTwMask ||| mstatusTsrMask

def mstatusRMask : Word :=
  mstatusSieMask ||| mstatusMieMask ||| mstatusSpieMask ||| mstatusUbeMask ||| mstatusMpieMask |||
    mstatusSppMask ||| mstatusMppMask ||| mstatusFsMask ||| mstatusVsMask ||| mstatusMprvMask |||
    mstatusSumMask ||| mstatusMxrMask ||| mstatusTvmMask ||| mstatusTwMask ||| mstatusTsrMask |||
    mstatusUxlMask ||| mstatusSxlMask ||| mstatusSbeMask ||| mstatusMbeMask ||| mstatusSdMask

def sstatusWMask : Word :=
  mstatusSieMask ||| mstatusSpieMask ||| mstatusSppMask ||| mstatusFsMask ||| mstatusSumMask |||
    mstatusMxrMask

def sstatusRMask : Word :=
  mstatusSieMask ||| mstatusSpieMask ||| mstatusUbeMask ||| mstatusSppMask ||| mstatusVsMask |||
    mstatusFsMask ||| mstatusXsMask ||| mstatusSumMask ||| mstatusMxrMask ||| mstatusUxlMask |||
    mstatusSdMask

/-! ## satp -/

def satpAsidShift : Nat := 44
def satpModeShift : Nat := 60
/-- No bits of the address space identifier are implemented. -/
def asidLen : Nat := 0
def satpPpnMask : Word := fieldMask 44 0
def satpAsidMask : Word := fieldMask asidLen satpAsidShift
def satpModeMask : Word := fieldMask 4 satpModeShift
def satpModeBare : Word := 0
def satpModeSv39 : Word := 8
def satpModeSv48 : Word := 9

/-! ## Page-table entries -/

def pteVMask : Word := bitMask 0
def pteUMask : Word := bitMask 4
def pteAMask : Word := bitMask 6
def pteDMask : Word := bitMask 7
def ptePpnShift : Nat := 10
def ptePpnMask : Word := fieldMask 44 ptePpnShift
def pte6054Mask : Word := fieldMask 7 54
def ptePbmtMask : Word := fieldMask 2 61
def pteNMask : Word := bitMask 63
def pteXwrWMask : Word := bitMask 1
def pteXwrXMask : Word := bitMask 2

def pteXwrXShift : Nat := 2

def log2PteSize : Nat := 3
def log2VpnSize : Nat := 9
def vpnMask : Word := fieldMask 9 0

/-! ## Other registers -/

def menvcfgWMask : Word := bitMask 0
def menvcfgRMask : Word := bitMask 0
def senvcfgWMask : Word := bitMask 0
def senvcfgRMask : Word := bitMask 0

def fflagsRwMask : Word := 0x1f
def frmRwMask : Word := 0x7
def fcsrFrmShift : Nat := 5
def fcsrFflagsRwMask : Word := fflagsRwMask
def fcsrFrmRwMask : Word := frmRwMask <<< fcsrFrmShift
def fcsrRwMask : Word := fcsrFflagsRwMask ||| fcsrFrmRwMask

def mcounterenCyMask : Word := bitMask 0
def mcounterenTmMask : Word := bitMask 1
def mcounterenIrMask : Word := bitMask 2
def mcounterenRwMask : Word := mcounterenCyMask ||| mcounterenTmMask ||| mcounterenIrMask
def scounterenRwMask : Word := mcounterenRwMask

/-! ## The real-time clock -/

def rtcFreqDiv : Word := 8192
def rtcCyclesPerUs : Word := 128

def rtcCycleToTime (cycle : Word) : Word := cycle / rtcFreqDiv
def rtcTimeToCycle (time : Word) : Word := time * rtcFreqDiv
def rtcIsTick (cycle : Word) : Bool := cycle % rtcFreqDiv == 0

end MachineEmulator.Interpret
