import MachineEmulator.Interpret.Trap

/-!
# Control and status registers

* `readCsr` : the value an instruction reads, or `none` if it may not;
* `writeCsr` : the effect of a write. It tells whether the write failed, and if not, whether the
  interpreter has to drop its fetch translation or to serve interrupts.
-/

namespace MachineEmulator.Interpret

/-- The registers that an instruction can name. -/
inductive Csr where
  | fflags
  | frm
  | fcsr
  | ucycle
  | utime
  | uinstret
  | sstatus
  | sie
  | stvec
  | scounteren
  | senvcfg
  | sscratch
  | sepc
  | scause
  | stval
  | sip
  | satp
  | mvendorid
  | marchid
  | mimpid
  | mstatus
  | misa
  | medeleg
  | mideleg
  | mie
  | mtvec
  | mcounteren
  | menvcfg
  | mscratch
  | mepc
  | mcause
  | mtval
  | mip
  | mcycle
  | minstret
  /-- `mhartid`, `mconfigptr`, `mcountinhibit`, the `mhpm` counters and events and the trigger
  registers: they read as zero and ignore writes. -/
  | hardwired
  deriving DecidableEq, Repr

abbrev CsrAddress := BitVec 12

variable (r : Reg) (mask mcycle : Word) (csraddr : CsrAddress) (val : Word)

def csrAt : Option Csr :=
  match csraddr.toNat with
  | 0x001 => some .fflags
  | 0x002 => some .frm
  | 0x003 => some .fcsr
  | 0xc00 => some .ucycle
  | 0xc01 => some .utime
  | 0xc02 => some .uinstret
  | 0x100 => some .sstatus
  | 0x104 => some .sie
  | 0x105 => some .stvec
  | 0x106 => some .scounteren
  | 0x10a => some .senvcfg
  | 0x140 => some .sscratch
  | 0x141 => some .sepc
  | 0x142 => some .scause
  | 0x143 => some .stval
  | 0x144 => some .sip
  | 0x180 => some .satp
  | 0xf11 => some .mvendorid
  | 0xf12 => some .marchid
  | 0xf13 => some .mimpid
  | 0xf14 => some .hardwired
  | 0xf15 => some .hardwired
  | 0x300 => some .mstatus
  | 0x301 => some .misa
  | 0x302 => some .medeleg
  | 0x303 => some .mideleg
  | 0x304 => some .mie
  | 0x305 => some .mtvec
  | 0x306 => some .mcounteren
  | 0x30a => some .menvcfg
  | 0x340 => some .mscratch
  | 0x341 => some .mepc
  | 0x342 => some .mcause
  | 0x343 => some .mtval
  | 0x344 => some .mip
  | 0xb00 => some .mcycle
  | 0xb02 => some .minstret
  | 0x320 => some .hardwired
  | n =>
    -- mhpmcounter3 to 31, mhpmevent3 to 31, tselect and tdata1 to 3
    if 0xb03 ≤ n ∧ n ≤ 0xb1f ∨ 0x323 ≤ n ∧ n ≤ 0x33f ∨ 0x7a0 ≤ n ∧ n ≤ 0x7a3 then some .hardwired
    else none

def csrIsReadOnly : Bool := csraddr &&& 0xc00 == 0xc00

/-- The privilege level an address belongs to. -/
def csrPrv : Word := ((csraddr >>> 8) &&& 3).setWidth 64

/-! ## Reads -/

/-- The counters of a mask are enabled for the current privilege level. -/
def rdcounteren : AProg Bool := do
  let counteren : Word := 0xffffffff
  let prv ← read .iprv
  let counteren ← (if prv ≤ prvS then do
      let mcounteren ← read .mcounteren
      let counteren := counteren &&& mcounteren
      if prv < prvS then do
        let scounteren ← read .scounteren
        pure (counteren &&& scounteren)
      else pure counteren
    else pure counteren)
  pure (counteren &&& mask == mask)

def fsOff (mstatus : Word) : Bool := mstatus &&& mstatusFsMask == mstatusFsOff

def readCsrCounter (val : AProg Word) : AProg (Option Word) := do
  if ← rdcounteren mask then
    let val ← val
    pure (some val)
  else
    pure none

def readCsrMinstret : AProg Word := do
  let icycleinstret ← read .icycleinstret
  pure (mcycle - icycleinstret)

/-- A part of the floating-point state, which cannot be read while the unit is off. -/
def readCsrFp (f : Word → Word) : AProg (Option Word) := do
  let mstatus ← read .mstatus
  if fsOff mstatus then
    pure none
  else
    let fcsr ← read .fcsr
    pure (some (f fcsr))

def readCsrReg : AProg (Option Word) := do
  let val ← read r
  pure (some val)

/-- The bits of a register that a mask shows. -/
def readCsrMasked : AProg (Option Word) := do
  let val ← read r
  pure (some (val &&& mask))

/-- The interrupts of a register that are delegated. -/
def readCsrDelegated : AProg (Option Word) := do
  let val ← read r
  let mideleg ← read .mideleg
  pure (some (val &&& mideleg))

def readCsrSatp : AProg (Option Word) := do
  let mstatus ← read .mstatus
  let prv ← read .iprv
  if prv = prvS ∧ mstatus &&& mstatusTvmMask ≠ 0 then
    pure none
  else
    readCsrReg .satp

def readCsrShadow (r : ShadowReg) : AProg (Option Word) := do
  let val ← readShadow r
  pure (some val)

def readCsrOf : Csr → AProg (Option Word)
  | .fflags => readCsrFp fun fcsr => fcsr &&& fcsrFflagsRwMask
  | .frm => readCsrFp fun fcsr => (fcsr &&& fcsrFrmRwMask) >>> fcsrFrmShift
  | .fcsr => readCsrFp fun fcsr => fcsr
  | .ucycle => readCsrCounter mcounterenCyMask (pure mcycle)
  | .uinstret => readCsrCounter mcounterenIrMask (readCsrMinstret mcycle)
  | .utime => readCsrCounter mcounterenTmMask (pure (rtcCycleToTime mcycle))
  | .sstatus => readCsrMasked .mstatus sstatusRMask
  | .senvcfg => readCsrMasked .senvcfg senvcfgRMask
  | .sie => readCsrDelegated .mie
  | .stvec => readCsrReg .stvec
  | .scounteren => readCsrReg .scounteren
  | .sscratch => readCsrReg .sscratch
  | .sepc => readCsrReg .sepc
  | .scause => readCsrReg .scause
  | .stval => readCsrReg .stval
  | .sip => readCsrDelegated .mip
  | .satp => readCsrSatp
  | .mstatus => readCsrMasked .mstatus mstatusRMask
  | .menvcfg => readCsrMasked .menvcfg menvcfgRMask
  | .misa => readCsrReg .misa
  | .medeleg => readCsrReg .medeleg
  | .mideleg => readCsrReg .mideleg
  | .mie => readCsrReg .mie
  | .mtvec => readCsrReg .mtvec
  | .mcounteren => readCsrReg .mcounteren
  | .mscratch => readCsrReg .mscratch
  | .mepc => readCsrReg .mepc
  | .mcause => readCsrReg .mcause
  | .mtval => readCsrReg .mtval
  | .mip => readCsrReg .mip
  | .mcycle => pure (some mcycle)
  | .minstret => do
    let minstret ← readCsrMinstret mcycle
    pure (some minstret)
  | .mvendorid => readCsrShadow .mvendorid
  | .marchid => readCsrShadow .marchid
  | .mimpid => readCsrShadow .mimpid
  | .hardwired => pure (some 0)

def readCsr : AProg (Option Word) := do
  let iprv ← read .iprv
  if iprv < csrPrv csraddr then
    pure none
  else
    match csrAt csraddr with
    | some csr => readCsrOf mcycle csr
    | none => pure none

/-! ## Writes -/

/-- The bits of `mask` from `val`, the others from `old`. -/
def maskedWrite (old val mask : Word) : Word := (old &&& ~~~mask) ||| (val &&& mask)

/-- `mstatus` after a write, from its readable bits: only some bits can be written, hypervisor mode is
not supported, and the floating-point state is always dirty when it is on. -/
def mstatusWritten (oldMstatus val : Word) : Word :=
  let val := if (val &&& mstatusMppMask) >>> mstatusMppShift = prvHS then val &&& ~~~mstatusMppMask
    else val
  let mstatus := maskedWrite oldMstatus val mstatusWMask
  if mstatus &&& mstatusFsMask ≠ mstatusFsOff then mstatus ||| mstatusFsDirty ||| mstatusSdMask
  else mstatus &&& ~~~mstatusSdMask

def writeCsrMstatus : AProg ExecuteStatus := do
  let mstatus ← read .mstatus
  let oldMstatus := mstatus &&& mstatusRMask
  let mstatus := mstatusWritten oldMstatus val
  write .mstatus mstatus
  let mod := oldMstatus ^^^ mstatus
  let flushTlbReadWrite : Bool := mod &&& mstatusSumMask ≠ 0 ∨ mod &&& mstatusMprvMask ≠ 0 ∨
    (mstatus &&& mstatusMprvMask ≠ 0 ∧ mod &&& mstatusMppMask ≠ 0)
  if mod &&& mstatusMxrMask ≠ 0 ∨ flushTlbReadWrite then
    flushTlbType .read
  if flushTlbReadWrite then
    flushTlbType .write
  if mod &&& (mstatusSieMask ||| mstatusMieMask) ≠ 0 then
    pure .successAndServeInterrupts
  else
    pure .success

def writeCsrSstatus : AProg ExecuteStatus := do
  let mstatus ← read .mstatus
  writeCsrMstatus (maskedWrite mstatus val sstatusWMask)

/-- The modes of address translation that are supported. -/
def satpModeSupported (mode : Word) : Bool :=
  mode == satpModeBare || mode == satpModeSv39 || mode == satpModeSv48

def writeCsrSatp : AProg ExecuteStatus := do
  let mstatus ← read .mstatus
  let prv ← read .iprv
  if prv = prvS ∧ mstatus &&& mstatusTvmMask ≠ 0 then
    pure .failure
  else
    let oldSatp ← read .satp
    if satpModeSupported (val >>> satpModeShift) then
      let satp := (val &&& satpPpnMask) ||| (val &&& satpAsidMask) ||| (val &&& satpModeMask)
      write .satp satp
      if (oldSatp ^^^ satp) &&& (satpAsidMask ||| satpModeMask) ≠ 0 then
        flushAllTlb
        pure .successAndFlushFetch
      else
        pure .success
    else
      pure .success

/-- A register that takes the value computed from the written one. -/
def writeCsrReg : AProg ExecuteStatus := do
  write r val
  pure .success

/-- A register of which only the bits of `mask` can be written. -/
def writeCsrMasked : AProg ExecuteStatus := do
  let old ← read r
  write r (maskedWrite old val mask)
  pure .success

/-- A register that enables or requests interrupts. -/
def writeCsrInterrupts : AProg ExecuteStatus := do
  let old ← read r
  write r (maskedWrite old val mask)
  pure .successAndServeInterrupts

def writeCsrSie : AProg ExecuteStatus := do
  let mie ← read .mie
  let mask ← read .mideleg
  write .mie (maskedWrite mie val mask)
  pure .successAndServeInterrupts

def writeCsrSip : AProg ExecuteStatus := do
  let mask ← read .mideleg
  let mip ← read .mip
  write .mip (maskedWrite mip val mask)
  pure .successAndServeInterrupts

def writeCsrMenvcfg : AProg ExecuteStatus := do
  let menvcfg ← read .menvcfg
  write .menvcfg (maskedWrite (menvcfg &&& menvcfgRMask) val menvcfgWMask)
  pure .success

/-- The cycle counter will be incremented after the instruction, which is anticipated here. -/
def writeCsrMinstret : AProg ExecuteStatus := do
  write .icycleinstret (mcycle + 1 - val)
  pure .success

/-- A part of the floating-point state, which cannot be written while the unit is off. -/
def writeCsrFp (f : AProg Word) : AProg ExecuteStatus := do
  let mstatus ← read .mstatus
  if fsOff mstatus then
    pure .failure
  else
    let fcsr ← f
    write .fcsr fcsr
    pure .success

def mipSupervisorMask : Word := mipSsipMask ||| mipStipMask ||| mipSeipMask

/-- The interrupts that are implemented. -/
def mieWMask : Word :=
  mipMsipMask ||| mipMtipMask ||| mipMeipMask ||| mipSsipMask ||| mipStipMask ||| mipSeipMask

def writeCsrOf : Csr → AProg ExecuteStatus
  | .fflags => writeCsrFp do
    let fcsr ← read .fcsr
    pure (maskedWrite fcsr val fcsrFflagsRwMask)
  | .frm => writeCsrFp do
    let fcsr ← read .fcsr
    pure (maskedWrite fcsr (val <<< fcsrFrmShift) fcsrFrmRwMask)
  | .fcsr => writeCsrFp (pure (val &&& fcsrRwMask))
  | .sstatus => writeCsrSstatus val
  | .senvcfg => writeCsrMasked .senvcfg senvcfgWMask val
  | .sie => writeCsrSie val
  | .stvec => writeCsrReg .stvec (val &&& ~~~1)
  | .scounteren => writeCsrReg .scounteren (val &&& scounterenRwMask)
  | .sscratch => writeCsrReg .sscratch val
  | .sepc => writeCsrReg .sepc (val &&& ~~~1)
  | .scause => writeCsrReg .scause val
  | .stval => writeCsrReg .stval val
  | .sip => writeCsrSip val
  | .satp => writeCsrSatp val
  | .mstatus => writeCsrMstatus val
  | .menvcfg => writeCsrMenvcfg val
  | .medeleg => writeCsrMasked .medeleg medelegWMask val
  | .mideleg => writeCsrInterrupts .mideleg mipSupervisorMask val
  | .mie => writeCsrInterrupts .mie mieWMask val
  | .mtvec => writeCsrReg .mtvec (val &&& ~~~1)
  | .mcounteren => writeCsrReg .mcounteren (val &&& mcounterenRwMask)
  | .mscratch => writeCsrReg .mscratch val
  | .mepc => writeCsrReg .mepc (val &&& ~~~1)
  | .mcause => writeCsrReg .mcause val
  | .mtval => writeCsrReg .mtval val
  | .mip => writeCsrInterrupts .mip mipSupervisorMask val
  -- the cycle counter measures the progress of the machine and cannot be written
  | .mcycle => pure .failure
  | .minstret => writeCsrMinstret mcycle val
  | .misa | .hardwired => pure .success
  -- the read-only registers never get here
  | .ucycle | .utime | .uinstret | .mvendorid | .marchid | .mimpid => pure .failure

def writeCsr : AProg ExecuteStatus := do
  if csrIsReadOnly csraddr then
    pure .failure
  else
    let iprv ← read .iprv
    if iprv < csrPrv csraddr then
      pure .failure
    else
      match csrAt csraddr with
      | some csr => writeCsrOf mcycle val csr
      | none => pure .failure

end MachineEmulator.Interpret
