import MachineEmulator.Interpret.Access

/-!
# Exceptions and interrupts

* `raiseException` : a trap into supervisor or machine mode, for an exception or an interrupt;
* `getPendingIrqMask` : the interrupts that are pending and enabled;
* `raiseInterruptIfAny` : the trap into the handler of the interrupt of highest priority.
-/

namespace MachineEmulator.Interpret

abbrev Insn := BitVec 32

def insnIsUncompressed (insn : Insn) : Bool := insn &&& 3 == 3

def setPrv (newPrv : Word) : AProg Unit := do
  write .iprv newPrv
  flushAllTlb
  write .ilrsc (-1)

/-- The value that goes to `mtval` or `stval`: the high bits of a compressed instruction are dropped. -/
def trapValue (cause tval : Word) : Word :=
  if cause = mcauseIllegalInsn ∧ !insnIsUncompressed (tval.setWidth 32) then
    (tval.setWidth 16).setWidth 64
  else tval

/-- `mstatus` when a trap is taken into supervisor mode. -/
def mstatusTrapS (mstatus prv : Word) : Word :=
  let mstatus := (mstatus &&& ~~~mstatusSpieMask) |||
    (((mstatus >>> mstatusSieShift) &&& 1) <<< mstatusSpieShift)
  let mstatus := (mstatus &&& ~~~mstatusSppMask) ||| (prv <<< mstatusSppShift)
  mstatus &&& ~~~mstatusSieMask

/-- `mstatus` when a trap is taken into machine mode. -/
def mstatusTrapM (mstatus prv : Word) : Word :=
  let mstatus := (mstatus &&& ~~~mstatusMpieMask) |||
    (((mstatus >>> mstatusMieShift) &&& 1) <<< mstatusMpieShift)
  let mstatus := (mstatus &&& ~~~mstatusMppMask) ||| (prv <<< mstatusMppShift)
  mstatus &&& ~~~mstatusMieMask

/-- Is the exception or interrupt delegated to supervisor mode? -/
def isDelegated (prv cause : Word) : AProg Bool := do
  if prv ≤ prvS then
    if cause &&& mcauseInterruptFlag ≠ 0 then
      let mideleg ← read .mideleg
      pure ((mideleg >>> (cause &&& 63).toNat) &&& 1 != 0)
    else
      let medeleg ← read .medeleg
      pure ((medeleg >>> (cause &&& 63).toNat) &&& 1 != 0)
  else
    pure false

/-- Raise an exception or an interrupt. The answer is the address of the trap handler. -/
def raiseException (pc cause tval : Word) : AProg Word := do
  let tval := trapValue cause tval
  let prv ← read .iprv
  let deleg ← isDelegated prv cause
  let icycleinstret ← read .icycleinstret
  write .icycleinstret (icycleinstret + 1)
  if deleg then
    write .scause cause
    write .sepc pc
    write .stval tval
    let mstatus ← read .mstatus
    write .mstatus (mstatusTrapS mstatus prv)
    if prv ≠ prvS then
      setPrv prvS
    read .stvec
  else
    write .mcause cause
    write .mepc pc
    write .mtval tval
    let mstatus ← read .mstatus
    write .mstatus (mstatusTrapM mstatus prv)
    if prv ≠ prvM then
      setPrv prvM
    read .mtvec

/-! ## Interrupts -/

/-- The interrupts that the current privilege level enables. -/
def enabledInts (prv : Word) : AProg (BitVec 32) :=
  if prv = prvM then do
    let mstatus ← read .mstatus
    if mstatus &&& mstatusMieMask ≠ 0 then
      let mideleg ← read .mideleg
      pure (~~~(mideleg.setWidth 32))
    else
      pure 0
  else if prv = prvS then do
    let mstatus ← read .mstatus
    if mstatus &&& mstatusSieMask ≠ 0 then
      pure (-1)
    else
      let mideleg ← read .mideleg
      pure (~~~(mideleg.setWidth 32))
  else
    pure (-1)

/-- The mask of the interrupts that are pending and enabled. -/
def getPendingIrqMask : AProg (BitVec 32) := do
  let mip ← read .mip
  let mie ← read .mie
  let pendingInts := (mip &&& mie).setWidth 32
  if pendingInts = 0 then
    pure 0
  else
    let prv ← read .iprv
    let enabled ← enabledInts prv
    pure (pendingInts &&& enabled)

def ilog2 (v : BitVec 32) : Word := BitVec.ofNat 64 v.toNat.log2

/-- Interrupts in decreasing order of priority. -/
def interruptsPriority : List Word :=
  [mipMeipMask, mipMsipMask, mipMtipMask, mipSeipMask, mipSsipMask, mipStipMask]

/-- The number of the interrupt that should be handled first. -/
def getHighestPriorityIrqNum (v : BitVec 32) : Word :=
  match interruptsPriority.find? fun mask => v &&& mask.setWidth 32 ≠ 0 with
  | some mask => ilog2 (mask.setWidth 32)
  | none => ilog2 v

/-- Raise an interrupt if any is enabled and pending. -/
def raiseInterruptIfAny (pc : Word) : AProg Word := do
  let mask ← getPendingIrqMask
  if mask ≠ 0 then
    raiseException pc (getHighestPriorityIrqNum mask ||| mcauseInterruptFlag) 0
  else
    pure pc

/-- At a tick, the timer interrupt becomes pending if the timer has expired. -/
def setRtcInterrupt (mcycle : Word) : AProg Unit := do
  let mtimecmp ← read .clintMtimecmp
  let timecmpCycle := rtcTimeToCycle mtimecmp
  if timecmpCycle ≤ mcycle ∧ timecmpCycle ≠ 0 then
    let mip ← read .mip
    write .mip (mip ||| mipMtipMask)

end MachineEmulator.Interpret
