import MachineEmulator.Interpret.Trap

/-!
# Devices

The drivers of the clock interruptor (CLINT), the interrupt controller (PLIC) and the host-target
interface (HTIF). A read answers `none` when the driver does not know how to read; a write answers
`failure` when it does not know how to write.
-/

namespace MachineEmulator.Interpret

def setMip (mask : Word) : AProg Unit := do
  let mip ← read .mip
  write .mip (mip ||| mask)

def resetMip (mask : Word) : AProg Unit := do
  let mip ← read .mip
  write .mip (mip &&& ~~~mask)

/-! ## CLINT -/

def clintMsip0RelAddr : Word := 0
def clintMtimecmpRelAddr : Word := 0x4000
def clintMtimeRelAddr : Word := 0xbff8

def clintReadMsip (size : MemSize) : AProg (Option Word) := do
  if size = .u32 then
    let mip ← read .mip
    pure (some (if mip &&& mipMsipMask = mipMsipMask then 1 else 0))
  else
    pure none

def clintReadMtime (mcycle : Word) (size : MemSize) : AProg (Option Word) :=
  if size = .u64 then pure (some (rtcCycleToTime mcycle)) else pure none

def clintReadMtimecmp (size : MemSize) : AProg (Option Word) := do
  if size = .u64 then
    let mtimecmp ← read .clintMtimecmp
    pure (some mtimecmp)
  else
    pure none

def clintRead (mcycle offset : Word) (size : MemSize) : AProg (Option Word) :=
  if offset = clintMsip0RelAddr then clintReadMsip size
  else if offset = clintMtimecmpRelAddr then clintReadMtimecmp size
  else if offset = clintMtimeRelAddr then clintReadMtime mcycle size
  else pure none

def clintWrite (offset val : Word) (size : MemSize) : AProg ExecuteStatus := do
  if offset = clintMsip0RelAddr then
    if size = .u32 then
      if val &&& 1 ≠ 0 then
        setMip mipMsipMask
        pure .successAndServeInterrupts
      else
        resetMip mipMsipMask
        pure .success
    else
      pure .failure
  else if offset = clintMtimecmpRelAddr then
    if size = .u64 then
      write .clintMtimecmp val
      resetMip mipMtipMask
      pure .success
    else
      pure .failure
  else
    pure .failure

/-! ## PLIC -/

def plicPendingRelAddr : Word := 0x1000
def plicEnabledRelAddr : Word := 0x2000
def plicClaimCompleteRelAddr : Word := 0x200004
def plicEnabledIrqMask : Word := 0xfffffffe
def plicLowestIrqPriority : Word := 1
def plicMaxIrq : Nat := 31

/-- The external interrupts of machine and supervisor mode. -/
def mipExternalMask : Word := mipMeipMask ||| mipSeipMask

def readGirqpend : AProg (BitVec 32) := do
  let girqpend ← read .plicGirqpend
  pure (girqpend.setWidth 32)

def readGirqsrvd : AProg (BitVec 32) := do
  let girqsrvd ← read .plicGirqsrvd
  pure (girqsrvd.setWidth 32)

/-- The pending interrupt sources that are not being served. -/
def plicReadPending : AProg Word := do
  let girqpend ← readGirqpend
  let girqsrvd ← readGirqsrvd
  pure ((girqpend &&& ~~~girqsrvd).setWidth 64)

/-- Begin serving the pending source of highest priority, if any. -/
def plicReadClaimComplete : AProg (Option Word) := do
  let girqpend ← readGirqpend
  let girqsrvd ← readGirqsrvd
  let ipmask := girqpend &&& ~~~girqsrvd
  if ipmask ≠ 0 then
    let irqId := ilog2 ipmask
    let girqsrvd := girqsrvd ||| ((1 : BitVec 32) <<< irqId.toNat)
    write .plicGirqsrvd (girqsrvd.setWidth 64)
    if girqpend &&& ~~~girqsrvd = 0 then
      resetMip mipExternalMask
    pure (some irqId)
  else
    pure (some 0)

def plicWriteClaimComplete (val : BitVec 32) : AProg ExecuteStatus := do
  if 1 ≤ val.toNat ∧ val.toNat ≤ plicMaxIrq then
    let girqpend ← readGirqpend
    let girqsrvd ← readGirqsrvd
    let girqsrvd := girqsrvd &&& ~~~((1 : BitVec 32) <<< val.toNat)
    write .plicGirqsrvd (girqsrvd.setWidth 64)
    if girqpend &&& ~~~girqsrvd = 0 then
      resetMip mipExternalMask
      pure .success
    else
      setMip mipExternalMask
      pure .successAndServeInterrupts
  else
    pure .success

/-- The driver supports aligned accesses of 32 bits only. -/
def plicSupports (offset : Word) (size : MemSize) : Prop :=
  offset &&& 3 = 0 ∧ size = .u32 ∧ offset ≤ pmaPlicLength

instance (offset : Word) (size : MemSize) : Decidable (plicSupports offset size) :=
  inferInstanceAs (Decidable (_ ∧ _))

def plicRead (offset : Word) (size : MemSize) : AProg (Option Word) := do
  if plicSupports offset size then
    -- the priorities of the sources 1 to 31
    if 0x4 ≤ offset ∧ offset ≤ 0x7c then
      pure (some plicLowestIrqPriority)
    else if offset = plicPendingRelAddr then
      let pending ← plicReadPending
      pure (some pending)
    else if offset = plicEnabledRelAddr then
      pure (some plicEnabledIrqMask)
    else if offset = plicClaimCompleteRelAddr then
      plicReadClaimComplete
    else
      pure (some 0)
  else
    pure none

def plicWrite (offset val : Word) (size : MemSize) : AProg ExecuteStatus := do
  if plicSupports offset size then
    if offset = plicClaimCompleteRelAddr then
      plicWriteClaimComplete (val.setWidth 32)
    else
      pure .success
  else
    pure .failure

def plicSetPendingIrq (irqId : Nat) : AProg Unit := do
  let girqsrvd ← readGirqsrvd
  let girqpend ← readGirqpend
  let girqpend := girqpend ||| ((1 : BitVec 32) <<< irqId)
  write .plicGirqpend (girqpend.setWidth 64)
  if girqpend &&& ~~~girqsrvd ≠ 0 then
    setMip mipExternalMask

/-- A device has no interrupt request any more. -/
def plicResetPendingIrq (irqId : Nat) : AProg Unit := do
  let girqsrvd ← readGirqsrvd
  let girqpend ← readGirqpend
  let girqpend := girqpend &&& ~~~((1 : BitVec 32) <<< irqId)
  write .plicGirqpend (girqpend.setWidth 64)
  if girqpend &&& ~~~girqsrvd = 0 then
    resetMip mipExternalMask

/-! ## HTIF -/

def htifTohostRelAddr : Word := 0x0
def htifFromhostRelAddr : Word := 0x8
def htifIhaltRelAddr : Word := 0x10
def htifIconsoleRelAddr : Word := 0x18
def htifIyieldRelAddr : Word := 0x20

def htifDevShift : Nat := 56
def htifCmdShift : Nat := 48
def htifReasonShift : Nat := 32
def htifDevMask : Word := fieldMask 8 htifDevShift
def htifCmdMask : Word := fieldMask 8 htifCmdShift
def htifReasonMask : Word := fieldMask 16 htifReasonShift
def htifDataMask : Word := fieldMask 32 0

def htifBuild (dev cmd reason data : Word) : Word :=
  ((dev <<< htifDevShift) &&& htifDevMask) ||| ((cmd <<< htifCmdShift) &&& htifCmdMask) |||
    ((reason <<< htifReasonShift) &&& htifReasonMask) ||| (data &&& htifDataMask)

def htifDevField (reg : Word) : Word := (reg &&& htifDevMask) >>> htifDevShift
def htifCmdField (reg : Word) : Word := (reg &&& htifCmdMask) >>> htifCmdShift
def htifDataField (reg : Word) : Word := reg &&& htifDataMask

def htifDevHalt : Word := 0
def htifDevConsole : Word := 1
def htifDevYield : Word := 2
def htifHaltCmdHalt : Word := 0
def htifConsoleCmdGetchar : Word := 0
def htifConsoleCmdPutchar : Word := 1
def htifYieldCmdAutomatic : Word := 0
def htifYieldCmdManual : Word := 1

def htifRead (offset : Word) (size : MemSize) : AProg (Option Word) := do
  if size ≠ .u64 then
    pure none
  else if offset = htifTohostRelAddr then
    let val ← read .htifTohost
    pure (some val)
  else if offset = htifFromhostRelAddr then
    let val ← read .htifFromhost
    pure (some val)
  else if offset = htifIhaltRelAddr then
    let val ← read .htifIhalt
    pure (some val)
  else if offset = htifIconsoleRelAddr then
    let val ← read .htifIconsole
    pure (some val)
  else if offset = htifIyieldRelAddr then
    let val ← read .htifIyield
    pure (some val)
  else
    pure none

def htifHalt (cmd data : Word) : AProg ExecuteStatus := do
  if cmd = htifHaltCmdHalt ∧ data &&& 1 ≠ 0 then
    write .iflagsH 1
    pure .successAndHalt
  else
    pure .success

/-- Is the command enabled in the mask that a register holds? -/
def htifEnabled (mask : Reg) (cmd : Word) : AProg Bool := do
  if cmd < 64 then
    let enabled ← read mask
    pure ((enabled >>> cmd.toNat) &&& 1 != 0)
  else
    pure false

def htifYield (cmd : Word) : AProg ExecuteStatus := do
  if ← htifEnabled .htifIyield cmd then
    if cmd = htifYieldCmdManual then
      write .iflagsY 1
      write .htifFromhost (htifBuild htifDevYield cmd 0 0)
      pure .successAndYield
    else if cmd = htifYieldCmdAutomatic then
      write .iflagsX 1
      write .htifFromhost (htifBuild htifDevYield cmd 0 0)
      pure .successAndYield
    else
      pure .success
  else
    pure .success

def htifConsole (cmd data : Word) : AProg ExecuteStatus := do
  if ← htifEnabled .htifIconsole cmd then
    if cmd = htifConsoleCmdPutchar then
      osPutchar (data.setWidth 8)
      write .htifFromhost (htifBuild htifDevConsole cmd 0 0)
    else if cmd = htifConsoleCmdGetchar then
      let c ← osGetchar
      write .htifFromhost (htifBuild htifDevConsole cmd 0 ((c + 1).setWidth 64))
  pure .success

def htifWriteTohost (tohost : Word) : AProg ExecuteStatus := do
  let device := htifDevField tohost
  let cmd := htifCmdField tohost
  let data := htifDataField tohost
  write .htifTohost tohost
  if device = htifDevHalt then
    htifHalt cmd data
  else if device = htifDevConsole then
    htifConsole cmd data
  else if device = htifDevYield then
    htifYield cmd
  else
    pure .success

def htifWrite (offset val : Word) (size : MemSize) : AProg ExecuteStatus := do
  if size ≠ .u64 then
    pure .failure
  else if offset = htifTohostRelAddr then
    htifWriteTohost val
  else if offset = htifFromhostRelAddr then
    write .htifFromhost val
    pure .success
  else
    pure .failure

/-! ## Drivers -/

def deviceRead (pma : PmaEntry) (mcycle offset : Word) (size : MemSize) : AProg (Option Word) :=
  match pma.flags.DID with
  | .clint => clintRead mcycle offset size
  | .plic => plicRead offset size
  | .htif => htifRead offset size
  | .virtio => virtioRead pma offset size
  | _ => pure none

def deviceWrite (pma : PmaEntry) (offset val : Word) (size : MemSize) : AProg ExecuteStatus :=
  match pma.flags.DID with
  | .clint => clintWrite offset val size
  | .plic => plicWrite offset val size
  | .htif => htifWrite offset val size
  | .virtio => virtioWrite pma offset val size
  | _ => pure .failure

end MachineEmulator.Interpret
