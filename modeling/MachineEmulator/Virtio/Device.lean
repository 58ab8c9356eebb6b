import MachineEmulator.Interpret.Access
import MachineEmulator.Layout

/-!
# VirtIO devices

The part that all VirtIO devices share: virtqueues in guest memory, the control registers, and the
interrupt line. What a device does with the buffers of its queues is a parameter, a program over the
services that the shared part offers (`ServiceOp`).

A device asks its accessor for guest memory and for its interrupt line (`BusOp`). A walk over descriptors
follows links that the guest wrote and may never end, so walks have fuel, and a walk that runs out of it
asks for `outOfFuel`, which has no answer.
-/

namespace MachineEmulator.Virtio

open Interpret (ExecuteStatus MemSize)

/-! ## The accessor of a device -/

inductive BusOp where
  | readMemory (paddr : Word) (length : Nat)
  | writeMemory (paddr : Word) (data : List Byte)
  | setPendingIrq (irqId : Nat)
  | resetPendingIrq (irqId : Nat)
  /-- An answer of the host to a request of the device. -/
  | host (request : Word)
  | outOfFuel

def BusOp.Ans : BusOp → Type
  | .readMemory .. => Option (List Byte)
  | .writeMemory .. => Bool
  | .host _ => Word
  | .outOfFuel => Empty
  | _ => Unit

abbrev BusSig : Sig := ⟨BusOp, BusOp.Ans⟩

abbrev BProg (α : Type) := Prog BusSig α

def readMemory (paddr : Word) (length : Nat) : BProg (Option (List Byte)) :=
  Prog.perform (S := BusSig) (.readMemory paddr length)
def writeMemory (paddr : Word) (data : List Byte) : BProg Bool :=
  Prog.perform (S := BusSig) (.writeMemory paddr data)
def setPendingIrq (irqId : Nat) : BProg Unit := Prog.perform (S := BusSig) (.setPendingIrq irqId)
def resetPendingIrq (irqId : Nat) : BProg Unit := Prog.perform (S := BusSig) (.resetPendingIrq irqId)
def askHost (request : Word) : BProg Word := Prog.perform (S := BusSig) (.host request)
def outOfFuel {α : Type} : BProg α := Prog.call (S := BusSig) .outOfFuel Empty.elim

/-! ## Virtqueues -/

def virtioQueueCount : Nat := 2
def virtioQueueNumMax : BitVec 32 := 128

def virtqDescFNext : BitVec 16 := 1
def virtqDescFWrite : BitVec 16 := 2

structure VirtqDesc where
  paddr : Word
  len : BitVec 32
  flags : BitVec 16
  next : BitVec 16
  deriving DecidableEq, Repr

structure Virtq where
  descAddr : Word
  availAddr : Word
  usedAddr : Word
  num : BitVec 32
  lastUsedIdx : BitVec 16
  ready : Bool

def Virtq.zero : Virtq :=
  { descAddr := 0, availAddr := 0, usedAddr := 0, num := 0, lastUsedIdx := 0, ready := false }

variable (vq : Virtq) (fuel : Nat) (queueIdx : Fin virtioQueueCount) (descIdx : BitVec 16)

namespace Virtq

/-- A number of `n` bytes at an offset of a buffer. -/
def fieldAt (bs : List Byte) (offset n : Nat) : Nat := ofLE ((bs.drop offset).take n)

/-- The position of an index in a ring. -/
def ringOffset (idx : BitVec 16) : Word := (idx.setWidth 32 &&& (vq.num - 1)).setWidth 64

/-- The index where the driver will put the next available element. -/
def getAvailIdx : BProg (Option (BitVec 16)) := do
  match ← readMemory vq.availAddr 4 with
  | none => pure none
  | some bs => pure (some (BitVec.ofNat 16 (fieldAt bs 2 2)))

def setUsedHeader (flags idx : BitVec 16) : BProg Bool :=
  writeMemory vq.usedAddr (toLE 2 flags.toNat ++ toLE 2 idx.toNat)

def setRingUsedElem (ringIdx : BitVec 16) (id len : BitVec 32) : BProg Bool :=
  writeMemory (vq.usedAddr + 4 + vq.ringOffset ringIdx * 8) (toLE 4 id.toNat ++ toLE 4 len.toNat)

def getRingAvailElemDescIdx (ringIdx : BitVec 16) : BProg (Option (BitVec 16)) := do
  match ← readMemory (vq.availAddr + 4 + vq.ringOffset ringIdx * 2) 2 with
  | none => pure none
  | some bs => pure (some (BitVec.ofNat 16 (fieldAt bs 0 2)))

def getDesc : BProg (Option VirtqDesc) := do
  match ← readMemory (vq.descAddr + vq.ringOffset descIdx * 16) 16 with
  | none => pure none
  | some bs =>
    pure (some
      { paddr := BitVec.ofNat 64 (fieldAt bs 0 8)
        len := BitVec.ofNat 32 (fieldAt bs 8 4)
        flags := BitVec.ofNat 16 (fieldAt bs 12 2)
        next := BitVec.ofNat 16 (fieldAt bs 14 2) })

/-- The lengths that a chain of descriptors has for reading and for writing. -/
structure AvailLen where
  ok : Bool
  readLen : BitVec 32
  writeLen : BitVec 32

/-- The walk that adds up the lengths of a chain. -/
def getDescRwAvailLenFrom (vq : Virtq) : Nat → BitVec 16 → BitVec 32 → BitVec 32 → Bool →
    BProg AvailLen
  | 0, _, _, _, _ => outOfFuel
  | fuel + 1, descIdx, readLen, writeLen, writePart => do
    match ← vq.getDesc descIdx with
    | none => pure ⟨false, readLen, writeLen⟩
    | some desc =>
      let isWrite : Bool := desc.flags &&& virtqDescFWrite ≠ 0
      if !isWrite && writePart then
        -- a buffer to read from cannot follow one to write to
        pure ⟨false, readLen, writeLen⟩
      else
        let readLen := if isWrite then readLen else readLen + desc.len
        let writeLen := if isWrite then writeLen + desc.len else writeLen
        if desc.flags &&& virtqDescFNext = 0 then
          pure ⟨true, readLen, writeLen⟩
        else
          getDescRwAvailLenFrom vq fuel desc.next readLen writeLen (writePart || isWrite)

def getDescRwAvailLen : BProg AvailLen :=
  vq.getDescRwAvailLenFrom fuel descIdx 0 0 false

/-- The part of a buffer that a transfer of the bytes from `startOff` to `endOff` touches. -/
structure Chunk where
  startOff : BitVec 32
  endOff : BitVec 32

def chunkOf (bufStartOff len startOff endOff : BitVec 32) : Chunk :=
  let bufEndOff := bufStartOff + len
  { startOff := if bufStartOff < startOff then startOff else bufStartOff
    endOff := if endOff < bufEndOff then endOff else bufEndOff }

/-- A buffer with some of its bytes replaced. -/
def splice (data : List Byte) (offset : Nat) (chunk : List Byte) : List Byte :=
  data.take offset ++ chunk ++ data.drop (offset + chunk.length)

/-- The walk that fills `data` from the buffers of a chain that can be read. -/
def readDescMemFrom (vq : Virtq) (startOff endOff : BitVec 32) : Nat → BitVec 16 → BitVec 32 →
    List Byte → BProg (Bool × List Byte)
  | 0, _, _, _ => outOfFuel
  | fuel + 1, descIdx, bufStartOff, data => do
    match ← vq.getDesc descIdx with
    | none => pure (false, data)
    | some desc =>
      let next (bufStartOff : BitVec 32) (data : List Byte) : BProg (Bool × List Byte) :=
        if desc.flags &&& virtqDescFNext = 0 then pure (false, data)
        else readDescMemFrom vq startOff endOff fuel desc.next bufStartOff data
      if desc.flags &&& virtqDescFWrite = 0 then
        let c := chunkOf bufStartOff desc.len startOff endOff
        if c.startOff < c.endOff then
          let paddr := desc.paddr + (c.startOff - bufStartOff).setWidth 64
          match ← readMemory paddr (c.endOff - c.startOff).toNat with
          | none => pure (false, data)
          | some bs =>
            let data := splice data (c.startOff - startOff).toNat bs
            if endOff ≤ c.endOff then pure (true, data) else next (bufStartOff + desc.len) data
        else if endOff ≤ c.endOff then pure (true, data)
        else next (bufStartOff + desc.len) data
      else
        next bufStartOff data

/-- Read bytes from a chain into the buffer `data`. -/
def readDescMem (startOff : BitVec 32)
    (data : List Byte) : BProg (Bool × List Byte) :=
  if data = [] then pure (true, data)
  else vq.readDescMemFrom startOff (startOff + BitVec.ofNat 32 data.length) fuel descIdx 0 data

/-- The walk that stores `data` to the buffers of a chain that can be written. -/
def writeDescMemFrom (vq : Virtq) (startOff endOff : BitVec 32) (data : List Byte) : Nat → BitVec 16 →
    BitVec 32 → BProg Bool
  | 0, _, _ => outOfFuel
  | fuel + 1, descIdx, bufStartOff => do
    match ← vq.getDesc descIdx with
    | none => pure false
    | some desc =>
      let next (bufStartOff : BitVec 32) : BProg Bool :=
        if desc.flags &&& virtqDescFNext = 0 then pure false
        else writeDescMemFrom vq startOff endOff data fuel desc.next bufStartOff
      if desc.flags &&& virtqDescFWrite ≠ 0 then
        let c := chunkOf bufStartOff desc.len startOff endOff
        if c.startOff < c.endOff then
          let paddr := desc.paddr + (c.startOff - bufStartOff).setWidth 64
          let bs := (data.drop (c.startOff - startOff).toNat).take (c.endOff - c.startOff).toNat
          if ← writeMemory paddr bs then
            if endOff ≤ c.endOff then pure true else next (bufStartOff + desc.len)
          else
            pure false
        else if endOff ≤ c.endOff then pure true
        else next (bufStartOff + desc.len)
      else
        next bufStartOff

def writeDescMem (startOff : BitVec 32)
    (data : List Byte) : BProg Bool :=
  if data = [] then pure true
  else vq.writeDescMemFrom startOff (startOff + BitVec.ofNat 32 data.length) data fuel descIdx 0

/-- Mark a chain as used. The queue advances only if both rings could be written. -/
def consumeDesc (writtenLen : BitVec 32) (usedFlags : BitVec 16) :
    BProg (Option Virtq) := do
  if ← vq.setRingUsedElem vq.lastUsedIdx (descIdx.setWidth 32) writtenLen then
    let nextLastUsedIdx := vq.lastUsedIdx + 1
    if ← vq.setUsedHeader usedFlags nextLastUsedIdx then
      pure (some { vq with lastUsedIdx := nextLastUsedIdx })
    else
      pure none
  else
    pure none

end Virtq

/-! ## Devices -/

/-- The services that a kind of device is programmed with. -/
inductive ServiceOp where
  | driverOk
  | readDescMem (queueIdx : Fin virtioQueueCount) (descIdx : BitVec 16) (startOff : BitVec 32)
      (data : List Byte)
  | writeDescMem (queueIdx : Fin virtioQueueCount) (descIdx : BitVec 16) (startOff : BitVec 32)
      (data : List Byte)
  | prepareQueueWrite (queueIdx : Fin virtioQueueCount)
  | consumeQueue (queueIdx : Fin virtioQueueCount) (descIdx : BitVec 16) (writtenLen : BitVec 32)
      (usedFlags : BitVec 16)
  | notifyQueueUsed
  | notifyConfigChange
  | notifyDeviceNeedsReset
  | getConfig
  | setConfig (config : Nat → Byte)
  | host (request : Word)

/-- A descriptor to write to, and how much fits. -/
structure WriteSlot where
  ok : Bool
  descIdx : BitVec 16
  writeAvailLen : BitVec 32

def ServiceOp.Ans : ServiceOp → Type
  | .driverOk | .writeDescMem .. | .consumeQueue .. => Bool
  | .readDescMem .. => Bool × List Byte
  | .prepareQueueWrite _ => WriteSlot
  | .getConfig => Nat → Byte
  | .host _ => Word
  | _ => Unit

abbrev ServiceSig : Sig := ⟨ServiceOp, ServiceOp.Ans⟩

/-- What is particular to a kind of device. The private state of a device is part of the host, which
answers its requests. -/
structure VirtioClass where
  kind : VirtioKind
  onDeviceOk : Prog ServiceSig Unit
  onDeviceQueueAvailable : Fin virtioQueueCount → BitVec 16 → BitVec 32 → BitVec 32 →
    Prog ServiceSig Bool
  pollSelected : Prog ServiceSig Bool
  readShmBase : BitVec 32 → Word
  readShmLength : BitVec 32 → Word

/-- A kind of device that does nothing. -/
def VirtioClass.quiet : VirtioClass where
  kind := .console
  onDeviceOk := pure ()
  onDeviceQueueAvailable _ _ _ _ := pure false
  pollSelected := pure false
  readShmBase _ := 0
  readShmLength _ := 0

structure VirtioDevice where
  cls : VirtioClass
  virtioIdx : Nat
  intStatus : BitVec 32
  deviceId : BitVec 32
  deviceFeatures : Word
  driverFeatures : Word
  deviceFeaturesSel : BitVec 32
  driverFeaturesSel : BitVec 32
  queueSel : BitVec 32
  shmSel : BitVec 32
  deviceStatus : BitVec 32
  configGeneration : BitVec 32
  configSpaceSize : BitVec 32
  driverOk : Bool
  configSpace : Nat → Byte
  queue : Fin virtioQueueCount → Virtq

abbrev DProg (α : Type) := StateT VirtioDevice (Prog BusSig) α

variable (d : VirtioDevice) (offset : Word) (val : BitVec 32) (size : MemSize)

namespace VirtioDevice

def virtioIntStatusUsedBuffer : BitVec 32 := 1
def virtioIntStatusConfigChange : BitVec 32 := 2
def virtioStatusDriverOk : BitVec 32 := 4
def virtioStatusFeaturesOk : BitVec 32 := 8
def virtioStatusDeviceNeedsReset : BitVec 32 := 16

def virtioFVersion1 : Word := 0x100000000

def make (cls : VirtioClass) (virtioIdx : Nat) (deviceId : BitVec 32) (deviceFeatures : Word)
    (configSpaceSize : BitVec 32) : VirtioDevice where
  cls := cls
  virtioIdx := virtioIdx
  intStatus := 0
  deviceId := deviceId
  deviceFeatures := deviceFeatures ||| virtioFVersion1
  driverFeatures := 0
  deviceFeaturesSel := 0
  driverFeaturesSel := 0
  queueSel := 0
  shmSel := 0
  deviceStatus := 0
  configGeneration := 0
  configSpaceSize := configSpaceSize
  driverOk := false
  configSpace := fun _ => 0
  queue := fun _ => Virtq.zero

def getIrqId : Nat := d.virtioIdx + 1

def setQueue (queueIdx : Fin virtioQueueCount) (vq : Virtq) : VirtioDevice :=
  { d with queue := Function.update d.queue queueIdx vq }

/-! ### Interrupt line -/

def setIrq (addIntStatus : BitVec 32) : DProg Unit := do
  modify fun d => { d with intStatus := d.intStatus ||| addIntStatus }
  let d ← get
  if d.intStatus ≠ 0 then
    setPendingIrq d.getIrqId

/-- While an event is left the interrupt request is made again. -/
def resetIrq (remIntStatus : BitVec 32) : DProg Unit := do
  modify fun d => { d with intStatus := d.intStatus &&& ~~~remIntStatus }
  let d ← get
  if d.intStatus = 0 then
    resetPendingIrq d.getIrqId
  else
    setPendingIrq d.getIrqId

def notifyQueueUsed : DProg Unit := do
  let d ← get
  if d.driverOk then
    setIrq virtioIntStatusUsedBuffer

def notifyConfigChange : DProg Unit := do
  modify fun d => { d with configGeneration := d.configGeneration + 1 }
  let d ← get
  if d.driverOk then
    setIrq virtioIntStatusConfigChange

def notifyDeviceNeedsReset : DProg Unit := do
  modify fun d => { d with deviceStatus := d.deviceStatus ||| virtioStatusDeviceNeedsReset }
  notifyConfigChange

/-- Back to the state before initialization. -/
def reset : DProg Unit := do
  modify fun d =>
    { d with
      deviceStatus := 0, driverOk := false, driverFeatures := 0, queueSel := 0, shmSel := 0,
      deviceFeaturesSel := 0, driverFeaturesSel := 0, intStatus := 0, queue := fun _ => Virtq.zero }
  resetIrq (virtioIntStatusUsedBuffer ||| virtioIntStatusConfigChange)

/-! ### Queues -/

def prepareQueueWrite : DProg WriteSlot := do
  let d ← get
  let vq := d.queue queueIdx
  if !vq.ready then
    pure ⟨true, 0, 0⟩
  else
    match ← vq.getAvailIdx with
    | none => pure ⟨false, 0, 0⟩
    | some lastAvailIdx =>
      if vq.lastUsedIdx = lastAvailIdx then
        -- the queue is full
        pure ⟨true, 0, 0⟩
      else
        match ← vq.getRingAvailElemDescIdx vq.lastUsedIdx with
        | none => pure ⟨false, 0, 0⟩
        | some descIdx =>
          let len ← vq.getDescRwAvailLen fuel descIdx
          if len.ok then pure ⟨true, descIdx, len.writeLen⟩ else pure ⟨false, descIdx, 0⟩

def consumeQueue (writtenLen : BitVec 32)
    (usedFlags : BitVec 16) : DProg Bool := do
  let d ← get
  match ← (d.queue queueIdx).consumeDesc descIdx writtenLen usedFlags with
  | none => pure false
  | some vq =>
    modify fun d => d.setQueue queueIdx vq
    pure true

/-- The program that a service stands for. -/
def service : (o : ServiceOp) → DProg o.Ans
  | .driverOk => do
    let d ← get
    pure d.driverOk
  | .readDescMem queueIdx descIdx startOff data => do
    let d ← get
    (d.queue queueIdx).readDescMem fuel descIdx startOff data
  | .writeDescMem queueIdx descIdx startOff data => do
    let d ← get
    (d.queue queueIdx).writeDescMem fuel descIdx startOff data
  | .prepareQueueWrite queueIdx => prepareQueueWrite fuel queueIdx
  | .consumeQueue queueIdx descIdx writtenLen usedFlags =>
    consumeQueue queueIdx descIdx writtenLen usedFlags
  | .notifyQueueUsed => notifyQueueUsed
  | .notifyConfigChange => notifyConfigChange
  | .notifyDeviceNeedsReset => notifyDeviceNeedsReset
  | .getConfig => do
    let d ← get
    pure d.configSpace
  | .setConfig config => modify fun d => { d with configSpace := config }
  | .host request => StateT.lift (askHost request)

/-- A program over the services, run on the device. -/
def serve (fuel : Nat) {α : Type} : Prog ServiceSig α → DProg α
  | .ret a => pure a
  | .call o k => do
    let x ← service fuel o
    serve fuel (k x)

/-- Process the chains of a queue until the last one the driver made available. -/
def processQueue (fuel : Nat) (queueIdx : Fin virtioQueueCount) (lastAvailIdx : BitVec 16) :
    Nat → DProg Unit
  | 0 => StateT.lift outOfFuel
  | n + 1 => do
    let d ← get
    let vq := d.queue queueIdx
    if vq.lastUsedIdx = lastAvailIdx then
      pure ()
    else
      match ← vq.getRingAvailElemDescIdx vq.lastUsedIdx with
      | none => notifyDeviceNeedsReset
      | some descIdx =>
        let len ← vq.getDescRwAvailLen fuel descIdx
        if len.ok then
          if ← serve fuel (d.cls.onDeviceQueueAvailable queueIdx descIdx len.readLen len.writeLen) then
            processQueue fuel queueIdx lastAvailIdx n
        else
          notifyDeviceNeedsReset

def onDeviceQueueNotify : DProg Unit := do
  let d ← get
  let vq := d.queue queueIdx
  if d.driverOk && vq.ready then
    match ← vq.getAvailIdx with
    | none => notifyDeviceNeedsReset
    | some lastAvailIdx => processQueue fuel queueIdx lastAvailIdx fuel

/-! ### Control registers -/

def selectedQueue : Option (Fin virtioQueueCount) :=
  if h : d.queueSel.toNat < virtioQueueCount then some ⟨d.queueSel.toNat, h⟩ else none

def setLow32 (a : Word) (val : BitVec 32) : Word := (a &&& ~~~0xffffffff) ||| val.setWidth 64
def setHigh32 (a : Word) (val : BitVec 32) : Word := (a &&& 0xffffffff) ||| (val.setWidth 64 <<< 32)

def isPowerOf2 : Bool := val &&& (val - 1) == 0

/-- A change of the selected queue. A selector of no queue is ignored. -/
def modifySelected (f : Virtq → Virtq) : DProg ExecuteStatus := do
  modify fun d =>
    match d.selectedQueue with
    | some q => d.setQueue q (f (d.queue q))
    | none => d
  pure .success

/-- The access lies in the configuration space, aligned, and is not larger than 32 bits. -/
def configAccess : Bool :=
  offset &&& (size.sizeof - 1) == 0 && offset + size.sizeof ≤ d.configSpaceSize.setWidth 64 &&
    size != .u64

def mmioReadConfig : Option (BitVec 32) :=
  if d.configAccess offset size then
    some (BitVec.ofNat 32 (ofLE (readBytes d.configSpace offset.toNat size.bytes)))
  else none

def mmioWriteConfig : DProg ExecuteStatus := do
  let d ← get
  if d.configAccess offset size then
    set { d with configSpace := writeBytes d.configSpace offset.toNat (toLE size.bytes val.toNat) }
    pure .success
  else
    pure .failure

def virtioMmioConfig : Word := 0x100

/-- A read of a control register or of the configuration space. It changes nothing. -/
def mmioRead : Option (BitVec 32) :=
  if virtioMmioConfig ≤ offset then d.mmioReadConfig (offset - virtioMmioConfig) size
  else if offset &&& 3 ≠ 0 ∨ size ≠ .u32 then none
  else
    match offset.toNat with
    | 0x000 => some 0x74726976
    | 0x004 => some 2
    | 0x008 => some d.deviceId
    | 0x00c => some 0xffff
    | 0x010 =>
      if d.deviceFeaturesSel = 0 then some (d.deviceFeatures.setWidth 32)
      else if d.deviceFeaturesSel = 1 then some ((d.deviceFeatures >>> 32).setWidth 32)
      else some 0
    | 0x034 => some (if d.selectedQueue.isSome then virtioQueueNumMax else 0)
    | 0x044 =>
      some (match d.selectedQueue with
        | some q => if (d.queue q).ready then 1 else 0
        | none => 0)
    | 0x060 => some d.intStatus
    | 0x070 => some d.deviceStatus
    | 0x0fc => some d.configGeneration
    | 0x0b0 => some ((d.cls.readShmLength d.shmSel).setWidth 32)
    | 0x0b4 => some ((d.cls.readShmLength d.shmSel >>> 32).setWidth 32)
    | 0x0b8 => some ((d.cls.readShmBase d.shmSel).setWidth 32)
    | 0x0bc => some ((d.cls.readShmBase d.shmSel >>> 32).setWidth 32)
    | _ => none

/-- The status of a write that may have requested an interrupt. -/
def interruptStatus : DProg ExecuteStatus := do
  let d ← get
  pure (if d.intStatus ≠ 0 then .successAndServeInterrupts else .success)

/-- A write of a non-zero value to the status register. Features the driver did not accept all of stop it. -/
def writeStatus : DProg ExecuteStatus := do
  let d ← get
  let oldStatus := d.deviceStatus
  let enablingStatus := (oldStatus ^^^ val) &&& val
  if enablingStatus &&& virtioStatusFeaturesOk ≠ 0 ∧ d.driverFeatures ≠ d.deviceFeatures then
    pure .success
  else
    set { d with deviceStatus := val }
    if enablingStatus &&& virtioStatusDriverOk ≠ 0 then
      if oldStatus &&& virtioStatusDeviceNeedsReset ≠ 0 then
        setIrq virtioIntStatusConfigChange
      else
        modify fun d => { d with driverOk := true }
        serve fuel d.cls.onDeviceOk
    interruptStatus

def writeDriverFeatures : DProg ExecuteStatus := do
  modify fun d =>
    if d.driverFeaturesSel = 0 then { d with driverFeatures := setLow32 d.driverFeatures val }
    else if d.driverFeaturesSel = 1 then { d with driverFeatures := setHigh32 d.driverFeatures val }
    else d
  pure .success

/-- A write to a control register or to the configuration space. -/
def mmioWrite : DProg ExecuteStatus :=
  if virtioMmioConfig ≤ offset then mmioWriteConfig (offset - virtioMmioConfig) val size
  else if offset &&& 3 ≠ 0 ∨ size ≠ .u32 then pure .failure
  else
    match offset.toNat with
    | 0x014 => do
      modify fun d => { d with deviceFeaturesSel := val }
      pure .success
    | 0x020 => writeDriverFeatures val
    | 0x024 => do
      modify fun d => { d with driverFeaturesSel := val }
      pure .success
    | 0x030 => do
      modify fun d => { d with queueSel := val }
      pure .success
    | 0x038 =>
      if val ≤ virtioQueueNumMax ∧ isPowerOf2 val then modifySelected fun vq => { vq with num := val }
      else pure .success
    | 0x044 => modifySelected fun vq => { vq with ready := val == 1 }
    | 0x050 => do
      if h : val.toNat < virtioQueueCount then
        onDeviceQueueNotify fuel ⟨val.toNat, h⟩
      interruptStatus
    | 0x064 => do
      resetIrq val
      interruptStatus
    | 0x070 => do
      if val = 0 then
        reset
        interruptStatus
      else
        writeStatus fuel val
    | 0x080 => modifySelected fun vq => { vq with descAddr := setLow32 vq.descAddr val }
    | 0x084 => modifySelected fun vq => { vq with descAddr := setHigh32 vq.descAddr val }
    | 0x090 => modifySelected fun vq => { vq with availAddr := setLow32 vq.availAddr val }
    | 0x094 => modifySelected fun vq => { vq with availAddr := setHigh32 vq.availAddr val }
    | 0x0a0 => modifySelected fun vq => { vq with usedAddr := setLow32 vq.usedAddr val }
    | 0x0a4 => modifySelected fun vq => { vq with usedAddr := setHigh32 vq.usedAddr val }
    | 0x0ac => do
      modify fun d => { d with shmSel := val }
      pure .success
    | _ => pure .failure

end VirtioDevice

end MachineEmulator.Virtio
