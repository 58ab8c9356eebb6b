import MachineEmulator.Interpret.Devices
import MachineEmulator.PmaMemory
import MachineEmulator.Virtio.Device

/-!
# The plain accessor of the interpreter

* `RunState` : what a run of the interpreter works on;
* `baseAccess` : the operations that do not involve VirtIO devices;
* `stateAccess` : all operations. VirtIO devices reach guest memory and the interrupt controller through
  `busAccess`.

An operation that the program text does not give a meaning to (a pointer that leads nowhere, an index
beyond a table) is a `Fault`, and so is a walk of a VirtIO device that does not end within its fuel.
-/

namespace MachineEmulator

def HostAddr.sub (h : HostAddr) (o : Word) : HostAddr := h.add (-o)

namespace MachineState

/-- The entry of a set that a virtual address uses. -/
def tlbEntryOf (s : MachineState) (t : TlbSet) (vaddr : Word) : TlbEntry :=
  s.tlb t (Interpret.tlbGetEntryIndex vaddr)

end MachineState

namespace Interpret

open EStateM (query update)
open Virtio (VirtioDevice DProg BusSig)

inductive Fault where
  | wildPointer
  | badIndex
  | noDevice
  | outOfFuel
  deriving DecidableEq, Repr

structure RunState where
  s : MachineState
  uarch : UarchState
  vdevs : List VirtioDevice
  /-- The answers the host will give, in order. -/
  host : Nat → Word

abbrev RunM := EStateM Fault RunState

variable (m : RunState) (s : MachineState)

namespace RunState

def withState : RunState := { m with s }

def writeReg (r : Reg) (val : Word) : RunState := m.withState (m.s.writeReg r val)

/-- The ranges of the board and those of the VirtIO devices. -/
def ranges : List PmaEntry :=
  m.s.board.ranges ++ m.vdevs.mapIdx fun i d =>
    { virtioPma i d.cls.kind with index := m.s.board.ranges.length + i }

/-- The table of the machine: the ranges, then sentinels up to its capacity. -/
def pmas : List PmaEntry :=
  m.ranges ++ (List.range' m.ranges.length (pmaMax - m.ranges.length)).map sentinelPma

/-- A new machine without VirtIO devices. -/
def created (b : Board) (c : InitConfig) (host : Nat → Word) : RunState :=
  let m := Machine.new Unit b c
  { s := m.s, uarch := m.uarch, vdevs := [], host }

/-- A new small machine with some registers chosen. -/
def small (regs : List (Reg × Word)) : RunState :=
  created smallBoard
    { regs := fun r => (regs.lookup r).getD (initRegs r), uarchRam := fun _ => 0 } fun _ => 0

end RunState

/-! ## Host memory -/

/-- The word of some size at a host address. -/
def loadHost (size : MemSize) : HostAddr → Except Fault Word
  | .board p => .ok (BitVec.ofNat 64 (ofLE (readBytes s.mem p.toNat size.bytes)))
  | .raw _ => .error .wildPointer

def storeHost (size : MemSize) (val : Word) : HostAddr → Except Fault MachineState
  | .board p => .ok (s.setMem (writeBytes s.mem p.toNat (toLE size.bytes val.toNat)))
  | .raw _ => .error .wildPointer

/-- Mark a page of a range as dirty. Only memory has dirty pages. -/
def markDirty (pma : PmaEntry) (addressInRange : Word) :
    Except Fault MachineState :=
  if pma.istartM then
    if addressInRange < pma.length then
      .ok (s.markDirtyPage ((pma.start + addressInRange).toNat / pmaPageSize))
    else .error .badIndex
  else .ok s

/-! ## TLB -/

/-- Mark the page of an entry of the write TLB as dirty, if the entry is valid. -/
def markTlbEntry (pmas : List PmaEntry) (e : TlbEntry) (s : MachineState) :
    Except Fault MachineState :=
  if e.vaddrPage = tlbInvalidPage then .ok s
  else
    match pmas[e.pmaIndex.toNat]? with
    | none => .error .badIndex
    | some pma => markDirty s pma (e.paddrPage - pma.start)

/-- Before an entry goes, its page is marked: stores through the TLB leave no other trace. -/
def retireTlbEntry (pmas : List PmaEntry) (t : TlbSet) (i : Fin 256) (s : MachineState) :
    Except Fault MachineState :=
  match t with
  | .write => markTlbEntry pmas (s.tlb .write i) s
  | _ => .ok s

/-- The host page behind a physical address of a range. -/
def hostPage (paddr : Word) (pma : PmaEntry) : HostAddr :=
  (HostAddr.board pma.start).add ((paddr &&& ~~~pageOffsetMask) - pma.start)

/-- The entry that maps the page of a virtual address to the page of a physical one. -/
def tlbEntryFor (vaddr paddr : Word) (pma : PmaEntry) : TlbEntry :=
  let vaddrPage := vaddr &&& ~~~pageOffsetMask
  { vaddrPage
    vhOffset := (hostPage paddr pma).sub vaddrPage
    paddrPage := paddr &&& ~~~pageOffsetMask
    pmaIndex := BitVec.ofNat 64 pma.index }

def doReplaceTlbEntry (pmas : List PmaEntry) (t : TlbSet) (vaddr paddr : Word) (pma : PmaEntry)
    (s : MachineState) : Except Fault MachineState := do
  let s ← retireTlbEntry pmas t (tlbGetEntryIndex vaddr) s
  .ok (s.setTlb t (tlbGetEntryIndex vaddr) (tlbEntryFor vaddr paddr pma))

def doFlushTlbEntry (pmas : List PmaEntry) (t : TlbSet) (i : Fin 256) (s : MachineState) :
    Except Fault MachineState := do
  let s ← retireTlbEntry pmas t i s
  .ok (s.setTlb t i { s.tlb t i with vaddrPage := tlbInvalidPage })

def doFlushTlbEntries (pmas : List PmaEntry) (t : TlbSet) : List (Fin 256) → MachineState →
    Except Fault MachineState
  | [], s => .ok s
  | i :: is, s => do
    let s ← doFlushTlbEntry pmas t i s
    doFlushTlbEntries pmas t is s

def doFlushTlbType (pmas : List PmaEntry) (t : TlbSet) (s : MachineState) :
    Except Fault MachineState :=
  doFlushTlbEntries pmas t (List.finRange 256) s

/-- No entry can be flushed alone, since a page may be part of a larger one, so all are. -/
def doFlushTlbVaddr (pmas : List PmaEntry) (s : MachineState) : Except Fault MachineState := do
  let s ← doFlushTlbType pmas .code s
  let s ← doFlushTlbType pmas .read s
  doFlushTlbType pmas .write s

/-! ## Operations without VirtIO -/

def updateState (f : RunState → Except Fault MachineState) : RunM Unit :=
  update fun m => (f m).map m.withState

def askHost : RunM Word := fun m => .ok (m.host 0) { m with host := fun n => m.host (n + 1) }

/-- The host address an entry of the TLB gives for an access, if it hits. -/
def tlbLookup (t : TlbSet) (size : MemSize) (vaddr : Word) : Option HostAddr :=
  let e := s.tlbEntryOf t vaddr
  if tlbIsHit size e.vaddrPage vaddr then some (e.vhOffset.add vaddr) else none

/-- The operations that do not involve VirtIO devices. -/
def baseAccess : Handler AccessSig Fault RunState
  | .readReg r => query fun m => .ok (m.s.readShadow r)
  | .writeReg r val => updateState fun m => .ok (m.s.writeReg r val)
  | .readMemoryWord size _ hpage hoffset => query fun m => loadHost m.s size (hpage.add hoffset)
  | .writeMemoryWord size _ hpage hoffset val =>
    updateState fun m => storeHost m.s size val (hpage.add hoffset)
  | .getHostMemory pma => query fun _ => .ok (.board pma.start)
  | .readPmaEntry index => query fun m =>
    match m.pmas[index]? with
    | some pma => .ok pma
    | none => .error .badIndex
  | .markDirtyPage pma addressInRange => updateState fun m => markDirty m.s pma addressInRange
  | .translateVaddrViaTlb t size vaddr => query fun m => .ok (tlbLookup m.s t size vaddr)
  | .readMemoryWordViaTlb t size vaddr => query fun m =>
    match tlbLookup m.s t size vaddr with
    | some hptr => (loadHost m.s size hptr).map some
    | none => .ok none
  | .writeMemoryWordViaTlb t size vaddr val => fun m =>
    match tlbLookup m.s t size vaddr with
    | some hptr => (do updateState fun m => storeHost m.s size val hptr; pure true : RunM Bool) m
    | none => .ok false m
  | .replaceTlbEntry t vaddr paddr pma => do
    updateState fun m => doReplaceTlbEntry m.pmas t vaddr paddr pma m.s
    pure (hostPage paddr pma)
  | .flushTlbType t => updateState fun m => doFlushTlbType m.pmas t m.s
  | .flushTlbVaddr _ => updateState fun m => doFlushTlbVaddr m.pmas m.s
  | .getSoftYield => query fun m => .ok m.s.softYield
  | .readHostWord size hptr => query fun m => loadHost m.s size hptr
  | .osGetchar => do
    let c ← askHost
    pure (c.setWidth 32)
  | .osPutchar _ => pure ()
  | .pollExternalInterrupts .. | .virtioRead .. | .virtioWrite .. => throw .noDevice

/-! ## VirtIO -/

def rangeByte (pma : PmaEntry) (a : Nat) : Byte :=
  if pma.flags.DID = .shadowUarch then
    wordsImage (shadowUarchStateWords m.uarch) (a - pma.start.toNat)
  else if pma = uarchRamPma then m.uarch.ram a
  else m.s.rangeByte pma a

/-- Read guest memory, which must lie in one range. -/
def doReadMemory (paddr : Word) (length : Nat) : Option (List Byte) :=
  if length = 0 then some []
  else
    let pma := findPmaEntry (merkleRanges m.ranges) paddr (BitVec.ofNat 64 length)
    if pma.istartE then none
    else some ((List.range length).map fun i => rangeByte m pma (paddr.toNat + i))

/-- Write guest memory, which must lie in one memory range. -/
def doWriteMemory (paddr : Word) (data : List Byte) : Option RunState :=
  if data = [] then some m
  else
    let pma := findPmaEntry (merkleRanges m.ranges) paddr (BitVec.ofNat 64 data.length)
    if pma = uarchRamPma then
      match pma.writeMemory ⟨m.uarch.ram, m.uarch.ramDirty⟩ paddr data with
      | .ok p => some { m with uarch := { m.uarch with ram := p.mem, ramDirty := p.dirty } }
      | .error _ => none
    else
      match pma.writeMemory ⟨m.s.mem, m.s.dirty⟩ paddr data with
      | .ok p => some (m.withState { m.s with mem := p.mem, dirty := p.dirty })
      | .error _ => none

def busAccess : Handler BusSig Fault RunState
  | .readMemory paddr length => query fun m => .ok (doReadMemory m paddr length)
  | .writeMemory paddr data => fun m =>
    match doWriteMemory m paddr data with
    | some m' => .ok true m'
    | none => .ok false m
  | .setPendingIrq irqId => (plicSetPendingIrq irqId).run baseAccess
  | .resetPendingIrq irqId => (plicResetPendingIrq irqId).run baseAccess
  | .host _ => askHost
  | .outOfFuel => throw .outOfFuel

def onDevice {α : Type} (i : Nat) (p : DProg α) : RunM α := fun m =>
  match m.vdevs[i]? with
  | none => .error .noDevice m
  | some d =>
    match (p d).run busAccess m with
    | .ok (a, d') m' => .ok a { m' with vdevs := m'.vdevs.set i d' }
    | .error e m' => .error e m'

def vdevIndex (pma : PmaEntry) : Nat := pma.index - m.s.board.ranges.length

def doVirtioRead (pma : PmaEntry) (offset : Word) (size : MemSize) : RunM (Option Word) := do
  let m ← get
  onDevice (vdevIndex m pma) fun d => pure ((d.mmioRead offset size).map (·.setWidth 64), d)

def doVirtioWrite (fuel : Nat) (pma : PmaEntry) (offset val : Word) (size : MemSize) :
    RunM ExecuteStatus := do
  let m ← get
  onDevice (vdevIndex m pma) (VirtioDevice.mmioWrite fuel offset (val.setWidth 32) size)

/-! ## Polling -/

/-- Poll the devices from position `i` on. -/
def pollSelectedVirtioDevices (fuel : Nat) : Nat → Nat → RunM Bool
  | 0, _ => pure false
  | n + 1, i => do
    let requested ← onDevice i fun d => VirtioDevice.serve fuel d.cls.pollSelected d
    let more ← pollSelectedVirtioDevices fuel n (i + 1)
    pure (requested || more)

def virtioDeviceConsole : BitVec 32 := 3

/-- The console is the first device, if it is there at all. -/
def hasVirtioConsole : Bool :=
  match m.vdevs with
  | d :: _ => d.deviceId == virtioDeviceConsole
  | [] => false

def hasHtifConsole : Bool := m.s.regs .htifIconsole &&& 1 != 0

/-- Whether the host has input on its terminal. -/
def osPollTty : RunM Bool := do
  let answer ← askHost
  pure (answer != 0)

/-- Wait for input: the timeout that is left of `timeoutUs`, and whether an interrupt was requested.
Devices can lower the timeout. -/
def pollDevices (fuel : Nat) (timeoutUs : Word) : RunM (Word × Bool) := do
  let m ← get
  if m.vdevs ≠ [] then
    let lowered ← askHost
    let timeoutUs := if lowered < timeoutUs then lowered else timeoutUs
    let requested ← pollSelectedVirtioDevices fuel m.vdevs.length 0
    if hasVirtioConsole m then
      pure (timeoutUs, requested)
    else if hasHtifConsole m then
      let input ← osPollTty
      pure (timeoutUs, requested || input)
    else
      pure (timeoutUs, requested)
  else if hasHtifConsole m then
    let input ← osPollTty
    pure (timeoutUs, input)
  else
    pure (timeoutUs, false)

/-- The cycle after a wait of `elapsedUs`, which never goes beyond `mcycleMax`. -/
def mcycleAfter (mcycle mcycleMax elapsedUs : Word) : Word :=
  let nextMcycle := mcycle + elapsedUs * rtcCyclesPerUs
  let nextMcycle := if nextMcycle < mcycle then mcycle else nextMcycle
  if mcycleMax < nextMcycle then mcycleMax else nextMcycle

/-- Wait for external interrupts. Only machines in unreproducible mode do. -/
def doPollExternalInterrupts (fuel : Nat) (mcycle mcycleMax : Word) : RunM (Word × Bool) := do
  let m ← get
  if m.s.regs .iunrep = 0 then
    pure (mcycle, false)
  else
    let (timeoutUs, interrupted) ← pollDevices fuel ((mcycleMax - mcycle) / rtcCyclesPerUs)
    if timeoutUs = 0 then
      pure (mcycle, interrupted)
    else
      let elapsed ← askHost
      -- the clock of the host may go backwards
      let elapsedUs := if elapsed.msb then 0 else elapsed
      pure (mcycleAfter mcycle mcycleMax elapsedUs, interrupted)

/-! ## All operations -/

/-- The operations of the interpreter on a machine. -/
def stateAccess (fuel : Nat) : Handler AccessSig Fault RunState
  | .pollExternalInterrupts mcycle mcycleMax => doPollExternalInterrupts fuel mcycle mcycleMax
  | .virtioRead pma offset size => doVirtioRead pma offset size
  | .virtioWrite pma offset val size => doVirtioWrite fuel pma offset val size
  | o => baseAccess o

/-- The outcome of a program on a machine. -/
abbrev AProg.exec {α : Type} (p : AProg α) (fuel : Nat) : RunM α := p.run (stateAccess fuel)

end Interpret

end MachineEmulator
