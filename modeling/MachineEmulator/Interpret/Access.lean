import MachineEmulator.Interpret.Constants
import MachineEmulator.Lib.Monitor

/-!
# State access

The interpreter is generic in how it accesses the state of the machine. `AccessOp` lists the operations
of a state accessor, and an `AProg` is a program that asks for them.

Memory words of every size are carried in a `Word`, zero-extended.
-/

namespace MachineEmulator.Interpret

/-! ## Outcomes -/

inductive ExecuteStatus where
  | success
  | failure
  | successAndFlushFetch
  | successAndServeInterrupts
  | successAndYield
  | successAndHalt
  deriving DecidableEq, Repr

/-- The numeric value of a status; statuses are compared by it. -/
def ExecuteStatus.code : ExecuteStatus → Nat
  | .success => 0
  | .failure => 1
  | .successAndFlushFetch => 2
  | .successAndServeInterrupts => 3
  | .successAndYield => 4
  | .successAndHalt => 5

/-- Reasons for the interpreter to return. -/
inductive BreakReason where
  | failed
  | halted
  | yieldedManually
  | yieldedAutomatically
  | yieldedSoftly
  | reachedTargetMcycle
  deriving DecidableEq, Repr

/-! ## Words of memory -/

inductive MemSize where
  | u8
  | u16
  | u32
  | u64
  deriving DecidableEq, Repr

variable (pma : PmaEntry) (t : TlbSet) (size : MemSize) (vaddr paddr : Word)

namespace MemSize

def bytes : MemSize → Nat
  | .u8 => 1
  | .u16 => 2
  | .u32 => 4
  | .u64 => 8

def sizeof : Word := BitVec.ofNat 64 size.bytes

def truncate : MemSize → Word → Word
  | .u8, v => (v.setWidth 8).setWidth 64
  | .u16, v => (v.setWidth 16).setWidth 64
  | .u32, v => (v.setWidth 32).setWidth 64
  | .u64, v => v

end MemSize

/-! ## TLB entries -/

/-- The TLB index of a virtual address. -/
def tlbGetEntryIndex : Fin 256 :=
  ⟨(vaddr >>> 12).toNat % 256, Nat.mod_lt _ (Nat.succ_pos 255)⟩

/-- Does the entry of a page hit an access? A misaligned access never does. -/
def tlbIsHit (vaddrPage vaddr : Word) : Bool :=
  vaddrPage == vaddr &&& ~~~(pageOffsetMask &&& ~~~(size.sizeof - 1))

/-! ## Operations -/

/-- The operations of a state accessor. -/
inductive AccessOp where
  | readReg (r : ShadowReg)
  | writeReg (r : Reg) (val : Word)
  | pollExternalInterrupts (mcycle mcycleMax : Word)
  | readMemoryWord (size : MemSize) (paddr : Word) (hpage : HostAddr) (hoffset : Word)
  | writeMemoryWord (size : MemSize) (paddr : Word) (hpage : HostAddr) (hoffset val : Word)
  | getHostMemory (pma : PmaEntry)
  | readPmaEntry (index : Nat)
  | markDirtyPage (pma : PmaEntry) (addressInRange : Word)
  | translateVaddrViaTlb (t : TlbSet) (size : MemSize) (vaddr : Word)
  | readMemoryWordViaTlb (t : TlbSet) (size : MemSize) (vaddr : Word)
  | writeMemoryWordViaTlb (t : TlbSet) (size : MemSize) (vaddr val : Word)
  | replaceTlbEntry (t : TlbSet) (vaddr paddr : Word) (pma : PmaEntry)
  | flushTlbType (t : TlbSet)
  | flushTlbVaddr (vaddr : Word)
  | getSoftYield
  /-- A read through a host pointer that a translation returned. -/
  | readHostWord (size : MemSize) (hptr : HostAddr)
  /-- The character the host has on its terminal, if any. -/
  | osGetchar
  | osPutchar (c : Byte)
  | virtioRead (pma : PmaEntry) (offset : Word) (size : MemSize)
  | virtioWrite (pma : PmaEntry) (offset val : Word) (size : MemSize)

/-- The type of the answer to an operation. -/
def AccessOp.Ans : AccessOp → Type
  | .readReg _ | .readMemoryWord .. | .readHostWord .. => Word
  | .pollExternalInterrupts .. => Word × Bool
  | .getHostMemory _ | .replaceTlbEntry .. => HostAddr
  | .readPmaEntry _ => PmaEntry
  | .translateVaddrViaTlb .. => Option HostAddr
  | .readMemoryWordViaTlb .. | .virtioRead .. => Option Word
  | .writeMemoryWordViaTlb .. | .getSoftYield => Bool
  | .osGetchar => BitVec 32
  | .virtioWrite .. => ExecuteStatus
  | _ => Unit

abbrev AccessSig : Sig := ⟨AccessOp, AccessOp.Ans⟩

abbrev AProg (α : Type) := Prog AccessSig α

def readShadow (r : ShadowReg) : AProg Word := Prog.perform (S := AccessSig) (.readReg r)
def read (r : Reg) : AProg Word := Prog.perform (S := AccessSig) (.readReg (.reg r))
def write (r : Reg) (val : Word) : AProg Unit := Prog.perform (S := AccessSig) (.writeReg r val)
def pollExternalInterrupts (mcycle mcycleMax : Word) : AProg (Word × Bool) :=
  Prog.perform (S := AccessSig) (.pollExternalInterrupts mcycle mcycleMax)
def readMemoryWord (hpage : HostAddr) (hoffset : Word) : AProg Word :=
  Prog.perform (S := AccessSig) (.readMemoryWord size paddr hpage hoffset)
def writeMemoryWord (hpage : HostAddr) (hoffset val : Word) :
    AProg Unit :=
  Prog.perform (S := AccessSig) (.writeMemoryWord size paddr hpage hoffset val)
def getHostMemory : AProg HostAddr :=
  Prog.perform (S := AccessSig) (.getHostMemory pma)
def readPmaEntry (index : Nat) : AProg PmaEntry := Prog.perform (S := AccessSig) (.readPmaEntry index)
def markDirtyPage (addressInRange : Word) : AProg Unit :=
  Prog.perform (S := AccessSig) (.markDirtyPage pma addressInRange)
def translateVaddrViaTlb : AProg (Option HostAddr) :=
  Prog.perform (S := AccessSig) (.translateVaddrViaTlb t size vaddr)
def readMemoryWordViaTlb : AProg (Option Word) :=
  Prog.perform (S := AccessSig) (.readMemoryWordViaTlb t size vaddr)
def writeMemoryWordViaTlb (vaddr val : Word) : AProg Bool :=
  Prog.perform (S := AccessSig) (.writeMemoryWordViaTlb t size vaddr val)
def replaceTlbEntry (pma : PmaEntry) : AProg HostAddr :=
  Prog.perform (S := AccessSig) (.replaceTlbEntry t vaddr paddr pma)
def flushTlbType : AProg Unit := Prog.perform (S := AccessSig) (.flushTlbType t)
def flushTlbVaddr : AProg Unit := Prog.perform (S := AccessSig) (.flushTlbVaddr vaddr)
def getSoftYield : AProg Bool := Prog.perform (S := AccessSig) .getSoftYield
def readHostWord (hptr : HostAddr) : AProg Word :=
  Prog.perform (S := AccessSig) (.readHostWord size hptr)
def osGetchar : AProg (BitVec 32) := Prog.perform (S := AccessSig) .osGetchar
def osPutchar (c : Byte) : AProg Unit := Prog.perform (S := AccessSig) (.osPutchar c)
def virtioRead (offset : Word) (size : MemSize) : AProg (Option Word) :=
  Prog.perform (S := AccessSig) (.virtioRead pma offset size)
def virtioWrite (offset val : Word) (size : MemSize) : AProg ExecuteStatus :=
  Prog.perform (S := AccessSig) (.virtioWrite pma offset val size)

def flushAllTlb : AProg Unit := do
  flushTlbType .code
  flushTlbType .read
  flushTlbType .write

/-! ## Physical memory attributes -/

/-- The search for the entry of an access, from position `index` on. The table ends with a sentinel, so
the search never reads past its `pmaMax` entries. -/
def findPmaEntryFrom (size : MemSize) (paddr : Word) : Nat → Nat → AProg PmaEntry
  | 0, index => readPmaEntry index
  | fuel + 1, index => do
    let pma ← readPmaEntry index
    if pma.length = 0 then
      pure pma
    else if pma.start ≤ paddr ∧ paddr - pma.start ≤ pma.length - size.sizeof then
      pure pma
    else
      findPmaEntryFrom size paddr fuel (index + 1)

/-- The entry where a word falls, or the empty sentinel. -/
def findPma : AProg PmaEntry := findPmaEntryFrom size paddr pmaMax 0

end MachineEmulator.Interpret
