import MachineEmulator.Interpret.Devices

/-!
# Virtual memory

* `translateVirtualAddress` : the walk of the page tables, which sets the accessed and dirty bits of the
  leaf entry it ends at;
* `readVirtualMemory`, `writeVirtualMemory` : loads and stores. They go through the TLB if they can; an
  access that cannot be made raises an exception.
-/

namespace MachineEmulator.Interpret

/-- The host page behind a physical page of a range whose host memory starts at `hmem`. -/
def pageHostAddr (hmem : HostAddr) (paddrPage : Word) (pma : PmaEntry) : HostAddr :=
  hmem.add (paddrPage - pma.start)

def writeRamUint64 (paddr val : Word) : AProg Bool := do
  let pma ← findPma .u64 paddr
  if !pma.istartM || !pma.flags.W then
    pure false
  else
    let paddrPage := paddr &&& ~~~pageOffsetMask
    let hmem ← getHostMemory pma
    writeMemoryWord .u64 paddr (pageHostAddr hmem paddrPage pma) (paddr - paddrPage) val
    markDirtyPage pma (paddr - pma.start)
    pure true

def readRamUint64 (paddr : Word) : AProg (Option Word) := do
  let pma ← findPma .u64 paddr
  if !pma.istartM || !pma.flags.R then
    pure none
  else
    let paddrPage := paddr &&& ~~~pageOffsetMask
    let hmem ← getHostMemory pma
    let val ← readMemoryWord .u64 paddr (pageHostAddr hmem paddrPage pma) (paddr - paddrPage)
    pure (some val)

/-! ## Translation -/

inductive Xwr where
  | read
  | write
  | execute
  deriving DecidableEq, Repr

def Xwr.shift : Xwr → Nat
  | .read => 0
  | .write => 1
  | .execute => 2

/-- The physical page a page-table entry points at. -/
def ptePpn (pte : Word) : Word := (pte &&& ptePpnMask) <<< 2

/-- The permission bits of a page-table entry. -/
def pteXwr (pte : Word) : Word := (pte >>> 1) &&& 7

def leafAllows (prv mstatus pte : Word) (xwr : Xwr) (vaddrMask : Word) : Bool :=
  let bits := pteXwr pte
  if bits = pteXwrWMask ∨ bits = pteXwrWMask ||| pteXwrXMask then false
  else if prv = prvS ∧ pte &&& pteUMask ≠ 0 ∧ xwr = .execute then false
  else if prv = prvS ∧ pte &&& pteUMask ≠ 0 ∧ mstatus &&& mstatusSumMask = 0 then false
  else if prv ≠ prvS ∧ pte &&& pteUMask = 0 then false
  else
    let bits := if mstatus &&& mstatusMxrMask ≠ 0 then bits ||| (bits >>> pteXwrXShift) else bits
    if (bits >>> xwr.shift) &&& 1 = 0 then false
    else ptePpn pte &&& vaddrMask = 0

/-- The leaf entry with its accessed and dirty bits set for the access. -/
def pteUpdate (pte : Word) (xwr : Xwr) : Word :=
  let pte := pte ||| pteAMask
  if xwr = .write then pte ||| pteDMask else pte

/-- The walk of the page tables from a table at `pteBase` on, with `levels` levels to go. -/
def walk (updatePte : Bool) (prv mstatus vaddr : Word) (xwr : Xwr) : Nat → Word → AProg (Option Word)
  | 0, _ => pure none
  | levels + 1, pteBase => do
    let vaddrShift := log2PageSize + log2VpnSize * levels
    let vpn := (vaddr >>> vaddrShift) &&& vpnMask
    let pteAddr := pteBase + (vpn <<< log2PteSize)
    match ← readRamUint64 pteAddr with
    | none => pure none
    | some pte =>
      if pte &&& pteVMask = 0 then
        pure none
      else if pte &&& (pte6054Mask ||| ptePbmtMask ||| pteNMask) ≠ 0 then
        pure none
      else if pteXwr pte = 0 then
        walk updatePte prv mstatus vaddr xwr levels (ptePpn pte)
      else
        let vaddrMask : Word := (1 <<< vaddrShift) - 1
        if leafAllows prv mstatus pte xwr vaddrMask then
          if updatePte ∧ pte ≠ pteUpdate pte xwr then
            let _ ← writeRamUint64 pteAddr (pteUpdate pte xwr)
          pure (some ((vaddr &&& vaddrMask) ||| (ptePpn pte &&& ~~~vaddrMask)))
        else
          pure none

/-- The privilege level that data accesses are made with. -/
def effectivePrv (prv mstatus : Word) : Word :=
  if mstatus &&& mstatusMprvMask ≠ 0 then (mstatus &&& mstatusMppMask) >>> mstatusMppShift else prv

/-- The number of page-table levels of a translation mode; `none` for an unsupported one. -/
def satpLevels (mode : Word) : Option Nat :=
  if mode = satpModeSv39 then some 3 else if mode = satpModeSv48 then some 4 else none

/-- The bits above the virtual page numbers are copies of the highest of these. -/
def isCanonical (vaddr : Word) (levels : Nat) : Bool :=
  let vaddrBits := 64 - (log2PageSize + levels * log2VpnSize)
  (vaddr <<< vaddrBits).sshiftRight vaddrBits == vaddr

/-- Translate a virtual address; `none` is a fault. -/
def translateVirtualAddress (updatePte : Bool) (vaddr : Word) (xwr : Xwr) : AProg (Option Word) := do
  let iprv ← read .iprv
  let mstatus ← read .mstatus
  let prv := if xwr ≠ .execute then effectivePrv iprv mstatus else iprv
  if prvS < prv then
    pure (some vaddr)
  else
    let satp ← read .satp
    let mode := satp >>> satpModeShift
    if mode = satpModeBare then
      pure (some vaddr)
    else
      match satpLevels mode with
      | none => pure none
      | some levels =>
        if isCanonical vaddr levels then
          walk updatePte prv mstatus vaddr xwr levels ((satp &&& satpPpnMask) <<< log2PageSize)
        else
          pure none

/-! ## Loads -/

/-- The causes of the exceptions of an access. -/
structure AccessCauses where
  misaligned : Word
  pageFault : Word
  accessFault : Word

def loadCauses : AccessCauses :=
  ⟨mcauseLoadAddressMisaligned, mcauseLoadPageFault, mcauseLoadAccessFault⟩

def storeAmoCauses : AccessCauses :=
  ⟨mcauseStoreAmoAddressMisaligned, mcauseStoreAmoPageFault, mcauseStoreAmoAccessFault⟩

/-- The value loaded, or the address of the handler of the exception raised. -/
abbrev LoadResult := Except Word Word

def raiseLoad (pc cause vaddr : Word) : AProg LoadResult := do
  let newPc ← raiseException pc cause vaddr
  pure (.error newPc)

/-- A load that misses the TLB. The load of a read-modify-write instruction raises store exceptions. -/
def readVirtualMemorySlow (size : MemSize) (raiseStoreExceptions : Bool) (pc mcycle vaddr : Word) :
    AProg LoadResult := do
  let causes := if raiseStoreExceptions then storeAmoCauses else loadCauses
  if vaddr &&& (size.sizeof - 1) ≠ 0 then
    raiseLoad pc causes.misaligned vaddr
  else
    match ← translateVirtualAddress true vaddr .read with
    | none => raiseLoad pc causes.pageFault vaddr
    | some paddr =>
      let pma ← findPma size paddr
      if pma.flags.R && pma.istartM then
        let hpage ← replaceTlbEntry .read vaddr paddr pma
        let val ← readMemoryWord size paddr hpage (vaddr &&& pageOffsetMask)
        pure (.ok val)
      else if pma.flags.R && pma.istartIO then
        match ← deviceRead pma mcycle (paddr - pma.start) size with
        | some val => pure (.ok (size.truncate val))
        | none => raiseLoad pc causes.accessFault vaddr
      else
        raiseLoad pc causes.accessFault vaddr

def readVirtualMemory (size : MemSize) (raiseStoreExceptions : Bool) (pc mcycle vaddr : Word) :
    AProg LoadResult := do
  match ← readMemoryWordViaTlb .read size vaddr with
  | some val => pure (.ok val)
  | none => readVirtualMemorySlow size raiseStoreExceptions pc mcycle vaddr

/-! ## Stores -/

/-- The status of a store, and the address of the handler if an exception was raised. -/
abbrev StoreResult := ExecuteStatus × Word

def raiseStore (pc cause vaddr : Word) : AProg StoreResult := do
  let newPc ← raiseException pc cause vaddr
  pure (.failure, newPc)

def writeVirtualMemorySlow (size : MemSize) (pc vaddr val : Word) : AProg StoreResult := do
  if vaddr &&& (size.sizeof - 1) ≠ 0 then
    raiseStore pc storeAmoCauses.misaligned vaddr
  else
    match ← translateVirtualAddress true vaddr .write with
    | none => raiseStore pc storeAmoCauses.pageFault vaddr
    | some paddr =>
      let pma ← findPma size paddr
      if pma.flags.W && pma.istartM then
        let hpage ← replaceTlbEntry .write vaddr paddr pma
        writeMemoryWord size paddr hpage (vaddr &&& pageOffsetMask) (size.truncate val)
        pure (.success, pc)
      else if pma.flags.W && pma.istartIO then
        let status ← deviceWrite pma (paddr - pma.start) (size.truncate val) size
        if status ≠ .failure then
          pure (status, pc)
        else
          raiseStore pc storeAmoCauses.accessFault vaddr
      else
        raiseStore pc storeAmoCauses.accessFault vaddr

def writeVirtualMemory (size : MemSize) (pc vaddr val : Word) : AProg StoreResult := do
  if ← writeMemoryWordViaTlb .write size vaddr (size.truncate val) then
    pure (.success, pc)
  else
    writeVirtualMemorySlow size pc vaddr val

end MachineEmulator.Interpret
