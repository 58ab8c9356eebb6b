import MachineEmulator.Virtio.Device

/-!
# The console

The console as a kind of device, a program over the services of the shared part. The guest gets characters
through the first queue and sends them through the second.

The terminal is part of the host, and with it the console's note that the guest waits for input. The host
may have characters without end, and an offset of the guest's characters may wrap around. So a loop goes on
for `rounds` chunks at most, whatever their number is.
-/

namespace MachineEmulator.Virtio.VirtioConsole

def ttyBufSize : Nat := 4096

def virtioDeviceConsole : BitVec 32 := 3
def virtioConsoleFSize : Word := 1
def virtioConsoleReceiveq : Fin virtioQueueCount := ⟨0, Nat.zero_lt_two⟩
def virtioConsoleTransmitq : Fin virtioQueueCount := ⟨1, Nat.one_lt_two⟩
def virtqUsedFNoNotify : BitVec 16 := 1

abbrev CProg (α : Type) := Prog ServiceSig α

def ask (o : ServiceOp) : CProg o.Ans := Prog.perform (S := ServiceSig) o

def notifyDeviceNeedsReset : CProg Bool := do
  let () ← ask .notifyDeviceNeedsReset
  pure false

/-! ## The terminal -/

/-- A request to the terminal: the number of a function of the host, and its argument. -/
def askTty (function arg : Nat) : CProg Word := ask (.host (BitVec.ofNat 64 (8 * arg + function)))

def stdinReady : CProg Bool := do
  pure ((← askTty 0 0) != 0)

def osGetTtySize : CProg (BitVec 16 × BitVec 16) := do
  let size ← askTty 1 0
  pure (size.setWidth 16, (size >>> 16).setWidth 16)

def osPollSelectedTty : CProg Bool := do
  pure ((← askTty 2 0) != 0)

def nextChars : Nat → CProg (List Byte)
  | 0 => pure []
  | n + 1 => do
    let c ← askTty 3 0
    let chars ← nextChars n
    pure (c.setWidth 8 :: chars)

def osGetchars (maxLen : Nat) : CProg (List Byte) := do
  let len ← askTty 4 maxLen
  nextChars (min len.toNat maxLen)

def osPutchars : List Byte → CProg Unit
  | [] => pure ()
  | c :: chars => do
    let _ ← askTty 5 c.toNat
    osPutchars chars

/-! ## The device -/

/-- The columns and the rows are the first fields of the configuration space. -/
def notifyConsoleSizeToGuest : CProg Bool := do
  let (cols, rows) ← osGetTtySize
  let config : Nat → Byte ← ask .getConfig
  let size := toLE 2 cols.toNat ++ toLE 2 rows.toNat
  if readBytes config 0 4 = size then
    pure false
  else
    let () ← ask (.setConfig (writeBytes config 0 size))
    let () ← ask .notifyConfigChange
    pure true

/-- The characters from `off` on, through a buffer that holds `chunk`. -/
def writeNextCharsToHost (queueIdx : Fin virtioQueueCount) (descIdx : BitVec 16) (readAvailLen : BitVec 32) :
    Nat → BitVec 32 → List Byte → CProg Bool
  | 0, _, _ => pure false
  | rounds + 1, off, chunk => do
    if off < readAvailLen then
      let chunkLen := min ttyBufSize (readAvailLen - off).toNat
      let read : Bool × List Byte ← ask (.readDescMem queueIdx descIdx off (chunk.take chunkLen))
      if read.1 then
        osPutchars read.2
        writeNextCharsToHost queueIdx descIdx readAvailLen rounds (off + BitVec.ofNat 32 ttyBufSize)
          (read.2 ++ chunk.drop chunkLen)
      else
        notifyDeviceNeedsReset
    else
      let consumed : Bool ← ask (.consumeQueue queueIdx descIdx 0 0)
      if consumed then pure true else notifyDeviceNeedsReset

/-- Characters for a buffer of the guest that has room. -/
def writeSlot (slot : WriteSlot) : CProg Bool := do
  let chunk ← osGetchars (min slot.writeAvailLen.toNat ttyBufSize)
  if chunk = [] then
    pure false
  else
    let written : Bool ← ask (.writeDescMem virtioConsoleReceiveq slot.descIdx 0 chunk)
    if !written then
      notifyDeviceNeedsReset
    else
      let consumed : Bool ← ask (.consumeQueue virtioConsoleReceiveq slot.descIdx
        (BitVec.ofNat 32 chunk.length) virtqUsedFNoNotify)
      if !consumed then
        notifyDeviceNeedsReset
      else
        -- the driver has to know right away
        let () ← ask .notifyQueueUsed
        pure true

def writeNextCharsToGuest : CProg Bool := do
  let driverOk : Bool ← ask .driverOk
  if !driverOk then
    pure false
  else
    let slot : WriteSlot ← ask (.prepareQueueWrite virtioConsoleReceiveq)
    if !slot.ok then
      notifyDeviceNeedsReset
    else if slot.writeAvailLen = 0 then
      -- the queue is not in use, or full
      pure false
    else
      writeSlot slot

/-- The loop of a poll, with what it has to return so far. -/
def writeCharsToGuest : Nat → Bool → CProg Bool
  | 0, interruptRequested => pure interruptRequested
  | rounds + 1, interruptRequested => do
    if ← writeNextCharsToGuest then writeCharsToGuest rounds true else pure interruptRequested

def pollSelected (rounds : Nat) : CProg Bool := do
  let driverOk : Bool ← ask .driverOk
  if !driverOk then
    pure false
  else if !(← stdinReady) then
    pure false
  else
    let interruptRequested ← notifyConsoleSizeToGuest
    if ← osPollSelectedTty then writeCharsToGuest rounds interruptRequested else pure interruptRequested

def onDeviceQueueAvailable (rounds : Nat) (queueIdx : Fin virtioQueueCount) (descIdx : BitVec 16)
    (readAvailLen : BitVec 32) : CProg Bool :=
  if queueIdx = virtioConsoleReceiveq then
    -- the next poll writes to it
    pure false
  else if queueIdx = virtioConsoleTransmitq then
    writeNextCharsToHost queueIdx descIdx readAvailLen rounds 0 (List.replicate ttyBufSize 0)
  else
    notifyDeviceNeedsReset

def cls (rounds : Nat) : VirtioClass where
  kind := .console
  onDeviceOk := do
    let _ ← notifyConsoleSizeToGuest
    pure ()
  onDeviceQueueAvailable queueIdx descIdx readAvailLen _ :=
    onDeviceQueueAvailable rounds queueIdx descIdx readAvailLen
  pollSelected := pollSelected rounds
  readShmBase _ := -1
  readShmLength _ := -1

end VirtioConsole

/-- The configuration space of a console has 12 bytes. -/
def virtioConsole (virtioIdx rounds : Nat) : VirtioDevice :=
  .make (VirtioConsole.cls rounds) virtioIdx VirtioConsole.virtioDeviceConsole VirtioConsole.virtioConsoleFSize 12

end MachineEmulator.Virtio
