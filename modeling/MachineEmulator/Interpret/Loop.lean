import MachineEmulator.Interpret.Decode

/-!
# The interpreter

* `fetchInsn` : the next instruction, through the translation of the last fetch if it is in the same page;
* `innerStep`, `innerLoop` : instruction after instruction, until interrupts have to be served or the next
  tick of the clock;
* `outerLoop` : from tick to tick;
* `interpret` : run until a target cycle.

Every iteration of the inner loop advances the cycle counter, so the number of cycles that are left bounds
the number of iterations of both loops.
-/

namespace MachineEmulator.Interpret

/-! ## Fetch -/

structure FetchCache where
  vaddrPage : Word
  vhOffset : HostAddr

/-- A cache that the address `pc` does not match. -/
def FetchCache.invalidate (cache : FetchCache) (pc : Word) : FetchCache :=
  { cache with vaddrPage := ~~~pc }

/-- An answer, or the address of the handler of the exception raised. -/
abbrev Fetched (α : Type) := Except Word α

def raiseFetch {α : Type} (pc cause vaddr : Word) : AProg (Fetched α) := do
  let newPc ← raiseException pc cause vaddr
  pure (.error newPc)

def fetchTranslatePcSlow (pc vaddr : Word) : AProg (Fetched HostAddr) := do
  match ← translateVirtualAddress true vaddr .execute with
  | none => raiseFetch pc mcauseFetchPageFault vaddr
  | some paddr =>
    let pma ← findPma .u16 paddr
    if !pma.istartM || !pma.flags.X then
      raiseFetch pc mcauseInsnAccessFault vaddr
    else
      let hpage ← replaceTlbEntry .code vaddr paddr pma
      pure (.ok (hpage.add (vaddr &&& pageOffsetMask)))

/-- The host address behind an address to fetch from. -/
def fetchTranslatePc (pc vaddr : Word) : AProg (Fetched HostAddr) := do
  match ← translateVaddrViaTlb .code .u16 vaddr with
  | some hptr => pure (.ok hptr)
  | none => fetchTranslatePcSlow pc vaddr

/-- The address is in the page of the last fetch, and an instruction there does not cross its end. -/
def fetchHits (pc : Word) (cache : FetchCache) : Bool := pc ^^^ cache.vaddrPage < 4094

/-- Only the last two bytes of a page are left. -/
def crossesPage (pc : Word) : Bool := (~~~pc &&& pageOffsetMask) >>> 1 == 0

def readInsn (hptr : HostAddr) : AProg Insn := do
  let insn ← readHostWord .u32 hptr
  pure (insn.setWidth 32)

/-- An instruction that may continue in the next page. -/
def fetchCrossing (pc : Word) (cache : FetchCache) (hptr : HostAddr) :
    AProg (FetchCache × Fetched Insn) := do
  let low ← readHostWord .u16 hptr
  let insn : Insn := low.setWidth 32
  if insnIsUncompressed insn then
    let vaddr := pc + 2
    match ← fetchTranslatePc pc vaddr with
    | .error newPc => pure (cache, .error newPc)
    | .ok hptr =>
      let high ← readHostWord .u16 hptr
      pure (⟨vaddr, hptr.add (-vaddr)⟩, .ok (insn ||| (high.setWidth 32 <<< 16)))
  else
    pure (cache, .ok insn)

def fetchInsn (pc : Word) (cache : FetchCache) : AProg (FetchCache × Fetched Insn) := do
  if fetchHits pc cache then
    let insn ← readInsn (cache.vhOffset.add pc)
    pure (cache, .ok insn)
  else
    match ← fetchTranslatePc pc pc with
    | .error newPc => pure (cache, .error newPc)
    | .ok hptr =>
      let cache : FetchCache := ⟨pc &&& ~~~pageOffsetMask, hptr.add (-pc)⟩
      if crossesPage pc then
        fetchCrossing pc cache hptr
      else
        let insn ← readInsn hptr
        pure (cache, .ok insn)

/-! ## The loops -/

/-- What the loops keep outside of the machine. -/
structure Cursor where
  pc : Word
  mcycle : Word
  cache : FetchCache

inductive StepResult where
  | next (c : Cursor)
  | serve (c : Cursor)
  | stop (status : ExecuteStatus)

/-- Write the program counter and the cycle counter back. -/
def commit (c : Cursor) (status : ExecuteStatus) : AProg ExecuteStatus := do
  write .pc c.pc
  write .mcycle c.mcycle
  pure status

/-- What follows the execution of an instruction. The cache is dropped after everything but plain
success. -/
def afterExecute (cache : FetchCache) (status : ExecuteStatus) (pc mcycle : Word) :
    AProg StepResult := do
  let c : Cursor := ⟨pc, mcycle + 1, if status = .success then cache else cache.invalidate pc⟩
  if status.code < ExecuteStatus.successAndServeInterrupts.code then
    pure (.next c)
  else if status = .successAndServeInterrupts then
    pure (.serve c)
  else
    let status ← commit c status
    pure (.stop status)

def innerStep (fp : SoftFloat) (c : Cursor) : AProg StepResult := do
  let (cache, fetched) ← fetchInsn c.pc c.cache
  match fetched with
  | .error newPc => pure (.next ⟨newPc, c.mcycle + 1, cache⟩)
  | .ok insn =>
    let ((status, pc), mcycle) ← (executeInsn fp c.pc c.mcycle insn).access
    afterExecute cache status pc mcycle

/-- Instructions until `mcycleTickEnd`, or until one needs the attention of the outer loop. -/
def innerLoop (fp : SoftFloat) (mcycleTickEnd : Word) : Nat → Cursor → AProg (Cursor ⊕ ExecuteStatus)
  | 0, c => pure (.inl c)
  | n + 1, c =>
    if c.mcycle < mcycleTickEnd then do
      match ← innerStep fp c with
      | .next c => innerLoop fp mcycleTickEnd n c
      | .serve c => pure (.inl c)
      | .stop status => pure (.inr status)
    else
      pure (.inl c)

/-- The end of the current stretch: the next tick, or the target if it comes first. -/
def tickEnd (mcycleEnd mcycle : Word) : Word :=
  let left := mcycleEnd - mcycle
  let toTick := rtcFreqDiv - mcycle % rtcFreqDiv
  mcycle + (if toTick < left then toTick else left)

/-- The work at the head of the outer loop: the clock, the host and the pending interrupts. -/
def serveInterrupts (c : Cursor) : AProg Cursor := do
  if rtcIsTick c.mcycle then
    setRtcInterrupt c.mcycle
    let _ ← pollExternalInterrupts c.mcycle c.mcycle
  let pc ← raiseInterruptIfAny c.pc
  pure { c with pc }

def outerLoop (fp : SoftFloat) (mcycleEnd : Word) : Nat → Cursor → AProg ExecuteStatus
  | 0, c => commit c .success
  | n + 1, c =>
    if c.mcycle < mcycleEnd then do
      let c ← serveInterrupts c
      let mcycleTickEnd := tickEnd mcycleEnd c.mcycle
      match ← innerLoop fp mcycleTickEnd (mcycleTickEnd - c.mcycle).toNat c with
      | .inl c => outerLoop fp mcycleEnd n c
      | .inr status => pure status
    else
      commit c .success

def interpretLoop (fp : SoftFloat) (mcycleEnd mcycle : Word) : AProg ExecuteStatus := do
  let pc ← read .pc
  outerLoop fp mcycleEnd (mcycleEnd - mcycle).toNat ⟨pc, mcycle, ⟨~~~pc, .raw 0⟩⟩

def breakReason (status : ExecuteStatus) : AProg BreakReason := do
  let iflagsH ← read .iflagsH
  if iflagsH ≠ 0 then
    pure .halted
  else
    let iflagsY ← read .iflagsY
    if iflagsY ≠ 0 then
      pure .yieldedManually
    else
      let iflagsX ← read .iflagsX
      if iflagsX ≠ 0 then
        pure .yieldedAutomatically
      else if status = .successAndYield then
        pure .yieldedSoftly
      else
        pure .reachedTargetMcycle

/-- Run the machine until the cycle `mcycleEnd`, unless it halts or yields before. -/
def interpret (fp : SoftFloat) (mcycleEnd : Word) : AProg BreakReason := do
  let mcycle ← read .mcycle
  let iflagsH ← read .iflagsH
  if iflagsH ≠ 0 then
    pure .halted
  else
    let iflagsY ← read .iflagsY
    if iflagsY ≠ 0 then
      pure .yieldedManually
    else if mcycleEnd ≤ mcycle then
      pure .reachedTargetMcycle
    else
      write .iflagsX 0
      let status ← interpretLoop fp mcycleEnd mcycle
      breakReason status

end MachineEmulator.Interpret
