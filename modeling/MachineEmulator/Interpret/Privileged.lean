import MachineEmulator.Interpret.Csr

/-!
# Privileged instructions

The instructions that return from traps, wait for interrupts and order address translation. Each answers
the status of its execution and the address of the next instruction; waiting can also advance the cycle
counter.
-/

namespace MachineEmulator.Interpret

/-- The status of an execution and the address of the next instruction. -/
abbrev Outcome := ExecuteStatus × Word

/-- The outcome of an instruction that the next one follows. -/
def advanceToNextInsn (pc : Word) (status : ExecuteStatus) : Outcome := (status, pc + 4)

/-- `mstatus` after a return from a trap that supervisor mode handled. -/
def mstatusSret (mstatus : Word) : Word :=
  let spp := (mstatus &&& mstatusSppMask) >>> mstatusSppShift
  let spie := (mstatus &&& mstatusSpieMask) >>> mstatusSpieShift
  let mstatus := (mstatus &&& ~~~mstatusSieMask) ||| (spie <<< mstatusSieShift)
  let mstatus := mstatus ||| mstatusSpieMask
  let mstatus := mstatus &&& ~~~mstatusSppMask
  if spp < prvM then mstatus &&& ~~~mstatusMprvMask else mstatus

/-- `mstatus` after a return from a trap that machine mode handled. -/
def mstatusMret (mstatus : Word) : Word :=
  let mpp := (mstatus &&& mstatusMppMask) >>> mstatusMppShift
  let mpie := (mstatus &&& mstatusMpieMask) >>> mstatusMpieShift
  let mstatus := (mstatus &&& ~~~mstatusMieMask) ||| (mpie <<< mstatusMieShift)
  let mstatus := mstatus ||| mstatusMpieMask
  let mstatus := mstatus &&& ~~~mstatusMppMask
  if mpp < prvM then mstatus &&& ~~~mstatusMprvMask else mstatus

/-- Raise an illegal instruction exception. -/
def raiseIllegal (pc : Word) (insn : Insn) : AProg Outcome := do
  let newPc ← raiseException pc mcauseIllegalInsn (insn.setWidth 64)
  pure (.failure, newPc)

def executeSRET (pc : Word) (insn : Insn) : AProg Outcome := do
  let prv ← read .iprv
  let mstatus ← read .mstatus
  if prv < prvS ∨ (prv = prvS ∧ mstatus &&& mstatusTsrMask ≠ 0) then
    raiseIllegal pc insn
  else
    let spp := (mstatus &&& mstatusSppMask) >>> mstatusSppShift
    write .mstatus (mstatusSret mstatus)
    if prv ≠ spp then
      setPrv spp
    let sepc ← read .sepc
    pure (.successAndServeInterrupts, sepc)

def executeMRET (pc : Word) (insn : Insn) : AProg Outcome := do
  let prv ← read .iprv
  if prv < prvM then
    raiseIllegal pc insn
  else
    let mstatus ← read .mstatus
    let mpp := (mstatus &&& mstatusMppMask) >>> mstatusMppShift
    write .mstatus (mstatusMret mstatus)
    if prv ≠ mpp then
      setPrv mpp
    let mepc ← read .mepc
    pure (.successAndServeInterrupts, mepc)

/-- Wait for interrupts until the next timer interrupt. -/
def executeWFI (pc mcycle : Word) (insn : Insn) : AProg (Outcome × Word) := do
  let prv ← read .iprv
  let mstatus ← read .mstatus
  if prv = prvU ∨ (prv < prvM ∧ mstatus &&& mstatusTwMask ≠ 0) then
    let outcome ← raiseIllegal pc insn
    pure (outcome, mcycle)
  else
    let mtimecmp ← read .clintMtimecmp
    let mcycleMax := rtcTimeToCycle mtimecmp
    if mcycle < mcycleMax then
      let (nextMcycle, interrupted) ← pollExternalInterrupts mcycle mcycleMax
      let status := if interrupted then .successAndServeInterrupts else .success
      pure (advanceToNextInsn pc status, nextMcycle)
    else
      pure (advanceToNextInsn pc .success, mcycle)

/-- Drop the translations that the TLB holds. -/
def executeSfenceVma (pc : Word) (insn : Insn) (rs1 : Fin 32) : AProg Outcome := do
  let prv ← read .iprv
  let mstatus ← read .mstatus
  if prv = prvU ∨ (prv = prvS ∧ mstatus &&& mstatusTvmMask ≠ 0) then
    raiseIllegal pc insn
  else
    if rs1 = 0 then
      flushAllTlb
    else
      let vaddr ← read (.x rs1)
      flushTlbVaddr vaddr
    pure (advanceToNextInsn pc .successAndFlushFetch)

end MachineEmulator.Interpret
