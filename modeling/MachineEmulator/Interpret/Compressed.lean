import MachineEmulator.Interpret.Float

/-!
# Compressed instructions

Instructions of 16 bits. The high half of the instruction word holds whatever follows them.
-/

namespace MachineEmulator.Interpret.Insn

/-! ## Fields -/

variable (pc mcycle : Word) (insn : Insn)

def getCIWCLRdCSCARs2 : Fin 32 := regOf (((insn >>> 2) &&& 7) ||| 8)
def getCLCSCACBRs1 : Fin 32 := regOf (((insn >>> 7) &&& 7) ||| 8)
def getCRCSSRs2 : Fin 32 := regOf ((insn >>> 2) &&& 0x1f)

def getCJImm : BitVec 32 :=
  ((insn <<< 19).sshiftRight 20 &&& ~~~(0b11111111111 : BitVec 32)) |||
    ((insn >>> 7) &&& 0b10000) |||
    ((insn >>> 1) &&& 0b1100000000) |||
    ((insn <<< 2) &&& 0b10000000000) |||
    ((insn >>> 1) &&& 0b1000000) |||
    ((insn <<< 1) &&& 0b10000000) |||
    ((insn >>> 2) &&& 0b1110) |||
    ((insn <<< 3) &&& 0b100000)

def getCBEQZBNEZImm : BitVec 32 :=
  ((insn <<< 19).sshiftRight 23 &&& ~~~(0b11111111 : BitVec 32)) |||
    ((insn >>> 7) &&& 0b11000) |||
    ((insn <<< 1) &&& 0b11000000) |||
    ((insn >>> 2) &&& 0b110) |||
    ((insn <<< 3) &&& 0b100000)

def getCLCSImm : BitVec 32 := ((insn >>> 7) &&& 0x38) ||| ((insn <<< 1) &&& 0xc0)

def getCICBImm : BitVec 32 := ((insn >>> 7) &&& 0x20) ||| ((insn >>> 2) &&& 0x1f)

def getCICBImmSe : BitVec 32 :=
  ((insn <<< 19).sshiftRight 26 &&& ~~~(0b11111 : BitVec 32)) ||| ((insn >>> 2) &&& 0b11111)

def getCLWCSWImm : BitVec 32 :=
  ((insn >>> 7) &&& 0x38) ||| ((insn >>> 4) &&& 0x4) ||| ((insn <<< 1) &&& 0x40)

def getCIWImm : BitVec 32 :=
  ((insn >>> 7) &&& 0x30) ||| ((insn >>> 1) &&& 0x3c0) ||| ((insn >>> 4) &&& 0x4) |||
    ((insn >>> 2) &&& 0x8)

def getCADDI16SPImm : BitVec 32 :=
  ((insn <<< 19).sshiftRight 22 &&& ~~~(0b111111111 : BitVec 32)) |||
    ((insn >>> 2) &&& 0b10000) |||
    ((insn <<< 1) &&& 0b1000000) |||
    ((insn <<< 4) &&& 0b110000000) |||
    ((insn <<< 3) &&& 0b100000)

def getCLUIImm : BitVec 32 :=
  ((insn <<< 19).sshiftRight 14 &&& ~~~(0b11111111111111111 : BitVec 32)) |||
    ((insn <<< 10) &&& 0b11111000000000000)

def getCFLDSPLDSPImm : BitVec 32 :=
  ((insn >>> 7) &&& 0x20) ||| ((insn <<< 4) &&& 0x1c0) ||| ((insn >>> 2) &&& 0x18)

def getCLWSPImm : BitVec 32 :=
  ((insn >>> 7) &&& 0x20) ||| ((insn <<< 4) &&& 0xc0) ||| ((insn >>> 2) &&& 0x1c)

def getCFSDSPSDSPImm : BitVec 32 := ((insn >>> 7) &&& 0x38) ||| ((insn >>> 1) &&& 0x1c0)

def getCSWSPImm : BitVec 32 := ((insn >>> 7) &&& 0x3c) ||| ((insn >>> 1) &&& 0xc0)

def sp : Fin 32 := 2

def ra : Fin 32 := 1

/-- The next instruction follows, two bytes later. -/
def nextC : IProg Outcome := pure (.success, pc + 2)

/-! ## Families -/

def executeCL (size : MemSize) (extend : Word → Word) (pc mcycle : Word) (rd rs1 : Fin 32)
    (imm : BitVec 32) : IProg Outcome := do
  let vaddr ← readX rs1
  match ← load size false pc mcycle (vaddr + sext imm) with
  | .error newPc => pure (.failure, newPc)
  | .ok val => do
    writeX rd (extend val)
    nextC pc

def executeCS (size : MemSize) (pc : Word) (rs2 rs1 : Fin 32) (imm : BitVec 32) : IProg Outcome := do
  let vaddr ← readX rs1
  let val ← readX rs2
  let r ← store size pc (vaddr + sext imm) val
  pure (storeOutcome 2 pc r)

def executeCFL {w : Nat} (p : Precision w) (pc mcycle : Word) (rd rs1 : Fin 32) (imm : BitVec 32) :
    IProg Outcome := do
  let vaddr ← readX rs1
  match ← load p.size false pc mcycle (vaddr + sext imm) with
  | .error newPc => pure (.failure, newPc)
  | .ok val => do
    writeF rd (p.floatBox (val.setWidth w))
    nextC pc

def executeCFS {w : Nat} (p : Precision w) (pc : Word) (rs2 rs1 : Fin 32) (imm : BitVec 32) :
    IProg Outcome := do
  let vaddr ← readX rs1
  let val ← readF rs2
  let r ← store p.size pc (vaddr + sext imm) val
  pure (storeOutcome 2 pc r)

/-- The destination is also the first operand. -/
def executeCArithmetic (rd rs2 : Fin 32) (f : Word → Word → Word) (pc : Word) : IProg Outcome := do
  let rdValue ← readX rd
  let rs2Value ← readX rs2
  writeX rd (f rdValue rs2Value)
  nextC pc

/-- The destination is also the operand. -/
def executeCImmediate (rd : Fin 32) (f : Word → Word) (pc : Word) : IProg Outcome := do
  let rdValue ← readX rd
  writeX rd (f rdValue)
  nextC pc

def executeCBranch (taken : Word → Bool) (pc : Word) (insn : Insn) : IProg Outcome := do
  let rs1 ← readX (getCLCSCACBRs1 insn)
  if taken rs1 then executeJump (pc + sext (getCBEQZBNEZImm insn)) else nextC pc

/-! ## Loads and stores -/

def executeCFLD := requireFs pc insn
  (executeCFL double pc mcycle (getCIWCLRdCSCARs2 insn) (getCLCSCACBRs1 insn) (getCLCSImm insn))
def executeCLW :=
  executeCL .u32 (signed 32) pc mcycle (getCIWCLRdCSCARs2 insn) (getCLCSCACBRs1 insn)
    (getCLWCSWImm insn)
def executeCLD :=
  executeCL .u64 (signed 64) pc mcycle (getCIWCLRdCSCARs2 insn) (getCLCSCACBRs1 insn) (getCLCSImm insn)
def executeCFSD := requireFs pc insn
  (executeCFS double pc (getCIWCLRdCSCARs2 insn) (getCLCSCACBRs1 insn) (getCLCSImm insn))
def executeCSW :=
  executeCS .u32 pc (getCIWCLRdCSCARs2 insn) (getCLCSCACBRs1 insn) (getCLWCSWImm insn)
def executeCSD :=
  executeCS .u64 pc (getCIWCLRdCSCARs2 insn) (getCLCSCACBRs1 insn) (getCLCSImm insn)
def executeCFLDSP := requireFs pc insn
  (executeCFL double pc mcycle (getRd insn) sp (getCFLDSPLDSPImm insn))
def executeCLWSP :=
  executeCL .u32 (signed 32) pc mcycle (getRd insn) sp (getCLWSPImm insn)
def executeCLDSP :=
  executeCL .u64 (signed 64) pc mcycle (getRd insn) sp (getCFLDSPLDSPImm insn)
def executeCFSDSP := requireFs pc insn
  (executeCFS double pc (getCRCSSRs2 insn) sp (getCFSDSPSDSPImm insn))
def executeCSWSP :=
  executeCS .u32 pc (getCRCSSRs2 insn) sp (getCSWSPImm insn)
def executeCSDSP :=
  executeCS .u64 pc (getCRCSSRs2 insn) sp (getCFSDSPSDSPImm insn)

/-! ## Arithmetic -/

def executeCNOP (_ : Insn) : IProg Outcome := nextC pc

def executeCADDI4SPN : IProg Outcome := do
  let rs1 ← readX sp
  writeX (getCIWCLRdCSCARs2 insn) (rs1 + (getCIWImm insn).setWidth 64)
  nextC pc

def executeCADDI :=
  executeCImmediate (getRd insn) (fun rd => rd + sext (getCICBImmSe insn)) pc
def executeCADDIW :=
  executeCImmediate (getRd insn) (fun rd => sext (rd.setWidth 32 + getCICBImmSe insn)) pc

def executeCLI : IProg Outcome := do
  writeX (getRd insn) (sext (getCICBImmSe insn))
  nextC pc

def executeCADDI16SP :=
  executeCImmediate sp (fun rs1 => rs1 + sext (getCADDI16SPImm insn)) pc

def executeCLUI : IProg Outcome := do
  writeX (getRd insn) (sext (getCLUIImm insn))
  nextC pc

def executeCSRLI :=
  executeCImmediate (getCLCSCACBRs1 insn) (fun rs1 => rs1 >>> (getCICBImm insn).toNat) pc
def executeCSRAI :=
  executeCImmediate (getCLCSCACBRs1 insn) (fun rs1 => rs1.sshiftRight (getCICBImm insn).toNat) pc
def executeCANDI :=
  executeCImmediate (getCLCSCACBRs1 insn) (fun rs1 => rs1 &&& sext (getCICBImmSe insn)) pc
def executeCSLLI :=
  executeCImmediate (getRd insn) (fun rs1 => rs1 <<< (getCICBImm insn).toNat) pc

/-- Arithmetic on the eight registers that three bits name. -/
def executeCA (f : Word → Word → Word) (pc : Word) (insn : Insn) :=
  executeCArithmetic (getCLCSCACBRs1 insn) (getCIWCLRdCSCARs2 insn) f pc

def executeCSUB := executeCA fun rs1 rs2 => rs1 - rs2
def executeCXOR := executeCA fun rs1 rs2 => rs1 ^^^ rs2
def executeCOR := executeCA fun rs1 rs2 => rs1 ||| rs2
def executeCAND := executeCA fun rs1 rs2 => rs1 &&& rs2
def executeCSUBW := executeCA (word32 fun a b => a - b)
def executeCADDW := executeCA (word32 fun a b => a + b)

def executeCADD :=
  executeCArithmetic (getRd insn) (getCRCSSRs2 insn) (fun rd rs2 => rd + rs2) pc

def executeCMV : IProg Outcome := do
  let val ← readX (getCRCSSRs2 insn)
  writeX (getRd insn) val
  nextC pc

/-! ## Control transfer -/

def executeCJ : IProg Outcome := executeJump (pc + sext (getCJImm insn))

def executeCBEQZ := executeCBranch fun rs1 => rs1 == 0
def executeCBNEZ := executeCBranch fun rs1 => rs1 != 0

def executeCJR (_ : Word) (insn : Insn) : IProg Outcome := do
  let rs1 ← readX (getRd insn)
  executeJump (rs1 &&& ~~~1)

def executeCJALR : IProg Outcome := do
  let rs1 ← readX (getRd insn)
  writeX ra (pc + 2)
  executeJump (rs1 &&& ~~~1)

def executeCEBREAK (_ : Insn) : IProg Outcome := do
  let newPc ← raiseException pc mcauseBreakpoint pc
  pure (.failure, newPc)

end MachineEmulator.Interpret.Insn
