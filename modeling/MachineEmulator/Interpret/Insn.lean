import MachineEmulator.Interpret.Privileged
import MachineEmulator.Interpret.VirtualMemory

/-!
# Instructions: the operations they are made of, and the integer instructions

An instruction is a program over `InsnOp`: it reads and writes registers, loads and stores, reads and
writes control and status registers, and raises exceptions. `service` is the program over the state
accessor that each of these operations stands for, and `IProg.access` the whole instruction over the
state accessor.

Members of a family (arithmetic, loads, stores, branches, atomics) are one definition applied to their
own operation.
-/

namespace MachineEmulator.Interpret

/-! ## Operations -/

inductive InsnOp where
  | readX (reg : Fin 32)
  | writeX (reg : Fin 32) (val : Word)
  | readF (reg : Fin 32)
  | writeF (reg : Fin 32) (val : Word)
  | readFcsr
  | writeFcsr (val : Word)
  | readIlrsc
  | writeIlrsc (val : Word)
  | readIprv
  | readMstatus
  | getSoftYield
  | readVirtualMemory (size : MemSize) (raiseStoreExceptions : Bool) (pc mcycle vaddr : Word)
  | writeVirtualMemory (size : MemSize) (pc vaddr val : Word)
  | readCsr (mcycle : Word) (csraddr : CsrAddress)
  | writeCsr (mcycle : Word) (csraddr : CsrAddress) (val : Word)
  | raiseException (pc cause tval : Word)
  | sret (pc : Word) (insn : Insn)
  | mret (pc : Word) (insn : Insn)
  | wfi (pc mcycle : Word) (insn : Insn)
  | sfenceVma (pc : Word) (insn : Insn) (rs1 : Fin 32)

/-- The type of the answer to an operation. -/
def InsnOp.Ans : InsnOp → Type
  | .readX _ | .readF _ | .readFcsr | .readIlrsc | .readIprv | .readMstatus => Word
  | .getSoftYield => Bool
  | .readVirtualMemory .. => LoadResult
  | .writeVirtualMemory .. => StoreResult
  | .readCsr .. => Option Word
  | .writeCsr .. => ExecuteStatus
  | .raiseException .. => Word
  | .sret .. | .mret .. | .sfenceVma .. => Outcome
  | .wfi .. => Outcome × Word
  | _ => Unit

abbrev InsnSig : Sig := ⟨InsnOp, InsnOp.Ans⟩

abbrev IProg (α : Type) := Prog InsnSig α

/-- The program over the state accessor that an operation stands for. -/
def service : (o : InsnOp) → AProg o.Ans
  | .readX reg => read (.x reg)
  | .writeX reg val => write (.x reg) val
  | .readF reg => read (.f reg)
  | .writeF reg val => write (.f reg) val
  | .readFcsr => read .fcsr
  | .writeFcsr val => write .fcsr val
  | .readIlrsc => read .ilrsc
  | .writeIlrsc val => write .ilrsc val
  | .readIprv => read .iprv
  | .readMstatus => read .mstatus
  | .getSoftYield => Interpret.getSoftYield
  | .readVirtualMemory size raiseStoreExceptions pc mcycle vaddr =>
    readVirtualMemory size raiseStoreExceptions pc mcycle vaddr
  | .writeVirtualMemory size pc vaddr val => writeVirtualMemory size pc vaddr val
  | .readCsr mcycle csraddr => readCsr mcycle csraddr
  | .writeCsr mcycle csraddr val => writeCsr mcycle csraddr val
  | .raiseException pc cause tval => raiseException pc cause tval
  | .sret pc insn => executeSRET pc insn
  | .mret pc insn => executeMRET pc insn
  | .wfi pc mcycle insn => executeWFI pc mcycle insn
  | .sfenceVma pc insn rs1 => executeSfenceVma pc insn rs1

/-- An instruction as a program over the state accessor. -/
def IProg.access {α : Type} (p : IProg α) : AProg α := Prog.translate service p

namespace Insn

variable (reg : Fin 32) {w : Nat} (size : MemSize) (pc mcycle : Word) (insn : Insn) (val : Word)

def readX : IProg Word := Prog.perform (S := InsnSig) (.readX reg)
def writeX : IProg Unit := Prog.perform (S := InsnSig) (.writeX reg val)
def readF : IProg Word := Prog.perform (S := InsnSig) (.readF reg)
def writeF : IProg Unit := Prog.perform (S := InsnSig) (.writeF reg val)
def readFcsr : IProg Word := Prog.perform (S := InsnSig) .readFcsr
def writeFcsr : IProg Unit := Prog.perform (S := InsnSig) (.writeFcsr val)
def readIlrsc : IProg Word := Prog.perform (S := InsnSig) .readIlrsc
def writeIlrsc : IProg Unit := Prog.perform (S := InsnSig) (.writeIlrsc val)
def readIprv : IProg Word := Prog.perform (S := InsnSig) .readIprv
def readMstatus : IProg Word := Prog.perform (S := InsnSig) .readMstatus
def getSoftYield : IProg Bool := Prog.perform (S := InsnSig) .getSoftYield
def load (raiseStoreExceptions : Bool) (pc mcycle vaddr : Word) : IProg LoadResult :=
  Prog.perform (S := InsnSig) (.readVirtualMemory size raiseStoreExceptions pc mcycle vaddr)
def store (pc vaddr val : Word) : IProg StoreResult :=
  Prog.perform (S := InsnSig) (.writeVirtualMemory size pc vaddr val)
def readCsr (csraddr : CsrAddress) : IProg (Option Word) :=
  Prog.perform (S := InsnSig) (.readCsr mcycle csraddr)
def writeCsr (csraddr : CsrAddress) (val : Word) : IProg ExecuteStatus :=
  Prog.perform (S := InsnSig) (.writeCsr mcycle csraddr val)
def raiseException (pc cause tval : Word) : IProg Word :=
  Prog.perform (S := InsnSig) (.raiseException pc cause tval)
def sret : IProg Outcome := Prog.perform (S := InsnSig) (.sret pc insn)
def mret : IProg Outcome := Prog.perform (S := InsnSig) (.mret pc insn)
def wfi : IProg (Outcome × Word) :=
  Prog.perform (S := InsnSig) (.wfi pc mcycle insn)
def sfenceVma (rs1 : Fin 32) : IProg Outcome :=
  Prog.perform (S := InsnSig) (.sfenceVma pc insn rs1)

/-! ## Fields -/

def regOf (v : BitVec 32) : Fin 32 := Fin.ofNat 32 v.toNat

def getRd : Fin 32 := regOf ((insn >>> 7) &&& 0x1f)
def getRs1 : Fin 32 := regOf ((insn >>> 15) &&& 0x1f)
def getRs2 : Fin 32 := regOf ((insn >>> 20) &&& 0x1f)
def getRs3 : Fin 32 := regOf (insn >>> 27)
def getImmI : BitVec 32 := insn.sshiftRight 20
def getUimmI : CsrAddress := (insn >>> 20).setWidth 12
def getImmU : BitVec 32 := insn &&& 0xfffff000
def getImmB : BitVec 32 :=
  (insn.sshiftRight 31 <<< 12) ||| (((insn <<< 1) >>> 26) <<< 5) |||
    (((insn <<< 20) >>> 28) <<< 1) ||| (((insn <<< 24) >>> 31) <<< 11)
def getImmJ : BitVec 32 :=
  (insn.sshiftRight 31 <<< 20) ||| (((insn <<< 1) >>> 22) <<< 1) |||
    (((insn <<< 11) >>> 31) <<< 11) ||| (((insn <<< 12) >>> 24) <<< 12)
def getImmS : BitVec 32 :=
  (insn &&& 0xfe000000).sshiftRight 20 ||| ((insn >>> 7) &&& 0x1f)
def getFunct7Sr2 : Nat := (insn >>> 27).toNat
def getFunct7Sr1 : Nat := (insn >>> 26).toNat
def getFunct7 : Nat := (insn >>> 25).toNat
def getFunct7Rs2 : Nat := (insn >>> 20).toNat
def getFunct3 : Nat := ((insn >>> 12) &&& 7).toNat
/-- The two low bits of `funct7`, which tell the precision of a fused operation. -/
def getFunct2 : Nat := ((insn >>> 25) &&& 3).toNat

/-- Sign extension of an immediate or of a result of 32 bits. -/
def sext (v : BitVec 32) : Word := v.signExtend 64

/-! ## Outcomes -/

def raiseIllegalInsnException : IProg Outcome := do
  let newPc ← raiseException pc mcauseIllegalInsn (insn.setWidth 64)
  pure (.failure, newPc)

def next : IProg Outcome := pure (advanceToNextInsn pc .success)

def executeJump (newPc : Word) : IProg Outcome := pure (.success, newPc)

/-- Whether the destination register is `x0`. -/
inductive RdKind where
  | x0
  | xN
  deriving DecidableEq, Repr

/-! ## Arithmetic -/

def executeArithmetic (f : Word → Word → Word) (k : RdKind) (pc : Word) (insn : Insn) :
    IProg Outcome :=
  match k with
  | .x0 => next pc
  | .xN => do
    let rs1 ← readX (getRs1 insn)
    let rs2 ← readX (getRs2 insn)
    writeX (getRd insn) (f rs1 rs2)
    next pc

/-- Arithmetic on the low 32 bits of the operands, sign-extended. -/
def word32 (f : BitVec 32 → BitVec 32 → BitVec 32) (rs1 rs2 : Word) : Word :=
  sext (f (rs1.setWidth 32) (rs2.setWidth 32))

def shamt64 (v : Word) : Nat := (v &&& 63).toNat

def shamt32 (v : BitVec 32) : Nat := (v &&& 31).toNat

def boolWord (b : Bool) : Word := if b then 1 else 0

/-- Signed division, rounding towards zero. -/
def divS (a b : BitVec w) : BitVec w :=
  if b = 0 then -1 else if b = -1 ∧ a = BitVec.intMin w then a else a.sdiv b

def divU (a b : BitVec w) : BitVec w := if b = 0 then -1 else a / b

def remS (a b : BitVec w) : BitVec w :=
  if b = 0 then a else if b = -1 ∧ a = BitVec.intMin w then 0 else a.srem b

def remU (a b : BitVec w) : BitVec w := if b = 0 then a else a % b

def mulh (a b : Word) : Word :=
  ((a.signExtend 128 * b.signExtend 128).sshiftRight 64).setWidth 64

def mulhsu (a b : Word) : Word :=
  ((a.signExtend 128 * b.setWidth 128).sshiftRight 64).setWidth 64

def mulhu (a b : Word) : Word := ((a.setWidth 128 * b.setWidth 128) >>> 64).setWidth 64

def executeADD := executeArithmetic fun rs1 rs2 => rs1 + rs2
def executeSUB := executeArithmetic fun rs1 rs2 => rs1 - rs2
def executeSLL := executeArithmetic fun rs1 rs2 => rs1 <<< shamt64 rs2
def executeSLT := executeArithmetic fun rs1 rs2 => boolWord (rs1.slt rs2)
def executeSLTU := executeArithmetic fun rs1 rs2 => boolWord (rs1.ult rs2)
def executeXOR := executeArithmetic fun rs1 rs2 => rs1 ^^^ rs2
def executeSRL := executeArithmetic fun rs1 rs2 => rs1 >>> shamt64 rs2
def executeSRA := executeArithmetic fun rs1 rs2 => rs1.sshiftRight (shamt64 rs2)
def executeOR := executeArithmetic fun rs1 rs2 => rs1 ||| rs2
def executeAND := executeArithmetic fun rs1 rs2 => rs1 &&& rs2
def executeMUL := executeArithmetic fun rs1 rs2 => rs1 * rs2
def executeMULH := executeArithmetic mulh
def executeMULHSU := executeArithmetic mulhsu
def executeMULHU := executeArithmetic mulhu
def executeDIV := executeArithmetic divS
def executeDIVU := executeArithmetic divU
def executeREM := executeArithmetic remS
def executeREMU := executeArithmetic remU
def executeADDW := executeArithmetic (word32 fun a b => a + b)
def executeSUBW := executeArithmetic (word32 fun a b => a - b)
def executeSRLW := executeArithmetic (word32 fun a b => a >>> shamt32 b)
def executeSRAW := executeArithmetic (word32 fun a b => a.sshiftRight (shamt32 b))
def executeMULW := executeArithmetic (word32 fun a b => a * b)
def executeDIVUW := executeArithmetic (word32 divU)

/-- An instruction whose fixed bits the handler itself checks. -/
def checkEncoding (expected : BitVec 32) (execute : RdKind → Word → Insn → IProg Outcome) (k : RdKind)
    (pc : Word) (insn : Insn) : IProg Outcome :=
  if insn &&& 0xfe00707f ≠ expected then raiseIllegalInsnException pc insn else execute k pc insn

def executeSLLW :=
  checkEncoding 0x0000103b (executeArithmetic (word32 fun a b => a <<< shamt32 b))
def executeDIVW := checkEncoding 0x0200403b (executeArithmetic (word32 divS))
def executeREMW := checkEncoding 0x0200603b (executeArithmetic (word32 remS))
def executeREMUW := checkEncoding 0x0200703b (executeArithmetic (word32 remU))

/-! ## Arithmetic with an immediate -/

def executeArithmeticImmediate (f : Word → BitVec 32 → Word) (k : RdKind) (pc : Word) (insn : Insn) :
    IProg Outcome :=
  match k with
  | .x0 => next pc
  | .xN => do
    let rs1 ← readX (getRs1 insn)
    writeX (getRd insn) (f rs1 (getImmI insn))
    next pc

/-- Arithmetic on the low 32 bits of the operand, sign-extended. -/
def word32i (f : BitVec 32 → BitVec 32 → BitVec 32) (rs1 : Word) (imm : BitVec 32) : Word :=
  sext (f (rs1.setWidth 32) imm)

def executeSRLI := executeArithmeticImmediate fun rs1 imm => rs1 >>> (imm &&& 63).toNat
def executeSRAI := executeArithmeticImmediate fun rs1 imm => rs1.sshiftRight (imm &&& 63).toNat
def executeADDI := executeArithmeticImmediate fun rs1 imm => rs1 + sext imm
def executeSLTI := executeArithmeticImmediate fun rs1 imm => boolWord (rs1.slt (sext imm))
def executeSLTIU := executeArithmeticImmediate fun rs1 imm => boolWord (rs1.ult (sext imm))
def executeXORI := executeArithmeticImmediate fun rs1 imm => rs1 ^^^ sext imm
def executeORI := executeArithmeticImmediate fun rs1 imm => rs1 ||| sext imm
def executeANDI := executeArithmeticImmediate fun rs1 imm => rs1 &&& sext imm

variable (k : RdKind)

def executeSLLI (pc : Word) (insn : Insn) : IProg Outcome :=
  if getFunct7Sr1 insn ≠ 0 then raiseIllegalInsnException pc insn
  else executeArithmeticImmediate (fun rs1 imm => rs1 <<< (imm &&& 63).toNat) k pc insn

def executeADDIW := executeArithmeticImmediate (word32i fun a imm => a + imm)

def executeSLLIW (pc : Word) (insn : Insn) : IProg Outcome :=
  if getFunct7 insn ≠ 0 then raiseIllegalInsnException pc insn
  else executeArithmeticImmediate (word32i fun a imm => a <<< shamt32 imm) k pc insn

def executeSRLIW := executeArithmeticImmediate (word32i fun a imm => a >>> shamt32 imm)

/-- With `x0` as destination and `x31` as source, this is a request to yield to the host. -/
def executeSRAIW (pc : Word) (insn : Insn) : IProg Outcome :=
  match k with
  | .x0 =>
    if getRs1 insn = 31 then do
      let softYield ← getSoftYield
      if softYield then
        pure (advanceToNextInsn pc .successAndYield)
      else
        next pc
    else
      next pc
  | .xN => executeArithmeticImmediate (word32i fun a imm => a.sshiftRight (shamt32 imm)) .xN pc insn

/-! ## Stores and loads -/

/-- The outcome of an instruction that ends with a store, `size` bytes long. -/
def storeOutcome (insnSize pc : Word) (r : StoreResult) : Outcome :=
  if r.1 = .failure then r else (r.1, pc + insnSize)

def executeS : IProg Outcome := do
  let vaddr ← readX (getRs1 insn)
  let val ← readX (getRs2 insn)
  let r ← store size pc (vaddr + sext (getImmS insn)) val
  pure (storeOutcome 4 pc r)

def executeSB := executeS .u8
def executeSH := executeS .u16
def executeSW := executeS .u32
def executeSD := executeS .u64

/-- How a loaded value fills a register. -/
def signed (w : Nat) (val : Word) : Word := (val.setWidth w).signExtend 64
def unsigned (w : Nat) (val : Word) : Word := (val.setWidth w).setWidth 64

def executeL (extend : Word → Word) (k : RdKind) (pc mcycle : Word) (insn : Insn) :
    IProg Outcome := do
  let vaddr ← readX (getRs1 insn)
  match ← load size false pc mcycle (vaddr + sext (getImmI insn)) with
  | .error newPc => pure (.failure, newPc)
  | .ok val =>
    match k with
    | .x0 => next pc
    | .xN => do
      writeX (getRd insn) (extend val)
      next pc

def executeLB := executeL .u8 (signed 8)
def executeLH := executeL .u16 (signed 16)
def executeLW := executeL .u32 (signed 32)
def executeLD := executeL .u64 (signed 64)
def executeLBU := executeL .u8 (unsigned 8)
def executeLHU := executeL .u16 (unsigned 16)
def executeLWU := executeL .u32 (unsigned 32)

/-! ## Branches and jumps -/

def executeBranch (f : Word → Word → Bool) (pc : Word) (insn : Insn) : IProg Outcome := do
  let rs1 ← readX (getRs1 insn)
  let rs2 ← readX (getRs2 insn)
  if f rs1 rs2 then executeJump (pc + sext (getImmB insn)) else next pc

def executeBEQ := executeBranch fun rs1 rs2 => rs1 == rs2
def executeBNE := executeBranch fun rs1 rs2 => rs1 != rs2
def executeBLT := executeBranch fun rs1 rs2 => rs1.slt rs2
def executeBGE := executeBranch fun rs1 rs2 => !rs1.slt rs2
def executeBLTU := executeBranch fun rs1 rs2 => rs1.ult rs2
def executeBGEU := executeBranch fun rs1 rs2 => !rs1.ult rs2

def executeLUI (pc : Word) (insn : Insn) : IProg Outcome :=
  match k with
  | .x0 => next pc
  | .xN => do
    writeX (getRd insn) (sext (getImmU insn))
    next pc

def executeAUIPC (pc : Word) (insn : Insn) : IProg Outcome :=
  match k with
  | .x0 => next pc
  | .xN => do
    writeX (getRd insn) (pc + sext (getImmU insn))
    next pc

def executeJAL (pc : Word) (insn : Insn) : IProg Outcome :=
  match k with
  | .x0 => executeJump (pc + sext (getImmJ insn))
  | .xN => do
    writeX (getRd insn) (pc + 4)
    executeJump (pc + sext (getImmJ insn))

def executeJALR (pc : Word) (insn : Insn) : IProg Outcome := do
  let rs1 ← readX (getRs1 insn)
  let newPc := (rs1 + sext (getImmI insn)) &&& ~~~1
  match k with
  | .x0 => executeJump newPc
  | .xN => do
    writeX (getRd insn) (pc + 4)
    executeJump newPc

/-! ## Atomics -/

def writeXUnlessZero (rd : Fin 32) (val : Word) : IProg Unit :=
  if rd = 0 then pure () else writeX rd val

def executeLR (extend : Word → Word) (pc mcycle : Word) (insn : Insn) :
    IProg Outcome := do
  let vaddr ← readX (getRs1 insn)
  match ← load size false pc mcycle vaddr with
  | .error newPc => pure (.failure, newPc)
  | .ok val => do
    writeIlrsc vaddr
    writeXUnlessZero (getRd insn) (extend val)
    next pc

/-- The end of a store-conditional: the reservation is given up. -/
def finishSC (status : ExecuteStatus) : IProg Outcome := do
  writeIlrsc (-1)
  writeXUnlessZero (getRd insn) val
  pure (advanceToNextInsn pc status)

def executeSC : IProg Outcome := do
  let vaddr ← readX (getRs1 insn)
  let ilrsc ← readIlrsc
  if ilrsc = vaddr then
    let rs2 ← readX (getRs2 insn)
    let (status, newPc) ← store size pc vaddr rs2
    if status = .failure then
      pure (.failure, newPc)
    else
      finishSC pc insn 0 status
  else
    finishSC pc insn 1 .success

/-- The bits that must be zero in a load-reserved. -/
def checkLR (execute : Word → Word → Insn → IProg Outcome) (pc mcycle : Word) (insn : Insn) :
    IProg Outcome :=
  if insn &&& 0x01f00000 ≠ 0 then raiseIllegalInsnException pc insn else execute pc mcycle insn

def executeLRW := checkLR (executeLR .u32 (signed 32))
def executeLRD := checkLR (executeLR .u64 (unsigned 64))
def executeSCW := executeSC .u32
def executeSCD := executeSC .u64

/-- A read-modify-write on a word of `w` bits. -/
def executeAMO (f : BitVec w → BitVec w → BitVec w) (pc mcycle : Word)
    (insn : Insn) : IProg Outcome := do
  let vaddr ← readX (getRs1 insn)
  match ← load size true pc mcycle vaddr with
  | .error newPc => pure (.failure, newPc)
  | .ok val => do
    let valm := val.setWidth w
    let rs2 ← readX (getRs2 insn)
    let valr := f valm (rs2.setWidth w)
    let (status, newPc) ← store size pc vaddr (valr.setWidth 64)
    if status = .failure then
      pure (.failure, newPc)
    else
      writeXUnlessZero (getRd insn) (valm.signExtend 64)
      pure (advanceToNextInsn pc status)

section Amo

variable {w : Nat}

def amoSwap (_ valr : BitVec w) : BitVec w := valr
def amoAdd (valm valr : BitVec w) : BitVec w := valm + valr
def amoXor (valm valr : BitVec w) : BitVec w := valm ^^^ valr
def amoAnd (valm valr : BitVec w) : BitVec w := valm &&& valr
def amoOr (valm valr : BitVec w) : BitVec w := valm ||| valr
def amoMin (valm valr : BitVec w) : BitVec w := if valm.slt valr then valm else valr
def amoMax (valm valr : BitVec w) : BitVec w := if valr.slt valm then valm else valr
def amoMinu (valm valr : BitVec w) : BitVec w := if valm.ult valr then valm else valr
def amoMaxu (valm valr : BitVec w) : BitVec w := if valr.ult valm then valm else valr

end Amo

def executeAMOSWAPW := executeAMO (w := 32) .u32 amoSwap
def executeAMOADDW := executeAMO (w := 32) .u32 amoAdd
def executeAMOXORW := executeAMO (w := 32) .u32 amoXor
def executeAMOANDW := executeAMO (w := 32) .u32 amoAnd
def executeAMOORW := executeAMO (w := 32) .u32 amoOr
def executeAMOMINW := executeAMO (w := 32) .u32 amoMin
def executeAMOMAXW := executeAMO (w := 32) .u32 amoMax
def executeAMOMINUW := executeAMO (w := 32) .u32 amoMinu
def executeAMOMAXUW := executeAMO (w := 32) .u32 amoMaxu

def executeAMOSWAPD := executeAMO (w := 64) .u64 amoSwap
def executeAMOADDD := executeAMO (w := 64) .u64 amoAdd
def executeAMOXORD := executeAMO (w := 64) .u64 amoXor
def executeAMOANDD := executeAMO (w := 64) .u64 amoAnd
def executeAMOORD := executeAMO (w := 64) .u64 amoOr
def executeAMOMIND := executeAMO (w := 64) .u64 amoMin
def executeAMOMAXD := executeAMO (w := 64) .u64 amoMax
def executeAMOMINUD := executeAMO (w := 64) .u64 amoMinu
def executeAMOMAXUD := executeAMO (w := 64) .u64 amoMaxu

def executeAMOW : IProg Outcome :=
  match getFunct7Sr2 insn with
  | 0b00000 => executeAMOADDW pc mcycle insn
  | 0b00001 => executeAMOSWAPW pc mcycle insn
  | 0b00010 => executeLRW pc mcycle insn
  | 0b00011 => executeSCW pc insn
  | 0b00100 => executeAMOXORW pc mcycle insn
  | 0b01000 => executeAMOORW pc mcycle insn
  | 0b01100 => executeAMOANDW pc mcycle insn
  | 0b10000 => executeAMOMINW pc mcycle insn
  | 0b10100 => executeAMOMAXW pc mcycle insn
  | 0b11000 => executeAMOMINUW pc mcycle insn
  | 0b11100 => executeAMOMAXUW pc mcycle insn
  | _ => raiseIllegalInsnException pc insn

def executeAMOD : IProg Outcome :=
  match getFunct7Sr2 insn with
  | 0b00000 => executeAMOADDD pc mcycle insn
  | 0b00001 => executeAMOSWAPD pc mcycle insn
  | 0b00010 => executeLRD pc mcycle insn
  | 0b00011 => executeSCD pc insn
  | 0b00100 => executeAMOXORD pc mcycle insn
  | 0b01000 => executeAMOORD pc mcycle insn
  | 0b01100 => executeAMOANDD pc mcycle insn
  | 0b10000 => executeAMOMIND pc mcycle insn
  | 0b10100 => executeAMOMAXD pc mcycle insn
  | 0b11000 => executeAMOMINUD pc mcycle insn
  | 0b11100 => executeAMOMAXUD pc mcycle insn
  | _ => raiseIllegalInsnException pc insn

/-! ## Control and status registers -/

/-- The end of an instruction that writes a control and status register: a write that fails is
illegal, and the old value goes to the destination only after that. -/
def finishCsr (csrval : Word) (wstatus : ExecuteStatus) : IProg Outcome :=
  if wstatus = .failure then raiseIllegalInsnException pc insn
  else do
    writeXUnlessZero (getRd insn) csrval
    pure (advanceToNextInsn pc wstatus)

/-- The register is not read when its value is not used. -/
def executeCsrRW (rs1val : Insn → IProg Word) (pc mcycle : Word) (insn : Insn) : IProg Outcome := do
  let csraddr := getUimmI insn
  let csrval ← (if getRd insn ≠ 0 then readCsr mcycle csraddr else pure (some 0))
  match csrval with
  | none => raiseIllegalInsnException pc insn
  | some csrval => do
    let val ← rs1val insn
    let wstatus ← writeCsr mcycle csraddr val
    finishCsr pc insn csrval wstatus

/-- The register number of the source as an immediate. -/
def rs1Imm : BitVec 32 := (insn >>> 15) &&& 0x1f

def executeCSRRW := executeCsrRW fun insn => readX (getRs1 insn)
def executeCSRRWI := executeCsrRW fun insn => pure ((rs1Imm insn).setWidth 64)

/-- The register is not written when the source is `x0`. -/
def executeCsrSC (rs1val : Insn → IProg Word) (f : Word → Word → Word) (pc mcycle : Word)
    (insn : Insn) : IProg Outcome := do
  let csraddr := getUimmI insn
  match ← readCsr mcycle csraddr with
  | none => raiseIllegalInsnException pc insn
  | some csrval => do
    let val ← rs1val insn
    if getRs1 insn ≠ 0 then
      let wstatus ← writeCsr mcycle csraddr (f csrval val)
      finishCsr pc insn csrval wstatus
    else
      finishCsr pc insn csrval .success

def executeCSRRS := executeCsrSC (fun insn => readX (getRs1 insn)) fun csr rs1 => csr ||| rs1
def executeCSRRC := executeCsrSC (fun insn => readX (getRs1 insn)) fun csr rs1 => csr &&& ~~~rs1
def executeCSRRSI := executeCsrSC (fun insn => pure ((rs1Imm insn).setWidth 64)) fun csr rs1 => csr ||| rs1
/-- The immediate is complemented as a number of 32 bits, so the high half of the value is cleared. -/
def executeCSRRCI := executeCsrSC (fun insn => pure ((rs1Imm insn).setWidth 64))
  fun csr rs1 => csr &&& (~~~(rs1.setWidth 32)).setWidth 64

/-! ## Privileged instructions -/

def executeECALL : IProg Outcome := do
  let prv ← readIprv
  let newPc ← raiseException pc (mcauseEcallBase + prv) 0
  pure (.failure, newPc)

def executeEBREAK : IProg Outcome := do
  let newPc ← raiseException pc mcauseBreakpoint pc
  pure (.failure, newPc)

def executeSFENCEVMA : IProg Outcome :=
  if insn &&& 0xfe007fff ≠ 0x12000073 then raiseIllegalInsnException pc insn
  else sfenceVma pc insn (getRs1 insn)

/-- An instruction that leaves the cycle counter alone. -/
def withMcycle (p : IProg Outcome) : IProg (Outcome × Word) := do
  let outcome ← p
  pure (outcome, mcycle)

def executePrivileged : IProg (Outcome × Word) :=
  if insn = 0x00000073 then withMcycle mcycle (executeECALL pc)
  else if insn = 0x00100073 then withMcycle mcycle (executeEBREAK pc)
  else if insn = 0x10200073 then withMcycle mcycle (sret pc insn)
  else if insn = 0x30200073 then withMcycle mcycle (mret pc insn)
  else if insn = 0x10500073 then wfi pc mcycle insn
  else withMcycle mcycle (executeSFENCEVMA pc insn)

def executeFENCE (_ : Insn) : IProg Outcome := next pc
def executeFENCEI (_ : Insn) : IProg Outcome := next pc

/-! ## Groups that share a jump table entry -/

def executeSRLISRAI (pc : Word) (insn : Insn) : IProg Outcome :=
  match getFunct7Sr1 insn with
  | 0b000000 => executeSRLI k pc insn
  | 0b010000 => executeSRAI k pc insn
  | _ => raiseIllegalInsnException pc insn

def executeSRLIWSRAIW (pc : Word) (insn : Insn) : IProg Outcome :=
  match getFunct7 insn with
  | 0b0000000 => executeSRLIW k pc insn
  | 0b0100000 => executeSRAIW k pc insn
  | _ => raiseIllegalInsnException pc insn

/-- A group of instructions that differ in `funct7`. -/
def executeGroup (members : Nat → Option (RdKind → Word → Insn → IProg Outcome)) (k : RdKind)
    (pc : Word) (insn : Insn) : IProg Outcome :=
  match members (getFunct7 insn) with
  | some execute => execute k pc insn
  | none => raiseIllegalInsnException pc insn

def executeADDMULSUB := executeGroup fun
  | 0b0000000 => some executeADD
  | 0b0000001 => some executeMUL
  | 0b0100000 => some executeSUB
  | _ => none

def executeSLLMULH := executeGroup fun
  | 0b0000000 => some executeSLL
  | 0b0000001 => some executeMULH
  | _ => none

def executeSLTMULHSU := executeGroup fun
  | 0b0000000 => some executeSLT
  | 0b0000001 => some executeMULHSU
  | _ => none

def executeSLTUMULHU := executeGroup fun
  | 0b0000000 => some executeSLTU
  | 0b0000001 => some executeMULHU
  | _ => none

def executeXORDIV := executeGroup fun
  | 0b0000000 => some executeXOR
  | 0b0000001 => some executeDIV
  | _ => none

def executeSRLDIVUSRA := executeGroup fun
  | 0b0000000 => some executeSRL
  | 0b0100000 => some executeSRA
  | 0b0000001 => some executeDIVU
  | _ => none

def executeORREM := executeGroup fun
  | 0b0000000 => some executeOR
  | 0b0000001 => some executeREM
  | _ => none

def executeANDREMU := executeGroup fun
  | 0b0000000 => some executeAND
  | 0b0000001 => some executeREMU
  | _ => none

def executeADDWMULWSUBW := executeGroup fun
  | 0b0000000 => some executeADDW
  | 0b0000001 => some executeMULW
  | 0b0100000 => some executeSUBW
  | _ => none

def executeSRLWDIVUWSRAW := executeGroup fun
  | 0b0000000 => some executeSRLW
  | 0b0000001 => some executeDIVUW
  | 0b0100000 => some executeSRAW
  | _ => none

end Insn

end MachineEmulator.Interpret
