import MachineEmulator.Lib.Prog
import MachineEmulator.Pma

/-!
# The microarchitecture step

`uarchStep` is the program of one microarchitecture cycle, generic in how the state is accessed: it
asks for the operations `UarchOp` of a uarch state accessor. `uarchInterpret` repeats it up to a
cycle.
-/

namespace MachineEmulator.Uarch

abbrev Insn := BitVec 32

/-- The operations of a uarch state accessor; `fail` is a C++ exception or a failed `require`. -/
inductive UarchOp where
  | readX (reg : Fin 32)
  | writeX (reg : Fin 32) (val : Word)
  | readPc
  | writePc (val : Word)
  | readCycle
  | writeCycle (val : Word)
  | readHaltFlag
  | setHaltFlag
  | readWord (paddr : Word)
  | writeWord (paddr val : Word)
  | putChar (c : Byte)
  | fail (message : String)

/-- The type of the answer to an operation. -/
def UarchOp.Ans : UarchOp → Type
  | .readX _ | .readPc | .readCycle | .readWord _ => Word
  | .readHaltFlag => Bool
  | .fail _ => Empty
  | _ => Unit

abbrev UarchSig : Sig := ⟨UarchOp, UarchOp.Ans⟩

abbrev UProg (α : Type) := Prog UarchSig α

variable (reg : Fin 32) (v paddr val : Word) (insn : Insn) (pc : Word)

def readX : UProg Word := Prog.perform (S := UarchSig) (.readX reg)
def writeX : UProg Unit := Prog.perform (S := UarchSig) (.writeX reg val)
def readPc : UProg Word := Prog.perform (S := UarchSig) .readPc
def writePc : UProg Unit := Prog.perform (S := UarchSig) (.writePc val)
def readCycle : UProg Word := Prog.perform (S := UarchSig) .readCycle
def writeCycle : UProg Unit := Prog.perform (S := UarchSig) (.writeCycle val)
def readHaltFlag : UProg Bool := Prog.perform (S := UarchSig) .readHaltFlag
def setHaltFlag : UProg Unit := Prog.perform (S := UarchSig) .setHaltFlag
def readWord : UProg Word := Prog.perform (S := UarchSig) (.readWord paddr)
def writeWord : UProg Unit := Prog.perform (S := UarchSig) (.writeWord paddr val)
def putChar (c : Byte) : UProg Unit := Prog.perform (S := UarchSig) (.putChar c)
def throwRuntimeError {α : Type} (message : String) : UProg α :=
  Prog.call (S := UarchSig) (.fail message) Empty.elim
def require (condition : Bool) (message : String) : UProg Unit :=
  if condition then pure () else throwRuntimeError message

/-! ## Memory -/

def readUint64 (paddr : Word) : UProg Word := do
  require (paddr &&& 7 == 0) "misaligned readUint64 address"
  readWord paddr

/-- The bit offset of an address in its word. -/
def bitoffset : Nat := (paddr &&& 7).toNat * 8

def readUint32 (paddr : Word) : UProg (BitVec 32) := do
  require (paddr &&& 3 == 0) "misaligned readUint32 address"
  let val64 ← readUint64 (paddr &&& ~~~7)
  pure ((val64 >>> bitoffset paddr).setWidth 32)

def readUint16 (paddr : Word) : UProg (BitVec 16) := do
  require (paddr &&& 1 == 0) "misaligned readUint16 address"
  let val64 ← readUint64 (paddr &&& ~~~7)
  pure ((val64 >>> bitoffset paddr).setWidth 16)

def readUint8 : UProg (BitVec 8) := do
  let val64 ← readUint64 (paddr &&& ~~~7)
  pure ((val64 >>> bitoffset paddr).setWidth 8)

def writeUint64 (paddr val : Word) : UProg Unit := do
  require (paddr &&& 7 == 0) "misaligned writeUint64 address"
  writeWord paddr val

def copyBits (src : BitVec 32) (count : Nat) (dst : Word) (offset : Nat) : UProg Word := do
  require (offset + count ≤ 64) "copyBits count exceeds limit of 64"
  let eraseMask : Word := (1 <<< (count % 64)) - 1
  let eraseMask := ~~~(eraseMask <<< (offset % 64))
  pure ((src.setWidth 64 <<< (offset % 64)) ||| (dst &&& eraseMask))

/-- Replace the `count` bits at `paddr` in its word. -/
def writeBits (count : Nat) (paddr : Word) (val : BitVec 32) : UProg Unit := do
  let oldval64 ← readUint64 (paddr &&& ~~~7)
  let newval64 ← copyBits val count oldval64 (bitoffset paddr)
  writeUint64 (paddr &&& ~~~7) newval64

def writeUint32 (paddr : Word) (val : BitVec 32) : UProg Unit := do
  require (paddr &&& 3 == 0) "misaligned writeUint32 address"
  writeBits 32 paddr val

def writeUint16 (paddr : Word) (val : BitVec 16) : UProg Unit := do
  require (paddr &&& 1 == 0) "misaligned writeUint16 address"
  writeBits 16 paddr (val.setWidth 32)

def writeUint8 (val : BitVec 8) : UProg Unit := writeBits 8 paddr (val.setWidth 32)

/-! ## Operands -/

def operandRd : Fin 32 := Fin.ofNat 32 ((insn <<< 20) >>> 27).toNat
def operandRs1 : Fin 32 := Fin.ofNat 32 ((insn <<< 12) >>> 27).toNat
def operandRs2 : Fin 32 := Fin.ofNat 32 ((insn <<< 7) >>> 27).toNat
def operandImm12 : BitVec 32 := insn.sshiftRight 20
def operandImm20 : BitVec 32 := (insn >>> 12) <<< 12
def operandJimm20 : BitVec 32 :=
  (insn.sshiftRight 31 <<< 20) ||| (((insn <<< 1) >>> 22) <<< 1) |||
    (((insn <<< 11) >>> 31) <<< 11) ||| (((insn <<< 12) >>> 24) <<< 12)
def operandShamt5 : BitVec 32 := (insn <<< 7) >>> 27
def operandShamt6 : BitVec 32 := (insn <<< 6) >>> 26
def operandSbimm12 : BitVec 32 :=
  (insn.sshiftRight 31 <<< 12) ||| (((insn <<< 1) >>> 26) <<< 5) |||
    (((insn <<< 20) >>> 28) <<< 1) ||| (((insn <<< 24) >>> 31) <<< 11)
def operandSimm12 : BitVec 32 :=
  (insn.sshiftRight 25 <<< 5) ||| ((insn <<< 20) >>> 27)

def uint64AddInt32 (w : BitVec 32) : Word := v + w.signExtend 64
def uint64ShiftLeft (count : BitVec 32) : Word := v <<< (count &&& 0x3f).toNat
def uint64ShiftRight (count : BitVec 32) : Word := v >>> (count &&& 0x3f).toNat
def int64ShiftRight (count : BitVec 32) : Word := v.sshiftRight (count &&& 0x3f).toNat
def uint32ShiftLeft (v count : BitVec 32) : BitVec 32 := v <<< (count &&& 0x1f).toNat
def uint32ShiftRight (v count : BitVec 32) : BitVec 32 := v >>> (count &&& 0x1f).toNat
def int32ShiftRight (v count : BitVec 32) : BitVec 32 := v.sshiftRight (count &&& 0x1f).toNat
def int32ToUint64 (v : BitVec 32) : Word := v.signExtend 64

/-! ## Instructions -/

def advancePc : UProg Unit := writePc (pc + 4)

def branch : UProg Unit := writePc pc

def writeXUnlessZero (rd : Fin 32) (val : Word) : UProg Unit :=
  if rd ≠ 0 then writeX rd val else pure ()

def executeLUI : UProg Unit := do
  writeXUnlessZero (operandRd insn) (int32ToUint64 (operandImm20 insn))
  advancePc pc

def executeAUIPC : UProg Unit := do
  writeXUnlessZero (operandRd insn) (uint64AddInt32 pc (operandImm20 insn))
  advancePc pc

def executeJAL : UProg Unit := do
  writeXUnlessZero (operandRd insn) (pc + 4)
  branch (uint64AddInt32 pc (operandJimm20 insn))

def executeJALR : UProg Unit := do
  let rs1val ← readX (operandRs1 insn)
  writeXUnlessZero (operandRd insn) (pc + 4)
  branch (uint64AddInt32 rs1val (operandImm12 insn) &&& ~~~1)

def executeBranch (f : Word → Word → Bool) (insn : Insn) (pc : Word) : UProg Unit := do
  let rs1val ← readX (operandRs1 insn)
  let rs2val ← readX (operandRs2 insn)
  if f rs1val rs2val then branch (uint64AddInt32 pc (operandSbimm12 insn)) else advancePc pc

def executeBEQ := executeBranch fun a b => a == b
def executeBNE := executeBranch fun a b => a != b
def executeBLT := executeBranch fun a b => a.slt b
def executeBGE := executeBranch fun a b => !a.slt b
def executeBLTU := executeBranch fun a b => a.ult b
def executeBGEU := executeBranch fun a b => !a.ult b

/-- A load: `read` the value and extend it with `f`. -/
def executeLoad {w : Nat} (read : Word → UProg (BitVec w)) (f : BitVec w → Word) (insn : Insn)
    (pc : Word) : UProg Unit := do
  let rs1val ← readX (operandRs1 insn)
  let val ← read (uint64AddInt32 rs1val (operandImm12 insn))
  writeXUnlessZero (operandRd insn) (f val)
  advancePc pc

def executeLB := executeLoad readUint8 fun v => v.signExtend 64
def executeLH := executeLoad readUint16 fun v => v.signExtend 64
def executeLW := executeLoad readUint32 fun v => v.signExtend 64
def executeLD := executeLoad readUint64 fun v => v
def executeLBU := executeLoad readUint8 fun v => v.setWidth 64
def executeLHU := executeLoad readUint16 fun v => v.setWidth 64
def executeLWU := executeLoad readUint32 fun v => v.setWidth 64

/-- A store of the low `w` bits of a register. -/
def executeStore {w : Nat} (write : Word → BitVec w → UProg Unit) (insn : Insn) (pc : Word) :
    UProg Unit := do
  let rs1val ← readX (operandRs1 insn)
  let rs2val ← readX (operandRs2 insn)
  write (uint64AddInt32 rs1val (operandSimm12 insn)) (rs2val.setWidth w)
  advancePc pc

def executeSB := executeStore writeUint8
def executeSH := executeStore writeUint16
def executeSW := executeStore writeUint32
def executeSD := executeStore writeUint64

/-- A 64-bit operation with an immediate: the source register is read only if `rd` is not `x0`. -/
def executeImm (imm : Insn → BitVec 32) (f : Word → BitVec 32 → Word) (insn : Insn) (pc : Word) :
    UProg Unit := do
  if operandRd insn ≠ 0 then
    let rs1val ← readX (operandRs1 insn)
    writeX (operandRd insn) (f rs1val (imm insn))
  advancePc pc

def executeADDI := executeImm operandImm12 fun v i => v + i.signExtend 64
def executeSLTI := executeImm operandImm12 fun v i => if v.slt (i.signExtend 64) then 1 else 0
def executeSLTIU := executeImm operandImm12 fun v i => if v.ult (int32ToUint64 i) then 1 else 0
def executeXORI := executeImm operandImm12 fun v i => v ^^^ int32ToUint64 i
def executeORI := executeImm operandImm12 fun v i => v ||| int32ToUint64 i
def executeANDI := executeImm operandImm12 fun v i => v &&& int32ToUint64 i
def executeSLLI := executeImm operandShamt6 uint64ShiftLeft
def executeSRLI := executeImm operandShamt6 uint64ShiftRight
def executeSRAI := executeImm operandShamt6 int64ShiftRight

/-- A 32-bit operation with an immediate: the source register is always read. -/
def executeImmW (imm : Insn → BitVec 32) (f : BitVec 32 → BitVec 32 → BitVec 32) (insn : Insn)
    (pc : Word) : UProg Unit := do
  let rs1val ← readX (operandRs1 insn)
  writeXUnlessZero (operandRd insn) (int32ToUint64 (f (rs1val.setWidth 32) (imm insn)))
  advancePc pc

def executeADDIW := executeImmW operandImm12 fun v i => v + i
def executeSLLIW := executeImmW operandShamt5 uint32ShiftLeft
def executeSRLIW := executeImmW operandShamt5 uint32ShiftRight
def executeSRAIW := executeImmW operandShamt5 int32ShiftRight

/-- A 64-bit register operation: the sources are read only if `rd` is not `x0`. -/
def executeReg (f : Word → Word → Word) (insn : Insn) (pc : Word) : UProg Unit := do
  if operandRd insn ≠ 0 then
    let rs1val ← readX (operandRs1 insn)
    let rs2val ← readX (operandRs2 insn)
    writeX (operandRd insn) (f rs1val rs2val)
  advancePc pc

def executeADD := executeReg fun a b => a + b
def executeSUB := executeReg fun a b => a - b
def executeSLL := executeReg fun a b => uint64ShiftLeft a (b.setWidth 32)
def executeSLT := executeReg fun a b => if a.slt b then 1 else 0
def executeSLTU := executeReg fun a b => if a.ult b then 1 else 0
def executeXOR := executeReg fun a b => a ^^^ b
def executeSRL := executeReg fun a b => uint64ShiftRight a (b.setWidth 32)
def executeSRA := executeReg fun a b => int64ShiftRight a (b.setWidth 32)
def executeOR := executeReg fun a b => a ||| b
def executeAND := executeReg fun a b => a &&& b

/-- A 32-bit register operation: the sources are always read. -/
def executeRegW (f : BitVec 32 → BitVec 32 → BitVec 32) (insn : Insn) (pc : Word) : UProg Unit := do
  let rs1val ← readX (operandRs1 insn)
  let rs2val ← readX (operandRs2 insn)
  writeXUnlessZero (operandRd insn) (int32ToUint64 (f (rs1val.setWidth 32) (rs2val.setWidth 32)))
  advancePc pc

def executeADDW := executeRegW fun a b => a + b
def executeSUBW := executeRegW fun a b => a - b
def executeSLLW := executeRegW uint32ShiftLeft
def executeSRLW := executeRegW uint32ShiftRight
def executeSRAW := executeRegW int32ShiftRight

def executeFENCE : UProg Unit := advancePc pc

def uarchEcallFnHalt : Word := 1
def uarchEcallFnPutchar : Word := 2

def executeECALL : UProg Unit := do
  let fn ← readX 17
  if fn = uarchEcallFnHalt then setHaltFlag
  else do
    if fn = uarchEcallFnPutchar then
      let character ← readX 16
      putChar (character.setWidth 8)
    else
      throwRuntimeError "unsupported ecall function"
    advancePc pc

def executeEBREAK : UProg Unit := throwRuntimeError "uarch aborted"

/-! ## Decoding -/

def insnMatchOpcode (opcode : BitVec 32) : Bool := insn &&& 0x7f == opcode

def insnMatchOpcodeFunct3 (opcode funct3 : BitVec 32) : Bool :=
  insn &&& ((7 <<< 12) ||| 0x7f) == ((funct3 <<< 12) ||| opcode)

def insnMatchOpcodeFunct3Funct7 (opcode funct3 funct7 : BitVec 32) : Bool :=
  insn &&& ((0x7f <<< 25) ||| (7 <<< 12) ||| 0x7f) ==
    ((funct7 <<< 25) ||| (funct3 <<< 12) ||| opcode)

def insnMatchOpcodeFunct3Funct7Sr1 (opcode funct3 funct7Sr1 : BitVec 32) : Bool :=
  insn &&& ((0x3f <<< 26) ||| (7 <<< 12) ||| 0x7f) ==
    ((funct7Sr1 <<< 26) ||| (funct3 <<< 12) ||| opcode)

/-- The decoder's tests, in its order, each with the instruction it selects. -/
def decodeTable : List (Bool × UProg Unit) :=
  [(insnMatchOpcodeFunct3 insn 0x13 0x0, executeADDI insn pc),
    (insnMatchOpcodeFunct3 insn 0x3 0x3, executeLD insn pc),
    (insnMatchOpcodeFunct3 insn 0x63 0x6, executeBLTU insn pc),
    (insnMatchOpcodeFunct3 insn 0x63 0x0, executeBEQ insn pc),
    (insnMatchOpcodeFunct3 insn 0x13 0x7, executeANDI insn pc),
    (insnMatchOpcodeFunct3Funct7 insn 0x33 0x0 0x0, executeADD insn pc),
    (insnMatchOpcode insn 0x6f, executeJAL insn pc),
    (insnMatchOpcodeFunct3Funct7Sr1 insn 0x13 0x1 0x0, executeSLLI insn pc),
    (insnMatchOpcodeFunct3Funct7 insn 0x33 0x7 0x0, executeAND insn pc),
    (insnMatchOpcodeFunct3 insn 0x23 0x3, executeSD insn pc),
    (insnMatchOpcode insn 0x37, executeLUI insn pc),
    (insnMatchOpcodeFunct3 insn 0x67 0x0, executeJALR insn pc),
    (insnMatchOpcodeFunct3 insn 0x1b 0x0, executeADDIW insn pc),
    (insnMatchOpcodeFunct3Funct7Sr1 insn 0x13 0x5 0x0, executeSRLI insn pc),
    (insnMatchOpcodeFunct3Funct7 insn 0x1b 0x5 0x0, executeSRLIW insn pc),
    (insnMatchOpcodeFunct3 insn 0x63 0x1, executeBNE insn pc),
    (insnMatchOpcodeFunct3 insn 0x3 0x2, executeLW insn pc),
    (insnMatchOpcode insn 0x17, executeAUIPC insn pc),
    (insnMatchOpcodeFunct3 insn 0x63 0x7, executeBGEU insn pc),
    (insnMatchOpcodeFunct3Funct7 insn 0x3b 0x0 0x0, executeADDW insn pc),
    (insnMatchOpcodeFunct3Funct7Sr1 insn 0x13 0x5 0x10, executeSRAI insn pc),
    (insnMatchOpcodeFunct3Funct7 insn 0x33 0x6 0x0, executeOR insn pc),
    (insnMatchOpcodeFunct3Funct7 insn 0x1b 0x5 0x20, executeSRAIW insn pc),
    (insnMatchOpcodeFunct3 insn 0x63 0x5, executeBGE insn pc),
    (insnMatchOpcodeFunct3Funct7 insn 0x33 0x0 0x20, executeSUB insn pc),
    (insnMatchOpcodeFunct3 insn 0x3 0x4, executeLBU insn pc),
    (insnMatchOpcodeFunct3Funct7 insn 0x1b 0x1 0x0, executeSLLIW insn pc),
    (insnMatchOpcodeFunct3Funct7 insn 0x33 0x5 0x0, executeSRL insn pc),
    (insnMatchOpcodeFunct3Funct7 insn 0x33 0x4 0x0, executeXOR insn pc),
    (insnMatchOpcodeFunct3 insn 0x23 0x2, executeSW insn pc),
    (insnMatchOpcodeFunct3Funct7 insn 0x33 0x1 0x0, executeSLL insn pc),
    (insnMatchOpcodeFunct3 insn 0x63 0x4, executeBLT insn pc),
    (insnMatchOpcodeFunct3 insn 0x23 0x0, executeSB insn pc),
    (insnMatchOpcodeFunct3Funct7 insn 0x3b 0x0 0x20, executeSUBW insn pc),
    (insnMatchOpcodeFunct3 insn 0x13 0x4, executeXORI insn pc),
    (insnMatchOpcodeFunct3Funct7 insn 0x33 0x5 0x20, executeSRA insn pc),
    (insnMatchOpcodeFunct3 insn 0x3 0x5, executeLHU insn pc),
    (insnMatchOpcodeFunct3 insn 0x23 0x1, executeSH insn pc),
    (insnMatchOpcodeFunct3Funct7 insn 0x3b 0x5 0x0, executeSRLW insn pc),
    (insnMatchOpcodeFunct3 insn 0x3 0x6, executeLWU insn pc),
    (insnMatchOpcodeFunct3Funct7 insn 0x3b 0x1 0x0, executeSLLW insn pc),
    (insnMatchOpcodeFunct3 insn 0x3 0x0, executeLB insn pc),
    (insnMatchOpcodeFunct3Funct7 insn 0x33 0x3 0x0, executeSLTU insn pc),
    (insnMatchOpcodeFunct3Funct7 insn 0x3b 0x5 0x20, executeSRAW insn pc),
    (insnMatchOpcodeFunct3 insn 0x3 0x1, executeLH insn pc),
    (insnMatchOpcodeFunct3 insn 0x13 0x6, executeORI insn pc),
    (insnMatchOpcodeFunct3 insn 0x13 0x3, executeSLTIU insn pc),
    (insnMatchOpcodeFunct3Funct7 insn 0x33 0x2 0x0, executeSLT insn pc),
    (insnMatchOpcodeFunct3 insn 0x13 0x2, executeSLTI insn pc),
    (insnMatchOpcodeFunct3 insn 0xf 0x0, executeFENCE pc),
    (insn == 0x73, executeECALL pc),
    (insn == 0x100073, executeEBREAK)]

/-- Run the first entry whose test holds. -/
def executeFirst : List (Bool × UProg Unit) → UProg Unit
  | [] => throwRuntimeError "illegal instruction"
  | (test, p) :: rest => if test then p else executeFirst rest

def executeInsn : UProg Unit := executeFirst (decodeTable insn pc)

/-- A property of all instructions, by families. -/
structure Families (P : UProg Unit → Prop) (insn : Insn) (pc : Word) : Prop where
  imm : ∀ imm f, P (executeImm imm f insn pc)
  immW : ∀ imm f, P (executeImmW imm f insn pc)
  reg : ∀ f, P (executeReg f insn pc)
  regW : ∀ f, P (executeRegW f insn pc)
  branch : ∀ f, P (executeBranch f insn pc)
  load8 : ∀ f, P (executeLoad readUint8 f insn pc)
  load16 : ∀ f, P (executeLoad readUint16 f insn pc)
  load32 : ∀ f, P (executeLoad readUint32 f insn pc)
  load64 : ∀ f, P (executeLoad readUint64 f insn pc)
  store8 : insnMatchOpcodeFunct3 insn 0x23 0x0 = true → P (executeStore writeUint8 insn pc)
  store16 : insnMatchOpcodeFunct3 insn 0x23 0x1 = true → P (executeStore writeUint16 insn pc)
  store32 : insnMatchOpcodeFunct3 insn 0x23 0x2 = true → P (executeStore writeUint32 insn pc)
  store64 : insnMatchOpcodeFunct3 insn 0x23 0x3 = true → P (executeStore writeUint64 insn pc)
  lui : P (executeLUI insn pc)
  auipc : P (executeAUIPC insn pc)
  jal : P (executeJAL insn pc)
  jalr : P (executeJALR insn pc)
  fence : P (executeFENCE pc)
  ecall : P (executeECALL pc)
  ebreak : P executeEBREAK
  illegal : P (throwRuntimeError "illegal instruction")

theorem executeFirst_of_forall {P : UProg Unit → Prop} (hfail : P (throwRuntimeError "illegal instruction"))
    {es : List (Bool × UProg Unit)} (hes : ∀ e ∈ es, e.1 = true → P e.2) : P (executeFirst es) := by
  induction es with
  | nil => exact hfail
  | cons e es ih =>
    obtain ⟨he, hes⟩ := List.forall_mem_cons.mp hes
    rw [executeFirst]
    split_ifs with htest
    · exact he htest
    · exact ih hes

theorem Families.executeInsn {P : UProg Unit → Prop} {insn : Insn} {pc : Word} (h : Families P insn pc) :
    P (Uarch.executeInsn insn pc) := by
  refine executeFirst_of_forall h.illegal ?_
  simp only [Uarch.decodeTable, List.forall_mem_cons, List.not_mem_nil, false_implies, implies_true, and_true]
  exact ⟨fun _ => h.imm _ _, fun _ => h.load64 _, fun _ => h.branch _, fun _ => h.branch _, fun _ => h.imm _ _,
    fun _ => h.reg _, fun _ => h.jal, fun _ => h.imm _ _, fun _ => h.reg _, h.store64, fun _ => h.lui,
    fun _ => h.jalr, fun _ => h.immW _ _, fun _ => h.imm _ _, fun _ => h.immW _ _, fun _ => h.branch _,
    fun _ => h.load32 _, fun _ => h.auipc, fun _ => h.branch _, fun _ => h.regW _, fun _ => h.imm _ _,
    fun _ => h.reg _, fun _ => h.immW _ _, fun _ => h.branch _, fun _ => h.reg _, fun _ => h.load8 _,
    fun _ => h.immW _ _, fun _ => h.reg _, fun _ => h.reg _, h.store32, fun _ => h.reg _, fun _ => h.branch _,
    h.store8, fun _ => h.regW _, fun _ => h.imm _ _, fun _ => h.reg _, fun _ => h.load16 _, h.store16,
    fun _ => h.regW _, fun _ => h.load32 _, fun _ => h.regW _, fun _ => h.load8 _, fun _ => h.reg _,
    fun _ => h.regW _, fun _ => h.load16 _, fun _ => h.imm _ _, fun _ => h.imm _ _, fun _ => h.reg _,
    fun _ => h.imm _ _, fun _ => h.fence, fun _ => h.ecall, fun _ => h.ebreak⟩

/-! ## Steps -/

inductive UarchStepStatus where
  | success
  | cycleOverflow
  | uarchHalted
  deriving DecidableEq, Repr

def uarchStep : UProg UarchStepStatus := do
  let cycle ← readCycle
  if cycle = -1 then return .cycleOverflow
  if ← readHaltFlag then return .uarchHalted
  let pc ← readPc
  let insn ← readUint32 pc
  executeInsn insn pc
  writeCycle (cycle + 1)
  return .success

inductive UarchInterpreterBreakReason where
  | reachedTargetCycle
  | uarchHalted
  deriving DecidableEq, Repr

/-- The loop of `uarchInterpret`, with the number of cycles that are left to the target. -/
def uarchInterpretLoop : Nat → UProg UarchInterpreterBreakReason
  | 0 => return .reachedTargetCycle
  | n + 1 => do
    match ← uarchStep with
    | .success => uarchInterpretLoop n
    | .uarchHalted => return .uarchHalted
    | .cycleOverflow => return .reachedTargetCycle

def uarchInterpret (cycleEnd : Word) : UProg UarchInterpreterBreakReason := do
  let cycle ← readCycle
  if cycleEnd < cycle then throwRuntimeError "uarch_cycle is past"
  else uarchInterpretLoop (cycleEnd.toNat - cycle.toNat)

/-! ## Alignment -/

def Aligned : UarchOp → Prop
  | .readWord paddr => paddr &&& 7 = 0
  | .writeWord paddr _ => paddr &&& 7 = 0
  | _ => True

open Prog (Asks)

theorem aligned_require {α : Type} {c : Bool} {message : String} {p : UProg α}
    (hp : c = true → Asks Aligned p) : Asks Aligned (do require c message; p) := by
  cases c with
  | false => exact ⟨trivial, fun x => x.elim⟩
  | true => exact hp rfl

theorem aligned_readUint64 : Asks Aligned (readUint64 paddr) :=
  aligned_require fun h => Asks.perform (S := UarchSig) (eq_of_beq h)

theorem aligned_writeUint64 : Asks Aligned (writeUint64 paddr val) :=
  aligned_require fun h => Asks.perform (S := UarchSig) (eq_of_beq h)

theorem aligned_readUint32 : Asks Aligned (readUint32 paddr) :=
  aligned_require fun _ => (aligned_readUint64 _).bind fun _ => Asks.pure _

theorem aligned_writeBits (count : Nat) (paddr : Word) (val : BitVec 32) :
    Asks Aligned (writeBits count paddr val) :=
  (aligned_readUint64 _).bind fun _ =>
    (aligned_require fun _ => Asks.pure _).bind fun _ => aligned_writeUint64 _ _

theorem aligned_readX : Asks Aligned (readX reg) := Asks.perform (S := UarchSig) trivial

theorem aligned_advancePc : Asks Aligned (advancePc pc) :=
  Asks.perform (S := UarchSig) trivial

theorem aligned_writeXUnlessZero (rd : Fin 32) (val : Word) : Asks Aligned (writeXUnlessZero rd val) :=
  Asks.ite (fun _ => Asks.perform (S := UarchSig) trivial) fun _ => Asks.pure ()

theorem aligned_throwRuntimeError {α : Type} (message : String) :
    Asks Aligned (throwRuntimeError (α := α) message) := ⟨trivial, fun x => x.elim⟩

theorem aligned_executeLoad {w : Nat} {read : Word → UProg (BitVec w)} (f : BitVec w → Word)
    (hread : ∀ a, Asks Aligned (read a)) : Asks Aligned (executeLoad read f insn pc) :=
  (aligned_readX _).bind fun _ => (hread _).bind fun _ =>
    (aligned_writeXUnlessZero _ _).bind fun _ => aligned_advancePc pc

theorem aligned_executeStore {w : Nat} {write : Word → BitVec w → UProg Unit}
    (hwrite : ∀ a v, Asks Aligned (write a v)) : Asks Aligned (executeStore write insn pc) :=
  (aligned_readX _).bind fun _ => (aligned_readX _).bind fun _ =>
    (hwrite _ _).bind fun _ => aligned_advancePc pc

theorem aligned_executeECALL : Asks Aligned (executeECALL pc) := by
  refine (aligned_readX _).bind fun fn => Asks.ite (fun _ => Asks.perform (S := UarchSig) trivial)
    fun _ => Asks.ite (fun _ => ?_) fun _ => ?_
  · exact (aligned_readX _).bind fun _ => (Asks.perform (S := UarchSig) trivial).bind fun _ =>
      aligned_advancePc pc
  · exact (aligned_throwRuntimeError _).bind fun _ => aligned_advancePc pc

theorem aligned_families : Families (Asks Aligned) insn pc where
  imm _ _ := Asks.ite (fun _ => (aligned_readX _).bind fun _ => (Asks.perform (S := UarchSig) trivial).bind fun _ =>
    aligned_advancePc pc) fun _ => aligned_advancePc pc
  immW _ _ := (aligned_readX _).bind fun _ => (aligned_writeXUnlessZero _ _).bind fun _ => aligned_advancePc pc
  reg _ := Asks.ite (fun _ => (aligned_readX _).bind fun _ => (aligned_readX _).bind fun _ =>
    (Asks.perform (S := UarchSig) trivial).bind fun _ => aligned_advancePc pc) fun _ => aligned_advancePc pc
  regW _ := (aligned_readX _).bind fun _ => (aligned_readX _).bind fun _ =>
    (aligned_writeXUnlessZero _ _).bind fun _ => aligned_advancePc pc
  branch _ := (aligned_readX _).bind fun _ => (aligned_readX _).bind fun _ =>
    Asks.ite (fun _ => Asks.perform (S := UarchSig) trivial) fun _ => aligned_advancePc pc
  load8 f := aligned_executeLoad insn pc f fun _ => (aligned_readUint64 _).bind fun _ => Asks.pure _
  load16 f := aligned_executeLoad insn pc f fun _ => aligned_require fun _ =>
    (aligned_readUint64 _).bind fun _ => Asks.pure _
  load32 f := aligned_executeLoad insn pc f aligned_readUint32
  load64 f := aligned_executeLoad insn pc f aligned_readUint64
  store8 _ := aligned_executeStore insn pc fun _ _ => aligned_writeBits _ _ _
  store16 _ := aligned_executeStore insn pc fun _ _ => aligned_require fun _ => aligned_writeBits _ _ _
  store32 _ := aligned_executeStore insn pc fun _ _ => aligned_require fun _ => aligned_writeBits _ _ _
  store64 _ := aligned_executeStore insn pc aligned_writeUint64
  lui := (aligned_writeXUnlessZero _ _).bind fun _ => aligned_advancePc pc
  auipc := (aligned_writeXUnlessZero _ _).bind fun _ => aligned_advancePc pc
  jal := (aligned_writeXUnlessZero _ _).bind fun _ => Asks.perform (S := UarchSig) trivial
  jalr := (aligned_readX _).bind fun _ => (aligned_writeXUnlessZero _ _).bind fun _ =>
    Asks.perform (S := UarchSig) trivial
  fence := aligned_advancePc pc
  ecall := aligned_executeECALL pc
  ebreak := aligned_throwRuntimeError _
  illegal := aligned_throwRuntimeError _

theorem aligned_uarchStep : Asks Aligned uarchStep := by
  refine (Asks.perform (S := UarchSig) trivial).bind fun (cycle : Word) => Asks.ite
    (fun _ => Asks.pure _) fun _ => (Asks.perform (S := UarchSig) trivial).bind fun (halted : Bool) =>
    Asks.ite (fun _ => Asks.pure _) fun _ => (Asks.perform (S := UarchSig) trivial).bind fun pc => ?_
  exact (aligned_readUint32 pc).bind fun insn => (aligned_families insn pc).executeInsn.bind fun _ =>
    (Asks.perform (S := UarchSig) trivial).bind fun _ => Asks.pure _

end MachineEmulator.Uarch
