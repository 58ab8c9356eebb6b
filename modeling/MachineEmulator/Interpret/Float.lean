import MachineEmulator.Interpret.Insn

/-!
# Floating-point instructions

The arithmetic itself is a parameter: a `SoftFloat` gives the operations on numbers of single and double
precision. What the instructions do around it is modelled: the check that the unit is on, the rounding
mode, the boxing of single precision values, and the flags.
-/

namespace MachineEmulator.Interpret

inductive FrmModes where
  | rne
  | rtz
  | rdn
  | rup
  | rmm
  deriving DecidableEq, Repr

/-- A value and the flags after the operation. -/
abbrev Flagged (α : Type) := α × BitVec 32

/-- The arithmetic of one precision. Operations take the flags that are set and answer them updated. -/
structure ISfloat (w : Nat) where
  add : BitVec w → BitVec w → FrmModes → BitVec 32 → Flagged (BitVec w)
  mul : BitVec w → BitVec w → FrmModes → BitVec 32 → Flagged (BitVec w)
  div : BitVec w → BitVec w → FrmModes → BitVec 32 → Flagged (BitVec w)
  fma : BitVec w → BitVec w → BitVec w → FrmModes → BitVec 32 → Flagged (BitVec w)
  sqrt : BitVec w → FrmModes → BitVec 32 → Flagged (BitVec w)
  min : BitVec w → BitVec w → BitVec 32 → Flagged (BitVec w)
  max : BitVec w → BitVec w → BitVec 32 → Flagged (BitVec w)
  le : BitVec w → BitVec w → BitVec 32 → Flagged Bool
  lt : BitVec w → BitVec w → BitVec 32 → Flagged Bool
  eq : BitVec w → BitVec w → BitVec 32 → Flagged Bool
  fclass : BitVec w → BitVec 32
  cvtFI32 : BitVec w → FrmModes → BitVec 32 → Flagged (BitVec 32)
  cvtFU32 : BitVec w → FrmModes → BitVec 32 → Flagged (BitVec 32)
  cvtFI64 : BitVec w → FrmModes → BitVec 32 → Flagged (BitVec 64)
  cvtFU64 : BitVec w → FrmModes → BitVec 32 → Flagged (BitVec 64)
  cvtI32F : BitVec 32 → FrmModes → BitVec 32 → Flagged (BitVec w)
  cvtU32F : BitVec 32 → FrmModes → BitVec 32 → Flagged (BitVec w)
  cvtI64F : BitVec 64 → FrmModes → BitVec 32 → Flagged (BitVec w)
  cvtU64F : BitVec 64 → FrmModes → BitVec 32 → Flagged (BitVec w)

structure SoftFloat where
  sfloat32 : ISfloat 32
  sfloat64 : ISfloat 64
  cvtF64F32 : BitVec 64 → FrmModes → BitVec 32 → Flagged (BitVec 32)
  cvtF32F64 : BitVec 32 → BitVec 32 → Flagged (BitVec 64)

/-- Arithmetic whose results are all zero, for runs that do not use any. -/
def ISfloat.zero (w : Nat) : ISfloat w where
  add _ _ _ flags := (0, flags)
  mul _ _ _ flags := (0, flags)
  div _ _ _ flags := (0, flags)
  fma _ _ _ _ flags := (0, flags)
  sqrt _ _ flags := (0, flags)
  min _ _ flags := (0, flags)
  max _ _ flags := (0, flags)
  le _ _ flags := (false, flags)
  lt _ _ flags := (false, flags)
  eq _ _ flags := (false, flags)
  fclass _ := 0
  cvtFI32 _ _ flags := (0, flags)
  cvtFU32 _ _ flags := (0, flags)
  cvtFI64 _ _ flags := (0, flags)
  cvtFU64 _ _ flags := (0, flags)
  cvtI32F _ _ flags := (0, flags)
  cvtU32F _ _ flags := (0, flags)
  cvtI64F _ _ flags := (0, flags)
  cvtU64F _ _ flags := (0, flags)

def SoftFloat.zero : SoftFloat where
  sfloat32 := .zero 32
  sfloat64 := .zero 64
  cvtF64F32 _ _ flags := (0, flags)
  cvtF32F64 _ flags := (0, flags)

namespace Insn

/-! ## Boxing -/

def signMask (w : Nat) : BitVec w := 1 <<< (w - 1)

/-- A precision: how values sit in a register. -/
structure Precision (w : Nat) where
  size : MemSize
  floatBox : BitVec w → Word
  floatUnbox : Word → BitVec w

/-- Single precision: a register holds a value when its high half is all ones; anything else is the
canonical NaN. -/
def single : Precision 32 where
  size := .u32
  floatBox val := val.setWidth 64 ||| 0xffffffff00000000
  floatUnbox val := if val >>> 32 = 0xffffffff then val.setWidth 32 else 0x7fc00000

def double : Precision 64 where
  size := .u64
  floatBox val := val
  floatUnbox val := val

/-! ## Rounding and flags -/

def frmOf (rm : BitVec 32) : Option FrmModes :=
  match rm.toNat with
  | 0 => some .rne
  | 1 => some .rtz
  | 2 => some .rdn
  | 3 => some .rup
  | 4 => some .rmm
  | _ => none

/-- The rounding mode of an instruction: its own, or the one `fcsr` holds. -/
def getRm (insn : Insn) (fcsr : Word) : Option FrmModes :=
  if getFunct3 insn = 7 then frmOf (fcsr.setWidth 32 >>> fcsrFrmShift)
  else frmOf ((insn >>> 12) &&& 7)

def fflagsOf (fcsr : Word) : BitVec 32 := (fcsr &&& fcsrFflagsRwMask).setWidth 32

def fcsrWith (fcsr : Word) (fflags : BitVec 32) : Word :=
  (fcsr &&& ~~~fcsrFflagsRwMask) ||| fflags.setWidth 64

/-- An instruction that is illegal while the floating-point unit is off. -/
def requireFs (pc : Word) (insn : Insn) (execute : IProg Outcome) : IProg Outcome := do
  let mstatus ← readMstatus
  if fsOff mstatus then raiseIllegalInsnException pc insn else execute

/-- An operation that rounds: an invalid rounding mode makes it illegal. -/
def withRounding (pc : Word) (insn : Insn) (execute : Word → FrmModes → IProg Outcome) :
    IProg Outcome := do
  let fcsr ← readFcsr
  match getRm insn fcsr with
  | none => raiseIllegalInsnException pc insn
  | some rm => execute fcsr rm

/-- The result goes to a floating-point register, and its flags to `fcsr`. -/
def finishF {w : Nat} (p : Precision w) (pc : Word) (insn : Insn) (fcsr : Word)
    (r : Flagged (BitVec w)) : IProg Outcome := do
  writeF (getRd insn) (p.floatBox r.1)
  writeFcsr (fcsrWith fcsr r.2)
  next pc

/-- The result goes to an integer register, after its flags went to `fcsr`. -/
def finishX (pc : Word) (insn : Insn) (fcsr : Word) (r : Flagged Word) : IProg Outcome := do
  writeFcsr (fcsrWith fcsr r.2)
  writeXUnlessZero (getRd insn) r.1
  next pc

/-! ## Families -/

section Families

variable {w : Nat} (p : Precision w)

def readOperand (reg : Fin 32) : IProg (BitVec w) := do
  let val ← readF reg
  pure (p.floatUnbox val)

def executeFloatTernaryOpRm (f : BitVec w → BitVec w → BitVec w → FrmModes → BitVec 32 →
    Flagged (BitVec w)) (pc : Word) (insn : Insn) : IProg Outcome :=
  withRounding pc insn fun fcsr rm => do
    let s1 ← readOperand p (getRs1 insn)
    let s2 ← readOperand p (getRs2 insn)
    let s3 ← readOperand p (getRs3 insn)
    finishF p pc insn fcsr (f s1 s2 s3 rm (fflagsOf fcsr))

def executeFloatBinaryOpRm (f : BitVec w → BitVec w → FrmModes → BitVec 32 → Flagged (BitVec w))
    (pc : Word) (insn : Insn) : IProg Outcome :=
  withRounding pc insn fun fcsr rm => do
    let s1 ← readOperand p (getRs1 insn)
    let s2 ← readOperand p (getRs2 insn)
    finishF p pc insn fcsr (f s1 s2 rm (fflagsOf fcsr))

/-- Here the second source must be zero, which is checked before the rounding mode. -/
def executeFloatUnaryOpRm (f : BitVec w → FrmModes → BitVec 32 → Flagged (BitVec w)) (pc : Word)
    (insn : Insn) : IProg Outcome := do
  let fcsr ← readFcsr
  if getRs2 insn ≠ 0 then
    raiseIllegalInsnException pc insn
  else
    match getRm insn fcsr with
    | none => raiseIllegalInsnException pc insn
    | some rm => do
      let s1 ← readOperand p (getRs1 insn)
      finishF p pc insn fcsr (f s1 rm (fflagsOf fcsr))

def executeFloatBinaryOp (f : BitVec w → BitVec w → BitVec 32 → Flagged (BitVec w)) (pc : Word)
    (insn : Insn) : IProg Outcome := do
  let fcsr ← readFcsr
  let s1 ← readOperand p (getRs1 insn)
  let s2 ← readOperand p (getRs2 insn)
  finishF p pc insn fcsr (f s1 s2 (fflagsOf fcsr))

def executeFloatCmpOp (f : BitVec w → BitVec w → BitVec 32 → Flagged Bool) (pc : Word) (insn : Insn) :
    IProg Outcome := do
  let fcsr ← readFcsr
  let s1 ← readOperand p (getRs1 insn)
  let s2 ← readOperand p (getRs2 insn)
  let r := f s1 s2 (fflagsOf fcsr)
  finishX pc insn fcsr (boolWord r.1, r.2)

def executeFCVTFF {v : Nat} (q : Precision v)
    (f : BitVec w → FrmModes → BitVec 32 → Flagged (BitVec v)) (pc : Word) (insn : Insn) :
    IProg Outcome :=
  withRounding pc insn fun fcsr rm => do
    let s1 ← readOperand p (getRs1 insn)
    finishF q pc insn fcsr (f s1 rm (fflagsOf fcsr))

/-- A conversion to an integer of `v` bits, which is sign-extended. -/
def executeFCVTXF {v : Nat} (f : BitVec w → FrmModes → BitVec 32 → Flagged (BitVec v)) (pc : Word)
    (insn : Insn) : IProg Outcome :=
  withRounding pc insn fun fcsr rm => do
    let s1 ← readOperand p (getRs1 insn)
    let r := f s1 rm (fflagsOf fcsr)
    finishX pc insn fcsr (r.1.signExtend 64, r.2)

/-- A conversion from an integer of `v` bits. -/
def executeFCVTFX {v : Nat} (f : BitVec v → FrmModes → BitVec 32 → Flagged (BitVec w)) (pc : Word)
    (insn : Insn) : IProg Outcome :=
  withRounding pc insn fun fcsr rm => do
    let s1 ← readX (getRs1 insn)
    finishF p pc insn fcsr (f (s1.setWidth v) rm (fflagsOf fcsr))

def executeFCLASS (f : BitVec w → BitVec 32) (pc : Word) (insn : Insn) : IProg Outcome :=
  if getRd insn = 0 then next pc
  else do
    let s1 ← readOperand p (getRs1 insn)
    writeX (getRd insn) ((f s1).setWidth 64)
    next pc

def executeFMVFX (pc : Word) (insn : Insn) : IProg Outcome :=
  if getFunct3 insn ≠ 0 then raiseIllegalInsnException pc insn
  else do
    let val ← readX (getRs1 insn)
    writeF (getRd insn) (p.floatBox (val.setWidth w))
    next pc

/-- A move of the low bits of a register, which are sign-extended. -/
def executeFMVXF (w : Nat) (pc : Word) (insn : Insn) : IProg Outcome :=
  if getRd insn = 0 then next pc
  else do
    let val ← readF (getRs1 insn)
    writeX (getRd insn) ((val.setWidth w).signExtend 64)
    next pc

/-- A store of the low bits of a register. -/
def executeFS (pc : Word) (insn : Insn) : IProg Outcome := do
  let vaddr ← readX (getRs1 insn)
  let val ← readF (getRs2 insn)
  let r ← store p.size pc (vaddr + sext (getImmS insn)) val
  pure (storeOutcome 4 pc r)

def executeFL (pc mcycle : Word) (insn : Insn) : IProg Outcome := do
  let vaddr ← readX (getRs1 insn)
  match ← load p.size false pc mcycle (vaddr + sext (getImmI insn)) with
  | .error newPc => pure (.failure, newPc)
  | .ok val => do
    writeF (getRd insn) (p.floatBox (val.setWidth w))
    next pc

end Families

/-! ## Loads and stores -/

def executeFSW (pc : Word) (insn : Insn) := requireFs pc insn (executeFS single pc insn)
def executeFSD (pc : Word) (insn : Insn) := requireFs pc insn (executeFS double pc insn)
def executeFLW (pc mcycle : Word) (insn : Insn) := requireFs pc insn (executeFL single pc mcycle insn)
def executeFLD (pc mcycle : Word) (insn : Insn) := requireFs pc insn (executeFL double pc mcycle insn)

/-! ## Arithmetic -/

section Members

variable (fp : SoftFloat)

variable {w : Nat} (f : ISfloat w)

/-- The four fused operations, by the signs of the product and of the addend. -/
def fmadd (s1 s2 s3 : BitVec w) := f.fma s1 s2 s3
def fmsub (s1 s2 s3 : BitVec w) := f.fma s1 s2 (s3 ^^^ signMask w)
def fnmadd (s1 s2 s3 : BitVec w) :=
  f.fma (s1 ^^^ signMask w) s2 (s3 ^^^ signMask w)
def fnmsub (s1 s2 s3 : BitVec w) := f.fma (s1 ^^^ signMask w) s2 s3

/-- A fused operation of either precision. -/
def executeFM (s d : Word → Insn → IProg Outcome) (pc : Word) (insn : Insn) : IProg Outcome :=
  requireFs pc insn
    (match getFunct2 insn with
    | 0b00 => s pc insn
    | 0b01 => d pc insn
    | _ => raiseIllegalInsnException pc insn)

def executeFMADDS := executeFloatTernaryOpRm single (fmadd fp.sfloat32)
def executeFMADDD := executeFloatTernaryOpRm double (fmadd fp.sfloat64)
def executeFMADD := executeFM (executeFMADDS fp) (executeFMADDD fp)
def executeFMSUBS := executeFloatTernaryOpRm single (fmsub fp.sfloat32)
def executeFMSUBD := executeFloatTernaryOpRm double (fmsub fp.sfloat64)
def executeFMSUB := executeFM (executeFMSUBS fp) (executeFMSUBD fp)
def executeFNMADDS := executeFloatTernaryOpRm single (fnmadd fp.sfloat32)
def executeFNMADDD := executeFloatTernaryOpRm double (fnmadd fp.sfloat64)
def executeFNMADD := executeFM (executeFNMADDS fp) (executeFNMADDD fp)
def executeFNMSUBS := executeFloatTernaryOpRm single (fnmsub fp.sfloat32)
def executeFNMSUBD := executeFloatTernaryOpRm double (fnmsub fp.sfloat64)
def executeFNMSUB := executeFM (executeFNMSUBS fp) (executeFNMSUBD fp)

/-- A subtraction is the addition of the negation. -/
def fsub (s1 s2 : BitVec w) := f.add s1 (s2 ^^^ signMask w)

def executeFADDS := executeFloatBinaryOpRm single fp.sfloat32.add
def executeFADDD := executeFloatBinaryOpRm double fp.sfloat64.add
def executeFSUBS := executeFloatBinaryOpRm single (fsub fp.sfloat32)
def executeFSUBD := executeFloatBinaryOpRm double (fsub fp.sfloat64)
def executeFMULS := executeFloatBinaryOpRm single fp.sfloat32.mul
def executeFMULD := executeFloatBinaryOpRm double fp.sfloat64.mul
def executeFDIVS := executeFloatBinaryOpRm single fp.sfloat32.div
def executeFDIVD := executeFloatBinaryOpRm double fp.sfloat64.div
def executeFSQRTS := executeFloatUnaryOpRm single fp.sfloat32.sqrt
def executeFSQRTD := executeFloatUnaryOpRm double fp.sfloat64.sqrt

/-! ## Sign injection, minimum and maximum, comparison -/

/-- Sign injections leave the flags alone. -/
def fsgnj (s1 s2 : BitVec w) (fflags : BitVec 32) : Flagged (BitVec w) :=
  ((s1 &&& ~~~signMask w) ||| (s2 &&& signMask w), fflags)
def fsgnjn (s1 s2 : BitVec w) (fflags : BitVec 32) : Flagged (BitVec w) :=
  ((s1 &&& ~~~signMask w) ||| ((s2 &&& signMask w) ^^^ signMask w), fflags)
def fsgnjx (s1 s2 : BitVec w) (fflags : BitVec 32) : Flagged (BitVec w) :=
  (s1 ^^^ (s2 &&& signMask w), fflags)

def executeFSGNJS := executeFloatBinaryOp single fsgnj
def executeFSGNJNS := executeFloatBinaryOp single fsgnjn
def executeFSGNJXS := executeFloatBinaryOp single fsgnjx
def executeFSGNJD := executeFloatBinaryOp double fsgnj
def executeFSGNJND := executeFloatBinaryOp double fsgnjn
def executeFSGNJXD := executeFloatBinaryOp double fsgnjx
def executeFMINS := executeFloatBinaryOp single fp.sfloat32.min
def executeFMAXS := executeFloatBinaryOp single fp.sfloat32.max
def executeFMIND := executeFloatBinaryOp double fp.sfloat64.min
def executeFMAXD := executeFloatBinaryOp double fp.sfloat64.max
def executeFLES := executeFloatCmpOp single fp.sfloat32.le
def executeFLTS := executeFloatCmpOp single fp.sfloat32.lt
def executeFEQS := executeFloatCmpOp single fp.sfloat32.eq
def executeFLED := executeFloatCmpOp double fp.sfloat64.le
def executeFLTD := executeFloatCmpOp double fp.sfloat64.lt
def executeFEQD := executeFloatCmpOp double fp.sfloat64.eq

/-- A group of instructions that differ in `funct3`. -/
def executeFunct3Group (members : Nat → Option (Word → Insn → IProg Outcome)) (pc : Word)
    (insn : Insn) : IProg Outcome :=
  match members (getFunct3 insn) with
  | some execute => execute pc insn
  | none => raiseIllegalInsnException pc insn

def executeFSGNS := executeFunct3Group fun
  | 0b000 => some executeFSGNJS
  | 0b001 => some executeFSGNJNS
  | 0b010 => some executeFSGNJXS
  | _ => none

def executeFSGND := executeFunct3Group fun
  | 0b000 => some executeFSGNJD
  | 0b001 => some executeFSGNJND
  | 0b010 => some executeFSGNJXD
  | _ => none

def executeFMINMAXS := executeFunct3Group fun
  | 0b000 => some (executeFMINS fp)
  | 0b001 => some (executeFMAXS fp)
  | _ => none

def executeFMINMAXD := executeFunct3Group fun
  | 0b000 => some (executeFMIND fp)
  | 0b001 => some (executeFMAXD fp)
  | _ => none

def executeFCMPS := executeFunct3Group fun
  | 0b000 => some (executeFLES fp)
  | 0b001 => some (executeFLTS fp)
  | 0b010 => some (executeFEQS fp)
  | _ => none

def executeFCMPD := executeFunct3Group fun
  | 0b000 => some (executeFLED fp)
  | 0b001 => some (executeFLTD fp)
  | 0b010 => some (executeFEQD fp)
  | _ => none

/-! ## Conversions and moves -/

def executeFCVTWS := executeFCVTXF single fp.sfloat32.cvtFI32
def executeFCVTWUS := executeFCVTXF single fp.sfloat32.cvtFU32
def executeFCVTLS := executeFCVTXF single fp.sfloat32.cvtFI64
def executeFCVTLUS := executeFCVTXF single fp.sfloat32.cvtFU64
def executeFCVTWD := executeFCVTXF double fp.sfloat64.cvtFI32
def executeFCVTWUD := executeFCVTXF double fp.sfloat64.cvtFU32
def executeFCVTLD := executeFCVTXF double fp.sfloat64.cvtFI64
def executeFCVTLUD := executeFCVTXF double fp.sfloat64.cvtFU64
def executeFCVTSD := executeFCVTFF double single fp.cvtF64F32
def executeFCVTDS := executeFCVTFF single double fun s1 _ fflags => fp.cvtF32F64 s1 fflags
def executeFCVTSW := executeFCVTFX single fp.sfloat32.cvtI32F
def executeFCVTSWU := executeFCVTFX single fp.sfloat32.cvtU32F
def executeFCVTSL := executeFCVTFX single fp.sfloat32.cvtI64F
def executeFCVTSLU := executeFCVTFX single fp.sfloat32.cvtU64F
def executeFCVTDW := executeFCVTFX double fp.sfloat64.cvtI32F
def executeFCVTDWU := executeFCVTFX double fp.sfloat64.cvtU32F
def executeFCVTDL := executeFCVTFX double fp.sfloat64.cvtI64F
def executeFCVTDLU := executeFCVTFX double fp.sfloat64.cvtU64F
def executeFMVWX := executeFMVFX single
def executeFMVDX := executeFMVFX double
def executeFMVXW := executeFMVXF 32
def executeFMVXD := executeFMVXF 64
def executeFCLASSS := executeFCLASS single fp.sfloat32.fclass
def executeFCLASSD := executeFCLASS double fp.sfloat64.fclass

def executeFMVFCLASSS := executeFunct3Group fun
  | 0b000 => some executeFMVXW
  | 0b001 => some (executeFCLASSS fp)
  | _ => none

def executeFMVFCLASSD := executeFunct3Group fun
  | 0b000 => some executeFMVXD
  | 0b001 => some (executeFCLASSD fp)
  | _ => none

def executeFCVTFMVFCLASS (pc : Word) (insn : Insn) : IProg Outcome :=
  match getFunct7Rs2 insn with
  | 0b110000000000 => executeFCVTWS fp pc insn
  | 0b110000000001 => executeFCVTWUS fp pc insn
  | 0b110000000010 => executeFCVTLS fp pc insn
  | 0b110000000011 => executeFCVTLUS fp pc insn
  | 0b110000100000 => executeFCVTWD fp pc insn
  | 0b110000100001 => executeFCVTWUD fp pc insn
  | 0b110000100010 => executeFCVTLD fp pc insn
  | 0b110000100011 => executeFCVTLUD fp pc insn
  | 0b010000000001 => executeFCVTSD fp pc insn
  | 0b110100000000 => executeFCVTSW fp pc insn
  | 0b110100000001 => executeFCVTSWU fp pc insn
  | 0b110100000010 => executeFCVTSL fp pc insn
  | 0b110100000011 => executeFCVTSLU fp pc insn
  | 0b010000100000 => executeFCVTDS fp pc insn
  | 0b110100100000 => executeFCVTDW fp pc insn
  | 0b110100100001 => executeFCVTDWU fp pc insn
  | 0b110100100010 => executeFCVTDL fp pc insn
  | 0b110100100011 => executeFCVTDLU fp pc insn
  | 0b111100000000 => executeFMVWX pc insn
  | 0b111100100000 => executeFMVDX pc insn
  | 0b111000000000 => executeFMVFCLASSS fp pc insn
  | 0b111000100000 => executeFMVFCLASSD fp pc insn
  | _ => raiseIllegalInsnException pc insn

def executeFDOp (pc : Word) (insn : Insn) : IProg Outcome :=
  match getFunct7 insn with
  | 0b0000000 => executeFADDS fp pc insn
  | 0b0000001 => executeFADDD fp pc insn
  | 0b0000100 => executeFSUBS fp pc insn
  | 0b0000101 => executeFSUBD fp pc insn
  | 0b0001000 => executeFMULS fp pc insn
  | 0b0001001 => executeFMULD fp pc insn
  | 0b0001100 => executeFDIVS fp pc insn
  | 0b0001101 => executeFDIVD fp pc insn
  | 0b0010000 => executeFSGNS pc insn
  | 0b0010001 => executeFSGND pc insn
  | 0b0010100 => executeFMINMAXS fp pc insn
  | 0b0010101 => executeFMINMAXD fp pc insn
  | 0b0101100 => executeFSQRTS fp pc insn
  | 0b0101101 => executeFSQRTD fp pc insn
  | 0b1010000 => executeFCMPS fp pc insn
  | 0b1010001 => executeFCMPD fp pc insn
  | _ => executeFCVTFMVFCLASS fp pc insn

def executeFD (pc : Word) (insn : Insn) : IProg Outcome := requireFs pc insn (executeFDOp fp pc insn)

end Members

end Insn

end MachineEmulator.Interpret
