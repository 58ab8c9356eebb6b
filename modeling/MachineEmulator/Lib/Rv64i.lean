import Mathlib.Data.Nat.Bitwise
import Mathlib.Tactic.IntervalCases

/-!
# The integer instructions of RV64I

The instructions that work on registers and on the program counter only, as the unprivileged architecture
defines them: their encodings, by the fields of a word, and their effect on a hart.

* `Rv64i.Op` : the instructions, in families;
* `Op.Encodes` : a word encodes an instruction;
* `Op.step` : its effect.
-/

namespace Rv64i

open BitVec

abbrev Xlen := BitVec 64

/-! ## Fields -/

variable (w : BitVec 32)

def opcode : Nat := w.toNat % 2 ^ 7
def rd : Fin 32 := Fin.ofNat 32 (w.toNat / 2 ^ 7)
def funct3 : Nat := w.toNat / 2 ^ 12 % 2 ^ 3
def rs1 : Fin 32 := Fin.ofNat 32 (w.toNat / 2 ^ 15)
def rs2 : Fin 32 := Fin.ofNat 32 (w.toNat / 2 ^ 20)
def funct7 : Nat := w.toNat / 2 ^ 25
/-- The shift amount of shifts of 64 bits, and the bits above it. -/
def shamt : Nat := w.toNat / 2 ^ 20 % 2 ^ 6
def funct6 : Nat := w.toNat / 2 ^ 26

/-- The immediates of 32 bits, which are sign-extended. -/
def immI : BitVec 32 := (w.extractLsb' 20 12).signExtend 32
def immS : BitVec 32 := (w.extractLsb' 25 7 ++ w.extractLsb' 7 5).signExtend 32
def immU : BitVec 32 := w.extractLsb' 12 20 ++ 0#12
def immB : BitVec 32 :=
  (w.extractLsb' 31 1 ++ w.extractLsb' 7 1 ++ w.extractLsb' 25 6 ++ w.extractLsb' 8 4 ++ 0#1).signExtend 32
def immJ : BitVec 32 :=
  (w.extractLsb' 31 1 ++ w.extractLsb' 12 8 ++ w.extractLsb' 20 1 ++ w.extractLsb' 21 10 ++ 0#1).signExtend 32

/-! ### Immediates by shifts -/

section Shifts
variable (w : BitVec 32)

theorem immI_eq_shifts : w.sshiftRight 20 = immI w := by
  apply eq_of_getLsbD_eq
  intro i hi
  rw [immI, getLsbD_sshiftRight, getLsbD_signExtend, getLsbD_extractLsb',
    msb_eq_getLsbD_last, msb_eq_getLsbD_last, getLsbD_extractLsb']
  by_cases hlow : i < 12
  · simp [hlow, show 20 + i < 32 by omega, show i < 32 by omega, show ¬ 32 ≤ i by omega]
  · simp [hlow, show ¬ 20 + i < 32 by omega, show i < 32 by omega, show ¬ 32 ≤ i by omega]

theorem immU_eq_shifts : (w >>> 12) <<< 12 = immU w := by
  apply eq_of_getLsbD_eq
  intro i hi
  rw [immU, getLsbD_shiftLeft, getLsbD_ushiftRight, getLsbD_append, getLsbD_extractLsb']
  by_cases hlow : i < 12
  · simp [hlow]
  · simp [hlow, hi, show i - 12 < 20 by omega]

theorem immB_eq_shifts : (w.sshiftRight 31 <<< 12) ||| (((w <<< 1) >>> 26) <<< 5) |||
    (((w <<< 20) >>> 28) <<< 1) ||| (((w <<< 24) >>> 31) <<< 11) = immB w := by
  apply eq_of_getLsbD_eq
  intro i hi
  simp only [immB, getLsbD_or, getLsbD_shiftLeft, getLsbD_sshiftRight,
    getLsbD_ushiftRight, getLsbD_append, getLsbD_extractLsb', getLsbD_signExtend,
    msb_eq_getLsbD_last]
  interval_cases i <;> simp

theorem immJ_eq_shifts : (w.sshiftRight 31 <<< 20) ||| (((w <<< 1) >>> 22) <<< 1) |||
    (((w <<< 11) >>> 31) <<< 11) ||| (((w <<< 12) >>> 24) <<< 12) = immJ w := by
  apply eq_of_getLsbD_eq
  intro i hi
  simp only [immJ, getLsbD_or, getLsbD_shiftLeft, getLsbD_sshiftRight,
    getLsbD_ushiftRight, getLsbD_append, getLsbD_extractLsb', getLsbD_signExtend,
    msb_eq_getLsbD_last]
  interval_cases i <;> simp

end Shifts

/-! ## Instructions -/

inductive RegOp where
  | add | sub | sll | slt | sltu | xor | srl | sra | or | and
  deriving DecidableEq, Repr

/-- Operations on a register and an immediate. -/
inductive ImmOp where
  | addi | slti | sltiu | xori | ori | andi
  deriving DecidableEq, Repr

inductive ShiftOp where
  | slli | srli | srai
  deriving DecidableEq, Repr

/-- Operations on the low halves of two registers. -/
inductive RegOpW where
  | addw | subw | sllw | srlw | sraw
  deriving DecidableEq, Repr

inductive BranchOp where
  | beq | bne | blt | bge | bltu | bgeu
  deriving DecidableEq, Repr

inductive Op where
  | lui
  | auipc
  | jal
  | jalr
  | branch (op : BranchOp)
  | imm (op : ImmOp)
  | shift (op : ShiftOp)
  | reg (op : RegOp)
  | addiw
  | shiftW (op : ShiftOp)
  | regW (op : RegOpW)
  deriving DecidableEq, Repr

/-! ## Encodings -/

def Op.opcode : Op → Nat
  | .lui => 0x37
  | .auipc => 0x17
  | .jal => 0x6f
  | .jalr => 0x67
  | .branch _ => 0x63
  | .imm _ | .shift _ => 0x13
  | .reg _ => 0x33
  | .addiw | .shiftW _ => 0x1b
  | .regW _ => 0x3b

def Op.funct3 : Op → Option Nat
  | .lui | .auipc | .jal => none
  | .jalr => some 0
  | .branch .beq => some 0
  | .branch .bne => some 1
  | .branch .blt => some 4
  | .branch .bge => some 5
  | .branch .bltu => some 6
  | .branch .bgeu => some 7
  | .imm .addi => some 0
  | .imm .slti => some 2
  | .imm .sltiu => some 3
  | .imm .xori => some 4
  | .imm .ori => some 6
  | .imm .andi => some 7
  | .shift .slli | .shiftW .slli => some 1
  | .shift .srli | .shift .srai | .shiftW .srli | .shiftW .srai => some 5
  | .reg .add | .reg .sub => some 0
  | .reg .sll => some 1
  | .reg .slt => some 2
  | .reg .sltu => some 3
  | .reg .xor => some 4
  | .reg .srl | .reg .sra => some 5
  | .reg .or => some 6
  | .reg .and => some 7
  | .addiw => some 0
  | .regW .addw | .regW .subw => some 0
  | .regW .sllw => some 1
  | .regW .srlw | .regW .sraw => some 5

/-- The upper seven bits, of instructions for which they are fixed. -/
def Op.funct7 : Op → Option Nat
  | .reg .sub | .reg .sra | .regW .subw | .regW .sraw | .shiftW .srai => some 0x20
  | .reg _ | .regW _ | .shiftW _ => some 0
  | _ => none

/-- The upper six bits, of shifts of 64 bits by an immediate. -/
def Op.funct6 : Op → Option Nat
  | .shift .srai => some 0x10
  | .shift _ => some 0
  | _ => none

structure Op.Encodes (op : Op) (w : BitVec 32) : Prop where
  opcode : Rv64i.opcode w = op.opcode
  funct3 : ∀ f ∈ op.funct3, Rv64i.funct3 w = f
  funct7 : ∀ f ∈ op.funct7, Rv64i.funct7 w = f
  funct6 : ∀ f ∈ op.funct6, Rv64i.funct6 w = f

/-! ## Effects -/

def flag (b : Bool) : Xlen := if b then 1 else 0

def RegOp.eval (op : RegOp) (a b : Xlen) : Xlen :=
  match op with
  | .add => a + b
  | .sub => a - b
  | .sll => a <<< (b.toNat % 64)
  | .slt => flag (a.slt b)
  | .sltu => flag (a.ult b)
  | .xor => a ^^^ b
  | .srl => a >>> (b.toNat % 64)
  | .sra => a.sshiftRight (b.toNat % 64)
  | .or => a ||| b
  | .and => a &&& b

def ImmOp.eval (op : ImmOp) (a imm : Xlen) : Xlen :=
  match op with
  | .addi => a + imm
  | .slti => flag (a.slt imm)
  | .sltiu => flag (a.ult imm)
  | .xori => a ^^^ imm
  | .ori => a ||| imm
  | .andi => a &&& imm

def ShiftOp.eval {n : Nat} (op : ShiftOp) (a : BitVec n) (shamt : Nat) : BitVec n :=
  match op with
  | .slli => a <<< shamt
  | .srli => a >>> shamt
  | .srai => a.sshiftRight shamt

def RegOpW.eval (op : RegOpW) (a b : BitVec 32) : BitVec 32 :=
  match op with
  | .addw => a + b
  | .subw => a - b
  | .sllw => a <<< (b.toNat % 32)
  | .srlw => a >>> (b.toNat % 32)
  | .sraw => a.sshiftRight (b.toNat % 32)

def BranchOp.taken (op : BranchOp) (a b : Xlen) : Bool :=
  match op with
  | .beq => a == b
  | .bne => a != b
  | .blt => a.slt b
  | .bge => !a.slt b
  | .bltu => a.ult b
  | .bgeu => !a.ult b

/-- The registers and the program counter. -/
structure Hart where
  x : Fin 32 → Xlen
  pc : Xlen

/-- A register other than `x0` is written, and a jump made. -/
def Hart.set (s : Hart) (rd : Fin 32) (val pc : Xlen) : Hart :=
  ⟨if rd = 0 then s.x else Function.update s.x rd val, pc⟩

/-- The effect of the instruction that a word encodes. -/
def Op.step (op : Op) (w : BitVec 32) (s : Hart) : Hart :=
  let next := s.pc + 4
  let a := s.x (rs1 w)
  let b := s.x (rs2 w)
  match op with
  | .lui => s.set (rd w) ((immU w).signExtend 64) next
  | .auipc => s.set (rd w) (s.pc + (immU w).signExtend 64) next
  | .jal => s.set (rd w) next (s.pc + (immJ w).signExtend 64)
  | .jalr => s.set (rd w) next ((a + (immI w).signExtend 64) &&& ~~~1)
  | .branch op => { s with pc := if op.taken a b then s.pc + (immB w).signExtend 64 else next }
  | .imm op => s.set (rd w) (op.eval a ((immI w).signExtend 64)) next
  | .shift op => s.set (rd w) (op.eval a (shamt w)) next
  | .reg op => s.set (rd w) (op.eval a b) next
  | .addiw => s.set (rd w) ((a.setWidth 32 + immI w).signExtend 64) next
  | .shiftW op => s.set (rd w) ((op.eval (a.setWidth 32) (shamt w % 32)).signExtend 64) next
  | .regW op => s.set (rd w) ((op.eval (a.setWidth 32) (b.setWidth 32)).signExtend 64) next

end Rv64i
