import MachineEmulator.Lib.Bits
import MachineEmulator.Lib.Rv64i

/-!
# Compressed instructions

The words of 16 bits of RV64C, as the unprivileged architecture defines them: each stands for an instruction
of 32 bits.

* `Rvc.Instr` : the instructions that they stand for;
* `Instr.encode` : the word of an instruction, with its fields (`formatR`, `formatI`, ...);
* `Rvc.expand` : the instruction that a word of 16 bits stands for. Reserved words stand for none.
-/

namespace Rvc

open BitVec Bits Nat

open Rv64i (BranchOp ImmOp Op RegOp RegOpW ShiftOp)

/-! ## Formats -/

theorem neZero_regs : NeZero (32 : Nat) := ⟨by decide⟩

attribute [local instance] neZero_regs

def regBits (r : Fin 32) : BitVec 5 := BitVec.ofNat 5 r.val

def formatR (f7 : BitVec 7) (rs2 rs1 : Fin 32) (f3 : BitVec 3) (rd : Fin 32) (op : BitVec 7) : BitVec 32 :=
  f7 ++ regBits rs2 ++ regBits rs1 ++ f3 ++ regBits rd ++ op

def formatI (imm : BitVec 12) (rs1 : Fin 32) (f3 : BitVec 3) (rd : Fin 32) (op : BitVec 7) : BitVec 32 :=
  imm ++ regBits rs1 ++ f3 ++ regBits rd ++ op

def formatS (imm : BitVec 12) (rs2 rs1 : Fin 32) (f3 : BitVec 3) (op : BitVec 7) : BitVec 32 :=
  imm.extractLsb' 5 7 ++ regBits rs2 ++ regBits rs1 ++ f3 ++ imm.extractLsb' 0 5 ++ op

/-- The offset is even: its lowest bit is left out. -/
def formatB (offset : BitVec 12) (rs2 rs1 : Fin 32) (f3 : BitVec 3) (op : BitVec 7) : BitVec 32 :=
  offset.extractLsb' 11 1 ++ offset.extractLsb' 4 6 ++ regBits rs2 ++ regBits rs1 ++ f3 ++
    offset.extractLsb' 0 4 ++ offset.extractLsb' 10 1 ++ op

def formatU (imm : BitVec 20) (rd : Fin 32) (op : BitVec 7) : BitVec 32 := imm ++ regBits rd ++ op

def formatJ (offset : BitVec 20) (rd : Fin 32) (op : BitVec 7) : BitVec 32 :=
  offset.extractLsb' 19 1 ++ offset.extractLsb' 0 10 ++ offset.extractLsb' 10 1 ++ offset.extractLsb' 11 8 ++
    regBits rd ++ op

/-! ### Fields of formats -/

/-- A word by its fields: the upper twelve bits, the first operand, `funct3`, the lower five and the opcode. -/
structure Fields (w : BitVec 32) (upper : Nat) (rs1 : Fin 32) (f3 : BitVec 3) (lower : Nat) (op : BitVec 7) :
    Prop where
  opcode : Rv64i.opcode w = op.toNat
  funct3 : Rv64i.funct3 w = f3.toNat
  rs1 : Rv64i.rs1 w = rs1
  lower : w.toNat / 2 ^ 7 % 2 ^ 5 = lower
  upper : w.toNat / 2 ^ 20 = upper

section Formats
variable {w : BitVec 32} {upper lower : Nat} {f7 : BitVec 7} {rs2 rs1 rd : Fin 32} {f3 : BitVec 3} {op : BitVec 7}

theorem toNat_regBits (r : Fin 32) : (regBits r).toNat = r.val := by
  rw [regBits, toNat_ofNat]
  omega

theorem fields_of_toNat
    (h : w.toNat = upper * 2 ^ 20 + rs1.val * 2 ^ 15 + f3.toNat * 2 ^ 12 + lower * 2 ^ 7 + op.toNat)
    (hlower : lower < 2 ^ 5) : Fields w upper rs1 f3 lower op := by
  refine ⟨?_, ?_, Fin.ext ?_, ?_, ?_⟩
  · rw [Rv64i.opcode]
    omega
  · rw [Rv64i.funct3]
    omega
  · rw [Rv64i.rs1, Fin.val_ofNat]
    omega
  · omega
  · omega

theorem fields_formatR : Fields (formatR f7 rs2 rs1 f3 rd op) (f7.toNat * 2 ^ 5 + rs2.val) rs1 f3 rd.val op := by
  refine fields_of_toNat ?_ rd.isLt
  simp only [formatR, toNat_append_eq, toNat_regBits]
  omega

theorem fields_formatI (imm : BitVec 12) : Fields (formatI imm rs1 f3 rd op) imm.toNat rs1 f3 rd.val op := by
  refine fields_of_toNat ?_ rd.isLt
  simp only [formatI, toNat_append_eq, toNat_regBits]
  omega

theorem fields_formatS (imm : BitVec 12) : Fields (formatS imm rs2 rs1 f3 op)
    (imm.toNat / 2 ^ 5 * 2 ^ 5 + rs2.val) rs1 f3 (imm.toNat % 2 ^ 5) op := by
  refine fields_of_toNat ?_ (mod_lt _ (by decide))
  simp only [formatS, toNat_append_eq, toNat_regBits, extractLsb'_toNat, shiftRight_eq_div_pow]
  omega

theorem fields_formatB (offset : BitVec 12) : Fields (formatB offset rs2 rs1 f3 op)
    (offset.toNat / 2 ^ 11 * 2 ^ 11 + offset.toNat / 2 ^ 4 % 2 ^ 6 * 2 ^ 5 + rs2.val) rs1 f3
    (offset.toNat % 2 ^ 4 * 2 + offset.toNat / 2 ^ 10 % 2) op := by
  refine fields_of_toNat ?_ (by omega)
  simp only [formatB, toNat_append_eq, toNat_regBits, extractLsb'_toNat, shiftRight_eq_div_pow]
  omega

theorem Fields.rd_eq (h : Fields w upper rs1 f3 rd.val op) : Rv64i.rd w = rd := by
  apply Fin.ext
  rw [Rv64i.rd, Fin.val_ofNat]
  exact h.lower

theorem Fields.rs2_eq (h : Fields w upper rs1 f3 lower op) (hrs2 : upper % 2 ^ 5 = rs2.val) : Rv64i.rs2 w = rs2 := by
  apply Fin.ext
  rw [Rv64i.rs2, Fin.val_ofNat, h.upper]
  exact hrs2

theorem immI_formatI (imm : BitVec 12) : Rv64i.immI (formatI imm rs1 f3 rd op) = imm.signExtend 32 := by
  have h : (formatI imm rs1 f3 rd op).extractLsb' 20 12 = imm := by
    apply eq_of_toNat_eq
    rw [extractLsb'_toNat, shiftRight_eq_div_pow, (fields_formatI imm).upper, mod_eq_of_lt imm.isLt]
  rw [Rv64i.immI, h]

theorem immS_formatS (imm : BitVec 12) : Rv64i.immS (formatS imm rs2 rs1 f3 op) = imm.signExtend 32 := by
  have hf : Fields (formatS imm rs2 rs1 f3 op) _ _ _ _ _ := fields_formatS imm
  have hhigh : (formatS imm rs2 rs1 f3 op).toNat / 2 ^ 25 = imm.toNat / 2 ^ 5 := by
    have hupper := hf.upper
    omega
  have h : (formatS imm rs2 rs1 f3 op).extractLsb' 25 7 ++ (formatS imm rs2 rs1 f3 op).extractLsb' 7 5 = imm := by
    apply eq_of_toNat_eq
    rw [toNat_append_eq, extractLsb'_toNat, extractLsb'_toNat, shiftRight_eq_div_pow,
      shiftRight_eq_div_pow, hhigh, hf.lower]
    omega
  rw [Rv64i.immS, h]

theorem immB_formatB (offset : BitVec 12) :
    Rv64i.immB (formatB offset rs2 rs1 f3 op) = (offset ++ 0#1).signExtend 32 := by
  rw [Rv64i.immB]
  congr 1
  apply eq_of_getLsbD_eq
  intro i hi
  simp only [formatB, getLsbD_append, getLsbD_extractLsb']
  interval_cases i <;> simp

/-! The formats with an immediate of twenty bits. -/

theorem toNat_formatU (imm : BitVec 20) :
    (formatU imm rd op).toNat = imm.toNat * 2 ^ 12 + rd.val * 2 ^ 7 + op.toNat := by
  simp only [formatU, toNat_append_eq, toNat_regBits]
  omega

theorem opcode_formatU (imm : BitVec 20) : Rv64i.opcode (formatU imm rd op) = op.toNat := by
  rw [Rv64i.opcode, toNat_formatU]
  omega

theorem rd_formatU (imm : BitVec 20) : Rv64i.rd (formatU imm rd op) = rd := by
  apply Fin.ext
  rw [Rv64i.rd, Fin.val_ofNat, toNat_formatU]
  omega

theorem immU_formatU (imm : BitVec 20) : Rv64i.immU (formatU imm rd op) = imm ++ 0#12 := by
  have h : (formatU imm rd op).extractLsb' 12 20 = imm := by
    apply eq_of_toNat_eq
    rw [extractLsb'_toNat, shiftRight_eq_div_pow, toNat_formatU]
    omega
  rw [Rv64i.immU, h]

/-- A jump is the format of an upper immediate with its bits in another order. -/
theorem formatJ_eq (offset : BitVec 20) : formatJ offset rd op =
    formatU (offset.extractLsb' 19 1 ++ offset.extractLsb' 0 10 ++ offset.extractLsb' 10 1 ++
      offset.extractLsb' 11 8) rd op := rfl

theorem immJ_formatJ (offset : BitVec 20) :
    Rv64i.immJ (formatJ offset rd op) = (offset ++ 0#1).signExtend 32 := by
  rw [Rv64i.immJ]
  congr 1
  apply eq_of_getLsbD_eq
  intro i hi
  simp only [formatJ, getLsbD_append, getLsbD_extractLsb']
  interval_cases i <;> simp

end Formats

/-! ## Instructions -/

inductive Width where
  | w
  | d
  deriving DecidableEq, Repr

/-- The instructions that compressed ones stand for. Offsets of jumps count half-words. -/
inductive Instr where
  | lui (rd : Fin 32) (imm : BitVec 20)
  | jal (rd : Fin 32) (offset : BitVec 20)
  | jalr (rd rs1 : Fin 32) (imm : BitVec 12)
  | branch (op : BranchOp) (rs1 rs2 : Fin 32) (offset : BitVec 12)
  | imm (op : ImmOp) (rd rs1 : Fin 32) (imm : BitVec 12)
  | shift (op : ShiftOp) (rd rs1 : Fin 32) (shamt : BitVec 6)
  | reg (op : RegOp) (rd rs1 rs2 : Fin 32)
  | addiw (rd rs1 : Fin 32) (imm : BitVec 12)
  | regW (op : RegOpW) (rd rs1 rs2 : Fin 32)
  | load (width : Width) (rd rs1 : Fin 32) (imm : BitVec 12)
  | store (width : Width) (rs2 rs1 : Fin 32) (imm : BitVec 12)
  | fld (rd rs1 : Fin 32) (imm : BitVec 12)
  | fsd (rs2 rs1 : Fin 32) (imm : BitVec 12)
  | ebreak
  deriving DecidableEq, Repr

variable (c : BitVec 16) (op : Op)

/-- The fields that an integer instruction fixes. -/
def opcodeBits : BitVec 7 := BitVec.ofNat 7 op.opcode
def funct3Bits : BitVec 3 := BitVec.ofNat 3 (op.funct3.getD 0)
def funct7Bits : BitVec 7 := BitVec.ofNat 7 (op.funct7.getD 0)
def funct6Bits : BitVec 6 := BitVec.ofNat 6 (op.funct6.getD 0)

def Width.funct3 : Width → BitVec 3
  | .w => 2
  | .d => 3

def Instr.encode : Instr → BitVec 32
  | .lui rd i => formatU i rd (opcodeBits .lui)
  | .jal rd offset => formatJ offset rd (opcodeBits .jal)
  | .jalr rd rs1 i => formatI i rs1 (funct3Bits .jalr) rd (opcodeBits .jalr)
  | .branch op rs1 rs2 offset => formatB offset rs2 rs1 (funct3Bits (.branch op)) (opcodeBits (.branch op))
  | .imm op rd rs1 i => formatI i rs1 (funct3Bits (.imm op)) rd (opcodeBits (.imm op))
  | .shift op rd rs1 shamt =>
    formatI (funct6Bits (.shift op) ++ shamt) rs1 (funct3Bits (.shift op)) rd (opcodeBits (.shift op))
  | .reg op rd rs1 rs2 => formatR (funct7Bits (.reg op)) rs2 rs1 (funct3Bits (.reg op)) rd (opcodeBits (.reg op))
  | .addiw rd rs1 i => formatI i rs1 (funct3Bits .addiw) rd (opcodeBits .addiw)
  | .regW op rd rs1 rs2 => formatR (funct7Bits (.regW op)) rs2 rs1 (funct3Bits (.regW op)) rd (opcodeBits (.regW op))
  | .load width rd rs1 i => formatI i rs1 width.funct3 rd 0x03
  | .store width rs2 rs1 i => formatS i rs2 rs1 width.funct3 0x23
  | .fld rd rs1 i => formatI i rs1 3 rd 0x07
  | .fsd rs2 rs1 i => formatS i rs2 rs1 3 0x27
  | .ebreak => 0x00100073

/-! ### Words of integer instructions -/

theorem toNat_opcode : (opcodeBits op).toNat = op.opcode := by
  cases op <;> rfl

theorem toNat_functs : (∀ f ∈ op.funct3, (funct3Bits op).toNat = f) ∧
    (∀ f ∈ op.funct7, (funct7Bits op).toNat = f) ∧ ∀ f ∈ op.funct6, (funct6Bits op).toNat = f := by
  rcases op with _ | _ | _ | _ | op | op | op | op | _ | op | op <;> try cases op
  all_goals
    refine ⟨?_, ?_, ?_⟩ <;> rintro f ⟨⟩ <;> rfl

theorem Fields.encodes {w : BitVec 32} {upper lower : Nat} {rs1 : Fin 32} (op : Op)
    (h : Fields w upper rs1 (funct3Bits op) lower (opcodeBits op)) (h7 : ∀ f ∈ op.funct7, upper / 2 ^ 5 = f)
    (h6 : ∀ f ∈ op.funct6, upper / 2 ^ 6 = f) : op.Encodes w where
  opcode := h.opcode.trans (toNat_opcode op)
  funct3 f hf := h.funct3.trans ((toNat_functs op).1 f hf)
  funct7 f hf := by
    have hupper := h.upper
    have hf7 := h7 f hf
    rw [Rv64i.funct7]
    omega
  funct6 f hf := by
    have hupper := h.upper
    have hf6 := h6 f hf
    rw [Rv64i.funct6]
    omega

theorem Fields.encodes_of_none {w : BitVec 32} {upper lower : Nat} {rs1 : Fin 32} (op : Op)
    (h : Fields w upper rs1 (funct3Bits op) lower (opcodeBits op)) (h7 : op.funct7 = none) (h6 : op.funct6 = none) :
    op.Encodes w :=
  h.encodes op (by simp [h7]) (by simp [h6])

section Encodes
variable (rd rs1 rs2 : Fin 32) (i : BitVec 12)

theorem encodes_lui (u : BitVec 20) : Op.Encodes .lui (Instr.lui rd u).encode where
  opcode := opcode_formatU u
  funct3 _ hf := by cases hf
  funct7 _ hf := by cases hf
  funct6 _ hf := by cases hf

theorem encodes_jal (offset : BitVec 20) : Op.Encodes .jal (Instr.jal rd offset).encode where
  opcode := opcode_formatU _
  funct3 _ hf := by cases hf
  funct7 _ hf := by cases hf
  funct6 _ hf := by cases hf

theorem encodes_jalr : Op.Encodes .jalr (Instr.jalr rd rs1 i).encode :=
  Fields.encodes_of_none .jalr (fields_formatI i) rfl rfl

theorem encodes_branch (op : BranchOp) : Op.Encodes (.branch op) (Instr.branch op rs1 rs2 i).encode :=
  Fields.encodes_of_none (.branch op) (fields_formatB i) rfl rfl

theorem encodes_imm (op : ImmOp) : Op.Encodes (.imm op) (Instr.imm op rd rs1 i).encode :=
  Fields.encodes_of_none (.imm op) (fields_formatI i) rfl rfl

theorem encodes_addiw : Op.Encodes .addiw (Instr.addiw rd rs1 i).encode :=
  Fields.encodes_of_none .addiw (fields_formatI i) rfl rfl

theorem encodes_shift (op : ShiftOp) (shamt : BitVec 6) :
    Op.Encodes (.shift op) (Instr.shift op rd rs1 shamt).encode := by
  refine Fields.encodes (.shift op) (fields_formatI _) (fun f hf => by cases hf) fun f hf => ?_
  rw [toNat_append_eq, (toNat_functs _).2.2 f hf]
  omega

theorem encodes_reg (op : RegOp) : Op.Encodes (.reg op) (Instr.reg op rd rs1 rs2).encode := by
  refine Fields.encodes (.reg op) fields_formatR (fun f hf => ?_) fun f hf => by cases hf
  rw [(toNat_functs _).2.1 f hf]
  omega

theorem encodes_regW (op : RegOpW) : Op.Encodes (.regW op) (Instr.regW op rd rs1 rs2).encode := by
  refine Fields.encodes (.regW op) fields_formatR (fun f hf => ?_) fun f hf => by cases hf
  rw [(toNat_functs _).2.1 f hf]
  omega

theorem shamt_encode (op : ShiftOp) (shamt : BitVec 6) :
    Rv64i.shamt (Instr.shift op rd rs1 shamt).encode = shamt.toNat := by
  have hf : Fields (Instr.shift op rd rs1 shamt).encode _ _ _ _ _ := fields_formatI _
  rw [Rv64i.shamt, hf.upper, Bits.toNat_append_eq]
  omega

end Encodes

/-! ## Fields of compressed instructions -/

section Fields
variable (c : BitVec 16)

/-- The number in the `n` bits from `lo` on. -/
def bits (lo n : Nat) : Nat := c.toNat / 2 ^ lo % 2 ^ n

def reg (lo : Nat) : Fin 32 := (c.extractLsb' lo 5).toFin

/-- One of the registers `x8` to `x15`, which three bits name. -/
def regC (lo : Nat) : Fin 32 := (1#2 ++ c.extractLsb' lo 3).toFin

theorem val_reg (lo : Nat) : (reg c lo).val = bits c lo 5 := by
  rw [reg, val_toFin, extractLsb'_toNat, shiftRight_eq_div_pow, bits]

theorem val_regC (lo : Nat) : (regC c lo).val = 8 + bits c lo 3 := by
  rw [regC, val_toFin, toNat_append_eq, extractLsb'_toNat, shiftRight_eq_div_pow, bits]
  rfl

/-- The immediate of arithmetic, and the amount of shifts. -/
def immCI : BitVec 12 := (c.extractLsb' 12 1 ++ c.extractLsb' 2 5).signExtend 12
def shamt : BitVec 6 := c.extractLsb' 12 1 ++ c.extractLsb' 2 5

def immLUI : BitVec 20 := (c.extractLsb' 12 1 ++ c.extractLsb' 2 5).signExtend 20

/-- Bits 9, 8 and 7, 6, 5, and 4. -/
def immADDI16SP : BitVec 12 :=
  (c.extractLsb' 12 1 ++ c.extractLsb' 3 2 ++ c.extractLsb' 5 1 ++ c.extractLsb' 2 1 ++ c.extractLsb' 6 1 ++
    0#4).signExtend 12

/-- Bits 9 to 6, 5 and 4, 3, and 2. -/
def immADDI4SPN : BitVec 12 :=
  (c.extractLsb' 7 4 ++ c.extractLsb' 11 2 ++ c.extractLsb' 5 1 ++ c.extractLsb' 6 1 ++ 0#2).setWidth 12

/-- Bits 6, 5 to 3, and 2. -/
def immCLW : BitVec 12 := (c.extractLsb' 5 1 ++ c.extractLsb' 10 3 ++ c.extractLsb' 6 1 ++ 0#2).setWidth 12

/-- Bits 7 and 6, and 5 to 3. -/
def immCLD : BitVec 12 := (c.extractLsb' 5 2 ++ c.extractLsb' 10 3 ++ 0#3).setWidth 12

/-- Bits 7 and 6, 5, and 4 to 2. -/
def immLWSP : BitVec 12 := (c.extractLsb' 2 2 ++ c.extractLsb' 12 1 ++ c.extractLsb' 4 3 ++ 0#2).setWidth 12

/-- Bits 8 to 6, 5, and 4 and 3. -/
def immLDSP : BitVec 12 := (c.extractLsb' 2 3 ++ c.extractLsb' 12 1 ++ c.extractLsb' 5 2 ++ 0#3).setWidth 12

/-- Bits 7 and 6, and 5 to 2. -/
def immSWSP : BitVec 12 := (c.extractLsb' 7 2 ++ c.extractLsb' 9 4 ++ 0#2).setWidth 12

/-- Bits 8 to 6, and 5 to 3. -/
def immSDSP : BitVec 12 := (c.extractLsb' 7 3 ++ c.extractLsb' 10 3 ++ 0#3).setWidth 12

/-- Bits 11, 10, 9 and 8, 7, 6, 5, 4, and 3 to 1 of the offset. -/
def offsetCJ : BitVec 20 :=
  (c.extractLsb' 12 1 ++ c.extractLsb' 8 1 ++ c.extractLsb' 9 2 ++ c.extractLsb' 6 1 ++ c.extractLsb' 7 1 ++
    c.extractLsb' 2 1 ++ c.extractLsb' 11 1 ++ c.extractLsb' 3 3).signExtend 20

/-- Bits 8, 7 and 6, 5, 4 and 3, and 2 and 1 of the offset. -/
def offsetCB : BitVec 12 :=
  (c.extractLsb' 12 1 ++ c.extractLsb' 5 2 ++ c.extractLsb' 2 1 ++ c.extractLsb' 10 2 ++
    c.extractLsb' 3 2).signExtend 12

end Fields

/-! ## Expansion -/

def expand0 : Option Instr :=
  let rd := regC c 2
  let rs1 := regC c 7
  match bits c 13 3 with
  | 0 => if immADDI4SPN c = 0 then none else some (.imm .addi rd 2 (immADDI4SPN c))
  | 1 => some (.fld rd rs1 (immCLD c))
  | 2 => some (.load .w rd rs1 (immCLW c))
  | 3 => some (.load .d rd rs1 (immCLD c))
  | 5 => some (.fsd rd rs1 (immCLD c))
  | 6 => some (.store .w rd rs1 (immCLW c))
  | 7 => some (.store .d rd rs1 (immCLD c))
  | _ => none

/-- Arithmetic on the registers that three bits name. -/
def expandCA : Option Instr :=
  let rd := regC c 7
  let rs2 := regC c 2
  match bits c 10 2 with
  | 0 => some (.shift .srli rd rd (shamt c))
  | 1 => some (.shift .srai rd rd (shamt c))
  | 2 => some (.imm .andi rd rd (immCI c))
  | _ => match bits c 12 1, bits c 5 2 with
    | 0, 0 => some (.reg .sub rd rd rs2)
    | 0, 1 => some (.reg .xor rd rd rs2)
    | 0, 2 => some (.reg .or rd rd rs2)
    | 0, _ => some (.reg .and rd rd rs2)
    | _, 0 => some (.regW .subw rd rd rs2)
    | _, 1 => some (.regW .addw rd rd rs2)
    | _, _ => none

def expand1 : Option Instr :=
  let rd := reg c 7
  match bits c 13 3 with
  | 0 => some (.imm .addi rd rd (immCI c))
  | 1 => if rd = 0 then none else some (.addiw rd rd (immCI c))
  | 2 => some (.imm .addi rd 0 (immCI c))
  | 3 =>
    if rd = 2 then (if immADDI16SP c = 0 then none else some (.imm .addi 2 2 (immADDI16SP c)))
    else if immLUI c = 0 then none
    else some (.lui rd (immLUI c))
  | 4 => expandCA c
  | 5 => some (.jal 0 (offsetCJ c))
  | 6 => some (.branch .beq (regC c 7) 0 (offsetCB c))
  | _ => some (.branch .bne (regC c 7) 0 (offsetCB c))

def expand2 : Option Instr :=
  let rd := reg c 7
  let rs2 := reg c 2
  match bits c 13 3 with
  | 0 => some (.shift .slli rd rd (shamt c))
  | 1 => some (.fld rd 2 (immLDSP c))
  | 2 => if rd = 0 then none else some (.load .w rd 2 (immLWSP c))
  | 3 => if rd = 0 then none else some (.load .d rd 2 (immLDSP c))
  | 4 =>
    if bits c 12 1 = 0 then
      if rs2 ≠ 0 then some (.reg .add rd 0 rs2)
      else if rd = 0 then none
      else some (.jalr 0 rd 0)
    else if rs2 ≠ 0 then some (.reg .add rd rd rs2)
    else if rd = 0 then some .ebreak
    else some (.jalr 1 rd 0)
  | 5 => some (.fsd rs2 2 (immSDSP c))
  | 6 => some (.store .w rs2 2 (immSWSP c))
  | _ => some (.store .d rs2 2 (immSDSP c))

/-- The instruction that a word of 16 bits stands for. -/
def expand : Option Instr :=
  match bits c 0 2 with
  | 0 => expand0 c
  | 1 => expand1 c
  | 2 => expand2 c
  | _ => none

end Rvc
