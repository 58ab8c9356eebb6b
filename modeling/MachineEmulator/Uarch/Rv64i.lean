import MachineEmulator.Lib.Bits
import MachineEmulator.Lib.Rv64i
import MachineEmulator.Uarch.StateAccess

/-!
# The integer instructions of the microarchitecture

The micro-interpreter against the architecture: its decoder finds the handler of each integer instruction
that works on registers and the program counter only, and the handler has the effect of `Rv64i.Op.step`.
-/

namespace MachineEmulator.Uarch

open Rv64i (Op opcode funct3 funct6 funct7)

variable {H : Type}

/-! ## Fields -/

section Fields
variable (insn : Insn)

/-- A field that two shifts cut out. -/
theorem toNat_shifts (left right : Nat) :
    (insn <<< left >>> right).toNat = insn.toNat * 2 ^ left % 2 ^ 32 / 2 ^ right := by
  rw [BitVec.toNat_ushiftRight, BitVec.toNat_shiftLeft, Nat.shiftLeft_eq, Nat.shiftRight_eq_div_pow]

theorem operandRd_eq : operandRd insn = Rv64i.rd insn := by
  apply Fin.ext
  simp only [operandRd, Rv64i.rd, Fin.val_ofNat, toNat_shifts]
  omega

theorem operandRs1_eq : operandRs1 insn = Rv64i.rs1 insn := by
  apply Fin.ext
  simp only [operandRs1, Rv64i.rs1, Fin.val_ofNat, toNat_shifts]
  omega

theorem operandRs2_eq : operandRs2 insn = Rv64i.rs2 insn := by
  apply Fin.ext
  simp only [operandRs2, Rv64i.rs2, Fin.val_ofNat, toNat_shifts]
  omega

theorem toNat_operandShamt6 : (operandShamt6 insn).toNat = Rv64i.shamt insn := by
  rw [operandShamt6, toNat_shifts, Rv64i.shamt]
  omega

theorem toNat_operandShamt5 : (operandShamt5 insn).toNat = Rv64i.shamt insn % 32 := by
  rw [operandShamt5, toNat_shifts, Rv64i.shamt]
  omega

end Fields

/-! ## Decoding -/

section Decoding
variable (insn : Insn)

theorem toNat_and_opcodeMask : (insn &&& 0x7f).toNat = opcode insn := by
  rw [BitVec.toNat_and]
  exact Nat.and_two_pow_sub_one_eq_mod _ 7

theorem insnMatchOpcode_eq (op : BitVec 32) : insnMatchOpcode insn op = (opcode insn == op.toNat) := by
  rw [insnMatchOpcode, Bool.eq_iff_iff, beq_iff_eq, beq_iff_eq, ← BitVec.toNat_inj, toNat_and_opcodeMask]

theorem toNat_and_funct3Mask : (insn &&& 0x707f#32).toNat = funct3 insn * 2 ^ 12 + opcode insn := by
  have hmask : 0x707f#32 = (BitVec.ofNat 32 (2 ^ 3 - 1) <<< 12) ||| 0x7f := by decide
  have hfield : (insn &&& (BitVec.ofNat 32 (2 ^ 3 - 1) <<< 12)).toNat = funct3 insn * 2 ^ 12 :=
    Bits.toNat_and_field insn (by decide)
  have hop := toNat_and_opcodeMask insn
  have hlt : opcode insn < 2 ^ 7 := Nat.mod_lt _ (by decide)
  rw [hmask, BitVec.and_or_distrib_left, Bits.toNat_or_of_lt (n := 12) (by omega) (by omega), hfield, hop]

theorem toNat_funct3_or {op f3 : BitVec 32} (hop : op.toNat < 2 ^ 7) (hf3 : f3.toNat < 2 ^ 3) :
    ((f3 <<< 12) ||| op).toNat = f3.toNat * 2 ^ 12 + op.toNat := by
  have hshift : (f3 <<< 12).toNat = f3.toNat * 2 ^ 12 := by
    rw [BitVec.toNat_shiftLeft, Nat.shiftLeft_eq]
    omega
  rw [Bits.toNat_or_of_lt (n := 12) (by omega) (by omega), hshift]

theorem insnMatchOpcodeFunct3_eq {op f3 : BitVec 32} (hop : op.toNat < 2 ^ 7) (hf3 : f3.toNat < 2 ^ 3) :
    insnMatchOpcodeFunct3 insn op f3 = (opcode insn == op.toNat && funct3 insn == f3.toNat) := by
  have hlt : opcode insn < 2 ^ 7 := Nat.mod_lt _ (by decide)
  show (insn &&& 0x707f#32 == ((f3 <<< 12) ||| op)) = _
  rw [Bool.eq_iff_iff, Bool.and_eq_true, beq_iff_eq, beq_iff_eq, beq_iff_eq,
    ← BitVec.toNat_inj, toNat_and_funct3Mask, toNat_funct3_or hop hf3]
  omega

/-- The test of a field of `n` upper bits besides the opcode and `funct3`. -/
theorem upper_eq_iff (n : Nat) (op f3 f : BitVec 32) (hn : n ≤ 7) (hop : op.toNat < 2 ^ 7)
    (hf3 : f3.toNat < 2 ^ 3) (hf : f.toNat < 2 ^ n) :
    insn &&& ((BitVec.ofNat 32 (2 ^ n - 1) <<< (32 - n)) ||| 0x707f#32) = ((f <<< (32 - n)) ||| ((f3 <<< 12) ||| op)) ↔
      opcode insn = op.toNat ∧ funct3 insn = f3.toNat ∧ insn.toNat / 2 ^ (32 - n) = f.toNat := by
  have hop' : opcode insn < 2 ^ 7 := Nat.mod_lt _ (by decide)
  have hf3' : funct3 insn < 2 ^ 3 := Nat.mod_lt _ (by decide)
  have hlow := toNat_and_funct3Mask insn
  have hlow' := toNat_funct3_or hop hf3
  have hpow : 2 ^ 15 ≤ 2 ^ (32 - n) := Nat.pow_le_pow_right (by decide) (by omega)
  have hprod : 2 ^ n * 2 ^ (32 - n) = 2 ^ 32 := by rw [← Nat.pow_add, Nat.add_sub_cancel' (by omega)]
  have hdiv : insn.toNat / 2 ^ (32 - n) < 2 ^ n := by
    rw [Nat.div_lt_iff_lt_mul (Nat.two_pow_pos _), hprod]
    exact insn.isLt
  have hfield : (insn &&& (BitVec.ofNat 32 (2 ^ n - 1) <<< (32 - n))).toNat =
      insn.toNat / 2 ^ (32 - n) * 2 ^ (32 - n) := by
    rw [Bits.toNat_and_field insn (by omega), Nat.mod_eq_of_lt hdiv]
  have hshift : (f <<< (32 - n)).toNat = f.toNat * 2 ^ (32 - n) := by
    rw [BitVec.toNat_shiftLeft, Nat.shiftLeft_eq, Nat.mod_eq_of_lt]
    rw [← hprod]
    exact Nat.mul_lt_mul_of_pos_right hf (Nat.two_pow_pos _)
  rw [BitVec.and_or_distrib_left, ← BitVec.toNat_inj,
    Bits.toNat_or_of_lt (n := 32 - n) (by rw [hfield, Nat.mul_mod_left]) (by omega),
    Bits.toNat_or_of_lt (n := 32 - n) (by rw [hshift, Nat.mul_mod_left]) (by omega), hfield, hshift, hlow, hlow']
  rw [Bits.mul_add_inj (by omega) (by omega)]
  omega

theorem insnMatchOpcodeFunct3Funct7_eq {op f3 f7 : BitVec 32} (hop : op.toNat < 2 ^ 7) (hf3 : f3.toNat < 2 ^ 3)
    (hf7 : f7.toNat < 2 ^ 7) : insnMatchOpcodeFunct3Funct7 insn op f3 f7 =
      (opcode insn == op.toNat && funct3 insn == f3.toNat && funct7 insn == f7.toNat) := by
  have h := upper_eq_iff insn 7 op f3 f7 (by decide) hop hf3 hf7
  show (insn &&& 0xfe00707f#32 == ((f7 <<< 25) ||| (f3 <<< 12) ||| op)) = _
  rw [Bool.eq_iff_iff, Bool.and_eq_true, Bool.and_eq_true, beq_iff_eq, beq_iff_eq, beq_iff_eq, beq_iff_eq,
    BitVec.or_assoc, and_assoc]
  exact h

theorem insnMatchOpcodeFunct3Funct7Sr1_eq {op f3 f6 : BitVec 32} (hop : op.toNat < 2 ^ 7) (hf3 : f3.toNat < 2 ^ 3)
    (hf6 : f6.toNat < 2 ^ 6) : insnMatchOpcodeFunct3Funct7Sr1 insn op f3 f6 =
      (opcode insn == op.toNat && funct3 insn == f3.toNat && funct6 insn == f6.toNat) := by
  have h := upper_eq_iff insn 6 op f3 f6 (by decide) hop hf3 hf6
  show (insn &&& 0xfc00707f#32 == ((f6 <<< 26) ||| (f3 <<< 12) ||| op)) = _
  rw [Bool.eq_iff_iff, Bool.and_eq_true, Bool.and_eq_true, beq_iff_eq, beq_iff_eq, beq_iff_eq, beq_iff_eq,
    BitVec.or_assoc, and_assoc]
  exact h

def handler (pc : Word) : Op → UProg Unit
  | .lui => executeLUI insn pc
  | .auipc => executeAUIPC insn pc
  | .jal => executeJAL insn pc
  | .jalr => executeJALR insn pc
  | .branch .beq => executeBEQ insn pc
  | .branch .bne => executeBNE insn pc
  | .branch .blt => executeBLT insn pc
  | .branch .bge => executeBGE insn pc
  | .branch .bltu => executeBLTU insn pc
  | .branch .bgeu => executeBGEU insn pc
  | .imm .addi => executeADDI insn pc
  | .imm .slti => executeSLTI insn pc
  | .imm .sltiu => executeSLTIU insn pc
  | .imm .xori => executeXORI insn pc
  | .imm .ori => executeORI insn pc
  | .imm .andi => executeANDI insn pc
  | .shift .slli => executeSLLI insn pc
  | .shift .srli => executeSRLI insn pc
  | .shift .srai => executeSRAI insn pc
  | .reg .add => executeADD insn pc
  | .reg .sub => executeSUB insn pc
  | .reg .sll => executeSLL insn pc
  | .reg .slt => executeSLT insn pc
  | .reg .sltu => executeSLTU insn pc
  | .reg .xor => executeXOR insn pc
  | .reg .srl => executeSRL insn pc
  | .reg .sra => executeSRA insn pc
  | .reg .or => executeOR insn pc
  | .reg .and => executeAND insn pc
  | .addiw => executeADDIW insn pc
  | .shiftW .slli => executeSLLIW insn pc
  | .shiftW .srli => executeSRLIW insn pc
  | .shiftW .srai => executeSRAIW insn pc
  | .regW .addw => executeADDW insn pc
  | .regW .subw => executeSUBW insn pc
  | .regW .sllw => executeSLLW insn pc
  | .regW .srlw => executeSRLW insn pc
  | .regW .sraw => executeSRAW insn pc

theorem executeInsn_eq_handler {op : Op} (henc : op.Encodes insn) (pc : Word) :
    executeInsn insn pc = handler insn pc op := by
  obtain ⟨hop, hf3, hf7, hf6⟩ := henc
  rw [executeInsn, decodeTable]
  simp (disch := decide) only [insnMatchOpcode_eq, insnMatchOpcodeFunct3_eq, insnMatchOpcodeFunct3Funct7_eq,
    insnMatchOpcodeFunct3Funct7Sr1_eq]
  -- The tests of the table are now on numbers, so it is evaluated at the fields that the instruction fixes.
  generalize opcode insn = o, funct3 insn = f3, funct7 insn = f7, funct6 insn = f6 at *
  rcases op with _ | _ | _ | _ | op | op | op | op | _ | op | op <;> try cases op
  all_goals
    simp only [Op.funct3, Op.funct7, Op.funct6, Option.mem_def, Option.some.injEq, reduceCtorEq,
      forall_eq', false_implies, implies_true] at hf3 hf7 hf6
    subst_vars
    rfl

end Decoding

/-! ## Shift amounts -/

theorem toNat_and_3f (count : BitVec 32) : (count &&& 0x3f).toNat = count.toNat % 64 := by
  rw [BitVec.toNat_and]
  exact Nat.and_two_pow_sub_one_eq_mod _ 6

theorem toNat_and_1f (count : BitVec 32) : (count &&& 0x1f).toNat = count.toNat % 32 := by
  rw [BitVec.toNat_and]
  exact Nat.and_two_pow_sub_one_eq_mod _ 5

theorem toNat_setWidth_and_3f (b : Word) : (b.setWidth 32 &&& 0x3f).toNat = b.toNat % 64 := by
  rw [toNat_and_3f, BitVec.toNat_setWidth]
  omega

theorem toNat_operandShamt6_and (insn : Insn) : (operandShamt6 insn &&& 0x3f).toNat = Rv64i.shamt insn := by
  rw [toNat_and_3f, toNat_operandShamt6, Rv64i.shamt]
  omega

theorem toNat_operandShamt5_and (insn : Insn) : (operandShamt5 insn &&& 0x1f).toNat = Rv64i.shamt insn % 32 := by
  rw [toNat_and_1f, toNat_operandShamt5, Nat.mod_mod]

/-! ## Effects -/

/-- The registers and the program counter of the microarchitecture. -/
def hart (m : Machine H) : Rv64i.Hart := ⟨m.uarch.x.get, m.uarch.pc⟩

/-- The program succeeds, leaves the hart like this, and the machine under the microarchitecture as it was. -/
def Retires (p : UProg Unit) (m : Machine H) (s : Rv64i.Hart) : Prop :=
  ∃ m', p.run stateAccess m = .ok () m' ∧ hart m' = s ∧ m'.s = m.s

section Effects
variable {m : Machine H} {s : Rv64i.Hart} {insn : Insn} {pc : Word}

theorem Retires.congr {p : UProg Unit} {s' : Rv64i.Hart} (h : Retires p m s) (hs : s = s') : Retires p m s' :=
  hs ▸ h

theorem retires_readX {reg : Fin 32} {f : Word → UProg Unit} (h : Retires (f ((hart m).x reg)) m s) :
    Retires (do let val ← readX reg; f val) m s := h

theorem retires_writePc (m : Machine H) (pc : Word) : Retires (writePc pc) m { hart m with pc } :=
  ⟨_, rfl, rfl, rfl⟩

theorem retires_writeX {rd : Fin 32} (hrd : rd ≠ 0) (m : Machine H) (val pc : Word) :
    Retires (do writeX rd val; writePc pc) m ((hart m).set rd val pc) := by
  refine ⟨setUarch (setUarch m { m.uarch with x := m.uarch.x.set rd hrd val })
    { m.uarch with x := m.uarch.x.set rd hrd val, pc }, ?_, ?_, rfl⟩
  · have hx : doWriteX m rd val = .ok (setUarch m { m.uarch with x := m.uarch.x.set rd hrd val }) := dif_pos hrd
    have hwrite : (stateAccess (.writeX rd val) : EStateM String (Machine H) Unit) m =
        .ok () (setUarch m { m.uarch with x := m.uarch.x.set rd hrd val }) :=
      (EStateM.update_ok_iff (f := fun m => doWriteX m rd val)).mpr hx
    exact EStateM.bind_of_ok hwrite
  · simp only [Rv64i.Hart.set, hrd, if_false]
    rfl

theorem retires_writeXUnlessZero (m : Machine H) (rd : Fin 32) (val pc : Word) :
    Retires (do writeXUnlessZero rd val; writePc pc) m ((hart m).set rd val pc) := by
  by_cases hrd : rd = 0
  · simp only [writeXUnlessZero, Rv64i.Hart.set, hrd, ne_eq, not_true, if_false, if_true]
    exact retires_writePc m pc
  · simp only [writeXUnlessZero, ne_eq, hrd, not_false_eq_true, if_true]
    exact retires_writeX hrd m val pc

theorem retires_executeBranch (f : Word → Word → Bool) :
    Retires (executeBranch f insn pc) m { hart m with
      pc := if f ((hart m).x (Rv64i.rs1 insn)) ((hart m).x (Rv64i.rs2 insn))
        then pc + (Rv64i.immB insn).signExtend 64 else pc + 4 } := by
  rw [← Rv64i.immB_eq_shifts, ← operandRs1_eq, ← operandRs2_eq]
  refine retires_readX (retires_readX ?_)
  cases f ((hart m).x (operandRs1 insn)) ((hart m).x (operandRs2 insn)) with
  | false => exact retires_writePc m _
  | true => exact retires_writePc m _

theorem retires_executeImm (imm : Insn → BitVec 32) (f : Word → BitVec 32 → Word) :
    Retires (executeImm imm f insn pc) m
      ((hart m).set (Rv64i.rd insn) (f ((hart m).x (Rv64i.rs1 insn)) (imm insn)) (pc + 4)) := by
  rw [← operandRd_eq, ← operandRs1_eq]
  by_cases hrd : operandRd insn = 0
  · simp only [executeImm, Rv64i.Hart.set, hrd, ne_eq, not_true, if_false, if_true]
    exact retires_writePc m _
  · simp only [executeImm, ne_eq, hrd, not_false_eq_true, if_true]
    exact retires_readX (retires_writeX hrd m _ _)

theorem retires_executeReg (f : Word → Word → Word) :
    Retires (executeReg f insn pc) m ((hart m).set (Rv64i.rd insn)
      (f ((hart m).x (Rv64i.rs1 insn)) ((hart m).x (Rv64i.rs2 insn))) (pc + 4)) := by
  rw [← operandRd_eq, ← operandRs1_eq, ← operandRs2_eq]
  by_cases hrd : operandRd insn = 0
  · simp only [executeReg, Rv64i.Hart.set, hrd, ne_eq, not_true, if_false, if_true]
    exact retires_writePc m _
  · simp only [executeReg, ne_eq, hrd, not_false_eq_true, if_true]
    exact retires_readX (retires_readX (retires_writeX hrd m _ _))

theorem retires_executeImmW (imm : Insn → BitVec 32) (f : BitVec 32 → BitVec 32 → BitVec 32) :
    Retires (executeImmW imm f insn pc) m ((hart m).set (Rv64i.rd insn)
      ((f (((hart m).x (Rv64i.rs1 insn)).setWidth 32) (imm insn)).signExtend 64) (pc + 4)) := by
  rw [← operandRd_eq, ← operandRs1_eq]
  exact retires_readX (retires_writeXUnlessZero m _ _ _)

theorem retires_executeRegW (f : BitVec 32 → BitVec 32 → BitVec 32) :
    Retires (executeRegW f insn pc) m ((hart m).set (Rv64i.rd insn)
      ((f (((hart m).x (Rv64i.rs1 insn)).setWidth 32)
        (((hart m).x (Rv64i.rs2 insn)).setWidth 32)).signExtend 64) (pc + 4)) := by
  rw [← operandRd_eq, ← operandRs1_eq, ← operandRs2_eq]
  exact retires_readX (retires_readX (retires_writeXUnlessZero m _ _ _))

end Effects

/-! ## The instructions -/

theorem retires_executeInsn (m : Machine H) {insn : Insn} {op : Op} (henc : op.Encodes insn) :
    Retires (executeInsn insn m.uarch.pc) m (op.step insn (hart m)) := by
  rw [executeInsn_eq_handler insn henc]
  cases op with
  | lui =>
    rw [Op.step, ← Rv64i.immU_eq_shifts, ← operandRd_eq]
    exact retires_writeXUnlessZero m _ _ _
  | auipc =>
    rw [Op.step, ← Rv64i.immU_eq_shifts, ← operandRd_eq]
    exact retires_writeXUnlessZero m _ _ _
  | jal =>
    rw [Op.step, ← Rv64i.immJ_eq_shifts, ← operandRd_eq]
    exact retires_writeXUnlessZero m _ _ _
  | jalr =>
    rw [Op.step, ← Rv64i.immI_eq_shifts, ← operandRd_eq, ← operandRs1_eq]
    exact retires_readX (retires_writeXUnlessZero m _ _ _)
  | branch op => cases op <;> exact retires_executeBranch _
  | imm op =>
    simp only [Op.step, ← Rv64i.immI_eq_shifts]
    cases op <;> rw [handler] <;> exact (retires_executeImm operandImm12 _).congr rfl
  | shift op =>
    simp only [Op.step, ← toNat_operandShamt6_and]
    cases op <;> rw [handler] <;> exact (retires_executeImm operandShamt6 _).congr rfl
  | reg op =>
    cases op <;> simp only [Op.step, Rv64i.RegOp.eval, ← toNat_setWidth_and_3f] <;> rw [handler] <;>
      exact (retires_executeReg _).congr rfl
  | addiw =>
    rw [handler, Op.step, ← Rv64i.immI_eq_shifts]
    exact (retires_executeImmW operandImm12 _).congr rfl
  | shiftW op =>
    simp only [Op.step, ← toNat_operandShamt5_and]
    cases op <;> rw [handler] <;> exact (retires_executeImmW operandShamt5 _).congr rfl
  | regW op =>
    cases op <;> simp only [Op.step, Rv64i.RegOpW.eval, ← toNat_and_1f] <;> rw [handler] <;>
      exact (retires_executeRegW _).congr rfl

end MachineEmulator.Uarch
