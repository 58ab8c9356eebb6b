import MachineEmulator.Interpret.InsnEffects
import MachineEmulator.Uarch.Rv64i

/-!
# The integer instructions of the interpreter

The interpreter against the architecture, for the integer instructions that work on registers and the
program counter only: its jump table finds the handler of each, and the handler has the effect of
`Rv64i.Op.step`. Since the micro-interpreter has this effect too, the two agree.
-/

namespace MachineEmulator.Interpret

open Insn BitVec InsnLabel
open Rv64i (Op opcode funct3 funct6 funct7)

/-! ## Fields -/

section Fields
variable (insn : Insn)

theorem regOf_shift (shift : Nat) : regOf ((insn >>> shift) &&& 0x1f) = Fin.ofNat 32 (insn.toNat / 2 ^ shift) := by
  apply Fin.ext
  simp only [regOf, Fin.val_ofNat, toNat_and, toNat_ushiftRight, Nat.shiftRight_eq_div_pow]
  rw [show (0x1f : BitVec 32).toNat = 2 ^ 5 - 1 from rfl, Nat.and_two_pow_sub_one_eq_mod]
  omega

theorem getRd_eq : getRd insn = Rv64i.rd insn := regOf_shift insn 7

theorem getRs1_eq : getRs1 insn = Rv64i.rs1 insn := regOf_shift insn 15

theorem getRs2_eq : getRs2 insn = Rv64i.rs2 insn := regOf_shift insn 20

theorem getImmU_eq : getImmU insn = Rv64i.immU insn := by
  rw [← Rv64i.immU_eq_shifts, getImmU]
  apply eq_of_toNat_eq
  have hmask : (0xfffff000 : BitVec 32) = BitVec.ofNat 32 (2 ^ 20 - 1) <<< 12 := by decide
  rw [hmask, Bits.toNat_and_field insn (by decide), toNat_shiftLeft, toNat_ushiftRight,
    Nat.shiftRight_eq_div_pow, Nat.shiftLeft_eq]
  omega

theorem getFunct7_eq : getFunct7 insn = funct7 insn := by
  rw [getFunct7, toNat_ushiftRight, Nat.shiftRight_eq_div_pow, funct7]

theorem getFunct7Sr1_eq : getFunct7Sr1 insn = funct6 insn := by
  rw [getFunct7Sr1, toNat_ushiftRight, Nat.shiftRight_eq_div_pow, funct6]

theorem toNat_getImmI_mod (n : Nat) (hn : n ≤ 12) :
    (getImmI insn).toNat % 2 ^ n = insn.toNat / 2 ^ 20 % 2 ^ n := by
  apply Nat.eq_of_testBit_eq
  intro i
  rw [Nat.testBit_mod_two_pow, Nat.testBit_mod_two_pow, Nat.testBit_div_two_pow, ← BitVec.getLsbD,
    ← BitVec.getLsbD, getImmI, getLsbD_sshiftRight]
  by_cases hi : i < n
  · simp [hi, show i + 20 < 32 by omega, show ¬ 32 ≤ i by omega, Nat.add_comm]
  · simp [hi]

theorem toNat_getImmI_and_63 : (getImmI insn &&& 63).toNat = Rv64i.shamt insn := by
  rw [toNat_and, show (63 : BitVec 32).toNat = 2 ^ 6 - 1 from rfl, Nat.and_two_pow_sub_one_eq_mod,
    toNat_getImmI_mod insn 6 (by decide), Rv64i.shamt]

theorem shamt32_getImmI : shamt32 (getImmI insn) = Rv64i.shamt insn % 32 := by
  rw [shamt32, toNat_and, show (31 : BitVec 32).toNat = 2 ^ 5 - 1 from rfl,
    Nat.and_two_pow_sub_one_eq_mod, toNat_getImmI_mod insn 5 (by decide), Rv64i.shamt]
  omega

end Fields

/-! ## Decoding -/

/-- The handler for the destination of an instruction. -/
def rdKind (insn : Insn) : RdKind := if Rv64i.rd insn = 0 then .x0 else .xN

theorem decode_setWidth {insn : Insn} (h : opcode insn % 4 = 3) :
    InsnLabel.decode (insn.setWidth 16) = InsnLabel.decode32 (opcode insn) (funct3 insn) (rdKind insn) := by
  have hlow : InsnLabel.field (insn.setWidth 16) 0 2 = 3 := by
    rw [InsnLabel.field, toNat_setWidth, Nat.shiftRight_zero]
    rw [opcode] at h
    omega
  have hop : InsnLabel.field (insn.setWidth 16) 0 7 = opcode insn := by
    rw [InsnLabel.field, toNat_setWidth, Nat.shiftRight_zero, opcode]
    omega
  have hf3 : InsnLabel.field (insn.setWidth 16) 12 3 = funct3 insn := by
    rw [InsnLabel.field, toNat_setWidth, Nat.shiftRight_eq_div_pow, funct3]
    omega
  have hrd : InsnLabel.field (insn.setWidth 16) 7 5 = (Rv64i.rd insn).val := by
    rw [InsnLabel.field, toNat_setWidth, Nat.shiftRight_eq_div_pow, Rv64i.rd, Fin.val_ofNat]
    omega
  rw [InsnLabel.decode, hlow, hop, hf3, hrd, rdKind]
  simp

def label (k : RdKind) : Op → InsnLabel
  | .lui => .LUI k
  | .auipc => .AUIPC k
  | .jal => .JAL k
  | .jalr => .JALR k
  | .branch .beq => .BEQ
  | .branch .bne => .BNE
  | .branch .blt => .BLT
  | .branch .bge => .BGE
  | .branch .bltu => .BLTU
  | .branch .bgeu => .BGEU
  | .imm .addi => .ADDI k
  | .imm .slti => .SLTI k
  | .imm .sltiu => .SLTIU k
  | .imm .xori => .XORI k
  | .imm .ori => .ORI k
  | .imm .andi => .ANDI k
  | .shift .slli => .SLLI k
  | .shift .srli | .shift .srai => .SRLISRAI k
  | .reg .add | .reg .sub => .ADDMULSUB k
  | .reg .sll => .SLLMULH k
  | .reg .slt => .SLTMULHSU k
  | .reg .sltu => .SLTUMULHU k
  | .reg .xor => .XORDIV k
  | .reg .srl | .reg .sra => .SRLDIVUSRA k
  | .reg .or => .ORREM k
  | .reg .and => .ANDREMU k
  | .addiw => .ADDIW k
  | .shiftW .slli => .SLLIW k
  | .shiftW .srli | .shiftW .srai => .SRLIWSRAIW k
  | .regW .addw | .regW .subw => .ADDWMULWSUBW k
  | .regW .sllw => .SLLW k
  | .regW .srlw | .regW .sraw => .SRLWDIVUWSRAW k

theorem decode32_eq_label {insn : Insn} {op : Op} (henc : op.Encodes insn) (k : RdKind) :
    decode32 (opcode insn) (funct3 insn) k = label k op := by
  rw [henc.opcode]
  have hf3 := henc.funct3
  rcases op with _ | _ | _ | _ | op | op | op | op | _ | op | op <;> try cases op
  -- Three instructions have no `funct3`.
  iterate 3 rfl
  all_goals
    rw [hf3 _ rfl]
    rfl

def handler (k : RdKind) (pc : Word) (insn : Insn) : Op → IProg Outcome
  | .lui => executeLUI k pc insn
  | .auipc => executeAUIPC k pc insn
  | .jal => executeJAL k pc insn
  | .jalr => executeJALR k pc insn
  | .branch .beq => executeBEQ pc insn
  | .branch .bne => executeBNE pc insn
  | .branch .blt => executeBLT pc insn
  | .branch .bge => executeBGE pc insn
  | .branch .bltu => executeBLTU pc insn
  | .branch .bgeu => executeBGEU pc insn
  | .imm .addi => executeADDI k pc insn
  | .imm .slti => executeSLTI k pc insn
  | .imm .sltiu => executeSLTIU k pc insn
  | .imm .xori => executeXORI k pc insn
  | .imm .ori => executeORI k pc insn
  | .imm .andi => executeANDI k pc insn
  | .shift .slli => executeSLLI k pc insn
  | .shift .srli => executeSRLI k pc insn
  | .shift .srai => executeSRAI k pc insn
  | .reg .add => executeADD k pc insn
  | .reg .sub => executeSUB k pc insn
  | .reg .sll => executeSLL k pc insn
  | .reg .slt => executeSLT k pc insn
  | .reg .sltu => executeSLTU k pc insn
  | .reg .xor => executeXOR k pc insn
  | .reg .srl => executeSRL k pc insn
  | .reg .sra => executeSRA k pc insn
  | .reg .or => executeOR k pc insn
  | .reg .and => executeAND k pc insn
  | .addiw => executeADDIW k pc insn
  | .shiftW .slli => executeSLLIW k pc insn
  | .shiftW .srli => executeSRLIW k pc insn
  | .shiftW .srai => executeSRAIW k pc insn
  | .regW .addw => executeADDW k pc insn
  | .regW .subw => executeSUBW k pc insn
  | .regW .sllw => executeSLLW k pc insn
  | .regW .srlw => executeSRLW k pc insn
  | .regW .sraw => executeSRAW k pc insn

theorem executeGroup_eq {members : Nat → Option (RdKind → Word → Insn → IProg Outcome)}
    {execute : RdKind → Word → Insn → IProg Outcome} {k : RdKind} {pc : Word} {insn : Insn} {f : Nat}
    (hf : getFunct7 insn = f) (hexec : members f = some execute) :
    executeGroup members k pc insn = execute k pc insn := by
  rw [executeGroup, hf, hexec]

/-- The label of a group leads to the handler of its member. -/
theorem execute_label (fp : SoftFloat) (k : RdKind) (pc mcycle : Word) {insn : Insn} {op : Op}
    (henc : op.Encodes insn) : (label k op).execute fp pc mcycle insn = handler k pc insn op := by
  have hf6 := henc.funct6
  have hf7 := henc.funct7
  rw [← getFunct7Sr1_eq] at hf6
  rw [← getFunct7_eq] at hf7
  cases op with
  | lui | auipc | jal | jalr | addiw => rfl
  | branch op => cases op <;> rfl
  | imm op => cases op <;> rfl
  | shift op =>
    cases op with
    | slli => rfl
    | srli | srai => simp only [label, execute, executeSRLISRAI, hf6 _ rfl, handler]
  | reg op => cases op <;> rw [label, execute, handler] <;> exact executeGroup_eq (hf7 _ rfl) rfl
  | shiftW op =>
    cases op with
    | slli => rfl
    | srli | srai => simp only [label, execute, executeSRLIWSRAIW, hf7 _ rfl, handler]
  | regW op =>
    cases op with
    | sllw => rfl
    | addw | subw | srlw | sraw =>
      rw [label, execute, handler]
      exact executeGroup_eq (hf7 _ rfl) rfl

theorem executeInsn_eq_handler (fp : SoftFloat) (pc mcycle : Word) {insn : Insn} {op : Op}
    (henc : op.Encodes insn) :
    executeInsn fp pc mcycle insn = withMcycle mcycle (handler (rdKind insn) pc insn op) := by
  have hlow : opcode insn % 4 = 3 := by
    rw [henc.opcode]
    cases op <;> simp [Op.opcode, Nat.reduceMod]
  rw [executeInsn, decode_setWidth hlow, decode32_eq_label henc, ← execute_label fp _ pc mcycle henc]
  rcases op with _ | _ | _ | _ | op | op | op | op | _ | op | op <;> try cases op
  all_goals rfl

/-! ## Handlers by what they compute -/

theorem shamt64_eq (v : Word) : shamt64 v = v.toNat % 64 := by
  rw [shamt64, toNat_and]
  exact Nat.and_two_pow_sub_one_eq_mod _ 6

theorem shamt32_eq (v : BitVec 32) : shamt32 v = v.toNat % 32 := by
  rw [shamt32, toNat_and]
  exact Nat.and_two_pow_sub_one_eq_mod _ 5

section Handlers
variable {k : RdKind} {pc : Word} {insn : Insn}

theorem handler_branch (op : Rv64i.BranchOp) : handler k pc insn (.branch op) = executeBranch op.taken pc insn := by
  cases op <;> rfl

theorem handler_imm (op : Rv64i.ImmOp) : handler k pc insn (.imm op) =
    executeArithmeticImmediate (fun a imm => op.eval a (sext imm)) k pc insn := by
  cases op <;> rfl

theorem handler_shift {op : Rv64i.ShiftOp} (hf6 : ∀ f ∈ (Op.shift op).funct6, funct6 insn = f) :
    handler k pc insn (.shift op) =
      executeArithmeticImmediate (fun a imm => op.eval a (imm &&& 63).toNat) k pc insn := by
  cases op with
  | slli =>
    rw [handler, executeSLLI, getFunct7Sr1_eq, hf6 _ rfl, if_neg (by decide)]
    rfl
  | srli | srai => rfl

theorem handler_reg (op : Rv64i.RegOp) : handler k pc insn (.reg op) = executeArithmetic op.eval k pc insn := by
  have heval : ∀ f : Word → Word → Word, f = op.eval →
      executeArithmetic f k pc insn = executeArithmetic op.eval k pc insn := by
    rintro f rfl
    rfl
  cases op <;> apply heval <;> funext a b <;> simp only [Rv64i.RegOp.eval, shamt64_eq] <;> rfl

theorem handler_regW {op : Rv64i.RegOpW} (henc : (Op.regW op).Encodes insn) :
    handler k pc insn (.regW op) = executeArithmetic (word32 op.eval) k pc insn := by
  have heval : ∀ f : BitVec 32 → BitVec 32 → BitVec 32, f = op.eval →
      executeArithmetic (word32 f) k pc insn = executeArithmetic (word32 op.eval) k pc insn := by
    rintro f rfl
    rfl
  cases op with
  | sllw =>
    have hcheck : insn &&& 0xfe00707f = 0x0000103b :=
      (Uarch.upper_eq_iff insn 7 0x3b 1 0 (by decide) (by decide) (by decide) (by decide)).mpr
        ⟨henc.opcode, henc.funct3 _ rfl, henc.funct7 _ rfl⟩
    rw [handler, executeSLLW, checkEncoding, if_neg (not_not_intro hcheck)]
    apply heval
    funext a b
    rw [shamt32_eq]
    rfl
  | addw | subw => rfl
  | srlw | sraw =>
    apply heval
    funext a b
    rw [shamt32_eq]
    rfl

end Handlers

/-! ## Effects -/

/-- The registers of a machine, and a program counter, which the interpreter keeps apart. -/
def hart (m : RunState) (pc : Word) : Rv64i.Hart := ⟨fun i => m.s.regs (.x i), pc⟩

/-- The instruction succeeds and leaves the hart like this. -/
def Retires (fuel : Nat) (p : IProg Outcome) (m : RunState) (s : Rv64i.Hart) : Prop :=
  ∃ status newPc m', p.run (insnAccess fuel) m = .ok (status, newPc) m' ∧ status ≠ .failure ∧ hart m' newPc = s

section Effects
variable {fuel : Nat} {m : RunState} {s : Rv64i.Hart} {insn : Insn} {pc : Word}

theorem Retires.congr {p : IProg Outcome} {s' : Rv64i.Hart} (h : Retires fuel p m s) (hs : s = s') :
    Retires fuel p m s' :=
  hs ▸ h

theorem retires_readX {reg : Fin 32} {f : Word → IProg Outcome} (h : Retires fuel (f (m.s.regs (.x reg))) m s) :
    Retires fuel (do let val ← readX reg; f val) m s := h

theorem retires_getSoftYield {f : Bool → IProg Outcome} (h : Retires fuel (f m.s.softYield) m s) :
    Retires fuel (do let softYield ← Insn.getSoftYield; f softYield) m s := h

theorem retires_jump (newPc : Word) : Retires fuel (executeJump newPc) m (hart m newPc) :=
  ⟨.success, newPc, m, rfl, by decide, rfl⟩

theorem retires_writeX {rd : Fin 32} (hrd : rd ≠ 0) (val newPc : Word) :
    Retires fuel (do writeX rd val; executeJump newPc) m ((hart m pc).set rd val newPc) := by
  refine ⟨.success, newPc, m.writeReg (.x rd) val, rfl, by decide, ?_⟩
  simp only [Rv64i.Hart.set, hrd, if_false, hart, RunState.writeReg_regs]
  congr 1
  funext i
  by_cases hi : i = rd
  · subst hi
    simp
  · simp [hi]

/-- An instruction with a handler of its own for the destination `x0`. -/
theorem retires_rdKind {p0 p : IProg Outcome} (hzero : Rv64i.rd insn = 0 → Retires fuel p0 m s)
    (hother : Rv64i.rd insn ≠ 0 → Retires fuel p m s) :
    Retires fuel (match rdKind insn with | .x0 => p0 | .xN => p) m s := by
  by_cases hrd : Rv64i.rd insn = 0
  · simpa only [rdKind, hrd, if_true] using hzero hrd
  · simpa only [rdKind, hrd, if_false] using hother hrd

theorem set_zero (s : Rv64i.Hart) {rd : Fin 32} (hrd : rd = 0) (val newPc : Word) :
    s.set rd val newPc = ⟨s.x, newPc⟩ := by
  rw [Rv64i.Hart.set, if_pos hrd]

theorem retires_write (val newPc : Word) :
    Retires fuel (match rdKind insn with
      | .x0 => executeJump newPc
      | .xN => do writeX (getRd insn) val; executeJump newPc) m ((hart m pc).set (Rv64i.rd insn) val newPc) := by
  apply retires_rdKind
  · intro hrd
    rw [set_zero _ hrd]
    exact retires_jump _
  · intro hrd
    rw [← getRd_eq] at hrd ⊢
    exact retires_writeX hrd _ _

theorem retires_executeArithmetic (f : Word → Word → Word) :
    Retires fuel (executeArithmetic f (rdKind insn) pc insn) m ((hart m pc).set (Rv64i.rd insn)
      (f (m.s.regs (.x (Rv64i.rs1 insn))) (m.s.regs (.x (Rv64i.rs2 insn)))) (pc + 4)) := by
  apply retires_rdKind
  · intro hrd
    rw [set_zero _ hrd]
    exact retires_jump _
  · intro hrd
    rw [← getRd_eq] at hrd ⊢
    rw [← getRs1_eq, ← getRs2_eq]
    exact retires_readX (retires_readX (retires_writeX hrd _ _))

theorem retires_executeArithmeticImmediate (f : Word → BitVec 32 → Word) :
    Retires fuel (executeArithmeticImmediate f (rdKind insn) pc insn) m ((hart m pc).set (Rv64i.rd insn)
      (f (m.s.regs (.x (Rv64i.rs1 insn))) (getImmI insn)) (pc + 4)) := by
  apply retires_rdKind
  · intro hrd
    rw [set_zero _ hrd]
    exact retires_jump _
  · intro hrd
    rw [← getRd_eq] at hrd ⊢
    rw [← getRs1_eq]
    exact retires_readX (retires_writeX hrd _ _)

theorem retires_executeBranch (f : Word → Word → Bool) : Retires fuel (executeBranch f pc insn) m (hart m
      (if f (m.s.regs (.x (Rv64i.rs1 insn))) (m.s.regs (.x (Rv64i.rs2 insn)))
        then pc + (Rv64i.immB insn).signExtend 64 else pc + 4)) := by
  rw [← Rv64i.immB_eq_shifts, ← getRs1_eq, ← getRs2_eq]
  refine retires_readX (retires_readX ?_)
  cases f (m.s.regs (.x (getRs1 insn))) (m.s.regs (.x (getRs2 insn))) with
  | false => exact retires_jump _
  | true => exact retires_jump _

end Effects

/-! ## The instructions -/

section Instructions
variable {fuel : Nat} {m : RunState} {insn : Insn} {pc : Word}

theorem retires_shiftW_srai :
    Retires fuel (executeSRAIW (rdKind insn) pc insn) m ((Op.shiftW .srai).step insn (hart m pc)) := by
  apply retires_rdKind
  · intro hrd
    rw [Op.step, set_zero _ hrd]
    -- The request to yield has no effect on registers.
    split
    · apply retires_getSoftYield
      cases m.s.softYield with
      | false => exact retires_jump _
      | true => exact ⟨.successAndYield, pc + 4, m, rfl, by decide, rfl⟩
    · exact retires_jump _
  · intro hrd
    simp only [Op.step, ← shamt32_getImmI]
    have hkind : rdKind insn = .xN := if_neg hrd
    rw [← hkind]
    exact (retires_executeArithmeticImmediate _).congr rfl

theorem retires_shiftW (op : Rv64i.ShiftOp) (hf7 : ∀ f ∈ (Op.shiftW op).funct7, funct7 insn = f) :
    Retires fuel (handler (rdKind insn) pc insn (.shiftW op)) m ((Op.shiftW op).step insn (hart m pc)) := by
  cases op with
  | slli =>
    simp only [Op.step, ← shamt32_getImmI]
    rw [handler, executeSLLIW, getFunct7_eq, hf7 _ rfl, if_neg (by decide)]
    exact (retires_executeArithmeticImmediate _).congr rfl
  | srli =>
    simp only [Op.step, ← shamt32_getImmI]
    rw [handler]
    exact (retires_executeArithmeticImmediate _).congr rfl
  | srai => exact retires_shiftW_srai

theorem retires_handler {op : Op} (henc : op.Encodes insn) :
    Retires fuel (handler (rdKind insn) pc insn op) m (op.step insn (hart m pc)) := by
  cases op with
  | lui =>
    rw [Op.step, ← getImmU_eq]
    exact retires_write _ _
  | auipc =>
    rw [Op.step, ← getImmU_eq]
    exact retires_write _ _
  | jal =>
    rw [Op.step, ← Rv64i.immJ_eq_shifts]
    exact retires_write _ _
  | jalr =>
    rw [Op.step, ← Rv64i.immI_eq_shifts, ← getRs1_eq]
    exact retires_readX (retires_write _ _)
  | branch op =>
    rw [handler_branch]
    exact retires_executeBranch _
  | imm op =>
    rw [handler_imm, Op.step, ← Rv64i.immI_eq_shifts]
    exact retires_executeArithmeticImmediate _
  | shift op =>
    rw [handler_shift henc.funct6, Op.step, ← toNat_getImmI_and_63]
    exact retires_executeArithmeticImmediate _
  | reg op =>
    rw [handler_reg]
    exact retires_executeArithmetic _
  | addiw =>
    rw [handler, Op.step, ← Rv64i.immI_eq_shifts]
    exact (retires_executeArithmeticImmediate _).congr rfl
  | shiftW op => exact retires_shiftW op henc.funct7
  | regW op =>
    rw [handler_regW henc]
    exact retires_executeArithmetic _

theorem retires_executeInsn (fp : SoftFloat) (fuel : Nat) (m : RunState) (pc mcycle : Word) {op : Op}
    (henc : op.Encodes insn) :
    ∃ status newPc m', (executeInsn fp pc mcycle insn).access.exec fuel m =
        .ok ((status, newPc), mcycle) m' ∧ status ≠ .failure ∧ hart m' newPc = op.step insn (hart m pc) := by
  have hretires : Retires fuel (handler (rdKind insn) pc insn op) m (op.step insn (hart m pc)) :=
    retires_handler henc
  obtain ⟨status, newPc, m', hrun, hstatus, hstep⟩ := hretires
  refine ⟨status, newPc, m', ?_, hstatus, hstep⟩
  rw [AProg.exec, run_access, executeInsn_eq_handler fp pc mcycle henc, withMcycle, Prog.run_bind,
    EStateM.bind_of_ok hrun]
  rfl

end Instructions

/-! ## The two interpreters -/

/-- The interpreter and the micro-interpreter leave the same registers and the same program counter. -/
theorem executeInsn_agree {H : Type} (fp : SoftFloat) (fuel : Nat) {op : Op} {insn : Insn}
    (henc : op.Encodes insn) (um : Machine H) (m : RunState) (hx : ∀ i, m.s.regs (.x i) = um.uarch.x.get i)
    (mcycle : Word) :
    ∃ um' status newPc m', (Uarch.executeInsn insn um.uarch.pc).run Uarch.stateAccess um = .ok () um' ∧
      (executeInsn fp um.uarch.pc mcycle insn).access.run (stateAccess fuel) m =
        .ok ((status, newPc), mcycle) m' ∧ status ≠ .failure ∧
      (∀ i, m'.s.regs (.x i) = um'.uarch.x.get i) ∧ newPc = um'.uarch.pc := by
  obtain ⟨um', hurun, hustep, -⟩ := Uarch.retires_executeInsn um henc
  obtain ⟨status, newPc, m', hrun, hstatus, hstep⟩ := retires_executeInsn fp fuel m um.uarch.pc mcycle henc
  have hstart : hart m um.uarch.pc = Uarch.hart um := by
    rw [hart, Uarch.hart]
    congr 1
    funext i
    exact hx i
  have hend : hart m' newPc = Uarch.hart um' := by rw [hstep, hstart, hustep]
  refine ⟨um', status, newPc, m', hurun, hrun, hstatus, fun i => ?_, congrArg Rv64i.Hart.pc hend⟩
  exact congrFun (congrArg Rv64i.Hart.x hend) i

/-- Machines with the operands of `sub x3, x1, x2`. -/
def subMachine : RunState := .small [(.x 1, 5), (.x 2, 7)]

theorem subMachine_zero : subMachine.s.regs (.x 0) = 0 := rfl

def subUarch : Machine Unit where
  s := subMachine.s
  uarch := { subMachine.uarch with x := ⟨fun i => subMachine.s.regs (.x i), subMachine_zero⟩ }
  tree := .nil

theorem executeInsn_agree_sub : ∃ um' status newPc m',
      (Uarch.executeInsn 0x402081b3 subUarch.uarch.pc).run Uarch.stateAccess subUarch = .ok () um' ∧
      (executeInsn .zero subUarch.uarch.pc 0 0x402081b3).access.run (stateAccess 0) subMachine =
        .ok ((status, newPc), 0) m' ∧ status ≠ .failure ∧
      (∀ i, m'.s.regs (.x i) = um'.uarch.x.get i) ∧ newPc = um'.uarch.pc := by
  have henc : Op.Encodes (.reg .sub) 0x402081b3 := by
    refine ⟨by decide, ?_, ?_, ?_⟩ <;>
    · intro f hf
      cases hf
      try rfl
  exact executeInsn_agree .zero 0 henc subUarch subMachine (fun _ => rfl) 0

end MachineEmulator.Interpret
