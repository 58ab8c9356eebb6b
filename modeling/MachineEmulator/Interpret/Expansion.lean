import MachineEmulator.Interpret.Rv64i
import MachineEmulator.Lib.Rvc

/-!
# Compressed instructions and their expansions

A compressed instruction does what the instruction of 32 bits that it stands for does, up to its length.

* `execute` : the effect of an instruction whose length is a parameter;
* `run_encode` : for the length four, it is what the interpreter does with the word of the instruction;
* `agrees_decode` : for the length two, it is what the interpreter does with a compressed instruction that stands
  for it.
-/

namespace MachineEmulator.Interpret

open Insn Bits EStateM InsnLabel Rvc

/-! ## Instructions of a given length -/

/-- The size of an access, and how a loaded value fills a register. -/
def memSize : Width → MemSize
  | .w => .u32
  | .d => .u64

def extend : Width → Word → Word
  | .w => signed 32
  | .d => signed 64

/-- The effect of an instruction that is `len` bytes long, with `word` as its encoding. -/
def execute (len : Word) (word : Insn) (pc mcycle : Word) : Instr → IProg Outcome
  | .lui rd imm => do
    writeXUnlessZero rd ((imm ++ 0#12).signExtend 64)
    executeJump (pc + len)
  | .jal rd offset => do
    writeXUnlessZero rd (pc + len)
    executeJump (pc + (offset ++ 0#1).signExtend 64)
  | .jalr rd rs1 imm => do
    let a ← readX rs1
    writeXUnlessZero rd (pc + len)
    executeJump ((a + imm.signExtend 64) &&& ~~~1)
  | .branch op rs1 rs2 offset => do
    let a ← readX rs1
    let b ← readX rs2
    executeJump (if op.taken a b then pc + (offset ++ 0#1).signExtend 64 else pc + len)
  | .imm op rd rs1 imm => do
    let a ← readX rs1
    writeXUnlessZero rd (op.eval a (imm.signExtend 64))
    executeJump (pc + len)
  | .shift op rd rs1 shamt => do
    let a ← readX rs1
    writeXUnlessZero rd (op.eval a shamt.toNat)
    executeJump (pc + len)
  | .reg op rd rs1 rs2 => do
    let a ← readX rs1
    let b ← readX rs2
    writeXUnlessZero rd (op.eval a b)
    executeJump (pc + len)
  | .addiw rd rs1 imm => do
    let a ← readX rs1
    writeXUnlessZero rd (sext (a.setWidth 32 + imm.signExtend 32))
    executeJump (pc + len)
  | .regW op rd rs1 rs2 => do
    let a ← readX rs1
    let b ← readX rs2
    writeXUnlessZero rd (sext (op.eval (a.setWidth 32) (b.setWidth 32)))
    executeJump (pc + len)
  | .load width rd rs1 imm => do
    let vaddr ← readX rs1
    match ← load (memSize width) false pc mcycle (vaddr + imm.signExtend 64) with
    | .error newPc => pure (.failure, newPc)
    | .ok val => do
      writeXUnlessZero rd (extend width val)
      executeJump (pc + len)
  | .store width rs2 rs1 imm => do
    let vaddr ← readX rs1
    let val ← readX rs2
    let r ← store (memSize width) pc (vaddr + imm.signExtend 64) val
    pure (storeOutcome len pc r)
  | .fld rd rs1 imm => requireFs pc word do
    let vaddr ← readX rs1
    match ← load double.size false pc mcycle (vaddr + imm.signExtend 64) with
    | .error newPc => pure (.failure, newPc)
    | .ok val => do
      writeF rd (double.floatBox (val.setWidth 64))
      executeJump (pc + len)
  | .fsd rs2 rs1 imm => requireFs pc word do
    let vaddr ← readX rs1
    let val ← readF rs2
    let r ← store double.size pc (vaddr + imm.signExtend 64) val
    pure (storeOutcome len pc r)
  | .ebreak => do
    let newPc ← Insn.raiseException pc mcauseBreakpoint pc
    pure (.failure, newPc)

/-! ## Fields of compressed instructions -/

section Fields
open BitVec
variable (insn : Insn)

theorem bits_setWidth {lo n : Nat} (h : lo + n ≤ 16) :
    bits (insn.setWidth 16) lo n = insn.toNat / 2 ^ lo % 2 ^ n := by
  apply Nat.eq_of_testBit_eq
  intro i
  simp only [bits, toNat_setWidth, Nat.testBit_mod_two_pow, Nat.testBit_div_two_pow]
  by_cases hi : i < n
  · simp [hi, show i + lo < 16 by omega]
  · simp [hi]

theorem regOf_or_8 {shift : Nat} (h : shift ≤ 13) :
    regOf (((insn >>> shift) &&& 7) ||| 8) = regC (insn.setWidth 16) shift := by
  apply Fin.ext
  have hlow : ((insn >>> shift) &&& 7).toNat = insn.toNat / 2 ^ shift % 2 ^ 3 := by
    rw [toNat_and, show (7 : BitVec 32).toNat = 2 ^ 3 - 1 from rfl, Nat.and_two_pow_sub_one_eq_mod,
      toNat_ushiftRight, Nat.shiftRight_eq_div_pow]
  rw [regOf, val_regC, Fin.val_ofNat, bits_setWidth insn (by omega), BitVec.or_comm,
    toNat_or_of_lt (n := 3) (by decide) (by omega), hlow, show (8 : BitVec 32).toNat = 8 from rfl]
  omega

theorem getCIWCLRdCSCARs2_eq : getCIWCLRdCSCARs2 insn = regC (insn.setWidth 16) 2 :=
  regOf_or_8 insn (by decide)

theorem getCLCSCACBRs1_eq : getCLCSCACBRs1 insn = regC (insn.setWidth 16) 7 :=
  regOf_or_8 insn (by decide)

theorem getRd_eq_reg : getRd insn = reg (insn.setWidth 16) 7 := by
  apply Fin.ext
  rw [getRd, regOf_shift, val_reg, Fin.val_ofNat, bits_setWidth insn (by decide)]
  rfl

theorem getCRCSSRs2_eq : getCRCSSRs2 insn = reg (insn.setWidth 16) 2 := by
  apply Fin.ext
  rw [getCRCSSRs2, regOf_shift, val_reg, Fin.val_ofNat, bits_setWidth insn (by decide)]
  rfl

/-- The offsets of jumps, and the immediates of the upper bits. -/
structure UpperImmediates : Prop where
  cj : getCJImm insn = (offsetCJ (insn.setWidth 16) ++ 0#1).signExtend 32
  cb : getCBEQZBNEZImm insn = (offsetCB (insn.setWidth 16) ++ 0#1).signExtend 32
  addi16sp : getCADDI16SPImm insn = (immADDI16SP (insn.setWidth 16)).signExtend 32
  lui : getCLUIImm insn = immLUI (insn.setWidth 16) ++ 0#12

/-- The offsets of loads and stores. -/
structure MemoryImmediates : Prop where
  cl : getCLCSImm insn = (immCLD (insn.setWidth 16)).signExtend 32
  clw : getCLWCSWImm insn = (immCLW (insn.setWidth 16)).signExtend 32
  ldsp : getCFLDSPLDSPImm insn = (immLDSP (insn.setWidth 16)).signExtend 32
  lwsp : getCLWSPImm insn = (immLWSP (insn.setWidth 16)).signExtend 32
  sdsp : getCFSDSPSDSPImm insn = (immSDSP (insn.setWidth 16)).signExtend 32
  swsp : getCSWSPImm insn = (immSWSP (insn.setWidth 16)).signExtend 32

/-- The immediates that the handlers take from an instruction are those of its format. -/
structure Immediates : Prop extends UpperImmediates insn, MemoryImmediates insn where
  ci : getCICBImm insn = (shamt (insn.setWidth 16)).setWidth 32
  ciSe : getCICBImmSe insn = (immCI (insn.setWidth 16)).signExtend 32
  ciw : getCIWImm insn = (immADDI4SPN (insn.setWidth 16)).setWidth 32

-- bit by bit
theorem upperImmediates : UpperImmediates insn := by
  constructor
  all_goals
    apply eq_of_getLsbD_eq
    intro i hi
    simp only [getCJImm, offsetCJ, getCBEQZBNEZImm, offsetCB, getCADDI16SPImm, immADDI16SP, getCLUIImm, immLUI,
      getLsbD_or, getLsbD_and, getLsbD_not, getLsbD_shiftLeft, getLsbD_sshiftRight, getLsbD_ushiftRight, getLsbD_append,
      getLsbD_extractLsb', getLsbD_signExtend, getLsbD_setWidth, msb_eq_getLsbD_last]
    interval_cases i <;> simp

theorem memoryImmediates : MemoryImmediates insn := by
  constructor
  all_goals
    apply eq_of_getLsbD_eq
    intro i hi
    simp only [getCLCSImm, immCLD, getCLWCSWImm, immCLW, getCFLDSPLDSPImm, immLDSP, getCLWSPImm, immLWSP,
      getCFSDSPSDSPImm, immSDSP, getCSWSPImm, immSWSP, getLsbD_or, getLsbD_and, getLsbD_shiftLeft,
      getLsbD_ushiftRight, getLsbD_append, getLsbD_extractLsb', getLsbD_signExtend, getLsbD_setWidth,
      msb_eq_getLsbD_last]
    interval_cases i <;> simp

theorem immediates : Immediates insn := by
  refine ⟨upperImmediates insn, memoryImmediates insn, ?_, ?_, ?_⟩
  all_goals
    apply eq_of_getLsbD_eq
    intro i hi
    simp only [getCICBImm, shamt, getCICBImmSe, immCI, getCIWImm, immADDI4SPN, getLsbD_or, getLsbD_and, getLsbD_not,
      getLsbD_shiftLeft, getLsbD_sshiftRight, getLsbD_ushiftRight, getLsbD_append, getLsbD_extractLsb',
      getLsbD_signExtend, getLsbD_setWidth, msb_eq_getLsbD_last]
    interval_cases i <;> simp

end Fields

/-! ## The expansion -/

section Expansion
variable {fuel : Nat} {m : RunState} {insn : Insn} {pc mcycle : Word}

theorem sext_signExtend {n : Nat} (x : BitVec n) (hn : 0 < n) (h : n ≤ 32) :
    sext (x.signExtend 32) = x.signExtend 64 :=
  signExtend_signExtend x 64 hn h

/-- A write of the destination by the handler for its kind. -/
theorem write_rdKind (val newPc : Word) :
    (match rdKind insn with
      | .x0 => executeJump newPc
      | .xN => do writeX (getRd insn) val; executeJump newPc) =
    (do writeXUnlessZero (Rv64i.rd insn) val; executeJump newPc) := by
  by_cases hrd : Rv64i.rd insn = 0
  · simp only [rdKind, writeXUnlessZero, hrd, if_true]
    rfl
  · simp only [rdKind, writeXUnlessZero, hrd, if_false, getRd_eq]

theorem run_executeArithmetic (f : Word → Word → Word) :
    (executeArithmetic f (rdKind insn) pc insn).exec fuel m = (do
      let a ← readX (Rv64i.rs1 insn)
      let b ← readX (Rv64i.rs2 insn)
      writeXUnlessZero (Rv64i.rd insn) (f a b)
      executeJump (pc + 4) : IProg Outcome).exec fuel m := by
  by_cases hrd : Rv64i.rd insn = 0
  · simp only [executeArithmetic, rdKind, writeXUnlessZero, hrd, if_true]
    rfl
  · simp only [executeArithmetic, rdKind, writeXUnlessZero, hrd, if_false, getRd_eq, getRs1_eq, getRs2_eq]
    rfl

theorem run_executeArithmeticImmediate (f : Word → BitVec 32 → Word) :
    (executeArithmeticImmediate f (rdKind insn) pc insn).exec fuel m = (do
      let a ← readX (Rv64i.rs1 insn)
      writeXUnlessZero (Rv64i.rd insn) (f a (getImmI insn))
      executeJump (pc + 4) : IProg Outcome).exec fuel m := by
  by_cases hrd : Rv64i.rd insn = 0
  · simp only [executeArithmeticImmediate, rdKind, writeXUnlessZero, hrd, if_true]
    rfl
  · simp only [executeArithmeticImmediate, rdKind, writeXUnlessZero, hrd, if_false, getRd_eq, getRs1_eq]
    rfl

theorem executeL_eq (size : MemSize) (extend : Word → Word) :
    executeL size extend (rdKind insn) pc mcycle insn = (do
      let vaddr ← readX (Rv64i.rs1 insn)
      match ← load size false pc mcycle (vaddr + sext (getImmI insn)) with
      | .error newPc => pure (.failure, newPc)
      | .ok val => do
        writeXUnlessZero (Rv64i.rd insn) (extend val)
        executeJump (pc + 4)) := by
  by_cases hrd : Rv64i.rd insn = 0
  · simp only [executeL, rdKind, writeXUnlessZero, hrd, if_true, getRs1_eq]
    rfl
  · simp only [executeL, rdKind, writeXUnlessZero, hrd, if_false, getRd_eq, getRs1_eq]
    rfl

theorem executeJALR_eq : executeJALR (rdKind insn) pc insn = (do
    let a ← readX (Rv64i.rs1 insn)
    writeXUnlessZero (Rv64i.rd insn) (pc + 4)
    executeJump ((a + sext (getImmI insn)) &&& ~~~1)) := by
  by_cases hrd : Rv64i.rd insn = 0
  · simp only [executeJALR, rdKind, writeXUnlessZero, hrd, if_true, getRs1_eq]
    rfl
  · simp only [executeJALR, rdKind, writeXUnlessZero, hrd, if_false, getRd_eq, getRs1_eq]

theorem executeBranch_eq (f : Word → Word → Bool) : executeBranch f pc insn = (do
    let a ← readX (Rv64i.rs1 insn)
    let b ← readX (Rv64i.rs2 insn)
    executeJump (if f a b then pc + sext (getImmB insn) else pc + 4)) := by
  rw [executeBranch, getRs1_eq, getRs2_eq]
  congr 1
  funext a
  congr 1
  funext b
  cases f a b <;> rfl

theorem getImmS_eq (insn : Insn) : getImmS insn = Rv64i.immS insn := by
  apply BitVec.eq_of_getLsbD_eq
  intro i hi
  simp only [getImmS, Rv64i.immS, BitVec.getLsbD_or, BitVec.getLsbD_and, BitVec.getLsbD_sshiftRight,
    BitVec.getLsbD_ushiftRight, BitVec.getLsbD_append, BitVec.getLsbD_extractLsb', BitVec.getLsbD_signExtend,
    BitVec.msb_eq_getLsbD_last]
  interval_cases i <;> simp

/-! ### Words of 32 bits -/

theorem run_withMcycle {p q : IProg Outcome} (h : p.run (insnAccess fuel) m = q.run (insnAccess fuel) m) :
    (withMcycle mcycle p).run (insnAccess fuel) m = (withMcycle mcycle q).run (insnAccess fuel) m := by
  rw [withMcycle, withMcycle, Prog.run_bind, Prog.run_bind]
  exact bind_congr_left h

theorem run_executeInsn {op : Rv64i.Op} {p : IProg Outcome} (fp : SoftFloat) (henc : op.Encodes insn)
    (h : (handler (rdKind insn) pc insn op).exec fuel m = p.exec fuel m) :
    (executeInsn fp pc mcycle insn).exec fuel m =
      (withMcycle mcycle p).exec fuel m := by
  rw [executeInsn_eq_handler fp pc mcycle henc]
  exact run_withMcycle h

theorem executeInsn_eq_decode (fp : SoftFloat) (hpriv : decode (insn.setWidth 16) ≠ .PRIVILEGED) :
    executeInsn fp pc mcycle insn =
      withMcycle mcycle ((decode (insn.setWidth 16)).execute fp pc mcycle insn) := by
  rw [executeInsn]
  split
  · exact absurd ‹_› hpriv
  · rfl

theorem executeInsn_eq_label (fp : SoftFloat) {f3 op : Nat} (label : InsnLabel)
    (hop : Rv64i.opcode insn = op) (hlow : op % 4 = 3) (hf3 : Rv64i.funct3 insn = f3)
    (hlabel : decode32 op f3 (rdKind insn) = label) (hpriv : label ≠ .PRIVILEGED) :
    executeInsn fp pc mcycle insn = withMcycle mcycle (label.execute fp pc mcycle insn) := by
  subst hop hf3 hlabel
  rw [← decode_setWidth hlow] at hpriv ⊢
  exact executeInsn_eq_decode fp hpriv

theorem execute_lui (rd : Fin 32) (u : BitVec 20) :
    executeLUI (rdKind (Instr.lui rd u).encode) pc (Instr.lui rd u).encode =
      execute 4 (Instr.lui rd u).encode pc mcycle (.lui rd u) := by
  have h : executeLUI (rdKind (Instr.lui rd u).encode) pc (Instr.lui rd u).encode = _ := write_rdKind _ _
  rw [h, getImmU_eq, Instr.encode, rd_formatU, immU_formatU]
  rfl

theorem execute_jal (rd : Fin 32) (offset : BitVec 20) :
    executeJAL (rdKind (Instr.jal rd offset).encode) pc (Instr.jal rd offset).encode =
      execute 4 (Instr.jal rd offset).encode pc mcycle (.jal rd offset) := by
  have h : executeJAL (rdKind (Instr.jal rd offset).encode) pc (Instr.jal rd offset).encode = _ := write_rdKind _ _
  rw [h, getImmJ, Rv64i.immJ_eq_shifts, Instr.encode, immJ_formatJ, sext_signExtend _ (by decide) (by decide),
    formatJ_eq, rd_formatU]
  rfl

theorem run_encode (fp : SoftFloat) (i : Instr) : (executeInsn fp pc mcycle i.encode).exec fuel m =
      (withMcycle mcycle (execute 4 i.encode pc mcycle i)).exec fuel m := by
  cases i with
  | lui rd u => exact run_executeInsn fp (encodes_lui rd u) (by rw [handler, execute_lui])
  | jal rd offset => exact run_executeInsn fp (encodes_jal rd offset) (by rw [handler, execute_jal])
  | jalr rd rs1 i =>
    have hf : Fields (Instr.jalr rd rs1 i).encode _ _ _ _ _ := fields_formatI i
    refine run_executeInsn fp (encodes_jalr rd rs1 i) ?_
    rw [handler, executeJALR_eq, hf.rs1, hf.rd_eq, getImmI, Rv64i.immI_eq_shifts, Instr.encode, immI_formatI,
      sext_signExtend i (by decide) (by decide)]
    rfl
  | branch op rs1 rs2 offset =>
    have hf : Fields (Instr.branch op rs1 rs2 offset).encode _ _ _ _ _ := fields_formatB offset
    have hrs2 : Rv64i.rs2 (Instr.branch op rs1 rs2 offset).encode = rs2 := hf.rs2_eq (by omega)
    refine run_executeInsn fp (encodes_branch rs1 rs2 offset op) ?_
    rw [handler_branch, executeBranch_eq, hf.rs1, hrs2, getImmB, Rv64i.immB_eq_shifts, Instr.encode,
      immB_formatB, sext_signExtend _ (by decide) (by decide)]
    rfl
  | imm op rd rs1 i =>
    have hf : Fields (Instr.imm op rd rs1 i).encode _ _ _ _ _ := fields_formatI i
    refine run_executeInsn fp (encodes_imm rd rs1 i op) ?_
    rw [handler_imm, run_executeArithmeticImmediate, hf.rs1, hf.rd_eq, getImmI, Rv64i.immI_eq_shifts, Instr.encode,
      immI_formatI]
    simp only [sext_signExtend i (by decide) (by decide)]
    rfl
  | shift op rd rs1 shamt =>
    have hf : Fields (Instr.shift op rd rs1 shamt).encode _ _ _ _ _ := fields_formatI _
    have henc := encodes_shift rd rs1 op shamt
    refine run_executeInsn fp henc ?_
    rw [handler_shift henc.funct6, run_executeArithmeticImmediate, hf.rs1, hf.rd_eq]
    simp only [toNat_getImmI_and_63, shamt_encode]
    rfl
  | reg op rd rs1 rs2 =>
    have hf : Fields (Instr.reg op rd rs1 rs2).encode _ _ _ _ _ := fields_formatR
    have hrs2 : Rv64i.rs2 (Instr.reg op rd rs1 rs2).encode = rs2 := hf.rs2_eq (by omega)
    refine run_executeInsn fp (encodes_reg rd rs1 rs2 op) ?_
    rw [handler_reg, run_executeArithmetic, hf.rs1, hf.rd_eq, hrs2]
    rfl
  | addiw rd rs1 i =>
    have hf : Fields (Instr.addiw rd rs1 i).encode _ _ _ _ _ := fields_formatI i
    refine run_executeInsn fp (encodes_addiw rd rs1 i) ?_
    rw [handler, executeADDIW, run_executeArithmeticImmediate, hf.rs1, hf.rd_eq, getImmI, Rv64i.immI_eq_shifts,
      Instr.encode, immI_formatI]
    rfl
  | regW op rd rs1 rs2 =>
    have hf : Fields (Instr.regW op rd rs1 rs2).encode _ _ _ _ _ := fields_formatR
    have hrs2 : Rv64i.rs2 (Instr.regW op rd rs1 rs2).encode = rs2 := hf.rs2_eq (by omega)
    have henc := encodes_regW rd rs1 rs2 op
    refine run_executeInsn fp henc ?_
    rw [handler_regW henc, run_executeArithmetic, hf.rs1, hf.rd_eq, hrs2]
    rfl
  | load width rd rs1 i =>
    have hf : Fields (Instr.load width rd rs1 i).encode _ _ _ _ _ := fields_formatI i
    have hexec : executeL (memSize width) (extend width) (rdKind (Instr.load width rd rs1 i).encode) pc mcycle
        (Instr.load width rd rs1 i).encode = execute 4 (Instr.load width rd rs1 i).encode pc mcycle
          (.load width rd rs1 i) := by
      rw [executeL_eq, hf.rs1, hf.rd_eq, getImmI, Rv64i.immI_eq_shifts, Instr.encode, immI_formatI,
        sext_signExtend i (by decide) (by decide)]
      rfl
    rw [← hexec]
    cases width with
    | w => rw [executeInsn_eq_label fp (.LW _) hf.opcode rfl hf.funct3 rfl (by simp)]; rfl
    | d => rw [executeInsn_eq_label fp (.LD _) hf.opcode rfl hf.funct3 rfl (by simp)]; rfl
  | store width rs2 rs1 i =>
    have hf : Fields (Instr.store width rs2 rs1 i).encode _ _ _ _ _ := fields_formatS i
    have hrs2 : Rv64i.rs2 (Instr.store width rs2 rs1 i).encode = rs2 := hf.rs2_eq (by omega)
    have hexec : executeS (memSize width) pc (Instr.store width rs2 rs1 i).encode =
        execute 4 (Instr.store width rs2 rs1 i).encode pc mcycle (.store width rs2 rs1 i) := by
      rw [executeS, getRs1_eq, getRs2_eq, hf.rs1, hrs2, getImmS_eq, Instr.encode, immS_formatS,
        sext_signExtend i (by decide) (by decide)]
      rfl
    rw [← hexec]
    cases width with
    | w => rw [executeInsn_eq_label fp .SW hf.opcode rfl hf.funct3 rfl (by simp)]; rfl
    | d => rw [executeInsn_eq_label fp .SD hf.opcode rfl hf.funct3 rfl (by simp)]; rfl
  | fld rd rs1 i =>
    have hf : Fields (Instr.fld rd rs1 i).encode _ _ _ _ _ := fields_formatI i
    rw [executeInsn_eq_label fp .FLD hf.opcode rfl hf.funct3 rfl (by simp)]
    refine run_withMcycle ?_
    rw [InsnLabel.execute, executeFLD, executeFL, getRs1_eq, getRd_eq, hf.rs1, hf.rd_eq, getImmI,
      Rv64i.immI_eq_shifts, Instr.encode, immI_formatI, sext_signExtend i (by decide) (by decide)]
    rfl
  | fsd rs2 rs1 i =>
    have hf : Fields (Instr.fsd rs2 rs1 i).encode _ _ _ _ _ := fields_formatS i
    have hrs2 : Rv64i.rs2 (Instr.fsd rs2 rs1 i).encode = rs2 := hf.rs2_eq (by omega)
    rw [executeInsn_eq_label fp .FSD hf.opcode rfl hf.funct3 rfl (by simp)]
    refine run_withMcycle ?_
    rw [InsnLabel.execute, executeFSD, executeFS, getRs1_eq, getRs2_eq, hf.rs1, hrs2, getImmS_eq, Instr.encode,
      immS_formatS, sext_signExtend i (by decide) (by decide)]
    rfl
  | ebreak => rfl

/-! ### Words of 16 bits -/

variable {fp : SoftFloat} {label : InsnLabel} {rd rs2 rs1 : Fin 32} {i : Instr}

theorem writeXUnlessZero_eq (hrd : rd ≠ 0) (val : Word) : writeXUnlessZero rd val = writeX rd val :=
  if_neg hrd

variable (c : BitVec 16)

theorem regC_ne_zero (lo : Nat) : regC c lo ≠ 0 := by
  intro h
  have hval := congrArg Fin.val h
  rw [val_regC, Fin.val_zero] at hval
  omega

theorem run_readX (reg : Fin 32) (f : Word → IProg Outcome) :
    (do let a ← readX reg; f a : IProg Outcome).exec fuel m =
      (f (m.s.regs (.x reg))).exec fuel m := rfl

theorem run_write_same {val newPc : Word} (h : rd = 0 ∨ val = m.s.regs (.x rd)) :
    (do writeXUnlessZero rd val; executeJump newPc : IProg Outcome).exec fuel m =
      (executeJump newPc).exec fuel m := by
  by_cases hrd : rd = 0
  · rw [writeXUnlessZero, if_pos hrd]
    rfl
  · obtain rfl := h.resolve_left hrd
    have hself : m.writeReg (.x rd) (m.s.regs (.x rd)) = m := by
      rw [RunState.writeReg, MachineState.writeReg, Function.update_eq_self]
      rfl
    rw [writeXUnlessZero_eq hrd]
    show Result.ok _ (m.writeReg (.x rd) (m.s.regs (.x rd))) = _
    rw [hself]
    rfl

theorem executeCImmediate_eq (hrd : rd ≠ 0) (f : Word → Word) :
    executeCImmediate rd f pc = (do
      let a ← readX rd
      writeXUnlessZero rd (f a)
      executeJump (pc + 2)) := by
  simp only [writeXUnlessZero_eq hrd]
  rfl

theorem executeCArithmetic_eq (hrd : rd ≠ 0) (f : Word → Word → Word) :
    executeCArithmetic rd rs2 f pc = (do
      let a ← readX rd
      let b ← readX rs2
      writeXUnlessZero rd (f a b)
      executeJump (pc + 2)) := by
  simp only [writeXUnlessZero_eq hrd]
  rfl

theorem executeCL_eq (hrd : rd ≠ 0) (width : Width) (i : BitVec 12) (word : Insn) :
    executeCL (memSize width) (extend width) pc mcycle rd rs1 (i.signExtend 32) =
      execute 2 word pc mcycle (.load width rd rs1 i) := by
  rw [executeCL, execute, sext_signExtend i (by decide) (by decide)]
  simp only [writeXUnlessZero_eq hrd]
  rfl

theorem executeCS_eq (width : Width) (i : BitVec 12) (word : Insn) :
    executeCS (memSize width) pc rs2 rs1 (i.signExtend 32) =
      execute 2 word pc mcycle (.store width rs2 rs1 i) := by
  rw [executeCS, execute, sext_signExtend i (by decide) (by decide)]

theorem executeCFL_eq (i : BitVec 12) (word : Insn) :
    requireFs pc word (executeCFL double pc mcycle rd rs1 (i.signExtend 32)) =
      execute 2 word pc mcycle (.fld rd rs1 i) := by
  rw [executeCFL, execute, sext_signExtend i (by decide) (by decide)]
  rfl

theorem executeCFS_eq (i : BitVec 12) (word : Insn) :
    requireFs pc word (executeCFS double pc rs2 rs1 (i.signExtend 32)) =
      execute 2 word pc mcycle (.fsd rs2 rs1 i) := by
  rw [executeCFS, execute, sext_signExtend i (by decide) (by decide)]

/-! Immediates that are not zero. -/

theorem field_eq (lo n : Nat) : InsnLabel.field c lo n = bits c lo n := by
  rw [InsnLabel.field, Nat.shiftRight_eq_div_pow, bits]

theorem immNonzero_iff :
    ¬ InsnLabel.immNonzero c ↔ c.extractLsb' 12 1 = 0 ∧ c.extractLsb' 2 5 = 0 := by
  simp only [← BitVec.toNat_inj, BitVec.extractLsb'_toNat, Nat.shiftRight_eq_div_pow, InsnLabel.immNonzero, field_eq,
    bits, Bool.or_eq_true, bne_iff_ne, not_or, not_not]
  rfl

theorem shamt_eq_zero_iff : shamt c = 0 ↔ ¬ immNonzero c := by
  rw [immNonzero_iff, ← append_eq_zero_iff]
  rfl

theorem immLUI_eq_zero_iff : immLUI c = 0 ↔ ¬ immNonzero c := by
  rw [← shamt_eq_zero_iff]
  exact signExtend_eq_zero_iff (by decide)

theorem immADDI16SP_eq_zero_iff : immADDI16SP c = 0 ↔ ¬ immNonzero c := by
  have h₅ : c.extractLsb' 2 5 = 0 ↔ c.extractLsb' 6 1 = 0 ∧ c.extractLsb' 2 4 = 0 :=
    extractLsb_eq_zero_iff c 2 1 4
  have h₄ : c.extractLsb' 2 4 = 0 ↔ c.extractLsb' 5 1 = 0 ∧ c.extractLsb' 2 3 = 0 :=
    extractLsb_eq_zero_iff c 2 1 3
  have h₃ : c.extractLsb' 2 3 = 0 ↔ c.extractLsb' 3 2 = 0 ∧ c.extractLsb' 2 1 = 0 :=
    extractLsb_eq_zero_iff c 2 2 1
  rw [immNonzero_iff, h₅, h₄, h₃, immADDI16SP, signExtend_eq_zero_iff (by decide)]
  simp only [append_eq_zero_iff]
  constructor
  · rintro ⟨⟨⟨⟨⟨h9, h8⟩, h6⟩, h5⟩, h4⟩, -⟩
    exact ⟨h9, h4, h6, h8, h5⟩
  · rintro ⟨h9, h4, h6, h8, h5⟩
    exact ⟨⟨⟨⟨⟨h9, h8⟩, h6⟩, h5⟩, h4⟩, rfl⟩

theorem immADDI4SPN_eq_zero_iff : immADDI4SPN c = 0 ↔ bits c 5 8 = 0 := by
  have hbits : bits c 5 8 = 0 ↔ c.extractLsb' 5 8 = 0 := by
    rw [← BitVec.toNat_inj, BitVec.extractLsb'_toNat, Nat.shiftRight_eq_div_pow]
    rfl
  have h₈ : c.extractLsb' 5 8 = 0 ↔ c.extractLsb' 11 2 = 0 ∧ c.extractLsb' 5 6 = 0 :=
    extractLsb_eq_zero_iff c 5 2 6
  have h₆ : c.extractLsb' 5 6 = 0 ↔ c.extractLsb' 7 4 = 0 ∧ c.extractLsb' 5 2 = 0 :=
    extractLsb_eq_zero_iff c 5 4 2
  have h₂ : c.extractLsb' 5 2 = 0 ↔ c.extractLsb' 6 1 = 0 ∧ c.extractLsb' 5 1 = 0 :=
    extractLsb_eq_zero_iff c 5 1 1
  rw [hbits, h₈, h₆, h₂, immADDI4SPN, setWidth_eq_zero_iff (by decide)]
  simp only [append_eq_zero_iff]
  constructor
  · rintro ⟨⟨⟨⟨h6, h4⟩, h3⟩, h2⟩, -⟩
    exact ⟨h4, h6, h2, h3⟩
  · rintro ⟨h4, h6, h2, h3⟩
    exact ⟨⟨⟨⟨h6, h4⟩, h3⟩, h2⟩, rfl⟩

/-! ### Labels and expansions -/

/-- What the jump table finds does what the word stands for. -/
def Agrees (fuel : Nat) (m : RunState) (fp : SoftFloat) (pc mcycle : Word) (insn : Insn) (label : InsnLabel) :
    Option Instr → Prop
  | none => label = .ILLEGAL
  | some i => label ≠ .ILLEGAL ∧ label ≠ .PRIVILEGED ∧ (label.execute fp pc mcycle insn).exec fuel m =
      (execute 2 insn pc mcycle i).exec fuel m

theorem bits_cases (lo : Nat) : bits c lo 3 = 0 ∨ bits c lo 3 = 1 ∨ bits c lo 3 = 2 ∨
    bits c lo 3 = 3 ∨ bits c lo 3 = 4 ∨ bits c lo 3 = 5 ∨ bits c lo 3 = 6 ∨ bits c lo 3 = 7 := by
  have hlt : bits c lo 3 < 2 ^ 3 := Nat.mod_lt _ (by decide)
  omega

theorem Agrees.of_eq
    (h : label.execute fp pc mcycle insn = execute 2 insn pc mcycle i)
    (hlabel : label ≠ .ILLEGAL ∧ label ≠ .PRIVILEGED) :
    Agrees fuel m fp pc mcycle insn label (some i) :=
  ⟨hlabel.1, hlabel.2, by rw [h]⟩

theorem setWidth_immADDI4SPN :
    ((immADDI4SPN c).setWidth 32).setWidth 64 = (immADDI4SPN c).signExtend 64 := by
  have hmsb : (immADDI4SPN c).msb = false := by simp [immADDI4SPN, BitVec.msb_eq_getLsbD_last]
  apply BitVec.eq_of_toNat_eq
  rw [BitVec.signExtend_eq_setWidth_of_msb_false hmsb, BitVec.toNat_setWidth, BitVec.toNat_setWidth,
    BitVec.toNat_setWidth]
  omega

theorem agrees_decodeC0 (fp : SoftFloat) : Agrees fuel m fp pc mcycle insn (InsnLabel.decodeC0 (insn.setWidth 16))
    (expand0 (insn.setWidth 16)) := by
  obtain h | h | h | h | h | h | h | h := bits_cases (insn.setWidth 16) 13 <;>
    simp only [InsnLabel.decodeC0, expand0, field_eq, h]
  · simp only [immADDI4SPN_eq_zero_iff, ne_eq, ite_not]
    split_ifs with himm
    · rfl
    · refine .of_eq ?_ (by decide)
      rw [InsnLabel.execute, executeCADDI4SPN, getCIWCLRdCSCARs2_eq, (immediates _).ciw, setWidth_immADDI4SPN, execute]
      simp only [writeXUnlessZero_eq (regC_ne_zero _ _)]
      rfl
  · refine .of_eq ?_ (by decide)
    rw [InsnLabel.execute, executeCFLD, getCIWCLRdCSCARs2_eq, getCLCSCACBRs1_eq, (immediates _).cl, executeCFL_eq]
  · refine .of_eq ?_ (by decide)
    rw [InsnLabel.execute, executeCLW, getCIWCLRdCSCARs2_eq, getCLCSCACBRs1_eq, (immediates _).clw]
    exact executeCL_eq (regC_ne_zero _ _) .w _ insn
  · refine .of_eq ?_ (by decide)
    rw [InsnLabel.execute, executeCLD, getCIWCLRdCSCARs2_eq, getCLCSCACBRs1_eq, (immediates _).cl]
    exact executeCL_eq (regC_ne_zero _ _) .d _ insn
  · rfl
  · refine .of_eq ?_ (by decide)
    rw [InsnLabel.execute, executeCFSD, getCIWCLRdCSCARs2_eq, getCLCSCACBRs1_eq, (immediates _).cl, executeCFS_eq]
  · refine .of_eq ?_ (by decide)
    rw [InsnLabel.execute, executeCSW, getCIWCLRdCSCARs2_eq, getCLCSCACBRs1_eq, (immediates _).clw]
    exact executeCS_eq .w _ insn
  · refine .of_eq ?_ (by decide)
    rw [InsnLabel.execute, executeCSD, getCIWCLRdCSCARs2_eq, getCLCSCACBRs1_eq, (immediates _).cl]
    exact executeCS_eq .d _ insn

theorem Agrees.hint (hlabel : label = .CHINT ∨ label = .CNOP)
    (h : (execute 2 insn pc mcycle i).exec fuel m = (executeJump (pc + 2)).exec fuel m) :
    Agrees fuel m fp pc mcycle insn label (some i) := by
  obtain rfl | rfl := hlabel
  · exact ⟨by decide, by decide, h.symm⟩
  · exact ⟨by decide, by decide, h.symm⟩

theorem shamt_toNat (insn : Insn) : (getCICBImm insn).toNat = (shamt (insn.setWidth 16)).toNat := by
  rw [(immediates _).ci, BitVec.toNat_setWidth_of_le (by decide)]

theorem run_shift_zero (op : Rv64i.ShiftOp) (rd : Fin 32) :
    (execute 2 insn pc mcycle (.shift op rd rd 0)).exec fuel m =
      (executeJump (pc + 2)).exec fuel m := by
  rw [execute, run_readX]
  apply run_write_same
  right
  cases op <;> simp [Rv64i.ShiftOp.eval]

theorem executeCA_eq (f : Word → Word → Word) : executeCA f pc insn = (do
    let a ← readX (regC (insn.setWidth 16) 7)
    let b ← readX (regC (insn.setWidth 16) 2)
    writeXUnlessZero (regC (insn.setWidth 16) 7) (f a b)
    executeJump (pc + 2)) := by
  rw [executeCA, getCLCSCACBRs1_eq, getCIWCLRdCSCARs2_eq, executeCArithmetic_eq (regC_ne_zero _ _)]

/-- Arithmetic on two of the registers that three bits name. -/
theorem agrees_executeCA {f : Word → Word → Word}
    (hlabel : label.execute fp pc mcycle insn = executeCA f pc insn) (hlegal : label ≠ .ILLEGAL ∧ label ≠ .PRIVILEGED)
    (hi : execute 2 insn pc mcycle i = (do
      let a ← readX (regC (insn.setWidth 16) 7)
      let b ← readX (regC (insn.setWidth 16) 2)
      writeXUnlessZero (regC (insn.setWidth 16) 7) (f a b)
      executeJump (pc + 2))) : Agrees fuel m fp pc mcycle insn label (some i) :=
  .of_eq (by rw [hlabel, executeCA_eq, hi]) hlegal

theorem agrees_decodeC1Arithmetic (fp : SoftFloat) :
    Agrees fuel m fp pc mcycle insn (InsnLabel.decodeC1Arithmetic (insn.setWidth 16))
      (expandCA (insn.setWidth 16)) := by
  have hlt : bits (insn.setWidth 16) 10 2 < 2 ^ 2 := Nat.mod_lt _ (by decide)
  have hrd := regC_ne_zero (insn.setWidth 16) 7
  obtain h | h | h | h : bits (insn.setWidth 16) 10 2 = 0 ∨ bits (insn.setWidth 16) 10 2 = 1 ∨
    bits (insn.setWidth 16) 10 2 = 2 ∨ bits (insn.setWidth 16) 10 2 = 3 := by omega
  all_goals simp only [InsnLabel.decodeC1Arithmetic, expandCA, field_eq, h]
  · split_ifs with himm
    · refine .of_eq ?_ (by decide)
      rw [InsnLabel.execute, executeCSRLI, getCLCSCACBRs1_eq, executeCImmediate_eq hrd, shamt_toNat]
      rfl
    · rw [(shamt_eq_zero_iff _).mpr himm]
      exact .hint (.inl rfl) (run_shift_zero _ _)
  · split_ifs with himm
    · refine .of_eq ?_ (by decide)
      rw [InsnLabel.execute, executeCSRAI, getCLCSCACBRs1_eq, executeCImmediate_eq hrd, shamt_toNat]
      rfl
    · rw [(shamt_eq_zero_iff _).mpr himm]
      exact .hint (.inl rfl) (run_shift_zero _ _)
  · refine .of_eq ?_ (by decide)
    rw [InsnLabel.execute, executeCANDI, getCLCSCACBRs1_eq, (immediates _).ciSe, executeCImmediate_eq hrd,
      sext_signExtend _ (by decide) (by decide)]
    rfl
  · have h1 : bits (insn.setWidth 16) 12 1 < 2 ^ 1 := Nat.mod_lt _ (by decide)
    have h₂ : bits (insn.setWidth 16) 5 2 < 2 ^ 2 := Nat.mod_lt _ (by decide)
    generalize bits (insn.setWidth 16) 12 1 = w at *
    generalize bits (insn.setWidth 16) 5 2 = f at *
    interval_cases w <;> interval_cases f
    case «1».«2» | «1».«3» => rfl
    all_goals exact agrees_executeCA rfl (by decide) rfl

theorem bits_eq_iff (lo : Nat) (r : Fin 32) : bits c lo 5 = r.val ↔ reg c lo = r := by
  rw [← Fin.val_inj, val_reg]

theorem immCI_eq_zero {c : BitVec 16} (h : ¬ immNonzero c) : immCI c = 0 :=
  (signExtend_eq_zero_iff (by decide)).mpr ((shamt_eq_zero_iff c).mpr h)

theorem run_addi_same {i : BitVec 12} (h : rd = 0 ∨ rd = rs1 ∧ i = 0) :
    (execute 2 insn pc mcycle (.imm .addi rd rs1 i)).exec fuel m =
      (executeJump (pc + 2)).exec fuel m := by
  rw [execute, run_readX]
  apply run_write_same
  refine h.imp_right ?_
  rintro ⟨rfl, rfl⟩
  simp [Rv64i.ImmOp.eval]

theorem run_executeCBranch (hx0 : m.s.regs (.x 0) = 0) (op : Rv64i.BranchOp) :
    (executeCBranch (fun a => op.taken a 0) pc insn).exec fuel m =
      (execute 2 insn pc mcycle (.branch op (regC (insn.setWidth 16) 7) 0
        (offsetCB (insn.setWidth 16)))).exec fuel m := by
  rw [executeCBranch, getCLCSCACBRs1_eq, (immediates _).cb, sext_signExtend _ (by decide) (by decide), execute,
    run_readX, run_readX, run_readX, hx0]
  cases op.taken (m.s.regs (.x (regC (insn.setWidth 16) 7))) 0 <;> rfl

theorem agrees_decodeC1 (fp : SoftFloat) (hx0 : m.s.regs (.x 0) = 0) :
    Agrees fuel m fp pc mcycle insn (InsnLabel.decodeC1 (insn.setWidth 16)) (expand1 (insn.setWidth 16)) := by
  have hzero : bits (insn.setWidth 16) 7 5 = 0 ↔ reg (insn.setWidth 16) 7 = 0 := bits_eq_iff _ 7 0
  have htwo : bits (insn.setWidth 16) 7 5 = 2 ↔ reg (insn.setWidth 16) 7 = 2 := bits_eq_iff _ 7 2
  obtain h | h | h | h | h | h | h | h := bits_cases (insn.setWidth 16) 13 <;>
    simp only [InsnLabel.decodeC1, expand1, field_eq, h, hzero, htwo]
  -- C.ADDI
  · split_ifs with himm hrd
    · exact .hint (.inr rfl) (run_addi_same (.inl hrd))
    · refine .of_eq ?_ (by decide)
      rw [InsnLabel.execute, executeCADDI, getRd_eq_reg, (immediates _).ciSe, executeCImmediate_eq hrd,
        sext_signExtend _ (by decide) (by decide)]
      rfl
    · exact .hint (.inl rfl) (run_addi_same (.inr ⟨rfl, immCI_eq_zero himm⟩))
  -- C.ADDIW
  · split_ifs with hrd
    · rfl
    · refine .of_eq ?_ (by decide)
      rw [InsnLabel.execute, executeCADDIW, getRd_eq_reg, (immediates _).ciSe, executeCImmediate_eq hrd]
      rfl
  -- C.LI
  · split_ifs with hrd
    · exact .hint (.inl rfl) (run_addi_same (.inl hrd))
    · refine ⟨by decide, by decide, ?_⟩
      have hadd : (0 : Word) + (immCI (insn.setWidth 16)).signExtend 64 =
          (immCI (insn.setWidth 16)).signExtend 64 := BitVec.zero_add _
      rw [InsnLabel.execute, executeCLI, getRd_eq_reg, (immediates _).ciSe, sext_signExtend _ (by decide) (by decide),
        execute, run_readX, hx0, Rv64i.ImmOp.eval, hadd, writeXUnlessZero_eq hrd]
      rfl
  -- C.ADDI16SP and C.LUI
  · by_cases himm : InsnLabel.immNonzero (insn.setWidth 16)
    · rw [if_pos himm]
      rw [if_neg (mt (immADDI16SP_eq_zero_iff _).mp (not_not_intro himm)),
        if_neg (mt (immLUI_eq_zero_iff _).mp (not_not_intro himm))]
      split_ifs with hsp hrd
      · refine .of_eq ?_ (by decide)
        rw [InsnLabel.execute, executeCADDI16SP, (immediates _).addi16sp, executeCImmediate_eq (by decide),
          sext_signExtend _ (by decide) (by decide)]
        rfl
      · exact .hint (.inl rfl) (run_write_same (.inl hrd))
      · refine .of_eq ?_ (by decide)
        rw [InsnLabel.execute, executeCLUI, getRd_eq_reg, (immediates _).lui, execute, writeXUnlessZero_eq hrd]
        rfl
    · rw [if_neg himm, if_pos ((immADDI16SP_eq_zero_iff _).mpr himm), if_pos ((immLUI_eq_zero_iff _).mpr himm),
        ite_self]
      rfl
  · exact agrees_decodeC1Arithmetic fp
  -- C.J
  · refine .of_eq ?_ (by decide)
    rw [InsnLabel.execute, executeCJ, (immediates _).cj, sext_signExtend _ (by decide) (by decide)]
    rfl
  · exact ⟨by decide, by decide, run_executeCBranch hx0 .beq⟩
  · exact ⟨by decide, by decide, run_executeCBranch hx0 .bne⟩

theorem add_signExtend_zero (a : Word) : a + (0 : BitVec 12).signExtend 64 = a := by
  simp

theorem agrees_decodeC2 (fp : SoftFloat) (hx0 : m.s.regs (.x 0) = 0) :
    Agrees fuel m fp pc mcycle insn (InsnLabel.decodeC2 (insn.setWidth 16)) (expand2 (insn.setWidth 16)) := by
  have hrd0 : bits (insn.setWidth 16) 7 5 = 0 ↔ reg (insn.setWidth 16) 7 = 0 := bits_eq_iff _ 7 0
  have hrs20 : bits (insn.setWidth 16) 2 5 = 0 ↔ reg (insn.setWidth 16) 2 = 0 := bits_eq_iff _ 2 0
  obtain h | h | h | h | h | h | h | h := bits_cases (insn.setWidth 16) 13 <;>
    simp only [InsnLabel.decodeC2, expand2, field_eq, h, ne_eq, hrd0, hrs20]
  -- C.SLLI
  · by_cases hrd : reg (insn.setWidth 16) 7 = 0
    · rw [if_neg (not_and_of_not_right _ (not_not_intro hrd))]
      exact .hint (.inl rfl) (run_write_same (.inl hrd))
    by_cases himm : InsnLabel.immNonzero (insn.setWidth 16)
    · rw [if_pos ⟨himm, hrd⟩]
      refine .of_eq ?_ (by decide)
      rw [InsnLabel.execute, executeCSLLI, getRd_eq_reg, executeCImmediate_eq hrd, shamt_toNat]
      rfl
    · rw [if_neg (not_and_of_not_left _ himm), (shamt_eq_zero_iff _).mpr himm]
      exact .hint (.inl rfl) (run_shift_zero _ _)
  · refine .of_eq ?_ (by decide)
    rw [InsnLabel.execute, executeCFLDSP, getRd_eq_reg, (immediates _).ldsp, executeCFL_eq]
    rfl
  -- C.LWSP and C.LDSP
  · split_ifs with hrd
    · rfl
    · refine .of_eq ?_ (by decide)
      rw [InsnLabel.execute, executeCLWSP, getRd_eq_reg, (immediates _).lwsp]
      exact executeCL_eq hrd .w _ insn
  · split_ifs with hrd
    · rfl
    · refine .of_eq ?_ (by decide)
      rw [InsnLabel.execute, executeCLDSP, getRd_eq_reg, (immediates _).ldsp]
      exact executeCL_eq hrd .d _ insn
  -- C.JR, C.MV, C.EBREAK, C.JALR and C.ADD
  · by_cases hrs2 : reg (insn.setWidth 16) 2 = 0 <;> by_cases hrd : reg (insn.setWidth 16) 7 = 0 <;>
      by_cases hbit : bits (insn.setWidth 16) 12 1 = 0 <;>
      simp only [hrs2, hrd, hbit, not_true, not_false_eq_true, if_true, if_false]
    · rfl
    · exact .of_eq rfl (by decide)
    · refine .of_eq ?_ (by decide)
      rw [InsnLabel.execute, executeCJR, getRd_eq_reg, execute]
      simp only [add_signExtend_zero]
      rfl
    · refine .of_eq ?_ (by decide)
      rw [InsnLabel.execute, executeCJALR, getRd_eq_reg, execute]
      simp only [add_signExtend_zero]
      rfl
    · exact .hint (.inl rfl) (run_write_same (.inl rfl))
    · exact .hint (.inl rfl) (run_write_same (.inl rfl))
    · refine ⟨by decide, by decide, ?_⟩
      have hadd : (0 : Word) + m.s.regs (.x (reg (insn.setWidth 16) 2)) =
          m.s.regs (.x (reg (insn.setWidth 16) 2)) := BitVec.zero_add _
      rw [InsnLabel.execute, executeCMV, getRd_eq_reg, getCRCSSRs2_eq, execute, run_readX, run_readX, run_readX, hx0,
        Rv64i.RegOp.eval, hadd, writeXUnlessZero_eq hrd]
      rfl
    · refine .of_eq ?_ (by decide)
      rw [InsnLabel.execute, executeCADD, getRd_eq_reg, getCRCSSRs2_eq, executeCArithmetic_eq hrd]
      rfl
  · refine .of_eq ?_ (by decide)
    rw [InsnLabel.execute, executeCFSDSP, getCRCSSRs2_eq, (immediates _).sdsp, executeCFS_eq]
    rfl
  · refine .of_eq ?_ (by decide)
    rw [InsnLabel.execute, executeCSWSP, getCRCSSRs2_eq, (immediates _).swsp]
    exact executeCS_eq .w _ insn
  · refine .of_eq ?_ (by decide)
    rw [InsnLabel.execute, executeCSDSP, getCRCSSRs2_eq, (immediates _).sdsp]
    exact executeCS_eq .d _ insn

theorem toNat_and_3 (insn : Insn) : (insn &&& 3).toNat = insn.toNat % 4 := by
  rw [BitVec.toNat_and]
  exact Nat.and_two_pow_sub_one_eq_mod _ 2

theorem agrees_decode (fp : SoftFloat) (hx0 : m.s.regs (.x 0) = 0) (hc : insnIsUncompressed insn = false) :
    Agrees fuel m fp pc mcycle insn (decode (insn.setWidth 16)) (expand (insn.setWidth 16)) := by
  have hne : insn.toNat % 4 ≠ 3 := by
    intro h
    have huncompressed : insn &&& 3 = 3 := BitVec.eq_of_toNat_eq ((toNat_and_3 insn).trans h)
    rw [insnIsUncompressed, huncompressed] at hc
    cases hc
  have hbits : bits (insn.setWidth 16) 0 2 = insn.toNat % 4 := by
    rw [bits_setWidth insn (by decide), Nat.pow_zero, Nat.div_one]
    rfl
  obtain h | h | h : bits (insn.setWidth 16) 0 2 = 0 ∨ bits (insn.setWidth 16) 0 2 = 1 ∨
    bits (insn.setWidth 16) 0 2 = 2 := by omega
  all_goals simp only [decode, expand, field_eq, h]
  · exact agrees_decodeC0 fp
  · exact agrees_decodeC1 fp hx0
  · exact agrees_decodeC2 fp hx0

/-! ### Trap values -/

theorem insnIsUncompressed_setWidth (insn : Insn) :
    insnIsUncompressed ((insn.setWidth 16).setWidth 32) = insnIsUncompressed insn := by
  have hlow : (insn.setWidth 16).setWidth 32 &&& 3 = insn &&& 3 := by
    apply BitVec.eq_of_toNat_eq
    rw [toNat_and_3, toNat_and_3, BitVec.toNat_setWidth, BitVec.toNat_setWidth]
    omega
  rw [insnIsUncompressed, insnIsUncompressed, hlow]

theorem trapValue_compressed (hc : insnIsUncompressed insn = false) :
    trapValue mcauseIllegalInsn (insn.setWidth 64) = (insn.setWidth 16).setWidth 64 := by
  have hwidth : (insn.setWidth 64).setWidth 32 = insn := by simp
  have hlow : (insn.setWidth 64).setWidth 16 = insn.setWidth 16 := by simp
  rw [trapValue, hwidth, hc, if_pos ⟨rfl, rfl⟩, hlow]

/-- An illegal instruction is reported without what follows it. -/
theorem run_raiseIllegalInsnException (hc : insnIsUncompressed insn = false) :
    (raiseIllegalInsnException pc insn).exec fuel =
      (raiseIllegalInsnException pc ((insn.setWidth 16).setWidth 32)).exec fuel := by
  have hvalue : trapValue mcauseIllegalInsn (insn.setWidth 64) =
      trapValue mcauseIllegalInsn (((insn.setWidth 16).setWidth 32).setWidth 64) := by
    rw [trapValue_compressed hc, trapValue_compressed ((insnIsUncompressed_setWidth insn).trans hc)]
    simp
  have hraise : raiseException pc mcauseIllegalInsn (insn.setWidth 64) =
      raiseException pc mcauseIllegalInsn (((insn.setWidth 16).setWidth 32).setWidth 64) := by
    rw [raiseException, raiseException, hvalue]
  have hop : insnAccess fuel (.raiseException pc mcauseIllegalInsn (insn.setWidth 64)) =
      insnAccess fuel (.raiseException pc mcauseIllegalInsn (((insn.setWidth 16).setWidth 32).setWidth 64)) :=
    congrArg (Prog.run (stateAccess fuel)) hraise
  show insnAccess fuel (.raiseException pc mcauseIllegalInsn (insn.setWidth 64)) >>= _ = _
  rw [hop]
  rfl

theorem run_execute_compressed (hc : insnIsUncompressed insn = false) (i : Instr) :
    (execute 2 insn pc mcycle i).exec fuel =
      (execute 2 ((insn.setWidth 16).setWidth 32) pc mcycle i).exec fuel := by
  have hrequire : ∀ p : IProg Outcome, (requireFs pc insn p).exec fuel =
      (requireFs pc ((insn.setWidth 16).setWidth 32) p).exec fuel := by
    intro p
    simp only [requireFs, Prog.run_bind]
    congr 1
    funext mstatus
    split
    · exact run_raiseIllegalInsnException hc
    · rfl
  cases i with
  | fld | fsd => exact hrequire _
  | _ => rfl

end Expansion

/-! ## Compressed instructions -/

/-- A compressed instruction does what its expansion does, with the length two in place of four, and reports
itself where it is illegal. Reserved words are illegal. -/
theorem compressed_expands (fp : SoftFloat) (fuel : Nat) (m : RunState) (pc mcycle : Word) (insn : Insn)
    (hx0 : m.s.regs (.x 0) = 0) (hc : insnIsUncompressed insn = false) :
    (∀ i, Rvc.expand (insn.setWidth 16) = some i →
      (executeInsn fp pc mcycle insn).access.run (stateAccess fuel) m =
        (withMcycle mcycle (execute 2 ((insn.setWidth 16).setWidth 32) pc mcycle i)).access.run (stateAccess fuel) m ∧
      (executeInsn fp pc mcycle i.encode).access.run (stateAccess fuel) m =
        (withMcycle mcycle (execute 4 i.encode pc mcycle i)).access.run (stateAccess fuel) m) ∧
    (Rvc.expand (insn.setWidth 16) = none ↔ InsnLabel.decode (insn.setWidth 16) = .ILLEGAL) ∧
    (Rvc.expand (insn.setWidth 16) = none → (executeInsn fp pc mcycle insn).access.run (stateAccess fuel) m =
      (withMcycle mcycle (raiseIllegalInsnException pc ((insn.setWidth 16).setWidth 32))).access.run
        (stateAccess fuel) m) := by
  have hagrees : Agrees fuel m fp pc mcycle insn _ _ := agrees_decode fp hx0 hc
  simp only [run_access]
  refine ⟨fun i hi => ⟨?_, run_encode fp i⟩, ?_, fun hnone => ?_⟩
  · rw [hi] at hagrees
    obtain ⟨-, hpriv, hrun⟩ := hagrees
    rw [executeInsn_eq_decode fp hpriv, run_withMcycle (hrun.trans (congrFun (run_execute_compressed hc i) m))]
  · cases hexpand : expand (insn.setWidth 16) with
    | none =>
      rw [hexpand] at hagrees
      exact ⟨fun _ => hagrees, fun _ => rfl⟩
    | some i =>
      rw [hexpand] at hagrees
      exact ⟨fun h => (by cases h), fun h => absurd h hagrees.1⟩
  · rw [hnone] at hagrees
    have hlabel : decode (insn.setWidth 16) = .ILLEGAL := hagrees
    have hpriv : decode (insn.setWidth 16) ≠ .PRIVILEGED := by
      rw [hlabel]
      decide
    rw [executeInsn_eq_decode fp hpriv, hlabel]
    exact run_withMcycle (congrFun (run_raiseIllegalInsnException hc) m)

/-- The instruction `c.addi x8, 1`, and the reserved word of zeros. -/
theorem compressed_expands_addi : ((executeInsn .zero 0 0 0x00000405).access.run (stateAccess 0) (.small []) =
        (withMcycle 0 (execute 2 0x00000405 0 0 (.imm .addi 8 8 1))).access.run (stateAccess 0) (.small []) ∧
      (executeInsn .zero 0 0 0x00140413).access.run (stateAccess 0) (.small []) =
        (withMcycle 0 (execute 4 0x00140413 0 0 (.imm .addi 8 8 1))).access.run (stateAccess 0) (.small [])) ∧
    (executeInsn .zero 0 0 0).access.run (stateAccess 0) (.small []) =
      (withMcycle 0 (raiseIllegalInsnException 0 0)).access.run (stateAccess 0) (.small []) :=
  ⟨(compressed_expands .zero 0 (.small []) 0 0 0x00000405 rfl rfl).1 (.imm .addi 8 8 1) (by decide),
    (compressed_expands .zero 0 (.small []) 0 0 0 rfl rfl).2.2 (by decide)⟩

/-- With the floating-point unit off, `c.fld f8, 0(x8)` reports itself, and its expansion another word. -/
theorem compressed_reports_itself :
    Rvc.expand 0x2000 = some (.fld 8 8 0) ∧ (Instr.fld 8 8 0).encode = 0x00043407 ∧
    ∃ r r' m m', (executeInsn .zero 0 0 0x00002000).access.run (stateAccess 0) (.small []) = .ok r m ∧
      (executeInsn .zero 0 0 0x00043407).access.run (stateAccess 0) (.small []) = .ok r' m' ∧
      m.s.regs .mtval = 0x2000 ∧ m'.s.regs .mtval = 0x00043407 := by
  have hc : ((executeInsn .zero 0 0 0x00002000).access.run (stateAccess 0)).succeedsWith (.small [])
      (fun _ m => decide (m.s.regs .mtval = 0x2000)) = true := by
    decide
  have hw : ((executeInsn .zero 0 0 0x00043407).access.run (stateAccess 0)).succeedsWith (.small [])
      (fun _ m => decide (m.s.regs .mtval = 0x00043407)) = true := by
    decide
  obtain ⟨r, m, hrun, hm⟩ := exists_of_succeedsWith hc
  obtain ⟨r', m', hrun', hm'⟩ := exists_of_succeedsWith hw
  exact ⟨by decide, by decide, r, r', m, m', hrun, hrun', of_decide_eq_true hm, of_decide_eq_true hm'⟩

end MachineEmulator.Interpret
