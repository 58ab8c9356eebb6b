import MachineEmulator.Interpret.Compressed

/-!
# Decoding

The low 16 bits of an instruction select its handler. `decode` is the jump table, and `execute` the
dispatch over its labels.
-/

namespace MachineEmulator.Interpret

/-- The labels of the jump table. Many instructions have a handler of their own for the destination
`x0`. -/
inductive InsnLabel where
  | LUI (k : Insn.RdKind)
  | AUIPC (k : Insn.RdKind)
  | JAL (k : Insn.RdKind)
  | JALR (k : Insn.RdKind)
  | BEQ
  | BNE
  | BLT
  | BGE
  | BLTU
  | BGEU
  | LB (k : Insn.RdKind)
  | LH (k : Insn.RdKind)
  | LW (k : Insn.RdKind)
  | LBU (k : Insn.RdKind)
  | LHU (k : Insn.RdKind)
  | SB
  | SH
  | SW
  | ADDI (k : Insn.RdKind)
  | SLTI (k : Insn.RdKind)
  | SLTIU (k : Insn.RdKind)
  | XORI (k : Insn.RdKind)
  | ORI (k : Insn.RdKind)
  | ANDI (k : Insn.RdKind)
  | SLLI (k : Insn.RdKind)
  | SRLISRAI (k : Insn.RdKind)
  | ADDMULSUB (k : Insn.RdKind)
  | SLLMULH (k : Insn.RdKind)
  | SLTMULHSU (k : Insn.RdKind)
  | SLTUMULHU (k : Insn.RdKind)
  | XORDIV (k : Insn.RdKind)
  | SRLDIVUSRA (k : Insn.RdKind)
  | ORREM (k : Insn.RdKind)
  | ANDREMU (k : Insn.RdKind)
  | FENCE
  | PRIVILEGED
  | LWU (k : Insn.RdKind)
  | LD (k : Insn.RdKind)
  | SD
  | ADDIW (k : Insn.RdKind)
  | SLLIW (k : Insn.RdKind)
  | SRLIWSRAIW (k : Insn.RdKind)
  | ADDWMULWSUBW (k : Insn.RdKind)
  | SLLW (k : Insn.RdKind)
  | SRLWDIVUWSRAW (k : Insn.RdKind)
  | DIVW (k : Insn.RdKind)
  | REMW (k : Insn.RdKind)
  | REMUW (k : Insn.RdKind)
  | AMOW
  | AMOD
  | FLW
  | FSW
  | FMADD
  | FMSUB
  | FNMSUB
  | FNMADD
  | FD
  | FLD
  | FSD
  | FENCEI
  | CSRRW
  | CSRRS
  | CSRRC
  | CSRRWI
  | CSRRSI
  | CSRRCI
  | CADDI4SPN
  | CFLD
  | CLW
  | CLD
  | CFSD
  | CSW
  | CSD
  | CHINT
  | CNOP
  | CADDI
  | CADDIW
  | CLI
  | CADDI16SP
  | CLUI
  | CSRLI
  | CSRAI
  | CANDI
  | CSUB
  | CXOR
  | COR
  | CAND
  | CSUBW
  | CADDW
  | CJ
  | CBEQZ
  | CBNEZ
  | CSLLI
  | CFLDSP
  | CLWSP
  | CLDSP
  | CFSDSP
  | CSWSP
  | CSDSP
  | CEBREAK
  | CJR
  | CJALR
  | CMV
  | CADD
  | ILLEGAL
  deriving DecidableEq, Repr

variable (index : BitVec 16)

namespace InsnLabel

/-! ## The jump table -/

/-- The field of `n` bits from `shift` on. -/
def field (shift n : Nat) : Nat := (index.toNat >>> shift) % 2 ^ n

/-- Does a label exist for the rounding mode? -/
def validRm (funct3 : Nat) : Bool := funct3 ≤ 4 || funct3 == 7

/-- Labels of the instructions of 32 bits, by opcode and `funct3`. -/
def decode32 (opcode funct3 : Nat) (k : Insn.RdKind) : InsnLabel :=
  match opcode with
  | 0b0110111 => .LUI k
  | 0b0010111 => .AUIPC k
  | 0b1101111 => .JAL k
  | 0b1100111 => match funct3 with
    | 0b000 => .JALR k
    | _ => .ILLEGAL
  | 0b1100011 => match funct3 with
    | 0b000 => .BEQ
    | 0b001 => .BNE
    | 0b100 => .BLT
    | 0b101 => .BGE
    | 0b110 => .BLTU
    | 0b111 => .BGEU
    | _ => .ILLEGAL
  | 0b0000011 => match funct3 with
    | 0b000 => .LB k
    | 0b001 => .LH k
    | 0b010 => .LW k
    | 0b011 => .LD k
    | 0b100 => .LBU k
    | 0b101 => .LHU k
    | 0b110 => .LWU k
    | _ => .ILLEGAL
  | 0b0100011 => match funct3 with
    | 0b000 => .SB
    | 0b001 => .SH
    | 0b010 => .SW
    | 0b011 => .SD
    | _ => .ILLEGAL
  | 0b0010011 => match funct3 with
    | 0b000 => .ADDI k
    | 0b001 => .SLLI k
    | 0b010 => .SLTI k
    | 0b011 => .SLTIU k
    | 0b100 => .XORI k
    | 0b101 => .SRLISRAI k
    | 0b110 => .ORI k
    | _ => .ANDI k
  | 0b0110011 => match funct3 with
    | 0b000 => .ADDMULSUB k
    | 0b001 => .SLLMULH k
    | 0b010 => .SLTMULHSU k
    | 0b011 => .SLTUMULHU k
    | 0b100 => .XORDIV k
    | 0b101 => .SRLDIVUSRA k
    | 0b110 => .ORREM k
    | _ => .ANDREMU k
  | 0b0001111 => match funct3 with
    | 0b000 => .FENCE
    | 0b001 => .FENCEI
    | _ => .ILLEGAL
  | 0b0011011 => match funct3 with
    | 0b000 => .ADDIW k
    | 0b001 => .SLLIW k
    | 0b101 => .SRLIWSRAIW k
    | _ => .ILLEGAL
  | 0b0111011 => match funct3 with
    | 0b000 => .ADDWMULWSUBW k
    | 0b001 => .SLLW k
    | 0b100 => .DIVW k
    | 0b101 => .SRLWDIVUWSRAW k
    | 0b110 => .REMW k
    | 0b111 => .REMUW k
    | _ => .ILLEGAL
  | 0b0101111 => match funct3 with
    | 0b010 => .AMOW
    | 0b011 => .AMOD
    | _ => .ILLEGAL
  | 0b0000111 => match funct3 with
    | 0b010 => .FLW
    | 0b011 => .FLD
    | _ => .ILLEGAL
  | 0b0100111 => match funct3 with
    | 0b010 => .FSW
    | 0b011 => .FSD
    | _ => .ILLEGAL
  | 0b1000011 => if validRm funct3 then .FMADD else .ILLEGAL
  | 0b1000111 => if validRm funct3 then .FMSUB else .ILLEGAL
  | 0b1001011 => if validRm funct3 then .FNMSUB else .ILLEGAL
  | 0b1001111 => if validRm funct3 then .FNMADD else .ILLEGAL
  | 0b1010011 => if validRm funct3 then .FD else .ILLEGAL
  | 0b1110011 => match funct3 with
    | 0b000 => .PRIVILEGED
    | 0b001 => .CSRRW
    | 0b010 => .CSRRS
    | 0b011 => .CSRRC
    | 0b101 => .CSRRWI
    | 0b110 => .CSRRSI
    | 0b111 => .CSRRCI
    | _ => .ILLEGAL
  | _ => .ILLEGAL

/-- Labels of the first quadrant of compressed instructions. -/
def decodeC0 : InsnLabel :=
  match field index 13 3 with
  | 0b000 => if field index 5 8 ≠ 0 then .CADDI4SPN else .ILLEGAL
  | 0b001 => .CFLD
  | 0b010 => .CLW
  | 0b011 => .CLD
  | 0b101 => .CFSD
  | 0b110 => .CSW
  | 0b111 => .CSD
  | _ => .ILLEGAL

/-- The immediate of the CI format is not zero. -/
def immNonzero : Bool := field index 12 1 != 0 || field index 2 5 != 0

/-- Labels of arithmetic on the registers that three bits name. -/
def decodeC1Arithmetic : InsnLabel :=
  match field index 10 2 with
  | 0b00 => if immNonzero index then .CSRLI else .CHINT
  | 0b01 => if immNonzero index then .CSRAI else .CHINT
  | 0b10 => .CANDI
  | _ => match field index 12 1, field index 5 2 with
    | 0, 0b00 => .CSUB
    | 0, 0b01 => .CXOR
    | 0, 0b10 => .COR
    | 0, _ => .CAND
    | _, 0b00 => .CSUBW
    | _, 0b01 => .CADDW
    | _, _ => .ILLEGAL

def decodeC1 : InsnLabel :=
  let rd := field index 7 5
  match field index 13 3 with
  | 0b000 => if immNonzero index then (if rd = 0 then .CNOP else .CADDI) else .CHINT
  | 0b001 => if rd = 0 then .ILLEGAL else .CADDIW
  | 0b010 => if rd = 0 then .CHINT else .CLI
  | 0b011 =>
    if immNonzero index then (if rd = 2 then .CADDI16SP else if rd = 0 then .CHINT else .CLUI)
    else .ILLEGAL
  | 0b100 => decodeC1Arithmetic index
  | 0b101 => .CJ
  | 0b110 => .CBEQZ
  | _ => .CBNEZ

def decodeC2 : InsnLabel :=
  let rd := field index 7 5
  let rs2 := field index 2 5
  match field index 13 3 with
  | 0b000 => if immNonzero index ∧ rd ≠ 0 then .CSLLI else .CHINT
  | 0b001 => .CFLDSP
  | 0b010 => if rd = 0 then .ILLEGAL else .CLWSP
  | 0b011 => if rd = 0 then .ILLEGAL else .CLDSP
  | 0b100 =>
    if rs2 = 0 then
      if rd = 0 then (if field index 12 1 = 0 then .ILLEGAL else .CEBREAK)
      else if field index 12 1 = 0 then .CJR
      else .CJALR
    else if rd = 0 then .CHINT
    else if field index 12 1 = 0 then .CMV
    else .CADD
  | 0b101 => .CFSDSP
  | 0b110 => .CSWSP
  | _ => .CSDSP

/-- The jump table, indexed by the low 16 bits of an instruction. -/
def decode : InsnLabel :=
  match field index 0 2 with
  | 0b00 => decodeC0 index
  | 0b01 => decodeC1 index
  | 0b10 => decodeC2 index
  | _ => decode32 (field index 0 7) (field index 12 3) (if field index 7 5 = 0 then .x0 else .xN)

end InsnLabel

/-! ## Dispatch -/

open Insn in
/-- The handler of a label that can end with the cycle counter as it is. -/
def InsnLabel.execute (fp : SoftFloat) (pc mcycle : Word) (insn : Insn) : InsnLabel → IProg Outcome
  | .LUI k => executeLUI k pc insn
  | .AUIPC k => executeAUIPC k pc insn
  | .JAL k => executeJAL k pc insn
  | .JALR k => executeJALR k pc insn
  | .BEQ => executeBEQ pc insn
  | .BNE => executeBNE pc insn
  | .BLT => executeBLT pc insn
  | .BGE => executeBGE pc insn
  | .BLTU => executeBLTU pc insn
  | .BGEU => executeBGEU pc insn
  | .LB k => executeLB k pc mcycle insn
  | .LH k => executeLH k pc mcycle insn
  | .LW k => executeLW k pc mcycle insn
  | .LBU k => executeLBU k pc mcycle insn
  | .LHU k => executeLHU k pc mcycle insn
  | .SB => executeSB pc insn
  | .SH => executeSH pc insn
  | .SW => executeSW pc insn
  | .ADDI k => executeADDI k pc insn
  | .SLTI k => executeSLTI k pc insn
  | .SLTIU k => executeSLTIU k pc insn
  | .XORI k => executeXORI k pc insn
  | .ORI k => executeORI k pc insn
  | .ANDI k => executeANDI k pc insn
  | .SLLI k => executeSLLI k pc insn
  | .SRLISRAI k => executeSRLISRAI k pc insn
  | .ADDMULSUB k => executeADDMULSUB k pc insn
  | .SLLMULH k => executeSLLMULH k pc insn
  | .SLTMULHSU k => executeSLTMULHSU k pc insn
  | .SLTUMULHU k => executeSLTUMULHU k pc insn
  | .XORDIV k => executeXORDIV k pc insn
  | .SRLDIVUSRA k => executeSRLDIVUSRA k pc insn
  | .ORREM k => executeORREM k pc insn
  | .ANDREMU k => executeANDREMU k pc insn
  | .FENCE => executeFENCE pc insn
  | .LWU k => executeLWU k pc mcycle insn
  | .LD k => executeLD k pc mcycle insn
  | .SD => executeSD pc insn
  | .ADDIW k => executeADDIW k pc insn
  | .SLLIW k => executeSLLIW k pc insn
  | .SRLIWSRAIW k => executeSRLIWSRAIW k pc insn
  | .ADDWMULWSUBW k => executeADDWMULWSUBW k pc insn
  | .SLLW k => executeSLLW k pc insn
  | .SRLWDIVUWSRAW k => executeSRLWDIVUWSRAW k pc insn
  | .DIVW k => executeDIVW k pc insn
  | .REMW k => executeREMW k pc insn
  | .REMUW k => executeREMUW k pc insn
  | .AMOW => executeAMOW pc mcycle insn
  | .AMOD => executeAMOD pc mcycle insn
  | .FLW => executeFLW pc mcycle insn
  | .FSW => executeFSW pc insn
  | .FMADD => executeFMADD fp pc insn
  | .FMSUB => executeFMSUB fp pc insn
  | .FNMSUB => executeFNMSUB fp pc insn
  | .FNMADD => executeFNMADD fp pc insn
  | .FD => executeFD fp pc insn
  | .FLD => executeFLD pc mcycle insn
  | .FSD => executeFSD pc insn
  | .FENCEI => executeFENCEI pc insn
  | .CSRRW => executeCSRRW pc mcycle insn
  | .CSRRS => executeCSRRS pc mcycle insn
  | .CSRRC => executeCSRRC pc mcycle insn
  | .CSRRWI => executeCSRRWI pc mcycle insn
  | .CSRRSI => executeCSRRSI pc mcycle insn
  | .CSRRCI => executeCSRRCI pc mcycle insn
  | .CADDI4SPN => executeCADDI4SPN pc insn
  | .CFLD => executeCFLD pc mcycle insn
  | .CLW => executeCLW pc mcycle insn
  | .CLD => executeCLD pc mcycle insn
  | .CFSD => executeCFSD pc insn
  | .CSW => executeCSW pc insn
  | .CSD => executeCSD pc insn
  | .CHINT | .CNOP => executeCNOP pc insn
  | .CADDI => executeCADDI pc insn
  | .CADDIW => executeCADDIW pc insn
  | .CLI => executeCLI pc insn
  | .CADDI16SP => executeCADDI16SP pc insn
  | .CLUI => executeCLUI pc insn
  | .CSRLI => executeCSRLI pc insn
  | .CSRAI => executeCSRAI pc insn
  | .CANDI => executeCANDI pc insn
  | .CSUB => executeCSUB pc insn
  | .CXOR => executeCXOR pc insn
  | .COR => executeCOR pc insn
  | .CAND => executeCAND pc insn
  | .CSUBW => executeCSUBW pc insn
  | .CADDW => executeCADDW pc insn
  | .CJ => executeCJ pc insn
  | .CBEQZ => executeCBEQZ pc insn
  | .CBNEZ => executeCBNEZ pc insn
  | .CSLLI => executeCSLLI pc insn
  | .CFLDSP => executeCFLDSP pc mcycle insn
  | .CLWSP => executeCLWSP pc mcycle insn
  | .CLDSP => executeCLDSP pc mcycle insn
  | .CFSDSP => executeCFSDSP pc insn
  | .CSWSP => executeCSWSP pc insn
  | .CSDSP => executeCSDSP pc insn
  | .CEBREAK => executeCEBREAK pc insn
  | .CJR => executeCJR pc insn
  | .CJALR => executeCJALR pc insn
  | .CMV => executeCMV pc insn
  | .CADD => executeCADD pc insn
  | .PRIVILEGED | .ILLEGAL => raiseIllegalInsnException pc insn

/-- Execute an instruction. Only the privileged ones can change the cycle counter. -/
def executeInsn (fp : SoftFloat) (pc mcycle : Word) (insn : Insn) : IProg (Outcome × Word) :=
  match InsnLabel.decode (insn.setWidth 16) with
  | .PRIVILEGED => Insn.executePrivileged pc mcycle insn
  | label => Insn.withMcycle mcycle (label.execute fp pc mcycle insn)

end MachineEmulator.Interpret
