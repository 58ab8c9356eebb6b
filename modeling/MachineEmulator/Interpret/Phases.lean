import MachineEmulator.Interpret.Decode

/-!
# The phases of an instruction

An instruction raises an exception before it has any other effect, or it retires: `insnMonitor` watches
the operations of an instruction and tells which of the two happened.

* `running` : nothing but reads so far;
* `loaded` : a load succeeded. Only a read-modify-write can still raise an exception, by its store;
* `retired status` : the instruction had its effect, with this status;
* `raised newPc` : an exception was raised, and its handler is at `newPc`.

`executeInsn_cases` is the walk over all handlers: every instruction but `WFI` keeps to the monitor, and
its outcome is the one its last phase tells. What instructions can do is derived from it, without another
look at the handlers.
-/

namespace MachineEmulator.Interpret

open Prog

inductive Phase where
  | running
  | loaded
  | retired (status : ExecuteStatus)
  | raised (newPc : Word)
  deriving DecidableEq

/-- The phase after the first effect of an instruction. -/
def Phase.retire : Phase → Phase
  | .retired status => .retired status
  | _ => .retired .success

/-- The phase after an operation that tells an outcome itself. -/
def Phase.ofOutcome (outcome : Outcome) : Phase :=
  if outcome.1 = .failure then .raised outcome.2 else .retired outcome.1

/-- A store can be asked for: at once, or after the load of a read-modify-write. -/
def Phase.CanStore (q : Phase) (amo : Bool) : Prop := q = .running ∨ amo = true ∧ q = .loaded

/-- The operations of the instruction at `pc` and at the cycle `mcycle`, which may be a read-modify-write, a
load-reserved or a store-conditional if `amo` is set. -/
def insnMonitor (amo : Bool) (pc mcycle : Word) : Monitor InsnSig Phase where
  allows q
    | .readX _ | .readF _ | .readFcsr | .readIlrsc | .readIprv | .readMstatus | .getSoftYield => True
    | .writeX reg _ => reg ≠ 0 ∧ ∀ newPc, q ≠ .raised newPc
    | .writeF .. | .writeFcsr _ => ∀ newPc, q ≠ .raised newPc
    | .writeIlrsc _ => amo = true ∧ ∀ newPc, q ≠ .raised newPc
    | .readVirtualMemory _ _ pc' _ _ => q = .running ∧ pc' = pc
    | .writeVirtualMemory _ pc' _ _ => q.CanStore amo ∧ pc' = pc
    | .readCsr mcycle' _ | .writeCsr mcycle' _ _ => q = .running ∧ mcycle' = mcycle
    | .raiseException pc' _ _ | .sret pc' _ | .mret pc' _ | .sfenceVma pc' _ _ =>
      q = .running ∧ pc' = pc
    | .wfi .. => False
  next q
    | .writeX .. | .writeF .. | .writeFcsr _ | .writeIlrsc _ => fun _ => q.retire
    | .readVirtualMemory .. => fun (r : LoadResult) =>
      match r with
      | .ok _ => .loaded
      | .error newPc => .raised newPc
    | .writeVirtualMemory .. => fun (r : StoreResult) => .ofOutcome r
    | .writeCsr .. => fun (status : ExecuteStatus) =>
      if status = .failure then .running else .retired status
    | .raiseException .. => fun (newPc : Word) => .raised newPc
    | .sret .. | .mret .. | .sfenceVma .. => fun (outcome : Outcome) => .ofOutcome outcome
    | _ => fun _ => q

/-- The outcome an instruction may end with in a phase. -/
def Phase.Accepts : Phase → Outcome → Prop
  | .raised newPc, outcome => outcome = (.failure, newPc)
  | .retired status, outcome => outcome.1 = status ∧ status ≠ .failure
  | _, outcome => outcome.1 = .success ∨ outcome.1 = .successAndYield

theorem Phase.Accepts.eq_raised {q : Phase} {outcome : Outcome} (h : q.Accepts outcome)
    (hfail : outcome.1 = .failure) : q = .raised outcome.2 := by
  cases q with
  | raised newPc => rw [show outcome = (.failure, newPc) from h]
  | retired status => exact absurd (h.1.symm.trans hfail) h.2
  | running | loaded => rcases h with h | h <;> cases h.symm.trans hfail

/-- The instruction at `pc` keeps to the monitor from the start to its outcome. -/
def Phased (amo : Bool) (pc mcycle : Word) (p : IProg Outcome) : Prop :=
  p.Conforms (insnMonitor amo pc mcycle) .running Phase.Accepts

namespace Insn

variable {amo : Bool} {pc mcycle : Word} {q : Phase}

/-! ## The rules of the operations -/

section Rules
variable {post : Phase → Word → Prop} {done : Phase → Unit → Prop} {ends : Phase → Outcome → Prop}

theorem conforms_unwatched {P : Prop} : True ∧ P ↔ P := ⟨And.right, fun h => ⟨trivial, h⟩⟩

variable {r : Fin 32} {v pc' mcycle' : Word} {insn : Insn}

@[simp] theorem conforms_readX :
    (readX r).Conforms (insnMonitor amo pc mcycle) q post ↔ ∀ v, post q v := conforms_unwatched

@[simp] theorem conforms_readF :
    (readF r).Conforms (insnMonitor amo pc mcycle) q post ↔ ∀ v, post q v := conforms_unwatched

@[simp] theorem conforms_readFcsr :
    readFcsr.Conforms (insnMonitor amo pc mcycle) q post ↔ ∀ v, post q v := conforms_unwatched

@[simp] theorem conforms_readIlrsc :
    readIlrsc.Conforms (insnMonitor amo pc mcycle) q post ↔ ∀ v, post q v := conforms_unwatched

@[simp] theorem conforms_readIprv :
    readIprv.Conforms (insnMonitor amo pc mcycle) q post ↔ ∀ v, post q v := conforms_unwatched

@[simp] theorem conforms_readMstatus :
    readMstatus.Conforms (insnMonitor amo pc mcycle) q post ↔ ∀ v, post q v := conforms_unwatched

@[simp] theorem conforms_getSoftYield {post : Phase → Bool → Prop} :
    getSoftYield.Conforms (insnMonitor amo pc mcycle) q post ↔ ∀ b, post q b := conforms_unwatched

@[simp] theorem conforms_writeX : (writeX r v).Conforms (insnMonitor amo pc mcycle) q done ↔
      (r ≠ 0 ∧ ∀ newPc, q ≠ .raised newPc) ∧ done q.retire () :=
  and_congr Iff.rfl ⟨fun h => h (), fun h _ => h⟩

@[simp] theorem conforms_writeF : (writeF r v).Conforms (insnMonitor amo pc mcycle) q done ↔
      (∀ newPc, q ≠ .raised newPc) ∧ done q.retire () :=
  and_congr Iff.rfl ⟨fun h => h (), fun h _ => h⟩

@[simp] theorem conforms_writeFcsr : (writeFcsr v).Conforms (insnMonitor amo pc mcycle) q done ↔
      (∀ newPc, q ≠ .raised newPc) ∧ done q.retire () :=
  and_congr Iff.rfl ⟨fun h => h (), fun h _ => h⟩

@[simp] theorem conforms_writeIlrsc : (writeIlrsc v).Conforms (insnMonitor amo pc mcycle) q done ↔
      (amo = true ∧ ∀ newPc, q ≠ .raised newPc) ∧ done q.retire () :=
  and_congr Iff.rfl ⟨fun h => h (), fun h _ => h⟩

@[simp] theorem conforms_load {size : MemSize} {raiseStore : Bool} {vaddr : Word}
    {post : Phase → LoadResult → Prop} :
    (load size raiseStore pc' mcycle' vaddr).Conforms (insnMonitor amo pc mcycle) q post ↔
      (q = .running ∧ pc' = pc) ∧ (∀ val, post .loaded (.ok val)) ∧
        ∀ newPc, post (.raised newPc) (.error newPc) := by
  refine and_congr Iff.rfl ⟨fun h => ⟨fun val => h (.ok val), fun newPc => h (.error newPc)⟩, ?_⟩
  rintro ⟨hok, herr⟩ (newPc | val)
  · exact herr newPc
  · exact hok val

@[simp] theorem conforms_store {size : MemSize} {vaddr val : Word} :
    (store size pc' vaddr val).Conforms (insnMonitor amo pc mcycle) q ends ↔
      (q.CanStore amo ∧ pc' = pc) ∧ ∀ r, ends (.ofOutcome r) r := Iff.rfl

@[simp] theorem conforms_readCsr {csraddr : CsrAddress} {post : Phase → Option Word → Prop} :
    (readCsr mcycle' csraddr).Conforms (insnMonitor amo pc mcycle) q post ↔
      (q = .running ∧ mcycle' = mcycle) ∧ ∀ v, post q v := Iff.rfl

@[simp] theorem conforms_writeCsr {val : Word} {csraddr : CsrAddress} {post : Phase → ExecuteStatus → Prop} :
    (writeCsr mcycle' csraddr val).Conforms (insnMonitor amo pc mcycle) q post ↔ (q = .running ∧ mcycle' = mcycle) ∧
      ∀ status, post (if status = .failure then .running else .retired status) status := Iff.rfl

@[simp] theorem conforms_raiseException {cause tval : Word} :
    (raiseException pc' cause tval).Conforms (insnMonitor amo pc mcycle) q post ↔
      (q = .running ∧ pc' = pc) ∧ ∀ newPc, post (.raised newPc) newPc := Iff.rfl

@[simp] theorem conforms_sret : (sret pc' insn).Conforms (insnMonitor amo pc mcycle) q ends ↔
      (q = .running ∧ pc' = pc) ∧ ∀ o, ends (.ofOutcome o) o := Iff.rfl

@[simp] theorem conforms_mret : (mret pc' insn).Conforms (insnMonitor amo pc mcycle) q ends ↔
      (q = .running ∧ pc' = pc) ∧ ∀ o, ends (.ofOutcome o) o := Iff.rfl

@[simp] theorem conforms_sfenceVma {rs1 : Fin 32} :
    (sfenceVma pc' insn rs1).Conforms (insnMonitor amo pc mcycle) q ends ↔
      (q = .running ∧ pc' = pc) ∧ ∀ o, ends (.ofOutcome o) o := Iff.rfl

end Rules

@[simp] theorem accepts_ofOutcome (o : Outcome) : (Phase.ofOutcome o).Accepts o := by
  obtain ⟨status, newPc⟩ := o
  unfold Phase.ofOutcome
  split
  · rename_i h
    simp only at h
    rw [h]
    rfl
  · rename_i h
    exact ⟨rfl, h⟩

/-- The outcome of a store, with the next instruction behind it. -/
@[simp] theorem accepts_storeOutcome (insnSize : Word) (r : StoreResult) :
    (Phase.ofOutcome r).Accepts (storeOutcome insnSize pc r) := by
  unfold storeOutcome Phase.ofOutcome
  split
  · rename_i h
    exact Prod.ext h rfl
  · rename_i h
    exact ⟨rfl, h⟩

@[simp] theorem retire_running : Phase.running.retire = .retired .success := rfl
@[simp] theorem retire_loaded : Phase.loaded.retire = .retired .success := rfl
@[simp] theorem retire_retired {status : ExecuteStatus} : (Phase.retired status).retire = .retired status := rfl
@[simp] theorem canStore_running : Phase.running.CanStore amo := .inl rfl
@[simp] theorem canStore_loaded : Phase.loaded.CanStore true := .inr ⟨rfl, rfl⟩
variable {o : Outcome}

@[simp] theorem accepts_running : Phase.running.Accepts o ↔ o.1 = .success ∨ o.1 = .successAndYield := Iff.rfl
@[simp] theorem accepts_loaded : Phase.loaded.Accepts o ↔ o.1 = .success ∨ o.1 = .successAndYield := Iff.rfl
@[simp] theorem accepts_retired {status : ExecuteStatus} :
    (Phase.retired status).Accepts o ↔ o.1 = status ∧ status ≠ .failure := Iff.rfl
@[simp] theorem accepts_raised {newPc : Word} :
    (Phase.raised newPc).Accepts o ↔ o = (.failure, newPc) := Iff.rfl

/-! ## Pieces of instructions -/

section Pieces
variable {insn : Insn} {ends : Phase → Outcome → Prop} {pc' : Word}

@[simp] theorem conforms_next :
    (next pc').Conforms (insnMonitor amo pc mcycle) q ends ↔ ends q (.success, pc' + 4) := Iff.rfl

@[simp] theorem conforms_nextC :
    (nextC pc').Conforms (insnMonitor amo pc mcycle) q ends ↔ ends q (.success, pc' + 2) := Iff.rfl

@[simp] theorem conforms_executeJump :
    (executeJump pc').Conforms (insnMonitor amo pc mcycle) q ends ↔ ends q (.success, pc') := Iff.rfl

@[simp] theorem conforms_raiseIllegalInsnException :
    (raiseIllegalInsnException pc' insn).Conforms (insnMonitor amo pc mcycle) q ends ↔
      (q = .running ∧ pc' = pc) ∧ ∀ newPc, ends (.raised newPc) (.failure, newPc) := by
  simp [raiseIllegalInsnException]

@[simp] theorem conforms_writeXUnlessZero {rd : Fin 32} {v : Word} {done : Phase → Unit → Prop} :
    (writeXUnlessZero rd v).Conforms (insnMonitor amo pc mcycle) q done ↔
      (rd = 0 → done q ()) ∧ (rd ≠ 0 → (∀ newPc, q ≠ .raised newPc) ∧ done q.retire ()) := by
  unfold writeXUnlessZero
  by_cases h : rd = 0 <;> simp [h]

end Pieces

/-! ## Integer instructions -/

section Integer
variable {insn : Insn} {k : RdKind}

section
variable (hk : k = .xN → getRd insn ≠ 0)
include hk

theorem phased_executeArithmetic {f : Word → Word → Word} : Phased amo pc mcycle (executeArithmetic f k pc insn) := by
  cases k with
  | x0 => simp [Phased, executeArithmetic]
  | xN => simp [Phased, executeArithmetic, hk]

theorem phased_executeArithmeticImmediate {f : Word → BitVec 32 → Word} :
    Phased amo pc mcycle (executeArithmeticImmediate f k pc insn) := by
  cases k with
  | x0 => simp [Phased, executeArithmeticImmediate]
  | xN => simp [Phased, executeArithmeticImmediate, hk]

theorem phased_executeSRAIW : Phased amo pc mcycle (executeSRAIW k pc insn) := by
  cases k with
  | x0 =>
    simp only [executeSRAIW]
    split
    · simp [Phased, advanceToNextInsn]
    · simp [Phased]
  | xN => exact phased_executeArithmeticImmediate hk

theorem phased_executeL {size : MemSize} {extend : Word → Word} :
    Phased amo pc mcycle (executeL size extend k pc mcycle insn) := by
  cases k with
  | x0 => simp [Phased, executeL]
  | xN => simp [Phased, executeL, hk]

end

theorem phased_checkEncoding {expected : BitVec 32} {execute : RdKind → Word → Insn → IProg Outcome}
    (h : Phased amo pc mcycle (execute k pc insn)) :
    Phased amo pc mcycle (checkEncoding expected execute k pc insn) := by
  unfold checkEncoding
  split
  · simp [Phased]
  · exact h

variable {size : MemSize}

theorem phased_executeS : Phased amo pc mcycle (executeS size pc insn) := by
  simp [Phased, executeS]

theorem phased_executeBranch {f : Word → Word → Bool} : Phased amo pc mcycle (executeBranch f pc insn) := by
  simp [Phased, executeBranch]

theorem phased_executeLR {extend : Word → Word} :
    Phased true pc mcycle (executeLR size extend pc mcycle insn) := by
  simp [Phased, executeLR]

theorem phased_executeSC : Phased true pc mcycle (executeSC size pc insn) := by
  simp only [Phased, executeSC, finishSC, advanceToNextInsn, conforms_bind, conforms_ite,
    conforms_readX, conforms_readIlrsc, conforms_store, conforms_writeIlrsc]
  rintro vaddr ilrsc
  refine ⟨fun _ _ => ⟨by simp, ?_⟩, fun _ => by simp⟩
  rintro ⟨status, newPc⟩
  by_cases h : status = .failure <;> simp [h, Phase.ofOutcome]

theorem phased_checkLR {execute : Word → Word → Insn → IProg Outcome}
    (h : Phased amo pc mcycle (execute pc mcycle insn)) : Phased amo pc mcycle (checkLR execute pc mcycle insn) := by
  unfold checkLR
  split
  · simp [Phased]
  · exact h

theorem phased_executeAMO {w : Nat} {f : BitVec w → BitVec w → BitVec w} :
    Phased true pc mcycle (executeAMO size f pc mcycle insn) := by
  simp only [Phased, executeAMO, advanceToNextInsn, conforms_bind, conforms_readX, conforms_load,
    conforms_store]
  refine fun vaddr => ⟨by simp, fun val rs2 => ⟨by simp, ?_⟩, fun newPc => by simp⟩
  rintro ⟨status, newPc⟩
  by_cases h : status = .failure <;> simp [h, Phase.ofOutcome]

/-- A write to a control and status register that failed leaves the instruction free to raise. -/
theorem conforms_finishCsr {csrval : Word} {status : ExecuteStatus} :
    (finishCsr pc insn csrval status).Conforms (insnMonitor amo pc mcycle)
      (if status = .failure then .running else .retired status) Phase.Accepts := by
  unfold finishCsr
  by_cases h : status = .failure <;> simp [h, advanceToNextInsn]

/-- The first operand of an instruction on a control and status register is read without effect. -/
def ReadsOnly (p : IProg Word) : Prop :=
  ∀ (amo : Bool) (pc mcycle : Word) (q : Phase) (post : Phase → Word → Prop), (∀ v, post q v) →
    p.Conforms (insnMonitor amo pc mcycle) q post

theorem readsOnly_readX {r : Fin 32} : ReadsOnly (readX r) := fun _ _ _ _ _ h => ⟨trivial, h⟩

theorem readsOnly_pure {v : Word} : ReadsOnly (pure v) := fun _ _ _ _ _ h => h v

theorem phased_executeCsrRW {rs1val : Insn → IProg Word} (hrs1 : ReadsOnly (rs1val insn)) :
    Phased amo pc mcycle (executeCsrRW rs1val pc mcycle insn) := by
  have hwrite : ∀ csrval, Prog.Conforms (insnMonitor amo pc mcycle) .running (do
      let val ← rs1val insn
      let wstatus ← writeCsr mcycle (getUimmI insn) val
      finishCsr pc insn csrval wstatus) Phase.Accepts := by
    intro csrval
    refine Prog.conforms_bind.mpr (hrs1 _ _ _ _ _ fun v => ?_)
    simp only [conforms_bind, conforms_writeCsr, true_and, and_self]
    exact fun status => conforms_finishCsr
  rw [Phased, executeCsrRW, conforms_bind, conforms_ite]
  refine ⟨fun _ => conforms_readCsr.mpr ⟨⟨rfl, rfl⟩, fun v => ?_⟩, fun _ => hwrite 0⟩
  cases v with
  | none => simp
  | some csrval => exact hwrite csrval

theorem phased_executeCsrSC {rs1val : Insn → IProg Word} {f : Word → Word → Word}
    (hrs1 : ReadsOnly (rs1val insn)) : Phased amo pc mcycle (executeCsrSC rs1val f pc mcycle insn) := by
  simp only [Phased, executeCsrSC, conforms_bind, conforms_readCsr, true_and, and_self]
  intro v
  cases v with
  | none => simp
  | some csrval =>
    refine Prog.conforms_bind.mpr (hrs1 _ _ _ _ _ fun v => ?_)
    simp only [conforms_ite, conforms_bind, conforms_writeCsr, true_and, and_self]
    refine ⟨fun _ status => conforms_finishCsr, fun _ => ?_⟩
    simp [finishCsr, advanceToNextInsn]

theorem phased_executeGroup {members : Nat → Option (RdKind → Word → Insn → IProg Outcome)}
    (h : ∀ n execute, members n = some execute → Phased amo pc mcycle (execute k pc insn)) :
    Phased amo pc mcycle (executeGroup members k pc insn) := by
  unfold executeGroup
  split
  · rename_i execute he
    exact h _ execute he
  · simp [Phased]

end Integer

/-! ## Floating point -/

section Float
variable {insn : Insn} {w : Nat} {p : Precision w}

theorem phased_requireFs {execute : IProg Outcome} (h : Phased amo pc mcycle execute) :
    Phased amo pc mcycle (requireFs pc insn execute) := by
  simp only [Phased, requireFs, conforms_bind, conforms_readMstatus, conforms_ite]
  exact fun _ => ⟨fun _ => by simp, fun _ => h⟩

@[simp] theorem conforms_readOperand {r : Fin 32} {post : Phase → BitVec w → Prop} :
    (readOperand p r).Conforms (insnMonitor amo pc mcycle) q post ↔ ∀ v, post q (p.floatUnbox v) := by
  simp [readOperand]

@[simp] theorem conforms_finishF {fcsr : Word} {r : Flagged (BitVec w)} :
    (finishF p pc insn fcsr r).Conforms (insnMonitor amo pc mcycle) .running Phase.Accepts := by
  simp [finishF]

@[simp] theorem conforms_finishX {fcsr : Word} {r : Flagged Word} :
    (finishX pc insn fcsr r).Conforms (insnMonitor amo pc mcycle) .running Phase.Accepts := by
  simp [finishX]

theorem phased_withRounding {execute : Word → FrmModes → IProg Outcome}
    (h : ∀ fcsr rm, Phased amo pc mcycle (execute fcsr rm)) : Phased amo pc mcycle (withRounding pc insn execute) := by
  simp only [Phased, withRounding, conforms_bind, conforms_readFcsr]
  intro fcsr
  split
  · simp
  · exact h fcsr _

theorem phased_executeFloatTernaryOpRm {f : BitVec w → BitVec w → BitVec w → FrmModes → BitVec 32 →
    Flagged (BitVec w)} : Phased amo pc mcycle (executeFloatTernaryOpRm p f pc insn) :=
  phased_withRounding fun fcsr rm => by simp [Phased]

theorem phased_executeFloatBinaryOpRm {f : BitVec w → BitVec w → FrmModes → BitVec 32 →
    Flagged (BitVec w)} : Phased amo pc mcycle (executeFloatBinaryOpRm p f pc insn) :=
  phased_withRounding fun fcsr rm => by simp [Phased]

theorem phased_executeFloatUnaryOpRm {f : BitVec w → FrmModes → BitVec 32 → Flagged (BitVec w)} :
    Phased amo pc mcycle (executeFloatUnaryOpRm p f pc insn) := by
  simp only [Phased, executeFloatUnaryOpRm, conforms_bind, conforms_readFcsr, conforms_ite]
  refine fun fcsr => ⟨fun _ => by simp, fun _ => ?_⟩
  split <;> simp

theorem phased_executeFloatBinaryOp {f : BitVec w → BitVec w → BitVec 32 → Flagged (BitVec w)} :
    Phased amo pc mcycle (executeFloatBinaryOp p f pc insn) := by
  simp [Phased, executeFloatBinaryOp]

theorem phased_executeFloatCmpOp {f : BitVec w → BitVec w → BitVec 32 → Flagged Bool} :
    Phased amo pc mcycle (executeFloatCmpOp p f pc insn) := by
  simp [Phased, executeFloatCmpOp]

variable {v : Nat}

theorem phased_executeFCVTFF {p' : Precision v} {f : BitVec w → FrmModes → BitVec 32 → Flagged (BitVec v)} :
    Phased amo pc mcycle (executeFCVTFF p p' f pc insn) :=
  phased_withRounding fun fcsr rm => by simp [Phased]

theorem phased_executeFCVTXF {f : BitVec w → FrmModes → BitVec 32 → Flagged (BitVec v)} :
    Phased amo pc mcycle (executeFCVTXF p f pc insn) :=
  phased_withRounding fun fcsr rm => by simp [Phased]

theorem phased_executeFCVTFX {f : BitVec v → FrmModes → BitVec 32 → Flagged (BitVec w)} :
    Phased amo pc mcycle (executeFCVTFX p f pc insn) :=
  phased_withRounding fun fcsr rm => by simp [Phased]

theorem phased_executeFCLASS {f : BitVec w → BitVec 32} : Phased amo pc mcycle (executeFCLASS p f pc insn) := by
  unfold executeFCLASS
  split
  · simp [Phased]
  · rename_i h
    simp [Phased, h]

theorem phased_executeFMVFX : Phased amo pc mcycle (executeFMVFX p pc insn) := by
  unfold executeFMVFX
  split <;> simp [Phased]

theorem phased_executeFMVXF : Phased amo pc mcycle (executeFMVXF v pc insn) := by
  unfold executeFMVXF
  split
  · simp [Phased]
  · rename_i h
    simp [Phased, h]

theorem phased_executeFS : Phased amo pc mcycle (executeFS p pc insn) := by
  simp [Phased, executeFS]

theorem phased_executeFL : Phased amo pc mcycle (executeFL p pc mcycle insn) := by
  simp [Phased, executeFL]

theorem phased_executeFM {s d : Word → Insn → IProg Outcome} (hs : Phased amo pc mcycle (s pc insn))
    (hd : Phased amo pc mcycle (d pc insn)) : Phased amo pc mcycle (executeFM s d pc insn) := by
  refine phased_requireFs ?_
  split
  · exact hs
  · exact hd
  · simp [Phased]

theorem phased_executeFunct3Group {members : Nat → Option (Word → Insn → IProg Outcome)}
    (h : ∀ n execute, members n = some execute → Phased amo pc mcycle (execute pc insn)) :
    Phased amo pc mcycle (executeFunct3Group members pc insn) := by
  unfold executeFunct3Group
  split
  · rename_i execute he
    exact h _ execute he
  · simp [Phased]

variable (fp : SoftFloat)

theorem phased_executeFCVTFMVFCLASS :
    Phased amo pc mcycle (executeFCVTFMVFCLASS fp pc insn) := by
  unfold executeFCVTFMVFCLASS
  split <;> first
    | exact phased_executeFCVTXF
    | exact phased_executeFCVTFX
    | exact phased_executeFCVTFF
    | exact phased_executeFMVFX
    | (refine phased_executeFunct3Group fun n execute he => ?_
       split at he <;> cases he
       · exact phased_executeFMVXF
       · exact phased_executeFCLASS)
    | simp [Phased]

theorem phased_executeFDOp : Phased amo pc mcycle (executeFDOp fp pc insn) := by
  unfold executeFDOp
  split
  case h_17 => exact phased_executeFCVTFMVFCLASS fp
  all_goals first
    | exact phased_executeFloatBinaryOpRm
    | exact phased_executeFloatUnaryOpRm
    | (refine phased_executeFunct3Group fun n execute he => ?_
       split at he <;> cases he <;> first
         | exact phased_executeFloatBinaryOp
         | exact phased_executeFloatCmpOp)

end Float

/-! ## Compressed instructions -/

section Compressed
variable {insn : Insn} {rd rs1 rs2 : Fin 32} {imm : BitVec 32} {w : Nat}
  {p : Precision w}

theorem phased_executeCL {size : MemSize} {extend : Word → Word} (hrd : rd ≠ 0) :
    Phased amo pc mcycle (executeCL size extend pc mcycle rd rs1 imm) := by
  simp [Phased, executeCL, hrd]

theorem phased_executeCS {size : MemSize} : Phased amo pc mcycle (executeCS size pc rs2 rs1 imm) := by
  simp [Phased, executeCS]

theorem phased_executeCFL : Phased amo pc mcycle (executeCFL p pc mcycle rd rs1 imm) := by
  simp [Phased, executeCFL]

theorem phased_executeCFS : Phased amo pc mcycle (executeCFS p pc rs2 rs1 imm) := by
  simp [Phased, executeCFS]

theorem phased_executeCArithmetic {f : Word → Word → Word} (hrd : rd ≠ 0) :
    Phased amo pc mcycle (executeCArithmetic rd rs2 f pc) := by
  simp [Phased, executeCArithmetic, hrd]

theorem phased_executeCImmediate {f : Word → Word} (hrd : rd ≠ 0) :
    Phased amo pc mcycle (executeCImmediate rd f pc) := by
  simp [Phased, executeCImmediate, hrd]

theorem phased_executeCBranch {taken : Word → Bool} : Phased amo pc mcycle (executeCBranch taken pc insn) := by
  simp [Phased, executeCBranch]

/-- The registers that three bits name are those from `x8` on. -/
theorem regOf_or_eight_ne_zero (v : BitVec 32) : regOf (v ||| 8) ≠ 0 := by
  intro h
  have hbit : (v.toNat ||| 8).testBit 3 = true := by
    rw [Nat.testBit_or, show Nat.testBit 8 3 = true from rfl, Bool.or_true]
  have h0 : (v ||| 8).toNat % 2 ^ 5 = 0 := congrArg Fin.val h
  have hbit' := Nat.testBit_mod_two_pow (v.toNat ||| 8) 5 3
  rw [show v.toNat ||| 8 = (v ||| 8).toNat from rfl] at hbit hbit'
  rw [h0, hbit] at hbit'
  simp at hbit'

theorem getCIWCLRdCSCARs2_ne_zero : getCIWCLRdCSCARs2 insn ≠ 0 := regOf_or_eight_ne_zero _

theorem getCLCSCACBRs1_ne_zero : getCLCSCACBRs1 insn ≠ 0 := regOf_or_eight_ne_zero _

end Compressed

end Insn

/-! ## The destination register -/

namespace InsnLabel

/-- The handler writes the register of the `rd` field without a look at it. -/
def writesRd : InsnLabel → Bool
  | .LUI k | .AUIPC k | .JAL k | .JALR k | .LB k | .LH k | .LW k | .LBU k | .LHU k | .ADDI k | .SLTI k
  | .SLTIU k | .XORI k | .ORI k | .ANDI k | .SLLI k | .SRLISRAI k | .ADDMULSUB k | .SLLMULH k
  | .SLTMULHSU k | .SLTUMULHU k | .XORDIV k | .SRLDIVUSRA k | .ORREM k | .ANDREMU k | .LWU k | .LD k
  | .ADDIW k | .SLLIW k | .SRLIWSRAIW k | .ADDWMULWSUBW k | .SLLW k | .SRLWDIVUWSRAW k | .DIVW k
  | .REMW k | .REMUW k => k = .xN
  | .CADDI | .CADDIW | .CLI | .CLUI | .CSLLI | .CLWSP | .CLDSP | .CMV | .CADD => true
  | _ => false

theorem writesRd_decode32 (opcode funct3 : Nat) : (decode32 opcode funct3 .x0).writesRd = false := by
  unfold decode32
  split <;> first
    | rfl
    | (split <;> rfl)

theorem writesRd_decodeC0 (index : BitVec 16) : (decodeC0 index).writesRd = false := by
  unfold decodeC0
  split <;> first
    | rfl
    | (split <;> rfl)

theorem writesRd_decodeC1Arithmetic (index : BitVec 16) : (decodeC1Arithmetic index).writesRd = false := by
  unfold decodeC1Arithmetic
  split <;> first
    | rfl
    | (split <;> rfl)

variable {index : BitVec 16}

theorem writesRd_decodeC1 (h : field index 7 5 = 0) : (decodeC1 index).writesRd = false := by
  unfold decodeC1
  simp only [h, if_true]
  split <;> first
    | rfl
    | exact writesRd_decodeC1Arithmetic index
    | (split <;> rfl)

theorem writesRd_decodeC2 (h : field index 7 5 = 0) : (decodeC2 index).writesRd = false := by
  unfold decodeC2
  simp only [h, if_true, ne_eq, not_true_eq_false, and_false, if_false]
  split <;> first
    | rfl
    | (split <;> first
        | rfl
        | (split <;> rfl))

/-- The jump table sends an instruction with destination `x0` to a handler that does not write it. -/
theorem writesRd_decode (h : (decode index).writesRd = true) : field index 7 5 ≠ 0 := by
  intro h0
  have hfalse : (decode index).writesRd = false := by
    unfold decode
    split
    · exact writesRd_decodeC0 index
    · exact writesRd_decodeC1 h0
    · exact writesRd_decodeC2 h0
    · rw [if_pos h0]
      exact writesRd_decode32 _ _
  rw [hfalse] at h
  cases h

/-- The `rd` field lies within the low half of an instruction. -/
theorem getRd_val (insn : Insn) : (Insn.getRd insn).val = field (insn.setWidth 16) 7 5 := by
  simp only [Insn.getRd, Insn.regOf, field, Fin.ofNat, BitVec.toNat_and, BitVec.toNat_ushiftRight,
    BitVec.toNat_setWidth, Nat.shiftRight_eq_div_pow]
  rw [show BitVec.toNat (31 : BitVec 32) = 2 ^ 5 - 1 from rfl, Nat.and_two_pow_sub_one_eq_mod]
  omega

theorem getRd_ne_zero {insn : Insn} (h : (decode (insn.setWidth 16)).writesRd = true) :
    Insn.getRd insn ≠ 0 := by
  intro h0
  refine writesRd_decode h ?_
  rw [← getRd_val, h0]
  rfl

end InsnLabel

/-! ## Dispatch -/

/-- The label of read-modify-writes, which load-reserved and store-conditional share. -/
def InsnLabel.isAmo : InsnLabel → Bool
  | .AMOW | .AMOD => true
  | _ => false

/-- The instruction may be a read-modify-write. -/
def isAmo (insn : Insn) : Bool := (InsnLabel.decode (insn.setWidth 16)).isAmo

open Insn in
theorem phased_execute (fp : SoftFloat) {pc : Word} (mcycle : Word) {insn : Insn} (label : InsnLabel)
    (hrd : label.writesRd = true → getRd insn ≠ 0) :
    Phased label.isAmo pc mcycle (label.execute fp pc mcycle insn) := by
  unfold InsnLabel.execute
  cases label with
  | LUI k | AUIPC k | JAL k | JALR k =>
    have hk : k = .xN → getRd insn ≠ 0 := fun hk => hrd (decide_eq_true hk)
    cases k <;> simp [Phased, executeLUI, executeAUIPC, executeJAL, executeJALR, hk]
  | BEQ | BNE | BLT | BGE | BLTU | BGEU =>
    exact phased_executeBranch
  | LB k | LH k | LW k | LBU k | LHU k | LWU k | LD k =>
    exact phased_executeL fun hk => hrd (decide_eq_true hk)
  | SB | SH | SW | SD =>
    exact phased_executeS
  | ADDI k | SLTI k | SLTIU k | XORI k | ORI k | ANDI k | ADDIW k =>
    exact phased_executeArithmeticImmediate fun hk => hrd (decide_eq_true hk)
  | SLLI k | SLLIW k | SRLISRAI k | SRLIWSRAIW k =>
    have hk : k = .xN → getRd insn ≠ 0 := fun hk => hrd (decide_eq_true hk)
    simp only [executeSLLI, executeSLLIW, executeSRLISRAI, executeSRLIWSRAIW]
    split <;> first
      | exact phased_executeArithmeticImmediate hk
      | exact phased_executeSRAIW hk
      | simp [Phased]
  | SLLW k | DIVW k | REMW k | REMUW k =>
    exact phased_checkEncoding (phased_executeArithmetic fun hk => hrd (decide_eq_true hk))
  | ADDMULSUB k | SLLMULH k | SLTMULHSU k | SLTUMULHU k | XORDIV k | SRLDIVUSRA k | ORREM k
  | ANDREMU k | ADDWMULWSUBW k | SRLWDIVUWSRAW k =>
    refine phased_executeGroup fun n execute he => ?_
    split at he <;> cases he <;> exact phased_executeArithmetic fun hk => hrd (decide_eq_true hk)
  | FENCE | FENCEI =>
    simp [Phased, executeFENCE, executeFENCEI]
  | AMOW | AMOD =>
    simp only [executeAMOW, executeAMOD]
    split <;> first
      | exact phased_executeAMO
      | exact phased_checkLR phased_executeLR
      | exact phased_executeSC
      | simp [Phased]
  | FLW | FLD =>
    exact phased_requireFs phased_executeFL
  | FSW | FSD =>
    exact phased_requireFs phased_executeFS
  | FMADD | FMSUB | FNMSUB | FNMADD =>
    exact phased_executeFM phased_executeFloatTernaryOpRm phased_executeFloatTernaryOpRm
  | FD => exact phased_requireFs (phased_executeFDOp fp)
  | CSRRW => exact phased_executeCsrRW readsOnly_readX
  | CSRRWI => exact phased_executeCsrRW readsOnly_pure
  | CSRRS | CSRRC =>
    exact phased_executeCsrSC readsOnly_readX
  | CSRRSI | CSRRCI =>
    exact phased_executeCsrSC readsOnly_pure
  | CADDI4SPN => simp [Phased, executeCADDI4SPN, getCIWCLRdCSCARs2_ne_zero]
  | CFLD | CFLDSP =>
    exact phased_requireFs phased_executeCFL
  | CLW | CLD =>
    exact phased_executeCL getCIWCLRdCSCARs2_ne_zero
  | CLWSP | CLDSP =>
    exact phased_executeCL (hrd rfl)
  | CFSD | CFSDSP =>
    exact phased_requireFs phased_executeCFS
  | CSW | CSD | CSWSP | CSDSP =>
    exact phased_executeCS
  | CHINT | CNOP =>
    simp [Phased, executeCNOP]
  | CADDI | CADDIW | CSLLI =>
    exact phased_executeCImmediate (hrd rfl)
  | CLI | CLUI | CMV =>
    simp [Phased, executeCLI, executeCLUI, executeCMV, hrd rfl]
  | CADDI16SP => exact phased_executeCImmediate (by decide)
  | CSRLI | CSRAI | CANDI =>
    exact phased_executeCImmediate getCLCSCACBRs1_ne_zero
  | CSUB | CXOR | COR | CAND | CSUBW | CADDW =>
    exact phased_executeCArithmetic getCLCSCACBRs1_ne_zero
  | CADD => exact phased_executeCArithmetic (hrd rfl)
  | CBEQZ | CBNEZ =>
    exact phased_executeCBranch
  | CJ | CJR | CEBREAK =>
    simp [Phased, executeCJ, executeCJR, executeCEBREAK]
  | CJALR => simp [Phased, executeCJALR, ra]
  | PRIVILEGED | ILLEGAL =>
    simp [Phased]

/-- The instruction that waits for interrupts. -/
def wfiInsn : Insn := 0x10500073

/-- Every instruction but `WFI` leaves the cycle counter alone and keeps to the monitor. -/
theorem executeInsn_cases (fp : SoftFloat) (pc mcycle : Word) (insn : Insn) :
    (insn = wfiInsn ∧ executeInsn fp pc mcycle insn = Insn.wfi pc mcycle insn) ∨
      ∃ p, executeInsn fp pc mcycle insn = Insn.withMcycle mcycle p ∧ Phased (isAmo insn) pc mcycle p := by
  unfold executeInsn
  split
  · unfold Insn.executePrivileged
    split_ifs with h1 h2 h3 h4 h5
    · exact .inr ⟨_, rfl, by simp [Phased, Insn.executeECALL]⟩
    · exact .inr ⟨_, rfl, by simp [Phased, Insn.executeEBREAK]⟩
    · exact .inr ⟨_, rfl, by simp [Phased]⟩
    · exact .inr ⟨_, rfl, by simp [Phased]⟩
    · exact .inl ⟨h5, rfl⟩
    · refine .inr ⟨_, rfl, ?_⟩
      unfold Insn.executeSFENCEVMA
      split <;> simp [Phased]
  · exact .inr ⟨_, rfl, phased_execute fp mcycle _ InsnLabel.getRd_ne_zero⟩

section Atomics
variable {fp : SoftFloat} {insn : Insn}

theorem isAmo_cases (h : isAmo insn = true) : InsnLabel.decode (insn.setWidth 16) = .AMOW ∨
    InsnLabel.decode (insn.setWidth 16) = .AMOD := by
  unfold isAmo InsnLabel.isAmo at h
  split at h
  · exact .inl ‹_›
  · exact .inr ‹_›
  · cases h

theorem executeInsn_AMOW (h : InsnLabel.decode (insn.setWidth 16) = .AMOW) (pc mcycle : Word) :
    executeInsn fp pc mcycle insn = Insn.withMcycle mcycle (Insn.executeAMOW pc mcycle insn) := by
  unfold executeInsn
  rw [h]
  rfl

theorem executeInsn_AMOD (h : InsnLabel.decode (insn.setWidth 16) = .AMOD) (pc mcycle : Word) :
    executeInsn fp pc mcycle insn = Insn.withMcycle mcycle (Insn.executeAMOD pc mcycle insn) := by
  unfold executeInsn
  rw [h]
  rfl

end Atomics

end MachineEmulator.Interpret
