import MachineEmulator.Create
import MachineEmulator.Lib.Commit
import MachineEmulator.Uarch.Rv64i

/-!
# Steps that fail

What a step that throws leaves behind. The assertions of the bridge are off, as in a release build, so that the
update of an entry of the TLB can throw between its two assignments. A `require` of the step throws, as its
Solidity counterpart does; where it is compiled out as well, a misaligned store is not refused and can also end in
such an update.

* `writeRegisterCall`, `stateAccessCall` : the write of a register and the accessor, with the state that a failure
  leaves behind. On success they are `writeRegister` and `stateAccess`;
* `commits_uarchStep` : all questions of a step come before its first change, and nothing after that change can fail;
* `pendingWrite` : the word that the store at the program counter writes;
* `TornWrite` : the write of a page to an entry of the TLB whose physical page is in no memory range;
* `atomicOnFailure_uarchStep_iff` : a step that fails has changed nothing, unless it is such a write.
-/

namespace MachineEmulator.UarchBridge

/-- Write a word of the TLB. The page of an entry is set before the memory of its physical page is looked up. -/
def writeTlbEntryField (i : Nat) (val : Word) (s : MachineState) : EStateM.Result String MachineState Bool :=
  let set := tlbWordSet i
  let index := tlbWordIndex i
  let e := s.tlb set index
  if hostTlbWord i then .ok false s
  else if i < 1536 then
    let s1 := s.setTlb set index { e with vaddrPage := val }
    if val = tlbInvalidPage then .ok true s1
    else if (findPmaEntry s.board.pmas e.paddrPage 8).istartM then
      .ok true (s.setTlb set index { e with vaddrPage := val, vhOffset := .board (e.paddrPage - val) })
    else .error "std::get: wrong index for variant" s1
  else if i % 2 = 0 then .ok true (s.setTlb set index { e with paddrPage := val })
  else .ok true (s.setTlb set index { e with pmaIndex := val })

def tryWriteTlbCall (paddr val : Word) : EStateM String MachineState Bool :=
  match tlbWordAt paddr with
  | none => pure false
  | some i => writeTlbEntryField i val

def writeRegisterCall (paddr val : Word) : EStateM String MachineState Unit :=
  match (shadowRegAt paddr).bind writable with
  | some r => modify fun s => s.writeReg r val
  | none => do
    if ← tryWriteTlbCall paddr val then pure ()
    else throw "invalid write memory access from microarchitecture"

/-- A page for an entry of the TLB that gets it, though the physical page of the entry is in no memory range. -/
def TornWrite (s : MachineState) (paddr val : Word) : Prop :=
  ∃ i, tlbWordAt paddr = some i ∧ i < 1536 ∧ i % 2 = 0 ∧ val ≠ tlbInvalidPage ∧
    (findPmaEntry s.board.pmas (s.tlb (tlbWordSet i) (tlbWordIndex i)).paddrPage 8).istartM = false ∧
    val ≠ (s.tlb (tlbWordSet i) (tlbWordIndex i)).vaddrPage

variable {paddr val : Word} {i : Nat} {s : MachineState}

theorem shadowRegAt_of_tlbWordAt (h : tlbWordAt paddr = some i) : shadowRegAt paddr = none := by
  obtain ⟨hp, -⟩ := tlbWordAt_eq_some h
  cases hr : shadowRegAt paddr with
  | none => rfl
  | some r =>
    obtain ⟨k, hk, -, hle⟩ := shadowRegAt_eq_some hr
    have h1 : pmaShadowStateLength.toNat = 0x1000 := rfl
    have h2 : pmaShadowTlbStart.toNat = 0x20000 := rfl
    omega

theorem setTlb_vaddrPage_eq_iff (s : MachineState) (t : TlbSet) (i : Fin 256) (val : Word) :
    s.setTlb t i { s.tlb t i with vaddrPage := val } = s ↔ val = (s.tlb t i).vaddrPage := by
  constructor
  · intro h
    have hentry := congrArg (fun s : MachineState => (s.tlb t i).vaddrPage) h
    simpa [tlb_setTlb] using hentry
  · rintro rfl
    simp [MachineState.setTlb]

theorem writeRegisterCall_of_tlbWordAt (h : tlbWordAt paddr = some i) : writeRegisterCall paddr val s =
      match writeTlbEntryField i val s with
      | .ok true s' => .ok () s'
      | .ok false s' => .error "invalid write memory access from microarchitecture" s'
      | .error e s' => .error e s' := by
  rw [writeRegisterCall, shadowRegAt_of_tlbWordAt h]
  show (tryWriteTlbCall paddr val >>= _) s = _
  rw [tryWriteTlbCall, h]
  cases hw : writeTlbEntryField i val s with
  | error e s' => exact EStateM.bind_of_error hw
  | ok done s' =>
    rw [EStateM.bind_of_ok hw]
    cases done <;> rfl

theorem writeTlbEntryField_error_iff {s' : MachineState} {e : String} :
    writeTlbEntryField i val s = .error e s' ↔ (i < 1536 ∧ i % 2 = 0 ∧ val ≠ tlbInvalidPage ∧
      (findPmaEntry s.board.pmas (s.tlb (tlbWordSet i) (tlbWordIndex i)).paddrPage 8).istartM = false) ∧
      e = "std::get: wrong index for variant" ∧ s' = s.setTlb (tlbWordSet i) (tlbWordIndex i)
        { s.tlb (tlbWordSet i) (tlbWordIndex i) with vaddrPage := val } := by
  have hhost : hostTlbWord i = true ↔ i < 1536 ∧ i % 2 = 1 := by simp [hostTlbWord]
  unfold writeTlbEntryField
  dsimp only
  constructor
  · intro hfail
    split_ifs at hfail with h1 h2 h3 h4 h5
    cases hfail
    rw [hhost] at h1
    exact ⟨⟨h2, by omega, h3, Bool.eq_false_of_not_eq_true h4⟩, rfl, rfl⟩
  · rintro ⟨⟨h1, h2, hval, hpma⟩, rfl, rfl⟩
    rw [if_neg (by rw [hhost]; omega), if_pos h1, if_neg hval, if_neg (by rw [hpma]; decide)]

theorem writeTlbEntryField_false {s' : MachineState}
    (h : writeTlbEntryField i val s = .ok false s') : s' = s := by
  unfold writeTlbEntryField at h
  dsimp only at h
  split_ifs at h <;> cases h
  rfl

theorem atomicOnFailure_writeRegisterCall_iff :
    AtomicOnFailure (writeRegisterCall paddr val) s ↔ ¬ TornWrite s paddr val := by
  cases ht : tlbWordAt paddr with
  | none =>
    refine iff_of_true (fun e s' hfail => ?_) fun ⟨i, hi, _⟩ => by rw [ht] at hi; cases hi
    unfold writeRegisterCall tryWriteTlbCall at hfail
    rw [ht] at hfail
    cases hr : (shadowRegAt paddr).bind writable with
    | some r =>
      rw [hr] at hfail
      cases hfail
    | none =>
      rw [hr] at hfail
      cases hfail
      rfl
  | some i =>
    unfold AtomicOnFailure TornWrite
    rw [writeRegisterCall_of_tlbWordAt ht, ht]
    simp only [Option.some.injEq, exists_eq_left']
    constructor
    · rintro hatomic ⟨h1, h2, hval, hpma, hne⟩
      have hfail := writeTlbEntryField_error_iff.mpr ⟨⟨h1, h2, hval, hpma⟩, rfl, rfl⟩
      rw [hfail] at hatomic
      exact hne ((setTlb_vaddrPage_eq_iff s _ _ val).mp (hatomic _ _ rfl))
    · intro htorn e s' hfail
      cases hw : writeTlbEntryField i val s with
      | error e' s1 =>
        rw [hw] at hfail
        cases hfail
        obtain ⟨⟨h1, h2, hval, hpma⟩, -, rfl⟩ := writeTlbEntryField_error_iff.mp hw
        rw [setTlb_vaddrPage_eq_iff]
        by_contra hne
        exact htorn ⟨h1, h2, hval, hpma, hne⟩
      | ok done s1 =>
        rw [hw] at hfail
        cases done with
        | true => cases hfail
        | false =>
          cases hfail
          exact writeTlbEntryField_false hw

end MachineEmulator.UarchBridge

namespace MachineEmulator.Uarch

open Prog

variable {H : Type}

def doWriteWordCall (paddr val : Word) (m : Machine H) : EStateM.Result String (Machine H) Unit :=
  let pma := findMemoryPmaEntry m.s.board paddr 8
  if pma.entry.istartE then
    match UarchBridge.writeRegisterCall paddr val m.s with
    | .ok _ s => .ok () { m with s }
    | .error e s => .error e { m with s }
  else if !pma.entry.flags.W then .error "pma is not writable" m
  else .ok () (markDirty (setHostWord m pma paddr val) pma paddr)

/-- The accessor that works on the machine itself, and what its failures leave behind. -/
def stateAccessCall : Handler UarchSig String (Machine H)
  | .writeWord paddr val => doWriteWordCall paddr val
  | o => stateAccess o

/-! ## Questions and changes -/

/-- The operations that keep the machine as it is. -/
def Question : UarchOp → Prop
  | .readX _ | .readPc | .readCycle | .readHaltFlag | .readWord _ | .putChar _ | .fail _ => True
  | .writeX _ _ | .writePc _ | .writeCycle _ | .setHaltFlag | .writeWord _ _ => False

instance : DecidablePred Question
  | .readX _ | .readPc | .readCycle | .readHaltFlag | .readWord _ | .putChar _ | .fail _ => .isTrue trivial
  | .writeX _ _ | .writePc _ | .writeCycle _ | .setHaltFlag | .writeWord _ _ => .isFalse id

def Certain : UarchOp → Prop
  | .writeX reg _ => reg ≠ 0
  | .readWord _ | .writeWord _ _ | .fail _ => False
  | .readX _ | .readPc | .readCycle | .readHaltFlag | .putChar _ | .writePc _ | .writeCycle _ | .setHaltFlag => True

theorem keepsState_of_question {o : UarchOp} (ho : Question o) : KeepsState (stateAccessCall (H := H) o) := by
  cases o with
  | readX reg => exact keepsState_query (ε := String) (σ := Machine H) fun m => .ok (m.uarch.x.get reg)
  | readPc => exact keepsState_query (ε := String) (σ := Machine H) fun m => .ok m.uarch.pc
  | readCycle => exact keepsState_query (ε := String) (σ := Machine H) fun m => .ok m.uarch.cycle
  | readHaltFlag => exact keepsState_query (ε := String) (σ := Machine H) fun m => .ok m.uarch.haltFlag
  | readWord paddr => exact keepsState_query (ε := String) (σ := Machine H) fun m => doReadWord m paddr
  | putChar c => exact fun s => ⟨fun _ _ h => (EStateM.pure_ok_iff.mp h).2.symm, fun _ _ h => by cases h⟩
  | fail message => exact keepsState_query (ε := String) (σ := Machine H) fun _ => .error message
  | _ => exact ho.elim

theorem ne_error_of_certain {o : UarchOp} (ho : Certain o) (m : Machine H) (e : String) (m' : Machine H) :
    stateAccessCall o m ≠ .error e m' := by
  cases o with
  | writeX reg val =>
    have hok : EStateM.update (fun m : Machine H => doWriteX m reg val) m =
        .ok () (setUarch m { m.uarch with x := m.uarch.x.set reg ho val }) :=
      EStateM.update_ok_iff.mpr (dif_pos ho)
    intro h
    cases hok.symm.trans h
  | readWord paddr => exact ho.elim
  | writeWord paddr val => exact ho.elim
  | fail message => exact ho.elim
  | _ => exact fun h => by cases h

/-! ## The steps -/

section
variable {insn : Insn} {pc : Word}

theorem certain_advancePc (pc : Word) : Asks Certain (advancePc pc) := Asks.perform (S := UarchSig) trivial

theorem certain_writeXUnlessZero (rd : Fin 32) (val : Word) : Asks Certain (writeXUnlessZero rd val) :=
  Asks.ite (fun h => Asks.perform (S := UarchSig) h) fun _ => Asks.pure ()

theorem certain_readX (reg : Fin 32) : Asks Certain (readX reg) := Asks.perform (S := UarchSig) trivial

theorem question_readX (reg : Fin 32) : Asks Question (readX reg) := Asks.perform (S := UarchSig) trivial

theorem question_throwRuntimeError {α : Type} (message : String) : Asks Question (throwRuntimeError (α := α) message) :=
  ⟨trivial, fun x => x.elim⟩

theorem question_require (c : Bool) (message : String) : Asks Question (require c message) :=
  Asks.ite (fun _ => Asks.pure ()) fun _ => question_throwRuntimeError message

theorem question_readUint64 (paddr : Word) : Asks Question (readUint64 paddr) :=
  (question_require _ _).bind fun _ => Asks.perform (S := UarchSig) trivial

theorem question_readUint32 (paddr : Word) : Asks Question (readUint32 paddr) :=
  (question_require _ _).bind fun _ => (question_readUint64 _).bind fun _ => Asks.pure _

variable {C : UarchOp → Prop}

theorem commits_writeUint64 (hword : ∀ a v, C (.writeWord a v)) (paddr val : Word) :
    Commits Question C Certain (writeUint64 paddr val) :=
  .asks_bind (question_require _ _) fun _ => Commits.perform (S := UarchSig) (hword _ _)

theorem commits_writeBits (hword : ∀ a v, C (.writeWord a v)) (count : Nat) (paddr : Word) (val : BitVec 32) :
    Commits Question C Certain (writeBits count paddr val) :=
  .asks_bind (question_readUint64 _) fun _ =>
    .asks_bind ((question_require _ _).bind fun _ => Asks.pure _) fun _ => commits_writeUint64 hword _ _

variable (hC : ∀ o, Certain o → C o)
include hC

theorem commits_executeLoad {w : Nat} {read : Word → UProg (BitVec w)} (f : BitVec w → Word)
    (hread : ∀ a, Asks Question (read a)) : Commits Question C Certain (executeLoad read f insn pc) :=
  .asks_bind (question_readX _) fun _ => .asks_bind (hread _) fun _ =>
    .of_asks hC ((certain_writeXUnlessZero _ _).bind fun _ => certain_advancePc pc)

theorem commits_executeStore {w : Nat} {write : Word → BitVec w → UProg Unit}
    (hwrite : ∀ a v, Commits Question C Certain (write a v)) :
    Commits Question C Certain (executeStore write insn pc) :=
  .asks_bind (question_readX _) fun _ => .asks_bind (question_readX _) fun _ =>
    (hwrite _ _).bind_asks hC fun _ => certain_advancePc pc

theorem commits_executeECALL : Commits Question C Certain (executeECALL pc) := by
  refine .asks_bind (question_readX _) fun fn => .ite (fun _ => Commits.perform (S := UarchSig) (hC _ trivial))
    fun _ => .ite (fun _ => ?_) fun _ => ?_
  · exact .of_asks hC ((certain_readX _).bind fun _ => (Asks.perform (S := UarchSig) trivial).bind fun _ =>
      certain_advancePc pc)
  · exact .asks_bind (question_throwRuntimeError _) fun _ => .of_asks hC (certain_advancePc pc)

/-- An instruction asks its questions first, then makes one change, and then those that cannot fail. Only a store writes
a word. -/
theorem commits_families (hword : ∀ f3 : BitVec 32, f3.toNat < 4 → insnMatchOpcodeFunct3 insn 0x23 f3 = true →
    ∀ a v, C (.writeWord a v)) : Families (Commits Question C Certain) insn pc where
  imm _ _ := .of_asks hC (Asks.ite (fun h => (certain_readX _).bind fun _ =>
    (Asks.perform (S := UarchSig) h).bind fun _ => certain_advancePc pc) fun _ => certain_advancePc pc)
  immW _ _ := .of_asks hC ((certain_readX _).bind fun _ => (certain_writeXUnlessZero _ _).bind fun _ =>
    certain_advancePc pc)
  reg _ := .of_asks hC (Asks.ite (fun h => (certain_readX _).bind fun _ => (certain_readX _).bind fun _ =>
    (Asks.perform (S := UarchSig) h).bind fun _ => certain_advancePc pc) fun _ => certain_advancePc pc)
  regW _ := .of_asks hC ((certain_readX _).bind fun _ => (certain_readX _).bind fun _ =>
    (certain_writeXUnlessZero _ _).bind fun _ => certain_advancePc pc)
  branch _ := .of_asks hC ((certain_readX _).bind fun _ => (certain_readX _).bind fun _ =>
    Asks.ite (fun _ => Asks.perform (S := UarchSig) trivial) fun _ => certain_advancePc pc)
  load8 f := commits_executeLoad hC f fun _ => (question_readUint64 _).bind fun _ => Asks.pure _
  load16 f := commits_executeLoad hC f fun _ => (question_require _ _).bind fun _ =>
    (question_readUint64 _).bind fun _ => Asks.pure _
  load32 f := commits_executeLoad hC f question_readUint32
  load64 f := commits_executeLoad hC f question_readUint64
  store8 h := commits_executeStore hC fun _ _ => commits_writeBits (hword _ (by decide) h) _ _ _
  store16 h := commits_executeStore hC fun _ _ => .asks_bind (question_require _ _) fun _ =>
    commits_writeBits (hword _ (by decide) h) _ _ _
  store32 h := commits_executeStore hC fun _ _ => .asks_bind (question_require _ _) fun _ =>
    commits_writeBits (hword _ (by decide) h) _ _ _
  store64 h := commits_executeStore hC (commits_writeUint64 (hword _ (by decide) h))
  lui := .of_asks hC ((certain_writeXUnlessZero _ _).bind fun _ => certain_advancePc pc)
  auipc := .of_asks hC ((certain_writeXUnlessZero _ _).bind fun _ => certain_advancePc pc)
  jal := .of_asks hC ((certain_writeXUnlessZero _ _).bind fun _ => Asks.perform (S := UarchSig) trivial)
  jalr := .of_asks hC ((certain_readX _).bind fun _ => (certain_writeXUnlessZero _ _).bind fun _ =>
    Asks.perform (S := UarchSig) trivial)
  fence := .of_asks hC (certain_advancePc pc)
  ecall := commits_executeECALL hC
  ebreak := .inl ⟨trivial, fun x => x.elim⟩
  illegal := .inl ⟨trivial, fun x => x.elim⟩

/-- The instruction and what `uarchStep` does after it. -/
theorem commits_retire (hword : ∀ f3 : BitVec 32, f3.toNat < 4 → insnMatchOpcodeFunct3 insn 0x23 f3 = true →
    ∀ a v, C (.writeWord a v)) (cycle : Word) :
    Commits Question C Certain (do executeInsn insn pc; writeCycle cycle; return UarchStepStatus.success) :=
  (commits_families hC hword).executeInsn.bind_asks hC fun _ =>
    (Asks.perform (S := UarchSig) trivial).bind fun _ => Asks.pure _

end

/-- A step asks its questions first, then makes one change that may fail, and then those that cannot. -/
theorem commits_uarchStep : Commits Question (fun _ => True) Certain uarchStep :=
  .asks_bind (Asks.perform (S := UarchSig) trivial) fun (cycle : Word) => .ite (fun _ => trivial) fun _ =>
    .asks_bind (Asks.perform (S := UarchSig) trivial) fun (_ : Bool) => .ite (fun _ => trivial) fun _ =>
    .asks_bind (Asks.perform (S := UarchSig) trivial) fun pc => .asks_bind (question_readUint32 pc) fun _ =>
    commits_retire (fun _ _ => trivial) (fun _ _ _ _ _ => trivial) (cycle + 1)

/-! ## The word that a store writes -/

section
variable (m : Machine H)

/-- Word `old` with `count` bits of it replaced. -/
def replaceBits (src : BitVec 32) (count : Nat) (old : Word) (offset : Nat) : Word :=
  let eraseMask : Word := (1 <<< (count % 64)) - 1
  (src.setWidth 64 <<< (offset % 64)) ||| (old &&& ~~~(eraseMask <<< (offset % 64)))

/-- The word in which `count` bits at `paddr` lie, with these bits replaced. -/
def wordWithBits (count : Nat) (paddr : Word) (val : BitVec 32) : Option (Word × Word) :=
  if bitoffset paddr + count ≤ 64 then
    (doReadWord m (paddr &&& ~~~7)).toOption.map fun (old : Word) =>
      (paddr &&& ~~~7, replaceBits val count old (bitoffset paddr))
  else none

/-- The address and the value of the word that a store writes. -/
def storedWord (insn : Insn) : Option (Word × Word) :=
  let paddr := uint64AddInt32 (m.uarch.x.get (operandRs1 insn)) (operandSimm12 insn)
  let val := m.uarch.x.get (operandRs2 insn)
  if insnMatchOpcodeFunct3 insn 0x23 0x0 then wordWithBits m 8 paddr ((val.setWidth 8).setWidth 32)
  else if insnMatchOpcodeFunct3 insn 0x23 0x1 then
    if paddr &&& 1 == 0 then wordWithBits m 16 paddr ((val.setWidth 16).setWidth 32) else none
  else if insnMatchOpcodeFunct3 insn 0x23 0x2 then
    if paddr &&& 3 == 0 then wordWithBits m 32 paddr (val.setWidth 32) else none
  else if insnMatchOpcodeFunct3 insn 0x23 0x3 then if paddr &&& 7 == 0 then some (paddr, val) else none
  else none

/-- The instruction at an address. -/
def insnAt (pc : Word) : Option Insn :=
  if pc &&& 3 = 0 then
    (doReadWord m (pc &&& ~~~7)).toOption.map fun (val64 : Word) => (val64 >>> bitoffset pc).setWidth 32
  else none

/-- The word that the next step writes: it is not at the last cycle, not halted, and has a store at the program
counter. -/
def pendingWrite : Option (Word × Word) :=
  if m.uarch.cycle = -1 ∨ m.uarch.haltFlag = true then none
  else (insnAt m m.uarch.pc).bind (storedWord m)

/-- The first change that a program asks for. -/
abbrev change {α : Type} (p : UProg α) : Option UarchOp := p.commit stateAccessCall Question m

variable {m} {α : Type} {paddr : Word} {f : Unit → UProg α}

theorem change_require {c : Bool} {message : String} :
    change m (require c message >>= f) = if c then change m (f ()) else none := by
  cases c <;> rfl

theorem change_writeWord {val : Word} : change m (writeWord paddr val >>= f) = some (.writeWord paddr val) :=
  commit_of_not (S := UarchSig) id

theorem change_readUint64 {f : Word → UProg α} : change m (readUint64 paddr >>= f) =
    if paddr &&& 7 == 0 then (doReadWord m paddr).toOption.bind fun val => change m (f val) else none := by
  rw [readUint64, bind_assoc, change_require]
  congr 1
  cases hread : doReadWord m paddr with
  | ok val =>
    have hok : stateAccessCall (.readWord paddr) m = .ok val m :=
      (EStateM.query_ok_iff (f := (doReadWord · paddr))).mpr ⟨hread, rfl⟩
    exact commit_of_ok (S := UarchSig) trivial hok
  | error e =>
    have herr : stateAccessCall (.readWord paddr) m = .error e m :=
      (EStateM.query_error_iff (f := (doReadWord · paddr))).mpr ⟨hread, rfl⟩
    exact commit_of_error (S := UarchSig) trivial herr

theorem and_not_7_and_7 (paddr : Word) : paddr &&& ~~~7 &&& 7 = 0 := by
  rw [BitVec.and_assoc]
  exact BitVec.and_zero

theorem change_readUint32 {pc : Word} {f : Insn → UProg α} :
    change m (readUint32 pc >>= f) = (insnAt m pc).bind fun insn => change m (f insn) := by
  rw [readUint32, bind_assoc, change_require, insnAt]
  by_cases h : pc &&& 3 = 0
  · simp only [h, beq_self_eq_true, if_true, bind_assoc, change_readUint64, and_not_7_and_7, Option.bind_map]
    rfl
  · rw [if_neg (by simpa using h), if_neg h]
    rfl

theorem change_writeBits {count : Nat} {val : BitVec 32} : change m (writeBits count paddr val >>= f) =
    (wordWithBits m count paddr val).map fun w => .writeWord w.1 w.2 := by
  rw [writeBits, bind_assoc, change_readUint64, if_pos (by rw [and_not_7_and_7]; rfl), wordWithBits]
  cases doReadWord m (paddr &&& ~~~7) with
  | error e =>
    split_ifs <;> rfl
  | ok old =>
    simp only [copyBits, writeUint64, bind_assoc, change_require, Except.toOption, Option.bind_some, pure_bind,
      and_not_7_and_7, beq_self_eq_true, if_true, decide_eq_true_eq]
    split_ifs
    · exact change_writeWord
    · rfl

theorem change_executeStore {w : Nat} {write : Word → BitVec w → UProg Unit} {insn : Insn} {pc : Word} :
    change m (executeStore write insn pc >>= f) =
      change m (write (uint64AddInt32 (m.uarch.x.get (operandRs1 insn)) (operandSimm12 insn))
        ((m.uarch.x.get (operandRs2 insn)).setWidth w) >>= fun _ => advancePc pc >>= f) := by
  rw [← bind_assoc]
  rfl

open Rv64i (opcode funct3 funct6 funct7)

theorem change_executeInsn_store {insn : Insn} (hop : opcode insn = 0x23) (hf3 : funct3 insn < 4) (pc : Word) :
    change m (executeInsn insn pc >>= f) = (storedWord m insn).map fun w => .writeWord w.1 w.2 := by
  rw [executeInsn, decodeTable, storedWord]
  simp (disch := decide) only [insnMatchOpcode_eq, insnMatchOpcodeFunct3_eq, insnMatchOpcodeFunct3Funct7_eq,
    insnMatchOpcodeFunct3Funct7Sr1_eq, hop]
  generalize funct3 insn = f3, funct7 insn = f7, funct6 insn = f6 at *
  interval_cases f3
  · show change m (executeStore writeUint8 insn pc >>= f) = Option.map _ (wordWithBits m 8 _ _)
    rw [change_executeStore, writeUint8, change_writeBits]
  · show change m (executeStore writeUint16 insn pc >>= f) = Option.map _ (if _ then wordWithBits m 16 _ _ else none)
    rw [change_executeStore, writeUint16, bind_assoc, change_require, change_writeBits, apply_ite (Option.map _)]
    rfl
  · show change m (executeStore writeUint32 insn pc >>= f) = Option.map _ (if _ then wordWithBits m 32 _ _ else none)
    rw [change_executeStore, writeUint32, bind_assoc, change_require, change_writeBits, apply_ite (Option.map _)]
    rfl
  · show change m (executeStore writeUint64 insn pc >>= f) = Option.map _ (if _ then some _ else none)
    rw [change_executeStore, writeUint64, bind_assoc, change_require, change_writeWord, apply_ite (Option.map _),
      BitVec.setWidth_eq]
    rfl

theorem change_retire (insn : Insn) (pc cycle val : Word) :
    change m (do executeInsn insn pc; writeCycle cycle; return UarchStepStatus.success) = some (.writeWord paddr val) ↔
      storedWord m insn = some (paddr, val) := by
  by_cases hop : opcode insn = 0x23 ∧ funct3 insn < 4
  · rw [change_executeInsn_store hop.1 hop.2]
    cases storedWord m insn <;> simp [Prod.ext_iff]
  · have htest (f3 : BitVec 32) (hf3 : f3.toNat < 4) : insnMatchOpcodeFunct3 insn 0x23 f3 = false := by
      rw [insnMatchOpcodeFunct3_eq insn (by decide) (by omega), Bool.eq_false_iff]
      intro h
      obtain ⟨hop', hf3'⟩ := Bool.and_eq_true_iff.mp h
      exact hop ⟨eq_of_beq hop', (eq_of_beq hf3').trans_lt hf3⟩
    refine iff_of_false (fun hchange => ?_) (fun hstore => ?_)
    · refine Commits.of_commit (C := Certain) (fun _ => id) (commits_retire (fun _ => id) ?_ cycle) hchange
      intro f3 hf3 h
      rw [htest f3 hf3] at h
      cases h
    · simp only [storedWord, htest 0x0 (by decide), htest 0x1 (by decide), htest 0x2 (by decide),
        htest 0x3 (by decide), Bool.false_eq_true, if_false, reduceCtorEq] at hstore

theorem pendingWrite_eq_some_iff {val : Word} :
    pendingWrite m = some (paddr, val) ↔ change m uarchStep = some (.writeWord paddr val) := by
  have hstep : change m uarchStep = if m.uarch.cycle = -1 then none else if m.uarch.haltFlag then none else
      change m (readUint32 m.uarch.pc >>= fun insn => do
        executeInsn insn m.uarch.pc; writeCycle (m.uarch.cycle + 1); return UarchStepStatus.success) := by
    have hcycle (f : Word → UProg UarchStepStatus) : change m (readCycle >>= f) = change m (f m.uarch.cycle) := rfl
    have hhalt (f : Bool → UProg UarchStepStatus) : change m (readHaltFlag >>= f) = change m (f m.uarch.haltFlag) := rfl
    rw [uarchStep, hcycle, apply_ite (change m), hhalt, apply_ite (change m)]
    rfl
  rw [hstep, pendingWrite, ite_or]
  split_ifs
  · simp
  · simp
  · rw [change_readUint32, Option.bind_eq_some_iff, Option.bind_eq_some_iff]
    simp only [change_retire]

end

/-! ## Failures of a step -/

variable {paddr : Word}

theorem istartE_of_tlbWordAt (b : Board) {i : Nat} (h : UarchBridge.tlbWordAt paddr = some i) :
    (findMemoryPmaEntry b paddr 8).entry.istartE = true := by
  obtain ⟨hp, hi⟩ := UarchBridge.tlbWordAt_eq_some h
  have h1 : pmaShadowTlbStart.toNat = 0x20000 := rfl
  have h2 : pmaShadowTlbLength.toNat = 0x6000 := rfl
  have h3 : uarchRamPma.start.toNat = 0x600000 := rfl
  have hram : uarchRamPma.contains paddr 8 ≠ true := fun hc => by
    obtain ⟨hle, -⟩ := contains_mem hc 0 (by decide)
    omega
  rw [findMemoryPmaEntry, if_neg hram]
  rcases findMemoryPma_board b paddr 8 with ⟨hmem, hdata, hc⟩ | ⟨he, -⟩
  · obtain ⟨k, hk⟩ := b.exists_mem (p := shadowTlbPma) (by simp [MachineConfig.pmas])
    have htlb : PmaEntry.Mem { shadowTlbPma with index := k } paddr.toNat :=
      ⟨show pmaShadowTlbStart.toNat ≤ _ by omega, show _ < pmaShadowTlbStart.toNat + pmaShadowTlbLength.toNat by omega⟩
    have hne : findMemoryPma b.pmas paddr 8 ≠ { shadowTlbPma with index := k } := fun heq => by
      rw [heq] at hdata
      cases hdata
    exact absurd htlb ((b.disjoint hmem hk hne).not_mem (contains_mem hc 0 (by decide)))
  · exact he

/-- A write of a word that fails after it has changed something. -/
theorem atomicOnFailure_doWriteWordCall_iff {m : Machine H} {val : Word} :
    AtomicOnFailure (doWriteWordCall paddr val) m ↔ ¬ UarchBridge.TornWrite m.s paddr val := by
  unfold AtomicOnFailure doWriteWordCall
  by_cases hE : (findMemoryPmaEntry m.s.board paddr 8).entry.istartE = true
  · rw [if_pos hE, ← UarchBridge.atomicOnFailure_writeRegisterCall_iff]
    unfold AtomicOnFailure
    cases UarchBridge.writeRegisterCall paddr val m.s with
    | ok _ s => exact ⟨fun _ _ _ h => (by cases h), fun _ _ _ h => (by cases h)⟩
    | error e s =>
      refine ⟨fun hatomic e' s' h => ?_, fun hatomic e' m' h => ?_⟩
      · cases h
        exact congrArg Machine.s (hatomic _ _ rfl)
      · cases h
        rw [hatomic _ _ rfl]
  · rw [if_neg hE]
    refine iff_of_true (fun e m' h => ?_) fun ⟨i, hi, _⟩ => hE (istartE_of_tlbWordAt _ hi)
    split_ifs at h
    cases h
    rfl

/-- A step that fails leaves the whole machine as it was, exactly if it is not about to write a page to an entry of the
TLB whose physical page is in no memory range. -/
theorem atomicOnFailure_uarchStep_iff (m : Machine H) : AtomicOnFailure (uarchStep.run stateAccessCall) m ↔
      ∀ paddr val, pendingWrite m = some (paddr, val) → ¬ UarchBridge.TornWrite m.s paddr val := by
  rw [commits_uarchStep.atomicOnFailure_iff (fun _ => keepsState_of_question) fun _ => ne_error_of_certain]
  constructor
  · intro hatomic paddr val hwrite
    exact atomicOnFailure_doWriteWordCall_iff.mp (hatomic _ (pendingWrite_eq_some_iff.mp hwrite))
  · intro htorn o hcommit
    cases o with
    | writeWord paddr val =>
      exact atomicOnFailure_doWriteWordCall_iff.mpr (htorn paddr val (pendingWrite_eq_some_iff.mpr hcommit))
    | writeX reg val => exact atomicOnFailure_update (fun m => doWriteX m reg val) m
    | writePc val => exact fun e m' h => absurd h (ne_error_of_certain (by trivial) m e m')
    | writeCycle val => exact fun e m' h => absurd h (ne_error_of_certain (by trivial) m e m')
    | setHaltFlag => exact fun e m' h => absurd h (ne_error_of_certain (by trivial) m e m')
    | _ => exact (keepsState_of_question (by trivial) m).2

/-- A machine whose microarchitecture is about to run `sd x0, 0(x1)`, with the address of the first entry of the TLB in
`x1`. -/
def sdMachine : Machine FreeHash :=
  let m := Machine.new FreeHash smallBoard
    { uarchRam := writeBytes (fun _ => 0) pmaUarchRamStart.toNat [0x23, 0xb0, 0x00, 0x00] }
  setUarch m { m.uarch with x := m.uarch.x.set 1 x1_ne_x0 pmaShadowTlbStart }

theorem uarchStep_torn : ∃ e m', uarchStep.run stateAccessCall sdMachine = .error e m' ∧
    (sdMachine.s.tlb .code 0).vaddrPage = tlbInvalidPage ∧ (m'.s.tlb .code 0).vaddrPage = 0 := by
  have hrun : (match uarchStep.run stateAccessCall sdMachine with
      | .error _ m' => some (m'.s.tlb .code 0).vaddrPage
      | .ok _ _ => none) = some 0 := by
    decide
  cases hstep : uarchStep.run stateAccessCall sdMachine with
  | ok status m' =>
    rw [hstep] at hrun
    cases hrun
  | error e m' =>
    rw [hstep] at hrun
    exact ⟨e, m', rfl, rfl, Option.some.inj hrun⟩

end MachineEmulator.Uarch
