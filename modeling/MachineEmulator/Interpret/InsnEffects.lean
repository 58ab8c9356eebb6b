import MachineEmulator.Interpret.AccessEffects
import MachineEmulator.Interpret.CsrEffects
import MachineEmulator.Interpret.Phases

/-!
# Invariants of instructions

`InsnInvariantOn` lists what an invariant of the phases of an instruction has to be kept by: the effects of
the operations that instructions are made of. `InsnInvariantOn.wlp_executeInsn` concludes for every
instruction but `WFI`.
-/

namespace MachineEmulator.Interpret

open Insn

variable {fuel : Nat} {m : RunState}

/-- The operations of instructions on a machine. -/
def insnAccess (fuel : Nat) : Handler InsnSig Fault RunState := fun o => (service o).run (stateAccess fuel)

abbrev IProg.exec {α : Type} (p : IProg α) (fuel : Nat) : RunM α := p.run (insnAccess fuel)

theorem run_access {α : Type} (p : IProg α) : p.access.run (stateAccess fuel) = p.run (insnAccess fuel) :=
  Prog.run_translate (S := InsnSig) (T := AccessSig) service (stateAccess fuel) p

section Operations
variable {post : Post Word} {done : Unit → RunState → Prop}

theorem wlp_insnReadX {reg : Fin 32} :
    Wlp ((readX reg).exec fuel) post m ↔ post (m.s.regs (.x reg)) m :=
  wlp_perform.trans wlp_read

theorem wlp_insnReadIlrsc : Wlp (readIlrsc.exec fuel) post m ↔ post (m.s.regs .ilrsc) m :=
  wlp_perform.trans wlp_read

variable {v pc : Word}

theorem wlp_insnWriteX {reg : Fin 32} :
    Wlp ((writeX reg v).exec fuel) done m ↔ done () (m.writeReg (.x reg) v) :=
  wlp_perform.trans wlp_write

theorem wlp_insnWriteIlrsc :
    Wlp ((writeIlrsc v).exec fuel) done m ↔ done () (m.writeReg .ilrsc v) :=
  wlp_perform.trans wlp_write

theorem wlp_insnWriteXUnlessZero {rd : Fin 32} (hzero : done () m) (hwrite : done () (m.writeReg (.x rd) v)) :
    Wlp ((writeXUnlessZero rd v).exec fuel) done m := by
  unfold writeXUnlessZero
  split
  · exact wlp_pure.mpr hzero
  · exact wlp_insnWriteX.mpr hwrite

theorem wlp_insnLoad {size : MemSize} {raiseStore : Bool} {mcycle vaddr : Word}
    {post : Post LoadResult} (h : ∀ r m', LoadEffect m size pc vaddr r m' → post r m') :
    Wlp ((load size raiseStore pc mcycle vaddr).exec fuel) post m :=
  wlp_perform.mpr (wlp_readVirtualMemory h)

theorem wlp_insnStore {size : MemSize} {vaddr val : Word} {post : Post StoreResult}
    (h : ∀ r m', StoreEffect m size pc vaddr val r m' → post r m') :
    Wlp ((store size pc vaddr val).exec fuel) post m :=
  wlp_perform.mpr (wlp_writeVirtualMemory h)

theorem wlp_insnRaiseIllegal {insn : Insn} {post : Post Outcome} (h : m.Illegal pc insn post) :
    Wlp ((raiseIllegalInsnException pc insn).exec fuel) post m := by
  simp only [raiseIllegalInsnException, wlp_run_bind, wlp_run_pure]
  exact wlp_perform.mpr (wlp_raiseException h)

end Operations

/-- The registers that instructions write themselves. -/
inductive InsnWrites : Reg → Prop
  | x {i : Fin 32} (h : i ≠ 0) : InsnWrites (.x i)
  | f (i : Fin 32) : InsnWrites (.f i)
  | fcsr : InsnWrites .fcsr
  | ilrsc : InsnWrites .ilrsc

/-- The operation that writes one of these registers. -/
def writeOp : Reg → Word → InsnOp
  | .x i, v => .writeX i v
  | .f i, v => .writeF i v
  | .fcsr, v => .writeFcsr v
  | _, v => .writeIlrsc v

def Phase.ofLoad : LoadResult → Phase
  | .ok _ => .loaded
  | .error newPc => .raised newPc

/-- The phase after a write of a control and status register. -/
def Phase.ofCsr (status : ExecuteStatus) : Phase :=
  if status = .failure then .running else .retired status

/-- Each effect of an operation leads from the invariant of its phase to that of the next. `C` is known
of the outcomes of writes, loads and stores. -/
structure InsnInvariantOn (C : (o : InsnOp) → RunState → o.Ans → RunState → Prop) (amo : Bool) (pc : Word)
    (I : Phase → RunState → Prop) : Prop where
  write : ∀ {q m r v x}, C (writeOp r v) m x (m.writeReg r v) → (∀ newPc, q ≠ .raised newPc) →
    InsnWrites r → I q m → I q.retire (m.writeReg r v)
  load : ∀ {m size raiseStore mcycle vaddr r m'},
    C (.readVirtualMemory size raiseStore pc mcycle vaddr) m r m' → I .running m →
    LoadEffect m size pc vaddr r m' → I (.ofLoad r) m'
  store : ∀ {q m size vaddr val r m'}, C (.writeVirtualMemory size pc vaddr val) m r m' →
    q.CanStore amo → I q m → StoreEffect m size pc vaddr val r m' → I (.ofOutcome r) m'
  csr : ∀ {m mcycle csraddr val status m'}, C (.writeCsr mcycle csraddr val) m status m' → I .running m →
    CsrWriteEffect m status m' → I (.ofCsr status) m'
  raise : ∀ {m cause tval d}, I .running m →
    I (.raised (trapVector m.s.regs cause)) (m.trapped pc cause tval d)
  sret : ∀ {m d}, I .running m → prvS ≤ m.s.regs .iprv → I (.retired .successAndServeInterrupts)
    (m.returned (mstatusSret (m.s.regs .mstatus)) (mstatusSpp (m.s.regs .mstatus)) d)
  mret : ∀ {m d}, I .running m → prvM ≤ m.s.regs .iprv → I (.retired .successAndServeInterrupts)
    (m.returned (mstatusMret (m.s.regs .mstatus)) (mstatusMpp (m.s.regs .mstatus)) d)
  sfence : ∀ {m d}, I .running m → I (.retired .successAndFlushFetch)
    (m.withState { m.s with tlb := emptiedTlb m.s.tlb, dirty := d })

/-- The same for invariants that need not know anything. -/
abbrev InsnInvariant (amo : Bool) (pc : Word) (I : Phase → RunState → Prop) : Prop :=
  InsnInvariantOn (fun _ _ _ _ => True) amo pc I

theorem wlp_getSoftYield {post : Post Bool} :
    Wlp (getSoftYield.exec fuel) post m ↔ post m.s.softYield m :=
  (wlp_op (o := .getSoftYield)).trans (wlp_query_ok (f := fun m : RunState => m.s.softYield))

variable {pc mcycle : Word} {I : Phase → RunState → Prop}

theorem InsnInvariantOn.kept {C : (o : InsnOp) → RunState → o.Ans → RunState → Prop} {amo : Bool}
    (h : InsnInvariantOn C amo pc I) :
    (insnMonitor amo pc mcycle).KeptOn (insnAccess fuel) C I := by
  intro q o m x m' ho hC hI hx
  -- by the rule of each operation, with the invariant of the next phase as its postcondition
  suffices hop : Wlp (insnAccess fuel o)
      (fun y m1 => C o m y m1 → I ((insnMonitor amo pc mcycle).next q o y) m1) m from hop x m' hx hC
  cases o with
  | readX | readF | readFcsr | readIlrsc | readIprv | readMstatus => exact wlp_read.mpr fun _ => hI
  | getSoftYield => exact wlp_getSoftYield.mpr fun _ => hI
  | writeX reg val => exact wlp_write.mpr fun hC => h.write (r := .x reg) hC ho.2 (.x ho.1) hI
  | writeF reg val => exact wlp_write.mpr fun hC => h.write (r := .f reg) hC ho (.f _) hI
  | writeFcsr val => exact wlp_write.mpr fun hC => h.write (r := .fcsr) hC ho .fcsr hI
  | writeIlrsc val => exact wlp_write.mpr fun hC => h.write (r := .ilrsc) hC ho.2 .ilrsc hI
  | readVirtualMemory size raiseStore pc' mcycle vaddr =>
    obtain ⟨rfl, rfl⟩ := ho
    refine wlp_readVirtualMemory fun r m' hr hC => ?_
    have hI' := h.load hC hI hr
    cases r <;> exact hI'
  | writeVirtualMemory size pc' vaddr val =>
    obtain ⟨hq, rfl⟩ := ho
    exact wlp_writeVirtualMemory fun r m' hr hC => h.store hC hq hI hr
  | readCsr mcycle csraddr => exact wlp_readCsr fun _ _ => hI
  | writeCsr mcycle csraddr val =>
    obtain ⟨rfl, rfl⟩ := ho
    exact wlp_writeCsr fun status m' hs hC => h.csr hC hI hs
  | raiseException pc' cause tval =>
    obtain ⟨rfl, rfl⟩ := ho
    exact wlp_raiseException fun d _ => h.raise hI
  | sret pc' insn =>
    obtain ⟨rfl, rfl⟩ := ho
    exact wlp_executeSRET (fun d _ => h.raise hI) fun hprv d _ => h.sret hI hprv
  | mret pc' insn =>
    obtain ⟨rfl, rfl⟩ := ho
    exact wlp_executeMRET (fun d _ => h.raise hI) fun hprv d _ => h.mret hI hprv
  | sfenceVma pc' insn rs1 =>
    obtain ⟨rfl, rfl⟩ := ho
    exact wlp_executeSfenceVma (fun d _ => h.raise hI) fun d _ => h.sfence hI
  | wfi pc' mcycle insn => exact ho.elim

/-- Every instruction but `WFI` leads from the invariant of the first phase to that of a phase that its
outcome tells. -/
theorem InsnInvariantOn.wlp_executeInsn {C : (o : InsnOp) → RunState → o.Ans → RunState → Prop} {insn : Insn}
    (h : InsnInvariantOn C (isAmo insn) pc I) (fp : SoftFloat) {post : Post (Outcome × Word)} (hI : I .running m)
    (hwfi : insn = wfiInsn → Wlp ((executeWFI pc mcycle insn).exec fuel) post m)
    (hpost : ∀ q outcome m', I q m' → q.Accepts outcome → post (outcome, mcycle) m')
    (hC : ∀ o m1 x m2, (executeInsn fp pc mcycle insn).Asked (insnAccess fuel) m o m1 →
      insnAccess fuel o m1 = .ok x m2 → C o m1 x m2 := by exact fun _ _ _ _ _ _ => trivial) :
    Wlp ((executeInsn fp pc mcycle insn).access.exec fuel) post m := by
  rw [AProg.exec, run_access]
  obtain ⟨heq, hwfi'⟩ | ⟨p, hp, hphased⟩ := executeInsn_cases fp pc mcycle insn
  · rw [hwfi']
    exact wlp_perform.mpr (hwfi heq)
  · rw [hp] at hC ⊢
    rw [withMcycle, wlp_run_bind]
    intro outcome m' hm'
    obtain ⟨q, hI', hq⟩ := hphased.run_of_asked h.kept
      (fun o m1 x m2 ho => hC o m1 x m2 ho.bind_left) hI hm'
    exact wlp_pure.mpr (hpost q outcome m' hI' hq)

end MachineEmulator.Interpret
