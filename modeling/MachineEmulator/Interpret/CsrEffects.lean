import MachineEmulator.Interpret.DeviceEffects
import MachineEmulator.Interpret.Privileged

/-!
# What writes of control registers and returns from traps do to a machine

* `CsrWriteEffect` : the outcomes of a write to a control and status register;
* `RunState.returned` : the machine after a return from a trap;
* `wlp_executeSRET`, `wlp_executeMRET`, `wlp_executeWFI`, `wlp_executeSfenceVma` : the privileged
  instructions.
-/

namespace MachineEmulator.Interpret

variable {fuel : Nat} {m : RunState}

/-! ## mstatus -/

def newMstatus (regs : Reg → Word) (val : Word) : Word :=
  mstatusWritten (regs .mstatus &&& mstatusRMask) val

/-- The bits of `mstatus` that a write changes. -/
def mstatusMod (regs : Reg → Word) (val : Word) : Word :=
  (regs .mstatus &&& mstatusRMask) ^^^ newMstatus regs val

/-- The write changes what loads and stores are allowed to do. -/
def flushesReadWrite (regs : Reg → Word) (val : Word) : Prop :=
  mstatusMod regs val &&& mstatusSumMask ≠ 0 ∨ mstatusMod regs val &&& mstatusMprvMask ≠ 0 ∨
    (newMstatus regs val &&& mstatusMprvMask ≠ 0 ∧ mstatusMod regs val &&& mstatusMppMask ≠ 0)

instance (regs : Reg → Word) (val : Word) : Decidable (flushesReadWrite regs val) :=
  inferInstanceAs (Decidable (_ ∨ _))

/-- The TLB after a write to `mstatus`. -/
def mstatusTlb (s : MachineState) (val : Word) : TlbSet → Fin 256 → TlbEntry :=
  if flushesReadWrite s.regs val then flushedTlb (flushedTlb s.tlb .read) .write
  else if mstatusMod s.regs val &&& mstatusMxrMask ≠ 0 then flushedTlb s.tlb .read
  else s.tlb

/-- The machine after a write to `mstatus`, with the dirty page map `d`. -/
def RunState.mstatusSet (m : RunState) (val : Word) (d : Nat → Bool) : RunState :=
  m.withState { m.s with
    regs := Function.update m.s.regs .mstatus (newMstatus m.s.regs val)
    tlb := mstatusTlb m.s val, dirty := d }

/-- The status of a write to `mstatus`. -/
def mstatusStatus (regs : Reg → Word) (val : Word) : ExecuteStatus :=
  if mstatusMod regs val &&& (mstatusSieMask ||| mstatusMieMask) ≠ 0 then .successAndServeInterrupts
  else .success

variable {val mcycle pc : Word} {post : Post ExecuteStatus} {r : Reg} {csraddr : CsrAddress}
  {insn : Insn}

theorem wlp_writeCsrMstatus (h : ∀ d, post (mstatusStatus m.s.regs val) (m.mstatusSet val d)) :
    Wlp ((writeCsrMstatus val).exec fuel) post m := by
  have hend : ∀ m', post (mstatusStatus m.s.regs val) m' →
      (mstatusMod m.s.regs val &&& (mstatusSieMask ||| mstatusMieMask) ≠ 0 →
        post .successAndServeInterrupts m') ∧
      (¬ mstatusMod m.s.regs val &&& (mstatusSieMask ||| mstatusMieMask) ≠ 0 → post .success m') := by
    intro m' hm'
    unfold mstatusStatus at hm'
    exact ⟨fun hs => by rwa [if_pos hs] at hm', fun hs => by rwa [if_neg hs] at hm'⟩
  unfold RunState.mstatusSet mstatusTlb at h
  simp only [writeCsrMstatus, wlp_run_bind, wlp_read, wlp_write, wlp_run_ite,
    wlp_run_pure]
  refine ⟨fun hR => wlp_flushTlbType fun d => ⟨fun hRW => wlp_flushTlbType fun d' => hend _ ?_,
    fun hRW => hend _ ?_⟩, fun hR => ⟨fun hRW => (hR (.inr hRW)).elim, fun hRW => hend _ ?_⟩⟩
  · have hflush : flushesReadWrite m.s.regs val := of_decide_eq_true hRW
    simp only [if_pos hflush] at h
    exact h d'
  · have hflush : ¬ flushesReadWrite m.s.regs val := fun hf => hRW (decide_eq_true hf)
    have hmxr : mstatusMod m.s.regs val &&& mstatusMxrMask ≠ 0 := hR.resolve_right hRW
    simp only [if_neg hflush, if_pos hmxr] at h
    exact h d
  · have hflush : ¬ flushesReadWrite m.s.regs val := fun hf => hRW (decide_eq_true hf)
    have hmxr : ¬ mstatusMod m.s.regs val &&& mstatusMxrMask ≠ 0 := fun hm => hR (.inl hm)
    simp only [if_neg hflush, if_neg hmxr] at h
    exact h m.s.dirty

/-! ## Writes -/

/-- The registers that a write just stores to. -/
def plainCsrRegs : List Reg :=
  [.senvcfg, .stvec, .scounteren, .sscratch, .sepc, .scause, .stval, .menvcfg, .medeleg, .mtvec,
    .mcounteren, .mscratch, .mepc, .mcause, .mtval, .icycleinstret]

/-- The registers that hold addresses of instructions. -/
def codeAddressRegs : List Reg := [.stvec, .sepc, .mtvec, .mepc]

/-- The parts of `satp` that tell address spaces apart. -/
def satpContext (satp : Word) : Word := satp &&& (satpAsidMask ||| satpModeMask)

/-- The interrupts that guests may request and delegate. -/
def supervisorIrqMask (regs : Reg → Word) : Word := mipSupervisorMask ||| regs .mideleg

theorem supervisorIrqMask_eq {regs : Reg → Word} (h : regs .mideleg &&& ~~~mipSupervisorMask = 0) :
    supervisorIrqMask regs = mipSupervisorMask := by
  refine BitVec.eq_of_getLsbD_eq fun i hi => ?_
  have hbit : (regs .mideleg &&& ~~~mipSupervisorMask).getLsbD i = false := by rw [h]; simp
  rw [BitVec.getLsbD_and, BitVec.getLsbD_not, decide_eq_true hi, Bool.true_and] at hbit
  rw [supervisorIrqMask, BitVec.getLsbD_or]
  cases hs : mipSupervisorMask.getLsbD i with
  | true => rfl
  | false => simpa [hs] using hbit

/-- A masked write leaves alone what is outside of a larger mask. -/
theorem maskedWrite_and_not {old mask mask' : Word} (h : mask &&& mask' = mask) :
    maskedWrite old val mask &&& ~~~mask' = old &&& ~~~mask' := by
  rw [← h, maskedWrite]
  ext i hi
  simp only [BitVec.getElem_and, BitVec.getElem_or, BitVec.getElem_not]
  cases mask[i] <;> cases mask'[i] <;> simp

/-- The outcomes of a write to a control and status register. All but the floating-point ones belong to
supervisor or machine mode. -/
inductive CsrWriteEffect (m : RunState) : ExecuteStatus → RunState → Prop
  | refused : CsrWriteEffect m .failure m
  | ignored : CsrWriteEffect m .success m
  | fcsr (v : Word) : CsrWriteEffect m .success (m.writeReg .fcsr v)
  | plain {r : Reg} {v : Word} (hprv : prvS ≤ m.s.regs .iprv) (hr : r ∈ plainCsrRegs)
    (heven : r ∈ codeAddressRegs → v &&& 1 = 0) : CsrWriteEffect m .success (m.writeReg r v)
  | interrupts {r : Reg} {v : Word} (hprv : prvS ≤ m.s.regs .iprv) (hr : r ∈ [Reg.mie, .mip, .mideleg])
    (hkept : r ≠ .mie →
      v &&& ~~~supervisorIrqMask m.s.regs = m.s.regs r &&& ~~~supervisorIrqMask m.s.regs) :
    CsrWriteEffect m .successAndServeInterrupts (m.writeReg r v)
  | satp {v : Word} (hprv : prvS ≤ m.s.regs .iprv) (hctx : satpContext v = satpContext (m.s.regs .satp)) :
    CsrWriteEffect m .success (m.writeReg .satp v)
  | satpFlush {v : Word} {d : Nat → Bool} (hprv : prvS ≤ m.s.regs .iprv) :
    CsrWriteEffect m .successAndFlushFetch (m.withState { m.s with
      regs := Function.update m.s.regs .satp v, tlb := emptiedTlb m.s.tlb, dirty := d })
  | mstatus {val : Word} {d : Nat → Bool} (hprv : prvS ≤ m.s.regs .iprv) :
    CsrWriteEffect m (mstatusStatus m.s.regs val) (m.mstatusSet val d)

/-- The registers behind the control and status registers that can be written. -/
def csrRegs : List Reg := [.fcsr, .mie, .mip, .mideleg, .satp, .mstatus] ++ plainCsrRegs

theorem CsrWriteEffect.regs {status : ExecuteStatus} {m' : RunState} (h : CsrWriteEffect m status m')
    (hr : r ∉ csrRegs) : m'.s.regs r = m.s.regs r := by
  have hne : ∀ {r' : Reg}, r' ∈ csrRegs → r ≠ r' := by
    rintro r' hr' rfl
    exact hr hr'
  cases h with
  | refused | ignored => rfl
  | fcsr | satp | satpFlush | mstatus => exact Function.update_of_ne (hne (by decide)) _ _
  | plain hprv hr' => exact Function.update_of_ne (hne (List.mem_append_right _ hr')) _ _
  | interrupts hprv hr' =>
    have hsub : ∀ r' ∈ [Reg.mie, .mip, .mideleg], r' ∈ csrRegs := by decide
    exact Function.update_of_ne (hne (hsub _ hr')) _ _

theorem CsrWriteEffect.eq_of_failure {status : ExecuteStatus} {m' : RunState}
    (h : CsrWriteEffect m status m') (hs : status = .failure) : m' = m := by
  cases h with
  | refused | ignored => rfl
  | fcsr | plain | interrupts | satp | satpFlush => cases hs
  | mstatus =>
    unfold mstatusStatus at hs
    split_ifs at hs

/-- The registers that do not belong to supervisor or machine mode. -/
def Csr.isUser : Csr → Bool
  | .fflags | .frm | .fcsr | .ucycle | .utime | .uinstret | .hardwired => true
  | _ => false

theorem prvS_le_csrPrv {csr : Csr} (h : csrAt csraddr = some csr)
    (hcsr : csr.isUser = false) : prvS ≤ csrPrv csraddr := by
  have hval : csraddr = BitVec.ofNat 12 csraddr.toNat := by simp
  unfold csrAt at h
  split at h
  all_goals
    first
    | -- the ranges of registers that read as zero
      split at h <;> cases h
      exact absurd hcsr (by decide)
    | cases h
      first
      | exact absurd hcsr (by decide)
      | rename_i hn
        rw [hn] at hval
        rw [hval]
        decide

theorem wlp_writeCsrSatp
    (hprv : prvS ≤ m.s.regs .iprv) (h : ∀ status m', CsrWriteEffect m status m' → post status m') :
    Wlp ((writeCsrSatp val).exec fuel) post m := by
  simp only [writeCsrSatp, wlp_run_bind, wlp_read, wlp_write, wlp_run_ite,
    wlp_run_pure]
  refine ⟨fun _ => h _ _ .refused, fun _ => ⟨fun _ => ⟨fun _ => wlp_flushAllTlb fun d =>
    h _ _ (.satpFlush hprv), fun hsame => h _ _ (.satp hprv ?_)⟩, fun _ => h _ _ .ignored⟩⟩
  exact (Bits.xor_and_eq_zero_iff.mp (not_not.mp hsame)).symm

theorem wlp_writeCsrFp {f : AProg Word} (hf : ∀ {post : Post Word}, (∀ v, post v m) →
    Wlp (f.exec fuel) post m) (h : ∀ status m', CsrWriteEffect m status m' → post status m') :
    Wlp ((writeCsrFp f).exec fuel) post m := by
  simp only [writeCsrFp, wlp_run_bind, wlp_read, wlp_write, wlp_run_ite,
    wlp_run_pure]
  exact ⟨fun _ => h _ _ .refused, fun _ => hf fun v => h _ _ (.fcsr v)⟩

/-- The privilege level allows a write to a register that belongs to it. -/
theorem wlp_writeCsrOf {csr : Csr} (hprv : csr.isUser = false → prvS ≤ m.s.regs .iprv)
    (h : ∀ status m', CsrWriteEffect m status m' → post status m') :
    Wlp ((writeCsrOf mcycle val csr).exec fuel) post m := by
  have hnot : ∀ v : Word, (v &&& ~~~1) &&& 1 = 0 := fun v => Bits.and_not_and_self v 1
  cases csr
  case fflags | frm =>
    refine wlp_writeCsrFp (fun hpost => ?_) h
    simp only [wlp_run_bind, wlp_read, wlp_run_pure]
    exact hpost _
  case fcsr => exact wlp_writeCsrFp (fun hpost => wlp_pure.mpr (hpost _)) h
  case sstatus =>
    simp only [writeCsrOf, writeCsrSstatus, wlp_run_bind, wlp_read]
    exact wlp_writeCsrMstatus fun d => h _ _ (.mstatus (hprv rfl))
  case mstatus => exact wlp_writeCsrMstatus fun d => h _ _ (.mstatus (hprv rfl))
  case satp => exact wlp_writeCsrSatp (hprv rfl) h
  case mie | sie =>
    simp only [writeCsrOf, writeCsrInterrupts, writeCsrSie, wlp_run_bind, wlp_read, wlp_write,
      wlp_run_pure]
    exact h _ _ (.interrupts (hprv rfl) (by decide) fun hne => absurd rfl hne)
  case mip | mideleg =>
    simp only [writeCsrOf, writeCsrInterrupts, wlp_run_bind, wlp_read, wlp_write, wlp_run_pure]
    exact h _ _ (.interrupts (hprv rfl) (by decide) fun _ => maskedWrite_and_not (Bits.and_or_self_left _ _))
  case sip =>
    simp only [writeCsrOf, writeCsrSip, wlp_run_bind, wlp_read, wlp_write, wlp_run_pure]
    exact h _ _ (.interrupts (hprv rfl) (by decide) fun _ => maskedWrite_and_not (Bits.and_or_self_right _ _))
  case mcycle | ucycle | utime | uinstret | mvendorid | marchid | mimpid =>
    exact wlp_pure.mpr (h _ _ .refused)
  case misa | hardwired => exact wlp_pure.mpr (h _ _ .ignored)
  case stvec | sepc | mtvec | mepc =>
    simp only [writeCsrOf, writeCsrReg, wlp_run_bind, wlp_write, wlp_run_pure]
    exact h _ _ (.plain (hprv rfl) (by decide) fun _ => hnot _)
  all_goals
    simp only [writeCsrOf, writeCsrReg, writeCsrMasked, writeCsrMenvcfg, writeCsrMinstret, wlp_run_bind, wlp_read,
      wlp_write, wlp_run_pure]
    exact h _ _ (.plain (hprv rfl) (by decide) fun hmem => absurd hmem (by decide))

theorem wlp_writeCsr (h : ∀ status m', CsrWriteEffect m status m' → post status m') :
    Wlp ((writeCsr mcycle csraddr val).exec fuel) post m := by
  simp only [writeCsr, wlp_run_ite, wlp_run_pure, wlp_run_bind, wlp_read]
  refine ⟨fun _ => h _ _ .refused, fun _ => ⟨fun _ => h _ _ .refused, fun hlt => ?_⟩⟩
  cases hcsr : csrAt csraddr with
  | none => exact wlp_pure.mpr (h _ _ .refused)
  | some csr =>
    refine wlp_writeCsrOf (fun huser => ?_) h
    exact BitVec.le_trans (prvS_le_csrPrv hcsr huser) (BitVec.not_lt.mp hlt)

/-- A read of a control and status register changes nothing. -/
theorem wlp_readCsr {post : Post (Option Word)}
    (h : ∀ r, post r m) : Wlp ((readCsr mcycle csraddr).exec fuel) post m := by
  simp only [readCsr, wlp_run_bind, wlp_read, wlp_run_ite, wlp_run_pure]
  refine ⟨fun _ => h _, fun _ => ?_⟩
  cases csrAt csraddr with
  | none => exact wlp_pure.mpr (h _)
  | some csr =>
    cases csr <;>
      simp [readCsrOf, readCsrFp, readCsrCounter, rdcounteren, readCsrMinstret, readCsrMasked,
        readCsrDelegated, readCsrReg, readCsrSatp, readCsrShadow, h]

/-! ## Returns from traps -/

/-- The machine after a return from a trap to the privilege level `prv`. -/
def RunState.returned (m : RunState) (mstatus prv : Word) (d : Nat → Bool) : RunState :=
  let regs := Function.update m.s.regs .mstatus mstatus
  if m.s.regs .iprv = prv then m.withState { m.s with regs, dirty := d }
  else m.withState { m.s with
    regs := Function.update (Function.update regs .iprv prv) .ilrsc (-1)
    tlb := emptiedTlb m.s.tlb, dirty := d }

/-- The registers that returns from traps write. -/
def returnWrites : List Reg := [.mstatus, .iprv, .ilrsc]

theorem RunState.returned_regs (hr : r ∉ returnWrites) (mstatus prv : Word) (d : Nat → Bool) :
    (m.returned mstatus prv d).s.regs r = m.s.regs r := by
  simp only [returnWrites, List.mem_cons, List.not_mem_nil, or_false, not_or] at hr
  unfold RunState.returned
  dsimp only
  split_ifs <;> simp [hr]

/-- The illegal instruction exception ends in `post`. -/
abbrev RunState.Illegal (m : RunState) (pc : Word) (insn : Insn) (post : Post Outcome) : Prop :=
  ∀ d, post (.failure, trapVector m.s.regs mcauseIllegalInsn)
    (m.trapped pc mcauseIllegalInsn (insn.setWidth 64) d)

theorem wlp_raiseIllegal {post : Post Outcome}
    (h : m.Illegal pc insn post) :
    Wlp ((raiseIllegal pc insn).exec fuel) post m := by
  simp only [raiseIllegal, wlp_run_bind, wlp_run_pure]
  exact wlp_raiseException h

theorem wlp_returned {mstatus prv : Word} {post : Post Outcome}
    (hr : r ≠ .mstatus ∧ r ≠ .iprv ∧ r ≠ .ilrsc)
    (h : ∀ d, post (.successAndServeInterrupts, m.s.regs r) (m.returned mstatus prv d)) :
    Wlp (Prog.run (stateAccess fuel) do
      write .mstatus mstatus
      if m.s.regs .iprv ≠ prv then
        setPrv prv
      let epc ← read r
      pure (.successAndServeInterrupts, epc)) post m := by
  unfold RunState.returned at h
  simp only [wlp_run_bind, wlp_write, wlp_run_ite, wlp_read, wlp_run_pure]
  refine ⟨fun hprv => wlp_setPrv fun d => ?_, fun hprv => ?_⟩
  · simpa [hr, if_neg hprv] using h d
  · have hread : (m.writeReg .mstatus mstatus).s.regs r = m.s.regs r := by simp [hr]
    have hm := h m.s.dirty
    rw [if_pos (not_not.mp hprv)] at hm
    rw [hread]
    exact hm

/-- The privilege level that `SRET` returns to. -/
def mstatusSpp (mstatus : Word) : Word := (mstatus &&& mstatusSppMask) >>> mstatusSppShift

/-- The privilege level that `MRET` returns to. -/
def mstatusMpp (mstatus : Word) : Word := (mstatus &&& mstatusMppMask) >>> mstatusMppShift

theorem wlp_executeSRET {post : Post Outcome} (hraise : m.Illegal pc insn post)
    (hret : prvS ≤ m.s.regs .iprv → ∀ d, post (.successAndServeInterrupts, m.s.regs .sepc)
      (m.returned (mstatusSret (m.s.regs .mstatus)) (mstatusSpp (m.s.regs .mstatus)) d)) :
    Wlp ((executeSRET pc insn).exec fuel) post m := by
  unfold executeSRET
  rw [wlp_run_bind, wlp_read, wlp_run_bind, wlp_read, wlp_run_ite]
  refine ⟨fun _ => wlp_raiseIllegal hraise, fun hprv => ?_⟩
  have hprv : prvS ≤ m.s.regs .iprv := BitVec.not_lt.mp fun hlt => hprv (.inl hlt)
  exact wlp_returned (by decide) (hret hprv)

theorem wlp_executeMRET {post : Post Outcome} (hraise : m.Illegal pc insn post)
    (hret : prvM ≤ m.s.regs .iprv → ∀ d, post (.successAndServeInterrupts, m.s.regs .mepc)
      (m.returned (mstatusMret (m.s.regs .mstatus)) (mstatusMpp (m.s.regs .mstatus)) d)) :
    Wlp ((executeMRET pc insn).exec fuel) post m := by
  unfold executeMRET
  rw [wlp_run_bind, wlp_read, wlp_run_ite]
  refine ⟨fun _ => wlp_raiseIllegal hraise, fun hprv => ?_⟩
  rw [wlp_run_bind, wlp_read]
  exact wlp_returned (by decide) (hret (BitVec.not_lt.mp hprv))

/-! ## Fences and waits -/

theorem wlp_flushTlbVaddr {vaddr : Word} {post : Post Unit}
    (h : ∀ d, post () (m.withState { m.s with tlb := emptiedTlb m.s.tlb, dirty := d })) :
    Wlp ((flushTlbVaddr vaddr).exec fuel) post m := by
  refine (wlp_op (o := .flushTlbVaddr vaddr)).mpr ?_
  refine (wlp_updateState (f := fun m => doFlushTlbVaddr m.pmas m.s)).mpr fun s' hs => ?_
  unfold doFlushTlbVaddr at hs
  obtain ⟨s1, h1, hs⟩ := except_bind_ok_iff.mp hs
  obtain ⟨s2, h2, hs⟩ := except_bind_ok_iff.mp hs
  obtain ⟨d1, rfl⟩ : ∃ d, s1 = { m.s with tlb := flushedTlb m.s.tlb .code, dirty := d } :=
    ⟨_, doFlushTlbType_eq h1⟩
  obtain ⟨d2, rfl⟩ : ∃ d, s2 = { m.s with
      tlb := flushedTlb (flushedTlb m.s.tlb .code) .read, dirty := d } := ⟨_, doFlushTlbType_eq h2⟩
  obtain ⟨d3, rfl⟩ : ∃ d, s' = { m.s with
      tlb := flushedTlb (flushedTlb (flushedTlb m.s.tlb .code) .read) .write, dirty := d } :=
    ⟨_, doFlushTlbType_eq hs⟩
  rw [emptiedTlb_eq]
  exact h d3

theorem wlp_executeSfenceVma {rs1 : Fin 32} {post : Post Outcome} (hraise : m.Illegal pc insn post)
    (hflush : ∀ d, post (.successAndFlushFetch, pc + 4)
      (m.withState { m.s with tlb := emptiedTlb m.s.tlb, dirty := d })) :
    Wlp ((executeSfenceVma pc insn rs1).exec fuel) post m := by
  simp only [executeSfenceVma, wlp_run_bind, wlp_read, wlp_run_ite, wlp_run_pure]
  exact ⟨fun _ => wlp_raiseIllegal hraise, fun _ => ⟨fun _ => wlp_flushAllTlb hflush,
    fun _ => wlp_flushTlbVaddr hflush⟩⟩

theorem wlp_executeWFI {post : Post (Outcome × Word)}
    (hraise : m.Illegal pc insn fun o => post (o, mcycle))
    (hpoll : ∀ r m', m.s.regs .iprv ≠ prvU → mcycle < rtcTimeToCycle (m.s.regs .clintMtimecmp) →
      PollEffect m mcycle (rtcTimeToCycle (m.s.regs .clintMtimecmp)) r m' →
      post (((if r.2 then .successAndServeInterrupts else .success), pc + 4), r.1) m')
    (hnop : post ((.success, pc + 4), mcycle) m) :
    Wlp ((executeWFI pc mcycle insn).exec fuel) post m := by
  simp only [executeWFI, wlp_run_bind, wlp_read, wlp_run_ite, wlp_run_pure]
  refine ⟨fun _ => wlp_raiseIllegal hraise, fun hprv => ⟨fun hlt => ?_, fun _ => hnop⟩⟩
  refine wlp_pollExternalInterrupts (BitVec.le_of_lt hlt) fun r m' hr => ?_
  exact hpoll r m' (fun hU => hprv (.inl hU)) hlt hr

end MachineEmulator.Interpret
