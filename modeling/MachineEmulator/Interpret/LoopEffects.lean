import MachineEmulator.Interpret.Interrupts
import MachineEmulator.Interpret.Steps

/-!
# Invariants of runs

`LoopInvariant` lists what an invariant of machines has to be kept by to hold throughout a run of the
interpreter; `LoopInvariant.visited` and `LoopInvariant.interpret` conclude for every place of the loops
and for the end of a run. `StretchInvariant` leaves out the ticks of the clock.
-/

namespace MachineEmulator.Interpret

open Prog RunState

variable {fuel : Nat} {fp : SoftFloat} {m : RunState} {J : RunState → Prop}

/-! ## The pieces of a step -/

/-- One thing holds after a fetch that succeeds, another after one that fails. -/
def Fetched.Cases (J K : RunState → Prop) : Fetched Insn → RunState → Prop
  | .ok _ => J
  | .error _ => K

/-- A fetch that succeeds keeps what its translations keep. One that fails ends with a translation that
fails. -/
theorem wlp_fetchInsn_cases {pc : Word} {cache : FetchCache} {K : RunState → Prop}
    (hJ : ∀ {m vaddr hptr m'}, J m → FetchEffect m pc vaddr (.ok hptr) m' → J m')
    (hK : ∀ {m vaddr newPc m'}, J m → FetchEffect m pc vaddr (.error newPc) m' → K m') (h : J m) :
    Wlp ((fetchInsn pc cache).exec fuel) (fun r => Fetched.Cases J K r.2) m := by
  simp only [fetchInsn, readInsn, fetchCrossing, run_ite, run_bind, wlp_ite, wlp_bind,
    wlp_readHostWord, wlp_run_pure]
  refine ⟨fun _ _ _ => h, fun _ => wlp_fetchTranslatePc fun r m1 hr => ?_⟩
  cases r with
  | error newPc => exact wlp_pure.mpr (hK h hr)
  | ok hptr =>
    have h1 := hJ h hr
    simp only [run_ite, run_bind, wlp_ite, wlp_bind, wlp_readHostWord, wlp_run_pure]
    refine ⟨fun _ low _ => ⟨fun _ => wlp_fetchTranslatePc fun r m2 hr2 => ?_, fun _ => h1⟩, fun _ _ _ => h1⟩
    cases r with
    | error newPc => exact wlp_pure.mpr (hK h1 hr2)
    | ok hptr2 =>
      have h2 := hJ h1 hr2
      simp only [wlp_run_bind, wlp_readHostWord, wlp_run_pure]
      exact fun _ _ => h2

theorem wlp_fetchInsn {pc : Word} {cache : FetchCache}
    (hJ : ∀ {m vaddr r m'}, J m → FetchEffect m pc vaddr r m' → J m') (h : J m) :
    Wlp ((fetchInsn pc cache).exec fuel) (fun _ => J) m := by
  refine (wlp_fetchInsn_cases hJ hJ h).mono ?_
  rintro ⟨cache, fetched⟩ m' hm'
  cases fetched <;> exact hm'

/-- The time that the timer waits for has come, as the clock sees it. -/
def TimerExpired (regs : Reg → Word) (mcycle : Word) : Prop :=
  rtcTimeToCycle (regs .clintMtimecmp) ≤ mcycle ∧ rtcTimeToCycle (regs .clintMtimecmp) ≠ 0

theorem wlp_setRtcInterrupt {mcycle : Word} {post : Post Unit}
    (hquiet : ¬ TimerExpired m.s.regs mcycle → post () m)
    (htimer : TimerExpired m.s.regs mcycle → post () (m.writeReg .mip (m.s.regs .mip ||| mipMtipMask))) :
    Wlp ((setRtcInterrupt mcycle).exec fuel) post m := by
  simp only [setRtcInterrupt, wlp_run_bind, wlp_read, wlp_run_ite, wlp_write,
    wlp_run_pure]
  exact ⟨htimer, hquiet⟩

/-! ## Invariants -/

/-- What an invariant has to be kept by to hold from one tick of the clock to the next. -/
structure StretchInvariant (J : RunState → Prop) : Prop where
  fetch : ∀ {m pc vaddr r m'}, J m → FetchEffect m pc vaddr r m' → J m'
  insn : ∀ amo pc, InsnInvariant amo pc fun _ => J
  poll : ∀ {m m'}, J m → PollFrame m m' → J m'
  commit : ∀ {m r v}, J m → r ∈ [Reg.pc, .mcycle] → J (m.writeReg r v)

/-- What an invariant of runs has to be kept by. -/
structure LoopInvariant (J : RunState → Prop) : Prop extends StretchInvariant J where
  timer : ∀ {m}, J m → J (m.writeReg .mip (m.s.regs .mip ||| mipMtipMask))

namespace StretchInvariant

theorem trapped (hJ : StretchInvariant J) (h : J m) (pc cause tval : Word) (d : Nat → Bool) :
    J (m.trapped pc cause tval d) :=
  (hJ.insn false pc).raise h

theorem wlp_executeInsn (hJ : StretchInvariant J) (h : J m) {pc mcycle : Word} {insn : Insn} :
    Wlp ((executeInsn fp pc mcycle insn).access.exec fuel) (fun _ => J) m := by
  refine (hJ.insn _ pc).wlp_executeInsn fp h (fun _ => ?_) fun _ _ _ h' _ => h'
  exact wlp_executeWFI (fun d => hJ.trapped h _ _ _ d) (fun r m' _ _ hpoll => hJ.poll h hpoll.toPollFrame) h

theorem wlp_commit (hJ : StretchInvariant J) (h : J m) {c : Cursor} {status : ExecuteStatus} :
    Wlp ((Interpret.commit c status).exec fuel) (fun _ => J) m := by
  simp only [Interpret.commit, wlp_run_bind, wlp_write, wlp_run_pure]
  exact hJ.commit (hJ.commit h (by decide)) (by decide)

theorem wlp_innerStep (hJ : StretchInvariant J) (h : J m) {c : Cursor} :
    Wlp ((innerStep fp c).exec fuel) (fun _ => J) m := by
  rw [innerStep, wlp_run_bind]
  refine (wlp_fetchInsn hJ.fetch h).mono ?_
  rintro ⟨cache, fetched⟩ m1 h1
  cases fetched with
  | error newPc => exact wlp_pure.mpr h1
  | ok insn =>
    simp only [wlp_run_bind]
    refine (hJ.wlp_executeInsn h1).mono ?_
    rintro ⟨⟨status, pc⟩, mcycle⟩ m2 h2
    simp only [afterExecute, wlp_run_ite, wlp_run_bind, wlp_run_pure]
    exact ⟨fun _ => h2, fun _ => ⟨fun _ => h2, fun _ => hJ.wlp_commit h2⟩⟩

theorem wlp_raiseInterruptIfAny (hJ : StretchInvariant J) (h : J m) {pc : Word} :
    Wlp ((raiseInterruptIfAny pc).exec fuel) (fun _ => J) m :=
  Interpret.wlp_raiseInterruptIfAny (fun _ => h) fun _ d => hJ.trapped h _ _ _ d

theorem wlp_poll (hJ : StretchInvariant J) (h : J m) {mcycle : Word} :
    Wlp ((pollExternalInterrupts mcycle mcycle).exec fuel) (fun _ => J) m :=
  wlp_pollExternalInterrupts (BitVec.le_refl _) fun _ _ hr => hJ.poll h hr.toPollFrame

/-- At the head of the outer loop, if the invariant is kept where the clock ticks. -/
theorem wlp_serveInterrupts (hJ : StretchInvariant J) (h : J m) {c : Cursor}
    (htick : rtcIsTick c.mcycle = true → Wlp ((setRtcInterrupt c.mcycle).exec fuel) (fun _ => J) m) :
    Wlp ((serveInterrupts c).exec fuel) (fun _ => J) m := by
  simp only [serveInterrupts, run_ite, run_bind, wlp_ite, wlp_bind, wlp_run_pure]
  refine ⟨fun hc => (htick hc).mono fun _ m1 h1 => ?_, fun _ => hJ.wlp_raiseInterruptIfAny h⟩
  exact (hJ.wlp_poll h1).mono fun _ _ h2 => hJ.wlp_raiseInterruptIfAny h2

end StretchInvariant

namespace LoopInvariant

theorem step (hJ : LoopInvariant J) {mcycleEnd : Word} {x y : LoopState RunState}
    (hstep : LoopStep (stateAccess fuel) fp mcycleEnd x y) (h : J x.state) : J y.state := by
  cases hstep with
  | serveInterrupts hlt hrun =>
    exact hJ.wlp_serveInterrupts h (fun _ => wlp_setRtcInterrupt (fun _ => h) fun _ => hJ.timer h) _ _ hrun
  | finish hge hrun => exact hJ.wlp_commit h _ _ hrun
  | next hlt hrun => exact hJ.wlp_innerStep h _ _ hrun
  | serve hlt hrun => exact hJ.wlp_innerStep h _ _ hrun
  | stop hlt hrun => exact hJ.wlp_innerStep h _ _ hrun
  | tick hge => exact h

/-- The invariant holds at every place of the loops that a run visits. -/
theorem visited (hJ : LoopInvariant J) {mcycleEnd : Word} {x y : LoopState RunState}
    (hsteps : LoopSteps (stateAccess fuel) fp mcycleEnd x y) (h : J x.state) : J y.state := by
  induction hsteps with
  | refl => exact h
  | tail _ hstep ih => exact hJ.step hstep ih

theorem interpret (hJ : LoopInvariant J) {mcycleEnd : Word} {reason : BreakReason} {m' : RunState}
    (h : J m) (hstart : J (m.writeReg .iflagsX 0))
    (hrun : (Interpret.interpret fp mcycleEnd).exec fuel m = .ok reason m') : J m' := by
  cases interpret_steps hrun with
  | halted | yielded | reached => exact h
  | ran hH hY hlt hsteps => exact hJ.visited hsteps hstart

end LoopInvariant

/-! ## Registers that no run writes -/

/-- The registers that describe the machine. -/
def fixedRegs : List Reg := [.misa, .iunrep, .htifIhalt, .htifIconsole, .htifIyield]

/-- The registers that hold the same value throughout a run. -/
def unwrittenRegs : List Reg := .x 0 :: fixedRegs

section Unwritten
variable {r : Reg} {v : Word}

theorem unwritten_writeReg (hr : r ∈ unwrittenRegs) {r' : Reg} (hr' : r' ∉ unwrittenRegs) (h : m.s.regs r = v)
    (v' : Word) : (m.writeReg r' v').s.regs r = v := by
  rw [writeReg_regs, Function.update_of_ne, h]
  rintro rfl
  exact hr' hr

theorem unwritten_insn (hr : r ∈ unwrittenRegs) (amo : Bool) (pc : Word) :
    InsnInvariant amo pc fun _ m => m.s.regs r = v := by
  have hdev : ∀ r ∈ unwrittenRegs, r ∉ deviceRegs := by decide
  have htrap : ∀ r ∈ unwrittenRegs, r ∉ trapWrites := by decide
  have hcsr : ∀ r ∈ unwrittenRegs, r ∉ csrRegs := by decide
  have hret : ∀ r ∈ unwrittenRegs, r ∉ returnWrites := by decide
  refine ⟨fun _ _ hw hI => ?_, fun _ hI hl => (hl.regs (hdev r hr) (htrap r hr)).trans hI,
    fun _ _ hI hs => (hs.regs (hdev r hr) (htrap r hr)).trans hI, fun _ hI hc => (hc.regs (hcsr r hr)).trans hI,
    fun hI => (trapped_regs (htrap r hr) _ _ _ _).trans hI,
    fun hI _ => (returned_regs (hret r hr) _ _ _).trans hI,
    fun hI _ => (returned_regs (hret r hr) _ _ _).trans hI, fun hI => hI⟩
  cases hw <;> exact unwritten_writeReg hr (by simp [unwrittenRegs, fixedRegs, *]) hI _

theorem unwritten_loop (hr : r ∈ unwrittenRegs) : LoopInvariant fun m => m.s.regs r = v where
  fetch hI hf := by
    have htrap : ∀ r ∈ unwrittenRegs, r ∉ trapWrites := by decide
    exact (hf.regs (htrap r hr)).trans hI
  insn := unwritten_insn hr
  poll hI hp := by
    have hdev : ∀ r ∈ unwrittenRegs, r ∉ deviceRegs := by decide
    exact (hp.regs r (hdev r hr)).trans hI
  timer hI := unwritten_writeReg hr (by decide) hI _
  commit hI hr' := by
    have hno : ∀ r' ∈ [Reg.pc, .mcycle], r' ∉ unwrittenRegs := by decide
    exact unwritten_writeReg hr (hno _ hr') hI _

end Unwritten

/-! ## The zero register -/

theorem asks_executeInsn_ne_writeX_zero (fp : SoftFloat) (pc mcycle : Word) (insn : Insn) :
    (executeInsn fp pc mcycle insn).Asks fun o : InsnOp => ∀ v, o ≠ .writeX 0 v := by
  obtain ⟨-, hwfi⟩ | ⟨p, hp, hphased⟩ := executeInsn_cases fp pc mcycle insn
  · rw [hwfi]
    exact ⟨by rintro v ⟨⟩, fun _ => trivial⟩
  · rw [hp]
    refine Asks.bind (hphased.asks fun q o ho => ?_) fun _ => .pure _
    rintro v rfl
    exact ho.1 rfl

/-- Whatever is fetched, no handler writes register 0, and the register is zero at every place of a run
that starts with it zero. -/
theorem zeroRegister_kept (fp : SoftFloat) (fuel : Nat) :
    (∀ pc mcycle insn, (executeInsn fp pc mcycle insn).Asks fun o : InsnOp => ∀ v, o ≠ .writeX 0 v) ∧
    ∀ (mcycleEnd : Word) (m : RunState), m.s.regs (.x 0) = 0 →
      (∀ x, LoopSteps (stateAccess fuel) fp mcycleEnd (.start m) x → x.state.s.regs (.x 0) = 0) ∧
      ∀ reason m', (interpret fp mcycleEnd).run (stateAccess fuel) m = .ok reason m' →
        m'.s.regs (.x 0) = 0 := by
  refine ⟨asks_executeInsn_ne_writeX_zero fp, fun mcycleEnd m h => ?_⟩
  have hzero : LoopInvariant fun m => m.s.regs (.x 0) = 0 := unwritten_loop (by decide)
  exact ⟨fun x hx => hzero.visited hx h, fun reason m' => hzero.interpret h h⟩

/-- A new machine with `jal x0, 8` and, where it leads, `addi x0, x0, 5`. -/
def jumpMachine : RunState :=
  .created smallBoard
    { image := writeBytes (fun _ => 0) pmaRamStart.toNat (toLE 4 0x0080006f ++ toLE 4 0 ++ toLE 4 0x00500013)
      uarchRam := fun _ => 0 } fun _ => 0

/-- A run of two instructions whose destination is register 0. -/
theorem zeroRegister_kept_jump : ∃ reason m', (interpret .zero 2).run (stateAccess 0) jumpMachine = .ok reason m' ∧
      m'.s.regs .mcycle = 2 ∧ m'.s.regs .pc = pmaRamStart + 12 ∧ m'.s.regs (.x 0) = 0 := by
  obtain ⟨-, hrun⟩ := zeroRegister_kept .zero 0
  exact ⟨_, _, rfl, rfl, rfl, (hrun 2 jumpMachine rfl).2 _ _ rfl⟩

end MachineEmulator.Interpret
