import MachineEmulator.Interpret.LoopEffects

/-!
# What a step of the loops does

`LoopStep.effect` inverts a step once and for all: the clock and the interrupts at the head of the outer
loop, the end of a stretch, a fetch that fails, or an instruction. `RunStep` are the steps of a machine that
is run again and again.
-/

namespace MachineEmulator.Interpret

open Prog

variable {fuel : Nat} {fp : SoftFloat} {m m' : RunState}

/-! ## The head of the outer loop -/

/-- What comes before a pending interrupt is taken. -/
def tickWork (c : Cursor) : AProg Unit :=
  if rtcIsTick c.mcycle then do
    setRtcInterrupt c.mcycle
    let _ ← pollExternalInterrupts c.mcycle c.mcycle
  else
    pure ()

theorem serveInterrupts_eq (c : Cursor) : serveInterrupts c = (do
    tickWork c
    let pc ← raiseInterruptIfAny c.pc
    pure { c with pc }) := by
  unfold serveInterrupts tickWork
  split
  · simp
  · rfl

/-- The clock and the host change pending interrupts only. -/
structure TickFrame (m m' : RunState) : Prop where
  regs : ∀ r, r ≠ .mip → r ≠ .plicGirqpend → m'.s.regs r = m.s.regs r
  tlb : m'.s.tlb = m.s.tlb

theorem wlp_tickWork {c : Cursor} :
    Wlp ((tickWork c).exec fuel) (fun _ m' => TickFrame m m') m := by
  have hpoll : ∀ {m1 : RunState}, TickFrame m m1 →
      Wlp ((pollExternalInterrupts c.mcycle c.mcycle).exec fuel) (fun _ m' => TickFrame m m') m1 := by
    intro m1 h1
    refine wlp_pollExternalInterrupts (BitVec.le_refl _) fun r m2 hr => ⟨fun r hmip hpend => ?_, ?_⟩
    · exact (hr.polled r hmip hpend).trans (h1.regs r hmip hpend)
    · exact hr.tlb.trans h1.tlb
  simp only [tickWork, run_ite, run_bind, wlp_ite, wlp_bind, wlp_run_pure]
  refine ⟨fun _ => wlp_setRtcInterrupt (fun _ => ?_) fun _ => ?_, fun _ => ⟨fun _ _ _ => rfl, rfl⟩⟩
  · exact hpoll ⟨fun _ _ _ => rfl, rfl⟩
  · exact hpoll ⟨fun r hmip _ => Function.update_of_ne hmip _ _, rfl⟩

/-! ## Steps -/

inductive StepEffect (fp : SoftFloat) (fuel : Nat) : LoopState RunState → LoopState RunState → Prop
  | served {c : Cursor} {m m1 : RunState} {mcycleTickEnd : Word}
    (htick : (tickWork c).run (stateAccess fuel) m = .ok () m1) (hnone : pendingMask m1.s.regs = 0) :
    StepEffect fp fuel (.outer c m) (.inner mcycleTickEnd c m1)
  | interrupted {c : Cursor} {m m1 : RunState} {mcycleTickEnd pc cause : Word} {d : Nat → Bool}
    (htick : (tickWork c).run (stateAccess fuel) m = .ok () m1) (hpend : pendingMask m1.s.regs ≠ 0) :
    StepEffect fp fuel (.outer c m) (.inner mcycleTickEnd { c with pc } (m1.trapped c.pc cause 0 d))
  | finished {c : Cursor} {m : RunState} {status : ExecuteStatus} :
    StepEffect fp fuel (.outer c m) (.done status ((m.writeReg .pc c.pc).writeReg .mcycle c.mcycle))
  | tick {mcycleTickEnd : Word} {c : Cursor} {m : RunState} (hge : ¬ c.mcycle < mcycleTickEnd) :
    StepEffect fp fuel (.inner mcycleTickEnd c m) (.outer c m)
  | faulted {mcycleTickEnd newPc cause tval : Word} {c : Cursor} {m m1 : RunState} {cache : FetchCache}
    {d : Nat → Bool} (hlt : c.mcycle < mcycleTickEnd) (hregs : m1.s.regs = m.s.regs)
    (hfetch : (fetchInsn c.pc c.cache).run (stateAccess fuel) m =
      .ok (cache, .error newPc) (m1.trapped c.pc cause tval d)) :
    StepEffect fp fuel (.inner mcycleTickEnd c m)
      (.inner mcycleTickEnd ⟨newPc, c.mcycle + 1, cache⟩ (m1.trapped c.pc cause tval d))
  | executed {x y : LoopState RunState} {c : Cursor} {insn : Insn} {m1 m2 : RunState} {r : Outcome × Word}
    (he : Executes (stateAccess fuel) fp x c insn m1 r m2) (hfetch : m1.s.regs = x.state.s.regs)
    (hregs : ∀ reg, reg ∉ [Reg.pc, .mcycle] → y.state.s.regs reg = m2.s.regs reg)
    (hmcycle : y.mcycle = r.2 + 1) : StepEffect fp fuel x y

theorem wlp_fetchInsn_regs {pc : Word} {cache : FetchCache} :
    Wlp ((fetchInsn pc cache).exec fuel) (fun r => Fetched.Cases (fun m' => m'.s.regs = m.s.regs)
      (fun m' => ∃ (m1 : RunState) (cause tval : Word) (d : Nat → Bool),
        m1.s.regs = m.s.regs ∧ m' = m1.trapped pc cause tval d) r.2) m := by
  refine wlp_fetchInsn_cases (fun h hf => ?_) (fun h hf => ?_) rfl
  · cases hf with
    | hit => exact h
    | filled htr => exact htr.regs.trans h
  · cases hf with
    | raised htr => exact ⟨_, _, _, _, htr.regs.trans h, rfl⟩

def StepResult.place (mcycleTickEnd : Word) (m : RunState) : StepResult → LoopState RunState
  | .next c => .inner mcycleTickEnd c m
  | .serve c => .outer c m
  | .stop status => .done status m

theorem wlp_afterExecute_regs {cache : FetchCache} {status : ExecuteStatus} {pc mcycle : Word} (mcycleTickEnd : Word) :
    Wlp ((afterExecute cache status pc mcycle).exec fuel) (fun r m' =>
      (∀ reg, reg ∉ [Reg.pc, .mcycle] → m'.s.regs reg = m.s.regs reg) ∧
        (r.place mcycleTickEnd m').mcycle = mcycle + 1) m := by
  simp only [afterExecute, commit, run_ite, run_bind, wlp_ite, wlp_bind, wlp_write, wlp_run_pure]
  refine ⟨fun _ => ⟨fun _ _ => trivial, rfl⟩, fun _ => ⟨fun _ => ⟨fun _ _ => trivial, rfl⟩,
    fun _ => ⟨fun reg hreg => ?_, ?_⟩⟩⟩
  · rw [List.mem_cons, List.mem_singleton, not_or] at hreg
    simp [hreg]
  · simp [LoopState.mcycle, StepResult.place]

theorem StepEffect.of_innerStep {mcycleTickEnd : Word} {c : Cursor} {r : StepResult}
    (hlt : c.mcycle < mcycleTickEnd) (hrun : (innerStep fp c).exec fuel m = .ok r m') :
    StepEffect fp fuel (.inner mcycleTickEnd c m) (r.place mcycleTickEnd m') := by
  obtain ⟨cache, newPc, hfetch, rfl⟩ | ⟨cache, insn, m1, status, pc, mcycle, m2, hfetch, hexec, hafter⟩ :=
    innerStep_cases hrun
  · obtain ⟨m1, cause, tval, d, hregs, rfl⟩ := wlp_fetchInsn_regs _ _ hfetch
    exact .faulted hlt hregs hfetch
  · obtain ⟨hregs, hmcycle⟩ := wlp_afterExecute_regs mcycleTickEnd _ _ hafter
    have hstate : (r.place mcycleTickEnd m').state = m' := by cases r <;> rfl
    refine .executed (.intro hlt hfetch hexec) (wlp_fetchInsn_regs _ _ hfetch) ?_ hmcycle
    rw [hstate]
    exact hregs

theorem LoopStep.effect {mcycleEnd : Word} {x y : LoopState RunState}
    (hstep : LoopStep (stateAccess fuel) fp mcycleEnd x y) : StepEffect fp fuel x y := by
  cases hstep with
  | @serveInterrupts c c' m m' hlt hrun =>
    rw [serveInterrupts_eq, run_bind] at hrun
    obtain ⟨_, m1, htick, hrun⟩ := EStateM.bind_ok_iff.mp hrun
    have hraise : Wlp (run (stateAccess fuel) do
        let pc ← raiseInterruptIfAny c.pc
        pure { c with pc }) (fun c' m' => StepEffect fp fuel (.outer c m)
          (.inner (tickEnd mcycleEnd c'.mcycle) c' m')) m1 := by
      simp only [wlp_run_bind, wlp_run_pure]
      exact wlp_raiseInterruptIfAny (fun hnone => .served htick hnone) fun hpend d => .interrupted htick hpend
    exact hraise _ _ hrun
  | finish hge hrun =>
    suffices h : Wlp (run (stateAccess fuel) (commit _ .success)) (fun status m' =>
        StepEffect fp fuel _ (.done status m')) _ from h _ _ hrun
    simp only [commit, wlp_run_bind, wlp_write, wlp_run_pure]
    exact .finished
  | next hlt hrun | serve hlt hrun | stop hlt hrun => exact .of_innerStep hlt hrun
  | tick hge => exact .tick hge

/-! ## Runs -/

/-- A step of a machine that is run again and again. -/
inductive RunStep (fp : SoftFloat) (fuel : Nat) : LoopState RunState → LoopState RunState → Prop
  | loop {mcycleEnd : Word} {x y : LoopState RunState} (hstep : LoopStep (stateAccess fuel) fp mcycleEnd x y) :
    RunStep fp fuel x y
  | resume {status : ExecuteStatus} {m : RunState} : RunStep fp fuel (.done status m) (.start m)

/-- The step from a place where an instruction is executed. -/
theorem RunStep.of_executes {x y : LoopState RunState} {c : Cursor} {insn : Insn} {m1 m2 : RunState}
    {r : Outcome × Word} (hstep : RunStep fp fuel x y)
    (he : Executes (stateAccess fuel) fp x c insn m1 r m2) : m1.s.regs = x.state.s.regs ∧
      (∀ reg, reg ∉ [Reg.pc, .mcycle] → y.state.s.regs reg = m2.s.regs reg) ∧ y.mcycle = r.2 + 1 := by
  cases hstep with
  | resume => cases he
  | loop hstep =>
    cases hstep.effect with
    | served | interrupted | finished => cases he
    | tick hge =>
      cases he with
      | intro hlt => exact absurd hlt hge
    | faulted hlt hregs hfetch =>
      cases he with
      | intro hlt hfetch' => cases hfetch.symm.trans hfetch'
    | executed he' hfetch hregs hmcycle =>
      obtain ⟨rfl, rfl, rfl, rfl, rfl⟩ := he.unique he'
      exact ⟨hfetch, hregs, hmcycle⟩

end MachineEmulator.Interpret
