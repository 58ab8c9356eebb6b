import MachineEmulator.Interpret.LoopEffects

/-!
# The target cycle

The loops stop at the target: each instruction takes one cycle, and the inner loop runs up to a cycle that
is not beyond the target. Only a wait moves the cycle counter further, up to the next timer interrupt; it
knows nothing of the target. `interpret_mcycle_iff` says that the target is met exactly if no wait of the
run goes on until the target.
-/

namespace MachineEmulator.Interpret

variable {fuel : Nat} {fp : SoftFloat} {m m' : RunState} {mcycleEnd : Word}

/-! ## Halts and yields -/

/-- An instruction that halts the machine has set the flag. -/
def HaltPhase : Phase → RunState → Prop
  | .retired status, m => status = .successAndHalt → m.s.regs .iflagsH ≠ 0
  | _, _ => True

theorem haltPhase_insn (amo : Bool) (pc : Word) : InsnInvariant amo pc HaltPhase where
  write {q m r v x} _ hq hr hI := by
    cases q with
    | running | loaded => exact fun h => nomatch h
    | retired status =>
      intro hs
      rw [RunState.writeReg_regs, Function.update_of_ne]
      · exact hI hs
      · cases hr <;> simp
    | raised newPc => exact absurd rfl (hq newPc)
  load {m size raiseStore mcycle vaddr r m'} _ _ _ := by cases r <;> trivial
  store {q m size vaddr val r m'} _ _ _ hs := by
    cases hs with
    | hit | memory => exact fun h => nomatch h
    | device htr hp hW hio hstatus hd =>
      rw [Phase.ofOutcome, if_neg hstatus]
      intro hs
      rw [hd.halted hs]
      decide
    | raised => trivial
  csr {m mcycle csraddr val status m'} _ _ hc := by
    unfold Phase.ofCsr
    split_ifs with hs
    · trivial
    · intro hs
      cases hc with
      | refused | ignored | fcsr | plain | interrupts | satp | satpFlush => cases hs
      | mstatus =>
        unfold mstatusStatus at hs
        split_ifs at hs
  raise _ := trivial
  sret _ _ h := nomatch h
  mret _ _ h := nomatch h
  sfence _ h := nomatch h

variable {pc mcycle mcycle' : Word} {status : ExecuteStatus} {r : StepResult} {c : Cursor}
  {x : LoopState RunState}

theorem wlp_executeInsn_halt {insn : Insn} : Wlp ((executeInsn fp pc mcycle insn).access.exec fuel)
      (fun r m' => r.1.1 = .successAndHalt → m'.s.regs .iflagsH ≠ 0) m := by
  refine (haltPhase_insn _ pc).wlp_executeInsn fp trivial (fun _ => ?_)
    fun q outcome m' hq hacc hs => ?_
  · refine wlp_executeWFI (fun d hs => nomatch hs) (fun r m' _ _ _ hs => ?_) fun hs => nomatch hs
    split_ifs at hs
  · cases q with
    | retired status => exact hq (hacc.1.symm.trans hs)
    | raised newPc =>
      obtain rfl : outcome = (.failure, newPc) := hacc
      cases hs
    | running | loaded => rcases hacc with h | h <;> cases h.symm.trans hs

/-! ## Cycles -/

/-- The fetch at this place of the loops finds a `WFI`, which waits until the cycle `mcycle'`. -/
def WaitsUntil (fuel : Nat) (c : Cursor) (m : RunState) (mcycle' : Word) : Prop :=
  ∃ cache m1 outcome m2,
    (fetchInsn c.pc c.cache).run (stateAccess fuel) m = .ok (cache, .ok wfiInsn) m1 ∧
    (executeWFI c.pc c.mcycle wfiInsn).run (stateAccess fuel) m1 = .ok (outcome, mcycle') m2

/-- The place after an instruction is at the cycle `mcycle`; the target is not a reason to stop there. -/
def StepResult.AtCycle (mcycle : Word) : StepResult → RunState → Prop
  | .next c, _ | .serve c, _ => c.mcycle = mcycle
  | .stop status, m => m.s.regs .mcycle = mcycle ∧
    breakReasonOf status m.s.regs ≠ .reachedTargetMcycle

theorem run_wfi (pc mcycle : Word) (insn : Insn) :
    (Insn.wfi pc mcycle insn).run (insnAccess fuel) = (executeWFI pc mcycle insn).run (stateAccess fuel) :=
  Prog.run_perform (h := insnAccess fuel) (.wfi pc mcycle insn)

theorem executeInsn_mcycle {insn : Insn} {outcome : Outcome}
    (hrun : (executeInsn fp pc mcycle insn).access.exec fuel m = .ok (outcome, mcycle') m') :
    mcycle' = mcycle ∨ insn = wfiInsn ∧
      (executeWFI pc mcycle insn).exec fuel m = .ok (outcome, mcycle') m' := by
  rw [AProg.exec, run_access] at hrun
  obtain ⟨heq, hwfi⟩ | ⟨p, hp, -⟩ := executeInsn_cases fp pc mcycle insn
  · rw [hwfi] at hrun
    exact .inr ⟨heq, (congrFun (run_wfi pc mcycle insn) m).symm.trans hrun⟩
  · rw [hp, Insn.withMcycle, Prog.run_bind] at hrun
    obtain ⟨outcome', m1, -, hret⟩ := EStateM.bind_ok_iff.mp hrun
    cases hret
    exact .inl rfl

theorem afterExecute_atCycle {cache : FetchCache} (hhalt : status = .successAndHalt → m.s.regs .iflagsH ≠ 0)
    (hrun : (afterExecute cache status pc mcycle).exec fuel m = .ok r m') :
    r.AtCycle (mcycle + 1) m' := by
  suffices h : Wlp ((afterExecute cache status pc mcycle).exec fuel)
      (fun r m' => r.AtCycle (mcycle + 1) m') m from h _ _ hrun
  simp only [afterExecute, commit, wlp_run_ite, wlp_run_bind, wlp_write, wlp_run_pure]
  refine ⟨fun _ => rfl, fun hcode => ⟨fun _ => rfl, fun hserve => ⟨by simp, ?_⟩⟩⟩
  unfold breakReasonOf
  cases status with
  | success | failure | successAndFlushFetch => exact absurd (by decide) hcode
  | successAndServeInterrupts => exact absurd rfl hserve
  | successAndYield =>
    rw [if_pos rfl]
    split_ifs <;> decide
  | successAndHalt =>
    rw [if_pos (by simpa using hhalt rfl)]
    decide

theorem innerStep_atCycle (hrun : (innerStep fp c).exec fuel m = .ok r m') :
    ∃ mcycle', (mcycle' = c.mcycle ∨ WaitsUntil fuel c m mcycle') ∧ r.AtCycle (mcycle' + 1) m' := by
  obtain ⟨cache, newPc, -, rfl⟩ | ⟨cache, insn, m1, status, pc, mcycle', m2, hfetch, hexec, hafter⟩ :=
    innerStep_cases hrun
  · exact ⟨c.mcycle, .inl rfl, rfl⟩
  · have hat := afterExecute_atCycle (wlp_executeInsn_halt _ _ hexec) hafter
    rcases executeInsn_mcycle hexec with heq | ⟨rfl, hwfi⟩
    · exact ⟨mcycle', .inl heq, hat⟩
    · exact ⟨mcycle', .inr ⟨cache, m1, _, m2, hfetch, hwfi⟩, hat⟩

theorem WaitsUntil.mcycleAfter (h : WaitsUntil fuel c m mcycle') : McycleAfter c.mcycle mcycle' := by
  obtain ⟨cache, m1, outcome, m2, -, hwfi⟩ := h
  exact wlp_executeWFI_mcycle (stateAccess_pollsForward fuel) _ _ hwfi

theorem commit_mcycle {status' : ExecuteStatus}
    (hrun : (commit c status).exec fuel m = .ok status' m') :
    m'.s.regs .mcycle = c.mcycle ∧ status' = status := by
  suffices h : Wlp ((commit c status).exec fuel)
      (fun status' m' => m'.s.regs .mcycle = c.mcycle ∧ status' = status) m from h _ _ hrun
  simp [commit, wlp_write]

theorem LoopStep.mcycle_le {y : LoopState RunState} (h : LoopStep (stateAccess fuel) fp mcycleEnd x y) :
    x.mcycle ≤ y.mcycle := by
  have hinner : ∀ {c : Cursor} {m m' : RunState} {r : StepResult} {mcycleTickEnd : Word},
      c.mcycle < mcycleTickEnd → (innerStep fp c).exec fuel m = .ok r m' →
      ∃ mcycle', c.mcycle ≤ mcycle' ∧ r.AtCycle mcycle' m' := by
    intro c m m' r mcycleTickEnd hlt hrun
    obtain ⟨mcycle', hmcycle', hat⟩ := innerStep_atCycle hrun
    have hafter : McycleAfter c.mcycle mcycle' := hmcycle'.elim .inl WaitsUntil.mcycleAfter
    exact ⟨mcycle' + 1, BitVec.le_of_lt (hafter.lt_succ hlt), hat⟩
  cases h with
  | serveInterrupts hlt hrun =>
    simp only [LoopState.mcycle]
    rw [(wlp_serveInterrupts_cursor _ _ hrun).1]
    exact BitVec.le_refl _
  | finish hge hrun =>
    simp only [LoopState.mcycle]
    rw [(commit_mcycle hrun).1]
    exact BitVec.le_refl _
  | next hlt hrun | serve hlt hrun =>
    obtain ⟨mcycle', hle, rfl⟩ := hinner hlt hrun
    exact hle
  | stop hlt hrun =>
    obtain ⟨mcycle', hle, rfl, -⟩ := hinner hlt hrun
    exact hle
  | tick => exact BitVec.le_refl _

theorem LoopSteps.mcycle_le {y : LoopState RunState}
    (h : LoopSteps (stateAccess fuel) fp mcycleEnd x y) : x.mcycle ≤ y.mcycle := by
  induction h with
  | refl => exact BitVec.le_refl _
  | tail _ hstep ih => exact BitVec.le_trans ih hstep.mcycle_le

/-! ## The target -/

/-- A run of the interpreter on the machine `m` gets to this place of the loops. -/
structure Visits (fp : SoftFloat) (fuel : Nat) (mcycleEnd : Word) (m : RunState) (x : LoopState RunState) :
    Prop where
  iflagsH : m.s.regs .iflagsH = 0
  iflagsY : m.s.regs .iflagsY = 0
  lt : m.s.regs .mcycle < mcycleEnd
  steps : LoopSteps (stateAccess fuel) fp mcycleEnd (.start m) x

/-- The run makes a wait that goes on until the target or beyond. -/
def Overwaits (fp : SoftFloat) (fuel : Nat) (mcycleEnd : Word) (m : RunState) : Prop :=
  ∃ mcycleTickEnd c m1 mcycle', Visits fp fuel mcycleEnd m (.inner mcycleTickEnd c m1) ∧
    c.mcycle < mcycleTickEnd ∧ WaitsUntil fuel c m1 mcycle' ∧ mcycleEnd ≤ mcycle'

/-- Not beyond the target, and at the target if that is the reason to stop. -/
def LoopState.Within (mcycleEnd : Word) : LoopState RunState → Prop
  | .outer c _ => c.mcycle ≤ mcycleEnd
  | .inner mcycleTickEnd c _ => c.mcycle ≤ mcycleEnd ∧ mcycleTickEnd ≤ mcycleEnd
  | .done status m => m.s.regs .mcycle ≤ mcycleEnd ∧
    (breakReasonOf status m.s.regs = .reachedTargetMcycle → m.s.regs .mcycle = mcycleEnd)

theorem succ_le_of_lt {a b : Word} (h : a < b) : a + 1 ≤ b := by
  have h : a.toNat < b.toNat := h
  show (a + 1).toNat ≤ b.toNat
  rw [BitVec.toNat_add, show (1 : Word).toNat = 1 from rfl]
  omega

/-- Without a wait that goes on until the target, an instruction does not go beyond it. -/
theorem innerStep_within {mcycleTickEnd : Word}
    (hlt : c.mcycle < mcycleTickEnd) (htick : mcycleTickEnd ≤ mcycleEnd)
    (hwait : ∀ mcycle', WaitsUntil fuel c m mcycle' → mcycle' < mcycleEnd)
    (hrun : (innerStep fp c).exec fuel m = .ok r m') :
    ∃ mcycle' ≤ mcycleEnd, r.AtCycle mcycle' m' := by
  obtain ⟨mcycle', hmcycle', hat⟩ := innerStep_atCycle hrun
  refine ⟨mcycle' + 1, succ_le_of_lt ?_, hat⟩
  rcases hmcycle' with rfl | hwaits
  · exact Nat.lt_of_lt_of_le hlt htick
  · exact hwait mcycle' hwaits

theorem Visits.within (hwait : ¬ Overwaits fp fuel mcycleEnd m)
    (h : Visits fp fuel mcycleEnd m x) : x.Within mcycleEnd := by
  obtain ⟨hH, hY, hlt, hsteps⟩ := h
  induction hsteps with
  | refl => exact BitVec.le_of_lt hlt
  | tail hsteps hstep ih =>
    have hinner : ∀ {mcycleTickEnd c m1},
        LoopSteps (stateAccess fuel) fp mcycleEnd (.start m) (.inner mcycleTickEnd c m1) →
        c.mcycle < mcycleTickEnd → ∀ mcycle', WaitsUntil fuel c m1 mcycle' → mcycle' < mcycleEnd := by
      intro mcycleTickEnd c m1 hsteps hc mcycle' hwaits
      by_contra hge
      exact hwait ⟨_, _, _, _, ⟨hH, hY, hlt, hsteps⟩, hc, hwaits, BitVec.not_lt.mp hge⟩
    cases hstep with
    | serveInterrupts hc hrun =>
      have hmcycle := (wlp_serveInterrupts_cursor _ _ hrun).1
      exact ⟨by rw [hmcycle]; exact ih, (tickEnd_bounds (by rwa [hmcycle])).2⟩
    | finish hge hrun =>
      obtain ⟨hmcycle, rfl⟩ := commit_mcycle hrun
      rw [LoopState.Within, hmcycle]
      exact ⟨ih, fun _ => BitVec.le_antisymm ih (BitVec.not_lt.mp hge)⟩
    | next hc hrun =>
      obtain ⟨mcycle', hle, rfl⟩ := innerStep_within hc ih.2 (hinner hsteps hc) hrun
      exact ⟨hle, ih.2⟩
    | serve hc hrun =>
      obtain ⟨mcycle', hle, rfl⟩ := innerStep_within hc ih.2 (hinner hsteps hc) hrun
      exact hle
    | stop hc hrun =>
      obtain ⟨mcycle', hle, rfl, hreason⟩ := innerStep_within hc ih.2 (hinner hsteps hc) hrun
      exact ⟨hle, fun h => absurd h hreason⟩
    | tick hge => exact ih.1

theorem executeInsn_wfi (pc mcycle : Word) :
    executeInsn fp pc mcycle wfiInsn = Insn.wfi pc mcycle wfiInsn := rfl

theorem succeeds_afterExecute (cache : FetchCache) (status : ExecuteStatus) (pc mcycle : Word) :
    Succeeds ((afterExecute cache status pc mcycle).exec fuel) m := by
  simp [afterExecute, commit, Prog.run_ite]

/-- After a wait there is a step, and it leads to the cycle after the wait. -/
theorem WaitsUntil.step (h : WaitsUntil fuel c m mcycle') (fp : SoftFloat) :
    ∃ r m', (innerStep fp c).exec fuel m = .ok r m' ∧ r.AtCycle (mcycle' + 1) m' := by
  obtain ⟨cache, m1, ⟨status, pc⟩, m2, hfetch, hwfi⟩ := h
  have hexec : (executeInsn fp c.pc c.mcycle wfiInsn).access.exec fuel m1 =
      .ok ((status, pc), mcycle') m2 := by
    rw [AProg.exec, run_access, executeInsn_wfi, run_wfi, hwfi]
  obtain ⟨r, m', hafter⟩ : Succeeds ((afterExecute cache status pc mcycle').exec fuel) m2 :=
    succeeds_afterExecute cache status pc mcycle'
  refine ⟨r, m', ?_, afterExecute_atCycle (wlp_executeInsn_halt _ _ hexec) hafter⟩
  rw [innerStep, AProg.exec, Prog.run_bind]
  refine EStateM.bind_ok_iff.mpr ⟨_, _, hfetch, ?_⟩
  rw [Prog.run_bind]
  exact EStateM.bind_ok_iff.mpr ⟨_, _, hexec, hafter⟩

theorem LoopStep.of_innerStep (mcycleEnd : Word) {mcycleTickEnd : Word} (hlt : c.mcycle < mcycleTickEnd)
    (hrun : (innerStep fp c).exec fuel m = .ok r m') (hat : r.AtCycle mcycle m') :
    ∃ y, LoopStep (stateAccess fuel) fp mcycleEnd (.inner mcycleTickEnd c m) y ∧ y.mcycle = mcycle := by
  cases r with
  | next c' => exact ⟨_, .next hlt hrun, hat⟩
  | serve c' => exact ⟨_, .serve hlt hrun, hat⟩
  | stop status => exact ⟨_, .stop hlt hrun, hat.1⟩

theorem Overwaits.lt (h : Overwaits fp fuel mcycleEnd m)
    (hdone : LoopSteps (stateAccess fuel) fp mcycleEnd (.start m) (.done status m')) :
    mcycleEnd < m'.s.regs .mcycle := by
  obtain ⟨mcycleTickEnd, c, m1, mcycle', hvisits, hlt, hwaits, hge⟩ := h
  obtain ⟨r, m2, hrun, hat⟩ := hwaits.step fp
  obtain ⟨y, hstep, hy⟩ := LoopStep.of_innerStep mcycleEnd hlt hrun hat
  have hle : y.mcycle ≤ m'.s.regs .mcycle := (hdone.to_done (hvisits.steps.tail hstep)).mcycle_le
  have hsucc : mcycle' < mcycle' + 1 := hwaits.mcycleAfter.lt_succ_self hlt
  rw [hy] at hle
  exact Nat.lt_of_le_of_lt hge (Nat.lt_of_lt_of_le hsucc hle)

/-! ## Reproducible machines -/

theorem LoopSteps.tickEnd_le (h : LoopSteps (stateAccess fuel) fp mcycleEnd (.start m) x) :
    ∀ mcycleTickEnd c m', x = .inner mcycleTickEnd c m' → mcycleTickEnd ≤ mcycleEnd := by
  induction h with
  | refl => exact fun _ _ _ h => nomatch h
  | tail _ hstep ih =>
    rintro mcycleTickEnd c m' rfl
    cases hstep with
    | serveInterrupts hlt hrun =>
      exact (tickEnd_bounds (by rwa [(wlp_serveInterrupts_cursor _ _ hrun).1])).2
    | next hlt hrun => exact ih _ _ _ rfl

theorem WaitsUntil.eq_of_reproducible (h : WaitsUntil fuel c m mcycle')
    (hrep : m.s.regs .iunrep = 0) : mcycle' = c.mcycle := by
  obtain ⟨cache, m1, outcome, m2, hfetch, hwfi⟩ := h
  have hrep1 : m1.s.regs .iunrep = 0 := by
    have hfixed : LoopInvariant fun m => m.s.regs .iunrep = 0 := unwritten_loop (by decide)
    exact wlp_fetchInsn hfixed.fetch hrep _ _ hfetch
  suffices hall : Wlp ((executeWFI c.pc c.mcycle wfiInsn).exec fuel)
      (fun r _ => r.2 = c.mcycle) m1 from hall _ _ hwfi
  refine wlp_executeWFI (fun _ => rfl) (fun r m' _ _ hpoll => ?_) rfl
  rw [(hpoll.reproducible hrep1).2]

theorem not_overwaits_of_reproducible (hrep : m.s.regs .iunrep = 0) : ¬ Overwaits fp fuel mcycleEnd m := by
  rintro ⟨mcycleTickEnd, c, m1, mcycle', hvisits, hlt, hwaits, hge⟩
  have hrep1 : m1.s.regs .iunrep = 0 :=
    (unwritten_loop (by decide)).visited hvisits.steps hrep
  obtain rfl := hwaits.eq_of_reproducible hrep1
  have hle := hvisits.steps.tickEnd_le _ _ _ rfl
  exact BitVec.not_lt.mpr hge (Nat.lt_of_lt_of_le hlt hle)

/-- A machine about to wait for its timer, on a host where a second passes between two looks at the clock. -/
def waitingMachine (iunrep : Word) : RunState :=
  .created smallBoard
    { regs := fun r => ([(.iunrep, iunrep), (.clintMtimecmp, 1)].lookup r).getD (initRegs r)
      image := writeBytes (fun _ => 0) pmaRamStart.toNat (toLE 4 wfiInsn.toNat)
      uarchRam := fun _ => 0 } fun _ => 1000000

/-- The cycle counter never decreases during a run. The run does not end beyond the target, and ends at the
target if that is its reason to stop, exactly if no wait goes on until the target. -/
theorem interpret_mcycle_iff (fp : SoftFloat) (fuel : Nat) (mcycleEnd : Word) (m : RunState)
    (hle : m.s.regs .mcycle ≤ mcycleEnd) (reason : BreakReason) (m' : RunState)
    (hrun : (interpret fp mcycleEnd).run (stateAccess fuel) m = .ok reason m') :
    (∀ x y, Visits fp fuel mcycleEnd m x → LoopStep (stateAccess fuel) fp mcycleEnd x y → x.mcycle ≤ y.mcycle) ∧
    m.s.regs .mcycle ≤ m'.s.regs .mcycle ∧ ((m'.s.regs .mcycle ≤ mcycleEnd ∧
        (reason = .reachedTargetMcycle → m'.s.regs .mcycle = mcycleEnd)) ↔
      ¬ Overwaits fp fuel mcycleEnd m) := by
  refine ⟨fun x y _ hstep => hstep.mcycle_le, ?_⟩
  cases interpret_steps hrun with
  | halted hH =>
    refine ⟨BitVec.le_refl _, fun _ => ?_, fun _ => ⟨hle, fun h => nomatch h⟩⟩
    rintro ⟨_, _, _, _, hvisits, _⟩
    exact hH hvisits.iflagsH
  | yielded hH hY =>
    refine ⟨BitVec.le_refl _, fun _ => ?_, fun _ => ⟨hle, fun h => nomatch h⟩⟩
    rintro ⟨_, _, _, _, hvisits, _⟩
    exact hY hvisits.iflagsY
  | reached hH hY hge =>
    refine ⟨BitVec.le_refl _, fun _ => ?_, fun _ => ⟨hle, fun _ => BitVec.le_antisymm hle hge⟩⟩
    rintro ⟨_, _, _, _, hvisits, _⟩
    exact BitVec.not_lt.mpr hge hvisits.lt
  | ran hH hY hlt hsteps =>
    refine ⟨hsteps.mcycle_le, fun hwithin hover => ?_, fun hwait => ?_⟩
    · exact BitVec.not_lt.mpr hwithin.1 (hover.lt hsteps)
    · exact Visits.within hwait ⟨hH, hY, hlt, hsteps⟩

/-- In unreproducible mode the wait goes on until the timer interrupt at cycle 8192, and the run that should
have ended at cycle 100 reports that it has reached its target. -/
theorem interpret_overwaits :
    ∃ m', (interpret .zero 100).run (stateAccess 0) (waitingMachine 1) = .ok .reachedTargetMcycle m' ∧
      (waitingMachine 1).s.regs .mcycle = 0 ∧ m'.s.regs .mcycle = 8193 := ⟨_, rfl, rfl, rfl⟩

/-- In reproducible mode the wait takes one cycle. -/
theorem interpret_mcycle_reproducible :
    ∃ m', (interpret .zero 1).run (stateAccess 0) (waitingMachine 0) = .ok .reachedTargetMcycle m' ∧
      ¬ Overwaits .zero 0 1 (waitingMachine 0) ∧ m'.s.regs .mcycle = 1 := by
  have hwait : ¬ Overwaits .zero 0 1 (waitingMachine 0) := not_overwaits_of_reproducible rfl
  obtain ⟨-, -, hiff⟩ := interpret_mcycle_iff .zero 0 1 (waitingMachine 0) (by decide) _ _ rfl
  exact ⟨_, rfl, hwait, (hiff.mpr hwait).2 rfl⟩

end MachineEmulator.Interpret
