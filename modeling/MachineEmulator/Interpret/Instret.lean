import MachineEmulator.Interpret.CycleTarget
import MachineEmulator.Interpret.StepEffects

/-!
# The counter of retired instructions

`minstret` is not kept: it is the difference of the cycle counter and of `icycleinstret`, which counts the
cycles in which nothing was retired. Every trap adds one to it. For an exception this makes up for the cycle
that the instruction takes, but an interrupt takes no cycle, and the counter goes back by one. A wait of `WFI`
in unreproducible mode takes many cycles, which are all counted as instructions.

* `InstretEvent.count` : what each step should do to the counter;
* `minstret_iff` : it does, exactly if it takes no interrupt and does not wait.
-/

namespace MachineEmulator.Interpret

open EStateM LoopState List

variable {fuel : Nat} {fp : SoftFloat} {m m' : RunState}

/-- The counter at a place of the loops. -/
def LoopState.minstret (x : LoopState RunState) : Word := x.mcycle - x.state.s.regs .icycleinstret

/-! ## What instructions do to the counter -/

variable {mcycle val : Word} {x y : LoopState RunState}

/-- A write of `minstret` anticipates the cycle of the instruction. -/
theorem wlp_writeCsrOf_instret {csr : Csr} :
    Wlp ((writeCsrOf mcycle val csr).exec fuel) (fun _ m' => m'.s.regs .icycleinstret =
      if csr = .minstret then mcycle + 1 - val else m.s.regs .icycleinstret) m := by
  cases csr
  case mstatus => exact wlp_writeCsrMstatus fun d => rfl
  case sstatus =>
    simp only [writeCsrOf, writeCsrSstatus, wlp_run_bind, wlp_read]
    exact wlp_writeCsrMstatus fun d => rfl
  case satp =>
    simp only [writeCsrOf, writeCsrSatp, wlp_run_bind, wlp_read, wlp_write, wlp_run_ite,
      wlp_run_pure]
    refine ⟨fun _ => ?_, fun _ => ⟨fun _ => ⟨fun _ => wlp_flushAllTlb fun d => ?_, fun _ => ?_⟩, fun _ => ?_⟩⟩ <;> rfl
  all_goals
    simp [writeCsrOf, writeCsrFp, writeCsrSie, writeCsrSip, writeCsrInterrupts, writeCsrReg, writeCsrMasked,
      writeCsrMenvcfg, writeCsrMinstret]

theorem wlp_writeCsr_instret {csraddr : CsrAddress} :
    Wlp ((writeCsr mcycle csraddr val).exec fuel) (fun status m' => m'.s.regs .icycleinstret =
      if csrAt csraddr = some .minstret ∧ status ≠ .failure then mcycle + 1 - val
      else m.s.regs .icycleinstret) m := by
  simp only [writeCsr, wlp_run_ite, wlp_run_pure, wlp_run_bind, wlp_read]
  refine ⟨fun _ => by simp, fun _ => ⟨fun _ => by simp, fun _ => ?_⟩⟩
  cases csrAt csraddr with
  | none => simp
  | some csr =>
    by_cases hcsr : csr = .minstret
    · subst hcsr
      simp [writeCsrOf, writeCsrMinstret]
    · refine wlp_writeCsrOf_instret.mono fun status m' hm' => ?_
      rw [if_neg hcsr] at hm'
      rw [if_neg fun h => hcsr (Option.some.inj h.1), hm']

def WritesMinstret (fuel : Nat) {α : Type} (p : IProg α) (m : RunState) (val : Word) : Prop :=
  ∃ mcycle csraddr m1 status m2, p.Asked (insnAccess fuel) m (.writeCsr mcycle csraddr val) m1 ∧
    insnAccess fuel (.writeCsr mcycle csraddr val) m1 = .ok status m2 ∧ status ≠ .failure ∧
    csrAt csraddr = some .minstret

/-- An exception adds one to the cycles in which nothing was retired. An instruction that completes leaves
their number alone, or writes the counter. -/
def InstretPhase (icycleinstret mcycle : Word) (W : Word → Prop) : Phase → RunState → Prop
  | .running, m | .loaded, m => m.s.regs .icycleinstret = icycleinstret
  | .raised _, m => m.s.regs .icycleinstret = icycleinstret + 1
  | .retired _, m => m.s.regs .icycleinstret = icycleinstret ∨
    ∃ val, W val ∧ m.s.regs .icycleinstret = mcycle + 1 - val

@[simp] theorem trapped_icycleinstret (m : RunState) (pc cause tval : Word) (d : Nat → Bool) :
    (m.trapped pc cause tval d).s.regs .icycleinstret = m.s.regs .icycleinstret + 1 := by
  show trapRegs m.s.regs pc cause tval .icycleinstret = _
  unfold trapRegs
  split <;> rfl

theorem DeviceFrame.icycleinstret (h : DeviceFrame m m') :
    m'.s.regs .icycleinstret = m.s.regs .icycleinstret := h.regs _ (by decide)

theorem instretPhase_insn {C : (o : InsnOp) → RunState → o.Ans → RunState → Prop} (icycleinstret mcycle : Word)
    (W : Word → Prop) (hC : ∀ {mcycle' csraddr val m status m'}, C (.writeCsr mcycle' csraddr val) m status m' →
      m'.s.regs .icycleinstret = m.s.regs .icycleinstret ∨
        W val ∧ m'.s.regs .icycleinstret = mcycle + 1 - val) (amo : Bool) (pc : Word) :
    InsnInvariantOn C amo pc (InstretPhase icycleinstret mcycle W) where
  write {q m r v x} _ hq hr hI := by
    have hsame : (m.writeReg r v).s.regs .icycleinstret = m.s.regs .icycleinstret := by
      refine Function.update_of_ne ?_ _ _
      cases hr <;> simp
    cases q with
    | running | loaded => exact .inl (hsame.trans hI)
    | retired => exact hI.imp hsame.trans fun ⟨val, hW, hval⟩ => ⟨val, hW, hsame.trans hval⟩
    | raised newPc => exact absurd rfl (hq newPc)
  load {m size raiseStore mcycle vaddr r m'} _ hI hl := by
    cases hl with
    | hit => exact hI
    | memory htr => exact (congrFun htr.regs _).trans hI
    | device htr hp hR hio hd => exact hd.deviceFrame.icycleinstret.trans ((congrFun htr.regs _).trans hI)
    | raised htr =>
      show _ = _
      rw [trapped_icycleinstret, htr.regs, hI]
  store {q m size vaddr val r m'} _ hq hI hs := by
    have hI : m.s.regs .icycleinstret = icycleinstret := by
      rcases hq with rfl | ⟨-, rfl⟩ <;> exact hI
    cases hs with
    | hit hl hs => exact .inl ((congrFun (storeHost_regs hs) _).trans hI)
    | memory htr hp hW hM hs =>
      exact .inl ((congrFun (storeHost_regs hs) _).trans ((congrFun htr.regs _).trans hI))
    | device htr hp hW hio hstatus hd =>
      rw [Phase.ofOutcome, if_neg hstatus]
      exact .inl (hd.icycleinstret.trans ((congrFun htr.regs _).trans hI))
    | raised htr =>
      show _ = _
      rw [trapped_icycleinstret, htr.regs, hI]
  csr {m mcycle' csraddr val status m'} hw hI hc := by
    unfold Phase.ofCsr
    split_ifs with hs
    · rw [hc.eq_of_failure hs]
      exact hI
    · exact (hC hw).imp (·.trans hI) fun h => ⟨val, h⟩
  raise hI := by
    show _ = _
    rw [trapped_icycleinstret, hI]
  sret hI _ := .inl ((RunState.returned_regs (by decide) _ _ _).trans hI)
  mret hI _ := .inl ((RunState.returned_regs (by decide) _ _ _).trans hI)
  sfence hI := .inl hI

/-- Instructions write control and status registers at their own cycle. -/
theorem asks_writeCsr_mcycle (fp : SoftFloat) (pc mcycle : Word) (insn : Insn) :
    (executeInsn fp pc mcycle insn).Asks fun o : InsnOp =>
      ∀ mcycle' csraddr val, o = .writeCsr mcycle' csraddr val → mcycle' = mcycle := by
  obtain ⟨-, hwfi⟩ | ⟨p, hp, hphased⟩ := executeInsn_cases fp pc mcycle insn
  · rw [hwfi]
    exact .perform (by rintro _ _ _ ⟨⟩)
  · rw [hp]
    refine Prog.Asks.bind (hphased.asks fun q o ho => ?_) fun _ => .pure _
    rintro mcycle' csraddr val rfl
    exact ho.2

/-- What an instruction does to the cycles in which nothing is retired. -/
theorem wlp_executeInsn_instret {pc : Word} {insn : Insn} :
    Wlp ((executeInsn fp pc mcycle insn).access.exec fuel) (fun r m' =>
      (r.1.1 = .failure → r.2 = mcycle ∧ m'.s.regs .icycleinstret = m.s.regs .icycleinstret + 1) ∧
      (r.1.1 ≠ .failure → m'.s.regs .icycleinstret = m.s.regs .icycleinstret ∨
        ∃ val, WritesMinstret fuel (executeInsn fp pc mcycle insn) m val ∧
          m'.s.regs .icycleinstret = mcycle + 1 - val)) m := by
  refine InsnInvariantOn.wlp_executeInsn
    (C := fun o m1 x m2 => (executeInsn fp pc mcycle insn).Asked (insnAccess fuel) m o m1 ∧
      insnAccess fuel o m1 = .ok x m2)
    (instretPhase_insn (m.s.regs .icycleinstret) mcycle (WritesMinstret fuel (executeInsn fp pc mcycle insn) m)
      ?_ _ pc) fp rfl (fun _ => ?_) (fun q outcome m' hq hacc => ?_) fun o m1 x m2 ho hx => ⟨ho, hx⟩
  · rintro mcycle' csraddr val m1 status m2 ⟨hasked, hx⟩
    obtain rfl := (asks_writeCsr_mcycle fp pc mcycle insn).of_asked hasked _ _ _ rfl
    have hw := wlp_writeCsr_instret _ _ hx
    dsimp only at hw
    split_ifs at hw with hcsr
    · exact .inr ⟨⟨_, csraddr, m1, status, m2, hasked, hx, hcsr.2, hcsr.1⟩, hw⟩
    · exact .inl hw
  · refine wlp_executeWFI (fun d => ⟨fun _ => ⟨rfl, trapped_icycleinstret _ _ _ _ _⟩, fun hne => absurd rfl hne⟩)
      (fun r m' _ _ hpoll => ⟨fun hf => ?_, fun _ => .inl hpoll.toDeviceFrame.icycleinstret⟩)
      ⟨(nomatch ·), fun _ => .inl rfl⟩
    split_ifs at hf
  · refine ⟨fun hf => ⟨rfl, ?_⟩, fun hok => ?_⟩
    · obtain rfl := hacc.eq_raised hf
      exact hq
    · cases q with
      | running | loaded => exact .inl hq
      | retired => exact hq
      | raised newPc => exact absurd (congrArg Prod.fst hacc) hok

/-- Once an instruction has had its effect, it leaves the counter alone. -/
def RetiredPhase (v : Word) : Phase → RunState → Prop
  | .retired _, m => m.s.regs .icycleinstret = v
  | _, _ => False

theorem retiredPhase_insn (v : Word) (amo : Bool) (pc : Word) : InsnInvariant amo pc (RetiredPhase v) where
  write {q m r v x} _ _ hr hI := by
    cases q with
    | retired =>
      refine Eq.trans (Function.update_of_ne ?_ _ _) hI
      cases hr <;> simp
    | running | loaded | raised => exact hI.elim
  load _ hI _ := hI.elim
  store _ hq hI _ := by
    rcases hq with rfl | ⟨-, rfl⟩ <;> exact hI.elim
  csr _ hI _ := hI.elim
  raise hI := hI.elim
  sret hI _ := hI.elim
  mret hI _ := hI.elim
  sfence hI := hI.elim

theorem executeInsn_written {pc : Word} {insn : Insn} {r : Outcome × Word}
    (hw : WritesMinstret fuel (executeInsn fp pc mcycle insn) m val)
    (hrun : (executeInsn fp pc mcycle insn).access.exec fuel m = .ok r m') :
    r.2 = mcycle ∧ m'.s.regs .icycleinstret = mcycle + 1 - val := by
  obtain ⟨mcycle', csraddr, m1, status, m2, hasked, hx, hok, hcsr⟩ := hw
  obtain rfl := (asks_writeCsr_mcycle fp pc mcycle insn).of_asked hasked _ _ _ rfl
  rw [AProg.exec, run_access] at hrun
  obtain ⟨-, hwfi⟩ | ⟨p, hp, hphased⟩ := executeInsn_cases fp pc mcycle' insn
  · rw [hwfi] at hasked
    obtain ⟨h, -⟩ := Prog.asked_perform.mp hasked
    cases h
  · rw [hp, Insn.withMcycle] at hasked hrun
    obtain hasked | ⟨_, _, -, hret⟩ := Prog.asked_bind.mp hasked
    · rw [Prog.run_bind] at hrun
      obtain ⟨outcome, m3, hrun, hret⟩ := bind_ok_iff.mp hrun
      cases hret
      have htrivial : (insnMonitor (isAmo insn) pc mcycle').Kept (insnAccess fuel) fun _ _ => True :=
        fun _ _ _ _ _ _ _ _ _ => trivial
      obtain ⟨q, y, m4, k, hq, -, hy, hk, hrest⟩ := hphased.split_asked htrivial trivial hasked hrun
      obtain ⟨rfl, rfl⟩ := Result.ok.inj (hx.symm.trans hy)
      have hval := wlp_writeCsr_instret _ _ hx
      dsimp only at hval
      rw [if_pos ⟨hcsr, hok⟩] at hval
      -- the write has retired the instruction
      have hphase : (insnMonitor (isAmo insn) pc mcycle').next q (.writeCsr mcycle' csraddr val) status =
          .retired status := if_neg hok
      rw [hphase] at hk
      obtain ⟨q', hq', -⟩ := hk.run (retiredPhase_insn _ _ pc).kept
        (show RetiredPhase _ (.retired status) _ from hval) hrest
      cases q' with
      | retired => exact ⟨rfl, hq'⟩
      | running | loaded | raised => exact hq'.elim
    · exact hret.elim

/-! ## Events -/

/-- What happens to the counter in a step. -/
inductive InstretEvent where
  /-- The work between instructions, and interrupts with it. -/
  | none
  | exception
  | retired
  | written (val : Word)

def InstretEvent.count : InstretEvent → Word → Word
  | .none, n | .exception, n => n
  | .retired, n => n + 1
  | .written val, _ => val

def InstretEvent.isRetired : InstretEvent → Bool
  | .retired => true
  | .none | .exception | .written _ => false

inductive InstretStep (fp : SoftFloat) (fuel : Nat) :
    LoopState RunState → InstretEvent → LoopState RunState → Prop
  | between {x y : LoopState RunState} (hstep : RunStep fp fuel x y)
    (hplace : ∀ mcycleTickEnd c m, x = .inner mcycleTickEnd c m → ¬ c.mcycle < mcycleTickEnd) :
    InstretStep fp fuel x .none y
  | fault {mcycleTickEnd newPc : Word} {c : Cursor} {m m' : RunState} {cache : FetchCache}
    {y : LoopState RunState} (hstep : RunStep fp fuel (.inner mcycleTickEnd c m) y)
    (hlt : c.mcycle < mcycleTickEnd)
    (hfetch : (fetchInsn c.pc c.cache).run (stateAccess fuel) m = .ok (cache, .error newPc) m') :
    InstretStep fp fuel (.inner mcycleTickEnd c m) .exception y
  | exception {x y : LoopState RunState} {c : Cursor} {insn : Insn} {m1 m2 : RunState} {r : Outcome × Word}
    (hstep : RunStep fp fuel x y) (he : Executes (stateAccess fuel) fp x c insn m1 r m2)
    (hfail : r.1.1 = .failure) : InstretStep fp fuel x .exception y
  | retired {x y : LoopState RunState} {c : Cursor} {insn : Insn} {m1 m2 : RunState} {r : Outcome × Word}
    (hstep : RunStep fp fuel x y) (he : Executes (stateAccess fuel) fp x c insn m1 r m2)
    (hok : r.1.1 ≠ .failure) (hno : ∀ val, ¬ WritesMinstret fuel (executeInsn fp c.pc c.mcycle insn) m1 val) :
    InstretStep fp fuel x .retired y
  | written {x y : LoopState RunState} {c : Cursor} {insn : Insn} {m1 m2 : RunState} {r : Outcome × Word}
    {val : Word} (hstep : RunStep fp fuel x y) (he : Executes (stateAccess fuel) fp x c insn m1 r m2)
    (hok : r.1.1 ≠ .failure) (hw : WritesMinstret fuel (executeInsn fp c.pc c.mcycle insn) m1 val) :
    InstretStep fp fuel x (.written val) y

theorem RunStep.exists_event (hstep : RunStep fp fuel x y) : ∃ e, InstretStep fp fuel x e y := by
  cases x with
  | outer | done => exact ⟨.none, .between hstep fun _ _ _ h => by cases h⟩
  | inner mcycleTickEnd c m =>
    by_cases hlt : c.mcycle < mcycleTickEnd
    · cases hstep with
      | loop hloop =>
        cases hloop.effect with
        | tick hge => exact absurd hlt hge
        | faulted hlt hregs hfetch => exact ⟨.exception, .fault (.loop hloop) hlt hfetch⟩
        | executed he =>
          rename_i c insn m1 m2 r _ _ _
          by_cases hok : r.1.1 = .failure
          · exact ⟨.exception, .exception (.loop hloop) he hok⟩
          · by_cases hw : ∃ val, WritesMinstret fuel (executeInsn fp c.pc c.mcycle insn) m1 val
            · obtain ⟨val, hw⟩ := hw
              exact ⟨.written val, .written (.loop hloop) he hok hw⟩
            · exact ⟨.retired, .retired (.loop hloop) he hok (not_exists.mp hw)⟩
    · exact ⟨.none, .between hstep fun _ _ _ h => by cases h; exact hlt⟩

def TakesInterrupt (fuel : Nat) (x y : LoopState RunState) : Prop :=
  ∃ c m m1 mcycleTickEnd c' m', x = .outer c m ∧ y = .inner mcycleTickEnd c' m' ∧
    (tickWork c).run (stateAccess fuel) m = .ok () m1 ∧ pendingMask m1.s.regs ≠ 0

/-- A `WFI` is not refused, and its timer interrupt is to come. -/
def WfiPolls (m : RunState) (mcycle : Word) : Prop :=
  ¬ (m.s.regs .iprv = prvU ∨ m.s.regs .iprv < prvM ∧ m.s.regs .mstatus &&& mstatusTwMask ≠ 0) ∧
    mcycle < rtcTimeToCycle (m.s.regs .clintMtimecmp)

/-- The instruction at the place `x` is a `WFI`, and the poll for interrupts answers with a later cycle. -/
def Waits (fuel : Nat) (x : LoopState RunState) : Prop :=
  ∃ c m1 mcycle' interrupted m2, Fetches (stateAccess fuel) x c wfiInsn m1 ∧ WfiPolls m1 c.mcycle ∧
    doPollExternalInterrupts fuel c.mcycle (rtcTimeToCycle (m1.s.regs .clintMtimecmp)) m1 =
      .ok (mcycle', interrupted) m2 ∧ mcycle' ≠ c.mcycle

theorem wlp_executeWFI_polls {pc : Word} {insn : Insn} :
    Wlp ((executeWFI pc mcycle insn).exec fuel) (fun r m' => ¬ WfiPolls m mcycle ∧ r.2 = mcycle ∨
      WfiPolls m mcycle ∧ ∃ interrupted, doPollExternalInterrupts fuel mcycle
        (rtcTimeToCycle (m.s.regs .clintMtimecmp)) m = .ok (r.2, interrupted) m') m := by
  simp only [executeWFI, wlp_run_bind, wlp_read, wlp_run_ite, wlp_run_pure]
  refine ⟨fun hno => wlp_raiseIllegal fun d => .inl ⟨fun h => h.1 hno, trivial⟩, fun hprv => ⟨fun hlt => ?_, fun hge =>
    .inl ⟨fun h => hge h.2, trivial⟩⟩⟩
  refine (wlp_op (o := .pollExternalInterrupts _ _)).mpr fun r m' hpoll => ?_
  exact .inr ⟨⟨hprv, hlt⟩, r.2, hpoll⟩

theorem waits_iff {c : Cursor} {insn : Insn} {m1 m2 : RunState} {r : Outcome × Word}
    (he : Executes (stateAccess fuel) fp x c insn m1 r m2) : Waits fuel x ↔ r.2 ≠ c.mcycle := by
  have hexec : (executeInsn fp c.pc c.mcycle insn).access.exec fuel m1 = .ok r m2 := by
    cases he with
    | intro _ _ hexec => exact hexec
  constructor
  · rintro ⟨c', m1', mcycle', interrupted, m2', hf, hpolls, hpoll, hne⟩
    obtain ⟨rfl, rfl, rfl⟩ := he.fetches.unique hf
    rw [AProg.exec, run_access, executeInsn_wfi, run_wfi] at hexec
    rcases wlp_executeWFI_polls _ _ hexec with ⟨hno, -⟩ | ⟨-, i, hpoll'⟩
    · exact absurd hpolls hno
    · cases hpoll.symm.trans hpoll'
      exact hne
  · intro hne
    obtain ⟨rfl, hwfi⟩ := (executeInsn_mcycle hexec).resolve_left hne
    rcases wlp_executeWFI_polls _ _ hwfi with ⟨-, heq⟩ | ⟨hpolls, i, hpoll⟩
    · exact absurd heq hne
    · exact ⟨c, m1, _, i, m2, he.fetches, hpolls, hpoll, hne⟩

/-- The step takes no interrupt and does not wait. -/
def Counted (fuel : Nat) (x y : LoopState RunState) : Prop :=
  ¬ TakesInterrupt fuel x y ∧ ¬ Waits fuel x

section Counted
variable {x y : LoopState RunState}

variable {c : Cursor}

theorem counted_of_inner {mcycleTickEnd : Word}
    (hw : ¬ Waits fuel (.inner mcycleTickEnd c m)) : Counted fuel (.inner mcycleTickEnd c m) y :=
  ⟨fun ⟨_, _, _, _, _, _, hx, _⟩ => (by cases hx), hw⟩

/-- Between instructions only an interrupt changes the counter. -/
theorem count_between (hstep : RunStep fp fuel x y)
    (hplace : ∀ mcycleTickEnd c m, x = .inner mcycleTickEnd c m → ¬ c.mcycle < mcycleTickEnd) :
    y.minstret = x.minstret ↔ Counted fuel x y := by
  have hwaits : ¬ Waits fuel x := by
    rintro ⟨c, m1, mcycle', interrupted, m2, hf, -⟩
    cases hf with
    | intro hlt => exact hplace _ _ _ rfl hlt
  cases hstep with
  | resume => exact iff_of_true rfl ⟨fun ⟨_, _, _, _, _, _, hx, _⟩ => (by cases hx), hwaits⟩
  | loop hloop =>
    cases hloop.effect with
    | @served c m m1 mcycleTickEnd htick hnone =>
      refine iff_of_true ?_ ⟨?_, hwaits⟩
      · exact congrArg (c.mcycle - ·) ((wlp_tickWork _ _ htick).regs _ (by decide) (by decide))
      · rintro ⟨_, _, m1', _, _, _, hx, -, htick', hpend⟩
        cases hx
        cases htick.symm.trans htick'
        exact hpend hnone
    | @interrupted c m m1 mcycleTickEnd pc cause d htick hpend =>
      refine iff_of_false ?_ fun h => h.1 ⟨c, m, m1, _, _, _, rfl, rfl, htick, hpend⟩
      have hsame : m1.s.regs .icycleinstret = m.s.regs .icycleinstret :=
        (wlp_tickWork _ _ htick).regs _ (by decide) (by decide)
      show c.mcycle - (m1.trapped c.pc cause 0 d).s.regs .icycleinstret ≠ c.mcycle - m.s.regs .icycleinstret
      rw [trapped_icycleinstret, hsame]
      bv_omega
    | finished => exact iff_of_true rfl ⟨fun ⟨_, _, _, _, _, _, _, hy, _⟩ => (by cases hy), hwaits⟩
    | tick => exact iff_of_true rfl (counted_of_inner hwaits)
    | faulted hlt => exact absurd hlt (hplace _ _ _ rfl)
    | executed he =>
      cases he with
      | intro hlt => exact absurd hlt (hplace _ _ _ rfl)

theorem count_fault {mcycleTickEnd newPc : Word} {cache : FetchCache}
    (hstep : RunStep fp fuel (.inner mcycleTickEnd c m) y)
    (hfetch : (fetchInsn c.pc c.cache).exec fuel m = .ok (cache, .error newPc) m')
    (hlt : c.mcycle < mcycleTickEnd) :
    y.minstret = (inner mcycleTickEnd c m).minstret ∧ Counted fuel (.inner mcycleTickEnd c m) y := by
  have hno : ∀ {c' insn m1}, ¬ Fetches (stateAccess fuel) (.inner mcycleTickEnd c m) c' insn m1 := by
    intro c' insn m1 hf
    cases hf with
    | intro _ hfetch' => cases hfetch.symm.trans hfetch'
  refine ⟨?_, counted_of_inner fun ⟨_, _, _, _, _, hf, _⟩ => hno hf⟩
  cases hstep with
  | loop hloop =>
    cases hloop.effect with
    | tick hge => exact absurd hlt hge
    | @faulted _ newPc cause tval c m m1 cache d hlt hregs hfetch =>
      show c.mcycle + 1 - (m1.trapped c.pc cause tval d).s.regs .icycleinstret = c.mcycle - m.s.regs .icycleinstret
      rw [trapped_icycleinstret, hregs]
      bv_omega
    | executed he => exact absurd he.fetches hno

/-- What an instruction does to the counter, from what it does to its parts. -/
theorem count_executes {insn : Insn} {m1 m2 : RunState} {r : Outcome × Word}
    (hstep : RunStep fp fuel x y) (he : Executes (stateAccess fuel) fp x c insn m1 r m2) :
    x.minstret = c.mcycle - m1.s.regs .icycleinstret ∧ y.minstret = r.2 + 1 - m2.s.regs .icycleinstret ∧
      (Counted fuel x y ↔ r.2 = c.mcycle) := by
  obtain ⟨hfetch, hregs, hmcycle⟩ := hstep.of_executes he
  refine ⟨?_, ?_, ?_⟩
  · rw [minstret, ← hfetch]
    cases he
    rfl
  · rw [minstret, hmcycle, hregs _ (by decide)]
  · have hwaits := waits_iff he
    cases he
    rw [← not_iff_not, ← ne_eq, ← hwaits]
    constructor
    · intro h
      by_contra hno
      exact h (counted_of_inner hno)
    · exact fun hw h => h.2 hw

end Counted

/-- A step does to the counter what its event should, exactly if it takes no interrupt and does not wait. -/
theorem InstretStep.count_iff {e : InstretEvent} (h : InstretStep fp fuel x e y) :
    y.minstret = e.count x.minstret ↔ Counted fuel x y := by
  cases h with
  | between hstep hplace => exact count_between hstep hplace
  | fault hstep hlt hfetch =>
    obtain ⟨hsame, hcounted⟩ := count_fault hstep hfetch hlt
    exact iff_of_true hsame hcounted
  | @exception _ _ c insn m1 m2 r hstep he hfail =>
    obtain ⟨hx, hy, hcounted⟩ := count_executes hstep he
    obtain ⟨hmcycle, hcount⟩ : r.2 = c.mcycle ∧
        m2.s.regs .icycleinstret = m1.s.regs .icycleinstret + 1 := by
      cases he with
      | intro _ _ hexec => exact (wlp_executeInsn_instret _ _ hexec).1 hfail
    refine iff_of_true ?_ (hcounted.mpr hmcycle)
    rw [InstretEvent.count, hx, hy, hmcycle, hcount]
    bv_omega
  | @retired _ _ c insn m1 m2 r hstep he hok hno =>
    obtain ⟨hx, hy, hcounted⟩ := count_executes hstep he
    have hcount : m2.s.regs .icycleinstret = m1.s.regs .icycleinstret := by
      cases he with
      | intro _ _ hexec =>
        refine ((wlp_executeInsn_instret _ _ hexec).2 hok).resolve_right ?_
        rintro ⟨val, hw, -⟩
        exact hno val hw
    rw [hcounted, InstretEvent.count, hx, hy, hcount]
    bv_omega
  | @written _ _ c insn m1 m2 r val hstep he hok hw =>
    obtain ⟨hx, hy, hcounted⟩ := count_executes hstep he
    obtain ⟨hmcycle, hcount⟩ : r.2 = c.mcycle ∧ m2.s.regs .icycleinstret = c.mcycle + 1 - val := by
      cases he with
      | intro _ _ hexec => exact executeInsn_written hw hexec
    refine iff_of_true ?_ (hcounted.mpr hmcycle)
    rw [InstretEvent.count, hy, hmcycle, hcount]
    bv_omega

/-! ## Runs -/

/-- A history whose steps take no interrupts and do not wait, with its events. -/
inductive CountedRun (fp : SoftFloat) (fuel : Nat) :
    LoopState RunState → List InstretEvent → LoopState RunState → Prop
  | nil {x : LoopState RunState} : CountedRun fp fuel x [] x
  | cons {x y z : LoopState RunState} {e : InstretEvent} {es : List InstretEvent}
    (hstep : InstretStep fp fuel x e y) (hcounted : Counted fuel x y) (hrun : CountedRun fp fuel y es z) :
    CountedRun fp fuel x (e :: es) z

theorem CountedRun.minstret {es : List InstretEvent} (h : CountedRun fp fuel x es y) :
    y.minstret = es.foldl (fun n e => e.count n) x.minstret := by
  induction h with
  | nil => rfl
  | cons hstep hcounted _ ih => rw [ih, hstep.count_iff.mpr hcounted, foldl_cons]

/-- The number of retired instructions since the counter was `n`, with no write. -/
theorem foldl_count {es : List InstretEvent} (hes : ∀ val, .written val ∉ es) (n : Word) :
    es.foldl (fun n e => e.count n) n = n + BitVec.ofNat 64 (es.countP InstretEvent.isRetired) := by
  induction es generalizing n with
  | nil => simp
  | cons e es ih =>
    have hes' : ∀ val, .written val ∉ es := fun val hmem => hes val (mem_cons_of_mem _ hmem)
    rw [foldl_cons, ih hes', countP_cons]
    cases e with
    | none | exception => rfl
    | retired =>
      show n + 1 + BitVec.ofNat 64 _ = n + BitVec.ofNat 64 (_ + 1)
      rw [BitVec.ofNat_add, BitVec.add_assoc, BitVec.add_comm 1]
      rfl
    | written val => exact absurd mem_cons_self (hes val)

theorem wlp_readCsr_instret {csraddr : CsrAddress}
    (hcsr : csrAt csraddr = some .minstret ∨ csrAt csraddr = some .uinstret) :
    Wlp ((readCsr mcycle csraddr).exec fuel)
      (fun r _ => ∀ val, r = some val → mcycle - m.s.regs .icycleinstret = val) m := by
  simp only [readCsr, wlp_run_bind, wlp_read, wlp_run_ite, wlp_run_pure]
  refine ⟨by simp, fun _ => ?_⟩
  obtain hcsr | hcsr := hcsr <;> rw [hcsr] <;>
    simp [readCsrOf, readCsrCounter, rdcounteren, readCsrMinstret]

/-- A step does to the counter what its event should, exactly if it takes no interrupt and does not wait. In
every history of such steps the counter is, after a write, the value that was written and the number of
instructions retired since, and this is what a read returns. -/
theorem minstret_iff (fp : SoftFloat) (fuel : Nat) :
    (∀ x y, RunStep fp fuel x y → ∃ e, InstretStep fp fuel x e y) ∧ (∀ x e y, InstretStep fp fuel x e y →
      (y.minstret = e.count x.minstret ↔ ¬ TakesInterrupt fuel x y ∧ ¬ Waits fuel x)) ∧
    (∀ x es y, CountedRun fp fuel x es y → y.minstret = es.foldl (fun n e => e.count n) x.minstret) ∧
    (∀ x val es y, CountedRun fp fuel x (.written val :: es) y → (∀ val', .written val' ∉ es) →
      y.minstret = val + BitVec.ofNat 64 (es.countP InstretEvent.isRetired)) ∧
    ∀ mcycleTickEnd c m csraddr val m', csrAt csraddr = some .minstret ∨ csrAt csraddr = some .uinstret →
      (readCsr c.mcycle csraddr).run (stateAccess fuel) m = .ok (some val) m' →
      val = (LoopState.inner mcycleTickEnd c m).minstret := by
  refine ⟨fun x y hstep => hstep.exists_event, fun x e y hstep => hstep.count_iff,
    fun x es y hrun => hrun.minstret, ?_, ?_⟩
  · intro x val es y hrun hes
    rw [hrun.minstret, foldl_cons, foldl_count hes]
    rfl
  · intro mcycleTickEnd c m csraddr val m' hcsr hrun
    exact (wlp_readCsr_instret hcsr _ _ hrun val rfl).symm

/-- A machine about to execute the given instruction words, with interrupts pending and enabled. -/
def instretMachine (mip : Word) (insns : List Insn) : RunState :=
  .created smallBoard
    { regs := fun r => ([(.mip, mip), (.mie, mipMsipMask), (.mstatus, mstatusMieMask)].lookup r).getD (initRegs r)
      image := writeBytes (fun _ => 0) pmaRamStart.toNat (insns.flatMap fun insn => toLE 4 insn.toNat)
      uarchRam := fun _ => 0 } fun _ => 0

/-- The interrupt takes one from the counter. -/
theorem minstret_interrupted : ∃ y, InstretStep .zero 0 (.start (instretMachine mipMsipMask [])) .none y ∧
      (LoopState.start (instretMachine mipMsipMask [])).minstret = 0 ∧ y.minstret = -1 := by
  have hrun : ((serveInterrupts (.start pmaRamStart 0)).run (stateAccess 0)).succeedsWith
      ((instretMachine mipMsipMask []).writeReg .iflagsX 0) (fun c m =>
        c.mcycle - m.s.regs .icycleinstret = -1) = true := by
    decide
  obtain ⟨c, m, hserve, hcount⟩ := exists_of_succeedsWith hrun
  have hstep : LoopStep (stateAccess 0) .zero 1 (.start (instretMachine mipMsipMask []))
      (.inner (tickEnd 1 c.mcycle) c m) := .serveInterrupts (by decide) hserve
  refine ⟨_, .between (.loop hstep) ?_, rfl, of_decide_eq_true hcount⟩
  intro _ _ _ hx
  cases hx

/-- An instruction that does nothing is counted. -/
theorem minstret_nop :
    ∃ x y, x.minstret = 0 ∧ InstretStep .zero 0 x .retired y ∧ ¬ TakesInterrupt 0 x y ∧ ¬ Waits 0 x ∧
      y.minstret = 1 := by
  let h := stateAccess 0
  let c : Cursor := .start pmaRamStart 0
  let m := instretMachine 0 [0x13]
  have hnop : executeInsn .zero c.pc c.mcycle 0x13 = pure ((.success, c.pc + 4), 0) := rfl
  have hrun : ((fetchInsn c.pc c.cache).run h).succeedsWith m (fun r _ => r.2 = .ok 0x13) = true := by
    decide
  obtain ⟨⟨cache, _⟩, m1, hfetch, hinsn⟩ := exists_of_succeedsWith hrun
  obtain rfl := of_decide_eq_true hinsn
  have he : Executes h .zero (.inner 1 c m) c 0x13 m1 ((.success, c.pc + 4), 0) m1 := by
    refine .intro (by decide) hfetch ?_
    rw [hnop]
    rfl
  have hstep : LoopStep h .zero 1 (.inner 1 c m) (.inner 1 ⟨c.pc + 4, 1, cache⟩ m1) := by
    refine .next (by decide) ?_
    rw [innerStep, Prog.run_bind]
    refine bind_ok_iff.mpr ⟨_, _, hfetch, ?_⟩
    dsimp only
    rw [hnop]
    rfl
  have hretired : InstretStep .zero 0 (.inner 1 c m) .retired (.inner 1 ⟨c.pc + 4, 1, cache⟩ m1) := by
    refine .retired (.loop hstep) he (by decide) ?_
    rintro val ⟨_, _, _, _, _, hasked, -⟩
    rw [hnop] at hasked
    exact hasked.elim
  have hcounted : Counted 0 (.inner 1 c m) (.inner 1 ⟨c.pc + 4, 1, cache⟩ m1) := by
    refine counted_of_inner fun hw => ?_
    exact (waits_iff he).mp hw rfl
  have hzero : (inner 1 c m).minstret = 0 := by decide
  have hone := ((minstret_iff .zero 0).2.1 _ _ _ hretired).mpr hcounted
  rw [hzero] at hone
  exact ⟨_, _, hzero, hretired, hcounted.1, hcounted.2, hone⟩

end MachineEmulator.Interpret
