import MachineEmulator.Interpret.LoopEffects

/-!
# The timer

At each tick of the clock the outer loop compares the cycle counter with the cycle of `mtimecmp`. The
cycle is a product of 64 bits: for times of `2 ^ 51` or more it wraps around, and the timer may fire far
too early (`timerExpired_iff`). Nothing else requests a timer interrupt.
-/

namespace MachineEmulator.Interpret

open RunState Function

variable {fuel : Nat} {fp : SoftFloat} {m m' : RunState}

/-- The time that the guest reads has come to `mtimecmp`. -/
def TimerDue (regs : Reg → Word) (mcycle : Word) : Prop :=
  regs .clintMtimecmp ≠ 0 ∧ regs .clintMtimecmp ≤ rtcCycleToTime mcycle

/-- The cycle of `mtimecmp` wraps around to one that has come. -/
def TimerWraps (regs : Reg → Word) (mcycle : Word) : Prop :=
  2 ^ 51 ≤ (regs .clintMtimecmp).toNat ∧ (regs .clintMtimecmp).toNat % 2 ^ 51 ≠ 0 ∧
    (regs .clintMtimecmp).toNat % 2 ^ 51 ≤ (rtcCycleToTime mcycle).toNat

theorem toNat_rtcCycleToTime (mcycle : Word) : (rtcCycleToTime mcycle).toNat = mcycle.toNat / 8192 := by
  rw [rtcCycleToTime, BitVec.toNat_udiv]
  rfl

theorem toNat_rtcTimeToCycle (time : Word) : (rtcTimeToCycle time).toNat = time.toNat % 2 ^ 51 * 8192 := by
  rw [rtcTimeToCycle, BitVec.toNat_mul, show rtcFreqDiv.toNat = 8192 from rfl]
  omega

/-- The comparison in cycles is the comparison in time, unless it wraps around. -/
theorem timerExpired_iff {regs : Reg → Word} {mcycle : Word} :
    TimerExpired regs mcycle ↔ TimerDue regs mcycle ∨ TimerWraps regs mcycle := by
  have hcycle : ∀ a b : Word, a ≤ b ↔ a.toNat ≤ b.toNat := fun _ _ => Iff.rfl
  have hzero : ∀ a : Word, a ≠ 0 ↔ a.toNat ≠ 0 := by
    intro a
    rw [ne_eq, ne_eq, ← BitVec.toNat_inj]
    rfl
  rw [TimerExpired, TimerDue, TimerWraps, hcycle, hcycle, hzero, hzero, toNat_rtcTimeToCycle,
    toNat_rtcCycleToTime]
  omega

theorem TimerWraps.not_due {regs : Reg → Word} {mcycle : Word} (h : TimerWraps regs mcycle) :
    ¬ TimerDue regs mcycle := by
  rintro ⟨-, hle⟩
  have hle : (regs .clintMtimecmp).toNat ≤ (rtcCycleToTime mcycle).toNat := hle
  have hge := h.1
  rw [toNat_rtcCycleToTime] at hle
  omega

/-! ## Ticks -/

theorem or_mipMtipMask (v : Word) : (v ||| mipMtipMask) &&& mipMtipMask ≠ 0 := by
  refine (Bits.and_twoPow_ne_zero (k := mipMtipShift) _).mpr ?_
  simp [mipMtipMask, bitMask, mipMtipShift]

/-- A tick requests the timer interrupt exactly if it was requested or the timer has expired. -/
theorem wlp_serveInterrupts_tick {c : Cursor} (htick : rtcIsTick c.mcycle = true) :
    Wlp ((serveInterrupts c).exec fuel)
      (fun _ m' => TimerIrq m'.s.regs ↔ TimerIrq m.s.regs ∨ TimerExpired m.s.regs c.mcycle) m := by
  have hrest : ∀ {m1 : RunState}, (TimerIrq m1.s.regs ↔ TimerIrq m.s.regs ∨ TimerExpired m.s.regs c.mcycle) →
      Wlp ((pollExternalInterrupts c.mcycle c.mcycle).exec fuel)
        (fun _ m2 => Wlp ((raiseInterruptIfAny c.pc).exec fuel)
          (fun _ m' => TimerIrq m'.s.regs ↔ TimerIrq m.s.regs ∨ TimerExpired m.s.regs c.mcycle) m2) m1 := by
    intro m1 h1
    refine wlp_pollExternalInterrupts (BitVec.le_refl _) fun r m2 hr => ?_
    have h2 := (TimerIrq.of_same hr.mip).trans h1
    refine wlp_raiseInterruptIfAny (fun _ => h2) fun _ d => ?_
    refine (TimerIrq.of_same ?_).trans h2
    rw [trapped_regs (by decide)]
  simp only [serveInterrupts, htick, if_true, wlp_run_bind, wlp_run_pure]
  refine wlp_setRtcInterrupt (fun hquiet => hrest ?_) fun hexpired => hrest ?_
  · simp [hquiet]
  · simp only [hexpired, or_true, iff_true]
    exact or_mipMtipMask _

/-! ## Between ticks -/

/-- A requested timer interrupt tells something of the time that the timer waits for. -/
structure TimerInv (P : Word → Prop) (m : RunState) : Prop where
  irq : TimerIrq m.s.regs → P (m.s.regs .clintMtimecmp)
  /-- Only interrupts of supervisor mode are delegated: the guest cannot request a timer interrupt. -/
  delegated : m.s.regs .mideleg &&& ~~~mipSupervisorMask = 0

/-- The registers of the timer and of those who may request its interrupt. -/
def timerRegs : List Reg := [.mip, .clintMtimecmp, .mideleg]

namespace TimerInv
variable {P : Word → Prop}

theorem of_regs (h : TimerInv P m) (hregs : ∀ r ∈ timerRegs, m'.s.regs r = m.s.regs r) : TimerInv P m' := by
  have hmip := hregs .mip (by decide)
  have htime := hregs .clintMtimecmp (by decide)
  have hdeleg := hregs .mideleg (by decide)
  refine ⟨fun hirq => ?_, hdeleg ▸ h.delegated⟩
  rw [htime]
  exact h.irq (by rwa [TimerIrq, hmip] at hirq)

theorem writeReg (h : TimerInv P m) {r : Reg} (hr : r ∉ timerRegs) (v : Word) : TimerInv P (m.writeReg r v) := by
  refine h.of_regs fun r' hr' => update_of_ne ?_ _ _
  rintro rfl
  exact hr hr'

theorem deviceFrame (h : TimerInv P m) (hf : DeviceFrame m m') : TimerInv P m' := by
  refine ⟨fun hirq => ?_, ?_⟩
  · obtain ⟨hirq', htime⟩ := hf.timer hirq
    rw [htime]
    exact h.irq hirq'
  · rw [hf.regs .mideleg (by decide), h.delegated]

theorem trapped (h : TimerInv P m) (pc cause tval : Word) (d : Nat → Bool) :
    TimerInv P (m.trapped pc cause tval d) := by
  have htrap : ∀ r ∈ timerRegs, r ∉ trapWrites := by decide
  exact h.of_regs fun r hr => trapped_regs (htrap r hr) _ _ _ _

theorem returned (h : TimerInv P m) (mstatus prv : Word) (d : Nat → Bool) :
    TimerInv P (m.returned mstatus prv d) := by
  have hret : ∀ r ∈ timerRegs, r ∉ returnWrites := by decide
  exact h.of_regs fun r hr => returned_regs (hret r hr) _ _ _

theorem load {size : MemSize} {pc vaddr : Word} {x : LoadResult} (h : TimerInv P m)
    (hl : LoadEffect m size pc vaddr x m') : TimerInv P m' := by
  cases hl with
  | hit => exact h
  | memory htr => exact h.of_regs fun r _ => congrFun htr.regs r
  | device htr hp hR hio hd => exact (h.of_regs fun r _ => congrFun htr.regs r).deviceFrame hd.deviceFrame
  | raised htr => exact (h.of_regs fun r _ => congrFun htr.regs r).trapped _ _ _ _

theorem store {size : MemSize} {pc vaddr val : Word} {x : StoreResult} (h : TimerInv P m)
    (hs : StoreEffect m size pc vaddr val x m') : TimerInv P m' := by
  cases hs with
  | hit hl hs => exact h.of_regs fun r _ => congrFun (storeHost_regs hs) r
  | memory htr hp hW hM hs => exact h.of_regs fun r _ => congrFun ((storeHost_regs hs).trans htr.regs) r
  | device htr hp hW hio hstatus hd =>
    exact (h.of_regs fun r _ => congrFun htr.regs r).deviceFrame hd.toDeviceFrame
  | raised htr => exact (h.of_regs fun r _ => congrFun htr.regs r).trapped _ _ _ _

/-- The guest cannot request a timer interrupt, and cannot delegate it either. -/
theorem csr {status : ExecuteStatus} (h : TimerInv P m) (hc : CsrWriteEffect m status m') : TimerInv P m' := by
  have hmask := supervisorIrqMask_eq h.delegated
  cases hc with
  | refused | ignored => exact h
  | fcsr | satp => exact h.writeReg (by decide) _
  | satpFlush | mstatus =>
    refine h.of_regs fun r hr => update_of_ne ?_ _ _
    rintro rfl
    exact absurd hr (by decide)
  | plain hprv hr =>
    have hno : ∀ r ∈ plainCsrRegs, r ∉ timerRegs := by decide
    exact h.writeReg (hno _ hr) _
  | interrupts hprv hr hkept =>
    rw [hmask] at hkept
    simp only [List.mem_cons, List.not_mem_nil, or_false] at hr
    rcases hr with rfl | rfl | rfl
    · exact h.writeReg (by decide) _
    · refine ⟨fun hirq => h.irq ?_, h.delegated⟩
      have hmtip : ~~~mipSupervisorMask &&& mipMtipMask = mipMtipMask := by decide
      have hsame := hkept (by decide)
      rwa [TimerIrq, writeReg_regs, update_self, ← hmtip, ← BitVec.and_assoc, hsame,
        BitVec.and_assoc, hmtip] at hirq
    · refine ⟨h.irq, ?_⟩
      rw [writeReg_regs, update_self, hkept (by decide), h.delegated]

theorem stretch : StretchInvariant (TimerInv P) where
  fetch h hf := by
    have htrap : ∀ r ∈ timerRegs, r ∉ trapWrites := by decide
    exact h.of_regs fun r hr => hf.regs (htrap r hr)
  insn amo pc := {
    write := fun _ _ hw h => by cases hw <;> exact h.writeReg (by simp [timerRegs]) _
    load := fun _ h hl => h.load hl
    store := fun _ _ h hs => h.store hs
    csr := fun _ h hc => h.csr hc
    raise := fun h => h.trapped _ _ _ _
    sret := fun h _ => h.returned _ _ _
    mret := fun h _ => h.returned _ _ _
    sfence := fun h => h.of_regs fun _ _ => rfl }
  poll h hp := h.deviceFrame hp.toDeviceFrame
  commit h hr := by
    have hno : ∀ r ∈ [Reg.pc, .mcycle], r ∉ timerRegs := by decide
    exact h.writeReg (hno _ hr) _

/-- A step keeps the invariant if it holds of the times that expire at a tick. -/
theorem step {mcycleEnd : Word} {x y : LoopState RunState} (h : TimerInv P x.state)
    (htick : ∀ c m, x = .outer c m → rtcIsTick c.mcycle = true → TimerExpired m.s.regs c.mcycle →
      P (m.s.regs .clintMtimecmp)) (hstep : LoopStep (stateAccess fuel) fp mcycleEnd x y) :
    TimerInv P y.state := by
  cases hstep with
  | @serveInterrupts c c' m m' hlt hrun =>
    refine stretch.wlp_serveInterrupts h (fun hc => ?_) _ _ hrun
    refine wlp_setRtcInterrupt (fun _ => h) fun hexp => ⟨fun _ => ?_, h.delegated⟩
    exact htick c m rfl hc hexp
  | finish hge hrun => exact stretch.wlp_commit h _ _ hrun
  | next hlt hrun | serve hlt hrun | stop hlt hrun => exact stretch.wlp_innerStep h _ _ hrun
  | tick hge => exact h

end TimerInv

/-- A step while the timer waits for a time that has not come, and that does not wrap around. -/
structure QuietStep (fp : SoftFloat) (fuel : Nat) (mcycleEnd mtimecmp : Word) (x y : LoopState RunState) :
    Prop where
  step : LoopStep (stateAccess fuel) fp mcycleEnd x y
  waits : x.state.s.regs .clintMtimecmp = mtimecmp
  early : ∀ c m, x = .outer c m → rtcIsTick c.mcycle = true → rtcCycleToTime c.mcycle < mtimecmp
  exact : ∀ c m, x = .outer c m → rtcIsTick c.mcycle = true → ¬ TimerWraps m.s.regs c.mcycle

theorem QuietStep.timerInv {mcycleEnd mtimecmp : Word} {x y : LoopState RunState}
    (hstep : QuietStep fp fuel mcycleEnd mtimecmp x y) (h : TimerInv (fun _ => False) x.state) :
    TimerInv (fun _ => False) y.state := by
  refine h.step (fun c m hx hc hexp => ?_) hstep.step
  rcases timerExpired_iff.mp hexp with hdue | hwraps
  · have hwaits := hstep.waits
    subst hx
    exact BitVec.not_le.mpr (hstep.early c m rfl hc) (hwaits ▸ hdue.2)
  · exact hstep.exact c m hx hc hwraps

theorem wlp_clintWrite_mtimecmp {mtimecmp : Word} :
    Wlp ((clintWrite clintMtimecmpRelAddr mtimecmp .u64).exec fuel)
      (fun _ m' => m'.s.regs .clintMtimecmp = mtimecmp ∧ ¬ TimerIrq m'.s.regs) m := by
  have hne : clintMtimecmpRelAddr ≠ clintMsip0RelAddr := by decide
  simp only [clintWrite, resetMip, if_neg hne, if_true, wlp_run_bind, wlp_read, wlp_write,
    wlp_run_pure]
  exact ⟨rfl, not_not.mpr (and_not_mipMtipMask _)⟩

/-- A machine whose timer waits for the given time. -/
def timerMachine (mtimecmp : Word) : RunState := .small [(.clintMtimecmp, mtimecmp), (.mcycle, 8192)]

/-- At each tick the timer interrupt is requested if and only if it was before or the time has come, exactly
if the cycle of that time does not wrap around. A write of `mtimecmp` withdraws the request, and there is no
new one as long as no tick finds that the time has come or that its cycle wraps around. -/
theorem timer_iff (fp : SoftFloat) (fuel : Nat) (mcycleEnd : Word) :
    (∀ c m mcycleTickEnd c' m', rtcIsTick c.mcycle = true →
      LoopStep (stateAccess fuel) fp mcycleEnd (.outer c m) (.inner mcycleTickEnd c' m') →
      ((TimerIrq m'.s.regs ↔ TimerIrq m.s.regs ∨ TimerDue m.s.regs c.mcycle) ↔
        TimerIrq m.s.regs ∨ ¬ TimerWraps m.s.regs c.mcycle)) ∧ (∀ mtimecmp m status m',
      (clintWrite clintMtimecmpRelAddr mtimecmp .u64).run (stateAccess fuel) m = .ok status m' →
      m'.s.regs .clintMtimecmp = mtimecmp ∧ ¬ TimerIrq m'.s.regs) ∧
    (∀ x y, x.state.s.regs .mideleg &&& ~~~mipSupervisorMask = 0 →
      LoopStep (stateAccess fuel) fp mcycleEnd x y →
      y.state.s.regs .clintMtimecmp ≠ x.state.s.regs .clintMtimecmp → ¬ TimerIrq y.state.s.regs) ∧
    ∀ mtimecmp x y, x.state.s.regs .mideleg &&& ~~~mipSupervisorMask = 0 →
      Relation.ReflTransGen (QuietStep fp fuel mcycleEnd mtimecmp) x y →
      ¬ TimerIrq x.state.s.regs → ¬ TimerIrq y.state.s.regs := by
  refine ⟨?_, fun mtimecmp m status m' hrun => wlp_clintWrite_mtimecmp _ _ hrun, ?_, ?_⟩
  · intro c m mcycleTickEnd c' m' htick hstep
    cases hstep with
    | serveInterrupts hlt hrun =>
      have hirq : TimerIrq m'.s.regs ↔ TimerIrq m.s.regs ∨ TimerExpired m.s.regs c.mcycle :=
        wlp_serveInterrupts_tick htick _ _ hrun
      have hexcl : TimerWraps m.s.regs c.mcycle → ¬ TimerDue m.s.regs c.mcycle := TimerWraps.not_due
      rw [hirq, timerExpired_iff]
      by_cases hold : TimerIrq m.s.regs
      · simp [hold]
      · by_cases hwraps : TimerWraps m.s.regs c.mcycle
        · simp [hold, hwraps, hexcl hwraps]
        · simp [hold, hwraps]
  · intro x y hdeleg hstep hne hirq
    have hx : TimerInv (· = x.state.s.regs .clintMtimecmp) x.state := ⟨fun _ => rfl, hdeleg⟩
    refine hne ((hx.step (fun c m hout _ _ => ?_) hstep).irq hirq)
    rw [hout]
    rfl
  · intro mtimecmp x y hdeleg hsteps hclear
    have hx : TimerInv (fun _ => False) x.state := ⟨hclear, hdeleg⟩
    suffices hy : TimerInv (fun _ => False) y.state from hy.irq
    induction hsteps with
    | refl => exact hx
    | tail _ hstep ih => exact hstep.timerInv ih

/-- At cycle 8192 the time is 1. The timer fires although it waits for the time `2 ^ 51 + 1`. -/
theorem timer_early :
    ∃ c m mcycleTickEnd c' m', LoopState.start (timerMachine 0x8000000000001) = .outer c m ∧ rtcIsTick c.mcycle = true ∧
      LoopStep (stateAccess 0) .zero 8193 (.outer c m) (.inner mcycleTickEnd c' m') ∧
      m.s.regs .clintMtimecmp = 0x8000000000001 ∧ rtcCycleToTime c.mcycle = 1 ∧
      ¬ TimerIrq m.s.regs ∧ TimerIrq m'.s.regs := by
  have hrun : ((serveInterrupts (.start pmaRamStart 8192)).run (stateAccess 0)).succeedsWith
      ((timerMachine 0x8000000000001).writeReg .iflagsX 0) (fun _ m' => m'.s.regs .mip &&& mipMtipMask ≠ 0) = true := by
    decide
  obtain ⟨c', m', hserve, hm'⟩ := EStateM.exists_of_succeedsWith hrun
  have hirq : m'.s.regs .mip &&& mipMtipMask ≠ 0 := of_decide_eq_true hm'
  exact ⟨_, _, _, c', m', rfl, rfl, .serveInterrupts (by decide) hserve, rfl, rfl, not_not.mpr rfl, hirq⟩

/-- The timer fires at time 1 if that is the time it waits for. -/
theorem timer_on_time :
    ∃ c m mcycleTickEnd c' m', LoopState.start (timerMachine 1) = .outer c m ∧ rtcIsTick c.mcycle = true ∧
      LoopStep (stateAccess 0) .zero 8193 (.outer c m) (.inner mcycleTickEnd c' m') ∧
      ¬ TimerWraps m.s.regs c.mcycle ∧ TimerIrq m'.s.regs := by
  have hexact : ¬ TimerWraps (timerMachine 1).s.regs 8192 := fun h => absurd h.1 (by decide)
  have hrun : ((serveInterrupts (.start pmaRamStart 8192)).run (stateAccess 0)).succeedsWith
      ((timerMachine 1).writeReg .iflagsX 0) (fun _ _ => true) = true := by
    decide
  obtain ⟨c', m', hserve, -⟩ := EStateM.exists_of_succeedsWith hrun
  have hstep : LoopStep (stateAccess 0) .zero 8193 (.start (timerMachine 1)) (.inner (tickEnd 8193 c'.mcycle) c' m') :=
    .serveInterrupts (by decide) hserve
  obtain ⟨htick, -⟩ := timer_iff .zero 0 8193
  have hirq := (htick _ _ _ _ _ rfl hstep).mpr (.inr hexact)
  exact ⟨_, _, _, _, _, rfl, rfl, hstep, hexact, hirq.mpr (.inr ⟨by decide, by decide⟩)⟩

end MachineEmulator.Interpret
