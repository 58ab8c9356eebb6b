import MachineEmulator.Interpret.Effects

/-!
# Which interrupt is taken

* `pendingMask` : the interrupts that are pending and enabled, as a function of the registers;
* `getLsbD_getHighestPriorityIrqNum` : the interrupt that is served first is one of them.
-/

namespace MachineEmulator.Interpret

open BitVec Prog Bits

variable {fuel : Nat} {m : RunState}

/-! ## Pending and enabled interrupts -/

variable (regs : Reg → Word)

/-- The interrupts that the privilege level enables. -/
def enabledMask : BitVec 32 :=
  if regs .iprv = prvM then
    if regs .mstatus &&& mstatusMieMask ≠ 0 then ~~~((regs .mideleg).setWidth 32) else 0
  else if regs .iprv = prvS then
    if regs .mstatus &&& mstatusSieMask ≠ 0 then -1 else ~~~((regs .mideleg).setWidth 32)
  else -1

/-- The interrupts that are pending and enabled. -/
def pendingMask : BitVec 32 :=
  (regs .mip &&& regs .mie).setWidth 32 &&& enabledMask regs

theorem wlp_enabledInts {post : Post (BitVec 32)} :
    Wlp ((enabledInts (m.s.regs .iprv)).exec fuel) post m ↔ post (enabledMask m.s.regs) m := by
  unfold enabledInts enabledMask
  split_ifs <;> simp only [run_bind, run_ite, run_pure, wlp_bind, wlp_read, wlp_pure, *,
    ne_eq, not_false_eq_true, if_true, if_false]

theorem wlp_getPendingIrqMask {post : Post (BitVec 32)} :
    Wlp (getPendingIrqMask.exec fuel) post m ↔ post (pendingMask m.s.regs) m := by
  unfold getPendingIrqMask pendingMask
  by_cases hp : (m.s.regs .mip &&& m.s.regs .mie).setWidth 32 = 0
  · rw [hp, show (0 : BitVec 32) &&& enabledMask m.s.regs = 0 from zero_and]
    simp only [wlp_run_bind, wlp_read, run_ite, hp, if_true, wlp_run_pure]
  · simp only [wlp_run_bind, wlp_read, run_ite, hp, if_false, wlp_run_pure,
      wlp_enabledInts]

/-! ## The interrupt that is served first -/

theorem getLsbD_ilog2 {v : BitVec 32} (hv : v ≠ 0) : v.getLsbD (ilog2 v).toNat = true := by
  have hv' : v.toNat ≠ 0 := fun h => hv (eq_of_toNat_eq h)
  have hlog : v.toNat.log2 < 32 := (Nat.log2_lt hv').mpr v.isLt
  rw [ilog2, toNat_ofNat, Nat.mod_eq_of_lt (by omega), getLsbD]
  exact Nat.testBit_log2 hv'

theorem getLsbD_getHighestPriorityIrqNum {v : BitVec 32} (hv : v ≠ 0) :
    v.getLsbD (getHighestPriorityIrqNum v).toNat = true := by
  unfold getHighestPriorityIrqNum
  split
  · rename_i mask hfind
    have hmem := List.mem_of_find?_eq_some hfind
    have hne : v &&& mask.setWidth 32 ≠ 0 := by simpa using List.find?_some hfind
    simp only [interruptsPriority, List.mem_cons, List.not_mem_nil, or_false] at hmem
    rcases hmem with rfl | rfl | rfl | rfl | rfl | rfl
    all_goals exact (and_twoPow_ne_zero v).mp hne
  · exact getLsbD_ilog2 hv

theorem getHighestPriorityIrqNum_lt {v : BitVec 32} (hv : v ≠ 0) : (getHighestPriorityIrqNum v).toNat < 32 :=
  lt_of_getLsbD (getLsbD_getHighestPriorityIrqNum hv)

/-- The cause of the trap for an interrupt. -/
def interruptCause (irq : Word) : Word := irq ||| mcauseInterruptFlag

theorem delegated_interruptCause {regs : Reg → Word} {irq : Word} (hirq : irq.toNat < 32) :
    delegated regs (interruptCause irq) =
      (decide (regs .iprv ≤ prvS) && (regs .mideleg).getLsbD irq.toNat) := by
  have hflag : interruptCause irq &&& mcauseInterruptFlag ≠ 0 := by
    refine (and_twoPow_ne_zero (k := 63) _).mpr ?_
    simp [interruptCause, mcauseInterruptFlag, bitMask]
  have hnum : (interruptCause irq &&& 63).toNat = irq.toNat := by
    have h63 : (63 : Word).toNat = 2 ^ 6 - 1 := rfl
    have hmask : mcauseInterruptFlag.toNat % 2 ^ 6 = 0 := by decide
    rw [interruptCause, toNat_and, toNat_or, h63, Nat.and_two_pow_sub_one_eq_mod,
      Nat.or_mod_two_pow, hmask, Nat.or_zero, Nat.mod_eq_of_lt (by omega)]
  rw [delegated, if_pos hflag, hnum, shiftRight_and_one_bne_zero]

/-- The interrupt that is served first. -/
def servedIrq : Word := getHighestPriorityIrqNum (pendingMask regs)

theorem delegated_servedIrq {regs : Reg → Word} (hpend : pendingMask regs ≠ 0) :
    delegated regs (interruptCause (servedIrq regs)) = true ↔
      regs .iprv ≤ prvS ∧ (regs .mideleg).getLsbD (servedIrq regs).toNat = true := by
  unfold servedIrq
  rw [delegated_interruptCause (getHighestPriorityIrqNum_lt hpend), Bool.and_eq_true, decide_eq_true_eq]

theorem wlp_raiseInterruptIfAny {pc : Word} {post : Post Word} (hnone : pendingMask m.s.regs = 0 → post pc m)
    (htaken : pendingMask m.s.regs ≠ 0 → ∀ d, post (trapVector m.s.regs (interruptCause (servedIrq m.s.regs)))
      (m.trapped pc (interruptCause (servedIrq m.s.regs)) 0 d)) :
    Wlp ((raiseInterruptIfAny pc).exec fuel) post m := by
  simp only [raiseInterruptIfAny, wlp_run_bind, wlp_getPendingIrqMask, wlp_run_ite, wlp_run_pure]
  exact ⟨fun hpend => wlp_raiseException (htaken hpend), fun h => hnone (not_not.mp h)⟩

theorem succeeds_raiseInterruptIfAny {pc : Word} (h : m.TlbRetirable) :
    Succeeds ((raiseInterruptIfAny pc).exec fuel) m := by
  have hget : Succeeds (getPendingIrqMask.exec fuel) m := by
    simp [getPendingIrqMask, enabledInts]
  simp only [raiseInterruptIfAny, run_bind, succeeds_bind, wlp_getPendingIrqMask, hget,
    run_ite, succeeds_ite, run_pure, succeeds_pure, true_and, implies_true, and_true]
  exact fun _ => succeeds_raiseException h

/-! ## After the trap -/

theorem mstatusTrapM_mie (mstatus prv : Word) : mstatusTrapM mstatus prv &&& mstatusMieMask = 0 :=
  and_not_and_self _ _

theorem mstatusTrapS_sie (mstatus prv : Word) : mstatusTrapS mstatus prv &&& mstatusSieMask = 0 :=
  and_not_and_self _ _

theorem pendingMask_trapRegsM (pc cause tval : Word) :
    pendingMask (trapRegsM regs pc cause tval) = 0 := by
  simp [pendingMask, enabledMask, trapRegsM, mstatusTrapM_mie]

/-- A trap into supervisor mode leaves the interrupts enabled that are not delegated. -/
theorem pendingMask_trapRegsS (pc cause tval : Word) :
    pendingMask (trapRegsS regs pc cause tval) =
      (regs .mip &&& regs .mie).setWidth 32 &&& ~~~((regs .mideleg).setWidth 32) := by
  simp [pendingMask, enabledMask, trapRegsS, mstatusTrapS_sie, show prvS ≠ prvM by decide]

/-- The interrupts that are pending and enabled and not delegated. -/
def undelegatedMask : BitVec 32 :=
  pendingMask regs &&& ~~~((regs .mideleg).setWidth 32)

/-- Below machine mode every interrupt that is not delegated is enabled. -/
theorem undelegatedMask_eq {regs : Reg → Word} (hprv : regs .iprv ≤ prvS) : undelegatedMask regs =
      (regs .mip &&& regs .mie).setWidth 32 &&& ~~~((regs .mideleg).setWidth 32) := by
  have hM : regs .iprv ≠ prvM := by
    intro h
    rw [h] at hprv
    exact absurd hprv (by decide)
  unfold undelegatedMask pendingMask enabledMask
  rw [if_neg hM]
  split_ifs
  · rw [BitVec.and_assoc, show (-1 : BitVec 32) = allOnes 32 from rfl, allOnes_and]
  · rw [BitVec.and_assoc, BitVec.and_self]
  · rw [BitVec.and_assoc, show (-1 : BitVec 32) = allOnes 32 from rfl, allOnes_and]

/-- The interrupt served first goes to supervisor mode, although another one is destined for machine
mode. -/
def Misdirected : Prop :=
  regs .iprv ≤ prvS ∧ (regs .mideleg).getLsbD (servedIrq regs).toNat = true ∧
    undelegatedMask regs ≠ 0

/-- A pending and enabled interrupt was taken, into machine mode. -/
def TookInterruptM (m m' : RunState) : Prop :=
  m'.s.regs .iprv = prvM ∧ ∃ irq : Word, (pendingMask m.s.regs).getLsbD irq.toNat = true ∧
    m'.s.regs .mcause = interruptCause irq

/-- A machine in supervisor mode with interrupts enabled, and the software and the external interrupt
of supervisor mode pending. -/
def supervisorIrqMachine (mideleg : Word) : RunState :=
  .small [(.iprv, prvS), (.mstatus, mstatusInit ||| mstatusSieMask), (.mideleg, mideleg),
    (.mie, mipSsipMask ||| mipSeipMask), (.mip, mipSsipMask ||| mipSeipMask)]

/-- With an interrupt pending and enabled, one is taken; machine mode comes first and no interrupt is
left pending and enabled exactly if the one served first does not hide one destined for machine mode. -/
theorem raiseInterruptIfAny_correct_iff (fuel : Nat) (m : RunState) (pc : Word)
    (hpend : pendingMask m.s.regs ≠ 0) :
    (m.TlbRetirable → Succeeds ((raiseInterruptIfAny pc).run (stateAccess fuel)) m) ∧
      ∀ pc' m', (raiseInterruptIfAny pc).run (stateAccess fuel) m = .ok pc' m' →
        (((undelegatedMask m.s.regs ≠ 0 → TookInterruptM m m') ∧ pendingMask m'.s.regs = 0) ↔
          ¬ Misdirected m.s.regs) := by
  refine ⟨succeeds_raiseInterruptIfAny, wlp_raiseInterruptIfAny (absurd · hpend) fun _ d => ?_⟩
  have hdel := delegated_servedIrq hpend
  simp only [RunState.trapped, RunState.withState_s, TookInterruptM, Misdirected, trapRegs]
  by_cases h : m.s.regs .iprv ≤ prvS ∧ (m.s.regs .mideleg).getLsbD (servedIrq m.s.regs).toNat = true
  · -- into supervisor mode: what is left is what was not delegated
    rw [if_pos (hdel.mpr h), pendingMask_trapRegsS, ← undelegatedMask_eq h.1]
    constructor
    · exact fun hgood hmis => hmis.2.2 hgood.2
    · intro hmis
      have hnone : undelegatedMask m.s.regs = 0 := by
        by_contra hne
        exact hmis ⟨h.1, h.2, hne⟩
      exact ⟨fun hne => absurd hnone hne, hnone⟩
  · rw [if_neg (mt hdel.mp h), pendingMask_trapRegsM]
    constructor
    · exact fun _ hmis => h ⟨hmis.1, hmis.2.1⟩
    · exact fun _ => ⟨fun _ => ⟨rfl, _, getLsbD_getHighestPriorityIrqNum hpend, rfl⟩, rfl⟩

/-- In supervisor mode with interrupts enabled, the external interrupt is delegated and hides the
software interrupt, which is not: it stays pending and enabled, and supervisor mode runs on. -/
theorem raiseInterruptIfAny_hides_undelegated :
    ∃ pc' m', (raiseInterruptIfAny pmaRamStart).run (stateAccess 0) (supervisorIrqMachine mipSeipMask) = .ok pc' m' ∧
      undelegatedMask (supervisorIrqMachine mipSeipMask).s.regs ≠ 0 ∧ m'.s.regs .iprv = prvS ∧
      pendingMask m'.s.regs = mipSsipMask.setWidth 32 := by
  refine ⟨_, _, rfl, by decide, rfl, by decide⟩

/-- The same machine with all supervisor interrupts delegated. -/
theorem raiseInterruptIfAny_delegated :
    pendingMask (supervisorIrqMachine (mipSsipMask ||| mipSeipMask)).s.regs ≠ 0 ∧ ∃ pc' m',
      (raiseInterruptIfAny pmaRamStart).run (stateAccess 0) (supervisorIrqMachine (mipSsipMask ||| mipSeipMask)) =
        .ok pc' m' ∧
      (undelegatedMask (supervisorIrqMachine (mipSsipMask ||| mipSeipMask)).s.regs ≠ 0 →
        TookInterruptM (supervisorIrqMachine (mipSsipMask ||| mipSeipMask)) m') ∧
      pendingMask m'.s.regs = 0 := by
  have hpend : pendingMask (supervisorIrqMachine (mipSsipMask ||| mipSeipMask)).s.regs ≠ 0 := by decide
  obtain ⟨-, hall⟩ := raiseInterruptIfAny_correct_iff 0 (supervisorIrqMachine (mipSsipMask ||| mipSeipMask))
    pmaRamStart hpend
  refine ⟨hpend, _, _, rfl, (hall _ _ rfl).mpr ?_⟩
  unfold Misdirected
  decide

end MachineEmulator.Interpret
