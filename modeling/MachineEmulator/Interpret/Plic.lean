import MachineEmulator.Interpret.CsrEffects
import MachineEmulator.Interpret.Interrupts
import MachineEmulator.Lib.Gateway

/-!
# The protocol of the interrupt controller

The PLIC is a gateway of 31 sources. Its operations, and the guest's writes to control registers, refine
the events of the abstract gateway (`PlicStep.refines`), and they keep the external interrupt in `mip` in
step with the sources that can be claimed (`PlicInv`).
-/

namespace MachineEmulator.Interpret

open Gateway Bits Option

variable {fuel : Nat} {m m' : RunState}

/-! ## Events -/

abbrev IrqId := { i : Nat // 1 ≤ i ∧ i ≤ plicMaxIrq }

/-- What may happen to the interrupt controller. -/
inductive PlicEvent where
  | setPending (irqId : IrqId)
  | resetPending (irqId : IrqId)
  /-- A claim, with the answer of the controller. -/
  | claim (irqId : Word)
  | complete (val : BitVec 32)
  | csrWrite (mcycle : Word) (csraddr : CsrAddress) (val : Word)

def PlicStep (fuel : Nat) (m : RunState) (e : PlicEvent) (m' : RunState) : Prop :=
  match e with
  | .setPending irqId => (plicSetPendingIrq irqId).run (stateAccess fuel) m = .ok () m'
  | .resetPending irqId => (plicResetPendingIrq irqId).run (stateAccess fuel) m = .ok () m'
  | .claim irqId => plicReadClaimComplete.run (stateAccess fuel) m = .ok (some irqId) m'
  | .complete val => ∃ status, (plicWriteClaimComplete val).run (stateAccess fuel) m = .ok status m'
  | .csrWrite mcycle csraddr val =>
    ∃ status, (writeCsr mcycle csraddr val).run (stateAccess fuel) m = .ok status m'

inductive PlicRun (fuel : Nat) : RunState → List PlicEvent → RunState → Prop
  | nil (m : RunState) : PlicRun fuel m [] m
  | cons {m m' m'' : RunState} {e : PlicEvent} {es : List PlicEvent} (hstep : PlicStep fuel m e m')
    (hrun : PlicRun fuel m' es m'') : PlicRun fuel m (e :: es) m''

/-! ## The gateway behind the registers -/

/-- The gateway that the registers of the controller stand for. -/
def plicGateway (regs : Reg → Word) : Gateway Nat where
  pending := { i | ((regs .plicGirqpend).setWidth 32).getLsbD i = true }
  served := { i | ((regs .plicGirqsrvd).setWidth 32).getLsbD i = true }

variable {regs : Reg → Word} {i : Nat} {es : List PlicEvent}

theorem mem_claimable : i ∈ (plicGateway regs).claimable ↔ (plicPending regs).getLsbD i = true := by
  unfold plicPending claimable plicGateway
  rw [BitVec.getLsbD_and, BitVec.getLsbD_not, Bool.and_eq_true, Bool.and_eq_true, decide_eq_true_eq,
    Bool.not_eq_true']
  constructor
  · intro h
    exact ⟨h.1, BitVec.lt_of_getLsbD h.1, Bool.eq_false_iff.mpr h.2⟩
  · intro h
    exact ⟨h.1, Bool.eq_false_iff.mp h.2.2⟩

theorem claimable_eq_empty : (plicGateway regs).claimable = ∅ ↔ plicPending regs = 0 := by
  rw [Set.eq_empty_iff_forall_notMem]
  constructor
  · intro h
    refine BitVec.eq_of_getLsbD_eq fun i _ => ?_
    have hi := h i
    rw [mem_claimable, Bool.not_eq_true] at hi
    simpa using hi
  · intro h i
    rw [mem_claimable, h]
    simp

/-- The event of the gateway behind an event of the controller. -/
def PlicEvent.gatewayEvent : PlicEvent → Gateway.Event Nat
  | .setPending irqId => .request irqId
  | .resetPending irqId => .withdraw irqId
  | .claim irqId => .claim (if irqId = 0 then none else some irqId.toNat)
  | .complete val => if 1 ≤ val.toNat ∧ val.toNat ≤ plicMaxIrq then .complete val.toNat else .idle
  | .csrWrite .. => .idle

/-! ## The external interrupt -/

/-- The external interrupt of machine mode is requested. -/
def ExternalIrq (regs : Reg → Word) : Prop := regs .mip &&& mipMeipMask ≠ 0

structure PlicInv (regs : Reg → Word) : Prop where
  external : ExternalIrq regs ↔ plicPending regs ≠ 0
  /-- There is no source 0. -/
  source_zero : 0 ∉ (plicGateway regs).pending
  /-- Only interrupts of supervisor mode are delegated. -/
  delegated : regs .mideleg &&& ~~~mipSupervisorMask = 0

/-- An operation of the controller: the new sources, and an external interrupt that is requested if and
only if one of them can be claimed. -/
structure PlicUpdate (m : RunState) (pend srvd : BitVec 32) (m' : RunState) : Prop where
  girqpend : (m'.s.regs .plicGirqpend).setWidth 32 = pend
  girqsrvd : (m'.s.regs .plicGirqsrvd).setWidth 32 = srvd
  mideleg : m'.s.regs .mideleg = m.s.regs .mideleg
  mip : (m'.s.regs .mip = m.s.regs .mip ||| mipExternalMask ∧ pend &&& ~~~srvd ≠ 0) ∨
    (m'.s.regs .mip = m.s.regs .mip &&& ~~~mipExternalMask ∧ pend &&& ~~~srvd = 0) ∨
    (m'.s.regs .mip = m.s.regs .mip ∧ (pend &&& ~~~srvd = 0 ↔ plicPending m.s.regs = 0))

theorem or_mipExternalMask (v : Word) : (v ||| mipExternalMask) &&& mipMeipMask ≠ 0 := by
  refine (and_twoPow_ne_zero (k := mipMeipShift) _).mpr ?_
  simp [mipExternalMask, mipMeipMask, mipSeipMask, bitMask, mipMeipShift]

theorem and_not_mipExternalMask (v : Word) : (v &&& ~~~mipExternalMask) &&& mipMeipMask = 0 := by
  rw [BitVec.and_assoc, show ~~~mipExternalMask &&& mipMeipMask = 0#64 by decide, BitVec.and_zero]
  rfl

theorem PlicInv.update {pend srvd : BitVec 32} (h : PlicInv m.s.regs) (hu : PlicUpdate m pend srvd m')
    (hzero : pend.getLsbD 0 = false) : PlicInv m'.s.regs where
  external := by
    have hpend : plicPending m'.s.regs = pend &&& ~~~srvd := by rw [plicPending, hu.girqpend, hu.girqsrvd]
    rw [hpend, ExternalIrq]
    rcases hu.mip with ⟨hmip, hne⟩ | ⟨hmip, heq⟩ | ⟨hmip, hiff⟩
    · rw [hmip]
      exact iff_of_true (or_mipExternalMask _) hne
    · rw [hmip, heq]
      exact iff_of_false (not_not.mpr (and_not_mipExternalMask _)) (not_not.mpr rfl)
    · rw [hmip, ne_eq (pend &&& ~~~srvd), hiff]
      exact h.external
  source_zero := by
    show ¬ _ = true
    rw [hu.girqpend, hzero]
    decide
  delegated := by rw [hu.mideleg, h.delegated]

theorem PlicUpdate.gateway {pend srvd : BitVec 32} (hu : PlicUpdate m pend srvd m') :
    plicGateway m'.s.regs = ⟨{ i | pend.getLsbD i = true }, { i | srvd.getLsbD i = true }⟩ := by
  rw [plicGateway, hu.girqpend, hu.girqsrvd]

/-! ## What the operations do -/

theorem wlp_plicSetPendingIrq {irqId : Nat} :
    Wlp ((plicSetPendingIrq irqId).exec fuel) (fun _ m' => PlicUpdate m
      ((m.s.regs .plicGirqpend).setWidth 32 ||| (1 : BitVec 32) <<< irqId)
      ((m.s.regs .plicGirqsrvd).setWidth 32) m') m := by
  simp only [plicSetPendingIrq, readGirqpend, readGirqsrvd, setMip, wlp_run_bind, wlp_read,
    wlp_run_pure, wlp_run_ite, wlp_write]
  refine ⟨fun hne => ⟨by simp, by simp, by simp, .inl ⟨by simp, hne⟩⟩, fun heq => ?_⟩
  have hnone := not_not.mp heq
  exact ⟨by simp, by simp, by simp,
    .inr (.inr ⟨by simp, iff_of_true hnone (or_and_eq_zero_iff.mp hnone).1⟩)⟩

theorem wlp_plicResetPendingIrq {irqId : Nat} :
    Wlp ((plicResetPendingIrq irqId).exec fuel) (fun _ m' => PlicUpdate m
      ((m.s.regs .plicGirqpend).setWidth 32 &&& ~~~((1 : BitVec 32) <<< irqId))
      ((m.s.regs .plicGirqsrvd).setWidth 32) m') m := by
  simp only [plicResetPendingIrq, readGirqpend, readGirqsrvd, resetMip, wlp_run_bind, wlp_read,
    wlp_run_pure, wlp_run_ite, wlp_write]
  refine ⟨fun heq => ⟨by simp, by simp, by simp, .inr (.inl ⟨by simp, heq⟩)⟩, fun hne => ?_⟩
  exact ⟨by simp, by simp, by simp, .inr (.inr ⟨by simp, iff_of_false hne fun hnone =>
    hne (and_and_eq_zero_of_left hnone)⟩)⟩

/-- The controller answers with the source of highest number that can be claimed, or with 0. -/
theorem wlp_plicClaim : Wlp (plicReadClaimComplete.exec fuel) (fun r m' =>
      (plicPending m.s.regs ≠ 0 ∧ r = some (ilog2 (plicPending m.s.regs)) ∧ PlicUpdate m
        ((m.s.regs .plicGirqpend).setWidth 32) (plicServedAfterClaim m.s.regs) m') ∨
      (plicPending m.s.regs = 0 ∧ r = some 0 ∧ m' = m)) m := by
  refine wlp_plicReadClaimComplete (fun hp => .inl ⟨hp, rfl, ?_⟩) fun hnone => .inr ⟨hnone, rfl, rfl⟩
  unfold RunState.claimed
  split
  · rename_i hlast
    exact ⟨by simp, by simp, by simp, .inr (.inl ⟨by simp, hlast⟩)⟩
  · rename_i hmore
    exact ⟨by simp, by simp, by simp, .inr (.inr ⟨by simp, iff_of_false hmore hp⟩)⟩

theorem wlp_plicComplete {val : BitVec 32} (hval : 1 ≤ val.toNat ∧ val.toNat ≤ plicMaxIrq) :
    Wlp ((plicWriteClaimComplete val).exec fuel) (fun _ m' => PlicUpdate m
      ((m.s.regs .plicGirqpend).setWidth 32)
      ((m.s.regs .plicGirqsrvd).setWidth 32 &&& ~~~((1 : BitVec 32) <<< val.toNat)) m') m := by
  simp only [plicWriteClaimComplete, readGirqpend, readGirqsrvd, wlp_run_bind, wlp_read,
    wlp_run_pure, wlp_run_ite, wlp_write, resetMip, setMip]
  refine ⟨fun _ => ⟨fun hnone => ?_, fun hmore => ?_⟩, fun h => absurd hval h⟩
  · exact ⟨by simp, by simp, by simp, .inr (.inl ⟨by simp, hnone⟩)⟩
  · exact ⟨by simp, by simp, by simp, .inl ⟨by simp, hmore⟩⟩

/-! ## Writes to control registers -/

/-- A write that keeps what guests cannot request keeps the external interrupt of machine mode. -/
theorem and_mipMeipMask_congr {v old : Word} (h : v &&& ~~~mipSupervisorMask = old &&& ~~~mipSupervisorMask) :
    v &&& mipMeipMask = old &&& mipMeipMask := by
  have hmask : ~~~mipSupervisorMask &&& mipMeipMask = mipMeipMask := by decide
  rw [← hmask, ← BitVec.and_assoc, ← BitVec.and_assoc, h]

/-- The registers that the invariant looks at. -/
def plicRegs : List Reg := [.mip, .mideleg, .plicGirqpend, .plicGirqsrvd]

/-- The controller and its invariant only depend on some registers. -/
theorem PlicInv.of_same {regs' : Reg → Word} (h : PlicInv regs)
    (hmip : regs' .mip &&& mipMeipMask = regs .mip &&& mipMeipMask)
    (hdeleg : regs' .mideleg &&& ~~~mipSupervisorMask = 0)
    (hplic : plicGateway regs' = plicGateway regs) : PlicInv regs' where
  external := by
    rw [ExternalIrq, hmip, ne_eq (plicPending regs'), ← claimable_eq_empty, hplic, claimable_eq_empty]
    exact h.external
  source_zero := hplic ▸ h.source_zero
  delegated := hdeleg

theorem PlicInv.writeReg (h : PlicInv m.s.regs) {r : Reg} (hr : r ∉ plicRegs) (v : Word) :
    PlicInv (m.writeReg r v).s.regs ∧ plicGateway (m.writeReg r v).s.regs = plicGateway m.s.regs := by
  have hsame : ∀ r' ∈ plicRegs, (m.writeReg r v).s.regs r' = m.s.regs r' := by
    intro r' hr'
    refine Function.update_of_ne ?_ _ _
    rintro rfl
    exact hr hr'
  have hplic : plicGateway (m.writeReg r v).s.regs = plicGateway m.s.regs := by
    rw [plicGateway, hsame _ (by decide), hsame _ (by decide), plicGateway]
  refine ⟨h.of_same ?_ ?_ hplic, hplic⟩
  · rw [hsame _ (by decide)]
  · rw [hsame _ (by decide)]
    exact h.delegated

theorem PlicInv.csrWrite (h : PlicInv m.s.regs) {status : ExecuteStatus} (hc : CsrWriteEffect m status m') :
    PlicInv m'.s.regs ∧ plicGateway m'.s.regs = plicGateway m.s.regs := by
  cases hc with
  | refused | ignored => exact ⟨h, rfl⟩
  | fcsr v => exact h.writeReg (by decide) v
  | @plain r v hprv hr =>
    have hno : ∀ r ∈ plainCsrRegs, r ∉ plicRegs := by decide
    exact h.writeReg (hno r hr) v
  | @interrupts r v hprv hr hkept =>
    rw [supervisorIrqMask_eq h.delegated] at hkept
    simp only [List.mem_cons, List.not_mem_nil, or_false] at hr
    rcases hr with rfl | rfl | rfl
    · exact h.writeReg (by decide) v
    · exact ⟨h.of_same (and_mipMeipMask_congr (hkept (by decide))) h.delegated rfl, rfl⟩
    · exact ⟨h.of_same rfl ((hkept (by decide)).trans h.delegated) rfl, rfl⟩
  | satp | satpFlush => exact ⟨h.of_same rfl h.delegated rfl, rfl⟩
  | mstatus => exact ⟨h.of_same rfl h.delegated rfl, rfl⟩

/-! ## Refinement -/

/-- The controller answers 0 only if there is nothing to claim. -/
theorem PlicInv.ilog2_ne_zero (h : PlicInv regs) (hp : plicPending regs ≠ 0) :
    ilog2 (plicPending regs) ≠ 0 := by
  intro h0
  have hmem := mem_claimable.mpr (getLsbD_ilog2 hp)
  rw [h0] at hmem
  exact h.source_zero hmem.1

theorem getLsbD_or_one_shiftLeft {v : BitVec 32} (hi : i < 32) :
    { j | (v ||| (1 : BitVec 32) <<< i).getLsbD j = true } = insert i { j | v.getLsbD j = true } := by
  ext j
  rw [Set.mem_ofPred_eq, BitVec.getLsbD_or, Bits.getLsbD_one_shiftLeft hi, Bool.or_eq_true,
    decide_eq_true_eq, Set.mem_insert_iff, Set.mem_ofPred_eq, or_comm]

theorem getLsbD_and_not_one_shiftLeft {v : BitVec 32} (hi : i < 32) :
    { j | (v &&& ~~~((1 : BitVec 32) <<< i)).getLsbD j = true } = { j | v.getLsbD j = true } \ {i} := by
  ext j
  rw [Set.mem_ofPred_eq, BitVec.getLsbD_and, BitVec.getLsbD_not, getLsbD_one_shiftLeft hi]
  simp only [Bool.and_eq_true, decide_eq_true_eq, Bool.not_eq_true', decide_eq_false_iff_not,
    Set.mem_sdiff, Set.mem_ofPred_eq, Set.mem_singleton_iff]
  exact ⟨fun h => ⟨h.1, h.2.2⟩, fun h => ⟨h.1, BitVec.lt_of_getLsbD h.1, h.2⟩⟩

/-- Every event of the controller is an event of the gateway, and keeps the invariant. -/
theorem PlicStep.refines {e : PlicEvent} (h : PlicInv m.s.regs) (hs : PlicStep fuel m e m') :
    Step (plicGateway m.s.regs) e.gatewayEvent (plicGateway m'.s.regs) ∧ PlicInv m'.s.regs := by
  have hzero : ((m.s.regs .plicGirqpend).setWidth 32).getLsbD 0 = false :=
    Bool.eq_false_iff.mpr h.source_zero
  cases e with
  | setPending irqId =>
    obtain ⟨i, hpos, hle⟩ := irqId
    have hi : i < 32 := Nat.lt_succ_of_le hle
    have hu := wlp_plicSetPendingIrq _ _ hs
    refine ⟨?_, h.update hu ?_⟩
    · rw [hu.gateway, getLsbD_or_one_shiftLeft hi]
      exact .request _ i
    · rw [BitVec.getLsbD_or, hzero, getLsbD_one_shiftLeft hi, Bool.false_or, decide_eq_false_iff_not]
      omega
  | resetPending irqId =>
    obtain ⟨i, hpos, hle⟩ := irqId
    have hi : i < 32 := Nat.lt_succ_of_le hle
    have hu := wlp_plicResetPendingIrq _ _ hs
    refine ⟨?_, h.update hu ?_⟩
    · rw [hu.gateway, getLsbD_and_not_one_shiftLeft hi]
      exact .withdraw _ i
    · rw [BitVec.getLsbD_and, hzero, Bool.false_and]
  | claim irqId =>
    rcases wlp_plicClaim _ _ hs with ⟨hp, hr, hu⟩ | ⟨hp, hr, rfl⟩
    · obtain rfl : irqId = _ := some.inj hr
      have hbit := getLsbD_ilog2 hp
      have hi : (ilog2 (plicPending m.s.regs)).toNat < 32 := BitVec.lt_of_getLsbD hbit
      have hmem := mem_claimable.mpr hbit
      have hne := h.ilog2_ne_zero hp
      refine ⟨?_, h.update hu hzero⟩
      rw [PlicEvent.gatewayEvent, if_neg hne, hu.gateway, plicServedAfterClaim, getLsbD_or_one_shiftLeft hi]
      exact .claim _ hmem
    · obtain rfl : irqId = 0 := some.inj hr
      exact ⟨.claimNone _ (claimable_eq_empty.mpr hp), h⟩
  | complete val =>
    obtain ⟨status, hs⟩ := hs
    by_cases hval : 1 ≤ val.toNat ∧ val.toNat ≤ plicMaxIrq
    · have hi : val.toNat < 32 := Nat.lt_succ_of_le hval.2
      have hu := wlp_plicComplete hval _ _ hs
      refine ⟨?_, h.update hu hzero⟩
      rw [PlicEvent.gatewayEvent, if_pos hval, hu.gateway, getLsbD_and_not_one_shiftLeft hi]
      exact .complete _ _
    · rw [plicWriteClaimComplete, if_neg hval] at hs
      obtain ⟨-, rfl⟩ := EStateM.pure_ok_iff.mp hs
      rw [PlicEvent.gatewayEvent, if_neg hval]
      exact ⟨.idle _, h⟩
  | csrWrite mcycle csraddr val =>
    obtain ⟨status, hs⟩ := hs
    obtain ⟨hinv, hplic⟩ := wlp_writeCsr (fun _ _ hc => PlicInv.csrWrite h hc) _ _ hs
    rw [hplic]
    exact ⟨.idle _, hinv⟩

theorem PlicRun.refines (h : PlicInv m.s.regs) (hr : PlicRun fuel m es m') :
    Run (plicGateway m.s.regs) (es.map PlicEvent.gatewayEvent) (plicGateway m'.s.regs) ∧
      PlicInv m'.s.regs := by
  induction hr with
  | nil => exact ⟨.nil _, h⟩
  | cons hstep _ ih =>
    obtain ⟨hstep, hinv⟩ := hstep.refines h
    obtain ⟨hrun, hinv'⟩ := ih hinv
    exact ⟨.cons hstep hrun, hinv'⟩

/-! ## The protocol -/

/-- The controller after a reset: no source requests service, none is served, and no external interrupt is
requested. -/
structure PlicReset (regs : Reg → Word) : Prop where
  girqpend : regs .plicGirqpend = 0
  girqsrvd : regs .plicGirqsrvd = 0
  mip : regs .mip &&& mipMeipMask = 0

theorem PlicReset.plicInv (h : PlicReset regs)
    (hdeleg : regs .mideleg &&& ~~~mipSupervisorMask = 0) : PlicInv regs where
  external := by
    have hnone : plicPending regs = 0 := by
      rw [plicPending, h.girqpend]
      exact BitVec.zero_and
    exact iff_of_false (not_not.mpr h.mip) (not_not.mpr hnone)
  source_zero := by
    show ¬ _ = true
    rw [h.girqpend]
    decide
  delegated := hdeleg

/-- What drivers rely on, from the machine `m` on. -/
structure PlicProtocol (fuel : Nat) (m : RunState) : Prop where
  external : ExternalIrq m.s.regs ↔ plicPending m.s.regs ≠ 0
  claim_answers : ∃ irq m', PlicStep fuel m (.claim irq) m'
  claim_zero : ∀ {irq m'}, PlicStep fuel m (.claim irq) m' → (irq = 0 ↔ plicPending m.s.regs = 0)
  /-- A source that was claimed is not claimed again until it is completed. -/
  claim_once : ∀ {irq m1 es m2 irq' m3}, PlicStep fuel m (.claim irq) m1 → irq ≠ 0 →
    PlicRun fuel m1 es m2 → (∀ val, .complete val ∈ es → val.toNat ≠ irq.toNat) →
    PlicStep fuel m2 (.claim irq') m3 → irq' ≠ irq
  /-- A source that was set pending and not reset can be claimed after its completion, until it is. -/
  not_lost : ∀ {irqId m1 es m2 val m3 es' m4}, PlicStep fuel m (.setPending irqId) m1 →
    PlicRun fuel m1 es m2 → .resetPending irqId ∉ es → val.toNat = irqId.val →
    PlicStep fuel m2 (.complete val) m3 → PlicRun fuel m3 es' m4 → .resetPending irqId ∉ es' →
    (∀ irq, .claim irq ∈ es' → irq.toNat ≠ irqId.val) →
    (plicPending m4.s.regs).getLsbD irqId.val = true

theorem succeeds_plicReadClaimComplete : Succeeds (plicReadClaimComplete.exec fuel) m := by
  simp [plicReadClaimComplete, readGirqpend, readGirqsrvd, resetMip, Prog.run_ite]

theorem mem_map_complete (h : .complete i ∈ es.map PlicEvent.gatewayEvent) :
    ∃ val, .complete val ∈ es ∧ val.toNat = i := by
  obtain ⟨e, he, heq⟩ := List.mem_map.mp h
  cases e with
  | complete val =>
    rw [PlicEvent.gatewayEvent] at heq
    split_ifs at heq
    cases heq
    exact ⟨val, he, rfl⟩
  | setPending | resetPending | claim | csrWrite => cases heq

theorem mem_map_withdraw {irqId : IrqId}
    (h : .withdraw irqId.val ∈ es.map PlicEvent.gatewayEvent) : .resetPending irqId ∈ es := by
  obtain ⟨e, he, heq⟩ := List.mem_map.mp h
  cases e with
  | resetPending irqId' =>
    obtain rfl : irqId' = irqId := Subtype.ext (Event.withdraw.inj heq)
    exact he
  | complete val =>
    rw [PlicEvent.gatewayEvent] at heq
    split_ifs at heq
  | setPending | claim | csrWrite => cases heq

theorem mem_map_claim
    (h : .claim (some i) ∈ es.map PlicEvent.gatewayEvent) : ∃ irq, .claim irq ∈ es ∧ irq.toNat = i := by
  obtain ⟨e, he, heq⟩ := List.mem_map.mp h
  cases e with
  | claim irq =>
    have heq := Event.claim.inj heq
    split_ifs at heq
    exact ⟨irq, he, some.inj heq⟩
  | complete val =>
    rw [PlicEvent.gatewayEvent] at heq
    split_ifs at heq
  | setPending | resetPending | csrWrite => cases heq

theorem PlicInv.protocol (h : PlicInv m.s.regs) (fuel : Nat) : PlicProtocol fuel m where
  external := h.external
  claim_answers := by
    obtain ⟨r, m', hr⟩ : Succeeds (plicReadClaimComplete.exec fuel) m :=
      succeeds_plicReadClaimComplete
    rcases wlp_plicClaim _ _ hr with ⟨-, rfl, -⟩ | ⟨-, rfl, -⟩
    · exact ⟨_, m', hr⟩
    · exact ⟨_, m', hr⟩
  claim_zero {irq m'} hclaim := by
    rcases wlp_plicClaim _ _ hclaim with ⟨hp, hr, -⟩ | ⟨hp, hr, -⟩
    · rw [some.inj hr]
      exact iff_of_false (h.ilog2_ne_zero hp) hp
    · exact iff_of_true (some.inj hr) hp
  claim_once {irq m1 es m2 irq' m3} hclaim hne hrun hes hclaim' := by
    obtain ⟨hstep, h1⟩ := hclaim.refines h
    rw [PlicEvent.gatewayEvent, if_neg hne] at hstep
    obtain ⟨hrun, h2⟩ := hrun.refines h1
    obtain ⟨hstep', -⟩ := hclaim'.refines h2
    rintro rfl
    rw [PlicEvent.gatewayEvent, if_neg hne] at hstep'
    refine hrun.claim_ne hstep.served_of_claim (fun hmem => ?_) hstep' rfl
    obtain ⟨val, hval, heq⟩ := mem_map_complete hmem
    exact hes val hval heq
  not_lost {irqId m1 es m2 val m3 es' m4} hset hrun hes hval hcomplete hrun' hes' hclaims := by
    obtain ⟨hstep, h1⟩ := hset.refines h
    obtain ⟨hrun, h2⟩ := hrun.refines h1
    obtain ⟨hstep', h3⟩ := hcomplete.refines h2
    obtain ⟨hrun', -⟩ := hrun'.refines h3
    have hpend : irqId.val ∈ (plicGateway m2.s.regs).pending := by
      exact hrun.pending hstep.pending_of_request fun hmem => hes (mem_map_withdraw hmem)
    rw [PlicEvent.gatewayEvent, if_pos (hval ▸ irqId.property), hval] at hstep'
    refine mem_claimable.mp (hrun'.claimable (hstep'.claimable_of_complete hpend) ?_ ?_)
    · exact fun hmem => hes' (mem_map_withdraw hmem)
    · intro hmem
      obtain ⟨irq, hirq, heq⟩ := mem_map_claim hmem
      exact hclaims irq hirq heq

/-- From a reset controller on, through any sequence of events, the protocol is kept, on a machine that
delegates only interrupts of supervisor mode. -/
theorem plic_protocol (fuel : Nat) (m m' : RunState) (es : List PlicEvent) (hreset : PlicReset m.s.regs)
    (hdeleg : m.s.regs .mideleg &&& ~~~mipSupervisorMask = 0) (hrun : PlicRun fuel m es m') :
    PlicProtocol fuel m' := by
  obtain ⟨-, hinv⟩ := hrun.refines (hreset.plicInv hdeleg)
  exact hinv.protocol fuel

/-- Two sources are set pending and the one with the higher number is claimed. -/
theorem plic_protocol_claim :
    ∃ m', PlicRun 0 (.small []) [.setPending ⟨3, by decide⟩, .setPending ⟨5, by decide⟩, .claim 5] m' ∧
      PlicProtocol 0 m' ∧ ExternalIrq m'.s.regs ∧ plicPending m'.s.regs = 8 := by
  have hrun : ∃ m', PlicRun 0 (.small [])
      [.setPending ⟨3, by decide⟩, .setPending ⟨5, by decide⟩, .claim 5] m' ∧
      ExternalIrq m'.s.regs ∧ plicPending m'.s.regs = 8 :=
    ⟨_, .cons rfl (.cons rfl (.cons rfl (.nil _))), by unfold ExternalIrq; decide, by decide⟩
  obtain ⟨m', hrun, hext, hpend⟩ := hrun
  exact ⟨m', hrun, plic_protocol 0 _ m' _ ⟨rfl, rfl, by decide⟩ (by decide) hrun, hext, hpend⟩

/-- A machine created with the external interrupt of machine mode delegated, in supervisor mode. -/
def delegatingMachine : RunState := .small [(.iprv, prvS), (.mideleg, mipMeipMask)]

/-- There, a write to `sip` requests the external interrupt although no source does. -/
theorem plic_delegated_external : PlicReset delegatingMachine.s.regs ∧
    ∃ m', PlicRun 0 delegatingMachine [.csrWrite 0 0x144 mipMeipMask] m' ∧
      ExternalIrq m'.s.regs ∧ plicPending m'.s.regs = 0 :=
  ⟨⟨rfl, rfl, by decide⟩, _, .cons ⟨_, rfl⟩ (.nil _), by unfold ExternalIrq; decide, by decide⟩

end MachineEmulator.Interpret
