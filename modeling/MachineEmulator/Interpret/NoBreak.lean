import MachineEmulator.Interpret.InsnEffects
import MachineEmulator.Interpret.Interrupts

/-!
# The inner loop need not look for interrupts

`NoBrk` is what the loop asserts before each instruction: no interrupt is pending and enabled, and no flag
asks it to stop. An instruction that does not ask for the outer loop's attention by its status keeps it.
-/

namespace MachineEmulator.Interpret

variable {fuel : Nat} {m m' : RunState}

/-- No interrupt is pending and enabled, and no flag is set. -/
structure NoBrk (regs : Reg → Word) : Prop where
  pending : pendingMask regs = 0
  iflagsX : regs .iflagsX = 0
  iflagsY : regs .iflagsY = 0
  iflagsH : regs .iflagsH = 0

/-- The registers that `NoBrk` looks at. -/
def brkRegs : List Reg := [.mip, .mie, .mideleg, .mstatus, .iprv, .iflagsX, .iflagsY, .iflagsH]

theorem enabledMask_congr {regs regs' : Reg → Word} (hprv : regs' .iprv = regs .iprv)
    (hdeleg : regs' .mideleg = regs .mideleg)
    (hie : regs' .mstatus &&& (mstatusSieMask ||| mstatusMieMask) =
      regs .mstatus &&& (mstatusSieMask ||| mstatusMieMask)) : enabledMask regs' = enabledMask regs := by
  have hbits : ∀ {mask : Word}, mask &&& (mstatusSieMask ||| mstatusMieMask) = mask →
      regs' .mstatus &&& mask = regs .mstatus &&& mask := by
    intro mask hmask
    rw [← hmask, BitVec.and_comm mask, ← BitVec.and_assoc, ← BitVec.and_assoc, hie]
  have hM : regs' .mstatus &&& mstatusMieMask = regs .mstatus &&& mstatusMieMask := hbits (by decide)
  have hS : regs' .mstatus &&& mstatusSieMask = regs .mstatus &&& mstatusSieMask := hbits (by decide)
  rw [enabledMask, enabledMask, hprv, hdeleg, hM, hS]

/-- With fewer interrupts pending, fewer are pending and enabled. -/
theorem pendingMask_eq_zero {regs regs' : Reg → Word} (h : pendingMask regs = 0)
    (hmip : regs' .mip &&& regs .mip = regs' .mip) (hmie : regs' .mie = regs .mie)
    (hen : enabledMask regs' = enabledMask regs) : pendingMask regs' = 0 := by
  rw [pendingMask, hmie, hen, ← hmip, BitVec.and_assoc, BitVec.setWidth_and, BitVec.and_assoc]
  rw [pendingMask] at h
  rw [h]
  exact BitVec.and_zero

theorem NoBrk.of_same {regs regs' : Reg → Word} (h : NoBrk regs)
    (hsame : ∀ r ∈ brkRegs, regs' r = regs r) : NoBrk regs' where
  pending := by
    refine pendingMask_eq_zero h.pending ?_ (hsame _ (by decide)) (enabledMask_congr ?_ ?_ ?_)
    · rw [hsame _ (by decide), BitVec.and_self]
    · exact hsame _ (by decide)
    · exact hsame _ (by decide)
    · rw [hsame _ (by decide)]
  iflagsX := (hsame _ (by decide)).trans h.iflagsX
  iflagsY := (hsame _ (by decide)).trans h.iflagsY
  iflagsH := (hsame _ (by decide)).trans h.iflagsH

theorem NoBrk.writeReg (h : NoBrk m.s.regs) {r : Reg} (hr : r ∉ brkRegs) (v : Word) :
    NoBrk (m.writeReg r v).s.regs := by
  refine h.of_same fun r' hr' => Function.update_of_ne ?_ _ _
  rintro rfl
  exact hr hr'

theorem InsnWrites.notMem_brkRegs {r : Reg} (h : InsnWrites r) : r ∉ brkRegs := by
  cases h <;> simp [brkRegs]

/-! ## The effects of the operations -/

theorem NoBrk.trapped (h : NoBrk m.s.regs) (pc cause tval : Word) (d : Nat → Bool) :
    NoBrk (m.trapped pc cause tval d).s.regs := by
  simp only [RunState.trapped, RunState.withState_s, trapRegs]
  split_ifs with hd
  · have hprv : m.s.regs .iprv ≤ prvS := by
      rw [delegated, Bool.and_eq_true, decide_eq_true_eq] at hd
      exact hd.1
    refine ⟨?_, h.iflagsX, h.iflagsY, h.iflagsH⟩
    rw [pendingMask_trapRegsS, ← undelegatedMask_eq hprv, undelegatedMask, h.pending]
    exact BitVec.zero_and
  · exact ⟨pendingMask_trapRegsM _ _ _ _, h.iflagsX, h.iflagsY, h.iflagsH⟩

/-- Devices with fewer interrupts pending and the flags as they were. -/
theorem NoBrk.of_device (h : NoBrk m.s.regs) (hmip : MipWithin m m')
    (hflags : ∀ r ∈ [Reg.iflagsH, .iflagsX, .iflagsY], m'.s.regs r = m.s.regs r)
    (hregs : ∀ r ∈ [Reg.mie, .mideleg, .mstatus, .iprv], m'.s.regs r = m.s.regs r) :
    NoBrk m'.s.regs where
  pending := by
    refine pendingMask_eq_zero h.pending hmip (hregs _ (by decide)) (enabledMask_congr ?_ ?_ ?_)
    · exact hregs _ (by decide)
    · exact hregs _ (by decide)
    · rw [hregs _ (by decide)]
  iflagsX := (hflags _ (by decide)).trans h.iflagsX
  iflagsY := (hflags _ (by decide)).trans h.iflagsY
  iflagsH := (hflags _ (by decide)).trans h.iflagsH

theorem NoBrk.claimed (h : NoBrk m.s.regs) : NoBrk m.claimed.s.regs := by
  unfold RunState.claimed
  split_ifs
  · exact h.of_device (.of_and_not rfl) (by simp) (by simp)
  · exact h.of_device (.of_eq rfl) (by simp) (by simp)

theorem NoBrk.deviceRead {r : Option Word} (h : NoBrk m.s.regs) (hr : DeviceReadEffect m r m') :
    NoBrk m'.s.regs := by
  cases hr with
  | quiet => exact h
  | claim => exact h.claimed

theorem NoBrk.deviceWrite {status : ExecuteStatus} (h : NoBrk m.s.regs)
    (hw : DeviceWriteEffect m status m') (hs : status.code < 3) : NoBrk m'.s.regs := by
  refine h.of_device (hw.quiet hs) (hw.flags (by omega)) fun r hr => hw.regs r ?_
  simp only [List.mem_cons, List.not_mem_nil, or_false] at hr
  rcases hr with rfl | rfl | rfl | rfl <;> decide

theorem NoBrk.load {size : MemSize} {pc vaddr : Word} {r : LoadResult} (h : NoBrk m.s.regs)
    (hl : LoadEffect m size pc vaddr r m') : NoBrk m'.s.regs := by
  cases hl with
  | hit => exact h
  | memory htr => exact htr.regs ▸ h
  | device htr hp hR hio hdev => exact NoBrk.deviceRead (htr.regs ▸ h) hdev
  | raised htr => exact NoBrk.trapped (htr.regs ▸ h) _ _ _ _

theorem NoBrk.store {size : MemSize} {pc vaddr val : Word} {r : StoreResult} (h : NoBrk m.s.regs)
    (hst : StoreEffect m size pc vaddr val r m') (hr : r.1.code < 3) : NoBrk m'.s.regs := by
  cases hst with
  | hit hl hs => exact storeHost_regs hs ▸ h
  | memory htr hp hW hM hs => exact (storeHost_regs hs).trans htr.regs ▸ h
  | device htr hp hW hio hstatus hdev => exact NoBrk.deviceWrite (htr.regs ▸ h) hdev hr
  | raised htr => exact NoBrk.trapped (htr.regs ▸ h) _ _ _ _

/-- A write to `mstatus` that leaves the interrupt enables alone. -/
theorem NoBrk.mstatusSet {val : Word} {d : Nat → Bool} (h : NoBrk m.s.regs)
    (hs : (mstatusStatus m.s.regs val).code < 3) : NoBrk (m.mstatusSet val d).s.regs := by
  have hsame : mstatusMod m.s.regs val &&& (mstatusSieMask ||| mstatusMieMask) = 0 := by
    by_contra hne
    rw [mstatusStatus, if_pos hne] at hs
    exact absurd hs (by decide)
  rw [mstatusMod, Bits.xor_and_eq_zero_iff, BitVec.and_assoc] at hsame
  have hR : mstatusRMask &&& (mstatusSieMask ||| mstatusMieMask) = mstatusSieMask ||| mstatusMieMask := by
    decide
  rw [hR] at hsame
  refine ⟨pendingMask_eq_zero h.pending (BitVec.and_self) rfl (enabledMask_congr rfl rfl hsame.symm),
    h.iflagsX, h.iflagsY, h.iflagsH⟩

theorem NoBrk.csr {status : ExecuteStatus} (h : NoBrk m.s.regs) (hc : CsrWriteEffect m status m')
    (hs : status.code < 3) : NoBrk m'.s.regs := by
  cases hc with
  | refused | ignored => exact h
  | fcsr => exact h.writeReg (by decide) _
  | plain hprv hr =>
    refine h.writeReg (fun hmem => ?_) _
    simp only [plainCsrRegs, brkRegs, List.mem_cons, List.not_mem_nil, or_false] at hr hmem
    rcases hr with rfl | rfl | rfl | rfl | rfl | rfl | rfl | rfl | rfl | rfl | rfl | rfl | rfl | rfl | rfl | rfl <;>
      simp at hmem
  | interrupts => exact absurd hs (by decide)
  | satp => exact h.writeReg (by decide) _
  | satpFlush => exact h.writeReg (m := m) (r := .satp) (by decide) _
  | mstatus => exact h.mstatusSet hs

/-! ## Instructions -/

/-- What holds in each phase of an instruction. -/
def NoBrkPhase : Phase → RunState → Prop
  | .retired status, m => status.code < 3 → NoBrk m.s.regs
  | _, m => NoBrk m.s.regs

theorem noBrkPhase_invariant (amo : Bool) (pc : Word) : InsnInvariant amo pc NoBrkPhase where
  write {q m r v x} _ hq hr hI := by
    have hwrite : NoBrk m.s.regs → NoBrk (m.writeReg r v).s.regs := fun h => h.writeReg hr.notMem_brkRegs v
    cases q with
    | running | loaded => exact fun _ => hwrite hI
    | retired status => exact fun hs => hwrite (hI hs)
    | raised newPc => exact absurd rfl (hq newPc)
  load {m size raiseStore mcycle vaddr r m'} _ hI hl := by
    cases r <;> exact NoBrk.load hI hl
  store {q m size vaddr val r m'} _ hq hI hs := by
    have h : NoBrk m.s.regs := by
      rcases hq with rfl | ⟨-, rfl⟩ <;> exact hI
    unfold Phase.ofOutcome
    split_ifs with hr
    · exact h.store hs (by rw [hr]; decide)
    · exact h.store hs
  csr {m mcycle csraddr val status m'} _ hI hc := by
    unfold Phase.ofCsr
    split_ifs with hs
    · exact NoBrk.csr hI hc (by rw [hs]; decide)
    · exact NoBrk.csr hI hc
  raise hI := NoBrk.trapped hI _ _ _ _
  sret _ _ h := absurd h (by decide)
  mret _ _ h := absurd h (by decide)
  sfence hI _ := hI

/-- An instruction that starts with nothing to break for and does not ask for the attention of the outer
loop ends with nothing to break for, except a wait of a machine in unreproducible mode. -/
theorem executeInsn_noBrk (fp : SoftFloat) (fuel : Nat) (m : RunState) (pc mcycle : Word) (insn : Insn)
    (hwfi : ¬ (insn = wfiInsn ∧ m.s.regs .iunrep ≠ 0)) (h : NoBrk m.s.regs) (outcome : Outcome)
    (mcycle' : Word) (m' : RunState)
    (hrun : (executeInsn fp pc mcycle insn).access.run (stateAccess fuel) m = .ok (outcome, mcycle') m')
    (hstatus : outcome.1.code < ExecuteStatus.successAndServeInterrupts.code) : NoBrk m'.s.regs := by
  have hinsn : Wlp ((executeInsn fp pc mcycle insn).access.run (stateAccess fuel))
      (fun r m' => r.1.1.code < 3 → NoBrk m'.s.regs) m := by
    refine (noBrkPhase_invariant _ pc).wlp_executeInsn fp h (fun heq => ?_) fun q outcome m' hq hacc => ?_
    · have hrep : m.s.regs .iunrep = 0 := by
        by_contra hne
        exact hwfi ⟨heq, hne⟩
      refine wlp_executeWFI (fun d _ => h.trapped _ _ _ _) (fun r m' _ _ hpoll _ => ?_) fun _ => h
      obtain ⟨rfl, -⟩ := hpoll.reproducible hrep
      exact h
    · cases q with
      | retired status => exact fun hs => hq (hacc.1 ▸ hs)
      | running | loaded | raised => exact fun _ => hq
  exact hinsn _ _ hrun hstatus

/-- A call from machine mode traps and leaves nothing to break for. -/
theorem executeInsn_noBrk_ecall : NoBrk (RunState.small []).s.regs ∧ ∃ outcome mcycle' m',
      (executeInsn .zero pmaRamStart 0 0x00000073).access.run (stateAccess 0) (RunState.small []) =
        .ok (outcome, mcycle') m' ∧ outcome.1 = .failure ∧ NoBrk m'.s.regs := by
  have h : NoBrk (RunState.small []).s.regs := ⟨by decide, rfl, rfl, rfl⟩
  exact ⟨h, _, _, _, rfl, rfl, executeInsn_noBrk .zero 0 _ pmaRamStart 0 0x00000073 (by decide) h _ _ _ rfl
    (by decide)⟩

end MachineEmulator.Interpret
