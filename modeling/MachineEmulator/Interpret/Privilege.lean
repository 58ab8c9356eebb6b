import MachineEmulator.Interpret.LoopEffects
import MachineEmulator.Interpret.MstatusBits

/-!
# Privilege

* `PrvLegal` : the privilege level and the one that machine mode returns to are supported. It holds
  throughout every run;
* `UserPhase` : an instruction in user mode leaves the registers of supervisor and machine mode alone, up
  to what the devices do that it accesses.
-/

namespace MachineEmulator.Interpret

variable {fuel : Nat} {m m' : RunState}

/-! ## Levels -/

structure PrvLegal (regs : Reg → Word) : Prop where
  iprv : PrvSupported (regs .iprv)
  mpp : mstatusMpp (regs .mstatus) ≠ prvHS

namespace PrvLegal

theorem of_same {regs regs' : Reg → Word} (h : PrvLegal regs) (hprv : regs' .iprv = regs .iprv)
    (hmstatus : regs' .mstatus = regs .mstatus) : PrvLegal regs' :=
  ⟨hprv ▸ h.iprv, hmstatus ▸ h.mpp⟩

theorem writeReg (h : PrvLegal m.s.regs) {r : Reg} (hr : r ≠ .iprv ∧ r ≠ .mstatus) (v : Word) :
    PrvLegal (m.writeReg r v).s.regs :=
  h.of_same (Function.update_of_ne hr.1.symm _ _) (Function.update_of_ne hr.2.symm _ _)

theorem trapped (h : PrvLegal m.s.regs) (pc cause tval : Word) (d : Nat → Bool) :
    PrvLegal (m.trapped pc cause tval d).s.regs := by
  simp only [RunState.trapped, RunState.withState_s, trapRegs]
  split_ifs with hd
  · have hprv : m.s.regs .iprv = prvU ∨ m.s.regs .iprv = prvS := by
      rw [delegated, Bool.and_eq_true, decide_eq_true_eq] at hd
      rcases h.iprv with hU | hS | hM
      · exact .inl hU
      · exact .inr hS
      · rw [hM] at hd
        exact absurd hd.1 (by decide)
    refine ⟨.inr (.inl rfl), ?_⟩
    show mstatusMpp (mstatusTrapS (m.s.regs .mstatus) (m.s.regs .iprv)) ≠ prvHS
    rw [mstatusMpp_congr fun k hk => getLsbD_mstatusTrapS hprv hk]
    exact h.mpp
  · refine ⟨.inr (.inr rfl), ?_⟩
    show mstatusMpp (mstatusTrapM (m.s.regs .mstatus) (m.s.regs .iprv)) ≠ prvHS
    rw [mstatusMpp_mstatusTrapM h.iprv]
    rcases h.iprv with hp | hp | hp <;> rw [hp] <;> decide

theorem returned {mstatus prv : Word} {d : Nat → Bool} (hprv : PrvSupported prv)
    (hmpp : mstatusMpp mstatus ≠ prvHS) : PrvLegal (m.returned mstatus prv d).s.regs := by
  unfold RunState.returned
  split_ifs with hsame
  · exact ⟨hsame ▸ hprv, hmpp⟩
  · exact ⟨hprv, hmpp⟩

theorem csr {status : ExecuteStatus} (h : PrvLegal m.s.regs) (hc : CsrWriteEffect m status m') :
    PrvLegal m'.s.regs := by
  cases hc with
  | refused | ignored => exact h
  | fcsr => exact h.writeReg (by decide) _
  | plain hprv hr =>
    refine h.writeReg ⟨?_, ?_⟩ _ <;> rintro rfl <;> exact absurd hr (by decide)
  | interrupts hprv hr =>
    refine h.writeReg ⟨?_, ?_⟩ _ <;> rintro rfl <;> exact absurd hr (by decide)
  | satp => exact h.writeReg (by decide) _
  | satpFlush => exact h.of_same rfl rfl
  | mstatus => exact ⟨h.iprv, mstatusMpp_mstatusWritten⟩

theorem deviceFrame (h : PrvLegal m.s.regs) (hframe : DeviceFrame m m') : PrvLegal m'.s.regs :=
  h.of_same (hframe.regs _ (by decide)) (hframe.regs _ (by decide))

end PrvLegal

theorem prvLegal_insn (amo : Bool) (pc : Word) : InsnInvariant amo pc fun _ m => PrvLegal m.s.regs where
  write _ _ hr hI := by
    cases hr <;> exact hI.writeReg (by simp) _
  load {m size raiseStore mcycle vaddr r m'} _ hI hl := by
    cases hl with
    | hit => exact hI
    | memory htr => exact htr.regs ▸ hI
    | device htr hp hR hio hdev => exact PrvLegal.deviceFrame (htr.regs ▸ hI) hdev.deviceFrame
    | raised htr => exact PrvLegal.trapped (htr.regs ▸ hI) _ _ _ _
  store {q m size vaddr val r m'} _ _ hI hs := by
    cases hs with
    | hit hl hs => exact storeHost_regs hs ▸ hI
    | memory htr hp hW hM hs => exact (storeHost_regs hs).trans htr.regs ▸ hI
    | device htr hp hW hio hstatus hdev => exact PrvLegal.deviceFrame (htr.regs ▸ hI) hdev.toDeviceFrame
    | raised htr => exact PrvLegal.trapped (htr.regs ▸ hI) _ _ _ _
  csr _ hI hc := PrvLegal.csr hI hc
  raise hI := PrvLegal.trapped hI _ _ _ _
  sret hI _ := by
    refine .returned ?_ ?_
    · exact (mstatusSpp_eq_or _).imp id .inl
    · rw [mstatusMpp_eq, getLsbD_mstatusSret (by decide), getLsbD_mstatusSret (by decide), ← mstatusMpp_eq]
      exact hI.mpp
  mret hI _ := by
    refine .returned (.of_mpp hI.mpp) ?_
    rw [mstatusMpp_mstatusMret]
    decide
  sfence hI := hI

theorem prvLegal_loop : LoopInvariant fun m => PrvLegal m.s.regs where
  fetch {m pc vaddr r m'} hI hf := by
    cases hf with
    | hit => exact hI
    | filled htr => exact htr.regs ▸ hI
    | raised htr => exact PrvLegal.trapped (htr.regs ▸ hI) _ _ _ _
  insn := prvLegal_insn
  poll hI hp := PrvLegal.deviceFrame hI hp.toDeviceFrame
  timer hI := PrvLegal.writeReg hI (by decide) _
  commit {m r v} hI hr := by
    refine PrvLegal.writeReg hI ⟨?_, ?_⟩ v <;> rintro rfl <;> exact absurd hr (by decide)

/-! ## User mode -/

/-- An access to this address goes to a device. -/
def RunState.AccessesIO (m : RunState) (size : MemSize) (vaddr : Word) (xwr : Xwr) : Prop :=
  ∃ paddr m1 pma, Translation m true vaddr xwr (some paddr) m1 ∧ m1.searchPma size paddr = some pma ∧
    pma.istartIO = true

def InsnOp.AccessesIO : InsnOp → RunState → Prop
  | .readVirtualMemory size _ _ _ vaddr, m => m.AccessesIO size vaddr .read
  | .writeVirtualMemory size _ vaddr _, m => m.AccessesIO size vaddr .write
  | _, _ => False

/-- The registers that instructions do not write themselves are those of `m0`, up to those in `D`. -/
def UserFrame (m0 : RunState) (D : List Reg) (m : RunState) : Prop :=
  ∀ r, ¬ InsnWrites r → r ∉ D → m.s.regs r = m0.s.regs r

/-- Unless an exception is raised, an instruction in user mode keeps to the frame. -/
def UserPhase (m0 : RunState) (D : List Reg) : Phase → RunState → Prop
  | .raised _, _ => True
  | _, m => UserFrame m0 D m

section User
variable {m0 : RunState} {D : List Reg}

theorem UserFrame.writeReg (h : UserFrame m0 D m) {r : Reg} (hr : InsnWrites r) (v : Word) :
    UserFrame m0 D (m.writeReg r v) := by
  intro r' hr' hD
  rw [RunState.writeReg_regs, Function.update_of_ne, h r' hr' hD]
  rintro rfl
  exact hr' hr

theorem UserFrame.of_regs (h : UserFrame m0 D m) (hregs : m'.s.regs = m.s.regs) : UserFrame m0 D m' := by
  intro r hr hD
  rw [hregs, h r hr hD]

theorem UserFrame.deviceFrame (h : UserFrame m0 D m) (hframe : DeviceFrame m m')
    (hD : ∀ r ∈ deviceRegs, r ∈ D) : UserFrame m0 D m' := by
  intro r hr hrD
  rw [hframe.regs r fun hmem => hrD (hD r hmem), h r hr hrD]

theorem UserFrame.not_prvS_le (h : UserFrame m0 D m) (hU : m0.s.regs .iprv = prvU) (hD : .iprv ∉ D) :
    ¬ prvS ≤ m.s.regs .iprv := by
  rw [h .iprv (by rintro ⟨⟩) hD, hU]
  decide

theorem userPhase_insn {C : (o : InsnOp) → RunState → o.Ans → RunState → Prop} (hU : m0.s.regs .iprv = prvU)
    (hprv : .iprv ∉ D)
    (hdev : ∀ o m x m', C o m x m' → o.AccessesIO m → ∀ r ∈ deviceRegs, r ∈ D) (amo : Bool) (pc : Word) :
    InsnInvariantOn C amo pc (UserPhase m0 D) where
  write {q m r v x} _ hq hr hI := by
    cases q with
    | running | loaded | retired => exact UserFrame.writeReg hI hr v
    | raised newPc => exact absurd rfl (hq newPc)
  load {m size raiseStore mcycle vaddr r m'} hC hI hl := by
    cases hl with
    | hit => exact hI
    | memory htr => exact UserFrame.of_regs hI htr.regs
    | device htr hp hR hio hd =>
      have hI1 := UserFrame.of_regs hI htr.regs
      exact hI1.deviceFrame hd.deviceFrame (hdev _ _ _ _ hC ⟨_, _, _, htr, hp, hio⟩)
    | raised htr => trivial
  store {q m size vaddr val r m'} hC hq hI hs := by
    have hI : UserFrame m0 D m := by
      rcases hq with rfl | ⟨-, rfl⟩ <;> exact hI
    cases hs with
    | hit hl hs => exact hI.of_regs (storeHost_regs hs)
    | memory htr hp hW hM hs => exact hI.of_regs ((storeHost_regs hs).trans htr.regs)
    | device htr hp hW hio hstatus hd =>
      rw [Phase.ofOutcome, if_neg hstatus]
      exact (hI.of_regs htr.regs).deviceFrame hd.toDeviceFrame (hdev _ _ _ _ hC ⟨_, _, _, htr, hp, hio⟩)
    | raised htr => trivial
  csr {m mcycle csraddr val status m'} _ hI hc := by
    have hno := UserFrame.not_prvS_le hI hU hprv
    cases hc with
    | refused | ignored => exact hI
    | fcsr v => exact UserFrame.writeReg hI .fcsr v
    | plain h | interrupts h | satp h | satpFlush h | mstatus h => exact absurd h hno
  raise _ := trivial
  sret hI h := absurd h (UserFrame.not_prvS_le hI hU hprv)
  mret hI h := absurd (BitVec.le_trans (by decide) h) (UserFrame.not_prvS_le hI hU hprv)
  sfence hI := hI

/-- In user mode, an instruction raises an exception or keeps to the frame. -/
theorem wlp_executeInsn_user {C : (o : InsnOp) → RunState → o.Ans → RunState → Prop} {fp : SoftFloat}
    {pc mcycle : Word} {insn : Insn} (hU : m.s.regs .iprv = prvU) (hprv : .iprv ∉ D)
    (hdev : ∀ o m1 x m2, C o m1 x m2 → o.AccessesIO m1 → ∀ r ∈ deviceRegs, r ∈ D)
    (hC : ∀ o m1 x m2, (executeInsn fp pc mcycle insn).Asked (insnAccess fuel) m o m1 →
      insnAccess fuel o m1 = .ok x m2 → C o m1 x m2) :
    Wlp ((executeInsn fp pc mcycle insn).access.exec fuel)
      (fun r m' => r.1.1 = .failure ∨ UserFrame m D m') m := by
  refine (userPhase_insn hU hprv hdev _ pc).wlp_executeInsn fp (fun _ _ _ => rfl) (fun _ => ?_)
    (fun q outcome m' hq hacc => ?_) hC
  · exact wlp_executeWFI (fun d => .inl rfl) (fun r m' hne => absurd hU hne) (.inr fun _ _ _ => rfl)
  · cases q with
    | running | loaded | retired => exact .inr hq
    | raised newPc => exact .inl (by rw [hacc])

end User

/-- From a legal state, every place of a run has a supported privilege level in `iprv` and in `MPP`. An
instruction in user mode traps or leaves all registers but its own alone; devices change theirs only if
the instruction accesses one. -/
theorem privilege_protected (fp : SoftFloat) (fuel : Nat) :
    (∀ (mcycleEnd : Word) (m : RunState), PrvLegal m.s.regs →
      (∀ x, LoopSteps (stateAccess fuel) fp mcycleEnd (.start m) x → PrvLegal x.state.s.regs) ∧
      ∀ reason m', (interpret fp mcycleEnd).run (stateAccess fuel) m = .ok reason m' → PrvLegal m'.s.regs) ∧
    ∀ (m : RunState) (pc mcycle : Word) (insn : Insn), m.s.regs .iprv = prvU → ∀ outcome mcycle' m',
        (executeInsn fp pc mcycle insn).access.run (stateAccess fuel) m = .ok (outcome, mcycle') m' →
        outcome.1 = .failure ∨ (∀ r, ¬ InsnWrites r → r ∉ deviceRegs → m'.s.regs r = m.s.regs r) ∧
          ((∀ o m1, (executeInsn fp pc mcycle insn).Asked (insnAccess fuel) m o m1 → ¬ o.AccessesIO m1) →
            ∀ r, ¬ InsnWrites r → m'.s.regs r = m.s.regs r) := by
  refine ⟨fun mcycleEnd m h => ?_, fun m pc mcycle insn hU outcome mcycle' m' hrun => ?_⟩
  · have hstart : PrvLegal (m.writeReg .iflagsX 0).s.regs := h.writeReg (by decide) 0
    exact ⟨fun x hx => prvLegal_loop.visited hx hstart, fun reason m' => prvLegal_loop.interpret h hstart⟩
  · rw [or_iff_not_imp_left]
    intro hok
    have hall := wlp_executeInsn_user (D := deviceRegs) (C := fun _ _ _ _ => True) hU (by decide)
      (fun _ _ _ _ _ _ r hr => hr) (fun _ _ _ _ _ _ => trivial) _ _ hrun
    refine ⟨hall.resolve_left hok, fun hmem r hr => ?_⟩
    have hnone := wlp_executeInsn_user (D := []) (C := fun o m1 _ _ => ¬ o.AccessesIO m1) hU (by decide)
      (fun _ _ _ _ hno hio => absurd hio hno) (fun o m1 _ _ ho _ => hmem o m1 ho) _ _ hrun
    exact hnone.resolve_left hok r hr (by simp)

/-- A new machine is legal, and in user mode an addition leaves the other registers alone. -/
theorem privilege_protected_user : PrvLegal (RunState.small []).s.regs ∧
    (∀ x, LoopSteps (stateAccess 0) .zero 100 (.start (.small [])) x → PrvLegal x.state.s.regs) ∧
    ∃ outcome mcycle' m',
      (executeInsn .zero pmaRamStart 0 0x00100093).access.run (stateAccess 0) (.small [(.iprv, prvU)]) =
        .ok (outcome, mcycle') m' ∧ outcome.1 = .success ∧ m'.s.regs (.x 1) = 1 ∧
      ∀ r, ¬ InsnWrites r → r ∉ deviceRegs → m'.s.regs r = (RunState.small [(.iprv, prvU)]).s.regs r := by
  have hlegal : PrvLegal (RunState.small []).s.regs := ⟨.inr (.inr rfl), by decide⟩
  obtain ⟨hrun, huser⟩ := privilege_protected .zero 0
  have hstep := huser (.small [(.iprv, prvU)]) pmaRamStart 0 0x00100093 rfl _ _ _ rfl
  refine ⟨hlegal, (hrun 100 _ hlegal).1, _, _, _, rfl, rfl, rfl, (hstep.resolve_left ?_).1⟩
  decide

end MachineEmulator.Interpret
