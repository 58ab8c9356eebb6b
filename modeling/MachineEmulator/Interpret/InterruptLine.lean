import MachineEmulator.Interpret.Plic

/-!
# The interrupt lines of VirtIO devices

A device has a line to the interrupt controller. It is raised by notifications and lowered by
acknowledgements and resets, and it stays level with the interrupt status of the device through any
interleaving of what happens to the devices, to the controller and to the rest of the machine.

* `LineFrame` : what a device at work leaves alone of the lines of others;
* `AtWork` : the line of a device at work stays level with its status. Every piece of a device's program
  keeps to it;
* `LineRun.inv` : the lines stay level through whole runs.
-/

namespace MachineEmulator.Interpret

open Virtio Virtio.VirtioDevice BitVec

variable {fuel : Nat} {m m' m0 : RunState}

def virtioMax : Nat := 31

/-! ## Lines -/

def lineRaised (m : RunState) (irqId : Nat) : Bool := ((m.s.regs .plicGirqpend).setWidth 32).getLsbD irqId

theorem wlp_raiseLine {irqId : Nat} (hid : irqId < 32) :
    Wlp ((setPendingIrq irqId).run busAccess) (fun _ m' => m'.vdevs = m.vdevs ∧
      ∀ k, lineRaised m' k = if k = irqId then true else lineRaised m k) m := by
  have hline := @wlp_plicSetPendingIrq 0 m irqId
  rw [AProg.exec, ← run_plicSetPendingIrq 0] at hline
  refine (Wlp.and ((wlp_perform (S := BusSig) (o := .setPendingIrq irqId)).mpr hline)
    (wlp_setPendingIrq fun m' hf => hf.vdevs)).mono fun _ m' hm' => ⟨hm'.2, fun k => ?_⟩
  rw [lineRaised, hm'.1.girqpend, getLsbD_or, Bits.getLsbD_one_shiftLeft hid]
  by_cases hk : k = irqId <;> simp [hk, lineRaised]

theorem wlp_lowerLine {irqId : Nat} (hid : irqId < 32) :
    Wlp ((resetPendingIrq irqId).run busAccess) (fun _ m' => m'.vdevs = m.vdevs ∧
      ∀ k, lineRaised m' k = if k = irqId then false else lineRaised m k) m := by
  have hline := @wlp_plicResetPendingIrq 0 m irqId
  rw [AProg.exec, ← run_plicResetPendingIrq 0] at hline
  refine (Wlp.and ((wlp_perform (S := BusSig) (o := .resetPendingIrq irqId)).mpr hline)
    (wlp_resetPendingIrq fun m' hf _ => hf.vdevs)).mono fun _ m' hm' => ⟨hm'.2, fun k => ?_⟩
  rw [lineRaised, hm'.1.girqpend, getLsbD_and, getLsbD_not, Bits.getLsbD_one_shiftLeft hid]
  by_cases hk : k = irqId
  · simp [hk]
  · simpa [hk, lineRaised] using fun h _ => h

/-! ## A device at work -/

/-- The line of the device in place `i` is level with its status. -/
def LineLevel (m : RunState) (i : Nat) : Prop :=
  ∀ d, m.vdevs[i]? = some d → (lineRaised m (i + 1) = true ↔ d.intStatus ≠ 0)

/-- The device `d` in place `i` has worked since `m0`, and left the lines of others alone. -/
structure LineFrame (m0 : RunState) (i : Nat) (d : VirtioDevice) (m : RunState) : Prop where
  place : d.virtioIdx = i
  vdevs : m.vdevs = m0.vdevs
  others : ∀ k, k ≠ i + 1 → lineRaised m k = lineRaised m0 k

structure AtWork (m0 : RunState) (i : Nat) (d : VirtioDevice) (m : RunState) : Prop
    extends LineFrame m0 i d m where
  level : LineLevel m0 i → (lineRaised m (i + 1) = true ↔ d.intStatus ≠ 0)

variable {i : Nat} {d d' : VirtioDevice}

theorem AtWork.start (hd : m.vdevs[i]? = some d) (hplace : d.virtioIdx = i) : AtWork m i d m :=
  ⟨⟨hplace, rfl, fun _ _ => rfl⟩, fun h => h d hd⟩

theorem LineFrame.of_device (h : LineFrame m0 i d m) (hplace : d'.virtioIdx = d.virtioIdx) :
    LineFrame m0 i d' m :=
  ⟨hplace.trans h.place, h.vdevs, h.others⟩

theorem AtWork.of_device (h : AtWork m0 i d m) (hplace : d'.virtioIdx = d.virtioIdx)
    (hint : d'.intStatus = d.intStatus) : AtWork m0 i d' m :=
  ⟨h.toLineFrame.of_device hplace, hint ▸ h.level⟩

/-- A line that is set to the level of the status. -/
theorem LineFrame.set {p : EStateM Fault RunState Unit} {level : Bool} (h : LineFrame m0 i d m)
    (hlevel : level = true ↔ d.intStatus ≠ 0)
    (hp : Wlp p (fun _ m' => m'.vdevs = m.vdevs ∧
      ∀ k, lineRaised m' k = if k = d.getIrqId then level else lineRaised m k) m) :
    Wlp p (fun _ m' => AtWork m0 i d m') m := by
  have hid : d.getIrqId = i + 1 := congrArg (· + 1) h.place
  rw [hid] at hp
  refine hp.mono fun _ m' hm' => ⟨⟨h.place, hm'.1.trans h.vdevs, fun k hk => ?_⟩, fun _ => ?_⟩
  · rw [hm'.2, if_neg hk, h.others k hk]
  · rw [hm'.2, if_pos rfl, hlevel]

theorem LineFrame.raise (h : LineFrame m0 i d m) (hi : i < virtioMax) (hint : d.intStatus ≠ 0) :
    Wlp ((setPendingIrq d.getIrqId).run busAccess) (fun _ m' => AtWork m0 i d m') m :=
  h.set (iff_of_true rfl hint) (wlp_raiseLine (Nat.succ_lt_succ (h.place.symm ▸ hi)))

theorem keptByDevice_atWork (hi : i < virtioMax) : KeptByDevice busAccess (AtWork m0 i) where
  bus o ho d m h := by
    refine (wlp_busAccess ho).mono fun _ m' hm' => ?_
    have hline : ∀ k, lineRaised m' k = lineRaised m k := fun k => by rw [lineRaised, hm'.2, lineRaised]
    refine ⟨⟨h.place, hm'.1.vdevs.trans h.vdevs, fun k hk => (hline k).trans (h.others k hk)⟩, ?_⟩
    rw [hline]
    exact h.level
  change _ hc h := by
    cases hc with
    | consumed | config | generation | needsReset => exact h.of_device rfl rfl
  setIrq {add} hadd d m h := by
    have hne : d.intStatus ||| add ≠ 0 := fun h0 => hadd (or_eq_zero_iff.mp h0).2
    have hframe : LineFrame m0 i { d with intStatus := d.intStatus ||| add } m := h.toLineFrame.of_device rfl
    simp only [setIrq, localWlp_bind, localWlp_modify, localWlp_get, localWlp_ite, localWlp_liftM,
      localWlp_pure]
    exact ⟨fun _ => hframe.raise hi hne, fun h0 => absurd hne h0⟩

/-- The line is brought to the level of the status, wherever it was. -/
theorem atWork_resetIrq (hi : i < virtioMax) {rem : BitVec 32} (h : LineFrame m0 i d m) :
    LocalWlp busAccess (resetIrq rem) (fun _ d' m' => AtWork m0 i d' m') d m := by
  have hframe : LineFrame m0 i { d with intStatus := d.intStatus &&& ~~~rem } m := h.of_device rfl
  simp only [resetIrq, localWlp_bind, localWlp_modify, localWlp_get, localWlp_ite, localWlp_liftM]
  exact ⟨fun h0 => hframe.set (iff_of_false Bool.false_ne_true (not_not.mpr h0))
    (wlp_lowerLine (Nat.succ_lt_succ (h.place.symm ▸ hi))), fun hne => hframe.raise hi hne⟩

theorem atWork_reset (hi : i < virtioMax) (h : LineFrame m0 i d m) :
    LocalWlp busAccess reset (fun _ d' m' => AtWork m0 i d' m') d m := by
  exact atWork_resetIrq hi (h.of_device rfl)

theorem keptByDriver_atWork (hi : i < virtioMax) : KeptByDriver busAccess (AtWork m0 i) where
  toKeptByDevice := keptByDevice_atWork hi
  setup _ hset h := by
    cases hset with
    | config | select | driverFeatures | queue => exact h.of_device rfl rfl
  status _ _ _ h := h.of_device rfl rfl
  resetIrq _ _ _ h := atWork_resetIrq hi h.toLineFrame
  reset _ _ h := atWork_reset hi h.toLineFrame

/-! ## Runs -/

/-- What may happen to a device, with the type of the answer. -/
inductive DeviceEvent : Type → Type 1 where
  | mmioRead (offset : Word) (size : MemSize) : DeviceEvent (Option (BitVec 32))
  | mmioWrite (w : MmioWrite) : DeviceEvent ExecuteStatus
  | notifyQueueUsed : DeviceEvent Unit
  | notifyConfigChange : DeviceEvent Unit
  | notifyDeviceNeedsReset : DeviceEvent Unit
  | reset : DeviceEvent Unit
  /-- The kind of device is at work, as when it is polled. -/
  | work {α : Type} (p : Prog ServiceSig α) : DeviceEvent α

def DeviceEvent.prog (fuel : Nat) {α : Type} : DeviceEvent α → DProg α
  | .mmioRead offset size => do
    let d ← get
    pure (d.mmioRead offset size)
  | .mmioWrite w => w.prog fuel
  | .notifyQueueUsed => VirtioDevice.notifyQueueUsed
  | .notifyConfigChange => VirtioDevice.notifyConfigChange
  | .notifyDeviceNeedsReset => VirtioDevice.notifyDeviceNeedsReset
  | .reset => VirtioDevice.reset
  | .work p => serve fuel p

theorem atWork_deviceEvent {α : Type} (hi : i < virtioMax) (e : DeviceEvent α) (h : AtWork m0 i d m) :
    LocalWlp busAccess (e.prog fuel) (fun _ d' m' => AtWork m0 i d' m') d m := by
  cases e with
  | mmioRead offset size => exact localWlp_bind.mpr (localWlp_get.mpr (localWlp_pure.mpr h))
  | mmioWrite w => exact (keptByDriver_atWork hi).prog w _ _ h
  | notifyQueueUsed => exact (keptByDevice_atWork hi).notifyQueueUsed _ _ h
  | notifyConfigChange => exact (keptByDevice_atWork hi).notifyConfigChange _ _ h
  | notifyDeviceNeedsReset => exact (keptByDevice_atWork hi).notifyDeviceNeedsReset _ _ h
  | reset => exact atWork_reset hi h.toLineFrame
  | work p => exact (keptByDevice_atWork hi).serve p _ _ h

/-- A run of the machine, as far as its devices are concerned. -/
inductive LineRun (fuel : Nat) (m : RunState) : RunState → Prop
  | start : LineRun fuel m m
  | device {m' m'' : RunState} (hrun : LineRun fuel m m') (i : Nat) {α : Type} (e : DeviceEvent α) {a : α}
    (he : onDevice i (e.prog fuel) m' = .ok a m'') : LineRun fuel m m''
  | plicRead {m' m'' : RunState} (hrun : LineRun fuel m m') (offset : Word) (size : MemSize) {r : Option Word}
    (he : (plicRead offset size).run (stateAccess fuel) m' = .ok r m'') : LineRun fuel m m''
  | plicWrite {m' m'' : RunState} (hrun : LineRun fuel m m') (offset val : Word) (size : MemSize)
    {status : ExecuteStatus}
    (he : (plicWrite offset val size).run (stateAccess fuel) m' = .ok status m'') : LineRun fuel m m''
  /-- The rest of the machine runs: guest memory, the host and other registers change in any way. -/
  | rest {m' m'' : RunState} (hrun : LineRun fuel m m') (hvdevs : m''.vdevs = m'.vdevs)
    (hpend : m''.s.regs .plicGirqpend = m'.s.regs .plicGirqpend) : LineRun fuel m m''

structure Placed (m : RunState) : Prop where
  count : m.vdevs.length ≤ virtioMax
  place : ∀ (i : Nat) d, m.vdevs[i]? = some d → d.virtioIdx = i

theorem Placed.lt (h : Placed m) (hd : m.vdevs[i]? = some d) : i < virtioMax :=
  Nat.lt_of_lt_of_le (List.getElem?_eq_some_iff.mp hd).1 h.count

/-- The devices and the lines are as before. -/
def SameLines (m m' : RunState) : Prop := m'.vdevs = m.vdevs ∧ ∀ k, lineRaised m' k = lineRaised m k

theorem SameLines.placed (h : SameLines m m') (hm : Placed m) : Placed m' := by
  constructor
  · rw [h.1]
    exact hm.count
  · rw [h.1]
    exact hm.place

theorem SameLines.level (h : SameLines m m') (hm : LineLevel m i) : LineLevel m' i := by
  unfold LineLevel
  rw [h.1, h.2]
  exact hm

theorem AtWork.placed (h : AtWork m i d' m') (hm : Placed m) : Placed { m' with vdevs := m'.vdevs.set i d' } := by
  refine ⟨?_, fun j d1 hd1 => ?_⟩
  · show (m'.vdevs.set i d').length ≤ _
    rw [List.length_set, h.vdevs]
    exact hm.count
  · have hd1 : (m'.vdevs.set i d')[j]? = some d1 := hd1
    rw [h.vdevs, List.getElem?_set] at hd1
    split_ifs at hd1 with hij hlt
    · obtain rfl := Option.some.inj hd1
      exact h.place.trans hij
    · exact hm.place j d1 hd1

theorem AtWork.lineLevel (h : AtWork m i d' m') {j : Nat} (hm : LineLevel m j) :
    LineLevel { m' with vdevs := m'.vdevs.set i d' } j := by
  intro d1 hd1
  have hd1 : (m'.vdevs.set i d')[j]? = some d1 := hd1
  show lineRaised m' (j + 1) = true ↔ _
  rw [h.vdevs, List.getElem?_set] at hd1
  split_ifs at hd1 with hij hlt
  · obtain rfl := Option.some.inj hd1
    subst hij
    exact h.level hm
  · rw [h.others (j + 1) fun heq => hij (Nat.succ.inj heq).symm]
    exact hm d1 hd1

theorem wlp_plicRead_sameLines {offset : Word} {size : MemSize} :
    Wlp ((plicRead offset size).exec fuel) (fun _ m' => SameLines m m') m := by
  have hq : SameLines m m := ⟨rfl, fun _ => rfl⟩
  simp only [plicRead, plicReadPending, readGirqpend, readGirqsrvd, wlp_run_ite, wlp_run_bind, wlp_read, wlp_run_pure]
  refine ⟨fun _ => ⟨fun _ => hq, fun _ => ⟨fun _ => hq, fun _ => ⟨fun _ => hq, fun _ =>
    ⟨fun _ => wlp_plicReadClaimComplete (fun _ => ?_) fun _ => hq, fun _ => hq⟩⟩⟩⟩, fun _ => hq⟩
  unfold RunState.claimed
  split_ifs <;> exact ⟨rfl, fun _ => rfl⟩

theorem wlp_plicWrite_sameLines {offset val : Word} {size : MemSize} :
    Wlp ((plicWrite offset val size).exec fuel) (fun _ m' => SameLines m m') m := by
  have hq : SameLines m m := ⟨rfl, fun _ => rfl⟩
  simp only [plicWrite, plicWriteClaimComplete, readGirqpend, readGirqsrvd, resetMip, setMip,
    wlp_run_ite, wlp_run_bind, wlp_read, wlp_write, wlp_run_pure]
  exact ⟨fun _ => ⟨fun _ => ⟨fun _ => ⟨fun _ => ⟨rfl, fun _ => rfl⟩, fun _ => ⟨rfl, fun _ => rfl⟩⟩,
    fun _ => hq⟩, fun _ => hq⟩, fun _ => hq⟩

theorem LineRun.inv (hrun : LineRun fuel m m') (hplaced : Placed m) (hlevel : LineLevel m i) :
    Placed m' ∧ LineLevel m' i := by
  induction hrun with
  | start => exact ⟨hplaced, hlevel⟩
  | @device m1 m2 _ j _ e _ he ih =>
    obtain ⟨hp, hl⟩ := ih
    have hwork : Wlp (onDevice j (e.prog fuel)) (fun _ m2 => Placed m2 ∧ LineLevel m2 i) m1 := by
      refine wlp_onDevice fun d hd => ?_
      refine (atWork_deviceEvent (hp.lt hd) e (.start hd (hp.place j d hd))).mono fun _ d' m' hm' => ?_
      exact ⟨hm'.placed hp, hm'.lineLevel hl⟩
    exact hwork _ _ he
  | plicRead _ offset size he ih =>
    have hsame := wlp_plicRead_sameLines _ _ he
    exact ⟨hsame.placed ih.1, hsame.level ih.2⟩
  | plicWrite _ offset val size he ih =>
    have hsame := wlp_plicWrite_sameLines _ _ he
    exact ⟨hsame.placed ih.1, hsame.level ih.2⟩
  | rest _ hvdevs hpend ih =>
    have hsame : SameLines _ _ := ⟨hvdevs, fun k => by rw [lineRaised, hpend, lineRaised]⟩
    exact ⟨hsame.placed ih.1, hsame.level ih.2⟩

/-- A device that has not been used yet, and its line. -/
structure FreshDevice (m : RunState) (i : Nat) : Prop where
  intStatus : ∀ d, m.vdevs[i]? = some d → d.intStatus = 0
  line : lineRaised m (i + 1) = false

theorem FreshDevice.level (h : FreshDevice m i) : LineLevel m i := by
  intro d hd
  rw [h.line, h.intStatus d hd]
  exact iff_of_false Bool.false_ne_true fun hne => hne rfl

/-- From a fresh device on, through any run, the line of the device is raised if and only if its interrupt
status is not zero. -/
theorem lineRaised_iff_intStatus (fuel : Nat) (m m' : RunState) (i : Nat) (d : VirtioDevice)
    (hplaced : Placed m) (hfresh : FreshDevice m i) (hrun : LineRun fuel m m') (hd : m'.vdevs[i]? = some d) :
    lineRaised m' d.getIrqId = true ↔ d.intStatus ≠ 0 := by
  obtain ⟨hplaced', hlevel⟩ := hrun.inv hplaced hfresh.level
  rw [getIrqId, hplaced'.place i d hd]
  exact hlevel d hd

/-- A machine with a device that does nothing by itself. -/
def quietMachine : RunState := { RunState.small [] with vdevs := [VirtioDevice.make .quiet 0 3 0 0] }

/-- The driver says that it is ready, and the device announces a new configuration. -/
theorem lineRaised_configChange : ∃ m' d, LineRun 0 quietMachine m' ∧ m'.vdevs[0]? = some d ∧ d.intStatus ≠ 0 ∧
      lineRaised m' d.getIrqId = true := by
  have hplaced : Placed quietMachine := by
    refine ⟨by decide, fun i d hd => ?_⟩
    obtain ⟨hi, rfl⟩ := List.getElem?_eq_some_iff.mp hd
    obtain rfl : i = 0 := Nat.lt_one_iff.mp hi
    rfl
  have hfresh : FreshDevice quietMachine 0 := by
    refine ⟨fun d hd => ?_, by decide⟩
    obtain rfl := Option.some.inj hd
    rfl
  have hrun : ∃ m' d, LineRun 0 quietMachine m' ∧ m'.vdevs[0]? = some d ∧ d.intStatus ≠ 0 :=
    ⟨_, _, .device (.device .start 0 (.mmioWrite ⟨virtioMmioStatus, 4, .u32⟩) rfl) 0 .notifyConfigChange rfl, rfl,
      by decide⟩
  obtain ⟨m', d, hrun, hd, hint⟩ := hrun
  exact ⟨m', d, hrun, hd, hint, (lineRaised_iff_intStatus 0 _ m' 0 d hplaced hfresh hrun hd).mpr hint⟩

end MachineEmulator.Interpret
