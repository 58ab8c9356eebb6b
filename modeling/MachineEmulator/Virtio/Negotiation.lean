import MachineEmulator.Interpret.StateAccess
import MachineEmulator.Virtio.Invariant

/-!
# The initialization of a VirtIO device

The status register is a small protocol: the driver announces the features it accepts, and then that it is
ready. A device follows any sequence of writes, whatever its bus answers (`Trace`).

* `Written` : what a write does to the part of the device that the protocol is about;
* `Dormant` : the device is not operational and a write did not set it to work;
* `operational_iff_inOrder` : the device is operational only after its features were accepted, if and only if no
  driver announces that it is ready without them.
-/

namespace MachineEmulator.Virtio.VirtioDevice

open BitVec Prog List

open Interpret (ExecuteStatus)

variable {ε σ α : Type} {h : Handler BusSig ε σ} {fuel : Nat} {d d' d0 : VirtioDevice} {w : MmioWrite}

/-! ## Writes to the status register -/

def MmioWrite.IsReset (w : MmioWrite) : Prop := w.IsStatus ∧ w.val = 0

/-- The bits of the status that a value turns on. -/
def enablingStatus (d : VirtioDevice) (val : BitVec 32) : BitVec 32 := (d.deviceStatus ^^^ val) &&& val

def FeaturesOk (d : VirtioDevice) : Prop := d.deviceStatus &&& virtioStatusFeaturesOk ≠ 0

/-- The driver asks for the features of the device, all of them. -/
structure AcceptsFeatures (d : VirtioDevice) (w : MmioWrite) : Prop where
  status : w.IsStatus
  enables : d.enablingStatus w.val &&& virtioStatusFeaturesOk ≠ 0
  features : d.driverFeatures = d.deviceFeatures

/-- The driver says that it is ready, and the device believes it. -/
structure EnablesDriver (d : VirtioDevice) (w : MmioWrite) : Prop where
  status : w.IsStatus
  features : d.enablingStatus w.val &&& virtioStatusFeaturesOk ≠ 0 → d.driverFeatures = d.deviceFeatures
  enables : d.enablingStatus w.val &&& virtioStatusDriverOk ≠ 0
  working : d.deviceStatus &&& virtioStatusDeviceNeedsReset = 0

theorem EnablesDriver.not_reset (he : d.EnablesDriver w) : ¬ w.IsReset := by
  rintro ⟨-, hval⟩
  refine he.enables ?_
  show ((d.deviceStatus ^^^ w.val) &&& w.val) &&& _ = 0
  rw [hval]
  simp

/-- A device as it is created, as far as the driver has a say in it. -/
structure Initial (d : VirtioDevice) : Prop where
  deviceStatus : d.deviceStatus = 0
  driverOk : d.driverOk = false
  driverFeatures : d.driverFeatures = 0
  deviceFeaturesSel : d.deviceFeaturesSel = 0
  driverFeaturesSel : d.driverFeaturesSel = 0
  queueSel : d.queueSel = 0
  shmSel : d.shmSel = 0
  intStatus : d.intStatus = 0
  queue : ∀ queueIdx, d.queue queueIdx = Virtq.zero

theorem initial_make (cls : VirtioClass) (virtioIdx : Nat) (deviceId : BitVec 32) (deviceFeatures : Word)
    (configSpaceSize : BitVec 32) : (make cls virtioIdx deviceId deviceFeatures configSpaceSize).Initial :=
  ⟨rfl, rfl, rfl, rfl, rfl, rfl, rfl, rfl, fun _ => rfl⟩

/-- What a write does to the part of the device that the protocol is about. -/
structure Written (d : VirtioDevice) (w : MmioWrite) (d' : VirtioDevice) : Prop where
  driverOk : d'.driverOk = true ↔ ¬ w.IsReset ∧ (d.driverOk = true ∨ d.EnablesDriver w)
  featuresOk : d'.FeaturesOk → ¬ w.IsReset ∧ (d.FeaturesOk ∨ d.AcceptsFeatures w)
  reset : w.IsReset → d'.Initial

/-! ## A device at work -/

/-- The device has not changed as far as the protocol is concerned. -/
structure SameState (d0 d : VirtioDevice) : Prop where
  driverOk : d.driverOk = d0.driverOk
  featuresOk : d.FeaturesOk ↔ d0.FeaturesOk

theorem SameState.refl : SameState d d := ⟨rfl, Iff.rfl⟩

theorem or_needsReset_and_featuresOk (v : BitVec 32) :
    (v ||| virtioStatusDeviceNeedsReset) &&& virtioStatusFeaturesOk = v &&& virtioStatusFeaturesOk := by
  rw [BitVec.and_comm, and_or_distrib_left, BitVec.and_comm,
    show virtioStatusFeaturesOk &&& virtioStatusDeviceNeedsReset = 0#32 by decide, or_zero]

theorem keptByDevice_sameState : KeptByDevice h fun d _ => SameState d0 d where
  bus _ _ _ _ hd _ _ _ := hd
  change _ hc hd := by
    cases hc with
    | consumed | config | generation => exact ⟨hd.driverOk, hd.featuresOk⟩
    | needsReset =>
      refine ⟨hd.driverOk, Iff.trans ?_ hd.featuresOk⟩
      exact not_congr (by rw [or_needsReset_and_featuresOk])
  setIrq {add} _ d s hd := by
    have hd' : SameState d0 { d with intStatus := d.intStatus ||| add } := ⟨hd.driverOk, hd.featuresOk⟩
    simp only [setIrq, localWlp_bind, localWlp_modify, localWlp_get, localWlp_ite, localWlp_liftM,
      localWlp_pure]
    exact ⟨fun _ _ _ _ => hd', fun _ => hd'⟩

theorem localWlp_resetIrq {rem : BitVec 32} {s : σ} :
    LocalWlp h (resetIrq rem) (fun _ d' _ => d' = { d with intStatus := d.intStatus &&& ~~~rem }) d s := by
  simp only [resetIrq, localWlp_bind, localWlp_modify, localWlp_get, localWlp_ite, localWlp_liftM]
  exact ⟨fun _ => wlp_true, fun _ => wlp_true⟩

theorem localWlp_interruptStatus {post : VirtioDevice → Prop} {s : σ} (hd : post d) :
    LocalWlp h interruptStatus (fun _ d' _ => post d') d s := by
  simp only [interruptStatus, localWlp_bind, localWlp_get, localWlp_pure]
  exact hd

theorem localWlp_reset {s : σ} : LocalWlp h reset (fun _ d' _ => d'.Initial) d s := by
  simp only [reset, localWlp_bind, localWlp_modify]
  refine localWlp_resetIrq.mono fun _ d' _ hd' => ?_
  rw [hd']
  exact ⟨rfl, rfl, rfl, rfl, rfl, rfl, rfl, zero_and, fun _ => rfl⟩

theorem SameState.written (hd : SameState d d') (hw : ¬ w.IsStatus) : Written d w d' where
  driverOk := by
    rw [hd.driverOk]
    refine ⟨fun hok => ⟨fun hr => hw hr.1, .inl hok⟩, fun hok => hok.2.resolve_right fun he => hw he.status⟩
  featuresOk hok := ⟨fun hr => hw hr.1, .inl (hd.featuresOk.mp hok)⟩
  reset hr := absurd hr.1 hw

theorem Initial.written (hd : d'.Initial) (hw : w.IsReset) : Written d w d' where
  driverOk := by
    rw [hd.driverOk]
    exact iff_of_false Bool.false_ne_true fun hok => hok.1 hw
  featuresOk hok := by
    refine absurd ?_ hok
    rw [hd.deviceStatus]
    exact zero_and
  reset _ := hd

theorem enablingStatus_and_featuresOk {val : BitVec 32} : d.enablingStatus val &&& virtioStatusFeaturesOk ≠ 0 ↔
      val &&& virtioStatusFeaturesOk ≠ 0 ∧ ¬ d.FeaturesOk := by
  refine (Bits.xor_and_and_twoPow_ne_zero (k := 3) d.deviceStatus val).trans (and_congr_right fun _ => ?_)
  exact not_not.symm

/-- The status was set, and the device may have gone to work. -/
theorem SameState.written_status {driverOk : Bool} (hw : w.IsStatus) (hval : w.val ≠ 0)
    (hfeatures : d.enablingStatus w.val &&& virtioStatusFeaturesOk ≠ 0 → d.driverFeatures = d.deviceFeatures)
    (hok : driverOk = true ↔ d.driverOk = true ∨ d.EnablesDriver w)
    (hd : SameState { d with deviceStatus := w.val, driverOk } d') : Written d w d' where
  driverOk := by
    rw [hd.driverOk, hok]
    exact ⟨fun h => ⟨fun hr => hval hr.2, h⟩, And.right⟩
  featuresOk h := by
    refine ⟨fun hr => hval hr.2, ?_⟩
    by_cases hold : d.FeaturesOk
    · exact .inl hold
    · have henables := enablingStatus_and_featuresOk.mpr ⟨hd.featuresOk.mp h, hold⟩
      exact .inr ⟨hw, henables, hfeatures henables⟩
  reset hr := absurd hr.2 hval

theorem written_writeStatus {s : σ} (hw : w.IsStatus) (hval : w.val ≠ 0) :
    LocalWlp h (writeStatus fuel w.val) (fun _ d' _ => Written d w d') d s := by
  have hno : ¬ w.IsReset := fun hr => hval hr.2
  simp only [writeStatus, localWlp_bind, localWlp_get, localWlp_ite, localWlp_set, localWlp_modify,
    localWlp_pure]
  refine ⟨fun hrefused => ?_, fun haccepted => ?_⟩
  · -- the features are not those of the device
    refine ⟨⟨fun hok => ⟨hno, .inl hok⟩, fun hok => hok.2.resolve_right fun he => ?_⟩,
      fun hok => ⟨hno, .inl hok⟩, fun hr => absurd hr hno⟩
    exact hrefused.2 (he.features hrefused.1)
  have hfeatures : d.enablingStatus w.val &&& virtioStatusFeaturesOk ≠ 0 → d.driverFeatures = d.deviceFeatures :=
    fun he => not_not.mp fun hne => haccepted ⟨he, hne⟩
  have hwritten := fun {b : Bool} (hok : b = true ↔ d.driverOk = true ∨ d.EnablesDriver w) d' s
      (hd : SameState { d with deviceStatus := w.val, driverOk := b } d') =>
    (localWlp_interruptStatus (hd.written_status hw hval hfeatures hok) :
      LocalWlp h interruptStatus (fun _ d' _ => Written d w d') d' s)
  refine ⟨fun henables => ⟨fun hbroken => ?_, fun hworking => ?_⟩, fun hnot => ?_⟩
  · refine (keptByDevice_sameState.setIrq (by decide) _ _ .refl).mono fun _ d' s' hd => hwritten ?_ d' s' hd
    exact ⟨.inl, fun hok => hok.resolve_right fun he => hbroken he.working⟩
  · refine (keptByDevice_sameState.serve _ _ _ .refl).mono fun _ d' s' hd => hwritten ?_ d' s' hd
    exact iff_of_true rfl (.inr ⟨hw, hfeatures, henables, not_not.mp hworking⟩)
  · refine hwritten ?_ _ _ .refl
    exact ⟨.inl, fun hok => hok.resolve_right fun he => hnot he.enables⟩

theorem written_prog {s : σ} : LocalWlp h (w.prog fuel) (fun _ d' _ => Written d w d') d s := by
  have hcall : MmioCall fuel d w (w.prog fuel d) := mmioCall_prog
  unfold LocalWlp
  generalize w.prog fuel d = p at hcall
  cases hcall with
  | refused hw => exact wlp_pure.mpr (SameState.refl.written hw)
  | setup hw hset =>
    refine wlp_pure.mpr (SameState.written ?_ hw)
    cases hset with
    | config | select | driverFeatures | queue => exact ⟨rfl, Iff.rfl⟩
  | idle hw => exact localWlp_interruptStatus (SameState.refl.written hw)
  | notify queueIdx hw =>
    exact localWlp_bind.mpr ((keptByDevice_sameState.onDeviceQueueNotify _ _ .refl).mono fun _ _ _ hd =>
      localWlp_interruptStatus (hd.written hw))
  | acknowledge hw =>
    refine localWlp_bind.mpr (localWlp_resetIrq.mono fun _ _ _ hd => localWlp_interruptStatus ?_)
    rw [hd]
    exact SameState.written ⟨rfl, Iff.rfl⟩ hw
  | reset hw hval =>
    exact localWlp_bind.mpr (localWlp_reset.mono fun _ _ _ hd =>
      localWlp_interruptStatus (hd.written ⟨hw, hval⟩))
  | status hw hval => exact written_writeStatus hw hval

/-! ## Dormant devices -/

/-- The operations on the interrupt line. -/
def IsIrq : BusOp → Prop
  | .setPendingIrq _ | .resetPendingIrq _ => True
  | _ => False

theorem asks_setIrq {add : BitVec 32} : (setIrq add d).Asks IsIrq := by
  show Asks IsIrq ((if _ then _ else _ : DProg Unit) _)
  split
  · exact Asks.bind (.perform trivial) fun _ => .pure _
  · exact .pure _

theorem asks_resetIrq {rem : BitVec 32} : (resetIrq rem d).Asks IsIrq := by
  show Asks IsIrq ((if _ then _ else _ : DProg Unit) _)
  split
  · exact Asks.bind (.perform trivial) fun _ => .pure _
  · exact Asks.bind (.perform trivial) fun _ => .pure _

theorem asks_interruptStatus : (interruptStatus d).Asks IsIrq := .pure _

/-- A device that is not operational and is not made so, or is reset, works on nothing but its interrupt
line. -/
theorem asks_prog_of_dormant (hok : ¬ w.IsReset → d.driverOk = false) (hno : ¬ d.EnablesDriver w) :
    (w.prog fuel d).Asks IsIrq := by
  have hcall : MmioCall fuel d w (w.prog fuel d) := mmioCall_prog
  generalize w.prog fuel d = p at hcall
  cases hcall with
  | refused => exact .pure _
  | setup => exact .pure _
  | idle => exact .pure _
  | notify queueIdx hw =>
    have hidle : onDeviceQueueNotify fuel queueIdx d = pure ((), d) := by
      show (if d.driverOk && (d.queue queueIdx).ready then _ else _ : DProg Unit) d = _
      rw [hok fun hr => hw hr.1]
      rfl
    refine Asks.bind ?_ fun _ => asks_interruptStatus
    rw [hidle]
    exact .pure _
  | acknowledge => exact Asks.bind asks_resetIrq fun _ => asks_interruptStatus
  | reset => exact Asks.bind asks_resetIrq fun _ => asks_interruptStatus
  | status hw hval =>
    show Asks IsIrq ((if _ then _ else _ : DProg ExecuteStatus) d)
    split
    · exact .pure _
    · rename_i haccepted
      show Asks IsIrq ((if _ then (if _ then _ else _) else _ : DProg ExecuteStatus) _)
      split
      · rename_i henables
        split
        · exact Asks.bind asks_setIrq fun _ => asks_interruptStatus
        · rename_i hworking
          refine absurd ⟨hw, fun he => ?_, henables, not_not.mp hworking⟩ hno
          exact not_not.mp fun hne => haccepted ⟨he, hne⟩
      · exact asks_interruptStatus

/-! ## Traces -/

/-- A write and the devices around it, with whether features had been accepted since the last reset. -/
structure Visit where
  before : VirtioDevice
  accepted : Prop
  write : MmioWrite
  after : VirtioDevice

/-- Features have been accepted since the last reset. -/
def Visit.acceptedAfter (v : Visit) : Prop :=
  ¬ v.write.IsReset ∧ (v.accepted ∨ v.before.AcceptsFeatures v.write)

/-- The writes to a device, one after the other. Between them the kind of the device may be at work, and the
bus may be in any state. -/
inductive Trace (h : Handler BusSig ε σ) (fuel : Nat) : VirtioDevice → Prop → List Visit → Prop
  | nil (d : VirtioDevice) (accepted : Prop) : Trace h fuel d accepted []
  | write {d d' : VirtioDevice} {accepted : Prop} {w : MmioWrite} {vs : List Visit} {s s' : σ}
    {status : ExecuteStatus} (hstep : (w.prog fuel d).run h s = .ok (status, d') s')
    (hrest : Trace h fuel d' (Visit.acceptedAfter ⟨d, accepted, w, d'⟩) vs) :
    Trace h fuel d accepted (⟨d, accepted, w, d'⟩ :: vs)
  | work {d d' : VirtioDevice} {accepted : Prop} {vs : List Visit} {s s' : σ} {α : Type}
    {p : Prog ServiceSig α} {a : α} (hstep : (serve fuel p d).run h s = .ok (a, d') s')
    (hrest : Trace h fuel d' accepted vs) : Trace h fuel d accepted vs

/-- The device is not operational, and the write set it to no work. -/
structure Visit.Dormant (fuel : Nat) (v : Visit) : Prop where
  driverOk : v.after.driverOk = false
  idle : (v.write.prog fuel v.before).Asks IsIrq

/-- The driver is ready only if the features are agreed on. -/
def Visit.InOrder (v : Visit) : Prop :=
  v.before.EnablesDriver v.write → v.accepted ∨ v.write.val &&& virtioStatusFeaturesOk ≠ 0

structure Agreed (d : VirtioDevice) (accepted : Prop) : Prop where
  featuresOk : d.FeaturesOk → accepted
  driverOk : d.driverOk = true → accepted

theorem Agreed.dormant_iff {v : Visit} (hv : Agreed v.before v.accepted) (hw : Written v.before v.write v.after) :
    v.acceptedAfter ∨ v.Dormant fuel ↔ v.InOrder := by
  constructor
  · intro honly henables
    rcases honly with haccepted | hdormant
    · exact haccepted.2.imp_right fun ha => (enablingStatus_and_featuresOk.mp ha.enables).1
    · have hok := hw.driverOk.mpr ⟨henables.not_reset, .inr henables⟩
      rw [hdormant.driverOk] at hok
      exact absurd hok Bool.false_ne_true
  · intro horder
    refine or_iff_not_imp_left.mpr fun hnot => ?_
    have hold : ¬ v.write.IsReset → v.before.driverOk = false := fun hno =>
      Bool.eq_false_iff.mpr fun hok => hnot ⟨hno, .inl (hv.driverOk hok)⟩
    have hno : ¬ v.before.EnablesDriver v.write := by
      intro he
      refine hnot ⟨he.not_reset, (horder he).imp_right fun hval => ?_⟩
      have henables : v.before.enablingStatus v.write.val &&& virtioStatusFeaturesOk ≠ 0 :=
        enablingStatus_and_featuresOk.mpr ⟨hval, fun hok => hnot ⟨he.not_reset, .inl (hv.featuresOk hok)⟩⟩
      exact ⟨he.status, henables, he.features henables⟩
    refine ⟨Bool.eq_false_iff.mpr fun hok => ?_, asks_prog_of_dormant hold hno⟩
    obtain ⟨hreset, hok⟩ := hw.driverOk.mp hok
    exact hnot ⟨hreset, .inl (hv.driverOk (hok.resolve_right hno))⟩

theorem Trace.dormant_iff {accepted : Prop} {vs : List Visit} (ht : Trace h fuel d accepted vs)
    (hd : Agreed d accepted) : (∀ v ∈ vs, v.acceptedAfter ∨ v.Dormant fuel) ↔ ∀ v ∈ vs, v.InOrder := by
  induction ht with
  | nil => simp
  | @write d d' accepted w vs s s' status hstep _ ih =>
    have hw : Written d w d' := written_prog _ _ hstep
    rw [forall_mem_cons, forall_mem_cons, hd.dormant_iff hw]
    refine and_congr_right fun horder => ih ⟨fun hok => ?_, fun hok => ?_⟩
    · obtain ⟨hno, hok⟩ := hw.featuresOk hok
      exact ⟨hno, hok.imp_left hd.featuresOk⟩
    · -- the device is operational, so the write is not one that left it dormant
      have honly : _ ∨ Visit.Dormant fuel _ := (hd.dormant_iff hw).mpr horder
      refine honly.resolve_right fun hdormant => ?_
      rw [hdormant.driverOk] at hok
      exact Bool.false_ne_true hok
  | @work d d' accepted vs s s' α p a hstep _ ih =>
    have hsame : SameState d d' := keptByDevice_sameState.serve p _ _ .refl _ _ hstep
    refine ih ⟨fun hok => hd.featuresOk (hsame.featuresOk.mp hok), fun hok => hd.driverOk ?_⟩
    rw [← hsame.driverOk]
    exact hok

theorem Trace.reset {accepted : Prop} {vs : List Visit} (ht : Trace h fuel d accepted vs) :
    ∀ v ∈ vs, v.write.IsReset → v.after.Initial := by
  induction ht with
  | nil => simp
  | @write d d' accepted w vs s s' status hstep _ ih =>
    have hw : Written d w d' := written_prog _ _ hstep
    exact forall_mem_cons.mpr ⟨hw.reset, ih⟩
  | work _ _ ih => exact ih

/-- From a device that was created or reset, through any sequence of writes: the device is operational only
after its features were accepted, and is set to work only then, if and only if every driver that announces
that it is ready has had them accepted or asks for them. And a reset makes the device anew. -/
theorem operational_iff_inOrder (h : Handler BusSig ε σ) (fuel : Nat) (d : VirtioDevice) (vs : List Visit)
    (hd : d.Initial) (ht : Trace h fuel d False vs) :
    ((∀ v ∈ vs, v.acceptedAfter ∨ v.Dormant fuel) ↔ ∀ v ∈ vs, v.InOrder) ∧
      ∀ v ∈ vs, v.write.IsReset → v.after.Initial := by
  refine ⟨ht.dormant_iff ⟨fun hok => ?_, fun hok => ?_⟩, ht.reset⟩
  · refine hok ?_
    rw [hd.deviceStatus]
    exact zero_and
  · rw [hd.driverOk] at hok
    exact Bool.false_ne_true hok

/-- A device that offers nothing but the version of the specification. -/
def quietDevice : VirtioDevice := make .quiet 0 3 0 0

/-- A driver that accepts the features of the device, and then says that it is ready. -/
theorem operational_negotiated :
    ∃ vs, Trace Interpret.busAccess 0 quietDevice False vs ∧ (∀ v ∈ vs, v.acceptedAfter ∨ v.Dormant 0) ∧
      ∃ v ∈ vs, v.after.driverOk = true := by
  have ht : ∃ vs, Trace Interpret.busAccess 0 quietDevice False vs ∧ (∀ v ∈ vs, v.InOrder) ∧
      ∃ v ∈ vs, v.after.driverOk = true := by
    refine ⟨_, .write (w := ⟨0x024, 1, .u32⟩) (s := .small []) rfl
      (.write (w := ⟨0x020, 1, .u32⟩) (s := .small []) rfl
      (.write (w := ⟨virtioMmioStatus, 8, .u32⟩) (s := .small []) rfl
      (.write (w := ⟨virtioMmioStatus, 12, .u32⟩) (s := .small []) rfl (.nil _ _)))), ?_, ?_⟩
    · refine forall_mem_cons.mpr ⟨fun he => absurd he.status (by decide), ?_⟩
      refine forall_mem_cons.mpr ⟨fun he => absurd he.status (by decide), ?_⟩
      refine forall_mem_cons.mpr ⟨fun he => absurd he.enables (by decide), ?_⟩
      exact forall_mem_singleton.mpr fun _ => .inr (by decide)
    · exact ⟨_, mem_of_getLast? rfl, by decide⟩
  obtain ⟨vs, ht, horder, hok⟩ := ht
  exact ⟨vs, ht, (operational_iff_inOrder _ 0 _ vs (initial_make ..) ht).1.mpr horder, hok⟩

/-- A driver says that it is ready, and nothing else. -/
theorem operational_without_features : ∃ vs, Trace Interpret.busAccess 0 quietDevice False vs ∧
      ∃ v ∈ vs, v.after.driverOk = true ∧ ¬ v.acceptedAfter := by
  refine ⟨_, .write (w := ⟨virtioMmioStatus, 4, .u32⟩) (s := .small []) rfl (.nil _ _), _, .head _, by decide, ?_⟩
  rintro ⟨-, hacc | hacc⟩
  · exact hacc
  · exact absurd hacc.features (by decide)

end MachineEmulator.Virtio.VirtioDevice
