import MachineEmulator.Lib.Wlp
import MachineEmulator.Virtio.Queues

/-!
# Invariants of a device at work

* `DeviceChange` : the changes that a device makes to its own state while it works on its queues;
* `KeptByDevice` : a property of the device and of the machine around it that these changes, the accesses
  to guest memory and the requests for interrupts keep. Every piece of a device's program then keeps it,
  whatever the kind of the device does;
* `MmioCall` : what a write to a control register comes down to;
* `KeptByDriver` : a property that the writes of the driver keep as well.
-/

namespace MachineEmulator.Virtio

open LocalKeeps Virtq

open Interpret (ExecuteStatus MemSize)

variable {ε σ α : Type} {h : Handler BusSig ε σ} {fuel : Nat}

/-! ## Changes of a device -/

/-- The queue after one more chain was used. -/
def Virtq.consumed (vq : Virtq) : Virtq := { vq with lastUsedIdx := vq.lastUsedIdx + 1 }

theorem Virtq.wlp_consumeDesc {vq : Virtq} {descIdx : BitVec 16} {writtenLen : BitVec 32}
    {usedFlags : BitVec 16} {s : σ} : Wlp ((vq.consumeDesc descIdx writtenLen usedFlags).run h)
      (fun r _ => ∀ vq', r = some vq' → vq' = vq.consumed) s := by
  simp only [consumeDesc, wlp_run_bind, wlp_run_ite, wlp_run_pure]
  intro ok1 s1 _
  refine ⟨fun _ ok2 s2 _ => ⟨fun _ vq' hvq' => ?_, fun _ => by simp⟩, fun _ => by simp⟩
  exact (Option.some.inj hvq').symm

namespace VirtioDevice

/-- What a device changes of itself while it works, interrupts apart. -/
inductive DeviceChange (d : VirtioDevice) : VirtioDevice → Prop
  | consumed (queueIdx : Fin virtioQueueCount) :
    DeviceChange d (d.setQueue queueIdx (d.queue queueIdx).consumed)
  | config (config : Nat → Byte) : DeviceChange d { d with configSpace := config }
  | generation : DeviceChange d { d with configGeneration := d.configGeneration + 1 }
  | needsReset : DeviceChange d { d with deviceStatus := d.deviceStatus ||| virtioStatusDeviceNeedsReset }

/-- A property that each change of a device at work keeps. -/
structure KeptByDevice (h : Handler BusSig ε σ) (I : VirtioDevice → σ → Prop) : Prop where
  bus : ∀ o : BusOp, o.KeepsIrq → ∀ d s, I d s → Wlp (h o) (fun _ s' => I d s') s
  change : ∀ {d d'} s, DeviceChange d d' → I d s → I d' s
  setIrq : ∀ {add : BitVec 32}, add ≠ 0 → LocalKeeps h I (VirtioDevice.setIrq add)

namespace KeptByDevice

variable {I : VirtioDevice → σ → Prop}

/-- Programs that only work on guest memory and on the host. -/
theorem lift (hI : KeptByDevice h I) {p : BProg α} (hp : p.Asks BusOp.KeepsIrq) :
    LocalKeeps h I (StateT.lift p) :=
  .lift hI.bus hp

theorem notifyQueueUsed (hI : KeptByDevice h I) : LocalKeeps h I notifyQueueUsed :=
  get.bind fun _ => .ite (fun _ => hI.setIrq (by decide)) fun _ => .pure _

theorem notifyConfigChange (hI : KeptByDevice h I) : LocalKeeps h I notifyConfigChange := by
  refine bind ?_ fun _ => get.bind fun _ => ?_
  · exact .modify fun _ s => hI.change s .generation
  · exact .ite (fun _ => hI.setIrq (by decide)) fun _ => .pure _

theorem notifyDeviceNeedsReset (hI : KeptByDevice h I) : LocalKeeps h I notifyDeviceNeedsReset := by
  refine bind ?_ fun _ => hI.notifyConfigChange
  exact .modify fun _ s => hI.change s .needsReset

variable {queueIdx : Fin virtioQueueCount}

theorem prepareQueueWrite (hI : KeptByDevice h I) : LocalKeeps h I (prepareQueueWrite fuel queueIdx) := by
  refine get.bind fun d => .ite (fun _ => .pure _) fun _ => ?_
  refine (hI.lift asks_getAvailIdx).bind fun idx => ?_
  cases idx with
  | none => exact .pure _
  | some idx =>
    refine .ite (fun _ => .pure _) fun _ => ?_
    refine (hI.lift asks_getRingAvailElemDescIdx).bind fun descIdx => ?_
    cases descIdx with
    | none => exact .pure _
    | some descIdx =>
      refine (hI.lift asks_getDescRwAvailLenFrom).bind fun len => ?_
      exact .ite (fun _ => .pure _) fun _ => .pure _

theorem consumeQueue (hI : KeptByDevice h I) {descIdx : BitVec 16}
    {writtenLen : BitVec 32} {usedFlags : BitVec 16} :
    LocalKeeps h I (consumeQueue queueIdx descIdx writtenLen usedFlags) := by
  intro d s hd
  refine localWlp_bind.mpr (localWlp_get.mpr (localWlp_bind.mpr (localWlp_liftM.mpr ?_)))
  have hkept : Wlp (((d.queue queueIdx).consumeDesc descIdx writtenLen usedFlags).run h) (fun _ => I d) s :=
    Wlp.run_of_asks (fun o s ho hs => hI.bus o ho d s hs) asks_consumeDesc hd
  refine (hkept.and wlp_consumeDesc).mono fun vq s' hvq => ?_
  cases vq with
  | none => exact localWlp_pure.mpr hvq.1
  | some vq =>
    obtain rfl := hvq.2 vq rfl
    refine localWlp_bind.mpr (localWlp_modify.mpr (localWlp_pure.mpr ?_))
    exact hI.change s' (.consumed queueIdx) hvq.1

theorem service (hI : KeptByDevice h I) (o : ServiceOp) : LocalKeeps h I (VirtioDevice.service fuel o) := by
  cases o with
  | driverOk => exact get.bind fun _ => .pure _
  | readDescMem => exact get.bind fun _ => hI.lift asks_readDescMem
  | writeDescMem => exact get.bind fun _ => hI.lift asks_writeDescMem
  | prepareQueueWrite => exact hI.prepareQueueWrite
  | consumeQueue => exact hI.consumeQueue
  | notifyQueueUsed => exact hI.notifyQueueUsed
  | notifyConfigChange => exact hI.notifyConfigChange
  | notifyDeviceNeedsReset => exact hI.notifyDeviceNeedsReset
  | getConfig => exact get.bind fun _ => .pure _
  | setConfig config => exact .modify fun _ s => hI.change s (.config config)
  | host => exact hI.lift (.perform trivial)

/-- Whatever a kind of device is programmed to do, it does through the services. -/
theorem serve (hI : KeptByDevice h I) (p : Prog ServiceSig α) : LocalKeeps h I (VirtioDevice.serve fuel p) := by
  induction p with
  | ret a => exact .pure a
  | call o k ih => exact (hI.service o).bind ih

theorem processQueue (hI : KeptByDevice h I) {lastAvailIdx : BitVec 16}
    {n : Nat} : LocalKeeps h I (processQueue fuel queueIdx lastAvailIdx n) := by
  induction n with
  | zero => exact hI.lift asks_outOfFuel
  | succ n ih =>
    refine get.bind fun d => .ite (fun _ => .pure _) fun _ => ?_
    refine (hI.lift asks_getRingAvailElemDescIdx).bind fun descIdx => ?_
    cases descIdx with
    | none => exact hI.notifyDeviceNeedsReset
    | some descIdx =>
      refine (hI.lift asks_getDescRwAvailLenFrom).bind fun len => ?_
      refine .ite (fun _ => ?_) fun _ => hI.notifyDeviceNeedsReset
      exact (hI.serve _).bind fun more => .ite (fun _ => ih) fun _ => .pure _

theorem onDeviceQueueNotify (hI : KeptByDevice h I) : LocalKeeps h I (onDeviceQueueNotify fuel queueIdx) := by
  refine get.bind fun d => .ite (fun _ => ?_) fun _ => .pure _
  refine (hI.lift asks_getAvailIdx).bind fun idx => ?_
  cases idx with
  | none => exact hI.notifyDeviceNeedsReset
  | some idx => exact hI.processQueue

end KeptByDevice

/-! ## Writes to control registers -/

/-- A write of the driver to a register of the device. -/
structure MmioWrite where
  offset : Word
  val : BitVec 32
  size : MemSize

def MmioWrite.prog (w : MmioWrite) (fuel : Nat) : DProg ExecuteStatus := mmioWrite fuel w.offset w.val w.size

def virtioMmioStatus : Word := 0x070

/-- The write is to the status register. -/
def MmioWrite.IsStatus (w : MmioWrite) : Prop := w.offset = virtioMmioStatus ∧ w.size = .u32

instance (w : MmioWrite) : Decidable w.IsStatus := inferInstanceAs (Decidable (_ ∧ _))

/-- What the driver sets up of a queue. The index of the used ring belongs to the device, and the queue has
a size that passed the check. -/
structure QueueSetup (vq vq' : Virtq) : Prop where
  lastUsedIdx : vq'.lastUsedIdx = vq.lastUsedIdx
  num : vq'.num = vq.num ∨ vq'.num ≤ virtioQueueNumMax ∧ isPowerOf2 vq'.num

/-- What a write of the driver may change of a device without more ado. -/
inductive DeviceSetup (d : VirtioDevice) : VirtioDevice → Prop
  | config (config : Nat → Byte) : DeviceSetup d { d with configSpace := config }
  | select (deviceFeaturesSel driverFeaturesSel queueSel shmSel : BitVec 32) :
    DeviceSetup d { d with deviceFeaturesSel, driverFeaturesSel, queueSel, shmSel }
  | driverFeatures (driverFeatures : Word) : DeviceSetup d { d with driverFeatures }
  | queue (queueIdx : Fin virtioQueueCount) (vq : Virtq) (hvq : QueueSetup (d.queue queueIdx) vq) :
    DeviceSetup d (d.setQueue queueIdx vq)

/-- What a write to a register comes down to on the device `d`. -/
inductive MmioCall (fuel : Nat) (d : VirtioDevice) (w : MmioWrite) :
    BProg (ExecuteStatus × VirtioDevice) → Prop
  | refused : ¬ w.IsStatus → MmioCall fuel d w (pure (.failure, d))
  | setup {d' : VirtioDevice} : ¬ w.IsStatus → DeviceSetup d d' → MmioCall fuel d w (pure (.success, d'))
  /-- A queue that does not exist is notified. -/
  | idle : ¬ w.IsStatus → MmioCall fuel d w (interruptStatus d)
  | notify (queueIdx : Fin virtioQueueCount) : ¬ w.IsStatus →
    MmioCall fuel d w ((onDeviceQueueNotify fuel queueIdx >>= fun _ => interruptStatus) d)
  | acknowledge : ¬ w.IsStatus → MmioCall fuel d w ((resetIrq w.val >>= fun _ => interruptStatus) d)
  | reset : w.IsStatus → w.val = 0 → MmioCall fuel d w ((reset >>= fun _ => interruptStatus) d)
  | status : w.IsStatus → w.val ≠ 0 → MmioCall fuel d w (writeStatus fuel w.val d)

variable {d : VirtioDevice} {w : MmioWrite}

theorem DeviceSetup.refl : DeviceSetup d d := .config d.configSpace

theorem DeviceSetup.cls_eq {d' : VirtioDevice} (h : DeviceSetup d d') : d'.cls = d.cls := by
  cases h with
  | config | select | driverFeatures | queue => rfl

theorem mmioCall_modifySelected {f : Virtq → Virtq} (hw : ¬ w.IsStatus)
    (hf : ∀ vq, QueueSetup vq (f vq)) : MmioCall fuel d w (modifySelected f d) := by
  refine .setup hw ?_
  dsimp only
  split
  · exact .queue _ _ (hf _)
  · exact .refl

theorem mmioCall_mmioWriteConfig {offset : Word} (hw : ¬ w.IsStatus) :
    MmioCall fuel d w (mmioWriteConfig offset w.val w.size d) := by
  show MmioCall fuel d w ((if d.configAccess offset w.size then _ else _ : DProg ExecuteStatus) d)
  split
  · exact .setup hw (.config _)
  · exact .refused hw

theorem mmioCall_writeDriverFeatures (hw : ¬ w.IsStatus) : MmioCall fuel d w (writeDriverFeatures w.val d) := by
  refine .setup hw ?_
  dsimp only
  split_ifs
  · exact .driverFeatures _
  · exact .driverFeatures _
  · exact .refl

theorem mmioCall_prog : MmioCall fuel d w (w.prog fuel d) := by
  obtain ⟨offset, val, size⟩ := w
  have hno : offset.toNat ≠ 0x070 → ¬ MmioWrite.IsStatus ⟨offset, val, size⟩ :=
    fun hne hs => hne (congrArg BitVec.toNat hs.1)
  have hsame : ∀ vq vq' : Virtq, vq'.lastUsedIdx = vq.lastUsedIdx → vq'.num = vq.num → QueueSetup vq vq' :=
    fun _ _ hidx hnum => ⟨hidx, .inl hnum⟩
  -- the match is split where it is not applied to the device
  show MmioCall fuel d ⟨offset, val, size⟩ (mmioWrite fuel offset val size d)
  generalize hp : mmioWrite fuel offset val size = p
  unfold mmioWrite at hp
  split at hp
  · rename_i hoff
    subst hp
    refine mmioCall_mmioWriteConfig (hno fun heq => ?_)
    rw [BitVec.le_def, heq] at hoff
    exact absurd hoff (by decide)
  split at hp
  · rename_i hbad
    subst hp
    refine .refused fun hs => ?_
    rw [show offset = virtioMmioStatus from hs.1, show size = .u32 from hs.2] at hbad
    exact absurd hbad (by decide)
  rename_i hgood
  split at hp <;> subst hp
  case h_9 heq =>
    have hs : MmioWrite.IsStatus ⟨offset, val, size⟩ :=
      ⟨BitVec.eq_of_toNat_eq heq, not_not.mp (not_or.mp hgood).2⟩
    split
    · rename_i hval
      exact .reset hs hval
    · rename_i hval
      exact .status hs hval
  case h_17 hx _ _ _ _ _ _ _ => exact .refused (hno hx)
  all_goals
    rename_i heq
    have hw := hno (by rw [heq]; decide)
  case h_2 => exact mmioCall_writeDriverFeatures hw
  case h_5 =>
    split
    · rename_i hval
      exact mmioCall_modifySelected hw fun _ => ⟨rfl, .inr hval⟩
    · exact .setup hw .refl
  case h_7 =>
    split
    · exact .notify _ hw
    · exact .idle hw
  case h_8 => exact .acknowledge hw
  all_goals
    first
    | exact mmioCall_modifySelected hw fun vq => hsame vq _ rfl rfl
    | exact .setup hw (.select _ _ _ _)

/-! ## Invariants of a driver and its device -/

/-- A property that the writes of a driver keep as well. -/
structure KeptByDriver (h : Handler BusSig ε σ) (I : VirtioDevice → σ → Prop) : Prop extends KeptByDevice h I where
  setup : ∀ {d d'} s, DeviceSetup d d' → I d s → I d' s
  status : ∀ {d} s deviceStatus driverOk, I d s → I { d with deviceStatus, driverOk } s
  resetIrq : ∀ rem, LocalKeeps h I (VirtioDevice.resetIrq rem)
  reset : LocalKeeps h I VirtioDevice.reset

namespace KeptByDriver

variable {I : VirtioDevice → σ → Prop}

theorem interruptStatus : LocalKeeps h I interruptStatus := get.bind fun _ => .pure _

theorem writeStatus (hI : KeptByDriver h I) {val : BitVec 32} : LocalKeeps h I (writeStatus fuel val) := by
  intro d s hd
  have hset : I { d with deviceStatus := val } s := hI.status s val d.driverOk hd
  have hok : I { d with deviceStatus := val, driverOk := true } s := hI.status s val true hd
  simp only [VirtioDevice.writeStatus, localWlp_bind, localWlp_get, localWlp_ite, localWlp_set,
    localWlp_modify, localWlp_pure]
  refine ⟨fun _ => hd, fun _ => ⟨fun _ => ⟨fun _ => ?_, fun _ => ?_⟩, fun _ => interruptStatus _ _ hset⟩⟩
  · exact (hI.setIrq (by decide) _ _ hset).mono fun _ => interruptStatus
  · exact (hI.serve _ _ _ hok).mono fun _ => interruptStatus

theorem prog (hI : KeptByDriver h I) (w : MmioWrite) : LocalKeeps h I (w.prog fuel) := by
  intro d s hd
  have hcall : MmioCall fuel d w (w.prog fuel d) := mmioCall_prog
  unfold LocalWlp
  generalize w.prog fuel d = p at hcall
  cases hcall with
  | refused => exact wlp_pure.mpr hd
  | setup _ hset => exact wlp_pure.mpr (hI.setup s hset hd)
  | idle => exact interruptStatus _ _ hd
  | notify => exact (hI.onDeviceQueueNotify.bind fun _ => interruptStatus) _ _ hd
  | acknowledge => exact ((hI.resetIrq _).bind fun _ => interruptStatus) _ _ hd
  | reset => exact (hI.reset.bind fun _ => interruptStatus) _ _ hd
  | status => exact hI.writeStatus _ _ hd

end KeptByDriver

end VirtioDevice

end MachineEmulator.Virtio
