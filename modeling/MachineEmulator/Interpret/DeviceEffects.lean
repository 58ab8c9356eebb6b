import MachineEmulator.Interpret.Effects
import MachineEmulator.Virtio.Invariant

/-!
# What devices do to a machine

* `DeviceReadEffect` : a read of a device has no effect but on the claim register of the PLIC;
* `BusFrame`, `DeviceRun` : what a VirtIO device leaves alone while it works, and when it may have raised
  its interrupt line. Every piece of a device's program keeps to it, whatever the kind of the device does;
* `DeviceWriteEffect` : what a write to a device leaves alone, and what its status tells about the
  machine.
-/

namespace MachineEmulator.Interpret

open Prog Function List RunState Bits Reg

open Virtio (VirtioDevice Virtq BusOp BusSig BProg DProg ServiceSig)

variable {fuel : Nat} {m m' m'' : RunState}

/-! ## Reads of devices -/

/-- The sources of the PLIC that are pending and not served. -/
def plicPending (regs : Reg → Word) : BitVec 32 :=
  (regs .plicGirqpend).setWidth 32 &&& ~~~((regs .plicGirqsrvd).setWidth 32)

/-- The sources that are served after a claim. -/
def plicServedAfterClaim (regs : Reg → Word) : BitVec 32 :=
  (regs .plicGirqsrvd).setWidth 32 ||| (1 : BitVec 32) <<< (ilog2 (plicPending regs)).toNat

def RunState.claimed (m : RunState) : RunState :=
  let m1 := m.writeReg .plicGirqsrvd ((plicServedAfterClaim m.s.regs).setWidth 64)
  if (m.s.regs .plicGirqpend).setWidth 32 &&& ~~~plicServedAfterClaim m.s.regs = 0 then
    m1.writeReg .mip (m.s.regs .mip &&& ~~~mipExternalMask)
  else m1

/-- The outcomes of a read of a device. -/
inductive DeviceReadEffect (m : RunState) : Option Word → RunState → Prop
  | quiet (r : Option Word) : DeviceReadEffect m r m
  | claim (h : plicPending m.s.regs ≠ 0) :
    DeviceReadEffect m (some (ilog2 (plicPending m.s.regs))) m.claimed

variable {pma : PmaEntry} {offset mcycle v mcycleMax : Word} {size : MemSize}
  {post : Post (Option Word)} {i : Nat}

theorem wlp_virtioRead (h : ∀ r, post r m) :
    Wlp ((virtioRead pma offset size).exec fuel) post m := by
  refine (wlp_op (o := .virtioRead pma offset size)).mpr ?_
  refine wlp_bind.mpr (wlp_get.mpr ?_)
  intro r m' hr
  unfold onDevice at hr
  split at hr
  · cases hr
  · rename_i d hd
    cases hr
    obtain ⟨hi, rfl⟩ := List.getElem?_eq_some_iff.mp hd
    rw [set_getElem_self hi]
    exact h _

theorem wlp_plicReadClaimComplete
    (hclaim : plicPending m.s.regs ≠ 0 → post (some (ilog2 (plicPending m.s.regs))) m.claimed)
    (hnone : plicPending m.s.regs = 0 → post (some 0) m) :
    Wlp (plicReadClaimComplete.exec fuel) post m := by
  simp only [plicReadClaimComplete, readGirqpend, readGirqsrvd, wlp_run_bind, wlp_read,
    wlp_run_pure, wlp_run_ite, wlp_write, resetMip]
  refine ⟨fun hp => ?_, fun hnot => hnone (not_not.mp hnot)⟩
  have hc := hclaim hp
  unfold claimed at hc
  split at hc
  · rename_i hlast
    exact ⟨fun _ => hc, fun hmore => absurd hlast hmore⟩
  · rename_i hmore
    exact ⟨fun hlast => absurd hlast hmore, fun _ => hc⟩

theorem wlp_deviceRead (h : ∀ r m', DeviceReadEffect m r m' → post r m') :
    Wlp ((deviceRead pma mcycle offset size).exec fuel) post m := by
  have hq : ∀ r, post r m := fun r => h r m (.quiet r)
  unfold deviceRead
  split
  · simp [clintRead, clintReadMsip, clintReadMtime, clintReadMtimecmp, hq]
  · simp only [plicRead, plicReadPending, readGirqpend, readGirqsrvd, wlp_run_ite, wlp_run_bind, wlp_read, wlp_run_pure]
    exact ⟨fun _ => ⟨fun _ => hq _, fun _ => ⟨fun _ => hq _, fun _ => ⟨fun _ => hq _, fun _ =>
      ⟨fun _ => wlp_plicReadClaimComplete (fun hp => h _ _ (.claim hp)) fun _ => hq _, fun _ => hq _⟩⟩⟩⟩, fun _ => hq _⟩
  · simp [htifRead, hq]
  · exact wlp_virtioRead hq
  · exact wlp_pure.mpr (hq _)

/-! ## The interrupt controller -/

/-- What a VirtIO device leaves alone while it works. -/
structure BusFrame (m m' : RunState) : Prop where
  regs : ∀ r, r ≠ .mip → r ≠ .plicGirqpend → m'.s.regs r = m.s.regs r
  tlb : m'.s.tlb = m.s.tlb
  board : m'.s.board = m.s.board
  softYield : m'.s.softYield = m.s.softYield
  vdevs : m'.vdevs = m.vdevs
  /-- Only external interrupts are requested or withdrawn. -/
  mip : m'.s.regs .mip &&& ~~~mipExternalMask = m.s.regs .mip &&& ~~~mipExternalMask

theorem BusFrame.refl : BusFrame m m := ⟨fun _ _ _ => rfl, rfl, rfl, rfl, rfl, rfl⟩

theorem BusFrame.trans (h : BusFrame m m') (h' : BusFrame m' m'') : BusFrame m m'' where
  regs r hmip hpend := (h'.regs r hmip hpend).trans (h.regs r hmip hpend)
  tlb := h'.tlb.trans h.tlb
  board := h'.board.trans h.board
  softYield := h'.softYield.trans h.softYield
  vdevs := h'.vdevs.trans h.vdevs
  mip := h'.mip.trans h.mip

theorem BusFrame.writeGirqpend (h : BusFrame m m') (v : Word) : BusFrame m (m'.writeReg .plicGirqpend v) :=
  h.trans ⟨fun _ _ hpend => update_of_ne hpend _ _, rfl, rfl, rfl, rfl, rfl⟩

theorem BusFrame.writeMip (h : BusFrame m m')
    (hv : v &&& ~~~mipExternalMask = m'.s.regs .mip &&& ~~~mipExternalMask) : BusFrame m (m'.writeReg .mip v) :=
  h.trans ⟨fun _ hmip _ => update_of_ne hmip _ _, rfl, rfl, rfl, rfl, hv⟩

/-- No interrupt is pending that was not pending before. -/
def MipWithin (m m' : RunState) : Prop := m'.s.regs .mip &&& m.s.regs .mip = m'.s.regs .mip

theorem MipWithin.of_eq (h : m'.s.regs .mip = m.s.regs .mip) : MipWithin m m' := by
  rw [MipWithin, h, BitVec.and_self]

theorem MipWithin.of_and_not {mask : Word} (h : m'.s.regs .mip = m.s.regs .mip &&& ~~~mask) :
    MipWithin m m' := by
  rw [MipWithin, h, BitVec.and_assoc, BitVec.and_comm (~~~mask), ← BitVec.and_assoc, BitVec.and_self]

theorem run_plicSetPendingIrq (fuel irqId : Nat) :
    (plicSetPendingIrq irqId).run baseAccess = (plicSetPendingIrq irqId).run (stateAccess fuel) := by
  simp only [plicSetPendingIrq, readGirqpend, readGirqsrvd, setMip, run_bind, run_ite,
    run_pure]
  rfl

theorem run_plicResetPendingIrq (fuel irqId : Nat) :
    (plicResetPendingIrq irqId).run baseAccess = (plicResetPendingIrq irqId).run (stateAccess fuel) := by
  simp only [plicResetPendingIrq, readGirqpend, readGirqsrvd, resetMip, run_bind, run_ite,
    run_pure]
  rfl

theorem wlp_setPendingIrq {irqId : Nat} {post : Post Unit}
    (h : ∀ m', BusFrame m m' → post () m') : Wlp ((Virtio.setPendingIrq irqId).run busAccess) post m := by
  refine (wlp_perform (S := BusSig) (o := .setPendingIrq irqId)).mpr ?_
  show Wlp ((plicSetPendingIrq irqId).run baseAccess) post m
  rw [run_plicSetPendingIrq 0]
  simp only [plicSetPendingIrq, readGirqpend, readGirqsrvd, setMip, wlp_run_bind, wlp_read,
    wlp_run_pure, wlp_run_ite, wlp_write]
  exact ⟨fun _ => h _ ((BusFrame.refl.writeGirqpend _).writeMip (or_and_not_self _ _)),
    fun _ => h _ (BusFrame.refl.writeGirqpend _)⟩

theorem wlp_resetPendingIrq {irqId : Nat} {post : Post Unit}
    (h : ∀ m', BusFrame m m' → MipWithin m m' → post () m') :
    Wlp ((Virtio.resetPendingIrq irqId).run busAccess) post m := by
  refine (wlp_perform (S := BusSig) (o := .resetPendingIrq irqId)).mpr ?_
  show Wlp ((plicResetPendingIrq irqId).run baseAccess) post m
  rw [run_plicResetPendingIrq 0]
  simp only [plicResetPendingIrq, readGirqpend, readGirqsrvd, resetMip, wlp_run_bind, wlp_read,
    wlp_run_pure, wlp_run_ite, wlp_write]
  refine ⟨fun _ => h _ ((BusFrame.refl.writeGirqpend _).writeMip ?_) (.of_and_not rfl),
    fun _ => h _ (BusFrame.refl.writeGirqpend _) (.of_eq rfl)⟩
  rw [BitVec.and_assoc, BitVec.and_self]

/-! ## A device at work -/

/-- A run of a device that was `d` on a machine that was `m`. Its interrupt line has not been raised, or
the device shows why. -/
structure DeviceRun (m : RunState) (d d' : VirtioDevice) (m' : RunState) : Prop extends BusFrame m m' where
  cls : d'.cls = d.cls
  irq : MipWithin m m' ∨ d'.intStatus ≠ 0

variable {d d1 d2 : VirtioDevice} {m1 m2 : RunState}

theorem DeviceRun.refl : DeviceRun m d d m := ⟨.refl, rfl, .inl (.of_eq rfl)⟩

theorem DeviceRun.of_regs (h : DeviceRun m d d1 m1) (hframe : BusFrame m1 m2)
    (hregs : m2.s.regs = m1.s.regs) : DeviceRun m d d1 m2 where
  toBusFrame := h.toBusFrame.trans hframe
  cls := h.cls
  irq := h.irq.imp_left fun hmip => by rwa [MipWithin, hregs]

/-- Changes of the device that keep its reasons to interrupt. -/
theorem DeviceRun.modify (h : DeviceRun m d d1 m1) (hcls : d2.cls = d1.cls)
    (hint : d1.intStatus ≠ 0 → d2.intStatus ≠ 0) : DeviceRun m d d2 m1 :=
  { h with cls := hcls.trans h.cls, irq := h.irq.imp_right hint }

theorem DeviceRun.raise (h : DeviceRun m d d1 m1) (hframe : BusFrame m1 m2)
    (hint : d1.intStatus ≠ 0) : DeviceRun m d d1 m2 :=
  { toBusFrame := h.toBusFrame.trans hframe, cls := h.cls, irq := .inr hint }

theorem doWriteMemory_frame {paddr : Word} {data : List Byte} (h : doWriteMemory m paddr data = some m') :
    BusFrame m m' ∧ m'.s.regs = m.s.regs := by
  unfold doWriteMemory at h
  split at h
  · cases h
    exact ⟨.refl, rfl⟩
  · simp only at h
    split at h <;> split at h <;> cases h
    all_goals exact ⟨⟨fun _ _ _ => rfl, rfl, rfl, rfl, rfl, rfl⟩, rfl⟩

/-- The operations on guest memory and on the host leave the registers alone. -/
theorem wlp_busAccess {o : BusOp} (ho : o.KeepsIrq) :
    Wlp (busAccess o) (fun _ m' => BusFrame m m' ∧ m'.s.regs = m.s.regs) m := by
  cases o with
  | readMemory paddr length =>
    exact (wlp_query_ok (f := fun m : RunState => doReadMemory m paddr length)).mpr ⟨.refl, rfl⟩
  | writeMemory paddr data =>
    intro ok m2 hm2
    dsimp only [busAccess] at hm2
    split at hm2
    · rename_i m' hw
      cases hm2
      exact doWriteMemory_frame hw
    · cases hm2
      exact ⟨.refl, rfl⟩
  | setPendingIrq irqId => exact ho.elim
  | resetPendingIrq irqId => exact ho.elim
  | host request =>
    rintro x m2 hm2
    cases hm2
    exact ⟨⟨fun _ _ _ => rfl, rfl, rfl, rfl, rfl, rfl⟩, rfl⟩
  | outOfFuel => exact wlp_throw

open Virtio.VirtioDevice

theorem keptByDevice_deviceRun : KeptByDevice busAccess (DeviceRun m d) where
  bus _ ho _ _ h := (wlp_busAccess ho).mono fun _ _ hm => h.of_regs hm.1 hm.2
  change _ hc h := by
    cases hc with
    | consumed | config | generation | needsReset => exact h.modify rfl fun hint => hint
  setIrq {add} hadd d1 m1 h := by
    have hor : ∀ a : BitVec 32, a ||| add ≠ 0 := fun a ha => hadd (BitVec.or_eq_zero_iff.mp ha).2
    simp only [setIrq, localWlp_bind, localWlp_modify, localWlp_get, localWlp_ite, localWlp_liftM,
      localWlp_pure]
    have h1 : DeviceRun m d { d1 with intStatus := d1.intStatus ||| add } m1 := h.modify rfl fun _ => hor _
    refine ⟨fun hint => ?_, fun hint => h1⟩
    exact wlp_setPendingIrq fun m2 hframe => h1.raise hframe hint

/-! ## Writes of control registers -/

/-- What a write to a control register of a device leaves alone, and what its status tells. -/
structure MmioWritten (m : RunState) (d : VirtioDevice) (status : ExecuteStatus) (d' : VirtioDevice)
    (m' : RunState) : Prop extends DeviceRun m d d' m' where
  refused : status = .failure → d' = d ∧ m' = m
  quiet : status.code < 3 → MipWithin m m'
  code_le : status.code ≤ 3

theorem MmioWritten.of_device (hcls : d1.cls = d.cls) : MmioWritten m d .success d1 m where
  toBusFrame := .refl
  cls := hcls
  irq := .inl (.of_eq rfl)
  refused h := by cases h
  quiet _ := .of_eq rfl
  code_le := by decide

theorem MmioWritten.failure : MmioWritten m d .failure d m where
  toDeviceRun := .refl
  refused _ := ⟨rfl, rfl⟩
  quiet _ := .of_eq rfl
  code_le := by decide

theorem mmioWritten_interruptStatus (h : DeviceRun m d d1 m1) :
    LocalWlp busAccess interruptStatus (MmioWritten m d) d1 m1 := by
  simp only [interruptStatus, localWlp_bind, localWlp_get, localWlp_pure]
  split_ifs with hint
  · exact { h with refused := by simp, quiet := fun hlt => absurd hlt (by decide), code_le := by decide }
  · exact { h with refused := by simp, quiet := fun _ => h.irq.resolve_right hint, code_le := by decide }

/-- Withdrawing reasons to interrupt lowers the line, or one is left. -/
theorem deviceRun_resetIrq {rem : BitVec 32} (hcls : d1.cls = d.cls) :
    LocalWlp busAccess (resetIrq rem) (fun _ d2 m2 => DeviceRun m d d2 m2) d1 m := by
  simp only [resetIrq, localWlp_bind, localWlp_modify, localWlp_get, localWlp_ite, localWlp_liftM]
  refine ⟨fun _ => wlp_resetPendingIrq fun m2 hframe hmip => ?_,
    fun hint => wlp_setPendingIrq fun m2 hframe => ?_⟩
  · exact { hframe with cls := hcls, irq := .inl hmip }
  · exact { hframe with cls := hcls, irq := .inr hint }

theorem deviceRun_reset : LocalWlp busAccess reset (fun _ d2 m2 => DeviceRun m d d2 m2) d m := by
  exact deviceRun_resetIrq rfl

theorem mmioWritten_writeStatus {val : BitVec 32} :
    LocalWlp busAccess (writeStatus fuel val) (MmioWritten m d) d m := by
  simp only [writeStatus, localWlp_bind, localWlp_get, localWlp_ite, localWlp_set, localWlp_modify,
    localWlp_pure]
  refine ⟨fun _ => .of_device rfl, fun _ => ⟨fun _ => ⟨fun _ => ?_, fun _ => ?_⟩, fun _ => ?_⟩⟩
  · have h : DeviceRun m d { d with deviceStatus := val } m := DeviceRun.refl.modify rfl fun h => h
    exact (keptByDevice_deviceRun.setIrq (by decide) _ _ h).mono fun _ _ _ => mmioWritten_interruptStatus
  · have h : DeviceRun m d { d with deviceStatus := val, driverOk := true } m :=
      DeviceRun.refl.modify rfl fun h => h
    exact (keptByDevice_deviceRun.serve _ _ _ h).mono fun _ _ _ => mmioWritten_interruptStatus
  · exact mmioWritten_interruptStatus (DeviceRun.refl.modify rfl fun h => h)

theorem mmioWritten_mmioWrite {val : BitVec 32} :
    LocalWlp busAccess (mmioWrite fuel offset val size) (MmioWritten m d) d m := by
  have hcall : MmioCall fuel d ⟨offset, val, size⟩ (mmioWrite fuel offset val size d) := mmioCall_prog
  unfold LocalWlp
  generalize mmioWrite fuel offset val size d = p at hcall
  cases hcall with
  | refused => exact wlp_pure.mpr .failure
  | setup _ hset => exact wlp_pure.mpr (.of_device hset.cls_eq)
  | idle => exact mmioWritten_interruptStatus .refl
  | notify queueIdx =>
    exact localWlp_bind.mpr ((keptByDevice_deviceRun.onDeviceQueueNotify _ _ .refl).mono fun _ _ _ =>
      mmioWritten_interruptStatus)
  | acknowledge =>
    exact localWlp_bind.mpr ((deviceRun_resetIrq rfl).mono fun _ _ _ => mmioWritten_interruptStatus)
  | reset => exact localWlp_bind.mpr (deviceRun_reset.mono fun _ _ _ => mmioWritten_interruptStatus)
  | status => exact mmioWritten_writeStatus

/-! ## Writes of devices -/

def deviceRegs : List Reg :=
  [.mip, .clintMtimecmp, .plicGirqpend, .plicGirqsrvd, .htifTohost, .htifFromhost, .iflagsH, .iflagsX,
    .iflagsY]

def TimerIrq (regs : Reg → Word) : Prop := regs .mip &&& mipMtipMask ≠ 0

structure DeviceFrame (m m' : RunState) : Prop where
  regs : ∀ r, r ∉ deviceRegs → m'.s.regs r = m.s.regs r
  tlb : m'.s.tlb = m.s.tlb
  board : m'.s.board = m.s.board
  softYield : m'.s.softYield = m.s.softYield
  classes : m'.vdevs.map (·.cls) = m.vdevs.map (·.cls)
  /-- Only VirtIO devices write memory. -/
  memory : m.vdevs = [] → m'.s.mem = m.s.mem ∧ m'.s.dirty = m.s.dirty ∧ m'.uarch = m.uarch
  /-- No device requests a timer interrupt, and a new time to wait for withdraws the request. -/
  timer : TimerIrq m'.s.regs → TimerIrq m.s.regs ∧ m'.s.regs .clintMtimecmp = m.s.regs .clintMtimecmp

theorem RunState.pmas_congr (hboard : m'.s.board = m.s.board)
    (hcls : m'.vdevs.map (·.cls) = m.vdevs.map (·.cls)) : m'.pmas = m.pmas := by
  have hranges : ∀ m : RunState, m.ranges = m.s.board.ranges ++ (m.vdevs.map (·.cls)).mapIdx
      fun i cls => { virtioPma i cls.kind with index := m.s.board.ranges.length + i } := by
    intro m
    refine congrArg (m.s.board.ranges ++ ·) (ext_getElem (by simp) fun i h1 h2 => ?_)
    simp
  rw [pmas, pmas, hranges m', hranges m, hboard, hcls]

theorem DeviceFrame.refl : DeviceFrame m m :=
  ⟨fun _ _ => rfl, rfl, rfl, rfl, rfl, fun _ => ⟨rfl, rfl, rfl⟩, fun h => ⟨h, rfl⟩⟩

theorem DeviceFrame.trans (h : DeviceFrame m m') (h' : DeviceFrame m' m'') : DeviceFrame m m'' where
  regs r hr := (h'.regs r hr).trans (h.regs r hr)
  tlb := h'.tlb.trans h.tlb
  board := h'.board.trans h.board
  softYield := h'.softYield.trans h.softYield
  classes := h'.classes.trans h.classes
  memory hv := by
    have hv' : m'.vdevs = [] := by simpa [hv] using h.classes
    obtain ⟨h1, h2, h3⟩ := h.memory hv
    obtain ⟨h1', h2', h3'⟩ := h'.memory hv'
    exact ⟨h1'.trans h1, h2'.trans h2, h3'.trans h3⟩
  timer hirq := by
    obtain ⟨hirq', htime'⟩ := h'.timer hirq
    obtain ⟨hirq, htime⟩ := h.timer hirq'
    exact ⟨hirq, htime'.trans htime⟩

theorem DeviceFrame.writeReg (h : DeviceFrame m m') {r : Reg}
    (hr : r ∈ deviceRegs ∧ r ∉ [mip, .clintMtimecmp]) (v : Word) : DeviceFrame m (m'.writeReg r v) := by
  have hne : ∀ r' ∈ [mip, .clintMtimecmp], (m'.writeReg r v).s.regs r' = m'.s.regs r' := by
    intro r' hr'
    refine update_of_ne ?_ _ _
    rintro rfl
    exact hr.2 hr'
  refine h.trans ⟨fun r' hr' => update_of_ne ?_ _ _, rfl, rfl, rfl, rfl, fun _ => ⟨rfl, rfl, rfl⟩,
    fun hirq => ⟨?_, hne _ (by decide)⟩⟩
  · rintro rfl
    exact hr' hr.1
  · rwa [TimerIrq, hne _ (by decide)] at hirq

theorem DeviceFrame.writeMip (h : DeviceFrame m m')
    (hv : m'.s.regs .mip &&& mipMtipMask = 0 → v &&& mipMtipMask = 0) : DeviceFrame m (m'.writeReg .mip v) := by
  refine h.trans ⟨fun r' hr' => update_of_ne ?_ _ _, rfl, rfl, rfl, rfl, fun _ => ⟨rfl, rfl, rfl⟩,
    fun hirq => ⟨mt hv hirq, rfl⟩⟩
  rintro rfl
  exact hr' (by decide)

theorem DeviceFrame.writeMtimecmp (h : DeviceFrame m m') {mip : Word} (hmip : mip &&& mipMtipMask = 0) :
    DeviceFrame m ((m'.writeReg .clintMtimecmp v).writeReg .mip mip) := by
  refine h.trans ⟨fun r hr => ?_, rfl, rfl, rfl, rfl, fun _ => ⟨rfl, rfl, rfl⟩, fun hirq => absurd hmip hirq⟩
  rw [writeReg_regs, update_of_ne, writeReg_regs, update_of_ne]
  all_goals
    rintro rfl
    exact hr (by decide)

theorem and_not_mipMtipMask (v : Word) : v &&& ~~~mipMtipMask &&& mipMtipMask = 0 := by
  rw [BitVec.and_assoc, show ~~~mipMtipMask &&& mipMtipMask = 0#64 by decide, BitVec.and_zero]
  rfl

theorem TimerIrq.of_same {regs regs' : Reg → Word}
    (h : regs' .mip &&& ~~~mipExternalMask = regs .mip &&& ~~~mipExternalMask) :
    TimerIrq regs' ↔ TimerIrq regs := by
  have hmask : ~~~mipExternalMask &&& mipMtipMask = mipMtipMask := by decide
  rw [TimerIrq, TimerIrq, ← hmask, ← BitVec.and_assoc, h, BitVec.and_assoc]

theorem and_mipMtipMask_of_or {mask : Word} (hmask : mask &&& mipMtipMask = 0)
    (h : v &&& mipMtipMask = 0) : (v ||| mask) &&& mipMtipMask = 0 := by
  rw [or_and_eq_zero_iff]
  exact ⟨h, hmask⟩

theorem DeviceFrame.host {host : Nat → Word} : DeviceFrame m { m with host } :=
  ⟨fun _ _ => rfl, rfl, rfl, rfl, rfl, fun _ => ⟨rfl, rfl, rfl⟩, fun h => ⟨h, rfl⟩⟩

/-- A read of a device leaves alone what devices leave alone. -/
theorem DeviceReadEffect.deviceFrame {r : Option Word} (h : DeviceReadEffect m r m') : DeviceFrame m m' := by
  cases h with
  | quiet => exact .refl
  | claim =>
    unfold claimed
    split_ifs
    · exact (DeviceFrame.refl.writeReg (by decide) _).writeMip and_and_eq_zero_of_left
    · exact DeviceFrame.refl.writeReg (by decide) _

/-- What a write of a device leaves alone, and what its status tells about the machine. -/
structure DeviceWriteEffect (m : RunState) (status : ExecuteStatus) (m' : RunState) : Prop
    extends DeviceFrame m m' where
  refused : status = .failure → m' = m
  flags : status.code ≤ 3 → ∀ r ∈ [Reg.iflagsH, .iflagsX, .iflagsY], m'.s.regs r = m.s.regs r
  quiet : status.code < 3 → MipWithin m m'
  halted : status = .successAndHalt → m'.s.regs .iflagsH = 1
  yielded : status = .successAndYield → m'.s.regs .iflagsY = 1 ∨ m'.s.regs .iflagsX = 1

theorem DeviceWriteEffect.failure : DeviceWriteEffect m .failure m where
  toDeviceFrame := .refl
  refused _ := rfl
  flags _ _ _ := rfl
  quiet _ := .of_eq rfl
  halted h := by cases h
  yielded h := by cases h

theorem DeviceWriteEffect.success (h : DeviceFrame m m')
    (hflags : ∀ r ∈ [iflagsH, .iflagsX, .iflagsY], m'.s.regs r = m.s.regs r)
    (hmip : MipWithin m m') : DeviceWriteEffect m .success m' where
  toDeviceFrame := h
  refused h := by cases h
  flags _ := hflags
  quiet _ := hmip
  halted h := by cases h
  yielded h := by cases h

theorem DeviceWriteEffect.serve (h : DeviceFrame m m')
    (hflags : ∀ r ∈ [iflagsH, .iflagsX, .iflagsY], m'.s.regs r = m.s.regs r) :
    DeviceWriteEffect m .successAndServeInterrupts m' where
  toDeviceFrame := h
  refused h := by cases h
  flags _ := hflags
  quiet h := absurd h (by decide)
  halted h := by cases h
  yielded h := by cases h

theorem wlp_osPutchar {c : Byte} {post : Post Unit} :
    Wlp ((osPutchar c).exec fuel) post m ↔ post () m :=
  (wlp_op (o := .osPutchar c)).trans wlp_pure

theorem wlp_osGetchar {post : Post (BitVec 32)} : Wlp (osGetchar.exec fuel) post m ↔
      post ((m.host 0).setWidth 32) { m with host := fun n => m.host (n + 1) } := by
  refine (wlp_op (o := .osGetchar)).trans ⟨fun h => h _ _ rfl, ?_⟩
  rintro h a m' ha
  cases ha
  exact h

section Drivers
variable {offset val : Word} {size : MemSize} {post : Post ExecuteStatus}
  (h : ∀ status m', DeviceWriteEffect m status m' → post status m')
include h

theorem wlp_clintWrite : Wlp ((clintWrite offset val size).exec fuel) post m := by
  simp only [clintWrite, setMip, resetMip, run_ite, run_bind, wlp_ite, wlp_bind, wlp_read,
    wlp_write, wlp_run_pure]
  refine ⟨fun _ => ⟨fun _ => ⟨fun _ => h _ _ (.serve ?_ (by simp)), fun _ => h _ _ (.success ?_ (by simp)
    (.of_and_not rfl))⟩, fun _ => h _ _ .failure⟩, fun _ => ⟨fun _ => ⟨fun _ => h _ _ (.success ?_
    (by simp) (.of_and_not rfl)), fun _ => h _ _ .failure⟩, fun _ => h _ _ .failure⟩⟩
  · exact DeviceFrame.refl.writeMip (and_mipMtipMask_of_or (by decide))
  · exact DeviceFrame.refl.writeMip and_and_eq_zero_of_left
  · exact DeviceFrame.refl.writeMtimecmp (and_not_mipMtipMask _)

theorem wlp_plicWrite : Wlp ((plicWrite offset val size).exec fuel) post m := by
  have hquiet : post .success m := h _ _ (.success .refl (by simp) (.of_eq rfl))
  simp only [plicWrite, plicWriteClaimComplete, readGirqpend, readGirqsrvd, setMip, resetMip, run_ite,
    run_bind, wlp_ite, wlp_bind, wlp_read, wlp_write, wlp_run_pure]
  refine ⟨fun _ => ⟨fun _ => ⟨fun _ => ⟨fun _ => h _ _ (.success ?_ (by simp) (.of_and_not rfl)),
    fun _ => h _ _ (.serve ?_ (by simp))⟩, fun _ => hquiet⟩, fun _ => hquiet⟩, fun _ => h _ _ .failure⟩
  · exact (DeviceFrame.refl.writeReg (by decide) _).writeMip and_and_eq_zero_of_left
  · exact (DeviceFrame.refl.writeReg (by decide) _).writeMip (and_mipMtipMask_of_or (by decide))

end Drivers

/-- Device registers may have been written, but none that stops the inner loop. -/
structure Unnoticed (m m' : RunState) : Prop extends DeviceFrame m m' where
  same : ∀ r ∈ [Reg.mip, .iflagsH, .iflagsX, .iflagsY], m'.s.regs r = m.s.regs r

theorem Unnoticed.refl : Unnoticed m m := ⟨.refl, fun _ _ => rfl⟩

theorem Unnoticed.writeReg (h : Unnoticed m m') {r : Reg} (hr : r ∈ deviceRegs)
    (hne : r ∉ [mip, .clintMtimecmp, .iflagsH, .iflagsX, .iflagsY]) (v : Word) :
    Unnoticed m (m'.writeReg r v) := by
  rw [mem_cons, mem_cons, not_or, not_or] at hne
  refine ⟨h.toDeviceFrame.writeReg ⟨hr, by simp [hne]⟩ v, fun r' hr' => ?_⟩
  rw [writeReg_regs, update_of_ne]
  · exact h.same r' hr'
  · rintro rfl
    exact (mem_cons.mp hr').elim hne.1 hne.2.2

theorem Unnoticed.success (h : Unnoticed m m') : DeviceWriteEffect m .success m' := by
  refine .success h.toDeviceFrame (fun r hr => h.same r ?_) (.of_eq (h.same _ (by decide)))
  exact mem_cons_of_mem _ hr

section Htif
variable {cmd data : Word} {post : Post ExecuteStatus}
  (h : ∀ status m'', DeviceWriteEffect m status m'' → post status m'')
include h

theorem wlp_htifHalt (hm' : Unnoticed m m') : Wlp ((htifHalt cmd data).exec fuel) post m' := by
  simp only [htifHalt, run_ite, run_bind, wlp_ite, wlp_bind, wlp_write, wlp_run_pure]
  refine ⟨fun _ => h _ _ ?_, fun _ => h _ _ hm'.success⟩
  exact { hm'.toDeviceFrame.writeReg (by decide) _ with
    refused := by simp, flags := fun hle => absurd hle (by decide)
    quiet := fun hlt => absurd hlt (by decide), halted := by simp, yielded := by simp }

theorem wlp_htifConsole (hm' : Unnoticed m m') :
    Wlp ((htifConsole cmd data).exec fuel) post m' := by
  have hhost : ∀ {host : Nat → Word}, Unnoticed m { m' with host } :=
    ⟨hm'.toDeviceFrame.trans .host, hm'.same⟩
  simp only [htifConsole, htifEnabled, run_ite, run_bind, wlp_ite, wlp_bind, wlp_read, wlp_write,
    wlp_run_pure, wlp_osPutchar, wlp_osGetchar]
  refine ⟨fun _ => ⟨fun _ => ⟨fun _ => h _ _ ?_, fun _ => ⟨fun _ => h _ _ ?_, fun _ => h _ _ hm'.success⟩⟩,
    fun _ => h _ _ hm'.success⟩, fun _ => ⟨fun hf => absurd hf (by simp), fun _ => h _ _ hm'.success⟩⟩
  · exact (hm'.writeReg (by decide) (by decide) _).success
  · exact (hhost.writeReg (by decide) (by decide) _).success

theorem wlp_htifYield (hm' : Unnoticed m m') : Wlp ((htifYield cmd).exec fuel) post m' := by
  have hyield : ∀ {r : Reg} {v : Word}, r = .iflagsY ∨ r = .iflagsX →
      post .successAndYield ((m'.writeReg r 1).writeReg .htifFromhost v) := by
    rintro r v hr
    refine h _ _ { (hm'.toDeviceFrame.writeReg ?_ 1).writeReg (by decide) v with
      refused := by simp, flags := fun hle => absurd hle (by decide)
      quiet := fun hlt => absurd hlt (by decide), halted := by simp, yielded := fun _ => ?_ }
    · rcases hr with rfl | rfl <;> decide
    · rcases hr with rfl | rfl <;> simp
  simp only [htifYield, htifEnabled, run_ite, run_bind, wlp_ite, wlp_bind, wlp_read, wlp_write,
    wlp_run_pure]
  exact ⟨fun _ => ⟨fun _ => ⟨fun _ => hyield (.inl rfl), fun _ => ⟨fun _ => hyield (.inr rfl),
    fun _ => h _ _ hm'.success⟩⟩, fun _ => h _ _ hm'.success⟩,
    fun _ => ⟨fun hf => absurd hf (by simp), fun _ => h _ _ hm'.success⟩⟩

theorem wlp_htifWrite {val : Word} : Wlp ((htifWrite offset val size).exec fuel) post m := by
  simp only [htifWrite, htifWriteTohost, run_ite, run_bind, wlp_ite, wlp_bind, wlp_write,
    wlp_run_pure]
  have hm' : Unnoticed m (m.writeReg .htifTohost val) := Unnoticed.refl.writeReg (by decide) (by decide) _
  refine ⟨fun _ => h _ _ .failure, fun _ => ⟨fun _ => ⟨fun _ => wlp_htifHalt h hm', fun _ =>
    ⟨fun _ => wlp_htifConsole h hm', fun _ => ⟨fun _ => wlp_htifYield h hm', fun _ =>
    h _ _ hm'.success⟩⟩⟩, fun _ => ⟨fun _ => h _ _ ?_, fun _ => h _ _ .failure⟩⟩⟩
  exact (Unnoticed.refl.writeReg (by decide) (by decide) _).success

end Htif

/-- What a run of a device left alone, with the device put back. -/
theorem DeviceRun.deviceFrame (h : DeviceRun m d d1 m1) (hd : m.vdevs[i]? = some d) :
    DeviceFrame m { m1 with vdevs := m1.vdevs.set i d1 } where
  regs r hr := by
    refine h.regs r ?_ ?_ <;> rintro rfl <;> exact hr (by decide)
  tlb := h.tlb
  board := h.board
  softYield := h.softYield
  classes := by
    rw [h.vdevs, map_set, h.cls]
    refine ext_getElem? fun j => ?_
    by_cases hj : i = j
    · subst hj
      obtain ⟨hi, -⟩ := List.getElem?_eq_some_iff.mp hd
      rw [getElem?_set_self (by simpa using hi), getElem?_map, hd, Option.map_some]
    · rw [getElem?_set_ne hj]
  memory hv := by simp [hv] at hd
  timer hirq := ⟨(TimerIrq.of_same h.mip).mp hirq, h.regs _ (by decide) (by decide)⟩

theorem wlp_onDevice {α : Type} {p : DProg α} {post : Post α}
    (h : ∀ d, m.vdevs[i]? = some d → LocalWlp busAccess p (fun a d' m' =>
      post a { m' with vdevs := m'.vdevs.set i d' }) d m) : Wlp (onDevice i p) post m := by
  intro a m' hm'
  unfold onDevice at hm'
  split at hm'
  · cases hm'
  · rename_i d hd
    split at hm'
    · rename_i a' d' m1 hrun
      cases hm'
      exact h d hd _ _ hrun
    · cases hm'

theorem wlp_virtioWrite {val : Word}
    {post : Post ExecuteStatus} (h : ∀ status m', DeviceWriteEffect m status m' → post status m') :
    Wlp ((virtioWrite pma offset val size).exec fuel) post m := by
  refine (wlp_op (o := .virtioWrite pma offset val size)).mpr ?_
  refine wlp_bind.mpr (wlp_get.mpr (wlp_onDevice fun d hd => ?_))
  refine mmioWritten_mmioWrite.mono fun status d' m' hw => h _ _ ?_
  have hregs : ∀ r ∈ [iflagsH, .iflagsX, .iflagsY], m'.s.regs r = m.s.regs r := by
    intro r hr
    refine hw.regs r ?_ ?_ <;> rintro rfl <;> simp at hr
  refine { hw.toDeviceRun.deviceFrame hd with
    refused := fun hf => ?_, flags := fun _ => hregs, quiet := hw.quiet
    halted := fun hs => absurd hw.code_le (by rw [hs]; decide)
    yielded := fun hs => absurd hw.code_le (by rw [hs]; decide) }
  obtain ⟨rfl, rfl⟩ := hw.refused hf
  obtain ⟨hi, rfl⟩ := List.getElem?_eq_some_iff.mp hd
  rw [set_getElem_self]

theorem wlp_deviceWrite {val : Word}
    {post : Post ExecuteStatus} (h : ∀ status m', DeviceWriteEffect m status m' → post status m') :
    Wlp ((deviceWrite pma offset val size).exec fuel) post m := by
  unfold deviceWrite
  split
  · exact wlp_clintWrite h
  · exact wlp_plicWrite h
  · exact wlp_htifWrite h
  · exact wlp_virtioWrite h
  · exact wlp_pure.mpr (h _ _ .failure)

/-! ## Polling -/

/-- What a wait for external interrupts leaves alone. -/
structure PollFrame (m m' : RunState) : Prop extends DeviceFrame m m' where
  polled : ∀ r, r ≠ .mip → r ≠ .plicGirqpend → m'.s.regs r = m.s.regs r
  mip : m'.s.regs .mip &&& ~~~mipExternalMask = m.s.regs .mip &&& ~~~mipExternalMask

theorem PollFrame.refl : PollFrame m m := ⟨.refl, fun _ _ _ => rfl, rfl⟩

theorem PollFrame.trans (h : PollFrame m m') (h' : PollFrame m' m'') : PollFrame m m'' :=
  ⟨h.toDeviceFrame.trans h'.toDeviceFrame, fun r hmip hpend =>
    (h'.polled r hmip hpend).trans (h.polled r hmip hpend), h'.mip.trans h.mip⟩

theorem PollFrame.host {host : Nat → Word} : PollFrame m { m with host } := ⟨.host, fun _ _ _ => rfl, rfl⟩

theorem wlp_askHost {post : Post Word}
    (h : ∀ a m', PollFrame m m' → m'.vdevs = m.vdevs → post a m') : Wlp askHost post m := by
  rintro a m' ha
  cases ha
  exact h _ _ .host rfl

theorem wlp_pollSelectedVirtioDevices {n : Nat} {post : Post Bool}
    (h : ∀ requested m', PollFrame m m' → post requested m') :
    Wlp (pollSelectedVirtioDevices fuel n i) post m := by
  induction n generalizing m i post with
  | zero => exact wlp_pure.mpr (h _ _ .refl)
  | succ n ih =>
    simp only [pollSelectedVirtioDevices, wlp_bind]
    refine wlp_onDevice fun d hd => ?_
    have hserve : LocalWlp busAccess (serve fuel d.cls.pollSelected) (fun _ => DeviceRun m d) d m :=
      keptByDevice_deviceRun.serve _ _ _ .refl
    refine Wlp.mono hserve fun r m' hrun => ?_
    have hframe : PollFrame m { m' with vdevs := m'.vdevs.set i r.2 } :=
      ⟨hrun.deviceFrame hd, hrun.regs, hrun.mip⟩
    exact ih fun more m'' hframe' => wlp_pure.mpr (h _ _ (hframe.trans hframe'))

theorem wlp_pollDevices {timeoutUs : Word} {post : Post (Word × Bool)}
    (h : ∀ r m', PollFrame m m' → post r m') : Wlp (pollDevices fuel timeoutUs) post m := by
  have htty : ∀ {m1 : RunState} {f : Bool → Word × Bool}, PollFrame m m1 →
      Wlp (osPollTty >>= fun input => pure (f input)) post m1 := by
    intro m1 f hm1
    simp only [osPollTty, wlp_bind, wlp_pure]
    exact wlp_askHost fun a m2 hframe _ => h _ _ (hm1.trans hframe)
  have hvirtio : ∀ {n : Nat} {f : Word → Bool → RunM (Word × Bool)},
      (∀ lowered requested m2, PollFrame m m2 → Wlp (f lowered requested) post m2) →
      Wlp (askHost >>= fun lowered => pollSelectedVirtioDevices fuel n 0 >>= f lowered) post m := by
    intro n f hf
    refine wlp_bind.mpr (wlp_askHost fun lowered m1 hm1 _ => wlp_bind.mpr ?_)
    exact wlp_pollSelectedVirtioDevices fun requested m2 hm2 => hf _ _ _ (hm1.trans hm2)
  simp only [pollDevices, wlp_bind, wlp_get]
  split_ifs
  · exact hvirtio fun _ _ m2 hm2 => wlp_pure.mpr (h _ _ hm2)
  · exact hvirtio fun _ _ m2 hm2 => htty hm2
  · exact hvirtio fun _ _ m2 hm2 => wlp_pure.mpr (h _ _ hm2)
  · exact htty .refl
  · exact wlp_pure.mpr (h _ _ .refl)

/-- The outcome of a wait: a machine in reproducible mode does not wait. -/
structure PollEffect (m : RunState) (mcycle mcycleMax : Word) (r : Word × Bool) (m' : RunState) : Prop
    extends PollFrame m m' where
  reproducible : m.s.regs .iunrep = 0 → m' = m ∧ r = (mcycle, false)
  le_mcycle : mcycle ≤ r.1
  mcycle_le : r.1 = mcycle ∨ r.1 ≤ mcycleMax

theorem le_mcycleAfter {elapsedUs : Word} (h : mcycle ≤ mcycleMax) :
    mcycle ≤ mcycleAfter mcycle mcycleMax elapsedUs := by
  simp only [mcycleAfter]
  split_ifs with h1 h2 h3
  · exact h
  · exact BitVec.le_refl _
  · exact h
  · exact BitVec.not_lt.mp h1

theorem mcycleAfter_le {elapsedUs : Word} : mcycleAfter mcycle mcycleMax elapsedUs ≤ mcycleMax := by
  unfold mcycleAfter
  dsimp only
  split_ifs with h1 h2 h3
  · exact BitVec.le_refl _
  · exact BitVec.not_lt.mp h2
  · exact BitVec.le_refl _
  · exact BitVec.not_lt.mp h3

theorem wlp_pollExternalInterrupts {post : Post (Word × Bool)}
    (hle : mcycle ≤ mcycleMax) (h : ∀ r m', PollEffect m mcycle mcycleMax r m' → post r m') :
    Wlp ((pollExternalInterrupts mcycle mcycleMax).exec fuel) post m := by
  refine (wlp_op (o := .pollExternalInterrupts mcycle mcycleMax)).mpr ?_
  show Wlp (doPollExternalInterrupts fuel mcycle mcycleMax) post m
  simp only [doPollExternalInterrupts, wlp_bind, wlp_get, wlp_ite, wlp_pure]
  refine ⟨fun hrep => h _ _ ?_, fun hrep => wlp_pollDevices fun r m1 hm1 => ⟨fun _ => h _ _ ?_, fun _ =>
    wlp_askHost fun elapsed m2 hm2 _ => h _ _ ?_⟩⟩
  · exact ⟨.refl, fun _ => ⟨rfl, rfl⟩, BitVec.le_refl _, .inl rfl⟩
  · exact ⟨hm1, fun hrep' => absurd hrep' hrep, BitVec.le_refl _, .inl rfl⟩
  · exact ⟨hm1.trans hm2, fun hrep' => absurd hrep' hrep, le_mcycleAfter hle, .inr mcycleAfter_le⟩

end MachineEmulator.Interpret
