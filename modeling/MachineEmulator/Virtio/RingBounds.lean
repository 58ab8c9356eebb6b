import Mathlib.Data.Fintype.Pigeonhole
import MachineEmulator.Virtio.Console
import MachineEmulator.Virtio.Negotiation

/-!
# Where a device reaches in guest memory

A device that works on its queues should stay within their rings and tables, and within the buffers that
their descriptors name.

* `ringMonitor` : watches the accesses of a device, and remembers the descriptors that it has read;
* `readyMonitor` : watches a kind of device, which works on queues that it was given or has prepared;
* `Reached` : the devices that a driver can bring about by writing to registers;
* `bounded_iff` : a device stays within its rings if and only if all queues in use have entries.
-/

namespace MachineEmulator.Virtio

open BitVec Prog List Function Nat Virtq

open Interpret (ExecuteStatus)

/-! ## Places in guest memory -/

/-- The bytes from `paddr` on lie among the `size` bytes from `base` on. -/
def Inside (base : Word) (size : Nat) (paddr : Word) (length : Nat) : Prop :=
  (paddr - base).toNat + length ≤ size

namespace Virtq

/-- The places and the sizes of the descriptor table, the available ring and the used ring. -/
def regions (vq : Virtq) : List (Word × Nat) :=
  [(vq.descAddr, 16 * vq.num.toNat), (vq.availAddr, 6 + 2 * vq.num.toNat),
    (vq.usedAddr, 6 + 8 * vq.num.toNat)]

/-- The access lies within the rings or the table of the queue. -/
def InRings (vq : Virtq) (paddr : Word) (length : Nat) : Prop :=
  ∃ r ∈ vq.regions, Inside r.1 r.2 paddr length

/-- The descriptor that the bytes of an entry of the table stand for. -/
def descOfBytes (bs : List Byte) : VirtqDesc where
  paddr := BitVec.ofNat 64 (fieldAt bs 0 8)
  len := BitVec.ofNat 32 (fieldAt bs 8 4)
  flags := BitVec.ofNat 16 (fieldAt bs 12 2)
  next := BitVec.ofNat 16 (fieldAt bs 14 2)

/-- The address is that of an entry of the table. -/
def IsEntry (vq : Virtq) (paddr : Word) : Prop :=
  ∃ i < vq.num.toNat, paddr = vq.descAddr + BitVec.ofNat 64 (16 * i)

/-- The queues are the same but for the index of the used ring. -/
def SameRings (vq vq' : Virtq) : Prop := ∃ n, vq' = { vq with lastUsedIdx := n }

variable {vq : Virtq}

theorem toNat_ringOffset_lt (hnum : vq.num ≠ 0) (idx : BitVec 16) :
    (vq.ringOffset idx).toNat < vq.num.toNat := by
  have hle : (idx.setWidth 32 &&& (vq.num - 1)).toNat ≤ (vq.num - 1).toNat := by
    rw [toNat_and]
    exact and_le_right
  rw [ringOffset, toNat_setWidth_of_le (by decide)]
  bv_omega

theorem inside_add {base off : Word} {size length : Nat} (h : off.toNat + length ≤ size) :
    Inside base size (base + off) length := by
  rwa [Inside, BitVec.add_comm, BitVec.add_sub_cancel]

theorem inRings_availHeader : vq.InRings vq.availAddr 4 := by
  refine ⟨(vq.availAddr, 6 + 2 * vq.num.toNat), by simp [regions], ?_⟩
  rw [Inside, BitVec.sub_self]
  show 0 + 4 ≤ 6 + 2 * vq.num.toNat
  omega

theorem inRings_usedHeader : vq.InRings vq.usedAddr 4 := by
  refine ⟨(vq.usedAddr, 6 + 8 * vq.num.toNat), by simp [regions], ?_⟩
  rw [Inside, BitVec.sub_self]
  show 0 + 4 ≤ 6 + 8 * vq.num.toNat
  omega

theorem toNat_entryOffset {off : Word} {num : BitVec 32} (hoff : off.toNat < num.toNat) {header size : Word}
    (hheader : header.toNat ≤ 4) (hsize : size.toNat ≤ 16) :
    (header + off * size).toNat = header.toNat + off.toNat * size.toNat := by
  have hmul : off.toNat * size.toNat ≤ 2 ^ 32 * 16 :=
    Nat.mul_le_mul (Nat.le_of_lt (Nat.lt_trans hoff num.isLt)) hsize
  rw [toNat_add, toNat_mul, mod_eq_of_lt (a := off.toNat * size.toNat) (by omega),
    mod_eq_of_lt (by omega)]

theorem inRings_availElem (hnum : vq.num ≠ 0) (idx : BitVec 16) :
    vq.InRings (vq.availAddr + 4 + vq.ringOffset idx * 2) 2 := by
  have hoff := toNat_ringOffset_lt hnum idx
  have h : (4 + vq.ringOffset idx * 2).toNat = 4 + (vq.ringOffset idx).toNat * 2 :=
    toNat_entryOffset hoff (by decide) (by decide)
  rw [BitVec.add_assoc]
  refine ⟨(vq.availAddr, 6 + 2 * vq.num.toNat), by simp [regions], inside_add ?_⟩
  show _ ≤ 6 + 2 * vq.num.toNat
  omega

theorem inRings_usedElem (hnum : vq.num ≠ 0) (idx : BitVec 16) :
    vq.InRings (vq.usedAddr + 4 + vq.ringOffset idx * 8) 8 := by
  have hoff := toNat_ringOffset_lt hnum idx
  have h : (4 + vq.ringOffset idx * 8).toNat = 4 + (vq.ringOffset idx).toNat * 8 :=
    toNat_entryOffset hoff (by decide) (by decide)
  rw [BitVec.add_assoc]
  refine ⟨(vq.usedAddr, 6 + 8 * vq.num.toNat), by simp [regions], inside_add ?_⟩
  show _ ≤ 6 + 8 * vq.num.toNat
  omega

theorem inRings_desc (hnum : vq.num ≠ 0) (idx : BitVec 16) :
    vq.InRings (vq.descAddr + vq.ringOffset idx * 16) 16 := by
  have hoff := toNat_ringOffset_lt hnum idx
  have h : (0#64 + vq.ringOffset idx * 16).toNat = 0 + (vq.ringOffset idx).toNat * 16 :=
    toNat_entryOffset hoff (by decide) (by decide)
  rw [BitVec.zero_add] at h
  refine ⟨(vq.descAddr, 16 * vq.num.toNat), by simp [regions], inside_add ?_⟩
  show _ ≤ 16 * vq.num.toNat
  omega

theorem isEntry_desc (hnum : vq.num ≠ 0) (idx : BitVec 16) :
    vq.IsEntry (vq.descAddr + vq.ringOffset idx * 16) := by
  refine ⟨(vq.ringOffset idx).toNat, toNat_ringOffset_lt hnum idx, congrArg _ (eq_of_toNat_eq ?_)⟩
  rw [toNat_mul, toNat_ofNat, Nat.mul_comm]
  rfl

theorem inside_chunk {desc : VirtqDesc} {bufStartOff startOff endOff : BitVec 32} {length : Nat}
    (hlt : (chunkOf bufStartOff desc.len startOff endOff).startOff <
      (chunkOf bufStartOff desc.len startOff endOff).endOff)
    (hlength : length ≤ ((chunkOf bufStartOff desc.len startOff endOff).endOff -
      (chunkOf bufStartOff desc.len startOff endOff).startOff).toNat) : Inside desc.paddr desc.len.toNat
      (desc.paddr + ((chunkOf bufStartOff desc.len startOff endOff).startOff - bufStartOff).setWidth 64)
      length := by
  refine inside_add ?_
  rw [toNat_setWidth_of_le (by decide)]
  unfold chunkOf at *
  dsimp only at *
  split_ifs at * <;> bv_omega

end Virtq

/-! ## Watching the accesses of a device -/

abbrev Queues := Fin virtioQueueCount → Virtq

/-- The descriptors read so far, each with its queue. -/
abbrev Seen := Set (Fin virtioQueueCount × VirtqDesc)

/-- The access lies within a queue that is in use, or within a buffer of a descriptor that was read. -/
def WithinRings (queues : Queues) (seen : Seen) (paddr : Word) (length : Nat) : Prop :=
  ∃ i, (queues i).ready = true ∧ ((queues i).InRings paddr length ∨
    ∃ desc, (i, desc) ∈ seen ∧ Inside desc.paddr desc.len.toNat paddr length)

/-- The descriptors that an access brings in, if it is one to an entry of a table. -/
def seenBy (queues : Queues) (paddr : Word) (length : Nat) (answer : Option (List Byte)) : Seen :=
  { e | (queues e.1).IsEntry paddr ∧ length = 16 ∧ ∃ bs, answer = some bs ∧ e.2 = Virtq.descOfBytes bs }

def ringMonitor (queues : Queues) : Monitor BusSig Seen where
  allows seen
    | .readMemory paddr length => WithinRings queues seen paddr length
    | .writeMemory paddr data => WithinRings queues seen paddr data.length
    | _ => True
  next seen
    | .readMemory paddr length, answer => seen ∪ seenBy queues paddr length answer
    | _, _ => seen

variable {queues : Queues} {i : Fin virtioQueueCount} {seen : Seen} {fuel : Nat}

structure Usable (queues : Queues) (i : Fin virtioQueueCount) (vq : Virtq) : Prop where
  ready : (queues i).ready = true
  num : (queues i).num ≠ 0
  rings : (queues i).SameRings vq

namespace Usable

variable {vq : Virtq} {α : Type}

theorem within (h : Usable queues i vq) {paddr : Word} {length : Nat} (hin : (queues i).InRings paddr length) :
    WithinRings queues seen paddr length :=
  ⟨i, h.ready, .inl hin⟩

theorem getAvailIdx (h : Usable queues i vq) :
    vq.getAvailIdx.Conforms (ringMonitor queues) seen fun _ _ => True := by
  obtain ⟨n, rfl⟩ := h.rings
  refine conforms_bind.mpr (conforms_perform.mpr ⟨h.within inRings_availHeader, fun r => ?_⟩)
  cases r <;> trivial

variable {idx : BitVec 16} {startOff : BitVec 32} {data : List Byte}

theorem getRingAvailElemDescIdx (h : Usable queues i vq) :
    (vq.getRingAvailElemDescIdx idx).Conforms (ringMonitor queues) seen fun _ _ => True := by
  obtain ⟨n, rfl⟩ := h.rings
  refine conforms_bind.mpr (conforms_perform.mpr
    ⟨h.within (inRings_availElem h.num idx), fun r => ?_⟩)
  cases r <;> trivial

theorem getDesc (h : Usable queues i vq) :
    (vq.getDesc idx).Conforms (ringMonitor queues) seen fun seen' r => ∀ desc, r = some desc → (i, desc) ∈ seen' := by
  obtain ⟨n, rfl⟩ := h.rings
  refine conforms_bind.mpr (conforms_perform.mpr
    ⟨h.within (inRings_desc h.num idx), fun r => ?_⟩)
  cases r with
  | none => exact fun _ hdesc => absurd hdesc (by simp)
  | some bs =>
    intro desc hdesc
    refine .inr ⟨isEntry_desc h.num idx, rfl, bs, rfl, ?_⟩
    exact (Option.some.inj hdesc).symm

theorem outOfFuel {post : Seen → α → Prop} : (outOfFuel : BProg α).Conforms (ringMonitor queues) seen post :=
  ⟨trivial, fun x => x.elim⟩

theorem getDesc_bind (h : Usable queues i vq) {f : Option VirtqDesc → BProg α}
    {post : Seen → α → Prop} (hnone : ∀ seen, (f none).Conforms (ringMonitor queues) seen post)
    (hsome : ∀ seen desc, (i, desc) ∈ seen → (f (some desc)).Conforms (ringMonitor queues) seen post) :
    (vq.getDesc idx >>= f).Conforms (ringMonitor queues) seen post := by
  refine conforms_bind.mpr (h.getDesc.mono fun seen' r hr => ?_)
  cases r with
  | none => exact hnone seen'
  | some desc => exact hsome seen' desc (hr desc rfl)

theorem getDescRwAvailLenFrom (h : Usable queues i vq) {readLen writeLen : BitVec 32} {writePart : Bool} :
    (vq.getDescRwAvailLenFrom fuel idx readLen writeLen writePart).Conforms (ringMonitor queues) seen
      fun _ _ => True := by
  induction fuel generalizing idx readLen writeLen writePart seen with
  | zero => exact outOfFuel
  | succ fuel ih =>
    refine h.getDesc_bind (fun _ => trivial) fun seen' desc _ => ?_
    exact conforms_ite.mpr ⟨fun _ => trivial, fun _ => conforms_ite.mpr ⟨fun _ => trivial, fun _ => ih⟩⟩

theorem readDescMemFrom (h : Usable queues i vq) {endOff : BitVec 32} {bufStartOff : BitVec 32} :
    (vq.readDescMemFrom startOff endOff fuel idx bufStartOff data).Conforms (ringMonitor queues) seen
      fun _ _ => True := by
  induction fuel generalizing idx bufStartOff data seen with
  | zero => exact outOfFuel
  | succ fuel ih =>
    refine h.getDesc_bind (fun _ => trivial) fun seen' desc hdesc => ?_
    simp only [conforms_ite, conforms_bind, conforms_pure, implies_true, true_and]
    refine ⟨fun _ => ⟨fun hlt => ?_, fun _ _ _ => ih⟩, fun _ _ => ih⟩
    refine conforms_perform.mpr ⟨⟨i, h.ready, .inr ⟨desc, hdesc, inside_chunk hlt le_rfl⟩⟩, fun r => ?_⟩
    cases r with
    | none => trivial
    | some bs => exact conforms_ite.mpr ⟨fun _ => trivial, fun _ => conforms_ite.mpr ⟨fun _ => trivial, fun _ => ih⟩⟩

theorem readDescMem (h : Usable queues i vq) :
    (vq.readDescMem fuel idx startOff data).Conforms (ringMonitor queues) seen fun _ _ => True :=
  conforms_ite.mpr ⟨fun _ => trivial, fun _ => h.readDescMemFrom⟩

theorem writeDescMemFrom (h : Usable queues i vq) {endOff : BitVec 32} {bufStartOff : BitVec 32} :
    (vq.writeDescMemFrom startOff endOff data fuel idx bufStartOff).Conforms (ringMonitor queues) seen
      fun _ _ => True := by
  induction fuel generalizing idx bufStartOff seen with
  | zero => exact outOfFuel
  | succ fuel ih =>
    refine h.getDesc_bind (fun _ => trivial) fun seen' desc hdesc => ?_
    simp only [conforms_ite, conforms_bind, conforms_pure, implies_true, true_and]
    refine ⟨fun _ => ⟨fun hlt => ?_, fun _ _ _ => ih⟩, fun _ _ => ih⟩
    have hin := inside_chunk hlt (length_take_le _ (data.drop
      ((chunkOf bufStartOff desc.len startOff endOff).startOff - startOff).toNat))
    exact conforms_perform.mpr ⟨⟨i, h.ready, .inr ⟨desc, hdesc, hin⟩⟩, fun ok => ⟨fun _ _ _ => ih, trivial⟩⟩

theorem writeDescMem (h : Usable queues i vq) :
    (vq.writeDescMem fuel idx startOff data).Conforms (ringMonitor queues) seen fun _ _ => True :=
  conforms_ite.mpr ⟨fun _ => trivial, fun _ => h.writeDescMemFrom⟩

theorem consumeDesc (h : Usable queues i vq) {writtenLen : BitVec 32} {usedFlags : BitVec 16} :
    (vq.consumeDesc idx writtenLen usedFlags).Conforms (ringMonitor queues) seen
      fun _ r => ∀ vq', r = some vq' → (queues i).SameRings vq' := by
  obtain ⟨n, rfl⟩ := h.rings
  have helem : WithinRings queues seen ((queues i).usedAddr + 4 + (queues i).ringOffset n * 8)
      (toLE 4 (idx.setWidth 32).toNat ++ toLE 4 writtenLen.toNat).length := by
    rw [length_append, length_toLE, length_toLE]
    exact h.within (inRings_usedElem h.num n)
  have hheader : WithinRings queues seen (queues i).usedAddr
      (toLE 2 usedFlags.toNat ++ toLE 2 (n + 1).toNat).length := by
    rw [length_append, length_toLE, length_toLE]
    exact h.within inRings_usedHeader
  simp only [consumeDesc, conforms_bind, conforms_ite, conforms_pure]
  refine conforms_perform.mpr ⟨helem, fun ok => ⟨fun _ => ?_, fun _ _ hvq' => absurd hvq' (by simp)⟩⟩
  refine conforms_perform.mpr ⟨hheader, fun ok => ⟨fun _ vq' hvq' => ?_, fun _ _ hvq' => absurd hvq' (by simp)⟩⟩
  exact ⟨n + 1, (Option.some.inj hvq').symm⟩

end Usable

/-! ## Watching a kind of device -/

/-- A kind of device works on the queues in `ready`. It may prepare others, and work on them if there is
something to write to. -/
def readyMonitor : Monitor ServiceSig (Set (Fin virtioQueueCount)) where
  allows ready
    | .readDescMem queueIdx .. | .writeDescMem queueIdx .. | .consumeQueue queueIdx .. => queueIdx ∈ ready
    | _ => True
  next ready
    | .prepareQueueWrite queueIdx, slot => { i | i ∈ ready ∨ (i = queueIdx ∧ slot.writeAvailLen ≠ 0) }
    | _, _ => ready

/-- The kind of device works on queues that it was given or has prepared. -/
structure VirtioClass.WorksOnReady (cls : VirtioClass) : Prop where
  queue : ∀ queueIdx descIdx readAvailLen writeAvailLen,
    (cls.onDeviceQueueAvailable queueIdx descIdx readAvailLen writeAvailLen).Conforms readyMonitor {queueIdx}
      fun _ _ => True
  poll : cls.pollSelected.Conforms readyMonitor ∅ fun _ _ => True

/-! ### The console -/

/-- The program works on queues that it was given or has prepared. -/
def WorksOn {α : Type} (given : Set (Fin virtioQueueCount)) (p : Prog ServiceSig α) : Prop :=
  ∀ ready, given ⊆ ready → p.Conforms readyMonitor ready fun ready' _ => given ⊆ ready'

namespace WorksOn

variable {α β : Type} {given : Set (Fin virtioQueueCount)} {p p' : Prog ServiceSig α}

theorem pure (a : α) : WorksOn given (pure a) := fun _ h => h

theorem bind {f : α → Prog ServiceSig β} (hp : WorksOn given p) (hf : ∀ a, WorksOn given (f a)) :
    WorksOn given (p >>= f) :=
  fun ready h => conforms_bind.mpr ((hp ready h).mono fun ready' a h' => hf a ready' h')

theorem ite {c : Prop} [Decidable c] (hp : c → WorksOn given p) (hp' : ¬ c → WorksOn given p') :
    WorksOn given (if c then p else p') :=
  fun ready h => conforms_ite.mpr ⟨fun hc => hp hc ready h, fun hc => hp' hc ready h⟩

/-- No answer takes a queue away. -/
theorem ask {o : ServiceOp} (ho : ∀ ready, given ⊆ ready → readyMonitor.allows ready o) :
    WorksOn given (VirtioConsole.ask o) := by
  refine fun ready h => conforms_perform.mpr ⟨ho ready h, fun x => ?_⟩
  cases o with
  | prepareQueueWrite => exact fun i hi => .inl (h hi)
  | _ => exact h

end WorksOn

namespace VirtioConsole

variable {given : Set (Fin virtioQueueCount)}

theorem worksOn_askTty (function arg : Nat) : WorksOn given (askTty function arg) := .ask fun _ _ => trivial

theorem worksOn_notifyDeviceNeedsReset : WorksOn given notifyDeviceNeedsReset :=
  .bind (.ask fun _ _ => trivial) fun _ => .pure _

theorem worksOn_nextChars (n : Nat) : WorksOn given (nextChars n) := by
  induction n with
  | zero => exact .pure _
  | succ n ih => exact .bind (worksOn_askTty 3 0) fun _ => .bind ih fun _ => .pure _

theorem worksOn_osPutchars (chars : List Byte) : WorksOn given (osPutchars chars) := by
  induction chars with
  | nil => exact .pure _
  | cons c chars ih => exact .bind (worksOn_askTty 5 _) fun _ => ih

theorem worksOn_notifyConsoleSizeToGuest : WorksOn given notifyConsoleSizeToGuest := by
  refine .bind (.bind (worksOn_askTty 1 0) fun _ => .pure _) fun _ => .bind (.ask fun _ _ => trivial) fun _ => ?_
  exact .ite (fun _ => .pure _) fun _ => .bind (.ask fun _ _ => trivial) fun _ =>
    .bind (.ask fun _ _ => trivial) fun _ => .pure _

theorem worksOn_writeNextCharsToHost {queueIdx : Fin virtioQueueCount} {descIdx : BitVec 16}
    {readAvailLen off : BitVec 32} {rounds : Nat} {chunk : List Byte} :
    WorksOn {queueIdx} (writeNextCharsToHost queueIdx descIdx readAvailLen rounds off chunk) := by
  induction rounds generalizing off chunk with
  | zero => exact .pure _
  | succ rounds ih =>
    refine .ite (fun _ => .bind (.ask fun _ h => h rfl) fun read => ?_) fun _ => ?_
    · exact .ite (fun _ => .bind (worksOn_osPutchars _) fun _ => ih) fun _ => worksOn_notifyDeviceNeedsReset
    · exact .bind (.ask fun _ h => h rfl) fun _ => .ite (fun _ => .pure _) fun _ => worksOn_notifyDeviceNeedsReset

theorem worksOn_writeSlot (slot : WriteSlot) : WorksOn {virtioConsoleReceiveq} (writeSlot slot) := by
  refine .bind (.bind (worksOn_askTty 4 _) fun _ => worksOn_nextChars _) fun chunk =>
    .ite (fun _ => .pure _) fun _ => ?_
  refine .bind (.ask fun _ h => h rfl) fun _ => .ite (fun _ => worksOn_notifyDeviceNeedsReset) fun _ => ?_
  refine .bind (.ask fun _ h => h rfl) fun _ => .ite (fun _ => worksOn_notifyDeviceNeedsReset) fun _ => ?_
  exact .bind (.ask fun _ _ => trivial) fun _ => .pure _

/-- A queue that has room for characters was found to be in use. -/
theorem worksOn_writeNextCharsToGuest : WorksOn ∅ writeNextCharsToGuest := by
  refine .bind (.ask fun _ _ => trivial) fun _ => .ite (fun _ => .pure _) fun _ ready _ => ?_
  refine conforms_bind.mpr (conforms_perform.mpr ⟨trivial, fun (slot : WriteSlot) => ?_⟩)
  refine conforms_ite.mpr ⟨fun _ => worksOn_notifyDeviceNeedsReset _ (Set.empty_subset _), fun _ => ?_⟩
  refine conforms_ite.mpr ⟨fun _ => Set.empty_subset _, fun hroom => ?_⟩
  exact (worksOn_writeSlot slot _ fun i hi => .inr ⟨hi, hroom⟩).mono fun _ _ _ => Set.empty_subset _

theorem worksOn_writeCharsToGuest {rounds : Nat} {interruptRequested : Bool} :
    WorksOn ∅ (writeCharsToGuest rounds interruptRequested) := by
  induction rounds generalizing interruptRequested with
  | zero => exact .pure _
  | succ rounds ih => exact worksOn_writeNextCharsToGuest.bind fun _ => .ite (fun _ => ih) fun _ => .pure _

theorem worksOnReady_cls (rounds : Nat) : (cls rounds).WorksOnReady where
  queue queueIdx descIdx readAvailLen _ := by
    have hworks : WorksOn {queueIdx} (onDeviceQueueAvailable rounds queueIdx descIdx readAvailLen) :=
      .ite (fun _ => .pure _) fun _ => .ite (fun _ => worksOn_writeNextCharsToHost) fun _ =>
        worksOn_notifyDeviceNeedsReset
    exact (hworks _ subset_rfl).mono fun _ _ _ => trivial
  poll := by
    have hworks : WorksOn ∅ (pollSelected rounds) := by
      refine .bind (.ask fun _ _ => trivial) fun _ => .ite (fun _ => .pure _) fun _ => ?_
      refine .bind (.bind (worksOn_askTty 0 0) fun _ => .pure _) fun _ => .ite (fun _ => .pure _) fun _ => ?_
      refine worksOn_notifyConsoleSizeToGuest.bind fun _ => ?_
      refine .bind (.bind (worksOn_askTty 2 0) fun _ => .pure _) fun _ => ?_
      exact .ite (fun _ => worksOn_writeCharsToGuest) fun _ => .pure _
    exact (hworks _ subset_rfl).mono fun _ _ _ => trivial

end VirtioConsole

namespace VirtioDevice

/-- The device has the given queues and is of the given kind. -/
structure Tracked (queues : Queues) (cls : VirtioClass) (d : VirtioDevice) : Prop where
  rings : ∀ i, (queues i).SameRings (d.queue i)
  cls : d.cls = cls

variable {cls : VirtioClass} {d d' : VirtioDevice}

theorem Tracked.start : Tracked d.queue d.cls d := ⟨fun _ => ⟨_, rfl⟩, rfl⟩

theorem Tracked.of_queue (h : Tracked queues cls d) (hqueue : d'.queue = d.queue) (hcls : d'.cls = d.cls) :
    Tracked queues cls d' :=
  ⟨hqueue ▸ h.rings, hcls.trans h.cls⟩

variable {vq : Virtq}

theorem Tracked.setQueue (h : Tracked queues cls d) (hvq : (queues i).SameRings vq) :
    Tracked queues cls (d.setQueue i vq) := by
  refine ⟨fun j => ?_, h.cls⟩
  show (queues j).SameRings (update d.queue i vq j)
  by_cases hj : j = i
  · subst hj
    rwa [update_self]
  · rw [update_of_ne hj]
    exact h.rings j

theorem Tracked.ready (h : Tracked queues cls d) : (d.queue i).ready = (queues i).ready := by
  obtain ⟨n, hn⟩ := h.rings i
  rw [hn]

def QueuesHaveEntries (queues : Queues) : Prop := ∀ i, (queues i).ready = true → (queues i).num ≠ 0

theorem Tracked.usable (h : Tracked queues cls d) (hnum : QueuesHaveEntries queues)
    (hi : (queues i).ready = true) : Usable queues i (d.queue i) :=
  ⟨hi, hnum i hi, h.rings i⟩

theorem localConforms_setIrq {add : BitVec 32} :
    LocalConforms (ringMonitor queues) (Tracked queues cls) (setIrq add) := by
  refine LocalConforms.bind (.modify fun _ hd => hd.of_queue rfl rfl) fun _ => .get_bind fun d _ => ?_
  exact .ite (fun _ => .lift fun _ => conforms_perform.mpr ⟨trivial, fun _ => trivial⟩) fun _ => .pure _

theorem localConforms_notifyQueueUsed :
    LocalConforms (ringMonitor queues) (Tracked queues cls) notifyQueueUsed :=
  .get_bind fun _ _ => .ite (fun _ => localConforms_setIrq) fun _ => .pure _

theorem localConforms_notifyConfigChange :
    LocalConforms (ringMonitor queues) (Tracked queues cls) notifyConfigChange := by
  refine LocalConforms.bind (.modify fun _ hd => hd.of_queue rfl rfl) fun _ => .get_bind fun d _ => ?_
  exact .ite (fun _ => localConforms_setIrq) fun _ => .pure _

theorem localConforms_notifyDeviceNeedsReset :
    LocalConforms (ringMonitor queues) (Tracked queues cls) notifyDeviceNeedsReset :=
  LocalConforms.bind (.modify fun _ hd => hd.of_queue rfl rfl) fun _ => localConforms_notifyConfigChange

section QueuesHaveEntries
variable (hnum : QueuesHaveEntries queues)
include hnum

theorem localConforms_consumeQueue (hi : (queues i).ready = true) {descIdx : BitVec 16} {writtenLen : BitVec 32}
    {usedFlags : BitVec 16} : LocalConforms (ringMonitor queues) (Tracked queues cls)
      (consumeQueue i descIdx writtenLen usedFlags) := by
  refine .get_bind fun d hd => .lift_bind (fun _ => (hd.usable hnum hi).consumeDesc) fun r hr => ?_
  cases r with
  | none => exact .pure _
  | some vq => exact LocalConforms.bind (.modify fun d hd => hd.setQueue (hr vq rfl)) fun _ => .pure _

theorem conforms_prepareQueueWrite (hd : Tracked queues cls d) :
    (prepareQueueWrite fuel i d).Conforms (ringMonitor queues) seen fun _ r =>
      Tracked queues cls r.2 ∧ (r.1.writeAvailLen ≠ 0 → (queues i).ready = true) := by
  by_cases hi : (queues i).ready = true
  · have hconf : LocalConforms (ringMonitor queues) (Tracked queues cls) (prepareQueueWrite fuel i) := by
      refine .get_bind fun d hd => .ite (fun _ => .pure _) fun _ => ?_
      have husable := hd.usable hnum hi
      refine (LocalConforms.lift fun _ => husable.getAvailIdx).bind fun idx => ?_
      cases idx with
      | none => exact .pure _
      | some idx =>
        refine .ite (fun _ => .pure _) fun _ => ?_
        refine (LocalConforms.lift fun _ => husable.getRingAvailElemDescIdx).bind fun descIdx => ?_
        cases descIdx with
        | none => exact .pure _
        | some descIdx =>
          refine (LocalConforms.lift fun _ => husable.getDescRwAvailLenFrom).bind fun len => ?_
          exact .ite (fun _ => .pure _) fun _ => .pure _
    exact (hconf d seen hd).mono fun _ _ hr => ⟨hr, fun _ => hi⟩
  · have hidle : prepareQueueWrite fuel i d = pure (⟨true, 0, 0⟩, d) := by
      show (if !(d.queue i).ready then _ else _ : DProg WriteSlot) d = _
      rw [hd.ready, Bool.eq_false_iff.mpr hi]
      rfl
    rw [hidle]
    exact ⟨hd, fun hne => absurd rfl hne⟩

theorem conforms_service {o : ServiceOp} {ready : Set (Fin virtioQueueCount)} (ho : readyMonitor.allows ready o)
    (hready : ∀ i ∈ ready, (queues i).ready = true) (hd : Tracked queues cls d) :
    (service fuel o d).Conforms (ringMonitor queues) seen fun _ r =>
      Tracked queues cls r.2 ∧ ∀ i ∈ readyMonitor.next ready o r.1, (queues i).ready = true := by
  have hplain : ∀ {o : ServiceOp}, (∀ x, readyMonitor.next ready o x = ready) →
      LocalConforms (ringMonitor queues) (Tracked queues cls) (service fuel o) →
      (service fuel o d).Conforms (ringMonitor queues) seen fun _ r =>
        Tracked queues cls r.2 ∧ ∀ i ∈ readyMonitor.next ready o r.1, (queues i).ready = true := by
    intro o hnext hconf
    refine (hconf d seen hd).mono fun _ r hr => ⟨hr, ?_⟩
    rw [hnext]
    exact hready
  cases o with
  | driverOk => exact hplain (fun _ => rfl) (.get_bind fun _ _ => .pure _)
  | readDescMem queueIdx =>
    exact hplain (fun _ => rfl) (.get_bind fun d hd => .lift fun _ => (hd.usable hnum (hready _ ho)).readDescMem)
  | writeDescMem queueIdx =>
    exact hplain (fun _ => rfl) (.get_bind fun d hd => .lift fun _ => (hd.usable hnum (hready _ ho)).writeDescMem)
  | prepareQueueWrite queueIdx =>
    refine (conforms_prepareQueueWrite hnum hd).mono fun _ r hr => ⟨hr.1, ?_⟩
    rintro i (hi | ⟨rfl, hne⟩)
    · exact hready i hi
    · exact hr.2 hne
  | consumeQueue queueIdx => exact hplain (fun _ => rfl) (localConforms_consumeQueue hnum (hready _ ho))
  | notifyQueueUsed => exact hplain (fun _ => rfl) localConforms_notifyQueueUsed
  | notifyConfigChange => exact hplain (fun _ => rfl) localConforms_notifyConfigChange
  | notifyDeviceNeedsReset => exact hplain (fun _ => rfl) localConforms_notifyDeviceNeedsReset
  | getConfig => exact hplain (fun _ => rfl) (.get_bind fun _ _ => .pure _)
  | setConfig => exact hplain (fun _ => rfl) (.modify fun _ hd => hd.of_queue rfl rfl)
  | host =>
    exact hplain (fun _ => rfl) (.lift fun _ => conforms_perform.mpr ⟨trivial, fun _ => trivial⟩)

theorem conforms_serve {α : Type} {p : Prog ServiceSig α} {ready : Set (Fin virtioQueueCount)}
    (hp : p.Conforms readyMonitor ready fun _ _ => True) (hready : ∀ i ∈ ready, (queues i).ready = true)
    (hd : Tracked queues cls d) :
    (serve fuel p d).Conforms (ringMonitor queues) seen fun _ r => Tracked queues cls r.2 := by
  induction p generalizing ready d seen with
  | ret a => exact hd
  | call o k ih =>
    refine conforms_bind.mpr ((conforms_service hnum hp.1 hready hd).mono fun _ r hr => ?_)
    exact ih r.1 (hp.2 r.1) hr.2 hr.1

theorem localConforms_processQueue (hcls : cls.WorksOnReady) (hi : (queues i).ready = true)
    {lastAvailIdx : BitVec 16} {n : Nat} :
    LocalConforms (ringMonitor queues) (Tracked queues cls) (processQueue fuel i lastAvailIdx n) := by
  induction n with
  | zero => exact .lift fun _ => Usable.outOfFuel
  | succ n ih =>
    refine .get_bind fun d hd => .ite (fun _ => .pure _) fun _ => ?_
    have husable := hd.usable hnum hi
    refine (LocalConforms.lift fun _ => husable.getRingAvailElemDescIdx).bind fun descIdx => ?_
    cases descIdx with
    | none => exact localConforms_notifyDeviceNeedsReset
    | some descIdx =>
      refine (LocalConforms.lift fun _ => husable.getDescRwAvailLenFrom).bind fun len => ?_
      refine .ite (fun _ => ?_) fun _ => localConforms_notifyDeviceNeedsReset
      refine LocalConforms.bind (fun d' seen hd' => ?_) fun more => .ite (fun _ => ih) fun _ => .pure _
      rw [hd.cls]
      exact conforms_serve hnum (hcls.queue ..) (fun j hj => hj ▸ hi) hd'

theorem localConforms_onDeviceQueueNotify (hcls : cls.WorksOnReady) :
    LocalConforms (ringMonitor queues) (Tracked queues cls) (onDeviceQueueNotify fuel i) := by
  refine .get_bind fun d hd => .ite (fun hgo => ?_) fun _ => .pure _
  have hi : (queues i).ready = true := by
    rw [← hd.ready]
    exact (Bool.and_eq_true _ _ ▸ hgo).2
  refine (LocalConforms.lift fun _ => (hd.usable hnum hi).getAvailIdx).bind fun idx => ?_
  cases idx with
  | none => exact localConforms_notifyDeviceNeedsReset
  | some idx => exact localConforms_processQueue hnum hcls hi

end QueuesHaveEntries

/-! ## Devices that a driver can bring about -/

variable {ε σ : Type} {h : Handler BusSig ε σ} {d0 : VirtioDevice}

/-- The devices that writes to registers lead to, with the kind of the device at work in between. -/
inductive Reached (h : Handler BusSig ε σ) (fuel : Nat) (d0 : VirtioDevice) : VirtioDevice → Prop
  | start : Reached h fuel d0 d0
  | write {d d' : VirtioDevice} {w : MmioWrite} {s s' : σ} {status : ExecuteStatus} (hd : Reached h fuel d0 d)
    (hstep : (w.prog fuel d).run h s = .ok (status, d') s') : Reached h fuel d0 d'
  | work {d d' : VirtioDevice} {α : Type} {p : Prog ServiceSig α} {s s' : σ} {a : α} (hd : Reached h fuel d0 d)
    (hstep : (serve fuel p d).run h s = .ok (a, d') s') : Reached h fuel d0 d'

/-- The sizes of the queues have passed the check. -/
def NumsChecked (d : VirtioDevice) : Prop := ∀ i, (d.queue i).num ≤ virtioQueueNumMax

theorem NumsChecked.setQueue (hd : d.NumsChecked) (hvq : vq.num ≤ virtioQueueNumMax) :
    (d.setQueue i vq).NumsChecked := by
  intro j
  show (update d.queue i vq j).num ≤ _
  by_cases hj : j = i
  · subst hj
    rwa [update_self]
  · rw [update_of_ne hj]
    exact hd j

theorem keptByDriver_numsChecked : KeptByDriver h fun d _ => d.NumsChecked where
  bus _ _ _ _ hd _ _ _ := hd
  change _ hc hd := by
    cases hc with
    | consumed i => exact hd.setQueue (hd i)
    | config | generation | needsReset => exact hd
  setIrq {add} _ d s hd := by
    simp only [setIrq, localWlp_bind, localWlp_modify, localWlp_get, localWlp_ite, localWlp_liftM,
      localWlp_pure]
    exact ⟨fun _ _ _ _ => hd, fun _ => hd⟩
  setup _ hset hd := by
    cases hset with
    | config | select | driverFeatures => exact hd
    | queue i vq hvq =>
      refine hd.setQueue ?_
      rcases hvq.num with heq | hchecked
      · exact heq ▸ hd i
      · exact hchecked.1
  status _ _ _ hd := hd
  resetIrq rem d s hd := localWlp_resetIrq.mono fun _ d' _ hd' => hd' ▸ hd
  reset d s hd := localWlp_reset.mono fun _ d' _ hd' i => by
    rw [hd'.queue i]
    decide

theorem Reached.numsChecked (hr : Reached h fuel d0 d) (hd0 : d0.Initial) : d.NumsChecked := by
  induction hr with
  | start =>
    intro i
    rw [hd0.queue i]
    decide
  | @write d d' w s s' status _ hstep ih => exact keptByDriver_numsChecked.prog w d s ih _ _ hstep
  | @work d d' α p s s' a _ hstep ih => exact keptByDriver_numsChecked.serve p d s ih _ _ hstep

/-! ## Queues without entries -/

def allRegions (d : VirtioDevice) : List (Word × Nat) := (List.finRange virtioQueueCount).flatMap fun i =>
  (d.queue i).regions

theorem NumsChecked.region_le (hd : d.NumsChecked) {r : Word × Nat} (hr : r ∈ d.allRegions) : r.2 ≤ 2048 := by
  obtain ⟨i, -, hr⟩ := mem_flatMap.mp hr
  have hnum : (d.queue i).num.toNat ≤ 128 := le_def.mp (hd i)
  simp only [regions, mem_cons, not_mem_nil, or_false] at hr
  rcases hr with rfl | rfl | rfl <;> dsimp only <;> omega

/-- A region does not hold two entries that are far from each other. -/
theorem not_inside_of_lt {base a : Word} {size j k : Nat} (hsize : size ≤ 2048) (hjk : j < k) (hk : k < 7)
    (hinj : Inside base size (a + BitVec.ofNat 64 (16000 * j)) 16) :
    ¬ Inside base size (a + BitVec.ofNat 64 (16000 * k)) 16 := by
  have hoff : (a + BitVec.ofNat 64 (16000 * k) - base).toNat =
      ((a + BitVec.ofNat 64 (16000 * j) - base).toNat + 16000 * (k - j)) % 2 ^ 64 := by
    have hadd : a + BitVec.ofNat 64 (16000 * k) - base =
        a + BitVec.ofNat 64 (16000 * j) - base + BitVec.ofNat 64 (16000 * (k - j)) := by bv_omega
    rw [hadd, toNat_add, toNat_ofNat, mod_eq_of_lt (a := 16000 * (k - j)) (by omega)]
  unfold Inside at hinj ⊢
  rw [hoff, mod_eq_of_lt (by omega)]
  omega

/-- Not all entries of a large table lie in the regions of the queues. -/
theorem NumsChecked.exists_not_inside (hd : d.NumsChecked) (a : Word) :
    ∃ k < 7, ∀ r ∈ d.allRegions, ¬ Inside r.1 r.2 (a + BitVec.ofNat 64 (16000 * k)) 16 := by
  by_contra hno
  push Not at hno
  have hidx : ∀ k : Fin 7, ∃ j : Fin 6, Inside (d.allRegions.get j).1 (d.allRegions.get j).2
      (a + BitVec.ofNat 64 (16000 * k.val)) 16 := by
    intro k
    obtain ⟨r, hr, hin⟩ := hno k.val k.isLt
    obtain ⟨j, rfl⟩ := mem_iff_get.mp hr
    exact ⟨j, hin⟩
  choose f hf using hidx
  obtain ⟨j, k, hne, heq⟩ := Fintype.exists_ne_map_eq_of_card_lt f (by decide)
  have hsize : (d.allRegions.get (f j)).2 ≤ 2048 := hd.region_le (get_mem d.allRegions (f j))
  have hfk := hf k
  rw [← heq] at hfk
  rcases Nat.lt_or_gt_of_ne (Fin.val_ne_of_ne hne) with hlt | hgt
  · exact not_inside_of_lt hsize hlt k.isLt (hf j) hfk
  · exact not_inside_of_lt hsize hgt j.isLt hfk (hf j)

theorem toNat_ringOffset_of_num_zero (hnum : vq.num = 0) (idx : BitVec 16) :
    (vq.ringOffset idx).toNat = idx.toNat := by
  rw [ringOffset, hnum, show (0 : BitVec 32) - 1 = allOnes 32 by decide, and_allOnes,
    toNat_setWidth_of_le (by decide), toNat_setWidth_of_le (by decide)]

theorem fieldAt_toLE (v : BitVec 16) (bs : List Byte) :
    BitVec.ofNat 16 (fieldAt (bs ++ toLE 2 v.toNat) bs.length 2) = v := by
  rw [fieldAt, drop_left, take_of_length_le (by simp), ofLE_toLE,
    mod_eq_of_lt (show v.toNat < 256 ^ 2 from v.isLt), ofNat_toNat, setWidth_eq]

/-- An access that is not to an entry brings in no descriptor, and may have any answer. -/
theorem post_of_readMemory {paddr : Word} {length : Nat} (hlength : length ≠ 16)
    {post : Seen → Option (List Byte) → Prop}
    (hp : (readMemory paddr length).Conforms (ringMonitor queues) seen post) (answer : Option (List Byte)) :
    post seen answer := by
  have hnone : seenBy queues paddr length answer = ∅ :=
    Set.eq_empty_of_forall_notMem fun _ he => hlength he.2.1
  have hpost : post (seen ∪ seenBy queues paddr length answer) answer := (conforms_perform.mp hp).2 answer
  rwa [hnone, Set.union_empty] at hpost

theorem post_of_getAvailIdx {post : Seen → Option (BitVec 16) → Prop}
    (hp : vq.getAvailIdx.Conforms (ringMonitor queues) seen post) (idx : BitVec 16) : post seen (some idx) := by
  rw [← fieldAt_toLE idx (toLE 2 0)]
  exact post_of_readMemory (by decide) (conforms_bind.mp hp) (some (toLE 2 0 ++ toLE 2 idx.toNat))

theorem post_of_getRingAvailElemDescIdx {ringIdx : BitVec 16} {post : Seen → Option (BitVec 16) → Prop}
    (hp : (vq.getRingAvailElemDescIdx ringIdx).Conforms (ringMonitor queues) seen post) (idx : BitVec 16) :
    post seen (some idx) := by
  rw [← fieldAt_toLE idx []]
  exact post_of_readMemory (by decide) (conforms_bind.mp hp) (some (toLE 2 idx.toNat))

/-- A device that stays within its rings does so whatever descriptor guest memory sends it to. -/
theorem within_of_conforms (hok : d.driverOk = true) (hi : (d.queue i).ready = true)
    (hconf : (onDeviceQueueNotify 1 i d).Conforms (ringMonitor d.queue) ∅ fun _ _ => True) (descIdx : BitVec 16) :
    WithinRings d.queue ∅ ((d.queue i).descAddr + (d.queue i).ringOffset descIdx * 16) 16 := by
  have hgo : (d.driverOk && (d.queue i).ready) = true := by rw [hok, hi]; rfl
  have hne : (d.queue i).lastUsedIdx ≠ (d.queue i).lastUsedIdx + 1 := by bv_omega
  replace hconf : Conforms _ _ ((if d.driverOk && (d.queue i).ready then _ else _ : DProg Unit) d) _ := hconf
  rw [if_pos hgo] at hconf
  -- the driver makes one chain available, the one at `descIdx`
  have hprocess := post_of_getAvailIdx (conforms_liftM_bind.mp hconf) ((d.queue i).lastUsedIdx + 1)
  replace hprocess : Conforms _ _ ((if (d.queue i).lastUsedIdx = (d.queue i).lastUsedIdx + 1 then _ else _ :
    DProg Unit) d) _ := hprocess
  rw [if_neg hne] at hprocess
  have hdesc := post_of_getRingAvailElemDescIdx (conforms_liftM_bind.mp hprocess) descIdx
  have hwalk := conforms_bind.mp (conforms_bind.mp (conforms_liftM_bind.mp hdesc))
  exact (conforms_perform.mp hwalk).1

/-- The device stays within its rings, whatever guest memory holds and the host does. -/
structure Bounded (d : VirtioDevice) : Prop where
  notify : ∀ fuel i, (onDeviceQueueNotify fuel i d).Conforms (ringMonitor d.queue) ∅ fun _ _ => True
  poll : ∀ fuel, (serve fuel d.cls.pollSelected d).Conforms (ringMonitor d.queue) ∅ fun _ _ => True

/-- A device that is operational, after any sequence of writes, stays within the rings of its queues and the
buffers of their descriptors while it works on them, if and only if all queues in use have entries. -/
theorem bounded_iff (h : Handler BusSig ε σ) (fuel : Nat) (d0 d : VirtioDevice) (hd0 : d0.Initial)
    (hr : Reached h fuel d0 d) (hok : d.driverOk = true) (hcls : d.cls.WorksOnReady) :
    d.Bounded ↔ ∀ i, (d.queue i).ready = true → (d.queue i).num ≠ 0 := by
  constructor
  · intro hd i hi hnum
    obtain ⟨k, hk, hout⟩ := (hr.numsChecked hd0).exists_not_inside (d.queue i).descAddr
    obtain ⟨j, -, hin⟩ := within_of_conforms hok hi (hd.notify 1 i) (BitVec.ofNat 16 (1000 * k))
    have hoff : (d.queue i).ringOffset (BitVec.ofNat 16 (1000 * k)) * 16 = BitVec.ofNat 64 (16000 * k) := by
      refine eq_of_toNat_eq ?_
      rw [toNat_mul, toNat_ringOffset_of_num_zero hnum, toNat_ofNat, toNat_ofNat]
      show 1000 * k % 2 ^ 16 * 16 % 2 ^ 64 = 16000 * k % 2 ^ 64
      rw [mod_eq_of_lt (a := 1000 * k) (by omega), show 1000 * k * 16 = 16000 * k by omega]
    rw [hoff] at hin
    rcases hin with ⟨r, hr', hin⟩ | ⟨desc, hdesc, -⟩
    · exact hout r (mem_flatMap.mpr ⟨j, mem_finRange j, hr'⟩) hin
    · exact hdesc.elim
  · intro hnum
    refine ⟨fun fuel i => ?_, fun fuel => ?_⟩
    · exact (localConforms_onDeviceQueueNotify hnum hcls d ∅ .start).mono fun _ _ _ => trivial
    · exact (conforms_serve hnum hcls.poll (fun _ hi => hi.elim) .start).mono fun _ _ _ => trivial

/-! ## A queue in use, with and without entries -/

open Interpret (RunState busAccess doReadMemory)

def queue0 : Fin virtioQueueCount := ⟨0, Nat.zero_lt_two⟩
def queue1 : Fin virtioQueueCount := ⟨1, Nat.one_lt_two⟩

theorem eq_queue0_or_queue1 : ∀ i, i = queue0 ∨ i = queue1 := by decide

/-- A console that has a queue with eight entries. -/
theorem bounded_eight : ∃ d, Reached busAccess 2 (virtioConsole 0 2) d ∧ d.driverOk = true ∧
      (d.queue queue0).ready = true ∧ d.Bounded := by
  have hd : ∃ d, Reached busAccess 2 (virtioConsole 0 2) d ∧ d.driverOk = true ∧ d.cls = VirtioConsole.cls 2 ∧
      (d.queue queue0).ready = true ∧ ∀ i, (d.queue i).ready = true → (d.queue i).num ≠ 0 :=
    ⟨_, .write (w := ⟨virtioMmioStatus, 4, .u32⟩) (s := .small []) (.write (w := ⟨0x044, 1, .u32⟩) (s := .small [])
      (.write (w := ⟨0x038, 8, .u32⟩) (s := .small []) .start rfl) rfl) rfl, rfl, rfl, rfl, by decide⟩
  obtain ⟨d, hr, hok, hcls, h0, hnum⟩ := hd
  have hworks : d.cls.WorksOnReady := hcls ▸ VirtioConsole.worksOnReady_cls 2
  exact ⟨d, hr, hok, h0, (bounded_iff _ 2 _ d (initial_make ..) hr hok hworks).mpr hnum⟩

/-- The first descriptor that a device reads after a notification. -/
theorem asked_firstDesc {s s1 s2 : σ} {idx descIdx : BitVec 16} (hok : d.driverOk = true)
    (hi : (d.queue i).ready = true) (havail : (d.queue i).getAvailIdx.run h s = .ok (some idx) s1)
    (hne : (d.queue i).lastUsedIdx ≠ idx)
    (helem : ((d.queue i).getRingAvailElemDescIdx (d.queue i).lastUsedIdx).run h s1 = .ok (some descIdx) s2) :
    (onDeviceQueueNotify (fuel + 1) i d).Asked h s
      (.readMemory ((d.queue i).descAddr + (d.queue i).ringOffset descIdx * 16) 16) s2 := by
  have hgo : (d.driverOk && (d.queue i).ready) = true := by rw [hok, hi]; rfl
  show Asked h ((if d.driverOk && (d.queue i).ready then _ else _ : DProg Unit) d) s _ s2
  rw [if_pos hgo]
  refine .of_liftM havail ?_
  show Asked h ((if (d.queue i).lastUsedIdx = idx then _ else _ : DProg Unit) d) s1 _ s2
  rw [if_neg hne]
  refine .of_liftM helem (Asked.bind_left (Asked.bind_left ?_))
  exact .inl ⟨rfl, rfl⟩

theorem run_readMemory {paddr : Word} {length : Nat} :
    (readMemory paddr length).run busAccess m = .ok (doReadMemory m paddr length) m :=
  congrFun (run_perform busAccess (.readMemory paddr length)) m

theorem run_getAvailIdx {bs : List Byte} (hread : doReadMemory m vq.availAddr 4 = some bs) :
    vq.getAvailIdx.run busAccess m = .ok (some (BitVec.ofNat 16 (fieldAt bs 2 2))) m := by
  rw [getAvailIdx, run_bind, EStateM.bind_of_ok run_readMemory, hread]
  rfl

theorem run_getRingAvailElemDescIdx {ringIdx : BitVec 16} {bs : List Byte}
    (hread : doReadMemory m (vq.availAddr + 4 + vq.ringOffset ringIdx * 2) 2 = some bs) :
    (vq.getRingAvailElemDescIdx ringIdx).run busAccess m =
      .ok (some (BitVec.ofNat 16 (fieldAt bs 0 2))) m := by
  rw [getRingAvailElemDescIdx, run_bind, EStateM.bind_of_ok run_readMemory, hread]
  rfl

/-- A machine whose guest memory has an available ring with the chain 5. -/
def ringMachine : RunState :=
  let m := RunState.small []
  m.withState (m.s.setMem (writeBytes m.s.mem 0x80000800 [0, 0, 1, 0, 5, 0]))

/-- A queue in use that was given no size. -/
def emptyQueue : Virtq :=
  { Virtq.zero with descAddr := 0x80000000, availAddr := 0x80000800, usedAddr := 0x80000900, ready := true }

/-- The driver puts a queue into use without giving it a size. The first descriptor that the device reads is
beyond its table, which has no entries. -/
theorem bounded_no_entries : ∃ d, Reached busAccess 2 (virtioConsole 0 2) d ∧
      (onDeviceQueueNotify 2 queue0 d).Asked busAccess ringMachine (.readMemory 0x80000050 16) ringMachine ∧
      ¬ WithinRings d.queue ∅ 0x80000050 16 := by
  have hd : ∃ d, Reached busAccess 2 (virtioConsole 0 2) d ∧ d.driverOk = true ∧ d.queue queue0 = emptyQueue ∧
      d.queue queue1 = Virtq.zero :=
    ⟨_, .write (w := ⟨virtioMmioStatus, 4, .u32⟩) (s := ringMachine)
      (.write (w := ⟨0x044, 1, .u32⟩) (s := ringMachine)
      (.write (w := ⟨0x0a0, 0x80000900, .u32⟩) (s := ringMachine)
      (.write (w := ⟨0x090, 0x80000800, .u32⟩) (s := ringMachine)
      (.write (w := ⟨0x080, 0x80000000, .u32⟩) (s := ringMachine) .start rfl) rfl) rfl) rfl) rfl, rfl, rfl, rfl⟩
  obtain ⟨d, hr, hok, hq, hq'⟩ := hd
  refine ⟨d, hr, ?_, ?_⟩
  · have havail : (d.queue queue0).getAvailIdx.run busAccess ringMachine = .ok (some 1) ringMachine := by
      rw [hq]
      exact run_getAvailIdx (show _ = some [0, 0, 1, 0] by decide)
    have helem : ((d.queue queue0).getRingAvailElemDescIdx (d.queue queue0).lastUsedIdx).run busAccess ringMachine =
        .ok (some 5) ringMachine := by
      rw [hq]
      exact run_getRingAvailElemDescIdx (show _ = some [5, 0] by decide)
    have hasked : (onDeviceQueueNotify (1 + 1) queue0 d).Asked busAccess ringMachine _ ringMachine :=
      asked_firstDesc hok (by rw [hq]; rfl) havail (by rw [hq]; decide) helem
    rw [hq] at hasked
    exact hasked
  · rintro ⟨i, hready, ⟨r, hr, hin⟩ | ⟨desc, hdesc, -⟩⟩
    · rcases eq_queue0_or_queue1 i with rfl | rfl
      · -- a region of six bytes at most has no room for a descriptor
        have hsmall : ∀ r ∈ emptyQueue.regions, r.2 ≤ 6 := by decide
        rw [hq] at hr
        have hle : (0x80000050 - r.1 : Word).toNat + 16 ≤ r.2 := hin
        have := hsmall r hr
        omega
      · rw [hq'] at hready
        exact absurd hready (by decide)
    · exact hdesc.elim

end VirtioDevice

end MachineEmulator.Virtio
