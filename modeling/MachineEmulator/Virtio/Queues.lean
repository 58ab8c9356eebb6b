import MachineEmulator.Virtio.Device

/-!
# What the walks over virtqueues ask for

Queues live in guest memory: the walks over their descriptors read and write it, and never touch the
interrupt line of the device.
-/

namespace MachineEmulator.Virtio

open BusOp

/-- The operations that do not touch the interrupt line. -/
def BusOp.KeepsIrq : BusOp → Prop
  | .setPendingIrq _ | .resetPendingIrq _ => False
  | _ => True

variable {α : Type} {vq : Virtq} {fuel : Nat}

theorem asks_readMemory {paddr : Word} {length : Nat} : (readMemory paddr length).Asks KeepsIrq :=
  .perform trivial

theorem asks_writeMemory {paddr : Word} {data : List Byte} : (writeMemory paddr data).Asks KeepsIrq :=
  .perform trivial

theorem asks_outOfFuel : (outOfFuel : BProg α).Asks KeepsIrq := ⟨trivial, fun x => x.elim⟩

theorem asks_bind_option {β : Type} {p : BProg (Option β)} {f : Option β → BProg α}
    (hp : p.Asks KeepsIrq) (hnone : (f none).Asks KeepsIrq)
    (hsome : ∀ b, (f (some b)).Asks KeepsIrq) : (p >>= f).Asks KeepsIrq := by
  refine hp.bind fun r => ?_
  cases r with
  | none => exact hnone
  | some b => exact hsome b

namespace Virtq

theorem asks_getAvailIdx : vq.getAvailIdx.Asks KeepsIrq :=
  asks_bind_option asks_readMemory (.pure _) fun _ => .pure _

theorem asks_getRingAvailElemDescIdx {ringIdx : BitVec 16} :
    (vq.getRingAvailElemDescIdx ringIdx).Asks KeepsIrq :=
  asks_bind_option asks_readMemory (.pure _) fun _ => .pure _

variable {descIdx : BitVec 16} {startOff : BitVec 32} {data : List Byte}

theorem asks_getDesc : (vq.getDesc descIdx).Asks KeepsIrq :=
  asks_bind_option asks_readMemory (.pure _) fun _ => .pure _

theorem asks_getDescRwAvailLenFrom {readLen writeLen : BitVec 32} {writePart : Bool} :
    (vq.getDescRwAvailLenFrom fuel descIdx readLen writeLen writePart).Asks KeepsIrq := by
  induction fuel generalizing descIdx readLen writeLen writePart with
  | zero => exact asks_outOfFuel
  | succ fuel ih =>
    refine asks_bind_option asks_getDesc (.pure _) fun desc => ?_
    exact .ite (fun _ => .pure _) fun _ => .ite (fun _ => .pure _) fun _ => ih

theorem asks_readDescMemFrom {endOff : BitVec 32} {bufStartOff : BitVec 32} :
    (vq.readDescMemFrom startOff endOff fuel descIdx bufStartOff data).Asks KeepsIrq := by
  induction fuel generalizing descIdx bufStartOff data with
  | zero => exact asks_outOfFuel
  | succ fuel ih =>
    refine asks_bind_option asks_getDesc (.pure _) fun desc => ?_
    refine .ite (fun _ => .ite (fun _ => ?_) fun _ => .ite (fun _ => .pure _) fun _ => ?_) fun _ => ?_
    · refine asks_bind_option asks_readMemory (.pure _) fun bs => ?_
      exact .ite (fun _ => .pure _) fun _ => .ite (fun _ => .pure _) fun _ => ih
    · exact .ite (fun _ => .pure _) fun _ => ih
    · exact .ite (fun _ => .pure _) fun _ => ih

theorem asks_readDescMem : (vq.readDescMem fuel descIdx startOff data).Asks KeepsIrq :=
  .ite (fun _ => .pure _) fun _ => asks_readDescMemFrom

theorem asks_writeDescMemFrom {endOff : BitVec 32} {bufStartOff : BitVec 32} :
    (vq.writeDescMemFrom startOff endOff data fuel descIdx bufStartOff).Asks KeepsIrq := by
  induction fuel generalizing descIdx bufStartOff with
  | zero => exact asks_outOfFuel
  | succ fuel ih =>
    refine asks_bind_option asks_getDesc (.pure _) fun desc => ?_
    refine .ite (fun _ => .ite (fun _ => ?_) fun _ => .ite (fun _ => .pure _) fun _ => ?_) fun _ => ?_
    · refine asks_writeMemory.bind fun ok => .ite (fun _ => ?_) fun _ => .pure _
      exact .ite (fun _ => .pure _) fun _ => .ite (fun _ => .pure _) fun _ => ih
    · exact .ite (fun _ => .pure _) fun _ => ih
    · exact .ite (fun _ => .pure _) fun _ => ih

theorem asks_writeDescMem : (vq.writeDescMem fuel descIdx startOff data).Asks KeepsIrq :=
  .ite (fun _ => .pure _) fun _ => asks_writeDescMemFrom

theorem asks_consumeDesc {writtenLen : BitVec 32} {usedFlags : BitVec 16} :
    (vq.consumeDesc descIdx writtenLen usedFlags).Asks KeepsIrq := by
  refine asks_writeMemory.bind fun ok => .ite (fun _ => ?_) fun _ => .pure _
  exact asks_writeMemory.bind fun ok => .ite (fun _ => .pure _) fun _ => .pure _

end Virtq

end MachineEmulator.Virtio
