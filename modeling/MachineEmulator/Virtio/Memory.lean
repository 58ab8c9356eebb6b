import MachineEmulator.Virtio.RingBounds

/-!
# Guest memory as a device sees it

A bus gives a device memory that is made of bytes, of which some places can be read and some can be written.

* `MemoryView`, `MemoryView.Serves` : what a bus shows of its memory, and that its operations act on it;
* `MemoryView.Chain` : the descriptors of a chain in memory, from its head to its end;
* `chainAddrs` : the addresses of the buffers of a chain, in order;
* `MemoryView.Serves.chain_of_accepted` : the lengths that are reported for a chain are those of its buffers.
-/

namespace MachineEmulator.Virtio

open List EStateM VirtqDesc Virtq Option

variable {ε σ : Type} {h : Handler BusSig ε σ}

/-! ## Memory of bytes -/

def addrsFrom (paddr : Word) (length : Nat) : List Word :=
  (List.range length).map fun i => paddr + BitVec.ofNat 64 i

theorem length_addrsFrom (paddr : Word) (length : Nat) : (addrsFrom paddr length).length = length := by
  rw [addrsFrom, length_map, length_range]

variable {paddr : Word} {length : Nat} {write : Bool} {desc : VirtqDesc} {ds : List VirtqDesc}

theorem getElem_addrsFrom {i : Nat} (hi : i < (addrsFrom paddr length).length) :
    (addrsFrom paddr length)[i] = paddr + BitVec.ofNat 64 i := by
  simp [addrsFrom]

theorem mem_addrsFrom {a : Word} :
    a ∈ addrsFrom paddr length ↔ ∃ i < length, paddr + BitVec.ofNat 64 i = a := by
  simp [addrsFrom]

theorem take_drop_addrsFrom {k n : Nat} :
    ((addrsFrom paddr length).drop k).take n = addrsFrom (paddr + BitVec.ofNat 64 k) (min n (length - k)) := by
  refine ext_getElem ?_ fun i hi hi' => ?_
  · rw [length_take, length_drop, length_addrsFrom, length_addrsFrom]
  · rw [getElem_take, getElem_drop, getElem_addrsFrom, getElem_addrsFrom, BitVec.ofNat_add,
      BitVec.add_assoc]

/-- The memory that a bus shows in its states, those that are valid. -/
structure MemoryView (σ : Type) where
  valid : σ → Prop
  byte : σ → Word → Byte
  readable : σ → Word → Nat → Bool
  writable : σ → Word → Nat → Bool

namespace MemoryView

/-- The bytes `data` were stored at `paddr`, and nothing else has changed. -/
structure Stored (V : MemoryView σ) (s : σ) (paddr : Word) (data : List Byte) (s' : σ) : Prop where
  valid : V.valid s'
  readable : V.readable s' = V.readable s
  writable : V.writable s' = V.writable s
  inside : (addrsFrom paddr data.length).map (V.byte s') = data
  outside : ∀ a ∉ addrsFrom paddr data.length, V.byte s' a = V.byte s a

/-- The operations of the bus read and write the memory that it shows. The length of an access is a word. -/
structure Serves (V : MemoryView σ) (h : Handler BusSig ε σ) : Prop where
  read : ∀ {s paddr length}, V.valid s → 0 < length → length < 2 ^ 32 → (readMemory paddr length).run h s =
    .ok (if V.readable s paddr length then some ((addrsFrom paddr length).map (V.byte s)) else none) s
  write : ∀ {s paddr data}, V.valid s → data ≠ [] → data.length < 2 ^ 32 →
    V.writable s paddr data.length = true →
    ∃ s', (writeMemory paddr data).run h s = .ok true s' ∧ V.Stored s paddr data s'
  write_refused : ∀ {s paddr data}, V.valid s → data ≠ [] → data.length < 2 ^ 32 →
    V.writable s paddr data.length = false → (writeMemory paddr data).run h s = .ok false s

end MemoryView

/-! ## Buffers -/

namespace VirtqDesc

def isWrite (desc : VirtqDesc) : Bool := desc.flags &&& virtqDescFWrite ≠ 0

def hasNext (desc : VirtqDesc) : Bool := desc.flags &&& virtqDescFNext ≠ 0

theorem isWrite_iff : desc.isWrite = true ↔ desc.flags &&& virtqDescFWrite ≠ 0 :=
  decide_eq_true_iff

theorem isWrite_eq_false_iff : desc.isWrite = false ↔ desc.flags &&& virtqDescFWrite = 0 := by
  rw [← Bool.not_eq_true, isWrite_iff, not_not]

theorem hasNext_iff : desc.hasNext = true ↔ desc.flags &&& virtqDescFNext ≠ 0 :=
  decide_eq_true_iff

theorem hasNext_eq_false_iff : desc.hasNext = false ↔ desc.flags &&& virtqDescFNext = 0 := by
  rw [← Bool.not_eq_true, hasNext_iff, not_not]

def addrs (desc : VirtqDesc) : List Word := addrsFrom desc.paddr desc.len.toNat

end VirtqDesc

/-- The addresses of the buffers of one direction, in order. -/
def chainAddrs (write : Bool) (ds : List VirtqDesc) : List Word :=
  (ds.filter fun desc => desc.isWrite = write).flatMap VirtqDesc.addrs

theorem chainAddrs_cons_of_eq (hw : desc.isWrite = write) :
    chainAddrs write (desc :: ds) = desc.addrs ++ chainAddrs write ds := by
  rw [chainAddrs, List.filter_cons_of_pos (by simpa using hw), flatMap_cons, chainAddrs]

theorem chainAddrs_cons_of_ne (hw : desc.isWrite ≠ write) :
    chainAddrs write (desc :: ds) = chainAddrs write ds := by
  rw [chainAddrs, List.filter_cons_of_neg (by simpa using hw), chainAddrs]

/-- The length that a descriptor adds to that of its direction. -/
theorem ofNat_length_chainAddrs_cons : BitVec.ofNat 32 (chainAddrs write (desc :: ds)).length =
      (if desc.isWrite = write then desc.len else 0) + BitVec.ofNat 32 (chainAddrs write ds).length := by
  by_cases hw : desc.isWrite = write
  · rw [if_pos hw, chainAddrs_cons_of_eq hw, length_append, addrs, length_addrsFrom,
      BitVec.ofNat_add, BitVec.ofNat_toNat, BitVec.setWidth_eq]
  · rw [if_neg hw, chainAddrs_cons_of_ne hw]
    exact (BitVec.zero_add _).symm

/-! ## Chains -/

namespace MemoryView

variable {V : MemoryView σ} {s s' : σ} {vq : Virtq} {fuel : Nat} {idx : BitVec 16} {desc : VirtqDesc}
  {ds : List VirtqDesc}

/-- The address of the descriptor with an index. -/
def descPaddr (vq : Virtq) (idx : BitVec 16) : Word := vq.descAddr + vq.ringOffset idx * 16

/-- The descriptor that memory holds at an index, if it can be read. -/
def descAt (V : MemoryView σ) (s : σ) (vq : Virtq) (idx : BitVec 16) : Option VirtqDesc :=
  if V.readable s (descPaddr vq idx) 16 then
    some (Virtq.descOfBytes ((addrsFrom (descPaddr vq idx) 16).map (V.byte s)))
  else none

theorem Serves.run_getDesc (hV : V.Serves h) (hs : V.valid s) :
    (vq.getDesc idx).run h s = .ok (V.descAt s vq idx) s := by
  rw [getDesc, Prog.run_bind_of_ok h (hV.read hs (show 0 < 16 by decide) (by decide)), descAt, descPaddr]
  cases V.readable s (vq.descAddr + vq.ringOffset idx * 16) 16 <;> rfl

/-- The addresses of the descriptors that an index can name. -/
def tableAddrs (vq : Virtq) : Set Word := { a | ∃ idx, a ∈ addrsFrom (descPaddr vq idx) 16 }

/-- Bytes that are stored away from the table leave the descriptors as they are. -/
theorem Stored.descAt_eq {data : List Byte} (hst : V.Stored s paddr data s')
    (haway : ∀ a ∈ addrsFrom paddr data.length, a ∉ tableAddrs vq) : V.descAt s' vq = V.descAt s vq := by
  funext idx
  have hbytes : (addrsFrom (descPaddr vq idx) 16).map (V.byte s') = (addrsFrom (descPaddr vq idx) 16).map (V.byte s) :=
    map_congr_left fun a ha => hst.outside a fun hin => haway a hin ⟨idx, ha⟩
  rw [descAt, descAt, hst.readable, hbytes]

theorem Serves.run_getDesc_bind (hV : V.Serves h) (hs : V.valid s) {α : Type} {f : Option VirtqDesc → BProg α} :
    (vq.getDesc idx >>= f).run h s = (f (V.descAt s vq idx)).run h s :=
  Prog.run_bind_of_ok h (hV.run_getDesc hs)

/-- The descriptors of a chain, from an index on. -/
inductive Chain (V : MemoryView σ) (s : σ) (vq : Virtq) : BitVec 16 → List VirtqDesc → Prop
  | last {idx : BitVec 16} {desc : VirtqDesc} (hdesc : V.descAt s vq idx = some desc)
    (hend : desc.hasNext = false) : Chain V s vq idx [desc]
  | cons {idx : BitVec 16} {desc : VirtqDesc} {ds : List VirtqDesc} (hdesc : V.descAt s vq idx = some desc)
    (hnext : desc.hasNext = true) (hrest : Chain V s vq desc.next ds) : Chain V s vq idx (desc :: ds)

theorem Chain.head (hc : V.Chain s vq idx ds) : ∃ desc tail, ds = desc :: tail ∧ V.descAt s vq idx = some desc ∧
    (desc.hasNext = false ∧ tail = [] ∨ desc.hasNext = true ∧ V.Chain s vq desc.next tail) := by
  cases hc with
  | last hdesc hend => exact ⟨_, _, rfl, hdesc, .inl ⟨hend, rfl⟩⟩
  | cons hdesc hnext hrest => exact ⟨_, _, rfl, hdesc, .inr ⟨hnext, hrest⟩⟩

theorem Chain.congr (hc : V.Chain s vq idx ds) (heq : V.descAt s' vq = V.descAt s vq) : V.Chain s' vq idx ds := by
  induction hc with
  | last hdesc hend => exact .last ((congrFun heq _).trans hdesc) hend
  | cons hdesc hnext _ ih => exact .cons ((congrFun heq _).trans hdesc) hnext ih

theorem Chain.unique (hc : V.Chain s vq idx ds) {ds' : List VirtqDesc} (hc' : V.Chain s vq idx ds') : ds = ds' := by
  induction hc generalizing ds' with
  | last hdesc hend =>
    cases hc' with
    | last hdesc' _ => rw [some.inj (hdesc.symm.trans hdesc')]
    | cons hdesc' hnext _ =>
      obtain rfl := some.inj (hdesc.symm.trans hdesc')
      exact absurd hnext (ne_true_of_eq_false hend)
  | cons hdesc hnext _ ih =>
    cases hc' with
    | last hdesc' hend =>
      obtain rfl := some.inj (hdesc.symm.trans hdesc')
      exact absurd hnext (ne_true_of_eq_false hend)
    | cons hdesc' _ hrest =>
      obtain rfl := some.inj (hdesc.symm.trans hdesc')
      rw [ih hrest]

theorem run_outOfFuel_ne {α : Type} {a : α} : (outOfFuel : BProg α).run h s ≠ .ok a s' := by
  intro hrun
  obtain ⟨x, -⟩ := bind_ok_iff.mp hrun
  exact x.elim

/-- The walk over a chain that is accepted has met all its descriptors and added up their lengths. -/
theorem Serves.chain_of_acceptedFrom (hV : V.Serves h) (hs : V.valid s) {readLen writeLen : BitVec 32}
    {writePart : Bool} {r : AvailLen}
    (hrun : (vq.getDescRwAvailLenFrom fuel idx readLen writeLen writePart).run h s = .ok r s') (hok : r.ok = true) :
    ∃ ds, V.Chain s vq idx ds ∧ ds.length ≤ fuel ∧
      r.readLen = readLen + BitVec.ofNat 32 (chainAddrs false ds).length ∧
      r.writeLen = writeLen + BitVec.ofNat 32 (chainAddrs true ds).length := by
  induction fuel generalizing idx readLen writeLen writePart with
  | zero => exact absurd hrun run_outOfFuel_ne
  | succ fuel ih =>
    rw [getDescRwAvailLenFrom, hV.run_getDesc_bind hs] at hrun
    cases hdesc : V.descAt s vq idx with
    | none =>
      rw [hdesc] at hrun
      obtain ⟨rfl, -⟩ := pure_ok_iff.mp hrun
      exact absurd hok Bool.false_ne_true
    | some desc =>
      rw [hdesc] at hrun
      change Prog.run h (if !desc.isWrite && writePart then _ else _) s = _ at hrun
      split at hrun
      · obtain ⟨rfl, -⟩ := pure_ok_iff.mp hrun
        exact absurd hok Bool.false_ne_true
      · -- what the descriptor adds to the two lengths
        have hadd : ∀ tail : List VirtqDesc,
            (if desc.isWrite then readLen else readLen + desc.len) + BitVec.ofNat 32 (chainAddrs false tail).length =
              readLen + BitVec.ofNat 32 (chainAddrs false (desc :: tail)).length ∧
            (if desc.isWrite then writeLen + desc.len else writeLen) + BitVec.ofNat 32 (chainAddrs true tail).length =
              writeLen + BitVec.ofNat 32 (chainAddrs true (desc :: tail)).length := by
          intro tail
          rw [ofNat_length_chainAddrs_cons, ofNat_length_chainAddrs_cons]
          cases desc.isWrite <;> simp [BitVec.add_assoc]
        change Prog.run h (if desc.flags &&& virtqDescFNext = 0 then _ else _) s = _ at hrun
        by_cases hend : desc.flags &&& virtqDescFNext = 0
        · rw [if_pos hend] at hrun
          obtain ⟨rfl, -⟩ := pure_ok_iff.mp hrun
          obtain ⟨hr, hw⟩ := hadd []
          refine ⟨[desc], .last hdesc (hasNext_eq_false_iff.mpr hend), Nat.le_add_left _ _, ?_, ?_⟩
          · rw [← hr]
            exact (BitVec.add_zero _).symm
          · rw [← hw]
            exact (BitVec.add_zero _).symm
        · rw [if_neg hend] at hrun
          obtain ⟨ds, hc, hlen, hr, hw⟩ := ih hrun
          exact ⟨desc :: ds, .cons hdesc (hasNext_iff.mpr hend) hc, Nat.succ_le_succ hlen,
            hr.trans (hadd ds).1, hw.trans (hadd ds).2⟩

/-- The lengths that are reported for a chain are those of its buffers, if they fit. -/
theorem Serves.chain_of_accepted (hV : V.Serves h) (hs : V.valid s) {r : AvailLen}
    (hrun : (vq.getDescRwAvailLen fuel idx).run h s = .ok r s') (hok : r.ok = true) (hc : V.Chain s vq idx ds)
    (hlen : (chainAddrs false ds).length + (chainAddrs true ds).length < 2 ^ 32) :
    ds.length ≤ fuel ∧ r.readLen.toNat = (chainAddrs false ds).length ∧
      r.writeLen.toNat = (chainAddrs true ds).length := by
  obtain ⟨ds', hc', hfuel, hr, hw⟩ := hV.chain_of_acceptedFrom hs hrun hok
  obtain rfl := hc.unique hc'
  rw [hr.trans (BitVec.zero_add _), hw.trans (BitVec.zero_add _), BitVec.toNat_ofNat, BitVec.toNat_ofNat]
  exact ⟨hfuel, Nat.mod_eq_of_lt (by omega), Nat.mod_eq_of_lt (by omega)⟩

end MemoryView

end MachineEmulator.Virtio
