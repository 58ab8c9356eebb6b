import MachineEmulator.Interpret.HostVirtualMemory
import MachineEmulator.Virtio.ScatterGather

/-!
# The memory of a machine, as its devices see it

* `guestMemory` : the bytes behind the physical addresses of a machine whose ranges do not overlap, and where an access
  can read and write;
* `serves_guestMemory` : the accessor of a device reads and writes this memory;
* `transfer_exact` : what a device transfers to and from the buffers of a chain.
-/

namespace MachineEmulator.Interpret

open List PmaEntry BitVec

open Virtio (MemoryView addrsFrom mem_addrsFrom)
open Host (rangeAt rangeAt_spec wholePages_of_mem)

variable {m : RunState} {paddr : Word} {n : Nat} {q : PmaEntry}

/-! ## The range of an access -/

/-- The ranges of the machine do not overlap. -/
def RunState.Apart (m : RunState) : Prop := (merkleRanges m.ranges).Pairwise PmaEntry.Disjoint

theorem RunState.Apart.rangeAt_of_mem (hm : m.Apart) {a : Nat} (hq : q ∈ merkleRanges m.ranges) (ha : q.Mem a) :
    rangeAt m a = some q := by
  cases hf : rangeAt m a with
  | none => exact absurd (decide_eq_true ha) (List.find?_eq_none.mp hf q hq)
  | some q' =>
    obtain ⟨hq', ha'⟩ := rangeAt_spec hf
    have : Std.Symm PmaEntry.Disjoint := ⟨fun _ _ h => h.symm⟩
    by_contra hne
    exact (hm.forall hq' hq fun h => hne (congrArg some h)).not_mem ha' ha

theorem range_end_le (hq : q ∈ merkleRanges m.ranges) : q.start.toNat + q.length.toNat ≤ 2 ^ 64 := by
  have hw := wholePages_of_mem hq
  simp only [merkleRanges, RunState.ranges, mem_append, mem_mapIdx, List.mem_cons, not_mem_nil,
    or_false] at hq
  rcases hq with (hq | ⟨i, hi, rfl⟩) | rfl | rfl
  · exact le_trans (m.s.board.wellFormed.paged q hq).end_le (by decide)
  · -- a page that starts at a multiple of its size
    have hmod := hw.start_mod
    have hlen : (virtioPma i m.vdevs[i].cls.kind).length.toNat = 4096 := rfl
    simp only [pmaPageSize] at *
    omega
  · decide
  · decide

/-- What an access finds: a range that shows all its bytes. -/
theorem RunState.Apart.found (hm : m.Apart) (hn : n < 2 ^ 32)
    (hf : (m.findMerkleRange paddr (BitVec.ofNat 64 n)).istartE = false) :
    m.findMerkleRange paddr (BitVec.ofNat 64 n) ∈ merkleRanges m.ranges ∧
      (m.findMerkleRange paddr (BitVec.ofNat 64 n)).contains paddr (BitVec.ofNat 64 n) = true ∧
      ∀ i < n, (paddr + BitVec.ofNat 64 i).toNat = paddr.toNat + i ∧
        rangeAt m (paddr.toNat + i) = some (m.findMerkleRange paddr (BitVec.ofNat 64 n)) := by
  rw [RunState.findMerkleRange] at hf ⊢
  have hlen : (findPmaEntry (merkleRanges m.ranges) paddr (BitVec.ofNat 64 n)).length ≠ 0 := by
    rw [findPmaEntry_eq_find?] at hf ⊢
    cases h : (merkleRanges m.ranges).find? fun p => p.length = 0 || p.contains paddr (BitVec.ofNat 64 n) with
    | none =>
      rw [h] at hf
      exact absurd hf (by decide)
    | some q => exact (wholePages_of_mem (List.mem_of_find?_eq_some h)).length_ne
  obtain ⟨hin, hc⟩ := findPmaEntry_spec hlen
  refine ⟨hin, hc, fun i hi => ?_⟩
  obtain ⟨-, h1, h2⟩ := contains_iff.mp hc
  have hend := range_end_le hin
  rw [toNat_ofNat, Nat.mod_eq_of_lt (by omega)] at h2
  refine ⟨?_, hm.rangeAt_of_mem hin ⟨by omega, by omega⟩⟩
  rw [toNat_add, toNat_ofNat, Nat.mod_eq_of_lt (show i < 2 ^ 64 by omega), Nat.mod_eq_of_lt (by omega)]

/-! ## The bytes of memory -/

/-- The byte that the machine shows at an address. -/
def guestByte (m : RunState) (a : Word) : Byte :=
  match rangeAt m a.toNat with
  | some q => rangeByte m q a.toNat
  | none => 0

def guestMemory : MemoryView RunState where
  valid m := m.Apart
  byte := guestByte
  readable m paddr length := !(m.findMerkleRange paddr (BitVec.ofNat 64 length)).istartE
  writable m paddr length := (m.findMerkleRange paddr (BitVec.ofNat 64 length)).istartM

/-- The bytes of an access are those of the range that it finds. -/
theorem map_guestByte (hm : m.Apart) (hn : n < 2 ^ 32)
    (hf : (m.findMerkleRange paddr (BitVec.ofNat 64 n)).istartE = false) :
    (addrsFrom paddr n).map (guestByte m) =
      (List.range n).map fun i => rangeByte m (m.findMerkleRange paddr (BitVec.ofNat 64 n)) (paddr.toNat + i) := by
  obtain ⟨-, -, hbytes⟩ := hm.found hn hf
  rw [addrsFrom, List.map_map]
  refine map_congr_left fun i hi => ?_
  obtain ⟨hsum, hrange⟩ := hbytes i (List.mem_range.mp hi)
  rw [Function.comp, guestByte, hsum, hrange]

/-- The state of the microarchitecture shows in its own range only. -/
theorem did_ne_shadowUarch (hq : q ∈ merkleRanges m.ranges) (hM : q.istartM = true) : q.flags.DID ≠ .shadowUarch := by
  simp only [merkleRanges, RunState.ranges, mem_append, mem_mapIdx, List.mem_cons, not_mem_nil,
    or_false] at hq
  rcases hq with (hq | ⟨i, hi, rfl⟩) | rfl | rfl
  · obtain ⟨p, hp, he⟩ := m.s.board.mem_config hq
    rw [he]
    simp only [MachineConfig.pmas, mem_append, List.mem_cons, not_mem_nil, or_false,
      mem_mapIdx] at hp
    rcases hp with ((rfl | rfl) | ⟨i, hi, rfl⟩) | rfl | rfl | rfl | rfl | rfl | rfl | rfl | rfl
    all_goals exact fun h => by cases h
  · exact absurd hM Bool.false_ne_true
  · exact absurd hM (by decide)
  · decide

/-- The bytes of a memory range are those of the host memory behind it. -/
theorem rangeByte_of_memory (hq : q ∈ merkleRanges m.ranges) (hM : q.istartM = true) (a : Nat) :
    rangeByte m q a = (m.hostMemory q).mem a := by
  have hdata : q.data = .memory := by simpa [istartM] using hM
  rw [rangeByte, if_neg (did_ne_shadowUarch hq hM), RunState.hostMemory]
  split
  · rfl
  · rw [MachineState.rangeByte, hdata]
    rfl

theorem rangeByte_setHostMemory_of_not_memory (hM : q.istartM = false) (p : PmaEntry) (mem : PagedMemory) (a : Nat) :
    rangeByte (m.setHostMemory p mem) q a = rangeByte m q a := by
  have hne : q ≠ uarchRamPma := by
    rintro rfl
    exact absurd hM (by decide)
  have hdata : q.data ≠ .memory := by simpa [PmaEntry.istartM] using hM
  rw [rangeByte, rangeByte, if_neg hne, if_neg hne, RunState.setHostMemory]
  by_cases hp : p = uarchRamPma
  · rw [if_pos hp]
    rfl
  · rw [if_neg hp]
    have hs : MachineState.rangeByte { m.s with mem := mem.mem, dirty := mem.dirty } q a = m.s.rangeByte q a := by
      unfold MachineState.rangeByte
      split
      · exact absurd ‹_› hdata
      · rfl
      · rfl
      · rfl
    exact congrArg (ite _ _) hs

theorem ranges_setHostMemory (p : PmaEntry) (mem : PagedMemory) : (m.setHostMemory p mem).ranges = m.ranges :=
  (Host.sameButMemory_setHostMemory m p mem).ranges_eq

/-- The host memory behind a range after a write behind another. -/
theorem hostMemory_setHostMemory (p : PmaEntry) (mem : PagedMemory) :
    (m.setHostMemory p mem).hostMemory q = if (q = uarchRamPma ↔ p = uarchRamPma) then mem else m.hostMemory q := by
  by_cases hp : p = uarchRamPma <;> by_cases hq : q = uarchRamPma <;>
    simp [RunState.setHostMemory, RunState.hostMemory, hp, hq, RunState.boardMemory, RunState.setBoardMemory,
      RunState.withState]

theorem stored_setHostMemory (hm : m.Apart) {data : List Byte} (hn : data.length < 2 ^ 32)
    (hq : m.findMerkleRange paddr (BitVec.ofNat 64 data.length) = q) (hM : q.istartM = true) :
    guestMemory.Stored m paddr data (m.setHostMemory q ((m.hostMemory q).write paddr.toNat data)) := by
  have hdata : q.data = .memory := by simpa [istartM] using hM
  have hE : q.istartE = false := by rw [istartE, hdata]; rfl
  obtain ⟨hin, -, hbytes⟩ := hm.found hn (hq.symm ▸ hE)
  rw [hq] at hin hbytes
  have hranges := ranges_setHostMemory (m := m) q ((m.hostMemory q).write paddr.toNat data)
  generalize hm' : m.setHostMemory q ((m.hostMemory q).write paddr.toNat data) = m' at hranges ⊢
  have hrange : ∀ a, rangeAt m' a = rangeAt m a := fun a => by rw [rangeAt, rangeAt, hranges]
  refine ⟨?_, ?_, ?_, ?_, ?_⟩
  · show (merkleRanges m'.ranges).Pairwise _
    rw [hranges]
    exact hm
  · funext paddr length
    show (!(findPmaEntry (merkleRanges m'.ranges) _ _).istartE) = _
    rw [hranges]
    rfl
  · funext paddr length
    show (findPmaEntry (merkleRanges m'.ranges) _ _).istartM = _
    rw [hranges]
    rfl
  · refine ext_getElem (by rw [length_map, Virtio.length_addrsFrom]) fun i hi hi' => ?_
    obtain ⟨hsum, hr⟩ := hbytes i hi'
    rw [getElem_map, Virtio.getElem_addrsFrom]
    show guestByte m' _ = _
    rw [guestByte, hrange, hsum, hr]
    show rangeByte m' q _ = _
    rw [rangeByte_of_memory (hranges ▸ hin) hM, ← hm', hostMemory_setHostMemory, if_pos Iff.rfl,
      PagedMemory.write_mem, writeBytes_of_mem hi']
    rfl
  · intro a ha
    show guestByte m' a = guestByte m a
    rw [guestByte, guestByte, hrange]
    cases hq' : rangeAt m a.toNat with
    | none => rfl
    | some q' =>
      show rangeByte m' q' _ = rangeByte m q' _
      cases hM' : q'.istartM with
      | false => rw [← hm', rangeByte_setHostMemory_of_not_memory hM']
      | true =>
        have hin' := (rangeAt_spec hq').1
        have hout : a.toNat < paddr.toNat ∨ paddr.toNat + data.length ≤ a.toNat := by
          by_contra hcon
          refine ha (mem_addrsFrom.mpr ⟨a.toNat - paddr.toNat, by omega, eq_of_toNat_eq ?_⟩)
          rw [(hbytes _ (by omega)).1]
          omega
        rw [rangeByte_of_memory (hranges ▸ hin') hM', rangeByte_of_memory hin' hM', ← hm', hostMemory_setHostMemory]
        split
        next hsame =>
          have hmem : m.hostMemory q' = m.hostMemory q := by
            rw [RunState.hostMemory, RunState.hostMemory]
            simp only [hsame]
          rw [PagedMemory.write_mem, writeBytes_of_not_mem hout, hmem]
        next => rfl

/-! ## The accessor of a device -/

theorem doReadMemory_eq (hm : m.Apart) (hpos : 0 < n) (hn : n < 2 ^ 32) : doReadMemory m paddr n =
    if guestMemory.readable m paddr n then some ((addrsFrom paddr n).map (guestMemory.byte m)) else none := by
  have hfind : findPmaEntry (merkleRanges m.ranges) paddr (BitVec.ofNat 64 n) =
    m.findMerkleRange paddr (BitVec.ofNat 64 n) := rfl
  rw [doReadMemory, if_neg (Nat.ne_of_gt hpos)]
  simp only [hfind]
  cases hE : (m.findMerkleRange paddr (BitVec.ofNat 64 n)).istartE with
  | true =>
    have hr : guestMemory.readable m paddr n = false := by simp only [guestMemory, hE, Bool.not_true]
    rw [if_pos rfl, hr]
    rfl
  | false =>
    have hr : guestMemory.readable m paddr n = true := by simp only [guestMemory, hE, Bool.not_false]
    rw [if_neg Bool.false_ne_true, hr, if_pos rfl]
    exact congrArg some (map_guestByte hm hn hE).symm

theorem doWriteMemory_of_memory {data : List Byte} (hq : m.findMerkleRange paddr (BitVec.ofNat 64 data.length) = q)
    (hM : q.istartM = true) (hc : q.contains paddr (BitVec.ofNat 64 data.length) = true) (hne : data ≠ []) :
    doWriteMemory m paddr data = some (m.setHostMemory q ((m.hostMemory q).write paddr.toNat data)) := by
  have hwrite : ∀ p : PagedMemory, q.writeMemory p paddr data = .ok (p.write paddr.toNat data) := fun p =>
    writeMemory_ok_iff.mpr ⟨checkMemory_ok_iff.mpr ⟨hM, hc⟩, rfl⟩
  rw [RunState.findMerkleRange] at hq
  rw [doWriteMemory, if_neg hne]
  simp only [hq, hwrite]
  by_cases hu : q = uarchRamPma
  · rw [if_pos hu, RunState.setHostMemory, if_pos hu, RunState.hostMemory, if_pos hu]
  · rw [if_neg hu, RunState.setHostMemory, if_neg hu, RunState.hostMemory, if_neg hu]
    rfl

theorem doWriteMemory_refused {data : List Byte} (hq : m.findMerkleRange paddr (BitVec.ofNat 64 data.length) = q)
    (hM : q.istartM = false) (hne : data ≠ []) : doWriteMemory m paddr data = none := by
  have hwrite : ∀ p : PagedMemory, ∃ e, q.writeMemory p paddr data = .error e := by
    intro p
    cases h : q.writeMemory p paddr data with
    | error e => exact ⟨e, rfl⟩
    | ok p' =>
      obtain ⟨hcheck, -⟩ := writeMemory_ok_iff.mp h
      exact absurd (checkMemory_ok_iff.mp hcheck).1 (ne_true_of_eq_false hM)
  rw [RunState.findMerkleRange] at hq
  rw [doWriteMemory, if_neg hne]
  simp only [hq]
  obtain ⟨e, he⟩ := hwrite ⟨m.uarch.ram, m.uarch.ramDirty⟩
  obtain ⟨e', he'⟩ := hwrite ⟨m.s.mem, m.s.dirty⟩
  rw [he, he']
  split <;> rfl

theorem run_writeMemory {data : List Byte} {m' : RunState} (hw : doWriteMemory m paddr data = some m') :
    (Virtio.writeMemory paddr data).run busAccess m = .ok true m' := by
  refine (congrFun (Prog.run_perform busAccess (.writeMemory paddr data)) m).trans ?_
  simp only [busAccess, hw]
  rfl

theorem run_writeMemory_refused {data : List Byte} (hw : doWriteMemory m paddr data = none) :
    (Virtio.writeMemory paddr data).run busAccess m = .ok false m := by
  refine (congrFun (Prog.run_perform busAccess (.writeMemory paddr data)) m).trans ?_
  simp only [busAccess, hw]
  rfl

/-- The accessor of a device reads and writes the memory of the machine. -/
theorem serves_guestMemory : guestMemory.Serves busAccess where
  read hm hpos hn := by rw [Virtio.VirtioDevice.run_readMemory, doReadMemory_eq hm hpos hn]
  write {m paddr data} hm hne hn hM := by
    have hE : (m.findMerkleRange paddr (BitVec.ofNat 64 data.length)).istartE = false := by
      have hdata : (m.findMerkleRange paddr (BitVec.ofNat 64 data.length)).data = .memory := by
        simpa [PmaEntry.istartM, guestMemory] using hM
      rw [PmaEntry.istartE, hdata]
      rfl
    exact ⟨_, run_writeMemory (doWriteMemory_of_memory rfl hM (hm.found hn hE).2.1 hne),
      stored_setHostMemory hm hn rfl hM⟩
  write_refused hm hne _ hM := run_writeMemory_refused (doWriteMemory_refused rfl hM hne)

/-! ## Transfers -/

section

open Virtio (Virtq chainAddrs pieces)
open Virtio.MemoryView (tableAddrs)

/-- A chain that is accepted has an end. If its buffers have less than 2 ^ 32 bytes in all, a transfer reads the bytes
of the buffers for reading that it asks for, one after another, and a transfer to buffers that lie apart from each
other and from the table stores its bytes in the buffers for writing, and nowhere else. Both succeed exactly if the
range lies within the length that was reported and all accesses to its pieces can be made. -/
theorem transfer_exact (m m' : RunState) (hm : m.Apart) (vq : Virtq) (fuel : Nat) (idx : BitVec 16) (r : Virtq.AvailLen)
    (hrun : (vq.getDescRwAvailLen fuel idx).run busAccess m = .ok r m') (hok : r.ok = true) :
    ∃ ds, guestMemory.Chain m vq idx ds ∧ ((chainAddrs false ds).length + (chainAddrs true ds).length < 2 ^ 32 →
      ∀ (startOff : BitVec 32) (data : List Byte), data ≠ [] → startOff.toNat + data.length < 2 ^ 32 →
        (∃ ok data', (vq.readDescMem fuel idx startOff data).run busAccess m = .ok (ok, data') m ∧
          (ok = true ↔ startOff.toNat + data.length ≤ r.readLen.toNat ∧
            ∀ p ∈ pieces false startOff.toNat (startOff.toNat + data.length) 0 ds,
              guestMemory.readable m p.1 p.2 = true) ∧
          (ok = true → data' = (((chainAddrs false ds).drop startOff.toNat).take data.length).map (guestByte m))) ∧
        ((chainAddrs true ds).Nodup → (∀ a ∈ chainAddrs true ds, a ∉ tableAddrs vq) →
          ∃ ok m1, (vq.writeDescMem fuel idx startOff data).run busAccess m = .ok ok m1 ∧
            (ok = true ↔ startOff.toNat + data.length ≤ r.writeLen.toNat ∧
              ∀ p ∈ pieces true startOff.toNat (startOff.toNat + data.length) 0 ds,
                guestMemory.writable m p.1 p.2 = true) ∧
            (ok = true → (((chainAddrs true ds).drop startOff.toNat).take data.length).map (guestByte m1) = data) ∧
            ∀ a ∉ ((chainAddrs true ds).drop startOff.toNat).take data.length, guestByte m1 a = guestByte m a)) := by
  obtain ⟨ds, hc, -⟩ := serves_guestMemory.chain_of_acceptedFrom hm hrun hok
  refine ⟨ds, hc, fun hlen startOff data hdata hfit => ⟨?_, fun hnodup htable => ?_⟩⟩
  · exact serves_guestMemory.run_readDescMem hm hc hrun hok hlen hdata hfit
  · exact serves_guestMemory.run_writeDescMem hm hc hrun hok hlen hdata hfit hnodup htable

/-- A machine with a chain of two buffers for reading and one for writing. -/
def chainMachine : RunState :=
  let m := RunState.small []
  m.withState (m.s.setMem (writeBytes (writeBytes m.s.mem 0x80000100 [1, 2, 3, 4, 5]) 0x80000000
    ([0, 1, 0, 0x80, 0, 0, 0, 0, 3, 0, 0, 0, 1, 0, 1, 0] ++ [3, 1, 0, 0x80, 0, 0, 0, 0, 2, 0, 0, 0, 1, 0, 2, 0] ++
      [0, 2, 0, 0x80, 0, 0, 0, 0, 4, 0, 0, 0, 2, 0, 0, 0])))

def chainQueue : Virtq :=
  { Virtq.zero with
    descAddr := 0x80000000
    num := 4
    ready := true }

theorem chain_chainMachine : guestMemory.Chain chainMachine chainQueue 0
    [⟨0x80000100, 3, 1, 1⟩, ⟨0x80000103, 2, 1, 2⟩, ⟨0x80000200, 4, 2, 0⟩] :=
  .cons (by decide) (by decide) (.cons (by decide) (by decide) (.last (by decide) (by decide)))

theorem chainMachine_apart : chainMachine.Apart := by
  unfold RunState.Apart
  decide

theorem accepted_chainMachine :
    (chainQueue.getDescRwAvailLen 3 0).run busAccess chainMachine = .ok ⟨true, 5, 4⟩ chainMachine := by
  rfl

/-- The buffer for writing is not in the table of four descriptors. -/
theorem chainMachine_away : ∀ a ∈ chainAddrs true
    [⟨0x80000100, 3, 1, 1⟩, ⟨0x80000103, 2, 1, 2⟩, ⟨0x80000200, 4, 2, 0⟩], a ∉ tableAddrs chainQueue := by
  have haddrs : chainAddrs true [⟨0x80000100, 3, 1, 1⟩, ⟨0x80000103, 2, 1, 2⟩, ⟨0x80000200, 4, 2, 0⟩] =
      [0x80000200, 0x80000201, 0x80000202, 0x80000203] := by decide
  have hlow : ∀ a ∈ ([0x80000200, 0x80000201, 0x80000202, 0x80000203] : List Word), 0x80000100 ≤ a.toNat := by simp
  rw [haddrs]
  rintro a ha ⟨idx, hidx⟩
  obtain ⟨i, hi, rfl⟩ := mem_addrsFrom.mp hidx
  have hoff : (chainQueue.ringOffset idx).toNat < 4 := Virtq.toNat_ringOffset_lt (by decide) idx
  have haddr : (0x80000000 + chainQueue.ringOffset idx * 16 + BitVec.ofNat 64 i).toNat < 0x80000100 := by
    rw [toNat_add, toNat_add, toNat_mul, toNat_ofNat]
    change ((2147483648 + _ * 16 % _) % _ + _) % _ < _
    omega
  have hle := hlow _ ha
  rw [Virtio.MemoryView.descPaddr, show chainQueue.descAddr = 0x80000000 from rfl] at hle
  omega

/-- Three bytes from the second on, out of both buffers. -/
theorem transfer_exact_chainMachine :
    (chainQueue.readDescMem 3 0 1 [0, 0, 0]).run busAccess chainMachine = .ok (true, [2, 3, 4]) chainMachine ∧
      ∃ m1, (chainQueue.writeDescMem 3 0 1 [7, 8]).run busAccess chainMachine = .ok true m1 ∧
        [0x80000201, 0x80000202].map (guestByte m1) = [7, 8] ∧
        ∀ a ∉ [0x80000201, 0x80000202], guestByte m1 a = guestByte chainMachine a := by
  obtain ⟨ds, hc, h⟩ := transfer_exact chainMachine chainMachine chainMachine_apart chainQueue 3 0 _
    accepted_chainMachine rfl
  obtain rfl := hc.unique chain_chainMachine
  have h := h (by decide)
  constructor
  · obtain ⟨ok, data', hrun, hiff, hdata⟩ := (h 1 [0, 0, 0] (by decide) (by decide)).1
    obtain rfl : ok = true := hiff.mpr (by decide)
    rw [hrun, (hdata rfl).trans (show _ = [2, 3, 4] by decide)]
  · obtain ⟨ok, m1, hrun, hiff, hin, hout⟩ := (h 1 [7, 8] (by decide) (by decide)).2 (by decide) chainMachine_away
    obtain rfl : ok = true := hiff.mpr (by decide)
    exact ⟨m1, hrun, hin rfl, hout⟩

end

end MachineEmulator.Interpret
