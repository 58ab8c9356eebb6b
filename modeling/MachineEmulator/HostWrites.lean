import MachineEmulator.Covered
import MachineEmulator.Interpret.MemoryInterface

/-!
# Host writes and the Merkle tree

* `HostWrite` : the two ways the host changes the memory of a machine;
* `Machine.MarksChanges` : every page with a byte that changed is marked dirty;
* `HostWrite.marks_iff` : a write marks what it changes exactly if the chunks it is made in mark the pages they spill
  into. Then the next root hash is that of the new image.
-/

namespace MachineEmulator

open List Interpret BitVec Machine

variable {H : Type}

inductive HostWrite where
  | write (data : List Byte)
  | fill (value : Byte) (length : Word)

namespace HostWrite

def bytes : HostWrite → List Byte
  | .write data => data
  | .fill value length => List.replicate length.toNat value

def run : HostWrite → Word → EStateM String RunState Unit
  | .write data, address => Interpret.writeMemory address data
  | .fill value length, address => Interpret.fillMemory address value length

/-- What the write does to the memory of its range. -/
def apply : HostWrite → PagedMemory → Nat → PagedMemory
  | .write data, p, a => p.write a data
  | .fill value length, p, a => p.fill a value length.toNat

/-- Only filling with a value other than zero marks pages it does not change. -/
def marksEvery : HostWrite → Bool
  | .write _ => false
  | .fill value _ => value ≠ 0

theorem apply_mem (w : HostWrite) (p : PagedMemory) (a : Nat) : (w.apply p a).mem = writeBytes p.mem a w.bytes := by
  cases w with
  | write data => exact p.write_mem a data
  | fill value length => exact p.fill_mem a value _

theorem apply_dirty_mono (w : HostWrite) (p : PagedMemory) (a : Nat) {j : Nat} (hj : p.dirty j = true) :
    (w.apply p a).dirty j = true := by
  cases w with
  | write data => exact p.write_dirty_mono a data hj
  | fill value length => exact p.fill_dirty_mono a value _ hj

theorem apply_marks_iff (w : HostWrite) (p : PagedMemory) (a : Nat) :
    (∀ x, (w.apply p a).mem x ≠ p.mem x → (w.apply p a).dirty (x / pmaPageSize) = true) ↔
      p.MarksSpill w.marksEvery a w.bytes := by
  cases w with
  | write data => exact p.write_marks_iff a data
  | fill value length => exact p.fill_marks_iff a value _

end HostWrite

namespace Machine

/-- What the interface of the host works on. -/
def toRun (m : Machine H) : RunState := { s := m.s, uarch := m.uarch, vdevs := [], host := fun _ => 0 }

/-- The interface of the host leaves the tree alone. -/
def onRun {α : Type} (f : EStateM String RunState α) : EStateM String (Machine H) α := fun m =>
  match f m.toRun with
  | .ok a r => .ok a { m with s := r.s, uarch := r.uarch }
  | .error e r => .error e { m with s := r.s, uarch := r.uarch }

/-- The memory behind the range of an access. -/
def rangeMemory (m : Machine H) (address : Word) (n : Nat) : PagedMemory :=
  m.toRun.hostMemory (m.toRun.findMerkleRange address (BitVec.ofNat 64 n))

/-- Every page with a byte that changed is marked dirty. -/
def MarksChanges (m m' : Machine H) : Prop :=
  (∀ x, m'.s.mem x ≠ m.s.mem x → m'.s.dirty (x / pmaPageSize) = true) ∧
    ∀ x, m'.uarch.ram x ≠ m.uarch.ram x → m'.uarch.ramDirty (x / pmaPageSize) = true

/-- Only memory reaches into the RAM of the microarchitecture. -/
theorem Board.memory_of_uarchRam {b : Board} {p : PmaEntry} (hp : p ∈ b.ranges) {a : Nat} (ha : p.Mem a)
    (hram : uarchRamPma.Mem a) : p.istartM = true := by
  obtain ⟨q, hq, he⟩ := b.mem_config hp
  rw [he] at ha ⊢
  rcases MachineConfig.memory_or_device hq with hM | hdev
  · simp [PmaEntry.istartM, hM]
  · have hall : ∀ r ∈ devicePmas, r.Disjoint uarchRamPma := by decide
    exact absurd hram ((hall q hdev).not_mem ha)

theorem toRun_ranges (m : Machine H) : m.toRun.ranges = m.s.board.ranges := by
  simp [RunState.ranges, toRun]

theorem merkleRanges_length_ne {b : Board} {q : PmaEntry} (hq : q ∈ merkleRanges b.ranges) : q.length ≠ 0 := by
  rcases mem_append.mp hq with hq | hq
  · have hpos := (b.wellFormed.paged q hq).length_pos
    intro h0
    rw [h0] at hpos
    exact absurd hpos (by decide)
  · simp only [mem_cons, not_mem_nil, or_false] at hq
    rcases hq with rfl | rfl <;> decide

/-- An access that lies in a memory range finds a memory range that contains it. -/
theorem exists_found {m : Machine H} {q : PmaEntry} (hq : q ∈ merkleRanges m.s.board.ranges) (hM : q.istartM = true)
    {address : Word} {n : Nat} (hin : HoldsBuffer q address n) (hn : 0 < n) :
    n < 2 ^ 64 ∧ ∃ p, m.toRun.findMerkleRange address (BitVec.ofNat 64 n) = p ∧ p.istartM = true ∧
      p.contains address (BitVec.ofNat 64 n) = true := by
  rcases mem_append.mp hq with hb | hu
  · obtain ⟨hlt, hc⟩ := HoldsBuffer.contains (m := m.toRun) hb hin
    refine ⟨hlt, q, RunState.findMerkleRange_board hb hc fun h0 => ?_, hM, hc⟩
    have h := congrArg BitVec.toNat h0
    rw [toNat_ofNat, Nat.mod_eq_of_lt hlt] at h
    exact absurd h hn.ne'
  · -- the RAM of the microarchitecture, unless a range of the board covers the access
    simp only [mem_cons, not_mem_nil, or_false] at hu
    rcases hu with rfl | rfl
    · cases hM
    have h1 : uarchRamPma.start.toNat = 0x600000 := rfl
    obtain ⟨h3, h4⟩ := hin
    have hlt : n < 2 ^ 64 := by omega
    have hlen : (BitVec.ofNat 64 n).toNat = n := by rw [toNat_ofNat, Nat.mod_eq_of_lt hlt]
    have hram : uarchRamPma.contains address (BitVec.ofNat 64 n) = true :=
      PmaEntry.contains_iff.mpr ⟨rfl, h3, by rwa [hlen]⟩
    have hfound := findPmaEntry_of_contains hq hram fun p => merkleRanges_length_ne
    have hdef : m.toRun.findMerkleRange address (BitVec.ofNat 64 n) =
        findPmaEntry (merkleRanges m.s.board.ranges) address (BitVec.ofNat 64 n) := by
      rw [RunState.findMerkleRange, toRun_ranges]
    generalize findPmaEntry (merkleRanges m.s.board.ranges) address (BitVec.ofNat 64 n) = p at hfound hdef
    obtain ⟨hp, hc⟩ := hfound
    refine ⟨hlt, p, hdef, ?_, hc⟩
    obtain ⟨-, h5, h6⟩ := PmaEntry.contains_iff.mp hc
    rw [hlen] at h6
    rcases mem_append.mp hp with hp | hp
    · exact Board.memory_of_uarchRam hp (a := address.toNat) ⟨h5, by omega⟩ ⟨h3, by omega⟩
    · simp only [mem_cons, not_mem_nil, or_false] at hp
      rcases hp with rfl | rfl
      · have h7 : shadowUarchStatePma.start.toNat + shadowUarchStatePma.length.toNat = 0x401000 := rfl
        omega
      · rfl

end Machine

namespace HostWrite

section
variable {m : RunState} {p : PmaEntry} {address : Word}

theorem run_of_found (w : HostWrite) (hf : m.findMerkleRange address (BitVec.ofNat 64 w.bytes.length) = p)
    (hM : p.istartM = true) (hc : p.contains address (BitVec.ofNat 64 w.bytes.length) = true) (hne : w.bytes ≠ []) :
    w.run address m = .ok () (m.setHostMemory p (w.apply (m.hostMemory p) address.toNat)) := by
  cases w with
  | write data => exact writeMemory_of_found hf hM hc hne
  | fill value length =>
    have hlen : BitVec.ofNat 64 (fill value length).bytes.length = length := by
      rw [bytes, length_replicate, ofNat_toNat, setWidth_eq]
    rw [hlen] at hf hc
    refine fillMemory_of_found value hf hM hc fun h0 => hne ?_
    rw [h0]
    rfl

theorem run_of_nil (w : HostWrite) (hnil : w.bytes = []) : w.run address m = .ok () m := by
  cases w with
  | write data =>
    obtain rfl : data = [] := hnil
    rfl
  | fill value length =>
    obtain h0 : length = 0 := eq_of_toNat_eq (by simpa [bytes] using hnil)
    rw [run, h0]
    rfl

end

/-- The machine after a write to the range `p`. -/
def after (w : HostWrite) (m : Machine H) (p : PmaEntry) (address : Word) : Machine H :=
  let r := m.toRun.setHostMemory p (w.apply (m.toRun.hostMemory p) address.toNat)
  { m with s := r.s, uarch := r.uarch }

section
variable {m : Machine H} {p : PmaEntry} {address : Word}

theorem after_uarchRam (w : HostWrite) : w.after m uarchRamPma address =
    { m with uarch :=
      { m.uarch with
        ram := (w.apply ⟨m.uarch.ram, m.uarch.ramDirty⟩ address.toNat).mem
        ramDirty := (w.apply ⟨m.uarch.ram, m.uarch.ramDirty⟩ address.toNat).dirty } } := by
  simp [after, RunState.setHostMemory, RunState.hostMemory, toRun]

theorem after_board (w : HostWrite) (hp : p ≠ uarchRamPma) : w.after m p address =
    { m with s :=
      { m.s with
        mem := (w.apply ⟨m.s.mem, m.s.dirty⟩ address.toNat).mem
        dirty := (w.apply ⟨m.s.mem, m.s.dirty⟩ address.toNat).dirty } } := by
  simp only [after, RunState.setHostMemory, RunState.hostMemory, if_neg hp, RunState.setBoardMemory,
    RunState.boardMemory, RunState.withState, toRun]

/-- The memory of the range is what changes, and its pages are what is marked. -/
theorem marksChanges_after (w : HostWrite) : m.MarksChanges (w.after m p address) ↔
      (m.toRun.hostMemory p).MarksSpill w.marksEvery address.toNat w.bytes := by
  rw [← apply_marks_iff]
  by_cases hp : p = uarchRamPma
  · subst hp
    rw [after_uarchRam, RunState.hostMemory, if_pos rfl]
    exact ⟨fun h => h.2, fun h => ⟨fun _ hne => absurd rfl hne, h⟩⟩
  · rw [after_board w hp, RunState.hostMemory, if_neg hp]
    exact ⟨fun h => h.1, fun h => ⟨h, fun _ hne => absurd rfl hne⟩⟩

theorem consistent_after {h : Hasher H} (w : HostWrite) (hd : m.s.board.UarchDisjoint) (hc : Consistent h m)
    (hmarks : m.MarksChanges (w.after m p address)) : Consistent h (w.after m p address) := by
  by_cases hp : p = uarchRamPma
  · subst hp
    rw [after_uarchRam] at hmarks ⊢
    exact hc.setMemory hd rfl rfl rfl rfl (fun _ hj => hj) (fun _ hj => w.apply_dirty_mono _ _ hj) hmarks.1
      fun x _ => hmarks.2 x
  · rw [after_board w hp] at hmarks ⊢
    exact hc.setMemory hd rfl rfl rfl rfl (fun _ hj => w.apply_dirty_mono _ _ hj) (fun _ hj => hj) hmarks.1
      fun x _ => hmarks.2 x

theorem after_frame (w : HostWrite) (m : Machine H) (p : PmaEntry) (address : Word) :
    (w.after m p address).s.board = m.s.board ∧
    (w.after m p address).s.regs = m.s.regs ∧ (w.after m p address).s.tlb = m.s.tlb := by
  by_cases hp : p = uarchRamPma
  · subst hp
    rw [after_uarchRam]
    exact ⟨rfl, rfl, rfl⟩
  · rw [after_board w hp]
    exact ⟨rfl, rfl, rfl⟩

end

/-- A write to a memory range marks what it changes exactly if its chunks mark the pages they spill into. Then the next
root hash is that of the new image. -/
theorem marks_iff (m : Machine H) (w : HostWrite) (address : Word) {q : PmaEntry}
    (hq : q ∈ merkleRanges m.s.board.ranges) (hM : q.istartM = true) (hin : HoldsBuffer q address w.bytes.length) :
    ∃ m', Machine.onRun (w.run address) m = .ok () m' ∧ (m.MarksChanges m' ↔
        (m.rangeMemory address w.bytes.length).MarksSpill w.marksEvery address.toNat w.bytes) ∧
      ∀ h : Hasher H, m.s.board.UarchDisjoint → Machine.Consistent h m → m.s.TlbSane → m.s.regs .iunrep = 0 →
        m.MarksChanges m' → ∃ m'', Machine.getRootHash h m' = .ok (h.root m'.image) m'' := by
  by_cases hnil : w.bytes = []
  · have hrun : onRun (w.run address) m = .ok () m := by
      rw [onRun, w.run_of_nil hnil]
      rfl
    refine ⟨m, hrun, ?_, fun h hd hc hs hu _ => ?_⟩
    · refine iff_of_true ⟨fun _ hne => absurd rfl hne, fun _ hne => absurd rfl hne⟩ fun k hk => ?_
      rw [hnil] at hk
      cases hk
    · obtain ⟨m'', hroot, -⟩ := hc.getRootHash hd hs hu
      exact ⟨m'', hroot⟩
  · obtain ⟨-, p, hf, hpM, hpc⟩ := exists_found hq hM hin (length_pos_of_ne_nil hnil)
    have hrun : onRun (w.run address) m = .ok () (w.after m p address) := by
      rw [onRun, w.run_of_found hf hpM hpc hnil]
      rfl
    refine ⟨_, hrun, ?_, fun h hd hc hs hu hmarks => ?_⟩
    · rw [rangeMemory, hf]
      exact marksChanges_after w
    · obtain ⟨hboard, hregs, htlb⟩ := w.after_frame m p address
      have hs' : (w.after m p address).s.TlbSane := by rwa [MachineState.TlbSane, hboard, htlb]
      obtain ⟨m'', hroot, -⟩ := (consistent_after w hd hc hmarks).getRootHash (by rwa [hboard]) hs' (by rwa [hregs])
      exact ⟨m'', hroot⟩

/-- A small machine whose memory is all zeros. -/
def zeroMachine : Machine FreeHash := Machine.new FreeHash smallBoard { uarchRam := fun _ => 0 }

/-- The last byte of a page and all of the next are filled. The first chunk spills into the next page, and the second
chunk, which is the last byte, marks it. -/
theorem marks_iff_twoPages :
    ∃ m', Machine.onRun ((HostWrite.fill 1 0x1001).run 0x600fff) zeroMachine = .ok () m' ∧
      zeroMachine.MarksChanges m' ∧
      ∃ m'', Machine.getRootHash freeHasher m' = .ok (freeHasher.root m'.image) m'' := by
  have hlen : (HostWrite.fill 1 0x1001).bytes.length = 0x1001 := length_replicate ..
  have hin : HoldsBuffer uarchRamPma 0x600fff (HostWrite.fill 1 0x1001).bytes.length := by
    rw [hlen]
    unfold HoldsBuffer
    decide
  obtain ⟨m', hrun, hmarks, hroot⟩ := marks_iff zeroMachine (.fill 1 0x1001) 0x600fff
    (mem_append_right _ (mem_cons_of_mem _ mem_cons_self)) rfl hin
  have hspill : zeroMachine.MarksChanges m' := by
    refine hmarks.mpr fun k hk _ hpage => .inr ⟨0x1000, by rw [hlen]; decide, ?_, .inl rfl⟩
    have hstart : (0x600fff : Word).toNat = 0x600fff := rfl
    rw [hlen] at hk
    simp only [hstart, pmaPageSize] at hpage ⊢
    omega
  exact ⟨m', hrun, hspill, hroot freeHasher smallBoard_uarchDisjoint (new_consistent smallBoard_uarchDisjoint _)
    (new_tlbSane smallBoard _) rfl hspill⟩

/-- Two bytes across the end of the first page of the RAM of the microarchitecture, when all pages are clean: the second
page changes, is not marked, and the next root hash is not that of the new image. -/
theorem spill_unmarked : ∃ m1 m2,
    Machine.getRootHash freeHasher zeroMachine = .ok (freeHasher.root zeroMachine.image) m1 ∧
      Machine.onRun ((HostWrite.write [1, 1]).run 0x600fff) m1 = .ok () m2 ∧
      m2.uarch.ram 0x601000 ≠ m1.uarch.ram 0x601000 ∧ m2.uarch.ramDirty 0x601 = false ∧
      ∀ r m3, Machine.getRootHash freeHasher m2 = .ok r m3 → r ≠ freeHasher.root m2.image := by
  have hsane : zeroMachine.s.TlbSane := new_tlbSane smallBoard _
  obtain ⟨m1, hroot, hcore, ht⟩ := (new_consistent (h := freeHasher) smallBoard_uarchDisjoint
    { uarchRam := fun _ => 0 }).getRootHash smallBoard_uarchDisjoint hsane rfl
  have hboard : m1.s.board = smallBoard := board_congr hcore
  have hram : m1.uarch.ram = fun _ => 0 := ram_congr hcore
  have hpage : uarchRamPma.Mem (0x601 * pmaPageSize) := by decide
  have hclean : m1.uarch.ramDirty 0x601 = false :=
    updateMerkleTree_clean (getRootHash_ok_iff.mp hroot).2.1 hpage
  have hfound : m1.toRun.findMerkleRange 0x600fff (BitVec.ofNat 64 (HostWrite.write [1, 1]).bytes.length) =
      uarchRamPma := by
    rw [RunState.findMerkleRange, toRun_ranges, hboard]
    decide
  have hrun : onRun ((HostWrite.write [1, 1]).run 0x600fff) m1 =
      .ok () ((HostWrite.write [1, 1]).after m1 uarchRamPma 0x600fff) := by
    rw [onRun, run_of_found _ hfound rfl (by decide) (by decide)]
    rfl
  have hbyte : ((HostWrite.write [1, 1]).after m1 uarchRamPma 0x600fff).uarch.ram 0x601000 = 1 := by
    rw [after_uarchRam]
    simp only [apply_mem]
    exact writeBytes_of_mem (a := 0x600fff) (i := 1) (by decide)
  have hdirty : ((HostWrite.write [1, 1]).after m1 uarchRamPma 0x600fff).uarch.ramDirty 0x601 = false := by
    rw [after_uarchRam]
    show (PagedMemory.write ⟨m1.uarch.ram, m1.uarch.ramDirty⟩ 0x600fff [1, 1]).dirty 0x601 = false
    refine PagedMemory.write_clean hclean (by decide) fun k hk hj => absurd hj ?_
    have hk : k < 2 := hk
    simp only [pmaPageSize]
    omega
  have hsane' : ((HostWrite.write [1, 1]).after m1 uarchRamPma 0x600fff).s.TlbSane := by
    rw [after_uarchRam]
    exact (tlbSane_congr hcore).mpr hsane
  have hdisjoint : ((HostWrite.write [1, 1]).after m1 uarchRamPma 0x600fff).s.board.UarchDisjoint := by
    rw [after_uarchRam]
    exact hboard ▸ smallBoard_uarchDisjoint
  have hcov := not_covered_of_clean hdisjoint hsane' hpage hdirty
  refine ⟨m1, _, hroot, hrun, by rw [hbyte, hram]; decide, hdirty, ?_⟩
  rintro r m3 hr rfl
  have hsame := ht.stale freeHasher_collisionFree hdisjoint hsane' (by rw [after_uarchRam]) (by decide)
    (not_or.mpr hcov) hr (x := 0x601000) rfl
  have hno : ¬ shadowUarchStatePma.Mem 0x601000 := by decide
  have hmem : uarchRamPma.Mem 0x601000 := by decide
  rw [image, image, if_neg hno, if_pos hmem, if_neg hno, if_pos hmem, hbyte, hram] at hsame
  exact absurd hsame (by decide)

end HostWrite

end MachineEmulator
