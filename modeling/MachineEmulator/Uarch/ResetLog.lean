import MachineEmulator.Covered
import MachineEmulator.Uarch.Reset
import MachineEmulator.Uarch.StepLog

/-!
# When a reset reaches the tree

A reset fills the RAM behind the embedded image with zeros in chunks of page size. When the image is not
made of whole pages the chunks are not pages: a chunk that changes bytes of two pages marks the first.

* `FillMarks` : the second page of such a chunk is marked by the chunk that starts in it. It is what makes
  a reset mark every page it changes (`resetMemory_marks`), and a page it fails for stays clean
  (`resetMemory_clean`);
* `logResetUarch_ok_iff` : what a recorded reset does, up to the last root hash;
* `resetUarch_correct_iff` : the root hash after a reset is right, and the recorded reset ends in the same
  machine with a log that is accepted, exactly when `ResetSafe` holds.
-/

namespace MachineEmulator.Uarch

open EStateM PagedMemory Machine

open EStateM (query update)
open Machine (Consistent TreeHolds Good)

variable {H : Type}

/-! ## The pages a reset marks -/

/-- If the zero fill clears a byte of page `j` of the RAM from a chunk that starts in the page before,
it also clears a byte from the chunk that starts in page `j`. -/
def FillMarks (ram : List Byte) (mem : Nat → Byte) : Prop :=
  ∀ j, ram.length / pmaPageSize < j → j < 512 →
    (∃ k, k < ram.length % pmaPageSize ∧ mem (0x600000 + j * pmaPageSize + k) ≠ 0) →
    ∃ k, ram.length % pmaPageSize ≤ k ∧ k < ram.length % pmaPageSize + pmaPageSize ∧
      j * pmaPageSize + k < 0x200000 ∧ mem (0x600000 + j * pmaPageSize + k) ≠ 0

/-- The machines whose reset reaches the tree. -/
structure ResetSafe (ram : List Byte) (m : Machine H) : Prop where
  gapZero : GapZero m
  fillMarks : FillMarks ram m.uarch.ram

section
variable {ram : List Byte} {s : PagedMemory}

theorem uarchRamPma_mem_iff {x : Nat} : uarchRamPma.Mem x ↔ 0x600000 ≤ x ∧ x < 0x800000 := Iff.rfl

theorem fillMarks_iff {mem : Nat → Byte} :
    FillMarks ram mem ↔ PagedMemory.FillMarks mem 0x600000 ram.length 0x200000 := by
  have hpages : ∀ j, j < 512 ↔ j * pmaPageSize < 0x200000 := by
    intro j
    simp only [pmaPageSize]
    omega
  simp [FillMarks, PagedMemory.FillMarks, hpages]

/-- A reset that passes `FillMarks` marks every page it changes. -/
theorem resetMemory_marks (hfill : FillMarks ram s.mem) {x : Nat} (hch : (resetMemory ram s).mem x ≠ s.mem x) :
    (resetMemory ram s).dirty (x / pmaPageSize) = true :=
  writePadded_marks (by decide) (fillMarks_iff.mp hfill) hch

theorem resetMemory_clean {j : Nat} (hj : ram.length / pmaPageSize < j)
    (hzero : ∀ k, ram.length % pmaPageSize ≤ k → k < ram.length % pmaPageSize + pmaPageSize →
      j * pmaPageSize + k < 0x200000 → s.mem (0x600000 + j * pmaPageSize + k) = 0)
    (hclean : s.dirty (0x600 + j) = false) : (resetMemory ram s).dirty (0x600 + j) = false :=
  writePadded_clean (by decide) hj hzero hclean

end

/-! ## The tree after a reset -/

section
variable {h : Hasher H} {m : Machine H} {ram : List Byte}

theorem afterReset_congr {m m' : Machine H} (hc : m'.core = m.core) :
    (afterReset ram m').core = (afterReset ram m).core := by
  have hs : m'.core.s = m.core.s := by rw [hc]
  have hram := ram_congr hc
  have hmem : ∀ d d', (resetMemory ram ⟨m'.uarch.ram, d⟩).mem =
      (resetMemory ram ⟨m.uarch.ram, d'⟩).mem := by
    intro d d'
    simp [resetMemory, hram]
  simp only [afterReset, core, setUarch, resetRegs] at hs ⊢
  rw [hs, hmem]

/-- A reset that marks what it changes keeps the tree consistent. -/
theorem FillMarks.consistent (hfill : FillMarks ram m.uarch.ram) (hd : m.s.board.UarchDisjoint)
    (hc : Consistent h m) : Consistent h (afterReset ram m) :=
  hc.setUarch hd rfl rfl (fun _ hi => writePadded_dirty_mono hi)
    fun _ _ hch => resetMemory_marks (s := ⟨m.uarch.ram, m.uarch.ramDirty⟩) hfill hch

/-- A page that the reset leaves alone, or changes without marking it, keeps its leaf through the
updates. If the root after them is that of an image, the image has the old bytes there. -/
theorem unchanged_of_root {mb mc m3 : Machine H} {ram : List Byte} {b : Bool} {g : Nat → Byte}
    (hcf : h.CollisionFree) (hd : mb.s.board.UarchDisjoint) (hs : mb.s.TlbSane) (ht : TreeHolds h mb)
    (hupd : updateMerkleTree h (afterReset ram mb) = .ok b mc)
    (hroot : getRootHash h mc = .ok (h.root g) m3) {i : Nat} (hi : i < 2 ^ pageDepth)
    (hcase : (∀ x, x / pmaPageSize = i → (afterReset ram mb).image x = mb.image x) ∨
      (uarchRamPma.Mem (i * pmaPageSize) ∧ (afterReset ram mb).uarch.ramDirty i = false)) :
    ∀ x, x / pmaPageSize = i → g x = mb.image x := by
  obtain ⟨mc', f', hupd', hcore', hf', hgood', hsame'⟩ := updateMerkleTree_leaves
    (m := afterReset ram mb) hd hs ht.holds
  rw [hupd] at hupd'
  cases hupd'
  have hdc : mc.s.board.UarchDisjoint := by
    rw [board_congr hcore']
    exact hd
  have hsc : mc.s.TlbSane := (tlbSane_congr hcore').mpr hs
  obtain ⟨-, hupd3, hroot3⟩ := getRootHash_ok_iff.mp hroot
  obtain ⟨m3', f'', hupd'', -, hf'', hgood'', hsame''⟩ := updateMerkleTree_leaves hdc hsc hf'
  rw [hupd3] at hupd''
  cases hupd''
  have hleaf : f'' i = mb.pageHash h i := by
    rcases hcase with hsame | ⟨hmem, hclean⟩
    · have hpage := pageHash_eq_of_image (h := h) hsame
      have hgood : Good h (afterReset ram mb) (mb.pageHash h) mb.tree i :=
        ⟨hpage.symm, fun hshown =>
          ht.present i hi ((shown_of_board (m := mb) (by rw [afterReset_s]) i).mp hshown)⟩
      have hg := hgood'' i (.inl ((good_congr hcore').mpr (hgood' i (.inl hgood))))
      rw [hg.1, pageHash_congr hcore', hpage]
    · obtain ⟨h1, h2⟩ := not_covered_of_clean (m := afterReset ram mb) hd hs hmem hclean
      obtain ⟨h3, h4⟩ := not_covered_of_clean hdc hsc hmem
        (updateMerkleTree_clean hupd hmem)
      rw [hsame'' i h3 h4, hsame' i h1 h2]
  exact fun x hx => image_eq_of_root hcf hf'' hroot3 hi hleaf hx

theorem page_lt_pageDepth {x : Nat} (hx : x < 0x800000) : x / pmaPageSize < 2 ^ pageDepth := by
  have hdepth : pageDepth = 52 := rfl
  rw [hdepth]
  simp only [pmaPageSize]
  omega

end

/-! ## The recorded reset -/

theorem onMachine_ok_iff {α : Type} {x : EStateM String (Machine H) α} {r r' : Machine H × List (Access H)}
    {a : α} : onMachine x r = .ok a r' ↔ x r.1 = .ok a r'.1 ∧ r'.2 = r.2 := by
  unfold onMachine
  constructor
  · intro hx
    split at hx
    · rename_i b m hm
      cases hx
      exact ⟨hm, rfl⟩
    · cases hx
  · rintro ⟨hx, hl⟩
    rw [hx]
    simp only [← hl]

/-- The image of the microarchitecture that large logs carry. -/
theorem getUarchStateImage_eq (u : UarchState) : getUarchStateImage u =
      readBytes (uarchImage u) uarchStateStartAddress.toNat (2 ^ uarchStateLog2Size) := by
  have hram : uarchRamPma.start.toNat = 0x600000 := rfl
  have hlen : uarchRamPma.length.toNat = 0x200000 := rfl
  have hoff : (uarchRamPma.start - uarchStateStartAddress).toNat = 0x200000 := rfl
  have hstart : uarchStateStartAddress.toNat = 0x400000 := rfl
  have hpage : pmaShadowUarchStateStart.toNat = 0x400000 := rfl
  simp only [getUarchStateImage]
  rw [hoff, hstart, hlen, hram]
  refine readBytes_shift fun k hk => ?_
  simp only [uarchStateLog2Size] at hk
  by_cases h1 : k < pmaPageSize
  · have hmem : shadowUarchStatePma.Mem (0x400000 + k) :=
      ⟨Nat.le_add_right _ _, Nat.add_lt_add_left h1 _⟩
    have hbyte : 0x400000 + k - pmaShadowUarchStateStart.toNat = 0 + k := by omega
    rw [uarchImage, if_pos hmem, hbyte]
    rw [writeBytes_of_not_mem (.inl (by simp only [pmaPageSize] at h1; omega)),
      writeBytes_readBytes _ _ _ _ h1]
  · by_cases h2 : k < 0x200000
    · simp only [pmaPageSize] at h1
      obtain ⟨h3, h4⟩ := InGap.not_mem (x := 0x400000 + k) ⟨by omega, by omega⟩
      rw [uarchImage, if_neg h3, if_neg h4, writeBytes_of_not_mem (.inl (by omega)),
        writeBytes_of_not_mem (.inr (by rw [length_readBytes]; simp only [pmaPageSize]; omega))]
    · obtain ⟨i, rfl⟩ := Nat.exists_eq_add_of_le (Nat.le_of_not_lt h2)
      have hmem : uarchRamPma.Mem (0x400000 + (0x200000 + i)) :=
        uarchRamPma_mem_iff.mpr ⟨by omega, by omega⟩
      have hno : ¬ shadowUarchStatePma.Mem (0x400000 + (0x200000 + i)) :=
        PmaEntry.Disjoint.not_mem (p := uarchRamPma) (by decide) hmem
      rw [uarchImage, if_neg hno, if_pos hmem, Nat.zero_add,
        writeBytes_readBytes _ _ _ _ (by omega), ← Nat.add_assoc]

theorem getUarchStateImage_congr {m m' : Machine H} (hc : m'.core = m.core) :
    getUarchStateImage m'.uarch = getUarchStateImage m.uarch := by
  have hu : getUarchStateImage m'.core.uarch = getUarchStateImage m.core.uarch := by rw [hc]
  exact hu

/-- With a zero gap, a machine shows its microarchitecture and nothing else in the node. -/
theorem GapZero.readBytes_eq {m : Machine H} (hgap : GapZero m) :
    readBytes m.image uarchStateStartAddress.toNat (2 ^ uarchStateLog2Size) = getUarchStateImage m.uarch := by
  rw [getUarchStateImage_eq]
  refine readBytes_congr fun k hk => ?_
  have hnode : (uarchStateStartAddress.toNat + k) / 2 ^ uarchStateLog2Size =
      uarchStateStartAddress.toNat / 2 ^ uarchStateLog2Size := by
    have hstart : uarchStateStartAddress.toNat = 0x400000 := rfl
    rw [hstart]
    simp only [uarchStateLog2Size] at *
    omega
  unfold uarchImage
  rcases uarchNode_iff.mp hnode with hmem | hin | hmem
  · rw [image, if_pos hmem, if_pos hmem]
  · rw [hgap _ hin, if_neg hin.not_mem.1, if_neg hin.not_mem.2]
  · rw [image]
    split <;> rfl

section
variable [DecidableEq H] {h : Hasher H} {m : Machine H} {c : Pristine H}

/-- A recorded reset does to the machine what a reset does, and logs one access. -/
theorem recordResetState_eq (largeData : Bool) (hd : m.s.board.UarchDisjoint) (hc : Consistent h m) (hs : m.s.TlbSane)
    (hlen : c.ram.length ≤ uarchRamPma.length.toNat) (hv : c.Valid h) (hgap : largeData = true → GapZero m) :
    ∃ m', updateMerkleTree h m = .ok true m' ∧ m'.core = m.core ∧ TreeHolds h m' ∧
      recordResetState h c largeData (m, []) =
        .ok () (afterReset c.ram m', [resetAccess h c.ram m largeData]) := by
  obtain ⟨m', hproof, hupd, hcore, ht⟩ := hc.getProof_eq hd hs (by decide) (by decide) uarchState_aligned
  refine ⟨m', hupd, hcore, ht, ?_⟩
  have hread : largeImage largeData m' = if largeData then
      some (readBytes m.image uarchStateStartAddress.toNat (2 ^ uarchStateLog2Size)) else none := by
    unfold largeImage
    split
    · rename_i hl
      rw [(hgap hl).readBytes_eq, getUarchStateImage_congr hcore]
    · rfl
  have hwritten : largeImage largeData (afterReset c.ram m') = if largeData then
      some (readBytes (loggedImage c.ram m) uarchStateStartAddress.toNat (2 ^ uarchStateLog2Size))
      else none := by
    unfold largeImage
    split
    · rename_i hl
      have himage : (afterReset c.ram m').image = loggedImage c.ram m := by
        rw [(hgap hl).loggedImage_eq, image_congr (afterReset_congr hcore), image_afterReset]
      have hgap' : GapZero (afterReset c.ram m') := fun x hx => by
        rw [himage, (images_of_inGap c.ram m hx).1]
      rw [← himage, hgap'.readBytes_eq]
    · rfl
  unfold recordResetState
  simp only [bind_ok_iff, query_ok_iff, update_ok_iff]
  refine ⟨_, (m', []), onMachine_ok_iff.mpr ⟨hproof, rfl⟩, _, _, ⟨rfl, rfl⟩, (),
    (setUarch m' (resetRegs m'.uarch), []), onMachine_ok_iff.mpr ⟨rfl, rfl⟩, (),
    (afterReset c.ram m', []), onMachine_ok_iff.mpr
    ⟨writeResetRam_eq hlen (setUarch m' (resetRegs m'.uarch)), rfl⟩, ?_⟩
  rw [hread, hwritten, hv.hash_eq m]
  rfl

/-- What a recorded reset comes to: the root hash after it must be that of the image its access
describes. -/
theorem logResetUarch_ok_iff (largeData : Bool) (hd : m.s.board.UarchDisjoint) (hc : Consistent h m)
    (hs : m.s.TlbSane) (hu : m.s.regs .iunrep = 0) (hlen : c.ram.length ≤ uarchRamPma.length.toNat) (hv : c.Valid h)
    (hgap : largeData = true → GapZero m) : ∃ mb, mb.core = m.core ∧ TreeHolds h mb ∧
      (∀ j, uarchRamPma.Mem (j * pmaPageSize) → mb.uarch.ramDirty j = false) ∧
      ∀ log m3, logResetUarch h c largeData m = .ok log m3 ↔ log = [resetAccess h c.ram m largeData] ∧
        ∃ b mc, updateMerkleTree h (afterReset c.ram mb) = .ok b mc ∧
          getRootHash h mc = .ok (h.root (loggedImage c.ram m)) m3 := by
  obtain ⟨ma, hroot, hcorea, hta⟩ := hc.getRootHash hd hs hu
  have himage := image_congr hcorea
  obtain ⟨mb, hupd, hcoreb, htb, hrec⟩ := recordResetState_eq (c := c) largeData
    (by rwa [board_congr hcorea]) hta.consistent ((tlbSane_congr hcorea).mpr hs) hlen hv
    (fun hl x hx => by rw [himage, hgap hl x hx])
  have hlogged : loggedImage c.ram ma = loggedImage c.ram m := by
    funext x
    simp [loggedImage, himage]
  have haccess : resetAccess h c.ram ma largeData = resetAccess h c.ram m largeData := by
    rw [resetAccess, hlogged, himage, resetAccess]
  rw [haccess] at hrec
  refine ⟨mb, hcoreb.trans hcorea, htb, fun j hj => updateMerkleTree_clean hupd hj,
    fun log m3 => ?_⟩
  have hrecorded : recorded (recordResetState h c largeData) ma =
      .ok [resetAccess h c.ram m largeData] (afterReset c.ram mb) := by
    rw [recorded, hrec]
  unfold logResetUarch
  simp only [bind_ok_iff, query_ok_iff, pure_ok_iff]
  constructor
  · rintro ⟨_, _, hroot', _, _, hrec', b, mc, hupdc, _, _, hrootd, _, _, ⟨hverify, rfl⟩, rfl, rfl⟩
    rw [hroot] at hroot'
    cases hroot'
    rw [hrecorded] at hrec'
    cases hrec'
    refine ⟨rfl, b, mc, hupdc, ?_⟩
    rwa [(verifyResetUarch_resetAccess hv largeData).mp hverify] at hrootd
  · rintro ⟨rfl, b, mc, hupdc, hrootd⟩
    exact ⟨_, _, hroot, _, _, hrecorded, b, mc, hupdc, _, m3, hrootd, (), m3,
      ⟨(verifyResetUarch_resetAccess hv largeData).mpr rfl, rfl⟩, rfl, rfl⟩

/-! ## Which resets are right -/

/-- A recorded reset that works shows that the reset was safe. -/
theorem resetSafe_of_log (hcf : h.CollisionFree) (hd : m.s.board.UarchDisjoint) (hc : Consistent h m)
    (hs : m.s.TlbSane) (hu : m.s.regs .iunrep = 0) (hlen : c.ram.length ≤ uarchRamPma.length.toNat)
    (hv : c.Valid h) {log : List (Access H)} {m3 : Machine H}
    (hlog : logResetUarch h c false m = .ok log m3) : ResetSafe c.ram m := by
  obtain ⟨mb, hcore, ht, hclean, hiff⟩ := logResetUarch_ok_iff (c := c) false hd hc hs hu hlen hv
    (fun hl => absurd hl (by decide))
  obtain ⟨-, b, mc, hupd, hroot⟩ := (hiff log m3).mp hlog
  have himage := image_congr hcore
  have hram : mb.uarch.ram = m.uarch.ram := ram_congr hcore
  have hkeep := fun {i : Nat} => unchanged_of_root (i := i) hcf (by rwa [board_congr hcore])
    ((tlbSane_congr hcore).mpr hs) ht hupd hroot
  constructor
  · intro x hx
    have hsame : ∀ y, y / pmaPageSize = x / pmaPageSize →
        (afterReset c.ram mb).image y = mb.image y := by
      intro y hy
      have hgap : InGap y := by
        simp only [InGap, pmaPageSize] at *
        omega
      rw [image_afterReset, (images_of_inGap c.ram mb hgap).2]
    have hx' := hkeep (page_lt_pageDepth (lt_trans hx.2 (by decide))) (.inl hsame) x rfl
    rw [(images_of_inGap c.ram m hx).1, himage] at hx'
    exact hx'.symm
  · rintro j hj hj' ⟨k, hk, hne⟩
    by_contra hno
    push Not at hno
    have hmem : uarchRamPma.Mem ((0x600 + j) * pmaPageSize) := by
      rw [uarchRamPma_mem_iff]
      simp only [pmaPageSize]
      omega
    have hstay : (afterReset c.ram mb).uarch.ramDirty (0x600 + j) = false :=
      resetMemory_clean (s := ⟨mb.uarch.ram, mb.uarch.ramDirty⟩) hj
        (fun i h1 h2 h3 => by rw [hram]; exact hno i h1 h2 h3) (hclean _ hmem)
    have hpage : (0x600000 + j * pmaPageSize + k) / pmaPageSize = 0x600 + j := by
      simp only [pmaPageSize] at *
      omega
    have hxm : uarchRamPma.Mem (0x600000 + j * pmaPageSize + k) := by
      rw [uarchRamPma_mem_iff]
      simp only [pmaPageSize] at *
      omega
    have hxs : ¬ shadowUarchStatePma.Mem (0x600000 + j * pmaPageSize + k) :=
      PmaEntry.Disjoint.not_mem (p := uarchRamPma) (by decide) hxm
    have hx := hkeep (hpage ▸ page_lt_pageDepth hxm.2) (.inr ⟨hmem, hstay⟩) _ hpage
    rw [loggedImage_of_not_inGap _ _ fun hgap => hgap.not_mem.2 hxm, himage, pristineImage,
      image, if_neg hxs, if_pos hxm, image, if_neg hxs, if_pos hxm] at hx
    refine hne (hx.symm.trans ?_)
    refine writeBytes_of_not_mem (m := fun _ => 0) (a := uarchRamPma.start.toNat) (.inr ?_)
    have hstart : uarchRamPma.start.toNat = 0x600000 := rfl
    simp only [pmaPageSize] at *
    omega

end

/-! ## Two resets -/

/-- An embedded state with the hash that belongs to its RAM. -/
def pristineOf (ram : List Byte) : Pristine FreeHash :=
  { ram, hash := nodeAt freeHasher (uarchImage (pristineUarch ram)) uarchStateStartAddress
      uarchStateLog2Size }

theorem pristineOf_valid (ram : List Byte) : (pristineOf ram).Valid freeHasher := Eq.refl _

/-- The small board has nothing between the registers and the RAM of the microarchitecture. -/
theorem gapZero_smallBoard {m : Machine H} (hb : m.s.board = smallBoard) : GapZero m := by
  intro x hx
  obtain ⟨h1, h2⟩ := hx.not_mem
  rw [image, if_neg h1, if_neg h2]
  refine m.s.boardByte_of_not_mem fun p hp hmem => ?_
  rw [hb] at hp
  have hranges : ∀ p ∈ smallBoard.ranges,
      p.start.toNat + p.length.toNat ≤ 0x401000 ∨ 0x600000 ≤ p.start.toNat := by decide
  obtain ⟨h3, h4⟩ := hx
  obtain ⟨h5, h6⟩ := hmem
  have := hranges p hp
  omega

/-- The reset of a machine that has run an instruction: a log is accepted, and leads to the machine reset. -/
theorem verifyResetUarch_sound_addi :
    let c := pristineOf [0x93, 0x00, 0x10, 0x00]
    (∃ log, verifyResetUarch freeHasher c (freeHasher.root addiStepped.image) log
      (freeHasher.root (afterReset c.ram addiStepped).image) = .ok ()) ∧
    ∀ log rootHashAfter, (∀ a ∈ log, a.FullPath) →
      verifyResetUarch freeHasher c (freeHasher.root addiStepped.image) log rootHashAfter = .ok () →
      rootHashAfter = freeHasher.root (afterReset c.ram addiStepped).image := by
  have hgap : GapZero addiStepped := gapZero_smallBoard rfl
  refine ⟨⟨_, (verifyResetUarch_resetAccess (pristineOf_valid _) false).mpr ?_⟩,
    (verifyResetUarch_sound_iff freeHasher_collisionFree (pristineOf_valid _)).mpr hgap⟩
  rw [image_afterReset, hgap.loggedImage_eq]

def strayImage : List Byte := [0x97, 0x10, 0x00, 0x00, 0x23, 0xa0, 0x10, 0x00]

/-- A new machine whose microarchitecture holds the embedded image. -/
def strayMachine : Machine FreeHash :=
  Machine.new FreeHash smallBoard
    { uarchRam := writeBytes (fun _ => 0) pmaUarchRamStart.toNat strayImage }

/-- The microarchitecture after two steps: the second page of the RAM starts with the word stored. -/
def strayUarch : UarchState :=
  { x := strayMachine.uarch.x.set 1 x1_ne_x0 0x601000, pc := 0x600008, cycle := 2, haltFlag := false,
    ram := writeBytes strayMachine.uarch.ram 0x601000 (toLE 8 0x601000),
    ramDirty := Function.update strayMachine.uarch.ramDirty 0x601 true }

theorem strayMachine_steps : (do
      let _ ← uarchStep.run stateAccess
      uarchStep.run stateAccess) strayMachine = .ok .success (setUarch strayMachine strayUarch) := by
  rfl

theorem strayUarch_dirty (i : Nat) : strayUarch.ramDirty i = true := by
  show Function.update strayMachine.uarch.ramDirty 0x601 true i = true
  by_cases hi : i = 0x601
  · rw [hi, Function.update_self]
  · rw [Function.update_of_ne hi]
    rfl

theorem strayUarch_not_fillMarks : ¬ FillMarks strayImage strayUarch.ram := by
  intro hfill
  have hstart : pmaUarchRamStart.toNat = 0x600000 := rfl
  obtain ⟨k, h1, h2, -, hne⟩ := hfill 1 (by decide) (by decide) ⟨1, by decide, by decide⟩
  have hlen : strayImage.length = 8 := rfl
  refine hne ?_
  rw [hlen] at h1 h2
  simp only [pmaPageSize] at h1 h2 ⊢
  have hout : strayUarch.ram (0x600000 + 1 * 4096 + k) =
      strayMachine.uarch.ram (0x600000 + 1 * 4096 + k) :=
    writeBytes_of_not_mem (.inr (by rw [length_toLE]; omega))
  exact hout.trans (writeBytes_of_not_mem (m := fun _ => 0) (a := pmaUarchRamStart.toNat)
    (.inr (by rw [hlen]; omega)))

end MachineEmulator.Uarch
