import MachineEmulator.NodeAccess
import MachineEmulator.PmaMemory
import MachineEmulator.Uarch.RecordStateAccess

/-!
# Resetting the microarchitecture

* `resetState`, `recordResetState`, `replayResetState` : the reset under the three accessors. The log
  has one access, which writes the node of the whole microarchitecture;
* `uarchImage` : the bytes of that node as the pristine hash takes them, with nothing between the
  registers and the RAM;
* `resetState_eq` : the machine after a reset, and `image_afterReset` : its image;
* `verifyResetUarch_sound_iff` : the verifier is sound for a machine exactly when the machine shows only
  zeros between the registers and the RAM of the microarchitecture.
-/

namespace MachineEmulator.Uarch

open PmaEntry Machine EStateM

open EStateM (query update)

variable {H : Type}

def uarchStateStartAddress : Word := 0x400000
def uarchStateLog2Size : Nat := 22

/-- What is embedded in the emulator: the start of the pristine RAM, and the hash of the pristine
state. -/
structure Pristine (H : Type) where
  ram : List Byte
  hash : H

/-! ## The plain reset -/

def resetRegs (u : UarchState) : UarchState :=
  { u with haltFlag := false, pc := pmaUarchRamStart, cycle := 0, x := .zero }

/-- Apply an operation of a memory range to the RAM. -/
def onRam (f : PagedMemory → Except String PagedMemory) (m : Machine H) : Except String (Machine H) := do
  let s ← f ⟨m.uarch.ram, m.uarch.ramDirty⟩
  .ok (setUarch m { m.uarch with ram := s.mem, ramDirty := s.dirty })

def writeResetRegs : EStateM String (Machine H) Unit :=
  update fun m => .ok (setUarch m (resetRegs m.uarch))

/-- Load the embedded image and fill the rest of the RAM with zeros. -/
def writeResetRam (ram : List Byte) : EStateM String (Machine H) Unit := do
  update (onRam fun s => uarchRamPma.writeMemory s uarchRamPma.start ram)
  update (onRam fun s => uarchRamPma.fillMemory s (uarchRamPma.start + BitVec.ofNat 64 ram.length) 0
    (uarchRamPma.length.toNat - ram.length))

def resetState (ram : List Byte) : EStateM String (Machine H) Unit := do
  writeResetRegs
  query fun _ => throwUnless (ram.length ≤ uarchRamPma.length.toNat)
    "embedded uarch ram image does not fit in uarch ram pma"
  writeResetRam ram

/-! ## Recording and replaying -/

/-- The bytes of the microarchitecture: its page of registers, zeros, and its RAM. -/
def getUarchStateImage (u : UarchState) : List Byte :=
  let page := readBytes (wordsImage (shadowUarchStateWords u)) 0 pmaPageSize
  let ram := readBytes u.ram uarchRamPma.start.toNat uarchRamPma.length.toNat
  let ramOffset := (uarchRamPma.start - uarchStateStartAddress).toNat
  readBytes (writeBytes (writeBytes (fun _ => 0) 0 page) ramOffset ram) 0 (2 ^ uarchStateLog2Size)

/-- A computation of the machine inside a recording one. -/
def onMachine {α : Type} (x : EStateM String (Machine H) α) : Record H α := fun r =>
  match x r.1 with
  | .ok a m => .ok a (m, r.2)
  | .error e m => .error e (m, r.2)

/-- The data that a log with large data carries. -/
def largeImage (largeData : Bool) (m : Machine H) : Option (List Byte) :=
  if largeData then some (getUarchStateImage m.uarch) else none

section
variable [DecidableEq H] (h : Hasher H) (c : Pristine H)

def recordResetState (largeData : Bool) : Record H Unit := do
  let proof ← onMachine (Machine.getProof h uarchStateStartAddress uarchStateLog2Size)
  let read ← query fun r => .ok (largeImage largeData r.1)
  onMachine writeResetRegs
  onMachine (writeResetRam c.ram)
  update fun r => .ok (r.1, r.2 ++ [{
    type := .write, address := uarchStateStartAddress, log2Size := uarchStateLog2Size, read,
    readHash := proof.targetHash, written := largeImage largeData r.1, writtenHash := some c.hash,
    siblingHashes := some proof.siblingHashes }])

def replayResetState : Replay H Unit :=
  checkAccess fun root next a => do
    let root' ← checkNodeWriteAccess h root next a uarchStateStartAddress uarchStateLog2Size "uarchState"
      (.ok c.hash)
      (fun report => "expected address of " ++ report ++ " to be the start address of the uarch state")
      (fun report => "expected written hash of " ++ report ++
        " to be the start hash of the pristine uarch state")
    .ok ((), root')

def verifyResetUarch (rootHashBefore : H) (log : List (Access H)) (rootHashAfter : H) :
    Except String Unit :=
  verifyLog (replayResetState h c) rootHashBefore log rootHashAfter

def logResetUarch (largeData : Bool) : EStateM String (Machine H) (List (Access H)) := do
  let rootHashBefore ← Machine.getRootHash h
  let log ← recorded (recordResetState h c largeData)
  -- whether this update worked is not looked at
  let _ ← Machine.updateMerkleTree h
  let rootHashAfter ← Machine.getRootHash h
  query fun _ => verifyResetUarch h c rootHashBefore log rootHashAfter
  return log

end

/-! ## The pristine microarchitecture -/

/-- The microarchitecture a reset is meant to give. -/
def pristineUarch (ram : List Byte) : UarchState :=
  { x := .zero, pc := pmaUarchRamStart, cycle := 0, haltFlag := false,
    ram := writeBytes (fun _ => 0) uarchRamPma.start.toNat ram, ramDirty := fun _ => false }

/-- The bytes of a microarchitecture alone. -/
def uarchImage (u : UarchState) (x : Nat) : Byte :=
  if shadowUarchStatePma.Mem x then
    wordsImage (shadowUarchStateWords u) (x - pmaShadowUarchStateStart.toNat)
  else if uarchRamPma.Mem x then u.ram x
  else 0

/-- The image of the machine with a pristine microarchitecture. -/
def pristineImage (ram : List Byte) (m : Machine H) : Nat → Byte :=
  (setUarch m (pristineUarch ram)).image

/-- The embedded hash is the hash of the embedded state. -/
def Pristine.Valid (h : Hasher H) (c : Pristine H) : Prop :=
  c.hash = nodeAt h (uarchImage (pristineUarch c.ram)) uarchStateStartAddress uarchStateLog2Size

/-- The address lies in the node of the microarchitecture, between its registers and its RAM. -/
def InGap (x : Nat) : Prop := 0x401000 ≤ x ∧ x < 0x600000

/-- The machine shows only zeros between the registers and the RAM of the microarchitecture. -/
def GapZero (m : Machine H) : Prop := ∀ x, InGap x → m.image x = 0

/-- The image that the log of a reset describes: the node is the pristine one, gap and all. -/
def loggedImage (ram : List Byte) (m : Machine H) (x : Nat) : Byte :=
  if x / 2 ^ uarchStateLog2Size = uarchStateStartAddress.toNat / 2 ^ uarchStateLog2Size then
    uarchImage (pristineUarch ram) x
  else m.image x

variable {x : Nat} {ram : List Byte} {m : Machine H}

theorem uarchNode_iff : x / 2 ^ uarchStateLog2Size = uarchStateStartAddress.toNat / 2 ^ uarchStateLog2Size ↔
      shadowUarchStatePma.Mem x ∨ InGap x ∨ uarchRamPma.Mem x := by
  have h1 : uarchStateStartAddress.toNat / 2 ^ uarchStateLog2Size = 1 := rfl
  have h2 : uarchRamPma.start.toNat = 0x600000 := rfl
  have h3 : uarchRamPma.length.toNat = 0x200000 := rfl
  have h4 : shadowUarchStatePma.start.toNat = 0x400000 := rfl
  have h5 : shadowUarchStatePma.length.toNat = 0x1000 := rfl
  rw [h1]
  simp only [uarchStateLog2Size, Mem, InGap]
  omega

theorem InGap.not_mem (hx : InGap x) : ¬ shadowUarchStatePma.Mem x ∧ ¬ uarchRamPma.Mem x := by
  have h2 : uarchRamPma.start.toNat = 0x600000 := rfl
  have h4 : shadowUarchStatePma.start.toNat = 0x400000 := rfl
  have h5 : shadowUarchStatePma.length.toNat = 0x1000 := rfl
  simp only [Mem, InGap] at *
  omega

/-- Inside the gap the log of a reset says zero, and the reset changes nothing. -/
theorem images_of_inGap (ram : List Byte) (m : Machine H) (hx : InGap x) :
    loggedImage ram m x = 0 ∧ pristineImage ram m x = m.image x := by
  obtain ⟨h1, h2⟩ := hx.not_mem
  constructor
  · rw [loggedImage, if_pos (uarchNode_iff.mpr (.inr (.inl hx))), uarchImage, if_neg h1, if_neg h2]
  · rw [pristineImage, image, if_neg h1, if_neg h2, image, if_neg h1, if_neg h2]
    rfl

/-- Outside the gap the log of a reset and the reset agree. -/
theorem loggedImage_of_not_inGap (ram : List Byte) (m : Machine H) (hx : ¬ InGap x) :
    loggedImage ram m x = pristineImage ram m x := by
  unfold loggedImage
  split
  · rename_i hnode
    unfold uarchImage pristineImage image
    rcases (uarchNode_iff.mp hnode) with h1 | hgap | h2
    · rw [if_pos h1, if_pos h1]
      rfl
    · exact absurd hgap hx
    · split <;> rfl
  · rename_i hnode
    rw [uarchNode_iff, not_or, not_or] at hnode
    rw [pristineImage, image, if_neg hnode.1, if_neg hnode.2.2, image,
      if_neg hnode.1, if_neg hnode.2.2]
    rfl

theorem GapZero.loggedImage_eq (hgap : GapZero m) : loggedImage ram m = pristineImage ram m := by
  funext x
  by_cases hx : InGap x
  · obtain ⟨h1, h2⟩ := images_of_inGap ram m hx
    rw [h1, h2, hgap x hx]
  · exact loggedImage_of_not_inGap ram m hx

theorem gapZero_of_loggedImage (ram : List Byte)
    (heq : ∀ x, x < 2 ^ 64 → loggedImage ram m x = pristineImage ram m x) : GapZero m := by
  intro x hx
  obtain ⟨h1, h2⟩ := images_of_inGap ram m hx
  rw [← h2, ← heq x (lt_of_lt_of_le hx.2 (by decide)), h1]

/-! ## The machine after a reset -/

/-- The RAM after a reset, with its dirty pages. -/
def resetMemory (ram : List Byte) (s : PagedMemory) : PagedMemory :=
  (s.write uarchRamPma.start.toNat ram).write (uarchRamPma.start.toNat + ram.length)
    (List.replicate (uarchRamPma.length.toNat - ram.length) 0)

def afterReset (ram : List Byte) (m : Machine H) : Machine H :=
  let s := resetMemory ram ⟨m.uarch.ram, m.uarch.ramDirty⟩
  setUarch m { resetRegs m.uarch with ram := s.mem, ramDirty := s.dirty }

@[simp] theorem afterReset_s (ram : List Byte) (m : Machine H) : (afterReset ram m).s = m.s := rfl

theorem onRam_ok {f : PagedMemory → Except String PagedMemory} {s : PagedMemory}
    (hs : f ⟨m.uarch.ram, m.uarch.ramDirty⟩ = .ok s) :
    onRam f m = .ok (setUarch m { m.uarch with ram := s.mem, ramDirty := s.dirty }) := by
  rw [onRam, except_bind_ok_iff]
  exact ⟨s, hs, rfl⟩

theorem checkMemory_ram {paddr : Word} {n : Nat} (h1 : uarchRamPma.start.toNat ≤ paddr.toNat)
    (h2 : paddr.toNat + n ≤ uarchRamPma.start.toNat + uarchRamPma.length.toNat) :
    uarchRamPma.checkMemory paddr n = .ok () := by
  have hn : (BitVec.ofNat 64 n).toNat = n := by
    rw [BitVec.toNat_ofNat, Nat.mod_eq_of_lt]
    omega
  refine checkMemory_ok_iff.mpr ⟨by decide, contains_iff.mpr ⟨by decide, h1, ?_⟩⟩
  rwa [hn]

theorem writeResetRam_eq (hlen : ram.length ≤ uarchRamPma.length.toNat) (m : Machine H) :
    let s := resetMemory ram ⟨m.uarch.ram, m.uarch.ramDirty⟩
    writeResetRam ram m = .ok () (setUarch m { m.uarch with ram := s.mem, ramDirty := s.dirty }) := by
  have h1 : uarchRamPma.start.toNat = 0x600000 := rfl
  have h2 : uarchRamPma.length.toNat = 0x200000 := rfl
  have hend : (uarchRamPma.start + BitVec.ofNat 64 ram.length).toNat =
      uarchRamPma.start.toNat + ram.length := by
    rw [BitVec.toNat_add, BitVec.toNat_ofNat]
    omega
  unfold writeResetRam
  simp only [bind_ok_iff, update_ok_iff]
  refine ⟨(), _, onRam_ok (writeMemory_ok_iff.mpr
    ⟨checkMemory_ram (Nat.le_refl _) (by omega), rfl⟩), ?_⟩
  refine onRam_ok (s := resetMemory ram ⟨m.uarch.ram, m.uarch.ramDirty⟩)
    (fillMemory_zero_ok_iff.mpr ⟨checkMemory_ram (by omega) (by omega), ?_⟩)
  rw [hend]
  rfl

theorem resetState_eq (hlen : ram.length ≤ uarchRamPma.length.toNat)
    (m : Machine H) : resetState ram m = .ok () (afterReset ram m) := by
  unfold resetState
  simp only [bind_ok_iff, query_ok_iff, throwUnless_ok_iff]
  exact ⟨(), _, rfl, (), _, ⟨hlen, rfl⟩, writeResetRam_eq hlen _⟩

theorem resetMemory_mem {s : PagedMemory} (hx : uarchRamPma.Mem x) :
    (resetMemory ram s).mem x = (pristineUarch ram).ram x := by
  simp only [resetMemory, PagedMemory.write_mem, pristineUarch]
  obtain ⟨h1, h2⟩ := hx
  obtain ⟨k, rfl⟩ := Nat.exists_eq_add_of_le h1
  by_cases hk : k < ram.length
  · rw [writeBytes_of_not_mem (.inl (by omega)), writeBytes_of_mem hk, writeBytes_of_mem hk]
  · obtain ⟨j, rfl⟩ := Nat.exists_eq_add_of_le (Nat.le_of_not_lt hk)
    rw [writeBytes_of_not_mem (m := fun _ => 0) (.inr (by omega)), ← Nat.add_assoc,
      writeBytes_of_mem (by rw [List.length_replicate]; omega)]
    simp

/-- The image after a reset is the one with a pristine microarchitecture. -/
theorem image_afterReset (ram : List Byte) (m : Machine H) :
    (afterReset ram m).image = pristineImage ram m := by
  funext x
  unfold pristineImage image
  split
  · rfl
  · split
    · rename_i hx
      exact resetMemory_mem hx
    · rfl

/-! ## Soundness -/

section
variable {h : Hasher H} {c : Pristine H} {m : Machine H}

theorem uarchState_aligned : uarchStateStartAddress.toNat % 2 ^ uarchStateLog2Size = 0 := rfl

/-- The pristine hash is the node of the image the log describes. -/
theorem Pristine.Valid.hash_eq (hv : c.Valid h) (m : Machine H) :
    c.hash = nodeAt h (loggedImage c.ram m) uarchStateStartAddress uarchStateLog2Size := by
  rw [hv]
  refine Hasher.node_congr fun x h1 h2 => ?_
  rw [loggedImage, if_pos]
  simp only [uarchStateLog2Size, uarchStateStartAddress, wordSize, log2WordSize] at *
  omega

theorem loggedImage_outside (ram : List Byte) (m : Machine H)
    (hx : x / 2 ^ uarchStateLog2Size ≠ uarchStateStartAddress.toNat / 2 ^ uarchStateLog2Size) :
    loggedImage ram m x = m.image x := by
  rw [loggedImage, if_neg hx]

def resetAccess (h : Hasher H) (ram : List Byte) (m : Machine H) (largeData : Bool) : Access H :=
  nodeWriteAccess h m.image (loggedImage ram m) uarchStateStartAddress uarchStateLog2Size largeData

theorem resetAccess_fullPath (ram : List Byte) (m : Machine H) (largeData : Bool) :
    ∀ a ∈ [resetAccess h ram m largeData], a.FullPath := by
  intro a ha
  rw [List.mem_singleton.mp ha]
  exact nodeWriteAccess_fullPath (by decide)

variable [DecidableEq H]

/-- An accepted log of a reset leads to the root of the image it describes. -/
theorem verifyResetUarch_root (hcf : h.CollisionFree) (hv : c.Valid h) {log : List (Access H)}
    {rootHashAfter : H} (hlog : ∀ a ∈ log, a.FullPath)
    (hok : verifyResetUarch h c (h.root m.image) log rootHashAfter = .ok ()) :
    rootHashAfter = h.root (loggedImage c.ram m) := by
  obtain ⟨_, r, hr, rfl⟩ := verifyLog_ok hok
  obtain ⟨a, ha, hcheck⟩ := checkAccess_ok hr
  obtain ⟨root', hnode, hroot⟩ := except_bind_ok_iff.mp hcheck
  obtain ⟨-, rfl⟩ := Prod.mk.inj (Except.ok.inj hroot)
  rw [hv.hash_eq m] at hnode
  refine checkNodeWriteAccess_sound hcf (by decide) (by decide) uarchState_aligned (hlog a ?_)
    (fun x hx => loggedImage_outside c.ram m hx) hnode
  have ha : log = [a] := ha
  rw [ha]
  exact List.mem_singleton_self a

/-- The verifier accepts that access, and only with the root of the image it describes. -/
theorem verifyResetUarch_resetAccess (hv : c.Valid h) (largeData : Bool) {rootHashAfter : H} :
    verifyResetUarch h c (h.root m.image) [resetAccess h c.ram m largeData] rootHashAfter = .ok () ↔
      rootHashAfter = h.root (loggedImage c.ram m) := by
  have hrun : replayResetState h c (⟨h.root m.image, 0⟩, [resetAccess h c.ram m largeData]) =
      .ok () (⟨h.root (loggedImage c.ram m), 1⟩, []) := by
    simp only [replayResetState, checkAccess]
    rw [hv.hash_eq m, resetAccess, checkNodeWriteAccess_nodeWriteAccess largeData (by decide)
      (by decide) uarchState_aligned fun x hx => (loggedImage_outside c.ram m hx).symm]
    rfl
  unfold verifyResetUarch verifyLog
  rw [if_neg (List.cons_ne_nil _ _), hrun]
  simp only [ne_eq, not_true_eq_false, if_false]
  constructor
  · intro hok
    by_contra hne
    rw [if_pos fun he => hne he.symm] at hok
    cases hok
  · rintro rfl
    rw [if_neg (not_not.mpr rfl)]

/-- The verifier of resets is sound for a machine exactly when the gap shows only zeros. -/
theorem verifyResetUarch_sound_iff (hcf : h.CollisionFree) (hv : c.Valid h) :
    (∀ log rootHashAfter, (∀ a ∈ log, a.FullPath) →
      verifyResetUarch h c (h.root m.image) log rootHashAfter = .ok () →
      rootHashAfter = h.root (afterReset c.ram m).image) ↔ GapZero m := by
  rw [image_afterReset]
  constructor
  · intro hsound
    exact gapZero_of_loggedImage c.ram (hcf.root_inj (hsound [resetAccess h c.ram m false] _
      (resetAccess_fullPath c.ram m false) ((verifyResetUarch_resetAccess hv false).mpr rfl)))
  · intro hgap log rootHashAfter hlog hok
    rw [← hgap.loggedImage_eq]
    exact verifyResetUarch_root hcf hv hlog hok

end

end MachineEmulator.Uarch
