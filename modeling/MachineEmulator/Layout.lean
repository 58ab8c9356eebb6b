import MachineEmulator.Create

/-!
# The layout of the address space

The constructor registers the ranges of the board and the VirtIO devices one after the other and refuses
a range that overlaps one it has. The ranges of the microarchitecture are added to the Merkle tree without
that check.

* `registerRanges` : the registration of every range a configuration asks for;
* `merkleRanges` : the ranges the constructor feeds to the Merkle tree;
* `merkleRanges_disjoint_iff` : they are always made of pages, and are pairwise disjoint exactly when no
  flash drive overlaps a range of the microarchitecture.
-/

namespace MachineEmulator

open List BitVec MachineConfig

def pmaFirstVirtioStart : Word := 0x40010000
def pmaVirtioLength : Word := 0x1000

/-- The VirtIO devices a configuration can ask for. -/
inductive VirtioKind where
  | console
  | p9fs
  | netUser
  | netTuntap
  deriving DecidableEq, Repr

def VirtioKind.pmaName : VirtioKind → String
  | .console => "VirtIO Console"
  | .p9fs => "VirtIO 9P"
  | .netUser => "VirtIO Net User"
  | .netTuntap => "VirtIO Net TUN/TAP"

def virtioPma (i : Nat) (k : VirtioKind) : PmaEntry :=
  devicePma k.pmaName (pmaFirstVirtioStart + BitVec.ofNat 64 i * pmaVirtioLength) pmaVirtioLength
    ⟨true, true, false, false, false, .virtio⟩

/-- Register the ranges of a configuration, then its VirtIO devices, with room left for a sentinel. -/
def registerRanges (c : MachineConfig) (virtio : List VirtioKind) : Except String (List PmaEntry) := do
  let pmas ← registerPmas [] (c.pmas ++ virtio.mapIdx virtioPma)
  let _ ← registerPmaEntry pmas (sentinelPma 0)
  pure pmas

/-- The ranges the Merkle tree is about. -/
def merkleRanges (ranges : List PmaEntry) : List PmaEntry :=
  ranges ++ [shadowUarchStatePma, uarchRamPma]

/-- The range meets no range of the microarchitecture. -/
def PmaEntry.AwayFromUarch (p : PmaEntry) : Prop :=
  p.Disjoint shadowUarchStatePma ∧ p.Disjoint uarchRamPma

instance (p : PmaEntry) : Decidable p.AwayFromUarch := inferInstanceAs (Decidable (_ ∧ _))

theorem PmaEntry.awayFromUarch_of_le {p : PmaEntry} (h : 0x800000 ≤ p.start.toNat) : p.AwayFromUarch := by
  have h1 : shadowUarchStatePma.start.toNat + shadowUarchStatePma.length.toNat = 0x401000 := rfl
  have h2 : uarchRamPma.start.toNat + uarchRamPma.length.toNat = 0x800000 := rfl
  exact ⟨.inr (by omega), .inr (by omega)⟩

/-- Where a VirtIO device lies, in a table that has room for it. -/
theorem virtioPma_start {i : Nat} (k : VirtioKind) (hi : i < pmaMax) :
    (virtioPma i k).start.toNat = 0x40010000 + i * 0x1000 := by
  have hs : pmaFirstVirtioStart.toNat = 0x40010000 := rfl
  have hl : pmaVirtioLength.toNat = 0x1000 := rfl
  show (pmaFirstVirtioStart + BitVec.ofNat 64 i * pmaVirtioLength).toNat = _
  rw [toNat_add, toNat_mul, toNat_ofNat, hs, hl]
  simp only [pmaMax] at hi
  omega

section
variable {c : MachineConfig} {virtio : List VirtioKind} {ranges : List PmaEntry}

theorem registerRanges_ok (h : registerRanges c virtio = .ok ranges) :
    registerPmas [] (c.pmas ++ virtio.mapIdx virtioPma) = .ok ranges ∧ ranges.length < pmaMax := by
  simp only [registerRanges, except_bind_ok_iff] at h
  obtain ⟨ps, hreg, qs, hs, hps⟩ := h
  cases hps
  exact ⟨hreg, (registerPmaEntry_ok hs).1⟩

theorem ranges_data : ∀ p ∈ c.pmas ++ virtio.mapIdx virtioPma,
    p.data ≠ .empty ∧ (p.data = .device → p.length ≠ 0) := by
  intro p hp
  rcases mem_append.mp hp with hp | hp
  · exact c.pmas_data p hp
  · obtain ⟨i, hi, rfl⟩ := mem_mapIdx.mp hp
    exact ⟨by simp [virtioPma, devicePma], fun _ => show pmaVirtioLength ≠ 0 by decide⟩

/-- What registration establishes, with VirtIO devices or without. -/
theorem registerRanges_wellFormed (h : registerRanges c virtio = .ok ranges) :
    WellFormedPmas ranges ∧ ∀ p ∈ c.pmas, ∃ i, { p with index := i } ∈ ranges := by
  obtain ⟨hreg, -⟩ := registerRanges_ok h
  obtain ⟨hwf, -, -, hmem⟩ := registerPmas_ok ⟨by simp, List.Pairwise.nil, by simp⟩ ranges_data hreg
  exact ⟨hwf, fun p hp => hmem p (mem_append_left _ hp)⟩

/-- The table has room for every VirtIO device of an accepted configuration. -/
theorem virtio_length_lt (h : registerRanges c virtio = .ok ranges) : virtio.length < pmaMax := by
  obtain ⟨hreg, hlen⟩ := registerRanges_ok h
  obtain ⟨-, hcount, -⟩ := registerPmas_ok ⟨by simp, List.Pairwise.nil, by simp⟩ ranges_data hreg
  rw [length_append, length_mapIdx] at hcount
  omega

/-- Only a flash drive can meet a range of the microarchitecture. -/
theorem awayFromUarch_of_mem (h : registerRanges c virtio = .ok ranges)
    (hflash : ∀ i d, c.flashDrives[i]? = some d → (flashDrivePma i d.1 d.2).AwayFromUarch) :
    ∀ p ∈ ranges, p.AwayFromUarch := by
  intro p hp
  obtain ⟨q, hq, he⟩ : ∃ q ∈ c.pmas ++ virtio.mapIdx virtioPma, p = { q with index := p.index } :=
    (registerPmas_mem (registerRanges_ok h).1 p hp).resolve_left (by simp)
  suffices hq' : q.AwayFromUarch by
    rw [he]
    exact hq'
  rcases mem_append.mp hq with hq | hq
  · simp only [pmas, mem_append, mem_cons, not_mem_nil, or_false,
      mem_mapIdx] at hq
    rcases hq with ((rfl | rfl) | ⟨i, hi, rfl⟩) | rfl | rfl | rfl | rfl | rfl | rfl | rfl | rfl
    · exact PmaEntry.awayFromUarch_of_le (show 0x800000 ≤ pmaRamStart.toNat by decide)
    · decide
    · exact hflash i _ (getElem?_eq_getElem hi)
    all_goals decide
  · obtain ⟨i, hi, rfl⟩ := mem_mapIdx.mp hq
    refine PmaEntry.awayFromUarch_of_le ?_
    rw [virtioPma_start _ (lt_trans hi (virtio_length_lt h))]
    omega

/-- The ranges of the Merkle tree are made of pages. They are pairwise disjoint exactly when no flash drive
overlaps a range of the microarchitecture. -/
theorem merkleRanges_disjoint_iff (h : registerRanges c virtio = .ok ranges) :
    (∀ p ∈ merkleRanges ranges, p.start.toNat % pmaPageSize = 0 ∧ p.length.toNat % pmaPageSize = 0) ∧
      ((merkleRanges ranges).Pairwise PmaEntry.Disjoint ↔
        ∀ i d, c.flashDrives[i]? = some d → (flashDrivePma i d.1 d.2).AwayFromUarch) := by
  obtain ⟨hwf, hmem⟩ := registerRanges_wellFormed h
  refine ⟨fun p hp => ?_, fun hpair i d hd => ?_, fun hflash => ?_⟩
  · rcases mem_append.mp hp with hp | hp
    · exact ⟨(hwf.paged p hp).start_mod, (hwf.paged p hp).length_mod⟩
    · have huarch : ∀ q ∈ [shadowUarchStatePma, uarchRamPma],
          q.start.toNat % pmaPageSize = 0 ∧ q.length.toNat % pmaPageSize = 0 := by decide
      exact huarch p hp
  · obtain ⟨hi, rfl⟩ := List.getElem?_eq_some_iff.mp hd
    obtain ⟨j, hj⟩ := hmem (flashDrivePma i c.flashDrives[i].1 c.flashDrives[i].2) (by
      simp only [pmas, mem_append, mem_mapIdx]
      exact .inl (.inr ⟨i, hi, rfl⟩))
    have hcross := (pairwise_append.mp hpair).2.2 _ hj
    exact ⟨hcross _ (by simp), hcross _ (by simp)⟩
  · refine pairwise_append.mpr ⟨hwf.disjoint, by decide, fun p hp q hq => ?_⟩
    obtain ⟨h1, h2⟩ := awayFromUarch_of_mem h hflash p hp
    rcases mem_cons.mp hq with rfl | hq
    · exact h1
    · rw [mem_singleton.mp hq]
      exact h2

end

/-- A small machine with a flash drive behind its RAM. -/
def driveConfig : MachineConfig := { ramLength := 0x1000, flashDrives := [(some 0x80000000000000, 0x2000)] }

/-- Its ranges, with a VirtIO console. -/
def driveRanges : List PmaEntry :=
  (driveConfig.pmas ++ [virtioPma 0 .console]).mapIdx fun i p => { p with index := i }

theorem merkleRanges_disjoint_drive : registerRanges driveConfig [.console] = .ok driveRanges ∧
    (merkleRanges driveRanges).Pairwise PmaEntry.Disjoint := by
  have hreg : registerRanges driveConfig [.console] = .ok driveRanges := by rfl
  refine ⟨hreg, (merkleRanges_disjoint_iff hreg).2.mpr fun i d hd => ?_⟩
  obtain ⟨rfl, rfl⟩ : i = 0 ∧ d = (some 0x80000000000000, 0x2000) := by
    cases i with
    | zero => exact ⟨rfl, (Option.some.inj hd).symm⟩
    | succ i => cases hd
  unfold PmaEntry.AwayFromUarch
  decide

/-- A board with a flash drive on the registers of the microarchitecture. -/
def overlapConfig : MachineConfig := { ramLength := 0x1000, flashDrives := [(some 0x400000, 0x1000)] }

def overlapBoard : Board :=
  { config := overlapConfig
    ranges := overlapConfig.pmas.mapIdx fun i p => { p with index := i }
    registered := by rfl }

/-- The constructor accepts it, and two ranges of the Merkle tree own the same page. -/
theorem merkleRanges_overlap : (∃ m, Machine.create FreeHash overlapBoard { uarchRam := fun _ => 0 } = .ok m) ∧
      registerRanges overlapConfig [] = .ok overlapBoard.ranges ∧
      ¬ (merkleRanges overlapBoard.ranges).Pairwise PmaEntry.Disjoint ∧
      ∃ p ∈ overlapBoard.ranges, p.Mem 0x400000 ∧ shadowUarchStatePma.Mem 0x400000 := by
  refine ⟨⟨_, rfl⟩, rfl, by decide, by decide⟩

end MachineEmulator
