import MachineEmulator.Lib.Bytes
import Mathlib.Data.List.Pairwise

/-!
# Physical memory attributes: the ranges of a machine

* `PmaEntry` : a range of the physical address space, with its flags and device id;
* `registerPmaEntry` : the checks the machine makes before it adds a range to its board;
* `MachineConfig.register` : the ranges of a machine, in the order the constructor registers them;
* `Board` : ranges the constructor accepted. They are page aligned, lie below `2 ^ 56` and are
  pairwise disjoint (`Board.wellFormed`).
-/

namespace MachineEmulator

open BitVec List

abbrev Word := BitVec 64

/-- Register numbers are written as numerals. -/
instance neZeroRegCount : NeZero (32 : Nat) := ⟨by decide⟩

/-! ## Constants -/

def pmaPageSize : Nat := 4096
def pmaMax : Nat := 32
def pmaAddressableMask : Word := 0xffffffffffffff
def pageOffsetMask : Word := 4095

def pmaShadowStateStart : Word := 0x0
def pmaShadowStateLength : Word := 0x1000
def pmaShadowPmasStart : Word := 0x10000
def pmaShadowPmasLength : Word := 0x1000
def pmaShadowTlbStart : Word := 0x20000
def pmaShadowTlbLength : Word := 0x6000
def pmaShadowUarchStateStart : Word := 0x400000
def pmaShadowUarchStateLength : Word := 0x1000
def pmaUarchRamStart : Word := 0x600000
def pmaUarchRamLength : Word := 0x200000
def pmaClintStart : Word := 0x2000000
def pmaClintLength : Word := 0xC0000
def pmaPlicStart : Word := 0x40100000
def pmaPlicLength : Word := 0x400000
def pmaHtifStart : Word := 0x40008000
def pmaHtifLength : Word := 0x1000
def pmaDtbStart : Word := 0x7ff00000
def pmaDtbLength : Word := 0x100000
def pmaCmioRxBufferStart : Word := 0x60000000
def pmaCmioRxBufferLog2Size : Nat := 21
def pmaCmioTxBufferStart : Word := 0x60800000
def pmaCmioTxBufferLog2Size : Nat := 21
def pmaRamStart : Word := 0x80000000
def pmaDriveStart : Word := 0x80000000000000
def pmaDriveOffset : Word := 0x10000000000000

/-! ## Entries -/

inductive PmaDid where
  | memory
  | shadowState
  | shadowPmas
  | flashDrive
  | clint
  | htif
  | shadowTlb
  | cmioRxBuffer
  | cmioTxBuffer
  | plic
  | virtio
  | shadowUarch
  deriving DecidableEq, Repr

def PmaDid.code : PmaDid → Nat
  | .memory => 0
  | .shadowState => 1
  | .shadowPmas => 2
  | .flashDrive => 3
  | .clint => 4
  | .htif => 5
  | .shadowTlb => 6
  | .cmioRxBuffer => 7
  | .cmioTxBuffer => 8
  | .plic => 10
  | .virtio => 11
  | .shadowUarch => 12

/-- What stands behind a range: nothing (E), a device (IO) or host memory (M). -/
inductive PmaData where
  | empty
  | device
  | memory
  deriving DecidableEq, Repr

structure PmaFlags where
  R : Bool
  W : Bool
  X : Bool
  IR : Bool
  IW : Bool
  DID : PmaDid
  deriving DecidableEq, Repr

structure PmaEntry where
  description : String
  start : Word
  length : Word
  index : Nat
  flags : PmaFlags
  data : PmaData
  deriving DecidableEq, Repr

namespace PmaEntry

def istartM (p : PmaEntry) : Bool := p.data == .memory
def istartIO (p : PmaEntry) : Bool := p.data == .device
def istartE (p : PmaEntry) : Bool := p.data == .empty

/-- The packed start and flags, as the shadow PMA table shows them. -/
def getIstart (p : PmaEntry) : Word :=
  let bit (b : Bool) (i : Nat) : Word := if b then 1 <<< i else 0
  p.start ||| bit p.istartM 0 ||| bit p.istartIO 1 ||| bit p.istartE 2 ||| bit p.flags.R 3 |||
    bit p.flags.W 4 ||| bit p.flags.X 5 ||| bit p.flags.IR 6 ||| bit p.flags.IW 7 |||
    (BitVec.ofNat 64 p.flags.DID.code <<< 8)

def getIlength (p : PmaEntry) : Word := p.length

/-- Does the range contain the `length` bytes at `address`? -/
def contains (p : PmaEntry) (address length : Word) : Bool :=
  !p.istartE && p.start ≤ address && length ≤ p.length && address - p.start ≤ p.length - length

def Mem (p : PmaEntry) (a : Nat) : Prop :=
  p.start.toNat ≤ a ∧ a < p.start.toNat + p.length.toNat

instance (p : PmaEntry) (a : Nat) : Decidable (p.Mem a) := inferInstanceAs (Decidable (_ ∧ _))

/-- `contains` says that every byte of the access lies in the range. -/
theorem contains_iff {p : PmaEntry} {address length : Word} :
    p.contains address length = true ↔ p.istartE = false ∧ p.start.toNat ≤ address.toNat ∧
      address.toNat + length.toNat ≤ p.start.toNat + p.length.toNat := by
  simp only [contains, Bool.and_eq_true, Bool.not_eq_true', decide_eq_true_eq, le_def]
  constructor
  · rintro ⟨⟨⟨h₁, h2⟩, h3⟩, h4⟩
    rw [toNat_sub_of_le (le_def.mpr h2),
      toNat_sub_of_le (le_def.mpr h3)] at h4
    exact ⟨h₁, h2, by omega⟩
  · rintro ⟨h₁, h2, h3⟩
    have h3' : length.toNat ≤ p.length.toNat := by omega
    refine ⟨⟨⟨h₁, h2⟩, h3'⟩, ?_⟩
    rw [toNat_sub_of_le (le_def.mpr h2),
      toNat_sub_of_le (le_def.mpr h3')]
    omega

end PmaEntry

def emptyPma : PmaEntry :=
  { description := "", start := 0, length := 0, index := pmaMax,
    flags := ⟨false, false, false, false, false, .memory⟩, data := .empty }

/-- The sentinel entry at position `i` of the board. -/
def sentinelPma (i : Nat) : PmaEntry := { emptyPma with description := "sentinel", index := i }

/-- The first range that contains the access, or the first empty one. -/
def findPmaEntry : List PmaEntry → Word → Word → PmaEntry
  | [], _, _ => emptyPma
  | p :: ps, paddr, length =>
    if p.length = 0 || p.contains paddr length then p else findPmaEntry ps paddr length

/-! ## Registration -/

/-- Two ranges overlap if each starts before the other ends. -/
def PmaEntry.overlaps (p q : PmaEntry) : Bool :=
  p.start < q.start + q.length && q.start < p.start + p.length

def registerPmaEntry (pmas : List PmaEntry) (pma : PmaEntry) : Except String (List PmaEntry) :=
  if pmaMax ≤ pmas.length then
    .error ("too many PMAs when adding " ++ pma.description)
  else if pma.start &&& pageOffsetMask ≠ 0 then
    .error ("start of " ++ pma.description ++ " (" ++ toString pma.start.toNat ++
      ") must be aligned to page boundary of " ++ toString pmaPageSize ++ " bytes")
  else if pma.length &&& pageOffsetMask ≠ 0 then
    .error ("length of " ++ pma.description ++ " (" ++ toString pma.length.toNat ++
      ") must be multiple of page size " ++ toString pmaPageSize)
  else if (pma.length ≠ 0 ∨ pma.start ≠ 0) ∧ pma.length = 0 then
    .error ("length of " ++ pma.description ++ " cannot be zero")
  else if (pma.length ≠ 0 ∨ pma.start ≠ 0) ∧
      (pmaAddressableMask < pma.start ∨ pmaAddressableMask - pma.start < pma.length - 1) then
    .error ("range of " ++ pma.description ++ " must use at most 56 bits to be addressable")
  else
    match pmas.find? fun q => pma.overlaps q with
    | some q => .error ("range of " ++ pma.description ++ " overlaps with range of existing " ++
        q.description)
    | none => .ok (pmas ++ [{ pma with index := pmas.length }])

/-- The memory ranges a configuration chooses; `none` for the default start of a flash drive. -/
structure MachineConfig where
  ramLength : Word
  flashDrives : List (Option Word × Word)

def memoryFlags (X : Bool) (W : Bool) (DID : PmaDid) : PmaFlags := ⟨true, W, X, true, true, DID⟩

def memoryPma (description : String) (start length : Word) (flags : PmaFlags) : PmaEntry :=
  { description, start, length, index := pmaMax, flags, data := .memory }

def devicePma (description : String) (start length : Word) (flags : PmaFlags) : PmaEntry :=
  { description, start, length, index := pmaMax, flags, data := .device }

def ramPma (length : Word) : PmaEntry :=
  memoryPma "RAM" pmaRamStart length (memoryFlags true true .memory)

def dtbPma : PmaEntry :=
  memoryPma "DTB" pmaDtbStart pmaDtbLength (memoryFlags true true .memory)

def flashDrivePma (i : Nat) (start : Option Word) (length : Word) : PmaEntry :=
  memoryPma ("flash drive " ++ toString i)
    (start.getD (pmaDriveStart + pmaDriveOffset * BitVec.ofNat 64 i)) length
    (memoryFlags false true .flashDrive)

def cmioTxBufferPma : PmaEntry :=
  memoryPma "cmio tx buffer memory range" pmaCmioTxBufferStart (1 <<< pmaCmioTxBufferLog2Size)
    (memoryFlags false true .cmioTxBuffer)

def cmioRxBufferPma : PmaEntry :=
  memoryPma "cmio rx buffer memory range" pmaCmioRxBufferStart (1 <<< pmaCmioRxBufferLog2Size)
    (memoryFlags false false .cmioRxBuffer)

def htifPma : PmaEntry :=
  devicePma "HTIF device" pmaHtifStart pmaHtifLength ⟨true, true, false, false, false, .htif⟩

def clintPma : PmaEntry :=
  devicePma "CLINT device" pmaClintStart pmaClintLength ⟨true, true, false, false, false, .clint⟩

def plicPma : PmaEntry :=
  devicePma "PLIC device" pmaPlicStart pmaPlicLength ⟨true, true, false, false, false, .plic⟩

def shadowTlbPma : PmaEntry :=
  devicePma "shadow TLB device" pmaShadowTlbStart pmaShadowTlbLength
    ⟨false, false, false, false, false, .shadowTlb⟩

def shadowStatePma : PmaEntry :=
  devicePma "shadow state device" pmaShadowStateStart pmaShadowStateLength
    ⟨false, false, false, false, false, .shadowState⟩

def shadowPmasPma : PmaEntry :=
  memoryPma "shadow PMAs" pmaShadowPmasStart pmaShadowPmasLength
    ⟨true, false, false, false, false, .shadowPmas⟩

/-- The ranges of a configuration, in the order of their registration. -/
def MachineConfig.pmas (c : MachineConfig) : List PmaEntry :=
  [ramPma c.ramLength, dtbPma] ++
    c.flashDrives.mapIdx (fun i d => flashDrivePma i d.1 d.2) ++
    [cmioTxBufferPma, cmioRxBufferPma, htifPma, clintPma, plicPma, shadowTlbPma, shadowStatePma,
      shadowPmasPma]

/-- Make the ranges one after the other, each registered as soon as it is made. A memory range of
length zero cannot be made. -/
def registerPmas : List PmaEntry → List PmaEntry → Except String (List PmaEntry)
  | pmas, [] => .ok pmas
  | pmas, p :: ps =>
    if p.istartM && p.length = 0 then .error (p.description ++ " length cannot be zero")
    else
      match registerPmaEntry pmas p with
      | .error e => .error e
      | .ok pmas' => registerPmas pmas' ps

/-- The board of a configuration: every range registered, and room left for a sentinel. -/
def MachineConfig.register (c : MachineConfig) : Except String (List PmaEntry) := do
  let pmas ← registerPmas [] c.pmas
  let _ ← registerPmaEntry pmas (sentinelPma 0)
  pure pmas

/-- The ranges of a machine the constructor accepted. -/
structure Board where
  config : MachineConfig
  ranges : List PmaEntry
  registered : config.register = .ok ranges

/-- The table of the machine: the ranges, then sentinels up to its capacity. -/
def Board.pmas (b : Board) : List PmaEntry :=
  b.ranges ++ (List.range' b.ranges.length (pmaMax - b.ranges.length)).map sentinelPma

/-! ## What registration establishes -/

def PmaEntry.Disjoint (p q : PmaEntry) : Prop :=
  p.start.toNat + p.length.toNat ≤ q.start.toNat ∨ q.start.toNat + q.length.toNat ≤ p.start.toNat

variable {p q : PmaEntry}

theorem PmaEntry.Disjoint.symm (h : p.Disjoint q) : q.Disjoint p := Or.symm h

theorem PmaEntry.Disjoint.not_mem (h : p.Disjoint q) {a : Nat} (hp : p.Mem a) : ¬ q.Mem a := by
  rintro ⟨h₁, h2⟩
  obtain ⟨h3, h4⟩ := hp
  rcases h with h | h <;> omega

/-- A range of pages below `2 ^ 56` that is not empty. -/
structure PmaEntry.Paged (p : PmaEntry) : Prop where
  start_mod : p.start.toNat % pmaPageSize = 0
  length_mod : p.length.toNat % pmaPageSize = 0
  length_pos : 0 < p.length.toNat
  end_le : p.start.toNat + p.length.toNat ≤ 2 ^ 56
  not_empty : p.data ≠ .empty

/-- Pages below `2 ^ 56`, pairwise disjoint, each entry knowing its position. -/
structure WellFormedPmas (ps : List PmaEntry) : Prop where
  paged : ∀ p ∈ ps, p.Paged
  disjoint : ps.Pairwise PmaEntry.Disjoint
  index_eq : ∀ (i : Nat) (p : PmaEntry), ps[i]? = some p → p.index = i

theorem and_pageOffsetMask (w : Word) : (w &&& pageOffsetMask).toNat = w.toNat % pmaPageSize := by
  rw [toNat_and]
  exact Nat.and_two_pow_sub_one_eq_mod w.toNat 12

theorem and_pageOffsetMask_eq_zero {w : Word} (h : w &&& pageOffsetMask = 0) : w.toNat % pmaPageSize = 0 := by
  rw [← and_pageOffsetMask, h]
  rfl

theorem toNat_and_not_mask (w : Word) (k : Nat) :
    (w &&& ~~~BitVec.ofNat 64 (2 ^ k - 1)).toNat = 2 ^ k * (w.toNat / 2 ^ k) := by
  have e : w &&& ~~~BitVec.ofNat 64 (2 ^ k - 1) = (w >>> k) <<< k := by
    apply eq_of_getLsbD_eq
    intro i hi
    simp only [getLsbD_and, getLsbD_not, getLsbD_shiftLeft,
      getLsbD_ushiftRight, getLsbD_ofNat, Nat.testBit_two_pow_sub_one, hi]
    by_cases hik : i < k
    · simp [hik]
    · simp [hik, show k + (i - k) = i by omega]
  have hlt : w.toNat / 2 ^ k * 2 ^ k < 2 ^ 64 := lt_of_le_of_lt (Nat.div_mul_le_self _ _) w.isLt
  rw [e, toNat_shiftLeft, toNat_ushiftRight, Nat.shiftRight_eq_div_pow, Nat.shiftLeft_eq,
    Nat.mod_eq_of_lt hlt, Nat.mul_comm]

theorem toNat_pageStart (w : Word) : (w &&& ~~~pageOffsetMask).toNat = pmaPageSize * (w.toNat / pmaPageSize) :=
  toNat_and_not_mask w 12

theorem toNat_pos_of_ne_zero {w : Word} (hw : w ≠ 0) : 0 < w.toNat :=
  Nat.pos_of_ne_zero fun h0 => hw (eq_of_toNat_eq (by simpa using h0))

theorem registerPmaEntry_ok {ps qs : List PmaEntry} (h : registerPmaEntry ps p = .ok qs) :
    ps.length < pmaMax ∧ p.start.toNat % pmaPageSize = 0 ∧ p.length.toNat % pmaPageSize = 0 ∧
      (p.length ≠ 0 → p.start.toNat + p.length.toNat ≤ 2 ^ 56) ∧
      (∀ q ∈ ps, p.overlaps q = false) ∧ qs = ps ++ [{ p with index := ps.length }] := by
  unfold registerPmaEntry at h
  split at h
  · cases h
  rename_i h₁
  split at h
  · cases h
  rename_i h2
  split at h
  · cases h
  rename_i h3
  split at h
  · cases h
  split at h
  · cases h
  rename_i h5
  split at h
  · cases h
  rename_i h6
  refine ⟨by omega, and_pageOffsetMask_eq_zero (by simpa using h2),
    and_pageOffsetMask_eq_zero (by simpa using h3), fun hl => ?_, ?_, by simpa using h.symm⟩
  · have h5' : ¬ pmaAddressableMask < p.start ∧ ¬ pmaAddressableMask - p.start < p.length - 1 := by
      exact not_or.mp fun h => h5 ⟨.inl hl, h⟩
    have hm : pmaAddressableMask.toNat = 2 ^ 56 - 1 := rfl
    obtain ⟨h7, h8⟩ := h5'
    rw [lt_def] at h7 h8
    have hpos := toNat_pos_of_ne_zero hl
    rw [toNat_sub_of_le (le_def.mpr (by omega)),
      toNat_sub_of_le (le_def.mpr (show (1 : Word).toNat ≤ _ from hpos))] at h8
    have h1 : (1 : Word).toNat = 1 := rfl
    omega
  · intro q hq
    simpa using find?_eq_none.mp h6 q hq

theorem disjoint_of_overlaps_eq_false (hp : p.start.toNat + p.length.toNat ≤ 2 ^ 56)
    (hq : q.start.toNat + q.length.toNat ≤ 2 ^ 56) (h : p.overlaps q = false) : p.Disjoint q := by
  simp only [PmaEntry.overlaps, Bool.and_eq_false_iff, decide_eq_false_iff_not, lt_def,
    toNat_add] at h
  unfold PmaEntry.Disjoint
  omega

theorem WellFormedPmas.snoc {ps qs : List PmaEntry} (hps : WellFormedPmas ps)
    (hl : p.length ≠ 0) (hd : p.data ≠ .empty) (h : registerPmaEntry ps p = .ok qs) : WellFormedPmas qs := by
  obtain ⟨-, hs, hlen, hend, hov, rfl⟩ := registerPmaEntry_ok h
  have hpaged : PmaEntry.Paged { p with index := ps.length } :=
    ⟨hs, hlen, toNat_pos_of_ne_zero hl, hend hl, hd⟩
  refine ⟨fun q hq => ?_, ?_, fun i q hq => ?_⟩
  · rcases mem_append.mp hq with hq | hq
    · exact hps.paged q hq
    · rw [mem_singleton.mp hq]
      exact hpaged
  · refine pairwise_append.mpr ⟨hps.disjoint, pairwise_singleton _ _, fun q hq r hr => ?_⟩
    rw [mem_singleton.mp hr]
    exact PmaEntry.Disjoint.symm
      (disjoint_of_overlaps_eq_false (hend hl) (hps.paged q hq).end_le (hov q hq))
  · rw [getElem?_append] at hq
    split at hq
    · exact hps.index_eq i q hq
    · rename_i hi
      have hi' : i - ps.length = 0 := by
        by_contra hne
        rw [List.getElem?_eq_none (by simp; omega)] at hq
        cases hq
      rw [hi'] at hq
      cases hq
      exact (show ps.length = i by omega)

theorem registerPmas_ok : ∀ {ps qs rs : List PmaEntry}, WellFormedPmas ps →
    (∀ p ∈ qs, p.data ≠ .empty ∧ (p.data = .device → p.length ≠ 0)) → registerPmas ps qs = .ok rs →
    WellFormedPmas rs ∧ rs.length = ps.length + qs.length ∧ (∀ p ∈ ps, p ∈ rs) ∧
      ∀ p ∈ qs, ∃ i, { p with index := i } ∈ rs
  | ps, [], rs, hps, _, h => by
    cases h
    exact ⟨hps, by simp, fun p hp => hp, by simp⟩
  | ps, q :: qs, rs, hps, hqs, h => by
    rw [registerPmas] at h
    split at h
    · cases h
    rename_i hz
    split at h
    · cases h
    rename_i ps' hreg
    obtain ⟨hq, hqs'⟩ := forall_mem_cons.mp hqs
    have hl : q.length ≠ 0 := by
      intro h0
      cases hd : q.data with
      | empty => exact hq.1 hd
      | device => exact hq.2 hd h0
      | memory => exact hz (by simp [PmaEntry.istartM, hd, h0])
    obtain ⟨hwf, hlen, hold, hnew⟩ := registerPmas_ok (hps.snoc hl hq.1 hreg) hqs' h
    obtain ⟨-, -, -, -, -, rfl⟩ := registerPmaEntry_ok hreg
    refine ⟨hwf, by rw [hlen]; simp; omega, fun p hp => hold p (by simp [hp]), fun p hp => ?_⟩
    rcases mem_cons.mp hp with rfl | hp
    · exact ⟨ps.length, hold _ (by simp)⟩
    · exact hnew p hp

theorem registerPmas_mem : ∀ {ps qs rs : List PmaEntry}, registerPmas ps qs = .ok rs →
    ∀ p ∈ rs, p ∈ ps ∨ ∃ q ∈ qs, p = { q with index := p.index }
  | ps, [], rs, h, p, hp => by
    cases h
    exact .inl hp
  | ps, q :: qs, rs, h, p, hp => by
    rw [registerPmas] at h
    split at h
    · cases h
    split at h
    · cases h
    rename_i ps' hreg
    obtain ⟨-, -, -, -, -, rfl⟩ := registerPmaEntry_ok hreg
    rcases registerPmas_mem h p hp with hp' | ⟨r, hr, he⟩
    · rcases mem_append.mp hp' with hp' | hp'
      · exact .inl hp'
      · obtain rfl := mem_singleton.mp hp'
        exact .inr ⟨q, by simp, rfl⟩
    · exact .inr ⟨r, by simp [hr], he⟩

/-- The devices that every machine has. -/
def devicePmas : List PmaEntry := [htifPma, clintPma, plicPma, shadowTlbPma, shadowStatePma]

theorem MachineConfig.memory_or_device {c : MachineConfig} {p : PmaEntry} (hp : p ∈ c.pmas) :
    p.data = .memory ∨ p ∈ devicePmas := by
  simp only [MachineConfig.pmas, mem_append, mem_cons, not_mem_nil, or_false, mem_mapIdx] at hp
  rcases hp with ((rfl | rfl) | ⟨i, hi, rfl⟩) | rfl | rfl | rfl | rfl | rfl | rfl | rfl | rfl
  all_goals first
    | exact .inl rfl
    | exact .inr (by simp [devicePmas])

theorem MachineConfig.pmas_data (c : MachineConfig) :
    ∀ p ∈ c.pmas, p.data ≠ .empty ∧ (p.data = .device → p.length ≠ 0) := by
  intro p hp
  rcases memory_or_device hp with hM | hdev
  · simp [hM]
  · have hall : ∀ q ∈ devicePmas, q.data ≠ .empty ∧ (q.data = .device → q.length ≠ 0) := by decide
    exact hall p hdev

theorem except_bind_ok_iff {ε α β : Type} {x : Except ε α} {f : α → Except ε β} {b : β} :
    (x >>= f) = .ok b ↔ ∃ a, x = .ok a ∧ f a = .ok b := by
  cases x with
  | error e => simp [bind, Except.bind]
  | ok a => simp [bind, Except.bind]

namespace Board

variable (b : Board)

theorem registerPmas_ranges : registerPmas [] b.config.pmas = .ok b.ranges ∧ b.ranges.length < pmaMax := by
  have h := b.registered
  simp only [MachineConfig.register, except_bind_ok_iff] at h
  obtain ⟨ps, hreg, qs, hs, hps⟩ := h
  cases hps
  exact ⟨hreg, (registerPmaEntry_ok hs).1⟩

theorem wellFormed : WellFormedPmas b.ranges :=
  (registerPmas_ok ⟨by simp, List.Pairwise.nil, by simp⟩ b.config.pmas_data
    b.registerPmas_ranges.1).1

theorem disjoint (hp : p ∈ b.ranges) (hq : q ∈ b.ranges) (hne : p ≠ q) : p.Disjoint q :=
  have : Std.Symm PmaEntry.Disjoint := ⟨fun _ _ h => h.symm⟩
  b.wellFormed.disjoint.forall hp hq hne

theorem exists_mem (h : p ∈ b.config.pmas) : ∃ i, { p with index := i } ∈ b.ranges :=
  (registerPmas_ok ⟨by simp, List.Pairwise.nil, by simp⟩ b.config.pmas_data
    b.registerPmas_ranges.1).2.2.2 p h

theorem mem_config (h : p ∈ b.ranges) :
    ∃ q ∈ b.config.pmas, p = { q with index := p.index } := by
  rcases registerPmas_mem b.registerPmas_ranges.1 p h with h | h
  · cases h
  · exact h

end Board

end MachineEmulator
