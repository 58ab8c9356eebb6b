import MachineEmulator.Interpret.StateAccess

/-!
# The memory of a machine, as its host sees it

* `readMemory`, `writeMemory`, `fillMemory` : what the host does to the physical memory of a machine. The access
  must lie in one range, and a range that is written must be memory;
* `RunState.hostMemory`, `RunState.setHostMemory` : the memory behind a range, with its dirty pages. The RAM of the
  microarchitecture is kept apart from the ranges of the board;
* `findMerkleRange_board` : an access that lies in a range of the board finds it;
* `writeMemory_of_mem`, `fillMemory_of_mem` : what a write to a memory range does.
-/

namespace MachineEmulator.Interpret

open List RunState PmaEntry BitVec

open EStateM (query update)

variable (m : RunState)

namespace RunState

/-- The range of an access: the ranges of the machine first, then those of the microarchitecture. -/
def findMerkleRange (address length : Word) : PmaEntry :=
  findPmaEntry (merkleRanges m.ranges) address length

/-- The memory of the board, with its dirty pages. -/
def boardMemory : PagedMemory := ⟨m.s.mem, m.s.dirty⟩

def setBoardMemory (p : PagedMemory) : RunState :=
  m.withState { m.s with mem := p.mem, dirty := p.dirty }

def hostMemory (pma : PmaEntry) : PagedMemory :=
  if pma = uarchRamPma then ⟨m.uarch.ram, m.uarch.ramDirty⟩ else m.boardMemory

def setHostMemory (pma : PmaEntry) (p : PagedMemory) : RunState :=
  if pma = uarchRamPma then { m with uarch := { m.uarch with ram := p.mem, ramDirty := p.dirty } }
  else m.setBoardMemory p

/-- Apply an operation of a memory range to the range of an access. -/
def onMemoryRange (address length : Word)
    (f : PmaEntry → PagedMemory → Except String PagedMemory) : Except String RunState := do
  let pma := m.findMerkleRange address length
  throwUnless (pma.istartM = true) "address range not entirely in memory PMA"
  let p ← f pma (m.hostMemory pma)
  .ok (m.setHostMemory pma p)

end RunState

def writeMemory (address : Word) (data : List Byte) : EStateM String RunState Unit :=
  update fun m =>
    if data = [] then .ok m
    else m.onMemoryRange address (BitVec.ofNat 64 data.length) fun pma p => pma.writeMemory p address data

def fillMemory (address : Word) (value : Byte) (length : Word) : EStateM String RunState Unit :=
  update fun m =>
    if length = 0 then .ok m
    else m.onMemoryRange address length fun pma p => pma.fillMemory p address value length.toNat

/-- Reading fails where no range shows all of the access. -/
def readMemory (address : Word) (length : Nat) : EStateM String RunState (List Byte) :=
  query fun m =>
    match doReadMemory m address length with
    | some data => .ok data
    | none => .error "peek failed"

/-! ## The range of an access -/

/-- The first entry that contains an access is the only one, whatever follows. -/
theorem findPmaEntry_append {ps qs : List PmaEntry} {p : PmaEntry} {address length : Word} (hp : p ∈ ps)
    (hc : p.contains address length = true) (hne : ∀ q ∈ ps, q.length ≠ 0)
    (hunique : ∀ q ∈ ps, q.contains address length = true → q = p) : findPmaEntry (ps ++ qs) address length = p := by
  induction ps with
  | nil => cases hp
  | cons q ps ih =>
    obtain ⟨hq, hps⟩ := forall_mem_cons.mp hne
    obtain ⟨hqu, hpsu⟩ := forall_mem_cons.mp hunique
    rw [List.cons_append, findPmaEntry]
    by_cases hqc : q.contains address length = true
    · rw [if_pos (by simp [hqc]), hqu hqc]
    · rw [if_neg (by simpa [hqc] using hq)]
      refine ih ?_ hps hpsu
      rcases mem_cons.mp hp with rfl | hp
      · exact absurd hc hqc
      · exact hp

/-- An access that lies in an entry finds one that contains it. -/
theorem findPmaEntry_of_contains {ps : List PmaEntry} {p : PmaEntry} {address length : Word} (hp : p ∈ ps)
    (hc : p.contains address length = true) (hne : ∀ q ∈ ps, q.length ≠ 0) :
    findPmaEntry ps address length ∈ ps ∧ (findPmaEntry ps address length).contains address length = true := by
  refine findPmaEntry_spec ?_
  induction ps with
  | nil => cases hp
  | cons q ps ih =>
    obtain ⟨hq, hps⟩ := forall_mem_cons.mp hne
    rw [findPmaEntry]
    by_cases hqc : q.contains address length = true
    · rwa [if_pos (by simp [hqc])]
    · rw [if_neg (by simpa [hqc] using hq)]
      rcases mem_cons.mp hp with rfl | hp
      · exact absurd hc hqc
      · exact ih hp hps

theorem Board.ne_uarchRamPma {b : Board} {p : PmaEntry} (hp : p ∈ b.ranges) : p ≠ uarchRamPma := by
  obtain ⟨i, hi, rfl⟩ := mem_iff_getElem.mp hp
  intro he
  have hindex := b.wellFormed.index_eq i _ (getElem?_eq_getElem hi)
  rw [he] at hindex
  have hlt := b.registerPmas_ranges.2
  have h32 : uarchRamPma.index = pmaMax := rfl
  omega

section
variable {m : RunState} {p : PmaEntry} {address length : Word}

theorem RunState.findMerkleRange_board (hp : p ∈ m.s.board.ranges) (hc : p.contains address length = true)
    (hlen : length ≠ 0) : m.findMerkleRange address length = p := by
  have hassoc : merkleRanges m.ranges = m.s.board.ranges ++ (m.vdevs.mapIdx (fun i d =>
      { virtioPma i d.cls.kind with index := m.s.board.ranges.length + i }) ++ [shadowUarchStatePma, uarchRamPma]) := by
    rw [merkleRanges, RunState.ranges, List.append_assoc]
  have hpos : 0 < length.toNat := toNat_pos_of_ne_zero hlen
  rw [findMerkleRange, hassoc]
  refine findPmaEntry_append hp hc (fun q hq h0 => ?_) fun q hq hqc => ?_
  · have := (m.s.board.wellFormed.paged q hq).length_pos
    rw [h0] at this
    exact absurd this (by decide)
  · by_contra hne
    obtain ⟨-, h1, h2⟩ := contains_iff.mp hc
    obtain ⟨-, h3, h4⟩ := contains_iff.mp hqc
    exact (m.s.board.disjoint hq hp hne).not_mem (a := address.toNat) ⟨h3, by omega⟩ ⟨h1, by omega⟩

/-! ## Writing to the range of an access -/

theorem RunState.onMemoryRange_of_found (hf : m.findMerkleRange address length = p) (hM : p.istartM = true)
    (f : PmaEntry → PagedMemory → Except String PagedMemory) :
    m.onMemoryRange address length f = (f p (m.hostMemory p)).map (m.setHostMemory p) := by
  unfold onMemoryRange
  simp only [hf, hM, throwUnless, if_true]
  cases f p (m.hostMemory p) <;> rfl

theorem writeMemory_of_found {data : List Byte} (hf : m.findMerkleRange address (BitVec.ofNat 64 data.length) = p)
    (hM : p.istartM = true) (hc : p.contains address (BitVec.ofNat 64 data.length) = true) (hne : data ≠ []) :
    writeMemory address data m = .ok () (m.setHostMemory p ((m.hostMemory p).write address.toNat data)) := by
  have hwrite : p.writeMemory (m.hostMemory p) address data = .ok ((m.hostMemory p).write address.toNat data) :=
    writeMemory_ok_iff.mpr ⟨checkMemory_ok_iff.mpr ⟨hM, hc⟩, rfl⟩
  rw [writeMemory, update]
  simp only [if_neg hne, onMemoryRange_of_found hf hM, hwrite, Except.map]

theorem fillMemory_of_found (value : Byte) (hf : m.findMerkleRange address length = p) (hM : p.istartM = true)
    (hc : p.contains address length = true) (hne : length ≠ 0) : fillMemory address value length m =
      .ok () (m.setHostMemory p ((m.hostMemory p).fill address.toNat value length.toNat)) := by
  have hfill : p.fillMemory (m.hostMemory p) address value length.toNat =
      .ok ((m.hostMemory p).fill address.toNat value length.toNat) :=
    fillMemory_ok_iff.mpr ⟨checkMemory_ok_iff.mpr
      ⟨hM, by rwa [ofNat_toNat, setWidth_eq]⟩, rfl⟩
  rw [fillMemory, update]
  simp only [if_neg hne, onMemoryRange_of_found hf hM, hfill, Except.map]

/-! ## Writing to a range of the board -/

def HoldsBuffer (p : PmaEntry) (address : Word) (n : Nat) : Prop :=
  p.start.toNat ≤ address.toNat ∧ address.toNat + n ≤ p.start.toNat + p.length.toNat

theorem HoldsBuffer.contains {n : Nat} (hp : p ∈ m.s.board.ranges) (hin : HoldsBuffer p address n) :
    n < 2 ^ 64 ∧ p.contains address (BitVec.ofNat 64 n) = true := by
  have hpaged := m.s.board.wellFormed.paged p hp
  have hend := hpaged.end_le
  have hlt : n < 2 ^ 64 := by
    have := hin.2
    omega
  refine ⟨hlt, contains_iff.mpr ⟨by simpa [istartE] using hpaged.not_empty, hin.1, ?_⟩⟩
  rw [toNat_ofNat, Nat.mod_eq_of_lt hlt]
  exact hin.2

theorem RunState.hostMemory_board (hp : p ∈ m.s.board.ranges) : m.hostMemory p = m.boardMemory :=
  if_neg (Board.ne_uarchRamPma hp)

theorem RunState.setHostMemory_board (hp : p ∈ m.s.board.ranges) (q : PagedMemory) :
    m.setHostMemory p q = m.setBoardMemory q :=
  if_neg (Board.ne_uarchRamPma hp)

theorem writeMemory_of_mem {data : List Byte} (hp : p ∈ m.s.board.ranges) (hM : p.istartM = true)
    (hin : HoldsBuffer p address data.length) (hne : data ≠ []) :
    writeMemory address data m = .ok () (m.setBoardMemory (m.boardMemory.write address.toNat data)) := by
  obtain ⟨hlt, hc⟩ := hin.contains hp
  have hlen : BitVec.ofNat 64 data.length ≠ 0 := by
    intro h0
    have h := congrArg BitVec.toNat h0
    rw [toNat_ofNat, Nat.mod_eq_of_lt hlt] at h
    exact hne (length_eq_zero_iff.mp h)
  rw [writeMemory_of_found (findMerkleRange_board hp hc hlen) hM hc hne, hostMemory_board hp,
    setHostMemory_board hp]

theorem fillMemory_of_mem (value : Byte) (hp : p ∈ m.s.board.ranges) (hM : p.istartM = true)
    (hin : HoldsBuffer p address length.toNat) (hne : length ≠ 0) : fillMemory address value length m =
      .ok () (m.setBoardMemory (m.boardMemory.fill address.toNat value length.toNat)) := by
  have hc := (hin.contains hp).2
  rw [ofNat_toNat, setWidth_eq] at hc
  rw [fillMemory_of_found value (findMerkleRange_board hp hc hne) hM hc hne, hostMemory_board hp,
    setHostMemory_board hp]

end

end MachineEmulator.Interpret
