import MachineEmulator.Uarch.Bridge
import MachineEmulator.Uarch.Step

/-!
# The plain accessor of the microarchitecture

* `stateAccess` : the operations of the microarchitecture on a machine;
* `ReadsWord`, `WritesWord` : the operation reads, or writes, one word of the image. On a board whose
  ranges do not overlap those of the microarchitecture this holds for every operation of
  `stateAccess` (`readsWord_*`, `writesWord_*`).
-/

namespace MachineEmulator.Uarch

open EStateM Machine UarchBridge MachineConfig PmaEntry

open EStateM (query update)

variable {H : Type}

/-- The memory range behind an access: the uarch RAM, or an entry of the board. -/
inductive MemoryPma where
  | uarchRam
  | board (p : PmaEntry)

def MemoryPma.entry : MemoryPma → PmaEntry
  | .uarchRam => uarchRamPma
  | .board p => p

/-- The first memory range of the table that contains the access, or the first empty entry. -/
def findMemoryPma : List PmaEntry → Word → Word → PmaEntry
  | [], _, _ => emptyPma
  | p :: ps, paddr, length =>
    if p.length = 0 || (p.istartM && p.contains paddr length) then p
    else findMemoryPma ps paddr length

def findMemoryPmaEntry (b : Board) (paddr length : Word) : MemoryPma :=
  if uarchRamPma.contains paddr length then .uarchRam
  else .board (findMemoryPma b.pmas paddr length)

variable (m : Machine H)

/-- The word of host memory behind an address of a memory range. -/
def hostWord (pma : MemoryPma) (paddr : Word) : Word :=
  match pma with
  | .uarchRam => imageWord m.uarch.ram paddr.toNat
  | .board _ => imageWord m.s.mem paddr.toNat

def setHostWord (pma : MemoryPma) (paddr val : Word) : Machine H :=
  match pma with
  | .uarchRam =>
    { m with uarch := { m.uarch with ram := writeBytes m.uarch.ram paddr.toNat (toLE 8 val.toNat) } }
  | .board _ => { m with s := m.s.setMem (writeBytes m.s.mem paddr.toNat (toLE 8 val.toNat)) }

/-- Mark the page of an address as dirty in the map of its range. -/
def markDirty (pma : MemoryPma) (paddr : Word) : Machine H :=
  let page := paddr.toNat / pmaPageSize
  match pma with
  | .uarchRam =>
    { m with uarch := { m.uarch with ramDirty := Function.update m.uarch.ramDirty page true } }
  | .board _ => { m with s := m.s.markDirtyPage page }

def doReadWord (paddr : Word) : Except String Word :=
  let pma := findMemoryPmaEntry m.s.board paddr 8
  if pma.entry.istartE then UarchBridge.readRegister m.s paddr
  else if !pma.entry.flags.R then .error "pma is not readable"
  else .ok (hostWord m pma paddr)

/-- Write a word, without a look at the permissions of its range or at dirty pages. -/
def storeWord (paddr val : Word) (m : Machine H) : Except String (Machine H) :=
  let pma := findMemoryPmaEntry m.s.board paddr 8
  if pma.entry.istartE then do
    let s ← UarchBridge.writeRegister m.s paddr val
    .ok { m with s }
  else .ok (setHostWord m pma paddr val)

def doWriteWord (paddr val : Word) : Except String (Machine H) :=
  let pma := findMemoryPmaEntry m.s.board paddr 8
  if pma.entry.istartE then do
    let s ← UarchBridge.writeRegister m.s paddr val
    .ok { m with s }
  else if !pma.entry.flags.W then .error "pma is not writable"
  else .ok (markDirty (setHostWord m pma paddr val) pma paddr)

def setUarch (uarch : UarchState) : Machine H := { m with uarch }

def doWriteX (reg : Fin 32) (val : Word) : Except String (Machine H) :=
  if h : reg ≠ 0 then .ok (setUarch m { m.uarch with x := m.uarch.x.set reg h val })
  else .error "Assertion failed: reg != 0"

theorem x1_ne_x0 : (1 : Fin 32) ≠ 0 := by decide

/-- The accessor that works on the machine itself. -/
def stateAccess : Handler UarchSig String (Machine H)
  | .readX reg => query fun m => .ok (m.uarch.x.get reg)
  | .writeX reg val => update fun m => doWriteX m reg val
  | .readPc => query fun m => .ok m.uarch.pc
  | .writePc val => update fun m => .ok (setUarch m { m.uarch with pc := val })
  | .readCycle => query fun m => .ok m.uarch.cycle
  | .writeCycle val => update fun m => .ok (setUarch m { m.uarch with cycle := val })
  | .readHaltFlag => query fun m => .ok m.uarch.haltFlag
  | .setHaltFlag => update fun m => .ok (setUarch m { m.uarch with haltFlag := true })
  | .readWord paddr => query fun m => doReadWord m paddr
  | .writeWord paddr val => update fun m => doWriteWord m paddr val
  | .putChar _ => pure ()
  | .fail message => query fun _ => .error message

/-! ## Addresses -/

/-- The registers of the microarchitecture, in the order of their addresses. -/
inductive UarchReg where
  | haltFlag
  | cycle
  | pc
  | x (i : Fin 32)

def UarchReg.index : UarchReg → Nat
  | .haltFlag => 0
  | .cycle => 1
  | .pc => 2
  | .x i => 3 + i.val

variable (r : UarchReg)

/-- The address of a register in the shadow uarch state. -/
def UarchReg.address : Word :=
  pmaShadowUarchStateStart + BitVec.ofNat 64 (8 * r.index)

theorem UarchReg.index_lt : r.index < 35 := by
  cases r with
  | x i => exact Nat.add_lt_add_left i.isLt 3
  | _ => decide

theorem UarchReg.toNat_address :
    r.address.toNat = pmaShadowUarchStateStart.toNat + 8 * r.index := by
  have hr := r.index_lt
  have hs : pmaShadowUarchStateStart.toNat = 0x400000 := rfl
  rw [UarchReg.address, BitVec.toNat_add, BitVec.toNat_ofNat, hs]
  omega

theorem UarchReg.address_mod : r.address.toNat % 8 = 0 := by
  have hs : pmaShadowUarchStateStart.toNat = 0x400000 := rfl
  rw [r.toNat_address, hs]
  omega

/-! ## Every operation accesses one word -/

/-- The answer is `f` of the word of the image at `addr`, which is in a range, and nothing changes. -/
def ReadsWord {α : Type} (x : EStateM String (Machine H) α) (addr : Word) (f : Word → α) : Prop :=
  ∀ m a m', m.s.board.UarchDisjoint → x m = .ok a m' →
    m' = m ∧ m.InRange addr.toNat ∧
      ∃ v : Word, a = f v ∧ readBytes m.image addr.toNat 8 = toLE 8 v.toNat

/-- The image changes by the word at `addr`, which is in a range, and the board stays. -/
def WritesWord (x : EStateM String (Machine H) Unit) (addr val : Word) : Prop :=
  ∀ m u m', m.s.board.UarchDisjoint → x m = .ok u m' →
    m'.s.board = m.s.board ∧ m.InRange addr.toNat ∧
      m'.image = writeBytes m.image addr.toNat (toLE 8 val.toNat)

theorem UarchReg.inRange (m : Machine H) : m.InRange r.address.toNat := by
  have hr := r.index_lt
  have h1 : shadowUarchStatePma.start.toNat = 0x400000 := rfl
  have h2 : shadowUarchStatePma.length.toNat = 0x1000 := rfl
  have h3 : pmaShadowUarchStateStart.toNat = 0x400000 := rfl
  refine .inl ?_
  rw [r.toNat_address]
  unfold PmaEntry.Mem
  omega

theorem readsWord_uarchReg {α : Type} {g : Machine H → Except String α} {f : Word → α} (r : UarchReg)
    (hg : ∀ m, g m = .ok (f ((shadowUarchStateWords m.uarch).getD r.index 0))) :
    ReadsWord (query g) r.address f := by
  intro m a m' _ h
  obtain ⟨ha, rfl⟩ := query_ok_iff.mp h
  rw [hg] at ha
  cases ha
  exact ⟨rfl, r.inRange _, _, rfl, by rw [r.toNat_address, readBytes_shadowUarch _ r.index_lt]⟩

theorem getD_uarchX (u : UarchState) (i : Fin 32) :
    (shadowUarchStateWords u).getD (UarchReg.x i).index 0 = u.x.get i := by
  simp [shadowUarchStateWords, UarchReg.index, Nat.add_comm 3]

variable {val paddr : Word} {p : PmaEntry}

theorem writesWord_uarchReg {g : Machine H → Except String (Machine H)} (r : UarchReg)
    (hg : ∀ m m', g m = .ok m' → m'.s = m.s ∧ m'.uarch.ram = m.uarch.ram ∧
      shadowUarchStateWords m'.uarch = (shadowUarchStateWords m.uarch).set r.index val) :
    WritesWord (update g) r.address val := by
  intro m u m' _ h
  obtain ⟨hs, hram, hw⟩ := hg m m' (update_ok_iff.mp h)
  exact ⟨by rw [hs], r.inRange m, by
    rw [r.toNat_address, image_setUarchWord r.index_lt hs hram hw]⟩

theorem map_set_uarchX (x : UarchRegs) (i : Fin 32) (hi : i ≠ 0) (v : Word) :
    (List.finRange 32).map (x.set i hi v).get = ((List.finRange 32).map x.get).set i.val v := by
  apply List.ext_getElem
  · simp
  · intro k h1 h2
    by_cases hk : k = i.val
    · subst hk
      simp [UarchRegs.get, UarchRegs.set]
    · have hne : (⟨k, h1⟩ : Fin 32) ≠ i := fun he => hk (congrArg Fin.val he)
      simp [UarchRegs.get, UarchRegs.set, List.getElem_set_ne (Ne.symm hk), Function.update_of_ne hne]

theorem writesWord_writeX (reg : Fin 32) (val : Word) :
    WritesWord (update fun m : Machine H => doWriteX m reg val) (UarchReg.x reg).address val := by
  refine writesWord_uarchReg _ fun m m' h => ?_
  unfold doWriteX at h
  split at h
  · rename_i hreg
    cases h
    refine ⟨rfl, rfl, ?_⟩
    simp only [shadowUarchStateWords, setUarch, UarchReg.index, map_set_uarchX]
    rw [Nat.add_comm 3]
    rfl
  · cases h

/-! ## Memory -/

/-- The search stops at the first memory range of `rs` that contains the access, or goes on. -/
theorem findMemoryPma_append {rs : List PmaEntry} (ss : List PmaEntry) (paddr length : Word)
    (hrs : ∀ p ∈ rs, p.length ≠ 0) : (findMemoryPma (rs ++ ss) paddr length ∈ rs ∧
        (findMemoryPma (rs ++ ss) paddr length).istartM = true ∧
        (findMemoryPma (rs ++ ss) paddr length).contains paddr length = true) ∨
      (findMemoryPma (rs ++ ss) paddr length = findMemoryPma ss paddr length ∧
        ∀ p ∈ rs, p.istartM = true → p.contains paddr length = false) := by
  induction rs with
  | nil => exact .inr ⟨rfl, by simp⟩
  | cons r rs ih =>
    obtain ⟨hr, hrs'⟩ := List.forall_mem_cons.mp hrs
    simp only [List.cons_append, findMemoryPma, hr, decide_false, Bool.false_or]
    split_ifs with hc
    · exact .inl ⟨by simp, by simpa using hc⟩
    · rcases ih hrs' with ⟨h1, h2⟩ | ⟨h1, h2⟩
      · exact .inl ⟨List.mem_cons_of_mem _ h1, h2⟩
      · refine .inr ⟨h1, List.forall_mem_cons.mpr ⟨fun hM => ?_, h2⟩⟩
        simpa [hM] using hc

theorem findMemoryPma_sentinels (ns : List Nat) (paddr length : Word) :
    (findMemoryPma (ns.map sentinelPma) paddr length).istartE = true := by
  cases ns with
  | nil => rfl
  | cons n ns => simp [findMemoryPma, sentinelPma, emptyPma, PmaEntry.istartE]

/-- The memory range of the board that contains the access, or an empty entry if there is none. -/
theorem findMemoryPma_board (b : Board) (paddr length : Word) : (findMemoryPma b.pmas paddr length ∈ b.ranges ∧
        (findMemoryPma b.pmas paddr length).data = .memory ∧
        (findMemoryPma b.pmas paddr length).contains paddr length = true) ∨
      ((findMemoryPma b.pmas paddr length).istartE = true ∧
        ∀ p ∈ b.ranges, p.data = .memory → p.contains paddr length = false) := by
  have hne : ∀ p ∈ b.ranges, p.length ≠ 0 := by
    intro p hp h0
    have := (b.wellFormed.paged p hp).length_pos
    simp [h0] at this
  rcases findMemoryPma_append ((List.range' b.ranges.length
    (pmaMax - b.ranges.length)).map sentinelPma) paddr length hne with h | h
  · exact .inl ⟨h.1, eq_of_beq h.2.1, h.2.2⟩
  · refine .inr ⟨?_, fun p hp hM => h.2 p hp (by simp [istartM, hM])⟩
    rw [Board.pmas, h.1]
    exact findMemoryPma_sentinels _ _ _

/-- An access of the board that lies outside the ranges of the microarchitecture. -/
def AwayFromUarch (paddr : Word) : Prop :=
  ∀ i, i < 8 → ¬ shadowUarchStatePma.Mem (paddr.toNat + i) ∧ ¬ uarchRamPma.Mem (paddr.toNat + i)

theorem awayFromUarch_of_lt (h : paddr.toNat + 8 ≤ pmaShadowUarchStateStart.toNat) : AwayFromUarch paddr := by
  intro i hi
  have h1 : shadowUarchStatePma.start = pmaShadowUarchStateStart := rfl
  have h2 : uarchRamPma.start.toNat = 0x600000 := rfl
  have h3 : pmaShadowUarchStateStart.toNat = 0x400000 := rfl
  unfold PmaEntry.Mem
  rw [h1]
  omega

theorem contains_mem (h : p.contains paddr 8 = true) : ∀ i, i < 8 → p.Mem (paddr.toNat + i) := by
  intro i hi
  obtain ⟨-, h1, h2⟩ := contains_iff.mp h
  have h8 : (8 : Word).toNat = 8 := rfl
  exact ⟨by omega, by omega⟩

theorem awayFromUarch_of_mem {b : Board} (hb : b.UarchDisjoint)
    (hp : p ∈ b.ranges) (hc : p.contains paddr 8 = true) : AwayFromUarch paddr := by
  intro i hi
  exact ⟨(hb p hp).1.not_mem (contains_mem hc i hi), (hb p hp).2.not_mem (contains_mem hc i hi)⟩

theorem boardByte_of_memory {s : MachineState} {a : Nat} (hp : p ∈ s.board.ranges)
    (hM : p.data = .memory) (ha : p.Mem a) : s.boardByte a = s.mem a := by
  rw [s.boardByte_of_mem hp ha, MachineState.rangeByte, hM]

/-- Words the bridge can reach lie in the shadow state or in the shadow TLB. -/
theorem awayFromUarch_of_reaches (h : Reaches paddr) : AwayFromUarch paddr := by
  have h1 : pmaShadowStateLength.toNat = 0x1000 := rfl
  have h2 : pmaShadowTlbStart.toNat = 0x20000 := rfl
  have h3 : pmaShadowUarchStateStart.toNat = 0x400000 := rfl
  apply awayFromUarch_of_lt
  rcases h with ⟨r, hr⟩ | ⟨i, hi⟩
  · obtain ⟨k, hk, -, hle⟩ := shadowRegAt_eq_some hr
    omega
  · obtain ⟨hp, hi⟩ := tlbWordAt_eq_some hi
    omega

theorem inRange_of_reaches (h : Reaches paddr) (m : Machine H) : m.InRange paddr.toNat := by
  have h2 : pmaShadowTlbLength.toNat = 0x6000 := rfl
  refine .inr (.inr ?_)
  rcases h with ⟨r, hr⟩ | ⟨i, hi⟩
  · obtain ⟨k, hk, -, hle⟩ := shadowRegAt_eq_some hr
    obtain ⟨j, hj⟩ := m.s.board.exists_mem (p := shadowStatePma) (by simp [pmas])
    exact ⟨_, hj, Nat.zero_le _, show _ < 0 + pmaShadowStateLength.toNat by omega⟩
  · obtain ⟨hp, hi⟩ := tlbWordAt_eq_some hi
    obtain ⟨j, hj⟩ := m.s.board.exists_mem (p := shadowTlbPma) (by simp [pmas])
    exact ⟨_, hj, show pmaShadowTlbStart.toNat ≤ _ by omega,
      show _ < pmaShadowTlbStart.toNat + pmaShadowTlbLength.toNat by omega⟩

/-- An access that no memory range contains does not start among the shadow PMAs. -/
theorem not_shadowPmas {b : Board} (h : ∀ p ∈ b.ranges, p.data = .memory → p.contains paddr 8 = false) :
    paddr.toNat < pmaShadowPmasStart.toNat ∨ pmaShadowPmasStart.toNat + pmaMax * 8 * 2 ≤ paddr.toNat := by
  obtain ⟨i, hi⟩ := b.exists_mem (p := shadowPmasPma) (by simp [pmas])
  have hc := h _ hi rfl
  by_contra hin
  have h2 : pmaShadowPmasLength.toNat = 0x1000 := rfl
  have h3 : pmaMax = 32 := rfl
  have h4 : (8 : Word).toNat = 8 := rfl
  have hc' : contains { shadowPmasPma with index := i } paddr 8 = true :=
    contains_iff.mpr ⟨rfl, show pmaShadowPmasStart.toNat ≤ _ by omega,
      show _ ≤ pmaShadowPmasStart.toNat + pmaShadowPmasLength.toNat by omega⟩
  rw [hc] at hc'
  cases hc'

theorem uarchRam_bytes (m : Machine H) (h : uarchRamPma.contains paddr 8 = true) :
    readBytes m.image paddr.toNat 8 = readBytes m.uarch.ram paddr.toNat 8 := by
  refine readBytes_congr fun i hi => ?_
  have hmem := contains_mem h i hi
  rw [image, if_neg (not_mem_shadowUarchState hmem), if_pos hmem]

/-- The three outcomes of the search for the memory range of a word. -/
inductive Found (b : Board) (paddr : Word) : MemoryPma → Prop where
  | uarchRam (hc : uarchRamPma.contains paddr 8 = true) : Found b paddr .uarchRam
  | memory (p : PmaEntry) (hp : p ∈ b.ranges) (hM : p.data = .memory)
      (hc : p.contains paddr 8 = true) : Found b paddr (.board p)
  | none (p : PmaEntry) (hE : p.istartE = true)
      (hnone : ∀ q ∈ b.ranges, q.data = .memory → q.contains paddr 8 = false) :
      Found b paddr (.board p)

theorem found (b : Board) (paddr : Word) : Found b paddr (findMemoryPmaEntry b paddr 8) := by
  unfold findMemoryPmaEntry
  split
  · rename_i hc
    exact .uarchRam hc
  · rcases findMemoryPma_board b paddr 8 with ⟨hp, hM, hc⟩ | ⟨hE, hnone⟩
    · exact .memory _ hp hM hc
    · exact .none _ hE hnone

theorem istartE_of_memory (hM : p.data = .memory) : p.istartE = false := by
  rw [istartE, hM]
  rfl

theorem readsWord_readWord (paddr : Word) :
    ReadsWord (query fun m : Machine H => doReadWord m paddr) paddr id := by
  intro m v m' hd h
  obtain ⟨h, rfl⟩ := query_ok_iff.mp h
  suffices m'.InRange paddr.toNat ∧ readBytes m'.image paddr.toNat 8 = toLE 8 v.toNat from
    ⟨rfl, this.1, v, rfl, this.2⟩
  unfold doReadWord at h
  have hf := found m'.s.board paddr
  generalize findMemoryPmaEntry m'.s.board paddr 8 = pma at h hf
  cases hf with
  | uarchRam hc =>
    have hv : hostWord m' .uarchRam paddr = v := Except.ok.inj h
    refine ⟨.inr (.inl (contains_mem hc 0 (by decide))), ?_⟩
    rw [uarchRam_bytes m' hc, ← hv]
    exact (toLE_imageWord _ _).symm
  | memory p hp hM hc =>
    cases hR : p.flags.R with
    | false => simp [MemoryPma.entry, istartE_of_memory hM, hR] at h
    | true =>
      simp only [MemoryPma.entry, istartE_of_memory hM, hR, Bool.not_true, Bool.false_eq_true,
        if_false, Except.ok.injEq] at h
      refine ⟨.inr (.inr ⟨p, hp, contains_mem hc 0 (by decide)⟩), ?_⟩
      rw [← h, readBytes_image_board (awayFromUarch_of_mem hd hp hc),
        readBytes_congr (g := m'.s.mem) fun i hi =>
          boardByte_of_memory hp hM (contains_mem hc i hi)]
      exact (toLE_imageWord _ _).symm
  | none p hE hnone =>
    simp only [MemoryPma.entry, hE, if_true] at h
    obtain ⟨hr, hb⟩ := readRegister_eq h (not_shadowPmas hnone)
    refine ⟨inRange_of_reaches hr m', ?_⟩
    rw [readBytes_image_board (awayFromUarch_of_reaches hr), hb]

theorem boardByte_setMem {s : MachineState} {a : Nat} {bs : List Byte}
    (hp : p ∈ s.board.ranges) (hM : p.data = .memory) (ha : ∀ i, i < bs.length → p.Mem (a + i)) :
    (s.setMem (writeBytes s.mem a bs)).boardByte = writeBytes s.boardByte a bs := by
  refine eq_writeBytes ?_ fun x hx => ?_
  · conv_rhs => rw [← readBytes_writeBytes_same s.mem a bs]
    exact readBytes_congr fun i hi => boardByte_of_memory (s := s.setMem _) hp hM (ha i hi)
  · exact MachineState.boardByte_congr rfl (writeBytes_of_not_mem hx) (fun _ => rfl) fun _ _ _ => rfl

theorem writesWord_storeWord (paddr val : Word) :
    WritesWord (update (storeWord (H := H) paddr val)) paddr val := by
  intro m u m' hd h
  have h := update_ok_iff.mp h
  unfold storeWord at h
  have hlen : (toLE 8 val.toNat).length = 8 := length_toLE _ _
  have hf := found m.s.board paddr
  generalize findMemoryPmaEntry m.s.board paddr 8 = pma at h hf
  cases hf with
  | uarchRam hc =>
    have hm : setHostWord m .uarchRam paddr val = m' := Except.ok.inj h
    subst hm
    obtain ⟨-, h1, h2⟩ := contains_iff.mp hc
    exact ⟨rfl, .inr (.inl (contains_mem hc 0 (by decide))),
      image_setUarchRam (m := m) rfl rfl rfl ⟨h1, by rw [hlen]; exact h2⟩⟩
  | memory p hp hM hc =>
    simp only [MemoryPma.entry, istartE_of_memory hM, Bool.false_eq_true, if_false,
      Except.ok.injEq] at h
    subst h
    refine ⟨rfl, .inr (.inr ⟨p, hp, contains_mem hc 0 (by decide)⟩), image_setBoard (m := m) rfl
      (boardByte_setMem hp hM fun i hi => contains_mem hc i (hlen ▸ hi)) fun i hi => ?_⟩
    exact awayFromUarch_of_mem hd hp hc i (hlen ▸ hi)
  | none p hE hnone =>
    simp only [MemoryPma.entry, hE, if_true] at h
    obtain ⟨s', hs', h⟩ := except_bind_ok_iff.mp h
    cases h
    obtain ⟨hr, hboard, hb⟩ := writeRegister_eq hs'
    exact ⟨hboard, inRange_of_reaches hr m, image_setBoard (m := m) rfl hb fun i hi =>
      awayFromUarch_of_reaches hr i (hlen ▸ hi)⟩

/-- A write that is permitted stores the word, and marks its page if it is memory. -/
theorem doWriteWord_ok {m m' : Machine H} (h : doWriteWord m paddr val = .ok m') :
    ∃ m1, storeWord paddr val m = .ok m1 ∧ (m' = m1 ∨ ∃ pma, m' = markDirty m1 pma paddr) := by
  unfold doWriteWord at h
  unfold storeWord
  simp only at h ⊢
  split at h
  · rename_i hE
    rw [if_pos hE]
    exact ⟨m', h, .inl rfl⟩
  · rename_i hE
    rw [if_neg hE]
    split at h
    · cases h
    · exact ⟨_, rfl, .inr ⟨_, (Except.ok.inj h).symm⟩⟩

theorem writesWord_writeWord (paddr val : Word) :
    WritesWord (update fun m : Machine H => doWriteWord m paddr val) paddr val := by
  intro m u m' hd h
  obtain ⟨m1, h1, hm'⟩ := doWriteWord_ok (update_ok_iff.mp h)
  have hstore := writesWord_storeWord paddr val m () m1 hd (update_ok_iff.mpr h1)
  rcases hm' with rfl | ⟨pma, rfl⟩
  · exact hstore
  · cases pma <;> exact hstore

/-! ## The registers of the microarchitecture -/

theorem readsWord_readX (reg : Fin 32) :
    ReadsWord (query fun m : Machine H => .ok (m.uarch.x.get reg)) (UarchReg.x reg).address id :=
  readsWord_uarchReg (.x reg) fun m => by
    rw [getD_uarchX]
    rfl

theorem readsWord_readPc : ReadsWord (query fun m : Machine H => .ok m.uarch.pc) UarchReg.pc.address id :=
  readsWord_uarchReg .pc fun _ => rfl

theorem readsWord_readCycle :
    ReadsWord (query fun m : Machine H => .ok m.uarch.cycle) UarchReg.cycle.address id :=
  readsWord_uarchReg .cycle fun _ => rfl

theorem readsWord_readHaltFlag :
    ReadsWord (query fun m : Machine H => .ok m.uarch.haltFlag) UarchReg.haltFlag.address (· != 0) :=
  readsWord_uarchReg .haltFlag fun m => by
    cases hf : m.uarch.haltFlag <;> simp [shadowUarchStateWords, UarchReg.index, hf]

/-- Writing a register of the microarchitecture other than `x`. -/
theorem writesWord_setUarch {f : UarchState → UarchState} (r : UarchReg) (hram : ∀ u, (f u).ram = u.ram)
    (hw : ∀ u, shadowUarchStateWords (f u) = (shadowUarchStateWords u).set r.index val) :
    WritesWord (update fun m : Machine H => .ok (setUarch m (f m.uarch))) r.address val :=
  writesWord_uarchReg r fun m m' hm => by
    obtain rfl := Except.ok.inj hm
    exact ⟨rfl, hram _, hw _⟩

theorem writesWord_writePc (val : Word) :
    WritesWord (update fun m : Machine H => .ok (setUarch m { m.uarch with pc := val }))
      UarchReg.pc.address val :=
  writesWord_setUarch (f := fun u => { u with pc := val }) .pc (fun _ => rfl) fun _ => rfl

theorem writesWord_writeCycle (val : Word) :
    WritesWord (update fun m : Machine H => .ok (setUarch m { m.uarch with cycle := val }))
      UarchReg.cycle.address val :=
  writesWord_setUarch (f := fun u => { u with cycle := val }) .cycle (fun _ => rfl) fun _ => rfl

theorem writesWord_setHaltFlag :
    WritesWord (update fun m : Machine H => .ok (setUarch m { m.uarch with haltFlag := true }))
      UarchReg.haltFlag.address 1 :=
  writesWord_setUarch (f := fun u => { u with haltFlag := true }) .haltFlag (fun _ => rfl) fun _ => rfl

theorem keeps_iunrep (o : UarchOp) : Keeps (fun m : Machine H => m.s.regs .iunrep = 0) (stateAccess o) := by
  intro m a m' hI h
  cases o with
  | readX | readPc | readCycle | readHaltFlag | putChar | writePc | writeCycle | setHaltFlag =>
    cases h
    exact hI
  | fail message => exact a.elim
  | readWord paddr =>
    change query (fun m => doReadWord m paddr) m = .ok a m' at h
    obtain ⟨-, rfl⟩ := query_ok_iff.mp h
    exact hI
  | writeX reg val =>
    change update (fun m => doWriteX m reg val) m = .ok a m' at h
    have hm := update_ok_iff.mp h
    unfold doWriteX at hm
    split at hm
    · cases hm
      exact hI
    · cases hm
  | writeWord paddr val =>
    change update (fun m => doWriteWord m paddr val) m = .ok a m' at h
    obtain ⟨m1, hm1, hm'⟩ := doWriteWord_ok (update_ok_iff.mp h)
    have h1 : m1.s.regs .iunrep = 0 := by
      unfold storeWord at hm1
      generalize findMemoryPmaEntry m.s.board paddr 8 = pma at hm1
      dsimp only at hm1
      split at hm1
      · obtain ⟨s, hs, ⟨⟩⟩ := except_bind_ok_iff.mp hm1
        exact (writeRegister_iunrep hs).trans hI
      · cases hm1
        cases pma <;> exact hI
    rcases hm' with rfl | ⟨pma, rfl⟩
    · exact h1
    · cases pma <;> exact h1

end MachineEmulator.Uarch
