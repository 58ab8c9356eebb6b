import MachineEmulator.Lib.SparseTree
import MachineEmulator.Pma

/-!
# The state of a machine and its image

* `MachineState` : registers, TLB, ranges, the host memory behind the memory ranges, dirty pages;
* `UarchState` : the microarchitecture;
* `Machine` : both, with the Merkle tree the machine keeps of them;
* `Machine.image` : the `2 ^ 64` bytes the Merkle tree is about. Registers, TLB and the
  microarchitecture's registers appear in it through the shadow ranges.

Host memory is addressed by the physical addresses it stands behind, so a host pointer into a memory
range is `HostAddr.board` of a physical address, and any other host address is `HostAddr.raw`.
-/

namespace MachineEmulator

open List

open Merkle (SparseTree)

/-! ## Registers -/

/-- The registers of the machine state. -/
inductive Reg where
  | x (i : Fin 32)
  | f (i : Fin 32)
  | pc
  | fcsr
  | mcycle
  | icycleinstret
  | mstatus
  | mtvec
  | mscratch
  | mepc
  | mcause
  | mtval
  | misa
  | mie
  | mip
  | medeleg
  | mideleg
  | mcounteren
  | menvcfg
  | stvec
  | sscratch
  | sepc
  | scause
  | stval
  | satp
  | scounteren
  | senvcfg
  | ilrsc
  | iprv
  | iflagsX
  | iflagsY
  | iflagsH
  | iunrep
  | clintMtimecmp
  | plicGirqpend
  | plicGirqsrvd
  | htifTohost
  | htifFromhost
  | htifIhalt
  | htifIconsole
  | htifIyield
  deriving DecidableEq

def mvendoridInit : Word := 0x6361727465736920
def marchidInit : Word := 19
def mimpidInit : Word := 19

/-- A word of the shadow state: a register, or one of the three constants. -/
inductive ShadowReg where
  | reg (r : Reg)
  | mvendorid
  | marchid
  | mimpid
  deriving DecidableEq

/-- The words of the shadow state after the general purpose and floating-point registers. -/
def shadowNamedRegs : List ShadowReg :=
  [.reg .pc, .reg .fcsr, .mvendorid, .marchid, .mimpid, .reg .mcycle, .reg .icycleinstret,
    .reg .mstatus, .reg .mtvec, .reg .mscratch, .reg .mepc, .reg .mcause, .reg .mtval, .reg .misa,
    .reg .mie, .reg .mip, .reg .medeleg, .reg .mideleg, .reg .mcounteren, .reg .menvcfg,
    .reg .stvec, .reg .sscratch, .reg .sepc, .reg .scause, .reg .stval, .reg .satp,
    .reg .scounteren, .reg .senvcfg, .reg .ilrsc, .reg .iprv, .reg .iflagsX, .reg .iflagsY,
    .reg .iflagsH, .reg .iunrep, .reg .clintMtimecmp, .reg .plicGirqpend, .reg .plicGirqsrvd,
    .reg .htifTohost, .reg .htifFromhost, .reg .htifIhalt, .reg .htifIconsole, .reg .htifIyield]

/-- The words of the shadow state, in the order of their addresses. -/
def shadowStateRegs : List ShadowReg :=
  (List.finRange 32).map (fun i => ShadowReg.reg (.x i)) ++
    (List.finRange 32).map (fun i => ShadowReg.reg (.f i)) ++ shadowNamedRegs

/-! ## TLB -/

inductive TlbSet where
  | code
  | read
  | write
  deriving DecidableEq, Repr

/-- A host address: the memory behind a physical address, or some other address of the process. -/
inductive HostAddr where
  | board (paddr : Word)
  | raw (addr : Word)
  deriving DecidableEq, Repr

def HostAddr.add : HostAddr → Word → HostAddr
  | .board p, o => .board (p + o)
  | .raw a, o => .raw (a + o)

/-- The hot and the cold fields of a TLB entry. -/
structure TlbEntry where
  vaddrPage : Word
  vhOffset : HostAddr
  paddrPage : Word
  pmaIndex : Word
  deriving DecidableEq

def tlbInvalidPage : Word := -1
def tlbInvalidPma : Word := 32

def TlbEntry.invalid : TlbEntry :=
  { vaddrPage := tlbInvalidPage, vhOffset := .raw 0, paddrPage := tlbInvalidPage,
    pmaIndex := tlbInvalidPma }

/-! ## States -/

structure MachineState where
  regs : Reg → Word
  tlb : TlbSet → Fin 256 → TlbEntry
  board : Board
  /-- Host memory of the memory ranges, by physical address. -/
  mem : Nat → Byte
  /-- Dirty page maps of the memory ranges, by page number. -/
  dirty : Nat → Bool
  softYield : Bool

/-- The register file of the microarchitecture: `x0` is always zero. -/
def UarchRegs := { x : Fin 32 → Word // x 0 = 0 }

def UarchRegs.zero : UarchRegs := ⟨fun _ => 0, rfl⟩

def UarchRegs.get (x : UarchRegs) (i : Fin 32) : Word := x.1 i

def UarchRegs.set (x : UarchRegs) (i : Fin 32) (hi : i ≠ 0) (v : Word) : UarchRegs :=
  ⟨Function.update x.1 i v, by rw [Function.update_of_ne hi.symm]; exact x.2⟩

structure UarchState where
  x : UarchRegs
  pc : Word
  cycle : Word
  haltFlag : Bool
  /-- Host memory of the uarch RAM, by physical address. -/
  ram : Nat → Byte
  /-- Dirty page map of the uarch RAM, by page number. -/
  ramDirty : Nat → Bool

structure Machine (H : Type) where
  s : MachineState
  uarch : UarchState
  tree : SparseTree H

variable (s : MachineState)

namespace MachineState

def readShadow : ShadowReg → Word
  | .reg r => s.regs r
  | .mvendorid => mvendoridInit
  | .marchid => marchidInit
  | .mimpid => mimpidInit

def writeReg (r : Reg) (v : Word) : MachineState :=
  { s with regs := Function.update s.regs r v }

def setTlb (t : TlbSet) (i : Fin 256) (e : TlbEntry) : MachineState :=
  { s with tlb := Function.update s.tlb t (Function.update (s.tlb t) i e) }

def setMem (mem : Nat → Byte) : MachineState := { s with mem }

/-- Mark the page of a physical address as dirty. -/
def markDirtyPage (page : Nat) : MachineState :=
  { s with dirty := Function.update s.dirty page true }

end MachineState

/-! ## The shadow ranges -/

def shadowStateWords : List Word := shadowStateRegs.map s.readShadow

/-- The set that word `i` of the shadow TLB belongs to. -/
def tlbWordSet (i : Nat) : TlbSet :=
  match i / 512 % 3 with
  | 0 => .code
  | 1 => .read
  | _ => .write

/-- The entry that word `i` of the shadow TLB belongs to. -/
def tlbWordIndex (i : Nat) : Fin 256 := Fin.ofNat 256 (i % 512 / 2)

/-- Word `i` of the shadow TLB: the hot entries of the three sets, then the cold ones. The host
offset is visible as zero. -/
def shadowTlbWord (i : Nat) : Word :=
  let e := s.tlb (tlbWordSet i) (tlbWordIndex i)
  if i < 1536 then (if i % 2 = 0 then e.vaddrPage else 0)
  else if i < 3072 then (if i % 2 = 0 then e.paddrPage else e.pmaIndex)
  else 0

def shadowUarchStateWords (u : UarchState) : List Word :=
  [if u.haltFlag then 1 else 0, u.cycle, u.pc] ++ (List.finRange 32).map u.x.get

/-- A list of words as an image, zero beyond its end. -/
def wordsImage (ws : List Word) : Nat → Byte := wordImage fun i => ws.getD i 0

theorem shadowStateWords_congr {s s' : MachineState} (h : s'.regs = s.regs) :
    shadowStateWords s' = shadowStateWords s := by
  refine map_congr_left fun r _ => ?_
  cases r <;> simp [MachineState.readShadow, h]

theorem shadowTlbWord_congr {s s' : MachineState} (h : s'.tlb = s.tlb) : shadowTlbWord s' = shadowTlbWord s := by
  funext i
  simp [shadowTlbWord, h]

/-! ## The state image -/

def shadowUarchStatePma : PmaEntry :=
  devicePma "shadow uarch state device" pmaShadowUarchStateStart pmaShadowUarchStateLength
    ⟨false, false, false, false, false, .shadowUarch⟩

def uarchRamPma : PmaEntry :=
  memoryPma "uarch RAM" pmaUarchRamStart pmaUarchRamLength (memoryFlags true true .memory)

/-- The byte at a physical address that lies in the range `p` of the board. -/
def MachineState.rangeByte (p : PmaEntry) (a : Nat) : Byte :=
  match p.data, p.flags.DID with
  | .memory, _ => s.mem a
  | .device, .shadowState => wordsImage (shadowStateWords s) (a - p.start.toNat)
  | .device, .shadowTlb => wordImage (shadowTlbWord s) (a - p.start.toNat)
  | _, _ => 0

/-- The byte the board shows at a physical address. -/
def MachineState.boardByte (a : Nat) : Byte :=
  match s.board.ranges.find? fun p => p.Mem a with
  | some p => s.rangeByte p a
  | none => 0

/-- The byte of the state image at an address. -/
def Machine.image {H : Type} (m : Machine H) (a : Nat) : Byte :=
  if shadowUarchStatePma.Mem a then
    wordsImage (shadowUarchStateWords m.uarch) (a - pmaShadowUarchStateStart.toNat)
  else if uarchRamPma.Mem a then m.uarch.ram a
  else m.s.boardByte a

/-! ## Reading the image -/

theorem MachineState.boardByte_of_mem {p : PmaEntry} (hp : p ∈ s.board.ranges)
    {a : Nat} (ha : p.Mem a) : s.boardByte a = s.rangeByte p a := by
  unfold boardByte
  have hfind : s.board.ranges.find? (fun q => q.Mem a) = some p := by
    cases hf : s.board.ranges.find? fun q => q.Mem a with
    | none =>
      have := find?_eq_none.mp hf p hp
      simp [ha] at this
    | some q =>
      have hq := mem_of_find?_eq_some hf
      have hqa : q.Mem a := by simpa using find?_some hf
      by_contra hne
      have hqp : q ≠ p := fun h => hne (by rw [h])
      exact (s.board.disjoint hq hp hqp).not_mem hqa ha
  rw [hfind]

theorem MachineState.boardByte_of_not_mem {a : Nat}
    (h : ∀ p ∈ s.board.ranges, ¬ p.Mem a) : s.boardByte a = 0 := by
  unfold boardByte
  rw [find?_eq_none.mpr (by simpa using h)]

/-- The only range that shows the shadow state, and the only one that shows the shadow TLB. -/
theorem Board.shadow_range {b : Board} {p : PmaEntry} (hp : p ∈ b.ranges) (hd : p.data = .device) :
    (p.flags.DID = .shadowState → p.start = pmaShadowStateStart ∧ p.length = pmaShadowStateLength) ∧
      (p.flags.DID = .shadowTlb → p.start = pmaShadowTlbStart ∧ p.length = pmaShadowTlbLength) := by
  obtain ⟨q, hq, he⟩ := b.mem_config hp
  rw [he] at hd ⊢
  rcases MachineConfig.memory_or_device hq with hM | hdev
  · cases hM.symm.trans hd
  · have hall : ∀ r ∈ devicePmas, (r.flags.DID = .shadowState → r.start = pmaShadowStateStart ∧
        r.length = pmaShadowStateLength) ∧ (r.flags.DID = .shadowTlb → r.start = pmaShadowTlbStart ∧
        r.length = pmaShadowTlbLength) := by decide
    exact hall q hdev

namespace MachineState

variable (s : MachineState)

theorem boardByte_shadowState {a : Nat} (ha : a < pmaShadowStateLength.toNat) :
    s.boardByte a = wordsImage (shadowStateWords s) a := by
  obtain ⟨i, hi⟩ := s.board.exists_mem (p := shadowStatePma) (by simp [MachineConfig.pmas])
  rw [s.boardByte_of_mem hi ⟨Nat.zero_le _, lt_of_lt_of_le ha (Nat.le_add_left _ _)⟩]
  rfl

theorem boardByte_shadowTlb {a : Nat} (ha : a < pmaShadowTlbLength.toNat) :
    s.boardByte (pmaShadowTlbStart.toNat + a) = wordImage (shadowTlbWord s) a := by
  obtain ⟨i, hi⟩ := s.board.exists_mem (p := shadowTlbPma) (by simp [MachineConfig.pmas])
  rw [s.boardByte_of_mem hi (a := pmaShadowTlbStart.toNat + a)
    ⟨Nat.le_add_right _ _, Nat.add_lt_add_left ha _⟩]
  show wordImage _ (pmaShadowTlbStart.toNat + a - pmaShadowTlbStart.toNat) = _
  rw [Nat.add_sub_cancel_left]

variable {s}

theorem boardByte_congr {s' : MachineState} {a : Nat} (hboard : s'.board = s.board) (hmem : s'.mem a = s.mem a)
    (hreg : a < pmaShadowStateLength.toNat →
      wordsImage (shadowStateWords s') a = wordsImage (shadowStateWords s) a)
    (htlb : ∀ k, a = pmaShadowTlbStart.toNat + k → k < pmaShadowTlbLength.toNat →
      wordImage (shadowTlbWord s') k = wordImage (shadowTlbWord s) k) : s'.boardByte a = s.boardByte a := by
  unfold boardByte
  rw [hboard]
  split
  · rename_i p hf
    have hp := mem_of_find?_eq_some hf
    have hpa : p.Mem a := by simpa using find?_some hf
    unfold rangeByte
    split
    · exact hmem
    · rename_i hd hdid
      obtain ⟨hs, hl⟩ := (Board.shadow_range hp hd).1 hdid
      rw [PmaEntry.Mem, hs, hl] at hpa
      rw [hs]
      exact hreg (by simpa [pmaShadowStateStart] using hpa.2)
    · rename_i hd hdid
      obtain ⟨hs, hl⟩ := (Board.shadow_range hp hd).2 hdid
      rw [PmaEntry.Mem, hs, hl] at hpa
      rw [hs]
      exact htlb _ (by omega) (by omega)
    · rfl
  · rfl

end MachineState

/-! ## Writing the image -/

instance (p q : PmaEntry) : Decidable (p.Disjoint q) := inferInstanceAs (Decidable (_ ∨ _))

/-- No range of the board overlaps the ranges of the microarchitecture. -/
def Board.UarchDisjoint (b : Board) : Prop :=
  ∀ p ∈ b.ranges, p.Disjoint shadowUarchStatePma ∧ p.Disjoint uarchRamPma

instance (b : Board) : Decidable b.UarchDisjoint := inferInstanceAs (Decidable (∀ _ ∈ _, _))

namespace Machine

variable {H : Type} {m m' : Machine H}

/-- The address lies in a range of the board or of the microarchitecture. -/
def InRange (m : Machine H) (a : Nat) : Prop :=
  shadowUarchStatePma.Mem a ∨ uarchRamPma.Mem a ∨ ∃ p ∈ m.s.board.ranges, p.Mem a

theorem image_shadowUarch (m : Machine H) {a : Nat} (ha : a < pmaShadowUarchStateLength.toNat) :
    m.image (pmaShadowUarchStateStart.toNat + a) = wordsImage (shadowUarchStateWords m.uarch) a := by
  rw [image, if_pos ⟨Nat.le_add_right _ _, Nat.add_lt_add_left ha _⟩, Nat.add_sub_cancel_left]

/-- The microarchitecture's registers as words of the image. -/
theorem readBytes_shadowUarch (m : Machine H) {k : Nat} (hk : k < 35) :
    readBytes m.image (pmaShadowUarchStateStart.toNat + 8 * k) 8 =
      toLE 8 ((shadowUarchStateWords m.uarch).getD k 0).toNat := by
  have hl : pmaShadowUarchStateLength.toNat = 4096 := rfl
  rw [← readBytes_wordImage fun i => (shadowUarchStateWords m.uarch).getD i 0]
  refine map_congr_left fun j hj => ?_
  have hj := mem_range.mp hj
  rw [Nat.add_assoc, m.image_shadowUarch (by omega)]
  rfl

theorem image_setUarchWord {k : Nat} {v : Word} (hk : k < 35) (hs : m'.s = m.s)
    (hram : m'.uarch.ram = m.uarch.ram)
    (hw : shadowUarchStateWords m'.uarch = (shadowUarchStateWords m.uarch).set k v) :
    m'.image = writeBytes m.image (pmaShadowUarchStateStart.toNat + 8 * k) (toLE 8 v.toNat) := by
  have hlen : (shadowUarchStateWords m.uarch).length = 35 := by simp [shadowUarchStateWords]
  refine eq_writeBytes ?_ fun x hx => ?_
  · rw [length_toLE, m'.readBytes_shadowUarch hk, hw]
    simp [hlen, hk]
  · rw [length_toLE] at hx
    unfold image
    rw [hs, hram, hw]
    split
    · rename_i hmem
      have hle : pmaShadowUarchStateStart.toNat ≤ x := hmem.1
      refine wordImage_congr ?_
      simp only [getD_eq_getElem?_getD]
      rw [getElem?_set_ne (by omega)]
    · rfl

theorem not_mem_shadowUarchState {a : Nat} (h : uarchRamPma.Mem a) : ¬ shadowUarchStatePma.Mem a := by
  have h1 : uarchRamPma.start.toNat = 0x600000 := rfl
  have h2 : shadowUarchStatePma.start.toNat + shadowUarchStatePma.length.toNat = 0x401000 := rfl
  unfold PmaEntry.Mem at h ⊢
  omega

theorem image_setUarchRam {a : Nat} {bs : List Byte} (hs : m'.s = m.s)
    (hw : shadowUarchStateWords m'.uarch = shadowUarchStateWords m.uarch)
    (hram : m'.uarch.ram = writeBytes m.uarch.ram a bs) (ha : uarchRamPma.start.toNat ≤ a ∧
      a + bs.length ≤ uarchRamPma.start.toNat + uarchRamPma.length.toNat) :
    m'.image = writeBytes m.image a bs := by
  have hin : ∀ i, i < bs.length → uarchRamPma.Mem (a + i) := fun i hi => by
    unfold PmaEntry.Mem
    omega
  refine eq_writeBytes ?_ fun x hx => ?_
  · conv_rhs => rw [← readBytes_writeBytes_same m.uarch.ram a bs, ← hram]
    refine readBytes_congr fun i hi => ?_
    rw [image, if_neg (not_mem_shadowUarchState (hin i hi)), if_pos (hin i hi)]
  · unfold image
    rw [hs, hw, hram, writeBytes_of_not_mem hx]

/-- Writing the board outside the ranges of the microarchitecture. -/
theorem image_setBoard {a : Nat} {bs : List Byte} (hu : m'.uarch = m.uarch)
    (hb : m'.s.boardByte = writeBytes m.s.boardByte a bs)
    (ha : ∀ i, i < bs.length → ¬ shadowUarchStatePma.Mem (a + i) ∧ ¬ uarchRamPma.Mem (a + i)) :
    m'.image = writeBytes m.image a bs := by
  refine eq_writeBytes ?_ fun x hx => ?_
  · conv_rhs => rw [← readBytes_writeBytes_same m.s.boardByte a bs, ← hb]
    refine readBytes_congr fun i hi => ?_
    rw [image, if_neg (ha i hi).1, if_neg (ha i hi).2]
  · unfold image
    rw [hu, hb, writeBytes_of_not_mem hx]

theorem readBytes_image_board {a n : Nat}
    (ha : ∀ i, i < n → ¬ shadowUarchStatePma.Mem (a + i) ∧ ¬ uarchRamPma.Mem (a + i)) :
    readBytes m.image a n = readBytes m.s.boardByte a n :=
  readBytes_congr fun i hi => by rw [image, if_neg (ha i hi).1, if_neg (ha i hi).2]

end Machine

end MachineEmulator
