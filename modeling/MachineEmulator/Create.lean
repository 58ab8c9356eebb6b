import MachineEmulator.TreeProof

/-!
# New machines

* `initRegs` : the values of the registers that a configuration does not choose;
* `loadTlbEntry` : an entry of the TLB image of a stored machine, checked against the ranges;
* `Machine.create` : the machine a configuration describes, all its pages dirty and its tree empty.
  Whatever the configuration, the tree of a new machine is consistent (`new_consistent`) and its
  write TLB is sane (`new_tlbSane`).
-/

namespace MachineEmulator

open Merkle (SparseTree)

/-! ## Initial values -/

def misaMxlValue : Word := 2
def mstatusInit : Word := misaMxlValue <<< 32 ||| misaMxlValue <<< 34

def misaExt (c : Char) : Word := 1 <<< (c.toNat - 'A'.toNat)

def misaInit : Word :=
  misaMxlValue <<< 62 ||| misaExt 'S' ||| misaExt 'U' ||| misaExt 'I' ||| misaExt 'M' |||
    misaExt 'A' ||| misaExt 'F' ||| misaExt 'D' ||| misaExt 'C'

def prvM : Word := 3

/-- The initial values of the registers. -/
def initRegs : Reg → Word
  | .x i => if i = 11 then pmaDtbStart else 0
  | .pc => pmaRamStart
  | .mstatus => mstatusInit
  | .misa => misaInit
  | .ilrsc => -1
  | .iprv => prvM
  | _ => 0

/-- What a configuration chooses beside the ranges. -/
structure InitConfig where
  /-- The registers of the processor, the CLINT, the PLIC and the HTIF. -/
  regs : Reg → Word := initRegs
  consoleGetchar : Bool := false
  yieldManual : Bool := true
  yieldAutomatic : Bool := true
  /-- The contents of the memory ranges. -/
  image : Nat → Byte := fun _ => 0
  /-- The words of the TLB image of a stored machine. -/
  tlbImage : Option (Nat → Word) := none
  uarchX : UarchRegs := .zero
  uarchPc : Word := pmaUarchRamStart
  uarchCycle : Word := 0
  uarchHaltFlag : Bool := false
  /-- The image of the uarch RAM, by physical address. -/
  uarchRam : Nat → Byte
  softYield : Bool := false

/-! ## The TLB image -/

def TlbSet.position : TlbSet → Nat
  | .code => 0
  | .read => 1
  | .write => 2

variable (b : Board)

/-- An entry read from an image: an invalid one is taken as it is, any other must name a page of the
memory range it gives. -/
def loadTlbEntry (vaddrPage paddrPage pmaIndex : Word) : Except String TlbEntry := do
  if vaddrPage = tlbInvalidPage then
    .ok { vaddrPage, vhOffset := .raw 0, paddrPage, pmaIndex }
  else
    throwUnless (vaddrPage &&& ~~~pageOffsetMask = vaddrPage)
      "misaligned virtual page address in TLB entry"
    throwUnless (paddrPage &&& ~~~pageOffsetMask = paddrPage)
      "misaligned physical page address in TLB entry"
    let pma := findPmaEntry b.pmas paddrPage 8
    throwUnless (pma.length ≠ 0 ∧ pma.istartM ∧ pmaIndex.toNat < pmaMax ∧ pma.index = pmaIndex.toNat)
      "invalid PMA for TLB entry"
    .ok { vaddrPage, vhOffset := .board (paddrPage - vaddrPage), paddrPage, pmaIndex }

/-- The range of an access lies in the table, and contains the access unless it is empty. -/
theorem findPmaEntry_spec : ∀ {ps : List PmaEntry} {paddr length : Word},
    (findPmaEntry ps paddr length).length ≠ 0 →
    findPmaEntry ps paddr length ∈ ps ∧ (findPmaEntry ps paddr length).contains paddr length = true
  | [], paddr, length, h => absurd rfl h
  | p :: ps, paddr, length, h => by
    rw [findPmaEntry] at h ⊢
    split at h
    · rename_i hp
      rw [if_pos hp]
      simp only [Bool.or_eq_true, decide_eq_true_eq] at hp
      exact ⟨List.mem_cons_self, hp.resolve_left h⟩
    · rename_i hp
      rw [if_neg hp]
      obtain ⟨h1, h2⟩ := findPmaEntry_spec h
      exact ⟨List.mem_cons_of_mem p h1, h2⟩

theorem Board.mem_ranges_of_length {b : Board} {p : PmaEntry} (hp : p ∈ b.pmas) (hl : p.length ≠ 0) :
    p ∈ b.ranges := by
  rcases List.mem_append.mp hp with h | h
  · exact h
  · obtain ⟨n, -, rfl⟩ := List.mem_map.mp h
    exact absurd rfl hl

theorem Board.getElem?_pmas {b : Board} {p : PmaEntry} (hp : p ∈ b.ranges) : b.pmas[p.index]? = some p := by
  obtain ⟨i, hi⟩ := List.getElem?_of_mem hp
  have hlt : i < b.ranges.length := (List.getElem?_eq_some_iff.mp hi).1
  rw [b.wellFormed.index_eq i p hi, Board.pmas, List.getElem?_append_left hlt, hi]

/-- The entry is invalid, or maps a page to the page of a memory range, by number and by host
address. -/
def Board.EntryLoaded (e : TlbEntry) : Prop :=
  e.vaddrPage = tlbInvalidPage ∨
    (e.vaddrPage &&& ~~~pageOffsetMask = e.vaddrPage ∧ e.paddrPage &&& ~~~pageOffsetMask = e.paddrPage ∧
      e.vhOffset = .board (e.paddrPage - e.vaddrPage) ∧
      ∃ p ∈ b.ranges, p.istartM = true ∧ p.index = e.pmaIndex.toNat ∧ p.contains e.paddrPage 8 = true)

theorem loadTlbEntry_ok {b : Board} {vaddrPage paddrPage pmaIndex : Word} {e : TlbEntry}
    (h : loadTlbEntry b vaddrPage paddrPage pmaIndex = .ok e) : b.EntryLoaded e := by
  unfold loadTlbEntry at h
  split at h
  · rename_i hinv
    cases h
    exact .inl hinv
  · simp only [except_bind_ok_iff, throwUnless_ok_iff] at h
    obtain ⟨-, hv, -, hp, -, ⟨hl, hM, -, hidx⟩, h⟩ := h
    cases h
    obtain ⟨hmem, hc⟩ := findPmaEntry_spec hl
    exact .inr ⟨hv, hp, rfl, _, Board.mem_ranges_of_length hmem hl, hM, hidx, hc⟩

/-- A range of pages that contains a word of a page contains the page. -/
theorem contains_page {p : PmaEntry} (hp : p.Paged) {paddr : Word}
    (ha : paddr &&& ~~~pageOffsetMask = paddr) (hc : p.contains paddr 8 = true) :
    p.contains paddr (BitVec.ofNat 64 pmaPageSize) = true := by
  obtain ⟨h1, h2, h3⟩ := PmaEntry.contains_iff.mp hc
  refine PmaEntry.contains_iff.mpr ⟨h1, h2, ?_⟩
  have h4 := toNat_pageStart paddr
  have h5 := hp.start_mod
  have h6 := hp.length_mod
  have h7 : (8 : Word).toNat = 8 := rfl
  have h8 : (BitVec.ofNat 64 pmaPageSize).toNat = 4096 := rfl
  rw [ha] at h4
  simp only [pmaPageSize] at *
  omega

theorem Board.EntryLoaded.sane {b : Board} {e : TlbEntry} (he : b.EntryLoaded e) : b.EntrySane e := by
  rcases he with hinv | ⟨-, hpa, -, p, hp, -, hidx, hc⟩
  · exact .inl hinv
  · refine .inr ?_
    rw [← hidx, Board.getElem?_pmas hp, Option.any_some]
    exact contains_page (b.wellFormed.paged p hp) hpa hc

/-- The entry at a position of an image: a hot word and two cold words. -/
def loadTlbAt (image : Nat → Word) (t : TlbSet) (i : Fin 256) : Except String TlbEntry :=
  let hot := 512 * t.position + 2 * i.val
  loadTlbEntry b (image hot) (image (1536 + hot)) (image (1536 + hot + 1))

/-- The first error of an image, going over the entries in order. -/
def checkTlbImage : Option (Nat → Word) → Except String Unit
  | none => .ok ()
  | some image => (List.finRange 256).forM fun i => do
    let _ ← loadTlbAt b image .code i
    let _ ← loadTlbAt b image .read i
    let _ ← loadTlbAt b image .write i

def initTlb : Option (Nat → Word) → TlbSet → Fin 256 → TlbEntry
  | none, _, _ => .invalid
  | some image, t, i => (loadTlbAt b image t i).toOption.getD .invalid

theorem initTlb_loaded (image : Option (Nat → Word)) (t : TlbSet) (i : Fin 256) :
    b.EntryLoaded (initTlb b image t i) := by
  cases image with
  | none => exact .inl rfl
  | some image =>
    show b.EntryLoaded ((loadTlbAt b image t i).toOption.getD .invalid)
    cases he : loadTlbAt b image t i with
    | error message => exact .inl rfl
    | ok e => exact loadTlbEntry_ok he

/-! ## The constructor -/

/-- The table of ranges that the machine shows. -/
def shadowPmasWords : List Word := b.pmas.flatMap fun p => [p.getIstart, p.getIlength]

def initMem (image : Nat → Byte) (a : Nat) : Byte :=
  if shadowPmasPma.Mem a then wordsImage (shadowPmasWords b) (a - pmaShadowPmasStart.toNat)
  else image a

def htifConsoleCmdPutchar : Nat := 1
def htifYieldCmdManual : Nat := 1

/-- The registers of a new machine: those of the HTIF devices are computed. -/
def InitConfig.reg (c : InitConfig) : Reg → Word
  | .x i => if i = 0 then 0 else c.regs (.x i)
  | .htifIhalt => 1
  | .htifIconsole => (if c.consoleGetchar then 1 else 0) ||| 1 <<< htifConsoleCmdPutchar
  | .htifIyield => (if c.yieldManual then 1 <<< htifYieldCmdManual else 0) |||
      (if c.yieldAutomatic then 1 else 0)
  | r => c.regs r

namespace Machine

def new (H : Type) (b : Board) (c : InitConfig) : Machine H :=
  { s :=
      { regs := c.reg, tlb := initTlb b c.tlbImage, board := b, mem := initMem b c.image,
        dirty := fun _ => true, softYield := c.softYield },
    uarch :=
      { x := c.uarchX, pc := c.uarchPc, cycle := c.uarchCycle, haltFlag := c.uarchHaltFlag,
        ram := c.uarchRam, ramDirty := fun _ => true },
    tree := .nil }

def create (H : Type) (b : Board) (c : InitConfig) : Except String (Machine H) := do
  checkTlbImage b c.tlbImage
  throwUnless (c.consoleGetchar = false ∨ c.regs .iunrep ≠ 0)
    "TTY stdin is only supported in unreproducible machines"
  .ok (new H b c)

/-! ## The tree of a new machine -/

variable {H : Type} {h : Hasher H}

theorem image_of_not_shown {m : Machine H} (hd : m.s.board.UarchDisjoint) {i : Nat}
    (hi : ¬ m.Shown i) : ∀ j, j < pmaPageSize → m.image (pmaPageSize * i + j) = 0 := by
  by_cases hq : ∃ q ∈ m.merklePmas, q.entry.Mem (i * pmaPageSize)
  · obtain ⟨q, hq, hmem⟩ := hq
    have hne : q ≠ .empty := by
      rintro rfl
      exact absurd hmem.2 (by simp [MerklePma.entry, emptyPma])
    obtain ⟨k, hk, rfl⟩ := exists_page (paged_of_mem hq hne) hmem
    rcases peek_spec hd hq hk with hpeek | ⟨-, hzero⟩
    · exact absurd ⟨q, hq, k, hk, rfl, _, hpeek⟩ hi
    · exact hzero
  · intro j hj
    refine image_of_no_range fun q hmem ha => hq ⟨q, hmem, ?_⟩
    have hne : q ≠ .empty := by
      rintro rfl
      exact absurd ha.2 (by simp [MerklePma.entry, emptyPma])
    have hpaged := paged_of_mem hmem hne
    have h1 := hpaged.start_mod
    simp only [PmaEntry.Mem, pmaPageSize] at *
    omega

theorem isPageMarkedDirty_new (b : Board) (c : InitConfig) (q : MerklePma) (offset : Nat) :
    (new H b c).isPageMarkedDirty q offset = true := by
  cases q with
  | board p =>
    simp only [isPageMarkedDirty]
    split <;> rfl
  | _ => rfl

/-- The empty tree is right for a machine whose pages are all dirty. -/
theorem new_consistent {b : Board} (hd : b.UarchDisjoint) (c : InitConfig) : Consistent h (new H b c) := by
  refine ⟨fun _ => pristineHash h log2PageSize, ⟨SparseTree.stores_nil fun _ _ _ => rfl, rfl⟩,
    fun i _ => ?_⟩
  by_cases hi : (new H b c).Shown i
  · obtain ⟨q, hq, k, hk, hki, hdata⟩ := hi
    exact .inr (.inl ⟨q, hq, k, hk, hki, isPageMarkedDirty_new b c q _, hdata⟩)
  · exact .inl ⟨(pageHash_of_zero (image_of_not_shown hd hi)).symm, fun hs => absurd hs hi⟩

theorem new_tlbSane (b : Board) (c : InitConfig) : (new H b c).s.TlbSane := fun k =>
  (initTlb_loaded b c.tlbImage .write k).sane

end Machine

/-! ## A small machine -/

/-- One page of RAM and no flash drives. -/
def smallConfig : MachineConfig := { ramLength := 0x1000, flashDrives := [] }

def smallBoard : Board :=
  { config := smallConfig
    ranges := smallConfig.pmas.mapIdx fun i p => { p with index := i }
    registered := by rfl }

theorem smallBoard_uarchDisjoint : smallBoard.UarchDisjoint := by decide

end MachineEmulator
