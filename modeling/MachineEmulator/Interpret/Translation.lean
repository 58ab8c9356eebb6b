import MachineEmulator.Interpret.Effects
import MachineEmulator.Interpret.VirtualMemory

/-!
# What a translation does to a machine

* `RunState.searchPma` : the range a word falls in;
* `findLeaf` : the page-table walk as a function of the words in memory;
* `RunState.PteMarked` : the machine after the accessed and dirty bits of a leaf were set;
* `wlp_translate_eq` : a translation is a function of the machine, `RunState.translate`;
* `Translation` : the outcomes of a translation. The registers, the TLB and the devices stay as they are.
-/

namespace MachineEmulator.Interpret

open Option RunState

variable {fuel : Nat} {m : RunState}

/-! ## Operations on memory -/

theorem wlp_getHostMemory {pma : PmaEntry} {post : Post HostAddr} :
    Wlp ((getHostMemory pma).exec fuel) post m ↔ post (.board pma.start) m :=
  (wlp_op (o := .getHostMemory pma)).trans (wlp_query_ok (f := fun _ : RunState => HostAddr.board pma.start))

variable {post : Post PmaEntry} {size : MemSize} {updatePte : Bool} {xwr : Xwr} {vaddr : Word}

theorem wlp_readPmaEntry {index : Nat} : Wlp ((readPmaEntry index).exec fuel) post m ↔
      ∀ pma, m.pmas[index]? = some pma → post pma m := by
  refine (wlp_op (o := .readPmaEntry index)).trans (wlp_query.trans ⟨fun h pma hp => h pma ?_, ?_⟩)
  · rw [hp]
  · intro h a ha
    split at ha
    · rename_i pma hp
      exact Except.ok.inj ha ▸ h pma hp
    · cases ha

theorem wlp_readMemoryWord {paddr hoffset : Word} {hpage : HostAddr} {post : Post Word} :
    Wlp ((readMemoryWord size paddr hpage hoffset).exec fuel) post m ↔
      ∀ v, loadHost m.s size (hpage.add hoffset) = .ok v → post v m :=
  (wlp_op (o := .readMemoryWord size paddr hpage hoffset)).trans wlp_query

theorem wlp_writeMemoryWord {paddr hoffset val : Word} {hpage : HostAddr} {post : Post Unit} :
    Wlp ((writeMemoryWord size paddr hpage hoffset val).exec fuel) post m ↔
      ∀ s', storeHost m.s size val (hpage.add hoffset) = .ok s' → post () (m.withState s') :=
  (wlp_op (o := .writeMemoryWord size paddr hpage hoffset val)).trans wlp_updateState

theorem wlp_markDirtyPage {pma : PmaEntry} {addressInRange : Word} {post : Post Unit} :
    Wlp ((markDirtyPage pma addressInRange).exec fuel) post m ↔
      ∀ s', markDirty m.s pma addressInRange = .ok s' → post () (m.withState s') :=
  (wlp_op (o := .markDirtyPage pma addressInRange)).trans wlp_updateState

/-! ## Ranges -/

/-- The search of `findPmaEntryFrom` in a table. -/
def searchPmas (pmas : List PmaEntry) (size : MemSize) (paddr : Word) : Nat → Nat → Option PmaEntry
  | 0, index => pmas[index]?
  | n + 1, index =>
    match pmas[index]? with
    | none => none
    | some pma =>
      if pma.length = 0 then some pma
      else if pma.start ≤ paddr ∧ paddr - pma.start ≤ pma.length - size.sizeof then some pma
      else searchPmas pmas size paddr n (index + 1)

def RunState.searchPma (m : RunState) (size : MemSize) (paddr : Word) : Option PmaEntry :=
  searchPmas m.pmas size paddr pmaMax 0

theorem wlp_findPmaEntryFrom {paddr : Word}
    {n index : Nat} : Wlp ((findPmaEntryFrom size paddr n index).exec fuel) post m ↔
      ∀ pma, searchPmas m.pmas size paddr n index = some pma → post pma m := by
  induction n generalizing index with
  | zero => exact wlp_readPmaEntry
  | succ n ih =>
    simp only [findPmaEntryFrom, searchPmas, wlp_run_bind, wlp_readPmaEntry, wlp_run_ite, wlp_run_pure, ih]
    cases m.pmas[index]? with
    | none => simp
    | some pma =>
      simp only [some.injEq, forall_eq']
      split_ifs <;> simp_all

theorem wlp_findPma {paddr : Word} : Wlp ((findPma size paddr).exec fuel) post m ↔
      ∀ pma, m.searchPma size paddr = some pma → post pma m :=
  wlp_findPmaEntryFrom

/-! ## Words of page tables -/

def memWord (mem : Nat → Byte) (paddr : Word) : Word :=
  BitVec.ofNat 64 (ofLE (readBytes mem paddr.toNat 8))

/-- The word that a walk reads at a physical address, if it lies in readable memory. -/
def RunState.ramWord (m : RunState) (paddr : Word) : Option Word :=
  match m.searchPma .u64 paddr with
  | none => none
  | some pma => if !pma.istartM || !pma.flags.R then none else some (memWord m.s.mem paddr)

theorem pageHostAddr_add (pma : PmaEntry) (paddrPage paddr : Word) :
    (pageHostAddr (.board pma.start) paddrPage pma).add (paddr - paddrPage) = .board paddr := by
  have h1 : pma.start + (paddrPage - pma.start) = paddrPage := by
    rw [BitVec.add_comm, BitVec.sub_add_cancel]
  have h2 : paddrPage + (paddr - paddrPage) = paddr := by
    rw [BitVec.add_comm, BitVec.sub_add_cancel]
  simp [pageHostAddr, HostAddr.add, h1, h2]

theorem wlp_readRamUint64 {paddr : Word} {post : Post (Option Word)}
    (h : post (m.ramWord paddr) m) : Wlp ((readRamUint64 paddr).exec fuel) post m := by
  simp only [readRamUint64, wlp_run_bind, wlp_findPma, wlp_run_ite, wlp_run_pure, wlp_getHostMemory,
    wlp_readMemoryWord, pageHostAddr_add]
  intro pma hp
  simp only [ramWord, hp] at h
  refine ⟨fun hr => by rwa [if_pos hr] at h, fun hr v hv => ?_⟩
  rw [if_neg hr] at h
  exact Except.ok.inj hv ▸ h

/-- The machine after a word was written to memory. -/
def RunState.ramWritten (m : RunState) (paddr val : Word) : RunState :=
  m.withState ((m.s.setMem (writeBytes m.s.mem paddr.toNat (toLE 8 val.toNat))).markDirtyPage
    (paddr.toNat / pmaPageSize))

/-- The word at a physical address lies in memory that can be written. -/
def RunState.ramWritable (m : RunState) (paddr : Word) : Bool :=
  match m.searchPma .u64 paddr with
  | none => false
  | some pma => pma.istartM && pma.flags.W

theorem ramWritable_iff {paddr : Word} : m.ramWritable paddr = true ↔
    ∃ pma, m.searchPma .u64 paddr = some pma ∧ pma.istartM = true ∧ pma.flags.W = true := by
  unfold ramWritable
  cases m.searchPma .u64 paddr with
  | none => simp
  | some pma => simp

theorem wlp_writeRamUint64 {paddr val : Word} {post : Post Bool}
    (h : post (m.ramWritable paddr) (if m.ramWritable paddr then m.ramWritten paddr val else m)) :
    Wlp ((writeRamUint64 paddr val).exec fuel) post m := by
  simp only [writeRamUint64, wlp_run_bind, wlp_findPma, wlp_run_ite, wlp_run_pure, wlp_getHostMemory,
    wlp_writeMemoryWord, wlp_markDirtyPage, pageHostAddr_add]
  intro pma hp
  have hwritable : m.ramWritable paddr = (pma.istartM && pma.flags.W) := by
    rw [ramWritable, hp]
  rw [hwritable] at h
  refine ⟨fun hw => ?_, fun hw s' hs s'' hs'' => ?_⟩
  · have hno : (pma.istartM && pma.flags.W) = false := by
      rw [Bool.and_eq_false_iff]
      simpa using hw
    simpa only [hno, Bool.false_eq_true, if_false] using h
  · have hyes : pma.istartM = true ∧ pma.flags.W = true := by simpa using hw
    have haddr : pma.start + (paddr - pma.start) = paddr := by
      rw [BitVec.add_comm, BitVec.sub_add_cancel]
    cases hs
    unfold markDirty at hs''
    rw [if_pos hyes.1, haddr] at hs''
    split at hs''
    · cases hs''
      rw [hyes.1, hyes.2, Bool.and_true, if_pos rfl] at h
      exact h
    · cases hs''

/-! ## The walk -/

structure PteLeaf where
  addr : Word
  pte : Word
  /-- The bits of a virtual address that the leaf does not translate. -/
  vaddrMask : Word
  deriving DecidableEq, Repr

/-- The physical address that a leaf translates a virtual address to. -/
def PteLeaf.paddr (leaf : PteLeaf) (vaddr : Word) : Word :=
  (vaddr &&& leaf.vaddrMask) ||| (ptePpn leaf.pte &&& ~~~leaf.vaddrMask)

/-- The leaf that the walk for a virtual address ends at, with `levels` levels to go from a table. -/
def findLeaf (ram : Word → Option Word) (vaddr : Word) : Nat → Word → Option PteLeaf
  | 0, _ => none
  | levels + 1, pteBase =>
    let vaddrShift := log2PageSize + log2VpnSize * levels
    let vpn := (vaddr >>> vaddrShift) &&& vpnMask
    let pteAddr := pteBase + (vpn <<< log2PteSize)
    match ram pteAddr with
    | none => none
    | some pte =>
      if pte &&& pteVMask = 0 then none
      else if pte &&& (pte6054Mask ||| ptePbmtMask ||| pteNMask) ≠ 0 then none
      else if pteXwr pte = 0 then findLeaf ram vaddr levels (ptePpn pte)
      else some ⟨pteAddr, pte, (1 <<< vaddrShift) - 1⟩

/-- The machine after a walk that ended at a leaf: the bits of the leaf may have been set. -/
def RunState.PteMarked (m : RunState) (updatePte : Bool) (leaf : PteLeaf) (xwr : Xwr) (m' : RunState) :
    Prop :=
  m' = m ∨ updatePte = true ∧ leaf.pte ≠ pteUpdate leaf.pte xwr ∧
    (∃ pma, m.searchPma .u64 leaf.addr = some pma ∧ pma.istartM = true ∧ pma.flags.W = true) ∧
    m' = m.ramWritten leaf.addr (pteUpdate leaf.pte xwr)

/-- The machine after the bits of a leaf were set for an access, if they can be. -/
def RunState.pteMarked (m : RunState) (leaf : PteLeaf) (xwr : Xwr) : RunState :=
  if leaf.pte ≠ pteUpdate leaf.pte xwr ∧ m.ramWritable leaf.addr then
    m.ramWritten leaf.addr (pteUpdate leaf.pte xwr)
  else m

theorem pteMarked_spec (updatePte : Bool) (leaf : PteLeaf) (xwr : Xwr) :
    m.PteMarked updatePte leaf xwr (if updatePte then m.pteMarked leaf xwr else m) := by
  cases updatePte with
  | false => exact .inl rfl
  | true =>
    unfold pteMarked
    by_cases h : leaf.pte ≠ pteUpdate leaf.pte xwr ∧ m.ramWritable leaf.addr = true
    · exact .inr ⟨rfl, h.1, ramWritable_iff.mp h.2, by rw [if_pos rfl, if_pos h]⟩
    · exact .inl (by rw [if_pos rfl, if_neg h])

theorem wlp_walk {prv mstatus : Word} {levels : Nat} {pteBase : Word} {post : Post (Option Word)}
    (hnone : (∀ leaf, findLeaf m.ramWord vaddr levels pteBase = some leaf →
      leafAllows prv mstatus leaf.pte xwr leaf.vaddrMask = false) → post none m)
    (hleaf : ∀ leaf, findLeaf m.ramWord vaddr levels pteBase = some leaf →
      leafAllows prv mstatus leaf.pte xwr leaf.vaddrMask = true →
      post (some (leaf.paddr vaddr)) (if updatePte then m.pteMarked leaf xwr else m)) :
    Wlp ((walk updatePte prv mstatus vaddr xwr levels pteBase).exec fuel) post m := by
  induction levels generalizing pteBase with
  | zero =>
    refine wlp_pure.mpr (hnone ?_)
    simp [findLeaf]
  | succ levels ih =>
    rw [walk, wlp_run_bind]
    refine wlp_readRamUint64 ?_
    rw [findLeaf] at hnone hleaf
    cases hpte : m.ramWord
        (pteBase + (((vaddr >>> (log2PageSize + log2VpnSize * levels)) &&& vpnMask) <<< log2PteSize)) with
    | none => simpa [hpte] using hnone
    | some pte =>
      simp only [hpte] at hnone hleaf
      simp only [wlp_run_ite, wlp_run_pure]
      refine ⟨fun hV => hnone ?_, fun hV => ⟨fun hres => hnone ?_, fun hres => ⟨fun hx => ?_, fun hx => ?_⟩⟩⟩
      · intro leaf hl
        rw [if_pos hV] at hl
        cases hl
      · intro leaf hl
        rw [if_neg hV, if_pos hres] at hl
        cases hl
      · simp only [if_neg hV, if_neg hres, if_pos hx] at hnone hleaf
        exact ih hnone hleaf
      · simp only [if_neg hV, if_neg hres, if_neg hx, some.injEq, forall_eq'] at hnone hleaf
        refine ⟨fun hallow => ?_, fun hallow => hnone (by simpa using hallow)⟩
        have hleaf := hleaf hallow
        unfold pteMarked at hleaf
        refine ⟨fun hup => ?_, fun hup => ?_⟩
        · simp only [wlp_run_bind]
          refine wlp_writeRamUint64 (wlp_pure.mpr ?_)
          simp only [hup.1, if_true, hup.2, ne_eq, not_false_eq_true, true_and] at hleaf
          exact hleaf
        · cases updatePte with
          | false => exact hleaf
          | true =>
            rw [if_pos rfl, if_neg fun h => hup ⟨rfl, h.1⟩] at hleaf
            exact hleaf

/-! ## Translation -/

/-- The privilege level that an access is translated with. -/
def accessPrv (regs : Reg → Word) (xwr : Xwr) : Word :=
  if xwr ≠ .execute then effectivePrv (regs .iprv) (regs .mstatus) else regs .iprv

def IsBare (regs : Reg → Word) (xwr : Xwr) : Prop :=
  prvS < accessPrv regs xwr ∨ regs .satp >>> satpModeShift = satpModeBare

/-- The leaf of the page tables for a virtual address, if there is one that allows the access. -/
def RunState.leafFor (m : RunState) (vaddr : Word) (xwr : Xwr) (leaf : PteLeaf) : Prop :=
  ∃ levels, satpLevels (m.s.regs .satp >>> satpModeShift) = some levels ∧
    isCanonical vaddr levels = true ∧
    findLeaf m.ramWord vaddr levels ((m.s.regs .satp &&& satpPpnMask) <<< log2PageSize) = some leaf ∧
    leafAllows (accessPrv m.s.regs xwr) (m.s.regs .mstatus) leaf.pte xwr leaf.vaddrMask = true

inductive Translation (m : RunState) (updatePte : Bool) (vaddr : Word) (xwr : Xwr) :
    Option Word → RunState → Prop
  | bare (h : IsBare m.s.regs xwr) : Translation m updatePte vaddr xwr (some vaddr) m
  | fault (hbare : ¬ IsBare m.s.regs xwr) (h : ∀ leaf, ¬ m.leafFor vaddr xwr leaf) :
    Translation m updatePte vaddr xwr none m
  | mapped {leaf : PteLeaf} {m' : RunState} (hbare : ¬ IsBare m.s.regs xwr)
    (hleaf : m.leafFor vaddr xwr leaf) (h : m.PteMarked updatePte leaf xwr m') :
    Translation m updatePte vaddr xwr (some (leaf.paddr vaddr)) m'

/-- The leaf that a translation ends at. -/
def RunState.findLeafFor (m : RunState) (vaddr : Word) (xwr : Xwr) : Option PteLeaf :=
  match satpLevels (m.s.regs .satp >>> satpModeShift) with
  | none => none
  | some levels =>
    if isCanonical vaddr levels then
      (findLeaf m.ramWord vaddr levels ((m.s.regs .satp &&& satpPpnMask) <<< log2PageSize)).filter fun leaf =>
        leafAllows (accessPrv m.s.regs xwr) (m.s.regs .mstatus) leaf.pte xwr leaf.vaddrMask
    else none

theorem findLeafFor_eq_some {leaf : PteLeaf} :
    m.findLeafFor vaddr xwr = some leaf ↔ m.leafFor vaddr xwr leaf := by
  unfold findLeafFor leafFor
  cases satpLevels (m.s.regs .satp >>> satpModeShift) with
  | none => simp
  | some levels =>
    by_cases hcan : isCanonical vaddr levels = true
    · simp [hcan, filter_eq_some_iff]
    · simp [hcan]

instance (regs : Reg → Word) (xwr : Xwr) : Decidable (IsBare regs xwr) := inferInstanceAs (Decidable (_ ∨ _))

def RunState.translate (m : RunState) (vaddr : Word) (xwr : Xwr) : Option Word :=
  if IsBare m.s.regs xwr then some vaddr
  else (m.findLeafFor vaddr xwr).map fun leaf => leaf.paddr vaddr

/-- The machine after a translation that sets the bits of the leaf. -/
def RunState.translated (m : RunState) (vaddr : Word) (xwr : Xwr) : RunState :=
  if IsBare m.s.regs xwr then m
  else match m.findLeafFor vaddr xwr with
    | none => m
    | some leaf => m.pteMarked leaf xwr

theorem wlp_translate_eq :
    Wlp ((translateVirtualAddress updatePte vaddr xwr).exec fuel) (fun r m' =>
      r = m.translate vaddr xwr ∧ m' = if updatePte then m.translated vaddr xwr else m) m := by
  simp only [translateVirtualAddress, wlp_run_bind, wlp_read, wlp_run_ite,
    wlp_run_pure, RunState.translate, translated]
  refine ⟨fun hprv => ?_, fun hprv => ⟨fun hmode => ?_, fun hmode => ?_⟩⟩
  · have hbare : IsBare m.s.regs xwr := .inl hprv
    simp [hbare]
  · have hbare : IsBare m.s.regs xwr := .inr hmode
    simp [hbare]
  · have hbare : ¬ IsBare m.s.regs xwr := fun hb => hb.elim hprv hmode
    simp only [if_neg hbare, findLeafFor]
    cases satpLevels (m.s.regs .satp >>> satpModeShift) with
    | none => simp
    | some levels =>
      simp only [wlp_run_ite, wlp_run_pure]
      refine ⟨fun hcan => wlp_walk (fun hnone => ?_) fun leaf hleaf hallow => ?_, fun hcan => by simp [hcan]⟩
      · have hfilter : (findLeaf m.ramWord vaddr levels
            ((m.s.regs .satp &&& satpPpnMask) <<< log2PageSize)).filter (fun leaf =>
              leafAllows (accessPrv m.s.regs xwr) (m.s.regs .mstatus) leaf.pte xwr leaf.vaddrMask) = none :=
          filter_eq_none_iff.mpr fun leaf hleaf => by
            rw [accessPrv, hnone leaf hleaf]
            exact Bool.false_ne_true
        simp [hcan, hfilter]
      · have hfilter : (findLeaf m.ramWord vaddr levels
            ((m.s.regs .satp &&& satpPpnMask) <<< log2PageSize)).filter (fun leaf =>
              leafAllows (accessPrv m.s.regs xwr) (m.s.regs .mstatus) leaf.pte xwr leaf.vaddrMask) = some leaf :=
          filter_eq_some_iff.mpr ⟨hleaf, hallow⟩
        simp [hcan, hfilter]

theorem translation_translate (updatePte : Bool) (vaddr : Word) (xwr : Xwr) :
    Translation m updatePte vaddr xwr (m.translate vaddr xwr) (if updatePte then m.translated vaddr xwr else m) := by
  unfold RunState.translate translated
  by_cases hbare : IsBare m.s.regs xwr
  · simp only [if_pos hbare, ite_self]
    exact .bare hbare
  · simp only [if_neg hbare]
    cases hleaf : m.findLeafFor vaddr xwr with
    | none =>
      simp only [map_none, ite_self]
      refine .fault hbare fun leaf hl => ?_
      rw [findLeafFor_eq_some.mpr hl] at hleaf
      cases hleaf
    | some leaf => exact .mapped hbare (findLeafFor_eq_some.mp hleaf) (pteMarked_spec updatePte leaf xwr)

theorem wlp_translateVirtualAddress {post : Post (Option Word)}
    (h : ∀ r m', Translation m updatePte vaddr xwr r m' → post r m') :
    Wlp ((translateVirtualAddress updatePte vaddr xwr).exec fuel) post m := by
  refine wlp_translate_eq.mono ?_
  rintro r m' ⟨rfl, rfl⟩
  exact h _ _ (translation_translate updatePte vaddr xwr)

theorem Translation.regs {r : Option Word} {m' : RunState}
    (h : Translation m updatePte vaddr xwr r m') : m'.s.regs = m.s.regs := by
  cases h with
  | bare | fault => rfl
  | mapped hbare hleaf hm =>
    rcases hm with rfl | ⟨-, -, -, rfl⟩ <;> rfl

theorem Translation.tlb {r : Option Word} {m' : RunState}
    (h : Translation m updatePte vaddr xwr r m') : m'.s.tlb = m.s.tlb := by
  cases h with
  | bare | fault => rfl
  | mapped hbare hleaf hm =>
    rcases hm with rfl | ⟨-, -, -, rfl⟩ <;> rfl

end MachineEmulator.Interpret
