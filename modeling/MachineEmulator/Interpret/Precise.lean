import MachineEmulator.Interpret.InsnEffects

/-!
# Precise exceptions

`Precise` says what an instruction that raises an exception leaves alone. Instructions raise exceptions
before they have any effect, except for the store half of a read-modify-write: its load half may have been
a claim of the interrupt controller. A claim of the last pending source withdraws the external interrupts
in `mip`, and a store exception does not bring them back. `ClaimsLast` says when a load is such a claim.
-/

namespace MachineEmulator.Interpret

open RunState List Phase Bits

open Relation (ReflTransGen)

variable {fuel : Nat} {m m' m0 : RunState} {pc : Word}

/-! ## Page-table bits -/

/-- The machine with other contents of memory. -/
def RunState.withMem (m : RunState) (mem : Nat → Byte) : RunState := m.withState (m.s.setMem mem)

/-- The accessed and dirty bits of a page-table leaf are set, for an access that the machine `m`, with this
memory, allows through the leaf. -/
def AdStep (m : RunState) (mem mem' : Nat → Byte) : Prop :=
  ∃ vaddr xwr leaf, (m.withMem mem).leafFor vaddr xwr leaf ∧
    mem' = writeBytes mem leaf.addr.toNat (toLE 8 (pteUpdate leaf.pte xwr).toNat)

/-- What a translation depends on, besides memory. -/
structure SameSpace (m0 m : RunState) : Prop where
  satp : m.s.regs .satp = m0.s.regs .satp
  mstatus : m.s.regs .mstatus = m0.s.regs .mstatus
  iprv : m.s.regs .iprv = m0.s.regs .iprv
  pmas : m.pmas = m0.pmas

variable {vaddr mcycle : Word} {xwr : Xwr} {fp : SoftFloat} {insn : Insn}

theorem SameSpace.leafFor (h : SameSpace m0 m) {leaf : PteLeaf}
    (hleaf : m.leafFor vaddr xwr leaf) : (m0.withMem m.s.mem).leafFor vaddr xwr leaf := by
  have hram : (m0.withMem m.s.mem).ramWord = m.ramWord := by
    funext paddr
    have hsearch : (m0.withMem m.s.mem).searchPma .u64 paddr = m.searchPma .u64 paddr := by
      unfold searchPma
      rw [h.pmas]
      rfl
    unfold ramWord
    rw [hsearch]
    rfl
  have hprv : accessPrv m0.s.regs xwr = accessPrv m.s.regs xwr := by
    rw [accessPrv, accessPrv, h.iprv, h.mstatus]
  obtain ⟨levels, hlevels, hcan, hfind, hallow⟩ := hleaf
  rw [h.satp] at hlevels hfind
  rw [h.mstatus, ← hprv] at hallow
  exact ⟨levels, hlevels, hcan, hram ▸ hfind, hallow⟩

theorem Translation.adSteps (hspace : SameSpace m0 m) {r : Option Word}
    (h : Translation m true vaddr xwr r m') : ReflTransGen (AdStep m0) m.s.mem m'.s.mem := by
  cases h with
  | bare | fault => exact .refl
  | mapped hbare hleaf hm =>
    rcases hm with rfl | ⟨-, -, -, rfl⟩
    · exact .refl
    · exact .single ⟨vaddr, xwr, _, hspace.leafFor hleaf, rfl⟩

/-! ## Up to the exception -/

/-- What an instruction leaves alone until it raises an exception. -/
structure HalfDone (m0 m : RunState) : Prop where
  regs : ∀ r, r ≠ .mip → r ≠ .plicGirqsrvd → m.s.regs r = m0.s.regs r
  memory : ReflTransGen (AdStep m0) m0.s.mem m.s.mem
  board : m.s.board = m0.s.board
  vdevs : m.vdevs = m0.vdevs
  uarch : m.uarch = m0.uarch

namespace HalfDone

theorem refl : HalfDone m0 m0 := ⟨fun _ _ _ => rfl, .refl, rfl, rfl, rfl⟩

theorem sameSpace (h : HalfDone m0 m) : SameSpace m0 m where
  satp := h.regs _ (by decide) (by decide)
  mstatus := h.regs _ (by decide) (by decide)
  iprv := h.regs _ (by decide) (by decide)
  pmas := pmas_congr h.board (by rw [h.vdevs])

theorem translation (h : HalfDone m0 m) {r : Option Word}
    (htr : Translation m true vaddr xwr r m') : HalfDone m0 m' where
  regs r hmip hsrvd := by rw [htr.regs, h.regs r hmip hsrvd]
  memory := h.memory.trans (htr.adSteps h.sameSpace)
  board := htr.rest.1.trans h.board
  vdevs := htr.rest.2.1.trans h.vdevs
  uarch := htr.rest.2.2.trans h.uarch

theorem translated (h : HalfDone m0 m) (htr : m.Translated vaddr xwr m') : HalfDone m0 m' := by
  rcases htr with rfl | ⟨paddr, htr⟩
  · exact h
  · exact h.translation htr

theorem deviceRead (h : HalfDone m0 m) {r : Option Word} (hr : DeviceReadEffect m r m') : HalfDone m0 m' := by
  cases hr with
  | quiet => exact h
  | claim =>
    unfold claimed
    split_ifs
    · refine ⟨fun r hmip hsrvd => ?_, h.memory, h.board, h.vdevs, h.uarch⟩
      simp [hmip, hsrvd, h.regs r hmip hsrvd]
    · refine ⟨fun r hmip hsrvd => ?_, h.memory, h.board, h.vdevs, h.uarch⟩
      simp [hsrvd, h.regs r hmip hsrvd]

theorem load (h : HalfDone m0 m) {size : MemSize} {v : Word}
    (hl : LoadEffect m size pc vaddr (.ok v) m') : HalfDone m0 m' := by
  cases hl with
  | hit => exact h
  | memory htr =>
    have h1 := h.translation htr
    exact ⟨h1.regs, h1.memory, h1.board, h1.vdevs, h1.uarch⟩
  | device htr hp hR hio hdev => exact (h.translation htr).deviceRead hdev

end HalfDone

/-! ## Exceptions -/

/-- The registers that describe a trap into a mode. -/
def trapCsrs (prv : Word) : List Reg :=
  if prv = prvS then [.scause, .sepc, .stval] else [.mcause, .mepc, .mtval]

/-- The register that holds the address of the instruction that was interrupted. -/
def xepc (prv : Word) : Reg := if prv = prvS then .sepc else .mepc

/-- What an exception of the instruction at `pc` leaves alone: all registers but those that describe the
trap (and the interrupt controller's own), and all of memory but page-table bits. -/
structure Precise (m : RunState) (pc : Word) (m' : RunState) : Prop where
  regs : ∀ r, r ∉ trapCsrs (m'.s.regs .iprv) →
    r ∉ [Reg.mstatus, .iprv, .ilrsc, .icycleinstret, .plicGirqsrvd] → m'.s.regs r = m.s.regs r
  epc : m'.s.regs (xepc (m'.s.regs .iprv)) = pc
  memory : ReflTransGen (AdStep m) m.s.mem m'.s.mem
  vdevs : m'.vdevs = m.vdevs
  uarch : m'.uarch = m.uarch

theorem HalfDone.precise (h : HalfDone m0 m) (cause tval : Word) (d : Nat → Bool)
    (hmip : m.s.regs .mip = m0.s.regs .mip) : Precise m0 pc (m.trapped pc cause tval d) := by
  have hregs : ∀ r, r ≠ .plicGirqsrvd → m.s.regs r = m0.s.regs r := by
    intro r hr
    by_cases hr' : r = .mip
    · rw [hr', hmip]
    · exact h.regs r hr' hr
  have hSM : prvM ≠ prvS := by decide
  by_cases hd : delegated m.s.regs cause = true
  · have htrap : (m.trapped pc cause tval d).s.regs = trapRegsS m.s.regs pc cause tval := if_pos hd
    refine ⟨fun r hr hr' => ?_, ?_, h.memory, h.vdevs, h.uarch⟩
    · rw [htrap] at hr ⊢
      simp only [trapRegsS, trapCsrs, if_true, mem_cons, not_mem_nil, or_false, not_or] at hr hr'
      rw [← hregs r hr'.2.2.2.2]
      cases r <;> simp_all [trapRegsS]
    · rw [htrap]
      simp [trapRegsS, xepc]
  · have htrap : (m.trapped pc cause tval d).s.regs = trapRegsM m.s.regs pc cause tval := if_neg hd
    refine ⟨fun r hr hr' => ?_, ?_, h.memory, h.vdevs, h.uarch⟩
    · rw [htrap] at hr ⊢
      simp only [trapRegsM, trapCsrs, mem_cons, not_mem_nil, or_false, not_or] at hr hr'
      rw [← hregs r hr'.2.2.2.2]
      cases r <;> simp_all [trapRegsM]
    · rw [htrap]
      simp [trapRegsM, xepc, hSM]

/-- An exception raised before anything else happened, up to the load half of a read-modify-write. -/
def RaisedFrom (m0 : RunState) (pc : Word) (m' : RunState) : Prop :=
  ∃ m cause tval d, HalfDone m0 m ∧ m' = m.trapped pc cause tval d

theorem RaisedFrom.precise_iff (h : RaisedFrom m0 pc m') :
    Precise m0 pc m' ↔ m'.s.regs .mip = m0.s.regs .mip := by
  obtain ⟨m, cause, tval, d, hdone, rfl⟩ := h
  constructor
  · intro hp
    refine hp.regs _ ?_ (by decide)
    unfold trapCsrs
    split_ifs <;> decide
  · intro hmip
    rw [trapped_regs (by decide)] at hmip
    exact hdone.precise cause tval d hmip

/-- What holds in each phase of an instruction that starts on `m0`. -/
def PrecisePhase (m0 : RunState) (pc : Word) : Phase → RunState → Prop
  | .running, m => m = m0
  | .loaded, m => HalfDone m0 m
  | .retired _, _ => True
  | .raised _, m => RaisedFrom m0 pc m

theorem precisePhase_insn (m0 : RunState) (amo : Bool) (pc : Word) :
    InsnInvariant amo pc (PrecisePhase m0 pc) where
  write {q m r v x} _ hq _ _ := by
    cases q with
    | running | loaded | retired => trivial
    | raised newPc => exact absurd rfl (hq newPc)
  load {m size raiseStore mcycle vaddr r m'} _ hI hl := by
    obtain rfl : m = m0 := hI
    cases r with
    | ok v => exact HalfDone.refl.load hl
    | error newPc =>
      cases hl with
      | raised htr => exact ⟨_, _, _, _, HalfDone.refl.translated htr, rfl⟩
  store {q m size vaddr val r m'} _ hq hI hs := by
    have hI : HalfDone m0 m := by
      rcases hq with rfl | ⟨-, rfl⟩
      · obtain rfl : m = m0 := hI
        exact .refl
      · exact hI
    cases hs with
    | hit | memory => trivial
    | device htr hp hW hio hstatus hd =>
      rw [ofOutcome, if_neg hstatus]
      trivial
    | raised htr => exact ⟨_, _, _, _, hI.translated htr, rfl⟩
  csr {m mcycle csraddr val status m'} _ hI hc := by
    unfold ofCsr
    split_ifs with hs
    · exact (hc.eq_of_failure hs).trans hI
    · trivial
  raise {m cause tval d} hI := by
    obtain rfl : m = m0 := hI
    exact ⟨_, _, _, _, .refl, rfl⟩
  sret _ _ := trivial
  mret _ _ := trivial
  sfence _ := trivial

/-- An instruction that ends with an exception has raised it before anything else happened. -/
theorem wlp_executeInsn_raised : Wlp ((executeInsn fp pc mcycle insn).access.exec fuel)
      (fun r m' => r.1.1 = .failure → RaisedFrom m pc m') m := by
  refine (precisePhase_insn m _ pc).wlp_executeInsn fp rfl (fun _ => ?_)
    fun q outcome m' hq hacc hfail => ?_
  · refine wlp_executeWFI (fun d _ => ⟨_, _, _, d, .refl, rfl⟩) (fun r m' _ _ _ hfail => ?_)
      fun hfail => nomatch hfail
    split_ifs at hfail
  · obtain rfl := hacc.eq_raised hfail
    exact hq

/-! ## Claims of the interrupt controller -/

/-- One source of the interrupt controller is left to be claimed, and external interrupts are requested. -/
structure LastPending (regs : Reg → Word) : Prop where
  source : ∃ i < 32, plicPending regs = BitVec.twoPow 32 i
  requested : regs .mip &&& mipExternalMask ≠ 0

/-- A load of the virtual address reads the claim register of the interrupt controller, with one source left
to be claimed. -/
structure ClaimsLast (m : RunState) (size : MemSize) (vaddr : Word) : Prop where
  word : size = .u32
  aligned : vaddr &&& (size.sizeof - 1) = 0
  miss : tlbLookup m.s .read size vaddr = none
  register : ∃ paddr pma, m.translate vaddr .read = some paddr ∧ m.searchPma size paddr = some pma ∧
    pma.flags.R = true ∧ pma.istartIO = true ∧ pma.flags.DID = .plic ∧
    paddr - pma.start = plicClaimCompleteRelAddr
  pending : LastPending m.s.regs

theorem plicServedAfterClaim_eq (regs : Reg → Word) :
    (regs .plicGirqpend).setWidth 32 &&& ~~~plicServedAfterClaim regs =
      plicPending regs &&& ~~~BitVec.twoPow 32 (plicPending regs).toNat.log2 := by
  have hlog : (plicPending regs).toNat.log2 < 2 ^ 64 :=
    (Nat.log2_le_self _).trans_lt ((plicPending regs).isLt.trans (by decide))
  rw [plicServedAfterClaim, ilog2, BitVec.toNat_ofNat, Nat.mod_eq_of_lt hlog, BitVec.twoPow_eq]
  ext i hi
  simp [plicPending, Bool.and_assoc]

/-- A claim changes `mip` exactly if it is the last. -/
theorem wlp_plicReadClaimComplete_mip : Wlp (plicReadClaimComplete.exec fuel)
      (fun _ m' => m'.s.regs .mip ≠ m.s.regs .mip ↔ LastPending m.s.regs) m := by
  refine wlp_plicReadClaimComplete (fun hp => ?_) fun hnone => ?_
  · rw [claimed, plicServedAfterClaim_eq]
    split
    · rename_i hlast
      rw [and_not_twoPow_log2_eq_zero_iff hp] at hlast
      show m.s.regs .mip &&& ~~~mipExternalMask ≠ m.s.regs .mip ↔ _
      rw [and_not_ne_self_iff]
      exact ⟨fun h => ⟨hlast, h⟩, LastPending.requested⟩
    · rename_i hmore
      rw [and_not_twoPow_log2_eq_zero_iff hp] at hmore
      exact iff_of_false (fun h => h rfl) fun h => hmore h.source
  · refine iff_of_false (fun h => h rfl) fun h => ?_
    obtain ⟨i, hi, hpend⟩ := h.source
    rw [hnone] at hpend
    have hbit := BitVec.getLsbD_twoPow (w := 32) i i
    rw [← hpend] at hbit
    simp [hi] at hbit

theorem wlp_deviceRead_mip {pma : PmaEntry} {offset : Word} {size : MemSize} :
    Wlp ((deviceRead pma mcycle offset size).exec fuel) (fun _ m' =>
      m'.s.regs .mip ≠ m.s.regs .mip ↔ size = .u32 ∧ pma.flags.DID = .plic ∧
        offset = plicClaimCompleteRelAddr ∧ LastPending m.s.regs) m := by
  have hsame : ∀ {P : Prop}, ¬ P → (m.s.regs .mip ≠ m.s.regs .mip ↔ P) :=
    fun hP => iff_of_false (fun h => h rfl) hP
  have hother : pma.flags.DID ≠ .plic → ¬ (size = .u32 ∧ pma.flags.DID = .plic ∧
      offset = plicClaimCompleteRelAddr ∧ LastPending m.s.regs) := fun hdid h => hdid h.2.1
  unfold deviceRead
  split
  · rename_i hdid
    have hno := hother (by simp [hdid])
    simp [clintRead, clintReadMsip, clintReadMtime, clintReadMtimecmp, hno]
  · rename_i hdid
    simp only [plicRead, plicReadPending, readGirqpend, readGirqsrvd, wlp_run_ite, wlp_run_bind, wlp_read,
      wlp_run_pure]
    refine ⟨fun hsup => ⟨fun hprio => hsame ?_, fun _ => ⟨fun hpend => hsame ?_, fun _ => ⟨fun hen => hsame ?_,
      fun _ => ⟨fun hclaim => ?_, fun hreg => hsame fun h => hreg h.2.2.1⟩⟩⟩⟩, fun hsup => hsame ?_⟩
    · rintro ⟨-, -, rfl, -⟩
      exact absurd hprio (by decide)
    · rintro ⟨-, -, rfl, -⟩
      exact absurd hpend (by decide)
    · rintro ⟨-, -, rfl, -⟩
      exact absurd hen (by decide)
    · refine wlp_plicReadClaimComplete_mip.mono fun r m' hr => hr.trans ?_
      exact ⟨fun h => ⟨hsup.2.1, hdid, hclaim, h⟩, fun h => h.2.2.2⟩
    · rintro ⟨rfl, -, rfl, -⟩
      exact hsup (by decide)
  · rename_i hdid
    have hno := hother (by simp [hdid])
    simp [htifRead, hno]
  · rename_i hdid
    exact wlp_virtioRead fun r => hsame (hother (by simp [hdid]))
  · rename_i hdid _ _
    exact wlp_pure.mpr (hsame fun h => by simp_all)

/-- A load changes `mip` exactly if it claims the last source. -/
theorem wlp_readVirtualMemory_mip {size : MemSize} {raiseStore : Bool} :
    Wlp ((readVirtualMemory size raiseStore pc mcycle vaddr).exec fuel)
      (fun _ m' => m'.s.regs .mip ≠ m.s.regs .mip ↔ ClaimsLast m size vaddr) m := by
  rw [readVirtualMemory, wlp_run_bind]
  refine wlp_readMemoryWordViaTlb (fun hmiss => ?_) fun hptr v hl hv => wlp_pure.mpr
    (iff_of_false (fun h => h rfl) fun h => Option.some_ne_none _ (hl.symm.trans h.miss))
  -- a miss
  simp only [readVirtualMemorySlow, wlp_run_ite]
  refine ⟨fun hmis => wlp_raiseLoad fun d => ?_, fun hal => ?_⟩
  · exact iff_of_false (fun h => h (trapped_regs (by decide) _ _ _ _)) fun h => hmis h.aligned
  rw [wlp_run_bind]
  refine wlp_translate_eq.mono ?_
  rintro r m1 ⟨hr, rfl⟩
  have hregs : (m.translated vaddr .read).s.regs = m.s.regs := translated_regs
  have hraised : ∀ {m1 : RunState} {cause : Word} (d : Nat → Bool), m1.s.regs .mip = m.s.regs .mip →
      ¬ ClaimsLast m size vaddr →
      ((m1.trapped pc cause vaddr d).s.regs .mip ≠ m.s.regs .mip ↔ ClaimsLast m size vaddr) := fun d hm1 hno =>
    iff_of_false (fun h => h ((trapped_regs (by decide) _ _ _ _).trans hm1)) hno
  cases r with
  | none =>
    refine wlp_raiseLoad fun d => hraised d (congrFun hregs _) fun h => ?_
    obtain ⟨paddr, pma, hpaddr, -⟩ := h.register
    exact Option.some_ne_none _ (hpaddr.symm.trans hr.symm)
  | some paddr =>
    simp only [if_true, wlp_run_bind, wlp_findPma, wlp_run_ite, Bool.and_eq_true, translated_searchPma]
    intro pma hp
    -- the access finds what the register is
    have hiff : ClaimsLast m size vaddr ↔ (pma.flags.R = true ∧ pma.istartIO = true) ∧ size = .u32 ∧
        pma.flags.DID = .plic ∧ paddr - pma.start = plicClaimCompleteRelAddr ∧ LastPending m.s.regs := by
      constructor
      · intro h
        obtain ⟨paddr', pma', hpaddr, hpma, hR, hio, hdid, hoff⟩ := h.register
        obtain rfl : paddr = paddr' := Option.some.inj (hr.trans hpaddr)
        obtain rfl : pma = pma' := Option.some.inj (hp.symm.trans hpma)
        exact ⟨⟨hR, hio⟩, h.word, hdid, hoff, h.pending⟩
      · rintro ⟨⟨hR, hio⟩, hword, hdid, hoff, hpend⟩
        exact ⟨hword, not_not.mp hal, hmiss, ⟨paddr, pma, hr.symm, hp, hR, hio, hdid, hoff⟩, hpend⟩
    refine ⟨fun hmem => wlp_replaceTlbEntry fun d => wlp_readMemoryWord.mpr fun v hv => wlp_pure.mpr ?_,
      fun hmem => ⟨fun hio => ?_, fun hio => wlp_raiseLoad fun d => ?_⟩⟩
    · refine iff_of_false (fun h => h (congrFun hregs _)) fun h => ?_
      have hio := (hiff.mp h).1.2
      simp [PmaEntry.istartM, PmaEntry.istartIO] at hmem hio
      simp [hio] at hmem
    · refine wlp_deviceRead_mip.mono fun r m2 hr => ?_
      rw [hregs] at hr
      have hclaim := hr.trans ((and_iff_right hio).symm.trans hiff.symm)
      cases r with
      | none =>
        refine wlp_raiseLoad fun d => ?_
        rw [trapped_regs (by decide)]
        exact hclaim
      | some v => exact wlp_pure.mpr hclaim
    · exact hraised d (congrFun hregs _) fun h => hio (hiff.mp h).1

/-! ## Atomics -/

/-- An exception finds `mip` changed exactly if `P`. -/
def MipChanged (m : RunState) (P : Prop) (r : Outcome) (m' : RunState) : Prop :=
  r.1 = .failure → (m'.s.regs .mip ≠ m.s.regs .mip ↔ P)

theorem MipChanged.of_eq {P : Prop} {r : Outcome} (hP : ¬ P)
    (h : r.1 = .failure → m'.s.regs .mip = m.s.regs .mip) : MipChanged m P r m' :=
  fun hf => iff_of_false (fun hne => hne (h hf)) hP

theorem StoreEffect.mip_of_failure {size : MemSize} {val : Word} {r : StoreResult}
    (h : StoreEffect m size pc vaddr val r m') (hf : r.1 = .failure) : m'.s.regs .mip = m.s.regs .mip := by
  cases h with
  | hit | memory => cases hf
  | device htr hp hW hio hstatus => exact absurd hf hstatus
  | raised htr => exact (trapped_regs (by decide) _ _ _ _).trans (congrFun htr.regs _)

theorem wlp_executeAMO_mip {w : Nat} {size : MemSize} {f : BitVec w → BitVec w → BitVec w} :
    Wlp ((Insn.executeAMO size f pc mcycle insn).exec fuel)
      (MipChanged m (ClaimsLast m size (m.s.regs (.x insn.getRs1)))) m := by
  simp only [Insn.executeAMO, wlp_run_bind, wlp_insnReadX]
  refine (wlp_perform.mpr wlp_readVirtualMemory_mip).mono fun r m1 hr => ?_
  cases r with
  | error newPc => exact wlp_pure.mpr fun _ => hr
  | ok val =>
    simp only [wlp_run_bind, wlp_insnReadX]
    refine wlp_insnStore fun r m2 hs => wlp_run_ite.mpr ⟨fun hf => wlp_pure.mpr fun _ => ?_, fun hok => ?_⟩
    · rw [hs.mip_of_failure hf]
      exact hr
    · rw [wlp_run_bind]
      exact wlp_insnWriteXUnlessZero (wlp_pure.mpr fun hf => absurd hf hok) (wlp_pure.mpr fun hf => absurd hf hok)

theorem wlp_checkLR_mip {size : MemSize} {extend : Word → Word} {P : Prop} (hP : ¬ P) :
    Wlp ((Insn.checkLR (Insn.executeLR size extend) pc mcycle insn).exec fuel) (MipChanged m P) m := by
  unfold Insn.checkLR
  split
  · exact wlp_insnRaiseIllegal fun d => .of_eq hP fun _ => trapped_regs (by decide) _ _ _ _
  · simp only [Insn.executeLR, wlp_run_bind, wlp_insnReadX]
    refine wlp_insnLoad fun r m1 hr => ?_
    cases r with
    | error newPc =>
      cases hr with
      | raised htr => exact wlp_pure.mpr (.of_eq hP fun _ =>
          (trapped_regs (by decide) _ _ _ _).trans (congrFun htr.regs _))
    | ok val =>
      simp only [wlp_run_bind, wlp_insnWriteIlrsc]
      exact wlp_insnWriteXUnlessZero (wlp_pure.mpr fun hf => by cases hf) (wlp_pure.mpr fun hf => by cases hf)

theorem wlp_executeSC_mip {size : MemSize} {P : Prop} (hP : ¬ P) :
    Wlp ((Insn.executeSC size pc insn).exec fuel) (MipChanged m P) m := by
  have hfinish : ∀ {m1 : RunState} {val : Word} {status : ExecuteStatus}, status ≠ .failure →
      Wlp ((Insn.finishSC pc insn val status).exec fuel) (MipChanged m P) m1 := by
    intro m1 val status hs
    simp only [Insn.finishSC, wlp_run_bind, wlp_insnWriteIlrsc]
    exact wlp_insnWriteXUnlessZero (wlp_pure.mpr fun hf => absurd hf hs) (wlp_pure.mpr fun hf => absurd hf hs)
  simp only [Insn.executeSC, wlp_run_bind, wlp_insnReadX, wlp_insnReadIlrsc, wlp_run_ite]
  refine ⟨fun heq => wlp_insnStore fun r m1 hr => ⟨fun hf => wlp_pure.mpr (.of_eq hP fun _ => ?_),
    fun hs => hfinish hs⟩, fun hne => hfinish (by decide)⟩
  exact hr.mip_of_failure hf

/-- The bits of an atomic instruction that make it a read-modify-write. -/
def amoFuncts : List Nat :=
  [0b00000, 0b00001, 0b00100, 0b01000, 0b01100, 0b10000, 0b10100, 0b11000, 0b11100]

/-- The instruction is a read-modify-write of 32 bits. -/
def isAmoW (insn : Insn) : Bool :=
  InsnLabel.decode (insn.setWidth 16) == .AMOW && amoFuncts.contains insn.getFunct7Sr2

theorem wlp_raiseIllegal_mip {P : Prop} (hP : ¬ P) :
    Wlp ((Insn.raiseIllegalInsnException pc insn).exec fuel) (MipChanged m P) m :=
  wlp_insnRaiseIllegal fun _ => .of_eq hP fun _ => trapped_regs (by decide) _ _ _ _

theorem wlp_executeAMOW_mip : Wlp ((Insn.executeAMOW pc mcycle insn).exec fuel)
      (MipChanged m (insn.getFunct7Sr2 ∈ amoFuncts ∧ ClaimsLast m .u32 (m.s.regs (.x insn.getRs1)))) m := by
  have hamo : ∀ {f : BitVec 32 → BitVec 32 → BitVec 32}, insn.getFunct7Sr2 ∈ amoFuncts →
      Wlp ((Insn.executeAMO .u32 f pc mcycle insn).exec fuel)
        (MipChanged m (insn.getFunct7Sr2 ∈ amoFuncts ∧ ClaimsLast m .u32 (m.s.regs (.x insn.getRs1)))) m :=
    fun hf => wlp_executeAMO_mip.mono fun r m' hr hfail => (hr hfail).trans (and_iff_right hf).symm
  have hother : insn.getFunct7Sr2 ∉ amoFuncts →
      ¬ (insn.getFunct7Sr2 ∈ amoFuncts ∧ ClaimsLast m .u32 (m.s.regs (.x insn.getRs1))) := fun h => fun h' => h h'.1
  unfold Insn.executeAMOW
  split <;> rename_i hf <;> first
    | exact hamo (by rw [hf]; decide)
    | exact wlp_checkLR_mip (hother (by rw [hf]; decide))
    | exact wlp_executeSC_mip (hother (by rw [hf]; decide))
    | skip
  refine wlp_raiseIllegal_mip (hother ?_)
  simp only [amoFuncts, mem_cons, not_mem_nil, or_false, not_or]
  exact ⟨‹_›, ‹_›, ‹_›, ‹_›, ‹_›, ‹_›, ‹_›, ‹_›, ‹_›⟩

theorem wlp_executeAMOD_mip : Wlp ((Insn.executeAMOD pc mcycle insn).exec fuel) (MipChanged m False) m := by
  have hamo : ∀ {f : BitVec 64 → BitVec 64 → BitVec 64},
      Wlp ((Insn.executeAMO .u64 f pc mcycle insn).exec fuel) (MipChanged m False) m :=
    wlp_executeAMO_mip.mono fun r m' hr hfail => (hr hfail).trans (iff_of_false (fun h => by cases h.word) id)
  unfold Insn.executeAMOD
  split
  all_goals first
    | exact hamo
    | exact wlp_checkLR_mip id
    | exact wlp_executeSC_mip id
    | exact wlp_raiseIllegal_mip id

/-! ## Other instructions -/

/-- `mip` has the value `v` until the instruction has its effect, or raises an exception. -/
def MipPhase (v : Word) : Phase → RunState → Prop
  | .running, m | .raised _, m => m.s.regs .mip = v
  | .loaded, _ | .retired _, _ => True

theorem mipPhase_insn (v pc : Word) : InsnInvariant false pc (MipPhase v) where
  write {q m r v x} _ hq _ _ := by
    cases q with
    | running | loaded | retired => trivial
    | raised newPc => exact absurd rfl (hq newPc)
  load {m size raiseStore mcycle vaddr r m'} _ hI hl := by
    cases r with
    | ok x => trivial
    | error newPc =>
      cases hl with
      | raised htr => exact (trapped_regs (by decide) _ _ _ _).trans (htr.regs ▸ hI)
  store {q m size vaddr val r m'} _ hq hI hs := by
    obtain rfl : q = .running := hq.resolve_right fun h => Bool.false_ne_true h.1
    unfold ofOutcome
    split_ifs with hf
    · exact (hs.mip_of_failure hf).trans hI
    · trivial
  csr {m mcycle csraddr val status m'} _ hI hc := by
    unfold ofCsr
    split_ifs with hs
    · rw [hc.eq_of_failure hs]
      exact hI
    · trivial
  raise hI := (trapped_regs (by decide) _ _ _ _).trans hI
  sret _ _ := trivial
  mret _ _ := trivial
  sfence _ := trivial

/-- An exception of an instruction that is no atomic finds `mip` as it was. -/
theorem wlp_executeInsn_mip (hamo : isAmo insn = false) :
    Wlp ((executeInsn fp pc mcycle insn).access.exec fuel)
      (fun r m' => r.1.1 = .failure → m'.s.regs .mip = m.s.regs .mip) m := by
  have hinv : InsnInvariant (isAmo insn) pc (MipPhase (m.s.regs .mip)) := hamo ▸ mipPhase_insn _ pc
  refine hinv.wlp_executeInsn fp (rfl : MipPhase (m.s.regs .mip) .running m) (fun _ => ?_)
    fun q outcome m' hq hacc hfail => ?_
  · refine wlp_executeWFI (fun d _ => trapped_regs (by decide) _ _ _ _) (fun r m' _ _ _ hfail => ?_)
      fun hfail => nomatch hfail
    split_ifs at hfail
  · obtain rfl := hacc.eq_raised hfail
    exact hq

/-- An exception finds `mip` changed exactly if the instruction is a read-modify-write that has claimed the
last source. -/
theorem wlp_executeInsn_mipChanged : Wlp ((executeInsn fp pc mcycle insn).access.exec fuel)
      (fun r => MipChanged m (isAmoW insn = true ∧ ClaimsLast m .u32 (m.s.regs (.x insn.getRs1))) r.1) m := by
  cases hamo : isAmo insn with
  | false =>
    have hno : isAmoW insn = false := by
      cases hW : isAmoW insn with
      | false => rfl
      | true =>
        simp only [isAmoW, Bool.and_eq_true, beq_iff_eq] at hW
        rw [isAmo, hW.1] at hamo
        cases hamo
    refine (wlp_executeInsn_mip hamo).mono fun r m' h => .of_eq (fun hW => ?_) h
    rw [hno] at hW
    exact Bool.false_ne_true hW.1
  | true =>
    rw [AProg.exec, run_access]
    rcases isAmo_cases hamo with hl | hl
    · rw [executeInsn_AMOW hl, Insn.withMcycle, wlp_run_bind]
      refine wlp_executeAMOW_mip.mono fun r m' hr => wlp_pure.mpr ?_
      simpa [isAmoW, hl] using hr
    · rw [executeInsn_AMOD hl, Insn.withMcycle, wlp_run_bind]
      refine wlp_executeAMOD_mip.mono fun r m' hr => wlp_pure.mpr ?_
      simpa [isAmoW, hl] using hr

/-- A machine that loads and stores through a page table, in which the interrupt controller can be read but
not written. Some sources are pending. -/
def claimMachine (girqpend : Word) : RunState :=
  .created smallBoard
    { regs := fun r => ([(.mstatus, mstatusInit ||| mstatusMprvMask ||| prvS <<< mstatusMppShift),
        (.satp, satpModeSv39 <<< satpModeShift ||| pmaRamStart >>> 12),
        (.x 5, pmaPlicStart + plicClaimCompleteRelAddr), (.plicGirqpend, girqpend),
        (.mip, mipMeipMask ||| mipSeipMask)].lookup r).getD (initRegs r)
      image := writeBytes (fun _ => 0) (pmaRamStart.toNat + 8) (toLE 8 0x10000043)
      uarchRam := fun _ => 0 } fun _ => 0

end MachineEmulator.Interpret
