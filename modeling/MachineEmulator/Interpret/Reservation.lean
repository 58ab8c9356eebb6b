import MachineEmulator.Interpret.StepEffects

/-!
# Load-reserved and store-conditional

The reservation is one register, `ilrsc`. Load-reserved sets it, a change of the privilege level and every
store-conditional that completes clear it. A store-conditional whose store is refused (`storeRefusal`) does not:
unless the trap changes the privilege level, the reservation is still held in the handler (`ilrsc_after_SC`).
In runs without such a fault, a store-conditional stores only after a load-reserved of the same address with no
store-conditional and no change of the privilege level in between (`Reserved`).
-/

namespace MachineEmulator.Interpret

open EStateM InsnLabel Insn Function InsnOp

variable {fuel : Nat} {fp : SoftFloat} {m m' : RunState}

/-! ## The instructions -/

def isLR (insn : Insn) : Bool := isAmo insn && Insn.getFunct7Sr2 insn == 0b00010

def isSC (insn : Insn) : Bool := isAmo insn && Insn.getFunct7Sr2 insn == 0b00011

theorem executeInsn_LR (fp : SoftFloat) {insn : Insn} (h : isLR insn = true) (pc mcycle : Word) :
    ∃ size extend, executeInsn fp pc mcycle insn =
      withMcycle mcycle (checkLR (executeLR size extend) pc mcycle insn) := by
  obtain ⟨hamo, hf⟩ : isAmo insn = true ∧ getFunct7Sr2 insn = 0b00010 := by simpa [isLR] using h
  rcases isAmo_cases hamo with hl | hl
  · rw [executeInsn_AMOW hl, executeAMOW, hf]
    exact ⟨_, _, rfl⟩
  · rw [executeInsn_AMOD hl, executeAMOD, hf]
    exact ⟨_, _, rfl⟩

/-- The size of the store of a store-conditional. -/
def scSize (insn : Insn) : MemSize := if InsnLabel.decode (insn.setWidth 16) = .AMOW then .u32 else .u64

theorem scSize_cases {insn : Insn} : scSize insn = .u32 ∨ scSize insn = .u64 := by
  unfold scSize
  split
  · exact .inl rfl
  · exact .inr rfl

theorem executeInsn_SC (fp : SoftFloat) {insn : Insn} (h : isSC insn = true) (pc mcycle : Word) :
    executeInsn fp pc mcycle insn = withMcycle mcycle (executeSC (scSize insn) pc insn) := by
  obtain ⟨hamo, hf⟩ : isAmo insn = true ∧ getFunct7Sr2 insn = 0b00011 := by simpa [isSC] using h
  rcases isAmo_cases hamo with hl | hl
  · rw [executeInsn_AMOW hl, executeAMOW, hf, scSize, if_pos hl]
    rfl
  · rw [executeInsn_AMOD hl, executeAMOD, hf, scSize, hl]
    rfl

/-- The operation does not touch the reservation. -/
def InsnOp.KeepsIlrsc (o : InsnOp) : Prop := ∀ v, o ≠ .writeIlrsc v

namespace Insn
open Prog (Asks)

variable {pc mcycle : Word} {insn : Insn}

theorem keepsIlrsc_writeXUnlessZero {rd : Fin 32} {v : Word} : (writeXUnlessZero rd v).Asks KeepsIlrsc :=
  .ite (fun _ => .pure _) fun _ => .perform (by rintro v ⟨⟩)

theorem keepsIlrsc_raiseIllegalInsnException : (raiseIllegalInsnException pc insn).Asks KeepsIlrsc :=
  .bind (.perform (by rintro v ⟨⟩)) fun _ => .pure _

theorem keepsIlrsc_executeAMO {w : Nat} {size : MemSize} {f : BitVec w → BitVec w → BitVec w} :
    (executeAMO size f pc mcycle insn).Asks KeepsIlrsc := by
  refine .bind (.perform (by rintro v ⟨⟩)) fun vaddr => .bind (.perform (by rintro v ⟨⟩)) fun r => ?_
  cases r with
  | error newPc => exact .pure _
  | ok val =>
    refine .bind (.perform (by rintro v ⟨⟩)) fun rs2 => .bind (.perform (by rintro v ⟨⟩)) fun r => ?_
    exact .ite (fun _ => .pure _) fun _ => .bind keepsIlrsc_writeXUnlessZero fun _ => .pure _

end Insn

/-- No instruction but these two touches the reservation by itself. -/
theorem keepsIlrsc_executeInsn {insn : Insn} (hlr : isLR insn = false) (hsc : isSC insn = false)
    (pc mcycle : Word) : (executeInsn fp pc mcycle insn).Asks KeepsIlrsc := by
  cases hamo : isAmo insn with
  | true =>
    have hne : getFunct7Sr2 insn ≠ 0b00010 ∧ getFunct7Sr2 insn ≠ 0b00011 := by
      simpa [isLR, isSC, hamo] using And.intro hlr hsc
    rcases isAmo_cases hamo with hl | hl
    on_goal 1 => rw [executeInsn_AMOW hl]
    on_goal 2 => rw [executeInsn_AMOD hl]
    all_goals
      refine Prog.Asks.bind ?_ fun _ => .pure _
      first | unfold executeAMOW | unfold executeAMOD
      split <;> first
        | exact keepsIlrsc_executeAMO
        | exact absurd ‹_› hne.1
        | exact absurd ‹_› hne.2
        | exact keepsIlrsc_raiseIllegalInsnException
  | false =>
    obtain ⟨-, hwfi⟩ | ⟨p, hp, hphased⟩ := executeInsn_cases fp pc mcycle insn
    · rw [hwfi]
      exact .perform (by rintro v ⟨⟩)
    · rw [hp]
      refine Prog.Asks.bind (hphased.asks fun q o ho => ?_) fun _ => .pure _
      rintro v rfl
      exact absurd ho.1 (by simp [hamo])

/-! ## The reservation -/

/-- The reservation and the privilege level are the given ones, or no reservation is held. -/
def HeldOr (ilrsc iprv : Word) (regs : Reg → Word) : Prop :=
  regs .ilrsc = ilrsc ∧ regs .iprv = iprv ∨ regs .ilrsc = -1

/-- A trap keeps the reservation exactly if it keeps the privilege level. -/
theorem trapped_ilrsc (m : RunState) (pc cause tval : Word) (d : Nat → Bool) :
    (m.trapped pc cause tval d).s.regs .iprv = trapPrv m.s.regs cause ∧
      (m.trapped pc cause tval d).s.regs .ilrsc =
        if m.s.regs .iprv = trapPrv m.s.regs cause then m.s.regs .ilrsc else -1 := by
  show trapRegs m.s.regs pc cause tval .iprv = _ ∧ trapRegs m.s.regs pc cause tval .ilrsc = _
  unfold trapRegs trapPrv
  split <;> exact ⟨rfl, rfl⟩

namespace HeldOr
variable {ilrsc iprv : Word}

theorem of_regs {regs regs' : Reg → Word} (h : HeldOr ilrsc iprv regs)
    (hregs : ∀ r ∈ [Reg.ilrsc, .iprv], regs' r = regs r) : HeldOr ilrsc iprv regs' := by
  rw [HeldOr, hregs .ilrsc (by decide), hregs .iprv (by decide)]
  exact h

theorem trapped (h : HeldOr ilrsc iprv m.s.regs) (pc cause tval : Word) (d : Nat → Bool) :
    HeldOr ilrsc iprv (m.trapped pc cause tval d).s.regs := by
  obtain ⟨hprv, hilrsc⟩ := trapped_ilrsc m pc cause tval d
  split_ifs at hilrsc with hsame
  · rw [HeldOr, hprv, hilrsc, ← hsame]
    exact h
  · exact .inr hilrsc

theorem returned (h : HeldOr ilrsc iprv m.s.regs) (mstatus prv : Word) (d : Nat → Bool) :
    HeldOr ilrsc iprv (m.returned mstatus prv d).s.regs := by
  unfold RunState.returned
  split_ifs
  · exact h
  · exact .inr rfl

theorem deviceFrame (h : HeldOr ilrsc iprv m.s.regs) (hf : DeviceFrame m m') : HeldOr ilrsc iprv m'.s.regs := by
  have hdev : ∀ r ∈ [Reg.ilrsc, .iprv], r ∉ deviceRegs := by decide
  exact h.of_regs fun r hr => hf.regs r (hdev r hr)

/-- Instructions that do not touch the reservation by themselves. -/
theorem insn (amo : Bool) (pc : Word) :
    InsnInvariantOn (fun o _ _ _ => o.KeepsIlrsc) amo pc fun _ m => HeldOr ilrsc iprv m.s.regs where
  write {q m r v x} hC _ hr h := by
    refine h.of_regs fun r' hr' => update_of_ne ?_ _ _
    rintro rfl
    cases hr with
    | ilrsc => exact hC v rfl
    | x | f | fcsr => simp at hr'
  load {m size raiseStore mcycle vaddr r m'} _ h hl := by
    cases hl with
    | hit => exact h
    | memory htr => exact h.of_regs fun r _ => congrFun htr.regs r
    | device htr hp hR hio hd => exact deviceFrame (htr.regs ▸ h) hd.deviceFrame
    | raised htr => exact trapped (htr.regs ▸ h) _ _ _ _
  store {q m size vaddr val r m'} _ _ h hs := by
    cases hs with
    | hit hl hs => exact storeHost_regs hs ▸ h
    | memory htr hp hW hM hs => exact ((storeHost_regs hs).trans htr.regs) ▸ h
    | device htr hp hW hio hstatus hd => exact deviceFrame (htr.regs ▸ h) hd.toDeviceFrame
    | raised htr => exact trapped (htr.regs ▸ h) _ _ _ _
  csr _ h hc := by
    have hcsr : ∀ r ∈ [Reg.ilrsc, .iprv], r ∉ csrRegs := by decide
    exact h.of_regs fun r hr => hc.regs (hcsr r hr)
  raise h := h.trapped _ _ _ _
  sret h _ := h.returned _ _ _
  mret h _ := h.returned _ _ _
  sfence h := h

end HeldOr

variable {pc mcycle : Word}

theorem wlp_executeInsn_ilrsc {insn : Insn} (hlr : isLR insn = false) (hsc : isSC insn = false) :
    Wlp ((executeInsn fp pc mcycle insn).access.exec fuel)
      (fun _ m' => HeldOr (m.s.regs .ilrsc) (m.s.regs .iprv) m'.s.regs) m := by
  have hm : HeldOr (m.s.regs .ilrsc) (m.s.regs .iprv) m.s.regs := .inl ⟨rfl, rfl⟩
  refine (HeldOr.insn _ pc).wlp_executeInsn fp hm (fun _ => ?_) (fun _ _ _ h _ => h)
    fun o m1 x m2 ho _ => (keepsIlrsc_executeInsn hlr hsc pc mcycle).of_asked ho
  exact wlp_executeWFI (fun d => hm.trapped _ _ _ _) (fun r m' _ _ hpoll => hm.deviceFrame hpoll.toDeviceFrame) hm

theorem wlp_executeLR {size : MemSize} {extend : Word → Word} {insn : Insn} :
    Wlp ((checkLR (executeLR size extend) pc mcycle insn).exec fuel) (fun r m' =>
      (r.1 = .failure → HeldOr (m.s.regs .ilrsc) (m.s.regs .iprv) m'.s.regs) ∧
      (r.1 ≠ .failure → m'.s.regs .ilrsc = m.s.regs (.x insn.getRs1))) m := by
  have hm : HeldOr (m.s.regs .ilrsc) (m.s.regs .iprv) m.s.regs := .inl ⟨rfl, rfl⟩
  unfold checkLR
  split
  · exact wlp_insnRaiseIllegal fun d => ⟨fun _ => hm.trapped _ _ _ _, fun hne => absurd rfl hne⟩
  · simp only [executeLR, wlp_run_bind, wlp_insnReadX]
    refine wlp_insnLoad fun r m1 hr => ?_
    cases r with
    | error newPc =>
      refine wlp_pure.mpr ⟨fun _ => ?_, fun hne => absurd rfl hne⟩
      cases hr with
      | raised htr => exact HeldOr.trapped (htr.regs ▸ hm) _ _ _ _
    | ok val =>
      simp only [wlp_run_bind, wlp_insnWriteIlrsc]
      refine wlp_insnWriteXUnlessZero ?_ ?_
      · exact wlp_pure.mpr ⟨fun hf => by simp [advanceToNextInsn] at hf, fun _ => rfl⟩
      · exact wlp_pure.mpr ⟨fun hf => by simp [advanceToNextInsn] at hf, fun _ => rfl⟩

theorem wlp_finishSC {val : Word} {insn : Insn} {status : ExecuteStatus} (hs : status ≠ .failure) :
    Wlp ((finishSC pc insn val status).exec fuel)
      (fun r m' => r.1 ≠ .failure ∧ m'.s.regs .ilrsc = -1) m := by
  simp only [finishSC, wlp_run_bind, wlp_insnWriteIlrsc]
  exact wlp_insnWriteXUnlessZero (wlp_pure.mpr ⟨hs, rfl⟩) (wlp_pure.mpr ⟨hs, rfl⟩)

/-- The range does not take the store: it is neither memory nor a device that can be written, or the device does not
answer with success. -/
def refusesStore (fuel : Nat) (m : RunState) (pma : PmaEntry) (offset val : Word) (size : MemSize) : Bool :=
  !(pma.flags.W && pma.istartM) && (!(pma.flags.W && pma.istartIO) ||
    ((deviceWrite pma offset val size).run (stateAccess fuel)).succeedsWith m fun status _ => status = .failure)

/-- The cause with which a store is refused, if it is. -/
def storeRefusal (fuel : Nat) (m : RunState) (size : MemSize) (vaddr val : Word) : Option Word :=
  if (tlbLookup m.s .write size vaddr).isSome then none
  else if vaddr &&& (size.sizeof - 1) ≠ 0 then some storeAmoCauses.misaligned
  else
    match m.translate vaddr .write with
    | none => some storeAmoCauses.pageFault
    | some paddr =>
      (m.searchPma size paddr).bind fun pma =>
        if refusesStore fuel (m.translated vaddr .write) pma (paddr - pma.start) (size.truncate val) size then
          some storeAmoCauses.accessFault
        else none

/-- A store that is refused raises the exception, and no other does. -/
theorem wlp_writeVirtualMemory_refusal {size : MemSize} {vaddr val : Word} :
    Wlp ((writeVirtualMemory size pc vaddr val).exec fuel) (fun r m' =>
      (r.1 ≠ .failure ∧ storeRefusal fuel m size vaddr val = none) ∨ r.1 = .failure ∧ ∃ cause, ∃ m1 : RunState, ∃ d,
        storeRefusal fuel m size vaddr val = some cause ∧ m1.s.regs = m.s.regs ∧
        m' = m1.trapped pc cause vaddr d) m := by
  obtain ⟨refusal, href⟩ : ∃ refusal, storeRefusal fuel m size vaddr val = refusal := ⟨_, rfl⟩
  rw [href, writeVirtualMemory, wlp_run_bind]
  rw [storeRefusal] at href
  refine wlp_writeMemoryWordViaTlb (fun hmiss => ?_) fun hptr s' hl hs => wlp_pure.mpr (.inl ⟨by simp, ?_⟩)
  · rw [hmiss, Option.isSome_none, if_neg (by decide)] at href
    simp only [Bool.false_eq_true, if_false, writeVirtualMemorySlow, wlp_run_ite]
    refine ⟨fun hmis => wlp_raiseStore fun d => .inr ⟨rfl, _, m, d, ?_, rfl, rfl⟩, fun hal => ?_⟩
    · rw [← href, if_pos hmis]
    rw [if_neg hal] at href
    rw [wlp_run_bind]
    refine wlp_translate_eq.mono ?_
    rintro r m1 ⟨hr, rfl⟩
    have hregs : (m.translated vaddr .write).s.regs = m.s.regs := translated_regs
    rw [← hr] at href
    cases r with
    | none => exact wlp_raiseStore fun d => .inr ⟨rfl, _, _, d, href.symm, hregs, rfl⟩
    | some paddr =>
      simp only [if_true, wlp_run_bind, wlp_findPma, wlp_run_ite, translated_searchPma]
      intro pma hp
      have href : (if refusesStore fuel (m.translated vaddr .write) pma (paddr - pma.start)
          (size.truncate val) size then some storeAmoCauses.accessFault else none) = refusal := by
        rw [← href]
        dsimp only
        rw [hp]
        rfl
      refine ⟨fun hmem => wlp_replaceTlbEntry fun d => wlp_writeMemoryWord.mpr fun s' hs => wlp_pure.mpr
        (.inl ⟨by simp, ?_⟩), fun hmem => ⟨fun hio status m2 hdev => ?_, fun hio => wlp_raiseStore fun d =>
          .inr ⟨rfl, _, _, d, ?_, hregs, rfl⟩⟩⟩
      · rw [← href, refusesStore, hmem]
        rfl
      · have hio : (!(pma.flags.W && pma.istartM)) = true ∧ (pma.flags.W && pma.istartIO) = true := by simp [hmem, hio]
        rw [refusesStore, hio.1, hio.2, succeedsWith, hdev] at href
        have heffect := wlp_deviceWrite (fun _ _ h => h) _ _ hdev
        refine ⟨fun hok => wlp_pure.mpr (.inl ⟨hok, ?_⟩), fun hfail => ?_⟩
        · rw [← href]
          simp [hok]
        · have hfail := not_not.mp hfail
          rw [heffect.refused hfail]
          refine wlp_raiseStore fun d => .inr ⟨rfl, _, _, d, ?_, hregs, rfl⟩
          rw [← href]
          simp [hfail]
      · rw [← href, refusesStore]
        simp [hmem, hio]
  · rw [← href, hl]
    rfl

/-- A store-conditional clears the reservation, unless it holds it and its store is refused. Then the reservation is
kept exactly if the trap keeps the privilege level. -/
theorem wlp_executeSC {size : MemSize} {insn : Insn} :
    Wlp ((executeSC size pc insn).exec fuel) (fun _ m' =>
      (m'.s.regs .ilrsc = -1 ∧ (m.s.regs .ilrsc = m.s.regs (.x insn.getRs1) →
        storeRefusal fuel m size (m.s.regs (.x insn.getRs1)) (m.s.regs (.x insn.getRs2)) = none)) ∨
      m.s.regs .ilrsc = m.s.regs (.x insn.getRs1) ∧ ∃ cause,
        storeRefusal fuel m size (m.s.regs (.x insn.getRs1)) (m.s.regs (.x insn.getRs2)) = some cause ∧
        m'.s.regs .ilrsc = if m.s.regs .iprv = trapPrv m.s.regs cause then m.s.regs .ilrsc else -1) m := by
  simp only [executeSC, wlp_run_bind, wlp_insnReadX, wlp_insnReadIlrsc, wlp_run_ite]
  refine ⟨fun heq => (wlp_perform.mpr wlp_writeVirtualMemory_refusal).mono fun r m1 hr => ⟨fun hf => ?_, fun hs => ?_⟩,
    fun hne => (wlp_finishSC (by decide)).mono fun _ _ h => .inl ⟨h.2, fun heq => absurd heq hne⟩⟩
  · obtain ⟨hs, -⟩ | ⟨-, cause, m2, d, href, hregs, rfl⟩ := hr
    · exact absurd hf hs
    · refine wlp_pure.mpr (.inr ⟨heq, cause, href, ?_⟩)
      rw [← hregs]
      exact (trapped_ilrsc _ _ _ _ _).2
  · obtain ⟨-, href⟩ | ⟨hf, -⟩ := hr
    · exact (wlp_finishSC hs).mono fun _ _ h => .inl ⟨h.2, fun _ => href⟩
    · exact absurd hf hs

/-! ## Stores without a reservation -/

/-- The run stores to a virtual address. -/
def Stores (fuel : Nat) {α : Type} (p : IProg α) (m : RunState) (vaddr : Word) : Prop :=
  ∃ size pc val m1 status newPc m2, p.Asked (insnAccess fuel) m (.writeVirtualMemory size pc vaddr val) m1 ∧
    insnAccess fuel (.writeVirtualMemory size pc vaddr val) m1 = .ok (status, newPc) m2 ∧ status ≠ .failure

/-- The entries of the TLB for stores are of pages, or invalid. -/
def WriteTlbAligned (m : RunState) : Prop :=
  ∀ i, (m.s.tlb .write i).vaddrPage = tlbInvalidPage ∨ (m.s.tlb .write i).vaddrPage &&& pageOffsetMask = 0

namespace WriteTlbAligned

theorem of_tlb (h : WriteTlbAligned m) (htlb : m'.s.tlb = m.s.tlb) : WriteTlbAligned m' := by
  intro i
  rw [htlb]
  exact h i

variable {s : MachineState} {vaddr val : Word} {size : MemSize}

theorem of_flushed (h : WriteTlbAligned m) (t : TlbSet)
    (htlb : s.tlb = flushedTlb m.s.tlb t) : WriteTlbAligned (m.withState s) := by
  intro i
  show (s.tlb .write i).vaddrPage = _ ∨ (s.tlb .write i).vaddrPage &&& _ = _
  rw [htlb]
  cases t with
  | code | read => exact h i
  | write => exact .inl rfl

theorem of_emptied (htlb : s.tlb = emptiedTlb m.s.tlb) : WriteTlbAligned (m.withState s) := by
  intro i
  show (s.tlb .write i).vaddrPage = _ ∨ _
  rw [htlb]
  exact .inl rfl

theorem filled (h : WriteTlbAligned m) (t : TlbSet) (vaddr paddr : Word) (pma : PmaEntry) (d : Nat → Bool) :
    WriteTlbAligned (m.filled t vaddr paddr pma d) := by
  intro i
  show ((update m.s.tlb t (update (m.s.tlb t) (tlbGetEntryIndex vaddr)
    (tlbEntryFor vaddr paddr pma))) .write i).vaddrPage = _ ∨ ((update m.s.tlb t (update
      (m.s.tlb t) (tlbGetEntryIndex vaddr) (tlbEntryFor vaddr paddr pma))) .write i).vaddrPage &&& _ = _
  by_cases ht : t = .write
  · subst ht
    rw [update_self]
    by_cases hi : i = tlbGetEntryIndex vaddr
    · rw [hi, update_self]
      right
      rw [tlbEntryFor, BitVec.and_assoc, show ~~~pageOffsetMask &&& pageOffsetMask = 0#64 by decide]
      exact BitVec.and_zero
    · rw [update_of_ne hi]
      exact h i
  · rw [update_of_ne (Ne.symm ht)]
    exact h i

theorem trapped (h : WriteTlbAligned m) (pc cause tval : Word) (d : Nat → Bool) :
    WriteTlbAligned (m.trapped pc cause tval d) := by
  by_cases hprv : m.s.regs .iprv = trapPrv m.s.regs cause
  · exact h.of_tlb (if_pos hprv)
  · exact of_emptied (if_neg hprv)

theorem returned (h : WriteTlbAligned m) (mstatus prv : Word) (d : Nat → Bool) :
    WriteTlbAligned (m.returned mstatus prv d) := by
  unfold RunState.returned
  split_ifs
  · exact h.of_tlb rfl
  · exact of_emptied rfl

theorem mstatusSet (h : WriteTlbAligned m) (val : Word) (d : Nat → Bool) :
    WriteTlbAligned (m.mstatusSet val d) := by
  unfold RunState.mstatusSet mstatusTlb
  split_ifs
  · exact (h.of_flushed (s := { m.s with tlb := flushedTlb m.s.tlb .read }) .read rfl).of_flushed .write rfl
  · exact h.of_flushed .read rfl
  · exact h.of_tlb rfl

theorem csr {status : ExecuteStatus} (h : WriteTlbAligned m) (hc : CsrWriteEffect m status m') :
    WriteTlbAligned m' := by
  cases hc with
  | refused | ignored => exact h
  | fcsr | plain | interrupts | satp => exact h.of_tlb rfl
  | satpFlush => exact of_emptied rfl
  | mstatus => exact h.mstatusSet _ _

theorem load {x : LoadResult} (h : WriteTlbAligned m)
    (hl : LoadEffect m size pc vaddr x m') : WriteTlbAligned m' := by
  cases hl with
  | hit => exact h
  | memory htr => exact (h.of_tlb htr.tlb).filled _ _ _ _ _
  | device htr hp hR hio hd => exact h.of_tlb (hd.deviceFrame.tlb.trans htr.tlb)
  | raised htr => exact (h.of_tlb htr.tlb).trapped _ _ _ _

theorem storeHost {s' : MachineState} {hptr : HostAddr}
    (h : storeHost s size val hptr = .ok s') : s'.tlb = s.tlb := by
  cases hptr with
  | board p =>
    cases h
    rfl
  | raw p => cases h

theorem store {x : StoreResult} (h : WriteTlbAligned m)
    (hs : StoreEffect m size pc vaddr val x m') : WriteTlbAligned m' := by
  cases hs with
  | hit hl hs => exact h.of_tlb (storeHost hs)
  | memory htr hp hW hM hs => exact ((h.of_tlb htr.tlb).filled _ _ _ _ _).of_tlb (storeHost hs)
  | device htr hp hW hio hstatus hd => exact h.of_tlb (hd.tlb.trans htr.tlb)
  | raised htr => exact (h.of_tlb htr.tlb).trapped _ _ _ _

theorem fetch {x : Fetched HostAddr} (h : WriteTlbAligned m)
    (hf : FetchEffect m pc vaddr x m') : WriteTlbAligned m' := by
  cases hf with
  | hit => exact h
  | filled htr => exact (h.of_tlb htr.tlb).filled _ _ _ _ _
  | raised htr => exact (h.of_tlb htr.tlb).trapped _ _ _ _

theorem loop : LoopInvariant WriteTlbAligned where
  fetch h hf := h.fetch hf
  insn _ _ := {
    write := fun _ _ _ h => h.of_tlb rfl
    load := fun _ h hl => h.load hl
    store := fun _ _ h hs => h.store hs
    csr := fun _ h hc => h.csr hc
    raise := fun h => h.trapped _ _ _ _
    sret := fun h _ => h.returned _ _ _
    mret := fun h _ => h.returned _ _ _
    sfence := fun _ => of_emptied rfl }
  poll h hp := h.of_tlb hp.tlb
  timer h := h.of_tlb rfl
  commit h _ := h.of_tlb rfl

theorem runStep {x y : LoopState RunState} (h : WriteTlbAligned x.state) (hstep : RunStep fp fuel x y) :
    WriteTlbAligned y.state := by
  cases hstep with
  | loop hstep => exact loop.step hstep h
  | resume => exact h.of_tlb rfl

/-- No store goes to the address that stands for no reservation. -/
theorem store_neg_one (h : WriteTlbAligned m) (hsize : size = .u32 ∨ size = .u64) :
    Wlp ((writeVirtualMemory size pc (-1) val).exec fuel) (fun r _ => r.1 = .failure) m := by
  have hmiss : tlbLookup m.s .write size (-1) = none := by
    refine if_neg fun hhit => ?_
    have hpage := eq_of_beq hhit
    rcases h (tlbGetEntryIndex (-1)) with hinv | hpageOf
    · have hinv := hinv.symm.trans hpage
      rcases hsize with rfl | rfl <;> exact absurd hinv (by decide)
    · have hoff := congrArg (· &&& pageOffsetMask) hpage
      have hoff := hpageOf.symm.trans hoff
      rcases hsize with rfl | rfl <;> exact absurd hoff (by decide)
  have hmis : (-1 : Word) &&& (size.sizeof - 1) ≠ 0 := by
    rcases hsize with rfl | rfl <;> decide
  rw [writeVirtualMemory, wlp_run_bind]
  refine wlp_writeMemoryWordViaTlb (fun _ => ?_) fun hptr s' hl _ => ?_
  · simp only [Bool.false_eq_true, if_false, writeVirtualMemorySlow, wlp_run_ite]
    exact ⟨fun _ => wlp_raiseStore fun d => rfl, fun hal => absurd hmis hal⟩
  · rw [hmiss] at hl
    cases hl

end WriteTlbAligned

def InsnOp.IsStore : InsnOp → Prop
  | .writeVirtualMemory .. => True
  | _ => False

theorem asks_finishSC {v : Word} {insn : Insn} {status : ExecuteStatus} :
    (finishSC pc insn v status).Asks fun o : InsnOp => ¬ o.IsStore :=
  .bind (.perform id) fun _ => .bind (.ite (fun _ => .pure _) fun _ => .perform id) fun _ => .pure _

/-- A store-conditional stores only if the reservation is of its address. -/
theorem stores_SC {vaddr : Word} {insn : Insn} (hsc : isSC insn = true)
    (h : Stores fuel (executeInsn fp pc mcycle insn) m vaddr) :
    m.s.regs .ilrsc = m.s.regs (.x insn.getRs1) ∧ ∃ val status newPc m2,
      (writeVirtualMemory (scSize insn) pc (m.s.regs (.x insn.getRs1)) val).exec fuel m =
        .ok (status, newPc) m2 ∧ status ≠ .failure := by
  obtain ⟨size, pc', val, m1, status, newPc, m2, hasked, hrun, hok⟩ := h
  rw [executeInsn_SC fp hsc, withMcycle, Prog.asked_bind] at hasked
  obtain hasked | ⟨_, _, -, hf⟩ := hasked
  · have hasked := hasked.of_answer (x := m.s.regs (.x insn.getRs1)) rfl (by rintro ⟨⟩)
    have hasked := hasked.of_answer (x := m.s.regs .ilrsc) rfl (by rintro ⟨⟩)
    split at hasked
    · rename_i heq
      have hasked := hasked.of_answer (x := m.s.regs (.x insn.getRs2)) rfl (by rintro ⟨⟩)
      rcases hasked with ⟨h, rfl⟩ | ⟨⟨status', newPc'⟩, m3, -, hasked⟩
      · cases h
        exact ⟨heq, _, status, newPc, m2, hrun, hok⟩
      · -- nothing is stored after the store
        have hnone : (if status' = .failure then pure (.failure, newPc') else
            finishSC pc insn 0 status').Asks fun o : InsnOp => ¬ o.IsStore :=
          .ite (fun _ => .pure _) fun _ => asks_finishSC
        exact absurd trivial (hnone.of_asked hasked)
    · exact absurd trivial (asks_finishSC.of_asked hasked)
  · exact hf.elim

/-- A store-conditional that completes with the reservation of its address stores. -/
theorem stores_of_SC {insn : Insn} {r : Outcome × Word} (hsc : isSC insn = true)
    (hheld : m.s.regs .ilrsc = m.s.regs (.x insn.getRs1))
    (hrun : (executeInsn fp pc mcycle insn).access.exec fuel m = .ok r m')
    (hok : r.1.1 ≠ .failure) : Stores fuel (executeInsn fp pc mcycle insn) m (m.s.regs (.x insn.getRs1)) := by
  have hexec := executeInsn_SC fp hsc pc mcycle
  rw [AProg.exec, run_access, hexec, Insn.withMcycle, Prog.run_bind] at hrun
  obtain ⟨outcome, m1, hrun, hret⟩ := EStateM.bind_ok_iff.mp hrun
  cases hret
  have hread : ∀ {f : Word → IProg Outcome} {reg : Fin 32},
      Prog.run (insnAccess fuel) (Insn.readX reg >>= f) m = Prog.run (insnAccess fuel) (f (m.s.regs (.x reg))) m :=
    rfl
  have hilrsc : ∀ {f : Word → IProg Outcome},
      Prog.run (insnAccess fuel) (Insn.readIlrsc >>= f) m = Prog.run (insnAccess fuel) (f (m.s.regs .ilrsc)) m := rfl
  rw [Insn.executeSC, hread, hilrsc, if_pos hheld, hread, Prog.run_bind] at hrun
  obtain ⟨⟨status, newPc⟩, m2, hstore, hrest⟩ := EStateM.bind_ok_iff.mp hrun
  have hstore := (congrFun (Prog.run_perform (h := insnAccess fuel) _) m).symm.trans hstore
  refine ⟨scSize insn, pc, _, m, status, newPc, m2, ?_, hstore, ?_⟩
  · rw [hexec]
    refine Prog.Asked.bind_left (.inr ⟨_, m, rfl, .inr ⟨_, m, rfl, ?_⟩⟩)
    show (if m.s.regs .ilrsc = m.s.regs (.x insn.getRs1) then _ else _ : IProg Outcome).Asked _ _ _ _
    rw [if_pos hheld]
    exact .inr ⟨_, m, rfl, .inl ⟨rfl, rfl⟩⟩
  · rintro rfl
    obtain ⟨rfl, -⟩ := EStateM.pure_ok_iff.mp hrest
    exact hok rfl

/-! ## Histories -/

section History
variable (fp : SoftFloat) (fuel : Nat)

/-- A load-reserved of the virtual address completes at the place `x`. -/
def LoadsReserved (x : LoopState RunState) (vaddr : Word) : Prop :=
  ∃ c insn m1 r m2, Executes (stateAccess fuel) fp x c insn m1 r m2 ∧ isLR insn = true ∧
    r.1.1 ≠ .failure ∧ m1.s.regs (.x insn.getRs1) = vaddr

/-- A store-conditional is executed at the place `x`. -/
def ExecutesSC (x : LoopState RunState) : Prop :=
  ∃ c insn m1 r m2, Executes (stateAccess fuel) fp x c insn m1 r m2 ∧ isSC insn = true

/-- The instruction at the place `x` is a store-conditional of the address that is reserved, its store is refused, and
the trap is one that keeps the privilege level. The address `-1` stands for no reservation. -/
def FaultsSC (x : LoopState RunState) : Prop :=
  ∃ c insn m1 cause, Fetches (stateAccess fuel) x c insn m1 ∧ isSC insn = true ∧
    m1.s.regs .ilrsc = m1.s.regs (.x insn.getRs1) ∧ m1.s.regs (.x insn.getRs1) ≠ -1 ∧
    storeRefusal fuel m1 (scSize insn) (m1.s.regs (.x insn.getRs1)) (m1.s.regs (.x insn.getRs2)) = some cause ∧
    m1.s.regs .iprv = trapPrv m1.s.regs cause

/-- In the history from `x0` to `x` there was a load-reserved of the virtual address, and since then no
store-conditional and no change of the privilege level. -/
def Reserved (x0 x : LoopState RunState) (vaddr : Word) : Prop :=
  ∃ a b, Relation.ReflTransGen (RunStep fp fuel) x0 a ∧ LoadsReserved fp fuel a vaddr ∧ RunStep fp fuel a b ∧
    Relation.ReflTransGen (fun y z => RunStep fp fuel y z ∧ ¬ ExecutesSC fp fuel y ∧
      z.state.s.regs .iprv = y.state.s.regs .iprv) b x

end History

section Executes
variable {x y : LoopState RunState} {c : Cursor} {insn : Insn} {m1 m2 : RunState} {r : Outcome × Word}

theorem Executes.LR (he : Executes (stateAccess fuel) fp x c insn m1 r m2) (hlr : isLR insn = true) :
    (r.1.1 = .failure → HeldOr (m1.s.regs .ilrsc) (m1.s.regs .iprv) m2.s.regs) ∧
      (r.1.1 ≠ .failure → m2.s.regs .ilrsc = m1.s.regs (.x insn.getRs1)) := by
  cases he with
  | intro hlt hfetch hexec =>
    obtain ⟨size, extend, hinsn⟩ := executeInsn_LR fp hlr c.pc c.mcycle
    rw [run_access, hinsn, Insn.withMcycle, Prog.run_bind] at hexec
    obtain ⟨outcome, m', hrun, hret⟩ := bind_ok_iff.mp hexec
    cases hret
    exact wlp_executeLR _ _ hrun

/-- After a store-conditional no reservation is held, unless its store was refused. -/
theorem ilrsc_after_SC (hstep : RunStep fp fuel x y) (he : Executes (stateAccess fuel) fp x c insn m1 r m2)
    (hsc : isSC insn = true) : y.state.s.regs .ilrsc = -1 ↔ ¬ FaultsSC fuel x := by
  rw [(hstep.of_executes he).2.1 .ilrsc (by decide)]
  have hf := he.fetches
  cases he with
  | intro hlt hfetch hexec =>
    rw [run_access, executeInsn_SC fp hsc, Insn.withMcycle, Prog.run_bind] at hexec
    obtain ⟨outcome, m', hrun, hret⟩ := bind_ok_iff.mp hexec
    cases hret
    constructor
    · rintro hclear ⟨c', insn', m1', cause, hf', -, hheld, hne, href, hprv⟩
      obtain ⟨rfl, rfl, rfl⟩ := hf.unique hf'
      rcases wlp_executeSC _ _ hrun with ⟨-, hnone⟩ | ⟨-, cause', href', hilrsc⟩
      · cases (hnone hheld).symm.trans href
      · obtain rfl : cause = cause' := Option.some.inj (href.symm.trans href')
        rw [if_pos hprv] at hilrsc
        exact hne (hheld.symm.trans (hilrsc.symm.trans hclear))
    · intro hno
      rcases wlp_executeSC _ _ hrun with ⟨hclear, -⟩ | ⟨hheld, cause, href, hilrsc⟩
      · exact hclear
      · rw [hilrsc]
        split_ifs with hprv
        · rw [hheld]
          by_contra hne
          exact hno ⟨_, _, _, cause, hf, hsc, hheld, hne, href, hprv⟩
        · rfl

/-- Other steps keep the reservation and the privilege level, or give the reservation up. -/
theorem heldOr_step (hstep : RunStep fp fuel x y) (hsc : ¬ ExecutesSC fp fuel x)
    (hlr : ∀ vaddr, ¬ LoadsReserved fp fuel x vaddr) :
    HeldOr (x.state.s.regs .ilrsc) (x.state.s.regs .iprv) y.state.s.regs := by
  have hx : HeldOr (x.state.s.regs .ilrsc) (x.state.s.regs .iprv) x.state.s.regs := .inl ⟨rfl, rfl⟩
  cases hstep with
  | resume => exact hx
  | loop hstep =>
    have htick : ∀ {c : Cursor} {m m1 : RunState}, (tickWork c).exec fuel m = .ok () m1 →
        HeldOr (m.s.regs .ilrsc) (m.s.regs .iprv) m1.s.regs := by
      intro c m m1 hrun
      have hframe := wlp_tickWork _ _ hrun
      exact .inl ⟨hframe.regs _ (by decide) (by decide), hframe.regs _ (by decide) (by decide)⟩
    cases hstep.effect with
    | served hrun hnone => exact htick hrun
    | interrupted hrun hpend => exact (htick hrun).trapped _ _ _ _
    | finished | tick => exact hx
    | faulted hlt hregs hfetch => exact HeldOr.trapped (hregs ▸ hx) _ _ _ _
    | executed he hfetch hregs hmcycle =>
      rename_i c insn m1 m2 r
      have hm2 : HeldOr (m1.s.regs .ilrsc) (m1.s.regs .iprv) m2.s.regs := by
        cases hisSC : isSC insn with
        | true => exact absurd ⟨_, _, _, _, _, he, hisSC⟩ hsc
        | false =>
          cases hisLR : isLR insn with
          | true =>
            refine (he.LR hisLR).1 ?_
            by_contra hok
            exact hlr _ ⟨_, _, _, _, _, he, hisLR, hok, rfl⟩
          | false =>
            cases he with
            | intro hlt hf hexec => exact wlp_executeInsn_ilrsc hisLR hisSC _ _ hexec
      rw [hfetch] at hm2
      have hno : ∀ reg ∈ [Reg.ilrsc, .iprv], reg ∉ [Reg.pc, .mcycle] := by decide
      exact hm2.of_regs fun reg hreg => hregs reg (hno reg hreg)

theorem ilrsc_after_LR {vaddr : Word} (hstep : RunStep fp fuel x y) (hlr : LoadsReserved fp fuel x vaddr) :
    y.state.s.regs .ilrsc = vaddr := by
  obtain ⟨c, insn, m1, r, m2, he, hlr, hok, hvaddr⟩ := hlr
  rw [(hstep.of_executes he).2.1 .ilrsc (by decide), (he.LR hlr).2 hok, hvaddr]

end Executes

/-- A step at which no store-conditional faults without a change of the privilege level. -/
def SoundStep (fp : SoftFloat) (fuel : Nat) (x y : LoopState RunState) : Prop :=
  RunStep fp fuel x y ∧ ¬ FaultsSC fuel x

theorem WriteTlbAligned.soundSteps {x0 x : LoopState RunState} (h : WriteTlbAligned x0.state)
    (hsteps : Relation.ReflTransGen (SoundStep fp fuel) x0 x) : WriteTlbAligned x.state := by
  induction hsteps with
  | refl => exact h
  | tail _ hstep ih => exact ih.runStep hstep.1

/-- The reservation that is held is one that the history gives. -/
theorem reserved_of_held {x0 x : LoopState RunState} (hsteps : Relation.ReflTransGen (SoundStep fp fuel) x0 x)
    (h0 : x0.state.s.regs .ilrsc = -1) :
    x.state.s.regs .ilrsc = -1 ∨ Reserved fp fuel x0 x (x.state.s.regs .ilrsc) := by
  induction hsteps with
  | refl => exact .inl h0
  | @tail x y hsteps hstep ih =>
    have hrun : Relation.ReflTransGen (RunStep fp fuel) x0 x :=
      Relation.ReflTransGen.mono (fun _ _ (h : SoundStep fp fuel _ _) => h.1) _ _ hsteps
    by_cases hsc : ExecutesSC fp fuel x
    · obtain ⟨c, insn, m1, r, m2, he, hisSC⟩ := hsc
      exact .inl ((ilrsc_after_SC hstep.1 he hisSC).mpr hstep.2)
    by_cases hlr : ∃ vaddr, LoadsReserved fp fuel x vaddr
    · obtain ⟨vaddr, hlr⟩ := hlr
      rw [ilrsc_after_LR hstep.1 hlr]
      exact .inr ⟨x, y, hrun, hlr, hstep.1, .refl⟩
    rcases heldOr_step hstep.1 hsc (not_exists.mp hlr) with ⟨hilrsc, hiprv⟩ | hclear
    · rw [hilrsc]
      refine ih.imp_right ?_
      rintro ⟨a, b, ha, hload, hab, hb⟩
      exact ⟨a, b, ha, hload, hab, hb.tail ⟨hstep.1, hsc, hiprv⟩⟩
    · exact .inl hclear

/-- A machine about to execute the given instruction words, with an address in `x1`. -/
def reservationMachine (vaddr : Word) (insns : List Insn) : RunState :=
  .created smallBoard
    { regs := fun r => ([(.x 1, vaddr)].lookup r).getD (initRegs r)
      image := writeBytes (fun _ => 0) pmaRamStart.toNat (insns.flatMap fun insn => toLE 4 insn.toNat)
      uarchRam := fun _ => 0 } fun _ => 0

/-- After a store-conditional no reservation is held, exactly if its store is not refused in a trap that keeps the
privilege level. In every history without such a fault, from a machine that holds no reservation,
a store-conditional stores only to the address of a load-reserved after which there was no store-conditional
and no change of the privilege level. -/
theorem lrsc_iff (fp : SoftFloat) (fuel : Nat) :
    (∀ x y c insn m1 r m2, RunStep fp fuel x y → Executes (stateAccess fuel) fp x c insn m1 r m2 →
      isSC insn = true → (y.state.s.regs .ilrsc = -1 ↔ ¬ FaultsSC fuel x)) ∧
    ∀ x0 x, x0.state.s.regs .ilrsc = -1 → WriteTlbAligned x0.state →
      Relation.ReflTransGen (SoundStep fp fuel) x0 x →
      ∀ c insn m1 r m2, Executes (stateAccess fuel) fp x c insn m1 r m2 → isSC insn = true →
        Stores fuel (executeInsn fp c.pc c.mcycle insn) m1 (m1.s.regs (.x insn.getRs1)) →
        Reserved fp fuel x0 x (m1.s.regs (.x insn.getRs1)) := by
  refine ⟨fun x y c insn m1 r m2 hstep he hsc => ilrsc_after_SC hstep he hsc, ?_⟩
  intro x0 x h0 htlb hsteps c insn m1 r m2 he hsc hstores
  obtain ⟨hheld, val, status, newPc, m', hrun, hok⟩ := stores_SC hsc hstores
  have htlb : WriteTlbAligned x.state := htlb.soundSteps hsteps
  cases he with
  | intro hlt hfetch hexec =>
    have hregs : m1.s.regs = _ := wlp_fetchInsn_regs _ _ hfetch
    have htlb1 := wlp_fetchInsn (fun h hf => h.fetch hf) htlb _ _ hfetch
    rcases reserved_of_held hsteps h0 with hnone | hres
    · -- without a reservation the store is to the address `-1`, and faults
      have hvaddr : m1.s.regs (.x insn.getRs1) = -1 := by
        rw [← hheld, hregs]
        exact hnone
      rw [hvaddr] at hrun
      exact absurd (htlb1.store_neg_one scSize_cases _ _ hrun) hok
    · rw [← hheld, hregs]
      exact hres

/-- `LR.D` and `SC.D` on memory that cannot be written: the store faults in machine mode, and in its handler
the reservation is still held. -/
theorem lrsc_held_after_fault : isLR 0x1000b2af = true ∧ isSC 0x1800b2af = true ∧ ∃ m',
      (interpret .zero 2).run (stateAccess 0)
        (reservationMachine pmaCmioRxBufferStart [0x1000b2af, 0x1800b2af]) = .ok .reachedTargetMcycle m' ∧
      m'.s.regs .mcause = mcauseStoreAmoAccessFault ∧ m'.s.regs .mepc = pmaRamStart + 4 ∧
      m'.s.regs .ilrsc = pmaCmioRxBufferStart := by
  have hrun : ((interpret .zero 2).run (stateAccess 0)).succeedsWith
      (reservationMachine pmaCmioRxBufferStart [0x1000b2af, 0x1800b2af]) (fun reason m' =>
        reason = .reachedTargetMcycle ∧ m'.s.regs .mcause = mcauseStoreAmoAccessFault ∧
        m'.s.regs .mepc = pmaRamStart + 4 ∧ m'.s.regs .ilrsc = pmaCmioRxBufferStart) = true := by
    decide +kernel
  obtain ⟨reason, m', hrun, hm'⟩ := exists_of_succeedsWith hrun
  obtain ⟨rfl, hregs⟩ := of_decide_eq_true hm'
  exact ⟨by decide, by decide, m', hrun, hregs⟩

/-- `LR.D` and `SC.D` on memory that can be written. -/
theorem lrsc_stores :
    ∃ x0 x c insn m1 r m2, x0 = LoopState.start (reservationMachine (pmaRamStart + 8) [0x1000b2af, 0x1800b2af]) ∧
      Executes (stateAccess 0) .zero x c insn m1 r m2 ∧ isSC insn = true ∧
      Stores 0 (executeInsn .zero c.pc c.mcycle insn) m1 (m1.s.regs (.x insn.getRs1)) ∧
      Reserved .zero 0 x0 x (m1.s.regs (.x insn.getRs1)) := by
  let m := reservationMachine (pmaRamStart + 8) [0x1000b2af, 0x1800b2af]
  let h := stateAccess 0
  -- the run up to the second instruction, by evaluation
  have hrun : ((serveInterrupts (.start (m.s.regs .pc) (m.s.regs .mcycle))).run h).succeedsWith
      (m.writeReg .iflagsX 0) (fun c1 m1 => c1.mcycle = 0 ∧
        ((fetchInsn c1.pc c1.cache).run h).succeedsWith m1 (fun r _ => r.2 = .ok 0x1000b2af) ∧
        ((innerStep .zero c1).run h).succeedsWith m1 fun r m2 => match r with
          | .next c2 => c2.mcycle = 1 ∧ ((fetchInsn c2.pc c2.cache).run h).succeedsWith m2 fun r m3 =>
            r.2 = .ok 0x1800b2af ∧ m3.s.regs .ilrsc = m3.s.regs (.x 1) ∧
              ((executeInsn .zero c2.pc c2.mcycle 0x1800b2af).access.run h).succeedsWith m3 fun r _ =>
                r.1.1 ≠ .failure
          | _ => false) = true := by
    decide
  obtain ⟨c1, m1, hserve, hc1⟩ := exists_of_succeedsWith hrun
  obtain ⟨hmcycle1, hfetch1, hstep1⟩ := of_decide_eq_true hc1
  obtain ⟨⟨cache1, _⟩, m1', hfetch1, hinsn1⟩ := exists_of_succeedsWith hfetch1
  obtain rfl := of_decide_eq_true hinsn1
  obtain ⟨r1, m2, hstep1, hc2⟩ := exists_of_succeedsWith hstep1
  cases r1 with
  | serve | stop => cases hc2
  | next c2 =>
    obtain ⟨hmcycle2, hfetch2⟩ := of_decide_eq_true hc2
    obtain ⟨⟨cache2, _⟩, m3, hfetch2, hinsn2⟩ := exists_of_succeedsWith hfetch2
    obtain ⟨rfl, hheld, hexec⟩ := of_decide_eq_true hinsn2
    obtain ⟨r, m4, hexec, hok⟩ := exists_of_succeedsWith hexec
    have hlt1 : c1.mcycle < tickEnd 2 c1.mcycle := by rw [hmcycle1]; decide
    have hlt2 : c2.mcycle < tickEnd 2 c1.mcycle := by rw [hmcycle1, hmcycle2]; decide
    have he : Executes h .zero (.inner (tickEnd 2 c1.mcycle) c2 m2) c2 0x1800b2af m3 r m4 :=
      .intro hlt2 hfetch2 hexec
    have hsc : isSC 0x1800b2af = true := by decide
    have hstores := stores_of_SC hsc hheld hexec (of_decide_eq_true hok)
    refine ⟨.start m, _, c2, _, m3, r, m4, rfl, he, hsc, hstores, ?_⟩
    refine (lrsc_iff .zero 0).2 (.start m) _ rfl (fun i => .inl rfl) ?_ _ _ _ _ _ he hsc hstores
    have hloop1 : LoopStep h .zero 2 (.start m) (.inner (tickEnd 2 c1.mcycle) c1 m1) :=
      .serveInterrupts (by decide) hserve
    have hloop2 : LoopStep h .zero 2 (.inner (tickEnd 2 c1.mcycle) c1 m1) (.inner (tickEnd 2 c1.mcycle) c2 m2) :=
      .next hlt1 hstep1
    refine .tail (.single ⟨.loop hloop1, ?_⟩) ⟨.loop hloop2, ?_⟩
    · rintro ⟨_, _, _, _, hf, -⟩
      cases hf
    · rintro ⟨_, _, _, _, hf, hsc, -⟩
      cases hf with
      | intro _ hfetch =>
        cases hfetch1.symm.trans hfetch
        exact absurd hsc (by decide)

end MachineEmulator.Interpret
