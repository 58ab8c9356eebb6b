import MachineEmulator.Interpret.StateAccess
import MachineEmulator.Lib.Wlp

/-!
# What the operations of the interpreter do to a machine

* `wlp_read`, `wlp_write`, ... : the rule of each operation of `stateAccess`;
* `trapRegs`, `RunState.trapped` : the machine after a trap;
* `wlp_raiseException` : raising an exception or an interrupt takes exactly this trap;
* `succeeds_raiseException` : it never fails while the pages of the write TLB can be marked dirty.
-/

namespace MachineEmulator.Interpret

open Function Prog List RunState

variable {fuel : Nat} {m : RunState}

namespace RunState

@[simp] theorem withState_s (s : MachineState) : (m.withState s).s = s := rfl
@[simp] theorem withState_withState (s s' : MachineState) : (m.withState s).withState s' = m.withState s' := rfl
@[simp] theorem withState_self : m.withState m.s = m := rfl

@[simp] theorem writeReg_regs (r : Reg) (v : Word) :
    (m.writeReg r v).s.regs = update m.s.regs r v := rfl
@[simp] theorem writeReg_withState (r : Reg) (v : Word) (s : MachineState) :
    (m.writeReg r v).withState s = m.withState s := rfl
@[simp] theorem writeReg_softYield (r : Reg) (v : Word) : (m.writeReg r v).s.softYield = m.s.softYield := rfl
@[simp] theorem writeReg_tlb (r : Reg) (v : Word) : (m.writeReg r v).s.tlb = m.s.tlb := rfl
@[simp] theorem writeReg_board (r : Reg) (v : Word) : (m.writeReg r v).s.board = m.s.board := rfl
@[simp] theorem writeReg_mem (r : Reg) (v : Word) : (m.writeReg r v).s.mem = m.s.mem := rfl
@[simp] theorem writeReg_dirty (r : Reg) (v : Word) : (m.writeReg r v).s.dirty = m.s.dirty := rfl

end RunState

/-! ## Registers -/

/-- Postconditions of computations on machines. -/
abbrev Post (α : Type) := α → RunState → Prop

theorem wlp_op {o : AccessOp} {post : Post o.Ans} :
    Wlp (run (stateAccess fuel) (perform (S := AccessSig) o)) post m ↔
      Wlp (stateAccess fuel o) post m :=
  wlp_perform

theorem succeeds_op {o : AccessOp} :
    Succeeds (run (stateAccess fuel) (perform (S := AccessSig) o)) m ↔
      Succeeds (stateAccess fuel o) m := by
  rw [run_perform]

variable {r : Reg} {post : Post Unit} {s s' : MachineState} {pmas : List PmaEntry} {t : TlbSet}
  {cause prv : Word}

@[simp] theorem wlp_read {post : Post Word} :
    Wlp ((read r).exec fuel) post m ↔ post (m.s.regs r) m := by
  exact (wlp_op (o := .readReg (.reg r))).trans (wlp_query_ok (f := fun m : RunState => m.s.regs r))

@[simp] theorem wlp_readShadow {r : ShadowReg} {post : Post Word} :
    Wlp ((readShadow r).exec fuel) post m ↔ post (m.s.readShadow r) m := by
  exact (wlp_op (o := .readReg r)).trans (wlp_query_ok (f := fun m : RunState => m.s.readShadow r))

@[simp] theorem wlp_write {v : Word} :
    Wlp ((write r v).exec fuel) post m ↔ post () (m.writeReg r v) := by
  refine (wlp_op (o := .writeReg r v)).trans ?_
  exact wlp_update.trans ⟨fun h => h _ rfl, fun h a ha => by cases ha; exact h⟩

@[simp] theorem succeeds_read : Succeeds ((read r).exec fuel) m :=
  ⟨m.s.regs r, m, rfl⟩

@[simp] theorem succeeds_write {v : Word} : Succeeds ((write r v).exec fuel) m :=
  ⟨(), m.writeReg r v, rfl⟩

/-! ## Flushing the TLB -/

variable (tlb : TlbSet → Fin 256 → TlbEntry) (regs : Reg → Word)

/-- The TLB with the entries of one set invalid. -/
def flushedTlb (t : TlbSet) : TlbSet → Fin 256 → TlbEntry :=
  Function.update tlb t fun i => { tlb t i with vaddrPage := tlbInvalidPage }

def emptiedTlb : TlbSet → Fin 256 → TlbEntry :=
  fun t i => { tlb t i with vaddrPage := tlbInvalidPage }

theorem emptiedTlb_eq :
    flushedTlb (flushedTlb (flushedTlb tlb .code) .read) .write = emptiedTlb tlb := by
  funext t
  cases t <;> rfl

theorem markDirty_eq {pma : PmaEntry} {a : Word}
    (h : markDirty s pma a = .ok s') : s' = { s with dirty := s'.dirty } := by
  unfold markDirty at h
  split at h
  · split at h
    · cases h
      rfl
    · cases h
  · cases h
    rfl

theorem retireTlbEntry_eq {i : Fin 256}
    (h : retireTlbEntry pmas t i s = .ok s') : s' = { s with dirty := s'.dirty } := by
  unfold retireTlbEntry at h
  split at h
  · unfold markTlbEntry at h
    split at h
    · cases h
      rfl
    · split at h
      · cases h
      · exact markDirty_eq h
  · cases h
    rfl

theorem doFlushTlbEntries_eq {is : List (Fin 256)} (h : doFlushTlbEntries pmas t is s = .ok s') :
    s' = { s with
      tlb := update s.tlb t fun i =>
        if is.contains i then { s.tlb t i with vaddrPage := tlbInvalidPage } else s.tlb t i
      dirty := s'.dirty } := by
  induction is generalizing s with
  | nil =>
    cases h
    simp
  | cons i is ih =>
    obtain ⟨s1, h1, h2⟩ := except_bind_ok_iff.mp h
    obtain ⟨s2, h3, h4⟩ := except_bind_ok_iff.mp h1
    cases h4
    rw [ih h2, retireTlbEntry_eq h3]
    simp only [MachineState.setTlb, update_self, update_idem, contains_cons]
    congr 2
    funext j
    by_cases hj : j = i <;> simp [hj]

theorem doFlushTlbType_eq (h : doFlushTlbType pmas t s = .ok s') :
    s' = { s with tlb := flushedTlb s.tlb t, dirty := s'.dirty } := by
  have h := doFlushTlbEntries_eq h
  simp only [contains_eq_mem, mem_finRange, decide_true, if_true] at h
  exact h

theorem wlp_updateState {f : RunState → Except Fault MachineState} :
    Wlp (updateState f) post m ↔ ∀ s', f m = .ok s' → post () (m.withState s') := by
  refine wlp_update.trans ⟨fun h s' hs => h _ (by simp [hs, Except.map]), fun h m' hm => ?_⟩
  cases hf : f m with
  | error e => simp [hf, Except.map] at hm
  | ok s' =>
    simp only [hf, Except.map, Except.ok.injEq] at hm
    exact hm ▸ h s' hf

theorem succeeds_updateState {f : RunState → Except Fault MachineState} (h : ∃ s', f m = .ok s') :
    Succeeds (updateState f) m := by
  obtain ⟨s', hs⟩ := h
  exact ⟨(), m.withState s', EStateM.update_ok_iff.mpr (by simp [hs, Except.map])⟩

theorem wlp_flushTlbType
    (h : ∀ d, post () (m.withState { m.s with tlb := flushedTlb m.s.tlb t, dirty := d })) :
    Wlp ((flushTlbType t).exec fuel) post m := by
  refine (wlp_op (o := .flushTlbType t)).mpr (wlp_updateState.mpr fun s' hs => ?_)
  rw [doFlushTlbType_eq hs]
  exact h _

theorem wlp_flushAllTlb
    (h : ∀ d, post () (m.withState { m.s with tlb := emptiedTlb m.s.tlb, dirty := d })) :
    Wlp (flushAllTlb.exec fuel) post m := by
  simp only [flushAllTlb, wlp_run_bind]
  refine wlp_flushTlbType fun _ => wlp_flushTlbType fun _ => wlp_flushTlbType fun d => ?_
  simpa [emptiedTlb_eq] using h d

/-- The page of an entry can be marked dirty when the entry goes. -/
def Retirable (pmas : List PmaEntry) (e : TlbEntry) : Prop :=
  e.vaddrPage = tlbInvalidPage ∨ ∃ pma, pmas[e.pmaIndex.toNat]? = some pma ∧
    (pma.istartM = true → e.paddrPage - pma.start < pma.length)

/-- The entries of the write TLB can go. -/
def RunState.TlbRetirable (m : RunState) : Prop := ∀ i, Retirable m.pmas (m.s.tlb .write i)

theorem Retirable.invalidate (e : TlbEntry) :
    Retirable pmas { e with vaddrPage := tlbInvalidPage } := .inl rfl

theorem Retirable.exists_ok {i : Fin 256} (h : Retirable pmas (s.tlb .write i)) (t : TlbSet) :
    ∃ s', retireTlbEntry pmas t i s = .ok s' := by
  cases t with
  | write =>
    unfold retireTlbEntry markTlbEntry markDirty
    rcases h with h | ⟨pma, hpma, hlt⟩
    · exact ⟨s, if_pos h⟩
    · by_cases hinv : (s.tlb .write i).vaddrPage = tlbInvalidPage
      · exact ⟨s, if_pos hinv⟩
      · by_cases hM : pma.istartM = true
        · simp [hinv, hpma, hM, hlt hM]
        · simp [hinv, hpma, hM]
  | _ => exact ⟨s, rfl⟩

theorem exists_doFlushTlbEntries (t : TlbSet) :
    ∀ {is : List (Fin 256)} {s : MachineState}, (∀ i, Retirable pmas (s.tlb .write i)) →
      ∃ s', doFlushTlbEntries pmas t is s = .ok s'
  | [], s, _ => ⟨s, rfl⟩
  | i :: is, s, h => by
    obtain ⟨s1, h1⟩ := (h i).exists_ok t
    have hs1 : s1.tlb = s.tlb := by rw [retireTlbEntry_eq h1]
    have h2 : ∀ j, Retirable pmas
        ((s1.setTlb t i { s1.tlb t i with vaddrPage := tlbInvalidPage }).tlb .write j) := by
      intro j
      simp only [MachineState.setTlb, hs1]
      by_cases ht : TlbSet.write = t
      · subst ht
        by_cases hj : j = i
        · subst hj
          simpa using Retirable.invalidate _
        · simpa [hj] using h j
      · simpa [ht] using h j
    have hrest : ∃ s', doFlushTlbEntries pmas t is _ = .ok s' := exists_doFlushTlbEntries t h2
    obtain ⟨s', hs'⟩ := hrest
    exact ⟨s', except_bind_ok_iff.mpr ⟨_, except_bind_ok_iff.mpr ⟨s1, h1, rfl⟩, hs'⟩⟩

theorem succeeds_flushTlbType (h : m.TlbRetirable) : Succeeds ((flushTlbType t).exec fuel) m := by
  exact succeeds_op.mpr (succeeds_updateState (exists_doFlushTlbEntries t h))

theorem RunState.TlbRetirable.flushed (h : m.TlbRetirable) (t : TlbSet) (d : Nat → Bool) :
    (m.withState { m.s with tlb := flushedTlb m.s.tlb t, dirty := d }).TlbRetirable := by
  intro i
  show Retirable m.pmas (flushedTlb m.s.tlb t .write i)
  by_cases ht : TlbSet.write = t
  · subst ht
    simpa [flushedTlb] using Retirable.invalidate _
  · simpa [flushedTlb, ht] using h i

theorem succeeds_flushAllTlb (h : m.TlbRetirable) : Succeeds (flushAllTlb.exec fuel) m := by
  simp only [flushAllTlb, run_bind, succeeds_bind]
  refine ⟨succeeds_flushTlbType h, wlp_flushTlbType fun _ => ⟨succeeds_flushTlbType (h.flushed _ _),
    wlp_flushTlbType fun _ => succeeds_flushTlbType ((h.flushed _ _).flushed _ _)⟩⟩

/-! ## Traps -/

/-- Is a trap delegated to supervisor mode? -/
def delegated (cause : Word) : Bool :=
  decide (regs .iprv ≤ prvS) &&
    ((regs (if cause &&& mcauseInterruptFlag ≠ 0 then .mideleg else .medeleg) >>>
      (cause &&& 63).toNat) &&& 1 != 0)

/-- The registers after a trap into supervisor mode. -/
def trapRegsS (pc cause tval : Word) : Reg → Word
  | .icycleinstret => regs .icycleinstret + 1
  | .scause => cause
  | .sepc => pc
  | .stval => trapValue cause tval
  | .mstatus => mstatusTrapS (regs .mstatus) (regs .iprv)
  | .iprv => prvS
  | .ilrsc => if regs .iprv = prvS then regs .ilrsc else -1
  | r => regs r

/-- The registers after a trap into machine mode. -/
def trapRegsM (pc cause tval : Word) : Reg → Word
  | .icycleinstret => regs .icycleinstret + 1
  | .mcause => cause
  | .mepc => pc
  | .mtval => trapValue cause tval
  | .mstatus => mstatusTrapM (regs .mstatus) (regs .iprv)
  | .iprv => prvM
  | .ilrsc => if regs .iprv = prvM then regs .ilrsc else -1
  | r => regs r

def trapRegs (pc cause tval : Word) : Reg → Word :=
  if delegated regs cause then trapRegsS regs pc cause tval else trapRegsM regs pc cause tval

/-- The address of the handler of a trap. -/
def trapVector (cause : Word) : Word :=
  regs (if delegated regs cause then .stvec else .mtvec)

def trapPrv (cause : Word) : Word := if delegated regs cause then prvS else prvM

/-- The TLB after a trap: a change of the privilege level empties it. -/
def trapTlb (s : MachineState) (cause : Word) : TlbSet → Fin 256 → TlbEntry :=
  if s.regs .iprv = trapPrv s.regs cause then s.tlb else emptiedTlb s.tlb

/-- The machine after a trap, with the dirty page map `d`. -/
def RunState.trapped (m : RunState) (pc cause tval : Word) (d : Nat → Bool) : RunState :=
  m.withState { m.s with
    regs := trapRegs m.s.regs pc cause tval, tlb := trapTlb m.s cause, dirty := d }

def trapWrites : List Reg :=
  [.icycleinstret, .scause, .sepc, .stval, .mcause, .mepc, .mtval, .mstatus, .iprv, .ilrsc]

theorem RunState.trapped_regs (hr : r ∉ trapWrites) (pc cause tval : Word) (d : Nat → Bool) :
    (m.trapped pc cause tval d).s.regs r = m.s.regs r := by
  simp only [trapWrites, mem_cons, not_mem_nil, or_false, not_or] at hr
  simp only [trapped, withState_s, trapRegs]
  split_ifs
  · cases r <;> simp_all [trapRegsS]
  · cases r <;> simp_all [trapRegsM]

theorem wlp_setPrv
    (h : ∀ d, post () (m.withState { m.s with
      regs := update (update m.s.regs .iprv prv) .ilrsc (-1)
      tlb := emptiedTlb m.s.tlb, dirty := d })) :
    Wlp ((setPrv prv).exec fuel) post m := by
  simp only [setPrv, wlp_run_bind, wlp_write]
  exact wlp_flushAllTlb h

theorem wlp_isDelegated {post : Post Bool} :
    Wlp ((isDelegated (m.s.regs .iprv) cause).exec fuel) post m ↔
      post (delegated m.s.regs cause) m := by
  unfold isDelegated delegated
  by_cases hprv : m.s.regs .iprv ≤ prvS
  · by_cases hc : cause &&& mcauseInterruptFlag = 0 <;>
      simp only [hprv, hc, run_bind, run_pure, wlp_bind, wlp_read, wlp_pure,
        ne_eq, not_true_eq_false, not_false_eq_true, if_true, if_false, decide_true, Bool.true_and]
  · simp [hprv]

section TrapRegs
variable (regs : Reg → Word) (pc cause tval : Word)

theorem trapRegsS_eq : trapRegsS regs pc cause tval =
    let regs' := update (update (update (update (update
      regs .icycleinstret (regs .icycleinstret + 1)) .scause cause) .sepc pc)
      .stval (trapValue cause tval)) .mstatus (mstatusTrapS (regs .mstatus) (regs .iprv))
    if regs .iprv = prvS then regs' else update (update regs' .iprv prvS) .ilrsc (-1) := by
  by_cases hp : regs .iprv = prvS <;> funext r <;> cases r <;> simp [trapRegsS, update, hp]

theorem trapRegsM_eq : trapRegsM regs pc cause tval =
    let regs' := update (update (update (update (update
      regs .icycleinstret (regs .icycleinstret + 1)) .mcause cause) .mepc pc)
      .mtval (trapValue cause tval)) .mstatus (mstatusTrapM (regs .mstatus) (regs .iprv))
    if regs .iprv = prvM then regs' else update (update regs' .iprv prvM) .ilrsc (-1) := by
  by_cases hp : regs .iprv = prvM <;> funext r <;> cases r <;> simp [trapRegsM, update, hp]

end TrapRegs

/-- Raising an exception or an interrupt traps to the handler. -/
theorem wlp_raiseException {pc tval : Word} {post : Post Word}
    (h : ∀ d, post (trapVector m.s.regs cause) (m.trapped pc cause tval d)) :
    Wlp ((raiseException pc cause tval).exec fuel) post m := by
  unfold trapped trapVector trapRegs trapTlb trapPrv at h
  simp only [raiseException, wlp_run_bind, wlp_read, wlp_isDelegated, wlp_write,
    wlp_run_ite]
  refine ⟨fun hd => ?_, fun hd => ?_⟩
  on_goal 1 => simp only [hd, if_true, trapRegsS_eq] at h
  on_goal 2 => simp only [hd, Bool.false_eq_true, if_false, trapRegsM_eq] at h
  all_goals
    refine ⟨fun hp => wlp_setPrv fun d => ?_, fun hp => ?_⟩
    · simpa [hp] using h d
    · simp only [if_pos (not_not.mp hp)] at h
      exact h m.s.dirty

theorem succeeds_setPrv (h : m.TlbRetirable) : Succeeds ((setPrv prv).exec fuel) m := by
  simp only [setPrv, run_bind, succeeds_bind, succeeds_write, wlp_write, true_and]
  exact ⟨succeeds_flushAllTlb h, fun _ _ _ => trivial⟩

theorem succeeds_isDelegated : Succeeds ((isDelegated prv cause).exec fuel) m := by
  simp [isDelegated]

theorem succeeds_raiseException {pc tval : Word} (h : m.TlbRetirable) :
    Succeeds ((raiseException pc cause tval).exec fuel) m := by
  simp only [raiseException, run_bind, succeeds_bind, wlp_read, wlp_isDelegated, wlp_write,
    run_ite, succeeds_read, succeeds_write, succeeds_isDelegated, succeeds_ite, wlp_true, true_and,
    and_true, implies_true]
  exact ⟨fun _ _ => succeeds_setPrv h, fun _ _ => succeeds_setPrv h⟩

end MachineEmulator.Interpret
