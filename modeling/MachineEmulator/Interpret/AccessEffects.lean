import MachineEmulator.Interpret.DeviceEffects
import MachineEmulator.Interpret.Loop
import MachineEmulator.Interpret.Translation

/-!
# What loads, stores and fetches do to a machine

* `RunState.filled` : the machine after a translation went to the TLB;
* `LoadEffect`, `StoreEffect`, `FetchEffect` : the outcomes of an access. Each is inverted once here, and
  what accesses keep is read off the cases.
-/

namespace MachineEmulator.Interpret

open EStateM RunState

variable {fuel : Nat} {m : RunState}

/-! ## The TLB -/

variable {t : TlbSet} {size : MemSize} {vaddr val pc cause : Word} {m' : RunState} {r : Reg}

theorem wlp_translateVaddrViaTlb {post : Post (Option HostAddr)} :
    Wlp ((translateVaddrViaTlb t size vaddr).exec fuel) post m ↔
      post (tlbLookup m.s t size vaddr) m :=
  (wlp_op (o := .translateVaddrViaTlb t size vaddr)).trans
    (wlp_query_ok (f := fun m : RunState => tlbLookup m.s t size vaddr))

theorem wlp_readMemoryWordViaTlb
    {post : Post (Option Word)} (hmiss : tlbLookup m.s t size vaddr = none → post none m)
    (hhit : ∀ hptr v, tlbLookup m.s t size vaddr = some hptr → loadHost m.s size hptr = .ok v →
      post (some v) m) : Wlp ((readMemoryWordViaTlb t size vaddr).exec fuel) post m := by
  refine (wlp_op (o := .readMemoryWordViaTlb t size vaddr)).mpr (wlp_query.mpr fun r hr => ?_)
  split at hr
  · rename_i hptr hl
    cases hv : loadHost m.s size hptr with
    | error e => simp [hv, Except.map] at hr
    | ok v =>
      rw [hv] at hr
      exact Except.ok.inj hr ▸ hhit hptr v hl hv
  · rename_i hl
    exact Except.ok.inj hr ▸ hmiss hl

theorem wlp_writeMemoryWordViaTlb
    {post : Post Bool} (hmiss : tlbLookup m.s t size vaddr = none → post false m)
    (hhit : ∀ hptr s', tlbLookup m.s t size vaddr = some hptr → storeHost m.s size val hptr = .ok s' →
      post true (m.withState s')) :
    Wlp ((writeMemoryWordViaTlb t size vaddr val).exec fuel) post m := by
  refine (wlp_op (o := .writeMemoryWordViaTlb t size vaddr val)).mpr fun b m' hb => ?_
  dsimp only [stateAccess, baseAccess] at hb
  split at hb
  · rename_i hptr hl
    obtain ⟨u, m1, h1, h2⟩ := bind_ok_iff.mp hb
    obtain ⟨rfl, rfl⟩ := pure_ok_iff.mp h2
    have hstore : Wlp (updateState fun m => storeHost m.s size val hptr) (fun _ => post true) m :=
      wlp_updateState.mpr fun s' hs => hhit hptr s' hl hs
    exact hstore u m1 h1
  · rename_i hl
    obtain ⟨rfl, rfl⟩ := Result.ok.inj hb
    exact hmiss hl

/-- The machine after a translation went to the TLB, with the dirty page map `d`. -/
def RunState.filled (m : RunState) (t : TlbSet) (vaddr paddr : Word) (pma : PmaEntry)
    (d : Nat → Bool) : RunState :=
  m.withState { m.s.setTlb t (tlbGetEntryIndex vaddr) (tlbEntryFor vaddr paddr pma) with dirty := d }

theorem wlp_replaceTlbEntry {paddr : Word} {pma : PmaEntry} {post : Post HostAddr}
    (h : ∀ d, post (hostPage paddr pma) (m.filled t vaddr paddr pma d)) :
    Wlp ((replaceTlbEntry t vaddr paddr pma).exec fuel) post m := by
  refine (wlp_op (o := .replaceTlbEntry t vaddr paddr pma)).mpr ?_
  refine wlp_bind.mpr (wlp_updateState.mpr fun s' hs => wlp_pure.mpr ?_)
  obtain ⟨s1, h1, h2⟩ := except_bind_ok_iff.mp hs
  cases h2
  rw [retireTlbEntry_eq h1]
  exact h s1.dirty

theorem wlp_readHostWord {hptr : HostAddr} {post : Post Word} :
    Wlp ((readHostWord size hptr).exec fuel) post m ↔
      ∀ v, loadHost m.s size hptr = .ok v → post v m :=
  (wlp_op (o := .readHostWord size hptr)).trans wlp_query

/-! ## Loads -/

section
variable {xwr : Xwr}

theorem Translation.rest {updatePte : Bool} {r : Option Word} (h : Translation m updatePte vaddr xwr r m') :
    m'.s.board = m.s.board ∧ m'.vdevs = m.vdevs ∧ m'.uarch = m.uarch := by
  cases h with
  | bare | fault => exact ⟨rfl, rfl, rfl⟩
  | mapped hbare hleaf hm =>
    rcases hm with rfl | ⟨-, -, -, rfl⟩ <;> exact ⟨rfl, rfl, rfl⟩

theorem translated_regs : (m.translated vaddr xwr).s.regs = m.s.regs :=
  (translation_translate (m := m) true vaddr xwr).regs

theorem translated_searchPma {paddr : Word} :
    (m.translated vaddr xwr).searchPma size paddr = m.searchPma size paddr := by
  obtain ⟨hboard, hvdevs, -⟩ := (translation_translate (m := m) true vaddr xwr).rest
  rw [searchPma, searchPma]
  exact congrArg (searchPmas · size paddr pmaMax 0) (pmas_congr hboard (congrArg (List.map _) hvdevs))

/-- The machine when an access is known to fail: a translation may have come before. -/
def RunState.Translated (m : RunState) (vaddr : Word) (xwr : Xwr) (m' : RunState) : Prop :=
  m' = m ∨ ∃ paddr, Translation m true vaddr xwr (some paddr) m'

theorem RunState.Translated.regs (h : m.Translated vaddr xwr m') : m'.s.regs = m.s.regs := by
  rcases h with rfl | ⟨paddr, htr⟩
  · rfl
  · exact htr.regs

theorem RunState.Translated.tlb (h : m.Translated vaddr xwr m') : m'.s.tlb = m.s.tlb := by
  rcases h with rfl | ⟨paddr, htr⟩
  · rfl
  · exact htr.tlb

end

inductive LoadEffect (m : RunState) (size : MemSize) (pc vaddr : Word) : LoadResult → RunState → Prop
  | hit {hptr : HostAddr} {v : Word} (hl : tlbLookup m.s .read size vaddr = some hptr)
    (hv : loadHost m.s size hptr = .ok v) : LoadEffect m size pc vaddr (.ok v) m
  | memory {paddr : Word} {m1 : RunState} {pma : PmaEntry} {d : Nat → Bool} {v : Word}
    (htr : Translation m true vaddr .read (some paddr) m1) (hp : m1.searchPma size paddr = some pma)
    (hR : pma.flags.R = true) (hM : pma.istartM = true)
    (hv : loadHost m1.s size ((hostPage paddr pma).add (vaddr &&& pageOffsetMask)) = .ok v) :
    LoadEffect m size pc vaddr (.ok v) (m1.filled .read vaddr paddr pma d)
  | device {paddr v : Word} {m1 m2 : RunState} {pma : PmaEntry}
    (htr : Translation m true vaddr .read (some paddr) m1) (hp : m1.searchPma size paddr = some pma)
    (hR : pma.flags.R = true) (hio : pma.istartIO = true) (hdev : DeviceReadEffect m1 (some v) m2) :
    LoadEffect m size pc vaddr (.ok (size.truncate v)) m2
  | raised {m1 : RunState} {cause : Word} {d : Nat → Bool} (htr : m.Translated vaddr .read m1) :
    LoadEffect m size pc vaddr (.error (trapVector m1.s.regs cause)) (m1.trapped pc cause vaddr d)

/-- A load writes no registers but those of devices and traps. -/
theorem LoadEffect.regs {x : LoadResult}
    (h : LoadEffect m size pc vaddr x m') (hdev : r ∉ deviceRegs) (htrap : r ∉ trapWrites) :
    m'.s.regs r = m.s.regs r := by
  cases h with
  | hit => rfl
  | memory htr => exact congrFun htr.regs r
  | device htr hp hR hio hd => exact (hd.deviceFrame.regs r hdev).trans (congrFun htr.regs r)
  | raised htr => exact (trapped_regs htrap _ _ _ _).trans (congrFun htr.regs r)

theorem wlp_raiseLoad {post : Post LoadResult}
    (h : ∀ d, post (.error (trapVector m.s.regs cause)) (m.trapped pc cause vaddr d)) :
    Wlp ((raiseLoad pc cause vaddr).exec fuel) post m := by
  simp only [raiseLoad, wlp_run_bind, wlp_run_pure]
  exact wlp_raiseException h

theorem wlp_readVirtualMemory {raiseStore : Bool} {mcycle : Word}
    {post : Post LoadResult} (h : ∀ r m', LoadEffect m size pc vaddr r m' → post r m') :
    Wlp ((readVirtualMemory size raiseStore pc mcycle vaddr).exec fuel) post m := by
  rw [readVirtualMemory, wlp_run_bind]
  refine wlp_readMemoryWordViaTlb (fun _ => ?_) fun hptr v hl hv => wlp_pure.mpr (h _ _ (.hit hl hv))
  -- a miss
  simp only [readVirtualMemorySlow, wlp_run_ite]
  refine ⟨fun _ => wlp_raiseLoad fun d => h _ _ (.raised (.inl rfl)), fun _ => ?_⟩
  rw [wlp_run_bind]
  refine wlp_translateVirtualAddress fun r m1 htr => ?_
  cases r with
  | none =>
    cases htr with
    | fault hbare hno => exact wlp_raiseLoad fun d => h _ _ (.raised (.inl rfl))
  | some paddr =>
    have hm1 : m.Translated vaddr .read m1 := .inr ⟨paddr, htr⟩
    simp only [wlp_run_bind, wlp_findPma, wlp_run_ite, Bool.and_eq_true]
    intro pma hp
    refine ⟨fun hmem => wlp_replaceTlbEntry fun d => ?_, fun hmem => ⟨fun hio => wlp_deviceRead
      fun r m2 hdev => ?_, fun hio => wlp_raiseLoad fun d => h _ _ (.raised hm1)⟩⟩
    · rw [wlp_readMemoryWord]
      exact fun v hv => wlp_pure.mpr (h _ _ (.memory htr hp hmem.1 hmem.2 hv))
    · cases r with
      | none =>
        cases hdev
        exact wlp_raiseLoad fun d => h _ _ (.raised hm1)
      | some v => exact wlp_pure.mpr (h _ _ (.device htr hp hio.1 hio.2 hdev))

/-! ## Stores -/

theorem storeHost_regs {s s' : MachineState} {hptr : HostAddr}
    (h : storeHost s size val hptr = .ok s') : s'.regs = s.regs := by
  cases hptr with
  | board p =>
    cases h
    rfl
  | raw p => cases h

inductive StoreEffect (m : RunState) (size : MemSize) (pc vaddr val : Word) :
    StoreResult → RunState → Prop
  | hit {hptr : HostAddr} {s' : MachineState} (hl : tlbLookup m.s .write size vaddr = some hptr)
    (hs : storeHost m.s size (size.truncate val) hptr = .ok s') :
    StoreEffect m size pc vaddr val (.success, pc) (m.withState s')
  | memory {paddr : Word} {m1 : RunState} {pma : PmaEntry} {d : Nat → Bool} {s' : MachineState}
    (htr : Translation m true vaddr .write (some paddr) m1) (hp : m1.searchPma size paddr = some pma)
    (hW : pma.flags.W = true) (hM : pma.istartM = true)
    (hs : storeHost (m1.filled .write vaddr paddr pma d).s size (size.truncate val)
      ((hostPage paddr pma).add (vaddr &&& pageOffsetMask)) = .ok s') :
    StoreEffect m size pc vaddr val (.success, pc)
      ((m1.filled .write vaddr paddr pma d).withState s')
  | device {paddr : Word} {m1 m2 : RunState} {pma : PmaEntry} {status : ExecuteStatus}
    (htr : Translation m true vaddr .write (some paddr) m1) (hp : m1.searchPma size paddr = some pma)
    (hW : pma.flags.W = true) (hio : pma.istartIO = true) (hstatus : status ≠ .failure)
    (hdev : DeviceWriteEffect m1 status m2) : StoreEffect m size pc vaddr val (status, pc) m2
  | raised {m1 : RunState} {cause : Word} {d : Nat → Bool} (htr : m.Translated vaddr .write m1) :
    StoreEffect m size pc vaddr val (.failure, trapVector m1.s.regs cause)
      (m1.trapped pc cause vaddr d)

/-- A store writes no registers but those of devices and traps. -/
theorem StoreEffect.regs {x : StoreResult}
    (h : StoreEffect m size pc vaddr val x m') (hdev : r ∉ deviceRegs) (htrap : r ∉ trapWrites) :
    m'.s.regs r = m.s.regs r := by
  cases h with
  | hit hl hs => exact congrFun (storeHost_regs hs) r
  | memory htr hp hW hM hs => exact congrFun ((storeHost_regs hs).trans htr.regs) r
  | device htr hp hW hio hstatus hd => exact (hd.regs r hdev).trans (congrFun htr.regs r)
  | raised htr => exact (trapped_regs htrap _ _ _ _).trans (congrFun htr.regs r)

theorem wlp_raiseStore {post : Post StoreResult}
    (h : ∀ d, post (.failure, trapVector m.s.regs cause) (m.trapped pc cause vaddr d)) :
    Wlp ((raiseStore pc cause vaddr).exec fuel) post m := by
  simp only [raiseStore, wlp_run_bind, wlp_run_pure]
  exact wlp_raiseException h

theorem wlp_writeVirtualMemory {post : Post StoreResult}
    (h : ∀ r m', StoreEffect m size pc vaddr val r m' → post r m') :
    Wlp ((writeVirtualMemory size pc vaddr val).exec fuel) post m := by
  rw [writeVirtualMemory, wlp_run_bind]
  refine wlp_writeMemoryWordViaTlb (fun _ => ?_) fun hptr s' hl hs => wlp_pure.mpr (h _ _ (.hit hl hs))
  -- a miss
  simp only [Bool.false_eq_true, if_false, writeVirtualMemorySlow, wlp_run_ite]
  refine ⟨fun _ => wlp_raiseStore fun d => h _ _ (.raised (.inl rfl)), fun _ => ?_⟩
  rw [wlp_run_bind]
  refine wlp_translateVirtualAddress fun r m1 htr => ?_
  cases r with
  | none =>
    cases htr with
    | fault hbare hno => exact wlp_raiseStore fun d => h _ _ (.raised (.inl rfl))
  | some paddr =>
    have hm1 : m.Translated vaddr .write m1 := .inr ⟨paddr, htr⟩
    simp only [wlp_run_bind, wlp_findPma, wlp_run_ite, Bool.and_eq_true]
    intro pma hp
    refine ⟨fun hmem => wlp_replaceTlbEntry fun d => ?_, fun hmem => ⟨fun hio => wlp_deviceWrite
      fun status m2 hdev => ?_, fun hio => wlp_raiseStore fun d => h _ _ (.raised hm1)⟩⟩
    · rw [wlp_writeMemoryWord]
      exact fun s' hs => wlp_pure.mpr (h _ _ (.memory htr hp hmem.1 hmem.2 hs))
    · refine ⟨fun hok => wlp_pure.mpr (h _ _ (.device htr hp hio.1 hio.2 hok hdev)), fun hfail => ?_⟩
      rw [hdev.refused (not_not.mp hfail)]
      exact wlp_raiseStore fun d => h _ _ (.raised hm1)

/-! ## Fetches -/

/-- The outcomes of a translation for a fetch. -/
inductive FetchEffect (m : RunState) (pc vaddr : Word) : Fetched HostAddr → RunState → Prop
  | hit {hptr : HostAddr} (hl : tlbLookup m.s .code .u16 vaddr = some hptr) :
    FetchEffect m pc vaddr (.ok hptr) m
  | filled {paddr : Word} {m1 : RunState} {pma : PmaEntry} {d : Nat → Bool}
    (htr : Translation m true vaddr .execute (some paddr) m1) (hp : m1.searchPma .u16 paddr = some pma)
    (hM : pma.istartM = true) (hX : pma.flags.X = true) :
    FetchEffect m pc vaddr (.ok ((hostPage paddr pma).add (vaddr &&& pageOffsetMask)))
      (m1.filled .code vaddr paddr pma d)
  | raised {m1 : RunState} {cause : Word} {d : Nat → Bool} (htr : m.Translated vaddr .execute m1) :
    FetchEffect m pc vaddr (.error (trapVector m1.s.regs cause)) (m1.trapped pc cause vaddr d)

theorem FetchEffect.regs {x : Fetched HostAddr}
    (h : FetchEffect m pc vaddr x m') (htrap : r ∉ trapWrites) : m'.s.regs r = m.s.regs r := by
  cases h with
  | hit => rfl
  | filled htr => exact congrFun htr.regs r
  | raised htr => exact (trapped_regs htrap _ _ _ _).trans (congrFun htr.regs r)

theorem wlp_raiseFetch {α : Type} {post : Post (Fetched α)}
    (h : ∀ d, post (.error (trapVector m.s.regs cause)) (m.trapped pc cause vaddr d)) :
    Wlp ((raiseFetch pc cause vaddr).exec fuel) post m := by
  simp only [raiseFetch, wlp_run_bind, wlp_run_pure]
  exact wlp_raiseException h

theorem wlp_fetchTranslatePc {post : Post (Fetched HostAddr)}
    (h : ∀ r m', FetchEffect m pc vaddr r m' → post r m') :
    Wlp ((fetchTranslatePc pc vaddr).exec fuel) post m := by
  rw [fetchTranslatePc, wlp_run_bind, wlp_translateVaddrViaTlb]
  cases hl : tlbLookup m.s .code .u16 vaddr with
  | some hptr => exact wlp_pure.mpr (h _ _ (.hit hl))
  | none =>
    simp only [fetchTranslatePcSlow, wlp_run_bind]
    refine wlp_translateVirtualAddress fun r m1 htr => ?_
    cases r with
    | none =>
      cases htr with
      | fault hbare hno => exact wlp_raiseFetch fun d => h _ _ (.raised (.inl rfl))
    | some paddr =>
      simp only [wlp_run_bind, wlp_findPma, wlp_run_ite, wlp_run_pure]
      intro pma hp
      refine ⟨fun _ => wlp_raiseFetch fun d => h _ _ (.raised (.inr ⟨paddr, htr⟩)), fun hok =>
        wlp_replaceTlbEntry fun d => h _ _ (.filled htr hp ?_ ?_)⟩
      · by_contra hM
        simp [hM] at hok
      · by_contra hX
        simp [hX] at hok

end MachineEmulator.Interpret
