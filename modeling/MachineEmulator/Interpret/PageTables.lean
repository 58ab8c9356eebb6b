import MachineEmulator.Interpret.Translation

/-!
# Page tables

What a translation leaves in memory. The bits of the leaf are set by a write to memory that is not checked:
it fails if the leaf lies in memory that can be read but not written, such as the buffer for incoming data.

* `LeafMarked` : the leaf is marked as accessed, and as dirty after a write;
* `leaf_marked_iff` : it is, exactly if it was before or lies in memory that can be written.
-/

namespace MachineEmulator.Interpret

open RunState Bits Option BitVec List

variable {fuel : Nat} {m : RunState}

/-! ## The leaf -/

variable {leaf : PteLeaf} {paddr : Word} {xwr : Xwr} {n index : Nat}

theorem findLeaf_addr {ram : Word → Option Word} {vaddr : Word} {levels : Nat} {pteBase : Word}
    (h : findLeaf ram vaddr levels pteBase = some leaf) : ram leaf.addr = some leaf.pte := by
  induction levels generalizing pteBase with
  | zero => cases h
  | succ levels ih =>
    rw [findLeaf] at h
    split at h
    · cases h
    · rename_i pte hpte
      split_ifs at h
      · exact ih h
      · cases h
        exact hpte

theorem ramWord_eq {val : Word} (h : m.ramWord paddr = some val) : val = memWord m.s.mem paddr := by
  unfold ramWord at h
  split at h
  · cases h
  · split_ifs at h
    exact (some.inj h).symm

theorem RunState.leafFor.pte_eq {vaddr : Word} (h : m.leafFor vaddr xwr leaf) :
    memWord m.s.mem leaf.addr = leaf.pte := by
  obtain ⟨levels, -, -, hleaf, -⟩ := h
  exact (ramWord_eq (findLeaf_addr hleaf)).symm

theorem memWord_ramWritten (paddr val : Word) : memWord (m.ramWritten paddr val).s.mem paddr = val := by
  have hlen : (toLE 8 val.toNat).length = 8 := length_toLE 8 val.toNat
  have hread : readBytes (writeBytes m.s.mem paddr.toNat (toLE 8 val.toNat)) paddr.toNat 8 = toLE 8 val.toNat := by
    nth_rewrite 2 [← hlen]
    exact readBytes_writeBytes_same _ _ _
  show BitVec.ofNat 64 (ofLE (readBytes (writeBytes m.s.mem paddr.toNat (toLE 8 val.toNat)) paddr.toNat 8)) = val
  rw [hread, ofLE_toLE]
  apply eq_of_toNat_eq
  have hval : val.toNat < 256 ^ 8 := val.isLt
  rw [toNat_ofNat, Nat.mod_eq_of_lt hval, Nat.mod_eq_of_lt val.isLt]

/-! ## Success -/

/-- The table of ranges ends with a sentinel, as the constructor of machines requires. -/
def RunState.TableEnds (m : RunState) : Prop := m.ranges.length < pmaMax

theorem exists_searchPmas {pmas : List PmaEntry} {k : Nat} {q : PmaEntry} (hk : pmas[k]? = some q)
    (hq : q.length = 0) (size : MemSize) (paddr : Word) (hle : index ≤ k) (hlt : k ≤ index + n) :
    ∃ pma, searchPmas pmas size paddr n index = some pma := by
  induction n generalizing index with
  | zero =>
    obtain rfl : index = k := by omega
    exact ⟨q, hk⟩
  | succ n ih =>
    obtain ⟨pma, hpma⟩ : ∃ pma, pmas[index]? = some pma := by
      have hlen : k < pmas.length := (List.getElem?_eq_some_iff.mp hk).1
      exact ⟨pmas[index], getElem?_eq_getElem (by omega)⟩
    rw [searchPmas, hpma]
    dsimp only
    split_ifs with hzero hin
    · exact ⟨pma, rfl⟩
    · exact ⟨pma, rfl⟩
    · have hne : index ≠ k := by
        rintro rfl
        rw [hk] at hpma
        cases hpma
        exact hzero hq
      exact ih (by omega) (by omega)

/-- A range that was found is a sentinel or has the word in it. -/
theorem mem_of_searchPmas {pmas : List PmaEntry} {size : MemSize} {pma : PmaEntry}
    (hlen : pmas.length ≤ index + n) (h : searchPmas pmas size paddr n index = some pma) :
    pma ∈ pmas ∧ (pma.length = 0 ∨ paddr - pma.start ≤ pma.length - size.sizeof) := by
  induction n generalizing index with
  | zero =>
    rw [searchPmas, List.getElem?_eq_none (by omega)] at h
    cases h
  | succ n ih =>
    rw [searchPmas] at h
    split at h
    · cases h
    · rename_i q hq
      split_ifs at h with hzero hin
      · cases h
        exact ⟨mem_of_getElem? hq, .inl hzero⟩
      · cases h
        exact ⟨mem_of_getElem? hq, .inr hin.2⟩
      · exact ih (by omega) h

namespace RunState.TableEnds
variable (h : m.TableEnds)
include h

theorem length_pmas : m.pmas.length = pmaMax := by
  have hlt : m.ranges.length < pmaMax := h
  simp only [pmas, length_append, length_map, length_range']
  omega

theorem exists_searchPma (size : MemSize) (paddr : Word) : ∃ pma, m.searchPma size paddr = some pma := by
  have hlt : m.ranges.length < pmaMax := h
  have hsentinel : m.pmas[m.ranges.length]? = some (sentinelPma m.ranges.length) := by
    rw [pmas, getElem?_append_right (Nat.le_refl _), Nat.sub_self, getElem?_map,
      getElem?_range' (by omega)]
    rfl
  exact exists_searchPmas hsentinel rfl size paddr (Nat.zero_le _) (by omega)

theorem lt_length {pma : PmaEntry} (hp : m.searchPma .u64 paddr = some pma)
    (hM : pma.istartM = true) : paddr - pma.start < pma.length := by
  obtain ⟨hmem, hin⟩ := mem_of_searchPmas (by rw [h.length_pmas, Nat.zero_add]) hp
  have hpaged : pma.Paged := by
    -- neither VirtIO devices nor sentinels are memory
    rcases mem_append.mp hmem with hmem | hmem
    · rcases mem_append.mp hmem with hmem | hmem
      · exact m.s.board.wellFormed.paged pma hmem
      · obtain ⟨i, hi, rfl⟩ := mem_mapIdx.mp hmem
        cases hM
    · obtain ⟨i, -, rfl⟩ := mem_map.mp hmem
      cases hM
  have hpos := hpaged.length_pos
  have hmod := hpaged.length_mod
  have hsize : MemSize.u64.sizeof.toNat = 8 := rfl
  simp only [pmaPageSize] at hmod
  rcases hin with hin | hin
  · rw [hin] at hpos
    cases hpos
  · have hlen : (pma.length - MemSize.u64.sizeof).toNat = pma.length.toNat - 8 :=
      toNat_sub_of_le (le_def.mpr (by omega))
    rw [le_def, hlen] at hin
    rw [lt_def]
    omega

end RunState.TableEnds

theorem succeeds_query {f : RunState → Except Fault α} (h : ∃ a, f m = .ok a) : Succeeds (EStateM.query f) m := by
  obtain ⟨a, ha⟩ := h
  exact ⟨a, m, EStateM.query_ok_iff.mpr ⟨ha, rfl⟩⟩

theorem succeeds_findPmaEntryFrom {size : MemSize}
    (h : ∃ pma, searchPmas m.pmas size paddr n index = some pma) :
    Succeeds ((findPmaEntryFrom size paddr n index).exec fuel) m := by
  have hread : ∀ {i pma}, m.pmas[i]? = some pma → Succeeds ((readPmaEntry i).exec fuel) m := by
    intro i pma hp
    exact succeeds_op.mpr (succeeds_query ⟨pma, by rw [hp]⟩)
  induction n generalizing index with
  | zero =>
    obtain ⟨pma, hp⟩ := h
    exact hread hp
  | succ n ih =>
    simp only [findPmaEntryFrom, searchPmas] at h ⊢
    cases hp : m.pmas[index]? with
    | none => simp [hp] at h
    | some pma =>
      simp only [hp] at h
      rw [AProg.exec, Prog.run_bind, succeeds_bind, wlp_readPmaEntry]
      refine ⟨hread hp, fun pma' hp' => ?_⟩
      obtain rfl := some.inj (hp.symm.trans hp')
      simp only [Prog.run_ite, succeeds_ite, Prog.run_pure, succeeds_pure, implies_true, true_and]
      intro hzero hout
      rw [if_neg hzero, if_neg hout] at h
      exact ih h

section Success
variable (h : m.TableEnds)
include h

theorem succeeds_findPma (size : MemSize) (paddr : Word) :
    Succeeds ((findPma size paddr).exec fuel) m :=
  succeeds_findPmaEntryFrom (h.exists_searchPma size paddr)

theorem succeeds_readRamUint64 (paddr : Word) : Succeeds ((readRamUint64 paddr).exec fuel) m := by
  simp only [readRamUint64, Prog.run_bind, succeeds_bind, wlp_findPma, Prog.run_ite, succeeds_ite, Prog.run_pure,
    succeeds_pure, implies_true, true_and, wlp_getHostMemory]
  exact ⟨succeeds_findPma h _ _, fun pma _ _ => ⟨⟨_, m, rfl⟩, ⟨_, m, rfl⟩, wlp_true⟩⟩

theorem succeeds_writeRamUint64 (paddr val : Word) :
    Succeeds ((writeRamUint64 paddr val).exec fuel) m := by
  simp only [writeRamUint64, Prog.run_bind, succeeds_bind, wlp_findPma, Prog.run_ite, succeeds_ite, Prog.run_pure,
    succeeds_pure, implies_true, true_and, wlp_getHostMemory, wlp_writeMemoryWord]
  refine ⟨succeeds_findPma h _ _, fun pma hp hw => ⟨⟨_, m, rfl⟩, ⟨_, _, rfl⟩, fun s' hs => ⟨?_, wlp_true⟩⟩⟩
  have hM : pma.istartM = true ∧ pma.flags.W = true := by simpa using hw
  have hmark : markDirty s' pma (paddr - pma.start) =
      .ok (s'.markDirtyPage ((pma.start + (paddr - pma.start)).toNat / pmaPageSize)) := by
    rw [markDirty, if_pos hM.1, if_pos (h.lt_length hp hM.1)]
  exact succeeds_op.mpr (succeeds_updateState ⟨_, hmark⟩)

theorem succeeds_walk (updatePte : Bool) (prv mstatus vaddr : Word) (xwr : Xwr) (levels : Nat) (pteBase : Word) :
    Succeeds ((walk updatePte prv mstatus vaddr xwr levels pteBase).exec fuel) m := by
  induction levels generalizing pteBase with
  | zero => exact succeeds_pure
  | succ levels ih =>
    rw [walk, AProg.exec, Prog.run_bind, succeeds_bind]
    refine ⟨succeeds_readRamUint64 h _, wlp_readRamUint64 ?_⟩
    cases m.ramWord _ with
    | none => exact succeeds_pure
    | some pte =>
      simp only [Prog.run_ite, succeeds_ite, Prog.run_pure, succeeds_pure, implies_true, true_and, and_true]
      refine fun _ _ => ⟨fun _ => ih _, fun _ _ _ => ?_⟩
      rw [Prog.run_bind, succeeds_bind]
      exact ⟨succeeds_writeRamUint64 h _ _, fun _ _ _ => succeeds_pure⟩

theorem succeeds_translateVirtualAddress (updatePte : Bool) (vaddr : Word) (xwr : Xwr) :
    Succeeds ((translateVirtualAddress updatePte vaddr xwr).exec fuel) m := by
  simp only [translateVirtualAddress, Prog.run_bind, succeeds_bind, succeeds_read, wlp_read, Prog.run_ite,
    succeeds_ite, Prog.run_pure, succeeds_pure, implies_true, true_and]
  intro _ _
  cases satpLevels (m.s.regs .satp >>> satpModeShift) with
  | none => exact succeeds_pure
  | some levels =>
    simp only [Prog.run_ite, succeeds_ite, Prog.run_pure, succeeds_pure, implies_true, and_true]
    exact fun _ => succeeds_walk h _ _ _ _ _ _ _

theorem run_translateVirtualAddress (updatePte : Bool) (vaddr : Word) (xwr : Xwr) :
    (translateVirtualAddress updatePte vaddr xwr).run (stateAccess fuel) m =
      .ok (m.translate vaddr xwr) (if updatePte then m.translated vaddr xwr else m) := by
  obtain ⟨r, m', hrun, rfl, rfl⟩ :=
    (succeeds_translateVirtualAddress h updatePte vaddr xwr).exists_of_wlp wlp_translate_eq
  exact hrun

end Success

/-! ## Marks -/

/-- The entry is marked as accessed, and as dirty if the access is a write. -/
def IsMarked (pte : Word) (xwr : Xwr) : Prop :=
  pte &&& pteAMask ≠ 0 ∧ (xwr = .write → pte &&& pteDMask ≠ 0)

theorem isMarked_pteUpdate (pte : Word) (xwr : Xwr) : IsMarked (pteUpdate pte xwr) xwr := by
  have hA : pteAMask &&& pteAMask ≠ 0 := by decide
  have hD : pteDMask &&& pteDMask ≠ 0 := by decide
  unfold pteUpdate
  split_ifs with hw
  · refine ⟨fun h => hA ?_, fun _ h => hD (or_and_eq_zero_iff.mp h).2⟩
    exact (or_and_eq_zero_iff.mp (or_and_eq_zero_iff.mp h).1).2
  · exact ⟨fun h => hA (or_and_eq_zero_iff.mp h).2, fun hw' => absurd hw' hw⟩

theorem pteUpdate_eq_self_iff {pte : Word} : pte = pteUpdate pte xwr ↔ IsMarked pte xwr := by
  constructor
  · intro h
    rw [h]
    exact isMarked_pteUpdate pte xwr
  · rintro ⟨hA, hD⟩
    have hA' : pte ||| pteAMask = pte := or_twoPow_eq_self (k := 6) hA
    unfold pteUpdate
    split_ifs with hw
    · rw [hA']
      exact (or_twoPow_eq_self (k := 7) (hD hw)).symm
    · exact hA'.symm

/-- The leaf is marked in memory, and nothing else in memory was changed. -/
structure LeafMarked (m : RunState) (leaf : PteLeaf) (xwr : Xwr) (m' : RunState) : Prop where
  marked : IsMarked (memWord m'.s.mem leaf.addr) xwr
  same : ∀ a, a < leaf.addr.toNat ∨ leaf.addr.toNat + 8 ≤ a → m'.s.mem a = m.s.mem a

theorem leafMarked_pteMarked (hpte : memWord m.s.mem leaf.addr = leaf.pte) :
    LeafMarked m leaf xwr (m.pteMarked leaf xwr) ↔ IsMarked leaf.pte xwr ∨ m.ramWritable leaf.addr = true := by
  unfold pteMarked
  by_cases hmarked : IsMarked leaf.pte xwr
  · rw [if_neg fun h => h.1 (pteUpdate_eq_self_iff.mpr hmarked)]
    exact iff_of_true ⟨by rwa [hpte], fun _ _ => rfl⟩ (.inl hmarked)
  · by_cases hwritable : m.ramWritable leaf.addr = true
    · rw [if_pos ⟨fun h => hmarked (pteUpdate_eq_self_iff.mp h), hwritable⟩]
      refine iff_of_true ⟨?_, fun a ha => writeBytes_of_not_mem (by rwa [length_toLE])⟩ (.inr hwritable)
      rw [memWord_ramWritten]
      exact isMarked_pteUpdate leaf.pte xwr
    · rw [if_neg fun h => hwritable h.2]
      refine iff_of_false (fun h => hmarked ?_) fun h => h.elim hmarked hwritable
      rw [← hpte]
      exact h.marked

/-- After a translation that succeeds, the leaf is marked for the access and nothing else in memory was changed,
exactly if it was marked before or lies in memory that can be written. -/
theorem leaf_marked_iff (fuel : Nat) (m : RunState) (vaddr : Word) (xwr : Xwr) (paddr : Word) (m' : RunState)
    (hbare : ¬ IsBare m.s.regs xwr)
    (hrun : (translateVirtualAddress true vaddr xwr).run (stateAccess fuel) m = .ok (some paddr) m') :
    ∃ leaf, m.leafFor vaddr xwr leaf ∧ paddr = leaf.paddr vaddr ∧
      (LeafMarked m leaf xwr m' ↔ IsMarked leaf.pte xwr ∨ m.ramWritable leaf.addr = true) := by
  obtain ⟨hpaddr, hm'⟩ := wlp_translate_eq _ _ hrun
  rw [RunState.translate, if_neg hbare] at hpaddr
  rw [if_pos rfl, translated, if_neg hbare] at hm'
  obtain ⟨leaf, hleaf, hpaddr⟩ := map_eq_some_iff.mp hpaddr.symm
  rw [hleaf] at hm'
  have hfor := findLeafFor_eq_some.mp hleaf
  refine ⟨leaf, hfor, hpaddr.symm, ?_⟩
  rw [hm']
  exact leafMarked_pteMarked hfor.pte_eq

/-- A machine in supervisor mode whose page table at `base` maps a gigabyte of RAM to itself, with a leaf that
is not marked. -/
def tableMachine (base : Word) : RunState :=
  let m := RunState.small [(.iprv, prvS), (.satp, (satpModeSv39 <<< satpModeShift) ||| (base >>> log2PageSize))]
  m.withState (m.s.setMem (writeBytes m.s.mem (base.toNat + 16) (toLE 8 0x2000000f)))

/-- A leaf in the buffer for incoming data is not marked. -/
theorem leaf_unmarked : ∃ m' leaf, (translateVirtualAddress true pmaRamStart .write).run (stateAccess 0)
        (tableMachine pmaCmioRxBufferStart) = .ok (some pmaRamStart) m' ∧
      ¬ IsBare (tableMachine pmaCmioRxBufferStart).s.regs .write ∧
      (tableMachine pmaCmioRxBufferStart).leafFor pmaRamStart .write leaf ∧
      memWord m'.s.mem leaf.addr &&& pteAMask = 0 ∧ memWord m'.s.mem leaf.addr &&& pteDMask = 0 := by
  have hrun : ((translateVirtualAddress true pmaRamStart .write).run (stateAccess 0)).succeedsWith
      (tableMachine pmaCmioRxBufferStart) (fun r m' => r = some pmaRamStart ∧
        memWord m'.s.mem (pmaCmioRxBufferStart + 16) = 0x2000000f) = true := by
    decide
  have hbare : ¬ IsBare (tableMachine pmaCmioRxBufferStart).s.regs .write := by decide
  have hleaf : (tableMachine pmaCmioRxBufferStart).findLeafFor pmaRamStart .write =
      some ⟨pmaCmioRxBufferStart + 16, 0x2000000f, 0x3fffffff⟩ := by
    decide
  obtain ⟨r, m', hrun, hm'⟩ := EStateM.exists_of_succeedsWith hrun
  obtain ⟨rfl, hpte⟩ := of_decide_eq_true hm'
  refine ⟨m', _, hrun, hbare, findLeafFor_eq_some.mp hleaf, ?_⟩
  rw [hpte]
  decide

/-- A leaf in RAM is marked. -/
theorem leaf_marked_ram : ∃ m' leaf, (translateVirtualAddress true pmaRamStart .write).run (stateAccess 0)
        (tableMachine pmaRamStart) = .ok (some pmaRamStart) m' ∧
      (tableMachine pmaRamStart).leafFor pmaRamStart .write leaf ∧ ¬ IsMarked leaf.pte .write ∧
      LeafMarked (tableMachine pmaRamStart) leaf .write m' := by
  have hrun : ((translateVirtualAddress true pmaRamStart .write).run (stateAccess 0)).succeedsWith
      (tableMachine pmaRamStart) (fun r _ => r = some pmaRamStart) = true := by
    decide
  have hbare : ¬ IsBare (tableMachine pmaRamStart).s.regs .write := by decide
  have hleaf : (tableMachine pmaRamStart).findLeafFor pmaRamStart .write =
      some ⟨pmaRamStart + 16, 0x2000000f, 0x3fffffff⟩ := by
    decide
  obtain ⟨r, m', hrun, hm'⟩ := EStateM.exists_of_succeedsWith hrun
  obtain rfl := of_decide_eq_true hm'
  obtain ⟨leaf, hfor, -, hiff⟩ := leaf_marked_iff 0 _ _ _ _ _ hbare hrun
  obtain rfl := some.inj (hleaf.symm.trans (findLeafFor_eq_some.mpr hfor))
  have hwritable : (tableMachine pmaRamStart).ramWritable (pmaRamStart + 16) = true := by decide
  exact ⟨m', _, hrun, hfor, fun h => absurd h.1 (by decide), hiff.mpr (.inr hwritable)⟩

end MachineEmulator.Interpret
