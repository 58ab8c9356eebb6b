import MachineEmulator.AccessLog
import MachineEmulator.State
import Mathlib.Data.List.Nodup
import Mathlib.Tactic.IntervalCases

/-!
# The bridge from the microarchitecture to the machine state

The microarchitecture sees the registers and the TLB of the machine as words at the addresses of the
shadow ranges.

* `readRegister`, `writeRegister` : the word at an address, and its update;
* `getRegisterName` : how access logs name it;
* `readRegister_eq`, `writeRegister_eq` : both act on the words of the shadow ranges, so a write
  changes the image at its own address only.
-/

namespace MachineEmulator.UarchBridge

open List MachineState

/-- The register whose shadow lies at an address. -/
def shadowRegAt (paddr : Word) : Option ShadowReg :=
  if paddr.toNat % 8 = 0 then shadowStateRegs[paddr.toNat / 8]? else none

/-- The registers the microarchitecture may read: all but `iunrep`. -/
def readable : ShadowReg → Bool
  | .reg .iunrep => false
  | _ => true

/-- The registers the microarchitecture may write. -/
def writable : ShadowReg → Option Reg
  | .reg .iunrep | .reg .htifIhalt | .reg .htifIconsole | .reg .htifIyield => none
  | .reg r => some r
  | .mvendorid | .marchid | .mimpid => none

/-- The position of an address in the words of the shadow TLB. -/
def tlbWordAt (paddr : Word) : Option Nat :=
  if paddr < pmaShadowTlbStart ∨ pmaShadowTlbStart + pmaShadowTlbLength ≤ paddr then none
  else if paddr.toNat % 8 ≠ 0 then none
  else some ((paddr - pmaShadowTlbStart).toNat / 8)

/-- Hot words are even, the odd ones hold host data and cannot be accessed. -/
def hostTlbWord (i : Nat) : Bool := i < 1536 && i % 2 == 1

def tryReadTlb (s : MachineState) (paddr : Word) : Option Word :=
  match tlbWordAt paddr with
  | none => none
  | some i => if hostTlbWord i then none else some (shadowTlbWord s i)

def tryReadPma (s : MachineState) (paddr : Word) : Option Word :=
  if paddr < pmaShadowPmasStart ∨ pmaShadowPmasStart + BitVec.ofNat 64 (pmaMax * 8 * 2) ≤ paddr then
    none
  else
    let wordIndex := (paddr - pmaShadowPmasStart).toNat / 8
    match s.board.pmas[wordIndex / 2]? with
    | none => some 0
    | some pma => some (if wordIndex % 2 = 0 then pma.getIstart else pma.getIlength)

def readRegister (s : MachineState) (paddr : Word) : Except String Word :=
  match (shadowRegAt paddr).filter readable with
  | some r => .ok (s.readShadow r)
  | none =>
    match tryReadTlb s paddr with
    | some v => .ok v
    | none =>
      match tryReadPma s paddr with
      | some v => .ok v
      | none => .error "invalid read memory access from microarchitecture"

/-- The entry of a set after the hot page is written: the host offset is looked up again. -/
def writeTlbVaddrPage (s : MachineState) (e : TlbEntry) (val : Word) : Except String TlbEntry :=
  if val = tlbInvalidPage then .ok { e with vaddrPage := val }
  else if (findPmaEntry s.board.pmas e.paddrPage 8).istartM then
    .ok { e with vaddrPage := val, vhOffset := .board (e.paddrPage - val) }
  else .error "Assertion failed: pma.get_istart_M()"

def tryWriteTlb (s : MachineState) (paddr val : Word) : Except String (Option MachineState) :=
  match tlbWordAt paddr with
  | none => .ok none
  | some i =>
    let set := tlbWordSet i
    let index := tlbWordIndex i
    let e := s.tlb set index
    if hostTlbWord i then .ok none
    else if i < 1536 then do
      let e' ← writeTlbVaddrPage s e val
      .ok (some (s.setTlb set index e'))
    else if i % 2 = 0 then .ok (some (s.setTlb set index { e with paddrPage := val }))
    else .ok (some (s.setTlb set index { e with pmaIndex := val }))

def writeRegister (s : MachineState) (paddr val : Word) : Except String MachineState :=
  match (shadowRegAt paddr).bind writable with
  | some r => .ok (s.writeReg r val)
  | none => do
    match ← tryWriteTlb s paddr val with
    | some s' => .ok s'
    | none => .error "invalid write memory access from microarchitecture"

/-! ## Names -/

def regName : Reg → String
  | .x i => "x" ++ toString i.val
  | .f i => "f" ++ toString i.val
  | .pc => "pc"
  | .fcsr => "fcsr"
  | .mcycle => "mcycle"
  | .icycleinstret => "icycleinstret"
  | .mstatus => "mstatus"
  | .mtvec => "mtvec"
  | .mscratch => "mscratch"
  | .mepc => "mepc"
  | .mcause => "mcause"
  | .mtval => "mtval"
  | .misa => "misa"
  | .mie => "mie"
  | .mip => "mip"
  | .medeleg => "medeleg"
  | .mideleg => "mideleg"
  | .mcounteren => "mcounteren"
  | .menvcfg => "menvcfg"
  | .stvec => "stvec"
  | .sscratch => "sscratch"
  | .sepc => "sepc"
  | .scause => "scause"
  | .stval => "stval"
  | .satp => "satp"
  | .scounteren => "scounteren"
  | .senvcfg => "senvcfg"
  | .ilrsc => "ilrsc"
  | .iprv => "iprv"
  | .iflagsX => "iflags.X"
  | .iflagsY => "iflags.Y"
  | .iflagsH => "iflags.H"
  | .iunrep => "iunrep"
  | .clintMtimecmp => "clint.mtimecmp"
  | .plicGirqpend => "plic.girqpend"
  | .plicGirqsrvd => "plic.girqsrvd"
  | .htifTohost => "htif.tohost"
  | .htifFromhost => "htif.fromhost"
  | .htifIhalt => "htif.ihalt"
  | .htifIconsole => "htif.iconsole"
  | .htifIyield => "htif.iyield"

def shadowRegName : ShadowReg → String
  | .reg r => regName r
  | .mvendorid => "mvendorid"
  | .marchid => "marchid"
  | .mimpid => "mimpid"

/-- The name of the word at an address. The names of the two parts of the TLB are the source's:
the hot entries come first and are called cold. -/
def getRegisterName (paddr : Word) : Option String :=
  match (shadowRegAt paddr).filter readable with
  | some r => some (shadowRegName r)
  | none =>
    if pmaShadowPmasStart ≤ paddr ∧ paddr < pmaShadowPmasStart + BitVec.ofNat 64 (pmaMax * 8 * 2) then
      some (if (paddr - pmaShadowPmasStart).toNat / 8 % 2 = 0 then "pma.istart" else "pma.ilength")
    else
      match tlbWordAt paddr with
      | none => none
      | some i => some (if i < 1536 then "cold_tlb_entry_field" else "hot_tlb_entry_field")

/-! ## Words of the shadow state -/

theorem shadowStateRegs_nodup : shadowStateRegs.Nodup := by decide +kernel

variable {p v : Word} {r : ShadowReg} {s s' : MachineState} {i : Nat}

theorem shadowRegAt_eq_some (h : shadowRegAt p = some r) :
    ∃ k, p.toNat = 8 * k ∧ shadowStateRegs[k]? = some r ∧ 8 * k + 8 ≤ pmaShadowStateLength.toNat := by
  unfold shadowRegAt at h
  split at h
  · rename_i hmod
    have hlen : shadowStateRegs.length = 106 := rfl
    have hk := (List.getElem?_eq_some_iff.mp h).1
    have hs : pmaShadowStateLength.toNat = 4096 := rfl
    exact ⟨p.toNat / 8, by omega, h, by omega⟩
  · cases h

theorem getD_shadowStateWords (s : MachineState) {k : Nat}
    (h : shadowStateRegs[k]? = some r) : (shadowStateWords s).getD k 0 = s.readShadow r := by
  simp [shadowStateWords, getD_eq_getElem?_getD, h]

theorem readBytes_shadowReg (s : MachineState)
    (h : shadowRegAt p = some r) : readBytes s.boardByte p.toNat 8 = toLE 8 (s.readShadow r).toNat := by
  obtain ⟨k, hk, hr, hle⟩ := shadowRegAt_eq_some h
  rw [hk, readBytes_congr (g := wordsImage (shadowStateWords s))
    fun i hi => s.boardByte_shadowState (by omega), wordsImage, readBytes_wordImage,
    getD_shadowStateWords s hr]

theorem boardByte_writeReg (s : MachineState) {r : Reg} (v : Word) (h : shadowRegAt p = some (.reg r)) :
    (s.writeReg r v).boardByte = writeBytes s.boardByte p.toNat (toLE 8 v.toNat) := by
  have hread : (s.writeReg r v).readShadow (.reg r) = v := by
    simp [readShadow, writeReg]
  refine eq_writeBytes ?_ fun x hx => ?_
  · rw [length_toLE, readBytes_shadowReg _ h, hread]
  rw [length_toLE] at hx
  refine boardByte_congr rfl rfl (fun _ => ?_) fun _ _ _ => rfl
  obtain ⟨k, hk, hr, -⟩ := shadowRegAt_eq_some h
  refine wordImage_congr ?_
  -- a word other than the register's own shows another register
  simp only [shadowStateWords, getD_eq_getElem?_getD, getElem?_map]
  cases hq : shadowStateRegs[x / 8]? with
  | none => rfl
  | some q =>
    have hne : q ≠ .reg r := by
      rintro rfl
      obtain ⟨h1, h1'⟩ := List.getElem?_eq_some_iff.mp hq
      obtain ⟨h2, h2'⟩ := List.getElem?_eq_some_iff.mp hr
      have := (Nodup.getElem_inj_iff shadowStateRegs_nodup).mp (h1'.trans h2'.symm)
      omega
    cases q with
    | reg q' =>
      have hne' : q' ≠ r := fun he => hne (by rw [he])
      simp [readShadow, writeReg, Function.update_of_ne hne']
    | mvendorid => rfl
    | marchid => rfl
    | mimpid => rfl

/-! ## Words of the shadow TLB -/

theorem tlbWordAt_eq_some (h : tlbWordAt p = some i) :
    p.toNat = pmaShadowTlbStart.toNat + 8 * i ∧ i < 3072 := by
  unfold tlbWordAt at h
  split at h
  · cases h
  rename_i hr
  split at h
  · cases h
  rename_i hmod
  have hs : pmaShadowTlbStart.toNat = 0x20000 := rfl
  have he : (pmaShadowTlbStart + pmaShadowTlbLength).toNat = 0x26000 := rfl
  rw [not_or, BitVec.lt_def, BitVec.le_def, hs, he] at hr
  cases h
  rw [BitVec.toNat_sub_of_le (BitVec.le_def.mpr (by omega)), hs]
  omega

theorem readBytes_shadowTlb (s : MachineState) (h : tlbWordAt p = some i) :
    readBytes s.boardByte p.toNat 8 = toLE 8 (shadowTlbWord s i).toNat := by
  obtain ⟨hp, hi⟩ := tlbWordAt_eq_some h
  have hl : pmaShadowTlbLength.toNat = 0x6000 := rfl
  rw [← readBytes_wordImage, hp]
  refine map_congr_left fun j hj => ?_
  have hj := mem_range.mp hj
  rw [Nat.add_assoc, s.boardByte_shadowTlb (by omega)]

theorem tlbWordSet_inj {j : Nat} (h : tlbWordSet i = tlbWordSet j) : i / 512 % 3 = j / 512 % 3 := by
  have hi : i / 512 % 3 < 3 := Nat.mod_lt _ (by decide)
  have hj : j / 512 % 3 < 3 := Nat.mod_lt _ (by decide)
  unfold tlbWordSet at h
  interval_cases i / 512 % 3 <;> interval_cases j / 512 % 3 <;> simp_all

theorem tlbWordIndex_inj {j : Nat} (h : tlbWordIndex i = tlbWordIndex j) : i % 512 / 2 = j % 512 / 2 := by
  have := congrArg Fin.val h
  simp only [tlbWordIndex, Fin.ofNat] at this
  omega

/-- The field of an entry that word `i` of the shadow TLB shows. -/
def tlbField (i : Nat) (e : TlbEntry) : Word :=
  if i < 1536 then (if i % 2 = 0 then e.vaddrPage else 0)
  else if i < 3072 then (if i % 2 = 0 then e.paddrPage else e.pmaIndex)
  else 0

theorem shadowTlbWord_eq (s : MachineState) (i : Nat) :
    shadowTlbWord s i = tlbField i (s.tlb (tlbWordSet i) (tlbWordIndex i)) := rfl

theorem tlb_setTlb (s : MachineState) (t u : TlbSet) (i j : Fin 256) (e : TlbEntry) :
    (s.setTlb t i e).tlb u j = if u = t ∧ j = i then e else s.tlb u j := by
  unfold setTlb
  by_cases hu : u = t
  · subst hu
    by_cases hj : j = i
    · subst hj
      simp
    · simp [hj]
  · simp [hu]

/-- Replacing an entry so that only the field of word `i` differs writes that word. -/
theorem boardByte_setTlb (s : MachineState) {e : TlbEntry} (h : tlbWordAt p = some i) (hv : tlbField i e = v)
    (he : ∀ j, j ≠ i → tlbWordSet j = tlbWordSet i → tlbWordIndex j = tlbWordIndex i →
      tlbField j e = tlbField j (s.tlb (tlbWordSet i) (tlbWordIndex i))) :
    (s.setTlb (tlbWordSet i) (tlbWordIndex i) e).boardByte =
      writeBytes s.boardByte p.toNat (toLE 8 v.toNat) := by
  refine eq_writeBytes ?_ fun x hx => ?_
  · rw [length_toLE, readBytes_shadowTlb _ h, shadowTlbWord_eq, tlb_setTlb, if_pos ⟨rfl, rfl⟩, hv]
  rw [length_toLE] at hx
  refine boardByte_congr rfl rfl (fun _ => rfl) fun k hk _ => wordImage_congr ?_
  obtain ⟨hp, -⟩ := tlbWordAt_eq_some h
  rw [shadowTlbWord_eq, shadowTlbWord_eq, tlb_setTlb]
  split
  · rename_i hsame
    rw [he _ (by omega) hsame.1 hsame.2, hsame.1, hsame.2]
  · rfl

/-! ## The bridge and the board -/

/-- The address of a register or of a word of the TLB. -/
def Reaches (p : Word) : Prop := (∃ r, shadowRegAt p = some r) ∨ ∃ i, tlbWordAt p = some i

theorem tryReadPma_eq_none (h : p.toNat < pmaShadowPmasStart.toNat ∨
      pmaShadowPmasStart.toNat + pmaMax * 8 * 2 ≤ p.toNat) : tryReadPma s p = none := by
  have hs : pmaShadowPmasStart.toNat = 0x10000 := rfl
  have hl : pmaMax = 32 := rfl
  have he : (pmaShadowPmasStart + BitVec.ofNat 64 (pmaMax * 8 * 2)).toNat = 0x10200 := rfl
  unfold tryReadPma
  rw [if_pos]
  rw [BitVec.lt_def, BitVec.le_def, he]
  omega

/-- Outside the shadow PMAs, a register read is a read of the board. -/
theorem readRegister_eq (h : readRegister s p = .ok v) (hp : p.toNat < pmaShadowPmasStart.toNat ∨
      pmaShadowPmasStart.toNat + pmaMax * 8 * 2 ≤ p.toNat) :
    Reaches p ∧ readBytes s.boardByte p.toNat 8 = toLE 8 v.toNat := by
  unfold readRegister at h
  rw [tryReadPma_eq_none hp] at h
  split at h
  · rename_i r hr
    cases h
    have hr := Option.eq_some_of_filter_eq_some hr
    exact ⟨.inl ⟨r, hr⟩, readBytes_shadowReg s hr⟩
  · split at h
    · rename_i w hw
      cases h
      unfold tryReadTlb at hw
      split at hw
      · cases hw
      · rename_i i hi
        split at hw
        · cases hw
        · cases hw
          exact ⟨.inr ⟨i, hi⟩, readBytes_shadowTlb s hi⟩
    · cases h

theorem tryWriteTlb_eq (h : tryWriteTlb s p v = .ok (some s')) :
    ∃ i e, tlbWordAt p = some i ∧ s' = s.setTlb (tlbWordSet i) (tlbWordIndex i) e ∧ tlbField i e = v ∧
      ∀ j, j ≠ i → tlbWordSet j = tlbWordSet i → tlbWordIndex j = tlbWordIndex i →
        tlbField j e = tlbField j (s.tlb (tlbWordSet i) (tlbWordIndex i)) := by
  unfold tryWriteTlb at h
  split at h
  · cases h
  rename_i i hi
  obtain ⟨-, hlt⟩ := tlbWordAt_eq_some hi
  split at h
  · cases h
  rename_i hhost
  simp only [hostTlbWord, Bool.and_eq_true, decide_eq_true_eq, beq_iff_eq] at hhost
  -- two words of one entry that show the same field are the same word
  split at h
  · rename_i hhot
    obtain ⟨e, he, h⟩ := except_bind_ok_iff.mp h
    cases h
    have hfields : e.vaddrPage = v ∧ e.paddrPage = (s.tlb (tlbWordSet i) (tlbWordIndex i)).paddrPage ∧
        e.pmaIndex = (s.tlb (tlbWordSet i) (tlbWordIndex i)).pmaIndex := by
      unfold writeTlbVaddrPage at he
      split at he
      · cases he
        exact ⟨rfl, rfl, rfl⟩
      · split at he
        · cases he
          exact ⟨rfl, rfl, rfl⟩
        · cases he
    refine ⟨i, e, hi, rfl, ?_, fun j hj hset hidx => ?_⟩
    · rw [tlbField, if_pos hhot, if_pos (by omega), hfields.1]
    · have hset := tlbWordSet_inj hset
      have hidx := tlbWordIndex_inj hidx
      unfold tlbField
      rw [hfields.2.1, hfields.2.2]
      split
      · rw [if_neg (by omega), if_neg (by omega)]
      · rfl
  · rename_i hcold
    split at h
    · rename_i heven
      cases h
      refine ⟨i, _, hi, rfl, ?_, fun j hj hset hidx => ?_⟩
      · rw [tlbField, if_neg hcold, if_pos hlt, if_pos heven]
      · have hset := tlbWordSet_inj hset
        have hidx := tlbWordIndex_inj hidx
        unfold tlbField
        split
        · rfl
        · split
          · rw [if_neg (by omega), if_neg (by omega)]
          · rfl
    · rename_i hodd
      cases h
      refine ⟨i, _, hi, rfl, ?_, fun j hj hset hidx => ?_⟩
      · rw [tlbField, if_neg hcold, if_pos hlt, if_neg hodd]
      · have hset := tlbWordSet_inj hset
        have hidx := tlbWordIndex_inj hidx
        unfold tlbField
        split
        · rfl
        · split
          · rw [if_pos (by omega), if_pos (by omega)]
          · rfl

theorem writeRegister_eq (h : writeRegister s p v = .ok s') : Reaches p ∧ s'.board = s.board ∧
      s'.boardByte = writeBytes s.boardByte p.toNat (toLE 8 v.toNat) := by
  unfold writeRegister at h
  split at h
  · rename_i r hr
    cases h
    obtain ⟨q, hq, hw⟩ := Option.bind_eq_some_iff.mp hr
    have hqr : q = .reg r := by
      unfold writable at hw
      split at hw <;> simp_all
    subst hqr
    exact ⟨.inl ⟨_, hq⟩, rfl, boardByte_writeReg s v hq⟩
  · obtain ⟨o, ho, h⟩ := except_bind_ok_iff.mp h
    split at h
    · cases h
      obtain ⟨i, e, hi, rfl, hv, hframe⟩ := tryWriteTlb_eq ho
      exact ⟨.inr ⟨i, hi⟩, rfl, boardByte_setTlb s hi hv hframe⟩
    · cases h

theorem writeRegister_dirty (s : MachineState) (d : Nat → Bool) (paddr val : Word) :
    writeRegister { s with dirty := d } paddr val =
      (writeRegister s paddr val).map fun s' => { s' with dirty := d } := by
  unfold writeRegister
  split
  · rfl
  · unfold tryWriteTlb
    cases tlbWordAt paddr with
    | none => rfl
    | some i =>
      simp only
      split
      · rfl
      · split
        · unfold writeTlbVaddrPage
          simp only
          split
          · rfl
          · split <;> rfl
        · split <;> rfl

theorem writeRegister_iunrep {paddr val : Word}
    (hs : writeRegister s paddr val = .ok s') : s'.regs .iunrep = s.regs .iunrep := by
  unfold writeRegister at hs
  split at hs
  · rename_i r hr
    cases Except.ok.inj hs
    have hne : Reg.iunrep ≠ r := by
      rintro rfl
      obtain ⟨q, -, hq⟩ := Option.bind_eq_some_iff.mp hr
      unfold writable at hq
      split at hq <;> simp_all
    exact Function.update_of_ne hne _ _
  · obtain ⟨o, ho, hs⟩ := except_bind_ok_iff.mp hs
    unfold tryWriteTlb at ho
    split at ho
    · cases Except.ok.inj ho
      cases hs
    · simp only at ho
      split at ho
      · cases Except.ok.inj ho
        cases hs
      · split at ho
        · obtain ⟨e, -, ho⟩ := except_bind_ok_iff.mp ho
          cases Except.ok.inj ho
          cases Except.ok.inj hs
          rfl
        · split at ho <;>
          · cases Except.ok.inj ho
            cases Except.ok.inj hs
            rfl

end MachineEmulator.UarchBridge
