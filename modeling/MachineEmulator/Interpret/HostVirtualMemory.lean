import MachineEmulator.Interpret.MemoryInterface
import MachineEmulator.Interpret.PageTranslation
import MachineEmulator.Interpret.PmaLookup

/-!
# The virtual memory of a machine, as its host sees it

* `readVirtualMemory`, `writeVirtualMemory` : the host's accesses by virtual address. They go page by page, each page
  translated for reading as the machine would translate it when its turn comes;
* `Chunk`, `chunks` : the part of a request in a page;
* `chunks_tile` : the chunks cover the request without a gap or an overlap, unless it reaches the last page of the
  address space;
* `virtualByte`, `virtualPlace` : what is behind a virtual address, of any range and of memory;
* `readVirtualMemory_spec` : a read succeeds iff it can read all of its bytes, and has them;
* `writeVirtualMemory_spec` : a write goes on until a byte has no memory behind it. The translations are those of the
  moment, as an earlier chunk may overwrite the page tables.
-/

namespace MachineEmulator.Host

open BitVec List EStateM Option

open Interpret (RunState)

/-! ## The requests -/

/-- Translate an address for reading. Nothing is marked in the page tables, and no VirtIO device is involved. -/
def translateVirtualAddress (vaddr : Word) : EStateM String RunState Word := fun m =>
  match (Interpret.translateVirtualAddress false vaddr .read).run (Interpret.stateAccess 0) m with
  | .ok (some paddr) m' => .ok paddr m'
  | .ok none m' => .error "page fault" m'
  | .error _ m' => .error "the table of ranges has no end" m'

/-- The part of a request that lies in a page: where it starts in the page, where in the request, and its length. -/
structure Chunk where
  page : Word
  off : Word
  chunkoff : Word
  chunklen : Word
  deriving DecidableEq, Repr

def chunkOf (vaddrStart vaddrLimit vaddrPage : Word) : Chunk :=
  let chunklen := if vaddrLimit - vaddrPage < BitVec.ofNat 64 pmaPageSize then vaddrLimit - vaddrPage
    else BitVec.ofNat 64 pmaPageSize
  if vaddrPage < vaddrStart then
    let off := vaddrStart - vaddrPage
    { page := vaddrPage, off, chunkoff := vaddrPage + off - vaddrStart, chunklen := chunklen - off }
  else { page := vaddrPage, off := 0, chunkoff := vaddrPage - vaddrStart, chunklen }

/-- The pages from one address on, below another. -/
def pagesBetween (start limit : Word) : List Word :=
  (List.range ((limit.toNat - start.toNat + pmaPageSize - 1) / pmaPageSize)).map fun i =>
    start + BitVec.ofNat 64 (pmaPageSize * i)

def chunks (vaddrStart length : Word) : List Chunk :=
  let vaddrLimit := vaddrStart + length
  let vaddrPageStart := vaddrStart &&& ~~~pageOffsetMask
  let vaddrPageLimit := (vaddrLimit + BitVec.ofNat 64 pmaPageSize - 1) &&& ~~~pageOffsetMask
  (pagesBetween vaddrPageStart vaddrPageLimit).map (chunkOf vaddrStart vaddrLimit)

/-- Read chunk after chunk into a buffer. -/
def readChunks : List Chunk → (Nat → Byte) → EStateM String RunState (Nat → Byte)
  | [], data => pure data
  | c :: cs, data => do
    let paddrPage ← translateVirtualAddress c.page
    let bytes ← Interpret.readMemory (paddrPage + c.off) c.chunklen.toNat
    readChunks cs (writeBytes data c.chunkoff.toNat bytes)

def readVirtualMemory (vaddrStart : Word) (data : Nat → Byte) (length : Word) : EStateM String RunState (Nat → Byte) :=
  if length = 0 then pure data else readChunks (chunks vaddrStart length) data

/-- Write chunk after chunk from a buffer. -/
def writeChunks (data : List Byte) : List Chunk → EStateM String RunState Unit
  | [] => pure ()
  | c :: cs => do
    let paddrPage ← translateVirtualAddress c.page
    Interpret.writeMemory (paddrPage + c.off) ((data.drop c.chunkoff.toNat).take c.chunklen.toNat)
    writeChunks data cs

def writeVirtualMemory (vaddrStart : Word) (data : List Byte) : EStateM String RunState Unit :=
  if data = [] then pure () else writeChunks data (chunks vaddrStart (BitVec.ofNat 64 data.length))

/-! ## The chunks of a request -/

/-- A chunk that lies in its page, for the request that starts at `vaddrStart`. -/
structure Chunk.Fits (vaddrStart : Word) (c : Chunk) : Prop where
  page_mod : c.page.toNat % pmaPageSize = 0
  end_le : c.off.toNat + c.chunklen.toNat ≤ pmaPageSize
  address : c.page.toNat + c.off.toNat = vaddrStart.toNat + c.chunkoff.toNat
  pos : 0 < c.chunklen.toNat

/-- The chunks cover the bytes from `a` to `b` of a request, each once and in order. -/
inductive Tiles (vaddrStart : Word) : Nat → List Chunk → Nat → Prop
  | nil (a : Nat) : Tiles vaddrStart a [] a
  | cons {a b : Nat} {c : Chunk} {cs : List Chunk} (hc : c.Fits vaddrStart) (ha : c.chunkoff.toNat = a)
    (hcs : Tiles vaddrStart (a + c.chunklen.toNat) cs b) : Tiles vaddrStart a (c :: cs) b

variable {vaddrStart paddr : Word} {a b n k : Nat} {q : PmaEntry} {m : RunState} {data : List Byte}

theorem Tiles.le {cs : List Chunk} (h : Tiles vaddrStart a cs b) : a ≤ b := by
  induction h with
  | nil a => exact Nat.le_refl a
  | cons hc ha hcs ih => exact Nat.le_trans (Nat.le_add_right _ _) ih

section
variable {vaddrStart length : Word} (hfit : vaddrStart.toNat + length.toNat ≤ 2 ^ 64 - pmaPageSize)
include hfit

theorem toNat_limit : (vaddrStart + length).toNat = vaddrStart.toNat + length.toNat := by
  rw [BitVec.toNat_add]
  simp only [pmaPageSize] at hfit
  omega

theorem toNat_pageLimit : ((vaddrStart + length + BitVec.ofNat 64 pmaPageSize - 1) &&& ~~~pageOffsetMask).toNat =
    pmaPageSize * ((vaddrStart.toNat + length.toNat + pmaPageSize - 1) / pmaPageSize) := by
  have hsum : (vaddrStart + length + BitVec.ofNat 64 pmaPageSize - 1).toNat =
      vaddrStart.toNat + length.toNat + pmaPageSize - 1 := by
    simp only [pmaPageSize] at *
    bv_omega
  rw [toNat_pageStart, hsum]

theorem chunkOf_spec (hpos : 0 < length.toNat) (page : Word) (hmod : page.toNat % pmaPageSize = 0)
    (hlo : vaddrStart.toNat < page.toNat + pmaPageSize) (hhi : page.toNat < vaddrStart.toNat + length.toNat) :
    (chunkOf vaddrStart (vaddrStart + length) page).Fits vaddrStart ∧
      (chunkOf vaddrStart (vaddrStart + length) page).chunkoff.toNat = page.toNat - vaddrStart.toNat ∧
      (chunkOf vaddrStart (vaddrStart + length) page).chunkoff.toNat +
        (chunkOf vaddrStart (vaddrStart + length) page).chunklen.toNat =
          min length.toNat (page.toNat + pmaPageSize - vaddrStart.toNat) := by
  have hsize : pmaPageSize = 4096 := rfl
  have hlimit := toNat_limit hfit
  have hrest : (vaddrStart + length - page).toNat = vaddrStart.toNat + length.toNat - page.toNat := by
    rw [BitVec.toNat_sub_of_le (BitVec.le_def.mpr (by omega)), hlimit]
  have hlen : (if vaddrStart + length - page < BitVec.ofNat 64 pmaPageSize then vaddrStart + length - page
      else BitVec.ofNat 64 pmaPageSize).toNat = min (vaddrStart.toNat + length.toNat - page.toNat) pmaPageSize := by
    have hword : (BitVec.ofNat 64 pmaPageSize).toNat = pmaPageSize := rfl
    split
    · rename_i hlt
      rw [BitVec.lt_def, hrest, hword] at hlt
      rw [hrest]
      omega
    · rename_i hlt
      rw [BitVec.lt_def, hrest, hword] at hlt
      rw [hword]
      omega
  unfold chunkOf
  generalize (if vaddrStart + length - page < BitVec.ofNat 64 pmaPageSize then vaddrStart + length - page
    else BitVec.ofNat 64 pmaPageSize) = n at hlen
  by_cases hfirst : page < vaddrStart
  · -- the request starts inside the page
    have hlt := BitVec.lt_def.mp hfirst
    have hoff : (vaddrStart - page).toNat = vaddrStart.toNat - page.toNat :=
      BitVec.toNat_sub_of_le (BitVec.le_def.mpr hlt.le)
    have hcancel : (page + (vaddrStart - page) - vaddrStart).toNat = 0 := by
      rw [BitVec.add_comm, BitVec.sub_add_cancel, BitVec.sub_self]
      rfl
    have hsub : (n - (vaddrStart - page)).toNat = n.toNat - (vaddrStart.toNat - page.toNat) := by
      rw [BitVec.toNat_sub_of_le (BitVec.le_def.mpr (by omega)), hoff]
    rw [if_pos hfirst]
    refine ⟨⟨hmod, ?_, ?_, ?_⟩, ?_, ?_⟩ <;> dsimp only <;> omega
  · have hge : vaddrStart.toNat ≤ page.toNat := Nat.le_of_not_lt fun h => hfirst (BitVec.lt_def.mpr h)
    have hsub : (page - vaddrStart).toNat = page.toNat - vaddrStart.toNat :=
      BitVec.toNat_sub_of_le (BitVec.le_def.mpr hge)
    have h0 : (0 : Word).toNat = 0 := rfl
    rw [if_neg hfirst]
    refine ⟨⟨hmod, ?_, ?_, ?_⟩, hsub, ?_⟩ <;> dsimp only <;> omega

theorem chunks_eq : chunks vaddrStart length =
    (List.range' 0 ((vaddrStart.toNat + length.toNat + pmaPageSize - 1) / pmaPageSize -
      vaddrStart.toNat / pmaPageSize)).map
      fun i => chunkOf vaddrStart (vaddrStart + length)
        ((vaddrStart &&& ~~~pageOffsetMask) + BitVec.ofNat 64 (pmaPageSize * i)) := by
  have hcount : ∀ a b : Nat, (pmaPageSize * a - pmaPageSize * b + pmaPageSize - 1) / pmaPageSize = a - b := by
    intro a b
    simp only [pmaPageSize]
    omega
  simp only [chunks, pagesBetween, toNat_pageLimit hfit, toNat_pageStart, hcount, List.map_map, range_eq_range']
  rfl

theorem tiles_from (hpos : 0 < length.toNat) (n i : Nat)
    (hn : i + n = (vaddrStart.toNat + length.toNat + pmaPageSize - 1) / pmaPageSize - vaddrStart.toNat / pmaPageSize) :
    Tiles vaddrStart
      (min length.toNat (pmaPageSize * (vaddrStart.toNat / pmaPageSize) + pmaPageSize * i - vaddrStart.toNat))
      ((List.range' i n).map fun i => chunkOf vaddrStart (vaddrStart + length)
        ((vaddrStart &&& ~~~pageOffsetMask) + BitVec.ofNat 64 (pmaPageSize * i))) length.toNat := by
  induction n generalizing i with
  | zero =>
    have hend : min length.toNat
        (pmaPageSize * (vaddrStart.toNat / pmaPageSize) + pmaPageSize * i - vaddrStart.toNat) = length.toNat := by
      simp only [pmaPageSize] at *
      omega
    rw [hend]
    exact .nil _
  | succ n ih =>
    have hpage : ((vaddrStart &&& ~~~pageOffsetMask) + BitVec.ofNat 64 (pmaPageSize * i)).toNat =
        pmaPageSize * (vaddrStart.toNat / pmaPageSize) + pmaPageSize * i := by
      rw [BitVec.toNat_add, toNat_pageStart, toNat_ofNat]
      simp only [pmaPageSize] at *
      omega
    obtain ⟨hfits, hstart, hend⟩ := chunkOf_spec hfit hpos
      ((vaddrStart &&& ~~~pageOffsetMask) + BitVec.ofNat 64 (pmaPageSize * i))
      (by rw [hpage]; simp only [pmaPageSize]; omega) (by rw [hpage]; simp only [pmaPageSize]; omega)
      (by rw [hpage]; simp only [pmaPageSize] at *; omega)
    rw [hpage] at hstart hend
    have hcut : min length.toNat
        (pmaPageSize * (vaddrStart.toNat / pmaPageSize) + pmaPageSize * i - vaddrStart.toNat) =
          pmaPageSize * (vaddrStart.toNat / pmaPageSize) + pmaPageSize * i - vaddrStart.toNat := by
      omega
    rw [List.range'_succ, List.map_cons]
    refine .cons hfits (by rw [hstart, hcut]) ?_
    rw [hcut, ← hstart, hend]
    have hih := ih (i + 1) (by omega)
    rwa [Nat.mul_succ, ← Nat.add_assoc] at hih

/-- A request that does not reach the last page is covered by its chunks, each byte once. -/
theorem chunks_tile (hpos : 0 < length.toNat) : Tiles vaddrStart 0 (chunks vaddrStart length) length.toNat := by
  have htiles := tiles_from hfit hpos _ 0 (Nat.zero_add _)
  have hzero : min length.toNat
      (pmaPageSize * (vaddrStart.toNat / pmaPageSize) + pmaPageSize * 0 - vaddrStart.toNat) = 0 := by
    simp only [pmaPageSize]
    omega
  rw [hzero] at htiles
  rwa [chunks_eq hfit]

end

/-! ## The range of an address -/

def rangeAt (m : RunState) (a : Nat) : Option PmaEntry := (merkleRanges m.ranges).find? fun q => q.Mem a

structure WholePages (q : PmaEntry) : Prop where
  start_mod : q.start.toNat % pmaPageSize = 0
  length_mod : q.length.toNat % pmaPageSize = 0
  length_ne : q.length ≠ 0
  not_empty : q.istartE = false

theorem wholePages_of_paged (h : q.Paged) : WholePages q where
  start_mod := h.start_mod
  length_mod := h.length_mod
  length_ne h0 := by
    have := h.length_pos
    rw [h0] at this
    exact absurd this (by decide)
  not_empty := by simpa [PmaEntry.istartE] using h.not_empty

theorem wholePages_virtioPma (i : Nat) (k : VirtioKind) : WholePages (virtioPma i k) where
  start_mod := by
    have hs : pmaFirstVirtioStart.toNat = 0x40010000 := rfl
    have hl : pmaVirtioLength.toNat = 0x1000 := rfl
    show (pmaFirstVirtioStart + BitVec.ofNat 64 i * pmaVirtioLength).toNat % pmaPageSize = 0
    rw [BitVec.toNat_add, BitVec.toNat_mul, toNat_ofNat, hs, hl]
    simp only [pmaPageSize]
    omega
  length_mod := by
    show pmaVirtioLength.toNat % pmaPageSize = 0
    decide
  length_ne := by
    show pmaVirtioLength ≠ 0
    decide
  not_empty := rfl

theorem wholePages_of_mem (hq : q ∈ merkleRanges m.ranges) : WholePages q := by
  simp only [merkleRanges, RunState.ranges, mem_append, mem_mapIdx, List.mem_cons, not_mem_nil,
    or_false] at hq
  rcases hq with (hq | ⟨i, hi, rfl⟩) | rfl | rfl
  · exact wholePages_of_paged (m.s.board.wellFormed.paged q hq)
  · obtain ⟨h1, h2, h3, h4⟩ := wholePages_virtioPma i m.vdevs[i].cls.kind
    exact ⟨h1, h2, h3, h4⟩
  · exact wholePages_of_paged Machine.shadowUarchStatePma_paged
  · exact wholePages_of_paged Machine.uarchRamPma_paged

/-- A range contains an access within a page iff it contains any byte of it. -/
theorem WholePages.contains_iff_mem (hq : WholePages q) (hn : n < 2 ^ 64)
    (hpage : paddr.toNat % pmaPageSize + n ≤ pmaPageSize) (hk : k < n) :
    q.contains paddr (BitVec.ofNat 64 n) = true ↔ q.Mem (paddr.toNat + k) := by
  have h1 := hq.start_mod
  have h2 := hq.length_mod
  rw [PmaEntry.contains_iff, toNat_ofNat, Nat.mod_eq_of_lt hn, PmaEntry.Mem, and_iff_right hq.not_empty]
  simp only [pmaPageSize] at *
  omega

/-- The range of an access within a page is that of any byte of it. -/
theorem findMerkleRange_page (hpage : paddr.toNat % pmaPageSize + n ≤ pmaPageSize) (hk : k < n) :
    m.findMerkleRange paddr (BitVec.ofNat 64 n) = (rangeAt m (paddr.toNat + k)).getD emptyPma := by
  have hn : n < 2 ^ 64 := by
    simp only [pmaPageSize] at hpage
    omega
  rw [RunState.findMerkleRange, Interpret.findPmaEntry_eq_find?, rangeAt]
  refine congrArg (Option.getD · emptyPma) (Interpret.find?_congr fun q hq => ?_)
  have hw := wholePages_of_mem hq
  rw [Bool.eq_iff_iff, Bool.or_eq_true, decide_eq_true_iff, decide_eq_true_iff, or_iff_right hw.length_ne]
  exact hw.contains_iff_mem hn hpage hk

theorem rangeAt_congr (h : a / pmaPageSize = b / pmaPageSize) : rangeAt m a = rangeAt m b := by
  refine Interpret.find?_congr fun q hq => ?_
  have hw := wholePages_of_mem hq
  have h1 := hw.start_mod
  have h2 := hw.length_mod
  rw [decide_eq_decide, PmaEntry.Mem, PmaEntry.Mem]
  simp only [pmaPageSize] at *
  omega

theorem rangeAt_spec (h : rangeAt m a = some q) : q ∈ merkleRanges m.ranges ∧ q.Mem a := by
  have hmem := List.find?_some (p := fun q : PmaEntry => decide (q.Mem a)) h
  exact ⟨List.mem_of_find?_eq_some h, of_decide_eq_true hmem⟩

/-! ## Reading -/

/-- The byte behind a virtual address: its page is mapped, and a range shows it. -/
def virtualByte (m : RunState) (vaddr : Word) : Option Byte :=
  match m.translate vaddr .read with
  | none => none
  | some paddr => (rangeAt m paddr.toNat).map fun q => Interpret.rangeByte m q paddr.toNat

def chunkBytes (m : RunState) (c : Chunk) : Option (Nat → Byte) :=
  match m.translate c.page .read with
  | none => none
  | some paddr => (rangeAt m (paddr + c.off).toNat).map fun q k => Interpret.rangeByte m q ((paddr + c.off).toNat + k)

section
variable {m : RunState} {vaddrStart : Word} {c : Chunk} (hc : c.Fits vaddrStart)
include hc

theorem Chunk.Fits.address_eq (k : Nat) :
    vaddrStart + BitVec.ofNat 64 (c.chunkoff.toNat + k) = c.page + BitVec.ofNat 64 (c.off.toNat + k) := by
  have haddress := hc.address
  refine eq_of_toNat_eq ?_
  rw [BitVec.toNat_add, BitVec.toNat_add, toNat_ofNat, toNat_ofNat]
  omega

theorem Chunk.Fits.translate_eq (hk : k < c.chunklen.toNat) :
    m.translate (vaddrStart + BitVec.ofNat 64 (c.chunkoff.toNat + k)) .read =
      (m.translate c.page .read).map (· + BitVec.ofNat 64 (c.off.toNat + k)) := by
  have hlt : c.off.toNat + k < pmaPageSize := Nat.lt_of_lt_of_le (Nat.add_lt_add_left hk _) hc.end_le
  have hoff : (BitVec.ofNat 64 (c.off.toNat + k)).toNat < pmaPageSize := by
    rw [toNat_ofNat]
    exact Nat.lt_of_le_of_lt (Nat.mod_le _ _) hlt
  rw [hc.address_eq, Interpret.translate_page hc.page_mod hoff]

theorem Chunk.Fits.toNat_paddr (hp : m.translate c.page .read = some paddr) (hk : k < c.chunklen.toNat) :
    (paddr + BitVec.ofNat 64 (c.off.toNat + k)).toNat = (paddr + c.off).toNat + k ∧
      (paddr + c.off).toNat % pmaPageSize + c.chunklen.toNat ≤ pmaPageSize := by
  have h1 := Interpret.translate_aligned hc.page_mod hp
  have h2 := hc.end_le
  rw [BitVec.toNat_add, BitVec.toNat_add, toNat_ofNat]
  simp only [pmaPageSize] at *
  omega

/-- The bytes of a chunk are in one range. -/
theorem Chunk.Fits.rangeAt_eq (hp : m.translate c.page .read = some paddr) (hk : k < c.chunklen.toNat) :
    rangeAt m ((paddr + c.off).toNat + k) = rangeAt m (paddr + c.off).toNat := by
  obtain ⟨-, hpage⟩ := hc.toNat_paddr hp hk
  exact rangeAt_congr (by simp only [pmaPageSize] at *; omega)

theorem virtualByte_chunk (hk : k < c.chunklen.toNat) :
    virtualByte m (vaddrStart + BitVec.ofNat 64 (c.chunkoff.toNat + k)) = (chunkBytes m c).map (· k) := by
  rw [virtualByte, chunkBytes, hc.translate_eq hk]
  cases hp : m.translate c.page .read with
  | none => rfl
  | some paddr =>
    simp only [map_some, (hc.toNat_paddr hp hk).1, hc.rangeAt_eq hp hk, Option.map_map, Function.comp_def]

end

theorem readMemory_page (hpage : paddr.toNat % pmaPageSize + n ≤ pmaPageSize)
    (hn : 0 < n) : Interpret.readMemory paddr n m =
      match rangeAt m paddr.toNat with
      | none => .error "peek failed" m
      | some q => .ok ((List.range n).map fun k => Interpret.rangeByte m q (paddr.toNat + k)) m := by
  have hfound : findPmaEntry (merkleRanges m.ranges) paddr (BitVec.ofNat 64 n) =
      (rangeAt m paddr.toNat).getD emptyPma :=
    findMerkleRange_page hpage hn
  rw [Interpret.readMemory, query, Interpret.doReadMemory]
  simp only [if_neg (Nat.ne_of_gt hn), hfound]
  cases hq : rangeAt m paddr.toNat with
  | none => rfl
  | some q =>
    have hE : q.istartE = false := (wholePages_of_mem (rangeAt_spec hq).1).not_empty
    simp [hE]

theorem run_translate (hends : m.TableEnds) (vaddr : Word) : translateVirtualAddress vaddr m =
      match m.translate vaddr .read with
      | none => .error "page fault" m
      | some paddr => .ok paddr m := by
  rw [translateVirtualAddress, Interpret.run_translateVirtualAddress hends]
  cases m.translate vaddr .read <;> rfl

section
variable {m : RunState} (hends : m.TableEnds) {vaddrStart : Word}
include hends

theorem readChunks_cons {c : Chunk} (hc : c.Fits vaddrStart) (cs : List Chunk) (data : Nat → Byte) :
    (chunkBytes m c = none → ∃ e, readChunks (c :: cs) data m = .error e m) ∧
      ∀ f, chunkBytes m c = some f → readChunks (c :: cs) data m =
        readChunks cs (writeBytes data c.chunkoff.toNat ((List.range c.chunklen.toNat).map f)) m := by
  have htrans := run_translate hends c.page
  rw [readChunks, chunkBytes]
  cases hp : m.translate c.page .read with
  | none =>
    rw [hp] at htrans
    refine ⟨fun _ => ⟨_, bind_of_error htrans⟩, fun f hf => ?_⟩
    cases hf
  | some paddr =>
    have hread := readMemory_page (m := m) (hc.toNat_paddr hp hc.pos).2 hc.pos
    rw [hp] at htrans
    rw [bind_of_ok htrans]
    dsimp only
    cases hq : rangeAt m (paddr + c.off).toNat with
    | none =>
      rw [hq] at hread
      refine ⟨fun _ => ⟨_, bind_of_error hread⟩, fun f hf => ?_⟩
      cases hf
    | some q =>
      rw [hq] at hread
      refine ⟨fun hnone => ?_, fun f hf => ?_⟩
      · cases hnone
      · cases hf
        rw [bind_of_ok hread]

/-- The buffer after the bytes from `a` to `b` of a request were read. -/
def filled (m : RunState) (vaddrStart : Word) (data : Nat → Byte) (a b i : Nat) : Byte :=
  if a ≤ i ∧ i < b then (virtualByte m (vaddrStart + BitVec.ofNat 64 i)).getD 0 else data i

omit hends in
theorem filled_writeBytes {data : Nat → Byte} {f : Nat → Byte} (hle : a + n ≤ b)
    (hf : ∀ i, a ≤ i → i < a + n → virtualByte m (vaddrStart + BitVec.ofNat 64 i) = some (f (i - a))) :
    filled m vaddrStart (writeBytes data a ((List.range n).map f)) (a + n) b = filled m vaddrStart data a b := by
  funext i
  unfold filled
  by_cases hout : i < a ∨ b ≤ i
  · rw [if_neg (by omega), if_neg (by omega)]
    exact writeBytes_of_not_mem (by simp; omega)
  · by_cases hi : i < a + n
    · obtain ⟨k, rfl⟩ := Nat.exists_eq_add_of_le (show a ≤ i by omega)
      rw [if_neg (by omega), if_pos (by omega), hf (a + k) (by omega) hi,
        writeBytes_of_mem (by simp; omega)]
      simp
    · rw [if_pos (by omega), if_pos (by omega)]

theorem readChunks_spec {cs : List Chunk} (ht : Tiles vaddrStart a cs b) (data : Nat → Byte) :
    ((∀ i, a ≤ i → i < b → (virtualByte m (vaddrStart + BitVec.ofNat 64 i)).isSome = true) ∧
        readChunks cs data m = .ok (filled m vaddrStart data a b) m) ∨
      (∃ i, a ≤ i ∧ i < b ∧ virtualByte m (vaddrStart + BitVec.ofNat 64 i) = none) ∧
        ∃ e, readChunks cs data m = .error e m := by
  induction ht generalizing data with
  | nil a =>
    have hsame : filled m vaddrStart data a a = data := by
      funext i
      exact if_neg fun h => by omega
    rw [hsame]
    exact .inl ⟨fun i h1 h2 => by omega, rfl⟩
  | @cons a b c cs hc ha hcs ih =>
    obtain ⟨hnone, hsome⟩ := readChunks_cons hends hc cs data
    have hbyte : ∀ i, a ≤ i → i < a + c.chunklen.toNat →
        virtualByte m (vaddrStart + BitVec.ofNat 64 i) = (chunkBytes m c).map (· (i - a)) := by
      intro i h1 h2
      rw [← virtualByte_chunk hc (show i - a < c.chunklen.toNat by omega), ha, Nat.add_sub_cancel' h1]
    have hle := hcs.le
    cases hf : chunkBytes m c with
    | none =>
      refine .inr ⟨⟨a, Nat.le_refl a, by have := hc.pos; omega, ?_⟩, hnone hf⟩
      rw [hbyte a (Nat.le_refl a) (by have := hc.pos; omega), hf]
      rfl
    | some f =>
      rw [hsome f hf, ha]
      rcases ih (writeBytes data a ((List.range c.chunklen.toNat).map f)) with ⟨hall, hrun⟩ | ⟨⟨i, h1, h2, h3⟩, hrun⟩
      · refine .inl ⟨fun i h1 h2 => ?_, ?_⟩
        · by_cases hi : i < a + c.chunklen.toNat
          · rw [hbyte i h1 hi, hf]
            rfl
          · exact hall i (Nat.le_of_not_lt hi) h2
        · rw [hrun, filled_writeBytes hle fun i h1 h2 => by rw [hbyte i h1 h2, hf]; rfl]
      · exact .inr ⟨⟨i, by omega, h2, h3⟩, hrun⟩

/-- Reading is all or nothing: if every byte of the request can be read, the buffer has them and nothing else
changed. If some byte cannot, the request fails. -/
theorem readVirtualMemory_spec (length : Word) (hfit : vaddrStart.toNat + length.toNat ≤ 2 ^ 64 - pmaPageSize)
    (data : Nat → Byte) :
    ((∀ i, i < length.toNat → (virtualByte m (vaddrStart + BitVec.ofNat 64 i)).isSome = true) ∧
        readVirtualMemory vaddrStart data length m = .ok (filled m vaddrStart data 0 length.toNat) m) ∨
      (∃ i, i < length.toNat ∧ virtualByte m (vaddrStart + BitVec.ofNat 64 i) = none) ∧
        ∃ e, readVirtualMemory vaddrStart data length m = .error e m := by
  rw [readVirtualMemory]
  by_cases h0 : length = 0
  · subst h0
    have hsame : filled m vaddrStart data 0 (0 : Word).toNat = data := by
      funext i
      exact if_neg fun h => absurd h.2 (Nat.not_lt_zero i)
    rw [if_pos rfl, hsame]
    exact .inl ⟨fun i hi => absurd hi (Nat.not_lt_zero i), rfl⟩
  · rw [if_neg h0]
    rcases readChunks_spec hends (chunks_tile hfit (toNat_pos_of_ne_zero h0)) data with ⟨hall, hrun⟩ |
      ⟨⟨i, -, hi, hnone⟩, hrun⟩
    · exact .inl ⟨fun i hi => hall i (Nat.zero_le i) hi, hrun⟩
    · exact .inr ⟨⟨i, hi, hnone⟩, hrun⟩

end

/-! ## Writing -/

/-- A byte of the host memory of a machine. -/
structure Place where
  inUarch : Bool
  paddr : Nat
  deriving DecidableEq, Repr

def byteAt (m : RunState) (l : Place) : Byte := if l.inUarch then m.uarch.ram l.paddr else m.s.mem l.paddr

def placeIn (q : PmaEntry) (a : Nat) : Place := ⟨decide (q = uarchRamPma), a⟩

theorem byteAt_placeIn (m : RunState) (q : PmaEntry) (a : Nat) : byteAt m (placeIn q a) = (m.hostMemory q).mem a := by
  by_cases h : q = uarchRamPma <;> simp [byteAt, placeIn, RunState.hostMemory, RunState.boardMemory, h]

/-- The memory range that shows an address. -/
def memoryAt (m : RunState) (a : Nat) : Option PmaEntry := (rangeAt m a).filter (·.istartM)

/-- The byte of memory behind a virtual address: its page is mapped, and to memory. -/
def virtualPlace (m : RunState) (vaddr : Word) : Option Place :=
  match m.translate vaddr .read with
  | none => none
  | some paddr => (memoryAt m paddr.toNat).map (placeIn · paddr.toNat)

/-- The machines differ at most in their memories. -/
def SameButMemory (m m' : RunState) : Prop :=
  m' = { m with
    s := { m.s with mem := m'.s.mem, dirty := m'.s.dirty }
    uarch := { m.uarch with ram := m'.uarch.ram, ramDirty := m'.uarch.ramDirty } }

/-- The bytes from `a` to `b` of the buffer were written, all translated as before the write, and nothing else
changed. -/
structure WroteChunk (vaddrStart : Word) (data : List Byte) (a b : Nat) (m m' : RunState) : Prop where
  written : ∀ i, a ≤ i → i < b → ∃ l, virtualPlace m (vaddrStart + BitVec.ofNat 64 i) = some l ∧
    some (byteAt m' l) = data[i]?
  kept : ∀ l, (∀ i, a ≤ i → i < b → virtualPlace m (vaddrStart + BitVec.ofNat 64 i) ≠ some l) → byteAt m' l = byteAt m l
  rest : SameButMemory m m'

/-- The bytes from `a` to `b` of the buffer were written chunk after chunk, each chunk within a page. -/
inductive WroteChunks (vaddrStart : Word) (data : List Byte) : Nat → RunState → Nat → RunState → Prop
  | nil (a : Nat) (m : RunState) : WroteChunks vaddrStart data a m a m
  | cons {a n b : Nat} {m m1 m' : RunState} (hpos : 0 < n)
    (hpage : (vaddrStart.toNat + a) % pmaPageSize + n ≤ pmaPageSize)
    (hc : WroteChunk vaddrStart data a (a + n) m m1) (hcs : WroteChunks vaddrStart data (a + n) m1 b m') :
    WroteChunks vaddrStart data a m b m'

theorem virtualPlace_chunk {c : Chunk} (hc : c.Fits vaddrStart) (hk : k < c.chunklen.toNat) :
    virtualPlace m (vaddrStart + BitVec.ofNat 64 (c.chunkoff.toNat + k)) =
      (m.translate c.page .read).bind fun paddr =>
        (memoryAt m (paddr + c.off).toNat).map (placeIn · ((paddr + c.off).toNat + k)) := by
  rw [virtualPlace, hc.translate_eq hk]
  cases hp : m.translate c.page .read with
  | none => rfl
  | some paddr =>
    simp only [map_some, bind_some, (hc.toNat_paddr hp hk).1, memoryAt, hc.rangeAt_eq hp hk]

theorem writeMemory_page (hpage : paddr.toNat % pmaPageSize + data.length ≤ pmaPageSize) (hne : data ≠ []) :
    Interpret.writeMemory paddr data m =
      match memoryAt m paddr.toNat with
      | none => .error "address range not entirely in memory PMA" m
      | some q => .ok () (m.setHostMemory q ((m.hostMemory q).write paddr.toNat data)) := by
  have hpos : 0 < data.length := List.length_pos_iff.mpr hne
  have hlt : data.length < 2 ^ 64 := by
    simp only [pmaPageSize] at hpage
    omega
  have hfound := findMerkleRange_page (m := m) hpage hpos
  rw [Nat.add_zero] at hfound
  rw [memoryAt]
  cases hq : rangeAt m paddr.toNat with
  | none =>
    rw [hq] at hfound
    rw [Interpret.writeMemory, update]
    simp only [if_neg hne, RunState.onMemoryRange, hfound]
    rfl
  | some q =>
    rw [hq, getD_some] at hfound
    obtain ⟨hin, hmem⟩ := rangeAt_spec hq
    have hw := wholePages_of_mem hin
    by_cases hM : q.istartM = true
    · have hc := (hw.contains_iff_mem hlt hpage hpos).mpr hmem
      rw [Interpret.writeMemory_of_found hfound hM hc hne, filter_some_pos hM]
    · rw [Interpret.writeMemory, update, filter_some_neg (Bool.eq_false_of_not_eq_true hM)]
      simp only [if_neg hne, RunState.onMemoryRange, hfound, if_neg hM, throwUnless]
      rfl

theorem byteAt_setHostMemory (m : RunState) (q : PmaEntry) (p : PagedMemory) (l : Place) :
    byteAt (m.setHostMemory q p) l = if l.inUarch = decide (q = uarchRamPma) then p.mem l.paddr else byteAt m l := by
  obtain ⟨inUarch, a⟩ := l
  by_cases h : q = uarchRamPma <;> cases inUarch <;>
    simp [byteAt, RunState.setHostMemory, RunState.setBoardMemory, RunState.withState, h]

theorem sameButMemory_setHostMemory (m : RunState) (q : PmaEntry) (p : PagedMemory) :
    SameButMemory m (m.setHostMemory q p) := by
  unfold SameButMemory RunState.setHostMemory
  split <;> rfl

theorem SameButMemory.ranges_eq {m' : RunState} (h : SameButMemory m m') : m'.ranges = m.ranges := by
  rw [h]
  rfl

section
variable {m : RunState} {vaddrStart : Word} {data : List Byte} {c : Chunk} (hc : c.Fits vaddrStart)
  (hdata : c.chunkoff.toNat + c.chunklen.toNat ≤ data.length)
include hdata

omit hc in
theorem length_slice : ((data.drop c.chunkoff.toNat).take c.chunklen.toNat).length = c.chunklen.toNat := by
  rw [length_take, length_drop]
  omega

include hc

theorem wroteChunk_write (hp : m.translate c.page .read = some paddr)
    (hq : memoryAt m (paddr + c.off).toNat = some q) :
    WroteChunk vaddrStart data c.chunkoff.toNat (c.chunkoff.toNat + c.chunklen.toNat) m
      (m.setHostMemory q ((m.hostMemory q).write (paddr + c.off).toNat
        ((data.drop c.chunkoff.toNat).take c.chunklen.toNat))) := by
  have hlen := length_slice hdata
  have hplace : ∀ k < c.chunklen.toNat, virtualPlace m (vaddrStart + BitVec.ofNat 64 (c.chunkoff.toNat + k)) =
      some (placeIn q ((paddr + c.off).toNat + k)) := by
    intro k hk
    rw [virtualPlace_chunk hc hk, hp, bind_some, hq, map_some]
  refine ⟨fun i h1 h2 => ?_, fun l hl => ?_, sameButMemory_setHostMemory m q _⟩
  · obtain ⟨k, rfl⟩ := Nat.exists_eq_add_of_le h1
    refine ⟨_, hplace k (by omega), ?_⟩
    simp only [byteAt_setHostMemory, placeIn, if_true, PagedMemory.write_mem]
    rw [writeBytes_of_mem (by omega)]
    simp only [get_eq_getElem, getElem_take, getElem_drop]
    exact (List.getElem?_eq_getElem _).symm
  · rw [byteAt_setHostMemory]
    by_cases hsame : l.inUarch = decide (q = uarchRamPma)
    · have heq : l = placeIn q l.paddr := by rw [placeIn, ← hsame]
      have hold : byteAt m l = (m.hostMemory q).mem l.paddr := by rw [heq, byteAt_placeIn, ← heq]
      rw [if_pos hsame, PagedMemory.write_mem, hold]
      refine writeBytes_of_not_mem ?_
      by_contra hin
      obtain ⟨k, hk⟩ := Nat.exists_eq_add_of_le (show (paddr + c.off).toNat ≤ l.paddr by omega)
      refine hl (c.chunkoff.toNat + k) (Nat.le_add_right _ _) (by omega) ?_
      rw [hplace k (by omega), ← hk, ← heq]
    · rw [if_neg hsame]

theorem writeChunks_cons (hends : m.TableEnds) (cs : List Chunk) :
    (virtualPlace m (vaddrStart + BitVec.ofNat 64 c.chunkoff.toNat) = none ∧
        ∃ e, writeChunks data (c :: cs) m = .error e m) ∨
      ∃ m1, WroteChunk vaddrStart data c.chunkoff.toNat (c.chunkoff.toNat + c.chunklen.toNat) m m1 ∧
        writeChunks data (c :: cs) m = writeChunks data cs m1 := by
  have htrans := run_translate hends c.page
  have hplace := virtualPlace_chunk (m := m) hc hc.pos
  rw [Nat.add_zero] at hplace
  rw [writeChunks, hplace]
  cases hp : m.translate c.page .read with
  | none =>
    rw [hp] at htrans
    exact .inl ⟨rfl, _, bind_of_error htrans⟩
  | some paddr =>
    have hlen := length_slice hdata
    have hne : (data.drop c.chunkoff.toNat).take c.chunklen.toNat ≠ [] :=
      ne_nil_of_length_pos (by rw [hlen]; exact hc.pos)
    have hwrite := writeMemory_page (m := m) (by rw [hlen]; exact (hc.toNat_paddr hp hc.pos).2) hne
    rw [hp] at htrans
    rw [bind_of_ok htrans, bind_some]
    cases hq : memoryAt m (paddr + c.off).toNat with
    | none =>
      rw [hq] at hwrite
      exact .inl ⟨rfl, _, bind_of_error hwrite⟩
    | some q =>
      rw [hq] at hwrite
      exact .inr ⟨_, wroteChunk_write hc hdata hp hq, bind_of_ok hwrite⟩

end

/-- The writing loop goes on until a byte has no memory behind it. -/
theorem writeChunks_spec (hends : m.TableEnds) {cs : List Chunk} (ht : Tiles vaddrStart a cs b) (hb : b ≤ data.length) :
    (∃ m', writeChunks data cs m = .ok () m' ∧ WroteChunks vaddrStart data a m b m') ∨
      ∃ e m' i, i < b ∧ writeChunks data cs m = .error e m' ∧ WroteChunks vaddrStart data a m i m' ∧
        virtualPlace m' (vaddrStart + BitVec.ofNat 64 i) = none := by
  induction ht generalizing m with
  | nil a => exact .inl ⟨m, rfl, .nil a m⟩
  | @cons a b c cs hc ha hcs ih =>
    subst ha
    have hle := hcs.le
    have hpos := hc.pos
    rcases writeChunks_cons hc (hle.trans hb) hends cs with ⟨hnone, e, hrun⟩ | ⟨m1, hwrote, hrun⟩
    · exact .inr ⟨e, m, c.chunkoff.toNat, by omega, hrun, .nil _ m, hnone⟩
    · have hpage : (vaddrStart.toNat + c.chunkoff.toNat) % pmaPageSize + c.chunklen.toNat ≤ pmaPageSize := by
        have h1 := hc.page_mod
        have h2 := hc.end_le
        have h3 := hc.address
        simp only [pmaPageSize] at *
        omega
      have hends1 : m1.TableEnds := by
        rw [RunState.TableEnds, hwrote.rest.ranges_eq]
        exact hends
      rw [hrun]
      rcases ih hends1 hb with ⟨m', hok, hrest⟩ | ⟨e, m', i, hi, herr, hrest, hnone⟩
      · exact .inl ⟨m', hok, .cons hpos hpage hwrote hrest⟩
      · exact .inr ⟨e, m', i, hi, herr, .cons hpos hpage hwrote hrest, hnone⟩

theorem writeVirtualMemory_spec (hends : m.TableEnds)
    (hfit : vaddrStart.toNat + data.length ≤ 2 ^ 64 - pmaPageSize) :
    (∃ m', writeVirtualMemory vaddrStart data m = .ok () m' ∧ WroteChunks vaddrStart data 0 m data.length m') ∨
      ∃ e m' i, i < data.length ∧ writeVirtualMemory vaddrStart data m = .error e m' ∧
        WroteChunks vaddrStart data 0 m i m' ∧ virtualPlace m' (vaddrStart + BitVec.ofNat 64 i) = none := by
  rw [writeVirtualMemory]
  by_cases h0 : data = []
  · subst h0
    exact .inl ⟨m, rfl, .nil 0 m⟩
  · have hlen : (BitVec.ofNat 64 data.length).toNat = data.length := by
      rw [toNat_ofNat]
      simp only [pmaPageSize] at hfit
      omega
    rw [← hlen] at hfit
    have htiles := chunks_tile hfit (by rw [hlen]; exact List.length_pos_iff.mpr h0)
    rw [hlen] at htiles
    rw [if_neg h0]
    exact writeChunks_spec hends htiles (Nat.le_refl _)

/-! ## Requests below the last page -/

/-- A request that does not reach the last page of the address space.

* Reading goes through every byte of the request once. It succeeds iff every byte can be read, and then the buffer has
  them and nothing else is changed. Devices can be read;
* writing stores the bytes chunk after chunk until one has no memory behind it, and then it fails. -/
theorem virtualMemory_access (m : RunState) (hends : m.TableEnds) (vaddrStart : Word) :
    (∀ length data, vaddrStart.toNat + length.toNat ≤ 2 ^ 64 - pmaPageSize →
      (length ≠ 0 → Tiles vaddrStart 0 (chunks vaddrStart length) length.toNat) ∧
      (((∀ i, i < length.toNat → (virtualByte m (vaddrStart + BitVec.ofNat 64 i)).isSome = true) ∧
          readVirtualMemory vaddrStart data length m = .ok (filled m vaddrStart data 0 length.toNat) m) ∨
        (∃ i, i < length.toNat ∧ virtualByte m (vaddrStart + BitVec.ofNat 64 i) = none) ∧
          ∃ e, readVirtualMemory vaddrStart data length m = .error e m)) ∧
    ∀ data : List Byte, vaddrStart.toNat + data.length ≤ 2 ^ 64 - pmaPageSize →
      (∃ m', writeVirtualMemory vaddrStart data m = .ok () m' ∧ WroteChunks vaddrStart data 0 m data.length m') ∨
        ∃ e m' i, i < data.length ∧ writeVirtualMemory vaddrStart data m = .error e m' ∧
          WroteChunks vaddrStart data 0 m i m' ∧ virtualPlace m' (vaddrStart + BitVec.ofNat 64 i) = none :=
  ⟨fun length data hfit => ⟨fun h0 => chunks_tile hfit (toNat_pos_of_ne_zero h0),
    readVirtualMemory_spec hends length hfit data⟩,
    fun _ hfit => writeVirtualMemory_spec hends hfit⟩

/-- Requests across the boundary of two pages of a small machine: a read and a write of a buffer, and a read at the end
of the RAM. -/
theorem virtualMemory_access_pages :
    let a := pmaCmioRxBufferStart + 0xfff
    readVirtualMemory a (fun _ => 1) 2 (.small []) = .ok (filled (.small []) a (fun _ => 1) 0 2) (.small []) ∧
      (∃ m', writeVirtualMemory a [1, 2] (.small []) = .ok () m' ∧ WroteChunks a [1, 2] 0 (.small []) 2 m') ∧
      ∃ e, readVirtualMemory (pmaRamStart + 0xfff) (fun _ => 0) 2 (.small []) = .error e (.small []) := by
  intro a
  have hends : (RunState.small []).ranges.length < pmaMax := by decide
  refine ⟨?_, ?_, ?_⟩
  · rcases ((virtualMemory_access (.small []) hends a).1 2 (fun _ => 1) (by decide)).2 with ⟨-, hrun⟩ | ⟨hnone, -⟩
    · exact hrun
    · exact absurd hnone (by decide)
  · have hok : (writeVirtualMemory a [1, 2]).succeedsWith (.small []) fun _ m' => m'.s.mem 0x60001000 = 2 := by decide
    obtain ⟨_, m1, hrun, -⟩ := EStateM.exists_of_succeedsWith hok
    rcases (virtualMemory_access (.small []) hends a).2 [1, 2] (by decide) with hwrote | ⟨e, m', i, -, herr, -⟩
    · exact hwrote
    · cases hrun.symm.trans herr
  · rcases ((virtualMemory_access (.small []) hends (pmaRamStart + 0xfff)).1 2 (fun _ => 0) (by decide)).2 with
      ⟨hall, -⟩ | ⟨-, herr⟩
    · exact absurd (hall 1 (by decide)) (by decide)
    · exact herr

/-- The timer is not memory, and it can be read. The last byte of the address space is in no range, and a read of it
succeeds without reading anything. -/
theorem readVirtualMemory_clint : (virtualPlace (.small []) pmaClintStart = none ∧
      (readVirtualMemory pmaClintStart (fun _ => 1) 1).succeedsWith (.small []) fun data _ => data 0 = 0) ∧
    virtualByte (.small []) (-1) = none ∧
      (readVirtualMemory (-1) (fun _ => 1) 1).succeedsWith (.small []) fun data _ => data 0 = 1 := by
  decide

end MachineEmulator.Host
