import MachineEmulator.AccessLog

/-!
# Writing to the memory of a range

* `PagedMemory` : host memory with its dirty page map, both by physical address;
* `writeMemory`, `fillMemory` : what a memory range does with a buffer. More than a page is stored in
  chunks of page size that start where the buffer starts, and a chunk that is already there is left
  alone;
* `write_mem` : either way the memory ends up with the buffer written;
* `write_dirty_of_changed`, `write_clean` : a chunk that is stored marks the page it starts in, and no
  other. When the buffer starts at a page every changed page is marked (`write_marks`); when it does
  not, a chunk changes bytes of a second page that only the next chunk may mark;
* `writePadded` : a buffer written and filled up with zeros. The fill starts where the buffer ends, so its
  chunks are not pages. It marks every page it changes if `FillMarks` holds (`writePadded_marks`), and a
  page that fails it stays clean (`writePadded_clean`).
-/

namespace MachineEmulator

open List Nat

structure PagedMemory where
  mem : Nat → Byte
  dirty : Nat → Bool

namespace PagedMemory

/-- Mark the pages of `size` bytes, counted from the page of the address. -/
def markDirtyPages (s : PagedMemory) (address size : Nat) : PagedMemory :=
  let first := address / pmaPageSize
  let npages := (size + pmaPageSize - 1) / pmaPageSize
  { s with dirty := fun page => s.dirty page || decide (first ≤ page ∧ page < first + npages) }

def store (s : PagedMemory) (paddr : Nat) (bs : List Byte) : PagedMemory :=
  { s with mem := writeBytes s.mem paddr bs }.markDirtyPages paddr bs.length

/-- Store a chunk, unless the memory holds it already. -/
def storeChunk (s : PagedMemory) (paddr : Nat) (bs : List Byte) : PagedMemory :=
  if readBytes s.mem paddr bs.length = bs then s else s.store paddr bs

/-- Store a buffer in chunks of page size. -/
def storeChunks (s : PagedMemory) (paddr : Nat) (bs : List Byte) : PagedMemory :=
  if _h : bs = [] then s
  else (s.storeChunk paddr (bs.take pmaPageSize)).storeChunks (paddr + pmaPageSize)
    (bs.drop pmaPageSize)
termination_by bs.length
decreasing_by
  have := length_pos_of_ne_nil _h
  simp only [length_drop, pmaPageSize]
  omega

/-- Store a buffer, by chunks if it is larger than a page. -/
def write (s : PagedMemory) (paddr : Nat) (bs : List Byte) : PagedMemory :=
  if pmaPageSize < bs.length then s.storeChunks paddr bs else s.store paddr bs

/-- Store `n` times a value, by chunks if this clears more than a page. -/
def fill (s : PagedMemory) (paddr : Nat) (value : Byte) (n : Nat) : PagedMemory :=
  if value = 0 then s.write paddr (List.replicate n value) else s.store paddr (List.replicate n value)

/-- Store a buffer and fill up to `total` bytes with zeros. -/
def writePadded (s : PagedMemory) (start : Nat) (bs : List Byte) (total : Nat) : PagedMemory :=
  (s.write start bs).write (start + bs.length) (List.replicate (total - bs.length) 0)

/-- Filling up to `total` bytes after the first `len`: if this clears a byte of page `j` from the chunk that
starts in the page before, it also clears a byte from the chunk that starts in page `j`. -/
def FillMarks (mem : Nat → Byte) (start len total : Nat) : Prop :=
  ∀ j, len / pmaPageSize < j → j * pmaPageSize < total →
    (∃ k, k < len % pmaPageSize ∧ mem (start + j * pmaPageSize + k) ≠ 0) →
    ∃ k, len % pmaPageSize ≤ k ∧ k < len % pmaPageSize + pmaPageSize ∧
      j * pmaPageSize + k < total ∧ mem (start + j * pmaPageSize + k) ≠ 0

/-- Writing a buffer at `a`: if this changes a byte in the page after the one that its chunk starts in, the page is
dirty already, or the chunk that starts in it marks it. `every` says that chunks mark even if they change nothing. -/
def MarksSpill (every : Bool) (s : PagedMemory) (a : Nat) (bs : List Byte) : Prop :=
  ∀ k < bs.length, writeBytes s.mem a bs (a + k) ≠ s.mem (a + k) →
    (a + k) / pmaPageSize ≠ a / pmaPageSize + k / pmaPageSize →
    s.dirty ((a + k) / pmaPageSize) = true ∨
      ∃ i < bs.length, i / pmaPageSize = k / pmaPageSize + 1 ∧
        (every = true ∨ writeBytes s.mem a bs (a + i) ≠ s.mem (a + i))

end PagedMemory

/-- Only a memory range that contains all of a buffer can be written. -/
def PmaEntry.checkMemory (p : PmaEntry) (paddr : Word) (size : Nat) : Except String Unit := do
  throwUnless (p.istartM = true) "address range not entirely in memory PMA"
  throwUnless (p.contains paddr (BitVec.ofNat 64 size) = true) "range not contained in pma"

def PmaEntry.writeMemory (p : PmaEntry) (s : PagedMemory) (paddr : Word) (data : List Byte) :
    Except String PagedMemory := do
  p.checkMemory paddr data.length
  .ok (s.write paddr.toNat data)

/-- Filling with zeros goes by chunks as writing does, filling with another value does not. -/
def PmaEntry.fillMemory (p : PmaEntry) (s : PagedMemory) (paddr : Word) (value : Byte) (size : Nat) :
    Except String PagedMemory := do
  p.checkMemory paddr size
  .ok (s.fill paddr.toNat value size)

namespace PagedMemory

variable {s : PagedMemory} {a : Nat} {bs : List Byte}

/-! ## The memory -/

@[simp] theorem storeChunk_mem (s : PagedMemory) (a : Nat) (bs : List Byte) :
    (s.storeChunk a bs).mem = writeBytes s.mem a bs := by
  unfold storeChunk
  split
  · rename_i h
    rw [writeBytes_of_readBytes h]
  · rfl

theorem storeChunks_mem (s : PagedMemory) (a : Nat) (bs : List Byte) :
    (s.storeChunks a bs).mem = writeBytes s.mem a bs := by
  induction s, a, bs using storeChunks.induct with
  | case1 s a => rw [storeChunks, dif_pos rfl, writeBytes_nil]
  | case2 s a bs h ih =>
    rw [storeChunks, dif_neg h, ih, storeChunk_mem]
    by_cases hl : bs.length ≤ pmaPageSize
    · rw [take_of_length_le hl, drop_of_length_le hl, writeBytes_nil]
    · have hlen : (bs.take pmaPageSize).length = pmaPageSize := by
        rw [length_take]
        omega
      have happ := writeBytes_append s.mem a (bs.take pmaPageSize) (bs.drop pmaPageSize)
      rwa [hlen, take_append_drop] at happ

@[simp] theorem write_mem (s : PagedMemory) (a : Nat) (bs : List Byte) :
    (s.write a bs).mem = writeBytes s.mem a bs := by
  unfold write
  split
  · exact storeChunks_mem s a bs
  · rfl

@[simp] theorem fill_mem (s : PagedMemory) (a : Nat) (value : Byte) (n : Nat) :
    (s.fill a value n).mem = writeBytes s.mem a (replicate n value) := by
  unfold fill
  split
  · exact write_mem s a _
  · rfl

/-! ## The dirty pages -/

variable {j k x start total : Nat}

/-- A buffer of at most a page marks the page it starts in. -/
theorem store_dirty (hne : bs ≠ []) (hl : bs.length ≤ pmaPageSize) :
    (s.store a bs).dirty j = true ↔ s.dirty j = true ∨ a / pmaPageSize = j := by
  have hpos := length_pos_of_ne_nil hne
  have hpages : (bs.length + pmaPageSize - 1) / pmaPageSize = 1 := by
    simp only [pmaPageSize] at *
    omega
  simp only [store, markDirtyPages, Bool.or_eq_true, decide_eq_true_eq, hpages]
  refine or_congr_right ?_
  omega

theorem storeChunk_dirty (hne : bs ≠ []) (hl : bs.length ≤ pmaPageSize) :
    (s.storeChunk a bs).dirty j = true ↔ s.dirty j = true ∨
      (a / pmaPageSize = j ∧ ∃ k < bs.length, writeBytes s.mem a bs (a + k) ≠ s.mem (a + k)) := by
  unfold storeChunk
  split
  · rename_i h
    rw [writeBytes_of_readBytes h]
    simp
  · rename_i h
    rw [readBytes_eq_iff] at h
    push Not at h
    rw [store_dirty hne hl]
    simp [h]

/-- The pages that chunks mark: those where a chunk starts that changes a byte. -/
theorem storeChunks_dirty (s : PagedMemory) (a : Nat) (bs : List Byte) (j : Nat) :
    (s.storeChunks a bs).dirty j = true ↔ s.dirty j = true ∨
      ∃ k < bs.length, a / pmaPageSize + k / pmaPageSize = j ∧
        writeBytes s.mem a bs (a + k) ≠ s.mem (a + k) := by
  induction s, a, bs using storeChunks.induct with
  | case1 s a =>
    rw [storeChunks, dif_pos rfl]
    simp
  | case2 s a bs hne ih =>
    have hmem := storeChunks_mem s a bs
    rw [storeChunks, dif_neg hne, storeChunks_mem, storeChunk_mem] at hmem
    rw [storeChunks, dif_neg hne, ih, storeChunk_dirty (by simpa [pmaPageSize] using hne) (by simp),
      storeChunk_mem, hmem, or_assoc]
    refine or_congr_right ?_
    have hpage : (a + pmaPageSize) / pmaPageSize = a / pmaPageSize + 1 :=
      add_div_right _ (by decide)
    -- the first chunk and the rest of the buffer, seen as parts of the whole write
    have hfirst : ∀ k < (bs.take pmaPageSize).length,
        writeBytes s.mem a (bs.take pmaPageSize) (a + k) = writeBytes s.mem a bs (a + k) := by
      intro k hk
      rw [writeBytes_of_mem hk, writeBytes_of_mem (by rw [length_take] at hk; omega)]
      exact getElem_take
    have hrest : ∀ k, writeBytes s.mem a (bs.take pmaPageSize) (a + pmaPageSize + k) =
        s.mem (a + pmaPageSize + k) := by
      intro k
      refine writeBytes_of_not_mem (.inr ?_)
      rw [length_take]
      omega
    rw [hpage]
    simp only [hrest]
    constructor
    · rintro (⟨hj, k, hk, hch⟩ | ⟨k, hk, hj, hch⟩)
      · rw [hfirst k hk] at hch
        rw [length_take] at hk
        exact ⟨k, by omega, by rw [div_eq_of_lt (a := k) (by omega)]; exact hj, hch⟩
      · rw [length_drop] at hk
        refine ⟨pmaPageSize + k, by omega, ?_, by rwa [← Nat.add_assoc]⟩
        rw [add_div_left _ (by decide)]
        omega
    · rintro ⟨k, hk, hj, hch⟩
      by_cases hlt : k < pmaPageSize
      · rw [div_eq_of_lt hlt] at hj
        refine .inl ⟨hj, k, ?_, ?_⟩
        · rw [length_take]
          omega
        · rwa [hfirst k (by rw [length_take]; omega)]
      · obtain ⟨i, rfl⟩ := Nat.exists_eq_add_of_le (Nat.le_of_not_lt hlt)
        rw [add_div_left _ (by decide)] at hj
        refine .inr ⟨i, by rw [length_drop]; omega, by omega, ?_⟩
        rwa [Nat.add_assoc]

theorem write_dirty_mono (s : PagedMemory) (a : Nat) (bs : List Byte)
    (hj : s.dirty j = true) : (s.write a bs).dirty j = true := by
  unfold write
  split
  · exact (storeChunks_dirty s a bs j).mpr (.inl hj)
  · simp [store, markDirtyPages, hj]

theorem fill_dirty_mono (s : PagedMemory) (a : Nat) (value : Byte) (n : Nat)
    (hj : s.dirty j = true) : (s.fill a value n).dirty j = true := by
  unfold fill
  split
  · exact write_dirty_mono s a _ hj
  · simp [store, markDirtyPages, hj]

/-- A byte that changes marks the page its chunk starts in. -/
theorem write_dirty_of_changed (hk : k < bs.length) (hch : writeBytes s.mem a bs (a + k) ≠ s.mem (a + k)) :
    (s.write a bs).dirty (a / pmaPageSize + k / pmaPageSize) = true := by
  unfold write
  split
  · exact (storeChunks_dirty s a bs _).mpr (.inr ⟨k, hk, rfl, hch⟩)
  · rename_i hl
    refine (store_dirty (ne_nil_of_length_pos (by omega)) (by omega)).mpr (.inr ?_)
    rw [div_eq_of_lt (show k < pmaPageSize by omega), Nat.add_zero]

/-- A page after the first stays clean if the chunk that starts in it changes nothing. -/
theorem write_clean (hj : s.dirty j = false) (hlt : a / pmaPageSize < j)
    (hsame : ∀ k < bs.length, a / pmaPageSize + k / pmaPageSize = j →
      writeBytes s.mem a bs (a + k) = s.mem (a + k)) : (s.write a bs).dirty j = false := by
  rw [Bool.eq_false_iff]
  intro hd
  unfold write at hd
  split at hd
  · rcases (storeChunks_dirty s a bs j).mp hd with h | ⟨k, hk, hkj, hch⟩
    · rw [hj] at h
      cases h
    · exact hch (hsame k hk hkj)
  · rename_i hl
    by_cases hne : bs = []
    · subst hne
      have h0 : (([] : List Byte).length + pmaPageSize - 1) / pmaPageSize = 0 := rfl
      simp only [store, markDirtyPages, hj, Bool.false_or, decide_eq_true_eq, h0] at hd
      omega
    · rcases (store_dirty hne (by omega)).mp hd with h | h
      · rw [hj] at h
        cases h
      · omega

theorem exists_of_changed {mem : Nat → Byte} (hx : writeBytes mem a bs x ≠ mem x) : ∃ k < bs.length, x = a + k := by
  have hin : a ≤ x ∧ x < a + bs.length := by
    by_contra hout
    exact hx (writeBytes_of_not_mem (by omega))
  exact ⟨x - a, by omega, by omega⟩

/-- A buffer that starts at a page marks every page it changes. -/
theorem write_marks (ha : a % pmaPageSize = 0) (hx : writeBytes s.mem a bs x ≠ s.mem x) :
    (s.write a bs).dirty (x / pmaPageSize) = true := by
  obtain ⟨k, hk, rfl⟩ := exists_of_changed hx
  have hpage : (a + k) / pmaPageSize = a / pmaPageSize + k / pmaPageSize := by
    simp only [pmaPageSize] at *
    omega
  rw [hpage]
  exact write_dirty_of_changed hk hx

/-- If the pages that are marked are those where a chunk starts (that changes a byte, or any), the changed pages are
marked iff those that chunks spill into are. -/
theorem marks_iff_of_dirty {d : Nat → Bool} {every : Bool}
    (hd : ∀ j, d j = true ↔ s.dirty j = true ∨ ∃ k < bs.length, a / pmaPageSize + k / pmaPageSize = j ∧
      (every = true ∨ writeBytes s.mem a bs (a + k) ≠ s.mem (a + k))) :
    (∀ x, writeBytes s.mem a bs x ≠ s.mem x → d (x / pmaPageSize) = true) ↔ s.MarksSpill every a bs := by
  constructor
  · intro h k hk hch hpage
    refine ((hd _).mp (h _ hch)).imp_right ?_
    rintro ⟨i, hi, hij, hmark⟩
    refine ⟨i, hi, ?_, hmark⟩
    simp only [pmaPageSize] at *
    omega
  · intro h x hx
    obtain ⟨k, hk, rfl⟩ := exists_of_changed hx
    by_cases hpage : (a + k) / pmaPageSize = a / pmaPageSize + k / pmaPageSize
    · exact (hd _).mpr (.inr ⟨k, hk, hpage.symm, .inr hx⟩)
    · refine (hd _).mpr ((h k hk hx hpage).imp_right ?_)
      rintro ⟨i, hi, hik, hmark⟩
      refine ⟨i, hi, ?_, hmark⟩
      simp only [pmaPageSize] at *
      omega

/-- The pages that a store marks, counted by the bytes of the buffer. -/
theorem store_dirty_iff (s : PagedMemory) (a : Nat) (bs : List Byte) (j : Nat) : (s.store a bs).dirty j = true ↔
      s.dirty j = true ∨ ∃ k < bs.length, a / pmaPageSize + k / pmaPageSize = j := by
  simp only [store, markDirtyPages, Bool.or_eq_true, decide_eq_true_eq]
  refine or_congr_right ⟨?_, ?_⟩
  · rintro ⟨h₁, h₂⟩
    refine ⟨(j - a / pmaPageSize) * pmaPageSize, ?_, ?_⟩
    · simp only [pmaPageSize] at *
      omega
    · rw [Nat.mul_div_cancel _ (by decide)]
      omega
  · rintro ⟨k, hk, rfl⟩
    simp only [pmaPageSize] at *
    omega

theorem store_marks_iff (s : PagedMemory) (a : Nat) (bs : List Byte) :
    (∀ x, (s.store a bs).mem x ≠ s.mem x → (s.store a bs).dirty (x / pmaPageSize) = true) ↔
      s.MarksSpill true a bs :=
  marks_iff_of_dirty fun j => by simp [store_dirty_iff]

theorem write_marks_iff (s : PagedMemory) (a : Nat) (bs : List Byte) :
    (∀ x, (s.write a bs).mem x ≠ s.mem x → (s.write a bs).dirty (x / pmaPageSize) = true) ↔
      s.MarksSpill false a bs := by
  rw [write_mem]
  by_cases hl : pmaPageSize < bs.length
  · refine marks_iff_of_dirty fun j => ?_
    rw [write, if_pos hl, storeChunks_dirty]
    simp
  · -- a buffer of at most a page is one chunk: there is no other that could mark a page
    rw [write, if_neg hl]
    refine (store_marks_iff s a bs).trans (forall₄_congr fun k hk hch hpage => or_congr_right ?_)
    refine exists_congr fun i => and_congr_right fun hi => and_congr_right fun hik => ?_
    simp only [pmaPageSize] at *
    omega

/-- Filling with zeros marks as writing does. Filling with another value is one store. -/
theorem fill_marks_iff (s : PagedMemory) (a : Nat) (value : Byte) (n : Nat) :
    (∀ x, (s.fill a value n).mem x ≠ s.mem x → (s.fill a value n).dirty (x / pmaPageSize) = true) ↔
      s.MarksSpill (decide (value ≠ 0)) a (replicate n value) := by
  unfold fill
  split
  · rename_i hv
    rw [write_marks_iff, decide_eq_false (not_not.mpr hv)]
  · rename_i hv
    rw [store_marks_iff, decide_eq_true hv]

theorem write_nil (s : PagedMemory) (a : Nat) : s.write a [] = s := by
  have h0 : (([] : List Byte).length + pmaPageSize - 1) / pmaPageSize = 0 := rfl
  have hnone : ∀ page, ¬ (a / pmaPageSize ≤ page ∧ page < a / pmaPageSize) := fun page => by omega
  rw [write, if_neg (by decide), store, markDirtyPages]
  simp only [h0, Nat.add_zero, hnone, decide_false, Bool.or_false, writeBytes_nil]

/-! ## Padded buffers -/

theorem writePadded_mem (s : PagedMemory) (start : Nat) (bs : List Byte) (total : Nat) :
    (s.writePadded start bs total).mem =
      writeBytes s.mem start (bs ++ replicate (total - bs.length) 0) := by
  rw [writePadded, write_mem, write_mem, writeBytes_append]

theorem fill_byte {f : Nat → Byte} {n : Nat} (hk : k < n) :
    writeBytes f a (replicate n 0) (a + k) = 0 := by
  rw [writeBytes_of_mem (by rwa [length_replicate])]
  simp

theorem write_mem_beyond (hx : start + bs.length ≤ x) : (s.write start bs).mem x = s.mem x := by
  rw [write_mem]
  exact writeBytes_of_not_mem (.inr hx)

theorem writePadded_dirty_mono (hj : s.dirty j = true) : (s.writePadded start bs total).dirty j = true :=
  write_dirty_mono _ _ _ (write_dirty_mono _ _ _ hj)

/-- The chunk of the fill that a nonzero byte lies in marks the page it starts in. -/
theorem writePadded_dirty_of_nonzero (hk : bs.length + k < total) (hne : s.mem (start + bs.length + k) ≠ 0) :
    (s.writePadded start bs total).dirty ((start + bs.length) / pmaPageSize + k / pmaPageSize) = true := by
  refine write_dirty_of_changed (by rw [length_replicate]; omega) ?_
  rw [fill_byte (by omega), write_mem_beyond (Nat.le_add_right _ _)]
  exact hne.symm

/-- A fill that passes `FillMarks` leaves no changed page without a mark. -/
theorem writePadded_marks (hstart : start % pmaPageSize = 0) (hfill : FillMarks s.mem start bs.length total)
    (hch : (s.writePadded start bs total).mem x ≠ s.mem x) :
    (s.writePadded start bs total).dirty (x / pmaPageSize) = true := by
  by_cases hfirst : (s.write start bs).mem x = s.mem x
  · -- the byte is cleared by the fill
    have hin : start + bs.length ≤ x ∧ x < start + bs.length + (total - bs.length) := by
      by_contra hout
      refine hch (Eq.trans ?_ hfirst)
      rw [writePadded, write_mem _ (start + bs.length)]
      exact writeBytes_of_not_mem (by rw [length_replicate]; omega)
    obtain ⟨k, rfl⟩ := Nat.exists_eq_add_of_le hin.1
    have hk : bs.length + k < total := by omega
    have hne : s.mem (start + bs.length + k) ≠ 0 := by
      intro h0
      refine hch ?_
      rw [h0, writePadded, write_mem, fill_byte (by omega)]
    have hmark := writePadded_dirty_of_nonzero hk hne
    by_cases hpage : (start + bs.length + k) / pmaPageSize =
        (start + bs.length) / pmaPageSize + k / pmaPageSize
    · rwa [hpage]
    · -- the chunk started in the page before
      obtain ⟨j, hj⟩ : ∃ j, (start + bs.length + k) / pmaPageSize = start / pmaPageSize + j :=
        Nat.exists_eq_add_of_le (by simp only [pmaPageSize]; omega)
      have hlt : bs.length / pmaPageSize < j ∧ j * pmaPageSize < total ∧
          (start + bs.length + k) % pmaPageSize < bs.length % pmaPageSize ∧
          start + j * pmaPageSize + (start + bs.length + k) % pmaPageSize = start + bs.length + k := by
        simp only [pmaPageSize] at *
        omega
      obtain ⟨i, h₁, h₂, h₃, hi⟩ := hfill j hlt.1 hlt.2.1 ⟨_, hlt.2.2.1, by rwa [hlt.2.2.2]⟩
      have hadd : start + bs.length + (j * pmaPageSize + i - bs.length) = start + j * pmaPageSize + i ∧
          bs.length + (j * pmaPageSize + i - bs.length) < total ∧
          (start + bs.length) / pmaPageSize + (j * pmaPageSize + i - bs.length) / pmaPageSize =
            (start + bs.length + k) / pmaPageSize := by
        simp only [pmaPageSize] at *
        omega
      rw [← hadd.2.2]
      exact writePadded_dirty_of_nonzero hadd.2.1 (by rwa [hadd.1])
  · rw [write_mem] at hfirst
    exact write_dirty_mono _ _ _ (write_marks hstart hfirst)

theorem writePadded_clean (hstart : start % pmaPageSize = 0) (hj : bs.length / pmaPageSize < j)
    (hzero : ∀ k, bs.length % pmaPageSize ≤ k → k < bs.length % pmaPageSize + pmaPageSize →
      j * pmaPageSize + k < total → s.mem (start + j * pmaPageSize + k) = 0)
    (hclean : s.dirty (start / pmaPageSize + j) = false) :
    (s.writePadded start bs total).dirty (start / pmaPageSize + j) = false := by
  have hpos : 0 < j := Nat.lt_of_le_of_lt (Nat.zero_le _) hj
  refine write_clean (write_clean hclean (by omega) fun k hk hkj => ?_) ?_ fun k hk hkj => ?_
  · -- the buffer ends before the page
    simp only [pmaPageSize] at *
    omega
  · simp only [pmaPageSize] at *
    omega
  · rw [length_replicate] at hk
    have hin : bs.length % pmaPageSize ≤ bs.length + k - j * pmaPageSize ∧
        bs.length + k - j * pmaPageSize < bs.length % pmaPageSize + pmaPageSize ∧
        j * pmaPageSize + (bs.length + k - j * pmaPageSize) < total ∧
        start + j * pmaPageSize + (bs.length + k - j * pmaPageSize) = start + bs.length + k := by
      simp only [pmaPageSize] at *
      omega
    have hbyte := hzero _ hin.1 hin.2.1 hin.2.2.1
    rw [hin.2.2.2] at hbyte
    rw [fill_byte (by omega), write_mem_beyond (by omega), hbyte]

end PagedMemory

/-! ## Ranges -/

variable {p : PmaEntry} {paddr : Word} {size : Nat} {s s' : PagedMemory}

theorem PmaEntry.checkMemory_ok_iff {u : Unit} : p.checkMemory paddr size = .ok u ↔
      p.istartM = true ∧ p.contains paddr (BitVec.ofNat 64 size) = true := by
  unfold checkMemory
  rw [except_bind_ok_iff]
  simp only [throwUnless_ok_iff, exists_const]

theorem check_bind_ok_iff {x : Except String Unit} : (x >>= fun _ => .ok s) = .ok s' ↔ x = .ok () ∧ s' = s := by
  rw [except_bind_ok_iff]
  constructor
  · rintro ⟨_, h, hs⟩
    exact ⟨h, (Except.ok.inj hs).symm⟩
  · rintro ⟨h, rfl⟩
    exact ⟨(), h, rfl⟩

theorem PmaEntry.writeMemory_ok_iff {data : List Byte} : p.writeMemory s paddr data = .ok s' ↔
      p.checkMemory paddr data.length = .ok () ∧ s' = s.write paddr.toNat data :=
  check_bind_ok_iff

theorem PmaEntry.fillMemory_ok_iff {value : Byte} : p.fillMemory s paddr value size = .ok s' ↔
      p.checkMemory paddr size = .ok () ∧ s' = s.fill paddr.toNat value size :=
  check_bind_ok_iff

theorem PmaEntry.fillMemory_zero_ok_iff : p.fillMemory s paddr 0 size = .ok s' ↔
      p.checkMemory paddr size = .ok () ∧ s' = s.write paddr.toNat (replicate size 0) :=
  fillMemory_ok_iff

end MachineEmulator
