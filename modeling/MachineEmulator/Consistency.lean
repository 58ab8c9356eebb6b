import MachineEmulator.MachineTree

/-!
# The tree reflects the state image

* `pageHash h m i` : the hash of page `i` of the image;
* `peek_spec` : what a range shows of a page is that page of the image;
* `TreeHolds` : the tree holds exactly the page hashes of the image, with a node for every page that
  some range shows. Then the root is the root of the image (`TreeHolds.root_eq`);
* `Consistent` : every page that differs from the tree is going to be rehashed: it is marked dirty,
  belongs to the write TLB, or is a page of registers. Then `updateMerkleTree` gives `TreeHolds`
  (`Consistent.updateMerkleTree`).
-/

namespace MachineEmulator

open List MerklePma MachineState Function Machine EStateM

open Merkle (SparseTree nodeHash siblings)

namespace Machine

variable {H : Type} {h : Hasher H}

/-! ## Hashes of pages -/

def pageHash (h : Hasher H) (m : Machine H) : Nat → H :=
  nodeHash h.concat (h.leaf m.image) (log2PageSize - log2WordSize)

/-- Hashing the bytes under a node by halves gives the node. -/
theorem getPageNodeHash_readBytes (m : Nat → Byte) : ∀ d i n, wordSize * 2 ^ d ≤ n →
    getPageNodeHash h d (readBytes m (wordSize * (i * 2 ^ d)) n) = nodeHash h.concat (h.leaf m) d i
  | 0, i, n, hn => by
    rw [getPageNodeHash, take_readBytes (by simpa using hn), nodeHash, Hasher.leaf, Nat.pow_zero,
      Nat.mul_one]
  | d + 1, i, n, hn => by
    have e : wordSize * 2 ^ (d + 1) = wordSize * 2 ^ d + wordSize * 2 ^ d := by ring
    rw [getPageNodeHash, nodeHash, drop_readBytes (by omega),
      show wordSize * (i * 2 ^ (d + 1)) = wordSize * (2 * i * 2 ^ d) by ring,
      show wordSize * (2 * i * 2 ^ d) + wordSize * 2 ^ d = wordSize * ((2 * i + 1) * 2 ^ d) by ring,
      getPageNodeHash_readBytes m d _ _ (by omega), getPageNodeHash_readBytes m d _ _ (by omega)]

variable {i k : Nat} {m m' : Machine H} {q : MerklePma} {p : PmaEntry} {f : Nat → H} {tree : SparseTree H}
  {qs : List MerklePma}

theorem nodeHash_of_zero {m : Nat → Byte} {d : Nat}
    (hz : ∀ a, wordSize * (i * 2 ^ d) ≤ a → a < wordSize * ((i + 1) * 2 ^ d) → m a = 0) :
    nodeHash h.concat (h.leaf m) d i = pristineHash h (log2WordSize + d) := by
  rw [pristineHash, Nat.add_sub_cancel_left]
  refine Merkle.nodeHash_of_pristine fun j h1 h2 => ?_
  have hj := Nat.mul_le_mul_left wordSize h1
  have hj' := Nat.mul_le_mul_left wordSize (Nat.succ_le_of_lt h2)
  rw [Hasher.leaf]
  congr 1
  refine eq_replicate_iff.mpr ⟨length_readBytes _ _ _, fun b hb => ?_⟩
  obtain ⟨k, hk, rfl⟩ := mem_map.mp hb
  have hk := mem_range.mp hk
  rw [Nat.succ_eq_add_one, Nat.mul_add, Nat.mul_one] at hj'
  exact hz _ (by omega) (by omega)

def pageBytes (m : Machine H) (i : Nat) : List Byte := readBytes m.image (pmaPageSize * i) pmaPageSize

theorem getPageNodeHash_pageBytes (m : Machine H) (i : Nat) :
    getPageNodeHash h (log2PageSize - log2WordSize) (m.pageBytes i) = m.pageHash h i := by
  have e : pmaPageSize * i = wordSize * (i * 2 ^ (log2PageSize - log2WordSize)) := by
    simp only [pmaPageSize, wordSize, log2PageSize, log2WordSize]
    omega
  rw [pageBytes, e, getPageNodeHash_readBytes _ _ _ _ (by decide), pageHash]

theorem pageHash_of_zero (hz : ∀ k, k < pmaPageSize →
    m.image (pmaPageSize * i + k) = 0) : m.pageHash h i = pristineHash h log2PageSize := by
  rw [pageHash, nodeHash_of_zero]
  · rfl
  · intro a h1 h2
    simp only [pmaPageSize, wordSize, log2PageSize, log2WordSize] at *
    rw [← hz (a - 4096 * i) (by omega)]
    congr 1
    omega

/-! ## What the ranges show -/

theorem shadowUarchStatePma_paged : shadowUarchStatePma.Paged := by
  constructor <;> decide

theorem uarchRamPma_paged : uarchRamPma.Paged := by
  constructor <;> decide

theorem mem_merklePmas (hq : q ∈ m.merklePmas) :
    (∃ p ∈ m.s.board.ranges, .board p = q) ∨ q = .uarchState ∨ q = .uarchRam ∨ q = .empty := by
  simpa [merklePmas] using hq

theorem paged_of_mem (hq : q ∈ m.merklePmas) (hne : q ≠ .empty) : q.entry.Paged := by
  rcases mem_merklePmas hq with ⟨p, hp, rfl⟩ | rfl | rfl | rfl
  · exact m.s.board.wellFormed.paged p hp
  · exact shadowUarchStatePma_paged
  · exact uarchRamPma_paged
  · exact absurd rfl hne

theorem image_of_range (hd : m.s.board.UarchDisjoint)
    (hp : p ∈ m.s.board.ranges) {a : Nat} (ha : p.Mem a) : m.image a = m.s.rangeByte p a := by
  rw [image, if_neg ((hd p hp).1.not_mem ha), if_neg ((hd p hp).2.not_mem ha),
    m.s.boardByte_of_mem hp ha]

theorem page_mem (hq : q.entry.Paged) {j : Nat} (hk : k < pagesInRange q)
    (hj : j < pmaPageSize) : q.entry.Mem (pmaPageSize * q.page k + j) ∧
      pmaPageSize * q.page k = q.entry.start.toNat + k * pmaPageSize ∧
      k * pmaPageSize + pmaPageSize ≤ q.entry.length.toNat := by
  have h1 := hq.start_mod
  have h2 := hq.length_mod
  simp only [page, pagesInRange, PmaEntry.Mem, pmaPageSize] at *
  omega

theorem pageBytes_eq {f : Nat → Byte} {b : Nat}
    (hf : ∀ j, j < pmaPageSize → m.image (pmaPageSize * i + j) = f (b + j)) :
    m.pageBytes i = readBytes f b pmaPageSize :=
  readBytes_shift hf

theorem memoryPeek_eq {mem : Nat → Byte} (hk : k * pmaPageSize + pmaPageSize ≤ p.length.toNat) :
    memoryPeek mem p (k * pmaPageSize) =
      some (some (readBytes mem (p.start.toNat + k * pmaPageSize) pmaPageSize)) := by
  rw [memoryPeek, if_neg, if_neg (by omega)]
  simp only [pmaPageSize] at *
  omega

theorem devicePeek_eq {page : Option (List Byte)} (hk : k * pmaPageSize + pmaPageSize ≤ p.length.toNat) :
    devicePeek p (k * pmaPageSize) page = some page := by
  rw [devicePeek, if_neg]
  simp only [pmaPageSize] at *
  omega

/-- What a range shows of a page: the bytes of the image, or nothing if they are zero. -/
theorem peek_spec (hd : m.s.board.UarchDisjoint) (hq : q ∈ m.merklePmas) (hk : k < pagesInRange q) :
    m.peek q (k * pmaPageSize) = some (some (m.pageBytes (q.page k))) ∨
      (m.peek q (k * pmaPageSize) = some none ∧
        ∀ j, j < pmaPageSize → m.image (pmaPageSize * q.page k + j) = 0) := by
  have hne : q ≠ .empty := by
    rintro rfl
    have h0 : pagesInRange .empty = 0 := rfl
    omega
  have hpaged := paged_of_mem hq hne
  obtain ⟨-, hstart, hend⟩ := page_mem hpaged hk (j := 0) (by decide)
  rcases mem_merklePmas hq with ⟨p, hp, rfl⟩ | rfl | rfl | rfl
  · have hbyte : ∀ j, j < pmaPageSize → m.image (pmaPageSize * (board p).page k + j) =
        m.s.rangeByte p (p.start.toNat + k * pmaPageSize + j) := fun j hj => by
      rw [image_of_range hd hp (page_mem hpaged hk hj).1, hstart]
      rfl
    show boardPeek m.s p _ = _ ∨ boardPeek m.s p _ = _ ∧ _
    unfold boardPeek
    split
    · rename_i hM
      refine .inl ?_
      rw [memoryPeek_eq (p := p) hend, pageBytes_eq (f := m.s.mem) fun j hj => by
        rw [hbyte j hj, rangeByte, hM]]
    · rename_i hD hdid
      obtain ⟨hs, hl⟩ := (Board.shadow_range hp hD).1 hdid
      have hk0 : k = 0 := by
        have : p.length.toNat = 4096 := by rw [hl]; rfl
        simp only [entry, pmaPageSize] at hend
        omega
      subst hk0
      refine .inl ?_
      rw [firstPagePeek, if_neg (by simp),
        pageBytes_eq (f := wordsImage (shadowStateWords m.s)) (b := 0) fun j hj => by
        rw [hbyte j hj, rangeByte, hD, hdid, hs]
        simp [pmaShadowStateStart]]
    · rename_i hD hdid
      refine .inl ?_
      rw [devicePeek_eq (p := p) hend,
        pageBytes_eq (f := wordImage (shadowTlbWord m.s)) (b := k * pmaPageSize) fun j hj => by
        rw [hbyte j hj, rangeByte, hD, hdid]
        simp only
        rw [Nat.add_assoc, Nat.add_sub_cancel_left]]
    · rename_i hD hs ht
      refine .inr ⟨devicePeek_eq (p := p) hend, fun j hj => ?_⟩
      rw [hbyte j hj, rangeByte, hD]
      split <;> simp_all
    · rename_i hE
      exact absurd hE hpaged.not_empty
  · have hk0 : k = 0 := by
      have : shadowUarchStatePma.length.toNat = 4096 := rfl
      simp only [entry, pmaPageSize] at hend
      omega
    subst hk0
    refine .inl ?_
    rw [peek, firstPagePeek, if_neg (by simp),
      pageBytes_eq (f := wordsImage (shadowUarchStateWords m.uarch)) (b := 0) fun j hj => ?_]
    rw [hstart, show uarchState.entry.start.toNat + 0 * pmaPageSize + j =
      pmaShadowUarchStateStart.toNat + j by rw [Nat.zero_mul]; rfl, image_shadowUarch _ (by exact hj),
      Nat.zero_add]
  · refine .inl ?_
    show memoryPeek m.uarch.ram uarchRamPma _ = _
    rw [memoryPeek_eq (p := uarchRamPma) hend, pageBytes_eq (f := m.uarch.ram) fun j hj => ?_]
    have hmem : uarchRamPma.Mem (pmaPageSize * uarchRam.page k + j) :=
      (page_mem hpaged hk hj).1
    have hno : ¬ shadowUarchStatePma.Mem (pmaPageSize * uarchRam.page k + j) :=
      PmaEntry.Disjoint.not_mem (p := uarchRamPma) (by decide) hmem
    rw [image, if_neg hno, if_pos hmem, hstart]
    rfl
  · exact absurd rfl hne

/-! ## The machine without its tree -/

/-- The machine without what it keeps for the tree: the dirty maps and the tree itself. -/
def core (m : Machine H) : Machine H :=
  { s := { m.s with dirty := fun _ => false },
    uarch := { m.uarch with ramDirty := fun _ => false },
    tree := .nil }

theorem image_core (m : Machine H) : m.core.image = m.image := rfl

theorem image_congr (hc : m'.core = m.core) : m'.image = m.image := by
  rw [← image_core m', hc, image_core]

theorem peek_core (m : Machine H) (q : MerklePma) (offset : Nat) : m.core.peek q offset = m.peek q offset := by
  cases q <;> rfl

theorem peek_congr (hc : m'.core = m.core) (q : MerklePma) (offset : Nat) :
    m'.peek q offset = m.peek q offset := by
  rw [← peek_core m', hc, peek_core]

theorem board_congr (hc : m'.core = m.core) : m'.s.board = m.s.board := by
  have : m'.core.s.board = m.core.s.board := by rw [hc]
  exact this

theorem regs_congr (hc : m'.core = m.core) : m'.s.regs = m.s.regs := by
  have : m'.core.s.regs = m.core.s.regs := by rw [hc]
  exact this

theorem ram_congr (hc : m'.core = m.core) : m'.uarch.ram = m.uarch.ram := by
  have : m'.core.uarch.ram = m.core.uarch.ram := by rw [hc]
  exact this

theorem merklePmas_congr (hc : m'.core = m.core) : m'.merklePmas = m.merklePmas := by
  rw [merklePmas, board_congr hc, merklePmas]

theorem markPagesClean_core (m : Machine H) (q : MerklePma) : (m.markPagesClean q).core = m.core := by
  cases q with
  | board p =>
    simp only [markPagesClean]
    split <;> rfl
  | _ => rfl

/-! ## Rehashing pages -/

section
variable (h)

/-- The leaves of the tree, with the levels above. -/
abbrev Stores (f : Nat → H) (tree : SparseTree H) : Prop :=
  SparseTree.Stores h.concat (pristineHash h log2PageSize) f pageDepth 0 tree

abbrev Holds (f : Nat → H) (tree : SparseTree H) : Prop :=
  SparseTree.Holds h.concat (pristineHash h log2PageSize) f pageDepth 0 tree

end

/-- Some range shows bytes for page `i`. -/
def Shown (m : Machine H) (i : Nat) : Prop :=
  ∃ q ∈ m.merklePmas, ∃ k < pagesInRange q, q.page k = i ∧
    ∃ data, m.peek q (k * pmaPageSize) = some (some data)

/-- The leaf for page `i` is right, and stands in the tree if a range shows the page. -/
def Good (h : Hasher H) (m : Machine H) (f : Nat → H) (tree : SparseTree H) (i : Nat) : Prop :=
  f i = m.pageHash h i ∧ (m.Shown i → SparseTree.Present pageDepth i tree)

/-- Page `k` of a range is marked dirty and the range shows it. -/
def Rehashed (m : Machine H) (q : MerklePma) (k : Nat) : Prop :=
  m.isPageMarkedDirty q (k * pmaPageSize) = true ∧
    ∃ data, m.peek q (k * pmaPageSize) = some (some data)

/-- Page `i` is going to be rehashed when the ranges `qs` are gone over. -/
def Pending (m : Machine H) (qs : List MerklePma) (i : Nat) : Prop :=
  ∃ q ∈ qs, ∃ k < pagesInRange q, q.page k = i ∧ m.Rehashed q k

theorem page_lt (hq : q ∈ m.merklePmas) (hk : k < pagesInRange q) : q.page k < 2 ^ pageDepth := by
  have hne : q ≠ .empty := by
    rintro rfl
    have h0 : pagesInRange .empty = 0 := rfl
    omega
  have hpaged := paged_of_mem hq hne
  obtain ⟨-, h1, h2⟩ := page_mem hpaged hk (j := 0) (by decide)
  have h3 := hpaged.end_le
  have e : 2 ^ pageDepth = 2 ^ 52 := rfl
  rw [e]
  simp only [pmaPageSize] at h1 h2
  omega

/-- Writing the right hash of a page keeps every good page and adds this one. -/
theorem Good.insert {j : Nat} (hi : i = j ∨ Good h m f tree i) : Good h m (update f j (m.pageHash h j))
      (tree.insert h.concat (pristineHash h log2PageSize) pageDepth j (m.pageHash h j)) i := by
  by_cases hij : i = j
  · subst hij
    exact ⟨by simp, fun _ => SparseTree.present_insert_self _ _ _ _⟩
  · obtain ⟨h1, h2⟩ := hi.resolve_left hij
    exact ⟨by rw [update_of_ne hij, h1], fun hs => (h2 hs).insert⟩

/-- Rehashing one page: every good page stays good, and the page becomes good if it is pending. -/
theorem updateDirtyPage_spec (hd : m.s.board.UarchDisjoint) (hq : q ∈ m.merklePmas) (hk : k < pagesInRange q)
    (hf : Stores h f tree) : ∃ f' tree', updateDirtyPage h m q tree k = some tree' ∧ Stores h f' tree' ∧
      (∀ i, Good h m f tree i → Good h m f' tree' i) ∧ (m.Rehashed q k → Good h m f' tree' (q.page k)) ∧
      ∀ i, (m.Rehashed q k → q.page k ≠ i) → f' i = f i := by
  unfold updateDirtyPage
  by_cases hdirty : m.isPageMarkedDirty q (k * pmaPageSize) = true
  · simp only [hdirty, Bool.not_true, Bool.false_eq_true, if_false]
    rcases peek_spec hd hq hk with hpeek | ⟨hpeek, -⟩
    · rw [hpeek]
      -- a page of zeros is given the pristine hash, which is its hash
      have hhash : (if (m.pageBytes (q.page k)).all (· == 0) then pristineHash h log2PageSize
          else getPageNodeHash h (log2PageSize - log2WordSize) (m.pageBytes (q.page k))) =
          m.pageHash h (q.page k) := by
        split
        · rename_i hz
          refine (pageHash_of_zero fun j hj => ?_).symm
          have := all_eq_true.mp hz (m.image (pmaPageSize * q.page k + j))
            (mem_map.mpr ⟨j, mem_range.mpr hj, rfl⟩)
          simpa using this
        · exact getPageNodeHash_pageBytes m _
      have hne : q ≠ .empty := by
        rintro rfl
        have h0 : pagesInRange .empty = 0 := rfl
        omega
      have hidx : (q.entry.start.toNat + k * pmaPageSize) / pmaPageSize = q.page k := by
        rw [← (page_mem (paged_of_mem hq hne) hk (j := 0) (by decide)).2.1]
        exact Nat.mul_div_cancel_left _ (by decide)
      refine ⟨update f (q.page k) (m.pageHash h (q.page k)), _, rfl, ?_, fun i hi => ?_,
        fun _ => ?_, fun i hi => update_of_ne (hi ⟨hdirty, _, hpeek⟩).symm _ _⟩
      · rw [updatePageNodeHash, hidx, hhash]
        exact hf.insert (by simp) (by simpa using page_lt hq hk)
      · rw [updatePageNodeHash, hidx, hhash]
        exact Good.insert (.inr hi)
      · rw [updatePageNodeHash, hidx, hhash]
        exact Good.insert (.inl rfl)
    · rw [hpeek]
      refine ⟨f, tree, rfl, hf, fun _ hi => hi, fun ⟨_, data, hdata⟩ => ?_, fun _ _ => rfl⟩
      rw [hpeek] at hdata
      cases hdata
  · simp only [hdirty, Bool.not_false, if_true]
    exact ⟨f, tree, rfl, hf, fun _ hi => hi, fun hc => absurd hc.1 hdirty, fun _ _ => rfl⟩

theorem updateDirtyPages_spec (hd : m.s.board.UarchDisjoint)
    (hq : q ∈ m.merklePmas) : ∀ (ks : List Nat) (f : Nat → H) (tree : SparseTree H),
    (∀ k ∈ ks, k < pagesInRange q) → Stores h f tree →
    ∃ f' tree', ks.foldlM (updateDirtyPage h m q) tree = some tree' ∧ Stores h f' tree' ∧
      (∀ i, Good h m f tree i → Good h m f' tree' i) ∧
      (∀ k ∈ ks, m.Rehashed q k → Good h m f' tree' (q.page k)) ∧
      ∀ i, (∀ k ∈ ks, m.Rehashed q k → q.page k ≠ i) → f' i = f i
  | [], f, tree, _, hf => ⟨f, tree, rfl, hf, fun _ hi => hi, by simp, fun _ _ => rfl⟩
  | k :: ks, f, tree, hks, hf => by
    obtain ⟨hk, hks'⟩ := forall_mem_cons.mp hks
    obtain ⟨f1, t1, h1, hf1, hkeep1, hnew1, hsame1⟩ := updateDirtyPage_spec hd hq hk hf
    obtain ⟨f2, t2, h2, hf2, hkeep2, hnew2, hsame2⟩ := updateDirtyPages_spec hd hq ks f1 t1 hks' hf1
    refine ⟨f2, t2, ?_, hf2, fun i hi => hkeep2 i (hkeep1 i hi),
      forall_mem_cons.mpr ⟨fun hc => hkeep2 _ (hnew1 hc), hnew2⟩, fun i hi => ?_⟩
    · rw [foldlM_cons, h1]
      exact h2
    · obtain ⟨hik, hiks⟩ := forall_mem_cons.mp hi
      rw [hsame2 i hiks, hsame1 i hik]

theorem pageHash_congr (hc : m'.core = m.core) : m'.pageHash h = m.pageHash h := by
  rw [pageHash, image_congr hc, pageHash]

theorem shown_congr (hc : m'.core = m.core) (i : Nat) : m'.Shown i ↔ m.Shown i := by
  simp only [Shown, merklePmas_congr hc, peek_congr hc]

theorem good_congr (hc : m'.core = m.core) : Good h m' f tree i ↔ Good h m f tree i := by
  rw [Good, pageHash_congr hc, shown_congr hc, Good]

theorem isPageMarkedDirty_eq (q : MerklePma) (k : Nat) :
    (q.entry.start.toNat + k * pmaPageSize) / pmaPageSize = q.page k :=
  Nat.add_mul_div_right _ _ (by decide)

/-- A page of the image that starts in a range is a page of the range. -/
theorem exists_page (hq : q.entry.Paged)
    (hi : q.entry.Mem (i * pmaPageSize)) : ∃ k < pagesInRange q, q.page k = i := by
  have h1 := hq.start_mod
  obtain ⟨h3, h4⟩ := hi
  refine ⟨i - q.entry.start.toNat / pmaPageSize, ?_, ?_⟩
  · simp only [pagesInRange, pmaPageSize] at *
    omega
  · simp only [page, pmaPageSize] at *
    omega

/-- Cleaning a range takes from the pending pages of the others only what the range showed itself. -/
theorem Pending.markPagesClean (hq : q ∈ m.merklePmas)
    (hi : m.Pending qs i) : (m.markPagesClean q).Pending qs i ∨ m.Pending [q] i := by
  obtain ⟨q', hq', k, hk, rfl, hdirty, data, hpeek⟩ := hi
  have hpage := isPageMarkedDirty_eq q' k
  have hstay : (m.markPagesClean q).isPageMarkedDirty q' (k * pmaPageSize) = true →
      (m.markPagesClean q).Pending qs (q'.page k) := fun hc =>
    ⟨q', hq', k, hk, rfl, hc, data, by rw [peek_congr (markPagesClean_core m q), hpeek]⟩
  -- the page is cleaned only if it starts in `q`, and then it is one of the dirty pages of `q`
  have hown : ∀ {d : Nat → Bool}, q.entry.Paged → d (q'.page k) = true →
      (∀ k', m.isPageMarkedDirty q (k' * pmaPageSize) =
        d ((q.entry.start.toNat + k' * pmaPageSize) / pmaPageSize)) →
      (∀ k', k' < pagesInRange q → ∃ data, m.peek q (k' * pmaPageSize) = some (some data)) →
      q.entry.Mem (q'.page k * pmaPageSize) → m.Pending [q] (q'.page k) := by
    intro d hpaged hd hmap hshow hmem
    obtain ⟨k', hk', hk'i⟩ := exists_page hpaged hmem
    refine ⟨q, by simp, k', hk', hk'i, ?_, hshow k' hk'⟩
    rw [hmap, isPageMarkedDirty_eq, hk'i, hd]
  cases q with
  | board p =>
    have hp : p ∈ m.s.board.ranges := by
      simpa [merklePmas] using hq
    cases hM : p.istartM with
    | false =>
      refine .inl (hstay ?_)
      simp only [markPagesClean, hM, Bool.false_eq_true, if_false]
      exact hdirty
    | true =>
      cases q' with
      | board p' =>
        by_cases hM' : p'.istartM = true
        · simp only [isPageMarkedDirty, hM', if_true, hpage] at hdirty
          by_cases hmem : p.Mem ((board p').page k * pmaPageSize)
          · refine .inr (hown (d := m.s.dirty) (m.s.board.wellFormed.paged p hp) hdirty
              (fun k' => by simp only [isPageMarkedDirty, hM, if_true]) (fun k' hk' => ?_) hmem)
            have hend := (page_mem (q := .board p) (m.s.board.wellFormed.paged p hp) hk' (j := 0)
              (by decide)).2.2
            have hdata : p.data = .memory := eq_of_beq hM
            exact ⟨_, by rw [peek, boardPeek, hdata]; exact memoryPeek_eq hend⟩
          · refine .inl (hstay ?_)
            simp [isPageMarkedDirty, hM', hpage, markPagesClean, hM, cleanRange, hmem, hdirty]
        · refine .inl (hstay ?_)
          simp [isPageMarkedDirty, hM']
      | uarchState => exact .inl (hstay rfl)
      | uarchRam =>
        refine .inl (hstay ?_)
        simp only [markPagesClean, hM, if_true]
        exact hdirty
      | empty => exact .inl (hstay rfl)
  | uarchState => exact .inl (hstay hdirty)
  | uarchRam =>
    cases q' with
    | uarchRam =>
      simp only [isPageMarkedDirty, hpage] at hdirty
      by_cases hmem : uarchRamPma.Mem (uarchRam.page k * pmaPageSize)
      · refine .inr (hown (d := m.uarch.ramDirty) uarchRamPma_paged hdirty (fun k' => rfl)
          (fun k' hk' => ?_) hmem)
        have hend := (page_mem (q := .uarchRam) uarchRamPma_paged hk' (j := 0) (by decide)).2.2
        exact ⟨_, memoryPeek_eq (p := uarchRamPma) hend⟩
      · refine .inl (hstay ?_)
        simp [isPageMarkedDirty, hpage, markPagesClean, cleanRange, hmem, hdirty]
    | board p' => exact .inl (hstay hdirty)
    | uarchState => exact .inl (hstay rfl)
    | empty => exact .inl (hstay rfl)
  | empty => exact .inl (hstay hdirty)

theorem Pending.of_markPagesClean (hi : (m.markPagesClean q).Pending qs i) : m.Pending qs i := by
  obtain ⟨q', hq', k, hk, hki, hdirty, hdata⟩ := hi
  simp only [peek_congr (markPagesClean_core m q)] at hdata
  refine ⟨q', hq', k, hk, hki, ?_, hdata⟩
  have hclean : ∀ {d : Nat → Bool} {p : PmaEntry} {page : Nat}, cleanRange d p page = true →
      d page = true := by
    intro d p page hd
    unfold cleanRange at hd
    split at hd
    · cases hd
    · exact hd
  cases q' with
  | board p' =>
    simp only [isPageMarkedDirty] at hdirty ⊢
    split
    · rename_i hM
      rw [if_pos hM] at hdirty
      cases q with
      | board p =>
        simp only [Machine.markPagesClean] at hdirty
        split at hdirty
        · exact hclean hdirty
        · exact hdirty
      | _ => exact hdirty
    · rfl
  | uarchRam =>
    cases q with
    | board p =>
      simp only [isPageMarkedDirty, Machine.markPagesClean] at hdirty
      split at hdirty <;> exact hdirty
    | uarchRam =>
      exact hclean (d := m.uarch.ramDirty) hdirty
    | _ => exact hdirty
  | _ => rfl

theorem pending_withTree {t : SparseTree H} :
    Pending { m with tree := t } qs i ↔ m.Pending qs i := by
  have hdirty : ∀ q offset, isPageMarkedDirty { m with tree := t } q offset =
      m.isPageMarkedDirty q offset := fun q _ => by cases q <;> rfl
  have hpeek : ∀ q offset, peek { m with tree := t } q offset = m.peek q offset :=
    fun q _ => peek_congr rfl q _
  simp [Pending, Rehashed, hdirty, hpeek]

/-- Going over the ranges makes every page good that was good or pending, and keeps the leaves of the
pages that were not pending. -/
theorem updatePmas_spec : ∀ (qs : List MerklePma) (m : Machine H) (f : Nat → H),
    m.s.board.UarchDisjoint → (∀ q ∈ qs, q ∈ m.merklePmas) → Stores h f m.tree →
    ∃ m' f', updatePmas h m qs = (true, m') ∧ m'.core = m.core ∧ Stores h f' m'.tree ∧
      (∀ i, Good h m f m.tree i ∨ m.Pending qs i → Good h m f' m'.tree i) ∧ ∀ i, ¬ m.Pending qs i → f' i = f i
  | [], m, f, _, _, hf => by
    refine ⟨m, f, rfl, rfl, hf, fun i hi => hi.resolve_right ?_, fun _ _ => rfl⟩
    rintro ⟨q, hq, -⟩
    cases hq
  | q :: qs, m, f, hd, hqs, hf => by
    obtain ⟨hq, hqs'⟩ := forall_mem_cons.mp hqs
    obtain ⟨f1, t1, h1, hf1, hkeep, hnew, hsame⟩ := updateDirtyPages_spec hd hq
      (range (pagesInRange q)) f m.tree (fun k hk => mem_range.mp hk) hf
    have hpma : updatePma h m q = some ({ m with tree := t1 }.markPagesClean q) := by
      rw [updatePma, h1]
      rfl
    have hcore : ({ m with tree := t1 }.markPagesClean q).core = m.core :=
      (markPagesClean_core _ q).trans rfl
    have htree : ({ m with tree := t1 }.markPagesClean q).tree = t1 := by
      cases q with
      | board p =>
        simp only [markPagesClean]
        split <;> rfl
      | _ => rfl
    -- pages of `q` that were pending are good now, those of the other ranges stay pending
    have hown : ∀ i, m.Pending [q] i → Good h m f1 t1 i := by
      rintro i ⟨q', hq', k, hk, rfl, hre⟩
      obtain rfl := mem_singleton.mp hq'
      exact hnew k (mem_range.mpr hk) hre
    obtain ⟨m', f', h', hc', hf', hgood', hsame'⟩ := updatePmas_spec qs
      ({ m with tree := t1 }.markPagesClean q) f1 (by rw [board_congr hcore]; exact hd)
      (fun q' hq' => by rw [merklePmas_congr hcore]; exact hqs' q' hq') (by rw [htree]; exact hf1)
    refine ⟨m', f', ?_, hc'.trans hcore, hf', fun i hi => (good_congr hcore).mp (hgood' i ?_),
      fun i hi => ?_⟩
    · rw [updatePmas, hpma]
      exact h'
    · rw [htree, good_congr hcore]
      rcases hi with hg | ⟨q', hq', hrest⟩
      · exact .inl (hkeep i hg)
      · rcases mem_cons.mp hq' with rfl | hq'
        · exact .inl (hown i ⟨q', by simp, hrest⟩)
        · have hpend : Pending { m with tree := t1 } qs i := pending_withTree.mpr ⟨q', hq', hrest⟩
          rcases Pending.markPagesClean (m := { m with tree := t1 }) hq hpend with hstay | hq1
          · exact .inr hstay
          · exact .inl (hown i (pending_withTree.mp hq1))
    · rw [hsame' i fun hc => hi ?_, hsame i fun k hk hre hki => hi ?_]
      · exact ⟨q, by simp, k, mem_range.mp hk, hki, hre⟩
      · obtain ⟨q', hq', hrest⟩ := pending_withTree.mp hc.of_markPagesClean
        exact ⟨q', mem_cons_of_mem q hq', hrest⟩

/-- Going over the ranges marks no page of the microarchitecture's RAM, and cleans those of the RAM
when it comes to it. -/
theorem updatePmas_ramDirty : ∀ {qs : List MerklePma} {m m' : Machine H},
    updatePmas h m qs = (true, m') → ∀ j, m'.uarch.ramDirty j = true →
    m.uarch.ramDirty j = true ∧ (uarchRam ∈ qs → ¬ uarchRamPma.Mem (j * pmaPageSize))
  | [], m, m', hm, j, hj => by
    cases hm
    exact ⟨hj, by simp⟩
  | q :: qs, m, m', hm, j, hj => by
    rw [updatePmas] at hm
    split at hm
    · cases hm
    rename_i m1 hpma
    obtain ⟨h1, h2⟩ := updatePmas_ramDirty hm j hj
    obtain ⟨t, -, ht⟩ := Option.bind_eq_some_iff.mp hpma
    cases ht
    cases q with
    | board p =>
      simp only [markPagesClean] at h1
      refine ⟨?_, fun hmem => h2 (by simpa using hmem)⟩
      split at h1 <;> exact h1
    | uarchRam =>
      simp only [markPagesClean, cleanRange] at h1
      split at h1
      · cases h1
      · rename_i hno
        exact ⟨h1, fun _ => hno⟩
    | _ => exact ⟨h1, fun hmem => h2 (by simpa using hmem)⟩

/-! ## The write TLB -/

end Machine

/-- The entry is invalid, or names a page of its range. -/
def Board.EntrySane (b : Board) (e : TlbEntry) : Prop :=
  e.vaddrPage = tlbInvalidPage ∨
    (b.pmas[e.pmaIndex.toNat]?).any (·.contains e.paddrPage (BitVec.ofNat 64 pmaPageSize)) = true

instance (b : Board) (e : TlbEntry) : Decidable (b.EntrySane e) := inferInstanceAs (Decidable (_ ∨ _))

/-- The entry is valid, and page `i` is the page of its range. -/
def Board.EntryPage (b : Board) (e : TlbEntry) (i : Nat) : Prop :=
  e.vaddrPage ≠ tlbInvalidPage ∧ e.paddrPage.toNat / pmaPageSize = i ∧
    ∃ p, b.pmas[e.pmaIndex.toNat]? = some p ∧ p.istartM = true

namespace MachineState

/-- No entry of the write TLB is corrupt. -/
def TlbSane (s : MachineState) : Prop := ∀ k, s.board.EntrySane (s.tlb .write k)

instance (s : MachineState) : Decidable s.TlbSane := inferInstanceAs (Decidable (∀ _, _))

/-- Page `i` is the page of a valid entry of the write TLB. -/
def WriteTlbPage (s : MachineState) (i : Nat) : Prop := ∃ k, s.board.EntryPage (s.tlb .write k) i

end MachineState

namespace Machine

variable {m m' : Machine H}

theorem tlbSane_congr (hc : m'.core = m.core) : m'.s.TlbSane ↔ m.s.TlbSane := by
  have : m'.core.s.TlbSane ↔ m.core.s.TlbSane := by rw [hc]
  exact this

theorem markWriteTlbEntry_spec {s : MachineState} {e : TlbEntry} (he : s.board.EntrySane e) :
    ∃ d, markWriteTlbEntry s e = .ok { s with dirty := d } ∧
      ∀ i, d i = true ↔ s.dirty i = true ∨ s.board.EntryPage e i := by
  unfold markWriteTlbEntry
  split
  · rename_i hinv
    exact ⟨s.dirty, rfl, fun i => ⟨.inl, fun hi => hi.resolve_right fun hp => hp.1 hinv⟩⟩
  · rename_i hinv
    have hany := he.resolve_left hinv
    cases hp : s.board.pmas[e.pmaIndex.toNat]? with
    | none => simp [hp] at hany
    | some p =>
      simp only [hp, Option.any_some] at hany
      simp only [hany, Bool.not_true, Bool.false_eq_true, if_false]
      cases hM : p.istartM with
      | true =>
        refine ⟨_, rfl, fun i => ?_⟩
        have hpage : s.board.EntryPage e i ↔ i = e.paddrPage.toNat / pmaPageSize :=
          ⟨fun hi => hi.2.1.symm, fun hi => ⟨hinv, hi.symm, p, hp, hM⟩⟩
        rw [hpage, update_apply]
        split <;> simp_all
      | false =>
        refine ⟨s.dirty, rfl, fun i => ⟨.inl, fun hi => hi.resolve_right ?_⟩⟩
        rintro ⟨-, -, q, hq, hqM⟩
        rw [hp] at hq
        cases hq
        rw [hM] at hqM
        cases hqM

theorem markWriteTlbEntries_spec : ∀ (es : List TlbEntry) (s : MachineState), (∀ e ∈ es, s.board.EntrySane e) →
    ∃ d, markWriteTlbEntries es s = .ok () { s with dirty := d } ∧
      ∀ i, d i = true ↔ s.dirty i = true ∨ ∃ e ∈ es, s.board.EntryPage e i
  | [], s, _ => ⟨s.dirty, rfl, by simp⟩
  | e :: es, s, h => by
    obtain ⟨he, hes⟩ := forall_mem_cons.mp h
    obtain ⟨d1, h1, hd1⟩ := markWriteTlbEntry_spec he
    obtain ⟨d2, h2, hd2⟩ := markWriteTlbEntries_spec es { s with dirty := d1 } hes
    refine ⟨d2, ?_, fun i => ?_⟩
    · rw [markWriteTlbEntries, bind_of_ok (update_ok_iff (u := ()).mpr h1)]
      exact h2
    · rw [hd2 i, hd1 i]
      simp [or_assoc]

theorem markWriteTlbDirtyPages_spec {s : MachineState} (hs : s.TlbSane) :
    ∃ d, markWriteTlbDirtyPages s = .ok () { s with dirty := d } ∧
      ∀ i, d i = true ↔ s.dirty i = true ∨ s.WriteTlbPage i := by
  obtain ⟨d, h, hd⟩ := markWriteTlbEntries_spec ((finRange 256).map (s.tlb .write)) s
    (by simpa using fun k => hs k)
  refine ⟨d, h, fun i => ?_⟩
  rw [hd i, WriteTlbPage]
  simp

theorem exists_of_entryPage {b : Board} {e : TlbEntry} (he : b.EntrySane e) {i : Nat} (hi : b.EntryPage e i) :
    ∃ p ∈ b.ranges, p.istartM = true ∧ ∃ k < pagesInRange (.board p), (board p).page k = i := by
  obtain ⟨hv, hi, p, hp, hM⟩ := hi
  have hc := he.resolve_left hv
  rw [hp, Option.any_some] at hc
  have hmem : p ∈ b.ranges := by
    rcases mem_append.mp (mem_of_getElem? hp) with h | h
    · exact h
    · obtain ⟨n, -, rfl⟩ := mem_map.mp h
      cases hM
  have hpaged := b.wellFormed.paged p hmem
  refine ⟨p, hmem, hM, exists_page (q := .board p) hpaged ?_⟩
  obtain ⟨-, h1, h2⟩ := PmaEntry.contains_iff.mp hc
  have h3 := hpaged.start_mod
  have h4 : (BitVec.ofNat 64 pmaPageSize).toNat = 4096 := rfl
  simp only [entry, PmaEntry.Mem, pmaPageSize] at *
  omega

/-! ## Consistency -/

/-- Every page whose leaf is not right is going to be rehashed: it is marked dirty in a range that
shows it, or is the page of an entry of the write TLB. -/
def Consistent (h : Hasher H) (m : Machine H) : Prop :=
  ∃ f, Holds h f m.tree ∧ ∀ i, i < 2 ^ pageDepth →
    Good h m f m.tree i ∨ m.Pending m.merklePmas i ∨ m.s.WriteTlbPage i

/-- The tree holds the page hashes of the image, with a node for every page that a range shows. -/
structure TreeHolds (h : Hasher H) (m : Machine H) : Prop where
  holds : Holds h (m.pageHash h) m.tree
  present : ∀ i, i < 2 ^ pageDepth → m.Shown i → SparseTree.Present pageDepth i m.tree

theorem TreeHolds.consistent (ht : TreeHolds h m) : Consistent h m :=
  ⟨m.pageHash h, ht.holds, fun i hi => .inl ⟨rfl, ht.present i hi⟩⟩

theorem TreeHolds.root_eq (ht : TreeHolds h m) : treeRootHash h m.tree = h.root m.image := by
  rw [treeRootHash, ht.holds.hash_eq, pageHash, Merkle.nodeHash_nodeHash]
  rfl

/-- What an update does to the leaves: those of pages that were good or going to be rehashed are good,
the others stay. -/
theorem updateMerkleTree_leaves (hd : m.s.board.UarchDisjoint) (hs : m.s.TlbSane)
    {f : Nat → H} (hf : Holds h f m.tree) :
    ∃ m' f', updateMerkleTree h m = .ok true m' ∧ m'.core = m.core ∧ Holds h f' m'.tree ∧
      (∀ i, Good h m f m.tree i ∨ m.Pending m.merklePmas i ∨ m.s.WriteTlbPage i → Good h m f' m'.tree i) ∧
      ∀ i, ¬ m.Pending m.merklePmas i → ¬ m.s.WriteTlbPage i → f' i = f i := by
  obtain ⟨d, hmark, hmarked⟩ := markWriteTlbDirtyPages_spec hs
  let m1 : Machine H := { m with s := { m.s with dirty := d } }
  have hcore : m1.core = m.core := rfl
  obtain ⟨m2, f', hupd, hc2, hf', hgood', hsame'⟩ := updatePmas_spec (h := h) m1.merklePmas m1 f hd
    (fun q hq => hq) hf.1
  refine ⟨{ m2 with tree := endUpdate h m2.tree }, f', ?_, hc2.trans hcore, hf'.settle, fun i hi => ?_,
    fun i hp hw => hsame' i ?_⟩
  · simp only [updateMerkleTree, hmark]
    rw [show updatePmas h { m with s := { m.s with dirty := d } } m.merklePmas = (true, m2) from hupd]
  · have hg : Good h m1 f' m2.tree i := hgood' i (by
      rcases hi with hg | ⟨q, hq, k, hk, hki, hdirty, hdata⟩ | ⟨k, hk⟩
      · exact .inl ((good_congr hcore).mpr hg)
      · refine .inr ⟨q, hq, k, hk, hki, ?_, hdata⟩
        cases q with
        | board p =>
          simp only [isPageMarkedDirty] at hdirty ⊢
          split
          · rename_i hM
            rw [if_pos hM] at hdirty
            exact (hmarked _).mpr (.inl hdirty)
          · rfl
        | _ => exact hdirty
      · obtain ⟨p, hp, hM, j, hj, hji⟩ := exists_of_entryPage (hs k) hk
        have hq : board p ∈ m1.merklePmas := by
          simpa [merklePmas] using hp
        have hend := (page_mem (q := .board p) (m.s.board.wellFormed.paged p hp) hj (j := 0)
          (by decide)).2.2
        have hdata : p.data = .memory := eq_of_beq hM
        refine .inr ⟨.board p, hq, j, hj, hji, ?_, _, by
          rw [peek, boardPeek, hdata]; exact memoryPeek_eq hend⟩
        simp only [isPageMarkedDirty, hM, if_true]
        rw [isPageMarkedDirty_eq, hji]
        exact (hmarked i).mpr (.inr ⟨k, hk⟩))
    obtain ⟨h1, h2⟩ := (good_congr hcore).mp hg
    exact ⟨h1, fun hshown => (h2 hshown).settle⟩
  · -- a page that the write TLB does not name is marked only if it was marked before
    rintro ⟨q, hq, k, hk, hki, hdirty, hdata⟩
    refine hp ⟨q, hq, k, hk, hki, ?_, hdata⟩
    cases q with
    | board p =>
      simp only [isPageMarkedDirty] at hdirty ⊢
      split
      · rename_i hM
        rw [if_pos hM] at hdirty
        refine ((hmarked _).mp hdirty).resolve_right fun hc => hw ?_
        rwa [isPageMarkedDirty_eq, hki] at hc
      · rfl
    | _ => exact hdirty

/-- An update leaves no page of the RAM of the microarchitecture dirty. -/
theorem updateMerkleTree_clean (hupd : updateMerkleTree h m = .ok true m') {j : Nat}
    (hj : uarchRamPma.Mem (j * pmaPageSize)) : m'.uarch.ramDirty j = false := by
  unfold updateMerkleTree at hupd
  split at hupd
  · cases hupd
  · rename_i s _
    cases hpmas : updatePmas h { m with s } m.merklePmas with
    | mk ok m1 =>
      rw [hpmas] at hupd
      cases hupd
      rw [Bool.eq_false_iff]
      intro hdirty
      exact (updatePmas_ramDirty hpmas j hdirty).2 (by simp [merklePmas]) hj

theorem Consistent.updateMerkleTree (hd : m.s.board.UarchDisjoint) (hc : Consistent h m) (hs : m.s.TlbSane) :
    ∃ m', updateMerkleTree h m = .ok true m' ∧ m'.core = m.core ∧ TreeHolds h m' := by
  obtain ⟨f, hf, hgood⟩ := hc
  obtain ⟨m', f', hupd, hcore, hf', hgood', -⟩ := updateMerkleTree_leaves hd hs hf
  refine ⟨m', hupd, hcore, ?_, fun i hi hshown => ?_⟩
  · rw [pageHash_congr hcore]
    exact ⟨SparseTree.stores_congr (fun i _ hi => (hgood' i (hgood i (by simpa using hi))).1) hf'.1,
      hf'.2⟩
  · exact (hgood' i (hgood i hi)).2 ((shown_congr hcore i).mp hshown)

theorem getRootHash_ok_iff {r : H} : getRootHash h m = .ok r m' ↔
      m.s.regs .iunrep = 0 ∧ updateMerkleTree h m = .ok true m' ∧ r = treeRootHash h m'.tree := by
  unfold getRootHash
  simp only [bind_ok_iff, query_ok_iff, throwUnless_ok_iff]
  constructor
  · rintro ⟨_, _, ⟨hu, rfl⟩, _, m1, hupd, _, _, ⟨rfl, rfl⟩, hr, rfl⟩
    exact ⟨hu, hupd, (Except.ok.inj hr).symm⟩
  · rintro ⟨hu, hupd, rfl⟩
    exact ⟨(), m, ⟨hu, rfl⟩, true, m', hupd, (), m', ⟨rfl, rfl⟩, rfl, rfl⟩

theorem Consistent.getRootHash (hd : m.s.board.UarchDisjoint) (hc : Consistent h m)
    (hs : m.s.TlbSane) (hu : m.s.regs .iunrep = 0) :
    ∃ m', getRootHash h m = .ok (h.root m.image) m' ∧ m'.core = m.core ∧ TreeHolds h m' := by
  obtain ⟨m', hupd, hcore, ht⟩ := hc.updateMerkleTree hd hs
  refine ⟨m', getRootHash_ok_iff.mpr ⟨hu, hupd, ?_⟩, hcore, ht⟩
  rw [ht.root_eq, image_congr hcore]

end Machine

end MachineEmulator
