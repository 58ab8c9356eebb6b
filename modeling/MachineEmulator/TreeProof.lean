import MachineEmulator.Consistency

/-!
# Proofs and reads of a machine whose tree holds the image

* `TreeHolds.getProofSkip_eq` : the proof a machine makes is the proof of its image;
* `readMemory_eq` : what a machine reads within a page is what its image holds;
* `TreeHolds.updateMerkleTreePage` : after a change inside one page, rehashing that page is enough.
-/

namespace MachineEmulator

open Merkle MerklePma

open Merkle (SparseTree nodeHash siblings climb)

variable {H : Type} {h : Hasher H}

/-- The range contains the bytes of the access. -/
def MerklePma.Covers (q : MerklePma) (address : Word) (n : Nat) : Prop :=
  q.entry.start.toNat ≤ address.toNat ∧
    address.toNat + n ≤ q.entry.start.toNat + q.entry.length.toNat

namespace Machine

/-! ## The lower part of a proof -/

theorem getInsidePageSiblingHashes_readBytes (f : Nat → Byte) (address : Word) {log2Size : Nat}
    (h1 : log2WordSize ≤ log2Size) (d n : Nat) (h2 : log2Size ≤ log2WordSize + d) (hn : wordSize * 2 ^ d ≤ n) :
    getInsidePageSiblingHashes h address log2Size d
        (readBytes f (wordSize * (address.toNat / 2 ^ (log2WordSize + d) * 2 ^ d)) n) =
      (nodeHash h.concat (h.leaf f) (log2Size - log2WordSize) (address.toNat / 2 ^ log2Size),
        siblings h.concat (h.leaf f) (log2Size - log2WordSize) (address.toNat / 2 ^ log2Size)
          (log2WordSize + d - log2Size)) := by
  induction d generalizing n with
  | zero =>
    obtain rfl : log2Size = log2WordSize := by omega
    rw [getInsidePageSiblingHashes, getPageNodeHash_readBytes f 0 _ n hn]
    simp [siblings]
  | succ d ih =>
    rw [getInsidePageSiblingHashes]
    split
    · rename_i htop
      obtain rfl : log2Size = log2WordSize + (d + 1) := by omega
      rw [getPageNodeHash_readBytes f (d + 1) _ n hn]
      simp [siblings]
    · rename_i hlow
      have e : wordSize * 2 ^ (d + 1) = wordSize * 2 ^ d + wordSize * 2 ^ d := by ring
      have hbits := index_bits (i := address.toNat) (n := log2WordSize + d)
      have hup : address.toNat / 2 ^ log2Size / 2 ^ (log2WordSize + d - log2Size) =
          address.toNat / 2 ^ (log2WordSize + d) := by
        rw [Nat.div_div_eq_div_mul, ← Nat.pow_add, Nat.add_sub_cancel' (by omega)]
      have hlev : log2Size - log2WordSize + (log2WordSize + d - log2Size) = d := by omega
      rw [show log2WordSize + (d + 1) - log2Size = log2WordSize + d - log2Size + 1 by omega,
        SparseTree.siblings_snoc, hup, hlev, drop_readBytes (by omega), BitVec.getLsbD]
      rw [show log2WordSize + (d + 1) = log2WordSize + d + 1 by omega]
      generalize address.toNat / 2 ^ (log2WordSize + d + 1) = t at hbits
      rw [show wordSize * (t * 2 ^ (d + 1)) = wordSize * (2 * t * 2 ^ d) by ring,
        show wordSize * (2 * t * 2 ^ d) + wordSize * 2 ^ d = wordSize * ((2 * t + 1) * 2 ^ d) by ring]
      split at hbits
      · rename_i hb
        rw [if_pos hb, ← hbits, ih _ (by omega) (by omega), getPageNodeHash_readBytes _ _ _ _ (by omega),
          hbits, sibling, if_neg (by omega), Nat.add_sub_cancel]
      · rename_i hb
        rw [if_neg hb, ← hbits, ih _ (by omega) (by omega), getPageNodeHash_readBytes _ _ _ _ (by omega),
          hbits, sibling, if_pos (by omega)]

/-! ## Finding the range of an access -/

theorem findMerklePma_append {qs : List MerklePma} (address length : Word)
    (hqs : ∀ q ∈ qs, q.entry.length ≠ 0) : (findMerklePma (qs ++ [.empty]) address length ∈ qs ∧
        (findMerklePma (qs ++ [.empty]) address length).Covers address length.toNat) ∨
      (findMerklePma (qs ++ [.empty]) address length = .empty ∧ ∀ q ∈ qs, ¬ q.Covers address length.toNat) := by
  induction qs with
  | nil => exact .inr ⟨by simp [findMerklePma, entry, emptyPma], by simp⟩
  | cons q qs ih =>
    obtain ⟨hq, hqs'⟩ := List.forall_mem_cons.mp hqs
    have hcond : (q.entry.start ≤ address ∧ length ≤ q.entry.length ∧
        address - q.entry.start ≤ q.entry.length - length) ↔
        q.Covers address length.toNat := by
      simp only [Covers, BitVec.le_def]
      constructor
      · rintro ⟨h1, h2, h3⟩
        rw [BitVec.toNat_sub_of_le (BitVec.le_def.mpr h1),
          BitVec.toNat_sub_of_le (BitVec.le_def.mpr h2)] at h3
        omega
      · rintro ⟨h1, h2⟩
        have h3 : length.toNat ≤ q.entry.length.toNat := by omega
        rw [BitVec.toNat_sub_of_le (BitVec.le_def.mpr h1),
          BitVec.toNat_sub_of_le (BitVec.le_def.mpr h3)]
        omega
    rw [List.cons_append, findMerklePma]
    by_cases hc : q.Covers address length.toNat
    · rw [if_pos (.inr (hcond.mpr hc))]
      exact .inl ⟨by simp, hc⟩
    · rw [if_neg (not_or.mpr ⟨hq, fun hin => hc (hcond.mp hin)⟩)]
      rcases ih hqs' with ⟨h1, h2⟩ | ⟨h1, h2⟩
      · exact .inl ⟨List.mem_cons_of_mem _ h1, h2⟩
      · exact .inr ⟨h1, List.forall_mem_cons.mpr ⟨hc, h2⟩⟩

/-- The range of an access, or the empty one if no range contains it. -/
theorem findMerklePma_spec (m : Machine H) (address length : Word) :
    (findMerklePma m.merklePmas address length ∈ m.merklePmas ∧
        findMerklePma m.merklePmas address length ≠ .empty ∧
        (findMerklePma m.merklePmas address length).Covers address length.toNat) ∨
      (findMerklePma m.merklePmas address length = .empty ∧
        ∀ q ∈ m.merklePmas, q ≠ .empty → ¬ q.Covers address length.toNat) := by
  have hsplit : m.merklePmas = (m.s.board.ranges.map .board ++ [.uarchState, .uarchRam]) ++ [.empty] := by
    simp [merklePmas]
  have hpaged : ∀ q ∈ m.s.board.ranges.map board ++ [.uarchState, .uarchRam],
      q ≠ .empty := by
    intro q hq
    simp only [List.mem_append, List.mem_map, List.mem_cons, List.not_mem_nil, or_false] at hq
    rcases hq with ⟨p, -, rfl⟩ | rfl | rfl <;> simp
  have hlen : ∀ q ∈ m.s.board.ranges.map MerklePma.board ++ [.uarchState, .uarchRam],
      q.entry.length ≠ 0 := by
    intro q hq h0
    have hmem : q ∈ m.merklePmas := by
      rw [hsplit]
      exact List.mem_append_left _ hq
    have hpos := (paged_of_mem hmem (hpaged q hq)).length_pos
    simp [h0] at hpos
  rcases findMerklePma_append address length hlen with ⟨h1, h2⟩ | ⟨h1, h2⟩
  · rw [hsplit]
    exact .inl ⟨List.mem_append_left _ h1, hpaged _ h1, h2⟩
  · refine .inr ⟨by rw [hsplit]; exact h1, fun q hq hne => h2 q ?_⟩
    rw [hsplit] at hq
    rcases List.mem_append.mp hq with hq | hq
    · exact hq
    · exact absurd (List.mem_singleton.mp hq) hne

variable {address : Word} {m m' : Machine H} {q : MerklePma}

theorem image_of_no_range {x : Nat} (hx : ∀ q ∈ m.merklePmas, ¬ q.entry.Mem x) : m.image x = 0 := by
  have h1 : ¬ shadowUarchStatePma.Mem x := hx .uarchState (by simp [merklePmas])
  have h2 : ¬ uarchRamPma.Mem x := hx .uarchRam (by simp [merklePmas])
  rw [image, if_neg h1, if_neg h2]
  exact m.s.boardByte_of_not_mem fun p hp => hx (.board p) (by simp [merklePmas, hp])

theorem page_of_mem (hq : q.entry.Paged) {a : Word} (ha : q.entry.Mem a.toNat) :
    ∃ k < pagesInRange q, q.page k = a.toNat / pmaPageSize ∧ (a - q.entry.start).toNat / pmaPageSize = k := by
  obtain ⟨h1, h2⟩ := ha
  have h3 := hq.start_mod
  have hsub : (a - q.entry.start).toNat = a.toNat - q.entry.start.toNat :=
    BitVec.toNat_sub_of_le (BitVec.le_def.mpr h1)
  refine ⟨(a - q.entry.start).toNat / pmaPageSize, ?_, ?_, rfl⟩
  · rw [hsub]
    simp only [pagesInRange, pmaPageSize] at *
    omega
  · rw [hsub]
    simp only [page, pmaPageSize] at *
    omega

/-- What the ranges show of page `i`: its bytes, or nothing if it is all zeros. -/
def PageData (m : Machine H) (i : Nat) (data : Option (List Byte)) : Prop :=
  (data = some (m.pageBytes i) ∧ m.Shown i) ∨
    (data = none ∧ ∀ j, j < pmaPageSize → m.image (pmaPageSize * i + j) = 0)

theorem PageData.of_peek (hd : m.s.board.UarchDisjoint)
    (hq : q ∈ m.merklePmas) {k : Nat} (hk : k < pagesInRange q) :
    ∃ data, m.peek q (k * pmaPageSize) = some data ∧ m.PageData (q.page k) data := by
  rcases peek_spec hd hq hk with hpeek | ⟨hpeek, hzero⟩
  · exact ⟨_, hpeek, .inl ⟨rfl, q, hq, k, hk, rfl, _, hpeek⟩⟩
  · exact ⟨_, hpeek, .inr ⟨rfl, hzero⟩⟩

/-- An access that stays within a page, and that no range contains, lies in a page of zeros. -/
theorem PageData.of_no_range {n : Nat} (hin : address.toNat % pmaPageSize + n ≤ pmaPageSize)
    (hno : ∀ q ∈ m.merklePmas, q ≠ .empty → ¬ q.Covers address n) :
    m.PageData (address.toNat / pmaPageSize) none := by
  refine .inr ⟨rfl, fun j hj => image_of_no_range fun q hq hmem => ?_⟩
  have hne : q ≠ .empty := by
    rintro rfl
    exact absurd hmem.2 (Nat.not_lt.mpr hmem.1)
  have hpaged := paged_of_mem hq hne
  have h1 := hpaged.start_mod
  have h2 := hpaged.length_mod
  refine hno q hq hne ?_
  simp only [PmaEntry.Mem, MerklePma.Covers, pmaPageSize] at *
  omega

/-! ## Proofs -/

theorem pristineHash_eq (log2Size : Nat) :
    pristineHash h log2Size = pristine h.concat (h.word (List.replicate wordSize 0))
      (log2Size - log2WordSize) := rfl

theorem pristine_in_page {i : Nat} (hz : ∀ j, j < pmaPageSize → m.image (pmaPageSize * i + j) = 0) {j : Nat}
    (h1 : i * 2 ^ (log2PageSize - log2WordSize) ≤ j) (h2 : j < (i + 1) * 2 ^ (log2PageSize - log2WordSize)) :
    h.leaf m.image j = h.word (List.replicate wordSize 0) := by
  rw [Hasher.leaf]
  congr 1
  refine List.eq_replicate_iff.mpr ⟨length_readBytes _ _ _, fun b hb => ?_⟩
  obtain ⟨k, hk, rfl⟩ := List.mem_map.mp hb
  have hk := List.mem_range.mp hk
  simp only [log2PageSize, log2WordSize, wordSize, pmaPageSize] at *
  rw [← hz (32 * j + k - 4096 * i) (by omega)]
  congr 1
  omega

theorem siblings_cut (m : Machine H) (address : Word) {log2Size stop : Nat}
    (h1 : log2WordSize ≤ log2Size) (h2 : log2Size ≤ stop) (h3 : log2PageSize ≤ stop)
    (h4 : stop ≤ log2RootSize) :
    siblings h.concat (h.leaf m.image) (log2Size - log2WordSize) (address.toNat / 2 ^ log2Size)
        (log2RootSize - log2Size) =
      siblings h.concat (h.leaf m.image) (log2Size - log2WordSize) (address.toNat / 2 ^ log2Size)
        (stop - log2Size) ++ siblings h.concat (m.pageHash h) (stop - log2PageSize) (address.toNat / 2 ^ stop)
        (log2RootSize - stop) := by
  rw [pageHash, siblings_nodeHash,
    show log2RootSize - log2Size = (stop - log2Size) + (log2RootSize - stop) by omega,
    siblings_append, Nat.div_div_eq_div_mul, ← Nat.pow_add, Nat.add_sub_cancel' h2,
    show log2Size - log2WordSize + (stop - log2Size) =
      log2PageSize - log2WordSize + (stop - log2PageSize) by
        simp only [log2PageSize, log2WordSize] at *; omega]

theorem TreeHolds.path_eq (ht : TreeHolds h m) (address : Word) {stop : Nat}
    (h1 : log2PageSize ≤ stop) (h2 : stop ≤ log2RootSize) :
    (m.tree.path h.concat (pristineHash h log2PageSize) (stop - log2PageSize)
        (address.toNat / 2 ^ stop) (log2RootSize - stop)).1 =
      siblings h.concat (m.pageHash h) (stop - log2PageSize) (address.toNat / 2 ^ stop) (log2RootSize - stop) ∧
    SparseTree.Holds h.concat (pristineHash h log2PageSize) (m.pageHash h) (stop - log2PageSize)
      (address.toNat / 2 ^ stop) (m.tree.path h.concat (pristineHash h log2PageSize)
        (stop - log2PageSize) (address.toNat / 2 ^ stop) (log2RootSize - stop)).2 := by
  refine SparseTree.Holds.path_eq ?_
  have hroot : address.toNat / 2 ^ stop / 2 ^ (log2RootSize - stop) = 0 := by
    rw [Nat.div_div_eq_div_mul, ← Nat.pow_add, Nat.add_sub_cancel' h2]
    exact Nat.div_eq_of_lt address.isLt
  rw [hroot, show stop - log2PageSize + (log2RootSize - stop) = pageDepth by
    rw [pageDepth]; omega]
  exact ht.holds

section
variable [DecidableEq H]

variable {log2Size : Nat} {data : Option (List Byte)}

theorem TreeHolds.getPageProof_eq {node : SparseTree H} (h1 : log2WordSize ≤ log2Size)
    (h2 : log2Size < log2PageSize)
    (hnode : SparseTree.Holds h.concat (pristineHash h log2PageSize) (m.pageHash h) 0
      (address.toNat / pmaPageSize) node) (hdata : m.PageData (address.toNat / pmaPageSize) data)
    (hpresent : m.Shown (address.toNat / pmaPageSize) → node ≠ .nil) :
    getPageProof h node address log2Size data =
      .ok (nodeHash h.concat (h.leaf m.image) (log2Size - log2WordSize) (address.toNat / 2 ^ log2Size),
        siblings h.concat (h.leaf m.image) (log2Size - log2WordSize) (address.toNat / 2 ^ log2Size)
          (log2PageSize - log2Size)) := by
  have hpath := getInsidePageSiblingHashes_readBytes (h := h) m.image address h1
    (log2PageSize - log2WordSize) pmaPageSize (by simp only [log2PageSize, log2WordSize] at *; omega)
    (by decide)
  rw [show log2WordSize + (log2PageSize - log2WordSize) = log2PageSize from rfl] at hpath
  have hbytes : readBytes m.image (wordSize * (address.toNat / 2 ^ log2PageSize *
      2 ^ (log2PageSize - log2WordSize))) pmaPageSize = m.pageBytes (address.toNat / pmaPageSize) := by
    rw [pageBytes]
    congr 1
    simp only [wordSize, log2PageSize, log2WordSize, pmaPageSize]
    omega
  rw [hbytes] at hpath
  rcases hdata with ⟨rfl, hshown⟩ | ⟨rfl, hzero⟩
  · cases node with
    | nil => exact absurd rfl (hpresent hshown)
    | node hash p l r =>
      have hhash : hash = getPageNodeHash h (log2PageSize - log2WordSize)
          (m.pageBytes (address.toNat / pmaPageSize)) := by
        rw [getPageNodeHash_pageBytes]
        exact hnode.hash_eq
      simp only [getPageProof, if_pos h2, ← hhash, ne_eq, not_true_eq_false, if_false]
      rw [hpath]
  · -- the page is all zeros, and so is every node in it
    have hup : address.toNat / 2 ^ log2Size / 2 ^ (log2PageSize - log2Size) =
        address.toNat / pmaPageSize := by
      rw [Nat.div_div_eq_div_mul, ← Nat.pow_add, Nat.add_sub_cancel' (by omega)]
      rfl
    have hlev : log2Size - log2WordSize + (log2PageSize - log2Size) = log2PageSize - log2WordSize := by
      omega
    have hsib : siblings h.concat (h.leaf m.image) (log2Size - log2WordSize)
        (address.toNat / 2 ^ log2Size) (log2PageSize - log2Size) =
        pristineSiblings h log2Size log2PageSize := by
      rw [siblings_of_pristine (z := h.word (List.replicate wordSize 0)) fun j hj1 hj2 =>
        pristine_in_page hzero (by rwa [hup, hlev] at hj1) (by rwa [hup, hlev] at hj2)]
      rw [pristineSiblings, List.range'_eq_map_range, List.range'_eq_map_range, List.map_map,
        List.map_map]
      refine List.map_congr_left fun k _ => ?_
      rw [Function.comp, Function.comp, pristineHash_eq,
        Nat.sub_add_comm h1]
    have htarget : nodeHash h.concat (h.leaf m.image) (log2Size - log2WordSize)
        (address.toNat / 2 ^ log2Size) = pristineHash h log2Size := by
      refine nodeHash_of_pristine fun j hj1 hj2 => ?_
      have hj := below_ancestor (log2PageSize - log2Size) hj1 hj2
      rw [hup, hlev] at hj
      exact pristine_in_page hzero hj.1 hj.2
    rw [hsib, htarget]
    cases node with
    | nil => rfl
    | node hash p l r =>
      have hhash : hash = pristineHash h log2PageSize := by
        rw [← pageHash_of_zero hzero]
        exact hnode.hash_eq
      simp only [getPageProof, if_pos h2, hhash, ne_eq, not_true_eq_false, if_false]

/-- A tree proof put together from the siblings above the page and the part below. -/
theorem getTreeProof_eq {tree : SparseTree H} {f : Nat → Byte} {stop : Nat} {above : List H} (below : List H)
    (h1 : log2WordSize ≤ log2Size)
    (h2 : log2Size ≤ log2RootSize) (hal : address.toNat % 2 ^ log2Size = 0)
    (hstop : max log2Size log2PageSize = stop) (hroot : treeRootHash h tree = h.root f)
    (habove : (tree.path h.concat (pristineHash h log2PageSize) (stop - log2PageSize)
      (address.toNat / 2 ^ stop) (log2RootSize - stop)).1 = above)
    (hpage : getPageProof h (tree.path h.concat (pristineHash h log2PageSize) (stop - log2PageSize)
      (address.toNat / 2 ^ stop) (log2RootSize - stop)).2 address log2Size data =
      .ok ((imageProof h f address log2Size).targetHash, below))
    (hsib : below ++ above = (imageProof h f address log2Size).siblingHashes) :
    getTreeProof h tree address log2Size data = .ok (imageProof h f address log2Size) := by
  unfold getTreeProof
  simp only [throwUnless, h1, h2, hal, and_self, if_true, hstop]
  refine except_bind_ok_iff.mpr ⟨(), rfl, except_bind_ok_iff.mpr ⟨(), rfl, ?_⟩⟩
  refine except_bind_ok_iff.mpr ⟨_, hpage, ?_⟩
  simp only [habove, hsib, hroot]
  exact except_bind_ok_iff.mpr ⟨(), if_pos (imageProof_verify f h1 h2), rfl⟩

theorem TreeHolds.getTreeProof_page (ht : TreeHolds h m) (h1 : log2WordSize ≤ log2Size)
    (h2 : log2Size < log2PageSize) (hal : address.toNat % 2 ^ log2Size = 0)
    (hdata : m.PageData (address.toNat / pmaPageSize) data) :
    getTreeProof h m.tree address log2Size data = .ok (imageProof h m.image address log2Size) := by
  have hroot : log2PageSize ≤ log2RootSize := by decide
  obtain ⟨hpath, hnode⟩ := ht.path_eq address (Nat.le_refl log2PageSize) hroot
  have hlt : address.toNat / 2 ^ log2PageSize < 2 ^ pageDepth := by
    simp only [pageDepth, log2RootSize, log2PageSize]
    omega
  refine getTreeProof_eq _ h1 (by omega) hal (by omega) ht.root_eq hpath
    (TreeHolds.getPageProof_eq h1 h2 ?_ hdata ?_) (siblings_cut m address h1 h2.le (Nat.le_refl _) hroot).symm
  · rw [Nat.sub_self] at hnode ⊢
    exact hnode
  · intro hs
    rw [Nat.sub_self]
    exact (ht.present _ hlt hs).path

theorem TreeHolds.getTreeProof_large (ht : TreeHolds h m) (h1 : log2PageSize ≤ log2Size) (h2 : log2Size ≤ log2RootSize)
    (hal : address.toNat % 2 ^ log2Size = 0) :
    getTreeProof h m.tree address log2Size none = .ok (imageProof h m.image address log2Size) := by
  have hword : log2WordSize ≤ log2Size := Nat.le_trans (by decide) h1
  have hsum : log2PageSize - log2WordSize + (log2Size - log2PageSize) = log2Size - log2WordSize := by
    simp only [log2PageSize, log2WordSize] at *; omega
  obtain ⟨hpath, hnode⟩ := ht.path_eq address h1 h2
  refine getTreeProof_eq [] hword h2 hal (by omega) ht.root_eq hpath ?_ ?_
  · have hhash := hnode.hash_eq
    rw [pageHash, nodeHash_nodeHash, hsum] at hhash
    simp only [imageProof]
    rw [← hhash]
    generalize SparseTree.path _ _ _ _ _ _ = node
    cases hn : node.2 with
    | nil =>
      rw [getPageProof, pristineSiblings, Nat.sub_eq_zero_of_le h1, SparseTree.hash, pristineHash,
        pristineHash, pristine_pristine, hsum]
      rfl
    | node hash p l r =>
      rw [getPageProof, if_neg (by omega)]
      rfl
  · have hcut := siblings_cut (h := h) m address hword (Nat.le_refl _) h1 h2
    rw [Nat.sub_self] at hcut
    exact hcut.symm

/-- A node that is smaller than a page does not leave its page. -/
theorem aligned_in_page (h1 : log2Size < log2PageSize) (hal : address.toNat % 2 ^ log2Size = 0) :
    address.toNat % pmaPageSize + 2 ^ log2Size ≤ pmaPageSize := by
  have hdvd : 2 ^ log2Size ∣ pmaPageSize := Nat.pow_dvd_pow 2 h1.le
  obtain ⟨r, hr⟩ := hdvd
  obtain ⟨t, ht⟩ : 2 ^ log2Size ∣ address.toNat % pmaPageSize :=
    (Nat.dvd_mod_iff ⟨r, hr⟩).mpr (Nat.dvd_of_mod_eq_zero hal)
  have hlt : address.toNat % pmaPageSize < pmaPageSize := Nat.mod_lt _ (by decide)
  rw [ht, hr] at hlt ⊢
  exact Nat.mul_le_mul_left _ (Nat.lt_of_mul_lt_mul_left hlt)

/-- A machine whose tree holds the image proves the nodes of the image. -/
theorem TreeHolds.getProofSkip_eq (hd : m.s.board.UarchDisjoint)
    (ht : TreeHolds h m) (h1 : log2WordSize ≤ log2Size)
    (h2 : log2Size ≤ log2RootSize) (hal : address.toNat % 2 ^ log2Size = 0) :
    getProofSkip h m address log2Size = .ok (imageProof h m.image address log2Size) := by
  unfold getProofSkip
  simp only [throwUnless, h1, h2, hal, and_self, if_true]
  refine except_bind_ok_iff.mpr ⟨(), rfl, except_bind_ok_iff.mpr ⟨(), rfl, ?_⟩⟩
  split
  · rename_i hlt
    have hsize : ((1 : Word) <<< log2Size).toNat = 2 ^ log2Size := by
      have hpow : 2 ^ log2Size < 2 ^ 64 := Nat.pow_lt_pow_right (by decide) (by
        simp only [log2PageSize] at hlt; omega)
      rw [BitVec.toNat_shiftLeft, Nat.shiftLeft_eq]
      simpa using hpow
    have hin : address.toNat % pmaPageSize + 2 ^ log2Size ≤ pmaPageSize := aligned_in_page hlt hal
    have hspec := findMerklePma_spec m address ((1 : Word) <<< log2Size)
    rw [hsize] at hspec
    generalize findMerklePma m.merklePmas address ((1 : Word) <<< log2Size) = q at hspec
    rcases hspec with ⟨hq, hne, hcov⟩ | ⟨rfl, hno⟩
    · have hpaged := paged_of_mem hq hne
      obtain ⟨k, hk, hpage, hoff⟩ := page_of_mem hpaged (a := address)
        ⟨hcov.1, by have := hcov.2; omega⟩
      obtain ⟨data, hpeek, hdata⟩ := PageData.of_peek hd hq hk
      have hE : q.entry.istartE = false := by
        simpa [PmaEntry.istartE] using hpaged.not_empty
      rw [hpage] at hdata
      simp only [hE, Bool.false_eq_true, if_false, hoff, hpeek]
      exact ht.getTreeProof_page h1 hlt hal hdata
    · exact ht.getTreeProof_page h1 hlt hal (PageData.of_no_range hin hno)
  · rename_i hge
    exact ht.getTreeProof_large (by omega) h2 hal

theorem Consistent.getProof_eq (hd : m.s.board.UarchDisjoint) (hc : Consistent h m)
    (hs : m.s.TlbSane) (h1 : log2WordSize ≤ log2Size)
    (h2 : log2Size ≤ log2RootSize) (hal : address.toNat % 2 ^ log2Size = 0) :
    ∃ m', getProof h address log2Size m = .ok (imageProof h m.image address log2Size) m' ∧
      Machine.updateMerkleTree h m = .ok true m' ∧ m'.core = m.core ∧ TreeHolds h m' := by
  obtain ⟨m', hupd, hcore, ht⟩ := hc.updateMerkleTree hd hs
  refine ⟨m', ?_, hupd, hcore, ht⟩
  unfold getProof
  simp only [EStateM.bind_ok_iff, EStateM.query_ok_iff, throwUnless_ok_iff]
  refine ⟨true, m', hupd, (), m', ⟨rfl, rfl⟩, ?_, rfl⟩
  rw [← image_congr hcore]
  exact ht.getProofSkip_eq (by rwa [board_congr hcore]) h1 h2 hal

end

/-! ## Reads -/

theorem hostMemory_eq (hd : m.s.board.UarchDisjoint)
    (hq : q ∈ m.merklePmas) (hM : q.entry.istartM = true) {a : Nat} (ha : q.entry.Mem a) :
    m.hostMemory q a = m.image a := by
  have hdata : q.entry.data = .memory := eq_of_beq hM
  cases q with
  | board p =>
    have hp : p ∈ m.s.board.ranges := by simpa [merklePmas] using hq
    have hdata : p.data = .memory := hdata
    rw [image_of_range hd hp ha, MachineState.rangeByte, hdata]
    rfl
  | uarchState => cases hdata
  | uarchRam =>
    have ha : uarchRamPma.Mem a := ha
    have hno : ¬ shadowUarchStatePma.Mem a :=
      PmaEntry.Disjoint.not_mem (p := uarchRamPma) (by decide) ha
    rw [image, if_neg hno, if_pos ha]
    rfl
  | empty => cases hdata

/-- Reading a device page by page gives the bytes of the image. -/
theorem readPages_eq (hd : m.s.board.UarchDisjoint)
    (hq : q ∈ m.merklePmas) (hpaged : q.entry.Paged) (n k : Nat) (shift : Fin 4096)
    (hend : k * pmaPageSize + shift.val + n ≤ q.entry.length.toNat) : readPages m q (k * pmaPageSize) shift n =
      .ok (readBytes m.image (q.entry.start.toNat + k * pmaPageSize + shift.val) n) := by
  induction n using Nat.strongRecOn generalizing k shift with
  | ind n ih =>
    unfold readPages
    split
    · rename_i h0
      subst h0
      rfl
    · rename_i hpos
      have hk : k < pagesInRange q := by
        have := hpaged.length_mod
        simp only [pagesInRange, pmaPageSize] at *
        omega
      obtain ⟨-, hstart, hfit⟩ := page_mem hpaged hk (j := 0) (by decide)
      obtain ⟨w, hw, hwn, hwpos, hwend⟩ : ∃ w, min n (pmaPageSize - shift.val) = w ∧ w ≤ n ∧ 0 < w ∧
          (w = n ∨ w + shift.val = pmaPageSize) := by
        refine ⟨_, rfl, Nat.min_le_left _ _, ?_, ?_⟩ <;>
        · simp only [pmaPageSize]
          omega
      have hwpage : shift.val + w ≤ pmaPageSize := by
        omega
      -- the part of this page, then the rest from the start of the next page
      have hrest := ih (n - w) (by omega) (k + 1) 0 (by
        rw [Nat.succ_mul, Fin.val_zero]
        rcases hwend with rfl | hwend <;> omega)
      rw [Nat.succ_mul] at hrest
      have hsplit : readBytes m.image (q.entry.start.toNat + k * pmaPageSize + shift.val) n =
          readBytes m.image (q.entry.start.toNat + k * pmaPageSize + shift.val) w ++
          readBytes m.image (q.entry.start.toNat + (k * pmaPageSize + pmaPageSize) + (0 : Fin 4096).val)
            (n - w) := by
        conv_lhs => rw [← Nat.add_sub_cancel' hwn, readBytes_append]
        congr 1
        rcases hwend with rfl | hwend
        · rw [Nat.sub_self]
          rfl
        · rw [Fin.val_zero, Nat.add_zero, Nat.add_assoc _ shift.val, Nat.add_comm shift.val, hwend,
            Nat.add_assoc]
      rw [hw]
      rw [hsplit]
      rcases peek_spec hd hq hk with hpeek | ⟨hpeek, hzero⟩
      · simp only [hpeek, hrest]
        rw [pageBytes, drop_take_readBytes hwpage, hstart]
      · simp only [hpeek, hrest]
        congr 2
        refine (List.eq_replicate_iff.mpr ⟨length_readBytes _ _ _, fun b hb => ?_⟩).symm
        obtain ⟨j, hj, rfl⟩ := List.mem_map.mp hb
        have hj := List.mem_range.mp hj
        rw [← hstart, Nat.add_assoc]
        exact hzero _ (by omega)

theorem readMemory_eq (hd : m.s.board.UarchDisjoint) {n : Nat}
    (hin : ∃ q ∈ m.merklePmas, q ≠ .empty ∧ q.Covers address n) :
    readMemory m address n = .ok (readBytes m.image address.toNat n) := by
  unfold readMemory
  split
  · rename_i h0
    subst h0
    rfl
  · rename_i hpos
    obtain ⟨q0, hq0, hne0, hcov0⟩ := hin
    have hlt : n < 2 ^ 64 := by
      have := (paged_of_mem hq0 hne0).end_le
      have := hcov0.2
      omega
    have hspec := findMerklePma_spec m address (BitVec.ofNat 64 n)
    rw [BitVec.toNat_ofNat, Nat.mod_eq_of_lt hlt] at hspec
    generalize findMerklePma m.merklePmas address (BitVec.ofNat 64 n) = q at hspec
    rcases hspec with ⟨hq, hne, hcov⟩ | ⟨rfl, hno⟩
    · obtain ⟨hlo, hhi⟩ := hcov
      simp only
      split
      · rename_i hM
        rw [readBytes_congr fun i hi => hostMemory_eq hd hq hM ⟨by omega, by omega⟩]
      · have hsub : (address - q.entry.start).toNat = address.toNat - q.entry.start.toNat :=
          BitVec.toNat_sub_of_le (BitVec.le_def.mpr hlo)
        have hshift : (Fin.ofNat 4096 (address - q.entry.start).toNat).val =
            (address.toNat - q.entry.start.toNat) % pmaPageSize := by
          rw [hsub]
          rfl
        have hdm := Nat.div_add_mod' (address.toNat - q.entry.start.toNat) pmaPageSize
        rw [readPages_eq hd hq (paged_of_mem hq hne) _ _ _ (by rw [hshift, hsub, hdm]; omega), hshift,
          hsub, Nat.add_assoc, hdm, Nat.add_sub_cancel' hlo]
    · exact absurd hcov0 (hno q0 hq0 hne0)

theorem inRange_iff {a : Nat} : m.InRange a ↔ ∃ q ∈ m.merklePmas, q.entry.Mem a := by
  constructor
  · rintro (ha | ha | ⟨p, hp, ha⟩)
    · exact ⟨.uarchState, by simp [merklePmas], ha⟩
    · exact ⟨.uarchRam, by simp [merklePmas], ha⟩
    · exact ⟨.board p, by simp [merklePmas, hp], ha⟩
  · rintro ⟨q, hq, ha⟩
    cases q with
    | board p => exact .inr (.inr ⟨p, by simpa [merklePmas] using hq, ha⟩)
    | uarchState => exact .inl ha
    | uarchRam => exact .inr (.inl ha)
    | empty => exact absurd ha.2 (Nat.not_lt.mpr ha.1)

/-- The word of the tree around an address can be read iff the address lies in a range. -/
theorem readMemory_leaf_ok_iff (hd : m.s.board.UarchDisjoint) {p : Word}
    {bs : List Byte} : readMemory m (leafAligned p) wordSize = .ok bs ↔
      m.InRange p.toNat ∧ bs = readBytes m.image (wordSize * (p.toNat / wordSize)) wordSize := by
  have hleaf := toNat_leafAligned p
  have hcover : m.InRange p.toNat ↔
      ∃ q ∈ m.merklePmas, q ≠ .empty ∧ q.Covers (leafAligned p) wordSize := by
    rw [inRange_iff]
    constructor
    · rintro ⟨q, hq, ha⟩
      have hne : q ≠ .empty := by
        rintro rfl
        exact absurd ha.2 (Nat.not_lt.mpr ha.1)
      have hpaged := paged_of_mem hq hne
      have h1 := hpaged.start_mod
      have h2 := hpaged.length_mod
      refine ⟨q, hq, hne, ?_⟩
      simp only [MerklePma.Covers, PmaEntry.Mem, hleaf, wordSize, pmaPageSize] at *
      omega
    · rintro ⟨q, hq, -, hcov⟩
      refine ⟨q, hq, ?_⟩
      simp only [MerklePma.Covers, PmaEntry.Mem, hleaf, wordSize] at *
      omega
  constructor
  · intro hread
    by_cases hin : m.InRange p.toNat
    · rw [readMemory_eq hd (hcover.mp hin), hleaf] at hread
      exact ⟨hin, (Except.ok.inj hread).symm⟩
    · -- no range: the empty range shows no page
      rcases findMerklePma_spec m (leafAligned p) (BitVec.ofNat 64 wordSize) with
        ⟨hq, hne, hcov⟩ | ⟨hempty, -⟩
      · exact absurd (hcover.mpr ⟨_, hq, hne, hcov⟩) hin
      · rw [readMemory, if_neg (by decide)] at hread
        simp only [hempty] at hread
        rw [if_neg (by decide), readPages] at hread
        simp [peek, wordSize] at hread
  · rintro ⟨hin, rfl⟩
    rw [readMemory_eq hd (hcover.mp hin), hleaf]

/-! ## Rehashing one page -/

/-- Whether a range shows bytes does not depend on the state. -/
theorem peek_shape (m m' : Machine H) (q : MerklePma) (offset : Nat) :
    (m'.peek q offset).map Option.isSome = (m.peek q offset).map Option.isSome := by
  have hmem : ∀ (f g : Nat → Byte) (p : PmaEntry),
      (memoryPeek f p offset).map Option.isSome = (memoryPeek g p offset).map Option.isSome := by
    intro f g p
    unfold memoryPeek
    split
    · rfl
    · split <;> simp
  have hfirst : ∀ f g : Nat → Byte,
      (firstPagePeek f offset).map Option.isSome = (firstPagePeek g offset).map Option.isSome := by
    intro f g
    unfold firstPagePeek
    split <;> simp
  cases q with
  | board p =>
    simp only [peek, boardPeek]
    split
    · exact hmem _ _ p
    · exact hfirst _ _
    · unfold devicePeek
      split <;> simp
    · rfl
    · rfl
  | uarchState => exact hfirst _ _
  | uarchRam => exact hmem _ _ _
  | empty => rfl

theorem exists_data_iff {x : Option (Option (List Byte))} :
    (∃ data, x = some (some data)) ↔ x.map Option.isSome = some true := by
  rcases x with _ | _ | data <;> simp

theorem shown_of_board (hb : m'.s.board = m.s.board) (i : Nat) : m'.Shown i ↔ m.Shown i := by
  simp only [Shown, merklePmas, hb, exists_data_iff, peek_shape m m']

theorem pageHash_eq_of_image {i : Nat} (himage : ∀ x, x / pmaPageSize = i → m'.image x = m.image x) :
    m'.pageHash h i = m.pageHash h i := by
  refine Hasher.node_congr fun x h1 h2 => himage x ?_
  simp only [wordSize, log2PageSize, log2WordSize, pmaPageSize] at *
  omega

theorem markCleanPage_core (m : Machine H) (q : MerklePma) (offset : Nat) :
    (m.markCleanPage q offset).core = m.core ∧ (m.markCleanPage q offset).tree = m.tree := by
  cases q with
  | board p =>
    simp only [markCleanPage]
    split <;> exact ⟨rfl, rfl⟩
  | _ => exact ⟨rfl, rfl⟩

theorem treeHolds_of_core (hcore : m'.core = m.core) (hh : Holds h (m.pageHash h) m'.tree)
    (hp : ∀ i, i < 2 ^ pageDepth → m.Shown i → SparseTree.Present pageDepth i m'.tree) : TreeHolds h m' := by
  refine ⟨?_, fun i hi hs => hp i hi ((shown_congr hcore i).mp hs)⟩
  rw [pageHash_congr hcore]
  exact hh

/-- After a change of the image inside one page of a range, rehashing that page is enough. -/
theorem TreeHolds.updateMerkleTreePage {n : Machine H} (hd : m.s.board.UarchDisjoint)
    (ht : TreeHolds h m) (htree : n.tree = m.tree) (hb : n.s.board = m.s.board) (hin : m.InRange address.toNat)
    (himage : ∀ x, x / pmaPageSize ≠ address.toNat / pmaPageSize → n.image x = m.image x) :
    ∃ n1, updateMerkleTreePage h n address = some n1 ∧ n1.core = n.core ∧ TreeHolds h n1 := by
  have hd' : n.s.board.UarchDisjoint := by rw [hb]; exact hd
  have hpmas : n.merklePmas = m.merklePmas := by rw [merklePmas, hb, merklePmas]
  have hstart := toNat_pageStart address
  -- the range found is one that contains the page
  obtain ⟨q, hfind, hq, hmem⟩ : ∃ q, findMerklePma n.merklePmas (address &&& ~~~pageOffsetMask) 8 = q ∧
      q ∈ n.merklePmas ∧ q.entry.Mem (address &&& ~~~pageOffsetMask).toNat := by
    have h8 : (8 : Word).toNat = 8 := rfl
    rcases findMerklePma_spec n (address &&& ~~~pageOffsetMask) 8 with ⟨hq, -, hcov⟩ | ⟨-, hno⟩
    · exact ⟨_, rfl, hq, hcov.1, by have := hcov.2; omega⟩
    · obtain ⟨q0, hq0, hmem0⟩ := inRange_iff.mp hin
      have hne : q0 ≠ .empty := by
        rintro rfl
        exact absurd hmem0.2 (Nat.not_lt.mpr hmem0.1)
      rw [← hpmas] at hq0
      have hpaged := paged_of_mem hq0 hne
      have h1 := hpaged.start_mod
      have h2 := hpaged.length_mod
      refine absurd ?_ (hno q0 hq0 hne)
      simp only [MerklePma.Covers, PmaEntry.Mem, hstart, h8, pmaPageSize] at *
      omega
  have hne : q ≠ .empty := by
    rintro rfl
    exact absurd hmem.2 (Nat.not_lt.mpr hmem.1)
  have hpaged := paged_of_mem hq hne
  obtain ⟨k, hk, hpage, hoff⟩ := page_of_mem hpaged hmem
  rw [hstart, Nat.mul_div_cancel_left _ (by decide)] at hpage
  have hoffset : ((address &&& ~~~pageOffsetMask) - q.entry.start).toNat = k * pmaPageSize := by
    have hsub : ((address &&& ~~~pageOffsetMask) - q.entry.start).toNat =
        (address &&& ~~~pageOffsetMask).toNat - q.entry.start.toNat :=
      BitVec.toNat_sub_of_le (BitVec.le_def.mpr hmem.1)
    have hmod := hpaged.start_mod
    rw [hsub, hstart] at hoff ⊢
    simp only [pmaPageSize] at *
    omega
  unfold Machine.updateMerkleTreePage
  simp only [hfind, hoffset]
  have hindex := isPageMarkedDirty_eq q k
  have hother : ∀ i, i ≠ address.toNat / pmaPageSize → n.pageHash h i = m.pageHash h i :=
    fun i hi => pageHash_eq_of_image fun x hx => himage x (by rwa [hx])
  rcases PageData.of_peek hd' hq hk with ⟨data, hpeek, ⟨rfl, hshown⟩ | ⟨rfl, hzero⟩⟩
  · simp only [hpeek, updatePageNodeHash, hindex, getPageNodeHash_pageBytes, htree]
    have hclean := markCleanPage_core { n with tree := endUpdate h (m.tree.insert h.concat
      (pristineHash h log2PageSize) pageDepth (q.page k) (n.pageHash h (q.page k))) } q (k * pmaPageSize)
    refine ⟨_, rfl, hclean.1, treeHolds_of_core (m := n) hclean.1 ?_ fun i hi hs => ?_⟩
    · rw [hclean.2]
      refine SparseTree.Stores.settle (SparseTree.stores_congr (fun i _ _ => ?_)
        (ht.holds.1.insert (by simp) (by simpa using page_lt hq hk)))
      by_cases hi : i = q.page k
      · rw [hi, Function.update_self]
      · rw [Function.update_of_ne hi, hother i (hpage ▸ hi)]
    · rw [hclean.2]
      exact (ht.present i hi ((shown_of_board hb i).mp hs)).insert.settle
  · simp only [hpeek, htree]
    have hclean := markCleanPage_core { n with tree := endUpdate h m.tree } q (k * pmaPageSize)
    -- the range shows nothing of the page, neither now nor before
    have hzero' : ∀ j, j < pmaPageSize → m.image (pmaPageSize * q.page k + j) = 0 := by
      rcases peek_spec hd (hpmas ▸ hq) hk with hpeek' | ⟨-, hz⟩
      · have hshape := peek_shape m n q (k * pmaPageSize)
        rw [hpeek, hpeek'] at hshape
        simp at hshape
      · exact hz
    refine ⟨_, rfl, hclean.1, treeHolds_of_core (m := n) hclean.1 ?_ fun i hi hs => ?_⟩
    · rw [hclean.2]
      refine SparseTree.Stores.settle (SparseTree.stores_congr (fun i _ _ => ?_) ht.holds.1)
      by_cases hi : i = q.page k
      · rw [hi, pageHash_of_zero hzero, pageHash_of_zero hzero']
      · rw [hother i (hpage ▸ hi)]
    · rw [hclean.2]
      exact (ht.present i hi ((shown_of_board hb i).mp hs)).settle

end Machine

end MachineEmulator
