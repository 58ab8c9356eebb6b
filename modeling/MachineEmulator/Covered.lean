import MachineEmulator.TreeProof

/-!
# Pages that are going to be rehashed

* `Covered` : a page is marked dirty in a range that shows it, or is the page of an entry of the write
  TLB;
* `covered_of_changed` : a byte that changed, in a range that marks its page, is on a covered page;
* `Consistent.step` : a change of the machine keeps the tree consistent if covered pages stay covered
  and every page that changes is covered. `Consistent.setMemory` is the case of host memory and its dirty pages;
* `image_eq_of_root` : an image with the root hash of a tree has the bytes that the leaves say.
-/

namespace MachineEmulator.Machine

open Merkle MerklePma List

open Merkle (SparseTree)

variable {H : Type} {h : Hasher H} {m m' : Machine H}

def Covered (m : Machine H) (i : Nat) : Prop := m.Pending m.merklePmas i ∨ m.s.WriteTlbPage i

theorem exists_page_of_mem {q : MerklePma} (hq : q ∈ m.merklePmas) {x : Nat} (hx : q.entry.Mem x) :
    ∃ k < pagesInRange q, q.page k = x / pmaPageSize := by
  have hne : q ≠ .empty := by
    rintro rfl
    exact absurd hx (by simp [entry, PmaEntry.Mem, emptyPma])
  have hpaged := paged_of_mem hq hne
  refine exists_page hpaged ?_
  have h1 := hpaged.start_mod
  obtain ⟨h3, h4⟩ := hx
  simp only [PmaEntry.Mem, pmaPageSize] at *
  omega

theorem covered_of_changed (hd : m.s.board.UarchDisjoint) (hb : m'.s.board = m.s.board) {q : MerklePma}
    (hq : q ∈ m'.merklePmas) {x : Nat} (hx : q.entry.Mem x) (hch : m'.image x ≠ m.image x)
    (hdirty : ∀ k, q.page k = x / pmaPageSize → m'.isPageMarkedDirty q (k * pmaPageSize) = true) :
    m'.Covered (x / pmaPageSize) := by
  have hq' : q ∈ m.merklePmas := by rwa [merklePmas, ← hb]
  obtain ⟨k, hk, hki⟩ := exists_page_of_mem hq hx
  refine .inl ⟨q, hq, k, hk, hki, hdirty k hki, ?_⟩
  have hpage : pmaPageSize * q.page k + x % pmaPageSize = x := by
    rw [hki]
    exact Nat.div_add_mod x pmaPageSize
  have hmod : x % pmaPageSize < pmaPageSize := Nat.mod_lt _ (by decide)
  rw [exists_data_iff, peek_shape m m', ← exists_data_iff]
  -- if the range shows nothing, the byte was zero and is zero
  rcases peek_spec hd hq' hk with hshow | ⟨hnone, hzero⟩
  · exact ⟨_, hshow⟩
  · rcases peek_spec (by rwa [hb]) hq hk with hshow' | ⟨-, hzero'⟩
    · have hshape := peek_shape m m' q (k * pmaPageSize)
      rw [hshow', hnone] at hshape
      cases hshape
    · have h1 := hzero _ hmod
      have h2 := hzero' _ hmod
      rw [hpage] at h1 h2
      exact absurd (h2.trans h1.symm) hch

/-- More dirty pages, more pages that are going to be rehashed. -/
theorem Pending.mono (hb : m'.s.board = m.s.board) (hdirty : ∀ i, m.s.dirty i = true → m'.s.dirty i = true)
    (hram : ∀ i, m.uarch.ramDirty i = true → m'.uarch.ramDirty i = true) {i : Nat}
    (hi : m.Pending m.merklePmas i) : m'.Pending m'.merklePmas i := by
  obtain ⟨q, hq, k, hk, hki, hmark, hdata⟩ := hi
  refine ⟨q, by rwa [merklePmas, hb], k, hk, hki, ?_, ?_⟩
  · cases q with
    | board p =>
      simp only [isPageMarkedDirty] at hmark ⊢
      split
      · rename_i hM
        rw [if_pos hM] at hmark
        exact hdirty _ hmark
      · rfl
    | uarchRam => exact hram _ hmark
    | uarchState => exact hmark
    | empty => exact hmark
  · rwa [exists_data_iff, peek_shape m m', ← exists_data_iff]

/-- A change keeps the tree consistent if the pages it changes are covered. -/
theorem Consistent.step (hc : Consistent h m) (hb : m'.s.board = m.s.board) (htree : m'.tree = m.tree)
    (hcov : ∀ i, m.Covered i → m'.Covered i)
    (hch : ∀ x, m'.image x ≠ m.image x → m'.Covered (x / pmaPageSize)) : Consistent h m' := by
  obtain ⟨f, hf, hgood⟩ := hc
  refine ⟨f, by rwa [htree], fun i hi => ?_⟩
  by_cases hsame : ∀ x, x / pmaPageSize = i → m'.image x = m.image x
  · rcases hgood i hi with ⟨h1, h2⟩ | hcovered
    · refine .inl ⟨h1.trans (pageHash_eq_of_image hsame).symm, fun hshown => ?_⟩
      rw [htree]
      exact h2 ((shown_of_board hb i).mp hshown)
    · exact .inr (hcov i hcovered)
  · push Not at hsame
    obtain ⟨x, rfl, hx⟩ := hsame
    exact .inr (hch x hx)

/-- A change of the microarchitecture and of host memory that marks the pages of memory it changes. -/
theorem Consistent.setMemory (hc : Consistent h m) (hd : m.s.board.UarchDisjoint) (hb : m'.s.board = m.s.board)
    (hregs : m'.s.regs = m.s.regs) (htlb : m'.s.tlb = m.s.tlb) (htree : m'.tree = m.tree)
    (hdirty : ∀ i, m.s.dirty i = true → m'.s.dirty i = true)
    (hram : ∀ i, m.uarch.ramDirty i = true → m'.uarch.ramDirty i = true)
    (hch : ∀ x, m'.s.mem x ≠ m.s.mem x → m'.s.dirty (x / pmaPageSize) = true)
    (hchRam : ∀ x, uarchRamPma.Mem x → m'.uarch.ram x ≠ m.uarch.ram x →
      m'.uarch.ramDirty (x / pmaPageSize) = true) : Consistent h m' := by
  have hcov : ∀ i, m.Covered i → m'.Covered i := fun i hi =>
    hi.imp (Pending.mono hb hdirty hram) fun hw => by rwa [MachineState.WriteTlbPage, hb, htlb]
  refine hc.step hb htree hcov fun x hx => ?_
  by_cases h1 : shadowUarchStatePma.Mem x
  · exact covered_of_changed hd hb (q := .uarchState) (by simp [merklePmas]) h1 hx fun _ _ => rfl
  by_cases h2 : uarchRamPma.Mem x
  · refine covered_of_changed hd hb (q := .uarchRam) (by simp [merklePmas]) h2 hx fun k hk => ?_
    have hne : m'.uarch.ram x ≠ m.uarch.ram x := by
      simpa [image, h1, h2] using hx
    rw [isPageMarkedDirty, isPageMarkedDirty_eq, hk]
    exact hchRam x h2 hne
  · -- a byte of the board changes only where host memory does, and then in a range
    have hx' : m'.s.boardByte x ≠ m.s.boardByte x := by
      simpa [image, h1, h2] using hx
    have hne : m'.s.mem x ≠ m.s.mem x := fun hsame => hx' (MachineState.boardByte_congr hb hsame
      (fun _ => by rw [shadowStateWords_congr hregs]) fun _ _ _ => by rw [shadowTlbWord_congr htlb])
    obtain ⟨p, hp, hpx⟩ : ∃ p ∈ m.s.board.ranges, p.Mem x := by
      by_contra hno
      push Not at hno
      rw [m.s.boardByte_of_not_mem hno, m'.s.boardByte_of_not_mem (by rwa [hb])] at hx'
      exact hx' rfl
    refine covered_of_changed hd hb (q := .board p) (by simp [merklePmas, hb, hp]) hpx hx fun k hk => ?_
    rw [isPageMarkedDirty, isPageMarkedDirty_eq, hk]
    split
    · exact hch x hne
    · rfl

/-- A change of the microarchitecture that marks the pages of the RAM it changes. -/
theorem Consistent.setUarch (hc : Consistent h m) (hd : m.s.board.UarchDisjoint) (hs : m'.s = m.s)
    (htree : m'.tree = m.tree) (hram : ∀ i, m.uarch.ramDirty i = true → m'.uarch.ramDirty i = true)
    (hch : ∀ x, uarchRamPma.Mem x → m'.uarch.ram x ≠ m.uarch.ram x →
      m'.uarch.ramDirty (x / pmaPageSize) = true) : Consistent h m' :=
  hc.setMemory hd (by rw [hs]) (by rw [hs]) (by rw [hs]) htree (fun _ hi => by rwa [hs]) hram
    (fun x hne => absurd (by rw [hs]) hne) hch

/-- A root hash pins the bytes of every page whose leaf is known. -/
theorem image_eq_of_root (hcf : h.CollisionFree) {f : Nat → H} {tree : SparseTree H} (hf : Holds h f tree)
    {g : Nat → Byte} (hroot : h.root g = treeRootHash h tree) {i : Nat} (hi : i < 2 ^ pageDepth)
    (hleaf : f i = m.pageHash h i) {x : Nat} (hx : x / pmaPageSize = i) : g x = m.image x := by
  have hnodes : nodeHash h.concat (nodeHash h.concat (h.leaf g)
      (log2PageSize - log2WordSize)) pageDepth 0 = nodeHash h.concat f pageDepth 0 := by
    rw [nodeHash_nodeHash, ← hf.hash_eq]
    exact hroot
  have hnode := nodeHash_inj hcf.concat_inj hnodes i (by simp) (by simpa using hi)
  rw [hleaf] at hnode
  refine hcf.node_inj hnode x ?_ ?_
  · simp only [wordSize, log2PageSize, log2WordSize, pmaPageSize] at *
    omega
  · simp only [wordSize, log2PageSize, log2WordSize, pmaPageSize] at *
    omega

/-- A page that changed but is not covered keeps its leaf, and the next root hash is not that of an image that shows the
change. -/
theorem TreeHolds.stale (hcf : h.CollisionFree) (ht : TreeHolds h m) (hd : m'.s.board.UarchDisjoint) (hs : m'.s.TlbSane)
    (htree : m'.tree = m.tree) {i : Nat} (hi : i < 2 ^ pageDepth) (hcov : ¬ m'.Covered i) {g : Nat → Byte}
    {m'' : Machine H} (hroot : getRootHash h m' = .ok (h.root g) m'') {x : Nat} (hx : x / pmaPageSize = i) :
    g x = m.image x := by
  have hf : Holds h (m.pageHash h) m'.tree := by
    rw [htree]
    exact ht.holds
  obtain ⟨-, hupd, hr⟩ := getRootHash_ok_iff.mp hroot
  obtain ⟨m3, f', hupd', -, hf', -, hsame⟩ := updateMerkleTree_leaves hd hs hf
  rw [hupd] at hupd'
  cases hupd'
  obtain ⟨h1, h2⟩ := not_or.mp hcov
  exact image_eq_of_root hcf hf' hr hi (hsame i h1 h2) hx

/-- A clean page of the RAM is not covered: no range of the board reaches into it. -/
theorem not_covered_of_clean (hd : m.s.board.UarchDisjoint) (hs : m.s.TlbSane) {i : Nat}
    (hi : uarchRamPma.Mem (i * pmaPageSize)) (hclean : m.uarch.ramDirty i = false) :
    ¬ m.Pending m.merklePmas i ∧ ¬ m.s.WriteTlbPage i := by
  have hno : ∀ p ∈ m.s.board.ranges, ∀ k < pagesInRange (.board p), (board p).page k ≠ i := by
    intro p hp k hk hki
    have hmem := (page_mem (q := .board p) (m.s.board.wellFormed.paged p hp) hk (j := 0) (by decide)).1
    rw [hki, Nat.add_zero, Nat.mul_comm] at hmem
    exact (hd p hp).2.not_mem hmem hi
  constructor
  · rintro ⟨q, hq, k, hk, hki, hmark, -⟩
    have hpage := isPageMarkedDirty_eq q k
    rcases mem_merklePmas hq with ⟨p, hp, rfl⟩ | rfl | rfl | rfl
    · exact hno p hp k hk hki
    · have hmem := (page_mem (q := .uarchState) shadowUarchStatePma_paged hk (j := 0) (by decide)).1
      rw [hki, Nat.add_zero, Nat.mul_comm] at hmem
      exact PmaEntry.Disjoint.not_mem (p := shadowUarchStatePma) (by decide) hmem hi
    · rw [isPageMarkedDirty, hpage, hki] at hmark
      rw [hclean] at hmark
      cases hmark
    · exact absurd hk (by simp [pagesInRange, entry, emptyPma, pmaPageSize])
  · rintro ⟨k, hk⟩
    obtain ⟨p, hp, -, j, hj, hji⟩ := exists_of_entryPage (hs k) hk
    exact hno p hp j hj hji

end MachineEmulator.Machine
