import MachineEmulator.Consistency
import MachineEmulator.Lib.Multiproof
import MachineEmulator.MerkleTree

/-!
# The root hash of a step log

The recorder of a step keeps a copy of every page it touches. Its log has those pages and the hashes of the nodes that
have no touched page below them. The replayer gets the root of the machine from the log, and again after it has changed
the pages.

* `touchPage`, `getSiblingHashes`, `finish` : the recorder;
* `computeRootHash` : the replayer;
* `getSiblingHashesImpl_eq`, `computeRootHashImpl_of_rebuild` : both walk over the tree as the walks of a proof of
  many leaves do;
* `computeRootHash_finish` : the root of a log with the pages as they are now.
-/

namespace MachineEmulator

open Merkle List Nat MachineMerkleTree

variable {H : Type}

namespace StepLog

/-! ## The recorder -/

/-- Copies of pages by their addresses, in ascending order. -/
abbrev TouchedPages := List (Word × List Byte)

def emplace (page : Word) (data : List Byte) : TouchedPages → TouchedPages
  | [] => [(page, data)]
  | e :: es => if page.toNat < e.1.toNat then (page, data) :: e :: es else e :: emplace page data es

/-- Keep a copy of the page of an address, unless there is one. -/
def touchPage (image : Nat → Byte) (pages : TouchedPages) (address : Word) : TouchedPages :=
  let page := address &&& ~~~pageOffsetMask
  if pages.any fun e => e.1 = page then pages
  else emplace page (readBytes image page.toNat pmaPageSize) pages

structure PageType (H : Type) where
  index : Nat
  data : List Byte
  /-- Room for the hash of the page while a root is computed. -/
  hash : H

structure Context (H : Type) where
  pages : List (PageType H)
  siblingHashes : List H

section
variable (h : Hasher H)

/-- The hashes of the nodes without touched pages below the `2 ^ d` pages from `pageIndex` on. `next` are the pages that
were not visited yet. -/
def getSiblingHashesImpl (t : MachineMerkleTree H) :
    Nat → Nat → List Nat → List H → Except String (List Nat × List H)
  | 0, pageIndex, next, siblings =>
    if skips (pageIndex + 2 ^ 0) next then do
      let hash ← t.getNodeHash h (BitVec.ofNat 64 (pageIndex * pmaPageSize)) (0 + log2PageSize : Nat)
      .ok (next, siblings ++ [hash])
    else .ok (next.tail, siblings)
  | d + 1, pageIndex, next, siblings =>
    if skips (pageIndex + 2 ^ (d + 1)) next then do
      let hash ← t.getNodeHash h (BitVec.ofNat 64 (pageIndex * pmaPageSize)) (d + 1 + log2PageSize : Nat)
      .ok (next, siblings ++ [hash])
    else do
      let (next, siblings) ← getSiblingHashesImpl t d pageIndex next siblings
      getSiblingHashesImpl t d (pageIndex + 2 ^ d) next siblings

def getSiblingHashes (t : MachineMerkleTree H) (pages : TouchedPages) : Except String (List H) := do
  let pageIndices := pages.map fun e => e.1.toNat / pmaPageSize
  let (next, siblings) ← getSiblingHashesImpl h t treeHeight 0 pageIndices []
  throwUnless (next = []) "get_sibling_hashes failed to consume all pages"
  .ok siblings

def finish [Inhabited H] (t : MachineMerkleTree H) (pages : TouchedPages) : Except String (Context H) := do
  let siblingHashes ← getSiblingHashes h t pages
  .ok { pages := pages.map fun e => ⟨e.1.toNat / pmaPageSize, e.2, default⟩, siblingHashes }

/-! ## The replayer -/

def takeSibling (pages : List (PageType H)) (message : String) :
    List H → Except String (H × List (PageType H) × List H)
  | [] => .error message
  | s :: siblings => .ok (s, pages, siblings)

/-- The hash of the `2 ^ d` pages from `pageIndex` on, with the pages and siblings that are left. -/
def computeRootHashImpl : Nat → Nat → List (PageType H) → List H → Except String (H × List (PageType H) × List H)
  | 0, pageIndex, pages, siblings =>
    if skips (pageIndex + 2 ^ 0) (pages.map PageType.index) then
      takeSibling pages "compute_root_hash_impl: trying to access beyond sibling count while skipping range" siblings
    else
      match pages with
      | p :: rest =>
        if p.index = pageIndex then .ok (p.hash, rest, siblings)
        else takeSibling pages "compute_root_hash_impl: trying to access beyond sibling count" siblings
      | [] => takeSibling pages "compute_root_hash_impl: trying to access beyond sibling count" siblings
  | d + 1, pageIndex, pages, siblings =>
    if skips (pageIndex + 2 ^ (d + 1)) (pages.map PageType.index) then
      takeSibling pages "compute_root_hash_impl: trying to access beyond sibling count while skipping range" siblings
    else do
      let (left, pages, siblings) ← computeRootHashImpl d pageIndex pages siblings
      let (right, pages, siblings) ← computeRootHashImpl d (pageIndex + 2 ^ d) pages siblings
      .ok (h.concat left right, pages, siblings)

def hashPages : List (PageType H) → Except String (List (PageType H))
  | [] => .ok []
  | p :: pages => do
    let hash ← getMerkleTreeHash h p.data
    let pages ← hashPages pages
    .ok ({ p with hash } :: pages)

def computeRootHash (c : Context H) : Except String H := do
  let pages ← hashPages h c.pages
  let (root, nextPages, nextSiblings) ← computeRootHashImpl h treeHeight 0 pages c.siblingHashes
  throwUnless (nextPages.isEmpty = true) "compute_root_hash: next_page != m_context.page_count"
  throwUnless (nextSiblings.isEmpty = true) "compute_root_hash: sibling hashes not totally consumed"
  .ok root

end

/-! ## Touched pages -/

/-- What the recorder keeps of an image. -/
structure Copies (image : Nat → Byte) (pages : TouchedPages) : Prop where
  sorted : (pages.map fun e => e.1.toNat).Pairwise (· < ·)
  aligned : ∀ e ∈ pages, e.1.toNat % pmaPageSize = 0
  data : ∀ e ∈ pages, e.2 = readBytes image e.1.toNat pmaPageSize

variable {pages : TouchedPages}

theorem mem_emplace {page : Word} {data : List Byte} {e : Word × List Byte} :
    e ∈ emplace page data pages ↔ e = (page, data) ∨ e ∈ pages := by
  induction pages with
  | nil => simp [emplace]
  | cons a pages ih =>
    rw [emplace]
    split
    · simp
    · rw [mem_cons, ih, mem_cons]
      tauto

theorem sorted_emplace {page : Word} {data : List Byte}
    (hs : (pages.map fun e => e.1.toNat).Pairwise (· < ·)) (hnew : ∀ e ∈ pages, e.1 ≠ page) :
    ((emplace page data pages).map fun e => e.1.toNat).Pairwise (· < ·) := by
  induction pages with
  | nil => simp [emplace]
  | cons a pages ih =>
    rw [map_cons, pairwise_cons] at hs
    obtain ⟨ha, hnew⟩ := forall_mem_cons.mp hnew
    rw [emplace]
    split
    · rename_i hlt
      rw [map_cons, map_cons, pairwise_cons, pairwise_cons]
      refine ⟨fun k hk => ?_, hs⟩
      rcases mem_cons.mp hk with rfl | hk
      · exact hlt
      · exact Nat.lt_trans hlt (hs.1 k hk)
    · rename_i hge
      have hne : a.1.toNat ≠ page.toNat := fun he => ha (BitVec.eq_of_toNat_eq he)
      rw [map_cons, pairwise_cons]
      refine ⟨fun k hk => ?_, ih hs.2 hnew⟩
      obtain ⟨e, he, rfl⟩ := mem_map.mp hk
      rcases mem_emplace.mp he with rfl | he
      · show a.1.toNat < page.toNat
        omega
      · exact hs.1 _ (mem_map_of_mem he)

theorem Copies.touchPage {image : Nat → Byte} (hc : Copies image pages) (address : Word) :
    Copies image (touchPage image pages address) := by
  unfold StepLog.touchPage
  dsimp only
  split
  · exact hc
  · rename_i hnew
    have hnew : ∀ e ∈ pages, e.1 ≠ address &&& ~~~pageOffsetMask :=
      fun e he heq => hnew (any_eq_true.mpr ⟨e, he, decide_eq_true heq⟩)
    refine ⟨sorted_emplace hc.sorted hnew, fun e he => ?_, fun e he => ?_⟩
    · rcases mem_emplace.mp he with rfl | he
      · show (address &&& ~~~pageOffsetMask).toNat % pmaPageSize = 0
        rw [toNat_pageStart, mul_mod_right]
      · exact hc.aligned e he
    · rcases mem_emplace.mp he with rfl | he
      · dsimp only
      · exact hc.data e he

theorem copies_foldl (image : Nat → Byte) (addresses : List Word) (hc : Copies image pages) :
    Copies image (addresses.foldl (touchPage image) pages) := by
  induction addresses generalizing pages with
  | nil => exact hc
  | cons a addresses ih => exact ih (hc.touchPage a)

theorem Copies.sorted_index {image : Nat → Byte} (hc : Copies image pages) :
    (pages.map fun e => e.1.toNat / pmaPageSize).Pairwise (· < ·) := by
  have hs := hc.sorted
  rw [pairwise_map] at hs ⊢
  refine hs.imp_of_mem fun {a b} ha hb hab => ?_
  have h2 := hc.aligned b hb
  simp only [pmaPageSize] at *
  omega

/-! ## The walks -/

section
variable {h : Hasher H} {f : Nat → H} {t : MachineMerkleTree H}

variable {i : Nat} {image : Nat → Byte}

theorem getNodeHash_index (ht : t.Updated h f) {d : Nat} (hi : (i + 1) * 2 ^ d ≤ 2 ^ treeHeight) :
    t.getNodeHash h (BitVec.ofNat 64 (i * 2 ^ d * pmaPageSize)) (d + log2PageSize : Nat) =
      .ok (nodeHash h.concat f d i) := by
  have e : i * 2 ^ d * pmaPageSize = i * 2 ^ (d + log2PageSize) := by
    rw [Nat.pow_add, Nat.mul_assoc]
    rfl
  have hle : 2 ^ d ≤ 2 ^ treeHeight := Nat.le_trans (Nat.le_mul_of_pos_left _ (succ_pos i)) hi
  have hd : d ≤ treeHeight := (Nat.pow_le_pow_iff_right (by decide)).mp hle
  have hlt : i * 2 ^ d * pmaPageSize < 2 ^ 64 := by
    rw [succ_mul] at hi
    have := Nat.two_pow_pos d
    have htop : 2 ^ treeHeight * pmaPageSize = 2 ^ 64 := by decide
    calc i * 2 ^ d * pmaPageSize < 2 ^ treeHeight * pmaPageSize :=
          Nat.mul_lt_mul_of_pos_right (by omega) (by decide)
      _ = 2 ^ 64 := htop
  have hnat : (BitVec.ofNat 64 (i * 2 ^ d * pmaPageSize)).toNat = i * 2 ^ (d + log2PageSize) := by
    rw [BitVec.toNat_ofNat, mod_eq_of_lt hlt, e]
  have := ht.getNodeHash_eq (a := BitVec.ofNat 64 (i * 2 ^ d * pmaPageSize)) (Nat.le_add_left log2PageSize d)
    (by simp only [treeHeight, log2RootSize, log2PageSize] at *; omega) (by rw [hnat]; exact mul_mod_left ..)
  rwa [hnat, Nat.add_sub_cancel, Nat.mul_div_cancel _ (Nat.two_pow_pos _)] at this

theorem getSiblingHashesImpl_eq (ht : t.Updated h f) (d i : Nat) (hi : (i + 1) * 2 ^ d ≤ 2 ^ treeHeight)
    (next : List Nat) (siblings : List H) : getSiblingHashesImpl h t d (i * 2 ^ d) next siblings =
      .ok ((gaps h.concat f d i next).2, siblings ++ (gaps h.concat f d i next).1) := by
  induction d generalizing i next siblings with
  | zero =>
    rw [getSiblingHashesImpl, gaps, ← succ_mul, Nat.pow_zero, Nat.mul_one]
    split
    · rw [← Nat.pow_zero 2, getNodeHash_index ht hi]
      rfl
    · rw [append_nil]
  | succ d ih =>
    have e : (i + 1) * 2 ^ (d + 1) = (2 * i + 1 + 1) * 2 ^ d := by rw [Nat.pow_succ]; ring
    have hmono : (2 * i + 1) * 2 ^ d ≤ (2 * i + 1 + 1) * 2 ^ d := Nat.mul_le_mul_right _ (by omega)
    rw [getSiblingHashesImpl, gaps, ← succ_mul]
    split
    · rw [getNodeHash_index ht hi]
      rfl
    · rw [show i * 2 ^ (d + 1) = 2 * i * 2 ^ d by rw [Nat.pow_succ]; ring, ih (2 * i) (by omega), ← succ_mul]
      dsimp only [bind, Except.bind]
      rw [ih (2 * i + 1) (by omega), append_assoc]

/-- What a page contributes to the tree. -/
def PageType.leaf (p : PageType H) : Nat × H := (p.index, p.hash)

theorem map_index (pages : List (PageType H)) : pages.map PageType.index = (pages.map PageType.leaf).map Prod.fst := by
  rw [map_map]
  rfl

theorem computeRootHashImpl_of_rebuild (d i : Nat) {pages : List (PageType H)} {siblings siblings' : List H}
    {ls : List (Nat × H)} {x : H}
    (hr : rebuild h.concat d i (pages.map PageType.leaf) siblings = some (x, ls, siblings')) :
    ∃ pages', computeRootHashImpl h d (i * 2 ^ d) pages siblings = .ok (x, pages', siblings') ∧
      pages'.map PageType.leaf = ls := by
  -- taking a sibling, whatever the message would be
  have htake : ∀ (pages : List (PageType H)) (message : String) (siblings siblings' : List H) (ls : List (Nat × H))
      (x : H),
      (siblings.head?.map fun s => (s, pages.map PageType.leaf, siblings.tail)) = some (x, ls, siblings') →
      ∃ pages', takeSibling pages message siblings = .ok (x, pages', siblings') ∧ pages'.map PageType.leaf = ls := by
    intro pages message siblings siblings' ls x hr
    cases siblings with
    | nil => cases hr
    | cons s siblings =>
      cases hr
      exact ⟨pages, rfl, rfl⟩
  induction d generalizing i pages siblings siblings' ls x with
  | zero =>
    cases pages with
    | nil => exact htake [] _ _ _ _ _ hr
    | cons p pages =>
      rw [map_cons, PageType.leaf, rebuild] at hr
      rw [computeRootHashImpl, Nat.pow_zero, Nat.mul_one]
      split at hr
      · rename_i hp
        have hskip : ¬ skips (i + 1) (p.index :: pages.map PageType.index) = true := by simp [skips, hp]
        cases hr
        rw [map_cons, if_neg hskip, if_pos hp]
        exact ⟨pages, rfl, rfl⟩
      · rename_i hp
        split
        · exact htake (p :: pages) _ _ _ _ _ hr
        · exact htake (p :: pages) _ _ _ _ _ hr
  | succ d ih =>
    rw [rebuild] at hr
    rw [computeRootHashImpl, map_index, ← succ_mul]
    split_ifs at hr ⊢ with hskip
    · exact htake pages _ _ _ _ _ hr
    · split at hr
      · cases hr
      · rename_i left ls1 siblings1 hleft
        split at hr
        · cases hr
        · rename_i right ls2 siblings2 hright
          cases hr
          obtain ⟨pages1, h1, rfl⟩ := ih (2 * i) hleft
          obtain ⟨pages2, h2, hls⟩ := ih (2 * i + 1) hright
          refine ⟨pages2, ?_, hls⟩
          rw [show i * 2 ^ (d + 1) = 2 * i * 2 ^ d by rw [Nat.pow_succ]; ring, h1, ← succ_mul]
          dsimp only [bind, Except.bind]
          rw [h2]

/-! ## The root -/

/-- The image with some of its pages replaced. -/
def replacePages (image : Nat → Byte) (pages : List (PageType H)) (a : Nat) : Byte :=
  match pages.find? fun p => p.index = a / pmaPageSize with
  | some p => p.data.getD (a % pmaPageSize) 0
  | none => image a

theorem replacePages_of_not_mem {pages : List (PageType H)} {a : Nat}
    (ha : a / pmaPageSize ∉ pages.map PageType.index) : replacePages image pages a = image a := by
  have hnone : pages.find? (fun p => p.index = a / pmaPageSize) = none :=
    find?_eq_none.mpr fun p hp he => ha (mem_map.mpr ⟨p, hp, of_decide_eq_true he⟩)
  rw [replacePages, hnone]

theorem replacePages_of_mem {pages : List (PageType H)}
    (hs : (pages.map PageType.index).Pairwise (· < ·)) {p : PageType H} (hp : p ∈ pages) {a : Nat}
    (ha : a / pmaPageSize = p.index) : replacePages image pages a = p.data.getD (a % pmaPageSize) 0 := by
  have hfind : pages.find? (fun q => q.index = a / pmaPageSize) = some p := by
    have hsome : (pages.find? fun q => q.index = a / pmaPageSize).isSome = true :=
      find?_isSome.mpr ⟨p, hp, decide_eq_true ha.symm⟩
    obtain ⟨q, hq⟩ := Option.isSome_iff_exists.mp hsome
    have hindex : q.index = a / pmaPageSize := by simpa using find?_some hq
    rw [hq, inj_on_of_nodup_map (hs.imp Nat.ne_of_lt) (mem_of_find?_eq_some hq) hp (hindex.trans ha)]
  rw [replacePages, hfind]

theorem readBytes_replacePages {pages : List (PageType H)}
    (hs : (pages.map PageType.index).Pairwise (· < ·)) {p : PageType H} (hp : p ∈ pages)
    (hlen : p.data.length = pmaPageSize) :
    readBytes (replacePages image pages) (wordSize * (p.index * 2 ^ (log2PageSize - log2WordSize)))
      (wordSize * 2 ^ (log2PageSize - log2WordSize)) = p.data := by
  have e : wordSize * (p.index * 2 ^ (log2PageSize - log2WordSize)) = pmaPageSize * p.index := by
    simp only [pmaPageSize, wordSize, log2PageSize, log2WordSize]
    omega
  rw [e, show wordSize * 2 ^ (log2PageSize - log2WordSize) = pmaPageSize from rfl]
  refine ext_getElem (by rw [length_readBytes, hlen]) fun k h1 h2 => ?_
  rw [hlen] at h2
  have hpage : (pmaPageSize * p.index + k) / pmaPageSize = p.index := by
    rw [mul_add_div (by decide), div_eq_of_lt h2, Nat.add_zero]
  simp only [readBytes, getElem_map, getElem_range]
  rw [replacePages_of_mem hs hp hpage, mul_add_mod, mod_eq_of_lt h2, getD_eq_getElem _ _ (by omega)]

theorem hashPages_eq {pages : List (PageType H)}
    (hdata : ∀ p ∈ pages, readBytes image (wordSize * (p.index * 2 ^ (log2PageSize - log2WordSize)))
      (wordSize * 2 ^ (log2PageSize - log2WordSize)) = p.data) : hashPages h pages = .ok (pages.map fun p =>
      { p with hash := nodeHash h.concat (h.leaf image) (log2PageSize - log2WordSize) p.index }) := by
  induction pages with
  | nil => rfl
  | cons p pages ih =>
    obtain ⟨hp, hrest⟩ := forall_mem_cons.mp hdata
    rw [hashPages, ← hp, getMerkleTreeHash_readBytes, ih hrest]
    rw [hp]
    rfl

/-- The root from pages in ascending order and the hashes recorded for them. -/
theorem computeRootHash_eq
    (hf : ∀ i, i < 2 ^ treeHeight → f i = nodeHash h.concat (h.leaf image) (log2PageSize - log2WordSize) i)
    {pages : List (PageType H)} (hs : (pages.map PageType.index).Pairwise (· < ·))
    (hlt : ∀ i ∈ pages.map PageType.index, i < 2 ^ treeHeight) (hlen : ∀ p ∈ pages, p.data.length = pmaPageSize) :
    computeRootHash h ⟨pages, (gaps h.concat f treeHeight 0 (pages.map PageType.index)).1⟩ =
      .ok (h.root (replacePages image pages)) := by
  generalize hg : replacePages image pages = image'
  have hpages : hashPages h pages = .ok (pages.map fun p =>
      { p with hash := nodeHash h.concat (h.leaf image') (log2PageSize - log2WordSize) p.index }) :=
    hashPages_eq fun p hp => hg ▸ readBytes_replacePages hs hp (hlen p hp)
  generalize hhashed : (pages.map fun p : PageType H =>
      { p with hash := nodeHash h.concat (h.leaf image') (log2PageSize - log2WordSize) p.index }) = hashed at hpages
  have hindex : pages.map PageType.index = (hashed.map PageType.leaf).map Prod.fst := by
    rw [← map_index, ← hhashed, map_map]
    rfl
  -- away from the pages the new image is the old one
  have hold : ∀ k, 0 * 2 ^ treeHeight ≤ k → k < (0 + 1) * 2 ^ treeHeight → k ∉ (hashed.map PageType.leaf).map Prod.fst →
      nodeHash h.concat (h.leaf image') (log2PageSize - log2WordSize) k = f k := fun k _ hk hnot => by
    rw [hf k (by omega)]
    refine Hasher.node_congr fun a h1 h2 => ?_
    have hpage : a / pmaPageSize = k := by
      simp only [pmaPageSize, wordSize, log2PageSize, log2WordSize] at *
      omega
    rw [← hg, replacePages_of_not_mem (by rwa [hindex, hpage])]
  have hleaves : ∀ l ∈ hashed.map PageType.leaf,
      l.2 = nodeHash h.concat (h.leaf image') (log2PageSize - log2WordSize) l.1 := fun l hl => by
    rw [← hhashed, map_map] at hl
    obtain ⟨p, -, rfl⟩ := mem_map.mp hl
    rfl
  have hrebuild : rebuild h.concat treeHeight 0 (hashed.map PageType.leaf)
      ((gaps h.concat f treeHeight 0 ((hashed.map PageType.leaf).map Prod.fst)).1 ++ []) = some (_, _, _) :=
    rebuild_gaps treeHeight 0 (hindex ▸ hs) (by simp) hleaves hold []
  have hnone : (hashed.map PageType.leaf).dropWhile (fun l => l.1 < (0 + 1) * 2 ^ treeHeight) = [] := by
    rw [dropWhile_eq_nil_iff]
    intro l hl
    have := hlt l.1 (hindex ▸ mem_map_of_mem hl)
    simpa using this
  rw [hnone, append_nil, ← hindex, nodeHash_nodeHash] at hrebuild
  obtain ⟨rest, himpl, hrest⟩ := computeRootHashImpl_of_rebuild treeHeight 0 hrebuild
  rw [map_eq_nil_iff] at hrest
  rw [Nat.zero_mul, hrest] at himpl
  rw [computeRootHash, hpages]
  dsimp only [bind, Except.bind]
  rw [himpl]
  rfl

theorem mem_touchPage {address : Word} :
    i ∈ (touchPage image pages address).map (fun e => e.1.toNat / pmaPageSize) ↔
      i = address.toNat / pmaPageSize ∨ i ∈ pages.map fun e => e.1.toNat / pmaPageSize := by
  have hpage : (address &&& ~~~pageOffsetMask).toNat / pmaPageSize = address.toNat / pmaPageSize := by
    rw [toNat_pageStart, Nat.mul_div_cancel_left _ (by decide)]
  unfold touchPage
  dsimp only
  split
  · rename_i hany
    obtain ⟨e, he, heq⟩ := any_eq_true.mp hany
    refine ⟨.inr, fun hi => hi.elim (fun hi => ?_) id⟩
    rw [hi, ← hpage, ← of_decide_eq_true heq]
    exact mem_map_of_mem he
  · simp only [mem_map, mem_emplace]
    constructor
    · rintro ⟨e, rfl | he, rfl⟩
      · exact .inl hpage
      · exact .inr ⟨e, he, rfl⟩
    · rintro (rfl | ⟨e, he, rfl⟩)
      · exact ⟨_, .inl rfl, hpage⟩
      · exact ⟨e, .inr he, rfl⟩

/-- The pages in the log are those of the addresses that were touched. -/
theorem mem_foldl_touchPage (addresses : List Word) :
    i ∈ (addresses.foldl (touchPage image) pages).map (fun e => e.1.toNat / pmaPageSize) ↔
      (∃ a ∈ addresses, a.toNat / pmaPageSize = i) ∨ i ∈ pages.map fun e => e.1.toNat / pmaPageSize := by
  induction addresses generalizing pages with
  | nil => simp
  | cons a addresses ih =>
    rw [foldl_cons, ih, mem_touchPage, exists_mem_cons_iff, eq_comm (a := i), ← or_assoc,
      or_comm (b := a.toNat / pmaPageSize = i)]

theorem index_lt (a : Word) : a.toNat / pmaPageSize < 2 ^ treeHeight := by
  simp only [pmaPageSize, treeHeight, log2RootSize, log2PageSize]
  omega

theorem finish_eq [Inhabited H] (ht : t.Updated h f) (hc : Copies image pages) :
    finish h t pages = .ok ⟨pages.map fun e => ⟨e.1.toNat / pmaPageSize, e.2, default⟩,
      (gaps h.concat f treeHeight 0 (pages.map fun e => e.1.toNat / pmaPageSize)).1⟩ := by
  have himpl := getSiblingHashesImpl_eq ht treeHeight 0 (by simp) (pages.map fun e => e.1.toNat / pmaPageSize) []
  rw [Nat.zero_mul, nil_append, gaps_snd treeHeight 0 hc.sorted_index (by simp)] at himpl
  have hnone : behind ((0 + 1) * 2 ^ treeHeight) (pages.map fun e => e.1.toNat / pmaPageSize) = [] := by
    rw [behind, dropWhile_eq_nil_iff]
    intro k hk
    obtain ⟨e, -, rfl⟩ := mem_map.mp hk
    simpa using index_lt e.1
  rw [finish, getSiblingHashes, himpl, hnone]
  rfl

/-- The copies of the pages put nothing new into the image. -/
theorem replacePages_copies [Inhabited H] (hc : Copies image pages) :
    replacePages image (pages.map fun e => (⟨e.1.toNat / pmaPageSize, e.2, default⟩ : PageType H)) = image := by
  have hindex : (pages.map fun e => (⟨e.1.toNat / pmaPageSize, e.2, default⟩ : PageType H)).map PageType.index =
      pages.map fun e => e.1.toNat / pmaPageSize := by
    rw [map_map]
    rfl
  funext a
  by_cases ha : a / pmaPageSize ∈ pages.map fun e => e.1.toNat / pmaPageSize
  · obtain ⟨e, he, hpage⟩ := mem_map.mp ha
    have hstart := hc.aligned e he
    have hoffset : a % pmaPageSize < pmaPageSize := mod_lt _ (by decide)
    rw [replacePages_of_mem (hindex ▸ hc.sorted_index) (mem_map_of_mem he) hpage.symm, hc.data e he,
      getD_eq_getElem _ _ (by rwa [length_readBytes])]
    simp only [readBytes, getElem_map, getElem_range]
    congr 1
    simp only [pmaPageSize] at *
    omega
  · exact replacePages_of_not_mem (by rwa [hindex])

/-- A step log gives the root of the image it was recorded from, and if its pages are changed the root of the image with
these pages. Every page and every sibling hash is used up in the computation. -/
theorem computeRootHash_finish [Inhabited H] (ht : t.Updated h f) {image : Nat → Byte}
    (hf : ∀ i, i < 2 ^ treeHeight → f i = nodeHash h.concat (h.leaf image) (log2PageSize - log2WordSize) i)
    (addresses : List Word) : ∃ log, finish h t (addresses.foldl (touchPage image) []) = .ok log ∧
      (∀ i, i ∈ log.pages.map PageType.index ↔ ∃ a ∈ addresses, a.toNat / pmaPageSize = i) ∧
      computeRootHash h log = .ok (h.root image) ∧
      ∀ pages, pages.map PageType.index = log.pages.map PageType.index → (∀ p ∈ pages, p.data.length = pmaPageSize) →
        computeRootHash h { log with pages } = .ok (h.root (replacePages image pages)) := by
  have hnil : Copies image [] := ⟨List.Pairwise.nil, by simp, by simp⟩
  have hc := copies_foldl image addresses hnil
  have htouched : ∀ i, i ∈ (addresses.foldl (touchPage image) []).map (fun e => e.1.toNat / pmaPageSize) ↔
      ∃ a ∈ addresses, a.toNat / pmaPageSize = i := fun i => by
    rw [mem_foldl_touchPage]
    exact or_iff_left (not_mem_nil)
  generalize addresses.foldl (touchPage image) [] = touched at hc htouched
  have hindex : (touched.map fun e => (⟨e.1.toNat / pmaPageSize, e.2, default⟩ : PageType H)).map PageType.index =
      touched.map fun e => e.1.toNat / pmaPageSize := by
    rw [map_map]
    rfl
  have hroot : ∀ pages : List (PageType H), pages.map PageType.index = touched.map (fun e => e.1.toNat / pmaPageSize) →
      (∀ p ∈ pages, p.data.length = pmaPageSize) →
      computeRootHash h ⟨pages, (gaps h.concat f treeHeight 0 (touched.map fun e => e.1.toNat / pmaPageSize)).1⟩ =
        .ok (h.root (replacePages image pages)) := fun pages hpages hlen => by
    rw [← hpages]
    refine computeRootHash_eq hf (hpages ▸ hc.sorted_index) (fun i hi => ?_) hlen
    rw [hpages] at hi
    obtain ⟨e, -, rfl⟩ := mem_map.mp hi
    exact index_lt e.1
  refine ⟨_, finish_eq ht hc, fun i => by rw [hindex]; exact htouched i, ?_, fun pages hpages =>
    hroot pages (hpages.trans hindex)⟩
  refine (hroot _ hindex fun p hp => ?_).trans ?_
  · obtain ⟨e, he, rfl⟩ := mem_map.mp hp
    show e.2.length = pmaPageSize
    rw [hc.data e he, length_readBytes]
  · rw [replacePages_copies hc]

/-- Two pages of zeros. -/
theorem computeRootHash_finish_zeros :
    ∃ log, finish freeHasher (MachineMerkleTree.make freeHasher)
      (List.foldl (touchPage fun _ => 0) [] [0x5000, 0x1234]) =
        .ok log ∧ computeRootHash freeHasher log = .ok (freeHasher.root fun _ => 0) := by
  have ht : (make freeHasher).Updated freeHasher fun _ =>
      getPristineHash freeHasher log2PageSize := ready_make.toUpdated
  have hf : ∀ i, i < 2 ^ treeHeight → getPristineHash freeHasher log2PageSize =
      nodeHash freeHasher.concat (freeHasher.leaf fun _ => 0) (log2PageSize - log2WordSize) i :=
    fun i _ => by
      rw [Machine.nodeHash_of_zero fun _ _ _ => rfl]
      rfl
  obtain ⟨log, hlog, -, hroot, -⟩ := computeRootHash_finish ht hf [0x5000, 0x1234]
  exact ⟨log, hlog, hroot⟩

end

end StepLog

end MachineEmulator
