import Mathlib.Data.List.Chain
import MachineEmulator.StepRoot

/-!
# The replay of a step log

The pages and sibling hashes of a log are not trusted. The replayer compares the root they lead to before the step with
the given one, and again after the step has changed the pages.

* `replayStepStateAccess`, `replayFinish` : the checks before and after the step;
* `replay_sound` : the pages are those of the machine, and the step ends with the root of the changed machine.
-/

namespace MachineEmulator.StepLog

open Merkle List PageType

variable {H : Type}

section
variable [DecidableEq H] (h : Hasher H) {zeros : H}

/-- The scratch areas for the hashes of the pages are empty, and the pages come in increasing order. -/
def checkPages (zeros : H) : List (PageType H) → Except String Unit
  | [] => .ok ()
  | p :: pages => do
    throwUnless (p.hash = zeros) "invalid log format: page scratch hash area is not zero"
    throwUnless (∀ next ∈ pages.head?, p.index < next.index)
      "invalid log format: page index is not in increasing order"
    checkPages zeros pages

/-- The checks of a log when the replay starts. -/
def replayStepStateAccess (zeros : H) (c : Context H) (rootHashBefore : H) : Except String Unit := do
  throwUnless (c.pages ≠ []) "page count is zero"
  checkPages zeros c.pages
  let computedRootHashBefore ← computeRootHash h c
  throwUnless (computedRootHashBefore = rootHashBefore) "initial root hash mismatch"

/-- The check when it ends. -/
def replayFinish (c : Context H) (rootHashAfter : H) : Except String Unit := do
  let computedFinalRootHash ← computeRootHash h c
  throwUnless (computedFinalRootHash = rootHashAfter) "final root hash mismatch"

theorem checkPages_ok {pages : List (PageType H)}
    (hok : checkPages zeros pages = .ok ()) : (pages.map index).Pairwise (· < ·) := by
  rw [← isChain_iff_pairwise]
  induction pages with
  | nil => exact .nil
  | cons p pages ih =>
    simp only [checkPages, except_bind_ok_iff, throwUnless_ok_iff] at hok
    obtain ⟨-, -, -, hlt, hok⟩ := hok
    rw [map_cons, isChain_cons, head?_map]
    exact ⟨by simpa using hlt, ih hok⟩

end

variable {h : Hasher H} {c : Context H} {image : Nat → Byte}

/-! ## The walk -/

/-- Two walks over pages of the same indices. What they have used up on the way has the same hashes. -/
structure Alike (pages others pages' others' : List (PageType H))
    (siblings hashes siblings' hashes' : List H) : Prop where
  index : pages'.map index = others'.map index
  leaf : pages'.map leaf = others'.map leaf → pages.map leaf = others.map leaf
  sibling : siblings' = hashes' → siblings = hashes

variable {pages pages' others others' : List (PageType H)} {siblings siblings' hashes hashes' : List H} {x : H}

theorem takeSibling_alike {m n : String} (hindex : pages.map index = others.map index)
    (hp : takeSibling pages m siblings = .ok (x, pages', siblings'))
    (ho : takeSibling others n hashes = .ok (x, others', hashes')) :
    Alike pages others pages' others' siblings hashes siblings' hashes' := by
  cases siblings with
  | nil => cases hp
  | cons s siblings =>
    cases hashes with
    | nil => cases ho
    | cons t hashes =>
      cases hp
      cases ho
      exact ⟨hindex, id, congrArg _⟩

/-- Walks that come to the same hash are alike. -/
theorem computeRootHashImpl_alike (hcf : h.CollisionFree) (d i : Nat)
    (hindex : pages.map index = others.map index)
    (hp : computeRootHashImpl h d i pages siblings = .ok (x, pages', siblings'))
    (ho : computeRootHashImpl h d i others hashes = .ok (x, others', hashes')) :
    Alike pages others pages' others' siblings hashes siblings' hashes' := by
  induction d generalizing i pages pages' others others' siblings siblings' hashes hashes' x with
  | zero =>
    unfold computeRootHashImpl at hp ho
    rw [hindex] at hp
    split_ifs at hp ho with hskip
    · exact takeSibling_alike hindex hp ho
    · cases others with
      | nil => simp [skips] at hskip
      | cons o others =>
        cases pages with
        | nil => cases hindex
        | cons p pages =>
          have hfirst : p.index = o.index := (cons.inj hindex).1
          simp only [hfirst] at hp
          dsimp only at ho
          split_ifs at hp ho
          · simp only [Except.ok.injEq, Prod.mk.injEq] at hp ho
            obtain ⟨rfl, rfl, rfl⟩ := hp
            obtain ⟨hhash, rfl, rfl⟩ := ho
            refine ⟨(cons.inj hindex).2, fun hleaf => ?_, id⟩
            rw [map_cons, map_cons, hleaf, leaf, leaf, hfirst, hhash]
          · exact takeSibling_alike hindex hp ho
  | succ d ih =>
    rw [computeRootHashImpl] at hp ho
    rw [hindex] at hp
    split_ifs at hp ho with hskip
    · exact takeSibling_alike hindex hp ho
    · simp only [except_bind_ok_iff, Prod.exists, Except.ok.injEq, Prod.mk.injEq] at hp ho
      obtain ⟨_, _, _, hpl, _, _, _, hpr, hpx, rfl, rfl⟩ := hp
      obtain ⟨_, _, _, hol, _, _, _, hor, hox, rfl, rfl⟩ := ho
      obtain ⟨rfl, rfl⟩ := hcf.concat_inj _ _ _ _ (hpx.trans hox.symm)
      have hleft := ih i hindex hpl hol
      have hright := ih (i + 2 ^ d) hleft.index hpr hor
      exact ⟨hright.index, hleft.leaf ∘ hright.leaf, hleft.sibling ∘ hright.sibling⟩

/-- The page is one of the image. -/
def PageType.Of (p : PageType H) (image : Nat → Byte) : Prop :=
  p.index < 2 ^ treeHeight ∧ p.data = readBytes image (pmaPageSize * p.index) pmaPageSize

/-- Pages in ascending order and siblings that lead to the root of an image are those of the image. -/
theorem computeRootHash_unique (hcf : h.CollisionFree) (hs : (c.pages.map index).Pairwise (· < ·))
    (hlen : ∀ p ∈ c.pages, p.data.length = pmaPageSize) (hok : computeRootHash h c = .ok (h.root image)) :
    (∀ p ∈ c.pages, p.Of image) ∧ c.siblingHashes = (gaps h.concat
      (nodeHash h.concat (h.leaf image) (log2PageSize - log2WordSize)) treeHeight 0 (c.pages.map index)).1 := by
  have hdata : ∀ p ∈ c.pages, readBytes (replacePages image c.pages) _ _ = p.data :=
    fun p hp => readBytes_replacePages hs hp (hlen p hp)
  simp only [computeRootHash, hashPages_eq hdata, except_bind_ok_iff, Prod.exists, throwUnless_ok_iff, List.isEmpty_iff,
    Except.ok.injEq] at hok
  obtain ⟨_, rfl, root, _, _, hwalk, -, rfl, -, rfl, rfl⟩ := hok
  generalize hf : nodeHash h.concat (h.leaf image) (log2PageSize - log2WordSize) = f
  -- the walk over the pages as the image has them
  let others := c.pages.map fun p => { p with hash := f p.index }
  have hindex : c.pages.map index = (others.map leaf).map Prod.fst := by simp [others, leaf]
  have hrebuild : rebuild h.concat treeHeight 0 (others.map leaf)
      ((gaps h.concat f treeHeight 0 ((others.map leaf).map Prod.fst)).1 ++ []) = some (_, _, _) :=
    rebuild_gaps treeHeight 0 (hindex ▸ hs) (by simp) (by simp [others, leaf]) (fun _ _ _ _ => rfl) []
  obtain ⟨others', hother, hrest⟩ := computeRootHashImpl_of_rebuild treeHeight 0 hrebuild
  rw [← hindex, append_nil, Nat.zero_mul, ← hf, nodeHash_nodeHash] at hother
  have halike := computeRootHashImpl_alike hcf treeHeight 0 (by rw [map_map, map_map]; rfl) hwalk hother
  have hnone : others' = [] := by simpa using halike.index.symm
  rw [hnone, map_nil, eq_comm, dropWhile_eq_nil_iff] at hrest
  have hleaf := halike.leaf (by rw [hnone])
  simp only [others, map_map, map_inj_left, Function.comp_apply, leaf, Prod.mk.injEq, true_and] at hleaf
  refine ⟨fun p hp => ⟨?_, ?_⟩, hf ▸ halike.sibling rfl⟩
  · simpa using hrest (p.index, f p.index) (mem_map_of_mem (mem_map_of_mem hp))
  · have hhash : getMerkleTreeHash h p.data = .ok (f p.index) := by
      rw [← hdata p hp, getMerkleTreeHash_readBytes, hleaf p hp]
    rw [← hf] at hhash
    rw [hcf.readBytes_of_hash (hlen p hp) hhash]
    simp only [pmaPageSize, wordSize, log2PageSize, log2WordSize]
    congr 1
    omega

/-- A log accepted for a machine has its pages. However the step changes them, it can end with the root of the machine
that has the changed pages, and with no other. -/
theorem replay_sound [DecidableEq H] {zeros : H} (hcf : h.CollisionFree)
    (hlen : ∀ p ∈ c.pages, p.data.length = pmaPageSize)
    (hok : replayStepStateAccess h zeros c (h.root image) = .ok ()) :
    (∀ p ∈ c.pages, p.Of image) ∧ ∀ pages rootHashAfter, pages.map index = c.pages.map index →
      (∀ p ∈ pages, p.data.length = pmaPageSize) →
        (replayFinish h { c with pages } rootHashAfter = .ok () ↔
          rootHashAfter = h.root (replacePages image pages)) := by
  simp only [replayStepStateAccess, except_bind_ok_iff, throwUnless_ok_iff] at hok
  obtain ⟨_, -, _, hcheck, _, hroot, rfl⟩ := hok
  have hs := checkPages_ok hcheck
  obtain ⟨hpages, hsiblings⟩ := computeRootHash_unique hcf hs hlen hroot
  refine ⟨hpages, fun pages rootHashAfter hindex hlen' => ?_⟩
  have hafter : computeRootHash h { c with pages } = .ok (h.root (replacePages image pages)) := by
    rw [hsiblings, ← hindex]
    refine computeRootHash_eq (fun _ _ => rfl) (hindex ▸ hs) ?_ hlen'
    rw [hindex]
    exact forall_mem_map.mpr fun p hp => (hpages p hp).1
  rw [replayFinish, hafter]
  exact throwUnless_ok_iff.trans eq_comm

theorem replay_sound_page : ∃ (c : Context FreeHash) (image : Nat → Byte),
    replayStepStateAccess freeHasher (.word []) c (freeHasher.root image) = .ok () ∧ ∀ p ∈ c.pages, p.Of image := by
  let page : PageType FreeHash := ⟨5, readBytes (BitVec.ofNat 8) 0 pmaPageSize, .word []⟩
  have hlen : ∀ p ∈ [page], p.data.length = pmaPageSize := by simp [page, length_readBytes]
  obtain ⟨siblings, image, hroot⟩ : ∃ siblings image, computeRootHash freeHasher ⟨[page], siblings⟩ =
      .ok (freeHasher.root image) := ⟨_, replacePages (fun _ => 0) [page], computeRootHash_eq (fun _ _ => rfl) (by simp)
        (by simp [page, treeHeight, log2RootSize, log2PageSize]) hlen⟩
  have hstart : replayStepStateAccess freeHasher (.word []) ⟨[page], siblings⟩ (freeHasher.root image) = .ok () := by
    simp [replayStepStateAccess, checkPages, throwUnless, hroot, page, bind, Except.bind]
  exact ⟨_, _, hstart, (replay_sound freeHasher_collisionFree hlen hstart).1⟩

end MachineEmulator.StepLog
