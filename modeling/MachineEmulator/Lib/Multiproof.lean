import Mathlib.Data.List.TakeWhile
import MachineEmulator.Lib.Merkle

/-!
# Proofs of many leaves at once

A walk over a hash tree, depth first, with a sorted list of leaves. Where no leaf of the list lies below a node, the
node itself is recorded. From the recorded hashes and the leaves another walk gets the root back, also after the leaves
have changed.

* `gaps` : the recorded hashes, and the leaves behind the node;
* `rebuild` : the node from the leaves and the recorded hashes, and what of both is left;
* `rebuild_gaps` : rebuilding with the recorded hashes takes just those, and gives the node over the new leaves.
-/

namespace Merkle

open List

variable {H : Type}

/-- No leaf of a sorted list comes before `hi`. -/
def skips (hi : Nat) : List Nat → Bool
  | [] => true
  | k :: _ => hi ≤ k

/-- The nodes that have none of the leaves `ks` below them, and whose parents do. -/
def gaps (node : H → H → H) (f : Nat → H) : Nat → Nat → List Nat → List H × List Nat
  | 0, i, ks => if skips (i + 1) ks then ([f i], ks) else ([], ks.tail)
  | d + 1, i, ks =>
    if skips ((i + 1) * 2 ^ (d + 1)) ks then ([nodeHash node f (d + 1) i], ks)
    else
      let (left, ks) := gaps node f d (2 * i) ks
      let (right, ks) := gaps node f d (2 * i + 1) ks
      (left ++ right, ks)

/-- The node over the leaves `ls`, with the hashes `ss` for the parts that have none of them. -/
def rebuild (node : H → H → H) : Nat → Nat → List (Nat × H) → List H → Option (H × List (Nat × H) × List H)
  | 0, i, ls, ss =>
    match ls with
    | (k, x) :: ls' => if k = i then some (x, ls', ss) else ss.head?.map fun s => (s, ls, ss.tail)
    | [] => ss.head?.map fun s => (s, ls, ss.tail)
  | d + 1, i, ls, ss =>
    if skips ((i + 1) * 2 ^ (d + 1)) (ls.map Prod.fst) then ss.head?.map fun s => (s, ls, ss.tail)
    else
      match rebuild node d (2 * i) ls ss with
      | none => none
      | some (left, ls, ss) =>
        match rebuild node d (2 * i + 1) ls ss with
        | none => none
        | some (right, ls, ss) => some (node left right, ls, ss)

/-! ## Sorted leaves -/

def behind (lo : Nat) (ks : List Nat) : List Nat := ks.dropWhile (· < lo)

variable {lo hi : Nat} {ks : List Nat}

theorem le_of_mem_behind : ∀ {ks : List Nat}, ks.Pairwise (· < ·) → ∀ k ∈ behind lo ks, lo ≤ k
  | [], _, k, hk => by simp [behind] at hk
  | a :: ks, hs, k, hk => by
    rw [behind, dropWhile_cons] at hk
    split at hk
    · exact le_of_mem_behind (List.Pairwise.of_cons hs) k hk
    · rename_i ha
      have ha : lo ≤ a := by simpa using ha
      rcases mem_cons.mp hk with rfl | hk
      · exact ha
      · exact Nat.le_trans ha (Nat.le_of_lt (rel_of_pairwise_cons hs hk))

theorem mem_behind {k : Nat} (hk : lo ≤ k) : ∀ {ks : List Nat}, k ∈ ks → k ∈ behind lo ks
  | a :: ks, hmem => by
    rw [behind, dropWhile_cons]
    split
    · rename_i ha
      have ha : a < lo := by simpa using ha
      rcases mem_cons.mp hmem with rfl | hmem
      · omega
      · exact mem_behind hk hmem
    · exact hmem

theorem dropWhile_dropWhile_of_imp {α : Type} {p q : α → Bool} (hpq : ∀ a, p a = true → q a = true) (l : List α) :
    (l.dropWhile p).dropWhile q = l.dropWhile q := by
  induction l with
  | nil => rfl
  | cons a l ih =>
    by_cases ha : p a = true
    · rw [dropWhile_cons_of_pos ha, dropWhile_cons_of_pos (hpq a ha), ih]
    · rw [dropWhile_cons_of_neg ha]

theorem behind_behind (h : lo ≤ hi) (ks : List Nat) : behind hi (behind lo ks) = behind hi ks :=
  dropWhile_dropWhile_of_imp (fun k hk => by simp at hk ⊢; omega) ks

theorem skips_iff (hs : ks.Pairwise (· < ·)) : skips hi ks = true ↔ ∀ k ∈ ks, hi ≤ k := by
  cases ks with
  | nil => simp [skips]
  | cons a ks =>
    simp only [skips, decide_eq_true_eq, forall_mem_cons]
    refine ⟨fun ha => ⟨ha, fun k hk => Nat.le_trans ha (Nat.le_of_lt (rel_of_pairwise_cons hs hk))⟩, And.left⟩

theorem behind_of_skips (h : skips hi ks = true) : behind hi ks = ks := by
  cases ks with
  | nil => rfl
  | cons a ks =>
    have : ¬ a < hi := by simpa [skips] using h
    simp [behind, this]

theorem pairwise_behind (hs : ks.Pairwise (· < ·)) : (behind lo ks).Pairwise (· < ·) :=
  hs.sublist (dropWhile_sublist _)

theorem behind_leaf {i : Nat} (hs : ks.Pairwise (· < ·)) (hlo : ∀ k ∈ ks, i ≤ k)
    (hskip : ¬ skips (i + 1) ks = true) : ∃ ks', ks = i :: ks' ∧ behind (i + 1) ks = ks' := by
  cases ks with
  | nil => simp [skips] at hskip
  | cons a ks =>
    have ha : a < i + 1 := by simpa [skips] using hskip
    obtain rfl : a = i := by
      have := hlo a (mem_cons_self ..)
      omega
    have hks : skips (a + 1) ks = true :=
      (skips_iff (List.Pairwise.of_cons hs)).mpr fun k hk => rel_of_pairwise_cons hs hk
    refine ⟨ks, rfl, ?_⟩
    rw [behind, dropWhile_cons_of_pos (by simp)]
    exact behind_of_skips hks

variable {node : H → H → H}

theorem gaps_snd {f : Nat → H} (d i : Nat) (hs : ks.Pairwise (· < ·))
    (hlo : ∀ k ∈ ks, i * 2 ^ d ≤ k) : (gaps node f d i ks).2 = behind ((i + 1) * 2 ^ d) ks := by
  induction d generalizing i ks with
  | zero =>
    rw [Nat.pow_zero, Nat.mul_one] at *
    rw [gaps]
    split
    · exact (behind_of_skips ‹_›).symm
    · obtain ⟨ks', rfl, hks⟩ := behind_leaf hs hlo ‹_›
      exact hks.symm
  | succ d ih =>
    have e1 : i * 2 ^ (d + 1) = 2 * i * 2 ^ d := by rw [Nat.pow_succ]; ring
    have e2 : (i + 1) * 2 ^ (d + 1) = (2 * i + 1 + 1) * 2 ^ d := by rw [Nat.pow_succ]; ring
    rw [gaps]
    split
    · exact (behind_of_skips ‹_›).symm
    · have hleft := ih (2 * i) hs (fun k hk => e1 ▸ hlo k hk)
      have hright := ih (2 * i + 1) (pairwise_behind hs) (le_of_mem_behind hs)
      dsimp only
      rw [hleft, hright, e2, behind_behind (Nat.mul_le_mul_right _ (by omega))]

theorem map_fst_dropWhile (lo : Nat) (ls : List (Nat × H)) :
    (ls.dropWhile fun l => l.1 < lo).map Prod.fst = behind lo (ls.map Prod.fst) := by
  rw [behind, dropWhile_map]
  rfl

/-- Rebuilding a node takes the recorded hashes and the leaves below it, and gives the node over the new leaves. -/
theorem rebuild_gaps {f f' : Nat → H} (d i : Nat) {ls : List (Nat × H)} (hs : (ls.map Prod.fst).Pairwise (· < ·))
    (hlo : ∀ k ∈ ls.map Prod.fst, i * 2 ^ d ≤ k) (hl : ∀ l ∈ ls, l.2 = f' l.1)
    (hf : ∀ k, i * 2 ^ d ≤ k → k < (i + 1) * 2 ^ d → k ∉ ls.map Prod.fst → f' k = f k) (rest : List H) :
    rebuild node d i ls ((gaps node f d i (ls.map Prod.fst)).1 ++ rest) =
      some (nodeHash node f' d i, ls.dropWhile (fun l => l.1 < (i + 1) * 2 ^ d), rest) := by
  induction d generalizing i ls rest with
  | zero =>
    rw [Nat.pow_zero, Nat.mul_one] at *
    rw [gaps]
    split
    · rename_i hskip
      have hne : ∀ l ∈ ls, i + 1 ≤ l.1 := fun l hl => (skips_iff hs).mp hskip l.1 (mem_map_of_mem hl)
      have hnot : i ∉ ls.map Prod.fst := fun hi => by
        have := (skips_iff hs).mp hskip i hi
        omega
      rw [nodeHash, hf i (Nat.le_refl i) (by omega) hnot]
      cases ls with
      | nil => rfl
      | cons l ls =>
        have hl := hne l (mem_cons_self ..)
        rw [rebuild, dropWhile_cons_of_neg (by simpa using hl), if_neg (by omega)]
        rfl
    · obtain ⟨ks', hks, hbehind⟩ := behind_leaf hs hlo ‹_›
      cases ls with
      | nil => simp at hks
      | cons l ls =>
        have hfirst : l.1 = i := (cons.inj hks).1
        have hrest : ls.dropWhile (fun l => l.1 < i + 1) = ls := by
          cases ls with
          | nil => rfl
          | cons l' ls =>
            have := rel_of_pairwise_cons hs (mem_cons_self ..)
            exact dropWhile_cons_of_neg (by simp; omega)
        rw [rebuild, if_pos hfirst, hl l (mem_cons_self ..), hfirst, nodeHash,
          dropWhile_cons_of_pos (by simp; omega), hrest]
        rfl
  | succ d ih =>
    have e1 : i * 2 ^ (d + 1) = 2 * i * 2 ^ d := by rw [Nat.pow_succ]; ring
    have e2 : (i + 1) * 2 ^ (d + 1) = (2 * i + 1 + 1) * 2 ^ d := by rw [Nat.pow_succ]; ring
    have hmid : (2 * i + 1) * 2 ^ d ≤ (2 * i + 1 + 1) * 2 ^ d := Nat.mul_le_mul_right _ (by omega)
    have hlow : 2 * i * 2 ^ d ≤ (2 * i + 1) * 2 ^ d := Nat.mul_le_mul_right _ (by omega)
    rw [gaps, rebuild]
    by_cases hskip : skips ((i + 1) * 2 ^ (d + 1)) (ls.map Prod.fst) = true
    · -- no leaf below: the recorded hash stands for unchanged leaves
      have hsame : nodeHash node f' (d + 1) i = nodeHash node f (d + 1) i := nodeHash_congr fun k h1 h2 =>
        hf k h1 h2 fun hk => by
          have := (skips_iff hs).mp hskip k hk
          omega
      have hall : ls.dropWhile (fun l => l.1 < (i + 1) * 2 ^ (d + 1)) = ls := by
        cases ls with
        | nil => rfl
        | cons l ls => exact dropWhile_cons_of_neg (by simpa [skips] using hskip)
      rw [if_pos hskip, if_pos hskip, hsame, hall]
      rfl
    · rw [if_neg hskip, if_neg hskip]
      have hleft := ih (2 * i) hs (fun k hk => e1 ▸ hlo k hk) hl
        (fun k h1 h2 => hf k (by omega) (by omega))
        ((gaps node f d (2 * i + 1) (gaps node f d (2 * i) (ls.map Prod.fst)).2).1 ++ rest)
      have hsnd : (gaps node f d (2 * i) (ls.map Prod.fst)).2 = behind ((2 * i + 1) * 2 ^ d) (ls.map Prod.fst) :=
        gaps_snd d (2 * i) hs (fun k hk => e1 ▸ hlo k hk)
      rw [append_assoc, hleft, hsnd]
      dsimp only
      have hs' : ((ls.dropWhile fun l => l.1 < (2 * i + 1) * 2 ^ d).map Prod.fst).Pairwise (· < ·) := by
        rw [map_fst_dropWhile]
        exact pairwise_behind hs
      have hright := ih (2 * i + 1) hs' (by rw [map_fst_dropWhile]; exact le_of_mem_behind hs)
        (fun l hmem => hl l (dropWhile_sublist _ |>.mem hmem))
        (fun k h1 h2 hk => hf k (by omega) (by omega) fun hk' => hk (by
          rw [map_fst_dropWhile]
          exact mem_behind h1 hk')) rest
      rw [map_fst_dropWhile] at hright
      rw [hright, nodeHash, e2, dropWhile_dropWhile_of_imp fun l hl => by simp at hl ⊢; omega]

end Merkle
