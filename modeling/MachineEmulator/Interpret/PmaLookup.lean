import Mathlib.Data.List.Perm.Basic
import MachineEmulator.Interpret.Translation

/-!
# The range a word falls in

The interpreter, the machine and the bridge to the microarchitecture each look up the range of a word with a loop of
their own.

* `searchPmas`, `machineFindPmaEntry`, `bridgeFindPmaEntry` : the three lookups;
* `registerAll` : registering entry after entry; `Checked` is what the checks establish about the table;
* `wordRange` : the range that contains a word. There is at most one, so the order of the table does not matter
  (`Checked.wordRange_perm`);
* `lookups_agree` : the three lookups give that range, or the first empty entry.
-/

namespace MachineEmulator.Interpret

open List

/-! ## The lookups -/

def machineFindPmaEntry (pmas : List PmaEntry) (paddr length : Word) : Option PmaEntry :=
  match pmas.find? fun pma =>
      pma.length = 0 ||
        (pma.start ≤ paddr && length ≤ pma.length && paddr - pma.start ≤ pma.length - length) with
  | some pma => some pma
  | none => pmas.getLast?

def bridgeFindPmaEntry (pmas : List PmaEntry) (paddr length : Word) : Option PmaEntry :=
  match pmas.find? fun pma => pma.length = 0 || pma.contains paddr length with
  | some pma => some pma
  | none => pmas.getLast?

def CoversWord (paddr : Word) (n : Nat) (p : PmaEntry) : Prop :=
  p.start.toNat ≤ paddr.toNat ∧ paddr.toNat + n ≤ p.start.toNat + p.length.toNat

instance (paddr : Word) (n : Nat) (p : PmaEntry) : Decidable (CoversWord paddr n p) :=
  inferInstanceAs (Decidable (_ ∧ _))

def wordRange (ranges : List PmaEntry) (paddr : Word) (n : Nat) : Option PmaEntry :=
  ranges.find? fun p => CoversWord paddr n p

/-! ## Registered tables -/

def registerAll : List PmaEntry → List PmaEntry → Except String (List PmaEntry)
  | pmas, [] => .ok pmas
  | pmas, p :: ps => do
    let pmas ← registerPmaEntry pmas p
    registerAll pmas ps

/-- What the checks of a registration establish. -/
structure Checked (pmas : List PmaEntry) : Prop where
  length_le : pmas.length ≤ pmaMax
  page_le : ∀ p ∈ pmas, p.length ≠ 0 → pmaPageSize ≤ p.length.toNat
  end_le : ∀ p ∈ pmas, p.length ≠ 0 → p.start.toNat + p.length.toNat ≤ 2 ^ 56
  disjoint : pmas.Pairwise fun p q => p.length ≠ 0 → q.length ≠ 0 → p.Disjoint q

theorem Checked.register {pmas pmas' : List PmaEntry} {p : PmaEntry} (hc : Checked pmas)
    (h : registerPmaEntry pmas p = .ok pmas') : Checked pmas' := by
  obtain ⟨hlen, -, hmod, hend, hover, rfl⟩ := registerPmaEntry_ok h
  refine ⟨by simp; omega, fun q hq hne => ?_, fun q hq hne => ?_, ?_⟩
  · rcases mem_append.mp hq with hq | hq
    · exact hc.page_le q hq hne
    · obtain rfl := mem_singleton.mp hq
      have := toNat_pos_of_ne_zero hne
      exact Nat.le_of_dvd this (Nat.dvd_of_mod_eq_zero hmod)
  · rcases mem_append.mp hq with hq | hq
    · exact hc.end_le q hq hne
    · obtain rfl := mem_singleton.mp hq
      exact hend hne
  · refine pairwise_append.mpr ⟨hc.disjoint, pairwise_singleton _ _, fun q hq r hr hne hp => ?_⟩
    obtain rfl := mem_singleton.mp hr
    exact (disjoint_of_overlaps_eq_false (hend hp) (hc.end_le q hq hne) (hover q hq)).symm

theorem Checked.registerAll {pmas pmas' : List PmaEntry} (ps : List PmaEntry) (hc : Checked pmas)
    (h : registerAll pmas ps = .ok pmas') : Checked pmas' := by
  induction ps generalizing pmas with
  | nil =>
    cases h
    exact hc
  | cons p ps ih =>
    rw [Interpret.registerAll, except_bind_ok_iff] at h
    obtain ⟨pmas1, h1, h2⟩ := h
    exact ih (hc.register h1) h2

theorem checked_nil : Checked [] := ⟨by simp, by simp, by simp, List.Pairwise.nil⟩

/-! ## At most one range -/

section
variable {ranges sentinels : List PmaEntry} {paddr : Word} {n : Nat}

theorem Checked.unique (hc : Checked ranges) (hr : ∀ p ∈ ranges, p.length ≠ 0) (hn : 0 < n) {p q : PmaEntry}
    (hp : p ∈ ranges) (hq : q ∈ ranges) (hpw : CoversWord paddr n p) (hqw : CoversWord paddr n q) : p = q := by
  by_contra hne
  have hsymm : Std.Symm fun p q : PmaEntry => p.length ≠ 0 → q.length ≠ 0 → p.Disjoint q :=
    ⟨fun _ _ h hq hp => (h hp hq).symm⟩
  have hd := hc.disjoint.forall hp hq hne (hr p hp) (hr q hq)
  unfold CoversWord at hpw hqw
  unfold PmaEntry.Disjoint at hd
  omega

theorem Checked.wordRange_eq_some_iff (hc : Checked ranges) (hr : ∀ p ∈ ranges, p.length ≠ 0) (hn : 0 < n)
    {p : PmaEntry} : wordRange ranges paddr n = some p ↔ p ∈ ranges ∧ CoversWord paddr n p := by
  constructor
  · intro h
    exact ⟨mem_of_find?_eq_some h, by simpa using find?_some h⟩
  · rintro ⟨hp, hw⟩
    have hsome : (wordRange ranges paddr n).isSome = true := find?_isSome.mpr ⟨p, hp, decide_eq_true hw⟩
    obtain ⟨q, hq⟩ := Option.isSome_iff_exists.mp hsome
    have hqw : CoversWord paddr n q := by simpa using find?_some hq
    rw [hq, hc.unique hr hn (mem_of_find?_eq_some hq) hp hqw hw]

theorem Checked.perm {ranges' : List PmaEntry} (hc : Checked ranges) (hp : ranges'.Perm ranges) : Checked ranges' :=
  { length_le := hp.length_eq ▸ hc.length_le
    page_le := fun p h => hc.page_le p (hp.mem_iff.mp h)
    end_le := fun p h => hc.end_le p (hp.mem_iff.mp h)
    disjoint := hp.symm.pairwise hc.disjoint fun h hq hp => (h hp hq).symm }

theorem Checked.wordRange_perm {ranges' : List PmaEntry} (hc : Checked ranges) (hr : ∀ p ∈ ranges, p.length ≠ 0)
    (hn : 0 < n) (hp : ranges'.Perm ranges) : wordRange ranges' paddr n = wordRange ranges paddr n := by
  refine Option.ext fun p => ?_
  rw [(hc.perm hp).wordRange_eq_some_iff (fun q hq => hr q (hp.mem_iff.mp hq)) hn, hc.wordRange_eq_some_iff hr hn,
    hp.mem_iff]

/-! ## The lookups in a table -/

theorem find?_congr {α : Type} {f g : α → Bool} {xs : List α} (h : ∀ x ∈ xs, f x = g x) : xs.find? f = xs.find? g := by
  induction xs with
  | nil => rfl
  | cons x xs ih =>
    obtain ⟨hx, hxs⟩ := forall_mem_cons.mp h
    rw [find?_cons, find?_cons, hx, ih hxs]

/-- Any test that says of the ranges whether they contain the word, and accepts empty entries. -/
theorem find?_table {test : PmaEntry → Bool} {e : PmaEntry} {es : List PmaEntry}
    (hranges : ∀ p ∈ ranges, test p = true ↔ CoversWord paddr n p) (he : test e = true) :
    (ranges ++ e :: es).find? test = some ((wordRange ranges paddr n).getD e) := by
  have hsame : ranges.find? test = wordRange ranges paddr n := find?_congr fun p hp => by
    rw [Bool.eq_iff_iff, decide_eq_true_iff]
    exact hranges p hp
  rw [find?_append, hsame, find?_cons_of_pos he]
  cases wordRange ranges paddr n <;> rfl

/-- The interpreter's loop, as long as its counter covers the table. -/
theorem searchPmas_eq_find? {pmas : List PmaEntry} {size : MemSize} (k index : Nat) (hk : pmas.length ≤ index + k) :
    searchPmas pmas size paddr k index = (pmas.drop index).find? fun pma =>
      pma.length = 0 ∨ (pma.start ≤ paddr ∧ paddr - pma.start ≤ pma.length - size.sizeof) := by
  induction k generalizing index with
  | zero => rw [searchPmas, List.getElem?_eq_none (by omega), drop_eq_nil_of_le (by omega), List.find?_nil]
  | succ k ih =>
    rw [searchPmas]
    cases hp : pmas[index]? with
    | none => rw [drop_eq_nil_of_le (List.getElem?_eq_none_iff.mp hp), List.find?_nil]
    | some pma =>
      obtain ⟨hlt, rfl⟩ := List.getElem?_eq_some_iff.mp hp
      rw [drop_eq_getElem_cons hlt, List.find?_cons]
      by_cases h1 : pmas[index].length = 0
      · simp [h1]
      · by_cases h2 : pmas[index].start ≤ paddr ∧ paddr - pmas[index].start ≤ pmas[index].length - size.sizeof
        · simp [h2]
        · simp only [h1, if_false, h2, or_self, decide_false]
          exact ih (index + 1) (by omega)

theorem sub_le_sub_iff_coversWord {p : PmaEntry} {w : Word} (hw : w.toNat ≤ p.length.toNat) :
    p.start ≤ paddr ∧ paddr - p.start ≤ p.length - w ↔ CoversWord paddr w.toNat p := by
  unfold CoversWord
  rw [BitVec.le_def, BitVec.le_def, BitVec.toNat_sub_of_le (BitVec.le_def.mpr hw)]
  constructor
  · rintro ⟨h1, h2⟩
    rw [BitVec.toNat_sub_of_le (BitVec.le_def.mpr h1)] at h2
    omega
  · rintro ⟨h1, h2⟩
    refine ⟨h1, ?_⟩
    rw [BitVec.toNat_sub_of_le (BitVec.le_def.mpr h1)]
    omega

end

theorem sizeof_bounds (size : MemSize) : 0 < size.sizeof.toNat ∧ size.sizeof.toNat ≤ pmaPageSize := by
  cases size <;> decide

section
variable {ranges sentinels : List PmaEntry} {paddr : Word}

theorem Checked.lookups (hchecked : Checked (ranges ++ sentinels))
    (hranges : ∀ p ∈ ranges, p.length ≠ 0 ∧ p.data ≠ .empty) (hsentinels : ∀ p ∈ sentinels, p.length = 0)
    (hne : sentinels ≠ []) (size : MemSize) (paddr : Word) : ∃ pma, (∀ ranges', ranges'.Perm ranges →
        searchPmas (ranges' ++ sentinels) size paddr pmaMax 0 = some pma ∧
        machineFindPmaEntry (ranges' ++ sentinels) paddr size.sizeof = some pma ∧
        bridgeFindPmaEntry (ranges' ++ sentinels) paddr size.sizeof = some pma) ∧
      (pma ∈ ranges ∧ CoversWord paddr size.sizeof.toNat pma ∧
          (∀ q ∈ ranges, CoversWord paddr size.sizeof.toNat q → q = pma) ∨
        pma ∈ sentinels ∧ pma.length = 0 ∧ ∀ q ∈ ranges, ¬ CoversWord paddr size.sizeof.toNat q) := by
  obtain ⟨hpos, hle⟩ := sizeof_bounds size
  have hsub : Checked ranges :=
    { length_le := by have := hchecked.length_le; rw [length_append] at this; omega
      page_le := fun p hp => hchecked.page_le p (mem_append_left _ hp)
      end_le := fun p hp => hchecked.end_le p (mem_append_left _ hp)
      disjoint := (pairwise_append.mp hchecked.disjoint).1 }
  have hlength : ∀ p ∈ ranges, p.length ≠ 0 := fun p hp => (hranges p hp).1
  obtain ⟨e, es, rfl⟩ := exists_cons_of_ne_nil hne
  have he : e.length = 0 := hsentinels e (mem_cons_self ..)
  have hfits : ∀ p ∈ ranges, size.sizeof.toNat ≤ p.length.toNat := fun p hp =>
    Nat.le_trans hle (hsub.page_le p hp (hlength p hp))
  refine ⟨(wordRange ranges paddr size.sizeof.toNat).getD e, fun ranges' hperm => ?_, ?_⟩
  · have hmem : ∀ p ∈ ranges', p ∈ ranges := fun p hp => hperm.mem_iff.mp hp
    rw [← hsub.wordRange_perm hlength hpos hperm]
    refine ⟨?_, ?_, ?_⟩
    · have hshort : (ranges' ++ e :: es).length ≤ 0 + pmaMax := by
        have := hchecked.length_le
        rw [length_append] at this ⊢
        rw [hperm.length_eq]
        omega
      rw [searchPmas_eq_find? pmaMax 0 hshort, drop_zero]
      refine find?_table (fun p hp => ?_) (by simp [he])
      rw [decide_eq_true_iff, or_iff_right (hlength p (hmem p hp)), sub_le_sub_iff_coversWord (hfits p (hmem p hp))]
    · rw [machineFindPmaEntry, find?_table (fun p hp => ?_) (by simp [he])]
      have hp' := hfits p (hmem p hp)
      rw [← sub_le_sub_iff_coversWord hp', Bool.or_eq_true, decide_eq_true_iff, or_iff_right (hlength p (hmem p hp))]
      simp [BitVec.le_def.mpr hp']
    · rw [bridgeFindPmaEntry, find?_table (fun p hp => ?_) (by simp [he])]
      have hdata : p.istartE = false := by simpa [PmaEntry.istartE] using (hranges p (hmem p hp)).2
      rw [Bool.or_eq_true, decide_eq_true_iff, or_iff_right (hlength p (hmem p hp)), PmaEntry.contains_iff]
      exact and_iff_right hdata
  · cases hw : wordRange ranges paddr size.sizeof.toNat with
    | some pma =>
      obtain ⟨hp, hc⟩ := (hsub.wordRange_eq_some_iff hlength hpos).mp hw
      exact .inl ⟨hp, hc, fun q hq hqc => hsub.unique hlength hpos hq hp hqc hc⟩
    | none =>
      refine .inr ⟨mem_cons_self .., he, fun q hq hqc => ?_⟩
      rw [(hsub.wordRange_eq_some_iff hlength hpos).mpr ⟨hq, hqc⟩] at hw
      cases hw

/-- In a table of memory and device ranges that ends with empty entries, the three lookups of a word give the only range
that contains it, or an empty entry, and the order of the ranges does not matter. -/
theorem lookups_agree {ps : List PmaEntry} (hreg : registerAll [] ps = .ok (ranges ++ sentinels))
    (hranges : ∀ p ∈ ranges, p.length ≠ 0 ∧ p.data ≠ .empty) (hsentinels : ∀ p ∈ sentinels, p.length = 0)
    (hne : sentinels ≠ []) (size : MemSize) (paddr : Word) : ∃ pma, (∀ ranges', ranges'.Perm ranges →
        searchPmas (ranges' ++ sentinels) size paddr pmaMax 0 = some pma ∧
        machineFindPmaEntry (ranges' ++ sentinels) paddr size.sizeof = some pma ∧
        bridgeFindPmaEntry (ranges' ++ sentinels) paddr size.sizeof = some pma) ∧
      (pma ∈ ranges ∧ CoversWord paddr size.sizeof.toNat pma ∧
          (∀ q ∈ ranges, CoversWord paddr size.sizeof.toNat q → q = pma) ∨
        pma ∈ sentinels ∧ pma.length = 0 ∧ ∀ q ∈ ranges, ¬ CoversWord paddr size.sizeof.toNat q) :=
  (checked_nil.registerAll ps hreg).lookups hranges hsentinels hne size paddr

def smallTable : List PmaEntry := [{ clintPma with index := 0 }, { htifPma with index := 1 }, sentinelPma 2]

theorem lookups_agree_smallTable : registerAll [] [clintPma, htifPma, sentinelPma 0] = .ok smallTable ∧
    ∃ pma, searchPmas smallTable .u64 0x40008ff8 pmaMax 0 = some pma ∧
      machineFindPmaEntry smallTable 0x40008ff8 8 = some pma ∧
      bridgeFindPmaEntry smallTable 0x40008ff8 8 = some pma := by
  have hreg : registerAll [] [clintPma, htifPma, sentinelPma 0] =
      .ok ([{ clintPma with index := 0 }, { htifPma with index := 1 }] ++ [sentinelPma 2]) := by decide
  obtain ⟨pma, hpma, -⟩ := lookups_agree hreg (by decide) (by decide) (by decide) .u64 0x40008ff8
  exact ⟨hreg, pma, hpma _ (Perm.refl _)⟩

/-- A range that is empty but has a length passes the checks. The interpreter and the machine find it, the bridge does
not. -/
theorem lookups_differ_emptyRange :
    let hole : PmaEntry := { emptyPma with start := 0x1000, length := 0x1000, index := 0 }
    registerAll [] [hole, sentinelPma 0] = .ok [hole, sentinelPma 1] ∧
      searchPmas [hole, sentinelPma 1] .u32 0x1000 pmaMax 0 = some hole ∧
      machineFindPmaEntry [hole, sentinelPma 1] 0x1000 4 = some hole ∧
      bridgeFindPmaEntry [hole, sentinelPma 1] 0x1000 4 = some (sentinelPma 1) := by
  decide

/-! ## The table of a machine -/

theorem Board.checked (b : Board) : Checked b.pmas := by
  have hlen := b.registerPmas_ranges.2
  have hzero : ∀ p ∈ (range' b.ranges.length (pmaMax - b.ranges.length)).map sentinelPma, p.length = 0 := by
    intro p hp
    obtain ⟨i, -, rfl⟩ := mem_map.mp hp
    rfl
  refine ⟨by simp [Board.pmas]; omega, fun p hp hne => ?_, fun p hp hne => ?_, ?_⟩
  · rcases mem_append.mp hp with hp | hp
    · have hpaged := b.wellFormed.paged p hp
      exact Nat.le_of_dvd hpaged.length_pos (Nat.dvd_of_mod_eq_zero hpaged.length_mod)
    · exact absurd (hzero p hp) hne
  · rcases mem_append.mp hp with hp | hp
    · exact (b.wellFormed.paged p hp).end_le
    · exact absurd (hzero p hp) hne
  · refine pairwise_append.mpr ⟨b.wellFormed.disjoint.imp fun h _ _ => h, ?_, fun p _ q hq _ hne => ?_⟩
    · exact List.Pairwise.imp_of_mem (fun hp _ _ hne => absurd (hzero _ hp) hne) (pairwise_of_forall fun _ _ => trivial)
    · exact absurd (hzero q hq) hne

theorem findPmaEntry_eq_find? (pmas : List PmaEntry) (length : Word) : findPmaEntry pmas paddr length =
      (pmas.find? fun p => p.length = 0 || p.contains paddr length).getD emptyPma := by
  induction pmas with
  | nil => rfl
  | cons p pmas ih =>
    rw [findPmaEntry, find?_cons]
    split
    · rename_i hp
      simp only [hp, Option.getD_some]
    · rename_i hp
      simp only [hp, ih]

theorem findPmaEntry_of_bridge {pmas : List PmaEntry} {length : Word} {pma : PmaEntry}
    (hfound : (pmas.find? fun p => p.length = 0 || p.contains paddr length).isSome = true)
    (h : bridgeFindPmaEntry pmas paddr length = some pma) : findPmaEntry pmas paddr length = pma := by
  obtain ⟨q, hq⟩ := Option.isSome_iff_exists.mp hfound
  rw [bridgeFindPmaEntry, hq] at h
  rw [findPmaEntry_eq_find?, hq]
  exact Option.some.inj h

/-- In the table of a machine the lookups of the model are one. -/
theorem Board.lookups (b : Board) (size : MemSize) (paddr : Word) :
    searchPmas b.pmas size paddr pmaMax 0 = some (findPmaEntry b.pmas paddr size.sizeof) ∧
      machineFindPmaEntry b.pmas paddr size.sizeof = some (findPmaEntry b.pmas paddr size.sizeof) := by
  have hlen := b.registerPmas_ranges.2
  have hne : (range' b.ranges.length (pmaMax - b.ranges.length)).map sentinelPma ≠ [] := by
    simp
    omega
  have hlast : (b.pmas.find? fun p => p.length = 0 || p.contains paddr size.sizeof).isSome = true := by
    obtain ⟨e, he⟩ := exists_mem_of_ne_nil _ hne
    have hzero : e.length = 0 := by
      obtain ⟨i, -, rfl⟩ := mem_map.mp he
      rfl
    exact find?_isSome.mpr ⟨e, mem_append_right _ he, by simp [hzero]⟩
  obtain ⟨pma, hpma, -⟩ := (Board.checked b).lookups
    (fun p hp => ⟨fun h0 => absurd (b.wellFormed.paged p hp).length_pos (by rw [h0]; decide),
      (b.wellFormed.paged p hp).not_empty⟩)
    (fun p hp => by obtain ⟨i, -, rfl⟩ := mem_map.mp hp; rfl) hne size paddr
  obtain ⟨h1, h2, h3⟩ := hpma b.ranges (Perm.refl _)
  rw [findPmaEntry_of_bridge hlast h3]
  exact ⟨h1, h2⟩

end

end MachineEmulator.Interpret
