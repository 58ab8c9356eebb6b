import MachineEmulator.Virtio.Memory

/-!
# Transfers between a device and the buffers of a chain

The bytes that a transfer moves are those of a range of the concatenated buffers of one direction.

* `segment` : the addresses of that range, when the first buffer lies at an offset of the concatenation;
* `pieces` : the accesses to memory that the transfer takes, one for each buffer that it meets;
* `MemoryView.Gathered`, `MemoryView.Scattered` : what a walk that reads, or writes, has done when it returns;
* `MemoryView.Serves.run_readDescMem`, `MemoryView.Serves.run_writeDescMem` : the transfers do that.
-/

namespace MachineEmulator.Virtio

open List VirtqDesc Virtq Nat Prog

variable {ε σ : Type} {h : Handler BusSig ε σ}

/-! ## The range of a transfer -/

section Range

variable {write : Bool} {start stop off : Nat} {desc : VirtqDesc} {ds : List VirtqDesc}

/-- The addresses of the bytes from `start` to `stop`, of which the buffers hold those from `off` on. -/
def segment (write : Bool) (start stop off : Nat) (ds : List VirtqDesc) : List Word :=
  ((chainAddrs write ds).drop (start - off)).take (stop - max off start)

/-- The part of one buffer that lies in the range. -/
def pieceLen (start stop off : Nat) (desc : VirtqDesc) : Nat :=
  min (off + desc.len.toNat) stop - max off start

def piecePaddr (start off : Nat) (desc : VirtqDesc) : Word := desc.paddr + BitVec.ofNat 64 (start - off)

theorem pieceLen_lt : pieceLen start stop off desc < 2 ^ 32 := by
  unfold pieceLen
  omega

/-- The accesses that a transfer takes. -/
def pieces (write : Bool) (start stop : Nat) : Nat → List VirtqDesc → List (Word × Nat)
  | _, [] => []
  | off, desc :: ds =>
    if desc.isWrite = write then
      if 0 < pieceLen start stop off desc then
        (piecePaddr start off desc, pieceLen start stop off desc) ::
          pieces write start stop (off + desc.len.toNat) ds
      else
        pieces write start stop (off + desc.len.toNat) ds
    else
      pieces write start stop off ds

theorem pieces_of_stop_le (hstop : stop ≤ off) : pieces write start stop off ds = [] := by
  induction ds generalizing off with
  | nil => rfl
  | cons desc ds ih =>
    have hlen : ¬ 0 < pieceLen start stop off desc := by
      unfold pieceLen
      omega
    rw [pieces, if_neg hlen, ih hstop, ih (by omega), ite_self]

theorem pieces_cons_of_ne (hw : desc.isWrite ≠ write) :
    pieces write start stop off (desc :: ds) = pieces write start stop off ds := by
  rw [pieces, if_neg hw]

theorem pieces_cons_of_pos (hw : desc.isWrite = write) (hlen : 0 < pieceLen start stop off desc) :
    pieces write start stop off (desc :: ds) = (piecePaddr start off desc, pieceLen start stop off desc) ::
      pieces write start stop (off + desc.len.toNat) ds := by
  rw [pieces, if_pos hw, if_pos hlen]

theorem pieces_cons_of_not_pos (hw : desc.isWrite = write) (hlen : ¬ 0 < pieceLen start stop off desc) :
    pieces write start stop off (desc :: ds) = pieces write start stop (off + desc.len.toNat) ds := by
  rw [pieces, if_pos hw, if_neg hlen]

theorem segment_of_stop_le (hstop : stop ≤ off) : segment write start stop off ds = [] := by
  rw [segment, Nat.sub_eq_zero_of_le (by omega), take_zero]

theorem segment_cons_of_ne (hw : desc.isWrite ≠ write) :
    segment write start stop off (desc :: ds) = segment write start stop off ds := by
  rw [segment, chainAddrs_cons_of_ne hw, segment]

/-- The range has a piece of the first buffer, and goes on in the others. -/
theorem segment_cons_of_eq (hw : desc.isWrite = write) : segment write start stop off (desc :: ds) =
      addrsFrom (piecePaddr start off desc) (pieceLen start stop off desc) ++
        segment write start stop (off + desc.len.toNat) ds := by
  rw [segment, chainAddrs_cons_of_eq hw, drop_append, take_append, addrs, take_drop_addrsFrom,
    length_drop, length_addrsFrom, segment, piecePaddr, pieceLen]
  congr 2
  · omega
  · omega
  · congr 1
    omega

theorem segment_cons_of_not_pos (hw : desc.isWrite = write) (hpos : ¬ 0 < pieceLen start stop off desc) :
    segment write start stop off (desc :: ds) = segment write start stop (off + desc.len.toNat) ds := by
  rw [segment_cons_of_eq hw, Nat.eq_zero_of_not_pos hpos]
  rfl

/-- A buffer without a piece ends before the range begins, or is empty. -/
theorem sub_of_not_pos (hoff : off < stop) (hstart : start < stop) (hpos : ¬ 0 < pieceLen start stop off desc) :
    off + desc.len.toNat - start = off - start := by
  unfold pieceLen at hpos
  omega

theorem mem_addrs_of_mem_piece {a : Word}
    (ha : a ∈ addrsFrom (piecePaddr start off desc) (pieceLen start stop off desc)) : a ∈ desc.addrs := by
  obtain ⟨i, hi, rfl⟩ := mem_addrsFrom.mp ha
  unfold pieceLen at hi
  refine mem_addrsFrom.mpr ⟨start - off + i, by omega, ?_⟩
  rw [piecePaddr, BitVec.ofNat_add, BitVec.add_assoc]

theorem mem_chainAddrs_of_mem_segment {a : Word} (ha : a ∈ segment write start stop off ds) :
    a ∈ chainAddrs write ds :=
  mem_of_mem_drop (mem_of_mem_take ha)

/-- A walk succeeds if the buffers reach to the end of the range and all its accesses are allowed. -/
def Passed (write : Bool) (allowed : Word → Nat → Bool) (start stop off : Nat) (ds : List VirtqDesc)
    (ok : Bool) : Prop :=
  ok = true ↔ stop ≤ off + (chainAddrs write ds).length ∧
    ∀ p ∈ pieces write start stop off ds, allowed p.1 p.2 = true

namespace Passed

variable {allowed : Word → Nat → Bool} {ok : Bool}

theorem nil (hoff : off < stop) : Passed write allowed start stop off [] false :=
  ⟨fun hf => absurd hf Bool.false_ne_true, fun hle => absurd hle.1 (Nat.not_le_of_lt hoff)⟩

theorem cons_of_ne (hw : desc.isWrite ≠ write) (h : Passed write allowed start stop off ds ok) :
    Passed write allowed start stop off (desc :: ds) ok := by
  rw [Passed, chainAddrs_cons_of_ne hw, pieces_cons_of_ne hw]
  exact h

theorem cons_refused (hw : desc.isWrite = write) (hpos : 0 < pieceLen start stop off desc)
    (href : allowed (piecePaddr start off desc) (pieceLen start stop off desc) = false) :
    Passed write allowed start stop off (desc :: ds) false := by
  rw [Passed, pieces_cons_of_pos hw hpos]
  refine ⟨fun hf => absurd hf Bool.false_ne_true, fun hok => ?_⟩
  exact absurd (hok.2 _ mem_cons_self) (ne_true_of_eq_false href)

theorem cons_of_not_pos (hw : desc.isWrite = write) (hpos : ¬ 0 < pieceLen start stop off desc)
    (h : Passed write allowed start stop (off + desc.len.toNat) ds ok) :
    Passed write allowed start stop off (desc :: ds) ok := by
  rw [Passed, chainAddrs_cons_of_eq hw, pieces_cons_of_not_pos hw hpos, length_append, addrs,
    length_addrsFrom, ← Nat.add_assoc]
  exact h

theorem done (hstop : stop ≤ off) : Passed write allowed start stop off ds true := by
  rw [Passed, pieces_of_stop_le hstop]
  exact ⟨fun _ => ⟨by omega, fun p hp => absurd hp not_mem_nil⟩, fun _ => rfl⟩

theorem cons_of_pos (hw : desc.isWrite = write) (hpos : 0 < pieceLen start stop off desc)
    (hallowed : allowed (piecePaddr start off desc) (pieceLen start stop off desc) = true)
    (h : Passed write allowed start stop (off + desc.len.toNat) ds ok) :
    Passed write allowed start stop off (desc :: ds) ok := by
  rw [Passed] at h ⊢
  rw [chainAddrs_cons_of_eq hw, pieces_cons_of_pos hw hpos, length_append, addrs, length_addrsFrom,
    ← Nat.add_assoc, forall_mem_cons, h]
  exact and_congr_right fun _ => (and_iff_right hallowed).symm

end Passed

end Range

/-! ## Chunks -/

/-- What a walk computes about a buffer is its piece, when the offsets fit. -/
structure IsPiece (start stop off : Nat) (desc : VirtqDesc) (bufStartOff startOff endOff : BitVec 32)
    (c : Virtq.Chunk) : Prop where
  pos_iff : c.startOff < c.endOff ↔ 0 < pieceLen start stop off desc
  paddr : desc.paddr + (c.startOff - bufStartOff).setWidth 64 = piecePaddr start off desc
  len : 0 < pieceLen start stop off desc → (c.endOff - c.startOff).toNat = pieceLen start stop off desc
  dataOff : (c.startOff - startOff).toNat = off - start
  stop_iff : endOff ≤ c.endOff ↔ stop ≤ off + desc.len.toNat
  next : (bufStartOff + desc.len).toNat = off + desc.len.toNat

theorem isPiece_chunkOf {start stop off : Nat} {desc : VirtqDesc} {bufStartOff startOff endOff : BitVec 32}
    (hstart : startOff.toNat = start) (hstop : endOff.toNat = stop) (hoff : bufStartOff.toNat = off)
    (hlen : off + desc.len.toNat < 2 ^ 32) :
    IsPiece start stop off desc bufStartOff startOff endOff (chunkOf bufStartOff desc.len startOff endOff) := by
  subst hstart hstop hoff
  have hadd : (bufStartOff + desc.len).toNat = bufStartOff.toNat + desc.len.toNat := by
    rw [BitVec.toNat_add, mod_eq_of_lt hlen]
  have hlo : (chunkOf bufStartOff desc.len startOff endOff).startOff.toNat =
      max bufStartOff.toNat startOff.toNat := by
    simp only [chunkOf, BitVec.lt_def]
    split <;> omega
  have hhi : (chunkOf bufStartOff desc.len startOff endOff).endOff.toNat =
      min (bufStartOff.toNat + desc.len.toNat) endOff.toNat := by
    simp only [chunkOf, BitVec.lt_def, hadd]
    split <;> omega
  refine ⟨?_, ?_, ?_, ?_, ?_, hadd⟩
  · rw [BitVec.lt_def, hlo, hhi, pieceLen]
    omega
  · rw [piecePaddr]
    congr 1
    apply BitVec.eq_of_toNat_eq
    rw [BitVec.toNat_setWidth_of_le (by decide), BitVec.toNat_sub_of_le (by rw [BitVec.le_def]; omega), hlo,
      BitVec.toNat_ofNat, mod_eq_of_lt (by omega)]
    omega
  · intro hpos
    rw [BitVec.toNat_sub_of_le (by rw [BitVec.le_def, hlo, hhi]; unfold pieceLen at hpos; omega), hlo, hhi, pieceLen]
  · rw [BitVec.toNat_sub_of_le (by rw [BitVec.le_def]; omega), hlo]
    omega
  · rw [BitVec.le_def, hhi]
    omega

namespace MemoryView

variable {V : MemoryView σ} {s s' : σ} {vq : Virtq} {fuel : Nat} {idx : BitVec 16} {desc : VirtqDesc}
  {ds : List VirtqDesc} {start stop off : Nat} {data : List Byte}

/-! ## Reading -/

/-- What a walk over the buffers of `ds` has read when it returns. Before it, `data` has been filled up to where
the buffers begin. -/
structure Gathered (V : MemoryView σ) (s : σ) (start stop off : Nat) (ds : List VirtqDesc) (data : List Byte)
    (r : Bool × List Byte) : Prop where
  ok_iff : r.1 = true ↔ stop ≤ off + (chainAddrs false ds).length ∧
    ∀ p ∈ pieces false start stop off ds, V.readable s p.1 p.2 = true
  data_eq : r.1 = true → r.2 = data.take (off - start) ++ (segment false start stop off ds).map (V.byte s)

namespace Gathered

theorem nil (hoff : off < stop) : Gathered V s start stop off [] data (false, data) :=
  ⟨Passed.nil hoff, fun hf => absurd hf Bool.false_ne_true⟩

theorem cons_of_ne (hw : desc.isWrite ≠ false) {r : Bool × List Byte} (hr : Gathered V s start stop off ds data r) :
    Gathered V s start stop off (desc :: ds) data r := by
  refine ⟨Passed.cons_of_ne hw hr.ok_iff, ?_⟩
  rw [segment_cons_of_ne hw]
  exact hr.data_eq

theorem cons_refused (hw : desc.isWrite = false) (hpos : 0 < pieceLen start stop off desc)
    (href : V.readable s (piecePaddr start off desc) (pieceLen start stop off desc) = false) :
    Gathered V s start stop off (desc :: ds) data (false, data) :=
  ⟨Passed.cons_refused hw hpos href, fun hf => absurd hf Bool.false_ne_true⟩

theorem cons_of_not_pos (hw : desc.isWrite = false) (hoff : off < stop) (hstart : start < stop)
    (hpos : ¬ 0 < pieceLen start stop off desc) {r : Bool × List Byte}
    (hr : Gathered V s start stop (off + desc.len.toNat) ds data r) :
    Gathered V s start stop off (desc :: ds) data r := by
  refine ⟨Passed.cons_of_not_pos hw hpos hr.ok_iff, fun hok => ?_⟩
  rw [hr.data_eq hok, sub_of_not_pos hoff hstart hpos, segment_cons_of_not_pos hw hpos]

/-- The bytes of a piece in their place. -/
def fill (V : MemoryView σ) (s : σ) (start stop off : Nat) (desc : VirtqDesc) (data : List Byte) : List Byte :=
  Virtq.splice data (off - start)
    ((addrsFrom (piecePaddr start off desc) (pieceLen start stop off desc)).map (V.byte s))

theorem length_fill (hdata : data.length = stop - start) :
    (fill V s start stop off desc data).length = stop - start := by
  simp only [fill, splice, length_append, length_take, length_map, length_addrsFrom,
    length_drop, hdata, pieceLen]
  omega

theorem take_fill (hdata : data.length = stop - start) :
    (fill V s start stop off desc data).take (off + desc.len.toNat - start) = data.take (off - start) ++
      (addrsFrom (piecePaddr start off desc) (pieceLen start stop off desc)).map (V.byte s) := by
  have hlen : (data.take (off - start) ++
      (addrsFrom (piecePaddr start off desc) (pieceLen start stop off desc)).map (V.byte s)).length =
      min (off + desc.len.toNat) stop - start := by
    simp only [length_append, length_take, length_map, length_addrsFrom, hdata, pieceLen]
    omega
  rw [fill, splice, take_append, hlen, take_of_length_le (by rw [hlen]; omega)]
  -- the bytes of `data` that follow are beyond the piece, or there are none
  have hnil : ((data.drop (off - start + ((addrsFrom (piecePaddr start off desc)
      (pieceLen start stop off desc)).map (V.byte s)).length)).take
        (off + desc.len.toNat - start - (min (off + desc.len.toNat) stop - start))) = [] := by
    apply eq_nil_of_length_eq_zero
    simp only [length_take, length_drop, length_map, length_addrsFrom, hdata, pieceLen]
    omega
  rw [hnil, append_nil]

theorem done (hstop : stop ≤ off) (hdata : data.length = stop - start) :
    Gathered V s start stop off ds data (true, data) := by
  refine ⟨Passed.done hstop, fun _ => ?_⟩
  rw [segment_of_stop_le hstop, take_of_length_le (by omega), map_nil, append_nil]

theorem cons_of_pos (hw : desc.isWrite = false) (hdata : data.length = stop - start)
    (hpos : 0 < pieceLen start stop off desc)
    (hread : V.readable s (piecePaddr start off desc) (pieceLen start stop off desc) = true) {r : Bool × List Byte}
    (hr : Gathered V s start stop (off + desc.len.toNat) ds (fill V s start stop off desc data) r) :
    Gathered V s start stop off (desc :: ds) data r := by
  refine ⟨Passed.cons_of_pos hw hpos hread hr.ok_iff, fun hok => ?_⟩
  rw [hr.data_eq hok, take_fill hdata, segment_cons_of_eq hw, map_append, List.append_assoc]

end Gathered

section Reading
variable {startOff endOff bufStartOff : BitVec 32}

/-- The walk reads what it should, if the buffers that are left fit. -/
theorem Serves.run_readDescMemFrom (hV : V.Serves h) (hs : V.valid s) (hstart : startOff.toNat = start)
    (hstop : endOff.toNat = stop) (hbuf : bufStartOff.toNat = off) (hlt : start < stop) (hc : V.Chain s vq idx ds)
    (hfuel : ds.length ≤ fuel) (hlen : off + (chainAddrs false ds).length < 2 ^ 32) (hoff : off < stop)
    (hdata : data.length = stop - start) :
    ∃ r, (vq.readDescMemFrom startOff endOff fuel idx bufStartOff data).run h s = .ok r s ∧
      Gathered V s start stop off ds data r := by
  induction fuel generalizing idx ds bufStartOff off data with
  | zero =>
    obtain ⟨desc, tail, rfl, -⟩ := hc.head
    exact absurd hfuel (not_succ_le_zero _)
  | succ fuel ih =>
    obtain ⟨desc, tail, rfl, hdesc, htail⟩ := hc.head
    -- how the walk goes on after the descriptor
    have hnext : ∀ (b : BitVec 32) (off' : Nat) (data' : List Byte), b.toNat = off' → off' < stop →
        off' + (chainAddrs false tail).length < 2 ^ 32 → data'.length = stop - start →
        ∃ r, run h (if desc.flags &&& virtqDescFNext = 0 then pure (false, data')
          else vq.readDescMemFrom startOff endOff fuel desc.next b data') s = .ok r s ∧
          Gathered V s start stop off' tail data' r := by
      intro b off' data' hb hoff' hblen hdata'
      rcases htail with ⟨hend, rfl⟩ | ⟨hnext, hc'⟩
      · rw [if_pos (hasNext_eq_false_iff.mp hend)]
        exact ⟨_, rfl, .nil hoff'⟩
      · rw [if_neg (hasNext_iff.mp hnext)]
        exact ih hb hc' (le_of_succ_le_succ hfuel) hblen hoff' hdata'
    rw [readDescMemFrom, hV.run_getDesc_bind hs, hdesc]
    dsimp only
    by_cases hw : desc.isWrite = false
    · rw [if_pos (isWrite_eq_false_iff.mp hw)]
      rw [chainAddrs_cons_of_eq hw, length_append, addrs, length_addrsFrom] at hlen
      have hp : IsPiece start stop off desc _ _ _ _ := isPiece_chunkOf hstart hstop hbuf (by omega)
      have hgo : ∀ data' : List Byte, data'.length = stop - start →
          ∃ r, run h (if endOff ≤ (chunkOf bufStartOff desc.len startOff endOff).endOff then
              pure (true, data')
            else if desc.flags &&& virtqDescFNext = 0 then pure (false, data')
            else vq.readDescMemFrom startOff endOff fuel desc.next (bufStartOff + desc.len) data') s = .ok r s ∧
            Gathered V s start stop (off + desc.len.toNat) tail data' r := by
        intro data' hdata'
        by_cases hend : endOff ≤ (chunkOf bufStartOff desc.len startOff endOff).endOff
        · rw [if_pos hend]
          exact ⟨_, rfl, .done (hp.stop_iff.mp hend) hdata'⟩
        · rw [if_neg hend]
          exact hnext _ _ _ hp.next (Nat.lt_of_not_le (mt hp.stop_iff.mpr hend)) (by omega) hdata'
      by_cases hpos : 0 < pieceLen start stop off desc
      · rw [if_pos (hp.pos_iff.mpr hpos), hp.paddr, hp.len hpos, run_bind_of_ok h (hV.read hs hpos pieceLen_lt),
          hp.dataOff]
        cases href : V.readable s (piecePaddr start off desc) (pieceLen start stop off desc) with
        | false => exact ⟨_, rfl, .cons_refused hw hpos href⟩
        | true =>
          obtain ⟨r, hrun, hr⟩ := hgo _ (Gathered.length_fill hdata)
          exact ⟨r, hrun, hr.cons_of_pos hw hdata hpos href⟩
      · rw [if_neg (mt hp.pos_iff.mp hpos)]
        obtain ⟨r, hrun, hr⟩ := hgo data hdata
        exact ⟨r, hrun, hr.cons_of_not_pos hw hoff hlt hpos⟩
    · rw [if_neg (mt isWrite_eq_false_iff.mpr hw)]
      rw [chainAddrs_cons_of_ne hw] at hlen
      obtain ⟨r, hrun, hr⟩ := hnext bufStartOff off data hbuf hoff hlen hdata
      exact ⟨r, hrun, hr.cons_of_ne hw⟩

end Reading

/-! ## Writing -/

/-- What a walk over the buffers of `ds` has written when it returns. -/
structure Scattered (V : MemoryView σ) (s : σ) (start stop off : Nat) (ds : List VirtqDesc) (data : List Byte)
    (ok : Bool) (s' : σ) : Prop where
  ok_iff : ok = true ↔ stop ≤ off + (chainAddrs true ds).length ∧
    ∀ p ∈ pieces true start stop off ds, V.writable s p.1 p.2 = true
  inside : ok = true → (segment true start stop off ds).map (V.byte s') = data.drop (off - start)
  outside : ∀ a ∉ segment true start stop off ds, V.byte s' a = V.byte s a

namespace Scattered

variable {ok : Bool}

theorem nil (hoff : off < stop) : Scattered V s start stop off [] data false s :=
  ⟨Passed.nil hoff, fun hf => absurd hf Bool.false_ne_true, fun _ _ => rfl⟩

theorem cons_of_ne (hw : desc.isWrite ≠ true) (hr : Scattered V s start stop off ds data ok s') :
    Scattered V s start stop off (desc :: ds) data ok s' := by
  refine ⟨Passed.cons_of_ne hw hr.ok_iff, ?_, ?_⟩
  · rw [segment_cons_of_ne hw]
    exact hr.inside
  · rw [segment_cons_of_ne hw]
    exact hr.outside

theorem cons_refused (hw : desc.isWrite = true) (hpos : 0 < pieceLen start stop off desc)
    (href : V.writable s (piecePaddr start off desc) (pieceLen start stop off desc) = false) :
    Scattered V s start stop off (desc :: ds) data false s :=
  ⟨Passed.cons_refused hw hpos href, fun hf => absurd hf Bool.false_ne_true, fun _ _ => rfl⟩

theorem cons_of_not_pos (hw : desc.isWrite = true) (hoff : off < stop) (hstart : start < stop)
    (hpos : ¬ 0 < pieceLen start stop off desc) (hr : Scattered V s start stop (off + desc.len.toNat) ds data ok s') :
    Scattered V s start stop off (desc :: ds) data ok s' := by
  refine ⟨Passed.cons_of_not_pos hw hpos hr.ok_iff, ?_, ?_⟩
  · rw [segment_cons_of_not_pos hw hpos, ← sub_of_not_pos hoff hstart hpos]
    exact hr.inside
  · rw [segment_cons_of_not_pos hw hpos]
    exact hr.outside

theorem done (hstop : stop ≤ off) (hdata : data.length = stop - start) :
    Scattered V s start stop off ds data true s := by
  refine ⟨Passed.done hstop, fun _ => ?_, fun _ _ => rfl⟩
  rw [segment_of_stop_le hstop, drop_eq_nil_of_le (by omega), map_nil]

def pieceData (start stop off : Nat) (desc : VirtqDesc) (data : List Byte) : List Byte :=
  (data.drop (off - start)).take (pieceLen start stop off desc)

theorem length_pieceData (hdata : data.length = stop - start) :
    (pieceData start stop off desc data).length = pieceLen start stop off desc := by
  rw [pieceData, length_take, length_drop, hdata, pieceLen]
  omega

theorem pieceData_append (hdata : data.length = stop - start) (hpos : 0 < pieceLen start stop off desc) :
    pieceData start stop off desc data ++ data.drop (off + desc.len.toNat - start) = data.drop (off - start) := by
  have hdrop : data.drop (off + desc.len.toNat - start) =
      (data.drop (off - start)).drop (pieceLen start stop off desc) := by
    unfold pieceLen at hpos ⊢
    rw [drop_drop]
    by_cases hstop : off + desc.len.toNat ≤ stop
    · congr 1
      omega
    · rw [drop_eq_nil_of_le (by omega), drop_eq_nil_of_le (by omega)]
  rw [hdrop, pieceData, take_append_drop]

/-- The piece of a buffer is written, and the walk goes on. The buffers that follow are elsewhere. -/
theorem cons_of_pos {s1 : σ} (hw : desc.isWrite = true) (hdata : data.length = stop - start)
    (hpos : 0 < pieceLen start stop off desc) (hnodup : (chainAddrs true (desc :: ds)).Nodup)
    (hwrite : V.writable s (piecePaddr start off desc) (pieceLen start stop off desc) = true)
    (hst : V.Stored s (piecePaddr start off desc) (pieceData start stop off desc data) s1)
    (hr : Scattered V s1 start stop (off + desc.len.toNat) ds data ok s') :
    Scattered V s start stop off (desc :: ds) data ok s' := by
  obtain ⟨hok, hin, hout⟩ := hr
  obtain ⟨-, -, hwritable, hinside, houtside⟩ := hst
  rw [length_pieceData hdata] at hinside houtside
  rw [hwritable] at hok
  refine ⟨Passed.cons_of_pos hw hpos hwrite hok, fun h => ?_, fun a ha => ?_⟩
  · -- the later pieces do not touch this one
    have hkept : (addrsFrom (piecePaddr start off desc) (pieceLen start stop off desc)).map (V.byte s') =
        (addrsFrom (piecePaddr start off desc) (pieceLen start stop off desc)).map (V.byte s1) := by
      rw [chainAddrs_cons_of_eq hw, nodup_append'] at hnodup
      exact map_congr_left fun a ha => hout a fun ha' =>
        hnodup.2.2 (mem_addrs_of_mem_piece ha) (mem_chainAddrs_of_mem_segment ha')
    rw [segment_cons_of_eq hw, map_append, hkept, hinside, hin h, pieceData_append hdata hpos]
  · rw [segment_cons_of_eq hw, mem_append, not_or] at ha
    rw [hout a ha.2, houtside a ha.1]

end Scattered

section Writing
variable {startOff endOff bufStartOff : BitVec 32}

/-- The walk writes what it should, if the buffers that are left fit and lie apart. -/
theorem Serves.run_writeDescMemFrom (hV : V.Serves h) (hs : V.valid s) (hstart : startOff.toNat = start)
    (hstop : endOff.toNat = stop) (hbuf : bufStartOff.toNat = off) (hlt : start < stop)
    (hdata : data.length = stop - start) (hc : V.Chain s vq idx ds) (hfuel : ds.length ≤ fuel)
    (hlen : off + (chainAddrs true ds).length < 2 ^ 32) (hoff : off < stop) (hnodup : (chainAddrs true ds).Nodup)
    (htable : ∀ a ∈ chainAddrs true ds, a ∉ tableAddrs vq) :
    ∃ ok s', (vq.writeDescMemFrom startOff endOff data fuel idx bufStartOff).run h s = .ok ok s' ∧ V.valid s' ∧
      Scattered V s start stop off ds data ok s' := by
  induction fuel generalizing s idx ds bufStartOff off with
  | zero =>
    obtain ⟨desc, tail, rfl, -⟩ := hc.head
    exact absurd hfuel (not_succ_le_zero _)
  | succ fuel ih =>
    obtain ⟨desc, tail, rfl, hdesc, htail⟩ := hc.head
    have hsuffix : chainAddrs true tail <:+ chainAddrs true (desc :: tail) := by
      by_cases hw : desc.isWrite = true
      · rw [chainAddrs_cons_of_eq hw]
        exact suffix_append _ _
      · rw [chainAddrs_cons_of_ne hw]
    -- how the walk goes on after the descriptor, in a memory that has the same descriptors
    have hnext : ∀ (b : BitVec 32) (off' : Nat) (s1 : σ), V.valid s1 → V.descAt s1 vq = V.descAt s vq →
        b.toNat = off' → off' < stop → off' + (chainAddrs true tail).length < 2 ^ 32 →
        ∃ ok s', run h (if desc.flags &&& virtqDescFNext = 0 then pure false
          else vq.writeDescMemFrom startOff endOff data fuel desc.next b) s1 = .ok ok s' ∧ V.valid s' ∧
          Scattered V s1 start stop off' tail data ok s' := by
      intro b off' s1 hs1 hsame hb hoff' hblen
      rcases htail with ⟨hend, rfl⟩ | ⟨hnext, hc'⟩
      · rw [if_pos (hasNext_eq_false_iff.mp hend)]
        exact ⟨_, _, rfl, hs1, .nil hoff'⟩
      · rw [if_neg (hasNext_iff.mp hnext)]
        exact ih hs1 hb (hc'.congr hsame) (le_of_succ_le_succ hfuel) hblen hoff' (hnodup.sublist hsuffix.sublist)
          fun a ha => htable a (hsuffix.subset ha)
    rw [writeDescMemFrom, hV.run_getDesc_bind hs, hdesc]
    dsimp only
    by_cases hw : desc.isWrite = true
    · rw [if_pos (isWrite_iff.mp hw)]
      rw [chainAddrs_cons_of_eq hw, length_append, addrs, length_addrsFrom] at hlen
      have hp : IsPiece start stop off desc _ _ _ _ := isPiece_chunkOf hstart hstop hbuf (by omega)
      have hgo : ∀ s1 : σ, V.valid s1 → V.descAt s1 vq = V.descAt s vq →
          ∃ ok s', run h (if endOff ≤ (chunkOf bufStartOff desc.len startOff endOff).endOff then pure true
            else if desc.flags &&& virtqDescFNext = 0 then pure false
            else vq.writeDescMemFrom startOff endOff data fuel desc.next (bufStartOff + desc.len)) s1 = .ok ok s' ∧
            V.valid s' ∧ Scattered V s1 start stop (off + desc.len.toNat) tail data ok s' := by
        intro s1 hs1 hsame
        by_cases hend : endOff ≤ (chunkOf bufStartOff desc.len startOff endOff).endOff
        · rw [if_pos hend]
          exact ⟨_, _, rfl, hs1, .done (hp.stop_iff.mp hend) hdata⟩
        · rw [if_neg hend]
          exact hnext _ _ _ hs1 hsame hp.next (Nat.lt_of_not_le (mt hp.stop_iff.mpr hend)) (by omega)
      by_cases hpos : 0 < pieceLen start stop off desc
      · rw [if_pos (hp.pos_iff.mpr hpos), hp.paddr, hp.len hpos, hp.dataOff]
        have hbs : (Scattered.pieceData start stop off desc data).length = _ := Scattered.length_pieceData hdata
        have hne := ne_nil_of_length_pos (hbs ▸ hpos)
        cases href : V.writable s (piecePaddr start off desc) (pieceLen start stop off desc) with
        | false =>
          rw [← Scattered.pieceData, run_bind_of_ok h (hV.write_refused hs hne (hbs ▸ pieceLen_lt) (hbs ▸ href))]
          exact ⟨_, _, rfl, hs, .cons_refused hw hpos href⟩
        | true =>
          obtain ⟨s1, hrun1, hst⟩ := hV.write hs hne (hbs ▸ pieceLen_lt) (hbs ▸ href)
          have haway : ∀ a ∈ addrsFrom (piecePaddr start off desc)
              (Scattered.pieceData start stop off desc data).length, a ∉ tableAddrs vq := by
            intro a ha
            rw [hbs] at ha
            refine htable a ?_
            rw [chainAddrs_cons_of_eq hw]
            exact mem_append_left _ (mem_addrs_of_mem_piece ha)
          rw [← Scattered.pieceData, run_bind_of_ok h hrun1]
          obtain ⟨ok, s', hrun, hs', hr⟩ := hgo s1 hst.valid (hst.descAt_eq haway)
          exact ⟨ok, s', hrun, hs', hr.cons_of_pos hw hdata hpos hnodup href hst⟩
      · rw [if_neg (mt hp.pos_iff.mp hpos)]
        obtain ⟨ok, s', hrun, hs', hr⟩ := hgo s hs rfl
        exact ⟨ok, s', hrun, hs', hr.cons_of_not_pos hw hoff hlt hpos⟩
    · rw [if_neg (mt isWrite_iff.mpr hw)]
      rw [chainAddrs_cons_of_ne hw] at hlen
      obtain ⟨ok, s', hrun, hs', hr⟩ := hnext bufStartOff off s hs rfl hbuf hoff hlen
      exact ⟨ok, s', hrun, hs', hr.cons_of_ne hw⟩

end Writing

/-! ## Transfers -/

theorem toNat_endOff {startOff : BitVec 32} (hfit : startOff.toNat + data.length < 2 ^ 32) :
    (startOff + BitVec.ofNat 32 data.length).toNat = startOff.toNat + data.length := by
  rw [BitVec.toNat_add, BitVec.toNat_ofNat, mod_eq_of_lt (show data.length < 2 ^ 32 by omega), mod_eq_of_lt hfit]

theorem segment_zero {write : Bool} {length : Nat} :
    segment write start (start + length) 0 ds = ((chainAddrs write ds).drop start).take length := by
  rw [segment, Nat.sub_zero, Nat.zero_max, Nat.add_sub_cancel_left]

section Transfers

variable {startOff : BitVec 32} {r : Virtq.AvailLen} (hV : V.Serves h) (hs : V.valid s) (hc : V.Chain s vq idx ds)
  (hrun : (vq.getDescRwAvailLen fuel idx).run h s = .ok r s') (hok : r.ok = true)
  (hlen : (chainAddrs false ds).length + (chainAddrs true ds).length < 2 ^ 32) (hdata : data ≠ [])
  (hfit : startOff.toNat + data.length < 2 ^ 32)
include hV hs hc hrun hok hlen hdata hfit

theorem Serves.run_readDescMem :
    ∃ ok data', (vq.readDescMem fuel idx startOff data).run h s = .ok (ok, data') s ∧
      (ok = true ↔ startOff.toNat + data.length ≤ r.readLen.toNat ∧
        ∀ p ∈ pieces false startOff.toNat (startOff.toNat + data.length) 0 ds, V.readable s p.1 p.2 = true) ∧
      (ok = true → data' = (((chainAddrs false ds).drop startOff.toNat).take data.length).map (V.byte s)) := by
  obtain ⟨hfuel, hrlen, -⟩ := hV.chain_of_accepted hs hrun hok hc hlen
  have hpos := length_pos_iff.mpr hdata
  obtain ⟨⟨ok, data'⟩, hread, hiff, heq⟩ := hV.run_readDescMemFrom hs rfl (toNat_endOff hfit)
    (show (0 : BitVec 32).toNat = 0 from rfl) (Nat.lt_add_of_pos_right hpos) hc hfuel (by omega) (by omega)
    (show data.length = _ by omega)
  rw [Nat.zero_add, ← hrlen] at hiff
  refine ⟨ok, data', ?_, hiff, fun h => ?_⟩
  · rw [readDescMem, if_neg hdata, hread]
  · rw [← segment_zero]
    exact (heq h).trans (by rw [Nat.zero_sub, take_zero, nil_append])

/-- Writing to a chain that was accepted, whose buffers lie apart from each other and from the table. -/
theorem Serves.run_writeDescMem (hnodup : (chainAddrs true ds).Nodup)
    (htable : ∀ a ∈ chainAddrs true ds, a ∉ tableAddrs vq) :
    ∃ ok s1, (vq.writeDescMem fuel idx startOff data).run h s = .ok ok s1 ∧
      (ok = true ↔ startOff.toNat + data.length ≤ r.writeLen.toNat ∧
        ∀ p ∈ pieces true startOff.toNat (startOff.toNat + data.length) 0 ds, V.writable s p.1 p.2 = true) ∧
      (ok = true → (((chainAddrs true ds).drop startOff.toNat).take data.length).map (V.byte s1) = data) ∧
      ∀ a ∉ ((chainAddrs true ds).drop startOff.toNat).take data.length, V.byte s1 a = V.byte s a := by
  obtain ⟨hfuel, -, hwlen⟩ := hV.chain_of_accepted hs hrun hok hc hlen
  have hpos := length_pos_iff.mpr hdata
  obtain ⟨ok, s1, hwrite, -, hiff, hin, hout⟩ := hV.run_writeDescMemFrom hs rfl (toNat_endOff hfit)
    (show (0 : BitVec 32).toNat = 0 from rfl) (Nat.lt_add_of_pos_right hpos) (show data.length = _ by omega) hc hfuel
    (by omega) (by omega) hnodup htable
  rw [Nat.zero_add, ← hwlen] at hiff
  rw [segment_zero] at hin hout
  refine ⟨ok, s1, ?_, hiff, fun h => (hin h).trans ?_, hout⟩
  · rw [writeDescMem, if_neg hdata, hwrite]
  · rw [Nat.zero_sub, drop_zero]

end Transfers

end MemoryView

end MachineEmulator.Virtio
