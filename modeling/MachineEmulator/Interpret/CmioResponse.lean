import Mathlib.Data.Nat.Log
import MachineEmulator.Interpret.MemoryInterface

/-!
# Responses to a machine that yielded

* `sendCmioResponse` : the response, generic in its state accessor. The length of the data has 32 bits;
* `stateAccess` : the accessor that works on the machine itself;
* `cmSendCmioResponse` : the entry point, whose length has 64 bits;
* `writeLengthLog2Size_eq` : the data is padded to the smallest power of two that holds it and a leaf of the tree;
* `Responded` : what a response leaves behind;
* `cmSendCmioResponse_correct_iff` : the entry point answers for the length it was given, unless it cuts that length.
-/

namespace MachineEmulator.Cmio

open BitVec Nat List Interpret EStateM Function PagedMemory RunState

/-! ## The response -/

/-- The operations of a state accessor. -/
inductive CmioOp where
  | readIflagsY
  | writeMemoryWithPadding (paddr : Word) (data : Option (List Byte)) (dataLength : Word) (writeLengthLog2Size : Nat)
  | writeHtifFromhost (val : Word)
  | writeIflagsY (val : Word)
  | fail (message : String)

def CmioOp.Ans : CmioOp → Type
  | .readIflagsY => Word
  | .fail _ => Empty
  | .writeMemoryWithPadding .. | .writeHtifFromhost _ | .writeIflagsY _ => Unit

abbrev CmioSig : Sig := ⟨CmioOp, CmioOp.Ans⟩

abbrev CProg (α : Type) := Prog CmioSig α

def readIflagsY : CProg Word := Prog.perform (S := CmioSig) .readIflagsY

def writeMemoryWithPadding (paddr : Word) (data : Option (List Byte)) (dataLength : Word) (writeLengthLog2Size : Nat) :
    CProg Unit :=
  Prog.perform (S := CmioSig) (.writeMemoryWithPadding paddr data dataLength writeLengthLog2Size)

def writeHtifFromhost (val : Word) : CProg Unit := Prog.perform (S := CmioSig) (.writeHtifFromhost val)

def writeIflagsY (val : Word) : CProg Unit := Prog.perform (S := CmioSig) (.writeIflagsY val)

def throwRuntimeError {α : Type} (message : String) : CProg α :=
  Prog.call (S := CmioSig) (.fail message) Empty.elim

def uint32Log2 (v : BitVec 32) : Nat := v.toNat.log2

/-- The smallest power of two that holds the data, and a leaf of the tree. -/
def writeLengthLog2Size (dataLength : BitVec 32) : Nat :=
  let log2 := uint32Log2 dataLength
  let log2 := if log2 < log2WordSize then log2WordSize else log2
  if (1 : BitVec 32) <<< log2 < dataLength then log2 + 1 else log2

/-- What the machine finds in `fromhost`. -/
def yieldData (reason : BitVec 16) (dataLength : BitVec 32) : Word :=
  (reason.setWidth 64 &&& 0xffff) <<< 32 ||| (dataLength.setWidth 64 &&& 0xffffffff)

def sendCmioResponse (reason : BitVec 16) (data : Option (List Byte)) (dataLength : BitVec 32) : CProg Unit := do
  let iflagsY ← readIflagsY
  if iflagsY = 0 then
    throwRuntimeError "iflags.Y is not set"
  if 0 < dataLength then
    if pmaCmioRxBufferLog2Size < writeLengthLog2Size dataLength then
      throwRuntimeError "CMIO response data is too large"
    writeMemoryWithPadding pmaCmioRxBufferStart data (dataLength.setWidth 64) (writeLengthLog2Size dataLength)
  writeHtifFromhost (yieldData reason dataLength)
  writeIflagsY 0

/-! ## The plain accessor -/

/-- Write the data, then zeros up to a power of two. -/
def doWriteMemoryWithPadding (paddr : Word) (data : Option (List Byte)) (dataLength : Word)
    (writeLengthLog2Size : Nat) : EStateM String RunState Unit := do
  match data with
  | none => query fun _ => .error "data is null"
  | some data =>
    let writeLength := (1 : Word) <<< writeLengthLog2Size
    query fun _ => throwUnless (dataLength ≤ writeLength) "write_length is less than data_length"
    writeMemory paddr (data.take dataLength.toNat)
    if dataLength < writeLength then
      fillMemory (paddr + dataLength) 0 (writeLength - dataLength)

def stateAccess : Handler CmioSig String RunState
  | .readIflagsY => query fun m => .ok (m.s.regs .iflagsY)
  | .writeMemoryWithPadding paddr data dataLength log2 => doWriteMemoryWithPadding paddr data dataLength log2
  | .writeHtifFromhost val => update fun m => .ok (m.writeReg .htifFromhost val)
  | .writeIflagsY val => update fun m => .ok (m.writeReg .iflagsY val)
  | .fail message => query fun _ => .error message

/-- The entry point. The machine hands the length on to a function that takes 32 bits of it. -/
def cmSendCmioResponse (reason : BitVec 16) (data : Option (List Byte)) (length : Word) :
    EStateM String RunState Unit :=
  (sendCmioResponse reason data (length.setWidth 32)).run stateAccess

/-! ## The padding -/

/-- The exponent of the smallest power of two that is at least `n` and a leaf of the tree. -/
def paddedLog2 (n : Nat) : Nat := Nat.clog 2 (max wordSize n)

theorem clog_eq_of_between {n k : Nat} (hle : n ≤ 2 ^ k) (hlt : ∀ j < k, 2 ^ j < n) : clog 2 n = k := by
  refine Nat.le_antisymm (clog_le_of_le_pow hle) (Nat.le_of_not_lt fun hk => ?_)
  have hpow : n ≤ 2 ^ clog 2 n := le_pow_clog (by decide) n
  exact absurd (hlt _ hk) (by omega)

theorem writeLengthLog2Size_eq {n : BitVec 32} (hn : 0 < n) : writeLengthLog2Size n = paddedLog2 n.toNat := by
  have hpos : n.toNat ≠ 0 := Nat.ne_of_gt (lt_def.mp hn)
  have hlow : 2 ^ uint32Log2 n ≤ n.toNat := log2_self_le hpos
  have hhigh : n.toNat < 2 ^ (uint32Log2 n + 1) := lt_log2_self
  have hlog : uint32Log2 n < 32 := (log2_lt hpos).mpr n.isLt
  simp only [writeLengthLog2Size, lt_def]
  by_cases hsmall : uint32Log2 n < log2WordSize
  · -- less than a leaf
    have hlt : n.toNat < 2 ^ log2WordSize := Nat.lt_of_lt_of_le hhigh (Nat.pow_le_pow_right (by decide) hsmall)
    have hmax : max wordSize n.toNat = 2 ^ log2WordSize := Nat.max_eq_left hlt.le
    rw [if_pos hsmall, Bits.toNat_one_shiftLeft (by decide), if_neg (by omega), paddedLog2, hmax,
      clog_pow _ _ (by decide)]
  · have hleaf : wordSize ≤ 2 ^ uint32Log2 n := Nat.pow_le_pow_right (n := 2) (by decide) (Nat.le_of_not_lt hsmall)
    rw [if_neg hsmall, Bits.toNat_one_shiftLeft hlog, paddedLog2, Nat.max_eq_right (Nat.le_trans hleaf hlow)]
    refine (clog_eq_of_between ?_ fun j hj => ?_).symm
    · split
      · exact hhigh.le
      · omega
    · split at hj
      · rename_i hlt
        exact Nat.lt_of_le_of_lt (Nat.pow_le_pow_right (by decide) (le_of_lt_succ hj)) hlt
      · exact Nat.lt_of_lt_of_le (Nat.pow_lt_pow_right (by decide) hj) hlow

theorem paddedLog2_le_iff {n : Nat} : paddedLog2 n ≤ pmaCmioRxBufferLog2Size ↔ n ≤ 2 ^ pmaCmioRxBufferLog2Size := by
  rw [paddedLog2, clog_le_iff_le_pow (by decide)]
  simp only [wordSize, pmaCmioRxBufferLog2Size]
  omega

theorem le_two_pow_paddedLog2 (n : Nat) : n ≤ 2 ^ paddedLog2 n :=
  Nat.le_trans (Nat.le_max_right _ _) (le_pow_clog (by decide) _)

/-! ## What the response does -/

section
variable {m : RunState} {reason : BitVec 16} {data rest : List Byte} {n : BitVec 32}

def paddedData (data : List Byte) : List Byte :=
  if data = [] then [] else data ++ List.replicate (2 ^ paddedLog2 data.length - data.length) 0

def writeResponse (p : PagedMemory) (data : List Byte) : PagedMemory :=
  if data = [] then p else p.writePadded pmaCmioRxBufferStart.toNat data (2 ^ paddedLog2 data.length)

theorem writeResponse_mem (p : PagedMemory) (data : List Byte) :
    (writeResponse p data).mem = writeBytes p.mem pmaCmioRxBufferStart.toNat (paddedData data) := by
  unfold writeResponse paddedData
  split
  · rw [writeBytes_nil]
  · rw [writePadded_mem]

theorem exists_rxBuffer (m : RunState) : ∃ p ∈ m.s.board.ranges, p.istartM = true ∧
    p.start.toNat = pmaCmioRxBufferStart.toNat ∧ p.length.toNat = 2 ^ pmaCmioRxBufferLog2Size := by
  obtain ⟨i, hi⟩ := m.s.board.exists_mem (p := cmioRxBufferPma) (by simp [MachineConfig.pmas])
  exact ⟨_, hi, rfl, rfl, rfl⟩

theorem doWriteMemoryWithPadding_eq {n : Word} (hpos : 0 < n) (hle : n.toNat ≤ 2 ^ pmaCmioRxBufferLog2Size)
    (hdata : data.length = n.toNat) :
    doWriteMemoryWithPadding pmaCmioRxBufferStart (some (data ++ rest)) n (paddedLog2 n.toNat) m =
      .ok () (m.setBoardMemory (writeResponse m.boardMemory data)) := by
  obtain ⟨p, hp, hM, hstart, hlength⟩ := exists_rxBuffer m
  have hk := paddedLog2_le_iff.mpr hle
  have hnk := le_two_pow_paddedLog2 n.toNat
  have hpow := Nat.pow_le_pow_right (n := 2) (by decide) hk
  have hshift : ((1 : Word) <<< paddedLog2 n.toNat).toNat = 2 ^ paddedLog2 n.toNat :=
    Bits.toNat_one_shiftLeft (Nat.lt_of_le_of_lt hk (by decide))
  have hne : data ≠ [] := by
    rintro rfl
    exact absurd hdata (Nat.ne_of_lt (lt_def.mp hpos))
  have htake : (data ++ rest).take n.toNat = data := by rw [← hdata, take_left]
  have hwrite : writeMemory pmaCmioRxBufferStart data m =
      .ok () (m.setBoardMemory (m.boardMemory.write pmaCmioRxBufferStart.toNat data)) :=
    writeMemory_of_mem hp hM ⟨Nat.le_of_eq hstart, by omega⟩ hne
  have hcheck : query (fun _ => throwUnless (n ≤ (1 : Word) <<< paddedLog2 n.toNat)
      "write_length is less than data_length") m = .ok () m :=
    query_ok_iff.mpr ⟨throwUnless_ok_iff.mpr (le_def.mpr (by rwa [hshift])), rfl⟩
  simp only [doWriteMemoryWithPadding, htake]
  rw [bind_of_ok hcheck, bind_of_ok hwrite, writeResponse, if_neg hne, writePadded, hdata]
  split
  · rename_i hlt
    rw [lt_def, hshift] at hlt
    have hsub : ((1 : Word) <<< paddedLog2 n.toNat - n).toNat = 2 ^ paddedLog2 n.toNat - n.toNat := by
      rw [toNat_sub_of_le (le_def.mpr (by omega)), hshift]
    have hadd : (pmaCmioRxBufferStart + n).toNat = pmaCmioRxBufferStart.toNat + n.toNat := by
      have hrx : pmaCmioRxBufferStart.toNat = 0x60000000 := rfl
      simp only [pmaCmioRxBufferLog2Size] at hle
      rw [toNat_add]
      omega
    have hne0 : (1 : Word) <<< paddedLog2 n.toNat - n ≠ 0 := by
      intro h0
      rw [h0] at hsub
      exact absurd hsub (Nat.ne_of_lt (Nat.sub_pos_of_lt hlt))
    have hin : HoldsBuffer p (pmaCmioRxBufferStart + n) ((1 : Word) <<< paddedLog2 n.toNat - n).toNat := by
      rw [HoldsBuffer, hadd, hsub]
      omega
    have hfill := fillMemory_of_mem (m := m.setBoardMemory (m.boardMemory.write pmaCmioRxBufferStart.toNat data))
      0 hp hM hin hne0
    rw [hadd, hsub] at hfill
    exact hfill
  · rename_i hge
    rw [lt_def, hshift] at hge
    have hzero : 2 ^ paddedLog2 n.toNat - n.toNat = 0 := by omega
    rw [hzero, List.replicate_zero, write_nil]
    rfl

/-- The response asks for the flag, may fail twice, writes its data and then two registers. -/
theorem run_sendCmioResponse (buffer : Option (List Byte)) :
    (sendCmioResponse reason buffer n).run stateAccess m =
      if m.s.regs .iflagsY = 0 then .error "iflags.Y is not set" m
      else if 0 < n ∧ pmaCmioRxBufferLog2Size < writeLengthLog2Size n then .error "CMIO response data is too large" m
      else ((if 0 < n then doWriteMemoryWithPadding pmaCmioRxBufferStart buffer (n.setWidth 64) (writeLengthLog2Size n)
        else pure ()) >>= fun _ =>
        update fun m => .ok ((m.writeReg .htifFromhost (yieldData reason n)).writeReg .iflagsY 0)) m := by
  have hread : ∀ f : Word → CProg Unit,
      (readIflagsY >>= f).run stateAccess m = (f (m.s.regs .iflagsY)).run stateAccess m :=
    fun _ => rfl
  have hfail : ∀ (message : String) (f : PUnit → CProg Unit),
      (throwRuntimeError message >>= f).run stateAccess m = .error message m := fun _ _ => rfl
  rw [sendCmioResponse, hread]
  by_cases hY : m.s.regs .iflagsY = 0
  · rw [if_pos hY, if_pos hY, hfail]
  · rw [if_neg hY, if_neg hY]
    by_cases hn : 0 < n
    · by_cases hk : pmaCmioRxBufferLog2Size < writeLengthLog2Size n
      · rw [if_pos hn, if_pos hk, hfail, if_pos ⟨hn, hk⟩]
      · rw [if_pos hn, if_neg hk, if_neg (fun h => hk h.2), if_pos hn]
        rfl
    · rw [if_neg hn, if_neg (fun h => hn h.1), if_neg hn]
      rfl

/-! ## What the entry point promises -/

/-- The machine that a response leaves behind. Which pages are dirty is not said. -/
structure Responded (m : RunState) (reason : BitVec 16) (data : List Byte) (m' : RunState) : Prop where
  mem : m'.s.mem = writeBytes m.s.mem pmaCmioRxBufferStart.toNat (paddedData data)
  fromhost : m'.s.regs .htifFromhost = reason.setWidth 64 <<< 32 ||| BitVec.ofNat 64 data.length
  iflagsY : m'.s.regs .iflagsY = 0
  regs : ∀ r, r ≠ .htifFromhost → r ≠ .iflagsY → m'.s.regs r = m.s.regs r
  rest : m' = { m with s := { m.s with regs := m'.s.regs, mem := m'.s.mem, dirty := m'.s.dirty } }

/-- A response is made if the machine waits for one and the data fits. Otherwise it fails and changes nothing. -/
def Correct (m : RunState) (reason : BitVec 16) (data : List Byte) (r : EStateM.Result String RunState Unit) : Prop :=
  if m.s.regs .iflagsY ≠ 0 ∧ data.length ≤ 2 ^ 21 then ∃ m', r = .ok () m' ∧ Responded m reason data m'
  else ∃ e, r = .error e m

theorem setWidth_and_mask {w : Nat} (v : BitVec w) :
    v.setWidth 64 &&& BitVec.ofNat 64 (2 ^ w - 1) = v.setWidth 64 := by
  refine eq_of_getLsbD_eq fun i hi => ?_
  simp only [getLsbD_and, getLsbD_setWidth, getLsbD_ofNat, hi, testBit_two_pow_sub_one]
  by_cases hw : i < w
  · simp [hw]
  · simp [hw, getLsbD_of_ge v i (Nat.le_of_not_lt hw)]

theorem yieldData_eq (reason : BitVec 16) (n : BitVec 32) :
    yieldData reason n = reason.setWidth 64 <<< 32 ||| BitVec.ofNat 64 n.toNat := by
  have h1 : reason.setWidth 64 &&& (0xffff : Word) = reason.setWidth 64 := setWidth_and_mask reason
  have h2 : n.setWidth 64 &&& (0xffffffff : Word) = n.setWidth 64 := setWidth_and_mask n
  rw [yieldData, h1, h2, ofNat_toNat]

/-- The machine after a response of `n` bytes. -/
def respond (m : RunState) (reason : BitVec 16) (data : List Byte) (n : BitVec 32) : RunState :=
  ((m.setBoardMemory (writeResponse m.boardMemory data)).writeReg .htifFromhost
    (yieldData reason n)).writeReg .iflagsY 0

theorem respond_responded (hn : data.length = n.toNat) : Responded m reason data (respond m reason data n) where
  mem := writeResponse_mem m.boardMemory data
  fromhost := by rw [hn, ← yieldData_eq]; rfl
  iflagsY := rfl
  regs r h1 h2 := by
    show update (update m.s.regs _ _) _ _ r = _
    rw [update_of_ne h2, update_of_ne h1]
  rest := rfl

/-- A length that fits is answered with as many bytes of the buffer. -/
theorem run_sendCmioResponse_ok {buffer : Option (List Byte)} (hY : m.s.regs .iflagsY ≠ 0)
    (hle : n.toNat ≤ 2 ^ pmaCmioRxBufferLog2Size) (hbuffer : buffer.getD [] = data ++ rest)
    (hdata : data.length = n.toNat) :
    (sendCmioResponse reason buffer n).run stateAccess m = .ok () (respond m reason data n) := by
  rw [run_sendCmioResponse, if_neg hY]
  by_cases hn : 0 < n
  · have hlog := writeLengthLog2Size_eq hn
    have hwide : (n.setWidth 64).toNat = n.toNat := by
      rw [toNat_setWidth]
      exact mod_eq_of_lt (Nat.lt_trans n.isLt (by decide))
    cases buffer with
    | none =>
      obtain ⟨rfl, -⟩ := append_eq_nil_iff.mp hbuffer.symm
      exact absurd hdata (Nat.ne_of_lt (lt_def.mp hn))
    | some bytes =>
      obtain rfl : bytes = data ++ rest := hbuffer
      have hwrite : doWriteMemoryWithPadding pmaCmioRxBufferStart (some (data ++ rest)) (n.setWidth 64)
          (paddedLog2 n.toNat) m = .ok () (m.setBoardMemory (writeResponse m.boardMemory data)) := by
        rw [← hwide]
        exact doWriteMemoryWithPadding_eq (lt_def.mpr (by rw [hwide]; exact lt_def.mp hn))
          (by rwa [hwide]) (by rwa [hwide])
      have hfits : ¬ pmaCmioRxBufferLog2Size < paddedLog2 n.toNat := Nat.not_lt.mpr (paddedLog2_le_iff.mpr hle)
      rw [hlog, if_neg (fun h => hfits h.2), if_pos hn, bind_of_ok hwrite]
      rfl
  · have h0 : data = [] := by
      rw [← length_eq_zero_iff, hdata]
      exact Nat.eq_zero_of_not_pos fun h => hn (lt_def.mpr h)
    rw [if_neg (fun h => hn h.1), if_neg hn, h0]
    rfl

/-- The entry point keeps its promise, unless the machine waits for a response and the length does not fit 32 bits but
what is left of it fits the buffer. -/
theorem cmSendCmioResponse_correct_iff (m : RunState) (reason : BitVec 16) (buffer : Option (List Byte)) (length : Word)
    (hlen : (buffer.getD []).length = length.toNat) :
    Correct m reason (buffer.getD []) (cmSendCmioResponse reason buffer length m) ↔
      (m.s.regs .iflagsY ≠ 0 → 2 ^ 32 ≤ length.toNat → 2 ^ 21 < length.toNat % 2 ^ 32) := by
  have hcut : (length.setWidth 32).toNat = length.toNat % 2 ^ 32 := toNat_setWidth _ _
  rw [Correct, cmSendCmioResponse, hlen]
  by_cases hY : m.s.regs .iflagsY = 0
  · rw [run_sendCmioResponse, if_pos hY, if_neg (by simp [hY])]
    exact iff_of_true ⟨_, rfl⟩ fun h => absurd hY h
  by_cases hbig : 2 ^ 21 < length.toNat % 2 ^ 32
  · -- what is left of the length is too large, and so is the length
    have hpos : 0 < length.setWidth 32 := lt_def.mpr (by rw [hcut]; exact Nat.lt_trans (by decide) hbig)
    have hlog : pmaCmioRxBufferLog2Size < writeLengthLog2Size (length.setWidth 32) := by
      rw [writeLengthLog2Size_eq hpos, ← Nat.not_le, paddedLog2_le_iff, hcut, Nat.not_le]
      exact hbig
    have hrun : (sendCmioResponse reason buffer (length.setWidth 32)).run stateAccess m =
        .error "CMIO response data is too large" m := by
      rw [run_sendCmioResponse, if_neg hY, if_pos ⟨hpos, hlog⟩]
    rw [hrun, if_neg fun h => absurd (Nat.le_trans (mod_le _ _) h.2) (Nat.not_le.mpr hbig)]
    exact iff_of_true ⟨_, rfl⟩ fun _ _ => hbig
  · have hrun : (sendCmioResponse reason buffer (length.setWidth 32)).run stateAccess m =
        .ok () (respond m reason ((buffer.getD []).take (length.setWidth 32).toNat) (length.setWidth 32)) :=
      run_sendCmioResponse_ok hY (by rw [hcut]; exact Nat.le_of_not_lt hbig) (take_append_drop _ _).symm
        (by rw [length_take, hlen, Nat.min_eq_left (by rw [hcut]; exact mod_le _ _)])
    rw [hrun]
    by_cases hsmall : length.toNat < 2 ^ 32
    · have hsame : length.toNat % 2 ^ 32 = length.toNat := mod_eq_of_lt hsmall
      rw [hsame] at hbig hcut
      rw [if_pos ⟨hY, Nat.le_of_not_lt hbig⟩, take_of_length_le (by rw [hlen, hcut])]
      exact iff_of_true ⟨_, rfl, respond_responded (by rw [hlen, hcut])⟩ fun _ h => absurd h (Nat.not_le.mpr hsmall)
    · rw [if_neg fun h => hsmall (Nat.lt_of_le_of_lt h.2 (by decide))]
      refine iff_of_false ?_ fun h => hbig (h hY (Nat.le_of_not_lt hsmall))
      rintro ⟨e, he⟩
      cases he

end

/-- A machine that waits for a response, and one of 33 bytes. -/
theorem cmSendCmioResponse_correct_waiting : Correct (RunState.small [(.iflagsY, 1)]) 1 (List.replicate 33 7)
      (cmSendCmioResponse 1 (some (List.replicate 33 7)) 33 (RunState.small [(.iflagsY, 1)])) :=
  (cmSendCmioResponse_correct_iff _ 1 (some (replicate 33 7)) 33 (by decide)).mpr fun _ h => absurd h (by decide)

/-- A buffer of `2 ^ 32` bytes is accepted as if it were empty. -/
theorem cmSendCmioResponse_accepts_large : (RunState.small [(.iflagsY, 1)]).s.regs .iflagsY ≠ 0 ∧
      (List.replicate (2 ^ 32) (0 : Byte)).length = (0x100000000 : Word).toNat ∧
      ∃ m', cmSendCmioResponse 1 (some (List.replicate (2 ^ 32) 0)) 0x100000000 (RunState.small [(.iflagsY, 1)]) =
        .ok () m' ∧ m'.s.regs .htifFromhost = 0x100000000 ∧ m'.s.regs .iflagsY = 0 := by
  have hY : (small [(.iflagsY, 1)]).s.regs .iflagsY ≠ 0 := by decide
  have hrun : cmSendCmioResponse 1 (some (replicate (2 ^ 32) 0)) 0x100000000 (small [(.iflagsY, 1)]) =
      .ok () (respond (small [(.iflagsY, 1)]) 1 [] 0) :=
    run_sendCmioResponse_ok hY (by decide) (nil_append _).symm rfl
  exact ⟨hY, by rw [length_replicate]; rfl, _, hrun, by decide, rfl⟩

end MachineEmulator.Cmio
