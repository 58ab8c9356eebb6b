import Mathlib.Data.List.Basic
import Mathlib.Data.Nat.Digits.Defs

/-!
# Byte memories

A memory is a function from byte addresses to bytes.

* `readBytes m a n`, `writeBytes m a bs` : the `n` bytes at `a`; the memory with `bs` at `a`;
* `toLE n v`, `ofLE bs` : little-endian bytes of a number and back;
* `wordImage w` : the memory that holds the 64-bit words `w 0`, `w 1`, ... one after the other;
* `readBytes_writeBytes_*` : reading what was written, reading elsewhere, and a read that contains
  the written range.
-/

open List

abbrev Byte := BitVec 8

def readBytes (m : Nat → Byte) (a n : Nat) : List Byte := (List.range n).map fun i => m (a + i)

/-- The memory `m` with the bytes `bs` at address `a`. -/
def writeBytes (m : Nat → Byte) (a : Nat) (bs : List Byte) : Nat → Byte :=
  fun x => if a ≤ x then bs.getD (x - a) (m x) else m x

/-- The `n` low bytes of a number, lowest first. -/
def toLE : Nat → Nat → List Byte
  | 0, _ => []
  | n + 1, v => BitVec.ofNat 8 v :: toLE n (v / 256)

/-- The number whose bytes are `bs`, lowest first. -/
def ofLE : List Byte → Nat
  | [] => 0
  | b :: bs => b.toNat + 256 * ofLE bs

/-! ## Numbers -/

@[simp] theorem length_toLE : ∀ n v, (toLE n v).length = n
  | 0, _ => rfl
  | n + 1, v => by rw [toLE, length_cons, length_toLE]

theorem ofLE_lt : ∀ bs : List Byte, ofLE bs < 256 ^ bs.length
  | [] => by simp [ofLE]
  | b :: bs => by
    have h := ofLE_lt bs
    rw [ofLE, length_cons, Nat.pow_succ]
    omega

theorem ofLE_toLE : ∀ n v, ofLE (toLE n v) = v % 256 ^ n
  | 0, v => by simp [toLE, ofLE, Nat.mod_one]
  | n + 1, v => by
    rw [toLE, ofLE, ofLE_toLE, Nat.pow_succ', Nat.mod_mul]
    simp [BitVec.toNat_ofNat]

theorem toLE_ofLE : ∀ bs : List Byte, toLE bs.length (ofLE bs) = bs
  | [] => rfl
  | b :: bs => by
    rw [length_cons, toLE, ofLE, show (b.toNat + 256 * ofLE bs) / 256 = ofLE bs by omega,
      toLE_ofLE]
    congr 1
    apply BitVec.eq_of_toNat_eq
    rw [BitVec.toNat_ofNat]
    omega

/-! ## Reading and writing -/

@[simp] theorem length_readBytes (m : Nat → Byte) (a n : Nat) : (readBytes m a n).length = n := by
  simp [readBytes]

theorem getElem?_readBytes (m : Nat → Byte) (a n i : Nat) :
    (readBytes m a n)[i]? = if i < n then some (m (a + i)) else none := by
  by_cases h : i < n
  · simp [readBytes, h]
  · simp [readBytes, h]

variable {m : Nat → Byte} {a n i b k : Nat} {bs : List Byte}

theorem readBytes_shift {f g : Nat → Byte} (h : ∀ i, i < n → f (a + i) = g (b + i)) :
    readBytes f a n = readBytes g b n := by
  apply map_congr_left
  intro i hi
  exact h i (List.mem_range.mp hi)

theorem readBytes_congr {f g : Nat → Byte} (h : ∀ i, i < n → f (a + i) = g (a + i)) :
    readBytes f a n = readBytes g a n :=
  readBytes_shift h

theorem readBytes_inj {m' : Nat → Byte} (h : readBytes m a n = readBytes m' a n) :
    ∀ i, i < n → m (a + i) = m' (a + i) := by
  intro i hi
  have hi' : (readBytes m a n)[i]? = (readBytes m' a n)[i]? := by rw [h]
  rw [getElem?_readBytes, getElem?_readBytes, if_pos hi, if_pos hi] at hi'
  exact Option.some.inj hi'

theorem drop_take_readBytes {o : Nat} (h : o + k ≤ n) :
    ((readBytes m a n).drop o).take k = readBytes m (a + o) k := by
  apply ext_getElem?
  intro i
  rw [getElem?_readBytes, List.getElem?_take]
  by_cases hi : i < k
  · rw [if_pos hi, if_pos hi, List.getElem?_drop, getElem?_readBytes, if_pos (by omega),
      Nat.add_assoc]
  · rw [if_neg hi, if_neg hi]

theorem take_readBytes (h : k ≤ n) : (readBytes m a n).take k = readBytes m a k := by
  simpa using drop_take_readBytes (m := m) (a := a) (n := n) (o := 0) (k := k) (by omega)

theorem drop_readBytes (h : k ≤ n) : (readBytes m a n).drop k = readBytes m (a + k) (n - k) := by
  have := drop_take_readBytes (m := m) (a := a) (n := n) (o := k) (k := n - k) (by omega)
  rwa [take_of_length_le (by simp)] at this

theorem readBytes_append (m : Nat → Byte) (a n k : Nat) :
    readBytes m a (n + k) = readBytes m a n ++ readBytes m (a + n) k := by
  apply ext_getElem?
  intro i
  rw [getElem?_readBytes, List.getElem?_append, length_readBytes, getElem?_readBytes,
    getElem?_readBytes]
  by_cases hi : i < n
  · rw [if_pos hi, if_pos hi, if_pos (by omega)]
  · rw [if_neg hi]
    by_cases hk : i < n + k
    · rw [if_pos hk, if_pos (by omega), Nat.add_assoc, Nat.add_sub_cancel' (by omega)]
    · rw [if_neg hk, if_neg (by omega)]

theorem writeBytes_of_mem (h : i < bs.length) : writeBytes m a bs (a + i) = bs.get ⟨i, h⟩ := by
  simp [writeBytes, getD_eq_getElem?_getD, h]

theorem writeBytes_readBytes (m f : Nat → Byte) (a b : Nat) (h : i < n) :
    writeBytes m a (readBytes f b n) (a + i) = f (b + i) := by
  rw [writeBytes_of_mem (by rwa [length_readBytes])]
  simp [readBytes]

theorem writeBytes_of_not_mem {x : Nat} (h : x < a ∨ a + bs.length ≤ x) : writeBytes m a bs x = m x := by
  unfold writeBytes
  split
  · rw [getD_eq_getElem?_getD, List.getElem?_eq_none (by omega)]
    rfl
  · rfl

theorem readBytes_writeBytes_same (m : Nat → Byte) (a : Nat) (bs : List Byte) :
    readBytes (writeBytes m a bs) a bs.length = bs := by
  apply ext_getElem?
  intro i
  rw [getElem?_readBytes]
  split_ifs with hi
  · rw [writeBytes_of_mem hi, List.getElem?_eq_getElem hi]
    rfl
  · rw [List.getElem?_eq_none (by omega)]

theorem readBytes_writeBytes_of_disjoint (h : b + n ≤ a ∨ a + bs.length ≤ b) :
    readBytes (writeBytes m a bs) b n = readBytes m b n := by
  apply readBytes_congr
  intro i hi
  exact writeBytes_of_not_mem (by omega)

theorem readBytes_writeBytes_inside {o : Nat} (h : o + bs.length ≤ n) :
    readBytes (writeBytes m (b + o) bs) b n =
      (readBytes m b n).take o ++ bs ++ (readBytes m b n).drop (o + bs.length) := by
  have hlen : n = o + (bs.length + (n - (o + bs.length))) := by omega
  rw [take_readBytes (by omega), drop_readBytes h]
  conv_lhs => rw [hlen]
  rw [readBytes_append, readBytes_append, readBytes_writeBytes_same,
    readBytes_writeBytes_of_disjoint (by omega), readBytes_writeBytes_of_disjoint (by omega),
    List.append_assoc, Nat.add_assoc]

theorem writeBytes_nil (m : Nat → Byte) (a : Nat) : writeBytes m a [] = m := by
  funext x
  exact writeBytes_of_not_mem (by simp; omega)

/-- A memory that shows `bs` at `a` and agrees with `m` elsewhere. -/
theorem eq_writeBytes {m' : Nat → Byte}
    (hin : readBytes m' a bs.length = bs) (hout : ∀ x, x < a ∨ a + bs.length ≤ x → m' x = m x) :
    m' = writeBytes m a bs := by
  funext x
  by_cases hx : x < a ∨ a + bs.length ≤ x
  · rw [hout x hx, writeBytes_of_not_mem hx]
  · obtain ⟨i, rfl⟩ : ∃ i, x = a + i := ⟨x - a, by omega⟩
    exact readBytes_inj (hin.trans (readBytes_writeBytes_same m a bs).symm) i (by omega)

theorem writeBytes_of_readBytes (h : readBytes m a bs.length = bs) : writeBytes m a bs = m :=
  (eq_writeBytes h fun _ _ => rfl).symm

theorem writeBytes_append (m : Nat → Byte) (a : Nat) (bs cs : List Byte) :
    writeBytes (writeBytes m a bs) (a + bs.length) cs = writeBytes m a (bs ++ cs) := by
  apply eq_writeBytes
  · rw [length_append, readBytes_append, readBytes_writeBytes_same,
      readBytes_writeBytes_of_disjoint (by omega), readBytes_writeBytes_same]
  · intro x hx
    rw [length_append] at hx
    rw [writeBytes_of_not_mem (by omega), writeBytes_of_not_mem (by omega)]

/-- A memory shows `bs` at `a` if writing it changes no byte. -/
theorem readBytes_eq_iff :
    readBytes m a bs.length = bs ↔ ∀ k < bs.length, writeBytes m a bs (a + k) = m (a + k) := by
  constructor
  · intro h k _
    rw [writeBytes_of_readBytes h]
  · intro h
    conv_rhs => rw [← readBytes_writeBytes_same m a bs]
    exact readBytes_congr fun k hk => (h k hk).symm

/-! ## Words -/

/-- The memory that holds the words `w 0`, `w 1`, ... one after the other. -/
def wordImage (w : Nat → BitVec 64) (i : Nat) : Byte := (w (i / 8)).extractLsb' (8 * (i % 8)) 8

theorem getElem?_toLE : ∀ (n v i : Nat), i < n → (toLE n v)[i]? = some (BitVec.ofNat 8 (v / 256 ^ i))
  | n + 1, v, 0, _ => by simp [toLE]
  | n + 1, v, i + 1, h => by
    rw [toLE, List.getElem?_cons_succ, getElem?_toLE n _ i (by omega), Nat.div_div_eq_div_mul,
      Nat.pow_succ']

theorem readBytes_wordImage (w : Nat → BitVec 64) (k : Nat) :
    readBytes (wordImage w) (8 * k) 8 = toLE 8 (w k).toNat := by
  apply ext_getElem?
  intro i
  rw [getElem?_readBytes]
  split
  · rename_i hi
    rw [getElem?_toLE _ _ _ hi, wordImage, show (8 * k + i) / 8 = k by omega,
      show (8 * k + i) % 8 = i by omega]
    congr 1
    apply BitVec.eq_of_toNat_eq
    rw [BitVec.extractLsb'_toNat, BitVec.toNat_ofNat, Nat.shiftRight_eq_div_pow, Nat.pow_mul]
  · rw [List.getElem?_eq_none (by simp; omega)]

theorem wordImage_congr {w w' : Nat → BitVec 64} (h : w (i / 8) = w' (i / 8)) :
    wordImage w i = wordImage w' i := by
  rw [wordImage, h, wordImage]
