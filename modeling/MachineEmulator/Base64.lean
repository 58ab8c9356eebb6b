import MachineEmulator.Lib.Bytes

/-!
# Base64

The text form of binary data in the JSON interface. Both directions take one byte at a time and carry the bytes of a
partial atom in a buffer.

* `encodeBase64`, `decodeBase64` : a byte string as text and back;
* `Spaced` : a text with white space inserted;
* `decodeBase64_of_spaced` : the text of a byte string, with any white space in it, is decoded to the byte string;
* `Strict`, `Padded` : a text that is an encoding, and what the decoder would have to check;
* `strict_iff_padded` : the decoder is strict on the texts with a byte that it rejects, and on those in `Padded`.
-/

namespace MachineEmulator.Base64

/-- The symbols in the order of their values. -/
def b64base : List Byte :=
  (List.range' 65 26 ++ List.range' 97 26 ++ List.range' 48 10 ++ [43, 47]).map (BitVec.ofNat 8)

/-- The value of each symbol, 0 for the padding and 255 for every other byte. -/
def b64unbase : List Nat :=
  List.replicate 43 255 ++ [62, 255, 255, 255, 63] ++ List.range' 52 10 ++ [255, 255, 255, 0, 255, 255, 255] ++
    List.range 26 ++ List.replicate 6 255 ++ List.range' 26 26 ++ List.replicate 133 255

def symbol (value : Nat) : Byte := b64base.getD value 0

def unbase (c : Byte) : Nat := b64unbase.getD c.toNat 255

/-- The padding. -/
def pad : Byte := 0x3d

/-- The bytes of a partial atom, and the output so far. -/
structure Stream where
  input : List Byte := []
  sout : List Byte := []
deriving DecidableEq, Repr

/-! ## Encoding -/

def encodeAtom (i0 i1 i2 : Byte) : List Byte :=
  let value := (((i0.toNat <<< 8) + i1.toNat) <<< 8) + i2.toNat
  [symbol (value >>> 6 >>> 6 >>> 6), symbol (value >>> 6 >>> 6 &&& 0x3f), symbol (value >>> 6 &&& 0x3f),
    symbol (value &&& 0x3f)]

def b64encode (s : Stream) (c : Byte) : Stream :=
  match s.input with
  | [i0, i1] => { sout := s.sout ++ encodeAtom i0 i1 c }
  | input => { s with input := input ++ [c] }

/-- What the one or two bytes left over add to the output. -/
def b64pad : List Byte → List Byte
  | [i0] =>
    let value := i0.toNat <<< 4
    [symbol (value >>> 6), symbol (value &&& 0x3f), pad, pad]
  | [i0, i1] =>
    let value := ((i0.toNat <<< 8) ||| i1.toNat) <<< 2
    [symbol (value >>> 6 >>> 6), symbol (value >>> 6 &&& 0x3f), symbol (value &&& 0x3f), pad]
  | _ => []

def encodeBase64 (input : List Byte) : List Byte :=
  let s := input.foldl b64encode {}
  s.sout ++ b64pad s.input

/-! ## Decoding -/

def isSpace (c : Byte) : Bool := c == 0x20 || c == 0x09 || c == 0x0a || c == 0x0b || c == 0x0c || c == 0x0d

/-- The bytes of four symbols, less those that the padding stands for. -/
def decodeAtom (i0 i1 i2 i3 : Byte) : List Byte :=
  let value := ((((((unbase i0) <<< 6) ||| unbase i1) <<< 6) ||| unbase i2) <<< 6) ||| unbase i3
  let decoded := [BitVec.ofNat 8 (value >>> 8 >>> 8), BitVec.ofNat 8 (value >>> 8 &&& 0xff),
    BitVec.ofNat 8 (value &&& 0xff)]
  let valid := if i2 = pad then 1 else if i3 = pad then 2 else 3
  decoded.take valid

/-- One byte of the text. A byte that is neither a symbol nor white space is a `domain_error` with this text. -/
def b64decode (s : Stream) (c : Byte) : Except String Stream :=
  if 64 < unbase c then
    if isSpace c then .ok s
    else .error ("invalid base64 character code " ++ toString c.toNat)
  else
    match s.input with
    | [i0, i1, i2] => .ok { sout := s.sout ++ decodeAtom i0 i1 i2 c }
    | input => .ok { s with input := input ++ [c] }

def decodeBase64 (input : List Byte) : Except String (List Byte) := do
  let s ← input.foldlM b64decode {}
  return s.sout

/-! ## Atoms -/

theorem unbase_symbol {value : Nat} (h : value < 64) : unbase (symbol value) = value := by
  decide +revert

theorem symbol_ne_pad {value : Nat} (h : value < 64) : symbol value ≠ pad := by
  decide +revert

theorem unbase_pad : unbase pad = 0 := by decide

theorem and_63 (n : Nat) : n &&& 0x3f = n % 64 := Nat.and_two_pow_sub_one_eq_mod n 6

theorem and_255 (n : Nat) : n &&& 0xff = n % 256 := Nat.and_two_pow_sub_one_eq_mod n 8

theorem shiftLeft_or {a b : Nat} (n : Nat) (h : b < 2 ^ n) : (a <<< n) ||| b = a * 2 ^ n + b := by
  rw [← Nat.shiftLeft_add_eq_or_of_lt h, Nat.shiftLeft_eq]

variable {i0 i1 i2 i3 : Byte} {out : List Byte}

/-- The bytes of an atom by the values of its symbols. -/
theorem decodeAtom_eq (h1 : unbase i1 < 64) (h2 : unbase i2 < 64) (h3 : unbase i3 < 64) :
    decodeAtom i0 i1 i2 i3 = List.take (if i2 = pad then 1 else if i3 = pad then 2 else 3)
      [BitVec.ofNat 8 (unbase i0 * 4 + unbase i1 / 16), BitVec.ofNat 8 (unbase i1 % 16 * 16 + unbase i2 / 4),
        BitVec.ofNat 8 (unbase i2 % 4 * 64 + unbase i3)] := by
  simp only [decodeAtom, shiftLeft_or 6 h1, shiftLeft_or 6 h2, shiftLeft_or 6 h3, Nat.shiftRight_eq_div_pow, and_255]
  have e0 : (((unbase i0 * 2 ^ 6 + unbase i1) * 2 ^ 6 + unbase i2) * 2 ^ 6 + unbase i3) / 2 ^ 8 / 2 ^ 8 =
      unbase i0 * 4 + unbase i1 / 16 := by omega
  have e1 : (((unbase i0 * 2 ^ 6 + unbase i1) * 2 ^ 6 + unbase i2) * 2 ^ 6 + unbase i3) / 2 ^ 8 % 256 =
      unbase i1 % 16 * 16 + unbase i2 / 4 := by omega
  have e2 : (((unbase i0 * 2 ^ 6 + unbase i1) * 2 ^ 6 + unbase i2) * 2 ^ 6 + unbase i3) % 256 =
      unbase i2 % 4 * 64 + unbase i3 := by omega
  rw [e0, e1, e2]

/-- Four symbols complete an atom. -/
theorem foldlM_atom (h0 : unbase i0 < 64) (h1 : unbase i1 < 64) (h2 : unbase i2 < 64) (h3 : unbase i3 < 64) :
    [i0, i1, i2, i3].foldlM b64decode { sout := out } = .ok { sout := out ++ decodeAtom i0 i1 i2 i3 } := by
  simp [b64decode, Nat.not_lt.mpr, h0.le, h1.le, h2.le, h3.le, bind, Except.bind, pure, Except.pure]

theorem encodeAtom_eq (a b c : Byte) : encodeAtom a b c =
    [symbol (a.toNat / 4), symbol (a.toNat % 4 * 16 + b.toNat / 16), symbol (b.toNat % 16 * 4 + c.toNat / 64),
      symbol (c.toNat % 64)] := by
  simp only [encodeAtom, Nat.shiftLeft_eq, Nat.shiftRight_eq_div_pow, and_63, List.cons.injEq, and_true]
  refine ⟨congrArg symbol ?_, congrArg symbol ?_, congrArg symbol ?_, congrArg symbol ?_⟩ <;> omega

theorem b64pad_one (a : Byte) : b64pad [a] = [symbol (a.toNat / 4), symbol (a.toNat % 4 * 16), pad, pad] := by
  simp only [b64pad, Nat.shiftLeft_eq, Nat.shiftRight_eq_div_pow, and_63, List.cons.injEq, and_true]
  refine ⟨congrArg symbol ?_, congrArg symbol ?_⟩ <;> omega

theorem b64pad_two (a b : Byte) : b64pad [a, b] =
    [symbol (a.toNat / 4), symbol (a.toNat % 4 * 16 + b.toNat / 16), symbol (b.toNat % 16 * 4), pad] := by
  simp only [b64pad, shiftLeft_or 8 b.isLt]
  simp only [Nat.shiftLeft_eq, Nat.shiftRight_eq_div_pow, and_63, List.cons.injEq, and_true]
  refine ⟨congrArg symbol ?_, congrArg symbol ?_, congrArg symbol ?_⟩ <;> omega

/-- The text of three bytes is decoded to them. -/
theorem foldlM_encodeAtom (a b c : Byte) :
    (encodeAtom a b c).foldlM b64decode { sout := out } = .ok { sout := out ++ [a, b, c] } := by
  have h0 : a.toNat / 4 < 64 := by omega
  have h1 : a.toNat % 4 * 16 + b.toNat / 16 < 64 := by omega
  have h2 : b.toNat % 16 * 4 + c.toNat / 64 < 64 := by omega
  have h3 : c.toNat % 64 < 64 := by omega
  rw [encodeAtom_eq, foldlM_atom, decodeAtom_eq] <;> simp only [unbase_symbol, *, symbol_ne_pad, if_false, List.take]
  have e0 : a.toNat / 4 * 4 + (a.toNat % 4 * 16 + b.toNat / 16) / 16 = a.toNat := by omega
  have e1 : (a.toNat % 4 * 16 + b.toNat / 16) % 16 * 16 + (b.toNat % 16 * 4 + c.toNat / 64) / 4 = b.toNat := by omega
  have e2 : (b.toNat % 16 * 4 + c.toNat / 64) % 4 * 64 + c.toNat % 64 = c.toNat := by omega
  simp only [e0, e1, e2, BitVec.ofNat_toNat, BitVec.setWidth_eq]

theorem foldlM_b64pad_one (a : Byte) :
    (b64pad [a]).foldlM b64decode { sout := out } = .ok { sout := out ++ [a] } := by
  have h0 : a.toNat / 4 < 64 := by omega
  have h1 : a.toNat % 4 * 16 < 64 := by omega
  rw [b64pad_one, foldlM_atom, decodeAtom_eq] <;>
    simp only [unbase_symbol, unbase_pad, *, if_true, List.take, Nat.zero_lt_succ]
  have e0 : a.toNat / 4 * 4 + a.toNat % 4 * 16 / 16 = a.toNat := by omega
  simp only [e0, BitVec.ofNat_toNat, BitVec.setWidth_eq]

theorem foldlM_b64pad_two (a b : Byte) :
    (b64pad [a, b]).foldlM b64decode { sout := out } = .ok { sout := out ++ [a, b] } := by
  have h0 : a.toNat / 4 < 64 := by omega
  have h1 : a.toNat % 4 * 16 + b.toNat / 16 < 64 := by omega
  have h2 : b.toNat % 16 * 4 < 64 := by omega
  rw [b64pad_two, foldlM_atom, decodeAtom_eq] <;>
    simp only [unbase_symbol, unbase_pad, *, symbol_ne_pad, if_true, if_false, List.take, Nat.zero_lt_succ]
  have e0 : a.toNat / 4 * 4 + (a.toNat % 4 * 16 + b.toNat / 16) / 16 = a.toNat := by omega
  have e1 : (a.toNat % 4 * 16 + b.toNat / 16) % 16 * 16 + b.toNat % 16 * 4 / 4 = b.toNat := by omega
  simp only [e0, e1, BitVec.ofNat_toNat, BitVec.setWidth_eq]

/-! ## The round trip -/

theorem b64encode_append (input out sout : List Byte) (c : Byte) :
    b64encode ⟨input, out ++ sout⟩ c =
      ⟨(b64encode ⟨input, sout⟩ c).input, out ++ (b64encode ⟨input, sout⟩ c).sout⟩ := by
  rcases input with _ | ⟨i0, _ | ⟨i1, _ | ⟨i2, input⟩⟩⟩ <;> simp [b64encode]

theorem foldl_b64encode_append (out : List Byte) (b : List Byte) (s : Stream) :
    b.foldl b64encode ⟨s.input, out ++ s.sout⟩ =
      ⟨(b.foldl b64encode s).input, out ++ (b.foldl b64encode s).sout⟩ := by
  induction b generalizing s with
  | nil => rfl
  | cons c b ih => rw [List.foldl_cons, b64encode_append, ih, List.foldl_cons]

theorem encodeBase64_cons (a b c : Byte) (rest : List Byte) :
    encodeBase64 (a :: b :: c :: rest) = encodeAtom a b c ++ encodeBase64 rest := by
  have h := foldl_b64encode_append (encodeAtom a b c) rest {}
  rw [List.append_nil] at h
  simp [encodeBase64, b64encode, h]

/-- The text of a byte string is decoded to it, whatever was decoded before. -/
theorem foldlM_encodeBase64 : ∀ b out : List Byte,
    (encodeBase64 b).foldlM b64decode { sout := out } = .ok { sout := out ++ b }
  | [], out => by simp [encodeBase64, b64pad, pure, Except.pure]
  | [a], out => foldlM_b64pad_one a
  | [a, b], out => foldlM_b64pad_two a b
  | a :: b :: c :: rest, out => by
    rw [encodeBase64_cons, List.foldlM_append, foldlM_encodeAtom]
    exact (foldlM_encodeBase64 rest _).trans (by simp)

/-- The text `t` with white space inserted. -/
inductive Spaced : List Byte → List Byte → Prop
  | nil : Spaced [] []
  | symbol (c : Byte) {t s : List Byte} (h : Spaced t s) : Spaced (c :: t) (c :: s)
  | space {c : Byte} {t s : List Byte} (hc : isSpace c) (h : Spaced t s) : Spaced t (c :: s)

theorem b64decode_space {s : Stream} {c : Byte} (hc : isSpace c) : b64decode s c = .ok s := by
  have h : 64 < unbase c := by decide +revert
  rw [b64decode, if_pos h, if_pos hc]

theorem foldlM_of_spaced {t s : List Byte} (h : Spaced t s) (st : Stream) :
    s.foldlM b64decode st = t.foldlM b64decode st := by
  induction h generalizing st with
  | nil => rfl
  | symbol c _ ih => simp [ih]
  | space hc _ ih => rw [List.foldlM_cons, b64decode_space hc]; exact ih st

/-- White space in the text of a byte string does not matter: it is decoded to the byte string. -/
theorem decodeBase64_of_spaced {b s : List Byte} (h : Spaced (encodeBase64 b) s) : decodeBase64 s = .ok b := by
  rw [decodeBase64, foldlM_of_spaced h, foldlM_encodeBase64]
  rfl

theorem decodeBase64_spaced_text : decodeBase64 [0x54, 0x0a, 0x57, 0x45, 0x20, 0x3d] = .ok [0x4d, 0x61] :=
  decodeBase64_of_spaced <| .symbol _ <| .space rfl <| .symbol _ <| .symbol _ <| .space rfl <| .symbol _ .nil

/-! ## Strictness -/

/-- The text is the padded encoding of what it is decoded to: it has whole atoms, its padding is at the end, and no
symbol is lost. -/
structure Strict (t out : List Byte) : Prop where
  length : t.length % 4 = 0
  padding : ∃ body n, t = body ++ List.replicate n pad ∧ pad ∉ body
  lossless : encodeBase64 out = t

/-- The texts of whole atoms. The last one may end with padding, and then has no bits behind its last byte. -/
inductive Padded : List Byte → Prop
  | nil : Padded []
  | one {v0 v1 : Nat} (h0 : v0 < 64) (h1 : v1 < 4) : Padded [symbol v0, symbol (v1 * 16), pad, pad]
  | two {v0 v1 v2 : Nat} (h0 : v0 < 64) (h1 : v1 < 64) (h2 : v2 < 16) :
    Padded [symbol v0, symbol v1, symbol (v2 * 4), pad]
  | atom {v0 v1 v2 v3 : Nat} {t : List Byte} (h0 : v0 < 64) (h1 : v1 < 64) (h2 : v2 < 64) (h3 : v3 < 64)
    (ht : Padded t) : Padded ([symbol v0, symbol v1, symbol v2, symbol v3] ++ t)

theorem padded_encodeBase64 : ∀ b : List Byte, Padded (encodeBase64 b)
  | [] => .nil
  | [a] => by
    rw [show encodeBase64 [a] = _ from b64pad_one a]
    exact .one (by omega) (by omega)
  | [a, b] => by
    rw [show encodeBase64 [a, b] = _ from b64pad_two a b]
    exact .two (by omega) (by omega) (by omega)
  | a :: b :: c :: rest => by
    rw [encodeBase64_cons, encodeAtom_eq]
    exact .atom (by omega) (by omega) (by omega) (by omega) (padded_encodeBase64 rest)

theorem pad_ne_symbol {value : Nat} (h : value < 64) : pad ≠ symbol value := (symbol_ne_pad h).symm

theorem exists_byte {n : Nat} (h : n < 256) : ∃ a : Byte, a.toNat = n := ⟨BitVec.ofNat 8 n, Nat.mod_eq_of_lt h⟩

theorem Padded.strict {t : List Byte} (h : Padded t) : ∃ b, Strict t b := by
  induction h with
  | nil => exact ⟨[], rfl, ⟨[], 0, rfl, List.not_mem_nil⟩, rfl⟩
  | @one v0 v1 h0 h1 =>
    obtain ⟨a, ha⟩ := exists_byte (show v0 * 4 + v1 < 256 by omega)
    have h16 : v1 * 16 < 64 := by omega
    refine ⟨[a], by simp, ⟨[symbol v0, symbol (v1 * 16)], 2, rfl, by simp [pad_ne_symbol, *]⟩, (b64pad_one a).trans ?_⟩
    rw [show a.toNat / 4 = v0 by omega, show a.toNat % 4 = v1 by omega]
  | @two v0 v1 v2 h0 h1 h2 =>
    obtain ⟨a, ha⟩ := exists_byte (show v0 * 4 + v1 / 16 < 256 by omega)
    obtain ⟨b, hb⟩ := exists_byte (show v1 % 16 * 16 + v2 < 256 by omega)
    have h4 : v2 * 4 < 64 := by omega
    refine ⟨[a, b], by simp, ⟨[symbol v0, symbol v1, symbol (v2 * 4)], 1, rfl, by simp [pad_ne_symbol, *]⟩,
      (b64pad_two a b).trans ?_⟩
    rw [show a.toNat / 4 = v0 by omega, show a.toNat % 4 * 16 + b.toNat / 16 = v1 by omega,
      show b.toNat % 16 = v2 by omega]
  | @atom v0 v1 v2 v3 t h0 h1 h2 h3 _ ih =>
    obtain ⟨rest, hlen, ⟨body, n, hbody, hpad⟩, hrest⟩ := ih
    obtain ⟨a, ha⟩ := exists_byte (show v0 * 4 + v1 / 16 < 256 by omega)
    obtain ⟨b, hb⟩ := exists_byte (show v1 % 16 * 16 + v2 / 4 < 256 by omega)
    obtain ⟨c, hc⟩ := exists_byte (show v2 % 4 * 64 + v3 < 256 by omega)
    refine ⟨a :: b :: c :: rest, (Nat.add_mod_right ..).trans hlen,
      ⟨[symbol v0, symbol v1, symbol v2, symbol v3] ++ body, n, by rw [hbody, List.append_assoc], ?_⟩, ?_⟩
    · simp [hpad, pad_ne_symbol, h0, h1, h2, h3]
    · rw [encodeBase64_cons, encodeAtom_eq, hrest, show a.toNat / 4 = v0 by omega,
        show a.toNat % 4 * 16 + b.toNat / 16 = v1 by omega, show b.toNat % 16 * 4 + c.toNat / 64 = v2 by omega,
        show c.toNat % 64 = v3 by omega]

/-- A byte that is no symbol, no padding and no white space. -/
def Foreign (c : Byte) : Prop := c ∉ b64base ∧ c ≠ pad ∧ ¬ isSpace c

theorem mem_b64base_or_pad (c : Byte) (h : unbase c ≤ 64) : c ∈ b64base ∨ c = pad := by
  have hc : ∀ c, unbase c ≤ 64 → b64base[unbase c]? = some c ∨ c = pad := by decide +kernel
  exact (hc c h).imp_left List.mem_of_getElem?

theorem unbase_of_mem {c : Byte} (h : c ∈ b64base) : unbase c ≤ 64 := by
  obtain ⟨value, hlt, rfl⟩ := List.mem_iff_getElem.mp h
  have hsymbol : b64base[value] = symbol value := by simp [symbol, hlt]
  rw [hsymbol, unbase_symbol hlt]
  exact Nat.le_of_lt hlt

theorem foreign_iff (c : Byte) : Foreign c ↔ 64 < unbase c ∧ ¬ isSpace c := by
  constructor
  · rintro ⟨hb, hp, hs⟩
    exact ⟨Nat.lt_of_not_le fun hle => (mem_b64base_or_pad c hle).elim hb hp, hs⟩
  · rintro ⟨hlt, hs⟩
    refine ⟨fun hb => Nat.not_lt.mpr (unbase_of_mem hb) hlt, fun hp => ?_, hs⟩
    rw [hp, unbase_pad] at hlt
    exact absurd hlt (by decide)

theorem b64decode_ok_iff {s : Stream} {c : Byte} : (∃ s', b64decode s c = .ok s') ↔ ¬ Foreign c := by
  rw [foreign_iff, b64decode]
  split
  next h =>
    by_cases hc : isSpace c <;> simp [h, hc]
  next h =>
    refine iff_of_true ?_ fun hf => h hf.1
    split <;> exact ⟨_, rfl⟩

/-- A text is accepted exactly if each of its bytes is. -/
theorem foldlM_ok_iff {t : List Byte} {s : Stream} :
    (∃ s', t.foldlM b64decode s = .ok s') ↔ ∀ c ∈ t, ¬ Foreign c := by
  induction t generalizing s with
  | nil => simp [pure, Except.pure]
  | cons c t ih =>
    rw [List.forall_mem_cons, List.foldlM_cons, ← b64decode_ok_iff (s := s)]
    cases hc : b64decode s c with
    | error e => simp [bind, Except.bind]
    | ok s' => simpa [bind, Except.bind] using ih

theorem decodeBase64_ok_iff {t : List Byte} : (∃ out, decodeBase64 t = .ok out) ↔ ∀ c ∈ t, ¬ Foreign c := by
  rw [← foldlM_ok_iff (s := {}), decodeBase64]
  cases t.foldlM b64decode {} with
  | error e => simp [bind, Except.bind]
  | ok s => simp [bind, Except.bind, pure, Except.pure]

/-- What the decoder accepts is the encoding of what it is decoded to exactly if the text has a byte that is rejected,
or is made of atoms and padding as it should be. -/
theorem strict_iff_padded (t : List Byte) :
    (∀ out, decodeBase64 t = .ok out → Strict t out) ↔ (∃ c ∈ t, Foreign c) ∨ Padded t := by
  constructor
  · intro h
    by_cases hf : ∃ c ∈ t, Foreign c
    · exact .inl hf
    · obtain ⟨out, hout⟩ := decodeBase64_ok_iff.mpr fun c hc hfc => hf ⟨c, hc, hfc⟩
      rw [← (h out hout).lossless]
      exact .inr (padded_encodeBase64 out)
  · rintro (⟨c, hc, hf⟩ | hp) out hout
    · exact absurd hf (decodeBase64_ok_iff.mp ⟨out, hout⟩ c hc)
    · obtain ⟨b, hb⟩ := hp.strict
      have hb' : decodeBase64 t = .ok b := by
        rw [decodeBase64, ← hb.lossless, foldlM_encodeBase64]
        rfl
      cases hb'.symm.trans hout
      exact hb

/-- A symbol that does not complete an atom is dropped, and padding in front counts as zero. -/
theorem decodeBase64_lenient : decodeBase64 [0x41] = .ok [] ∧ ¬ Strict [0x41] [] ∧
    decodeBase64 [0x3d, 0x41, 0x41, 0x41] = .ok [0, 0, 0] ∧ ¬ Strict [0x3d, 0x41, 0x41, 0x41] [0, 0, 0] :=
  ⟨rfl, fun h => absurd h.length (by decide), rfl, fun h => absurd h.lossless (by decide)⟩

end MachineEmulator.Base64
