import MachineEmulator.Lib.Bytes

/-!
# Messages of the domain name system

* `nameAt` : the name at an offset of a message, which can end with a pointer to an earlier name;
* `parseQuestions`, `parseRecords` : the questions and the records at an offset;
* `parseMessage` : the whole message, which has as many questions and records as its header says.

`nameAt_congr` and `parseQuestions_congr` say that what is parsed depends on the bytes between the header and its end.
-/

namespace Dns

open BitVec List Option Nat

/-- The labels of a name, without the root label. -/
abbrev Name := List (List Byte)

/-- A question, and whether its name ends with a pointer. -/
structure Question where
  name : Name
  compressed : Bool
  qtype : BitVec 16
  qclass : BitVec 16
  deriving DecidableEq, Repr

structure Record where
  name : Name
  rtype : BitVec 16
  rclass : BitVec 16
  ttl : BitVec 32
  rdata : List Byte
  deriving DecidableEq, Repr

structure Message where
  id : BitVec 16
  flags : BitVec 16
  questions : List Question
  answers : List Record
  authority : List Record
  additional : List Record
  deriving DecidableEq, Repr

/-! ## Parsing -/

/-- A number of 16 bits in network order. -/
def word16 (hi lo : Byte) : BitVec 16 := BitVec.ofNat 16 (hi.toNat * 256 + lo.toNat)

def word32 (b3 b2 b1 b0 : Byte) : BitVec 32 :=
  BitVec.ofNat 32 (((b3.toNat * 256 + b2.toNat) * 256 + b1.toNat) * 256 + b0.toNat)

def encode16 (v : BitVec 16) : List Byte := [BitVec.ofNat 8 (v.toNat / 256), BitVec.ofNat 8 v.toNat]

/-- The offset in the two bytes of a pointer. -/
def pointerTarget (hi lo : Byte) : Nat := (hi.toNat - 192) * 256 + lo.toNat

/-- The rest of a name that starts at `start`: its labels, whether it ends with a pointer, and the offset after it. The
pointer stands for a name between the header and `start`. -/
def nameAt : Nat → List Byte → Nat → Nat → Option (Name × Bool × Nat)
  | 0, _, _, _ => none
  | fuel + 1, msg, start, pos =>
    match msg[pos]? with
    | none => none
    | some l =>
      if l = 0 then some ([], false, pos + 1)
      else if l.toNat < 64 then
        (nameAt fuel msg start (pos + 1 + l.toNat)).map fun r => ((msg.drop (pos + 1)).take l.toNat :: r.1, r.2)
      else if l.toNat < 192 then none
      else
        match msg[pos + 1]? with
        | none => none
        | some lo =>
          if pointerTarget l lo < 12 then none
          else (nameAt fuel (msg.take start) (pointerTarget l lo) (pointerTarget l lo)).map
            fun r => (r.1, true, pos + 2)

/-- The number of bytes of a name that is written out. -/
def nameLength (name : Name) : Nat := (name.map fun label => label.length + 1).sum + 1

/-- The name at an offset. It has at most 255 bytes. -/
def resolveName (msg : List Byte) (pos : Nat) : Option (Name × Bool × Nat) :=
  (nameAt msg.length msg pos pos).filter fun r => nameLength r.1 ≤ 255

def parseQuestion (msg : List Byte) (pos : Nat) : Option (Question × Nat) :=
  match resolveName msg pos with
  | none => none
  | some (name, compressed, p) =>
    match (msg.drop p).take 4 with
    | [t1, t0, c1, c0] => some (⟨name, compressed, word16 t1 t0, word16 c1 c0⟩, p + 4)
    | _ => none

def parseQuestions (msg : List Byte) : Nat → Nat → Option (List Question × Nat)
  | 0, pos => some ([], pos)
  | n + 1, pos =>
    match parseQuestion msg pos with
    | none => none
    | some (q, p) => (parseQuestions msg n p).map fun r => (q :: r.1, r.2)

def parseRecord (msg : List Byte) (pos : Nat) : Option (Record × Nat) :=
  match resolveName msg pos with
  | none => none
  | some (name, _, p) =>
    match (msg.drop p).take 10 with
    | [t1, t0, c1, c0, s3, s2, s1, s0, n1, n0] =>
      let rdlength := (word16 n1 n0).toNat
      if p + 10 + rdlength ≤ msg.length then
        some (⟨name, word16 t1 t0, word16 c1 c0, word32 s3 s2 s1 s0, (msg.drop (p + 10)).take rdlength⟩,
          p + 10 + rdlength)
      else none
    | _ => none

def parseRecords (msg : List Byte) : Nat → Nat → Option (List Record × Nat)
  | 0, pos => some ([], pos)
  | n + 1, pos =>
    match parseRecord msg pos with
    | none => none
    | some (r, p) => (parseRecords msg n p).map fun rs => (r :: rs.1, rs.2)

/-- The message, if nothing is left after it. -/
def parseMessage (msg : List Byte) : Option Message :=
  match msg with
  | i1 :: i0 :: f1 :: f0 :: q1 :: q0 :: a1 :: a0 :: n1 :: n0 :: r1 :: r0 :: _ => do
    let (questions, p) ← parseQuestions msg (word16 q1 q0).toNat 12
    let (answers, p) ← parseRecords msg (word16 a1 a0).toNat p
    let (authority, p) ← parseRecords msg (word16 n1 n0).toNat p
    let (additional, p) ← parseRecords msg (word16 r1 r0).toNat p
    if p = msg.length then some ⟨word16 i1 i0, word16 f1 f0, questions, answers, authority, additional⟩ else none
  | _ => none

theorem word16_encode16 (v : BitVec 16) : word16 (BitVec.ofNat 8 (v.toNat / 256)) (BitVec.ofNat 8 v.toNat) = v := by
  apply eq_of_toNat_eq
  rw [word16, toNat_ofNat, toNat_ofNat, toNat_ofNat]
  omega

/-! ## Names -/

variable {msg msg' : List Byte} {fuel fuel' start pos p : Nat} {name : Name} {compressed : Bool}

theorem nameAt_root (hb : msg[pos]? = some 0) : nameAt (fuel + 1) msg start pos = some ([], false, pos + 1) := by
  rw [nameAt, hb]
  rfl

theorem nameAt_label {l : Byte} (hb : msg[pos]? = some l) (h0 : l ≠ 0) (h64 : l.toNat < 64) :
    nameAt (fuel + 1) msg start pos = (nameAt fuel msg start (pos + 1 + l.toNat)).map fun r =>
      ((msg.drop (pos + 1)).take l.toNat :: r.1, r.2) := by
  rw [nameAt, hb]
  dsimp only
  rw [if_neg h0, if_pos h64]

theorem nameAt_pointer {l lo : Byte} (hb : msg[pos]? = some l) (h192 : 192 ≤ l.toNat) (hlo : msg[pos + 1]? = some lo)
    (h12 : 12 ≤ pointerTarget l lo) :
    nameAt (fuel + 1) msg start pos =
      (nameAt fuel (msg.take start) (pointerTarget l lo) (pointerTarget l lo)).map fun r =>
      (r.1, true, pos + 2) := by
  have h0 : l ≠ 0 := by
    rintro rfl
    exact absurd h192 (by decide)
  rw [nameAt, hb]
  dsimp only
  rw [if_neg h0, if_neg (by omega), if_neg (by omega), hlo]
  dsimp only
  rw [if_neg (by omega)]

/-- The three ways a name goes on. -/
theorem nameAt_cases (h : nameAt (fuel + 1) msg start pos = some (name, compressed, p)) :
    (msg[pos]? = some 0 ∧ name = [] ∧ compressed = false ∧ p = pos + 1) ∨
    (∃ l name', msg[pos]? = some l ∧ l ≠ 0 ∧ l.toNat < 64 ∧
      nameAt fuel msg start (pos + 1 + l.toNat) = some (name', compressed, p) ∧
      name = (msg.drop (pos + 1)).take l.toNat :: name') ∨
    ∃ l lo c p', msg[pos]? = some l ∧ 192 ≤ l.toNat ∧ msg[pos + 1]? = some lo ∧ 12 ≤ pointerTarget l lo ∧
      nameAt fuel (msg.take start) (pointerTarget l lo) (pointerTarget l lo) = some (name, c, p') ∧
      compressed = true ∧ p = pos + 2 := by
  rw [nameAt] at h
  cases hb : msg[pos]? with
  | none =>
    rw [hb] at h
    cases h
  | some l =>
    rw [hb] at h
    dsimp only at h
    split at h
    next h0 =>
      obtain ⟨rfl, rfl, rfl⟩ := by simpa using h
      exact .inl ⟨by rw [h0], rfl, rfl, rfl⟩
    next h0 =>
      split at h
      next h64 =>
        obtain ⟨⟨name', r⟩, hr, he⟩ := map_eq_some_iff.mp h
        obtain ⟨rfl, rfl⟩ := Prod.mk.inj he
        exact .inr (.inl ⟨l, name', rfl, h0, h64, hr, rfl⟩)
      next h64 =>
        split at h
        next => cases h
        next h192 =>
          cases hlo : msg[pos + 1]? with
          | none =>
            rw [hlo] at h
            cases h
          | some lo =>
            rw [hlo] at h
            dsimp only at h
            split at h
            next => cases h
            next h12 =>
              obtain ⟨⟨name', c, p'⟩, hr, he⟩ := map_eq_some_iff.mp h
              obtain ⟨rfl, rfl, rfl⟩ := by simpa using he
              exact .inr (.inr ⟨l, lo, c, p', rfl, by omega, rfl, by omega, hr, rfl, rfl⟩)

/-- A name is inside its message. -/
theorem nameAt_bounds (h : nameAt fuel msg start pos = some (name, compressed, p)) : pos < p ∧ p ≤ msg.length := by
  induction fuel generalizing pos name with
  | zero => cases h
  | succ fuel ih =>
    obtain ⟨hb, -, -, rfl⟩ | ⟨l, name', -, -, -, hr, -⟩ | ⟨l, lo, -, -, -, -, hlo, -, -, -, rfl⟩ := nameAt_cases h
    · exact ⟨Nat.lt_succ_self _, (List.getElem?_eq_some_iff.mp hb).1⟩
    · have := ih hr
      omega
    · exact ⟨by omega, (List.getElem?_eq_some_iff.mp hlo).1⟩

/-- Two messages have the same bytes between their headers and an offset. -/
def AgreeTo (msg msg' : List Byte) (p : Nat) : Prop := ∀ i, 12 ≤ i → i < p → msg[i]? = msg'[i]?

theorem AgreeTo.mono {p' : Nat} (h : AgreeTo msg msg' p) (hle : p' ≤ p) : AgreeTo msg msg' p' :=
  fun i hi hlt => h i hi (Nat.lt_of_lt_of_le hlt hle)

theorem AgreeTo.take_drop (h : AgreeTo msg msg' p) {k : Nat} (hpos : 12 ≤ pos) (hle : pos + k ≤ p) :
    (msg.drop pos).take k = (msg'.drop pos).take k := by
  refine List.ext_getElem? fun i => ?_
  rw [getElem?_take, getElem?_take]
  split
  next hi => rw [getElem?_drop, getElem?_drop, h (pos + i) (by omega) (by omega)]
  next => rfl

/-- A name depends on the bytes between the header and its end. -/
theorem nameAt_congr (h : nameAt fuel msg start pos = some (name, compressed, p)) (h12 : 12 ≤ start)
    (hstart : start ≤ pos) (hagree : AgreeTo msg msg' p) (hfuel : p + start ≤ fuel' + pos) :
    nameAt fuel' msg' start pos = some (name, compressed, p) := by
  induction fuel generalizing fuel' msg msg' start pos name compressed p with
  | zero => cases h
  | succ fuel ih =>
    have hp := (nameAt_bounds h).1
    obtain ⟨fuel', rfl⟩ := exists_eq_add_one_of_ne_zero (show fuel' ≠ 0 by omega)
    have hpos := hagree pos (by omega) hp
    obtain ⟨hb, rfl, rfl, rfl⟩ | ⟨l, name', hb, h0, h64, hr, rfl⟩ |
      ⟨l, lo, c, p', hb, h192, hlo, h12', hr, rfl, rfl⟩ := nameAt_cases h
    · exact nameAt_root (hpos ▸ hb)
    · have hp' := (nameAt_bounds hr).1
      rw [nameAt_label (hpos ▸ hb) h0 h64, ih hr h12 (by omega) hagree (by omega),
        hagree.take_drop (by omega) (by omega)]
      rfl
    · have hp' := (nameAt_bounds hr).2
      rw [length_take] at hp'
      have hagree' : AgreeTo (msg.take start) (msg'.take start) p' := by
        intro i hi hlt
        rw [getElem?_take, getElem?_take, hagree i hi (by omega)]
      rw [nameAt_pointer (hpos ▸ hb) h192 (hagree (pos + 1) (by omega) (by omega) ▸ hlo) h12',
        ih hr h12' (Nat.le_refl _) hagree' (by omega)]
      rfl

theorem resolveName_iff : resolveName msg pos = some (name, compressed, p) ↔
    nameAt msg.length msg pos pos = some (name, compressed, p) ∧ nameLength name ≤ 255 := by
  rw [resolveName, filter_eq_some_iff, decide_eq_true_iff]

/-! ## Questions -/

theorem parseQuestion_iff {q : Question} : parseQuestion msg pos = some (q, p) ↔
    ∃ p', resolveName msg pos = some (q.name, q.compressed, p') ∧ p = p' + 4 ∧ ∃ t1 t0 c1 c0,
      (msg.drop p').take 4 = [t1, t0, c1, c0] ∧ q.qtype = word16 t1 t0 ∧ q.qclass = word16 c1 c0 := by
  unfold parseQuestion
  constructor
  · intro h
    split at h
    next => cases h
    next name compressed p' hn =>
      split at h
      next t1 t0 c1 c0 hf =>
        obtain ⟨rfl, rfl⟩ := Prod.mk.inj (some.inj h)
        exact ⟨p', hn, rfl, t1, t0, c1, c0, hf, rfl, rfl⟩
      next => cases h
  · rintro ⟨p', hn, rfl, t1, t0, c1, c0, hf, ht, hc⟩
    rw [hn]
    dsimp only
    rw [hf]
    dsimp only
    rw [← ht, ← hc]

theorem parseQuestion_bounds {q : Question} (h : parseQuestion msg pos = some (q, p)) : pos < p ∧ p ≤ msg.length := by
  obtain ⟨p', hn, rfl, t1, t0, c1, c0, hf, -, -⟩ := parseQuestion_iff.mp h
  have hp := nameAt_bounds (resolveName_iff.mp hn).1
  have hlen := congrArg length hf
  rw [length_take, length_drop] at hlen
  change min 4 _ = 4 at hlen
  omega

theorem parseQuestion_congr {q : Question} (h : parseQuestion msg pos = some (q, p)) (h12 : 12 ≤ pos)
    (hagree : AgreeTo msg msg' p) (hle : p ≤ msg'.length) : parseQuestion msg' pos = some (q, p) := by
  obtain ⟨p', hn, rfl, t1, t0, c1, c0, hf, ht, hc⟩ := parseQuestion_iff.mp h
  obtain ⟨hn, hl⟩ := resolveName_iff.mp hn
  have hp := (nameAt_bounds hn).1
  refine parseQuestion_iff.mpr ⟨p', resolveName_iff.mpr ⟨?_, hl⟩, rfl, t1, t0, c1, c0, ?_, ht, hc⟩
  · exact nameAt_congr hn h12 (Nat.le_refl _) (hagree.mono (by omega)) (by omega)
  · rw [← hagree.take_drop (by omega) (Nat.le_refl _), hf]

variable {n : Nat} {qs : List Question}

theorem parseQuestions_succ_iff : parseQuestions msg (n + 1) pos = some (qs, p) ↔
    ∃ q p' qs', parseQuestion msg pos = some (q, p') ∧ parseQuestions msg n p' = some (qs', p) ∧ qs = q :: qs' := by
  rw [parseQuestions]
  cases hq : parseQuestion msg pos with
  | none => simp
  | some r =>
    obtain ⟨q, p'⟩ := r
    dsimp only
    rw [map_eq_some_iff]
    constructor
    · rintro ⟨⟨qs', p⟩, hr, he⟩
      obtain ⟨rfl, rfl⟩ := Prod.mk.inj he
      exact ⟨q, p', qs', rfl, hr, rfl⟩
    · rintro ⟨q, p', qs', hq, hr, rfl⟩
      obtain ⟨rfl, rfl⟩ := Prod.mk.inj (some.inj hq)
      exact ⟨(qs', p), hr, rfl⟩

theorem le_parseQuestions (h : parseQuestions msg n pos = some (qs, p)) : pos ≤ p ∧ qs.length = n := by
  induction n generalizing pos qs with
  | zero =>
    obtain ⟨rfl, rfl⟩ := Prod.mk.inj (some.inj h)
    exact ⟨Nat.le_refl _, rfl⟩
  | succ n ih =>
    obtain ⟨q, p', qs', hq, hr, rfl⟩ := parseQuestions_succ_iff.mp h
    have := (parseQuestion_bounds hq).1
    obtain ⟨hle, hlen⟩ := ih hr
    exact ⟨by omega, by rw [length_cons, hlen]⟩

/-- Questions depend on the bytes between the header and their end. -/
theorem parseQuestions_congr (h : parseQuestions msg n pos = some (qs, p)) (h12 : 12 ≤ pos)
    (hagree : AgreeTo msg msg' p) (hle : p ≤ msg'.length) : parseQuestions msg' n pos = some (qs, p) := by
  induction n generalizing pos qs with
  | zero => exact h
  | succ n ih =>
    obtain ⟨q, p', qs', hq, hr, rfl⟩ := parseQuestions_succ_iff.mp h
    have hp := (parseQuestion_bounds hq).1
    have hp' := (le_parseQuestions hr).1
    exact parseQuestions_succ_iff.mpr ⟨q, p', qs', parseQuestion_congr hq h12 (hagree.mono hp') (by omega),
      ih hr (by omega), rfl⟩

/-- Questions can be parsed in two parts. -/
theorem parseQuestions_append_iff {qs' : List Question} :
    parseQuestions msg (qs.length + qs'.length) pos = some (qs ++ qs', p) ↔
      ∃ p', parseQuestions msg qs.length pos = some (qs, p') ∧ parseQuestions msg qs'.length p' = some (qs', p) := by
  induction qs generalizing pos with
  | nil =>
    rw [length_nil, Nat.zero_add, nil_append]
    constructor
    · exact fun h => ⟨pos, rfl, h⟩
    · rintro ⟨p', hp, h⟩
      obtain ⟨-, rfl⟩ := Prod.mk.inj (some.inj hp)
      exact h
  | cons q qs ih =>
    rw [length_cons, Nat.add_right_comm, List.cons_append, parseQuestions_succ_iff]
    constructor
    · rintro ⟨q', p', _, hq, hr, he⟩
      obtain ⟨rfl, rfl⟩ := List.cons.inj he
      obtain ⟨p'', hr, hr'⟩ := ih.mp hr
      exact ⟨p'', parseQuestions_succ_iff.mpr ⟨q, p', qs, hq, hr, rfl⟩, hr'⟩
    · rintro ⟨p'', hr, hr'⟩
      obtain ⟨q', p', _, hq, hr, he⟩ := parseQuestions_succ_iff.mp hr
      obtain ⟨rfl, rfl⟩ := List.cons.inj he
      exact ⟨q, p', _, hq, ih.mpr ⟨p'', hr, hr'⟩, rfl⟩

/-! ## Messages -/

theorem parseMessage_iff {msg body : List Byte} {i1 i0 f1 f0 q1 q0 a1 a0 n1 n0 r1 r0 : Byte} {m : Message}
    (hmsg : msg = i1 :: i0 :: f1 :: f0 :: q1 :: q0 :: a1 :: a0 :: n1 :: n0 :: r1 :: r0 :: body) :
    parseMessage msg = some m ↔ ∃ questions p answers p' authority p'' additional,
      parseQuestions msg (word16 q1 q0).toNat 12 = some (questions, p) ∧
      parseRecords msg (word16 a1 a0).toNat p = some (answers, p') ∧
      parseRecords msg (word16 n1 n0).toNat p' = some (authority, p'') ∧
      parseRecords msg (word16 r1 r0).toNat p'' = some (additional, msg.length) ∧
      m = ⟨word16 i1 i0, word16 f1 f0, questions, answers, authority, additional⟩ := by
  subst hmsg
  simp only [parseMessage, bind_eq_bind, bind_eq_some_iff, Prod.exists, ite_none_right_eq_some,
    some_inj]
  constructor
  · rintro ⟨questions, p, hq, answers, p', ha, authority, p'', hn, additional, _, hr, rfl, rfl⟩
    exact ⟨questions, p, answers, p', authority, p'', additional, hq, ha, hn, hr, rfl⟩
  · rintro ⟨questions, p, answers, p', authority, p'', additional, hq, ha, hn, hr, rfl⟩
    exact ⟨questions, p, hq, answers, p', ha, authority, p'', hn, additional, _, hr, rfl, rfl⟩

end Dns
