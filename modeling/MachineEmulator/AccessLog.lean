import MachineEmulator.Hash
import MachineEmulator.Pma

/-!
# Access logs

* `Access` : one logged access, with the data and hashes before and after it and the sibling hashes
  on its path to the root;
* `MerkleTreeProof`, `bubbleUp` : the proof an access makes for a root, and the root it leads to;
* `checkReadAccess`, `checkWriteAccess` : the checks a replay makes on a word access. An access that
  passes against the root of an image pins the word it reads (`checkReadAccess_sound`), and leads to
  the root of the image with the word written (`checkWriteAccess_sound`);
* `imageProof`, `readAccess`, `writeAccess` : the proofs and accesses an image itself gives. They pass
  the checks.
-/

namespace MachineEmulator

open Merkle Nat

/-! ## Checks -/

def throwUnless (p : Prop) [Decidable p] (message : String) : Except String Unit :=
  if p then .ok () else .error message

theorem throwUnless_ok_iff {p : Prop} [Decidable p] {message : String} {u : Unit} :
    throwUnless p message = .ok u ↔ p := by
  unfold throwUnless
  split <;> simp_all

theorem except_map_eq_ok {ε α β : Type} {x : Except ε α} {f : α → β} {b : β} (hx : x.map f = .ok b) :
    ∃ a, x = .ok a ∧ f a = b := by
  cases x with
  | error e => cases hx
  | ok a => exact ⟨a, rfl, Except.ok.inj hx⟩

/-! ## Accesses -/

inductive AccessType where
  | read
  | write
  deriving DecidableEq, Repr

structure Access (H : Type) where
  type : AccessType
  address : Word
  log2Size : Nat
  read : Option (List Byte)
  readHash : H
  written : Option (List Byte)
  writtenHash : Option H
  siblingHashes : Option (List H)

/-- The access carries the sibling hashes of a full path, as the decoder of logs enforces. -/
def Access.FullPath {H : Type} (a : Access H) : Prop :=
  ∃ ss, a.siblingHashes = some ss ∧ ss.length = log2RootSize - max a.log2Size log2WordSize

structure MerkleTreeProof (H : Type) where
  targetAddress : Word
  log2TargetSize : Nat
  targetHash : H
  log2RootSize : Nat
  rootHash : H
  siblingHashes : List H

/-- The address of the word an address lies in. -/
def leafAligned (paddr : Word) : Word := paddr &&& ~~~31

/-- The word at an offset of the logged data. -/
def getWordAccessData (data : List Byte) (offset : Nat) : Word :=
  BitVec.ofNat 64 (ofLE ((data.drop offset).take 8))

def replaceWordAccessData (word : Word) (data : List Byte) (offset : Nat) : List Byte :=
  data.take offset ++ toLE 8 word.toNat ++ data.drop (offset + 8)

section
variable {H : Type} (h : Hasher H)

/-- The root a hash at the given level of the path to the address leads to. The machine takes the amount of a shift
modulo the width, so that the bit at a level from 64 on is one of the low bits again. -/
def bubbleUp (address : Word) : Nat → H → List H → H
  | _, hash, [] => hash
  | log2Size, hash, s :: ss =>
    bubbleUp address (log2Size + 1)
      (if address.getLsbD (log2Size % 64) then h.concat s hash else h.concat hash s) ss

def MerkleTreeProof.bubbleUp (p : MerkleTreeProof H) (newTargetHash : H) : H :=
  MachineEmulator.bubbleUp h p.targetAddress p.log2TargetSize newTargetHash p.siblingHashes

def MerkleTreeProof.verify [DecidableEq H] (p : MerkleTreeProof H) : Bool :=
  p.bubbleUp h p.targetHash = p.rootHash

def Access.makeProof (a : Access H) (rootHash : H) : Except String (MerkleTreeProof H) := do
  let proofLog2Size := max a.log2Size log2WordSize
  match a.siblingHashes with
  | none => .error "can't make proof if access doesn't have sibling hashes"
  | some siblings =>
    throwUnless (∀ d ∈ a.read, d.length = 2 ^ proofLog2Size)
      "access read data size is inconsistent with proof size"
    throwUnless (∀ d ∈ a.written, d.length = 2 ^ proofLog2Size)
      "access written data size is inconsistent with proof size"
    .ok { targetAddress := leafAligned a.address, log2TargetSize := proofLog2Size,
          targetHash := a.readHash, log2RootSize := proofLog2Size + siblings.length, rootHash,
          siblingHashes := siblings }

end

/-! ## The checks of a replay -/

/-- How error messages name the access after the first `next` ones. -/
def accessToReport (next : Nat) : String :=
  match next + 1 with
  | 1 => "1st access"
  | 2 => "2nd access"
  | 3 => "3rd access"
  | index => toString index ++ "th access"

def toHex (w : Word) : String := String.ofList (Nat.toDigits 16 w.toNat)

section
variable {H : Type} [DecidableEq H] (h : Hasher H)

/-- The checks on an access that reads a word. -/
def checkReadAccess (root : H) (next : Nat) (a : Access H) (paligned : Word) (text : String) :
    Except String Word := do
  let report := accessToReport next
  throwUnless (a.type = .read) ("expected " ++ report ++ " to read " ++ text)
  throwUnless (a.address = paligned) ("expected " ++ report ++ " to read " ++ text ++ " address 0x" ++
    toHex paligned ++ "(" ++ toString paligned.toNat ++ ")")
  throwUnless (a.log2Size = 3) ("expected " ++ report ++ " to read 2^" ++ toString log2WordSize ++
    " bytes from " ++ text)
  match a.read with
  | none => .error ("missing read " ++ text ++ " data at " ++ report)
  | some readData =>
    throwUnless (readData.length = wordSize) ("expected read " ++ text ++ " data to contain 2^" ++
      toString log2WordSize ++ " bytes at " ++ report)
    let computedReadHash ← getMerkleTreeHash h readData
    throwUnless (a.readHash = computedReadHash) ("logged read data of " ++ text ++
      " data does not hash to the logged read hash at " ++ report)
    let proof ← a.makeProof root
    throwUnless (proof.verify h) ("Mismatch in root hash of " ++ report)
    .ok (getWordAccessData readData (paligned - leafAligned paligned).toNat)

/-- The checks on an access that writes a word; the result is the new root. -/
def checkWriteAccess (root : H) (next : Nat) (a : Access H) (paligned word : Word) (text : String) :
    Except String H := do
  let report := accessToReport next
  throwUnless (a.type = .write) ("expected " ++ report ++ " to write " ++ text)
  throwUnless (a.address = paligned) ("expected " ++ report ++ " to write " ++ text ++
    " to address 0x" ++ toHex paligned ++ "(" ++ toString paligned.toNat ++ ")")
  throwUnless (a.log2Size = 3) ("expected " ++ report ++ " to write 2^" ++ toString log2WordSize ++
    " bytes to " ++ text)
  match a.read with
  | none => .error ("missing read " ++ text ++ " data at " ++ report)
  | some readData =>
    throwUnless (readData.length = wordSize) ("expected overwritten data from " ++ text ++
      " to contain 2^" ++ toString a.log2Size ++ " bytes at " ++ report)
    let computedReadHash ← getMerkleTreeHash h readData
    throwUnless (a.readHash = computedReadHash) ("logged read data of " ++ text ++
      " does not hash to the logged read hash at " ++ report)
    match a.writtenHash with
    | none => .error ("missing written " ++ text ++ " hash at " ++ report)
    | some writtenHash =>
      match a.written with
      | none => .error ("missing written " ++ text ++ " data at " ++ report)
      | some writtenData =>
        throwUnless (writtenData.length = readData.length) ("expected written " ++ text ++
          " data to contain 2^" ++ toString a.log2Size ++ " bytes at " ++ report)
        let computedWrittenHash ← getMerkleTreeHash h writtenData
        throwUnless (writtenHash = computedWrittenHash) ("logged written data of " ++ text ++
          " does not hash to the logged written hash at " ++ report)
        let wordOffset := (paligned - leafAligned paligned).toNat
        throwUnless (word = getWordAccessData writtenData wordOffset) ("value being written to " ++
          text ++ " does not match the logged written value at " ++ report)
        throwUnless (writtenData = replaceWordAccessData word readData wordOffset)
          ("logged written data of " ++ text ++ " doesn't differ from the logged read data only by " ++
            "the written word at " ++ report)
        let proof ← a.makeProof root
        throwUnless (proof.verify h) ("Mismatch in root hash of " ++ report)
        .ok (proof.bubbleUp h writtenHash)

end

/-! ## What an accepted proof says -/

/-- The word of an image at an address. -/
def imageWord (m : Nat → Byte) (a : Nat) : Word := BitVec.ofNat 64 (ofLE (readBytes m a 8))

theorem toLE_imageWord (m : Nat → Byte) (a : Nat) : toLE 8 (imageWord m a).toNat = readBytes m a 8 := by
  have hlt : ofLE (readBytes m a 8) < 2 ^ 64 := by
    simpa using ofLE_lt (readBytes m a 8)
  rw [imageWord, BitVec.toNat_ofNat, mod_eq_of_lt hlt]
  simpa using toLE_ofLE (readBytes m a 8)

theorem imageWord_of_readBytes {m : Nat → Byte} {a : Nat} {v : Word}
    (hb : readBytes m a 8 = toLE 8 v.toNat) : imageWord m a = v := by
  apply BitVec.eq_of_toNat_eq
  rw [imageWord, hb, ofLE_toLE, BitVec.toNat_ofNat]
  exact (mod_eq_of_lt (mod_lt _ (by decide))).trans (mod_eq_of_lt v.isLt)

theorem toNat_leafAligned (p : Word) : (leafAligned p).toNat = wordSize * (p.toNat / wordSize) :=
  toNat_and_not_mask p 5

theorem toNat_sub_leafAligned (p : Word) : (p - leafAligned p).toNat = p.toNat % wordSize := by
  have hl := toNat_leafAligned p
  have hdm := div_add_mod p.toNat wordSize
  rw [BitVec.toNat_sub_of_le (BitVec.le_def.mpr (by omega)), hl]
  omega

theorem bubbleUp_eq_climb {H : Type} (h : Hasher H) (address : Word) : ∀ (ss : List H) (k : Nat) (x : H),
    k + ss.length ≤ 64 → bubbleUp h address k x ss = climb h.concat (address.toNat / 2 ^ k) x ss
  | [], _, _, _ => rfl
  | s :: ss, k, x, hle => by
    rw [List.length_cons] at hle
    have hbit : address.getLsbD (k % 64) = decide (address.toNat / 2 ^ k % 2 = 1) := by
      rw [Nat.mod_eq_of_lt (by omega), BitVec.getLsbD, Nat.testBit_eq_decide_div_mod_eq]
    rw [bubbleUp, climb, bubbleUp_eq_climb h address ss _ _ (by omega), Nat.pow_succ, ← Nat.div_div_eq_div_mul,
      hbit]
    rcases Nat.mod_two_eq_zero_or_one (address.toNat / 2 ^ k) with h0 | h1
    · simp [h0]
    · simp [h1]

section
variable {H : Type} {h : Hasher H}

variable {a : Access H} {p : Word}

theorem Access.makeProof_ok {root : H} {p : MerkleTreeProof H} (hp : a.makeProof root = .ok p) :
    a.siblingHashes = some p.siblingHashes ∧ p.rootHash = root ∧ p.targetHash = a.readHash ∧
      p.targetAddress = leafAligned a.address ∧ p.log2TargetSize = max a.log2Size log2WordSize := by
  unfold Access.makeProof at hp
  split at hp
  · cases hp
  · simp only [except_bind_ok_iff, throwUnless_ok_iff] at hp
    obtain ⟨-, -, -, -, hp⟩ := hp
    cases hp
    simp_all

/-- The node of an image at the target of an access. -/
def Access.node (h : Hasher H) (a : Access H) (m : Nat → Byte) : H :=
  nodeHash h.concat (h.leaf m) (max a.log2Size log2WordSize - log2WordSize)
    ((leafAligned a.address).toNat / 2 ^ max a.log2Size log2WordSize)

/-- An address below the target of an access, or past it. -/
def Access.Outside (a : Access H) (x : Nat) : Prop :=
  x / 2 ^ max a.log2Size log2WordSize ≠
    (leafAligned a.address).toNat / 2 ^ max a.log2Size log2WordSize

/-- A verified proof pins the old node, and with a new node it leads to the root of any image that
differs from the old one only below the target. -/
theorem Access.makeProof_sound [DecidableEq H] (hcf : h.CollisionFree)
    {m : Nat → Byte} {p : MerkleTreeProof H} (hfull : a.FullPath) (hsize : a.log2Size ≤ log2RootSize)
    (hp : a.makeProof (h.root m) = .ok p) (hv : p.verify h = true) :
    a.readHash = a.node h m ∧ ∀ m' : Nat → Byte, (∀ x, a.Outside x → m' x = m x) →
      p.bubbleUp h (a.node h m') = h.root m' := by
  obtain ⟨ss, hss, hlen⟩ := hfull
  obtain ⟨hps, hroot, htarget, haddr, hlog⟩ := Access.makeProof_ok hp
  obtain rfl : p.siblingHashes = ss := Option.some.inj (hps.symm.trans hss)
  generalize hL : max a.log2Size log2WordSize = L at *
  have hL5 : log2WordSize ≤ L := hL ▸ Nat.le_max_right _ _
  have hL64 : L ≤ log2RootSize := hL ▸ Nat.max_le.mpr ⟨hsize, by decide⟩
  have hdepth : L - log2WordSize + p.siblingHashes.length = log2RootSize - log2WordSize := by omega
  have hidx : (leafAligned a.address).toNat / 2 ^ L / 2 ^ p.siblingHashes.length = 0 := by
    rw [Nat.div_div_eq_div_mul, ← Nat.pow_add, hlen,
      show L + (log2RootSize - L) = 64 by simp only [log2RootSize] at *; omega]
    exact Nat.div_eq_of_lt (leafAligned a.address).isLt
  -- the accepted climb ends at the root, so it is the climb of the image itself
  have hlevels : L + p.siblingHashes.length ≤ 64 := by
    simp only [log2RootSize] at *
    omega
  simp only [MerkleTreeProof.verify, MerkleTreeProof.bubbleUp, htarget, hroot, haddr, hlog, decide_eq_true_eq,
    bubbleUp_eq_climb _ _ _ _ _ hlevels] at hv
  rw [Hasher.root, ← hdepth, ← hidx] at hv
  obtain ⟨hread, hsib⟩ := climb_sound hcf.concat_inj (h.leaf m) _ _ _ _ hv
  refine ⟨by rw [Access.node, hL]; exact hread, fun m' hm' => ?_⟩
  simp only [MerkleTreeProof.bubbleUp, haddr, hlog, Access.node, hL, bubbleUp_eq_climb _ _ _ _ _ hlevels]
  rw [hsib, climb_splice, hidx, hdepth, Hasher.root]
  intro j hj
  refine Hasher.leaf_congr fun x hx1 hx2 => (hm' x ?_).symm
  -- a leaf outside the target's leaves lies outside the target's bytes
  have hw : wordSize = 2 ^ log2WordSize := rfl
  have hpow : 2 ^ L = 2 ^ (L - log2WordSize) * wordSize := by
    rw [hw, ← Nat.pow_add, Nat.sub_add_cancel hL5]
  have hxj : x / wordSize = j :=
    Nat.div_eq_of_lt_le (by rwa [Nat.mul_comm]) (by rwa [Nat.mul_comm])
  rw [Access.Outside, hL, hpow, Nat.mul_comm, ← Nat.div_div_eq_div_mul, hxj]
  rw [Nat.mul_comm, ← hpow]
  intro he
  rw [← he] at hj
  have hpos : 0 < 2 ^ (L - log2WordSize) := Nat.two_pow_pos _
  have h₁ := Nat.div_mul_le_self j (2 ^ (L - log2WordSize))
  have h2 := Nat.lt_mul_div_succ j hpos
  rw [Nat.mul_comm] at h2
  omega

theorem leafAligned_div (p : Word) : (leafAligned p).toNat / 2 ^ log2WordSize = p.toNat / wordSize := by
  rw [toNat_leafAligned]
  exact Nat.mul_div_cancel_left _ (by decide)

theorem getWordAccessData_readBytes (m : Nat → Byte) (hp : p.toNat % 8 = 0) :
    getWordAccessData (readBytes m (wordSize * (p.toNat / wordSize)) wordSize)
      (p - leafAligned p).toNat = imageWord m p.toNat := by
  have hdm := div_add_mod p.toNat wordSize
  rw [getWordAccessData, toNat_sub_leafAligned, drop_take_readBytes, hdm, imageWord]
  simp only [wordSize]
  omega

/-- Replacing a word of the logged leaf is writing it into the image. -/
theorem replaceWordAccessData_readBytes (m : Nat → Byte) (word : Word) (hp : p.toNat % 8 = 0) :
    replaceWordAccessData word (readBytes m (wordSize * (p.toNat / wordSize)) wordSize)
      (p - leafAligned p).toNat =
      readBytes (writeBytes m p.toNat (toLE 8 word.toNat)) (wordSize * (p.toNat / wordSize)) wordSize := by
  have hdm := div_add_mod p.toNat wordSize
  have hfit : p.toNat % wordSize + (toLE 8 word.toNat).length ≤ wordSize := by
    simp only [wordSize, length_toLE]
    omega
  have hin := readBytes_writeBytes_inside (m := m) (b := wordSize * (p.toNat / wordSize)) hfit
  rw [hdm, length_toLE] at hin
  rw [replaceWordAccessData, toNat_sub_leafAligned, hin]

theorem Access.node_word (m : Nat → Byte) (hsize : a.log2Size = 3) (haddr : a.address = p) :
    a.node h m = h.leaf m (p.toNat / wordSize) := by
  have hL : max 3 log2WordSize = log2WordSize := rfl
  rw [Access.node, hsize, haddr, hL, leafAligned_div, Nat.sub_self, nodeHash]

section
variable [DecidableEq H] {next : Nat} {a : Access H} {p : Word} {text : String}

variable {m : Nat → Byte}

/-- The logged data of a word access whose proof was accepted. -/
theorem Access.readData_eq (hcf : h.CollisionFree) {data : List Byte}
    {proof : MerkleTreeProof H} (hfull : a.FullPath) (hsize : a.log2Size = 3) (haddr : a.address = p)
    (hlen : data.length = wordSize) (hhash : getMerkleTreeHash h data = .ok a.readHash)
    (hp : a.makeProof (h.root m) = .ok proof) (hv : proof.verify h = true) :
    data = readBytes m (wordSize * (p.toNat / wordSize)) wordSize := by
  have hread := (Access.makeProof_sound hcf hfull (by rw [hsize]; decide) hp hv).1
  rw [hread, Access.node_word m hsize haddr] at hhash
  simpa using hcf.readBytes_of_hash (d := 0) (i := p.toNat / wordSize) (by simpa using hlen) hhash

theorem checkReadAccess_sound (hcf : h.CollisionFree) {v : Word} (hfull : a.FullPath) (hp : p.toNat % 8 = 0)
    (hok : checkReadAccess h (h.root m) next a p text = .ok v) : v = imageWord m p.toNat := by
  unfold checkReadAccess at hok
  simp only [except_bind_ok_iff, throwUnless_ok_iff] at hok
  obtain ⟨-, -, -, haddr, -, hsize, hok⟩ := hok
  split at hok
  · cases hok
  rename_i data hdata
  simp only [except_bind_ok_iff, throwUnless_ok_iff] at hok
  obtain ⟨-, hlen, hash, hhash, -, rfl, proof, hproof, -, hv, hok⟩ := hok
  cases hok
  rw [Access.readData_eq hcf hfull hsize haddr hlen hhash hproof hv,
    getWordAccessData_readBytes m hp]

/-- An accepted write leads to the root of the image with the word written. -/
theorem checkWriteAccess_sound (hcf : h.CollisionFree) {word : Word} {root' : H}
    (hfull : a.FullPath) (hp : p.toNat % 8 = 0)
    (hok : checkWriteAccess h (h.root m) next a p word text = .ok root') :
    root' = h.root (writeBytes m p.toNat (toLE 8 word.toNat)) := by
  unfold checkWriteAccess at hok
  simp only [except_bind_ok_iff, throwUnless_ok_iff] at hok
  obtain ⟨-, -, -, haddr, -, hsize, hok⟩ := hok
  split at hok
  · cases hok
  rename_i data hdata
  simp only [except_bind_ok_iff, throwUnless_ok_iff] at hok
  obtain ⟨-, hlen, hash, hhash, -, rfl, hok⟩ := hok
  split at hok
  · cases hok
  rename_i wh hwh
  split at hok
  · cases hok
  rename_i written hwritten
  simp only [except_bind_ok_iff, throwUnless_ok_iff] at hok
  obtain ⟨-, hwlen, hash', hwhash, -, rfl, -, -, -, hrep, proof, hproof, -, hv, hok⟩ := hok
  cases hok
  have hdata' := Access.readData_eq hcf hfull hsize haddr hlen hhash hproof hv
  have hleaf := getMerkleTreeHash_readBytes (h := h)
    (writeBytes m p.toNat (toLE 8 word.toNat)) 0 (p.toNat / wordSize)
  simp only [Nat.pow_zero, Nat.mul_one] at hleaf
  rw [hrep, hdata', replaceWordAccessData_readBytes m word hp, hleaf] at hwhash
  rw [← Except.ok.inj hwhash, nodeHash, ← Access.node_word _ hsize haddr]
  refine (Access.makeProof_sound hcf hfull (by rw [hsize]; decide) hproof hv).2 _ fun x hx => ?_
  -- the written word lies inside the leaf
  refine writeBytes_of_not_mem ?_
  have hL : max 3 log2WordSize = log2WordSize := rfl
  rw [Access.Outside, hsize, haddr, hL, leafAligned_div] at hx
  simp only [log2WordSize, wordSize, length_toLE] at hx ⊢
  omega

end

/-! ## Proofs and accesses of an image -/

/-- The proof of the node of an image at an address. -/
def imageProof (h : Hasher H) (f : Nat → Byte) (address : Word) (log2Size : Nat) :
    MerkleTreeProof H :=
  { targetAddress := address, log2TargetSize := log2Size,
    targetHash := nodeHash h.concat (h.leaf f) (log2Size - log2WordSize)
      (address.toNat / 2 ^ log2Size),
    log2RootSize := log2RootSize, rootHash := h.root f,
    siblingHashes := siblings h.concat (h.leaf f) (log2Size - log2WordSize)
      (address.toNat / 2 ^ log2Size) (log2RootSize - log2Size) }

/-- The siblings of a node lead from any hash of the node to the root of the image with that node. -/
theorem imageProof_bubbleUp {f g : Nat → Byte} (address : Word) {log2Size : Nat}
    (h₁ : log2WordSize ≤ log2Size) (h2 : log2Size ≤ log2RootSize)
    (hfg : ∀ x, x / 2 ^ log2Size ≠ address.toNat / 2 ^ log2Size → f x = g x) :
    (imageProof h f address log2Size).bubbleUp h (nodeHash h.concat (h.leaf g)
      (log2Size - log2WordSize) (address.toNat / 2 ^ log2Size)) = h.root g := by
  have hdepth : log2Size - log2WordSize + (log2RootSize - log2Size) = log2RootSize - log2WordSize := by
    omega
  have hroot : address.toNat / 2 ^ log2Size / 2 ^ (log2RootSize - log2Size) = 0 := by
    rw [Nat.div_div_eq_div_mul, ← Nat.pow_add, Nat.add_sub_cancel' h2]
    exact Nat.div_eq_of_lt address.isLt
  have hlevels : (imageProof h f address log2Size).log2TargetSize +
      (imageProof h f address log2Size).siblingHashes.length ≤ 64 := by
    simp only [imageProof, length_siblings]
    exact Nat.le_of_eq (Nat.add_sub_cancel' h2)
  rw [MerkleTreeProof.bubbleUp, bubbleUp_eq_climb _ _ _ _ _ hlevels]
  simp only [imageProof]
  rw [climb_splice, hroot, hdepth, Hasher.root]
  intro j hj
  refine Hasher.leaf_congr fun x hx1 hx2 => hfg x fun he => ?_
  have hpow : 2 ^ log2Size = wordSize * 2 ^ (log2Size - log2WordSize) := by
    rw [show wordSize = 2 ^ log2WordSize from rfl, ← Nat.pow_add, Nat.add_sub_cancel' h₁]
  have hxj : x / wordSize = j :=
    Nat.div_eq_of_lt_le (by rwa [Nat.mul_comm]) (by rwa [Nat.mul_comm])
  rw [← he, hpow, ← Nat.div_div_eq_div_mul, hxj] at hj
  have hlo := Nat.div_mul_le_self j (2 ^ (log2Size - log2WordSize))
  have hhi := Nat.lt_mul_div_succ j (Nat.two_pow_pos (log2Size - log2WordSize))
  rw [Nat.mul_comm] at hhi
  omega

theorem imageProof_verify [DecidableEq H] (f : Nat → Byte) {address : Word} {log2Size : Nat}
    (h₁ : log2WordSize ≤ log2Size) (h2 : log2Size ≤ log2RootSize) :
    (imageProof h f address log2Size).verify h = true := by
  rw [MerkleTreeProof.verify, decide_eq_true_eq]
  exact imageProof_bubbleUp address h₁ h2 fun _ _ => rfl

/-- The access that reads the word of an image at an address. -/
def readAccess (h : Hasher H) (f : Nat → Byte) (p : Word) : Access H :=
  { type := .read, address := p, log2Size := 3,
    read := some (readBytes f (wordSize * (p.toNat / wordSize)) wordSize),
    readHash := h.leaf f (p.toNat / wordSize), written := none, writtenHash := none,
    siblingHashes := some (imageProof h f (leafAligned p) log2WordSize).siblingHashes }

/-- The access that writes a word of an image. -/
def writeAccess (h : Hasher H) (f : Nat → Byte) (p word : Word) : Access H :=
  let g := writeBytes f p.toNat (toLE 8 word.toNat)
  { readAccess h f p with
    type := .write
    written := some (readBytes g (wordSize * (p.toNat / wordSize)) wordSize)
    writtenHash := some (h.leaf g (p.toNat / wordSize)) }

theorem readAccess_fullPath (f : Nat → Byte) (p : Word) : (readAccess h f p).FullPath :=
  ⟨_, rfl, length_siblings _ _ _ _⟩

theorem writeAccess_fullPath (f : Nat → Byte) (p word : Word) : (writeAccess h f p word).FullPath :=
  ⟨_, rfl, length_siblings _ _ _ _⟩

theorem makeProof_word {f : Nat → Byte} (hsize : a.log2Size = 3)
    (haddr : a.address = p) (hhash : a.readHash = h.leaf f (p.toNat / wordSize))
    (hread : ∀ d ∈ a.read, d.length = wordSize) (hwritten : ∀ d ∈ a.written, d.length = wordSize)
    (hsib : a.siblingHashes = some (imageProof h f (leafAligned p) log2WordSize).siblingHashes) :
    a.makeProof (h.root f) = .ok (imageProof h f (leafAligned p) log2WordSize) := by
  have hL : max 3 log2WordSize = log2WordSize := rfl
  have hw : 2 ^ log2WordSize = wordSize := rfl
  have hlen : (imageProof h f (leafAligned p) log2WordSize).siblingHashes.length = 59 :=
    length_siblings _ _ _ _
  unfold Access.makeProof
  simp only [hsib, hsize, hL, hw]
  refine except_bind_ok_iff.mpr ⟨(), if_pos hread, except_bind_ok_iff.mpr ⟨(), if_pos hwritten, ?_⟩⟩
  rw [hlen, hhash, haddr, imageProof, leafAligned_div, Nat.sub_self, nodeHash]
  rfl

theorem getMerkleTreeHash_leaf (f : Nat → Byte) (i : Nat) :
    getMerkleTreeHash h (readBytes f (wordSize * i) wordSize) = .ok (h.leaf f i) := by
  simpa [nodeHash] using getMerkleTreeHash_readBytes (h := h) f 0 i

theorem imageProof_leaf_verify [DecidableEq H] (f : Nat → Byte) (p : Word) :
    (imageProof h f (leafAligned p) log2WordSize).verify h = true :=
  imageProof_verify f (Nat.le_refl _) (by decide)

/-- The access of an image passes the checks of a read, which return its word. -/
theorem checkReadAccess_readAccess [DecidableEq H] (f : Nat → Byte) (hp : p.toNat % 8 = 0)
    (next : Nat) (text : String) :
    checkReadAccess h (h.root f) next (readAccess h f p) p text = .ok (imageWord f p.toNat) := by
  have hlen : (readBytes f (wordSize * (p.toNat / wordSize)) wordSize).length = wordSize :=
    length_readBytes _ _ _
  have hproof := makeProof_word (h := h) (f := f) (p := p) (a := readAccess h f p) rfl rfl rfl
    (by simp [readAccess]) (by simp [readAccess]) rfl
  unfold checkReadAccess
  simp only [except_bind_ok_iff, throwUnless_ok_iff]
  refine ⟨(), rfl, (), rfl, (), rfl, ?_⟩
  show (do throwUnless _ _; _ : Except String Word) = _
  simp only [except_bind_ok_iff, throwUnless_ok_iff]
  exact ⟨(), hlen, _, getMerkleTreeHash_leaf f _, (), rfl, _, hproof, (), imageProof_leaf_verify f p,
    by rw [getWordAccessData_readBytes f hp]⟩

/-- The access of an image passes the checks of a write, which lead to the root of the new image. -/
theorem checkWriteAccess_writeAccess [DecidableEq H] (f : Nat → Byte)
    (hp : p.toNat % 8 = 0) (word : Word) (next : Nat) (text : String) :
    checkWriteAccess h (h.root f) next (writeAccess h f p word) p word text =
      .ok (h.root (writeBytes f p.toNat (toLE 8 word.toNat))) := by
  have hlen : ∀ g : Nat → Byte, (readBytes g (wordSize * (p.toNat / wordSize)) wordSize).length =
      wordSize := fun g => length_readBytes _ _ _
  have hproof := makeProof_word (h := h) (f := f) (p := p) (a := writeAccess h f p word) rfl rfl rfl
    (by simp [writeAccess, readAccess]) (by simp [writeAccess]) rfl
  unfold checkWriteAccess
  simp only [except_bind_ok_iff, throwUnless_ok_iff]
  refine ⟨(), rfl, (), rfl, (), rfl, ?_⟩
  show (do throwUnless _ _; _ : Except String H) = _
  simp only [except_bind_ok_iff, throwUnless_ok_iff]
  refine ⟨(), hlen f, _, getMerkleTreeHash_leaf f _, (), rfl, ?_⟩
  show (do throwUnless _ _; _ : Except String H) = _
  simp only [except_bind_ok_iff, throwUnless_ok_iff]
  refine ⟨(), (hlen _).trans (hlen f).symm, _, getMerkleTreeHash_leaf _ _, (), rfl, (), ?_, (), ?_, _,
    hproof, (), imageProof_leaf_verify f p, ?_⟩
  · rw [getWordAccessData_readBytes _ hp]
    refine (imageWord_of_readBytes ?_).symm
    simpa using readBytes_writeBytes_same f p.toNat (toLE 8 word.toNat)
  · rw [replaceWordAccessData_readBytes f word hp]
  · congr 1
    have hb := imageProof_bubbleUp (h := h) (f := f) (g := writeBytes f p.toNat (toLE 8 word.toNat))
      (leafAligned p) (Nat.le_refl log2WordSize) (by decide) fun x hx =>
        (writeBytes_of_not_mem ?_).symm
    · rw [leafAligned_div, Nat.sub_self, nodeHash] at hb
      exact hb
    · rw [leafAligned_div] at hx
      simp only [log2WordSize, wordSize, length_toLE] at hx ⊢
      omega

end

end MachineEmulator
