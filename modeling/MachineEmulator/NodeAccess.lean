import MachineEmulator.AccessLog

/-!
# Accesses that write a whole node

Resetting the microarchitecture and answering a request write a node of the tree at once, and log its
hashes rather than its data.

* `checkNodeWriteAccess` : the checks a replay makes on such an access, given the hash it expects. An
  access that passes leads to the root of any image that has this hash at the node and is unchanged
  elsewhere (`checkNodeWriteAccess_sound`);
* `nodeWriteAccess` : the access from one image to another. It passes
  (`checkNodeWriteAccess_nodeWriteAccess`).
-/

namespace MachineEmulator

open Merkle Access

section
variable {H : Type} [DecidableEq H] (h : Hasher H)

/-- Logged data, if there is any, must have the logged hash. -/
def checkDataHash (data : Option (List Byte)) (hash : H) (message : String) : Except String Unit :=
  match data with
  | none => .ok ()
  | some bs => do
    let computedHash ← getMerkleTreeHash h bs
    throwUnless (computedHash = hash) message

/-- The checks on an access that writes a node; the result is the new root. -/
def checkNodeWriteAccess (root : H) (next : Nat) (a : Access H) (address : Word) (log2Size : Nat)
    (text : String) (expected : Except String H) (addressError hashError : String → String) :
    Except String H := do
  let report := accessToReport next
  throwUnless (a.address = address) (addressError report)
  throwUnless (a.log2Size = log2Size) ("expected " ++ report ++ " to write 2^" ++ toString log2Size ++
    " bytes to " ++ text)
  throwUnless (a.type = .write) ("expected " ++ report ++ " to write " ++ text)
  checkDataHash h a.read a.readHash
    ("hash of read data and read hash at " ++ report ++ " does not match read hash")
  match a.writtenHash with
  | none => .error ("write " ++ report ++ " has no written hash")
  | some writtenHash =>
    let expectedHash ← expected
    throwUnless (writtenHash = expectedHash) (hashError report)
    checkDataHash h a.written writtenHash ("written hash and written data mismatch at " ++ report)
    let proof ← a.makeProof root
    throwUnless (proof.verify h) ("Mismatch in root hash of " ++ report)
    .ok (proof.bubbleUp h writtenHash)

end

variable {H : Type} {h : Hasher H}

/-- The node of an image at an address. -/
def nodeAt (h : Hasher H) (f : Nat → Byte) (address : Word) (log2Size : Nat) : H :=
  nodeHash h.concat (h.leaf f) (log2Size - log2WordSize) (address.toNat / 2 ^ log2Size)

/-! ## Addresses of nodes -/

theorem two_pow_eq_word {n : Nat} (hn : log2WordSize ≤ n) : 2 ^ n = wordSize * 2 ^ (n - log2WordSize) := by
  rw [show wordSize = 2 ^ log2WordSize from rfl, ← Nat.pow_add, Nat.add_sub_cancel' hn]

theorem leafAligned_of_node {address : Word} {log2Size : Nat} (hn : log2WordSize ≤ log2Size)
    (hal : address.toNat % 2 ^ log2Size = 0) : leafAligned address = address := by
  apply BitVec.eq_of_toNat_eq
  rw [toNat_leafAligned]
  refine Nat.mul_div_cancel' ?_
  exact Dvd.dvd.trans ⟨_, two_pow_eq_word hn⟩ (Nat.dvd_of_mod_eq_zero hal)

theorem getMerkleTreeHash_node (f : Nat → Byte) {address : Word} {log2Size : Nat}
    (hn : log2WordSize ≤ log2Size) (hal : address.toNat % 2 ^ log2Size = 0) :
    getMerkleTreeHash h (readBytes f address.toNat (2 ^ log2Size)) = .ok (nodeAt h f address log2Size) := by
  have hdiv := Nat.div_mul_cancel (Nat.dvd_of_mod_eq_zero hal)
  rw [two_pow_eq_word hn, Nat.mul_left_comm, ← two_pow_eq_word hn] at hdiv
  have hread := getMerkleTreeHash_readBytes (h := h) f (log2Size - log2WordSize)
    (address.toNat / 2 ^ log2Size)
  rwa [hdiv, ← two_pow_eq_word hn] at hread

/-- The access that writes a node, from one image to another. -/
def nodeWriteAccess (h : Hasher H) (f g : Nat → Byte) (address : Word) (log2Size : Nat)
    (largeData : Bool) : Access H :=
  { type := .write, address, log2Size,
    read := if largeData then some (readBytes f address.toNat (2 ^ log2Size)) else none,
    readHash := nodeAt h f address log2Size,
    written := if largeData then some (readBytes g address.toNat (2 ^ log2Size)) else none,
    writtenHash := some (nodeAt h g address log2Size),
    siblingHashes := some (imageProof h f address log2Size).siblingHashes }

theorem nodeWriteAccess_fullPath {f g : Nat → Byte} {address : Word} {log2Size : Nat}
    {largeData : Bool} (hn : log2WordSize ≤ log2Size) :
    (nodeWriteAccess h f g address log2Size largeData).FullPath := by
  refine ⟨_, rfl, ?_⟩
  simp only [imageProof, nodeWriteAccess]
  rw [length_siblings, Nat.max_eq_left hn]

variable [DecidableEq H] {address : Word} {log2Size next : Nat} {text : String}
  {addressError hashError : String → String}

/-! ## Soundness -/

/-- An accepted write of a node leads to the root of the image with the node written. -/
theorem checkNodeWriteAccess_sound (hcf : h.CollisionFree) {a : Access H} {f g : Nat → Byte} {root' : H}
    (hn : log2WordSize ≤ log2Size) (hroot : log2Size ≤ log2RootSize)
    (hal : address.toNat % 2 ^ log2Size = 0) (hfull : a.FullPath)
    (hfg : ∀ x, x / 2 ^ log2Size ≠ address.toNat / 2 ^ log2Size → g x = f x)
    (hok : checkNodeWriteAccess h (h.root f) next a address log2Size text
      (.ok (nodeAt h g address log2Size)) addressError hashError = .ok root') : root' = h.root g := by
  unfold checkNodeWriteAccess at hok
  simp only [except_bind_ok_iff, throwUnless_ok_iff] at hok
  obtain ⟨_, haddr, _, hsize, _, -, _, -, hok⟩ := hok
  split at hok
  · cases hok
  rename_i writtenHash hwritten
  simp only [except_bind_ok_iff, throwUnless_ok_iff] at hok
  obtain ⟨_, hexpected, _, rfl, _, -, proof, hproof, _, hverify, hok⟩ := hok
  cases hexpected
  cases hok
  have hmax : max a.log2Size log2WordSize = log2Size := by omega
  have hnode : a.node h g = nodeAt h g address log2Size := by
    rw [node, hmax, haddr, leafAligned_of_node hn hal, nodeAt]
  rw [← hnode]
  refine (makeProof_sound hcf hfull (by omega) hproof hverify).2 g fun x hx => hfg x ?_
  rwa [Outside, hmax, haddr, leafAligned_of_node hn hal] at hx

/-! ## Completeness -/

theorem checkDataHash_readBytes (f : Nat → Byte) (largeData : Bool) (hn : log2WordSize ≤ log2Size)
    (hal : address.toNat % 2 ^ log2Size = 0) (message : String) :
    checkDataHash h (if largeData then some (readBytes f address.toNat (2 ^ log2Size)) else none)
      (nodeAt h f address log2Size) message = .ok () := by
  cases largeData with
  | false => rfl
  | true =>
    simp only [if_true, checkDataHash]
    rw [except_bind_ok_iff]
    exact ⟨_, getMerkleTreeHash_node f hn hal, throwUnless_ok_iff.mpr rfl⟩

/-- The access of two images passes the checks of a write, which lead to the root of the second. -/
theorem checkNodeWriteAccess_nodeWriteAccess {f g : Nat → Byte} (largeData : Bool)
    (hn : log2WordSize ≤ log2Size) (hroot : log2Size ≤ log2RootSize) (hal : address.toNat % 2 ^ log2Size = 0)
    (hfg : ∀ x, x / 2 ^ log2Size ≠ address.toNat / 2 ^ log2Size → f x = g x) :
    checkNodeWriteAccess h (h.root f) next (nodeWriteAccess h f g address log2Size largeData) address
      log2Size text (.ok (nodeAt h g address log2Size)) addressError hashError = .ok (h.root g) := by
  have hmax : max log2Size log2WordSize = log2Size := Nat.max_eq_left hn
  have hlen : ∀ e : Nat → Byte,
      ∀ d ∈ (if largeData then some (readBytes e address.toNat (2 ^ log2Size)) else none),
        d.length = 2 ^ log2Size := by
    intro e d hd
    cases largeData with
    | false => cases hd
    | true =>
      cases hd
      exact length_readBytes _ _ _
  have hproof : (nodeWriteAccess h f g address log2Size largeData).makeProof (h.root f) =
      .ok (imageProof h f address log2Size) := by
    simp only [makeProof, nodeWriteAccess, hmax]
    refine except_bind_ok_iff.mpr ⟨(), if_pos (hlen f), except_bind_ok_iff.mpr ⟨(), if_pos (hlen g), ?_⟩⟩
    rw [leafAligned_of_node hn hal]
    simp only [imageProof, length_siblings]
    rw [Nat.add_sub_cancel' hroot]
    rfl
  unfold checkNodeWriteAccess
  simp only [except_bind_ok_iff, throwUnless_ok_iff]
  refine ⟨(), rfl, (), rfl, (), rfl, (), checkDataHash_readBytes f largeData hn hal _, ?_⟩
  show (do
    let expectedHash ← Except.ok (nodeAt h g address log2Size)
    throwUnless (nodeAt h g address log2Size = expectedHash) _
    _ : Except String H) = _
  simp only [except_bind_ok_iff, throwUnless_ok_iff]
  exact ⟨_, rfl, (), rfl, (), checkDataHash_readBytes g largeData hn hal _, _, hproof, (),
    imageProof_verify f hn hroot, congrArg Except.ok (imageProof_bubbleUp address hn hroot hfg)⟩

end MachineEmulator
