import MachineEmulator.AccessLog
import MachineEmulator.Lib.Prog
import MachineEmulator.State

/-!
# The Merkle tree a machine keeps of its state

* `MerklePma` : the ranges the tree is about: the board's, and the two of the microarchitecture;
* `peek` : a page of a range, as the tree hashes it;
* `updateMerkleTree`, `updateMerkleTreePage` : rehash the pages that are marked dirty, or one page;
* `getRootHash`, `getProof`, `readMemory` : what the machine reads off its tree and its ranges.
-/

namespace MachineEmulator

open Merkle (SparseTree)

/-! ## Ranges of the tree -/

inductive MerklePma where
  | board (p : PmaEntry)
  | uarchState
  | uarchRam
  | empty

def MerklePma.entry : MerklePma → PmaEntry
  | .board p => p
  | .uarchState => shadowUarchStatePma
  | .uarchRam => uarchRamPma
  | .empty => emptyPma

/-- Page `k` of a range, as a page of the image. -/
def MerklePma.page (q : MerklePma) (k : Nat) : Nat := q.entry.start.toNat / pmaPageSize + k

namespace Machine

variable {H : Type}

variable (m : Machine H) (q : MerklePma)

def merklePmas : List MerklePma :=
  m.s.board.ranges.map .board ++ [.uarchState, .uarchRam, .empty]

/-- The first range that contains the access, or the first empty one. -/
def findMerklePma : List MerklePma → Word → Word → MerklePma
  | [], _, _ => .empty
  | q :: qs, paddr, length =>
    if q.entry.length = 0 ∨ (q.entry.start ≤ paddr ∧ length ≤ q.entry.length ∧
        paddr - q.entry.start ≤ q.entry.length - length) then q
    else findMerklePma qs paddr length

/-- A page of host memory; a page that is only partly inside its range is padded with zeros. -/
def memoryPeek (mem : Nat → Byte) (p : PmaEntry) (offset : Nat) : Option (Option (List Byte)) :=
  if offset % pmaPageSize ≠ 0 ∨ p.length.toNat < offset then none
  else if p.length.toNat < offset + pmaPageSize then
    some (some (readBytes mem (p.start.toNat + offset) (p.length.toNat - offset) ++
      List.replicate (offset + pmaPageSize - p.length.toNat) 0))
  else some (some (readBytes mem (p.start.toNat + offset) pmaPageSize))

def firstPagePeek (image : Nat → Byte) (offset : Nat) : Option (Option (List Byte)) :=
  if offset ≠ 0 then none else some (some (readBytes image 0 pmaPageSize))

/-- A device whose pages are given by `page`, or are pristine. -/
def devicePeek (p : PmaEntry) (offset : Nat) (page : Option (List Byte)) :
    Option (Option (List Byte)) :=
  if offset % pmaPageSize ≠ 0 ∨ p.length.toNat ≤ offset then none else some page

def boardPeek (s : MachineState) (p : PmaEntry) (offset : Nat) : Option (Option (List Byte)) :=
  match p.data, p.flags.DID with
  | .memory, _ => memoryPeek s.mem p offset
  | .device, .shadowState => firstPagePeek (wordsImage (shadowStateWords s)) offset
  | .device, .shadowTlb =>
    devicePeek p offset (some (readBytes (wordImage (shadowTlbWord s)) offset pmaPageSize))
  | .device, _ => devicePeek p offset none
  | .empty, _ => none

/-- The page at an offset of a range: `none` if the peek fails, `some none` for a pristine page. -/
def peek (offset : Nat) : Option (Option (List Byte)) :=
  match q with
  | .board p => boardPeek m.s p offset
  | .uarchState => firstPagePeek (wordsImage (shadowUarchStateWords m.uarch)) offset
  | .uarchRam => memoryPeek m.uarch.ram uarchRamPma offset
  | .empty => none

/-! ## Dirty pages -/

/-- Pages of ranges without a dirty map count as dirty. -/
def isPageMarkedDirty (offset : Nat) : Bool :=
  let page := (q.entry.start.toNat + offset) / pmaPageSize
  match q with
  | .board p => if p.istartM then m.s.dirty page else true
  | .uarchRam => m.uarch.ramDirty page
  | .uarchState | .empty => true

/-- The dirty map with every page of a range clean. -/
def cleanRange (dirty : Nat → Bool) (p : PmaEntry) : Nat → Bool :=
  fun page => if p.Mem (page * pmaPageSize) then false else dirty page

def markPagesClean : Machine H :=
  match q with
  | .board p => if p.istartM then { m with s := { m.s with dirty := cleanRange m.s.dirty p } } else m
  | .uarchRam =>
    { m with uarch := { m.uarch with ramDirty := cleanRange m.uarch.ramDirty uarchRamPma } }
  | .uarchState | .empty => m

def markCleanPage (offset : Nat) : Machine H :=
  let page := (q.entry.start.toNat + offset) / pmaPageSize
  match q with
  | .board p =>
    if p.istartM then { m with s := { m.s with dirty := Function.update m.s.dirty page false } }
    else m
  | .uarchRam =>
    { m with uarch := { m.uarch with ramDirty := Function.update m.uarch.ramDirty page false } }
  | .uarchState | .empty => m

def tlbCorruptMessage : String := "could not mark dirty page for a TLB entry: TLB is corrupt"

/-- Mark the page of one entry of the write TLB. -/
def markWriteTlbEntry (s : MachineState) (e : TlbEntry) : Except String MachineState :=
  if e.vaddrPage = tlbInvalidPage then .ok s
  else
    match s.board.pmas[e.pmaIndex.toNat]? with
    | none => .error tlbCorruptMessage
    | some p =>
      if !p.contains e.paddrPage (BitVec.ofNat 64 pmaPageSize) then .error tlbCorruptMessage
      else if p.istartM then .ok (s.markDirtyPage (e.paddrPage.toNat / pmaPageSize))
      else .ok s

/-- Entry after entry; an entry that is corrupt stops it with the marks made so far. -/
def markWriteTlbEntries : List TlbEntry → EStateM String MachineState Unit
  | [] => pure ()
  | e :: es => do
    EStateM.update fun s => markWriteTlbEntry s e
    markWriteTlbEntries es

def markWriteTlbDirtyPages : EStateM String MachineState Unit := fun s =>
  markWriteTlbEntries ((List.finRange 256).map (s.tlb .write)) s

/-! ## Updating the tree -/

section
variable (h : Hasher H)

def pristineHash (log2Size : Nat) : H :=
  Merkle.pristine h.concat (h.word (List.replicate wordSize 0)) (log2Size - log2WordSize)

/-- The hash of a page, by halves down to the word size. -/
def getPageNodeHash : Nat → List Byte → H
  | 0, data => h.word (data.take wordSize)
  | d + 1, data => h.concat (getPageNodeHash d data) (getPageNodeHash d (data.drop (wordSize * 2 ^ d)))

/-- The levels of the tree above the pages. -/
def pageDepth : Nat := log2RootSize - log2PageSize

def updatePageNodeHash (tree : SparseTree H) (pageAddress : Nat) (hash : H) : SparseTree H :=
  tree.insert h.concat (pristineHash h log2PageSize) pageDepth (pageAddress / pmaPageSize) hash

def endUpdate (tree : SparseTree H) : SparseTree H :=
  tree.settle h.concat (pristineHash h log2PageSize) pageDepth

def treeRootHash (tree : SparseTree H) : H :=
  tree.hash h.concat (pristineHash h log2PageSize) pageDepth

/-- Rehash page `i` of a range if it is dirty; `none` if the peek fails. -/
def updateDirtyPage (m : Machine H) (q : MerklePma) (tree : SparseTree H) (i : Nat) :
    Option (SparseTree H) :=
  let offset := i * pmaPageSize
  if !m.isPageMarkedDirty q offset then some tree
  else
    match m.peek q offset with
    | none => none
    | some none => some tree
    | some (some data) =>
      let hash := if data.all (· == 0) then pristineHash h log2PageSize
        else getPageNodeHash h (log2PageSize - log2WordSize) data
      some (updatePageNodeHash h tree (q.entry.start.toNat + offset) hash)

def pagesInRange (q : MerklePma) : Nat :=
  (q.entry.length.toNat + pmaPageSize - 1) / pmaPageSize

/-- Rehash the dirty pages of a range and mark them clean. -/
def updatePma (m : Machine H) (q : MerklePma) : Option (Machine H) := do
  let tree ← (List.range (pagesInRange q)).foldlM (updateDirtyPage h m q) m.tree
  return { m with tree }.markPagesClean q

/-- Rehash range after range. A failure leaves the ranges before it updated. -/
def updatePmas (m : Machine H) : List MerklePma → Bool × Machine H
  | [] => (true, m)
  | q :: qs =>
    match updatePma h m q with
    | none => (false, m)
    | some m' => updatePmas m' qs

def updateMerkleTree : EStateM String (Machine H) Bool := fun m =>
  match markWriteTlbDirtyPages m.s with
  | .error e s => .error e { m with s }
  | .ok _ s =>
    let (ok, m') := updatePmas h { m with s } m.merklePmas
    .ok ok { m' with tree := endUpdate h m'.tree }

def updateMerkleTreePage (m : Machine H) (address : Word) : Option (Machine H) :=
  let address := address &&& ~~~pageOffsetMask
  let q := findMerklePma m.merklePmas address 8
  let offset := (address - q.entry.start).toNat
  match m.peek q offset with
  | none => none
  | some none => some ({ m with tree := endUpdate h m.tree }.markCleanPage q offset)
  | some (some data) =>
    let tree := updatePageNodeHash h m.tree (q.entry.start.toNat + offset)
      (getPageNodeHash h (log2PageSize - log2WordSize) data)
    some ({ m with tree := endUpdate h tree }.markCleanPage q offset)

def getRootHash : EStateM String (Machine H) H := do
  EStateM.query fun m => throwUnless (m.s.regs .iunrep = 0)
    "cannot compute root hash of unreproducible machines"
  let ok ← updateMerkleTree h
  EStateM.query fun _ => throwUnless (ok = true) "error updating Merkle tree"
  EStateM.query fun m => .ok (treeRootHash h m.tree)

/-! ## Proofs -/

/-- The hash of the target inside a page and the siblings on its path, lowest first. Subtrees off the
path contribute their hash only. -/
def getInsidePageSiblingHashes (address : Word) (log2Size : Nat) : Nat → List Byte → H × List H
  | 0, data => (getPageNodeHash h 0 data, [])
  | d + 1, data =>
    if log2WordSize + (d + 1) ≤ log2Size then (getPageNodeHash h (d + 1) data, [])
    else
      let upper := data.drop (wordSize * 2 ^ d)
      if address.getLsbD (log2WordSize + d) then
        let (target, ss) := getInsidePageSiblingHashes address log2Size d upper
        (target, ss ++ [getPageNodeHash h d data])
      else
        let (target, ss) := getInsidePageSiblingHashes address log2Size d data
        (target, ss ++ [getPageNodeHash h d upper])

/-- The hashes of pristine nodes from one size up to another. -/
def pristineSiblings (log2Size log2End : Nat) : List H :=
  (List.range' log2Size (log2End - log2Size)).map (pristineHash h)

variable [DecidableEq H]

/-- The target and the siblings below the page, or an error if they do not fit the stored hash. -/
def getPageProof (node : SparseTree H) (address : Word) (log2Size : Nat)
    (pageData : Option (List Byte)) : Except String (H × List H) :=
  match node with
  | .nil =>
    match pageData with
    | some _ => .error "inconsistent merkle tree"
    | none => .ok (pristineHash h log2Size, pristineSiblings h log2Size log2PageSize)
  | .node hash _ _ _ =>
    if log2Size < log2PageSize then
      match pageData with
      | some data =>
        if hash ≠ getPageNodeHash h (log2PageSize - log2WordSize) data then
          .error "inconsistent merkle tree"
        else
          .ok (getInsidePageSiblingHashes h address log2Size (log2PageSize - log2WordSize) data)
      | none =>
        if hash ≠ pristineHash h log2PageSize then .error "inconsistent merkle tree"
        else .ok (pristineHash h log2Size, pristineSiblings h log2Size log2PageSize)
    else .ok (hash, [])

def getTreeProof (tree : SparseTree H) (address : Word) (log2Size : Nat)
    (pageData : Option (List Byte)) : Except String (MerkleTreeProof H) := do
  throwUnless (log2Size ≤ log2RootSize ∧ log2WordSize ≤ log2Size) "log2_target_size is out of bounds"
  throwUnless (address.toNat % 2 ^ log2Size = 0) "misaligned target address"
  let stop := max log2Size log2PageSize
  let (above, node) := tree.path h.concat (pristineHash h log2PageSize) (stop - log2PageSize)
    (address.toNat / 2 ^ stop) (log2RootSize - stop)
  let (targetHash, below) ← getPageProof h node address log2Size pageData
  let proof : MerkleTreeProof H :=
    { targetAddress := address, log2TargetSize := log2Size, targetHash, log2RootSize := log2RootSize,
      rootHash := treeRootHash h tree, siblingHashes := below ++ above }
  throwUnless (proof.verify h) "proof failed verification"
  .ok proof

/-- The proof of a node, from the tree as it stands. -/
def getProofSkip (m : Machine H) (address : Word) (log2Size : Nat) :
    Except String (MerkleTreeProof H) := do
  throwUnless (log2Size ≤ log2RootSize ∧ log2WordSize ≤ log2Size) "invalid log2_size"
  throwUnless (address.toNat % 2 ^ log2Size = 0) "address not aligned to log2_size"
  if log2Size < log2PageSize then
    let q := findMerklePma m.merklePmas address ((1 : Word) <<< log2Size)
    if q.entry.istartE then getTreeProof h m.tree address log2Size none
    else
      let offset := (address - q.entry.start).toNat / pmaPageSize * pmaPageSize
      match m.peek q offset with
      | none => .error "PMA peek failed"
      | some pageData => getTreeProof h m.tree address log2Size pageData
  else getTreeProof h m.tree address log2Size none

def getProof (address : Word) (log2Size : Nat) :
    EStateM String (Machine H) (MerkleTreeProof H) := do
  let ok ← updateMerkleTree h
  EStateM.query fun _ => throwUnless (ok = true) "error updating Merkle tree"
  EStateM.query fun m => getProofSkip h m address log2Size

end

/-! ## Reading memory -/

/-- The host memory behind a memory range. -/
def hostMemory : MerklePma → Nat → Byte
  | .uarchRam => m.uarch.ram
  | _ => m.s.mem

/-- Read page by page what a device shows. -/
def readPages (m : Machine H) (q : MerklePma) (pageOffset : Nat) (shift : Fin 4096) (length : Nat) :
    Except String (List Byte) :=
  if _hl : length = 0 then .ok []
  else
    let n := min length (pmaPageSize - shift.val)
    match m.peek q pageOffset with
    | none => .error "peek failed"
    | some pageData =>
      let bytes := match pageData with
        | none => List.replicate n 0
        | some data => (data.drop shift.val).take n
      match readPages m q (pageOffset + pmaPageSize) 0 (length - n) with
      | .error e => .error e
      | .ok rest => .ok (bytes ++ rest)
termination_by length
decreasing_by
  have := shift.isLt
  simp only [pmaPageSize]
  omega

def readMemory (address : Word) (length : Nat) : Except String (List Byte) :=
  if length = 0 then .ok []
  else
    let q := findMerklePma m.merklePmas address (BitVec.ofNat 64 length)
    if q.entry.istartM then .ok (readBytes (m.hostMemory q) address.toNat length)
    else
      let offset := (address - q.entry.start).toNat
      readPages m q (offset / pmaPageSize * pmaPageSize) (Fin.ofNat 4096 offset) length

end Machine

end MachineEmulator
