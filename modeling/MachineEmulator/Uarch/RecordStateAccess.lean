import MachineEmulator.TreeProof
import MachineEmulator.Uarch.ReplayStateAccess

/-!
# Recording the access log of a microarchitecture step

* `recordStateAccess` : the operations of the microarchitecture on a machine, each logged with a proof
  from the machine's tree before it happens;
* `logStepUarch` : one recorded step between two root hashes, verified before the log is returned;
* `Follows` : the recording machine is the plain one, up to what it keeps for the tree, and its tree
  holds the image. Every aligned operation keeps it (`forward_record`);
* `replays_record` : whatever was recorded is accepted by the replay;
* `recorded_uarchStep` : a recorded step ends where the plain step ends, with a log that is accepted.
-/

namespace MachineEmulator.Uarch

open EStateM Machine UarchReg

open EStateM (query update)
open Machine (TreeHolds)

variable {H : Type}

/-- A recording computation, with the log so far. -/
abbrev Record (H : Type) (α : Type) := EStateM String (Machine H × List (Access H)) α

section
variable [DecidableEq H] (h : Hasher H)

def logReadAccess (m : Machine H) (paligned val : Word) : Except String (Access H) := do
  throwUnless (paligned &&& 7 = 0) "paligned is not aligned to word size"
  let pleafAligned := leafAligned paligned
  let proof ← Machine.getProofSkip h m pleafAligned log2WordSize
  let read ← Machine.readMemory m pleafAligned wordSize
  let readHash ← getMerkleTreeHash h read
  let loggedVal := getWordAccessData read (paligned - pleafAligned).toNat
  throwUnless (val = loggedVal) "read value does not match logged value"
  .ok { type := .read, address := paligned, log2Size := 3, read := some read, readHash,
        written := none, writtenHash := none, siblingHashes := some proof.siblingHashes }

/-- The access logged for a write, before it happens. -/
def logWriteAccess (m : Machine H) (paligned word : Word) : Except String (Access H) := do
  throwUnless (paligned &&& 7 = 0) "paligned is not aligned to word size"
  let pleafAligned := leafAligned paligned
  let proof ← Machine.getProofSkip h m pleafAligned log2WordSize
  let read ← Machine.readMemory m pleafAligned wordSize
  let readHash ← getMerkleTreeHash h read
  let written := replaceWordAccessData word read (paligned - pleafAligned).toNat
  let writtenHash ← getMerkleTreeHash h written
  .ok { type := .write, address := paligned, log2Size := 3, read := some read, readHash,
        written := some written, writtenHash := some writtenHash,
        siblingHashes := some proof.siblingHashes }

/-- Read a value of the machine and log the access. -/
def logRead (paligned : Word) (val : Machine H → Except String Word) : Record H Word := do
  let v ← query fun r => val r.1
  update fun r => do
    let a ← logReadAccess h r.1 paligned v
    .ok (r.1, r.2 ++ [a])
  return v

def logBeforeWrite (paligned word : Word) : Record H Unit :=
  update fun r => do
    let a ← logWriteAccess h r.1 paligned word
    .ok (r.1, r.2 ++ [a])

def store (f : Machine H → Except String (Machine H)) : Record H Unit :=
  update fun r => do
    let m ← f r.1
    .ok (m, r.2)

def updateAfterWrite (paligned : Word) : Record H Unit :=
  update fun r =>
    match Machine.updateMerkleTreePage h r.1 paligned with
    | some m => .ok (m, r.2)
    | none => .error "Assertion failed: updated"

def logBeforeWriteWriteAndUpdate (paligned word : Word) (f : Machine H → Except String (Machine H)) :
    Record H Unit := do
  logBeforeWrite h paligned word
  store f
  updateAfterWrite h paligned

/-- Writing is refused before it is logged if the memory range is not writable. -/
def checkWritable (m : Machine H) (paddr : Word) : Except String Unit :=
  let pma := findMemoryPmaEntry m.s.board paddr 8
  throwUnless (pma.entry.istartE ∨ pma.entry.flags.W) "pma is not writable"

def haltFlagWord (m : Machine H) : Word := if m.uarch.haltFlag then 1 else 0

def recordStateAccess : Handler UarchSig String (Machine H × List (Access H))
  | .readX reg => logRead h (UarchReg.x reg).address fun m => .ok (m.uarch.x.get reg)
  | .writeX reg val => do
    query fun _ => throwUnless (reg ≠ 0) "Assertion failed: reg != 0"
    logBeforeWriteWriteAndUpdate h (UarchReg.x reg).address val fun m => doWriteX m reg val
  | .readPc => logRead h UarchReg.pc.address fun m => .ok m.uarch.pc
  | .writePc val =>
    logBeforeWriteWriteAndUpdate h UarchReg.pc.address val fun m =>
      .ok (setUarch m { m.uarch with pc := val })
  | .readCycle => logRead h UarchReg.cycle.address fun m => .ok m.uarch.cycle
  | .writeCycle val =>
    logBeforeWriteWriteAndUpdate h UarchReg.cycle.address val fun m =>
      .ok (setUarch m { m.uarch with cycle := val })
  | .readHaltFlag => do
    let v ← logRead h UarchReg.haltFlag.address fun m => .ok (haltFlagWord m)
    return v != 0
  | .setHaltFlag => do
    -- the flag is written through a 64-bit copy, so the page is rehashed once before the write too
    logBeforeWriteWriteAndUpdate h UarchReg.haltFlag.address 1 .ok
    store fun m => .ok (setUarch m { m.uarch with haltFlag := true })
    updateAfterWrite h UarchReg.haltFlag.address
  | .readWord paddr => do
    query fun _ => throwUnless (paddr &&& 7 = 0)
      "Assertion failed: (paddr & (sizeof(uint64_t) - 1)) == 0"
    logRead h paddr fun m => doReadWord m paddr
  | .writeWord paddr val => do
    query fun _ => throwUnless (paddr &&& 7 = 0)
      "Assertion failed: (paddr & (sizeof(uint64_t) - 1)) == 0"
    query fun r => checkWritable r.1 paddr
    logBeforeWriteWriteAndUpdate h paddr val (storeWord paddr val)
  | .putChar _ => pure ()
  | .fail message => query fun _ => .error message

/-- Run a program with an empty log and return the log. -/
def recorded {α : Type} (p : Record H α) : EStateM String (Machine H) (List (Access H)) := fun m =>
  match p (m, []) with
  | .ok _ (m', log) => .ok log m'
  | .error e (m', _) => .error e m'

def logStepUarch : EStateM String (Machine H) (List (Access H)) := do
  let rootHashBefore ← Machine.getRootHash h
  let log ← recorded (uarchStep.run (recordStateAccess h))
  let rootHashAfter ← Machine.getRootHash h
  query fun _ => verifyStepUarch h rootHashBefore log rootHashAfter
  return log

end

/-! ## What a recording machine keeps -/

section
variable {h : Hasher H} {m : Machine H} {p v : Word}

/-- The recording machine is the plain one, up to what it keeps for the tree, and its tree holds the
image. -/
structure Follows (h : Hasher H) (m : Machine H) (r : Machine H × List (Access H)) : Prop where
  core_eq : r.1.core = m.core
  tree : TreeHolds h r.1
  disjoint : m.s.board.UarchDisjoint

theorem Follows.disjoint_record {r : Machine H × List (Access H)} (hR : Follows h m r) :
    r.1.s.board.UarchDisjoint := by
  rw [board_congr hR.core_eq]
  exact hR.disjoint

theorem inRange_congr {m r : Machine H} (hb : r.s.board = m.s.board) {x : Nat} (hx : m.InRange x) :
    r.InRange x := by
  unfold InRange at hx ⊢
  rwa [hb]

/-- `g` does to the recording machine what `f` does to the plain one. -/
def Mirrors (f g : Machine H → Except String (Machine H)) : Prop :=
  ∀ m m' r, f m = .ok m' → r.core = m.core → ∃ r', g r = .ok r' ∧ r'.core = m'.core ∧ r'.tree = r.tree

/-- A store that only looks at and changes what is not kept for the tree. -/
theorem mirrors_of_core {f g : Machine H → Except String (Machine H)}
    (hf : ∀ m m', f m = .ok m' → ∃ m1, g m = .ok m1 ∧ m1.core = m'.core)
    (hg : ∀ m, (g m.core).map core = (g m).map core)
    (ht : ∀ m m', g m = .ok m' → m'.tree = m.tree) : Mirrors f g := by
  intro m m' r hm hcore
  obtain ⟨m1, hm1, hm'⟩ := hf m m' hm
  have hmap : (g r).map core = .ok m'.core := by
    rw [← hg, hcore, hg, hm1, ← hm']
    rfl
  cases hr : g r with
  | error e =>
    rw [hr] at hmap
    cases hmap
  | ok r' =>
    rw [hr] at hmap
    exact ⟨r', rfl, Except.ok.inj hmap, ht r r' hr⟩

theorem updateAfterWrite_spec {r s : Machine H} (log : List (Access H))
    (hd : r.s.board.UarchDisjoint) (ht : TreeHolds h r) (htree : s.tree = r.tree)
    (hb : s.s.board = r.s.board) (hp : p.toNat % 8 = 0) (hin : r.InRange p.toNat)
    (himage : s.image = writeBytes r.image p.toNat (toLE 8 v.toNat)) :
    ∃ s', updateAfterWrite h p (s, log) = .ok () (s', log) ∧ s'.core = s.core ∧ TreeHolds h s' := by
  obtain ⟨s', hupd, hcore, ht'⟩ := ht.updateMerkleTreePage hd htree hb hin fun x hx => by
    rw [himage]
    refine writeBytes_of_not_mem ?_
    simp only [length_toLE, pmaPageSize] at hx ⊢
    omega
  refine ⟨s', ?_, hcore, ht'⟩
  unfold updateAfterWrite
  rw [update_ok_iff]
  simp [hupd]

theorem store_ok_iff {f : Machine H → Except String (Machine H)} {r r' : Machine H × List (Access H)}
    {u : Unit} : store f r = .ok u r' ↔ f r.1 = .ok r'.1 ∧ r'.2 = r.2 := by
  unfold store
  rw [update_ok_iff, except_bind_ok_iff]
  constructor
  · rintro ⟨m, hm, hr⟩
    cases hr
    exact ⟨hm, rfl⟩
  · rintro ⟨hm, hl⟩
    exact ⟨r'.1, hm, by rw [← hl]⟩

theorem storeWord_tree {paddr val : Word} {m m' : Machine H} (hm : storeWord paddr val m = .ok m') :
    m'.tree = m.tree := by
  unfold storeWord at hm
  simp only at hm
  split at hm
  · obtain ⟨s, -, hm⟩ := except_bind_ok_iff.mp hm
    cases hm
    rfl
  · generalize findMemoryPmaEntry m.s.board paddr 8 = pma at hm
    cases Except.ok.inj hm
    cases pma <;> rfl

theorem doWriteX_tree {reg : Fin 32} {val : Word} {m m' : Machine H}
    (hm : doWriteX m reg val = .ok m') : m'.tree = m.tree := by
  unfold doWriteX at hm
  split at hm
  · cases hm
    rfl
  · cases hm

theorem mirrors_writeX (reg : Fin 32) (val : Word) :
    Mirrors (H := H) (fun m => doWriteX m reg val) (fun m => doWriteX m reg val) := by
  refine mirrors_of_core (fun m m' hm => ⟨m', hm, rfl⟩) (fun m => ?_) fun m m' hm => ?_
  · unfold doWriteX
    split <;> rfl
  · exact doWriteX_tree hm

theorem mirrors_setUarch {f : UarchState → UarchState}
    (hf : ∀ m : Machine H, (setUarch m.core (f m.core.uarch)).core = (setUarch m (f m.uarch)).core) :
    Mirrors (H := H) (fun m => .ok (setUarch m (f m.uarch))) (fun m => .ok (setUarch m (f m.uarch))) :=
  mirrors_of_core (fun m m' hm => ⟨m', hm, rfl⟩) (fun m => congrArg Except.ok (hf m))
    fun m m' hm => by
      cases hm
      rfl

theorem mirrors_writeWord (paddr val : Word) :
    Mirrors (H := H) (fun m => doWriteWord m paddr val) (storeWord paddr val) := by
  refine mirrors_of_core (fun m m' hm => ?_) (fun m => ?_) fun m m' hm => ?_
  · obtain ⟨m1, h1, rfl | ⟨pma, rfl⟩⟩ := doWriteWord_ok hm
    · exact ⟨m', h1, rfl⟩
    · exact ⟨m1, h1, by cases pma <;> rfl⟩
  · unfold storeWord
    simp only
    have hb : m.core.s.board = m.s.board := rfl
    rw [hb]
    split
    · have hd := UarchBridge.writeRegister_dirty m.s (fun _ => false) paddr val
      have hs : m.core.s = { m.s with dirty := fun _ => false } := rfl
      rw [hs, hd]
      cases UarchBridge.writeRegister m.s paddr val <;> rfl
    · generalize findMemoryPmaEntry m.s.board paddr 8 = pma
      cases pma <;> rfl
  · exact storeWord_tree hm

/-- A check that keeps the state and passes may stand before the second computation. -/
theorem forward_query {α β : Type} {x : EStateM String (Machine H) α} {y : Record H α}
    {c : Machine H × List (Access H) → Except String β}
    (hc : ∀ m a m' r, Follows h m r → x m = .ok a m' → ∃ b, c r = .ok b)
    (hxy : Forward (Follows h) x y) : Forward (Follows h) x (do let _ ← query c; y) := by
  intro m r a m' hR hx
  obtain ⟨b, hb⟩ := hc m a m' r hR hx
  obtain ⟨r', hy, hR'⟩ := hxy m r a m' hR hx
  exact ⟨r', bind_ok_iff.mpr ⟨b, r, query_ok_iff.mpr ⟨hb, rfl⟩, hy⟩, hR'⟩

theorem checkWritable_of_ok {r : Machine H} {m m' : Machine H} {paddr val : Word}
    (hb : r.s.board = m.s.board) (hm : doWriteWord m paddr val = .ok m') : checkWritable r paddr = .ok () := by
  unfold checkWritable
  rw [hb]
  refine throwUnless_ok_iff.mpr ?_
  unfold doWriteWord at hm
  simp only at hm
  split at hm
  · rename_i hE
    exact .inl hE
  · split at hm
    · cases hm
    · rename_i hW
      exact .inr (by simpa using hW)

/-- The replay is at the root of the recording machine, whose tree holds its image, and the accesses
logged so far carry full paths. -/
structure Replayed (h : Hasher H) (r : Machine H × List (Access H)) (t : ReplayState H) : Prop where
  root_eq : t.rootHash = h.root r.1.image
  tree : TreeHolds h r.1
  disjoint : r.1.s.board.UarchDisjoint
  fullPath : ∀ a ∈ r.2, a.FullPath

theorem Replayed.fullPath_snoc {r : Machine H × List (Access H)} {t : ReplayState H}
    (hR : Replayed h r t) {a : Access H} (ha : a.FullPath) : ∀ b ∈ r.2 ++ [a], b.FullPath := by
  intro b hb
  rcases List.mem_append.mp hb with hb | hb
  · exact hR.fullPath b hb
  · rw [List.mem_singleton.mp hb]
    exact ha

/-- The end of a recorded write: the replay has followed it. -/
theorem replayed_write {r r' r'' : Machine H} {log log' : List (Access H)} {u : Unit} {n : Nat}
    (hd : r.s.board.UarchDisjoint) (ht : TreeHolds h r) (hp : p.toNat % 8 = 0)
    (hin : r.InRange p.toNat) (htree : r'.tree = r.tree) (hb : r'.s.board = r.s.board)
    (himage : r'.image = writeBytes r.image p.toNat (toLE 8 v.toNat))
    (hfull : ∀ a ∈ log, a.FullPath) (hupd : updateAfterWrite h p (r', log) = .ok u (r'', log')) : log' = log ∧
      Replayed h (r'', log') ⟨h.root (writeBytes r.image p.toNat (toLE 8 v.toNat)), n⟩ := by
  obtain ⟨r1, hupd1, hcore, ht1⟩ := updateAfterWrite_spec log hd ht htree hb hp hin himage
  rw [hupd1] at hupd
  cases hupd
  refine ⟨rfl, ?_, ht1, ?_, hfull⟩
  · rw [image_congr hcore, himage]
  · rw [board_congr hcore, hb]
    exact hd

/-- Checks that keep the state may stand before both computations. -/
theorem replays_query {α β γ : Type} {x : Record H α} {y : Replay H α}
    {c : Machine H × List (Access H) → Except String β} {d : ReplayState H × List (Access H) → Except String γ}
    (hd : ∀ r b t, c r = .ok b → ∃ e, d t = .ok e) (hxy : Replays (Replayed h) Prod.snd x y) :
    Replays (Replayed h) Prod.snd (do let _ ← query c; x) (do let _ ← query d; y) := by
  intro r t a r' hR hx
  obtain ⟨b, r1, hc, hx1⟩ := bind_ok_iff.mp hx
  obtain ⟨hc, rfl⟩ := query_ok_iff.mp hc
  obtain ⟨es, t', hlog, hR', hy⟩ := hxy r1 t a r' hR hx1
  refine ⟨es, t', hlog, hR', fun rest => ?_⟩
  obtain ⟨e, he⟩ := hd r1 b (t, es ++ rest) hc
  exact bind_ok_iff.mpr ⟨e, _, query_ok_iff.mpr ⟨he, rfl⟩, hy rest⟩

end

/-! ## Logged accesses are accesses of the image -/

section
variable [DecidableEq H] {h : Hasher H} {m : Machine H} {p v : Word} {a : Access H}

theorem getProofSkip_leaf (hd : m.s.board.UarchDisjoint) (ht : TreeHolds h m) (p : Word) :
    getProofSkip h m (leafAligned p) log2WordSize =
      .ok (imageProof h m.image (leafAligned p) log2WordSize) := by
  refine ht.getProofSkip_eq hd (Nat.le_refl _) (by decide) ?_
  rw [toNat_leafAligned]
  exact Nat.mul_mod_right _ _

theorem logReadAccess_ok_iff (hd : m.s.board.UarchDisjoint) (ht : TreeHolds h m) :
    logReadAccess h m p v = .ok a ↔ p.toNat % 8 = 0 ∧ m.InRange p.toNat ∧
      v = imageWord m.image p.toNat ∧ a = readAccess h m.image p := by
  unfold logReadAccess
  simp only [except_bind_ok_iff, throwUnless_ok_iff, getProofSkip_leaf hd ht,
    readMemory_leaf_ok_iff hd, and_seven_iff]
  constructor
  · rintro ⟨-, hp, _, hproof, _, ⟨hin, rfl⟩, _, hhash, -, hv, ha⟩
    rw [getMerkleTreeHash_leaf] at hhash
    cases hproof
    cases hhash
    cases ha
    rw [getWordAccessData_readBytes _ hp] at hv
    exact ⟨hp, hin, hv, rfl⟩
  · rintro ⟨hp, hin, rfl, rfl⟩
    exact ⟨(), hp, _, rfl, _, ⟨hin, rfl⟩, _, getMerkleTreeHash_leaf _ _, (),
      (getWordAccessData_readBytes _ hp).symm, rfl⟩

theorem logWriteAccess_ok_iff (hd : m.s.board.UarchDisjoint) (ht : TreeHolds h m) :
    logWriteAccess h m p v = .ok a ↔ p.toNat % 8 = 0 ∧ m.InRange p.toNat ∧ a = writeAccess h m.image p v := by
  unfold logWriteAccess
  simp only [except_bind_ok_iff, throwUnless_ok_iff, getProofSkip_leaf hd ht,
    readMemory_leaf_ok_iff hd, and_seven_iff]
  constructor
  · rintro ⟨-, hp, _, hproof, _, ⟨hin, rfl⟩, _, hhash, _, hwritten, ha⟩
    rw [replaceWordAccessData_readBytes _ _ hp, getMerkleTreeHash_leaf] at hwritten
    rw [getMerkleTreeHash_leaf] at hhash
    cases hproof
    cases hhash
    cases hwritten
    cases ha
    rw [replaceWordAccessData_readBytes _ _ hp]
    exact ⟨hp, hin, rfl⟩
  · rintro ⟨hp, hin, rfl⟩
    refine ⟨(), hp, _, rfl, _, ⟨hin, rfl⟩, _, getMerkleTreeHash_leaf _ _,
      h.leaf (writeBytes m.image p.toNat (toLE 8 v.toNat)) (p.toNat / wordSize), ?_, ?_⟩
    · rw [replaceWordAccessData_readBytes _ _ hp, getMerkleTreeHash_leaf]
    · rw [replaceWordAccessData_readBytes _ _ hp]
      rfl

/-! ## The recorder follows the plain accessor -/

theorem logRead_ok_iff {val : Machine H → Except String Word} {r r' : Machine H × List (Access H)}
    (hd : r.1.s.board.UarchDisjoint) (ht : TreeHolds h r.1) :
    logRead h p val r = .ok v r' ↔ val r.1 = .ok v ∧ p.toNat % 8 = 0 ∧ r.1.InRange p.toNat ∧
      v = imageWord r.1.image p.toNat ∧ r' = (r.1, r.2 ++ [readAccess h r.1.image p]) := by
  unfold logRead
  simp only [bind_ok_iff, query_ok_iff, update_ok_iff, pure_ok_iff]
  constructor
  · rintro ⟨w, r1, ⟨hv, rfl⟩, -, r2, hlog, rfl, rfl⟩
    obtain ⟨a, ha, hr⟩ := except_bind_ok_iff.mp hlog
    obtain ⟨hp, hin, hw, rfl⟩ := (logReadAccess_ok_iff hd ht).mp ha
    exact ⟨hv, hp, hin, hw, (Except.ok.inj hr).symm⟩
  · rintro ⟨hv, hp, hin, hw, rfl⟩
    exact ⟨v, r, ⟨hv, rfl⟩, (), _, except_bind_ok_iff.mpr
      ⟨_, (logReadAccess_ok_iff hd ht).mpr ⟨hp, hin, hw, rfl⟩, rfl⟩, rfl, rfl⟩

theorem forward_logRead {val : Machine H → Except String Word} (hread : ReadsWord (query val) p id)
    (hp : p.toNat % 8 = 0) (hval : ∀ m, val m.core = val m) :
    Forward (Follows h) (query val) (logRead h p val) := by
  intro m r v m' hR hx
  obtain ⟨rfl, hin, w, hvw, hw⟩ := hread m v m' hR.disjoint hx
  obtain rfl : v = w := hvw
  have hv : val r.1 = .ok v := by
    rw [← hval, hR.core_eq, hval]
    exact (query_ok_iff.mp hx).1
  refine ⟨_, (logRead_ok_iff hR.disjoint_record hR.tree).mpr
    ⟨hv, hp, inRange_congr (board_congr hR.core_eq) hin, ?_, rfl⟩, hR.core_eq, hR.tree,
    hR.disjoint⟩
  rw [image_congr hR.core_eq, imageWord_of_readBytes hw]

theorem logBeforeWrite_ok_iff {r r' : Machine H × List (Access H)} {u : Unit}
    (hd : r.1.s.board.UarchDisjoint) (ht : TreeHolds h r.1) :
    logBeforeWrite h p v r = .ok u r' ↔ p.toNat % 8 = 0 ∧ r.1.InRange p.toNat ∧
      r' = (r.1, r.2 ++ [writeAccess h r.1.image p v]) := by
  unfold logBeforeWrite
  simp only [update_ok_iff, except_bind_ok_iff, logWriteAccess_ok_iff hd ht]
  constructor
  · rintro ⟨a, ⟨hp, hin, rfl⟩, hr⟩
    exact ⟨hp, hin, (Except.ok.inj hr).symm⟩
  · rintro ⟨hp, hin, rfl⟩
    exact ⟨_, ⟨hp, hin, rfl⟩, rfl⟩

theorem forward_logBeforeWriteWriteAndUpdate {f g : Machine H → Except String (Machine H)}
    (hwrite : WritesWord (update f) p v) (hp : p.toNat % 8 = 0) (hfg : Mirrors f g) :
    Forward (Follows h) (update f) (logBeforeWriteWriteAndUpdate h p v g) := by
  intro m r u m' hR hx
  obtain ⟨hboard, hin, himage⟩ := hwrite m u m' hR.disjoint hx
  obtain ⟨r', hr', hcore', htree'⟩ := hfg m m' r.1 (update_ok_iff.mp hx) hR.core_eq
  have hb := board_congr hR.core_eq
  have hin' := inRange_congr hb hin
  obtain ⟨r'', hupd, hcore'', ht''⟩ := updateAfterWrite_spec (h := h) (p := p) (v := v) (s := r')
    (r.2 ++ [writeAccess h r.1.image p v]) hR.disjoint_record hR.tree htree'
    (by rw [board_congr hcore', hboard, hb]) hp hin'
    (by rw [image_congr hcore', himage, image_congr hR.core_eq])
  refine ⟨(r'', r.2 ++ [writeAccess h r.1.image p v]), ?_, hcore''.trans hcore', ht'',
    by rw [hboard]; exact hR.disjoint⟩
  unfold logBeforeWriteWriteAndUpdate
  simp only [bind_ok_iff]
  exact ⟨(), _, (logBeforeWrite_ok_iff hR.disjoint_record hR.tree).mpr ⟨hp, hin', rfl⟩, (),
    (r', r.2 ++ [writeAccess h r.1.image p v]), store_ok_iff.mpr ⟨hr', rfl⟩, hupd⟩

/-! ## Every operation -/

theorem forward_setHaltFlag :
    Forward (Follows h) (stateAccess (H := H) .setHaltFlag) (recordStateAccess h .setHaltFlag) := by
  intro m r u m' hR hx
  have hx : update (fun m : Machine H => .ok (setUarch m { m.uarch with haltFlag := true })) m =
      .ok u m' := hx
  obtain ⟨hboard, hin, himage⟩ := writesWord_setHaltFlag m u m' hR.disjoint hx
  have hp : haltFlag.address.toNat % 8 = 0 := address_mod _
  have hb := board_congr hR.core_eq
  have hin' := inRange_congr hb hin
  -- nothing has changed yet at the first rehash
  obtain ⟨r1, hupd1, hcore1, ht1⟩ : ∃ r1, updateAfterWrite h haltFlag.address
      (r.1, r.2 ++ [writeAccess h r.1.image haltFlag.address 1]) = .ok ()
        (r1, r.2 ++ [writeAccess h r.1.image haltFlag.address 1]) ∧
      r1.core = r.1.core ∧ TreeHolds h r1 := by
    obtain ⟨r1, hupd, hcore, ht⟩ := hR.tree.updateMerkleTreePage (n := r.1) hR.disjoint_record rfl rfl
      hin' fun _ _ => rfl
    refine ⟨r1, ?_, hcore, ht⟩
    unfold updateAfterWrite
    rw [update_ok_iff]
    simp [hupd]
  obtain ⟨r2, hr2, hcore2, htree2⟩ := mirrors_setUarch (f := fun u => { u with haltFlag := true })
    (fun _ => rfl) m m' r1 (update_ok_iff.mp hx) (hcore1.trans hR.core_eq)
  have hb1 := board_congr hcore1
  obtain ⟨r3, hupd3, hcore3, ht3⟩ := updateAfterWrite_spec (h := h) (v := 1) (r := r1) (s := r2)
    (r.2 ++ [writeAccess h r.1.image haltFlag.address 1])
    (by rw [hb1]; exact hR.disjoint_record) ht1 htree2
    (by rw [board_congr hcore2, hboard, hb1, hb]) hp (inRange_congr hb1 hin')
    (by rw [image_congr hcore2, himage, image_congr hcore1,
      image_congr hR.core_eq])
  refine ⟨(r3, r.2 ++ [writeAccess h r.1.image haltFlag.address 1]), ?_,
    hcore3.trans hcore2, ht3, by rw [hboard]; exact hR.disjoint⟩
  change (do
    logBeforeWriteWriteAndUpdate h haltFlag.address 1 .ok
    store fun m => .ok (setUarch m { m.uarch with haltFlag := true })
    updateAfterWrite h haltFlag.address : Record H Unit) r = .ok () _
  unfold logBeforeWriteWriteAndUpdate
  simp only [bind_ok_iff]
  exact ⟨(), _, ⟨(), _, (logBeforeWrite_ok_iff hR.disjoint_record hR.tree).mpr ⟨hp, hin', rfl⟩, (),
    (r.1, _), store_ok_iff.mpr ⟨rfl, rfl⟩, hupd1⟩, (), (r2, _), store_ok_iff.mpr ⟨hr2, rfl⟩, hupd3⟩

/-- Every aligned operation of the recorder follows the plain one. -/
theorem forward_record (o : UarchOp) (ho : Aligned o) :
    Forward (Follows h) (stateAccess (H := H) o) (recordStateAccess h o) := by
  cases o with
  | readX reg => exact forward_logRead (readsWord_readX reg) (address_mod _) fun _ => rfl
  | writeX reg val =>
    refine forward_query (fun m u m' r _ hx => ?_) (forward_logBeforeWriteWriteAndUpdate
      (writesWord_writeX reg val) (address_mod _) (mirrors_writeX reg val))
    have hx : update (fun m : Machine H => doWriteX m reg val) m = .ok u m' := hx
    have hx := update_ok_iff.mp hx
    unfold doWriteX at hx
    split at hx
    · rename_i hreg
      exact ⟨(), throwUnless_ok_iff.mpr hreg⟩
    · cases hx
  | readPc => exact forward_logRead readsWord_readPc (address_mod _) fun _ => rfl
  | writePc val =>
    exact forward_logBeforeWriteWriteAndUpdate (writesWord_writePc val) (address_mod _)
      (mirrors_setUarch (f := fun u => { u with pc := val }) fun _ => rfl)
  | readCycle => exact forward_logRead readsWord_readCycle (address_mod _) fun _ => rfl
  | writeCycle val =>
    exact forward_logBeforeWriteWriteAndUpdate (writesWord_writeCycle val) (address_mod _)
      (mirrors_setUarch (f := fun u => { u with cycle := val }) fun _ => rfl)
  | readHaltFlag =>
    have hword : ReadsWord (query fun m : Machine H => .ok (haltFlagWord m)) haltFlag.address
        id := readsWord_uarchReg .haltFlag fun _ => rfl
    intro m r b m' hR hx
    have hx : query (fun m : Machine H => .ok m.uarch.haltFlag) m = .ok b m' := hx
    obtain ⟨hb, rfl⟩ := query_ok_iff.mp hx
    obtain ⟨r', hr, hR'⟩ := forward_logRead (h := h) hword (address_mod _) (fun _ => rfl) m' r
      (haltFlagWord m') m' hR rfl
    refine ⟨r', bind_ok_iff.mpr ⟨_, r', hr, pure_ok_iff.mpr ⟨?_, rfl⟩⟩, hR'⟩
    rw [← Except.ok.inj hb, haltFlagWord]
    cases m'.uarch.haltFlag <;> rfl
  | setHaltFlag => exact forward_setHaltFlag
  | readWord paddr =>
    exact forward_query (fun _ _ _ _ _ _ => ⟨(), throwUnless_ok_iff.mpr ho⟩)
      (forward_logRead (readsWord_readWord paddr) (and_seven_iff.mp ho) fun _ => rfl)
  | writeWord paddr val =>
    refine forward_query (fun _ _ _ _ _ _ => ⟨(), throwUnless_ok_iff.mpr ho⟩)
      (forward_query (fun m u m' r hR hx => ⟨(), ?_⟩) (forward_logBeforeWriteWriteAndUpdate
        (writesWord_writeWord paddr val) (and_seven_iff.mp ho) (mirrors_writeWord paddr val)))
    have hx : update (fun m : Machine H => doWriteWord m paddr val) m = .ok u m' := hx
    exact checkWritable_of_ok (board_congr hR.core_eq) (update_ok_iff.mp hx)
  | putChar c => exact Forward.pure ()
  | fail message =>
    intro m r a
    exact a.elim

/-! ## The replay accepts what was recorded -/

theorem checkRead_of_access {t : ReplayState H} {rest : List (Access H)} {text : String} (hp : p.toNat % 8 = 0)
    (hc : checkReadAccess h t.rootHash t.nextAccess a p text = .ok v) :
    checkRead h p text (t, a :: rest) = .ok v ({ t with nextAccess := t.nextAccess + 1 }, rest) := by
  unfold checkRead
  rw [if_neg (not_not.mpr (and_seven_iff.mpr hp))]
  simp only [checkAccess, hc]
  rfl

theorem checkWrite_of_access {t : ReplayState H} {rest : List (Access H)} {text : String} {root' : H}
    (hp : p.toNat % 8 = 0) (hc : checkWriteAccess h t.rootHash t.nextAccess a p v text = .ok root') :
    checkWrite h p v text (t, a :: rest) =
      .ok () ({ rootHash := root', nextAccess := t.nextAccess + 1 }, rest) := by
  unfold checkWrite
  rw [if_neg (not_not.mpr (and_seven_iff.mpr hp))]
  simp only [checkAccess, hc]
  rfl

theorem replays_logRead (val : Machine H → Except String Word) (text : String) :
    Replays (Replayed h) Prod.snd (logRead h p val) (checkRead h p text) := by
  intro r t w r' hR hx
  obtain ⟨-, hp, -, hw, rfl⟩ := (logRead_ok_iff hR.disjoint hR.tree).mp hx
  refine ⟨[readAccess h r.1.image p], { t with nextAccess := t.nextAccess + 1 }, rfl,
    ⟨hR.root_eq, hR.tree, hR.disjoint, hR.fullPath_snoc (readAccess_fullPath _ _)⟩,
    fun rest => checkRead_of_access hp ?_⟩
  rw [hR.root_eq, hw]
  exact checkReadAccess_readAccess _ hp _ _

theorem replays_logBeforeWriteWriteAndUpdate {g : Machine H → Except String (Machine H)}
    (hwrite : WritesWord (update g) p v) (htree : ∀ m m', g m = .ok m' → m'.tree = m.tree) (text : String) :
    Replays (Replayed h) Prod.snd (logBeforeWriteWriteAndUpdate h p v g) (checkWrite h p v text) := by
  intro r t u r' hR hx
  unfold logBeforeWriteWriteAndUpdate at hx
  simp only [bind_ok_iff, logBeforeWrite_ok_iff hR.disjoint hR.tree, store_ok_iff] at hx
  obtain ⟨-, _, ⟨hp, hin, rfl⟩, -, ⟨r1, log1⟩, ⟨hg, rfl⟩, hupd⟩ := hx
  obtain ⟨hboard, -, himage⟩ := hwrite r.1 () r1 hR.disjoint (update_ok_iff.mpr hg)
  obtain ⟨hlog, hR'⟩ := replayed_write (n := t.nextAccess + 1) hR.disjoint hR.tree hp hin
    (htree _ _ hg) hboard himage (hR.fullPath_snoc (writeAccess_fullPath _ _ _)) hupd
  refine ⟨[writeAccess h r.1.image p v], _, hlog, hR', fun rest => checkWrite_of_access hp ?_⟩
  rw [hR.root_eq]
  exact checkWriteAccess_writeAccess _ hp _ _ _

theorem replays_setHaltFlag : Replays (Replayed h) Prod.snd (recordStateAccess h .setHaltFlag)
      (replayStateAccess h .setHaltFlag) := by
  intro r t u r' hR hx
  change (do
    logBeforeWriteWriteAndUpdate h haltFlag.address 1 .ok
    store fun m => .ok (setUarch m { m.uarch with haltFlag := true })
    updateAfterWrite h haltFlag.address : Record H Unit) r = .ok () r' at hx
  unfold logBeforeWriteWriteAndUpdate at hx
  simp only [bind_ok_iff, logBeforeWrite_ok_iff hR.disjoint hR.tree, store_ok_iff] at hx
  obtain ⟨_, ⟨r2, log2⟩, ⟨_, _, ⟨hp, hin, rfl⟩, _, ⟨r1, log1⟩, ⟨hg, hl⟩, hupd1⟩, _, ⟨r3, log3⟩, ⟨hg3, hl3⟩,
    hupd3⟩ := hx
  obtain rfl : log3 = log2 := hl3
  obtain rfl : r.1 = r1 := Except.ok.inj hg
  -- the first rehash changes nothing
  obtain ⟨r2', hupd2, hcore2, ht2⟩ := hR.tree.updateMerkleTreePage (n := r.1) hR.disjoint rfl rfl
    hin fun _ _ => rfl
  simp only [updateAfterWrite, update_ok_iff, hupd2] at hupd1
  obtain ⟨rfl, rfl⟩ := Prod.mk.inj (Except.ok.inj hupd1)
  have hb2 := board_congr hcore2
  have hg3 : setUarch r2' { r2'.uarch with haltFlag := true } = r3 := Except.ok.inj hg3
  obtain ⟨hboard, -, himage⟩ := writesWord_setHaltFlag r2' () r3 (by rw [hb2]; exact hR.disjoint)
    (update_ok_iff.mpr (congrArg Except.ok hg3))
  obtain ⟨hlog, hR'⟩ := replayed_write (n := t.nextAccess + 1) (by rw [hb2]; exact hR.disjoint) ht2 hp
    (inRange_congr hb2 hin) (by rw [← hg3]; rfl) hboard himage
    (by
      have hl : log1 = _ := hl
      rw [hl]
      exact hR.fullPath_snoc (writeAccess_fullPath _ _ _)) hupd3
  rw [image_congr hcore2] at hR'
  have hlog := hlog.trans hl
  refine ⟨[writeAccess h r.1.image haltFlag.address 1], _, hlog, hR',
    fun rest => checkWrite_of_access hp ?_⟩
  rw [hR.root_eq]
  exact checkWriteAccess_writeAccess _ hp _ _ _

/-- What an operation records is replayed by the same operation. -/
theorem replays_record (o : UarchOp) :
    Replays (Replayed h) Prod.snd (recordStateAccess h o) (replayStateAccess h o) := by
  have hset : ∀ {f : UarchState → UarchState} (m m' : Machine H),
      (Except.ok (setUarch m (f m.uarch)) : Except String (Machine H)) = .ok m' → m'.tree = m.tree := by
    intro f m m' hm
    cases hm
    rfl
  cases o with
  | readX reg => exact replays_logRead (fun m => .ok (m.uarch.x.get reg)) "uarch.x"
  | writeX reg val =>
    exact replays_query (fun _ _ _ hc => ⟨(), hc⟩) (replays_logBeforeWriteWriteAndUpdate
      (writesWord_writeX reg val) (fun _ _ hm => doWriteX_tree hm) _)
  | readPc => exact replays_logRead (fun m => .ok m.uarch.pc) "uarch.pc"
  | writePc val =>
    exact replays_logBeforeWriteWriteAndUpdate (writesWord_writePc val)
      (hset (f := fun u => { u with pc := val })) "uarch.pc"
  | readCycle => exact replays_logRead (fun m => .ok m.uarch.cycle) "uarch.uarch_cycle"
  | writeCycle val =>
    exact replays_logBeforeWriteWriteAndUpdate (writesWord_writeCycle val)
      (hset (f := fun u => { u with cycle := val })) "uarch.cycle"
  | readHaltFlag =>
    exact (replays_logRead (fun m => .ok (haltFlagWord m)) "uarch.halt_flag").bind fun v =>
      Replays.pure _
  | setHaltFlag => exact replays_setHaltFlag
  | readWord paddr =>
    exact replays_query (fun _ _ _ hc => ⟨(), hc⟩) (replays_logRead (fun m => doReadWord m paddr) _)
  | writeWord paddr val =>
    have hwrite := replays_logBeforeWriteWriteAndUpdate (h := h) (writesWord_storeWord paddr val)
      (fun _ _ hm => storeWord_tree hm) (wordName paddr)
    refine replays_query (fun _ _ _ hc => ⟨(), hc⟩) ?_
    intro r t u r' hR hx
    obtain ⟨b, r1, hc, hx1⟩ := bind_ok_iff.mp hx
    obtain ⟨hc, rfl⟩ := query_ok_iff.mp hc
    exact hwrite r1 t u r' hR hx1
  | putChar c => exact Replays.pure ()
  | fail message =>
    intro r t a
    exact a.elim

/-! ## A recorded step -/

/-- A step always makes an access: a log without one is not replayed. -/
theorem uarchStep_replay_nil (t : ReplayState H) {status : UarchStepStatus}
    {t' : ReplayState H × List (Access H)} : uarchStep.run (replayStateAccess h) (t, []) ≠ .ok status t' := by
  intro hx
  have hx : (do
    let cycle ← checkRead h cycle.address "uarch.uarch_cycle"
    Prog.run (replayStateAccess h) (do
      if cycle = -1 then return .cycleOverflow
      if ← readHaltFlag then return .uarchHalted
      let pc ← readPc
      let insn ← readUint32 pc
      executeInsn insn pc
      writeCycle (cycle + 1)
      return .success) : Replay H UarchStepStatus) (t, []) = .ok status t' := hx
  obtain ⟨v, t1, hc, -⟩ := bind_ok_iff.mp hx
  obtain ⟨-, -, a, ha, -⟩ := checkRead_ok hc
  cases ha

/-- A recorded step, from a machine whose tree holds its image, follows the plain step, and the replay
accepts its log. -/
theorem recorded_uarchStep {m ma m1 : Machine H} {status : UarchStepStatus} (hd : m.s.board.UarchDisjoint)
    (hcore : ma.core = m.core) (ht : TreeHolds h ma) (hstep : uarchStep.run stateAccess m = .ok status m1) :
    ∃ mb log, recorded (uarchStep.run (recordStateAccess h)) ma = .ok log mb ∧
      Follows h m1 (mb, log) ∧ (∀ a ∈ log, a.FullPath) ∧
      verifyStepUarch h (h.root m.image) log (h.root m1.image) = .ok () := by
  have hfollows : Follows h m (ma, []) := ⟨hcore, ht, hd⟩
  obtain ⟨⟨mb, log⟩, hrec, hR⟩ := Forward.run_of_asks (forward_record (h := h)) uarchStep
    aligned_uarchStep m (ma, []) status m1 hfollows hstep
  obtain ⟨es, t', hlog, hR', hrep⟩ := Replays.run (replays_record (h := h)) uarchStep (ma, [])
    ⟨h.root m.image, 0⟩ status (mb, log) ⟨by rw [image_congr hcore], ht,
      hfollows.disjoint_record, by simp⟩ hrec
  obtain rfl : log = es := hlog
  refine ⟨mb, log, ?_, hR, hR'.fullPath, ?_⟩
  · unfold recorded
    rw [hrec]
  · have hrep := hrep []
    rw [List.append_nil] at hrep
    unfold verifyStepUarch verifyLog
    rw [if_neg fun hnil => uarchStep_replay_nil _ (hnil ▸ hrep), hrep]
    simp only [ne_eq, not_true_eq_false, if_false]
    rw [if_neg (not_not.mpr (hR'.root_eq.trans (congrArg h.root (image_congr hR.core_eq))))]

end

end MachineEmulator.Uarch
