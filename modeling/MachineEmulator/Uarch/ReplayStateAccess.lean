import MachineEmulator.Uarch.StateAccess

/-!
# Replaying the access log of a microarchitecture step

* `replayStateAccess` : the operations of the microarchitecture on nothing but a root hash and a log;
* `verifyStepUarch` : replay one step from a root hash and compare the root it ends with;
* `Tracks` : the replayed root is the root of the machine's image. Every operation keeps it
  (`agrees_replay`), so an accepted log leads to the root of the stepped machine.
-/

namespace MachineEmulator.Uarch

open EStateM (query update)

variable {H : Type}

/-- The root hash a replay has reached and how many accesses it has consumed. -/
structure ReplayState (H : Type) where
  rootHash : H
  nextAccess : Nat

/-- A replay with the accesses of the log that are left. -/
abbrev Replay (H : Type) (α : Type) := EStateM String (ReplayState H × List (Access H)) α

/-- Check the next access of the log, and go on from the root the check gives. -/
def checkAccess {α : Type} (check : H → Nat → Access H → Except String (α × H)) : Replay H α
  | (r, []) => .error "too few accesses in log" (r, [])
  | (r, a :: as) =>
    match check r.rootHash r.nextAccess a with
    | .ok (x, root) => .ok x ({ rootHash := root, nextAccess := r.nextAccess + 1 }, as)
    | .error e => .error e (r, a :: as)

section
variable [DecidableEq H] (h : Hasher H)

def checkRead (paligned : Word) (text : String) : Replay H Word :=
  if paligned &&& 7 ≠ 0 then query fun _ => .error "address not aligned to word size"
  else checkAccess fun root next a => do
    let v ← checkReadAccess h root next a paligned text
    .ok (v, root)

def checkWrite (paligned word : Word) (text : String) : Replay H Unit :=
  if paligned &&& 7 ≠ 0 then query fun _ => .error "paligned not aligned to word size"
  else checkAccess fun root next a => do
    let root' ← checkWriteAccess h root next a paligned word text
    .ok ((), root')

/-- How the log names the word at an address. -/
def wordName (paddr : Word) : String := (UarchBridge.getRegisterName paddr).getD "memory"

def assertAligned (paddr : Word) : Replay H Unit :=
  query fun _ => throwUnless (paddr &&& 7 = 0) "Assertion failed: (paddr & (sizeof(uint64_t) - 1)) == 0"

def replayStateAccess : Handler UarchSig String (ReplayState H × List (Access H))
  | .readX reg => checkRead h (UarchReg.x reg).address "uarch.x"
  | .writeX reg val => do
    query fun _ => throwUnless (reg ≠ 0) "Assertion failed: reg != 0"
    checkWrite h (UarchReg.x reg).address val "uarch.x"
  | .readPc => checkRead h UarchReg.pc.address "uarch.pc"
  | .writePc val => checkWrite h UarchReg.pc.address val "uarch.pc"
  | .readCycle => checkRead h UarchReg.cycle.address "uarch.uarch_cycle"
  | .writeCycle val => checkWrite h UarchReg.cycle.address val "uarch.cycle"
  | .readHaltFlag => do
    let v ← checkRead h UarchReg.haltFlag.address "uarch.halt_flag"
    return v != 0
  | .setHaltFlag => checkWrite h UarchReg.haltFlag.address 1 "uarch.halt_flag"
  | .readWord paddr => do
    assertAligned paddr
    checkRead h paddr (wordName paddr)
  | .writeWord paddr val => do
    assertAligned paddr
    checkWrite h paddr val (wordName paddr)
  | .putChar _ => pure ()
  | .fail message => query fun _ => .error message

/-- Replay a program from a root hash; the log must be used up and lead to the other root hash. -/
def verifyLog {α : Type} (p : Replay H α) (rootHashBefore : H) (log : List (Access H))
    (rootHashAfter : H) : Except String Unit :=
  if log = [] then .error "too few accesses in log"
  else
    match p ({ rootHash := rootHashBefore, nextAccess := 0 }, log) with
    | .error e _ => .error e
    | .ok _ (r, rest) =>
      if rest ≠ [] then .error "access log was not fully consumed"
      else if r.rootHash ≠ rootHashAfter then .error "mismatch in root hash after replay"
      else .ok ()

def verifyStepUarch (rootHashBefore : H) (log : List (Access H)) (rootHashAfter : H) :
    Except String Unit :=
  verifyLog (uarchStep.run (replayStateAccess h)) rootHashBefore log rootHashAfter

end

/-! ## Soundness -/

section
variable {h : Hasher H}

/-- The replay is at the root of the machine's image, and the rest of its log has full paths. -/
structure Tracks (h : Hasher H) (m : Machine H) (t : ReplayState H × List (Access H)) : Prop where
  root_eq : t.1.rootHash = h.root m.image
  fullPath : ∀ a ∈ t.2, a.FullPath
  disjoint : m.s.board.UarchDisjoint

theorem toNat_and_seven (p : Word) : (p &&& 7).toNat = p.toNat % 8 := by
  rw [BitVec.toNat_and]
  exact Nat.and_two_pow_sub_one_eq_mod p.toNat 3

theorem and_seven_iff {p : Word} : p &&& 7 = 0 ↔ p.toNat % 8 = 0 := by
  rw [← toNat_and_seven]
  constructor
  · intro hp
    rw [hp]
    rfl
  · intro hp
    exact BitVec.eq_of_toNat_eq hp

theorem checkAccess_ok {α : Type} {check : H → Nat → Access H → Except String (α × H)}
    {t t' : ReplayState H × List (Access H)} {x : α} (hc : checkAccess check t = .ok x t') :
    ∃ a, t.2 = a :: t'.2 ∧ check t.1.rootHash t.1.nextAccess a = .ok (x, t'.1.rootHash) := by
  obtain ⟨r, as⟩ := t
  cases as with
  | nil => cases hc
  | cons a as =>
    simp only [checkAccess] at hc
    split at hc
    · rename_i y root hy
      cases hc
      exact ⟨a, rfl, hy⟩
    · cases hc

variable [DecidableEq H]

theorem checkRead_ok {t t' : ReplayState H × List (Access H)} {p v : Word} {text : String}
    (hc : checkRead h p text t = .ok v t') :
    p.toNat % 8 = 0 ∧ t'.1.rootHash = t.1.rootHash ∧ ∃ a, t.2 = a :: t'.2 ∧
      checkReadAccess h t.1.rootHash t.1.nextAccess a p text = .ok v := by
  unfold checkRead at hc
  split at hc
  · cases hc
  · rename_i hp
    obtain ⟨a, ha, hc⟩ := checkAccess_ok hc
    obtain ⟨w, hw, hc⟩ := except_bind_ok_iff.mp hc
    obtain ⟨rfl, hroot⟩ := Prod.mk.inj (Except.ok.inj hc)
    exact ⟨and_seven_iff.mp (not_not.mp hp), hroot.symm, a, ha, hw⟩

theorem checkWrite_ok {t t' : ReplayState H × List (Access H)} {p v : Word} {text : String} {u : Unit}
    (hc : checkWrite h p v text t = .ok u t') : p.toNat % 8 = 0 ∧ ∃ a, t.2 = a :: t'.2 ∧
      checkWriteAccess h t.1.rootHash t.1.nextAccess a p v text = .ok t'.1.rootHash := by
  unfold checkWrite at hc
  split at hc
  · cases hc
  · rename_i hp
    obtain ⟨a, ha, hc⟩ := checkAccess_ok hc
    obtain ⟨root, hw, hc⟩ := except_bind_ok_iff.mp hc
    obtain ⟨-, rfl⟩ := Prod.mk.inj (Except.ok.inj hc)
    exact ⟨and_seven_iff.mp (not_not.mp hp), a, ha, hw⟩

variable {α : Type} {p v : Word} {text : String}

theorem Tracks.checkRead (hcf : h.CollisionFree) {x : EStateM String (Machine H) α} {f : Word → α}
    (hx : ReadsWord x p f) :
    Agrees (Tracks h) x (do let v ← checkRead h p text; pure (f v)) := by
  intro m t a m' b t' hR hm ht
  obtain ⟨rfl, -, w, rfl, hw⟩ := hx m a m' hR.disjoint hm
  obtain ⟨w', t1, ht1, ht2⟩ := EStateM.bind_ok_iff.mp ht
  obtain ⟨rfl, rfl⟩ := EStateM.pure_ok_iff.mp ht2
  obtain ⟨hp, hroot, acc, hacc, hcheck⟩ := checkRead_ok ht1
  rw [hR.root_eq] at hcheck hroot
  have hfull := hR.fullPath
  rw [hacc] at hfull
  obtain ⟨hfa, hfs⟩ := List.forall_mem_cons.mp hfull
  rw [checkReadAccess_sound hcf hfa hp hcheck, imageWord_of_readBytes hw]
  exact ⟨rfl, hroot, hfs, hR.disjoint⟩

theorem Tracks.checkWrite (hcf : h.CollisionFree) {x : EStateM String (Machine H) Unit}
    (hx : WritesWord x p v) : Agrees (Tracks h) x (checkWrite h p v text) := by
  intro m t a m' b t' hR hm ht
  obtain ⟨hboard, -, himage⟩ := hx m a m' hR.disjoint hm
  obtain ⟨hp, acc, hacc, hcheck⟩ := checkWrite_ok ht
  rw [hR.root_eq] at hcheck
  have hfull := hR.fullPath
  rw [hacc] at hfull
  obtain ⟨hfa, hfs⟩ := List.forall_mem_cons.mp hfull
  refine ⟨rfl, ?_, hfs, by rw [hboard]; exact hR.disjoint⟩
  rw [himage]
  exact checkWriteAccess_sound hcf hfa hp hcheck

/-- Every operation of the replay agrees with the plain one. -/
theorem agrees_replay (hcf : h.CollisionFree) (o : UarchOp) :
    Agrees (Tracks h) (stateAccess (H := H) o) (replayStateAccess h o) := by
  have hread : ∀ {x : EStateM String (Machine H) Word} {p : Word} {text : String},
      ReadsWord x p id → Agrees (Tracks h) x (Uarch.checkRead h p text) := fun hx => by
    simpa using Tracks.checkRead hcf hx
  cases o with
  | readX reg => exact hread (readsWord_readX reg)
  | writeX reg val =>
    exact Agrees.query_right (Tracks.checkWrite hcf (writesWord_writeX reg val))
  | readPc => exact hread readsWord_readPc
  | writePc val => exact Tracks.checkWrite hcf (writesWord_writePc val)
  | readCycle => exact hread readsWord_readCycle
  | writeCycle val => exact Tracks.checkWrite hcf (writesWord_writeCycle val)
  | readHaltFlag => exact Tracks.checkRead hcf readsWord_readHaltFlag
  | setHaltFlag => exact Tracks.checkWrite hcf writesWord_setHaltFlag
  | readWord paddr => exact Agrees.query_right (hread (readsWord_readWord paddr))
  | writeWord paddr val =>
    exact Agrees.query_right (Tracks.checkWrite hcf (writesWord_writeWord paddr val))
  | putChar c => exact Agrees.pure ()
  | fail message =>
    intro m t a
    exact a.elim

theorem verifyLog_ok {p : Replay H α} {before after : H} {log : List (Access H)} {u : Unit}
    (hv : verifyLog p before log after = .ok u) :
    ∃ x r, p ({ rootHash := before, nextAccess := 0 }, log) = .ok x (r, []) ∧ r.rootHash = after := by
  unfold verifyLog at hv
  split at hv
  · cases hv
  split at hv
  · cases hv
  rename_i x r rest hp
  split at hv
  · cases hv
  rename_i hrest
  split at hv
  · cases hv
  rename_i hroot
  exact ⟨x, r, by rw [hp, not_not.mp hrest], not_not.mp hroot⟩

end

end MachineEmulator.Uarch
