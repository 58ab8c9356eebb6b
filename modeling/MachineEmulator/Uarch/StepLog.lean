import MachineEmulator.Create
import MachineEmulator.Uarch.RecordStateAccess

/-!
# Step logs are sound and complete

* `verifyStepUarch_sound` : an accepted log leads to the root of the machine after the step, whoever
  wrote it;
* `logStepUarch_complete` : the log of a reproducible machine with a consistent tree is accepted, and
  the recorded step ends where the plain step ends. An unreproducible machine has no log at all
  (`logStepUarch_unreproducible`).
-/

namespace MachineEmulator.Uarch

open Machine

variable {H : Type} [DecidableEq H] {h : Hasher H}

/-! ## Soundness -/

/-- An accepted log of a step leads to the root of the machine after the step. -/
theorem verifyStepUarch_sound (hcf : h.CollisionFree) {m m' : Machine H} {status : UarchStepStatus}
    {log : List (Access H)} {rootHashAfter : H} (hd : m.s.board.UarchDisjoint)
    (hstep : uarchStep.run stateAccess m = .ok status m') (hlog : ∀ a ∈ log, a.FullPath)
    (hv : verifyStepUarch h (h.root m.image) log rootHashAfter = .ok ()) : rootHashAfter = h.root m'.image := by
  obtain ⟨x, r, hr, rfl⟩ := verifyLog_ok hv
  have hstart : Tracks h m ({ rootHash := h.root m.image, nextAccess := 0 }, log) :=
    ⟨rfl, hlog, hd⟩
  exact (Agrees.run (agrees_replay hcf) uarchStep m _ status m' x (r, []) hstart hstep hr).2.root_eq

/-- A new machine whose microarchitecture is about to run `addi x1, x0, 1`. -/
def addiMachine (iunrep : Word) : Machine FreeHash :=
  Machine.new FreeHash smallBoard
    { regs := Function.update initRegs .iunrep iunrep
      uarchRam := writeBytes (fun _ => 0) pmaUarchRamStart.toNat [0x93, 0x00, 0x10, 0x00] }

/-- The machine after this step. -/
def addiStepped : Machine FreeHash :=
  setUarch (addiMachine 0) { (addiMachine 0).uarch with
    x := (addiMachine 0).uarch.x.set 1 x1_ne_x0 1, pc := 0x600004, cycle := 1 }

theorem addiMachine_step : uarchStep.run stateAccess (addiMachine 0) = .ok .success addiStepped := by
  rfl

theorem verifyStepUarch_sound_addi : ∃ m log, uarchStep.run stateAccess (addiMachine 0) = .ok .success m ∧
    (∀ a ∈ log, a.FullPath) ∧
    verifyStepUarch freeHasher (freeHasher.root (addiMachine 0).image) log (freeHasher.root m.image) = .ok () ∧
    ∀ rootHashAfter, verifyStepUarch freeHasher (freeHasher.root (addiMachine 0).image) log
      rootHashAfter = .ok () → rootHashAfter = freeHasher.root m.image := by
  obtain ⟨ma, -, hcore, ht⟩ := (new_consistent (h := freeHasher) smallBoard_uarchDisjoint
    _).updateMerkleTree smallBoard_uarchDisjoint (new_tlbSane smallBoard _)
  have hstep := addiMachine_step
  obtain ⟨mb, log, -, -, hfull, hv⟩ := recorded_uarchStep smallBoard_uarchDisjoint hcore ht hstep
  exact ⟨_, log, hstep, hfull, hv, fun rootHashAfter hv' =>
    verifyStepUarch_sound freeHasher_collisionFree smallBoard_uarchDisjoint hstep hfull hv'⟩

/-! ## Completeness -/

/-- A recorded step ends where the plain step ends, and its log is accepted. -/
theorem logStepUarch_complete {m m1 : Machine H} {status : UarchStepStatus}
    (hd : m.s.board.UarchDisjoint) (hu : m.s.regs .iunrep = 0) (hc : Machine.Consistent h m)
    (hs : m.s.TlbSane) (hstep : uarchStep.run stateAccess m = .ok status m1) (hs1 : m1.s.TlbSane) :
    ∃ m2 log, logStepUarch h m = .ok log m2 ∧ m2.core = m1.core ∧
      verifyStepUarch h (h.root m.image) log (h.root m1.image) = .ok () := by
  obtain ⟨ma, hroot, hcore, ht⟩ := hc.getRootHash hd hs hu
  obtain ⟨mb, log, hrec, hR, -, hverify⟩ := recorded_uarchStep hd hcore ht hstep
  -- the second root hash is the one the replay ends with
  have hu1 : m1.s.regs .iunrep = 0 := Keeps.run keeps_iunrep uarchStep m status m1 hu hstep
  obtain ⟨mc, hroot', hcore', -⟩ := hR.tree.consistent.getRootHash hR.disjoint_record
    ((tlbSane_congr hR.core_eq).mpr hs1) (by rw [regs_congr hR.core_eq]; exact hu1)
  have himage : mb.image = m1.image := image_congr hR.core_eq
  refine ⟨mc, log, ?_, hcore'.trans hR.core_eq, hverify⟩
  unfold logStepUarch
  simp only [EStateM.bind_ok_iff, EStateM.query_ok_iff, EStateM.pure_ok_iff]
  refine ⟨_, ma, hroot, log, mb, hrec, _, mc, hroot', (), mc, ⟨?_, rfl⟩, rfl, rfl⟩
  rw [himage]
  exact hverify

theorem logStepUarch_complete_addi : ∃ m1 m2 log, uarchStep.run stateAccess (addiMachine 0) = .ok .success m1 ∧
    logStepUarch freeHasher (addiMachine 0) = .ok log m2 ∧ m2.core = m1.core ∧
    verifyStepUarch freeHasher (freeHasher.root (addiMachine 0).image) log (freeHasher.root m1.image) =
      .ok () := by
  have hsane : (addiMachine 0).s.TlbSane := new_tlbSane smallBoard _
  obtain ⟨m2, log, hlog, hcore, hv⟩ := logStepUarch_complete (h := freeHasher) smallBoard_uarchDisjoint
    rfl (new_consistent smallBoard_uarchDisjoint _) hsane addiMachine_step hsane
  exact ⟨_, m2, log, addiMachine_step, hlog, hcore, hv⟩

/-- An unreproducible machine makes the plain step but not the recorded one. -/
theorem logStepUarch_unreproducible : uarchStep.run stateAccess (addiMachine 1) = .ok .success
      (setUarch (addiMachine 1) { (addiMachine 1).uarch with
        x := (addiMachine 1).uarch.x.set 1 (by decide) 1, pc := 0x600004, cycle := 1 }) ∧
      logStepUarch freeHasher (addiMachine 1) =
        .error "cannot compute root hash of unreproducible machines" (addiMachine 1) := by
  constructor
  · rfl
  · rfl

end MachineEmulator.Uarch
