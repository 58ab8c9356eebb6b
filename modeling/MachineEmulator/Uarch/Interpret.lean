import MachineEmulator.Uarch.StepFailure

/-!
# Runs of the microarchitecture

* `uarchStep_cases` : a step that does not throw advances the cycle counter by one, or finds the
  microarchitecture halted or the counter at its end;
* `uarchInterpret_split` : a run to a cycle may be cut at any cycle before it, a halted microarchitecture
  stays as it is, and the counter does not pass the target.
-/

namespace MachineEmulator.Uarch

open Machine Prog

variable {H : Type} {m m' : Machine H} {c c1 c2 : Word} {reason : UarchInterpreterBreakReason}

theorem run_readCycle {α : Type} (f : Word → UProg α) :
    (readCycle >>= f).run stateAccess m = (f m.uarch.cycle).run stateAccess m :=
  run_bind_of_ok _ rfl

theorem run_readHaltFlag {α : Type} (f : Bool → UProg α) :
    (readHaltFlag >>= f).run stateAccess m = (f m.uarch.haltFlag).run stateAccess m :=
  run_bind_of_ok _ rfl

theorem uarchStep_of_halted (hc : m.uarch.cycle ≠ -1) (hf : m.uarch.haltFlag = true) :
    uarchStep.run stateAccess m = .ok .uarchHalted m := by
  rw [uarchStep, run_readCycle, if_neg hc, run_readHaltFlag, hf]
  rfl

/-- What a step that does not throw can do. -/
theorem uarchStep_cases {status : UarchStepStatus} (hc : m.uarch.cycle ≠ -1)
    (h : uarchStep.run stateAccess m = .ok status m') :
    (status = .uarchHalted ∧ m' = m) ∨ (status = .success ∧ m'.uarch.cycle = m.uarch.cycle + 1) := by
  cases hf : m.uarch.haltFlag with
  | true =>
    cases (uarchStep_of_halted hc hf).symm.trans h
    exact .inl ⟨rfl, rfl⟩
  | false =>
    rw [uarchStep, run_readCycle, if_neg hc, run_readHaltFlag, hf] at h
    simp only [Bool.false_eq_true, if_false, run_bind, EStateM.bind_ok_iff] at h
    obtain ⟨pc, m1, -, insn, m2, -, -, m3, -, -, m4, ⟨⟩, ⟨⟩⟩ := h
    exact .inr ⟨rfl, rfl⟩

/-! ## The loop -/

theorem uarchInterpret_of_le (h : m.uarch.cycle ≤ c) : (uarchInterpret c).run stateAccess m =
    (uarchInterpretLoop (c.toNat - m.uarch.cycle.toNat)).run stateAccess m := by
  rw [uarchInterpret, run_readCycle, if_neg (BitVec.not_lt.mpr h)]

theorem uarchInterpret_of_eq (h : m.uarch.cycle = c) :
    (uarchInterpret c).run stateAccess m = .ok .reachedTargetCycle m := by
  rw [uarchInterpret_of_le (BitVec.le_of_eq h), h, Nat.sub_self]
  rfl

/-- Below the target the run starts with a step. -/
theorem uarchInterpret_of_lt (hlt : m.uarch.cycle < c) : ∃ n, c.toNat - m.uarch.cycle.toNat = n + 1 ∧
    (uarchInterpret c).run stateAccess m = (uarchInterpretLoop (n + 1)).run stateAccess m := by
  obtain ⟨n, hn⟩ := Nat.exists_eq_succ_of_ne_zero (Nat.sub_ne_zero_of_lt hlt)
  exact ⟨n, hn, by rw [uarchInterpret_of_le (BitVec.le_of_lt hlt), hn]⟩

theorem uarchInterpret_of_error {e : String} (hlt : m.uarch.cycle < c)
    (h : uarchStep.run stateAccess m = .error e m') : (uarchInterpret c).run stateAccess m = .error e m' := by
  obtain ⟨n, -, hrun⟩ := uarchInterpret_of_lt hlt
  rw [hrun, uarchInterpretLoop, run_bind]
  exact EStateM.bind_of_error h

theorem uarchInterpret_of_halted (hlt : m.uarch.cycle < c)
    (h : uarchStep.run stateAccess m = .ok .uarchHalted m) :
    (uarchInterpret c).run stateAccess m = .ok .uarchHalted m := by
  obtain ⟨n, -, hrun⟩ := uarchInterpret_of_lt hlt
  rw [hrun, uarchInterpretLoop, run_bind_of_ok _ h]
  rfl

theorem ne_max {a : Word} (hlt : a < c) : a ≠ -1 := by
  rintro rfl
  have hmax : (-1 : Word).toNat = 2 ^ 64 - 1 := rfl
  have hc : (-1 : Word).toNat < c.toNat := hlt
  omega

theorem toNat_succ {a b : Word} (hlt : a < c) (hb : b = a + 1) : b.toNat = a.toNat + 1 ∧ b ≤ c := by
  subst hb
  have h1 : (1 : Word).toNat = 1 := rfl
  simp only [BitVec.lt_def, BitVec.le_def, BitVec.toNat_add, h1] at *
  omega

/-- After a successful step the run goes on, one cycle later. -/
theorem uarchInterpret_of_success (hlt : m.uarch.cycle < c)
    (h : uarchStep.run stateAccess m = .ok .success m') (hm' : m'.uarch.cycle = m.uarch.cycle + 1) :
    (uarchInterpret c).run stateAccess m = (uarchInterpret c).run stateAccess m' := by
  obtain ⟨n, hn, hrun⟩ := uarchInterpret_of_lt hlt
  have hnext := toNat_succ hlt hm'
  rw [hrun, uarchInterpretLoop, run_bind_of_ok _ h, uarchInterpret_of_le hnext.2, hnext.1, ← Nat.sub_sub, hn]
  rfl

/-- Induction over a run: at the target, at a step that throws, when halted, and after a successful step. -/
@[elab_as_elim]
theorem run_induction {P : Machine H → Prop} {m : Machine H} (hc : m.uarch.cycle ≤ c)
    (reached : ∀ m, m.uarch.cycle = c → P m)
    (thrown : ∀ m e m', m.uarch.cycle < c → uarchStep.run stateAccess m = .error e m' → P m)
    (halted : ∀ m, m.uarch.cycle < c → uarchStep.run stateAccess m = .ok .uarchHalted m → P m)
    (success : ∀ m m', m.uarch.cycle < c → uarchStep.run stateAccess m = .ok .success m' →
      m'.uarch.cycle = m.uarch.cycle + 1 → P m' → P m) : P m := by
  induction hn : c.toNat - m.uarch.cycle.toNat generalizing m with
  | zero =>
    have hle : c ≤ m.uarch.cycle := Nat.sub_eq_zero_iff_le.mp hn
    exact reached m (BitVec.le_antisymm hc hle)
  | succ n ih =>
    have hlt : m.uarch.cycle < c := Nat.lt_of_sub_pos (hn ▸ Nat.succ_pos n)
    cases hs : uarchStep.run stateAccess m with
    | error e m' => exact thrown m e m' hlt hs
    | ok status m' =>
      obtain ⟨rfl, rfl⟩ | ⟨rfl, hm'⟩ := uarchStep_cases (ne_max hlt) hs
      · exact halted _ hlt hs
      · obtain ⟨hnext, hle⟩ := toNat_succ hlt hm'
        exact success m m' hlt hs hm' (ih hle (by omega))

/-- A run to `c2` may be cut at `c1`. -/
theorem uarchInterpret_bind (h1 : m.uarch.cycle ≤ c1) (h2 : c1 ≤ c2) :
    (uarchInterpret c1 >>= fun _ => uarchInterpret c2).run stateAccess m =
      (uarchInterpret c2).run stateAccess m := by
  have hlt2 : ∀ {m : Machine H}, m.uarch.cycle < c1 → m.uarch.cycle < c2 := fun h => Nat.lt_of_lt_of_le h h2
  refine run_induction h1 (fun m hc => ?_) (fun m e m' hlt hs => ?_) (fun m hlt hs => ?_)
    fun m m' hlt hs hm' ih => ?_
  · exact run_bind_of_ok _ (uarchInterpret_of_eq hc)
  · rw [uarchInterpret_of_error (hlt2 hlt) hs, run_bind]
    exact EStateM.bind_of_error (uarchInterpret_of_error hlt hs)
  · exact run_bind_of_ok _ (uarchInterpret_of_halted hlt hs)
  · rw [uarchInterpret_of_success (hlt2 hlt) hs hm', ← ih, run_bind]
    exact EStateM.bind_congr_left (uarchInterpret_of_success hlt hs hm')

theorem uarchInterpret_cycle_le (h : m.uarch.cycle ≤ c)
    (hrun : (uarchInterpret c).run stateAccess m = .ok reason m') : m'.uarch.cycle ≤ c := by
  revert hrun
  refine run_induction h (fun m hc hrun => ?_) (fun m e m1 hlt hs hrun => ?_) (fun m hlt hs hrun => ?_)
    fun m m1 hlt hs hm1 ih hrun => ?_
  · cases (uarchInterpret_of_eq hc).symm.trans hrun
    exact BitVec.le_of_eq hc
  · cases (uarchInterpret_of_error hlt hs).symm.trans hrun
  · cases (uarchInterpret_of_halted hlt hs).symm.trans hrun
    exact BitVec.le_of_lt hlt
  · exact ih ((uarchInterpret_of_success hlt hs hm1).symm.trans hrun)

/-- A run cut at `c1` ends like the run to `c2`; a halted microarchitecture stays as it is in any run; and the counter
does not pass the target. -/
theorem uarchInterpret_split (m : Machine H) (c1 c2 : Word) (h1 : m.uarch.cycle ≤ c1) (h2 : c1 ≤ c2) :
    (uarchInterpret c1 >>= fun _ => uarchInterpret c2).run stateAccess m = (uarchInterpret c2).run stateAccess m ∧
    (m.uarch.haltFlag = true → ∀ c, (∃ reason, (uarchInterpret c).run stateAccess m = .ok reason m) ∨
      (uarchInterpret c).run stateAccess m = .error "uarch_cycle is past" m) ∧
    ∀ reason m', (uarchInterpret c2).run stateAccess m = .ok reason m' → m'.uarch.cycle ≤ c2 := by
  refine ⟨uarchInterpret_bind h1 h2, fun hf c => ?_, fun _ _ => uarchInterpret_cycle_le (Nat.le_trans h1 h2)⟩
  obtain hlt | heq | hgt := Nat.lt_trichotomy m.uarch.cycle.toNat c.toNat
  · exact .inl ⟨_, uarchInterpret_of_halted hlt (uarchStep_of_halted (ne_max hlt) hf)⟩
  · exact .inl ⟨_, uarchInterpret_of_eq (BitVec.eq_of_toNat_eq heq)⟩
  · refine .inr ?_
    rw [uarchInterpret, run_readCycle, if_pos (BitVec.lt_def.mpr hgt)]
    rfl

/-- A new machine whose microarchitecture halts with its second instruction. -/
def haltingMachine : Machine FreeHash :=
  Machine.new FreeHash smallBoard
    { uarchRam := writeBytes (fun _ => 0) pmaUarchRamStart.toNat [0x93, 0x08, 0x10, 0x00, 0x73, 0x00, 0x00, 0x00] }

/-- A run of three cycles, cut after the first. The microarchitecture halts in the second and stays halted. -/
theorem uarchInterpret_split_halting : ∃ m1 m2,
    (uarchInterpret 1).run stateAccess haltingMachine = .ok .reachedTargetCycle m1 ∧ m1.uarch.haltFlag = false ∧
      (uarchInterpret 3).run stateAccess haltingMachine = .ok .uarchHalted m2 ∧ m2.uarch.cycle = 2 ∧
      (uarchInterpret 1 >>= fun _ => uarchInterpret 3).run stateAccess haltingMachine = .ok .uarchHalted m2 ∧
      ((∃ reason, (uarchInterpret 9).run stateAccess m2 = .ok reason m2) ∨
        (uarchInterpret 9).run stateAccess m2 = .error "uarch_cycle is past" m2) := by
  obtain ⟨hsplit, -, -⟩ := uarchInterpret_split haltingMachine 1 3 (by decide) (by decide)
  refine ⟨_, _, rfl, rfl, rfl, rfl, hsplit.trans rfl, ?_⟩
  exact (uarchInterpret_split _ 2 3 (by decide) (by decide)).2.1 rfl 9

end MachineEmulator.Uarch
