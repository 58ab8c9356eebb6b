import MachineEmulator.Interpret.CycleTarget

/-!
# The debugger stub: continuing

The stub lets the machine continue in one run, or cycle by cycle if there are breakpoints to look for.

* `handleContinue` : what follows a request to continue;
* `SplitsRuns` : a run can be interrupted at any cycle;
* `handleContinue_iff` : with breakpoints that are not met, the machine stops in the same state and with the same answer
  as without them, unless the target has passed, or the machine yields softly on the way or at the last cycle.
-/

namespace MachineEmulator.Gdb

open Interpret

def sigint : Nat := 2
def sigquit : Nat := 3
def sigtrap : Nat := 5
def sigterm : Nat := 15

/-- What the stub does after the machine stopped: send a signal, or leave the answer to the next call. -/
inductive Answer where
  | signal (signal : Nat)
  | yielded
  deriving DecidableEq, Repr

inductive Thrown where
  | mcycleIsPast
  | fault (f : Fault)

structure GdbStub where
  breakpoints : List Word := []
  maxMcycle : Word
  mcycleLimit : Option Word := none

def GdbStub.mcycleEnd (stub : GdbStub) : Word :=
  match stub.mcycleLimit with
  | some limit => if limit < stub.maxMcycle then limit else stub.maxMcycle
  | none => stub.maxMcycle

abbrev mcycle (m : RunState) : Word := m.s.regs .mcycle

def halted (m : RunState) : Prop := m.s.regs .iflagsH ≠ 0

def yielded (m : RunState) : Prop := m.s.regs .iflagsY ≠ 0 ∨ m.s.regs .iflagsX ≠ 0

instance : DecidablePred halted := fun _ => inferInstanceAs (Decidable (_ ≠ _))

instance : DecidablePred yielded := fun _ => inferInstanceAs (Decidable (_ ∨ _))

/-- Why the machine stopped, after it came to the target or stopped in one run. -/
def stopAnswer (maxMcycle : Word) (m : RunState) : Answer :=
  if halted m then .signal sigterm
  else if mcycle m = maxMcycle then .signal sigquit
  else if yielded m then .yielded
  else .signal sigint

/-- The interpreter, as a function of the target and the machine. -/
abbrev Interpreter := Word → RunState → EStateM.Result Fault RunState BreakReason

section
variable (I : Interpreter)

/-- The call of the machine, which refuses a target that has passed. -/
def run (mcycleEnd : Word) (m : RunState) : EStateM.Result Thrown RunState BreakReason :=
  if mcycleEnd < mcycle m then .error .mcycleIsPast m
  else
    match I mcycleEnd m with
    | .ok reason m => .ok reason m
    | .error f m => .error (.fault f) m

/-- Cycle by cycle to the target. There is an answer if the machine stops before. The cycle counter grows with each
turn, so that the number of cycles left bounds the number of turns. -/
def continueLoop (breakpoints : List Word) (mcycleEnd : Word) :
    Nat → RunState → EStateM.Result Thrown RunState (Option Answer)
  | 0, m => .ok none m
  | n + 1, m =>
    if mcycle m < mcycleEnd then
      match run I (mcycle m + 1) m with
      | .error e m => .error e m
      | .ok _ m =>
        if m.s.regs .pc ∈ breakpoints then .ok (some (.signal sigtrap)) m
        else if halted m then .ok (some (.signal sigterm)) m
        else if yielded m then .ok (some .yielded) m
        else continueLoop breakpoints mcycleEnd n m
    else .ok none m

def handleContinue (stub : GdbStub) (m : RunState) : EStateM.Result Thrown RunState Answer :=
  if stub.breakpoints = [] then
    match run I stub.mcycleEnd m with
    | .error e m => .error e m
    | .ok _ m => .ok (stopAnswer stub.maxMcycle m) m
  else
    match continueLoop I stub.breakpoints stub.mcycleEnd (stub.mcycleEnd - mcycle m).toNat m with
    | .error e m => .error e m
    | .ok (some answer) m => .ok answer m
    | .ok none m => .ok (stopAnswer stub.maxMcycle m) m

/-- A run up to the target can be interrupted at any cycle: one that gets there goes on as if it had started there, and
every other has ended before. -/
def SplitsRuns (mcycleEnd : Word) (m : RunState) : Prop := ∀ m1 m2 : Word, m1 ≤ m2 → m2 ≤ mcycleEnd →
  I m2 m = match I m1 m with
    | .ok .reachedTargetMcycle m' => I m2 m'
    | r => r

/-- After no cycle up to the target is the machine at a breakpoint. -/
def Unmet (breakpoints : List Word) (mcycleEnd : Word) (m : RunState) : Prop := ∀ k reason m',
  mcycle m < k → k ≤ mcycleEnd → I k m = .ok reason m' → m'.s.regs .pc ∉ breakpoints

/-- The answers with and without breakpoints can be the same: the target has not passed, the machine does not yield
softly before it, and a machine that yields on the way does not do so at the last cycle. -/
structure Comparable (stub : GdbStub) (m : RunState) : Prop where
  notPast : mcycle m ≤ stub.mcycleEnd
  softly : ∀ m', I stub.mcycleEnd m = .ok .yieldedSoftly m' → stub.mcycleEnd ≤ mcycle m'
  lastCycle : ∀ reason m', I stub.mcycleEnd m = .ok reason m' → mcycle m < stub.mcycleEnd → ¬ halted m' →
    yielded m' → mcycle m' ≠ stub.maxMcycle

end

/-! ## Runs of the interpreter -/

def interpreter (fp : SoftFloat) (fuel : Nat) : Interpreter :=
  fun mcycleEnd m => (interpret fp mcycleEnd).run (stateAccess fuel) m

/-- A flag tells that the machine does not go on. -/
def stopped (m : RunState) : Prop := halted m ∨ yielded m

/-- What the stub relies on: a run that has to advance stops with a flag set, or gets to a soft yield or the target;
every other run leaves the machine as it is. -/
structure Advances (I : Interpreter) : Prop where
  lt {e : Word} {m m' : RunState} {reason : BreakReason} (hlt : mcycle m < e) (hrun : I e m = .ok reason m') :
    ¬ stopped m' ∨ ¬ stopped m → mcycle m < mcycle m'
  cases {e : Word} {m m' : RunState} {reason : BreakReason} (hlt : mcycle m < e) (hrun : I e m = .ok reason m') :
    stopped m' ∧ reason ≠ .yieldedSoftly ∧ reason ≠ .reachedTargetMcycle ∨
      ¬ stopped m' ∧ (reason = .yieldedSoftly ∨ reason = .reachedTargetMcycle)
  of_le {e : Word} {m : RunState} (hle : e ≤ mcycle m) : ∃ reason, I e m = .ok reason m ∧ reason ≠ .yieldedSoftly

theorem lt_done {fp : SoftFloat} {fuel : Nat} {e : Word} {m m' : RunState} {status : ExecuteStatus}
    (hlt : mcycle m < e) (hsteps : LoopSteps (stateAccess fuel) fp e (.start m) (.done status m')) :
    mcycle m < mcycle m' := by
  rcases Relation.ReflTransGen.cases_tail hsteps with hstart | ⟨x, hsteps, hstep⟩
  · cases hstart
  · have hle : mcycle m ≤ x.mcycle := LoopSteps.mcycle_le hsteps
    cases hstep with
    | finish hge hrun =>
      rw [mcycle, mcycle, (commit_mcycle hrun).1]
      exact Nat.lt_of_lt_of_le hlt (BitVec.not_lt.mp hge)
    | stop hc hrun =>
      obtain ⟨mcycle', hmcycle', hat, -⟩ := innerStep_atCycle hrun
      have hafter : McycleAfter _ mcycle' := hmcycle'.elim .inl WaitsUntil.mcycleAfter
      rw [mcycle, mcycle, hat]
      exact Nat.lt_of_le_of_lt hle (hafter.lt_succ hc)

theorem advances_interpreter (fp : SoftFloat) (fuel : Nat) : Advances (interpreter fp fuel) where
  lt {e m m' reason} hlt hrun := by
    cases interpret_steps hrun with
    | halted hH => exact fun h => absurd (.inl hH) (h.elim id id)
    | yielded hH hY => exact fun h => absurd (.inr (.inl hY)) (h.elim id id)
    | reached hH hY hge => exact absurd hlt (BitVec.not_lt.mpr hge)
    | ran hH hY _ hsteps => exact fun _ => lt_done hlt hsteps
  cases {e m m' reason} hlt hrun := by
    cases interpret_steps hrun with
    | halted hH => exact .inl ⟨.inl hH, by simp⟩
    | yielded hH hY => exact .inl ⟨.inr (.inl hY), by simp⟩
    | reached hH hY hge => exact absurd hlt (BitVec.not_lt.mpr hge)
    | ran hH hY _ hsteps =>
      unfold breakReasonOf stopped halted yielded
      split_ifs <;> simp_all
  of_le {e m} hle := by
    obtain ⟨reason, m', hrun⟩ : Succeeds ((interpret fp e).run (stateAccess fuel)) m := by
      simp [interpret, Prog.run_bind, Prog.run_ite, wlp_read, hle]
    rw [interpreter, hrun]
    cases interpret_steps hrun with
    | halted | yielded | reached => exact ⟨_, rfl, by simp⟩
    | ran _ _ hlt => exact absurd hlt (BitVec.not_lt.mpr hle)

/-! ## Cycle by cycle -/

section
variable {I : Interpreter} (hI : Advances I) {breakpoints : List Word} {e : Word} {n : Nat} {m s : RunState}

/-- The runs of `m` up to the target pass the place `s`. -/
structure Passes (I : Interpreter) (e : Word) (m s : RunState) : Prop where
  le : mcycle m ≤ mcycle s
  eq : ∀ k, mcycle s < k → k ≤ e → I k m = I k s

/-- What the loop ends with if it stops where the run does. -/
def loopEnd : EStateM.Result Fault RunState BreakReason → EStateM.Result Thrown RunState (Option Answer)
  | .error f m => .error (.fault f) m
  | .ok _ m => .ok (if halted m then some (.signal sigterm) else if yielded m then some .yielded else none) m

theorem loopEnd_ok {reason : BreakReason} (hgo : ¬ stopped s) : loopEnd (.ok reason s) = .ok none s := by
  rw [loopEnd, if_neg fun h => hgo (.inl h), if_neg fun h => hgo (.inr h)]

theorem continueLoop_of_le (hle : e ≤ mcycle m) : continueLoop I breakpoints e n m = .ok none m := by
  cases n with
  | zero => rfl
  | succ n => rw [continueLoop, if_neg (BitVec.not_lt.mpr hle)]

include hI

/-- A turn of the loop, at a place that the runs of the machine pass: it stops where the run to the target does, or goes
on from a soft yield or a place that the runs pass. -/
theorem continueLoop_succ (hsplit : SplitsRuns I e m) (hunmet : Unmet I breakpoints e m) (hs : Passes I e m s)
    (hlt : mcycle s < e) :
    (continueLoop I breakpoints e (n + 1) s = loopEnd (I e m) ∧ ∀ s', I e m ≠ .ok .yieldedSoftly s') ∨
    ∃ s', ¬ stopped s' ∧ mcycle s < mcycle s' ∧
      continueLoop I breakpoints e (n + 1) s = continueLoop I breakpoints e n s' ∧
      (I e m = .ok .yieldedSoftly s' ∨ Passes I e m s' ∧ I e m = I e s') := by
  have hsucc := McycleAfter.lt_succ_self (.inl rfl) hlt
  have hle := succ_le_of_lt hlt
  have hend := hsplit _ _ hle (BitVec.le_refl _)
  have heq := hs.eq _ hsucc hle
  rw [continueLoop, if_pos hlt, run, if_neg (BitVec.not_lt.mpr (BitVec.le_of_lt hsucc)), ← heq]
  cases hturn : I (mcycle s + 1) m with
  | error f s' =>
    rw [hturn] at hend
    rw [hend]
    exact .inl ⟨rfl, by simp⟩
  | ok reason s' =>
    have hturn' := heq.symm.trans hturn
    have hpc := hunmet _ _ _ (Nat.lt_of_le_of_lt hs.le hsucc) hle hturn
    rw [hturn] at hend
    simp only [hpc, if_false]
    rcases hI.cases hsucc hturn' with ⟨hstop, hsoft, hreach⟩ | ⟨hgo, hreason⟩
    · have hend : I e m = .ok reason s' := by
        cases reason <;> first | exact hend | exact absurd rfl hreach
      refine .inl ⟨?_, fun s'' h => hsoft ?_⟩
      · rw [hend, loopEnd]
        by_cases hH : halted s'
        · simp [hH]
        · simp only [hH, hstop.resolve_left hH, if_true, if_false]
      · rw [hend] at h
        cases h
        rfl
    · have hadv := hI.lt hsucc hturn' (.inl hgo)
      rw [if_neg fun h => hgo (.inl h), if_neg fun h => hgo (.inr h)]
      refine .inr ⟨s', hgo, hadv, rfl, ?_⟩
      rcases hreason with rfl | rfl
      · exact .inl hend
      · refine .inr ⟨⟨Nat.le_trans hs.le (Nat.le_of_lt hadv), fun k hk hke => ?_⟩, hend⟩
        have hk := hsplit _ _ (succ_le_of_lt (Nat.lt_trans hadv hk)) hke
        rwa [hturn] at hk

/-- The loop ends where the run to the target does, or it goes on from a soft yield before the target. -/
theorem continueLoop_cases (hsplit : SplitsRuns I e m) (hunmet : Unmet I breakpoints e m) (hs : Passes I e m s)
    (hlt : mcycle s < e) (hn : e.toNat ≤ (mcycle s).toNat + n) :
    (continueLoop I breakpoints e n s = loopEnd (I e m) ∧ ∀ s', I e m = .ok .yieldedSoftly s' → e ≤ mcycle s') ∨
      ∃ s' k, I e m = .ok .yieldedSoftly s' ∧ mcycle s' < e ∧ ¬ stopped s' ∧ 0 < k ∧
        continueLoop I breakpoints e n s = continueLoop I breakpoints e k s' := by
  induction n generalizing s with
  | zero => exact absurd hlt (Nat.not_lt.mpr hn)
  | succ n ih =>
    obtain ⟨heq, hsoft⟩ | ⟨s', hgo, hadv, heq, hrun⟩ := continueLoop_succ hI hsplit hunmet hs hlt (n := n)
    · exact .inl ⟨heq, fun s' h => absurd h (hsoft s')⟩
    · have hadv : (mcycle s).toNat < (mcycle s').toNat := hadv
      rw [heq]
      by_cases hlt' : mcycle s' < e
      · have hlt'' : (mcycle s').toNat < e.toNat := hlt'
        rcases hrun with hrun | ⟨hs', -⟩
        · exact .inr ⟨s', n, hrun, hlt', hgo, by omega, rfl⟩
        · exact ih hs' hlt' (by omega)
      · have hle := BitVec.not_lt.mp hlt'
        rw [continueLoop_of_le hle]
        obtain ⟨reason, hreached, hne⟩ := hI.of_le hle
        rcases hrun with hrun | ⟨-, hrun⟩
        · rw [hrun, loopEnd_ok hgo]
          refine .inl ⟨rfl, fun s'' h => ?_⟩
          cases h
          exact hle
        · rw [hrun, hreached, loopEnd_ok hgo]
          refine .inl ⟨rfl, fun s'' h => ?_⟩
          cases h
          exact hle

/-- The loop advances a machine that has not stopped. -/
theorem continueLoop_le {answer : Option Answer} {m' : RunState} (hgo : ¬ stopped s)
    (hloop : continueLoop I breakpoints e n s = .ok answer m') :
    mcycle s ≤ mcycle m' ∧ (mcycle s < e → 0 < n → mcycle s < mcycle m') := by
  induction n generalizing s with
  | zero =>
    cases hloop
    exact ⟨BitVec.le_refl _, fun _ h => absurd h (Nat.lt_irrefl 0)⟩
  | succ n ih =>
    by_cases hlt : mcycle s < e
    · suffices hadv : mcycle s < mcycle m' from ⟨BitVec.le_of_lt hadv, fun _ _ => hadv⟩
      have hsucc := McycleAfter.lt_succ_self (.inl rfl) hlt
      rw [continueLoop, if_pos hlt, run, if_neg (BitVec.not_lt.mpr (BitVec.le_of_lt hsucc))] at hloop
      cases hturn : I (mcycle s + 1) s with
      | error f s' =>
        rw [hturn] at hloop
        cases hloop
      | ok reason s' =>
        have hadv := hI.lt hsucc hturn (.inr hgo)
        rw [hturn] at hloop
        dsimp only at hloop
        split_ifs at hloop with hpc hH hY <;> try (cases hloop; exact hadv)
        exact Nat.lt_of_lt_of_le hadv (ih (fun h => h.elim hH hY) hloop).1
    · rw [continueLoop_of_le (BitVec.not_lt.mp hlt)] at hloop
      cases hloop
      exact ⟨BitVec.le_refl _, fun h => absurd h hlt⟩

end

/-! ## The request -/

/-- With breakpoints that no run meets, the machine stops in the same state and with the same answer as without them,
exactly if the target has not passed, the machine does not yield softly before it, and does not yield at the last cycle
of all. -/
theorem handleContinue_iff (fp : SoftFloat) (fuel : Nat) (stub : GdbStub) (m : RunState)
    (hsplit : SplitsRuns (interpreter fp fuel) stub.mcycleEnd m) (hbreak : stub.breakpoints ≠ [])
    (hunmet : Unmet (interpreter fp fuel) stub.breakpoints stub.mcycleEnd m) :
    handleContinue (interpreter fp fuel) stub m =
        handleContinue (interpreter fp fuel) { stub with breakpoints := [] } m ↔
      Comparable (interpreter fp fuel) stub m := by
  have hI := advances_interpreter fp fuel
  generalize interpreter fp fuel = I at *
  unfold handleContinue
  rw [if_neg hbreak, if_pos rfl, show ({ stub with breakpoints := [] } : GdbStub).mcycleEnd = stub.mcycleEnd from rfl,
    run]
  by_cases hle : mcycle m ≤ stub.mcycleEnd
  · rw [if_neg (BitVec.not_lt.mpr hle)]
    by_cases hlt : mcycle m < stub.mcycleEnd
    · have hn : stub.mcycleEnd.toNat ≤ (mcycle m).toNat + (stub.mcycleEnd - mcycle m).toNat := by
        rw [BitVec.toNat_sub]
        omega
      rcases continueLoop_cases hI hsplit hunmet ⟨BitVec.le_refl _, fun _ _ _ => rfl⟩ hlt hn with
        ⟨heq, hsoft⟩ | ⟨m1, k, hrun, hlt1, hgo, hk, heq⟩
      · rw [heq]
        cases hrun : I stub.mcycleEnd m with
        | error f m' => exact iff_of_true rfl ⟨hle, hsoft, by simp [hrun]⟩
        | ok reason m' =>
          have hiff : Comparable I stub m ↔ (¬ halted m' → yielded m' → mcycle m' ≠ stub.maxMcycle) := by
            refine ⟨fun h => h.lastCycle reason m' hrun hlt, fun h => ⟨hle, hsoft, fun reason1 m1 hrun1 _ => ?_⟩⟩
            rw [hrun] at hrun1
            cases hrun1
            exact h
          rw [hiff, loopEnd]
          by_cases hH : halted m'
          · simp [hH, stopAnswer]
          · by_cases hY : yielded m'
            · by_cases hmax : mcycle m' = stub.maxMcycle <;> simp [hH, hY, hmax, stopAnswer]
            · simp [hH, hY, stopAnswer]
      · refine iff_of_false (fun h => ?_) fun h => BitVec.not_lt.mpr (h.softly m1 hrun) hlt1
        rw [heq, hrun] at h
        cases hloop : continueLoop I stub.breakpoints stub.mcycleEnd k m1 with
        | error e m' => simp [hloop] at h
        | ok answer m' =>
          have hadv := (continueLoop_le hI hgo hloop).2 hlt1 hk
          cases answer <;> simp only [hloop, EStateM.Result.ok.injEq] at h <;>
            exact absurd (h.2 ▸ hadv) (BitVec.lt_irrefl _)
    · have hge := BitVec.not_lt.mp hlt
      obtain ⟨reason, hrun, hne⟩ := hI.of_le hge
      rw [continueLoop_of_le hge, hrun]
      refine iff_of_true rfl ⟨hle, fun m' h => ?_, fun _ _ _ h => absurd h hlt⟩
      rw [hrun] at h
      cases h
      exact hge
  · have hpast := BitVec.not_le.mp hle
    rw [continueLoop_of_le (BitVec.le_of_lt hpast), if_pos hpast]
    exact iff_of_false (by simp) fun h => hle h.notPast

/-- A machine about to yield, by a store to the host interface. -/
def yieldingMachine : RunState :=
  .created smallBoard
    { regs := fun r => ([(.x 10, 0x40008000), (.x 11, 0x0201000000000000), (.htifIyield, 2)].lookup r).getD (initRegs r)
      image := writeBytes (fun _ => 0) pmaRamStart.toNat (toLE 4 0x00b53023)
      uarchRam := fun _ => 0 } fun _ => 0

/-- A machine that yields in the first of two cycles stops there, with breakpoints or without. -/
theorem handleContinue_yields : ∃ m',
    handleContinue (interpreter .zero 0) { breakpoints := [0], maxMcycle := 2 } yieldingMachine = .ok .yielded m' ∧
    handleContinue (interpreter .zero 0) { breakpoints := [0], maxMcycle := 2 } yieldingMachine =
      handleContinue (interpreter .zero 0) { maxMcycle := 2 } yieldingMachine := by
  have hcases : ∀ k : Word, k ≤ 2 → k = 0 ∨ k = 1 ∨ k = 2 := by
    intro k hk
    have hk : k.toNat ≤ 2 := hk
    rw [← BitVec.toNat_inj, ← BitVec.toNat_inj, ← BitVec.toNat_inj]
    show k.toNat = 0 ∨ k.toNat = 1 ∨ k.toNat = 2
    omega
  obtain ⟨m', h1, h2, hpc, hcycle⟩ : ∃ m', interpreter .zero 0 1 yieldingMachine = .ok .yieldedManually m' ∧
      interpreter .zero 0 2 yieldingMachine = .ok .yieldedManually m' ∧ m'.s.regs .pc ≠ 0 ∧ mcycle m' = 1 :=
    ⟨_, rfl, rfl, by decide, rfl⟩
  have h0 : interpreter .zero 0 0 yieldingMachine = .ok .reachedTargetMcycle yieldingMachine := rfl
  refine ⟨_, rfl, (handleContinue_iff .zero 0 { breakpoints := [0], maxMcycle := 2 } _ ?_ (by simp) ?_).mpr ?_⟩
  · intro k1 k2 hle hle2
    rcases hcases k1 (BitVec.le_trans hle hle2) with rfl | rfl | rfl
    · rw [h0]
    · rcases hcases k2 hle2 with rfl | rfl | rfl
      · exact absurd hle (by decide)
      · rw [h1]
      · rw [h1, h2]
    · obtain rfl := BitVec.le_antisymm hle hle2
      show interpreter .zero 0 2 yieldingMachine = _
      rw [h2]
  · intro k reason m'' hlt hle hrun
    have hm'' : m'' = m' := by
      rcases hcases k hle with rfl | rfl | rfl
      · exact absurd hlt (by decide)
      · cases h1.symm.trans hrun
        rfl
      · cases h2.symm.trans hrun
        rfl
    rw [hm'', List.mem_singleton]
    exact hpc
  · refine ⟨by decide, fun m'' h => ?_, fun reason m'' h _ _ _ => ?_⟩
    · cases h2.symm.trans h
    · cases h2.symm.trans h
      rw [hcycle]
      decide

/-- The machine yields at the last cycle. The stub reports this if there is a breakpoint somewhere, and that the last
cycle has been reached if there is none. -/
theorem handleContinue_yields_last : ∃ m',
    handleContinue (interpreter .zero 0) { breakpoints := [0], maxMcycle := 1 } yieldingMachine = .ok .yielded m' ∧
    handleContinue (interpreter .zero 0) { maxMcycle := 1 } yieldingMachine = .ok (.signal sigquit) m' := ⟨_, rfl, rfl⟩

end MachineEmulator.Gdb
