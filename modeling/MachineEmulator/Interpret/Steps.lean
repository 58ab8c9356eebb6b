import MachineEmulator.Interpret.InsnEffects

/-!
# The interpreter as a transition system

* `LoopState` : the places of the loops, with what the loops keep and what the accessor works on;
* `LoopStep` : from one place to the next;
* `innerLoop_steps`, `outerLoop_steps` : a run of the loops is a chain of these steps. Every instruction advances the
  cycle counter, which never wraps around, so the loops are left only where the program text leaves them;
* `interpret_steps` : the same for the interpreter.

Facts about everything that happens during a run are proved as invariants of the steps.
-/

namespace MachineEmulator.Interpret

open BitVec

variable {ε σ : Type} {h : Handler AccessSig ε σ} {fp : SoftFloat}

/-! ## Steps -/

inductive LoopState (σ : Type) where
  /-- The head of the outer loop. -/
  | outer (c : Cursor) (s : σ)
  /-- The head of the inner loop, in a stretch that ends at `mcycleTickEnd`. -/
  | inner (mcycleTickEnd : Word) (c : Cursor) (s : σ)
  | done (status : ExecuteStatus) (s : σ)

def LoopState.state : LoopState σ → σ
  | .outer _ s | .inner _ _ s | .done _ s => s

/-- The cycle that a place of the loops is at. -/
def LoopState.mcycle : LoopState RunState → Word
  | .outer c _ | .inner _ c _ => c.mcycle
  | .done _ m => m.s.regs .mcycle

inductive LoopStep (h : Handler AccessSig ε σ) (fp : SoftFloat) (mcycleEnd : Word) :
    LoopState σ → LoopState σ → Prop
  | serveInterrupts {c c' : Cursor} {s s' : σ} (hlt : c.mcycle < mcycleEnd)
    (hrun : (serveInterrupts c).run h s = .ok c' s') :
    LoopStep h fp mcycleEnd (.outer c s) (.inner (tickEnd mcycleEnd c'.mcycle) c' s')
  | finish {c : Cursor} {status : ExecuteStatus} {s s' : σ} (hge : ¬ c.mcycle < mcycleEnd)
    (hrun : (commit c .success).run h s = .ok status s') :
    LoopStep h fp mcycleEnd (.outer c s) (.done status s')
  | next {mcycleTickEnd : Word} {c c' : Cursor} {s s' : σ} (hlt : c.mcycle < mcycleTickEnd)
    (hrun : (innerStep fp c).run h s = .ok (.next c') s') :
    LoopStep h fp mcycleEnd (.inner mcycleTickEnd c s) (.inner mcycleTickEnd c' s')
  | serve {mcycleTickEnd : Word} {c c' : Cursor} {s s' : σ} (hlt : c.mcycle < mcycleTickEnd)
    (hrun : (innerStep fp c).run h s = .ok (.serve c') s') :
    LoopStep h fp mcycleEnd (.inner mcycleTickEnd c s) (.outer c' s')
  | stop {mcycleTickEnd : Word} {c : Cursor} {status : ExecuteStatus} {s s' : σ}
    (hlt : c.mcycle < mcycleTickEnd) (hrun : (innerStep fp c).run h s = .ok (.stop status) s') :
    LoopStep h fp mcycleEnd (.inner mcycleTickEnd c s) (.done status s')
  | tick {mcycleTickEnd : Word} {c : Cursor} {s : σ} (hge : ¬ c.mcycle < mcycleTickEnd) :
    LoopStep h fp mcycleEnd (.inner mcycleTickEnd c s) (.outer c s)

abbrev LoopSteps (h : Handler AccessSig ε σ) (fp : SoftFloat) (mcycleEnd : Word) :=
  Relation.ReflTransGen (LoopStep h fp mcycleEnd)

variable {mcycleEnd pc mcycle : Word} {x : LoopState σ} {status : ExecuteStatus} {s s' : σ} {c : Cursor}
  {insn : Insn}

theorem LoopStep.unique {y z : LoopState σ} (hy : LoopStep h fp mcycleEnd x y)
    (hz : LoopStep h fp mcycleEnd x z) : y = z := by
  cases hy with
  | serveInterrupts hlt hrun =>
    cases hz with
    | serveInterrupts _ hrun' => rw [hrun] at hrun'; cases hrun'; rfl
    | finish hge => exact absurd hlt hge
  | finish hge hrun =>
    cases hz with
    | serveInterrupts hlt => exact absurd hlt hge
    | finish _ hrun' => rw [hrun] at hrun'; cases hrun'; rfl
  | next hlt hrun | serve hlt hrun | stop hlt hrun =>
    cases hz with
    | next _ hrun' | serve _ hrun' | stop _ hrun' => rw [hrun] at hrun'; cases hrun'; try rfl
    | tick hge => exact absurd hlt hge
  | tick hge =>
    cases hz with
    | next hlt | serve hlt | stop hlt => exact absurd hlt hge
    | tick => rfl

theorem LoopSteps.to_done {y : LoopState σ}
    (hdone : LoopSteps h fp mcycleEnd x (.done status s)) (hy : LoopSteps h fp mcycleEnd x y) :
    LoopSteps h fp mcycleEnd y (.done status s) := by
  have hunique : Relator.RightUnique (LoopStep h fp mcycleEnd) := fun _ _ _ => LoopStep.unique
  rcases Relation.ReflTransGen.total_of_right_unique hunique hy hdone with hrest | hrest
  · exact hrest
  · rcases Relation.ReflTransGen.cases_head hrest with rfl | ⟨z, hz, -⟩
    · exact .refl
    · cases hz

/-! ## The parts of a step -/

/-- An iteration of the inner loop is a fetch that fails, or a fetch, an instruction and what follows it. -/
theorem innerStep_cases {r : StepResult} (hrun : (innerStep fp c).run h s = .ok r s') :
    (∃ cache newPc, (fetchInsn c.pc c.cache).run h s = .ok (cache, .error newPc) s' ∧
      r = .next ⟨newPc, c.mcycle + 1, cache⟩) ∨
    ∃ cache insn s1 status pc mcycle s2, (fetchInsn c.pc c.cache).run h s = .ok (cache, .ok insn) s1 ∧
      (executeInsn fp c.pc c.mcycle insn).access.run h s1 = .ok ((status, pc), mcycle) s2 ∧
      (afterExecute cache status pc mcycle).run h s2 = .ok r s' := by
  rw [innerStep, Prog.run_bind] at hrun
  obtain ⟨⟨cache, fetched⟩, s1, hfetch, hrun⟩ := EStateM.bind_ok_iff.mp hrun
  cases fetched with
  | error newPc =>
    obtain ⟨rfl, rfl⟩ := EStateM.pure_ok_iff.mp hrun
    exact .inl ⟨cache, newPc, hfetch, rfl⟩
  | ok insn =>
    rw [Prog.run_bind] at hrun
    obtain ⟨⟨⟨status, pc⟩, mcycle⟩, s2, hexec, hrun⟩ := EStateM.bind_ok_iff.mp hrun
    exact .inr ⟨cache, insn, s1, status, pc, mcycle, s2, hfetch, hexec, hrun⟩

/-- At the place `x` of the inner loop, with the cursor `c`, the instruction `insn` is fetched, which leads to `s1`. -/
inductive Fetches (h : Handler AccessSig ε σ) : LoopState σ → Cursor → Insn → σ → Prop
  | intro {mcycleTickEnd : Word} {c : Cursor} {s s1 : σ} {cache : FetchCache} {insn : Insn}
    (hlt : c.mcycle < mcycleTickEnd) (hfetch : (fetchInsn c.pc c.cache).run h s = .ok (cache, .ok insn) s1) :
    Fetches h (.inner mcycleTickEnd c s) c insn s1

theorem Fetches.unique {c' : Cursor} {insn' : Insn} {s1 s1' : σ} (hf : Fetches h x c insn s1)
    (hf' : Fetches h x c' insn' s1') : c' = c ∧ insn' = insn ∧ s1' = s1 := by
  cases hf with
  | intro hlt hfetch =>
    cases hf' with
    | intro hlt' hfetch' =>
      cases hfetch.symm.trans hfetch'
      exact ⟨rfl, rfl, rfl⟩

/-- The instruction `insn` is fetched and then executed from `s1` to `s2`. -/
inductive Executes (h : Handler AccessSig ε σ) (fp : SoftFloat) :
    LoopState σ → Cursor → Insn → σ → Outcome × Word → σ → Prop
  | intro {mcycleTickEnd : Word} {c : Cursor} {s s1 s2 : σ} {cache : FetchCache} {insn : Insn}
    {r : Outcome × Word} (hlt : c.mcycle < mcycleTickEnd)
    (hfetch : (fetchInsn c.pc c.cache).run h s = .ok (cache, .ok insn) s1)
    (hexec : (executeInsn fp c.pc c.mcycle insn).access.run h s1 = .ok r s2) :
    Executes h fp (.inner mcycleTickEnd c s) c insn s1 r s2

theorem Executes.fetches {s1 s2 : σ} {r : Outcome × Word} (he : Executes h fp x c insn s1 r s2) :
    Fetches h x c insn s1 := by
  cases he with
  | intro hlt hfetch => exact .intro hlt hfetch

theorem Executes.unique {c' : Cursor} {insn' : Insn} {s1 s1' s2 s2' : σ}
    {r r' : Outcome × Word} (he : Executes h fp x c insn s1 r s2) (he' : Executes h fp x c' insn' s1' r' s2') :
    c' = c ∧ insn' = insn ∧ s1' = s1 ∧ r' = r ∧ s2' = s2 := by
  cases he with
  | intro hlt hfetch hexec =>
    cases he' with
    | intro hlt' hfetch' hexec' =>
      cases hfetch.symm.trans hfetch'
      cases hexec.symm.trans hexec'
      exact ⟨rfl, rfl, rfl, rfl, rfl⟩

/-! ## The cycle counter -/

/-- A wait never goes back in time nor beyond its limit. -/
def PollsForward (h : Handler AccessSig ε σ) : Prop :=
  ∀ (mcycle mcycleMax : Word) (s : σ), mcycle ≤ mcycleMax →
    Wlp ((pollExternalInterrupts mcycle mcycleMax).run h)
      (fun r _ => mcycle ≤ r.1 ∧ (r.1 = mcycle ∨ r.1 ≤ mcycleMax)) s

theorem stateAccess_pollsForward (fuel : Nat) : PollsForward (stateAccess fuel) :=
  fun _ _ _ hle => wlp_pollExternalInterrupts hle fun _ _ hr => ⟨hr.le_mcycle, hr.mcycle_le⟩

/-- The cycle counter after an instruction, before it is incremented: as it was, or advanced by a wait to
a cycle that is not the last one. -/
def McycleAfter (mcycle mcycle' : Word) : Prop :=
  mcycle' = mcycle ∨ mcycle ≤ mcycle' ∧ mcycle'.toNat + 1 < 2 ^ 64

theorem rtcTimeToCycle_succ_lt (time : Word) : (rtcTimeToCycle time).toNat + 1 < 2 ^ 64 := by
  rw [rtcTimeToCycle, toNat_mul, show rtcFreqDiv.toNat = 8192 from rfl]
  omega

theorem wlp_executeWFI_mcycle (hpoll : PollsForward h) :
    Wlp ((executeWFI pc mcycle insn).run h) (fun r _ => McycleAfter mcycle r.2) s := by
  simp only [executeWFI, wlp_run_bind, wlp_run_ite, wlp_run_pure]
  intro prv s1 _ mstatus s2 _
  refine ⟨fun _ _ _ _ => .inl rfl, fun _ mtimecmp s3 _ => ⟨fun hlt => ?_, fun _ => .inl rfl⟩⟩
  refine (hpoll _ _ _ (BitVec.le_of_lt hlt)).mono fun r _ hr => ?_
  refine hr.2.imp id fun hle => ⟨hr.1, ?_⟩
  have hmax := rtcTimeToCycle_succ_lt mtimecmp
  have hle : r.1.toNat ≤ (rtcTimeToCycle mtimecmp).toNat := hle
  omega

theorem wlp_executeInsn_mcycle (hpoll : PollsForward h) :
    Wlp ((executeInsn fp pc mcycle insn).access.run h) (fun r _ => McycleAfter mcycle r.2) s := by
  unfold IProg.access
  rw [Prog.run_translate (S := InsnSig) (T := AccessSig)]
  obtain ⟨-, hwfi⟩ | ⟨p, hp, -⟩ := executeInsn_cases fp pc mcycle insn
  · rw [hwfi]
    exact wlp_perform.mpr (wlp_executeWFI_mcycle hpoll)
  · rw [hp, Insn.withMcycle, wlp_run_bind]
    exact fun _ _ _ => wlp_pure.mpr (.inl rfl)

/-- The place of the loops after an instruction is at a later cycle. -/
def StepResult.After (mcycle : Word) : StepResult → Prop
  | .next c | .serve c => mcycle < c.mcycle
  | .stop _ => True

theorem McycleAfter.lt_succ_self {mcycle' : Word} (h : McycleAfter mcycle mcycle')
    (hlt : mcycle < mcycleEnd) : mcycle' < mcycle' + 1 := by
  have hlt : mcycle.toNat < mcycleEnd.toNat := hlt
  have hlast : mcycle'.toNat + 1 < 2 ^ 64 := by
    rcases h with rfl | ⟨-, hlast⟩
    · omega
    · exact hlast
  show mcycle'.toNat < (mcycle' + 1).toNat
  rw [toNat_add, show (1 : Word).toNat = 1 from rfl]
  omega

theorem McycleAfter.lt_succ {mcycle' : Word} (h : McycleAfter mcycle mcycle')
    (hlt : mcycle < mcycleEnd) : mcycle < mcycle' + 1 := by
  have hle : mcycle ≤ mcycle' := h.elim (fun heq => heq ▸ BitVec.le_refl _) And.left
  exact Nat.lt_of_le_of_lt hle (h.lt_succ_self hlt)

theorem wlp_afterExecute {cache : FetchCache} {post : StepResult → σ → Prop}
    (hnext : ∀ c, c.mcycle = mcycle + 1 → post (.next c) s)
    (hserve : ∀ c, c.mcycle = mcycle + 1 → post (.serve c) s) (hstop : ∀ status s', post (.stop status) s') :
    Wlp ((afterExecute cache status pc mcycle).run h) post s := by
  simp only [afterExecute, wlp_run_ite, wlp_run_bind, wlp_run_pure]
  exact ⟨fun _ => hnext _ rfl, fun _ => ⟨fun _ => hserve _ rfl, fun _ _ _ _ => hstop _ _⟩⟩

theorem wlp_innerStep_after (hpoll : PollsForward h) (hlt : c.mcycle < mcycleEnd) :
    Wlp ((innerStep fp c).run h) (fun r _ => r.After c.mcycle) s := by
  rw [innerStep, wlp_run_bind]
  rintro ⟨cache, fetched⟩ s1 -
  cases fetched with
  | error newPc => exact wlp_pure.mpr (McycleAfter.lt_succ (.inl rfl) hlt)
  | ok insn =>
    simp only [wlp_run_bind]
    refine (wlp_executeInsn_mcycle hpoll).mono ?_
    rintro ⟨⟨status, pc⟩, mcycle⟩ s2 hafter
    have hmcycle := hafter.lt_succ hlt
    exact wlp_afterExecute (fun c hc => by rwa [StepResult.After, hc])
      (fun c hc => by rwa [StepResult.After, hc]) fun _ _ => trivial

/-- Serving interrupts leaves the cycle counter and the fetch translation alone. -/
theorem wlp_serveInterrupts_cursor :
    Wlp ((serveInterrupts c).run h) (fun c' _ => c'.mcycle = c.mcycle ∧ c'.cache = c.cache) s := by
  simp [serveInterrupts]

/-- The next tick of the clock is ahead, and not beyond the end. -/
theorem tickEnd_bounds (hlt : mcycle < mcycleEnd) : mcycle.toNat < (tickEnd mcycleEnd mcycle).toNat ∧
    (tickEnd mcycleEnd mcycle).toNat ≤ mcycleEnd.toNat := by
  have hlt : mcycle.toNat < mcycleEnd.toNat := hlt
  have hleft : (mcycleEnd - mcycle).toNat = mcycleEnd.toNat - mcycle.toNat := by
    rw [toNat_sub]
    omega
  have htick : 0 < (rtcFreqDiv - mcycle % rtcFreqDiv).toNat := by
    rw [toNat_sub, toNat_umod, show rtcFreqDiv.toNat = 8192 from rfl]
    omega
  unfold tickEnd
  dsimp only
  split_ifs with hc
  · have hc : (rtcFreqDiv - mcycle % rtcFreqDiv).toNat < (mcycleEnd - mcycle).toNat := hc
    rw [toNat_add]
    omega
  · rw [toNat_add]
    omega

/-! ## The loops -/

/-- The place of the outer loop that the inner loop leads to. -/
def LoopState.afterInner (s : σ) : Cursor ⊕ ExecuteStatus → LoopState σ
  | .inl c => .outer c s
  | .inr status => .done status s

/-- The inner loop is a chain of steps, and it makes progress. -/
theorem innerLoop_steps (hpoll : PollsForward h) (mcycleEnd : Word) {mcycleTickEnd : Word} {n : Nat}
    {r : Cursor ⊕ ExecuteStatus} (hn : mcycleTickEnd.toNat ≤ c.mcycle.toNat + n)
    (hrun : (innerLoop fp mcycleTickEnd n c).run h s = .ok r s') :
    LoopSteps h fp mcycleEnd (.inner mcycleTickEnd c s) (.afterInner s' r) ∧
      ∀ c', r = .inl c' → c.mcycle ≤ c'.mcycle ∧ (c.mcycle < mcycleTickEnd → c.mcycle < c'.mcycle) := by
  induction n generalizing c s with
  | zero =>
    obtain ⟨rfl, rfl⟩ := EStateM.pure_ok_iff.mp hrun
    have hge : ¬ c.mcycle < mcycleTickEnd := fun hlt => by
      have hlt : c.mcycle.toNat < mcycleTickEnd.toNat := hlt
      omega
    refine ⟨.single (.tick hge), fun c' hc' => ?_⟩
    cases hc'
    exact ⟨BitVec.le_refl _, fun hlt => absurd hlt hge⟩
  | succ n ih =>
    rw [innerLoop, Prog.run_ite] at hrun
    split_ifs at hrun with hlt
    · rw [Prog.run_bind] at hrun
      obtain ⟨step, s1, h1, hrun⟩ := EStateM.bind_ok_iff.mp hrun
      have hafter := wlp_innerStep_after hpoll hlt _ _ h1
      cases step with
      | next c1 =>
        have hlt1 : c.mcycle.toNat < c1.mcycle.toNat := hafter
        obtain ⟨hsteps, hc⟩ := ih (by omega) hrun
        refine ⟨.head (.next hlt h1) hsteps, fun c' hc' => ?_⟩
        have hle := (hc c' hc').1
        exact ⟨BitVec.le_trans (BitVec.le_of_lt hafter) hle, fun _ => Nat.lt_of_lt_of_le hafter hle⟩
      | serve c1 =>
        obtain ⟨rfl, rfl⟩ := EStateM.pure_ok_iff.mp hrun
        refine ⟨.single (.serve hlt h1), fun c' hc' => ?_⟩
        cases hc'
        exact ⟨BitVec.le_of_lt hafter, fun _ => hafter⟩
      | stop status =>
        obtain ⟨rfl, rfl⟩ := EStateM.pure_ok_iff.mp hrun
        exact ⟨.single (.stop hlt h1), fun c' hc' => by cases hc'⟩
    · obtain ⟨rfl, rfl⟩ := EStateM.pure_ok_iff.mp hrun
      refine ⟨.single (.tick hlt), fun c' hc' => ?_⟩
      cases hc'
      exact ⟨BitVec.le_refl _, fun hlt' => absurd hlt' hlt⟩

theorem outerLoop_steps (hpoll : PollsForward h) {n : Nat} (hn : mcycleEnd.toNat ≤ c.mcycle.toNat + n)
    (hrun : (outerLoop fp mcycleEnd n c).run h s = .ok status s') :
    LoopSteps h fp mcycleEnd (.outer c s) (.done status s') := by
  induction n generalizing c s with
  | zero =>
    have hge : ¬ c.mcycle < mcycleEnd := fun hlt => by
      have hlt : c.mcycle.toNat < mcycleEnd.toNat := hlt
      omega
    exact .single (.finish hge hrun)
  | succ n ih =>
    rw [outerLoop, Prog.run_ite] at hrun
    split_ifs at hrun with hlt
    · rw [Prog.run_bind] at hrun
      obtain ⟨c1, s1, h1, hrun⟩ := EStateM.bind_ok_iff.mp hrun
      have hmcycle := (wlp_serveInterrupts_cursor _ _ h1).1
      rw [Prog.run_bind] at hrun
      obtain ⟨r, s2, h2, hrun⟩ := EStateM.bind_ok_iff.mp hrun
      have hlt1 : c1.mcycle < mcycleEnd := by rwa [hmcycle]
      have htick := (tickEnd_bounds hlt1).1
      obtain ⟨hsteps, hc⟩ := innerLoop_steps hpoll mcycleEnd (by rw [toNat_sub]; omega) h2
      cases r with
      | inl c2 =>
        have hlt2 : c1.mcycle.toNat < c2.mcycle.toNat := (hc c2 rfl).2 htick
        rw [hmcycle] at hlt2
        exact .head (.serveInterrupts hlt h1) (hsteps.trans (ih (by omega) hrun))
      | inr status2 =>
        obtain ⟨rfl, rfl⟩ := EStateM.pure_ok_iff.mp hrun
        exact .head (.serveInterrupts hlt h1) hsteps
    · exact .single (.finish hlt hrun)

/-! ## The interpreter -/

def Cursor.start (pc mcycle : Word) : Cursor := ⟨pc, mcycle, ⟨~~~pc, .raw 0⟩⟩

/-- The loops at the start of a run of a machine. -/
def LoopState.start (m : RunState) : LoopState RunState :=
  .outer (.start (m.s.regs .pc) (m.s.regs .mcycle)) (m.writeReg .iflagsX 0)

/-- Why the loops ended, from their status and the flags. -/
def breakReasonOf (status : ExecuteStatus) (regs : Reg → Word) : BreakReason :=
  if regs .iflagsH ≠ 0 then .halted
  else if regs .iflagsY ≠ 0 then .yieldedManually
  else if regs .iflagsX ≠ 0 then .yieldedAutomatically
  else if status = .successAndYield then .yieldedSoftly
  else .reachedTargetMcycle

variable {fuel : Nat} {m : RunState}

theorem wlp_breakReason {post : Post BreakReason} :
    Wlp ((breakReason status).exec fuel) post m ↔ post (breakReasonOf status m.s.regs) m := by
  simp only [breakReason, Prog.run_bind, wlp_bind, wlp_read, Prog.run_ite, Prog.run_pure]
  unfold breakReasonOf
  split_ifs <;> simp only [wlp_bind, wlp_read, wlp_pure, *, if_true, if_false, ne_eq,
    not_false_eq_true]

/-- The outcomes of a run of the interpreter. -/
inductive Interpreted (fp : SoftFloat) (fuel : Nat) (mcycleEnd : Word) (m : RunState) :
    BreakReason → RunState → Prop
  | halted (hH : m.s.regs .iflagsH ≠ 0) : Interpreted fp fuel mcycleEnd m .halted m
  | yielded (hH : m.s.regs .iflagsH = 0) (hY : m.s.regs .iflagsY ≠ 0) :
    Interpreted fp fuel mcycleEnd m .yieldedManually m
  | reached (hH : m.s.regs .iflagsH = 0) (hY : m.s.regs .iflagsY = 0)
    (hge : mcycleEnd ≤ m.s.regs .mcycle) : Interpreted fp fuel mcycleEnd m .reachedTargetMcycle m
  | ran {status : ExecuteStatus} {m' : RunState} (hH : m.s.regs .iflagsH = 0)
    (hY : m.s.regs .iflagsY = 0) (hlt : m.s.regs .mcycle < mcycleEnd)
    (hsteps : LoopSteps (stateAccess fuel) fp mcycleEnd (.start m) (.done status m')) :
    Interpreted fp fuel mcycleEnd m (breakReasonOf status m'.s.regs) m'

theorem interpret_steps {reason : BreakReason} {m' : RunState}
    (hrun : (interpret fp mcycleEnd).exec fuel m = .ok reason m') :
    Interpreted fp fuel mcycleEnd m reason m' := by
  have hall : Wlp ((interpret fp mcycleEnd).exec fuel)
      (Interpreted fp fuel mcycleEnd m) m := by
    simp only [interpret, interpretLoop, wlp_run_bind, wlp_read, wlp_run_ite,
      wlp_run_pure, wlp_write, wlp_breakReason]
    refine ⟨.halted, fun hH => ⟨.yielded (not_not.mp hH), fun hY =>
      ⟨.reached (not_not.mp hH) (not_not.mp hY), fun hlt => ?_⟩⟩⟩
    have hlt : m.s.regs .mcycle < mcycleEnd := BitVec.not_le.mp hlt
    intro status m1 hloop
    have hn : mcycleEnd.toNat ≤ (m.s.regs .mcycle).toNat + (mcycleEnd - m.s.regs .mcycle).toNat := by
      rw [toNat_sub]
      omega
    exact .ran (not_not.mp hH) (not_not.mp hY) hlt
      (outerLoop_steps (stateAccess_pollsForward fuel) hn hloop)
  exact hall _ _ hrun

end MachineEmulator.Interpret
