import MachineEmulator.Lib.Prog

/-!
# Programs with one commit

A program that fails should leave the state as it was. One that first only asks, then changes something, and then
asks for nothing that can fail, is as good in this respect as the operation that makes the change.

* `AtomicOnFailure x s` : if `x` fails from `s`, it leaves `s` behind;
* `Prog.Commits Q C T p` : the program `p` asks for operations of `Q` up to some operation of `C`, and for operations of
  `T` after it;
* `Prog.commit h Q p s` : the first operation outside `Q` that `p` asks for when it runs from `s`;
* `Prog.Commits.atomicOnFailure_iff` : if the operations of `Q` keep the state and those of `T` cannot fail, the program
  is atomic on failure exactly when this operation is.
-/

/-- A failure of `x` from `s` leaves `s` behind. -/
def AtomicOnFailure {ε σ α : Type} (x : EStateM ε σ α) (s : σ) : Prop := ∀ e s', x s = .error e s' → s' = s

/-- The computation keeps the state, also when it fails. -/
def KeepsState {ε σ α : Type} (x : EStateM ε σ α) : Prop :=
  ∀ s, (∀ a s', x s = .ok a s' → s' = s) ∧ AtomicOnFailure x s

theorem keepsState_query {ε σ α : Type} (f : σ → Except ε α) : KeepsState (EStateM.query f) :=
  fun _ => ⟨fun _ _ h => (EStateM.query_ok_iff.mp h).2, fun _ _ h => (EStateM.query_error_iff.mp h).2⟩

theorem atomicOnFailure_update {ε σ : Type} (f : σ → Except ε σ) (s : σ) : AtomicOnFailure (EStateM.update f) s := by
  intro e s' h
  unfold EStateM.update at h
  split at h
  · cases h
  · cases h
    rfl

namespace Prog

open EStateM

variable {S : Sig} {α β : Type} {Q C T : S.Op → Prop}

def Commits (Q C T : S.Op → Prop) : Prog S α → Prop
  | .ret _ => True
  | .call o k => (Q o ∧ ∀ x, Commits Q C T (k x)) ∨ C o ∧ ∀ x, Asks T (k x)

theorem Commits.of_asks {p : Prog S α} (hC : ∀ o, T o → C o) (hp : Asks T p) : Commits Q C T p := by
  cases p with
  | ret a => trivial
  | call o k => exact .inr ⟨hC o hp.1, hp.2⟩

theorem Commits.perform {o : S.Op} (ho : C o) : Commits Q C T (Prog.perform o) := .inr ⟨ho, fun _ => trivial⟩

theorem Commits.asks_bind {p : Prog S α} {f : α → Prog S β} (hp : Asks Q p) (hf : ∀ a, Commits Q C T (f a)) :
    Commits Q C T (p >>= f) := by
  induction p with
  | ret a => exact hf a
  | call o k ih => exact .inl ⟨hp.1, fun x => ih x (hp.2 x)⟩

theorem Commits.bind_asks {p : Prog S α} {f : α → Prog S β} (hC : ∀ o, T o → C o) (hp : Commits Q C T p)
    (hf : ∀ a, Asks T (f a)) : Commits Q C T (p >>= f) := by
  induction p with
  | ret a => exact .of_asks hC (hf a)
  | call o k ih =>
    rcases hp with ⟨ho, hk⟩ | ⟨ho, hk⟩
    · exact .inl ⟨ho, fun x => ih x (hk x)⟩
    · exact .inr ⟨ho, fun x => (hk x).bind hf⟩

theorem Commits.ite {c : Prop} [Decidable c] {p q : Prog S α} (hp : c → Commits Q C T p)
    (hq : ¬ c → Commits Q C T q) : Commits Q C T (if c then p else q) := by
  split
  · rename_i hc
    exact hp hc
  · rename_i hc
    exact hq hc

section
variable {ε σ : Type}

/-- The first operation outside `Q` that the program asks for. -/
def commit (h : Handler S ε σ) (Q : S.Op → Prop) [DecidablePred Q] : Prog S α → σ → Option S.Op
  | .ret _, _ => none
  | .call o k, s =>
    if Q o then
      match h o s with
      | .ok x s' => commit h Q (k x) s'
      | .error _ _ => none
    else some o

variable {h : Handler S ε σ}

theorem run_ne_error (hT : ∀ o, T o → ∀ s e s', h o s ≠ .error e s') {p : Prog S α} (hp : Asks T p) (s : σ) (e : ε)
    (s' : σ) : p.run h s ≠ .error e s' := by
  induction p generalizing s with
  | ret a => exact fun hrun => by cases hrun
  | call o k ih =>
    rw [run_call]
    cases ho : h o s with
    | error e' s1 => exact absurd ho (hT o hp.1 s e' s1)
    | ok x s1 =>
      rw [bind_of_ok ho]
      exact ih x (hp.2 x) s1

variable [DecidablePred Q]

section
variable {o : S.Op} {f : S.Ans o → Prog S α} {s s' : σ}

theorem commit_of_not (ho : ¬ Q o) : (Prog.perform o >>= f).commit h Q s = some o := by
  show (Prog.call o f).commit h Q s = _
  rw [commit, if_neg ho]

theorem commit_of_ok {x : S.Ans o} (ho : Q o) (hok : h o s = .ok x s') :
    (Prog.perform o >>= f).commit h Q s = (f x).commit h Q s' := by
  show (Prog.call o f).commit h Q s = _
  rw [commit, if_pos ho, hok]

theorem commit_of_error {e : ε} (ho : Q o) (herr : h o s = .error e s') :
    (Prog.perform o >>= f).commit h Q s = none := by
  show (Prog.call o f).commit h Q s = _
  rw [commit, if_pos ho, herr]

end

theorem Commits.eq_or_commit (hQ : ∀ o, Q o → KeepsState (h o)) (hT : ∀ o, T o → ∀ s e s', h o s ≠ .error e s')
    {p : Prog S α} (hp : Commits Q C T p) {s s' : σ} {e : ε} (hrun : p.run h s = .error e s') :
    s' = s ∨ ∃ o, p.commit h Q s = some o ∧ h o s = .error e s' := by
  induction p generalizing s with
  | ret a => cases hrun
  | call o k ih =>
    rw [run_call] at hrun
    rw [commit]
    cases ho : h o s with
    | error e' s1 =>
      rw [bind_of_error ho] at hrun
      cases hrun
      by_cases hq : Q o
      · exact .inl ((hQ o hq s).2 _ _ ho)
      · exact .inr ⟨o, if_neg hq, ho⟩
    | ok x s1 =>
      rw [bind_of_ok ho] at hrun
      rcases hp with ⟨hq, hk⟩ | ⟨-, hk⟩
      · obtain rfl := (hQ o hq s).1 _ _ ho
        rw [if_pos hq]
        exact ih x (hk x) hrun
      · exact absurd hrun (run_ne_error hT (hk x) s1 e s')

theorem run_of_commit (hQ : ∀ o, Q o → KeepsState (h o)) {p : Prog S α} {s s' : σ} {e : ε} {o : S.Op}
    (hcommit : p.commit h Q s = some o) (ho : h o s = .error e s') : p.run h s = .error e s' := by
  induction p generalizing s with
  | ret a => cases hcommit
  | call o' k ih =>
    rw [commit] at hcommit
    rw [run_call]
    split at hcommit
    · rename_i hq
      cases ho' : h o' s with
      | error e' s1 =>
        rw [ho'] at hcommit
        cases hcommit
      | ok x s1 =>
        rw [ho'] at hcommit
        obtain rfl := (hQ o' hq s).1 _ _ ho'
        rw [bind_of_ok ho']
        exact ih x hcommit ho
    · cases hcommit
      exact bind_of_error ho

theorem Commits.of_commit (hC : ∀ o, T o → C o) {p : Prog S α} (hp : Commits Q C T p) {s : σ} {o : S.Op}
    (hcommit : p.commit h Q s = some o) : C o := by
  induction p generalizing s with
  | ret a => cases hcommit
  | call o' k ih =>
    rw [commit] at hcommit
    split at hcommit
    · split at hcommit
      · rcases hp with ⟨-, hk⟩ | ⟨-, hk⟩
        · exact ih _ (hk _) hcommit
        · exact ih _ (.of_asks hC (hk _)) hcommit
      · cases hcommit
    · rename_i hq
      cases hcommit
      exact hp.elim (fun h => absurd h.1 hq) fun h => h.1

theorem Commits.atomicOnFailure_iff (hQ : ∀ o, Q o → KeepsState (h o)) (hT : ∀ o, T o → ∀ s e s', h o s ≠ .error e s')
    {p : Prog S α} (hp : Commits Q C T p) {s : σ} :
    AtomicOnFailure (p.run h) s ↔ ∀ o, p.commit h Q s = some o → AtomicOnFailure (h o) s := by
  constructor
  · intro hatomic o hcommit e s' ho
    exact hatomic e s' (run_of_commit hQ hcommit ho)
  · intro hatomic e s' hrun
    rcases hp.eq_or_commit hQ hT hrun with heq | ⟨o, hcommit, ho⟩
    · exact heq
    · exact hatomic o hcommit e s' ho

end

end Prog
