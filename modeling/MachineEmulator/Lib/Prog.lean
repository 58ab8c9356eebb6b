import Mathlib.Logic.Basic

/-!
# Programs over a signature of operations

`Prog S α` is a program that asks for operations of the signature `S` and returns an `α`; a
`Handler` says what the operations do on a state. A property of a handler that holds for every
single operation holds for every program, by one induction over the program (`run_*`), so code that
is generic in its accessor is verified once for each accessor and not once for each of its callers.

* `Prog.run h p` : the program `p` under the handler `h`;
* `Prog.translate f p` : each operation replaced by a program over another signature;
* `Prog.Asks P p` : every operation the program may ask for satisfies `P`;
* `Keeps`, `Forward`, `Agrees`, `Replays` : an invariant, a forward simulation, the agreement of two
  terminating runs, and a recording run whose log the other side replays. Each has its `pure`,
  `bind` and `run` rule.
-/

/-- A signature: the operations, and the type of the answer to each. -/
structure Sig where
  Op : Type
  Ans : Op → Type

/-- A program over `S`: a tree that branches on the answers to the operations it asks for. -/
inductive Prog (S : Sig) (α : Type) where
  | ret (a : α)
  | call (o : S.Op) (k : S.Ans o → Prog S α)

/-- What each operation of `S` does on a state `σ`; a failure carries the state it left behind. -/
abbrev Handler (S : Sig) (ε σ : Type) := (o : S.Op) → EStateM ε σ (S.Ans o)

namespace EStateM

variable {ε σ α β : Type}

variable {x : EStateM ε σ α} {f : α → EStateM ε σ β} {s s' : σ} {a : α}

theorem bind_ok_iff {s'' : σ} {b : β} :
    (x >>= f) s = .ok b s'' ↔ ∃ a s', x s = .ok a s' ∧ f a s' = .ok b s'' := by
  change EStateM.bind x f s = _ ↔ _
  unfold EStateM.bind
  cases h : x s with
  | ok a s' =>
    constructor
    · exact fun hf => ⟨a, s', rfl, hf⟩
    · rintro ⟨a', s1, ha, hf⟩
      cases ha
      exact hf
  | error e s' => simp

theorem bind_of_ok (h : x s = .ok a s') : (x >>= f) s = f a s' := by
  change EStateM.bind x f s = _
  unfold EStateM.bind
  rw [h]

theorem bind_of_error {e : ε} (h : x s = .error e s') : (x >>= f) s = .error e s' := by
  change EStateM.bind x f s = _
  unfold EStateM.bind
  rw [h]

theorem bind_congr_left {y : EStateM ε σ α} {t : σ} (h : x s = y t) : (x >>= f) s = (y >>= f) t := by
  change EStateM.bind x f s = EStateM.bind y f t
  unfold EStateM.bind
  rw [h]

theorem pure_ok_iff {b : α} : (pure a : EStateM ε σ α) s = .ok b s' ↔ a = b ∧ s = s' := by
  change EStateM.Result.ok a s = _ ↔ _
  simp

/-- An answer computed from the state, which stays as it is. -/
def query (f : σ → Except ε α) : EStateM ε σ α := fun s =>
  match f s with
  | .ok a => .ok a s
  | .error e => .error e s

/-- The state replaced, unless the computation of the new one fails. -/
def update (f : σ → Except ε σ) : EStateM ε σ Unit := fun s =>
  match f s with
  | .ok s' => .ok () s'
  | .error e => .error e s

theorem query_ok_iff {f : σ → Except ε α} : query f s = .ok a s' ↔ f s = .ok a ∧ s' = s := by
  unfold query
  cases f s with
  | error e => simp
  | ok b => simp [eq_comm]

theorem query_error_iff {f : σ → Except ε α} {e : ε} : query f s = .error e s' ↔ f s = .error e ∧ s' = s := by
  unfold query
  cases f s with
  | error e => simp [eq_comm]
  | ok b => simp

theorem update_ok_iff {f : σ → Except ε σ} {u : Unit} : update f s = .ok u s' ↔ f s = .ok s' := by
  unfold update
  cases f s with
  | error e => simp
  | ok b => simp

/-- Does the computation succeed, with a result that passes a test? -/
def succeedsWith (x : EStateM ε σ α) (s : σ) (test : α → σ → Bool) : Bool :=
  match x s with
  | .ok a s' => test a s'
  | .error _ _ => false

theorem exists_of_succeedsWith {test : α → σ → Bool}
    (h : x.succeedsWith s test = true) : ∃ a s', x s = .ok a s' ∧ test a s' = true := by
  unfold succeedsWith at h
  split at h
  · rename_i a s' hx
    exact ⟨a, s', hx, h⟩
  · cases h

end EStateM

namespace Prog

variable {S T : Sig} {α β : Type}

/-- Sequencing: `f` continues where `p` returns. -/
def bind : Prog S α → (α → Prog S β) → Prog S β
  | .ret a, f => f a
  | .call o k, f => .call o fun x => (k x).bind f

instance : Monad (Prog S) where
  pure := .ret
  bind := Prog.bind

@[simp] theorem ret_bind (a : α) (f : α → Prog S β) : (.ret a : Prog S α) >>= f = f a := rfl

@[simp] theorem call_bind (o : S.Op) (k : S.Ans o → Prog S α) (f : α → Prog S β) :
    (.call o k : Prog S α) >>= f = .call o fun x => k x >>= f := rfl

protected theorem bind_pure (p : Prog S α) : p >>= pure = p := by
  induction p with
  | ret a => rfl
  | call o k ih => exact congrArg (Prog.call o) (funext ih)

protected theorem bind_assoc {γ : Type} (p : Prog S α) (f : α → Prog S β) (g : β → Prog S γ) :
    p >>= f >>= g = p >>= fun a => f a >>= g := by
  induction p with
  | ret a => rfl
  | call o k ih => exact congrArg (Prog.call o) (funext ih)

instance : LawfulMonad (Prog S) :=
  LawfulMonad.mk' (Prog S) Prog.bind_pure (fun _ _ => rfl) Prog.bind_assoc

/-- The program that asks for one operation and returns its answer. -/
def perform (o : S.Op) : Prog S (S.Ans o) := .call o .ret

/-! ## Running a program -/

def run {ε σ : Type} (h : Handler S ε σ) : Prog S α → EStateM ε σ α
  | .ret a => pure a
  | .call o k => h o >>= fun x => run h (k x)

section Run
variable {ε σ : Type} (h : Handler S ε σ)

@[simp] theorem run_ret (a : α) : run h (.ret a : Prog S α) = pure a := rfl

@[simp] theorem run_call (o : S.Op) (k : S.Ans o → Prog S α) :
    run h (.call o k) = h o >>= fun x => run h (k x) := rfl

@[simp] theorem run_perform (o : S.Op) : run h (perform o) = h o := by
  exact bind_pure _

@[simp] theorem run_bind (p : Prog S α) (f : α → Prog S β) :
    run h (p >>= f) = run h p >>= fun a => run h (f a) := by
  induction p with
  | ret a => simp
  | call o k ih => simp [ih]

/-- The rest of a sequence runs from where its first part ends. -/
theorem run_bind_of_ok {p : Prog S α} {f : α → Prog S β} {s s' : σ} {a : α} (hp : run h p s = .ok a s') :
    run h (p >>= f) s = run h (f a) s' := by
  rw [run_bind]
  exact EStateM.bind_of_ok hp

@[simp] theorem run_map (f : α → β) (p : Prog S α) : run h (f <$> p) = f <$> run h p := by
  rw [map_eq_pure_bind, run_bind, map_eq_pure_bind]
  rfl

end Run

/-- Each operation of `S` replaced by a program over `T`. -/
def translate (f : (o : S.Op) → Prog T (S.Ans o)) : Prog S α → Prog T α
  | .ret a => .ret a
  | .call o k => f o >>= fun x => translate f (k x)

theorem run_translate {ε σ : Type} (f : (o : S.Op) → Prog T (S.Ans o)) (h : Handler T ε σ)
    (p : Prog S α) : run h (translate f p) = run (fun o => run h (f o)) p := by
  induction p with
  | ret a => rfl
  | call o k ih => simp [translate, ih]

/-! ## The operations a program asks for -/

/-- Every operation the program may ask for satisfies `P`. -/
def Asks (P : S.Op → Prop) : Prog S α → Prop
  | .ret _ => True
  | .call o k => P o ∧ ∀ x, Asks P (k x)

variable {P : S.Op → Prop}

theorem Asks.pure (a : α) : Asks P (Pure.pure a : Prog S α) := trivial

theorem Asks.perform {o : S.Op} (h : P o) : Asks P (Prog.perform o) := ⟨h, fun _ => trivial⟩

theorem Asks.bind {p : Prog S α} {f : α → Prog S β} (hp : Asks P p) (hf : ∀ a, Asks P (f a)) :
    Asks P (p >>= f) := by
  induction p with
  | ret a => exact hf a
  | call o k ih => exact ⟨hp.1, fun x => ih x (hp.2 x)⟩

theorem Asks.ite {c : Prop} [Decidable c] {p q : Prog S α} (hp : c → Asks P p) (hq : ¬ c → Asks P q) :
    Asks P (if c then p else q) := by
  split
  · rename_i hc
    exact hp hc
  · rename_i hc
    exact hq hc

end Prog

/-! ## An invariant -/

section Keeps
variable {ε σ α β : Type} {S : Sig}

/-- Every successful run of `x` from a state of `I` ends in a state of `I`. -/
def Keeps (I : σ → Prop) (x : EStateM ε σ α) : Prop :=
  ∀ s a s', I s → x s = .ok a s' → I s'

variable {I : σ → Prop}

theorem Keeps.pure (a : α) : Keeps I (pure a : EStateM ε σ α) := by
  intro s b s' hI h
  obtain ⟨-, rfl⟩ := EStateM.pure_ok_iff.mp h
  exact hI

theorem Keeps.bind {x : EStateM ε σ α} {f : α → EStateM ε σ β}
    (hx : Keeps I x) (hf : ∀ a, Keeps I (f a)) : Keeps I (x >>= f) := by
  intro s b s'' hI h
  obtain ⟨a, s', h1, h2⟩ := EStateM.bind_ok_iff.mp h
  exact hf a s' b s'' (hx s a s' hI h1) h2

theorem Keeps.run {h : Handler S ε σ} (hop : ∀ o, Keeps I (h o)) (p : Prog S α) : Keeps I (p.run h) := by
  induction p with
  | ret a => exact Keeps.pure a
  | call o k ih => exact (hop o).bind ih

end Keeps

/-! ## Forward simulation -/

section Forward
variable {ε ε' σ τ α β : Type} {S : Sig}

/-- Each successful run of `x` is matched by a successful run of `y` with the same answer. -/
def Forward (R : σ → τ → Prop) (x : EStateM ε σ α) (y : EStateM ε' τ α) : Prop :=
  ∀ s t a s', R s t → x s = .ok a s' → ∃ t', y t = .ok a t' ∧ R s' t'

variable {R : σ → τ → Prop}

theorem Forward.pure (a : α) : Forward R (pure a : EStateM ε σ α) (pure a : EStateM ε' τ α) := by
  intro s t b s' hR h
  obtain ⟨rfl, rfl⟩ := EStateM.pure_ok_iff.mp h
  exact ⟨t, rfl, hR⟩

theorem Forward.bind {x : EStateM ε σ α} {y : EStateM ε' τ α}
    {f : α → EStateM ε σ β} {g : α → EStateM ε' τ β} (hx : Forward R x y)
    (hf : ∀ a, Forward R (f a) (g a)) : Forward R (x >>= f) (y >>= g) := by
  intro s t b s'' hR h
  obtain ⟨a, s', h1, h2⟩ := EStateM.bind_ok_iff.mp h
  obtain ⟨t', h3, hR'⟩ := hx s t a s' hR h1
  obtain ⟨t'', h4, hR''⟩ := hf a s' t' b s'' hR' h2
  exact ⟨t'', EStateM.bind_ok_iff.mpr ⟨a, t', h3, h4⟩, hR''⟩

/-- A simulation of the operations that a program asks for is enough. -/
theorem Forward.run_of_asks {h : Handler S ε σ} {h' : Handler S ε' τ}
    {P : S.Op → Prop} (hop : ∀ o, P o → Forward R (h o) (h' o)) (p : Prog S α) (hp : p.Asks P) :
    Forward R (p.run h) (p.run h') := by
  induction p with
  | ret a => exact Forward.pure a
  | call o k ih => exact (hop o hp.1).bind fun x => ih x (hp.2 x)

end Forward

/-! ## Agreement of two runs that both succeed -/

section Agrees
variable {ε ε' σ τ α β : Type} {S : Sig}

/-- If `x` and `y` both succeed from related states, they agree on the answer and stay related. -/
def Agrees (R : σ → τ → Prop) (x : EStateM ε σ α) (y : EStateM ε' τ α) : Prop :=
  ∀ s t a s' b t', R s t → x s = .ok a s' → y t = .ok b t' → a = b ∧ R s' t'

variable {R : σ → τ → Prop}

theorem Agrees.pure (a : α) : Agrees R (pure a : EStateM ε σ α) (pure a : EStateM ε' τ α) := by
  intro s t b s' c t' hR h1 h2
  obtain ⟨rfl, rfl⟩ := EStateM.pure_ok_iff.mp h1
  obtain ⟨rfl, rfl⟩ := EStateM.pure_ok_iff.mp h2
  exact ⟨rfl, hR⟩

theorem Agrees.bind {x : EStateM ε σ α} {y : EStateM ε' τ α}
    {f : α → EStateM ε σ β} {g : α → EStateM ε' τ β} (hx : Agrees R x y)
    (hf : ∀ a, Agrees R (f a) (g a)) : Agrees R (x >>= f) (y >>= g) := by
  intro s t b s'' c t'' hR h1 h2
  obtain ⟨a, s', hx1, hf1⟩ := EStateM.bind_ok_iff.mp h1
  obtain ⟨a', t', hx2, hf2⟩ := EStateM.bind_ok_iff.mp h2
  obtain ⟨rfl, hR'⟩ := hx s t a s' a' t' hR hx1 hx2
  exact hf a s' t' b s'' c t'' hR' hf1 hf2

/-- A check that keeps the state may stand before the second computation. -/
theorem Agrees.query_right {x : EStateM ε σ α} {y : EStateM ε' τ α}
    {c : τ → Except ε' β} (hxy : Agrees R x y) : Agrees R x (do let _ ← EStateM.query c; y) := by
  intro s t a s' b t' hR hs ht
  obtain ⟨u, t1, ht1, ht2⟩ := EStateM.bind_ok_iff.mp ht
  obtain ⟨-, rfl⟩ := EStateM.query_ok_iff.mp ht1
  exact hxy s t1 a s' b t' hR hs ht2

theorem Agrees.run {h : Handler S ε σ} {h' : Handler S ε' τ}
    (hop : ∀ o, Agrees R (h o) (h' o)) (p : Prog S α) : Agrees R (p.run h) (p.run h') := by
  induction p with
  | ret a => exact Agrees.pure a
  | call o k ih => exact (hop o).bind ih

end Agrees

/-! ## Recording and replaying -/

section Replays
variable {ε ε' σ τ E α β : Type} {S : Sig}

/-- Whenever `x` succeeds it appends some entries to its log, and `y` replays them: started from a
state that `R` relates to the start of `x` and from a log that begins with these entries, it returns
the same answer, consumes exactly these entries and ends related to the end of `x`. -/
def Replays (R : σ → τ → Prop) (log : σ → List E) (x : EStateM ε σ α)
    (y : EStateM ε' (τ × List E) α) : Prop :=
  ∀ s t a s', R s t → x s = .ok a s' → ∃ es t', log s' = log s ++ es ∧ R s' t' ∧
    ∀ rest, y (t, es ++ rest) = .ok a (t', rest)

variable {R : σ → τ → Prop} {log : σ → List E}

theorem Replays.pure (a : α) : Replays R log (pure a : EStateM ε σ α) (pure a : EStateM ε' (τ × List E) α) := by
  intro s t b s' hR h
  obtain ⟨rfl, rfl⟩ := EStateM.pure_ok_iff.mp h
  exact ⟨[], t, by simp, hR, fun _ => rfl⟩

theorem Replays.bind {x : EStateM ε σ α}
    {y : EStateM ε' (τ × List E) α} {f : α → EStateM ε σ β} {g : α → EStateM ε' (τ × List E) β}
    (hx : Replays R log x y) (hf : ∀ a, Replays R log (f a) (g a)) : Replays R log (x >>= f) (y >>= g) := by
  intro s t b s'' hR h
  obtain ⟨a, s', h1, h2⟩ := EStateM.bind_ok_iff.mp h
  obtain ⟨es1, t', hl1, hR', hy⟩ := hx s t a s' hR h1
  obtain ⟨es2, t'', hl2, hR'', hg⟩ := hf a s' t' b s'' hR' h2
  refine ⟨es1 ++ es2, t'', by rw [hl2, hl1, List.append_assoc], hR'', fun rest => ?_⟩
  rw [List.append_assoc, EStateM.bind_of_ok (hy (es2 ++ rest))]
  exact hg rest

theorem Replays.run {h : Handler S ε σ}
    {h' : Handler S ε' (τ × List E)} (hop : ∀ o, Replays R log (h o) (h' o)) (p : Prog S α) :
    Replays R log (p.run h) (p.run h') := by
  induction p with
  | ret a => exact Replays.pure a
  | call o k ih => exact (hop o).bind ih

end Replays
