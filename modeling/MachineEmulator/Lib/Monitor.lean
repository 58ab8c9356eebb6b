import MachineEmulator.Lib.Prog

/-!
# Monitors of programs

A monitor watches the operations of a program and moves between phases. `Prog.Conforms M q p post`
says that `p`, watched by `M` from the phase `q` on, only asks for operations the monitor allows,
whatever the answers are, and returns in a phase and with a value of `post`.

Conformance is a fact about the program alone. It is used with an invariant for each phase: when each
allowed operation of a handler leads from the invariant of one phase to that of the next
(`Monitor.Kept`), every run of a conforming program ends in the invariant of a phase of `post`
(`Prog.Conforms.run`). Many invariants can so share one walk over the program's text.

`LocalConforms` is the same for programs that also work on a state of their own.

`Prog.Asked` are the operations that a run asks for, each with the state it is asked in. An invariant may
be kept only by operations of which something is known (`Prog.Conforms.run_of_asked`).
-/

/-- Which operations are allowed in a phase, and the phase after an answer. -/
structure Monitor (S : Sig) (Q : Type) where
  allows : Q → S.Op → Prop
  next : Q → (o : S.Op) → S.Ans o → Q

namespace Prog

variable {S : Sig} {Q α β : Type} {M : Monitor S Q}

/-- The program keeps to the monitor from the phase `q` on and returns within `post`. -/
def Conforms (M : Monitor S Q) (q : Q) : Prog S α → (Q → α → Prop) → Prop
  | .ret a, post => post q a
  | .call o k, post => M.allows q o ∧ ∀ x, Conforms M (M.next q o x) (k x) post

variable {q : Q} {post : Q → α → Prop}

@[simp] theorem conforms_ret {a : α} : Conforms M q (.ret a) post ↔ post q a := Iff.rfl

@[simp] theorem conforms_pure {a : α} : Conforms M q (pure a) post ↔ post q a := Iff.rfl

@[simp] theorem conforms_call {o : S.Op} {k : S.Ans o → Prog S α} : Conforms M q (.call o k) post ↔
      M.allows q o ∧ ∀ x, Conforms M (M.next q o x) (k x) post := Iff.rfl

@[simp] theorem conforms_perform {o : S.Op} {post : Q → S.Ans o → Prop} :
    Conforms M q (perform o) post ↔ M.allows q o ∧ ∀ x, post (M.next q o x) x := Iff.rfl

variable {p : Prog S α}

@[simp] theorem conforms_bind {f : α → Prog S β} {post : Q → β → Prop} :
    Conforms M q (p >>= f) post ↔ Conforms M q p fun q' a => Conforms M q' (f a) post := by
  induction p generalizing q with
  | ret a => rfl
  | call o k ih => simp [ih]

@[simp] theorem conforms_map {f : α → β} {post : Q → β → Prop} :
    Conforms M q (f <$> p) post ↔ Conforms M q p fun q' a => post q' (f a) := by
  rw [map_eq_pure_bind, conforms_bind]
  rfl

@[simp] theorem conforms_ite {c : Prop} [Decidable c] {p' : Prog S α} :
    Conforms M q (if c then p else p') post ↔
      (c → Conforms M q p post) ∧ (¬ c → Conforms M q p' post) := by
  by_cases hc : c <;> simp [hc]

theorem Conforms.mono {post' : Q → α → Prop} (h : Conforms M q p post)
    (hpost : ∀ q a, post q a → post' q a) : Conforms M q p post' := by
  induction p generalizing q with
  | ret a => exact hpost q a h
  | call o k ih => exact ⟨h.1, fun x => ih x (h.2 x)⟩

/-- A program that keeps to a monitor asks only for operations of which the monitor knows something. -/
theorem Conforms.asks {P : S.Op → Prop} (hM : ∀ q o, M.allows q o → P o)
    (h : Conforms M q p post) : p.Asks P := by
  induction p generalizing q with
  | ret a => trivial
  | call o k ih => exact ⟨hM q o h.1, fun x => ih x (h.2 x)⟩

end Prog

/-! ## Programs with a state of their own -/

section Local
variable {S : Sig} {Q δ α β : Type} {M : Monitor S Q} {I : δ → Prop}

theorem Prog.conforms_liftM_bind {p : Prog S α} {f : α → StateT δ (Prog S) β} {d : δ} {q : Q}
    {post : Q → β × δ → Prop} : ((liftM p >>= f : StateT δ (Prog S) β) d).Conforms M q post ↔
      p.Conforms M q fun q' a => (f a d).Conforms M q' post :=
  Prog.conforms_bind.trans Prog.conforms_bind

/-- From local states of `I` the program keeps to the monitor, in every phase, and returns in `I`. -/
def LocalConforms (M : Monitor S Q) (I : δ → Prop) (p : StateT δ (Prog S) α) : Prop :=
  ∀ d q, I d → (p d).Conforms M q fun _ r => I r.2

namespace LocalConforms

theorem pure (a : α) : LocalConforms M I (pure a) := fun _ _ hd => hd

theorem bind {p : StateT δ (Prog S) α} {f : α → StateT δ (Prog S) β} (hp : LocalConforms M I p)
    (hf : ∀ a, LocalConforms M I (f a)) : LocalConforms M I (p >>= f) :=
  fun d q hd => Prog.conforms_bind.mpr ((hp d q hd).mono fun q' r hr => hf r.1 r.2 q' hr)

theorem get_bind {f : δ → StateT δ (Prog S) β} (hf : ∀ d, I d → LocalConforms M I (f d)) :
    LocalConforms M I (get >>= f) :=
  fun d q hd => hf d hd d q hd

theorem modify {f : δ → δ} (hf : ∀ d, I d → I (f d)) : LocalConforms M I (modify f) := fun d _ hd => hf d hd

theorem lift {p : Prog S α} (hp : ∀ q, p.Conforms M q fun _ _ => True) : LocalConforms M I (StateT.lift p) :=
  fun _ q hd => Prog.conforms_bind.mpr ((hp q).mono fun _ _ _ => hd)

theorem lift_bind {p : Prog S α} {f : α → StateT δ (Prog S) β} {post : α → Prop}
    (hp : ∀ q, p.Conforms M q fun _ a => post a) (hf : ∀ a, post a → LocalConforms M I (f a)) :
    LocalConforms M I (StateT.lift p >>= f) := by
  refine fun d q hd => Prog.conforms_liftM_bind.mpr ((hp q).mono fun q' a ha => ?_)
  exact hf a ha d q' hd

theorem ite {c : Prop} [Decidable c] {p p' : StateT δ (Prog S) α} (hp : c → LocalConforms M I p)
    (hp' : ¬ c → LocalConforms M I p') : LocalConforms M I (if c then p else p') := by
  split
  · rename_i hc
    exact hp hc
  · rename_i hc
    exact hp' hc

end LocalConforms

end Local

/-! ## Soundness -/

section Run
variable {S : Sig} {Q ε σ α : Type}

/-- The run of the program from `s` asks for the operation `o` in the state `s'`. -/
def Prog.Asked (h : Handler S ε σ) : Prog S α → σ → S.Op → σ → Prop
  | .ret _, _, _, _ => False
  | .call o k, s, o', s' => (o' = o ∧ s' = s) ∨ ∃ x s1, h o s = .ok x s1 ∧ Prog.Asked h (k x) s1 o' s'

/-- Every operation the monitor allows, and of whose outcome `C` is known, leads from the invariant of its
phase to that of the next. -/
def Monitor.KeptOn (M : Monitor S Q) (h : Handler S ε σ) (C : (o : S.Op) → σ → S.Ans o → σ → Prop)
    (I : Q → σ → Prop) : Prop :=
  ∀ q o s x s', M.allows q o → C o s x s' → I q s → h o s = .ok x s' → I (M.next q o x) s'

variable {M : Monitor S Q} {h : Handler S ε σ} {I : Q → σ → Prop} {p : Prog S α} {q : Q} {post : Q → α → Prop}
  {s s' s1 : σ} {a : α} {o : S.Op} {β : Type}

theorem Prog.Conforms.run_of_asked
    {C : (o : S.Op) → σ → S.Ans o → σ → Prop} (hM : M.KeptOn h C I) (hp : p.Conforms M q post)
    (hC : ∀ o s1 x s2, p.Asked h s o s1 → h o s1 = .ok x s2 → C o s1 x s2) (hI : I q s)
    (hr : p.run h s = .ok a s') : ∃ q', I q' s' ∧ post q' a := by
  induction p generalizing q s with
  | ret b =>
    obtain ⟨rfl, rfl⟩ := EStateM.pure_ok_iff.mp hr
    exact ⟨q, hI, hp⟩
  | call o k ih =>
    obtain ⟨x, s1, h1, h2⟩ := EStateM.bind_ok_iff.mp hr
    have hI1 : I (M.next q o x) s1 := hM q o s x s1 hp.1 (hC o s x s1 (.inl ⟨rfl, rfl⟩) h1) hI h1
    exact ih x (hp.2 x) (fun o' s2 y s3 ho' => hC o' s2 y s3 (.inr ⟨x, s1, h1, ho'⟩)) hI1 h2

/-- Every operation the monitor allows leads from the invariant of its phase to that of the next. -/
def Monitor.Kept (M : Monitor S Q) (h : Handler S ε σ) (I : Q → σ → Prop) : Prop :=
  M.KeptOn h (fun _ _ _ _ => True) I

theorem Prog.Conforms.run
    (hM : M.Kept h I) (hp : p.Conforms M q post) (hI : I q s) (hr : p.run h s = .ok a s') : ∃ q', I q' s' ∧ post q' a :=
  hp.run_of_asked hM (fun _ _ _ _ _ _ => trivial) hI hr

/-- Where a run asks for an operation, the monitor allows it, and what is left of the program keeps to the
monitor from the answer on. -/
theorem Prog.Conforms.split_asked
    (hM : M.Kept h I) (hp : p.Conforms M q post) (hI : I q s) (ho : p.Asked h s o s1) (hr : p.run h s = .ok a s') :
    ∃ q1 x s2, ∃ k : Prog S α, M.allows q1 o ∧ I q1 s1 ∧ h o s1 = .ok x s2 ∧
      k.Conforms M (M.next q1 o x) post ∧ k.run h s2 = .ok a s' := by
  induction p generalizing q s with
  | ret b => exact ho.elim
  | call o' k ih =>
    obtain ⟨x, s2, h1, h2⟩ := EStateM.bind_ok_iff.mp hr
    rcases ho with ⟨rfl, rfl⟩ | ⟨y, s3, h3, ho⟩
    · exact ⟨q, x, s2, k x, hp.1, hI, h1, hp.2 x, h2⟩
    · obtain ⟨rfl, rfl⟩ := EStateM.Result.ok.inj (h1.symm.trans h3)
      exact ih x (hp.2 x) (hM q o' s x s2 hp.1 trivial hI h1) ho h2

@[simp] theorem Prog.asked_pure : ¬ (pure a : Prog S α).Asked h s o s' := id

@[simp] theorem Prog.asked_perform {o' : S.Op} : (Prog.perform o').Asked h s o s' ↔ o = o' ∧ s' = s := by
  refine or_iff_left ?_
  rintro ⟨x, s1, -, hx⟩
  exact hx

/-- What a sequence asks for is asked for by one of its parts. -/
theorem Prog.asked_bind {f : α → Prog S β} : (p >>= f).Asked h s o s' ↔
      p.Asked h s o s' ∨ ∃ a s1, p.run h s = .ok a s1 ∧ (f a).Asked h s1 o s' := by
  induction p generalizing s with
  | ret a =>
    refine ⟨fun hf => .inr ⟨a, s, rfl, hf⟩, ?_⟩
    rintro (hp | ⟨b, s1, hb, hf⟩)
    · exact hp.elim
    · cases hb
      exact hf
  | call o' k ih =>
    simp only [Prog.call_bind, Prog.Asked, ih, Prog.run_call, EStateM.bind_ok_iff]
    constructor
    · rintro (hhere | ⟨x, s1, hx, hk | ⟨a, s2, ha, hf⟩⟩)
      · exact .inl (.inl hhere)
      · exact .inl (.inr ⟨x, s1, hx, hk⟩)
      · exact .inr ⟨a, s2, ⟨x, s1, hx, ha⟩, hf⟩
    · rintro ((hhere | ⟨x, s1, hx, hk⟩) | ⟨a, s2, ⟨x, s1, hx, ha⟩, hf⟩)
      · exact .inl hhere
      · exact .inr ⟨x, s1, hx, .inl hk⟩
      · exact .inr ⟨x, s1, hx, .inr ⟨a, s2, ha, hf⟩⟩

/-- What is asked for after a program without a local state. -/
theorem Prog.Asked.of_liftM {δ : Type} {f : α → StateT δ (Prog S) β} {d : δ} (hp : p.run h s = .ok a s1)
    (hf : (f a d).Asked h s1 o s') :
    ((liftM p >>= f : StateT δ (Prog S) β) d).Asked h s o s' := by
  have hrun : ((liftM p : StateT δ (Prog S) α) d).run h s = .ok (a, d) s1 :=
    (congrFun (Prog.run_bind ..) s).trans (EStateM.bind_of_ok hp)
  exact Prog.asked_bind.mpr (.inr ⟨(a, d), s1, hrun, hf⟩)

/-- What is asked for after another operation, which is answered. -/
theorem Prog.Asked.of_answer {o' : S.Op} {x : S.Ans o'} {f : S.Ans o' → Prog S α} (hx : h o' s = .ok x s1)
    (hne : o ≠ o') (ho : (Prog.perform o' >>= f).Asked h s o s') :
    (f x).Asked h s1 o s' := by
  rcases ho with ⟨h', -⟩ | ⟨y, s2, hy, ho⟩
  · exact absurd h' hne
  · obtain ⟨rfl, rfl⟩ := EStateM.Result.ok.inj (hx.symm.trans hy)
    exact ho

/-- What is known of all operations of a program is known of those that a run asks for. -/
theorem Prog.Asks.of_asked {P : S.Op → Prop} (hp : p.Asks P) (ho : p.Asked h s o s') : P o := by
  induction p generalizing s with
  | ret a => exact ho.elim
  | call o' k ih =>
    rcases ho with ⟨rfl, -⟩ | ⟨x, s1, -, ho⟩
    · exact hp.1
    · exact ih x (hp.2 x) ho

/-- What a program of one part asks for is asked for by the whole. -/
theorem Prog.Asked.bind_left {f : α → Prog S β} (ho : p.Asked h s o s') : (p >>= f).Asked h s o s' := by
  induction p generalizing s with
  | ret a => exact ho.elim
  | call o' k ih => exact ho.imp id fun ⟨x, s1, h1, hk⟩ => ⟨x, s1, h1, ih x hk⟩

end Run
