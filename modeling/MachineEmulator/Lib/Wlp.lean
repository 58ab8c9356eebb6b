import MachineEmulator.Lib.Prog

/-!
# Weakest liberal preconditions

`Wlp x post s` says that every successful run of `x` from `s` ends with an answer and in a state of
`post`. The rules are equivalences that follow the text of a computation, so a program is executed
symbolically by rewriting with them; a program that is verified once enters through `Wlp.mono`.

* `Succeeds x s` : the run of `x` from `s` does not fail. Its rule for sequences has a weakest liberal
  precondition in it;
* `Wlp.run_of_asks` : an invariant of the operations that a program asks for;
* `LocalWlp`, `LocalKeeps` : the same for programs that also work on a state of their own, and their invariants.
-/

section Wlp
variable {ε σ α β : Type}

/-- Every successful run of `x` from `s` ends within `post`. -/
def Wlp (x : EStateM ε σ α) (post : α → σ → Prop) (s : σ) : Prop :=
  ∀ a s', x s = .ok a s' → post a s'

variable {x : EStateM ε σ α} {post post' : α → σ → Prop} {s : σ}

theorem Wlp.mono (h : Wlp x post s) (hpost : ∀ a s', post a s' → post' a s') : Wlp x post' s :=
  fun a s' hx => hpost a s' (h a s' hx)

theorem Wlp.and (h : Wlp x post s) (h' : Wlp x post' s) : Wlp x (fun a s' => post a s' ∧ post' a s') s :=
  fun a s' hx => ⟨h a s' hx, h' a s' hx⟩

@[simp] theorem wlp_true : Wlp x (fun _ _ => True) s := fun _ _ _ => trivial

@[simp] theorem wlp_pure {a : α} : Wlp (pure a : EStateM ε σ α) post s ↔ post a s := by
  constructor
  · exact fun h => h a s rfl
  · rintro h b s' hb
    obtain ⟨rfl, rfl⟩ := EStateM.pure_ok_iff.mp hb
    exact h

@[simp] theorem wlp_bind {f : α → EStateM ε σ β} {post : β → σ → Prop} :
    Wlp (x >>= f) post s ↔ Wlp x (fun a s' => Wlp (f a) post s') s := by
  constructor
  · exact fun h a s' hx b s'' hf => h b s'' (EStateM.bind_ok_iff.mpr ⟨a, s', hx, hf⟩)
  · intro h b s'' hb
    obtain ⟨a, s', hx, hf⟩ := EStateM.bind_ok_iff.mp hb
    exact h a s' hx b s'' hf

@[simp] theorem wlp_map {f : α → β} {post : β → σ → Prop} :
    Wlp (f <$> x) post s ↔ Wlp x (fun a => post (f a)) s := by
  rw [map_eq_pure_bind, wlp_bind]
  simp

@[simp] theorem wlp_ite {c : Prop} [Decidable c] {y : EStateM ε σ α} :
    Wlp (if c then x else y) post s ↔ (c → Wlp x post s) ∧ (¬ c → Wlp y post s) := by
  by_cases hc : c <;> simp [hc]

@[simp] theorem wlp_query {f : σ → Except ε α} :
    Wlp (EStateM.query f) post s ↔ ∀ a, f s = .ok a → post a s := by
  constructor
  · exact fun h a ha => h a s (EStateM.query_ok_iff.mpr ⟨ha, rfl⟩)
  · intro h a s' ha
    obtain ⟨ha, rfl⟩ := EStateM.query_ok_iff.mp ha
    exact h a ha

theorem wlp_query_ok {f : σ → α} :
    Wlp (EStateM.query fun s => (.ok (f s) : Except ε α)) post s ↔ post (f s) s :=
  wlp_query.trans ⟨fun h => h _ rfl, fun h _ ha => Except.ok.inj ha ▸ h⟩

@[simp] theorem wlp_update {f : σ → Except ε σ} {post : Unit → σ → Prop} :
    Wlp (EStateM.update f) post s ↔ ∀ s', f s = .ok s' → post () s' := by
  constructor
  · exact fun h s' hs => h () s' (EStateM.update_ok_iff.mpr hs)
  · exact fun h _ s' hs => h s' (EStateM.update_ok_iff.mp hs)

@[simp] theorem wlp_get {post : σ → σ → Prop} : Wlp (get : EStateM ε σ σ) post s ↔ post s s := by
  constructor
  · exact fun h => h s s rfl
  · intro h a s' ha
    cases ha
    exact h

@[simp] theorem wlp_throw {e : ε} : Wlp (throw e : EStateM ε σ α) post s := by
  intro a s' h
  cases h

end Wlp

/-! ## Success -/

section Succeeds
variable {ε σ α β : Type} {x : EStateM ε σ α} {s : σ}

/-- The run of `x` from `s` does not fail. -/
def Succeeds (x : EStateM ε σ α) (s : σ) : Prop := ∃ a s', x s = .ok a s'

theorem Succeeds.exists_of_wlp {post : α → σ → Prop} (h : Succeeds x s) (hpost : Wlp x post s) :
    ∃ a s', x s = .ok a s' ∧ post a s' := by
  obtain ⟨a, s', hx⟩ := h
  exact ⟨a, s', hx, hpost a s' hx⟩

@[simp] theorem succeeds_pure {a : α} : Succeeds (pure a : EStateM ε σ α) s := ⟨a, s, rfl⟩

@[simp] theorem succeeds_bind {f : α → EStateM ε σ β} :
    Succeeds (x >>= f) s ↔ Succeeds x s ∧ Wlp x (fun a s' => Succeeds (f a) s') s := by
  constructor
  · rintro ⟨b, s'', hb⟩
    obtain ⟨a, s', hx, hf⟩ := EStateM.bind_ok_iff.mp hb
    refine ⟨⟨a, s', hx⟩, fun a' s1 hx' => ?_⟩
    obtain ⟨rfl, rfl⟩ := EStateM.Result.ok.inj (hx.symm.trans hx')
    exact ⟨b, s'', hf⟩
  · rintro ⟨⟨a, s', hx⟩, hf⟩
    obtain ⟨b, s'', hb⟩ := hf a s' hx
    exact ⟨b, s'', EStateM.bind_ok_iff.mpr ⟨a, s', hx, hb⟩⟩

@[simp] theorem succeeds_map {f : α → β} : Succeeds (f <$> x) s ↔ Succeeds x s := by
  rw [map_eq_pure_bind, succeeds_bind]
  exact ⟨And.left, fun h => ⟨h, fun _ _ _ => succeeds_pure⟩⟩

@[simp] theorem succeeds_ite {c : Prop} [Decidable c] {y : EStateM ε σ α} :
    Succeeds (if c then x else y) s ↔ (c → Succeeds x s) ∧ (¬ c → Succeeds y s) := by
  by_cases hc : c <;> simp [hc]

end Succeeds

/-! ## Programs -/

section Prog
variable {ε σ α β : Type} {S : Sig} {P : S.Op → Prop}

@[simp] theorem Prog.run_ite (h : Handler S ε σ) {c : Prop} [Decidable c] (p q : Prog S α) :
    Prog.run h (if c then p else q) = if c then p.run h else q.run h := by
  split <;> rfl

@[simp] theorem Prog.run_pure (h : Handler S ε σ) (a : α) : Prog.run h (pure a : Prog S α) = pure a := rfl

theorem wlp_run_bind {h : Handler S ε σ} {p : Prog S α} {f : α → Prog S β} {post : β → σ → Prop} {s : σ} :
    Wlp ((p >>= f).run h) post s ↔ Wlp (p.run h) (fun a s' => Wlp ((f a).run h) post s') s := by
  rw [Prog.run_bind, wlp_bind]

theorem wlp_run_pure {h : Handler S ε σ} {a : α} {post : α → σ → Prop} {s : σ} :
    Wlp ((pure a : Prog S α).run h) post s ↔ post a s := wlp_pure

theorem wlp_run_ite {h : Handler S ε σ} {c : Prop} [Decidable c] {p q : Prog S α} {post : α → σ → Prop} {s : σ} :
    Wlp ((if c then p else q).run h) post s ↔ (c → Wlp (p.run h) post s) ∧ (¬ c → Wlp (q.run h) post s) := by
  rw [Prog.run_ite, wlp_ite]

theorem wlp_perform {h : Handler S ε σ} {o : S.Op} {post : S.Ans o → σ → Prop} {s : σ} :
    Wlp ((Prog.perform o).run h) post s ↔ Wlp (h o) post s := by
  rw [Prog.run_perform]

/-- An invariant of the operations that a program asks for is one of the program. -/
theorem Wlp.run_of_asks {h : Handler S ε σ} {I : σ → Prop}
    (hop : ∀ o s, P o → I s → Wlp (h o) (fun _ => I) s) {p : Prog S α} (hp : p.Asks P) {s : σ}
    (hI : I s) : Wlp (p.run h) (fun _ => I) s := by
  induction p generalizing s with
  | ret a => exact wlp_pure.mpr hI
  | call o k ih =>
    rw [Prog.run_call, wlp_bind]
    exact (hop o s hp.1 hI).mono fun x s' hI' => ih x (hp.2 x) hI'

end Prog

/-! ## Programs with a state of their own -/

section LocalWlp
variable {ε σ δ α β : Type} {S : Sig}

/-- Every successful run, from the local state `d` and from `s`, ends within `post`. -/
def LocalWlp (h : Handler S ε σ) (p : StateT δ (Prog S) α) (post : α → δ → σ → Prop) (d : δ) (s : σ) :
    Prop :=
  Wlp ((p d).run h) (fun r s' => post r.1 r.2 s') s

variable {h : Handler S ε σ} {p : StateT δ (Prog S) α} {post post' : α → δ → σ → Prop} {d : δ} {s : σ}

theorem LocalWlp.mono (hp : LocalWlp h p post d s) (hpost : ∀ a d' s', post a d' s' → post' a d' s') :
    LocalWlp h p post' d s :=
  Wlp.mono hp fun r s' => hpost r.1 r.2 s'

@[simp] theorem localWlp_pure {a : α} : LocalWlp h (pure a : StateT δ (Prog S) α) post d s ↔ post a d s := by
  exact wlp_pure

@[simp] theorem localWlp_bind {f : α → StateT δ (Prog S) β} {post : β → δ → σ → Prop} :
    LocalWlp h (p >>= f) post d s ↔ LocalWlp h p (fun a d' s' => LocalWlp h (f a) post d' s') d s := by
  have hrun : ((p >>= f) d).run h = (p d).run h >>= fun r => (f r.1 r.2).run h := Prog.run_bind ..
  rw [LocalWlp, hrun, wlp_bind]
  rfl

@[simp] theorem localWlp_get {post : δ → δ → σ → Prop} :
    LocalWlp h (get : StateT δ (Prog S) δ) post d s ↔ post d d s := by
  exact wlp_pure

@[simp] theorem localWlp_set {d' : δ} {post : PUnit → δ → σ → Prop} :
    LocalWlp h (set d' : StateT δ (Prog S) PUnit) post d s ↔ post () d' s := by
  exact wlp_pure

@[simp] theorem localWlp_modify {f : δ → δ} {post : PUnit → δ → σ → Prop} :
    LocalWlp h (modify f : StateT δ (Prog S) PUnit) post d s ↔ post () (f d) s := by
  exact wlp_pure

@[simp] theorem localWlp_lift {q : Prog S α} :
    LocalWlp h (StateT.lift q) post d s ↔ Wlp (q.run h) (fun a => post a d) s := by
  have hrun : (StateT.lift q d).run h = q.run h >>= fun a => pure (a, d) := Prog.run_bind ..
  rw [LocalWlp, hrun, wlp_bind]
  simp

@[simp] theorem localWlp_liftM {q : Prog S α} :
    LocalWlp h (liftM q : StateT δ (Prog S) α) post d s ↔ Wlp (q.run h) (fun a => post a d) s := by
  exact localWlp_lift

@[simp] theorem localWlp_ite {c : Prop} [Decidable c] {q : StateT δ (Prog S) α} :
    LocalWlp h (if c then p else q) post d s ↔
      (c → LocalWlp h p post d s) ∧ (¬ c → LocalWlp h q post d s) := by
  by_cases hc : c <;> simp [hc]

/-- Every successful run from states of `I` ends in states of `I`. -/
def LocalKeeps (h : Handler S ε σ) (I : δ → σ → Prop) (p : StateT δ (Prog S) α) : Prop :=
  ∀ d s, I d s → LocalWlp h p (fun _ d' s' => I d' s') d s

variable {I : δ → σ → Prop}

theorem LocalKeeps.pure (a : α) : LocalKeeps h I (pure a) := fun _ _ hI => localWlp_pure.mpr hI

theorem LocalKeeps.bind {f : α → StateT δ (Prog S) β} (hp : LocalKeeps h I p) (hf : ∀ a, LocalKeeps h I (f a)) :
    LocalKeeps h I (p >>= f) :=
  fun _ _ hI => localWlp_bind.mpr ((hp _ _ hI).mono fun a _ _ hI' => hf a _ _ hI')

theorem LocalKeeps.get : LocalKeeps h I get := fun _ _ hI => localWlp_get.mpr hI

theorem LocalKeeps.modify {f : δ → δ} (hf : ∀ d s, I d s → I (f d) s) : LocalKeeps h I (modify f) :=
  fun d s hI => localWlp_modify.mpr (hf d s hI)

theorem LocalKeeps.lift {q : Prog S α} {P : S.Op → Prop}
    (hop : ∀ o, P o → ∀ d s, I d s → Wlp (h o) (fun _ s' => I d s') s) (hq : q.Asks P) :
    LocalKeeps h I (StateT.lift q) :=
  fun d _ hI => localWlp_lift.mpr
    (Wlp.run_of_asks (I := I d) (fun o s ho hs => hop o ho d s hs) hq hI)

theorem LocalKeeps.ite {c : Prop} [Decidable c] {q : StateT δ (Prog S) α} (hp : c → LocalKeeps h I p)
    (hq : ¬ c → LocalKeeps h I q) : LocalKeeps h I (if c then p else q) := by
  split
  · rename_i hc
    exact hp hc
  · rename_i hc
    exact hq hc

end LocalWlp
