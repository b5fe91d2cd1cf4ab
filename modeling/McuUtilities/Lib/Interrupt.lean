import Mathlib.Data.List.Basic

/-!
# Programs that can be interrupted

A program `Prog σ ε α` over a state `σ` ends in one of three ways: it returns a value, it leaves
through an error of type `ε`, or it halts for good (the power fails, or a loop uses up the rounds
it was given). Every outcome carries the state it left, so that one can speak of the state a power
failure leaves behind.

* `Prog.iterate` is a loop with a bound on its rounds;
* `Prog.attempt` catches errors, never halts;
* `Always R m`: whatever the outcome of `m`, the state before and the state after are related by
  the preorder `R`. The rules are syntax-directed, so frame conditions are proved program by
  program.
* `Meets m s Q E H`: the outcome of `m` from `s` satisfies `Q`, `E` or `H`.
-/

namespace McuUtilities

/-- Why a program never returned. -/
inductive Halt where
  | powerCut
  | outOfFuel
deriving DecidableEq, Repr

inductive Outcome (σ ε α : Type) where
  | done (a : α) (s : σ)
  | fail (e : ε) (s : σ)
  | halt (h : Halt) (s : σ)

/-- A program over states `σ` with errors `ε`. -/
def Prog (σ ε α : Type) : Type := σ → Outcome σ ε α

variable {σ ε ε' α β γ : Type}

/-- The state an outcome left behind. -/
@[simp] def Outcome.state : Outcome σ ε α → σ
  | .done _ s | .fail _ s | .halt _ s => s

namespace Prog

protected def pure (a : α) : Prog σ ε α := fun s => .done a s

protected def bind (m : Prog σ ε α) (f : α → Prog σ ε β) : Prog σ ε β := fun s =>
  match m s with
  | .done a s' => f a s'
  | .fail e s' => .fail e s'
  | .halt h s' => .halt h s'

instance : Monad (Prog σ ε) where
  pure := Prog.pure
  bind := Prog.bind

/-- Leaves with the error `e`. -/
def throw (e : ε) : Prog σ ε α := fun s => .fail e s

/-- Leaves with the error `e` unless `c` holds. -/
def require (c : Bool) (e : ε) : Prog σ ε Unit := if c then pure () else throw e

/-- Reads the state. -/
def get : Prog σ ε σ := fun s => .done s s

/-- Changes the state. -/
def modify (f : σ → σ) : Prog σ ε Unit := fun s => .done () (f s)

/-- Runs a function of the state that neither fails nor halts. -/
def call (f : σ → α × σ) : Prog σ ε α := fun s => .done (f s).1 (f s).2

/-- Runs `m` and returns its value or the error it left with. -/
def attempt (m : Prog σ ε α) : Prog σ ε' (Except ε α) := fun s =>
  match m s with
  | .done a s' => .done (.ok a) s'
  | .fail e s' => .done (.error e) s'
  | .halt h s' => .halt h s'

/-- Runs `body` from `b` until it returns `.inr`, for at most `fuel` rounds. -/
def iterate : Nat → (β → Prog σ ε (β ⊕ γ)) → β → Prog σ ε γ
  | 0, _, _ => fun s => .halt .outOfFuel s
  | fuel + 1, body, b => do
    match ← body b with
    | .inl b' => iterate fuel body b'
    | .inr c => pure c

/-! ## Running -/

section run
variable {m : Prog σ ε α} {f : α → Prog σ ε β} {s s' : σ}

@[simp] theorem pure_apply (a : α) : (pure a : Prog σ ε α) s = .done a s := rfl

@[simp] theorem throw_apply (e : ε) : (throw e : Prog σ ε α) s = .fail e s := rfl

@[simp] theorem get_apply : (get : Prog σ ε σ) s = .done s s := rfl

@[simp] theorem modify_apply (g : σ → σ) : (modify g : Prog σ ε Unit) s = .done () (g s) := rfl

@[simp] theorem call_apply (g : σ → α × σ) :
    (call g : Prog σ ε α) s = .done (g s).1 (g s).2 := rfl

theorem bind_apply : (m >>= f) s = match m s with
    | .done a s' => f a s'
    | .fail e s' => .fail e s'
    | .halt h s' => .halt h s' := rfl

theorem bind_done {a : α} (h : m s = .done a s') : (m >>= f) s = f a s' := by
  rw [bind_apply, h]

theorem bind_halt {h : Halt} (hm : m s = .halt h s') : (m >>= f) s = .halt h s' := by
  rw [bind_apply, hm]

/-- A sequence that returns is made of two programs that return. -/
theorem bind_eq_done {b : β} (h : (m >>= f) s = .done b s') :
    ∃ a s₁, m s = .done a s₁ ∧ f a s₁ = .done b s' := by
  rw [bind_apply] at h
  split at h
  · next a s₁ hm => exact ⟨a, s₁, hm, h⟩
  · cases h
  · cases h

/-- Sequences whose parts agree agree. -/
theorem bind_congr_at {m' : Prog σ ε α} {f' : α → Prog σ ε β} (hm : m s = m' s)
    (hf : ∀ a s₁, m s = .done a s₁ → f a s₁ = f' a s₁) : (m >>= f) s = (m' >>= f') s := by
  rw [bind_apply, bind_apply, ← hm]
  split
  · next a s₁ h => exact hf a s₁ h
  · rfl
  · rfl

@[simp] theorem require_true (e : ε) : (require true e : Prog σ ε Unit) = pure () := rfl

@[simp] theorem require_false (e : ε) : (require false e : Prog σ ε Unit) = throw e := rfl

theorem require_eq_done {c : Bool} {e : ε} {u : Unit} (h : require c e s = .done u s') :
    c = true ∧ s' = s := by
  cases c
  · cases h
  · cases h; exact ⟨rfl, rfl⟩

theorem attempt_done {a : α} (h : m s = .done a s') :
    (attempt m : Prog σ ε' _) s = .done (.ok a) s' := by simp only [attempt, h]

theorem attempt_fail {e : ε} (h : m s = .fail e s') :
    (attempt m : Prog σ ε' _) s = .done (.error e) s' := by simp only [attempt, h]

theorem attempt_halt {h : Halt} (hm : m s = .halt h s') :
    (attempt m : Prog σ ε' _) s = .halt h s' := by simp only [attempt, hm]

end run

/-! ## What holds whatever happens -/

/-- Whatever the outcome of `m`, the states before and after are related by `R`. -/
def Always (R : σ → σ → Prop) (m : Prog σ ε α) : Prop := ∀ s, R s (m s).state

section always
variable {R : σ → σ → Prop} {m : Prog σ ε α} {f : α → Prog σ ε β}

theorem Always.mono {R' : σ → σ → Prop} (hR : ∀ s s', R s s' → R' s s') (h : Always R m) :
    Always R' m := fun s => hR _ _ (h s)

theorem Always.of_done (h : Always R m) {s s' : σ} {a : α} (hm : m s = .done a s') : R s s' := by
  have := h s
  rwa [hm] at this

variable (hrefl : ∀ s, R s s)
include hrefl

theorem Always.pure (a : α) : Always R (pure a : Prog σ ε α) := hrefl

theorem Always.throw (e : ε) : Always R (throw e : Prog σ ε α) := hrefl

theorem Always.get : Always R (get : Prog σ ε σ) := hrefl

theorem Always.require (c : Bool) (e : ε) : Always R (require c e : Prog σ ε Unit) := by
  cases c
  · exact Always.throw hrefl e
  · exact Always.pure hrefl ()

omit hrefl in
theorem Always.modify {g : σ → σ} (h : ∀ s, R s (g s)) :
    Always R (modify g : Prog σ ε Unit) := h

omit hrefl in
theorem Always.attempt (h : Always R m) : Always R (attempt m : Prog σ ε' _) := by
  intro s
  have := h s
  unfold Prog.attempt
  split <;> simp_all

omit hrefl in
theorem Always.ite {c : Prop} [Decidable c] {m' : Prog σ ε α} (h : c → Always R m)
    (h' : ¬ c → Always R m') : Always R (if c then m else m') := by
  split
  · next hc => exact h hc
  · next hc => exact h' hc

variable (htrans : ∀ {s₁ s₂ s₃}, R s₁ s₂ → R s₂ s₃ → R s₁ s₃)
include htrans

omit hrefl in
theorem Always.bind (hm : Always R m) (hf : ∀ a, Always R (f a)) : Always R (m >>= f) := by
  intro s
  have h := hm s
  rw [bind_apply]
  split
  · next a s' heq => rw [heq] at h; exact htrans h (hf a s')
  · next heq => rwa [heq] at h
  · next heq => rwa [heq] at h

omit hrefl in
/-- The rule for one state: the second program starts where the first returned. -/
theorem bind_state {s : σ} (hm : R s (m s).state)
    (hf : ∀ a s', m s = .done a s' → R s' (f a s').state) : R s ((m >>= f) s).state := by
  rw [bind_apply]
  cases hrun : m s with
  | done a s' =>
    rw [hrun] at hm
    exact htrans hm (hf a s' hrun)
  | fail e s' => rwa [hrun] at hm
  | halt h s' => rwa [hrun] at hm

theorem Always.iterate {body : β → Prog σ ε (β ⊕ γ)} (h : ∀ b, Always R (body b)) (fuel : Nat)
    (b : β) : Always R (iterate fuel body b) := by
  induction fuel generalizing b with
  | zero => exact hrefl
  | succ k ih =>
    refine Always.bind htrans (h b) fun r => ?_
    cases r with
    | inl b' => exact ih b'
    | inr c => exact Always.pure hrefl c

end always

/-! ## Outcome predicates -/

/-- The outcome of `m` from `s`: a returned value satisfies `Q`, an error `E`, a halt `H`. -/
def Meets (m : Prog σ ε α) (s : σ) (Q : α → σ → Prop) (E : ε → σ → Prop) (H : Halt → σ → Prop) :
    Prop :=
  match m s with
  | .done a s' => Q a s'
  | .fail e s' => E e s'
  | .halt h s' => H h s'

section meets
variable {m : Prog σ ε α} {f : α → Prog σ ε β} {s : σ} {E : ε → σ → Prop} {H : Halt → σ → Prop}

theorem Meets.bind {Q : β → σ → Prop} (h : Meets m s (fun a s' => Meets (f a) s' Q E H) E H) :
    Meets (m >>= f) s Q E H := by
  unfold Meets at *
  rw [bind_apply]
  cases hm : m s <;> simp_all

theorem Meets.mono {Q Q' : α → σ → Prop} {E' : ε → σ → Prop} {H' : Halt → σ → Prop}
    (h : Meets m s Q E H) (hQ : ∀ a s', Q a s' → Q' a s') (hE : ∀ e s', E e s' → E' e s')
    (hH : ∀ h s', H h s' → H' h s') : Meets m s Q' E' H' := by
  unfold Meets at *
  split at h
  · exact hQ _ _ h
  · exact hE _ _ h
  · exact hH _ _ h

theorem Meets.of_done {Q : α → σ → Prop} {a : α} {s' : σ} (hm : m s = .done a s') (h : Q a s') :
    Meets m s Q E H := by
  unfold Meets; rwa [hm]

theorem Meets.of_fail {Q : α → σ → Prop} {e : ε} {s' : σ} (hm : m s = .fail e s') (h : E e s') :
    Meets m s Q E H := by
  unfold Meets; rwa [hm]

theorem Meets.done {Q : α → σ → Prop} {a : α} {s' : σ} (h : Meets m s Q E H)
    (hm : m s = .done a s') : Q a s' := by
  unfold Meets at h; rwa [hm] at h

theorem Meets.fail {Q : α → σ → Prop} {e : ε} {s' : σ} (h : Meets m s Q E H)
    (hm : m s = .fail e s') : E e s' := by
  unfold Meets at h; rwa [hm] at h

/-- A program that does not halt returns or fails. -/
theorem Meets.ends {Q : α → σ → Prop} (h : Meets m s Q E (fun _ _ => False)) :
    (∃ a s', m s = .done a s') ∨ ∃ e s', m s = .fail e s' := by
  unfold Meets at h
  split at h
  · next a s' hm => exact .inl ⟨a, s', hm⟩
  · next e s' hm => exact .inr ⟨e, s', hm⟩
  · exact h.elim

/-- A program that can neither fail nor halt returns. -/
theorem Meets.returns_of {Q : α → σ → Prop} (h : Meets m s Q E H) (hE : ∀ e s', ¬ E e s')
    (hH : ∀ c s', ¬ H c s') : ∃ a s', m s = .done a s' ∧ Q a s' := by
  unfold Meets at h
  split at h
  · next a s' hm => exact ⟨a, s', hm, h⟩
  · exact (hE _ _ h).elim
  · exact (hH _ _ h).elim

theorem Meets.returns {Q : α → σ → Prop} (h : Meets m s Q (fun _ _ => False) (fun _ _ => False)) :
    ∃ a s', m s = .done a s' ∧ Q a s' := h.returns_of (fun _ _ h => h) fun _ _ h => h

theorem Meets.attempt {Q : Except ε α → σ → Prop} {E' : ε' → σ → Prop}
    (h : Meets m s (fun a => Q (.ok a)) (fun e => Q (.error e)) H) :
    Meets (attempt m : Prog σ ε' _) s Q E' H := by
  unfold Meets Prog.attempt at *
  cases hm : m s <;> simp_all

theorem Meets.pure {Q : α → σ → Prop} {a : α} (h : Q a s) :
    Meets (Pure.pure a : Prog σ ε α) s Q E H := h

theorem Meets.throw {Q : α → σ → Prop} {e : ε} (h : E e s) :
    Meets (Prog.throw e : Prog σ ε α) s Q E H := h

theorem Meets.require {Q : Unit → σ → Prop} {c : Bool} {e : ε} (h : c = true → Q () s)
    (h' : c = false → E e s) : Meets (Prog.require c e : Prog σ ε Unit) s Q E H := by
  cases c
  · exact h' rfl
  · exact h rfl

theorem Meets.ite {Q : α → σ → Prop} {c : Prop} [Decidable c] {m' : Prog σ ε α}
    (h : c → Meets m s Q E H) (h' : ¬ c → Meets m' s Q E H) :
    Meets (if c then m else m') s Q E H := by
  split
  · next hc => exact h hc
  · next hc => exact h' hc

theorem Meets.state {R : σ → σ → Prop}
    (h : Meets m s (fun _ => R s) (fun _ => R s) (fun _ => R s)) : R s (m s).state := by
  unfold Meets at h
  cases hm : m s <;> rw [hm] at h <;> exact h

theorem Meets.of_state {R : σ → σ → Prop} (h : R s (m s).state) :
    Meets m s (fun _ => R s) (fun _ => R s) (fun _ => R s) := by
  unfold Meets
  cases hm : m s <;> rw [hm] at h <;> exact h

theorem Always.meets {R : σ → σ → Prop} (h : Always R m) (s : σ) :
    Meets m s (fun _ => R s) (fun _ => R s) (fun _ => R s) := Meets.of_state (h s)

theorem Meets.and_always {R : σ → σ → Prop} {Q : α → σ → Prop} (h : Meets m s Q E H)
    (hR : Always R m) : Meets m s (fun a s' => Q a s' ∧ R s s') (fun e s' => E e s' ∧ R s s')
      (fun c s' => H c s' ∧ R s s') := by
  have hR := hR s
  unfold Meets at *
  cases hm : m s <;> rw [hm] at h hR <;> exact ⟨h, hR⟩

theorem Meets.and {Q Q' : α → σ → Prop} {E' : ε → σ → Prop} {H' : Halt → σ → Prop}
    (h : Meets m s Q E H) (h' : Meets m s Q' E' H') :
    Meets m s (fun a s' => Q a s' ∧ Q' a s') (fun e s' => E e s' ∧ E' e s')
      (fun c s' => H c s' ∧ H' c s') := by
  unfold Meets at *
  cases hm : m s <;> rw [hm] at h h' <;> exact ⟨h, h'⟩

/-- A loop with an invariant `I`, which each round keeps until the last one gives `Q`. -/
theorem Meets.iterate {body : β → Prog σ ε (β ⊕ γ)} {I : β → σ → Prop} {Q : γ → σ → Prop}
    (hbody : ∀ b t, I b t → Meets (body b) t
      (fun r t' => match r with | .inl b' => I b' t' | .inr c => Q c t') E H)
    (hfuel : ∀ b t, I b t → H .outOfFuel t) {b : β} (h : I b s) (fuel : Nat) :
    Meets (Prog.iterate fuel body b) s Q E H := by
  induction fuel generalizing b s with
  | zero => exact hfuel b s h
  | succ k ih =>
    refine Meets.bind ((hbody b s h).mono (fun r t hr => ?_) (fun _ _ he => he) fun _ _ hh => hh)
    cases r with
    | inl b' => exact ih hr
    | inr c => exact hr

/-- A loop with an invariant `I` and a measure `μ` that each further round decreases: it ends
within its rounds. -/
theorem Meets.iterate_of_measure {body : β → Prog σ ε (β ⊕ γ)} {I : β → σ → Prop}
    {Q : γ → σ → Prop} (μ : β → Nat)
    (hbody : ∀ b t, I b t → Meets (body b) t
      (fun r t' => match r with | .inl b' => I b' t' ∧ μ b' < μ b | .inr c => Q c t') E H)
    {b : β} (h : I b s) {fuel : Nat} (hf : μ b < fuel) :
    Meets (Prog.iterate fuel body b) s Q E H := by
  induction fuel generalizing b s with
  | zero => exact absurd hf (Nat.not_lt_zero _)
  | succ k ih =>
    refine Meets.bind ((hbody b s h).mono (fun r t hr => ?_) (fun _ _ he => he) fun _ _ hh => hh)
    cases r with
    | inl b' => exact ih hr.1 (Nat.lt_of_lt_of_le hr.2 (Nat.lt_succ_iff.mp hf))
    | inr c => exact hr

/-- Two loops whose rounds agree on an invariant agree, when a measure decreases and neither runs
out of rounds. -/
theorem iterate_congr_at {body body' : β → Prog σ ε (β ⊕ γ)} {I : β → σ → Prop} (μ : β → Nat)
    (heq : ∀ b t, I b t → body b t = body' b t)
    (hbody : ∀ b t, I b t → ∀ b' t', body b t = .done (.inl b') t' → I b' t' ∧ μ b' < μ b)
    {b : β} (h : I b s) {fuel fuel' : Nat} (hf : μ b < fuel) (hf' : μ b < fuel') :
    Prog.iterate fuel body b s = Prog.iterate fuel' body' b s := by
  induction fuel generalizing b s fuel' with
  | zero => exact absurd hf (Nat.not_lt_zero _)
  | succ k ih =>
    cases fuel' with
    | zero => exact absurd hf' (Nat.not_lt_zero _)
    | succ k' =>
      refine bind_congr_at (heq b s h) fun r t hr => ?_
      cases r with
      | inl b' =>
        obtain ⟨hI, hμ⟩ := hbody b s h b' t hr
        exact ih hI (Nat.lt_of_lt_of_le hμ (Nat.lt_succ_iff.mp hf))
          (Nat.lt_of_lt_of_le hμ (Nat.lt_succ_iff.mp hf'))
      | inr c => rfl

end meets

/-! ## Every round of a loop -/

/-- Every round of a loop starts from a place and a state that satisfy `P`. -/
def EveryRound (P : β → σ → Prop) (body : β → Prog σ ε (β ⊕ γ)) : Nat → β → σ → Prop
  | 0, _, _ => True
  | fuel + 1, b, s =>
    P b s ∧ ∀ b' s', body b s = .done (.inl b') s' → EveryRound P body fuel b' s'

section everyRound
variable {body : β → Prog σ ε (β ⊕ γ)} {P Q I : β → σ → Prop} {b : β} {s : σ}

theorem EveryRound.first {fuel : Nat} (h : EveryRound P body fuel b s) (hf : 0 < fuel) : P b s := by
  cases fuel with
  | zero => exact absurd hf (Nat.lt_irrefl 0)
  | succ k => exact h.1

theorem EveryRound.mono (h : ∀ b s, P b s → Q b s) {fuel : Nat} (hP : EveryRound P body fuel b s) :
    EveryRound Q body fuel b s := by
  induction fuel generalizing b s with
  | zero => trivial
  | succ k ih => exact ⟨h b s hP.1, fun b' s' hrun => ih (hP.2 b' s' hrun)⟩

/-- What each round leaves as it was, the loop leaves as it was. -/
theorem EveryRound.iterate {R : σ → σ → Prop} (hrefl : ∀ s, R s s)
    (htrans : ∀ {s₁ s₂ s₃}, R s₁ s₂ → R s₂ s₃ → R s₁ s₃) {fuel : Nat}
    (h : EveryRound (fun b s => R s (body b s).state) body fuel b s) :
    R s (iterate fuel body b s).state := by
  induction fuel generalizing b s with
  | zero => exact hrefl s
  | succ k ih =>
    obtain ⟨hfirst, hrest⟩ := h
    rw [Prog.iterate, bind_apply]
    cases hrun : body b s with
    | done r s' =>
      rw [hrun] at hfirst
      cases r with
      | inl b' => exact htrans hfirst (ih (hrest b' s' hrun))
      | inr c => exact hfirst
    | fail e s' => rwa [hrun] at hfirst
    | halt c s' => rwa [hrun] at hfirst

end everyRound

end Prog

end McuUtilities
