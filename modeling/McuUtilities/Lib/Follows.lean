import McuUtilities.Lib.Interrupt

/-!
# One program following another

`Follows Ok m₁ m₂ s₁ s₂ Q E H`: if `m₁` returns from `s₁`, in a state that is still `Ok`, then `m₂`
from `s₂` returns too, with values and states related by `Q`, or leaves early as `E` and `H` allow.
`Ok` says that nothing happened to the first run that would free the second from following it;
a state that has stopped being `Ok` never is again.

The rules are those of a relational program logic: values, sequencing, branching on the same
condition, loops run in step.
-/

namespace McuUtilities.Prog

variable {σ σ' ε ε' α α' β β' γ γ' : Type}

/-- `m₂` from `s₂` follows the successful run of `m₁` from `s₁`. -/
def Follows (Ok : σ → Prop) (m₁ : Prog σ ε α) (m₂ : Prog σ' ε' β) (s₁ : σ) (s₂ : σ')
    (Q : α → σ → β → σ' → Prop) (E : ε' → σ' → Prop) (H : Halt → σ' → Prop) : Prop :=
  ∀ a s₁', m₁ s₁ = .done a s₁' → Ok s₁' → Meets m₂ s₂ (Q a s₁') E H

/-- What a round of each of two loops in step leads to: both go on, with `R`, or both end, with
`Q`. -/
def Round (R : α → σ → β → σ' → Prop) (Q : γ → σ → γ' → σ' → Prop) :
    α ⊕ γ → σ → β ⊕ γ' → σ' → Prop
  | .inl a, s, .inl b, s' => R a s b s'
  | .inr c, s, .inr c', s' => Q c s c' s'
  | _, _, _, _ => False

variable {Ok : σ → Prop} {m₁ : Prog σ ε α} {m₂ : Prog σ' ε' β} {s₁ : σ} {s₂ : σ'}
  {Q : α → σ → β → σ' → Prop} {E : ε' → σ' → Prop} {H : Halt → σ' → Prop}

namespace Follows

theorem mono {Q' : α → σ → β → σ' → Prop} (h : Follows Ok m₁ m₂ s₁ s₂ Q E H)
    (hQ : ∀ a s₁' b s₂', Ok s₁' → Q a s₁' b s₂' → Q' a s₁' b s₂') :
    Follows Ok m₁ m₂ s₁ s₂ Q' E H :=
  fun a s₁' hm hok => (h a s₁' hm hok).mono (fun _ _ hq => hQ _ _ _ _ hok hq) (fun _ _ he => he)
    fun _ _ hh => hh

theorem of_done {a : α} {s₁' : σ} (h₁ : m₁ s₁ = .done a s₁')
    (h₂ : Ok s₁' → Meets m₂ s₂ (Q a s₁') E H) : Follows Ok m₁ m₂ s₁ s₂ Q E H := by
  intro a' t h hok
  rw [h₁] at h
  cases h
  exact h₂ hok

theorem of_fail {e : ε} {s₁' : σ} (h₁ : m₁ s₁ = .fail e s₁') : Follows Ok m₁ m₂ s₁ s₂ Q E H := by
  intro a' t h
  rw [h₁] at h
  cases h

theorem pure {a : α} {b : β} (h : Ok s₁ → Q a s₁ b s₂) :
    Follows Ok (Pure.pure a : Prog σ ε α) (Pure.pure b : Prog σ' ε' β) s₁ s₂ Q E H :=
  of_done rfl h

theorem throw {e : ε} : Follows Ok (Prog.throw e : Prog σ ε α) m₂ s₁ s₂ Q E H := of_fail rfl

/-- Sequencing. The rest of the first run cannot have made a bad state good again. -/
theorem bind {f₁ : α → Prog σ ε α'} {f₂ : β → Prog σ' ε' β'} {Q' : α' → σ → β' → σ' → Prop}
    (hm : Follows Ok m₁ m₂ s₁ s₂ Q E H) (hok : ∀ a, Always (fun s s' => Ok s' → Ok s) (f₁ a))
    (hf : ∀ a t₁ b t₂, Ok t₁ → Q a t₁ b t₂ → Follows Ok (f₁ a) (f₂ b) t₁ t₂ Q' E H) :
    Follows Ok (m₁ >>= f₁) (m₂ >>= f₂) s₁ s₂ Q' E H := by
  intro c s₁' h hc
  obtain ⟨a, t₁, hm₁, hf₁⟩ := bind_eq_done h
  have hokt : Ok t₁ := (hok a).of_done hf₁ hc
  exact Meets.bind ((hm a t₁ hm₁ hokt).mono (fun b t₂ hq => hf a t₁ b t₂ hokt hq c s₁' hf₁ hc)
    (fun _ _ he => he) fun _ _ hh => hh)

theorem require {c₁ c₂ : Bool} {e₁ : ε} {e₂ : ε'} {Q : Unit → σ → Unit → σ' → Prop}
    (hc : c₁ = true → c₂ = true) (hQ : Ok s₁ → c₁ = true → Q () s₁ () s₂) :
    Follows Ok (Prog.require c₁ e₁) (Prog.require c₂ e₂) s₁ s₂ Q E H := by
  cases c₁
  · exact throw
  · rw [hc rfl]
    exact pure fun h => hQ h rfl

theorem ite {c : Prop} [Decidable c] {m₁' : Prog σ ε α} {m₂' : Prog σ' ε' β}
    (h : c → Follows Ok m₁ m₂ s₁ s₂ Q E H) (h' : ¬ c → Follows Ok m₁' m₂' s₁ s₂ Q E H) :
    Follows Ok (if c then m₁ else m₁') (if c then m₂ else m₂') s₁ s₂ Q E H := by
  split
  · next hc => exact h hc
  · next hc => exact h' hc

/-- Two loops in step: related states go on together, to related states, or end together. -/
theorem iterate {body₁ : α → Prog σ ε (α ⊕ γ)} {body₂ : β → Prog σ' ε' (β ⊕ γ')}
    {R : α → σ → β → σ' → Prop} {Q : γ → σ → γ' → σ' → Prop}
    (hok : ∀ a, Always (fun s s' => Ok s' → Ok s) (body₁ a))
    (hbody : ∀ a t₁ b t₂, R a t₁ b t₂ → Follows Ok (body₁ a) (body₂ b) t₁ t₂ (Round R Q) E H)
    (fuel : Nat) {a : α} {b : β} (h : R a s₁ b s₂) :
    Follows Ok (Prog.iterate fuel body₁ a) (Prog.iterate fuel body₂ b) s₁ s₂ Q E H := by
  induction fuel generalizing a b s₁ s₂ with
  | zero => exact fun _ _ hd => by cases hd
  | succ k ih =>
    refine bind (hbody a s₁ b s₂ h) (fun r => ?_) fun r t₁ r' t₂ _ hr => ?_
    · cases r with
      | inl a' =>
        exact Always.iterate (fun _ h => h) (fun h h' hok => h (h' hok)) hok k a'
      | inr c => exact fun _ h => h
    · match r, r', hr with
      | .inl a', .inl b', hr => exact ih hr
      | .inr c, .inr c', hr => exact pure fun _ => hr

end Follows

end McuUtilities.Prog
