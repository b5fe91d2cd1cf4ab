import Mathlib.Data.List.Basic

/-!
# Machines that answer their inputs

A `Machine` answers each input with a list of outputs and then either goes on in a new state or
stops with a result. `run` feeds it a list of inputs and logs each input it takes with its answer;
inputs after the stop are not taken.

* `run_append`: a run over two lists is the run over the second from where the first one went on;
* `run_simulates`: machines that answer alike step by step answer alike along a run;
* `run_invariant`: what holds of the log and the state at the start, and is kept by every step whose
  state and input satisfy a condition, holds along every run whose steps all do.
-/

namespace McuUtilities

/-- A machine with states `σ`, inputs `ι`, outputs `ω` and results `ρ`. -/
structure Machine (σ ι ω ρ : Type) where
  step : σ → ι → List ω × (σ ⊕ ρ)

namespace Machine

variable {σ ι ω ρ : Type} (m : Machine σ ι ω ρ)

/-- The inputs taken, with their answers, and where the run went on or stopped. -/
def run : σ → List ι → List (ι × List ω) × (σ ⊕ ρ)
  | s, [] => ([], .inl s)
  | s, i :: is =>
    match m.step s i with
    | (out, .inl s') => ((i, out) :: (run s' is).1, (run s' is).2)
    | (out, .inr r) => ([(i, out)], .inr r)

/-- Every step of the run over a list of inputs satisfies `C`. -/
def Along (C : σ → ι → Prop) : σ → List ι → Prop
  | _, [] => True
  | s, i :: is => C s i ∧ ∀ out s', m.step s i = (out, .inl s') → Along C s' is

variable {m} {s s' : σ} {i : ι} {is : List ι} {out : List ω} {r : ρ}

theorem run_cons (h : m.step s i = (out, .inl s')) :
    m.run s (i :: is) = ((i, out) :: (m.run s' is).1, (m.run s' is).2) := by
  simp only [run, h]

theorem run_stop (h : m.step s i = (out, .inr r)) : m.run s (i :: is) = ([(i, out)], .inr r) := by
  simp only [run, h]

theorem run_append {log : List (ι × List ω)} (h : m.run s is = (log, .inl s')) (js : List ι) :
    m.run s (is ++ js) = (log ++ (m.run s' js).1, (m.run s' js).2) := by
  induction is generalizing s log with
  | nil => cases h; rfl
  | cons i is ih =>
    cases hstep : m.step s i with
    | mk out next =>
      cases next with
      | inl t =>
        rw [run_cons hstep] at h
        obtain ⟨rfl, hend⟩ := Prod.mk.inj h
        rw [List.cons_append, run_cons hstep, ih (Prod.ext rfl hend)]
        rfl
      | inr r =>
        rw [run_stop hstep] at h
        cases h

theorem along_of_forall {C : σ → ι → Prop} (h : ∀ s i, C s i) : m.Along C s is := by
  induction is generalizing s with
  | nil => trivial
  | cons i is ih => exact ⟨h s i, fun _ _ _ => ih⟩

theorem along_cons {C : σ → ι → Prop} (hC : C s i) (h : m.step s i = (out, .inl s'))
    (hrest : m.Along C s' is) : m.Along C s (i :: is) := by
  refine ⟨hC, fun out' t ht => ?_⟩
  rw [h] at ht
  cases ht
  exact hrest

theorem along_stop {C : σ → ι → Prop} (hC : C s i) (h : m.step s i = (out, .inr r)) :
    m.Along C s (i :: is) := by
  refine ⟨hC, fun out' t ht => ?_⟩
  rw [h] at ht
  cases ht

theorem along_append {C : σ → ι → Prop} {log : List (ι × List ω)} {js : List ι}
    (h : m.run s is = (log, .inl s')) (his : m.Along C s is) (hjs : m.Along C s' js) :
    m.Along C s (is ++ js) := by
  induction is generalizing s log with
  | nil =>
    cases h
    exact hjs
  | cons i is ih =>
    obtain ⟨hi, hrest⟩ := his
    refine ⟨hi, fun out t ht => ?_⟩
    rw [run_cons ht] at h
    exact ih (Prod.ext rfl (Prod.mk.inj h).2) (hrest out t ht)

theorem along_append_iff {C : σ → ι → Prop} {js : List ι} : m.Along C s (is ++ js) ↔
    m.Along C s is ∧ ∀ log s', m.run s is = (log, .inl s') → m.Along C s' js := by
  induction is generalizing s with
  | nil =>
    constructor
    · rintro h
      exact ⟨trivial, fun _ _ hrun => by cases hrun; exact h⟩
    · rintro ⟨-, h⟩
      exact h [] s rfl
  | cons i is ih =>
    constructor
    · rintro ⟨hi, hrest⟩
      refine ⟨⟨hi, fun out t ht => (ih.mp (hrest out t ht)).1⟩, fun log s' hrun => ?_⟩
      cases hstep : m.step s i with
      | mk out next =>
        cases next with
        | inl t =>
          rw [run_cons hstep] at hrun
          exact (ih.mp (hrest out t hstep)).2 _ s' (Prod.ext rfl (Prod.mk.inj hrun).2)
        | inr r =>
          rw [run_stop hstep] at hrun
          cases hrun
    · rintro ⟨⟨hi, hrest⟩, hjs⟩
      refine ⟨hi, fun out t ht => ih.mpr ⟨hrest out t ht, fun log s' hrun => ?_⟩⟩
      exact hjs ((i, out) :: log) s' (by rw [run_cons ht, hrun])

/-- An invariant of the log and the state, kept by every step that satisfies `C`. -/
theorem run_invariant {C : σ → ι → Prop} {I : List (ι × List ω) → σ → Prop}
    (hstep : ∀ log s i out s', I log s → C s i → m.step s i = (out, .inl s') →
      I (log ++ [(i, out)]) s')
    {log : List (ι × List ω)} (h : I log s) (hC : m.Along C s is) :
    match m.run s is with
    | (log', .inl s') => I (log ++ log') s'
    | (log', .inr r) => ∃ log₁ s₁ i out, I log₁ s₁ ∧ C s₁ i ∧ m.step s₁ i = (out, .inr r) ∧
        log ++ log' = log₁ ++ [(i, out)] := by
  induction is generalizing s log with
  | nil => simpa [run] using h
  | cons i is ih =>
    obtain ⟨hi, hrest⟩ := hC
    cases hs : m.step s i with
    | mk out next =>
      cases next with
      | inl t =>
        have := ih (hstep log s i out t h hi hs) (hrest out t hs)
        rw [run_cons hs]
        cases hr : m.run t is with
        | mk log' e =>
          rw [hr] at this
          cases e <;> simpa using this
      | inr r =>
        rw [run_stop hs]
        exact ⟨log, s, i, out, h, hi, hs, rfl⟩

/-- Two machines that answer alike step by step, while the second one's steps satisfy `C`, answer alike
along a run. -/
theorem run_simulates {τ ρ' : Type} {n : Machine τ ι ω ρ'} {R : σ → τ → Prop} {C : τ → ι → Prop}
    (hstep : ∀ s t i, R s t → C t i → ∃ out s' t', m.step s i = (out, .inl s') ∧
      n.step t i = (out, .inl t') ∧ R s' t')
    {t : τ} (h : R s t) (hC : n.Along C t is) :
    ∃ log s' t', m.run s is = (log, .inl s') ∧ n.run t is = (log, .inl t') ∧ R s' t' := by
  induction is generalizing s t with
  | nil => exact ⟨[], s, t, rfl, rfl, h⟩
  | cons i is ih =>
    obtain ⟨hi, hrest⟩ := hC
    obtain ⟨out, s₁, t₁, hs, ht, h₁⟩ := hstep s t i h hi
    obtain ⟨log, s', t', hs', ht', h'⟩ := ih h₁ (hrest out t₁ ht)
    exact ⟨(i, out) :: log, s', t', by rw [run_cons hs, hs'], by rw [run_cons ht, ht'], h'⟩

end Machine

end McuUtilities
