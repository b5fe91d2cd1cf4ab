import Mathlib.Data.List.Basic

/-!
# Computations that log their accesses

A `Logged` computation lists the accesses it makes and returns a value, unless an access was not
allowed: there it stops, since what happens next is not defined. `Returns p v P` says that it
returns `v` and that all its accesses satisfy `P`, `Stops p i` that it stops at `i`; both have rules
for `bind` and `access`.
-/

namespace McuUtilities

/-- The accesses made, and the value returned. -/
def Logged (ι α : Type) : Type := List ι × Option α

namespace Logged

variable {ι α β : Type}

def accesses (p : Logged ι α) : List ι := p.1

def value (p : Logged ι α) : Option α := p.2

instance : Monad (Logged ι) where
  pure v := ([], some v)
  bind p f :=
    match p with
    | (as, none) => (as, none)
    | (as, some v) => (as ++ (f v).1, (f v).2)

/-- An access that yields `v`, if it is allowed. -/
def access (i : ι) (allowed : Bool) (v : α) : Logged ι α :=
  ([i], if allowed then some v else none)

/-- The computation returns `v`, and each of its accesses satisfies `P`. -/
structure Returns (p : Logged ι α) (v : α) (P : ι → Prop) : Prop where
  value : p.value = some v
  accesses : ∀ i ∈ p.accesses, P i

variable {p : Logged ι α} {f : α → Logged ι β} {v : α} {w : β} {P Q : ι → Prop} {i : ι}

theorem returns_pure : Returns (pure v : Logged ι α) v P := ⟨rfl, by simp [accesses, pure]⟩

theorem returns_access {allowed : Bool} (hallowed : allowed = true) (hP : P i) :
    Returns (access i allowed v) v P := by
  refine ⟨by rw [access, hallowed]; rfl, fun j hj => ?_⟩
  rw [List.mem_singleton.mp hj]
  exact hP

theorem bind_of_value (h : p.value = some v) :
    p >>= f = (p.accesses ++ (f v).accesses, (f v).value) := by
  obtain ⟨as, r⟩ := p
  cases (h : r = some v)
  rfl

theorem Returns.bind (hp : Returns p v P) (hf : Returns (f v) w P) : Returns (p >>= f) w P := by
  rw [bind_of_value hp.value]
  exact ⟨hf.value, fun i hi => (List.mem_append.mp hi).elim (hp.accesses i) (hf.accesses i)⟩

/-- The computation stops at access `i`. -/
structure Stops (p : Logged ι α) (i : ι) : Prop where
  value : p.value = none
  accesses : i ∈ p.accesses

theorem stops_access {allowed : Bool} (h : allowed = false) : Stops (access i allowed v) i :=
  ⟨by rw [access, h]; rfl, List.mem_singleton_self i⟩

/-- What stops, stops also in front of another computation. -/
theorem Stops.bind (h : Stops p i) : Stops (p >>= f) i := by
  obtain ⟨as, r⟩ := p
  cases (h.value : r = none)
  exact ⟨rfl, h.accesses⟩

theorem Returns.bind_stops (hp : Returns p v P) (hf : Stops (f v) i) : Stops (p >>= f) i := by
  rw [bind_of_value hp.value]
  exact ⟨hf.value, List.mem_append_right _ hf.accesses⟩

theorem Returns.mono (h : Returns p v P) (hPQ : ∀ i, P i → Q i) : Returns p v Q :=
  ⟨h.value, fun i hi => hPQ i (h.accesses i hi)⟩

/-! ## Loops -/

variable {γ δ : Type}

/-- A loop over a list whose state stands for some `c : δ`, by what one round does to `c`. -/
theorem returns_foldlM_of {step : γ → β → Logged ι γ} (rep : δ → γ) {next : δ → β → δ} {l : List β}
    (h : ∀ c, ∀ b ∈ l, Returns (step (rep c) b) (rep (next c b)) P) (c : δ) :
    Returns (l.foldlM step (rep c)) (rep (l.foldl next c)) P := by
  induction l generalizing c with
  | nil => exact returns_pure
  | cons b l ih =>
    rw [List.foldlM_cons]
    exact (h c b List.mem_cons_self).bind (ih (fun c b hb => h c b (List.mem_cons_of_mem _ hb)) _)

/-- A loop over a list, by what one round does. -/
theorem returns_foldlM {step : γ → β → Logged ι γ} {next : γ → β → γ} {l : List β}
    (h : ∀ c, ∀ b ∈ l, Returns (step c b) (next c b) P) (c : γ) :
    Returns (l.foldlM step c) (l.foldl next c) P := returns_foldlM_of id h c

end Logged

end McuUtilities
