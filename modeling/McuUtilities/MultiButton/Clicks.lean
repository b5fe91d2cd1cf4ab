import Mathlib.Data.List.Induction
import McuUtilities.MultiButton.Pairing

/-!
# Counting clicks

The presses of a burst are counted in a field of four bits, so the count is right modulo 16. At the end
of a burst it is taken for the number of presses, which goes wrong when that is 1 or 2 modulo 16 and
more than 2.
-/

namespace McuUtilities.MultiButton

/-! ## Bursts -/

/-- One call of the handler, with the number of presses since the machine was last in state 0. -/
def burstStep (s : Button × Nat) (level : UInt8) : Button × Nat :=
  let r := buttonHandler s.1 level
  (r.1, (if s.1.state = 0 then 0 else s.2) + r.2.count .pressDown)

/-- The button after the samples, and the presses of the burst it is in. -/
def burst (b : Button) (samples : List UInt8) : Button × Nat := samples.foldl burstStep (b, 0)

/-- The next call of the handler ends a burst: it finds the release time-out of state 2. -/
def EndsBurst (b : Button) (level : UInt8) : Prop := TimedOut (debounce level (countTick b))

instance (b : Button) (level : UInt8) : Decidable (EndsBurst b level) :=
  inferInstanceAs (Decidable (TimedOut _))

/-- The events `out` report a burst of `presses` presses. -/
def Reports (presses : Nat) (out : List PressEvent) : Prop :=
  (.singleClick ∈ out ↔ presses = 1) ∧ (.doubleClick ∈ out ↔ presses = 2)

instance (presses : Nat) (out : List PressEvent) : Decidable (Reports presses out) :=
  inferInstanceAs (Decidable (_ ∧ _))

section burst
variable {b : Button} {s : Button × Nat} {level : UInt8} {samples : List UInt8} {n : Nat}

theorem burst_concat : burst b (samples ++ [level]) = burstStep (burst b samples) level := by
  rw [burst, List.foldl_append]
  rfl

/-- The button of a burst is the one the run of the handler leaves. -/
theorem run_burst (b : Button) (samples : List UInt8) :
    (handler.run b samples).2 = .inl (burst b samples).1 := by
  have hfold : ∀ (samples : List UInt8) (b : Button) (n : Nat),
      (handler.run b samples).2 = .inl (samples.foldl burstStep (b, n)).1 := by
    intro samples
    induction samples with
    | nil => exact fun _ _ => rfl
    | cons level samples ih =>
      intro b n
      have hstep : handler.step b level = (_, .inl (buttonHandler b level).1) := rfl
      rw [Machine.run_cons hstep]
      exact ih _ _
  exact hfold samples b 0

/-- Outside state 0 the field counts the presses, modulo 16. -/
def Counts (s : Button × Nat) : Prop := s.1.state ≠ 0 → s.1.repeats = BitVec.ofNat 4 s.2

/-- One transition, by what it does to the count. -/
theorem moves_counts {s' : BitVec 3} {r' : BitVec 4} {out : List PressEvent} (hmove : Moves b s' r' out)
    (hc : b.state ≠ 0 → b.repeats = BitVec.ofNat 4 n) (hs : s' ≠ 0) :
    r' = BitVec.ofNat 4 ((if b.state = 0 then 0 else n) + out.count .pressDown) := by
  have hstay : b.state ≠ 0 → ∀ {out : List PressEvent}, out.count .pressDown = 0 →
      b.repeats = BitVec.ofNat 4 ((if b.state = 0 then 0 else n) + out.count .pressDown) := by
    intro h out hout
    rw [if_neg h, hout]
    exact hc h
  cases hmove with
  | stay => exact hstay hs rfl
  | press h =>
    rw [if_pos h]
    rfl
  | release h => exact hstay (by rcases h with h | h <;> rw [h] <;> decide) rfl
  | long h => exact hstay (by rw [h]; decide) rfl
  | again h =>
    have h0 : b.state ≠ 0 := by rw [h]; decide
    rw [if_neg h0, hc h0]
    exact (BitVec.ofNat_add n 1).symm
  | single => exact absurd rfl hs
  | double => exact absurd rfl hs
  | many => exact absurd rfl hs
  | hold h => exact hstay (by rw [h]; decide) rfl
  | resume h => exact hstay (by rw [h]; decide) rfl
  | releaseLong => exact absurd rfl hs

theorem Counts.step (h : Counts s) : Counts (burstStep s level) := by
  have hmove := stateMachine_moves (b := debounce level (countTick s.1)) (s.1.period / ticksInterval)
  intro hs
  have hnext := moves_counts hmove (n := s.2) (fun h0 => by
    rw [repeats_debounce, repeats_countTick]
    exact h (by simpa using h0)) hs
  rw [state_debounce, state_countTick] at hnext
  exact hnext

theorem counts_burst (hb : Fresh b) (samples : List UInt8) : Counts (burst b samples) := by
  induction samples using List.reverseRecOn with
  | nil => exact fun h => absurd hb.state h
  | append_singleton samples level ih =>
    rw [burst_concat]
    exact ih.step

/-- The transition at the end of a burst, by the value of the field. -/
theorem moves_endsBurst {s' : BitVec 3} {r' : BitVec 4} {out : List PressEvent} (hmove : Moves b s' r' out)
    (h : TimedOut b) :
    (.singleClick ∈ out ↔ b.repeats = 1) ∧ (.doubleClick ∈ out ↔ b.repeats = 2) := by
  have hstate : ∀ {s : BitVec 3}, b.state = s → s = 2 := fun h0 => h0.symm.trans h.1
  cases hmove with
  | stay hstay => exact absurd h hstay
  | press h0 => exact absurd (hstate h0) (by decide)
  | release h0 =>
    rcases h0 with h0 | h0
    · exact absurd (hstate h0) (by decide)
    · exact absurd (hstate h0) (by decide)
  | long h0 => exact absurd (hstate h0) (by decide)
  | again _ hp => exact absurd hp h.2.1
  | single _ hr => rw [hr]; decide
  | double _ hr => rw [hr]; decide
  | many _ h1 h2 =>
    exact ⟨⟨fun hm => absurd hm (by simp), fun hr => absurd hr h1⟩,
      ⟨fun hm => absurd hm (by simp), fun hr => absurd hr h2⟩⟩
  | hold h0 => exact absurd (hstate h0) (by decide)
  | resume h0 => exact absurd (hstate h0) (by decide)
  | releaseLong h0 =>
    rcases h0 with h0 | h0
    · exact absurd (hstate h0) (by decide)
    · exact absurd (hstate h0) (by decide)

end burst

theorem ofNat_four_eq {n k : Nat} (hk : k < 16) :
    BitVec.ofNat 4 n = BitVec.ofNat 4 k ↔ n % 16 = k := by
  rw [← BitVec.toNat_inj, BitVec.toNat_ofNat, BitVec.toNat_ofNat]
  omega

/-- At the end of a burst, in whatever run: the events report it if and only if it has at most two
presses or a number that is neither 1 nor 2 modulo 16. -/
theorem reports_iff {b : Button} (hb : Fresh b) (samples : List UInt8) (level : UInt8)
    (hend : EndsBurst (burst b samples).1 level) :
    Reports (burst b samples).2 (buttonHandler (burst b samples).1 level).2 ↔
      (burst b samples).2 ≤ 2 ∨
        ((burst b samples).2 % 16 ≠ 1 ∧ (burst b samples).2 % 16 ≠ 2) := by
  have hcount := counts_burst hb samples
  generalize burst b samples = s at hend hcount ⊢
  obtain ⟨b', n⟩ := s
  have hstate : b'.state = 2 := by
    rw [← hend.1, state_debounce, state_countTick]
  have hrepeats : (debounce level (countTick b')).repeats = BitVec.ofNat 4 n := by
    rw [repeats_debounce, repeats_countTick]
    exact hcount (by rw [hstate]; decide)
  obtain ⟨hsingle, hdouble⟩ := moves_endsBurst (stateMachine_moves (b'.period / ticksInterval)) hend
  rw [hrepeats] at hsingle hdouble
  have h1 : .singleClick ∈ (buttonHandler b' level).2 ↔ n % 16 = 1 := hsingle.trans (ofNat_four_eq (by decide))
  have h2 : .doubleClick ∈ (buttonHandler b' level).2 ↔ n % 16 = 2 := hdouble.trans (ofNat_four_eq (by decide))
  rw [Reports, h1, h2]
  dsimp only
  omega

/-! ## Two bursts -/

/-- `n` short presses, and the wait for the release time-out, up to its last tick. -/
def shortPresses (n : Nat) : List UInt8 :=
  (List.replicate n [1, 1, 1, 0, 0, 0]).flatten ++ List.replicate 60 0

theorem reports_double : EndsBurst (burst sampleButton (shortPresses 2)).1 0 ∧
    (burst sampleButton (shortPresses 2)).2 = 2 ∧
      Reports 2 (buttonHandler (burst sampleButton (shortPresses 2)).1 0).2 := by
  have hend : EndsBurst (burst sampleButton (shortPresses 2)).1 0 := by decide +kernel
  have htwo : (burst sampleButton (shortPresses 2)).2 = 2 := by decide +kernel
  have h := (reports_iff (.init 0 1 1000 0) (shortPresses 2) 0 hend).mpr (.inl (Nat.le_of_eq htwo))
  rw [← sampleButton, htwo] at h
  exact ⟨hend, htwo, h⟩

/-- Seventeen presses are reported as a single click. -/
theorem not_reports_seventeen : EndsBurst (burst sampleButton (shortPresses 17)).1 0 ∧
    (burst sampleButton (shortPresses 17)).2 = 17 ∧
      .singleClick ∈ (buttonHandler (burst sampleButton (shortPresses 17)).1 0).2 ∧
      ¬ Reports 17 (buttonHandler (burst sampleButton (shortPresses 17)).1 0).2 := by
  decide +kernel

end McuUtilities.MultiButton
