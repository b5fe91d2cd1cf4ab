import Mathlib.Data.List.Basic

/-!
# Swaps along an involution

A loop that swaps the elements of a vector pairwise, in place. When no element takes part in two swaps
and each is swapped with its partner under an involution `σ` of the indices, the loop leaves the
elements in the order `σ` (`getElem_swaps`), whatever order the swaps are made in.
-/

namespace McuUtilities

variable {α : Type} {n : Nat}

/-- Round `i` swaps the elements at `f i` and at its partner, for `k` rounds. -/
def swaps (f σ : Nat → Nat) (k : Nat) (data : Vector α n) : Vector α n :=
  (List.range k).foldl (fun data i => data.swapIfInBounds (f i) (σ (f i))) data

/-- The first `k` rounds touch the index `j`. -/
def Touched (f σ : Nat → Nat) (k j : Nat) : Prop := ∃ i < k, j = f i ∨ j = σ (f i)

/-- The indices below `n` are swapped in pairs, none of them twice. -/
structure Pairing (n : Nat) (f σ : Nat → Nat) (k : Nat) : Prop where
  partner_lt : ∀ j < n, σ j < n
  partner_partner : ∀ j < n, σ (σ j) = j
  lt : ∀ i < k, f i < n
  untouched : ∀ i < k, ¬ Touched f σ i (f i)

variable {f σ : Nat → Nat} {k : Nat} {data : Vector α n}

theorem getElem_swap_partner {i j : Nat} (hi : i < n) (hj : j < n) {l : Nat} (hl : l < n) :
    (data.swapIfInBounds i j)[l] = if l = i then data[j] else if l = j then data[i] else data[l] := by
  obtain ⟨xs, rfl⟩ := data
  simp only [Vector.swapIfInBounds_mk, Vector.getElem_mk, Array.getElem_swapIfInBounds, hi, hj, and_true]
  split <;> rfl

theorem touched_succ {j : Nat} : Touched f σ (k + 1) j ↔ Touched f σ k j ∨ j = f k ∨ j = σ (f k) := by
  constructor
  · rintro ⟨i, hi, h⟩
    rcases Nat.lt_succ_iff_lt_or_eq.mp hi with hi | rfl
    · exact .inl ⟨i, hi, h⟩
    · exact .inr h
  · rintro (⟨i, hi, h⟩ | h)
    · exact ⟨i, Nat.lt_succ_of_lt hi, h⟩
    · exact ⟨k, Nat.lt_succ_self k, h⟩

/-- What a swap has touched, it has touched together with the partner. -/
theorem Pairing.touched_partner (h : Pairing n f σ k) {m j : Nat} (hm : m ≤ k) :
    Touched f σ m j → Touched f σ m (σ j) := by
  rintro ⟨i, hi, rfl | rfl⟩
  · exact ⟨i, hi, .inr rfl⟩
  · exact ⟨i, hi, .inl (h.partner_partner _ (h.lt i (Nat.lt_of_lt_of_le hi hm)))⟩

theorem getElem_swaps_of (data : Vector α n) (h : Pairing n f σ k) {m : Nat} (hm : m ≤ k) {j : Nat}
    (hj : j < n) (hσ : σ j < n) :
    (Touched f σ m j → (swaps f σ m data)[j] = data[σ j]) ∧
      (¬ Touched f σ m j → (swaps f σ m data)[j] = data[j]) := by
  induction m generalizing j with
  | zero => exact ⟨fun ⟨i, hi, _⟩ => absurd hi (Nat.not_lt_zero i), fun _ => rfl⟩
  | succ m ih =>
    have hlt : f m < n := h.lt m hm
    have hlt' : σ (f m) < n := h.partner_lt _ hlt
    have hnew : ¬ Touched f σ m (f m) := h.untouched m hm
    have hnew' : ¬ Touched f σ m (σ (f m)) := fun ht => hnew (by
      have := h.touched_partner (Nat.le_of_succ_le hm) ht
      rwa [h.partner_partner _ hlt] at this)
    have hstep : swaps f σ (m + 1) data = (swaps f σ m data).swapIfInBounds (f m) (σ (f m)) := by
      rw [swaps, List.range_succ, List.foldl_append]
      rfl
    have ihm := fun {j} (hj : j < n) => ih (Nat.le_of_succ_le hm) hj (h.partner_lt j hj)
    simp only [hstep, getElem_swap_partner hlt hlt' hj, touched_succ]
    by_cases h1 : j = f m
    · subst h1
      simp only [if_true, true_or, or_true, true_implies, not_true_eq_false, false_implies, and_true]
      exact (ihm hlt').2 hnew'
    · by_cases h2 : j = σ (f m)
      · subst h2
        simp only [h1, if_false, if_true, or_true, true_implies, not_true_eq_false, false_implies,
          and_true, h.partner_partner _ hlt]
        exact (ihm hlt).2 hnew
      · simp only [h1, h2, if_false, or_false]
        exact ihm hj

/-- When every element that has another partner than itself is touched, the elements are left in the
order of the partners. -/
theorem getElem_swaps (data : Vector α n) (h : Pairing n f σ k)
    (hall : ∀ j < n, σ j = j ∨ Touched f σ k j) {j : Nat} (hj : j < n) (hσ : σ j < n) :
    (swaps f σ k data)[j] = data[σ j] := by
  have hcases := getElem_swaps_of data h (Nat.le_refl k) hj hσ
  by_cases ht : Touched f σ k j
  · exact hcases.1 ht
  · have hfix : σ j = j := (hall j hj).resolve_right ht
    simp only [hfix]
    exact hcases.2 ht

/-- Such a loop undoes itself. -/
theorem swaps_swaps (h : Pairing n f σ k) (hall : ∀ j < n, σ j = j ∨ Touched f σ k j) :
    swaps f σ k (swaps f σ k data) = data := by
  apply Vector.ext
  intro j hj
  have hσ : σ j < n := h.partner_lt j hj
  have hback : σ (σ j) < n := by rwa [h.partner_partner j hj]
  rw [getElem_swaps _ h hall hj hσ, getElem_swaps _ h hall hσ hback]
  simp only [h.partner_partner j hj]

end McuUtilities
