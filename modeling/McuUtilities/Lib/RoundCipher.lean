import Mathlib.Data.List.Basic

/-!
# Substitution-permutation ciphers and their equivalent inverse

A round substitutes, mixes and adds a round key; the last round does not mix. The equivalent inverse
cipher has the same shape, with the inverse layers in the same order and, between the first and the
last, the round keys mixed back and taken from the end. The two undo each other: after `i` inverse
rounds the state is what the substitution made of the state `i` rounds before the end.
-/

namespace McuUtilities

/-- The layers of a round on states `S`, with their inverses. -/
structure RoundLayers (S : Type) where
  add : S → S → S
  sub : S → S
  mix : S → S
  subInv : S → S
  mixInv : S → S
  add_cancel : ∀ s k, add (add s k) k = s
  subInv_sub : ∀ s, subInv (sub s) = s
  sub_subInv : ∀ s, sub (subInv s) = s
  mixInv_mix : ∀ s, mixInv (mix s) = s
  mix_mixInv : ∀ s, mix (mixInv s) = s
  mixInv_add : ∀ s k, mixInv (add s k) = add (mixInv s) (mixInv k)

namespace RoundLayers

variable {S : Type} (L : RoundLayers S)

/-- The layers of the inverse rounds. -/
def inverse : RoundLayers S where
  add := L.add
  sub := L.subInv
  mix := L.mixInv
  subInv := L.sub
  mixInv := L.mix
  add_cancel := L.add_cancel
  subInv_sub := L.sub_subInv
  sub_subInv := L.subInv_sub
  mixInv_mix := L.mix_mixInv
  mix_mixInv := L.mixInv_mix
  mixInv_add s k := by
    rw [← L.mix_mixInv (L.add (L.mix s) (L.mix k)), L.mixInv_add, L.mixInv_mix, L.mixInv_mix]

/-- The state after the first key and `i` rounds. -/
def rounds (k : Nat → S) (s : S) : Nat → S
  | 0 => L.add s (k 0)
  | i + 1 => L.add (L.mix (L.sub (rounds k s i))) (k (i + 1))

/-- `n + 1` rounds with the keys `k 0` to `k (n + 1)`, the last one without mixing. -/
def crypt (k : Nat → S) (n : Nat) (s : S) : S := L.add (L.sub (L.rounds k s n)) (k (n + 1))

/-- The keys of the inverse cipher: those of `k` from the end, the inner ones mixed back. -/
structure InverseKeys (k k' : Nat → S) (n : Nat) : Prop where
  first : k' 0 = k (n + 1)
  inner : ∀ i, i < n → k' (i + 1) = L.mixInv (k (n - i))
  last : k' (n + 1) = k 0

variable {L} {k k' : Nat → S} {n i : Nat} {s : S}

theorem rounds_inverse (h : L.InverseKeys k k' n) (hi : i ≤ n) :
    L.inverse.rounds k' (L.crypt k n s) i = L.sub (L.rounds k s (n - i)) := by
  induction i with
  | zero =>
    show L.add (L.crypt k n s) (k' 0) = _
    rw [h.first, crypt, L.add_cancel]
    rfl
  | succ i ih =>
    have hn : n - i = n - (i + 1) + 1 := by omega
    show L.add (L.mixInv (L.subInv (L.inverse.rounds k' (L.crypt k n s) i))) (k' (i + 1)) = _
    rw [ih (by omega), L.subInv_sub, h.inner i (by omega), hn, rounds, L.mixInv_add, L.mixInv_mix,
      L.add_cancel]

theorem rounds_congr (h : ∀ j, j ≤ i → k j = k' j) : L.rounds k s i = L.rounds k' s i := by
  induction i with
  | zero => rw [rounds, rounds, h 0 (Nat.le_refl 0)]
  | succ i ih => rw [rounds, rounds, ih fun j hj => h j (by omega), h (i + 1) (Nat.le_refl _)]

/-- Only the keys up to `k (n + 1)` matter. -/
theorem crypt_congr (h : ∀ j, j ≤ n + 1 → k j = k' j) : L.crypt k n s = L.crypt k' n s := by
  rw [crypt, crypt, rounds_congr fun j hj => h j (by omega), h (n + 1) (Nat.le_refl _)]

/-- The inverse cipher undoes the cipher. -/
theorem crypt_inverse (h : L.InverseKeys k k' n) : L.inverse.crypt k' n (L.crypt k n s) = s := by
  show L.add (L.subInv (L.inverse.rounds k' (L.crypt k n s) n)) (k' (n + 1)) = s
  rw [rounds_inverse h (Nat.le_refl n), L.subInv_sub, Nat.sub_self, rounds, h.last, L.add_cancel]

theorem InverseKeys.symm (h : L.InverseKeys k k' n) : L.inverse.InverseKeys k' k n where
  first := h.last.symm
  inner i hi := by
    have hinner := h.inner (n - (i + 1)) (by omega)
    rw [show n - (i + 1) + 1 = n - i by omega, show n - (n - (i + 1)) = i + 1 by omega] at hinner
    show k (i + 1) = L.mix (k' (n - i))
    rw [hinner, L.mix_mixInv]
  last := h.first.symm

end RoundLayers

end McuUtilities
