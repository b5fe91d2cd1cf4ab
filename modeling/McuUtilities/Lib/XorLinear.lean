import Mathlib.Algebra.Ring.Nat
import Mathlib.Data.List.Basic

/-!
# Exclusive-or-linear maps of bit vectors

A map of bit vectors is `XorLinear` when it carries `^^^` to `^^^`. Such maps are closed under
composition and under pointwise `^^^`, and one is determined by its values at the powers of two. So
an equation between two of them is an equation between finitely many values, and a table of
`2 ^ n` values is linear if each is the `^^^` of the values at the bits of its index.
-/

namespace McuUtilities

variable {n m k : Nat}

/-- `f` carries `^^^` to `^^^`. -/
def XorLinear (f : BitVec n → BitVec m) : Prop := ∀ x y, f (x ^^^ y) = f x ^^^ f y

namespace XorLinear
variable {f g : BitVec n → BitVec m}

theorem map_zero (hf : XorLinear f) : f 0#n = 0#m := by
  have h := hf 0#n 0#n
  rwa [BitVec.xor_self, BitVec.xor_self] at h

theorem id : XorLinear fun x : BitVec n => x := fun _ _ => rfl

theorem comp {h : BitVec m → BitVec k} (hh : XorLinear h) (hf : XorLinear f) :
    XorLinear fun x => h (f x) := by
  intro x y
  show h (f (x ^^^ y)) = h (f x) ^^^ h (f y)
  rw [hf, hh]

theorem xor (hf : XorLinear f) (hg : XorLinear g) : XorLinear fun x => f x ^^^ g x := by
  intro x y
  show f (x ^^^ y) ^^^ g (x ^^^ y) = (f x ^^^ g x) ^^^ (f y ^^^ g y)
  rw [hf, hg, BitVec.xor_assoc, BitVec.xor_assoc, ← BitVec.xor_assoc (f y), BitVec.xor_comm (f y),
    BitVec.xor_assoc]

theorem extractLsb' (start len : Nat) : XorLinear fun x : BitVec n => x.extractLsb' start len :=
  fun _ _ => BitVec.extractLsb'_xor

/-! ## Linear maps agree when they agree on single bits -/

/-- Clearing the top set bit: what is below `i + 1` is a power of two and what is below `i`. -/
private theorem below_succ {x : BitVec n} {i : Nat} (hi : i < n) (hbit : x.getLsbD i = true)
    (hx : ∀ j, i + 1 ≤ j → x.getLsbD j = false) :
    ∀ j, i ≤ j → (x ^^^ BitVec.twoPow n i).getLsbD j = false := by
  intro j hj
  rw [BitVec.getLsbD_xor, BitVec.getLsbD_twoPow]
  rcases Nat.eq_or_lt_of_le hj with rfl | hlt
  · simp [hbit, hi]
  · simp [hx j hlt, Nat.ne_of_lt hlt]

theorem ext (hf : XorLinear f) (hg : XorLinear g)
    (h : ∀ i, i < n → f (BitVec.twoPow n i) = g (BitVec.twoPow n i)) (x : BitVec n) :
    f x = g x := by
  -- by the number of low bits that may be set
  have main : ∀ i, i ≤ n → ∀ y : BitVec n, (∀ j, i ≤ j → y.getLsbD j = false) → f y = g y := by
    intro i
    induction i with
    | zero =>
      intro _ y hy
      have hzero : y = 0#n := BitVec.eq_of_getLsbD_eq fun j _ => by simp [hy j]
      rw [hzero, hf.map_zero, hg.map_zero]
    | succ i ih =>
      intro hi y hy
      cases hbit : y.getLsbD i with
      | false =>
        refine ih (by omega) y fun j hj => ?_
        rcases Nat.eq_or_lt_of_le hj with rfl | hlt
        · exact hbit
        · exact hy j hlt
      | true =>
        have hrest := ih (by omega) _ (below_succ hi hbit hy)
        have hy' : y = (y ^^^ BitVec.twoPow n i) ^^^ BitVec.twoPow n i := by
          rw [BitVec.xor_assoc, BitVec.xor_self, BitVec.xor_zero]
        rw [hy', hf, hg, hrest, h i hi]
  exact main n (Nat.le_refl n) x fun j hj => BitVec.getLsbD_of_ge x j hj

end XorLinear

/-! ## Tables of linear maps -/

/-- The `^^^` of the `c i` for the bits `i < j` that are set in `x`. -/
def xorOfBits (c : Nat → BitVec m) (x : BitVec n) : Nat → BitVec m
  | 0 => 0#m
  | j + 1 => (if x.getLsbD j then c j else 0#m) ^^^ xorOfBits c x j

theorem xorLinear_xorOfBits (c : Nat → BitVec m) (j : Nat) :
    XorLinear fun x : BitVec n => xorOfBits c x j := by
  induction j with
  | zero =>
    intro x y
    exact BitVec.xor_self.symm
  | succ j ih =>
    refine XorLinear.xor (fun x y => ?_) ih
    rw [BitVec.getLsbD_xor]
    cases x.getLsbD j <;> cases y.getLsbD j <;> simp

/-- A table is linear if each entry is the `^^^` of the entries at the bits of its index. -/
theorem xorLinear_of_table {t : BitVec n → BitVec m}
    (h : ∀ i, i < 2 ^ n →
      t (BitVec.ofNat n i) = xorOfBits (fun j => t (BitVec.twoPow n j)) (BitVec.ofNat n i) n) :
    XorLinear t := by
  have heq : t = fun x => xorOfBits (fun j => t (BitVec.twoPow n j)) x n := by
    funext x
    have := h x.toNat x.isLt
    rwa [BitVec.ofNat_toNat, BitVec.setWidth_eq] at this
  rw [heq]
  exact xorLinear_xorOfBits _ n

end McuUtilities
