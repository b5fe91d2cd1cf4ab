import Mathlib.Algebra.Ring.Nat
import Mathlib.Logic.Function.Iterate

/-!
# Reflected cyclic redundancy checks

`divBits p n c` divides the remainder `c` by the reflected polynomial `p`, `n` bits at a time;
`crcByte` takes in one byte and `crcBytes` a list of them. Division is linear in the remainder,
and moves bits above the lowest `n` down unchanged, so that a byte can also be taken in through a
table of 256 remainders (`crcByte_eq_table`), or bit by bit (`crcBits_lowBits`).
-/

namespace McuUtilities

variable {w : Nat} (p : BitVec w)

/-- One step of the division by the reflected polynomial `p`. -/
def divBit (c : BitVec w) : BitVec w := if c.getLsbD 0 then p ^^^ (c >>> 1) else c >>> 1

/-- `n` steps of the division. -/
def divBits (n : Nat) (c : BitVec w) : BitVec w := (divBit p)^[n] c

/-- The remainder after one more byte. -/
def crcByte (c : BitVec w) (b : BitVec 8) : BitVec w := divBits p 8 (c ^^^ b.setWidth w)

/-- The remainder after the bytes `bs`. -/
def crcBytes (c : BitVec w) (bs : List (BitVec 8)) : BitVec w := bs.foldl (crcByte p) c

/-- The table of the remainders of single bytes. -/
def crcTable (b : BitVec 8) : BitVec w := divBits p 8 (b.setWidth w)

variable {p} {c d : BitVec w} {n m : Nat}

theorem divBits_succ : divBits p (n + 1) c = divBit p (divBits p n c) :=
  Function.iterate_succ_apply' _ _ _

theorem divBit_xor : divBit p (c ^^^ d) = divBit p c ^^^ divBit p d := by
  have hcancel : c >>> 1 ^^^ d >>> 1 = (p ^^^ c >>> 1) ^^^ (p ^^^ d >>> 1) := by
    rw [BitVec.xor_comm p, BitVec.xor_assoc, ← BitVec.xor_assoc p p, BitVec.xor_self,
      BitVec.zero_xor]
  unfold divBit
  rw [BitVec.getLsbD_xor, BitVec.ushiftRight_xor_distrib]
  cases c.getLsbD 0 <;> cases d.getLsbD 0 <;> simp only [Bool.false_xor, Bool.true_xor,
    Bool.not_false, Bool.not_true, Bool.false_eq_true, if_true, if_false]
  · rw [← BitVec.xor_assoc, BitVec.xor_comm p, BitVec.xor_assoc]
  · rw [BitVec.xor_assoc]
  · exact hcancel

theorem divBits_xor : divBits p n (c ^^^ d) = divBits p n c ^^^ divBits p n d := by
  induction n with
  | zero => rfl
  | succ n ih => rw [divBits_succ, ih, divBit_xor, divBits_succ, divBits_succ]

/-- A remainder whose lowest `n` bits are clear only moves down. -/
theorem divBits_of_clear (h : ∀ i, i < n → c.getLsbD i = false) : divBits p n c = c >>> n := by
  induction n with
  | zero => exact (BitVec.ushiftRight_zero c).symm
  | succ n ih =>
    have hbit : (c >>> n).getLsbD 0 = false := by
      rw [BitVec.getLsbD_ushiftRight]
      exact h n (Nat.lt_succ_self n)
    rw [divBits_succ, ih fun i hi => h i (Nat.lt_succ_of_lt hi), divBit, hbit]
    simp only [Bool.false_eq_true, if_false]
    rw [BitVec.shiftRight_add]

/-- The lowest `n` bits are divided, the others move down. -/
theorem divBits_split (c : BitVec w) (n : Nat) :
    divBits p n c = c >>> n ^^^ divBits p n ((c.setWidth n).setWidth w) := by
  let low := (c.setWidth n).setWidth w
  have hlow : ∀ i, low.getLsbD i = (decide (i < n) && c.getLsbD i) := by
    intro i
    simp only [low, BitVec.getLsbD_setWidth]
    by_cases hi : i < w
    · simp [hi]
    · simp [hi, BitVec.getLsbD_of_ge c i (Nat.le_of_not_lt hi)]
  have hclear : ∀ i, i < n → (c ^^^ low).getLsbD i = false := by
    intro i hi
    rw [BitVec.getLsbD_xor, hlow, decide_eq_true hi, Bool.true_and, Bool.xor_self]
  have hshift : (c ^^^ low) >>> n = c >>> n := by
    apply BitVec.eq_of_getLsbD_eq
    intro i _
    have hge : ¬ n + i < n := by omega
    rw [BitVec.getLsbD_ushiftRight, BitVec.getLsbD_ushiftRight, BitVec.getLsbD_xor, hlow,
      decide_eq_false hge, Bool.false_and, Bool.xor_false]
  have hsum : c = (c ^^^ low) ^^^ low := by
    rw [BitVec.xor_assoc, BitVec.xor_self, BitVec.xor_zero]
  calc divBits p n c = divBits p n ((c ^^^ low) ^^^ low) := by rw [← hsum]
    _ = c >>> n ^^^ divBits p n low := by rw [divBits_xor, divBits_of_clear hclear, hshift]

/-- Taking in a byte through the table. -/
theorem crcByte_eq_table {b : BitVec 8} :
    crcByte p c b = c >>> 8 ^^^ crcTable p ((c ^^^ b.setWidth w).setWidth 8) := by
  have hb : b.setWidth w >>> 8 = 0#w := by
    apply BitVec.eq_of_getLsbD_eq
    intro i _
    rw [BitVec.getLsbD_ushiftRight, BitVec.getLsbD_setWidth,
      BitVec.getLsbD_of_ge b (8 + i) (Nat.le_add_right _ _), Bool.and_false, BitVec.getLsbD_zero]
  rw [crcByte, divBits_split, BitVec.ushiftRight_xor_distrib, hb, BitVec.xor_zero, crcTable]

/-! ## Bit by bit -/

/-- The remainder after one more bit. -/
def takeBit (p c : BitVec w) (b : Bool) : BitVec w :=
  if c.getLsbD 0 ^^ b then p ^^^ (c >>> 1) else c >>> 1

/-- The remainder after the bits `bits`. -/
def crcBits (p c : BitVec w) (bits : List Bool) : BitVec w := bits.foldl (takeBit p) c

/-- The bits of `x`, the lowest first. -/
def lowBits (x : BitVec n) : List Bool := (List.range n).map x.getLsbD

theorem crcBits_append {as bs : List Bool} :
    crcBits p c (as ++ bs) = crcBits p (crcBits p c as) bs := List.foldl_append

/-- The lowest bit leaves behind the polynomial. -/
theorem divBit_twoPow_zero (hw : 0 < w) : divBit p (BitVec.twoPow w 0) = p := by
  have hlow : (BitVec.twoPow w 0).getLsbD 0 = true := by simp [hw]
  have hshift : BitVec.twoPow w 0 >>> 1 = 0#w := by
    apply BitVec.eq_of_getLsbD_eq
    intro i _
    have hi : ¬ 0 = 1 + i := by omega
    simp [BitVec.getLsbD_twoPow, hi]
  rw [divBit, hlow, if_pos rfl, hshift, BitVec.xor_zero]

theorem takeBit_eq (hw : 0 < w) {b : Bool} :
    takeBit p c b = divBit p (c ^^^ if b then BitVec.twoPow w 0 else 0#w) := by
  cases b with
  | false =>
    rw [takeBit, divBit, Bool.xor_false]
    simp only [Bool.false_eq_true, if_false, BitVec.xor_zero]
  | true =>
    simp only [if_true]
    rw [divBit_xor, divBit_twoPow_zero hw, takeBit, divBit, Bool.xor_true]
    cases c.getLsbD 0 with
    | false => exact BitVec.xor_comm p _
    | true =>
      simp only [Bool.not_true, Bool.false_eq_true, if_false, if_true]
      rw [BitVec.xor_comm p, BitVec.xor_assoc, BitVec.xor_self, BitVec.xor_zero]

/-- A single bit moves down to the lowest place. -/
theorem divBits_twoPow (h : n < w) : divBits p n (BitVec.twoPow w n) = BitVec.twoPow w 0 := by
  rw [divBits_of_clear fun i hi => by
    rw [BitVec.getLsbD_twoPow, decide_eq_false (Nat.ne_of_gt hi), Bool.and_false]]
  apply BitVec.eq_of_getLsbD_eq
  intro i _
  simp only [BitVec.getLsbD_ushiftRight, BitVec.getLsbD_twoPow]
  grind

/-- Taking in the bits of `x`, the lowest first, is taking in `x`. -/
theorem crcBits_lowBits (h : n ≤ w) (x : BitVec n) :
    crcBits p c (lowBits x) = divBits p n (c ^^^ x.setWidth w) := by
  have hlow : ∀ k, k ≤ n → crcBits p c ((List.range k).map x.getLsbD) =
      divBits p k (c ^^^ (x.setWidth k).setWidth w) := by
    intro k hk
    induction k with
    | zero =>
      have hx : (x.setWidth 0).setWidth w = 0#w := by
        rw [BitVec.eq_nil (x.setWidth 0)]
        rfl
      rw [hx, BitVec.xor_zero]
      rfl
    | succ k ih =>
      let bit := if x.getLsbD k then BitVec.twoPow w k else 0#w
      have hbit : divBits p k bit = if x.getLsbD k then BitVec.twoPow w 0 else 0#w := by
        simp only [bit]
        split
        · exact divBits_twoPow (by omega)
        · rw [divBits_of_clear fun i _ => BitVec.getLsbD_zero, BitVec.zero_ushiftRight]
      have hx : (x.setWidth (k + 1)).setWidth w = (x.setWidth k).setWidth w ^^^ bit := by
        apply BitVec.eq_of_getLsbD_eq
        intro i hi
        simp only [bit, BitVec.getLsbD_xor, BitVec.getLsbD_setWidth, hi, decide_true, Bool.true_and]
        rcases Nat.lt_trichotomy i k with hik | rfl | hik
        · cases x.getLsbD k <;> simp [hik, Nat.lt_succ_of_lt hik, BitVec.getLsbD_twoPow, Nat.ne_of_gt hik]
        · cases x.getLsbD i <;> simp [hi]
        · have h1 : ¬ i < k + 1 := by omega
          have h2 : ¬ i < k := by omega
          cases x.getLsbD k <;> simp [h1, h2, BitVec.getLsbD_twoPow, Nat.ne_of_lt hik]
      rw [List.range_succ, List.map_append, crcBits_append, ih (by omega), List.map_singleton]
      change takeBit p _ _ = _
      rw [takeBit_eq (by omega), ← hbit, ← divBits_xor, ← divBits_succ, hx, BitVec.xor_assoc]
  have := hlow n (Nat.le_refl n)
  rwa [BitVec.setWidth_eq] at this

/-- A remainder, taken in by itself, is cleared. -/
theorem crcBits_self : crcBits p c (lowBits c) = 0#w := by
  have h := crcBits_lowBits (p := p) (c := c) (Nat.le_refl w) c
  rwa [BitVec.setWidth_eq, BitVec.xor_self,
    divBits_of_clear fun _ _ => BitVec.getLsbD_zero, BitVec.zero_ushiftRight] at h

theorem lowBits_append (x : BitVec n) (y : BitVec m) : lowBits (x ++ y) = lowBits y ++ lowBits x := by
  have hrange : List.range (n + m) = List.range m ++ (List.range n).map (m + ·) := by
    rw [Nat.add_comm, List.range_add]
  rw [lowBits, hrange, List.map_append, List.map_map]
  congr 1
  · refine List.map_congr_left fun i hi => ?_
    rw [BitVec.getLsbD_append, if_pos (List.mem_range.mp hi)]
  · refine List.map_congr_left fun i _ => ?_
    have hi : ¬ m + i < m := by omega
    rw [Function.comp_apply, BitVec.getLsbD_append, if_neg hi, Nat.add_sub_cancel_left]

/-- A word is its high part followed by its low part. -/
theorem high_append_low (x : BitVec (n + m)) : (x >>> m).setWidth n ++ x.setWidth m = x := by
  apply BitVec.eq_of_getLsbD_eq
  intro i hi
  rw [BitVec.getLsbD_append, BitVec.getLsbD_setWidth, BitVec.getLsbD_setWidth,
    BitVec.getLsbD_ushiftRight]
  by_cases hlow : i < m
  · simp [hlow]
  · have h1 : i - m < n := by omega
    have h2 : m + (i - m) = i := by omega
    simp [hlow, h1, h2]

/-- The bytes of a message, bit by bit. -/
theorem crcBits_flatMap_lowBits {α : Type} (h : 8 ≤ w) (byte : α → BitVec 8) (bs : List α) :
    crcBits p c (bs.flatMap fun b => lowBits (byte b)) = crcBytes p c (bs.map byte) := by
  induction bs generalizing c with
  | nil => rfl
  | cons b bs ih =>
    rw [List.flatMap_cons, crcBits_append, crcBits_lowBits h, ih]
    rfl

end McuUtilities
