import McuUtilities.Lib.Crc

/-!
# Cyclic redundancy checks, the highest bit first

The register of a CRC that is not reflected. `mulX` multiplies it by the indeterminate; a bit of the
message enters at the top (`feedTop`) or at the bottom (`feedBottom`). The second form is behind the
first one by the length of the register, which zeros that are fed after the message make up for
(`flush_feedBottom`). Read from the other end, the register is that of the reflected CRC.
-/

namespace McuUtilities

variable {w n m : Nat} (p : BitVec w)

/-- The register moved up by one place. -/
def mulX (c : BitVec w) : BitVec w := if c.msb then (c <<< 1) ^^^ p else c <<< 1

/-- A bit enters at the top. -/
def feedTop (c : BitVec w) (b : Bool) : BitVec w := if c.msb ^^ b then (c <<< 1) ^^^ p else c <<< 1

/-- A bit enters at the bottom. -/
def feedBottom (c : BitVec w) (b : Bool) : BitVec w := mulX p c ^^^ if b then 1#w else 0#w

/-- The bits of `x`, the highest first. -/
def highBits (x : BitVec n) : List Bool := (List.range n).map x.getMsbD

variable {p} {c d : BitVec w}

/-! ## The register read from the other end -/

theorem reverse_xor : (c ^^^ d).reverse = c.reverse ^^^ d.reverse := by
  apply BitVec.eq_of_getLsbD_eq
  intro i _
  rw [BitVec.getLsbD_xor, BitVec.getLsbD_reverse, BitVec.getLsbD_reverse, BitVec.getLsbD_reverse,
    BitVec.getMsbD_xor]

theorem reverse_shiftLeft (k : Nat) : (c <<< k).reverse = c.reverse >>> k := by
  apply BitVec.eq_of_getLsbD_eq
  intro i _
  rw [BitVec.getLsbD_reverse, BitVec.getLsbD_ushiftRight, BitVec.getLsbD_reverse,
    BitVec.getMsbD_shiftLeft, Nat.add_comm]

theorem reverse_injective (h : c.reverse = d.reverse) : c = d := by
  rw [← BitVec.reverse_reverse_eq (x := c), h, BitVec.reverse_reverse_eq]

theorem lowBits_reverse (x : BitVec n) : lowBits x.reverse = highBits x := by
  exact List.map_congr_left fun i _ => BitVec.getLsbD_reverse

theorem reverse_feedTop {b : Bool} : (feedTop p c b).reverse = takeBit p.reverse c.reverse b := by
  have hmsb : c.reverse.getLsbD 0 = c.msb := by rw [BitVec.getLsbD_reverse, BitVec.msb]
  rw [feedTop, takeBit, hmsb]
  split
  · rw [reverse_xor, reverse_shiftLeft, BitVec.xor_comm]
  · exact reverse_shiftLeft 1

theorem feedTop_false : feedTop p c false = mulX p c := by rw [feedTop, mulX, Bool.xor_false]

theorem reverse_mulX : (mulX p c).reverse = divBit p.reverse c.reverse := by
  rw [← feedTop_false, reverse_feedTop, takeBit, divBit, Bool.xor_false]

theorem reverse_iterate_mulX (n : Nat) :
    ((mulX p)^[n] c).reverse = divBits p.reverse n c.reverse := by
  induction n with
  | zero => rfl
  | succ n ih => rw [Function.iterate_succ_apply', reverse_mulX, ih, divBits_succ]

theorem reverse_foldl_feedTop (bits : List Bool) :
    (bits.foldl (feedTop p) c).reverse = crcBits p.reverse c.reverse bits := by
  induction bits generalizing c with
  | nil => rfl
  | cons b bits ih =>
    rw [List.foldl_cons, ih, reverse_feedTop]
    rfl

/-! ## Bits at the top -/

theorem iterate_mulX_xor (n : Nat) :
    (mulX p)^[n] (c ^^^ d) = (mulX p)^[n] c ^^^ (mulX p)^[n] d := by
  apply reverse_injective
  rw [reverse_iterate_mulX, reverse_xor, reverse_xor, reverse_iterate_mulX, reverse_iterate_mulX,
    divBits_xor]

theorem iterate_mulX_zero (n : Nat) : (mulX p)^[n] 0#w = 0#w := by
  have h := iterate_mulX_xor (p := p) (c := 0#w) (d := 0#w) n
  rwa [BitVec.xor_self, BitVec.xor_self] at h

/-- Taking in the bits of `x` at the top, the highest first, is taking in `x`. -/
theorem foldl_feedTop_highBits (h : n ≤ w) (x : BitVec n) :
    (highBits x).foldl (feedTop p) c = (mulX p)^[n] (c ^^^ x.setWidth w <<< (w - n)) := by
  have hx : (x.setWidth w <<< (w - n)).reverse = x.reverse.setWidth w := by
    apply BitVec.eq_of_getLsbD_eq
    intro i hi
    have hi' : i + (w - n) + n - w = i := by omega
    rw [BitVec.getLsbD_reverse, BitVec.getMsbD_shiftLeft, BitVec.getMsbD_setWidth, hi',
      decide_eq_true (Nat.le_add_left _ i), Bool.true_and, BitVec.getLsbD_setWidth,
      decide_eq_true hi, Bool.true_and, BitVec.getLsbD_reverse]
  apply reverse_injective
  rw [reverse_foldl_feedTop, ← lowBits_reverse, crcBits_lowBits h, reverse_iterate_mulX,
    reverse_xor, hx]

/-- The register, fed to itself, is cleared. -/
theorem foldl_feedTop_self : (highBits c).foldl (feedTop p) c = 0#w := by
  have h := foldl_feedTop_highBits (p := p) (c := c) (Nat.le_refl w) c
  rwa [Nat.sub_self, BitVec.shiftLeft_zero, BitVec.setWidth_eq, BitVec.xor_self,
    iterate_mulX_zero] at h

theorem highBits_append (x : BitVec n) (y : BitVec m) :
    highBits (x ++ y) = highBits x ++ highBits y := by
  rw [highBits, List.range_add, List.map_append, List.map_map]
  congr 1
  · refine List.map_congr_left fun i hi => ?_
    rw [BitVec.getMsbD_append, if_neg (Nat.not_le.mpr (List.mem_range.mp hi))]
  · refine List.map_congr_left fun i _ => ?_
    rw [Function.comp_apply, BitVec.getMsbD_append, if_pos (Nat.le_add_right n i),
      Nat.add_sub_cancel_left]

/-! ## Bits at the bottom -/

theorem feedTop_eq {b : Bool} : feedTop p c b = mulX p c ^^^ if b then p else 0#w := by
  have hcancel : c <<< 1 ^^^ p ^^^ p = c <<< 1 := by
    rw [BitVec.xor_assoc, BitVec.xor_self, BitVec.xor_zero]
  rw [feedTop, mulX]
  cases c.msb with
  | false => cases b <;> simp
  | true =>
    cases b with
    | false => simp
    | true => exact hcancel.symm

/-- A bit at the bottom has gone through the whole register. -/
theorem iterate_mulX_one (hw : 0 < w) : (mulX p)^[w] 1#w = p := by
  obtain ⟨k, rfl⟩ : ∃ k, w = k + 1 := ⟨w - 1, by omega⟩
  have hone : (1#(k + 1)).reverse = BitVec.twoPow (k + 1) k := by
    apply BitVec.eq_of_getLsbD_eq
    intro i hi
    rw [BitVec.getLsbD_reverse, BitVec.getMsbD_eq_getLsbD, BitVec.getLsbD_one,
      BitVec.getLsbD_twoPow]
    grind
  apply reverse_injective
  rw [reverse_iterate_mulX, hone, divBits_succ, divBits_twoPow (Nat.lt_succ_self k),
    divBit_twoPow_zero (Nat.succ_pos k)]

/-- Feeding bits at the bottom and then `w` zeros is feeding the bits at the top. -/
theorem flush_feedBottom (hw : 0 < w) (bits : List Bool) :
    (mulX p)^[w] (bits.foldl (feedBottom p) c) = bits.foldl (feedTop p) ((mulX p)^[w] c) := by
  induction bits generalizing c with
  | nil => rfl
  | cons b bits ih =>
    have hbit : (mulX p)^[w] (feedBottom p c b) = feedTop p ((mulX p)^[w] c) b := by
      rw [feedBottom, iterate_mulX_xor, feedTop_eq, ← Function.iterate_succ_apply,
        Function.iterate_succ_apply']
      cases b with
      | false => simp only [Bool.false_eq_true, if_false, iterate_mulX_zero]
      | true => simp only [if_true, iterate_mulX_one hw]
    rw [List.foldl_cons, ih, List.foldl_cons, hbit]

end McuUtilities
