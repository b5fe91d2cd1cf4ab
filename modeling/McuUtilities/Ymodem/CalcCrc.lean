import McuUtilities.Lib.CrcForward
import McuUtilities.Ymodem.Packet

/-!
# The CRC of a packet

`ymodem_calc_crc` and the `crc16` of the other receiver in the repository (`Sfu_src/ymodem.c`). The one
takes the data in at the top of its register, the other at the bottom, followed by sixteen zero bits;
they compute the same (`crc16_eq_ymodemCalcCrc`).
-/

namespace McuUtilities.Ymodem

/-- `crc_update(crc_in, incr)`. -/
def crcUpdate (crcIn : UInt16) (incr : UInt8) : UInt16 :=
  let xor := crcIn >>> 15
  let out := crcIn <<< 1
  let out := if incr ≠ 0 then out + 1 else out
  if xor ≠ 0 then out ^^^ 0x1021 else out

/-- The values of `i` in the inner loop of `crc16`. -/
def crcMasks : List UInt8 := [0x80, 0x40, 0x20, 0x10, 0x08, 0x04, 0x02, 0x01]

/-- `crc16(pdata, size)`. -/
def crc16 (pdata : List UInt8) (size : UInt16) : UInt16 :=
  let crc := (pdata.take size.toNat).foldl
    (fun crc b => crcMasks.foldl (fun crc i => crcUpdate crc (b &&& i)) crc) 0
  Nat.iterate (fun crc => crcUpdate crc 0) 16 crc

/-- The polynomial of both. -/
abbrev crcPoly : BitVec 16 := 0x1021#16

/-- The bits of a message, those of each byte from the highest on. -/
def messageBits (data : List UInt8) : List Bool := data.flatMap fun b => highBits b.toBitVec

variable {crc : UInt16} {data : List UInt8}

theorem messageBits_cons {b : UInt8} :
    messageBits (b :: data) = highBits b.toBitVec ++ messageBits data := List.flatMap_cons

theorem messageBits_append {xs ys : List UInt8} :
    messageBits (xs ++ ys) = messageBits xs ++ messageBits ys := List.flatMap_append

/-! ## The direct form -/

theorem and_0x8000_ne_zero : crc &&& 0x8000 ≠ 0 ↔ crc.toBitVec.msb = true := by
  rw [Ne, ← UInt16.toBitVec_inj, UInt16.toBitVec_and]
  change crc.toBitVec &&& BitVec.twoPow 16 15 ≠ 0#16 ↔ _
  rw [BitVec.and_twoPow, BitVec.msb_eq_getLsbD_last]
  cases crc.toBitVec.getLsbD 15 <;> decide

theorem toBitVec_calcCrcBit : (calcCrcBit crc).toBitVec = mulX crcPoly crc.toBitVec := by
  unfold calcCrcBit mulX
  simp only [and_0x8000_ne_zero]
  split <;> rfl

theorem toBitVec_iterate_calcCrcBit {n : Nat} :
    (Nat.iterate calcCrcBit n crc).toBitVec = (mulX crcPoly)^[n] crc.toBitVec := by
  induction n with
  | zero => rfl
  | succ n ih => rw [Function.iterate_succ_apply', toBitVec_calcCrcBit, ih, Function.iterate_succ_apply']

/-- `ymodem_calc_crc`, bit by bit. -/
theorem toBitVec_ymodemCalcCrc :
    (ymodemCalcCrc data).toBitVec = (messageBits data).foldl (feedTop crcPoly) 0#16 := by
  have hfold : ∀ crc : UInt16, (data.foldl (fun crc b =>
      Nat.iterate calcCrcBit 8 (crc ^^^ b.toUInt16 <<< (8 : UInt16))) crc).toBitVec =
      (messageBits data).foldl (feedTop crcPoly) crc.toBitVec := by
    induction data with
    | nil => exact fun _ => rfl
    | cons b data ih =>
      intro crc
      rw [List.foldl_cons, ih, toBitVec_iterate_calcCrcBit, messageBits_cons,
        List.foldl_append, foldl_feedTop_highBits (by decide)]
      rfl
  exact hfold 0

/-! ## The augmented form -/

theorem shiftRight_15_ne_zero : crc >>> 15 ≠ 0 ↔ crc.toBitVec.msb = true := by
  have hlt := crc.toNat_lt
  have hdiv : (crc >>> 15).toNat = crc.toNat / 2 ^ 15 := by
    rw [UInt16.toNat_shiftRight, Nat.shiftRight_eq_div_pow]
    rfl
  have h0 : (0 : UInt16).toNat = 0 := rfl
  rw [Ne, ← UInt16.toNat_inj, hdiv, h0, BitVec.msb_eq_decide, decide_eq_true_iff]
  change ¬ crc.toNat / 2 ^ 15 = 0 ↔ 2 ^ 15 ≤ crc.toNat
  omega

theorem shiftLeft_add_one (c : BitVec 16) : c <<< 1 + 1#16 = c <<< 1 ^^^ 1#16 := by
  have hand : c <<< 1 &&& 1#16 = 0#16 := by
    apply BitVec.eq_of_getLsbD_eq
    intro i _
    rw [BitVec.getLsbD_and, BitVec.getLsbD_shiftLeft, BitVec.getLsbD_one]
    cases i <;> simp
  rw [BitVec.add_eq_or_of_and_eq_zero _ _ hand]
  apply BitVec.eq_of_getLsbD_eq
  intro i _
  have := congrArg (fun x => x.getLsbD i) hand
  simp only [BitVec.getLsbD_and, BitVec.getLsbD_zero] at this
  rw [BitVec.getLsbD_or, BitVec.getLsbD_xor]
  cases hx : (c <<< 1).getLsbD i <;> cases hy : (1#16).getLsbD i <;> simp_all

theorem toBitVec_crcUpdate {incr : UInt8} :
    (crcUpdate crc incr).toBitVec = feedBottom crcPoly crc.toBitVec (incr ≠ 0) := by
  have hout : (if incr ≠ 0 then crc <<< 1 + 1 else crc <<< 1).toBitVec =
      crc.toBitVec <<< 1 ^^^ if decide (incr ≠ 0) = true then 1#16 else 0#16 := by
    by_cases hincr : incr = 0
    · simp [hincr]
    · simp only [ne_eq, hincr, not_false_eq_true, if_true, decide_true]
      exact shiftLeft_add_one crc.toBitVec
  simp only [crcUpdate, feedBottom, mulX, shiftRight_15_ne_zero]
  split
  · rw [UInt16.toBitVec_xor, hout, BitVec.xor_assoc, BitVec.xor_assoc]
    congr 1
    exact BitVec.xor_comm _ _
  · exact hout

theorem map_crcMasks (b : UInt8) : crcMasks.map (fun i => decide (b &&& i ≠ 0)) = highBits b.toBitVec := by
  have hall : ∀ n < 256, crcMasks.map (fun i => decide (UInt8.ofNat n &&& i ≠ 0)) =
      highBits (UInt8.ofNat n).toBitVec := by decide +kernel
  have h := hall b.toNat b.toNat_lt
  rwa [UInt8.ofNat_toNat] at h

theorem toBitVec_foldl_crcUpdate {b : UInt8} {masks : List UInt8} :
    (masks.foldl (fun crc i => crcUpdate crc (b &&& i)) crc).toBitVec =
      (masks.map fun i => decide (b &&& i ≠ 0)).foldl (feedBottom crcPoly) crc.toBitVec := by
  induction masks generalizing crc with
  | nil => rfl
  | cons i masks ih => rw [List.foldl_cons, ih, toBitVec_crcUpdate, List.map_cons, List.foldl_cons]

theorem toBitVec_iterate_crcUpdate {n : Nat} :
    (Nat.iterate (fun crc => crcUpdate crc 0) n crc).toBitVec = (mulX crcPoly)^[n] crc.toBitVec := by
  induction n with
  | zero => rfl
  | succ n ih =>
    rw [Function.iterate_succ_apply', toBitVec_crcUpdate, ih, Function.iterate_succ_apply']
    exact BitVec.xor_zero

/-- `crc16`, bit by bit. -/
theorem toBitVec_crc16 (h : data.length < 2 ^ 16) :
    (crc16 data (UInt16.ofNat data.length)).toBitVec =
      (mulX crcPoly)^[16] ((messageBits data).foldl (feedBottom crcPoly) 0#16) := by
  have hfold : ∀ crc : UInt16, (data.foldl (fun crc b =>
      crcMasks.foldl (fun crc i => crcUpdate crc (b &&& i)) crc) crc).toBitVec =
      (messageBits data).foldl (feedBottom crcPoly) crc.toBitVec := by
    clear h
    induction data with
    | nil => exact fun _ => rfl
    | cons b data ih =>
      intro crc
      rw [List.foldl_cons, ih, toBitVec_foldl_crcUpdate, map_crcMasks, messageBits_cons,
        List.foldl_append]
  rw [crc16, UInt16.toNat_ofNat_of_lt' h, List.take_length, toBitVec_iterate_crcUpdate, hfold]
  rfl

/-! ## Agreement -/

theorem crc16_eq_ymodemCalcCrc (h : data.length < 2 ^ 16) :
    crc16 data (UInt16.ofNat data.length) = ymodemCalcCrc data := by
  apply UInt16.toBitVec_inj.mp
  rw [toBitVec_crc16 h, toBitVec_ymodemCalcCrc, flush_feedBottom (by decide), iterate_mulX_zero]

theorem messageBits_crcBytes : messageBits (crcBytes crc) = highBits crc.toBitVec := by
  have hcrc : crc.toBitVec = (crc >>> 8).toUInt8.toBitVec ++ crc.toUInt8.toBitVec :=
    (high_append_low (n := 8) (m := 8) crc.toBitVec).symm
  rw [hcrc, highBits_append]
  simp [messageBits, crcBytes]

/-- Data followed by its CRC has CRC zero. -/
theorem ymodemCalcCrc_append_crcBytes : ymodemCalcCrc (data ++ crcBytes (ymodemCalcCrc data)) = 0 := by
  apply UInt16.toBitVec_inj.mp
  rw [toBitVec_ymodemCalcCrc, messageBits_append, List.foldl_append, ← toBitVec_ymodemCalcCrc,
    messageBits_crcBytes, foldl_feedTop_self]
  rfl

/-- The two receivers compute the same CRC, and a message followed by its CRC, the high byte first,
has CRC zero. -/
theorem calcCrc_agree (data : List UInt8) (h : data.length ≤ 65533) :
    ymodemCalcCrc data = crc16 data (UInt16.ofNat data.length) ∧
      ymodemCalcCrc (data ++ crcBytes (ymodemCalcCrc data)) = 0 :=
  ⟨(crc16_eq_ymodemCalcCrc (by omega)).symm, ymodemCalcCrc_append_crcBytes⟩

theorem calcCrc_agree_digits :
    ymodemCalcCrc [0x31, 0x32, 0x33] = 0x9752 ∧ crc16 [0x31, 0x32, 0x33] 3 = 0x9752 ∧
      ymodemCalcCrc [0x31, 0x32, 0x33, 0x97, 0x52] = 0 := by
  have h := calcCrc_agree [0x31, 0x32, 0x33] (by decide)
  have hcrc : ymodemCalcCrc [0x31, 0x32, 0x33] = 0x9752 := by decide +kernel
  rw [hcrc] at h
  exact ⟨hcrc, h.1.symm, h.2⟩

end McuUtilities.Ymodem
