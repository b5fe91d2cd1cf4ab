import McuUtilities.Lib.Crc

/-!
# Checksums of the bootloader

The table-driven CRC-32 of `fota_crc.c` and the FNV-1a hash of `fota.c`. The CRC table is a global
that `crc32_init` fills, so every function that reads it takes it as an argument. For whatever
polynomial the table was filled, the CRC is the bit-serial one (`fotaStepCrc_pieces`).
-/

namespace McuUtilities.Fota

/-- `crc_tab`, indexed by a byte. -/
abbrev CrcTab : Type := UInt8 → UInt32

/-- The loop of `bitrev` from bit `i` on: `k` bits are left. -/
def bitrevLoop (width : UInt32) : Nat → UInt32 → UInt32 → UInt32 → UInt32
  | 0, _, _, var => var
  | k + 1, i, poly, var =>
    bitrevLoop width k (i + 1) (poly >>> 1)
      (if poly &&& 1 ≠ 0 then var ||| (1 <<< (width - 1 - i)) else var)

/-- `bitrev(poly, width)`: the low `width` bits in reverse order. -/
def bitrev (poly width : UInt32) : UInt32 := bitrevLoop width width.toNat 0 poly 0

/-- One round of the inner loop of `crc32_init`. -/
def crcBit (poly c : UInt32) : UInt32 := if c &&& 1 ≠ 0 then poly ^^^ (c >>> 1) else c >>> 1

/-- `crc32_init(poly)`: the table it leaves in `crc_tab`. -/
def crc32Init (poly : UInt32) : CrcTab := fun i => Nat.iterate (crcBit (bitrev poly 32)) 8 i.toUInt32

/-- `crc32(crc_init, buf, len)` over the bytes of `buf`. -/
def crc32 (tab : CrcTab) (crcInit : UInt32) (buf : List UInt8) : UInt32 :=
  buf.foldl (fun crc b => (crc >>> 8) ^^^ tab (crc ^^^ b.toUInt32).toUInt8) crcInit

/-- `fota_crc(buf, len)`. -/
def fotaCrc (tab : CrcTab) (buf : List UInt8) : UInt32 := crc32 tab 0xffffffff buf ^^^ 0xffffffff

/-- `fota_step_crc(crc, buf, len)`. -/
def fotaStepCrc (tab : CrcTab) (crc : UInt32) (buf : List UInt8) : UInt32 := crc32 tab crc buf

theorem crc32_append {tab : CrcTab} {crc : UInt32} {xs ys : List UInt8} :
    crc32 tab crc (xs ++ ys) = crc32 tab (crc32 tab crc xs) ys := List.foldl_append

/-- `fota_fnv1a_r(onebyte, hash)`. -/
def fotaFnv1aR (onebyte : UInt8) (hash : UInt32) : UInt32 := (onebyte.toUInt32 ^^^ hash) * 16777619

/-- `fota_calc_hash_code(data, len, hash)` over the bytes of `data`. -/
def fotaCalcHashCode (data : List UInt8) (hash : UInt32) : UInt32 :=
  data.foldl (fun h b => fotaFnv1aR b h) hash

/-- The seed `fota_upgrade_verify` and `fota_check_application` start from. -/
def fnvSeed : UInt32 := 2166136261

theorem fotaCalcHashCode_append {xs ys : List UInt8} {h : UInt32} :
    fotaCalcHashCode (xs ++ ys) h = fotaCalcHashCode ys (fotaCalcHashCode xs h) :=
  List.foldl_append

/-! ## The CRC-32 that is computed -/

theorem and_one_ne_zero {c : UInt32} : c &&& 1 ≠ 0 ↔ c.toBitVec.getLsbD 0 = true := by
  rw [Ne, ← UInt32.toBitVec_inj, UInt32.toBitVec_and]
  change c.toBitVec &&& 1#32 ≠ 0#32 ↔ _
  rw [BitVec.and_one_eq_setWidth_ofBool_getLsbD]
  cases c.toBitVec.getLsbD 0 <;> decide

theorem toBitVec_crcBit {p c : UInt32} :
    (crcBit p c).toBitVec = divBit p.toBitVec c.toBitVec := by
  unfold crcBit divBit
  simp only [and_one_ne_zero]
  split <;> simp

theorem toBitVec_iterate_crcBit {p c : UInt32} {n : Nat} :
    ((crcBit p)^[n] c).toBitVec = divBits p.toBitVec n c.toBitVec := by
  induction n with
  | zero => rfl
  | succ n ih => rw [Function.iterate_succ_apply', toBitVec_crcBit, ih, divBits_succ]

theorem toBitVec_crc32Init {poly : UInt32} {i : UInt8} :
    (crc32Init poly i).toBitVec = crcTable (bitrev poly 32).toBitVec i.toBitVec :=
  toBitVec_iterate_crcBit

/-- The table-driven loop computes the reflected CRC of the bytes. -/
theorem toBitVec_crc32 {poly crc : UInt32} {buf : List UInt8} :
    (crc32 (crc32Init poly) crc buf).toBitVec =
      crcBytes (bitrev poly 32).toBitVec crc.toBitVec (buf.map UInt8.toBitVec) := by
  induction buf generalizing crc with
  | nil => rfl
  | cons b buf ih =>
    have hbyte : ((crc >>> 8) ^^^ crc32Init poly (crc ^^^ b.toUInt32).toUInt8).toBitVec =
        crcByte (bitrev poly 32).toBitVec crc.toBitVec b.toBitVec := by
      rw [crcByte_eq_table, UInt32.toBitVec_xor, toBitVec_crc32Init]
      rfl
    rw [List.map_cons, crcBytes, List.foldl_cons, ← hbyte]
    exact ih

/-- The CRC-32 with polynomial `0x04C11DB7`, reflected, that starts from and ends with an exclusive
or with `0xFFFFFFFF`. -/
def standardCrc32 (buf : List UInt8) : UInt32 :=
  ⟨crcBytes 0xEDB88320#32 0xFFFFFFFF#32 (buf.map UInt8.toBitVec) ^^^ 0xFFFFFFFF#32⟩

theorem fotaCrc_eq_standardCrc32 {buf : List UInt8} :
    fotaCrc (crc32Init 0x04c11db7) buf = standardCrc32 buf := by
  have hpoly : (bitrev 0x04c11db7 32).toBitVec = 0xEDB88320#32 := by decide +kernel
  apply UInt32.toBitVec_inj.mp
  rw [fotaCrc, UInt32.toBitVec_xor, toBitVec_crc32, hpoly]
  rfl

/-! ## Any polynomial, any pieces -/

/-- The bits of `1 << i`. -/
theorem getLsbD_one_shiftLeft {i : UInt32} (hi : i.toNat < 32) {j : Nat} (hj : j < 32) :
    ((1 : UInt32) <<< i).toBitVec.getLsbD j = decide (j = i.toNat) := by
  have hmod : (i.toBitVec % 32#32).toNat = i.toNat := by
    rw [BitVec.toNat_umod]
    exact Nat.mod_eq_of_lt hi
  have hlow : ∀ k, (1#32).getLsbD k = decide (k = 0) := fun k => BitVec.getLsbD_one.trans (by simp)
  rw [UInt32.toBitVec_shiftLeft]
  change (1#32 <<< (i.toBitVec % 32#32).toNat).getLsbD j = _
  rw [hmod, BitVec.getLsbD_shiftLeft, decide_eq_true hj, Bool.true_and, hlow]
  grind

/-- What the rounds of `bitrev` that are left do: the lowest `k` bits, in reverse order. -/
theorem getLsbD_bitrevLoop {k : Nat} (hk : k ≤ 32) {i poly var : UInt32} (hi : i.toNat + k = 32)
    {j : Nat} (hj : j < 32) :
    (bitrevLoop 32 k i poly var).toBitVec.getLsbD j =
      (var.toBitVec.getLsbD j || (decide (j < k) && poly.toBitVec.getLsbD (k - 1 - j))) := by
  induction k generalizing i poly var with
  | zero => simp [bitrevLoop]
  | succ k ih =>
    have hi' : (i + 1).toNat + k = 32 := by
      have h1 : (1 : UInt32).toNat = 1 := rfl
      rw [UInt32.toNat_add, h1]
      omega
    have hcount : (32 - 1 - i).toNat = k := by
      have h1 : (1 : UInt32).toNat = 1 := rfl
      have h32 : (32 : UInt32).toNat = 32 := rfl
      rw [UInt32.toNat_sub, UInt32.toNat_sub, h1, h32]
      omega
    have hbit : ((1 : UInt32) <<< (32 - 1 - i)).toBitVec.getLsbD j = decide (j = k) := by
      have hlt : (32 - 1 - i).toNat < 32 := by omega
      rw [getLsbD_one_shiftLeft hlt hj, hcount]
    have hvar : (if poly &&& 1 ≠ 0 then var ||| (1 <<< (32 - 1 - i)) else var).toBitVec.getLsbD j =
        (var.toBitVec.getLsbD j || (decide (j = k) && poly.toBitVec.getLsbD 0)) := by
      simp only [and_one_ne_zero]
      cases poly.toBitVec.getLsbD 0 with
      | false => simp
      | true => simp only [if_true, UInt32.toBitVec_or, BitVec.getLsbD_or, hbit, Bool.and_true]
    have hrest : (poly >>> 1).toBitVec.getLsbD (k - 1 - j) =
        poly.toBitVec.getLsbD (1 + (k - 1 - j)) := by
      rw [UInt32.toBitVec_shiftRight]
      change (poly.toBitVec >>> 1).getLsbD (k - 1 - j) = _
      rw [BitVec.getLsbD_ushiftRight]
    rw [bitrevLoop, ih (by omega) hi', hvar, hrest, Bool.or_assoc]
    rcases Nat.lt_trichotomy j k with hjk | rfl | hjk
    · have hpos : 1 + (k - 1 - j) = k + 1 - 1 - j := by omega
      rw [hpos, decide_eq_false (Nat.ne_of_lt hjk), decide_eq_true hjk,
        decide_eq_true (Nat.lt_succ_of_lt hjk), Bool.false_and, Bool.false_or]
    · have hpos : j + 1 - 1 - j = 0 := by omega
      rw [hpos, decide_eq_true rfl, decide_eq_false (Nat.lt_irrefl j),
        decide_eq_true (Nat.lt_succ_self j), Bool.false_and, Bool.or_false]
    · have h1 : ¬ j < k := by omega
      have h2 : ¬ j < k + 1 := by omega
      rw [decide_eq_false (Nat.ne_of_gt hjk), decide_eq_false h1, decide_eq_false h2]
      simp only [Bool.false_and, Bool.or_false]

/-- `bitrev(poly, 32)` is `poly` with its bits in reverse order. -/
theorem toBitVec_bitrev {poly : UInt32} : (bitrev poly 32).toBitVec = poly.toBitVec.reverse := by
  apply BitVec.eq_of_getLsbD_eq
  intro j hj
  have hzero : (0 : UInt32).toBitVec.getLsbD j = false := BitVec.getLsbD_zero
  rw [BitVec.getLsbD_reverse, bitrev]
  refine (getLsbD_bitrevLoop (k := 32) (i := 0) (by decide) rfl hj).trans ?_
  rw [hzero, Bool.false_or, decide_eq_true hj, Bool.true_and, BitVec.getMsbD, decide_eq_true hj,
    Bool.true_and]

/-- The bits of a message, those of each byte from the lowest on. -/
def messageBits (buf : List UInt8) : List Bool := buf.flatMap fun b => lowBits b.toBitVec

/-- The bit-serial CRC-32 with the reflected polynomial `p`, that starts from and ends with an
exclusive or with `0xFFFFFFFF`. -/
def bitwiseCrc32 (p : BitVec 32) (buf : List UInt8) : UInt32 :=
  ⟨crcBits p 0xFFFFFFFF#32 (messageBits buf) ^^^ 0xFFFFFFFF#32⟩

theorem fotaCrc_eq_bitwiseCrc32 {poly : UInt32} {buf : List UInt8} :
    fotaCrc (crc32Init poly) buf = bitwiseCrc32 poly.toBitVec.reverse buf := by
  apply UInt32.toBitVec_inj.mp
  rw [fotaCrc, UInt32.toBitVec_xor, toBitVec_crc32, toBitVec_bitrev, bitwiseCrc32, messageBits,
    crcBits_flatMap_lowBits (by decide)]
  rfl

/-- Stepping through the pieces of a buffer. -/
theorem foldl_fotaStepCrc {tab : CrcTab} {crc : UInt32} {pieces : List (List UInt8)} :
    pieces.foldl (fotaStepCrc tab) crc = crc32 tab crc pieces.flatten := by
  induction pieces generalizing crc with
  | nil => rfl
  | cons piece pieces ih =>
    rw [List.foldl_cons, ih, List.flatten_cons, crc32_append]
    rfl

/-- After `crc32_init(poly)`, for any polynomial: however a buffer is cut into pieces, stepping
through them gives its `fota_crc`, which is the bit-serial CRC-32. -/
theorem fotaStepCrc_pieces (poly : UInt32) (pieces : List (List UInt8)) :
    pieces.foldl (fotaStepCrc (crc32Init poly)) 0xffffffff ^^^ 0xffffffff =
        fotaCrc (crc32Init poly) pieces.flatten ∧
      fotaCrc (crc32Init poly) pieces.flatten =
        bitwiseCrc32 (bitrev poly 32).toBitVec pieces.flatten ∧
      (bitrev poly 32).toBitVec = poly.toBitVec.reverse := by
  refine ⟨?_, ?_, toBitVec_bitrev⟩
  · rw [foldl_fotaStepCrc]
    rfl
  · rw [toBitVec_bitrev]
    exact fotaCrc_eq_bitwiseCrc32

end McuUtilities.Fota
