import McuUtilities.Lib.RoundCipher
import McuUtilities.Tinycrypt.Aes

/-!
# The rounds of `tiny_aes.c`

A round merges the S-box, the rotation of the rows and the mixing of the columns into four table
lookups a word. Taken apart, the rounds of `tiny_aes_crypt_ecb` are those of a
substitution-permutation cipher, and its decrypting rounds those of the inverse cipher.
-/

namespace McuUtilities.Tinycrypt

/-! ## Bytes of words -/

section bytes
variable {w v : BitVec 32} {b : BitVec 8} {j k : Nat}

theorem getLsbD_byte {i : Nat} (hi : i < 8) : (byte w j).getLsbD i = w.getLsbD (8 * j + i) := by
  simp [byte, hi]

@[simp] theorem byte_xor : byte (w ^^^ v) j = byte w j ^^^ byte v j := BitVec.extractLsb'_xor

@[simp] theorem byte_or : byte (w ||| v) j = byte w j ||| byte v j := BitVec.extractLsb'_or

theorem byte_shifted (hk : k < 4) : byte (shifted b j) k = if j = k then b else 0#8 := by
  apply BitVec.eq_of_getLsbD_eq
  intro i hi
  rw [getLsbD_byte hi, shifted, BitVec.getLsbD_shiftLeft, BitVec.getLsbD_setWidth]
  rcases Nat.lt_trichotomy j k with h | h | h
  · rw [if_neg (by omega), BitVec.getLsbD_of_ge b _ (by omega)]
    simp
  · subst h
    have h1 : 8 * j + i < 32 := by omega
    have h2 : i < 32 := by omega
    simp [h1, h2]
  · have h1 : 8 * k + i < 8 * j := by omega
    have h2 : j ≠ k := by omega
    simp [h1, h2]

theorem ext_byte (h : ∀ j, j < 4 → byte w j = byte v j) : w = v := by
  apply BitVec.eq_of_getLsbD_eq
  intro i hi
  have hbit := congrArg (·.getLsbD (i % 8)) (h (i / 8) (by omega))
  have hmod : i % 8 < 8 := Nat.mod_lt i (by decide)
  have hi' : 8 * (i / 8) + i % 8 = i := Nat.div_add_mod i 8
  simpa only [getLsbD_byte hmod, hi'] using hbit

@[simp] theorem byte_lastWord {Sb : BitVec 8 → BitVec 8} {y0 y1 y2 y3 : BitVec 32} :
    byte (lastWord Sb y0 y1 y2 y3) 0 = Sb (byte y0 0) ∧
    byte (lastWord Sb y0 y1 y2 y3) 1 = Sb (byte y1 1) ∧
    byte (lastWord Sb y0 y1 y2 y3) 2 = Sb (byte y2 2) ∧
    byte (lastWord Sb y0 y1 y2 y3) 3 = Sb (byte y3 3) := by
  simp [lastWord, byte_shifted]

end bytes

/-! ## The layers of a round -/

/-- The mixing of a column: a word of `AES_FROUND` whose S-box is undone. -/
def mixColumn (w : BitVec 32) : BitVec 32 :=
  FT0 (RSb (byte w 0)) ^^^ FT1 (RSb (byte w 1)) ^^^ FT2 (RSb (byte w 2)) ^^^ FT3 (RSb (byte w 3))

theorem xorLinear_byte (j : Nat) : XorLinear fun w => byte w j := XorLinear.extractLsb' (8 * j) 8

theorem xorLinear_rotl8 : XorLinear rotl8 := by
  intro x y
  apply BitVec.eq_of_getLsbD_eq
  intro i hi
  have hones : (0xFFFFFFFF#32).getLsbD i = true := by
    rw [show 0xFFFFFFFF#32 = BitVec.allOnes 32 from rfl, BitVec.getLsbD_allOnes]
    exact decide_eq_true hi
  simp only [rotl8, BitVec.getLsbD_or, BitVec.getLsbD_and, BitVec.getLsbD_xor,
    BitVec.getLsbD_shiftLeft, BitVec.getLsbD_ushiftRight, hones, hi]
  by_cases h : i < 8
  · simp [h]
  · simp [h, BitVec.getLsbD_of_ge x (24 + i) (by omega), BitVec.getLsbD_of_ge y (24 + i) (by omega)]

/-- Four rotations of a linear table, one for each byte of a word. -/
theorem xorLinear_columns {t : BitVec 8 → BitVec 32} (h : XorLinear t) :
    XorLinear fun w => t (byte w 0) ^^^ rotl8 (t (byte w 1)) ^^^ rotl8 (rotl8 (t (byte w 2))) ^^^
      rotl8 (rotl8 (rotl8 (t (byte w 3)))) := by
  have hrot := xorLinear_rotl8
  have hbyte : ∀ j, XorLinear fun w => t (byte w j) := fun j => h.comp (xorLinear_byte j)
  exact (((hbyte 0).xor (hrot.comp (hbyte 1))).xor (hrot.comp (hrot.comp (hbyte 2)))).xor
    (hrot.comp (hrot.comp (hrot.comp (hbyte 3))))

theorem xorLinear_mixColumn : XorLinear mixColumn := by
  intro x y
  simpa only [mixColumn, FT1, FT2, FT3] using xorLinear_columns xorLinear_FT0 x y

theorem xorLinear_mixKey : XorLinear mixKey := by
  intro x y
  simpa only [mixKey, RT1, RT2, RT3] using xorLinear_columns xorLinear_RT0 x y

theorem mixKey_mixColumn (w : BitVec 32) : mixKey (mixColumn w) = w := by
  refine XorLinear.ext (xorLinear_mixKey.comp xorLinear_mixColumn) XorLinear.id ?_ w
  simp only [mixKey, mixColumn, RT1, RT2, RT3, RT0, FT1, FT2, FT3, FT0, FSb_RSb, RSb_FSb, mul,
    powLog_eq]
  decide +kernel

theorem mixColumn_mixKey (w : BitVec 32) : mixColumn (mixKey w) = w := by
  refine XorLinear.ext (xorLinear_mixColumn.comp xorLinear_mixKey) XorLinear.id ?_ w
  simp only [mixKey, mixColumn, RT1, RT2, RT3, RT0, FT1, FT2, FT3, FT0, FSb_RSb, RSb_FSb, mul,
    powLog_eq]
  decide +kernel

theorem fword_eq {y0 y1 y2 y3 : BitVec 32} :
    fword y0 y1 y2 y3 = mixColumn (lastWord FSb y0 y1 y2 y3) := by
  simp only [fword, mixColumn, byte_lastWord, RSb_FSb]

theorem rword_eq {y0 y1 y2 y3 : BitVec 32} :
    rword y0 y1 y2 y3 = mixKey (lastWord RSb y0 y1 y2 y3) := by
  simp only [rword, mixKey, byte_lastWord, FSb_RSb]

/-- `f` on each word. -/
def Words.map (f : BitVec 32 → BitVec 32) (a : Words) : Words := ⟨f a.x0, f a.x1, f a.x2, f a.x3⟩

/-- The S-box on every byte, and the rows rotated. -/
def subShift (y : Words) : Words :=
  ⟨lastWord FSb y.x0 y.x1 y.x2 y.x3, lastWord FSb y.x1 y.x2 y.x3 y.x0,
    lastWord FSb y.x2 y.x3 y.x0 y.x1, lastWord FSb y.x3 y.x0 y.x1 y.x2⟩

/-- The reverse S-box on every byte, and the rows rotated back. -/
def subShiftInv (y : Words) : Words :=
  ⟨lastWord RSb y.x0 y.x3 y.x2 y.x1, lastWord RSb y.x1 y.x0 y.x3 y.x2,
    lastWord RSb y.x2 y.x1 y.x0 y.x3, lastWord RSb y.x3 y.x2 y.x1 y.x0⟩

theorem ext_bytes {w v : BitVec 32} (h0 : byte w 0 = byte v 0) (h1 : byte w 1 = byte v 1)
    (h2 : byte w 2 = byte v 2) (h3 : byte w 3 = byte v 3) : w = v :=
  ext_byte fun
    | 0, _ => h0
    | 1, _ => h1
    | 2, _ => h2
    | 3, _ => h3
    | _ + 4, h => absurd h (by omega)

theorem subShiftInv_subShift (y : Words) : subShiftInv (subShift y) = y := by
  apply Words.ext <;> apply ext_bytes <;> simp [subShiftInv, subShift]

theorem subShift_subShiftInv (y : Words) : subShift (subShiftInv y) = y := by
  apply Words.ext <;> apply ext_bytes <;> simp [subShiftInv, subShift]

/-- The layers of the rounds. -/
def aesLayers : RoundLayers Words where
  add := Words.xor
  sub := subShift
  mix := Words.map mixColumn
  subInv := subShiftInv
  mixInv := Words.map mixKey
  add_cancel s k := by
    apply Words.ext <;> exact (BitVec.xor_assoc _ _ _).trans (by rw [BitVec.xor_self, BitVec.xor_zero])
  subInv_sub := subShiftInv_subShift
  sub_subInv := subShift_subShiftInv
  mixInv_mix s := by apply Words.ext <;> exact mixKey_mixColumn _
  mix_mixInv s := by apply Words.ext <;> exact mixColumn_mixKey _
  mixInv_add s k := by apply Words.ext <;> exact xorLinear_mixKey _ _

/-! ## The rounds -/

/-- The round key `i` of a context. -/
def roundKey (buf : RoundKeys) (i : Nat) : Words := wordsAt buf (4 * i)

theorem aesFround_eq {rk y : Words} :
    aesFround rk y = aesLayers.add (aesLayers.mix (aesLayers.sub y)) rk := by
  apply Words.ext <;> exact (congrArg _ fword_eq).trans (BitVec.xor_comm _ _)

theorem aesRround_eq {rk y : Words} :
    aesRround rk y = aesLayers.inverse.add (aesLayers.inverse.mix (aesLayers.inverse.sub y)) rk := by
  apply Words.ext <;> exact (congrArg _ rword_eq).trans (BitVec.xor_comm _ _)

theorem lastFround_eq {rk y : Words} : lastFround rk y = aesLayers.add (aesLayers.sub y) rk := by
  apply Words.ext <;> exact BitVec.xor_comm _ _

theorem lastRround_eq {rk y : Words} :
    lastRround rk y = aesLayers.inverse.add (aesLayers.inverse.sub y) rk := by
  apply Words.ext <;> exact BitVec.xor_comm _ _

section rounds
variable {L : RoundLayers Words} {round last : Words → Words → Words}

theorem doubleRounds_eq (hround : ∀ rk y, round rk y = L.add (L.mix (L.sub y)) rk)
    {buf : RoundKeys} {x : Words} {i j : Nat} :
    doubleRounds round buf i (4 * (j + 1)) (L.rounds (roundKey buf) x j) =
      (L.rounds (roundKey buf) x (j + 2 * i), 4 * (j + 2 * i + 1)) := by
  induction i generalizing j with
  | zero => rfl
  | succ i ih =>
    have h1 : round (wordsAt buf (4 * (j + 1))) (L.rounds (roundKey buf) x j) =
        L.rounds (roundKey buf) x (j + 1) := hround _ _
    have h2 : round (wordsAt buf (4 * (j + 1) + 4)) (L.rounds (roundKey buf) x (j + 1)) =
        L.rounds (roundKey buf) x (j + 2) := hround _ _
    rw [doubleRounds, h1, h2, show 4 * (j + 1) + 8 = 4 * (j + 2 + 1) by omega, ih,
      show j + 2 + 2 * i = j + 2 * (i + 1) by omega]

theorem cryptRounds_eq (hround : ∀ rk y, round rk y = L.add (L.mix (L.sub y)) rk)
    (hlast : ∀ rk y, last rk y = L.add (L.sub y) rk) {ctx : AesContext} {m : Nat}
    (hnr : ctx.nr = 2 * m + 2) (x : Words) :
    cryptRounds round last ctx (L.add x (roundKey ctx.buf 0)) =
      L.crypt (roundKey ctx.buf) (2 * m + 1) x := by
  have hm : (ctx.nr >>> 1) - 1 = m := by
    rw [hnr, Nat.shiftRight_eq_div_pow]
    omega
  have hloop : doubleRounds round ctx.buf m 4 (L.add x (roundKey ctx.buf 0)) =
      (L.rounds (roundKey ctx.buf) x (2 * m), 4 * (2 * m + 1)) := by
    have := @doubleRounds_eq L round hround ctx.buf x m 0
    rwa [show 0 + 2 * m = 2 * m from Nat.zero_add _] at this
  rw [cryptRounds, hm, hloop]
  show last (roundKey ctx.buf (2 * m + 2)) (round (roundKey ctx.buf (2 * m + 1)) _) = _
  rw [hlast, hround]
  rfl

end rounds

end McuUtilities.Tinycrypt
