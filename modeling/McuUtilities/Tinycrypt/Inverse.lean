import McuUtilities.Tinycrypt.KeySchedule
import McuUtilities.Fota.Cbc

/-!
# Decryption undoes encryption

For every key of an allowed size `tiny_aes_crypt_ecb` with the schedule of `tiny_aes_setkey_dec` undoes
it with that of `tiny_aes_setkey_enc`, and the other way round, so the block cipher is a permutation of
the blocks of 16 bytes, as `fota.c` and the CBC mode take it to be.
-/

namespace McuUtilities.Tinycrypt

/-! ## Blocks and words -/

/-- `GET_ULONG_LE` at the four words of a block. -/
def loadBlock (b : List UInt8) : Words :=
  ⟨getUlongLe b 0, getUlongLe b 4, getUlongLe b 8, getUlongLe b 12⟩

/-- `PUT_ULONG_LE` of the four words of a block. -/
def storeBlock (x : Words) : List UInt8 :=
  putUlongLe x.x0 ++ putUlongLe x.x1 ++ putUlongLe x.x2 ++ putUlongLe x.x3

@[simp] theorem byte_getUlongLe {b : List UInt8} {i : Nat} :
    byte (getUlongLe b i) 0 = (b.getD i 0).toBitVec ∧
    byte (getUlongLe b i) 1 = (b.getD (i + 1) 0).toBitVec ∧
    byte (getUlongLe b i) 2 = (b.getD (i + 2) 0).toBitVec ∧
    byte (getUlongLe b i) 3 = (b.getD (i + 3) 0).toBitVec := by
  simp [getUlongLe, byte_shifted]

@[simp] theorem length_storeBlock {x : Words} : (storeBlock x).length = 16 := rfl

theorem loadBlock_storeBlock (x : Words) : loadBlock (storeBlock x) = x := by
  apply Words.ext <;> apply ext_bytes <;> simp only [loadBlock, byte_getUlongLe] <;> rfl

theorem storeBlock_loadBlock {b : List UInt8} (h : b.length = 16) : storeBlock (loadBlock b) = b := by
  have hb : (List.range 16).map (fun i => b.getD i 0) = b := by
    apply List.ext_getElem
    · simp [h]
    · intro i h1 h2
      simp [h2]
  refine Eq.trans ?_ hb
  simp only [storeBlock, putUlongLe, loadBlock, byte_getUlongLe, UInt8.ofBitVec_toBitVec]
  rfl

/-! ## The cipher -/

section cipher
variable {ctx cty : AesContext} {key b : List UInt8} {keysize nr : Nat}

theorem even_rounds? (h : rounds? keysize = some nr) : nr = 2 * (nr / 2 - 1) + 2 := by
  have := rounds?_cases h
  omega

theorem aesCryptEcb_encrypt (h : rounds? keysize = some nr) :
    aesCryptEcb (aesSetkeyEnc ctx key keysize) .encrypt b =
      storeBlock (aesLayers.crypt (roundKey (aesSetkeyEnc ctx key keysize).buf) (nr - 1)
        (loadBlock b)) := by
  have hnr := even_rounds? h
  have hcrypt := cryptRounds_eq (fun _ _ => aesFround_eq) (fun _ _ => lastFround_eq)
    ((nr_aesSetkeyEnc ctx key h).trans hnr) (loadBlock b)
  rw [show nr - 1 = 2 * (nr / 2 - 1) + 1 by omega, ← hcrypt]
  rfl

theorem aesCryptEcb_decrypt (h : rounds? keysize = some nr) :
    aesCryptEcb (aesSetkeyDec ctx cty key keysize) .decrypt b =
      storeBlock (aesLayers.inverse.crypt (roundKey (aesSetkeyDec ctx cty key keysize).buf) (nr - 1)
        (loadBlock b)) := by
  have hnr := even_rounds? h
  have hctx : (aesSetkeyDec ctx cty key keysize).nr = nr := by rw [aesSetkeyDec, h]
  have hcrypt := cryptRounds_eq (fun _ _ => aesRround_eq) (fun _ _ => lastRround_eq)
    (hctx.trans hnr) (loadBlock b)
  rw [show nr - 1 = 2 * (nr / 2 - 1) + 1 by omega, ← hcrypt]
  rfl

/-- What the context held before does not matter. -/
theorem crypt_aesSetkeyEnc (ctx cty : AesContext) (h : rounds? keysize = some nr) (x : Words) :
    aesLayers.crypt (roundKey (aesSetkeyEnc ctx key keysize).buf) (nr - 1) x =
      aesLayers.crypt (roundKey (aesSetkeyEnc cty key keysize).buf) (nr - 1) x := by
  have hnr := rounds?_cases h
  have hagree := agree_aesSetkeyEnc ctx cty key h
  refine RoundLayers.crypt_congr fun j hj => ?_
  simp only [roundKey, wordsAt]
  rw [hagree _ (by omega), hagree _ (by omega), hagree _ (by omega), hagree _ (by omega)]

theorem decrypt_encrypt_block (hsize : (rounds? keysize).isSome) (ctx ctx' cty : AesContext)
    (hb : b.length = 16) : aesCryptEcb (aesSetkeyDec ctx' cty key keysize) .decrypt
      (aesCryptEcb (aesSetkeyEnc ctx key keysize) .encrypt b) = b := by
  obtain ⟨nr, h⟩ := Option.isSome_iff_exists.mp hsize
  have hkeys := inverseKeys_aesSetkeyDec ctx' cty key h
  rw [aesCryptEcb_decrypt h, aesCryptEcb_encrypt h, loadBlock_storeBlock, crypt_aesSetkeyEnc ctx cty h,
    RoundLayers.crypt_inverse hkeys, storeBlock_loadBlock hb]

theorem encrypt_decrypt_block (hsize : (rounds? keysize).isSome) (ctx ctx' cty : AesContext)
    (hb : b.length = 16) : aesCryptEcb (aesSetkeyEnc ctx key keysize) .encrypt
      (aesCryptEcb (aesSetkeyDec ctx' cty key keysize) .decrypt b) = b := by
  obtain ⟨nr, h⟩ := Option.isSome_iff_exists.mp hsize
  have hkeys := inverseKeys_aesSetkeyDec ctx' cty key h
  rw [aesCryptEcb_encrypt h, aesCryptEcb_decrypt h, loadBlock_storeBlock, crypt_aesSetkeyEnc ctx cty h]
  exact (congrArg storeBlock (RoundLayers.crypt_inverse hkeys.symm)).trans (storeBlock_loadBlock hb)

/-- Decrypting a block with the decryption schedule of a key undoes encrypting it with the
encryption schedule, and the other way round. -/
theorem aesCryptEcb_inverse (keysize : Nat) (hsize : (rounds? keysize).isSome) (key : List UInt8)
    (ctx ctx' cty : AesContext) (b : List UInt8) (hb : b.length = 16) :
    let enc := aesCryptEcb (aesSetkeyEnc ctx key keysize) .encrypt
    let dec := aesCryptEcb (aesSetkeyDec ctx' cty key keysize) .decrypt
    dec (enc b) = b ∧ enc (dec b) = b :=
  ⟨decrypt_encrypt_block hsize ctx ctx' cty hb, encrypt_decrypt_block hsize ctx ctx' cty hb⟩

/-- The 256-bit key and the block of the sample program. -/
theorem aesCryptEcb_inverse_sample :
    let ctx : AesContext := ⟨0, Vector.replicate 68 0⟩
    let key : List UInt8 := [0x30, 0x31, 0x32, 0x33, 0x34, 0x35, 0x36, 0x37, 0x38, 0x39, 0x41, 0x42, 0x43,
      0x44, 0x45, 0x46, 0x30, 0x31, 0x32, 0x33, 0x34, 0x35, 0x36, 0x37, 0x38, 0x39, 0x41, 0x42, 0x43,
      0x44, 0x45, 0x46]
    let b : List UInt8 := [0x31, 0x32, 0x33, 0x34, 0x35, 0x36, 0x37, 0x38, 0x39, 0x30, 0x31, 0x32, 0x33,
      0x34, 0x35, 0x36]
    let enc := aesCryptEcb (aesSetkeyEnc ctx key 256) .encrypt
    let dec := aesCryptEcb (aesSetkeyDec ctx ctx key 256) .decrypt
    dec (enc b) = b ∧ enc (dec b) = b :=
  aesCryptEcb_inverse 256 rfl _ _ _ _ _ rfl

theorem length_aesCryptEcb (ctx : AesContext) (mode : Mode) (b : List UInt8) :
    (aesCryptEcb ctx mode b).length = 16 := rfl

/-- The permutation of the blocks under a key. -/
def aesCipher (keysize : Nat) (hsize : (rounds? keysize).isSome) (key : List UInt8)
    (ctx ctx' cty : AesContext) : Fota.BlockCipher where
  encrypt := aesCryptEcb (aesSetkeyEnc ctx key keysize) .encrypt
  decrypt := aesCryptEcb (aesSetkeyDec ctx' cty key keysize) .decrypt
  length_encrypt _ _ := length_aesCryptEcb _ _ _
  length_decrypt _ _ := length_aesCryptEcb _ _ _
  decrypt_encrypt _ hb := decrypt_encrypt_block hsize ctx ctx' cty hb
  encrypt_decrypt _ hb := encrypt_decrypt_block hsize ctx ctx' cty hb

end cipher

end McuUtilities.Tinycrypt
