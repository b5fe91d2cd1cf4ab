import McuUtilities.Fota.Plain
import McuUtilities.Tinycrypt.Inverse

/-!
# Decryption while reading

Successive calls of `fota_read_part`, each handed the `aes_iv` the one before left, decrypt what one
CBC decryption of all the bytes they read would: the seams between the calls do not show.
-/

namespace McuUtilities.Fota
open Prog

/-- `n` calls of `fota_read_part` with `aes_ctx` and `aes_iv` set, at the positions `pos`,
`pos + len` and so on: all the bytes of `decrypt_buf`, and the `aes_iv` left behind. -/
def fotaReadParts (env : Env) (part : FalPartition) (len : Nat) :
    Nat → Nat → List UInt8 → Boot (List UInt8 × List UInt8)
  | 0, _, iv => pure ([], iv)
  | n + 1, pos, iv => do
    let (out, iv) ← fotaReadPart env part pos true iv len
    let (rest, iv) ← fotaReadParts env part len n (pos + len) iv
    pure (out ++ rest, iv)

section streaming
variable {env : Env} {part : FalPartition} {r : Region} (hr : env.region part = some r)
  {len : Nat} (hlen : len ≤ fotaAlgoBuffSize)
include hr hlen

/-- A call that succeeds has read inside the partition and decrypted what it read. -/
theorem fotaReadPart_done {pos : Nat} {iv : List UInt8} {w w' : World}
    {res : List UInt8 × List UInt8} (hpos : pos ≤ part.len)
    (h : fotaReadPart env part pos true iv len w = .done res w') :
    pos + len ≤ part.len ∧ w'.flash = w.flash ∧
      res = env.cipher.cbcDecrypt (len / 16) iv (slice (r.view w.flash) (sizeofHead + pos) len) := by
  have hbound := part.bound
  have hbuff : fotaAlgoBuffSize = 4096 := rfl
  have hsize : sizeofHead = 96 := rfl
  have haddr : u32 (sizeofHead + pos) = sizeofHead + pos := by
    simp only [u32]
    omega
  unfold fotaReadPart at h
  split at h
  · cases h
  rw [if_pos rfl, haddr] at h
  obtain ⟨ok, w₁, hm, h₁⟩ := bind_eq_done h
  obtain ⟨_, w₂, hq, h₂⟩ := bind_eq_done h₁
  obtain ⟨-, rfl⟩ := require_eq_done hq
  have hw₁ : w₂.flash = w.flash := by cases hm; rfl
  obtain ⟨w₃, ht, -, hread | ⟨r', hr', hin, hread⟩⟩ :=
    @falPartitionRead_cases env part (sizeofHead + pos) len (by omega) w₂
  · rw [bind_done hread] at h₂
    cases h₂
  · obtain rfl := Option.some.inj (hr.symm.trans hr')
    rw [bind_done hread] at h₂
    dsimp only at h₂
    split at h₂
    · cases h₂
    · rw [length_slice, hw₁] at h₂
      cases h₂
      exact ⟨by omega, ht.flash.trans hw₁, rfl⟩

/-- The calls together decrypt everything they read. -/
theorem fotaReadParts_done (hmod : len % 16 = 0) {n pos : Nat} {iv : List UInt8} {w w' : World}
    {res : List UInt8 × List UInt8} (hpos : pos ≤ part.len)
    (h : fotaReadParts env part len n pos iv w = .done res w') :
    res = env.cipher.cbcDecrypt (n * (len / 16)) iv
      (slice (r.view w.flash) (sizeofHead + pos) (n * len)) := by
  induction n generalizing pos iv w res with
  | zero =>
    cases h
    rw [Nat.zero_mul]
    rfl
  | succ n ih =>
    obtain ⟨⟨out, iv₁⟩, w₁, hcall, h⟩ := bind_eq_done h
    obtain ⟨⟨rest, iv₂⟩, w₂, hrest, h⟩ := bind_eq_done h
    cases h
    obtain ⟨hin, hflash, hout⟩ := fotaReadPart_done hr hlen hpos hcall
    have hrest := ih hin hrest
    have hblocks : 16 * (len / 16) = len := by omega
    have hsplit : slice (r.view w.flash) (sizeofHead + pos) ((n + 1) * len) =
        slice (r.view w.flash) (sizeofHead + pos) len ++
          slice (r.view w.flash) (sizeofHead + (pos + len)) (n * len) := by
      rw [Nat.succ_mul, Nat.add_comm (n * len), slice_add, Nat.add_assoc]
    have hlen' : 16 * (len / 16) ≤ (slice (r.view w.flash) (sizeofHead + pos) len).length := by
      rw [length_slice]
      omega
    have hdrop : (slice (r.view w.flash) (sizeofHead + pos) len ++
        slice (r.view w.flash) (sizeofHead + (pos + len)) (n * len)).drop (16 * (len / 16)) =
          slice (r.view w.flash) (sizeofHead + (pos + len)) (n * len) := by
      rw [hblocks]
      exact List.drop_left' length_slice
    rw [Nat.succ_mul, Nat.add_comm (n * (len / 16)), hsplit, BlockCipher.cbcDecrypt_add,
      BlockCipher.cbcDecrypt_append_right hlen', hdrop, ← hout, ← hflash, ← hrest]

/-- Streaming decryption from the start of the body is one CBC decryption of the ciphertext, and
`aes_iv` is left holding the last block of it. -/
theorem fotaReadParts_eq_cbcPlain (hmod : len % 16 = 0) {n : Nat} {iv : List UInt8} {w w' : World}
    {out iv' : List UInt8} (h : fotaReadParts env part len n 0 iv w = .done (out, iv') w') :
    let ciphertext := BlockCipher.blocks (n * len / 16) (slice (r.view w.flash) sizeofHead (n * len))
    out = env.cipher.cbcPlain iv ciphertext ∧ iv' = ciphertext.getLastD iv := by
  have hdone := fotaReadParts_done hr hlen hmod (Nat.zero_le _) h
  have hcount : n * (len / 16) = n * len / 16 :=
    (Nat.mul_div_assoc n (Nat.dvd_of_mod_eq_zero hmod)).symm
  rw [Nat.add_zero, hcount, BlockCipher.cbcDecrypt_eq_cbcPlain] at hdone
  exact Prod.mk.inj hdone

end streaming

/-- Flash that holds the low byte of each address. -/
def countingFlash : Flash := fun _ a => UInt8.ofNat a

/-- AES-256 under `FOTA_ALGO_AES_KEY`, as `tiny_aes.c` computes it. -/
def fotaCipher : BlockCipher :=
  let ctx : Tinycrypt.AesContext := ⟨0, Vector.replicate 68 0⟩
  Tinycrypt.aesCipher 256 rfl fotaAlgoAesKey ctx ctx ctx

/-- The environment of a boot of a board with only a download partition. -/
def streamEnv : Env := { (sampleBoard [sampleFm] false).quietEnv with cipher := fotaCipher }

/-- Two calls of 16 bytes each. -/
theorem fotaReadParts_eq_cbcPlain_two :
    ∃ out iv w', fotaReadParts streamEnv sampleFm 16 2 0 fotaAlgoAesIv (World.boot countingFlash) =
        .done (out, iv) w' ∧
      out = streamEnv.cipher.cbcPlain fotaAlgoAesIv
        (BlockCipher.blocks 2 (slice ((⟨0, 0, 0x2000⟩ : Region).view countingFlash) 96 32)) ∧
      iv = slice ((⟨0, 0, 0x2000⟩ : Region).view countingFlash) 112 16 := by
  obtain ⟨⟨out, iv⟩, hfirst⟩ : ∃ p, fotaReadPart streamEnv sampleFm 0 true fotaAlgoAesIv 16
      (World.boot countingFlash) =
        .done p { World.boot countingFlash with allocs := 1, reads := 1 } :=
    ⟨streamEnv.cipher.cbcDecrypt 1 fotaAlgoAesIv (slice (countingFlash 0) 96 16), rfl⟩
  obtain ⟨⟨out', iv'⟩, hsecond⟩ : ∃ p, fotaReadPart streamEnv sampleFm 16 true iv 16
      { World.boot countingFlash with allocs := 1, reads := 1 } =
        .done p { World.boot countingFlash with allocs := 2, reads := 2 } :=
    ⟨streamEnv.cipher.cbcDecrypt 1 iv (slice (countingFlash 0) 112 16), rfl⟩
  have hrun : fotaReadParts streamEnv sampleFm 16 2 0 fotaAlgoAesIv (World.boot countingFlash) =
      .done (out ++ (out' ++ []), iv') { World.boot countingFlash with allocs := 2, reads := 2 } := by
    rw [fotaReadParts, bind_done hfirst]
    dsimp only
    rw [fotaReadParts, Nat.zero_add, bind_apply, bind_done hsecond]
    rfl
  obtain ⟨hout, hiv⟩ := fotaReadParts_eq_cbcPlain
    (show streamEnv.region sampleFm = some ⟨0, 0, 0x2000⟩ from rfl) (by decide) (by decide) hrun
  exact ⟨_, _, _, hrun, hout, hiv⟩

end McuUtilities.Fota
