import McuUtilities.Tinycrypt.Inverse

/-!
# The CFB mode of `tiny_aes.c`

`tiny_aes_crypt_cfb128` byte by byte: `iv_off` and `iv` carry the stream from one call to the next. A
call over a concatenation is the two calls one after the other, so only the bytes matter and not how
they are cut into calls; and after each byte the decrypting side holds the same `iv` as the encrypting
side, which is why it finds the same key stream.
-/

namespace McuUtilities.Tinycrypt

/-- `*iv_off` and `iv[16]`. -/
@[ext] structure CfbState where
  ivOff : Nat
  iv : List UInt8
  ivOff_lt : ivOff < 16
  length_iv : iv.length = 16
  deriving DecidableEq

/-- `tiny_aes_crypt_ecb(ctx, AES_ENCRYPT, iv, iv)`, when a block of the key stream is used up. -/
def CfbState.refill (ctx : AesContext) (s : CfbState) : List UInt8 :=
  if s.ivOff = 0 then aesCryptEcb ctx .encrypt s.iv else s.iv

theorem CfbState.length_refill {ctx : AesContext} {s : CfbState} : (s.refill ctx).length = 16 := by
  unfold refill
  split
  · exact length_aesCryptEcb ctx .encrypt s.iv
  · exact s.length_iv

/-- `iv[n] = c` and `n = (n + 1) & 0x0F`. -/
def CfbState.feed (ctx : AesContext) (s : CfbState) (c : UInt8) : CfbState where
  ivOff := (s.ivOff + 1) &&& 0x0F
  iv := (s.refill ctx).set s.ivOff c
  ivOff_lt := Nat.lt_succ_of_le Nat.and_le_right
  length_iv := List.length_set.trans length_refill

/-- One round of the loops of `tiny_aes_crypt_cfb128` with the input byte `c`: what `iv_off` and `iv`
become, and the output byte. -/
def cfbByte (ctx : AesContext) (mode : Mode) (s : CfbState) (c : UInt8) : CfbState × UInt8 :=
  let k := (s.refill ctx).getD s.ivOff 0
  match mode with
  | .decrypt => (s.feed ctx c, c ^^^ k)
  | .encrypt => (s.feed ctx (k ^^^ c), k ^^^ c)

/-- `tiny_aes_crypt_cfb128`: `iv_off` and `iv` after the call, and `output`. -/
def aesCryptCfb128 (ctx : AesContext) (mode : Mode) : CfbState → List UInt8 → CfbState × List UInt8
  | s, [] => (s, [])
  | s, c :: input =>
    let (s', o) := cfbByte ctx mode s c
    let (t, output) := aesCryptCfb128 ctx mode s' input
    (t, o :: output)

/-- A call for each piece, with the `iv_off` and `iv` that the one before left. -/
def cfbCalls (ctx : AesContext) (mode : Mode) :
    CfbState → List (List UInt8) → CfbState × List (List UInt8)
  | s, [] => (s, [])
  | s, piece :: pieces =>
    let (s', output) := aesCryptCfb128 ctx mode s piece
    let (t, outputs) := cfbCalls ctx mode s' pieces
    (t, output :: outputs)

section
variable {ctx : AesContext} {mode : Mode} {s : CfbState} {xs ys : List UInt8}

theorem aesCryptCfb128_append :
    aesCryptCfb128 ctx mode s (xs ++ ys) =
      let (s', o) := aesCryptCfb128 ctx mode s xs
      let (t, o') := aesCryptCfb128 ctx mode s' ys
      (t, o ++ o') := by
  induction xs generalizing s with
  | nil => rfl
  | cons c xs ih => simp only [List.cons_append, aesCryptCfb128, ih]

/-- The calls process the concatenation of their inputs. -/
theorem cfbCalls_eq (pieces : List (List UInt8)) :
    ((cfbCalls ctx mode s pieces).1, (cfbCalls ctx mode s pieces).2.flatten) =
      aesCryptCfb128 ctx mode s pieces.flatten := by
  induction pieces generalizing s with
  | nil => rfl
  | cons piece pieces ih =>
    have hrest := @ih (aesCryptCfb128 ctx mode s piece).1
    rw [List.flatten_cons, aesCryptCfb128_append]
    dsimp only
    rw [← hrest]
    rfl

/-- Decrypting the byte that encryption made gives the byte back and leaves the same state. -/
theorem cfbByte_decrypt {c : UInt8} :
    cfbByte ctx .decrypt s (cfbByte ctx .encrypt s c).2 = ((cfbByte ctx .encrypt s c).1, c) := by
  refine Prod.ext rfl ?_
  show (s.refill ctx).getD s.ivOff 0 ^^^ c ^^^ (s.refill ctx).getD s.ivOff 0 = c
  rw [UInt8.xor_comm, ← UInt8.xor_assoc, UInt8.xor_self, UInt8.zero_xor]

theorem aesCryptCfb128_decrypt :
    aesCryptCfb128 ctx .decrypt s (aesCryptCfb128 ctx .encrypt s xs).2 =
      ((aesCryptCfb128 ctx .encrypt s xs).1, xs) := by
  induction xs generalizing s with
  | nil => rfl
  | cons c xs ih =>
    simp only [aesCryptCfb128, cfbByte_decrypt, ih]

end

/-- However the plaintext was cut into calls and however the ciphertext is, the decrypting calls give
the plaintext back and end with the `iv_off` and `iv` of the encrypting ones. -/
theorem cfbCalls_decrypt (ctx : AesContext) (s : CfbState) (plain cipher : List (List UInt8))
    (h : cipher.flatten = (cfbCalls ctx .encrypt s plain).2.flatten) :
    (cfbCalls ctx .decrypt s cipher).2.flatten = plain.flatten ∧
      (cfbCalls ctx .decrypt s cipher).1 = (cfbCalls ctx .encrypt s plain).1 := by
  have henc := @cfbCalls_eq ctx .encrypt s plain
  have hout : (cfbCalls ctx .encrypt s plain).2.flatten =
      (aesCryptCfb128 ctx .encrypt s plain.flatten).2 := congrArg Prod.snd henc
  have hdec := @cfbCalls_eq ctx .decrypt s cipher
  rw [h, hout, aesCryptCfb128_decrypt] at hdec
  obtain ⟨hstate, hplain⟩ := Prod.mk.inj hdec
  exact ⟨hplain, hstate.trans (congrArg Prod.fst henc).symm⟩

/-- Two calls of two bytes and one, read back in one call. -/
theorem cfbCalls_decrypt_sample :
    let ctx := aesSetkeyEnc ⟨0, Vector.replicate 68 0⟩ (List.replicate 32 0x30) 256
    let s : CfbState := ⟨0, List.replicate 16 0, Nat.zero_lt_succ 15, List.length_replicate⟩
    let plain : List (List UInt8) := [[0x31, 0x32], [0x33]]
    let cipher := [(cfbCalls ctx .encrypt s plain).2.flatten]
    (cfbCalls ctx .decrypt s cipher).2.flatten = plain.flatten ∧
      (cfbCalls ctx .decrypt s cipher).1 = (cfbCalls ctx .encrypt s plain).1 :=
  cfbCalls_decrypt _ _ _ _ (List.append_nil _)

end McuUtilities.Tinycrypt
