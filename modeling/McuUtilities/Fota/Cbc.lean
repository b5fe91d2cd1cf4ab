import McuUtilities.Lib.Store

/-!
# The CBC mode of `tiny_aes.c`

`tiny_aes_crypt_cbc` over an abstract block cipher: encryption and decryption of whole 16-byte
blocks, each returning the output and the chaining block it leaves in `iv`. Decrypting a stream in
pieces, each with the chaining block the piece before it left, is decrypting it in one go.
-/

namespace McuUtilities.Fota

/-- A permutation of 16-byte blocks: `tiny_aes_crypt_ecb` under a fixed key. -/
structure BlockCipher where
  encrypt : List UInt8 → List UInt8
  decrypt : List UInt8 → List UInt8
  length_encrypt : ∀ b, b.length = 16 → (encrypt b).length = 16
  length_decrypt : ∀ b, b.length = 16 → (decrypt b).length = 16
  decrypt_encrypt : ∀ b, b.length = 16 → decrypt (encrypt b) = b
  encrypt_decrypt : ∀ b, b.length = 16 → encrypt (decrypt b) = b

/-- The bytewise exclusive or of two blocks. -/
def xorBytes (xs ys : List UInt8) : List UInt8 := List.zipWith (· ^^^ ·) xs ys

theorem length_xorBytes {xs ys : List UInt8} (h : xs.length = ys.length) :
    (xorBytes xs ys).length = xs.length := by simp [xorBytes, h]

theorem xorBytes_cancel {xs ys : List UInt8} (h : xs.length = ys.length) :
    xorBytes (xorBytes xs ys) ys = xs := by
  apply List.ext_getElem
  · simp [xorBytes, h]
  · intro i h1 h2
    simp only [xorBytes, List.getElem_zipWith, UInt8.xor_assoc, UInt8.xor_self, UInt8.xor_zero]

namespace BlockCipher
variable (c : BlockCipher)

/-- `tiny_aes_crypt_cbc(ctx, AES_DECRYPT, 16 * n, iv, input, output)`: the output and the new
`iv`. -/
def cbcDecrypt : Nat → List UInt8 → List UInt8 → List UInt8 × List UInt8
  | 0, iv, _ => ([], iv)
  | n + 1, iv, input =>
    let temp := input.take 16
    let rest := cbcDecrypt n temp (input.drop 16)
    (xorBytes (c.decrypt temp) iv ++ rest.1, rest.2)

/-- `tiny_aes_crypt_cbc(ctx, AES_ENCRYPT, 16 * n, iv, input, output)`: the output and the new
`iv`. -/
def cbcEncrypt : Nat → List UInt8 → List UInt8 → List UInt8 × List UInt8
  | 0, iv, _ => ([], iv)
  | n + 1, iv, input =>
    let out := c.encrypt (xorBytes (input.take 16) iv)
    let rest := cbcEncrypt n out (input.drop 16)
    (out ++ rest.1, rest.2)

variable {c} {n k : Nat} {iv xs ys : List UInt8}

theorem length_cbcDecrypt (hiv : iv.length = 16) (h : 16 * n ≤ xs.length) :
    (c.cbcDecrypt n iv xs).1.length = 16 * n ∧ (c.cbcDecrypt n iv xs).2.length = 16 := by
  induction n generalizing iv xs with
  | zero => exact ⟨rfl, hiv⟩
  | succ n ih =>
    have ht : (xs.take 16).length = 16 := by simp; omega
    have hd := c.length_decrypt _ ht
    have hrest : 16 * n ≤ (xs.drop 16).length := by simp; omega
    obtain ⟨h1, h2⟩ := ih ht hrest
    refine ⟨?_, h2⟩
    simp only [cbcDecrypt, List.length_append, h1, length_xorBytes (hd.trans hiv.symm), hd]
    omega

/-- Only the bytes of the blocks matter. -/
theorem cbcDecrypt_append_right (h : 16 * n ≤ xs.length) :
    c.cbcDecrypt n iv (xs ++ ys) = c.cbcDecrypt n iv xs := by
  induction n generalizing iv xs with
  | zero => rfl
  | succ n ih =>
    have h16 : 16 ≤ xs.length := by omega
    have hrest : 16 * n ≤ (xs.drop 16).length := by simp; omega
    simp only [cbcDecrypt, List.take_append_of_le_length h16, List.drop_append_of_le_length h16,
      ih hrest]

/-- Streaming: the second piece is decrypted with the chaining block the first one left. -/
theorem cbcDecrypt_add : c.cbcDecrypt (n + k) iv xs =
    ((c.cbcDecrypt n iv xs).1 ++ (c.cbcDecrypt k (c.cbcDecrypt n iv xs).2 (xs.drop (16 * n))).1,
      (c.cbcDecrypt k (c.cbcDecrypt n iv xs).2 (xs.drop (16 * n))).2) := by
  induction n generalizing iv xs with
  | zero => simp [cbcDecrypt]
  | succ n ih =>
    have hd : (xs.drop 16).drop (16 * n) = xs.drop (16 * (n + 1)) := by
      rw [List.drop_drop]; congr 1; omega
    rw [Nat.succ_add]
    simp only [cbcDecrypt, ih, hd, List.append_assoc]

/-- Decryption undoes encryption. -/
theorem cbcDecrypt_cbcEncrypt (hiv : iv.length = 16) (h : xs.length = 16 * n) :
    (c.cbcDecrypt n iv (c.cbcEncrypt n iv xs).1).1 = xs := by
  induction n generalizing iv xs with
  | zero => exact (List.eq_nil_of_length_eq_zero h).symm
  | succ n ih =>
    have ht : (xs.take 16).length = 16 := by simp; omega
    have hx := length_xorBytes (ht.trans hiv.symm)
    have he := c.length_encrypt _ (hx.trans ht)
    have hlen : (xs.drop 16).length = 16 * n := by simp; omega
    have hrest := ih he hlen
    simp only [cbcEncrypt, cbcDecrypt, List.take_left' he, List.drop_left' he, hrest,
      c.decrypt_encrypt _ (hx.trans ht), xorBytes_cancel (ht.trans hiv.symm),
      List.take_append_drop]

/-! ### Block by block -/

/-- The first `n` blocks of a byte string. -/
def blocks : Nat → List UInt8 → List (List UInt8)
  | 0, _ => []
  | n + 1, xs => xs.take 16 :: blocks n (xs.drop 16)

/-- CBC decryption: every block is decrypted and combined with the ciphertext block before it, the
first one with `iv`. -/
def cbcPlain (c : BlockCipher) (iv : List UInt8) (bs : List (List UInt8)) : List UInt8 :=
  (List.zipWith (fun b prev => xorBytes (c.decrypt b) prev) bs (iv :: bs)).flatten

theorem cbcDecrypt_eq_cbcPlain :
    c.cbcDecrypt n iv xs = (c.cbcPlain iv (blocks n xs), (blocks n xs).getLastD iv) := by
  induction n generalizing iv xs with
  | zero => rfl
  | succ n ih =>
    rw [cbcDecrypt, ih]
    cases n <;> rfl

end BlockCipher

end McuUtilities.Fota
