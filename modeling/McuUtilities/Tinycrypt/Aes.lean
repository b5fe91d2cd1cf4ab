import McuUtilities.Tinycrypt.Tables

/-!
# The block cipher of `tiny_aes.c`

The key schedules `tiny_aes_setkey_enc` and `tiny_aes_setkey_dec`, and `tiny_aes_crypt_ecb` on one
block. A byte of a word is what the source writes `(w >> 8 * j) & 0xFF`; the pointers `RK` and `SK`
are indices into `buf`, to which `rk` points.
-/

namespace McuUtilities.Tinycrypt

/-- `(w >> 8 * j) & 0xFF` -/
def byte (w : BitVec 32) (j : Nat) : BitVec 8 := w.extractLsb' (8 * j) 8

/-- `(unsigned long) b << 8 * j` -/
def shifted (b : BitVec 8) (j : Nat) : BitVec 32 := b.setWidth 32 <<< (8 * j)

/-- `GET_ULONG_LE(n, b, i)`: the word `n`. -/
def getUlongLe (b : List UInt8) (i : Nat) : BitVec 32 :=
  shifted (b.getD i 0).toBitVec 0 ||| shifted (b.getD (i + 1) 0).toBitVec 1 |||
    shifted (b.getD (i + 2) 0).toBitVec 2 ||| shifted (b.getD (i + 3) 0).toBitVec 3

/-- `PUT_ULONG_LE(n, b, i)`: the four bytes written. -/
def putUlongLe (n : BitVec 32) : List UInt8 :=
  [UInt8.ofBitVec (byte n 0), UInt8.ofBitVec (byte n 1), UInt8.ofBitVec (byte n 2),
    UInt8.ofBitVec (byte n 3)]

/-- `unsigned long buf[68]` -/
abbrev RoundKeys := Vector (BitVec 32) 68

/-- `tiny_aes_context` -/
structure AesContext where
  nr : Nat
  buf : RoundKeys

/-! ## The key schedules -/

/-- `buf[i]` -/
def getWord (buf : RoundKeys) (i : Nat) : BitVec 32 := buf.getD i 0

/-- `buf[i] = v` -/
def setWord (buf : RoundKeys) (i : Nat) (v : BitVec 32) : RoundKeys := buf.setIfInBounds i v

/-- The words of the key, `GET_ULONG_LE(RK[i], key, i << 2)` for `i < n`. -/
def loadKey (key : List UInt8) (n : Nat) (buf : RoundKeys) : RoundKeys :=
  (List.range n).foldl (fun buf i => setWord buf i (getUlongLe key (4 * i))) buf

/-- The S-box on the bytes of a word rotated right by one byte. -/
def subRotWord (w : BitVec 32) : BitVec 32 :=
  shifted (FSb (byte w 1)) 0 ^^^ shifted (FSb (byte w 2)) 1 ^^^ shifted (FSb (byte w 3)) 2 ^^^
    shifted (FSb (byte w 0)) 3

/-- The S-box on the bytes of a word. -/
def subWord (w : BitVec 32) : BitVec 32 :=
  shifted (FSb (byte w 0)) 0 ^^^ shifted (FSb (byte w 1)) 1 ^^^ shifted (FSb (byte w 2)) 2 ^^^
    shifted (FSb (byte w 3)) 3

/-- `RK[i] = RK[i - n] ^ RK[i - 1]` for the `m` words from `i` on. -/
def chainWords (n : Nat) (i m : Nat) (buf : RoundKeys) : RoundKeys :=
  (List.range m).foldl (fun buf j =>
    setWord buf (i + j) (getWord buf (i + j - n) ^^^ getWord buf (i + j - 1))) buf

/-- `RK[n] = RK[0] ^ RCON[i] ^ ...`, with `RK` at `n * i`. -/
def firstWord (n i : Nat) (buf : RoundKeys) : RoundKeys :=
  setWord buf (n * i + n)
    (getWord buf (n * i) ^^^ rcon.getD i 0 ^^^ subRotWord (getWord buf (n * i + n - 1)))

/-- A round of the key schedule for 128 bits. -/
def expand128 (buf : RoundKeys) (i : Nat) : RoundKeys :=
  chainWords 4 (4 * i + 5) 3 (firstWord 4 i buf)

/-- A round of the key schedule for 192 bits. -/
def expand192 (buf : RoundKeys) (i : Nat) : RoundKeys :=
  chainWords 6 (6 * i + 7) 5 (firstWord 6 i buf)

/-- A round of the key schedule for 256 bits. -/
def expand256 (buf : RoundKeys) (i : Nat) : RoundKeys :=
  let buf := chainWords 8 (8 * i + 9) 3 (firstWord 8 i buf)
  let buf := setWord buf (8 * i + 12) (getWord buf (8 * i + 4) ^^^ subWord (getWord buf (8 * i + 11)))
  chainWords 8 (8 * i + 13) 3 buf

/-- The number of rounds for a key size, if the size is allowed. -/
def rounds? : Nat → Option Nat
  | 128 => some 10
  | 192 => some 12
  | 256 => some 14
  | _ => none

/-- `tiny_aes_setkey_enc` -/
def aesSetkeyEnc (ctx : AesContext) (key : List UInt8) (keysize : Nat) : AesContext :=
  match rounds? keysize with
  | none => ctx
  | some nr =>
    let buf := loadKey key (keysize >>> 5) ctx.buf
    match nr with
    | 10 => ⟨nr, (List.range 10).foldl expand128 buf⟩
    | 12 => ⟨nr, (List.range 8).foldl expand192 buf⟩
    | 14 => ⟨nr, (List.range 7).foldl expand256 buf⟩
    | _ => ⟨nr, buf⟩

/-- What `tiny_aes_setkey_dec` makes of a word of an inner round key. -/
def mixKey (w : BitVec 32) : BitVec 32 :=
  RT0 (FSb (byte w 0)) ^^^ RT1 (FSb (byte w 1)) ^^^ RT2 (FSb (byte w 2)) ^^^ RT3 (FSb (byte w 3))

/-- `*RK++ = f(*SK++)`, four times. -/
def copyWords (f : BitVec 32 → BitVec 32) (sk : RoundKeys) (RK SK : Nat)
    (buf : RoundKeys) : RoundKeys :=
  (List.range 4).foldl (fun buf j => setWord buf (RK + j) (f (getWord sk (SK + j)))) buf

/-- The loop over `i` of `tiny_aes_setkey_dec` and the copy behind it. -/
def decKeys (sk : RoundKeys) : Nat → Nat → Nat → RoundKeys → RoundKeys
  | 0, RK, SK, buf => copyWords id sk RK SK buf
  | i + 1, RK, SK, buf => decKeys sk i (RK + 4) (SK + 4 - 8) (copyWords mixKey sk RK SK buf)

/-- `tiny_aes_setkey_dec`; `cty` is what the stack holds where its `cty` is. -/
def aesSetkeyDec (ctx cty : AesContext) (key : List UInt8) (keysize : Nat) : AesContext :=
  match rounds? keysize with
  | none => ctx
  | some nr =>
    let cty := aesSetkeyEnc cty key keysize
    let SK := cty.nr * 4
    let buf := copyWords id cty.buf 0 SK ctx.buf
    ⟨nr, decKeys cty.buf (nr - 1) 4 (SK + 4 - 8) buf⟩

/-! ## One block -/

/-- The words `X0` to `X3`, or `Y0` to `Y3`. -/
@[ext] structure Words where
  x0 : BitVec 32
  x1 : BitVec 32
  x2 : BitVec 32
  x3 : BitVec 32

/-- The words at `RK`. -/
def wordsAt (buf : RoundKeys) (RK : Nat) : Words :=
  ⟨getWord buf RK, getWord buf (RK + 1), getWord buf (RK + 2), getWord buf (RK + 3)⟩

/-- `a ^ b`, word by word. -/
def Words.xor (a b : Words) : Words := ⟨a.x0 ^^^ b.x0, a.x1 ^^^ b.x1, a.x2 ^^^ b.x2, a.x3 ^^^ b.x3⟩

/-- A word of `AES_FROUND` before the key. -/
def fword (y0 y1 y2 y3 : BitVec 32) : BitVec 32 :=
  FT0 (byte y0 0) ^^^ FT1 (byte y1 1) ^^^ FT2 (byte y2 2) ^^^ FT3 (byte y3 3)

/-- `AES_FROUND` -/
def aesFround (rk y : Words) : Words :=
  ⟨rk.x0 ^^^ fword y.x0 y.x1 y.x2 y.x3, rk.x1 ^^^ fword y.x1 y.x2 y.x3 y.x0,
    rk.x2 ^^^ fword y.x2 y.x3 y.x0 y.x1, rk.x3 ^^^ fword y.x3 y.x0 y.x1 y.x2⟩

/-- A word of `AES_RROUND` before the key. -/
def rword (y0 y1 y2 y3 : BitVec 32) : BitVec 32 :=
  RT0 (byte y0 0) ^^^ RT1 (byte y1 1) ^^^ RT2 (byte y2 2) ^^^ RT3 (byte y3 3)

/-- `AES_RROUND` -/
def aesRround (rk y : Words) : Words :=
  ⟨rk.x0 ^^^ rword y.x0 y.x3 y.x2 y.x1, rk.x1 ^^^ rword y.x1 y.x0 y.x3 y.x2,
    rk.x2 ^^^ rword y.x2 y.x1 y.x0 y.x3, rk.x3 ^^^ rword y.x3 y.x2 y.x1 y.x0⟩

/-- A word of the last round before the key. -/
def lastWord (Sb : BitVec 8 → BitVec 8) (y0 y1 y2 y3 : BitVec 32) : BitVec 32 :=
  shifted (Sb (byte y0 0)) 0 ^^^ shifted (Sb (byte y1 1)) 1 ^^^ shifted (Sb (byte y2 2)) 2 ^^^
    shifted (Sb (byte y3 3)) 3

/-- The last round of encryption. -/
def lastFround (rk y : Words) : Words :=
  ⟨rk.x0 ^^^ lastWord FSb y.x0 y.x1 y.x2 y.x3, rk.x1 ^^^ lastWord FSb y.x1 y.x2 y.x3 y.x0,
    rk.x2 ^^^ lastWord FSb y.x2 y.x3 y.x0 y.x1, rk.x3 ^^^ lastWord FSb y.x3 y.x0 y.x1 y.x2⟩

/-- The last round of decryption. -/
def lastRround (rk y : Words) : Words :=
  ⟨rk.x0 ^^^ lastWord RSb y.x0 y.x3 y.x2 y.x1, rk.x1 ^^^ lastWord RSb y.x1 y.x0 y.x3 y.x2,
    rk.x2 ^^^ lastWord RSb y.x2 y.x1 y.x0 y.x3, rk.x3 ^^^ lastWord RSb y.x3 y.x2 y.x1 y.x0⟩

/-- The loop of `tiny_aes_crypt_ecb`, two rounds at a time: the words and `RK`. -/
def doubleRounds (round : Words → Words → Words) (buf : RoundKeys) :
    Nat → Nat → Words → Words × Nat
  | 0, RK, x => (x, RK)
  | i + 1, RK, x =>
    doubleRounds round buf i (RK + 8) (round (wordsAt buf (RK + 4)) (round (wordsAt buf RK) x))

/-- The rounds of `tiny_aes_crypt_ecb` behind the first key. -/
def cryptRounds (round last : Words → Words → Words) (ctx : AesContext) (x : Words) : Words :=
  let (x, RK) := doubleRounds round ctx.buf ((ctx.nr >>> 1) - 1) 4 x
  last (wordsAt ctx.buf (RK + 4)) (round (wordsAt ctx.buf RK) x)

/-- The values of `mode`. -/
inductive Mode where
  | encrypt
  | decrypt
  deriving DecidableEq

/-- `tiny_aes_crypt_ecb`: the sixteen bytes of `output`. -/
def aesCryptEcb (ctx : AesContext) (mode : Mode) (input : List UInt8) : List UInt8 :=
  let x : Words := ⟨getUlongLe input 0, getUlongLe input 4, getUlongLe input 8, getUlongLe input 12⟩
  let x := x.xor (wordsAt ctx.buf 0)
  let x := match mode with
    | .decrypt => cryptRounds aesRround lastRround ctx x
    | .encrypt => cryptRounds aesFround lastFround ctx x
  putUlongLe x.x0 ++ putUlongLe x.x1 ++ putUlongLe x.x2 ++ putUlongLe x.x3

end McuUtilities.Tinycrypt
