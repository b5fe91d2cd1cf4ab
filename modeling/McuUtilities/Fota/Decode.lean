import McuUtilities.Fota.Fal

/-!
# The image decoder

`fota_upgrade_verify` and `fota_upgrade` contain the same two loops, which read the image body in
chunks of 4096 bytes, cut it into blocks and decompress them. They differ in what they do with
a decoded piece, so `decode` takes that as an argument: a *sink*, with the count `total_copy_size`
it keeps. A block is a 4-byte big-endian length and that many bytes; `nextBlock` is the part of the
main loop that finds the next one, in whichever chunk its header and its payload lie.
-/

namespace McuUtilities.Fota
open Prog

/-- The locals of the two loops. `cmprsFrom` only records where in the image body the block held
in `cmprs_buff` was taken from. -/
structure Decoder where
  fwRawPos : Nat
  fwRawLen : Nat
  blockHdrPos : Nat
  blockSize : Nat
  cryptBuf : List UInt8
  cmprsBuff : List UInt8
  cmprsFrom : Nat
  aesIv : List UInt8

/-- The values the locals start from. -/
def Decoder.init : Decoder where
  fwRawPos := 0
  fwRawLen := 0
  blockHdrPos := fotaAlgoBuffSize
  blockSize := 0
  cryptBuf := []
  cmprsBuff := []
  cmprsFrom := 0
  aesIv := fotaAlgoAesIv

/-- Where the chunk in `crypt_buf` begins in the image body. -/
def Decoder.chunkPos (d : Decoder) : Nat := d.fwRawPos - d.fwRawLen

/-- What a loop does with a decoded piece. -/
abbrev Sink (τ : Type) : Type := τ → List UInt8 → Boot τ

section defs
variable (env : Env) (part : FalPartition) (head : List UInt8)

/-- `fota_read_part(part, read_pos, aes_ctx, aes_iv, decrypt_buf, decrypt_len)`: the bytes read
and the new `aes_iv`. `aes` tells whether `aes_ctx` and `aes_iv` are set. -/
def fotaReadPart (readPos : Nat) (aes : Bool) (aesIv : List UInt8) (decryptLen : Nat) :
    Boot (List UInt8 × List UInt8) :=
  if decryptLen % 16 ≠ 0 ∨ fotaAlgoBuffSize < decryptLen then throw .generalErr
  else if aes then do
    require (← malloc env) .generalErr
    match ← falPartitionRead env part (u32 (sizeofHead + readPos)) decryptLen with
    | some buf =>
      if buf.length = 0 ∨ buf.length % 16 ≠ 0 then throw .partReadErr
      else pure (env.cipher.cbcDecrypt (buf.length / 16) aesIv buf)
    | none => throw .partReadErr
  else do
    match ← falPartitionRead env part (u32 (sizeofHead + readPos)) decryptLen with
    | some buf => if buf.length = 0 then throw .partReadErr else pure (buf, aesIv)
    | none => throw .partReadErr

/-- Reads the next chunk into `crypt_buf`. -/
def refill (d : Decoder) : Boot Decoder := do
  match ← attempt (fotaReadPart env part d.fwRawPos
      (Head.cryptAlgo head = fotaCryptAlgoAes256) d.aesIv fotaAlgoBuffSize) with
  | .ok (buf, iv) =>
    pure { d with
      fwRawLen := buf.length
      fwRawPos := u32 (d.fwRawPos + buf.length)
      cryptBuf := buf
      aesIv := iv }
  | .error _ => throw .partReadErr

/-- The size added to `FOTA_CMPRS_BUFFER_SIZE` when `cmprs_buff` is allocated. -/
def paddingSize : Nat :=
  if Head.cmprsAlgo head = fotaCmprsAlgoFastlz then fotaFastlzBufferPadding
  else if Head.cmprsAlgo head = fotaCmprsAlgoQuicklz then fotaQuicklzBufferPadding
  else 0

/-- `malloc_usable_size(cmprs_buff)`; no buffer is allocated for an unknown algorithm. -/
def cmprsUsable : Nat :=
  if Head.cmprsAlgo head = fotaCmprsAlgoFastlz ∨ Head.cmprsAlgo head = fotaCmprsAlgoQuicklz then
    env.mallocUsableSize (fotaCmprsBufferSize + paddingSize head)
  else 0

/-- `block_size` from `block_hdr_buf`, refused when `cmprs_buff` cannot hold the block. Blocks are
thus shorter than an allocation, and sums with `block_size` do not wrap. -/
def getBlockSize (blockHdrBuf : List UInt8) : Boot Nat := do
  require (beNat blockHdrBuf < cmprsUsable env head) .generalErr
  pure (beNat blockHdrBuf)

/-- `cmprs_buff` after it was cleared and the block was copied to its start. -/
def fillCmprs (payload : List UInt8) : List UInt8 :=
  payload ++ List.replicate (fotaCmprsBufferSize + paddingSize head - payload.length) 0

/-- How many bytes of `cmprs_buff` its decompressor reads when `cmprs_buff` was filled with `payload`.
It is told how long the block is (FastLZ) or reads that from the block itself (QuickLZ), but not how
much `cmprs_buff` can hold. -/
def cmprsReads (payload : List UInt8) : Nat :=
  if Head.cmprsAlgo head = fotaCmprsAlgoFastlz then
    env.fastlzReads (fillCmprs head payload) payload.length fotaCmprsBufferSize
  else if Head.cmprsAlgo head = fotaCmprsAlgoQuicklz then env.qlzReads (fillCmprs head payload)
  else 0

/-- The block found at `pos` of the current chunk, with the new `block_hdr_pos`. -/
def Decoder.setBlock (d : Decoder) (pos : Nat) (payload : List UInt8) (hdrPos : Nat) : Decoder :=
  { d with
    blockSize := payload.length
    cmprsBuff := fillCmprs head payload
    cmprsFrom := d.chunkPos + pos
    blockHdrPos := hdrPos }

/-- The chunk is used up: the block starts with the next one. -/
def blockAtChunk (d : Decoder) : Boot Decoder := do
  let d ← refill env part head d
  let blockSize ← getBlockSize env head (d.cryptBuf.take fotaBlockHeaderSize)
  let payload ← peek env d.cryptBuf fotaBlockHeaderSize blockSize
  pure (d.setBlock head fotaBlockHeaderSize payload (fotaBlockHeaderSize + blockSize))

/-- Only the bytes `hdr` of the block header are left in the chunk. -/
def blockSplitHeader (d : Decoder) (hdr : List UInt8) : Boot Decoder := do
  let d ← refill env part head d
  let pos := fotaBlockHeaderSize - hdr.length
  let blockSize ← getBlockSize env head (hdr ++ d.cryptBuf.take pos)
  let payload ← peek env d.cryptBuf pos blockSize
  pure (d.setBlock head pos payload ((pos + blockSize) % fotaAlgoBuffSize))

/-- The payload begins at `pos` of the chunk; its last `rest` bytes are in the next one. -/
def blockAcross (d : Decoder) (pos rest : Nat) : Boot Decoder := do
  let d' ← refill env part head d
  let tail ← peek env d'.cryptBuf 0 rest
  pure { d'.setBlock head 0 (d.cryptBuf.drop pos ++ tail) rest with cmprsFrom := d.chunkPos + pos }

/-- The header `hdr` ends in the chunk, the payload begins at `pos` of it. -/
def blockInChunk (d : Decoder) (hdr : List UInt8) (pos : Nat) : Boot Decoder := do
  let blockSize ← getBlockSize env head hdr
  if fotaAlgoBuffSize - pos < blockSize then
    blockAcross env part head d pos (blockSize + pos - fotaAlgoBuffSize)
  else
    pure (d.setBlock head pos ((d.cryptBuf.drop pos).take blockSize) (pos + blockSize))

/-- The part of the main loop that fills `cmprs_buff`. -/
def nextBlock (d : Decoder) : Boot Decoder :=
  if fotaAlgoBuffSize ≤ d.blockHdrPos then blockAtChunk env part head d
  else
    -- the inner `while`, which copies header bytes up to the end of the chunk
    let hdr := (d.cryptBuf.drop d.blockHdrPos).take
      (min fotaBlockHeaderSize (fotaAlgoBuffSize - d.blockHdrPos))
    let pos := d.blockHdrPos + min fotaBlockHeaderSize (fotaAlgoBuffSize - d.blockHdrPos)
    if fotaAlgoBuffSize - d.blockHdrPos < fotaBlockHeaderSize then
      blockSplitHeader env part head d hdr
    else if pos < fotaAlgoBuffSize then blockInChunk env part head d hdr pos
    -- the header was the end of the chunk: both the `while` and the `if` after it are left
    else pure { d with blockHdrPos := pos }

/-- Decompresses the block in `cmprs_buff`: `dcprs_buff` up to `dcprs_size`. -/
def decompress (d : Decoder) : Boot (List UInt8) := do
  modify fun w =>
    { w with decompressed := w.decompressed ++ [(d.cmprsFrom, d.cmprsBuff.take d.blockSize)] }
  let out :=
    if Head.cmprsAlgo head = fotaCmprsAlgoFastlz then
      env.fastlzDecompress d.cmprsBuff d.blockSize fotaCmprsBufferSize
    else if Head.cmprsAlgo head = fotaCmprsAlgoQuicklz then env.qlzDecompress d.cmprsBuff
    else []
  require (out.length ≠ 0) .generalErr
  -- QuickLZ writes what the block's own header says, also past the end of `dcprs_buff`
  peek env (out.take fotaCmprsBufferSize) 0 out.length

variable {τ : Type} (sink : Sink τ) (total : τ → Nat)

/-- One round of the main loop. -/
def mainStep (s : Decoder × τ) : Boot (Decoder × τ ⊕ Decoder × τ) :=
  if s.1.fwRawPos < Head.comSize head then
    if Head.cmprsAlgo head ≠ 0 then do
      let d ← nextBlock env part head s.1
      let t ← sink s.2 (← decompress env head d)
      pure (.inl (d, t))
    else do
      let d ← refill env part head s.1
      let t ← sink s.2 d.cryptBuf
      pure (.inl (d, t))
  else pure (.inr s)

/-- One round of the loop over the blocks left in the last chunk. -/
def tailStep (s : Decoder × τ) : Boot (Decoder × τ ⊕ τ) :=
  let d := s.1
  if total s.2 < Head.rawSize head ∧ d.blockHdrPos < d.fwRawLen ∧
      fotaBlockHeaderSize < d.fwRawLen - d.blockHdrPos then do
    let pos := d.blockHdrPos + fotaBlockHeaderSize
    let blockSize ← getBlockSize env head ((d.cryptBuf.drop d.blockHdrPos).take fotaBlockHeaderSize)
    if blockSize ≤ d.fwRawLen - pos then do
      let payload ← peek env d.cryptBuf pos blockSize
      let d := d.setBlock head pos payload (pos + blockSize)
      let t ← sink s.2 (← decompress env head d)
      pure (.inl (d, t))
    else pure (.inr s.2)
  else pure (.inr s.2)

/-- A bound on the rounds of either loop: a round reads a chunk of the partition or moves on by at
least a block header in the current one. -/
def loopFuel : Nat := part.len + fotaAlgoBuffSize

/-- The two loops. -/
def decode (d : Decoder) (t : τ) : Boot τ := do
  let (d, t) ← iterate (loopFuel part) (mainStep env part head sink) (d, t)
  if Head.cmprsAlgo head ≠ 0 then
    iterate (loopFuel part) (tailStep env head sink total) (d, t)
  else pure t

/-- The allocations for decryption, and the algorithm that is refused. -/
def cryptInit : Boot Unit :=
  if Head.cryptAlgo head = fotaCryptAlgoAes256 then do
    let aesCtx ← malloc env
    let aesIv ← malloc env
    require (aesCtx && aesIv) .noMemErr
  else require (Head.cryptAlgo head ≠ fotaCryptAlgoXor) .generalErr

/-- The allocations for decompression, and the algorithm that is refused. -/
def cmprsInit : Boot Unit :=
  if Head.cmprsAlgo head = fotaCmprsAlgoFastlz then do
    let cmprsBuff ← malloc env
    let dcprsBuff ← malloc env
    require (cmprsBuff && dcprsBuff) .noMemErr
  else if Head.cmprsAlgo head = fotaCmprsAlgoQuicklz then do
    let cmprsBuff ← malloc env
    let dcprsBuff ← malloc env
    let dcprsState ← malloc env
    require (cmprsBuff && dcprsBuff && dcprsState) .noMemErr
  else require (Head.cmprsAlgo head ≠ fotaCmprsAlgoGzip) .generalErr

/-- What comes before the two loops. -/
def decoderInit : Boot Unit := do
  cryptInit env head
  cmprsInit env head

end defs

end McuUtilities.Fota
