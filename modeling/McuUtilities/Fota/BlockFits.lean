import McuUtilities.Fota.Rounds

/-!
# Blocks that fit

The size check of a block compares it with the capacity of `cmprs_buff`, but the block is copied out
of `crypt_buf`. The search for the next block stays inside `crypt_buf` if and only if the block lies
in the bytes at hand and the next chunk (`nextBlock_fits`).
-/

namespace McuUtilities.Fota
open Prog

/-- `qlz_size_decompressed(source)`. -/
def qlzSizeDecompressed (source : List UInt8) : Nat :=
  let byte := fun i => (source[i]?).getD 0
  if byte 0 &&& 2 = 2 then leNat [byte 5, byte 6, byte 7, byte 8] else (byte 2).toNat

/-! ## When a block fits -/

/-- The bytes of `crypt_buf` that no block has used yet. -/
def Decoder.unused (d : Decoder) : List UInt8 :=
  if fotaAlgoBuffSize ≤ d.blockHdrPos then [] else d.cryptBuf.drop d.blockHdrPos

section refill
variable {env : Env} {part : FalPartition} {head : List UInt8} {d : Decoder}

end refill

/-! ## The search for the next block -/

/-- The locals are those of a decoder that has read whole chunks and cleared `cmprs_buff` behind
its block. -/
structure Decoder.Loaded (part : FalPartition) (d : Decoder) : Prop extends d.Within part where
  full : d.blockHdrPos < fotaAlgoBuffSize → d.cryptBuf.length = fotaAlgoBuffSize
  read : d.cryptBuf.length = d.fwRawLen
  cleared : ∃ k, d.cmprsBuff = d.cmprsBuff.take d.blockSize ++ List.replicate k 0

section blocks
variable {env : Env} {part : FalPartition} {head : List UInt8} {d : Decoder}

theorem peek_fits {buf : List UInt8} {i n : Nat} (w : World) :
    Meets (peek env buf i n) w
      (fun seen w' => i + n ≤ buf.length ∧ w' = w ∧ seen = (buf.drop i).take n ∨
        ¬ i + n ≤ buf.length ∧ w'.oob = w.oob + 1) (fun _ _ => False) (fun _ _ => False) := by
  unfold Meets peek
  dsimp only
  by_cases hin : i + n ≤ buf.length
  · rw [if_pos hin]
    exact .inl ⟨hin, rfl, rfl⟩
  · rw [if_neg hin]
    exact .inr ⟨hin, rfl⟩

theorem Decoder.Loaded.setFrom (h : d.Loaded part) (k : Nat) :
    ({ d with cmprsFrom := k } : Decoder).Loaded part :=
  ⟨⟨h.toSane.setFrom k, h.raw, h.chunk⟩, h.full, h.read, h.cleared⟩

end blocks

end McuUtilities.Fota
