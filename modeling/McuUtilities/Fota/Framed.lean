import McuUtilities.Fota.Package
import McuUtilities.Fota.Lockstep

/-!
# Framed blocks

The body of a compressed image is a sequence of blocks, each behind its length in four bytes. The body
is read in chunks of 4096 bytes, decrypted when the header says so; `stream` is what all the chunks say.
-/

namespace McuUtilities.Fota
open Prog

/-- A block behind its length. -/
def frame (block : List UInt8) : List UInt8 :=
  beBytes fotaBlockHeaderSize block.length ++ block

/-- The body of an image of these blocks. -/
def framed (blocks : List (List UInt8)) : List UInt8 := blocks.flatMap frame

/-- The blocks from `pos` on, each with the place of its first byte in the body. -/
def located : Nat → List (List UInt8) → List (Nat × List UInt8)
  | _, [] => []
  | pos, block :: rest =>
    (pos + fotaBlockHeaderSize, block) ::
      located (pos + fotaBlockHeaderSize + block.length) rest

section framed
variable {block : List UInt8} {blocks blocks' : List (List UInt8)} {pos : Nat}

theorem length_frame : (frame block).length = fotaBlockHeaderSize + block.length := by
  simp only [frame, List.length_append, length_beBytes]

theorem framed_cons : framed (block :: blocks) = frame block ++ framed blocks := List.flatMap_cons

theorem length_framed_cons : (framed (block :: blocks)).length =
    fotaBlockHeaderSize + block.length + (framed blocks).length := by
  rw [framed_cons, List.length_append, length_frame]

theorem framed_append : framed (blocks ++ blocks') = framed blocks ++ framed blocks' :=
  List.flatMap_append

theorem length_flatten_le_framed (blocks : List (List UInt8)) :
    blocks.flatten.length ≤ (framed blocks).length := by
  induction blocks with
  | nil => exact Nat.le_refl _
  | cons block blocks ih =>
    rw [List.flatten_cons, List.length_append, length_framed_cons]
    omega

theorem length_framed_concat : (framed (blocks ++ [block])).length =
    (framed blocks).length + fotaBlockHeaderSize + block.length := by
  have hnil : (framed []).length = 0 := rfl
  rw [framed_append, List.length_append, length_framed_cons]
  omega

theorem located_append : located pos (blocks ++ blocks') =
    located pos blocks ++ located (pos + (framed blocks).length) blocks' := by
  induction blocks generalizing pos with
  | nil => rfl
  | cons block blocks ih =>
    rw [List.cons_append, located, located, ih, length_framed_cons, List.cons_append]
    congr 3
    omega

/-- The blocks from `pos` on lie behind the first header. -/
theorem le_of_mem_located {p : Nat} (h : (p, block) ∈ located pos blocks) :
    pos + fotaBlockHeaderSize ≤ p := by
  induction blocks generalizing pos with
  | nil => cases h
  | cons first blocks ih =>
    rcases List.mem_cons.mp h with heq | h
    · exact Nat.le_of_eq (Prod.mk.inj heq).1.symm
    · have := ih h
      omega

end framed

/-! ## The stream of a body -/

section stream
variable (b : Board) (head : List UInt8) (m : Nat → UInt8)

/-- The chaining block before the `k`-th chunk. -/
def streamIv : Nat → List UInt8
  | 0 => fotaAlgoAesIv
  | k + 1 => (chunk b head m (4096 * k) (streamIv k)).2

/-- The `k`-th chunk. -/
def streamChunk (k : Nat) : List UInt8 := (chunk b head m (4096 * k) (streamIv b head m k)).1

/-- The bytes of all chunks. -/
def stream : Nat → UInt8 := fun a => ((streamChunk b head m (a / 4096))[a % 4096]?).getD 0

/-- What is stored in the partition for a body. -/
def storedBody (bytes : List UInt8) : List UInt8 :=
  if Head.cryptAlgo head = fotaCryptAlgoAes256 then
    (b.cipher.cbcEncrypt (bytes.length / 16) fotaAlgoAesIv bytes).1
  else bytes

variable {b head m}

theorem length_streamIv {k : Nat} : (streamIv b head m k).length = 16 := by
  induction k with
  | zero => rfl
  | succ k ih => exact (length_chunk ih).2

theorem length_streamChunk {k : Nat} : (streamChunk b head m k).length = fotaAlgoBuffSize :=
  (length_chunk length_streamIv).1

theorem slice_stream_chunk {k : Nat} :
    slice (stream b head m) (4096 * k) fotaAlgoBuffSize = streamChunk b head m k := by
  rw [slice_eq_iff]
  have hbuff : fotaAlgoBuffSize = 4096 := rfl
  refine ⟨length_streamChunk, fun i hi => ?_⟩
  have hdiv : (4096 * k + i) / 4096 = k := by omega
  have hmod : (4096 * k + i) % 4096 = i := by omega
  have hi' : i < (streamChunk b head m k).length := by rwa [length_streamChunk]
  rw [stream, hdiv, hmod, List.getElem?_eq_getElem hi', Option.getD_some]

/-- Without encryption the stream is the stored body. -/
theorem stream_plain (h : Head.cryptAlgo head ≠ fotaCryptAlgoAes256) :
    stream b head m = fun a => m (sizeofHead + a) := by
  funext a
  have hmod : a % 4096 < 4096 := Nat.mod_lt _ (by decide)
  have haddr : sizeofHead + 4096 * (a / 4096) + a % 4096 = sizeofHead + a := by omega
  rw [stream, streamChunk, chunk, if_neg h]
  simp only [getElem?_slice, if_pos hmod, Option.getD_some, haddr]

/-- With encryption the first `n` chunks are one decryption. -/
theorem stream_aes (h : Head.cryptAlgo head = fotaCryptAlgoAes256) {n : Nat} :
    b.cipher.cbcDecrypt (256 * n) fotaAlgoAesIv (slice m sizeofHead (4096 * n)) =
      (slice (stream b head m) 0 (4096 * n), streamIv b head m n) := by
  induction n with
  | zero => rfl
  | succ n ih =>
    have hlen : 16 * (256 * n) ≤ (slice m sizeofHead (4096 * n)).length := by
      rw [length_slice]
      omega
    have hsplit : slice m sizeofHead (4096 * (n + 1)) = slice m sizeofHead (4096 * n) ++
        slice m (sizeofHead + 4096 * n) fotaAlgoBuffSize := by
      rw [Nat.mul_succ, slice_add]
    have hdrop : (slice m sizeofHead (4096 * (n + 1))).drop (16 * (256 * n)) =
        slice m (sizeofHead + 4096 * n) fotaAlgoBuffSize := by
      rw [hsplit]
      exact List.drop_left' (by rw [length_slice]; omega)
    have hchunk : b.cipher.cbcDecrypt 256 (streamIv b head m n)
        (slice m (sizeofHead + 4096 * n) fotaAlgoBuffSize) =
          (streamChunk b head m n, streamIv b head m (n + 1)) :=
      (if_pos h).symm.trans Prod.mk.eta.symm
    have hfirst : b.cipher.cbcDecrypt (256 * n) fotaAlgoAesIv (slice m sizeofHead (4096 * (n + 1))) =
        (slice (stream b head m) 0 (4096 * n), streamIv b head m n) := by
      rw [hsplit, BlockCipher.cbcDecrypt_append_right hlen, ih]
    rw [Nat.mul_succ 256, BlockCipher.cbcDecrypt_add, hfirst, hdrop, hchunk, Nat.mul_succ 4096, slice_add,
      Nat.zero_add, slice_stream_chunk]

/-- The stream of a stored body begins with the body. -/
theorem stream_of_stored {bytes : List UInt8}
    (h16 : Head.cryptAlgo head = fotaCryptAlgoAes256 → bytes.length % 16 = 0)
    (h : slice m sizeofHead bytes.length = storedBody b head bytes) :
    slice (stream b head m) 0 bytes.length = bytes := by
  by_cases haes : Head.cryptAlgo head = fotaCryptAlgoAes256
  · rw [storedBody, if_pos haes] at h
    have hlen := h16 haes
    have hdec : (b.cipher.cbcDecrypt (bytes.length / 16) fotaAlgoAesIv
        (slice m sizeofHead bytes.length)).1 = bytes := by
      rw [h]
      exact BlockCipher.cbcDecrypt_cbcEncrypt rfl (by omega)
    -- enough chunks for the body: what they hold behind it is decrypted last
    have hall := @stream_aes b head m haes ((bytes.length + 4095) / 4096)
    have hblocks : 256 * ((bytes.length + 4095) / 4096) =
        bytes.length / 16 + (256 * ((bytes.length + 4095) / 4096) - bytes.length / 16) := by omega
    have hbytes : 4096 * ((bytes.length + 4095) / 4096) =
        bytes.length + (4096 * ((bytes.length + 4095) / 4096) - bytes.length) := by omega
    rw [hblocks, BlockCipher.cbcDecrypt_add, hbytes, slice_add, slice_add (m := stream b head m),
      BlockCipher.cbcDecrypt_append_right (by rw [length_slice]; omega), hdec] at hall
    have hprefix := congrArg (List.take bytes.length) (Prod.mk.inj hall).1
    rw [List.take_left' rfl, List.take_left' length_slice] at hprefix
    exact hprefix.symm
  · rw [storedBody, if_neg haes] at h
    rw [stream_plain haes]
    have hshift : slice (fun a => m (sizeofHead + a)) 0 bytes.length =
        slice m sizeofHead bytes.length := slice_shift
    exact hshift.trans h

end stream

end McuUtilities.Fota
