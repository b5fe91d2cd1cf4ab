import McuUtilities.Fota.FramedBlocks
import McuUtilities.Fota.Pieces

/-!
# Framed images

A partition that holds the frames of compressed blocks, under a header that says so, and what it means
that `fota_upgrade_verify` decodes it. `Streamable` is the condition for that: the main loop finds the
blocks it has to find, and the count of the decoded bytes does not wrap around.
-/

namespace McuUtilities.Fota
open Prog

section defs
variable (b : Board) (head : List UInt8)

/-- What a block decompresses to. -/
def blockOutput (block : List UInt8) : List UInt8 :=
  if Head.cmprsAlgo head = fotaCmprsAlgoFastlz then
    b.fastlzDecompress (fillCmprs head block) block.length fotaCmprsBufferSize
  else if Head.cmprsAlgo head = fotaCmprsAlgoQuicklz then b.qlzDecompress (fillCmprs head block)
  else []

/-- What the blocks decompress to, one after the other. -/
def output (blocks : List (List UInt8)) : List UInt8 := blocks.flatMap (blockOutput b head)

/-- A partition of length `len` with contents `m` holds the framed image of the blocks, and the header
says so. Before encryption the frames are filled up with `pad` to a multiple of 16. -/
structure FramedImage (len : Nat) (m : Nat → UInt8) (blocks : List (List UInt8)) (pad : List UInt8) :
    Prop where
  cmprs : Head.cmprsAlgo head = fotaCmprsAlgoFastlz ∨ Head.cmprsAlgo head = fotaCmprsAlgoQuicklz
  crypt : Head.cryptAlgo head ≠ fotaCryptAlgoXor
  block : ∀ block ∈ blocks, block ≠ [] ∧ block.length < fotaCmprsBufferSize + paddingSize head
  decompresses : ∀ block ∈ blocks, blockOutput b head block ≠ [] ∧
    (blockOutput b head block).length ≤ fotaCmprsBufferSize
  padding : if Head.cryptAlgo head = fotaCryptAlgoAes256 then
    pad.length < 16 ∧ (framed blocks ++ pad).length % 16 = 0 else pad = []
  comSize : Head.comSize head = (framed blocks ++ pad).length
  rawSize : Head.rawSize head ≤ (output b head blocks).length
  hashVal : Head.hashVal head =
    fotaCalcHashCode ((output b head blocks).take (Head.rawSize head)) fnvSeed
  stored : slice m sizeofHead (framed blocks ++ pad).length =
    storedBody b head (framed blocks ++ pad)
  fits : sizeofHead + roundUp (framed blocks ++ pad).length ≤ len

/-- The blocks from `pos` on, after `total` decoded bytes, are decoded. The main loop looks for the
blocks whose header does not begin in the last chunk, even when it has decoded all it needs. A block
that makes `block_hdr_pos` wrap is found, but what follows it is not. -/
def Streamable : Nat → Nat → List (List UInt8) → Prop
  | _, _, [] => True
  | pos, total, block :: rest =>
    (roundUp pos < Head.comSize head →
        Reachable pos block.length ∧ (Wraps pos block.length → rest = [])) ∧
      (roundUp pos < Head.comSize head ∨ total < Head.rawSize head →
        min total (Head.rawSize head) + (blockOutput b head block).length < 2 ^ 32) ∧
      Streamable (pos + fotaBlockHeaderSize + block.length)
        (total + (blockOutput b head block).length) rest

instance : ∀ pos total blocks, Decidable (Streamable b head pos total blocks)
  | _, _, [] => isTrue trivial
  | pos, total, block :: rest =>
    have : Decidable (Streamable b head (pos + fotaBlockHeaderSize + block.length)
      (total + (blockOutput b head block).length) rest) := instDecidableStreamable _ _ rest
    inferInstanceAs (Decidable (_ ∧ _ ∧ _))

/-- Between the two states the image was decoded: no access was outside a buffer, each block was
decompressed at most once, in order, and the first `raw_size` bytes of their output were hashed. -/
structure Decoded (blocks : List (List UInt8)) (w w' : World) : Prop where
  oob : w'.oob = w.oob
  order : (w'.decompressed.drop w.decompressed.length).Sublist (located 0 blocks)
  hashed : w'.hashed = w.hashed ++ (output b head blocks).take (Head.rawSize head)

/-- `fota_upgrade_verify` accepts the image, having decoded it. -/
def VerifiesFramed (env : Env) (name : List UInt8) (blocks : List (List UInt8)) (w : World) : Prop :=
  ∃ w', fotaUpgradeVerify env (some name) w = .done .noErr w' ∧
    Decoded env.toBoard w.rblFotaPartHead blocks w w'

/-- Something was read outside a buffer, decompressed out of order or hashed in excess. -/
def Astray (blocks : List (List UInt8)) (w w' : World) : Prop :=
  w.oob < w'.oob ∨
    ¬ (w'.decompressed.drop w.decompressed.length).Sublist (located 0 blocks) ∨
    w.hashed.length + Head.rawSize head < w'.hashed.length

/-- The blocks `pre` were decompressed since `w₀`. -/
structure OnTrack (w₀ : World) (pre : List (List UInt8)) (t : VerifyState) (w : World) : Prop where
  flash : w.flash = w₀.flash
  oob : w.oob = w₀.oob
  decompressed : w.decompressed = w₀.decompressed ++ located 0 pre
  hashed : w.hashed = w₀.hashed ++ (output b head pre).take (Head.rawSize head)
  state : t = ⟨min (output b head pre).length (Head.rawSize head),
    fotaCalcHashCode ((output b head pre).take (Head.rawSize head)) fnvSeed⟩

end defs

theorem output_append {b : Board} {head : List UInt8} {blocks blocks' : List (List UInt8)} :
    output b head (blocks ++ blocks') = output b head blocks ++ output b head blocks' :=
  List.flatMap_append

theorem output_concat {b : Board} {head : List UInt8} {blocks : List (List UInt8)}
    {block : List UInt8} : output b head (blocks ++ [block]) =
      output b head blocks ++ blockOutput b head block := by
  rw [output_append, output, output, List.flatMap_singleton]

section astray
variable {head : List UInt8} {blocks : List (List UInt8)} {w w' w'' : World}

/-- What went astray stays astray. -/
theorem Astray.quiet (h : Astray head blocks w w') (hq : Quiet w' w'') : Astray head blocks w w'' := by
  rcases h with hoob | hblocks | hhashed
  · exact .inl (Nat.lt_of_lt_of_le hoob hq.oob)
  · exact .inr (.inl fun hsub => hblocks ((hq.decompressed.sublist.drop _).trans hsub))
  · exact .inr (.inr (Nat.lt_of_lt_of_le hhashed hq.hashed.length_le))

theorem Decoded.not_astray {b : Board} (h : Decoded b head blocks w w') : ¬ Astray head blocks w w' := by
  have hlen := congrArg List.length h.hashed
  rw [List.length_append, List.length_take] at hlen
  rintro (hoob | hblocks | hhashed)
  · exact absurd h.oob (Nat.ne_of_gt hoob)
  · exact hblocks h.order
  · omega

theorem Astray.after (h : Astray head blocks w' w'') (ht : Ticked w w')
    (hdec : w'.decompressed = w.decompressed) : Astray head blocks w w'' := by
  unfold Astray at *
  rwa [ht.oob, hdec, ht.hashed] at h

theorem Decoded.after {b : Board} (h : Decoded b head blocks w' w'') (ht : Ticked w w')
    (hdec : w'.decompressed = w.decompressed) : Decoded b head blocks w w'' :=
  ⟨h.oob.trans ht.oob, hdec ▸ h.order, ht.hashed ▸ h.hashed⟩

/-- A block that is not the next one. -/
theorem astray_of_record {pre rest : List (List UInt8)} {p : Nat} {block : List UInt8}
    (hsplit : blocks = pre ++ rest)
    (h : w'.decompressed = w.decompressed ++ located 0 pre ++ [(p, block)])
    (hp : p < (framed pre).length + fotaBlockHeaderSize) : Astray head blocks w w' := by
  refine .inr (.inl fun hsub => ?_)
  rw [h, List.append_assoc, List.drop_left, hsplit, located_append, List.append_sublist_append_left,
    List.singleton_sublist] at hsub
  have := le_of_mem_located hsub
  omega

end astray

/-! ## One block -/

section hand
variable {env : Env} {head : List UInt8} {w₀ w : World} {d : Decoder} {pre : List (List UInt8)}
  {block : List UInt8} {t : VerifyState}

theorem decompress_records : Meets (decompress env head d) w
    (fun _ w' => w'.decompressed =
      w.decompressed ++ [(d.cmprsFrom, d.cmprsBuff.take d.blockSize)])
    (fun _ _ => True) (fun _ _ => False) := by
  refine Meets.bind (Meets.of_done rfl (Meets.bind (Meets.require (fun _ => ?_) fun _ => trivial)))
  exact ((peek_meets _).and_always peek_peeks).mono (fun _ _ h => h.2.decompressed)
    (fun _ _ h => h.1.elim) fun _ _ h => h.1

/-- The block that was found is decompressed. -/
theorem decompress_found {pos : Nat} (hd : d.Found head pos block)
    (hne : blockOutput env.toBoard head block ≠ [])
    (hlen : (blockOutput env.toBoard head block).length ≤ fotaCmprsBufferSize) :
    decompress env head d w = .done (blockOutput env.toBoard head block)
      { w with decompressed := w.decompressed ++ [(pos + fotaBlockHeaderSize, block)] } := by
  have htake : d.cmprsBuff.take d.blockSize = block := by
    rw [hd.buff, hd.size]
    exact List.take_left' rfl
  have hout : (if Head.cmprsAlgo head = fotaCmprsAlgoFastlz then
      env.fastlzDecompress d.cmprsBuff d.blockSize fotaCmprsBufferSize
    else if Head.cmprsAlgo head = fotaCmprsAlgoQuicklz then env.qlzDecompress d.cmprsBuff
    else []) = blockOutput env.toBoard head block := by
    rw [hd.buff, hd.size]
    rfl
  have hpos : (blockOutput env.toBoard head block).length ≠ 0 := fun h =>
    hne (List.eq_nil_of_length_eq_zero h)
  unfold decompress
  rw [bind_done (modify_apply _), hout, decide_eq_true hpos, require_true, bind_done (pure_apply _),
    htake, hd.place]
  generalize blockOutput env.toBoard head block = out at hlen ⊢
  rw [List.take_of_length_le hlen]
  simp only [peek, Nat.zero_add, Nat.le_refl, if_true, List.drop_zero, List.take_length]

/-- The next block is decompressed and hashed as it should, unless the count wraps around. -/
theorem OnTrack.hand (h : OnTrack env.toBoard head w₀ pre t w) (blocks : List (List UInt8))
    (hd : d.Found head (framed pre).length block) (hne : blockOutput env.toBoard head block ≠ [])
    (hlen : (blockOutput env.toBoard head block).length ≤ fotaCmprsBufferSize) :
    ∃ w₁ t' w', decompress env head d w = .done (blockOutput env.toBoard head block) w₁ ∧
      verifySink (Head.rawSize head) t (blockOutput env.toBoard head block) w₁ = .done t' w' ∧
      if min (output env.toBoard head pre).length (Head.rawSize head) +
          (blockOutput env.toBoard head block).length < 2 ^ 32 then
        OnTrack env.toBoard head w₀ (pre ++ [block]) t' w'
      else Astray head blocks w₀ w' := by
  refine ⟨_, _, _, decompress_found hd hne hlen, verifySink_eq, ?_⟩
  rw [h.state]
  dsimp only
  split
  · next hfit =>
    obtain ⟨hstate, hhashed⟩ := verifyPiece_eq hfit
    refine ⟨h.flash, h.oob, ?_, ?_, ?_⟩
    · dsimp only
      rw [h.decompressed, located_append, List.append_assoc, Nat.zero_add]
      rfl
    · dsimp only
      rw [h.hashed, List.append_assoc, hhashed, output_concat]
    · rw [hstate, output_concat]
  · next hwrap =>
    have hcut := cutPiece_of_wrap Head.rawSize_lt (Nat.min_le_right _ _) hlen (Nat.le_of_not_lt hwrap)
    refine .inr (.inr ?_)
    have hraw := @Head.rawSize_lt head
    dsimp only
    rw [hcut, h.hashed]
    simp only [List.length_append, List.length_take]
    omega

end hand

/-! ## The image -/

namespace FramedImage
variable {b : Board} {head : List UInt8} {len : Nat} {m : Nat → UInt8} {blocks : List (List UInt8)}
  {pad : List UInt8} (h : FramedImage b head len m blocks pad)
include h

theorem le_comSize : (framed blocks).length ≤ Head.comSize head := by
  rw [h.comSize, List.length_append]
  exact Nat.le_add_right _ _

/-- No chunk is read for the padding alone. -/
theorem comSize_le_roundUp : Head.comSize head ≤ roundUp (framed blocks).length := by
  have hpad := h.padding
  rw [h.comSize, List.length_append]
  unfold roundUp
  split at hpad
  · rw [List.length_append] at hpad
    omega
  · rw [hpad, List.length_nil]
    omega

/-- There is room for a chunk the main loop may read. -/
theorem room {pos : Nat} (hlt : roundUp pos < Head.comSize head) :
    sizeofHead + roundUp pos + fotaAlgoBuffSize ≤ len := by
  have hbuff : fotaAlgoBuffSize = 4096 := rfl
  have hfits := h.fits
  rw [← h.comSize] at hfits
  unfold roundUp at *
  omega

theorem cmprs_ne_zero : Head.cmprsAlgo head ≠ 0 := by
  rcases h.cmprs with hc | hc <;> rw [hc] <;> decide

theorem supported : AlgoSupported head := by
  refine ⟨h.crypt, ?_⟩
  rcases h.cmprs with hc | hc <;> rw [hc] <;> decide

variable {pre rest : List (List UInt8)} {block : List UInt8} (hsplit : blocks = pre ++ block :: rest)
include hsplit

omit h in
theorem mem_next : block ∈ blocks := by
  rw [hsplit]
  exact List.mem_append_right _ List.mem_cons_self

theorem usable {env : Env} : block.length < cmprsUsable env head := by
  rw [cmprsUsable, if_pos h.cmprs]
  exact Nat.lt_of_lt_of_le (h.block block (mem_next hsplit)).2 (env.le_mallocUsableSize _)

theorem length_pos : 0 < block.length :=
  List.length_pos_iff.mpr (h.block block (mem_next hsplit)).1

/-- The next block ends in the body. -/
theorem next_le : (framed pre).length + fotaBlockHeaderSize + block.length ≤ Head.comSize head := by
  have hle := h.le_comSize
  rw [hsplit, framed_append, List.length_append, length_framed_cons] at hle
  omega

/-- The frames lie one behind the other in the body. -/
theorem frameAt : FrameAt b head m (framed pre).length block := by
  have hhdr : fotaBlockHeaderSize = 4 := rfl
  have hsmall : block.length < 256 ^ fotaBlockHeaderSize := by
    have hlen := (h.block block (mem_next hsplit)).2
    have hpadding : paddingSize head ≤ 400 := by
      unfold paddingSize
      split
      · decide
      · split <;> decide
    have hmax : fotaCmprsBufferSize + 400 < 256 ^ fotaBlockHeaderSize := by decide
    omega
  have hbytes : framed blocks ++ pad = framed pre ++ (frame block ++ (framed rest ++ pad)) := by
    rw [hsplit, framed_append, framed_cons, List.append_assoc, List.append_assoc]
  have hstream : slice (stream b head m) 0 (framed blocks ++ pad).length = framed blocks ++ pad := by
    refine stream_of_stored (fun haes => ?_) h.stored
    have hpad := h.padding
    rw [if_pos haes] at hpad
    exact hpad.2
  have hat {i k : Nat} (hik : i + k ≤ (frame block).length) :
      slice (stream b head m) ((framed pre).length + i) k = ((frame block).drop i).take k := by
    have hlen : (framed pre).length + i + k ≤ (framed blocks ++ pad).length := by
      rw [hbytes, List.length_append, List.length_append]
      omega
    have hpart : ((slice (stream b head m) 0 (framed blocks ++ pad).length).drop
        ((framed pre).length + i)).take k = slice (stream b head m) (0 + ((framed pre).length + i)) k :=
      take_drop_slice hlen
    rw [hstream, hbytes, ← List.drop_drop, List.drop_left, Nat.zero_add] at hpart
    rw [← hpart, List.drop_append_of_le_length (by omega), List.take_append_of_le_length (by
      rw [List.length_drop]
      omega)]
  rw [length_frame] at hat
  refine ⟨?_, ?_⟩
  · have hheader := @hat 0 fotaBlockHeaderSize (by omega)
    rw [List.drop_zero, frame, List.take_left' length_beBytes, Nat.add_zero] at hheader
    rw [hheader, beNat_beBytes hsmall]
  · have hpayload := @hat fotaBlockHeaderSize block.length (Nat.le_refl _)
    rw [frame, List.drop_left' length_beBytes, List.take_length] at hpayload
    exact hpayload

end FramedImage

end McuUtilities.Fota
