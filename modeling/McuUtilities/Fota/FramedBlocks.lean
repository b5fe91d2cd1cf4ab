import McuUtilities.Fota.BlockFits
import McuUtilities.Fota.Framed

/-!
# The search for a framed block

What `nextBlock` does at a frame of the body, wherever its header and its block lie relative to the
chunks. It looks for the block in the chunk it reads for the header, or in the chunk that holds the
header and the next one; a header that ends a chunk it does not see at all.
-/

namespace McuUtilities.Fota
open Prog

/-- The block of `n` bytes behind the header at `pos` lies where the main loop looks for it. -/
def Reachable (pos n : Nat) : Prop :=
  let hdr := pos % fotaAlgoBuffSize
  hdr + fotaBlockHeaderSize ≠ fotaAlgoBuffSize ∧
    hdr + fotaBlockHeaderSize + n ≤ if hdr = 0 then fotaAlgoBuffSize else 2 * fotaAlgoBuffSize

/-- The header at `pos` lies across two chunks, and the block of `n` bytes ends with the second: then
`block_hdr_pos` is the remainder zero. -/
def Wraps (pos n : Nat) : Prop :=
  let hdr := pos % fotaAlgoBuffSize
  fotaAlgoBuffSize < hdr + fotaBlockHeaderSize ∧
    hdr + fotaBlockHeaderSize + n = 2 * fotaAlgoBuffSize

instance (pos n : Nat) : Decidable (Reachable pos n) := inferInstanceAs (Decidable (_ ∧ _))

instance (pos n : Nat) : Decidable (Wraps pos n) := inferInstanceAs (Decidable (_ ∧ _))

section layout
variable {pos n : Nat}

theorem reachable_of_start (h : pos % 4096 = 0) :
    Reachable pos n ↔ fotaBlockHeaderSize + n ≤ fotaAlgoBuffSize := by
  have hbuff : fotaAlgoBuffSize = 4096 := rfl
  have hhdr : fotaBlockHeaderSize = 4 := rfl
  unfold Reachable
  dsimp only
  rw [hbuff, h, if_pos rfl]
  omega

theorem reachable_of_inside (h : pos % 4096 ≠ 0) :
    Reachable pos n ↔ pos % 4096 + fotaBlockHeaderSize ≠ fotaAlgoBuffSize ∧
      pos % 4096 + fotaBlockHeaderSize + n ≤ 2 * fotaAlgoBuffSize := by
  unfold Reachable
  dsimp only
  rw [if_neg h]

theorem wraps_iff : Wraps pos n ↔ fotaAlgoBuffSize < pos % 4096 + fotaBlockHeaderSize ∧
    pos % 4096 + fotaBlockHeaderSize + n = 2 * fotaAlgoBuffSize := Iff.rfl

end layout

section defs
variable (b : Board) (head : List UInt8) (m : Nat → UInt8)

/-- The decoder has read the first `n` chunks, and holds the last of them. -/
structure Decoder.HasRead (d : Decoder) (n : Nat) : Prop where
  pos : d.fwRawPos = 4096 * n
  iv : d.aesIv = streamIv b head m n
  len : ∀ k, n = k + 1 → d.fwRawLen = fotaAlgoBuffSize
  buf : ∀ k, n = k + 1 →
    d.cryptBuf = slice (stream b head m) (4096 * k) fotaAlgoBuffSize

/-- The body holds the frame of a block at `pos`. -/
structure FrameAt (pos : Nat) (block : List UInt8) : Prop where
  header : beNat (slice (stream b head m) pos fotaBlockHeaderSize) = block.length
  payload : slice (stream b head m) (pos + fotaBlockHeaderSize) block.length = block

/-- `cmprs_buff` holds the block behind the header at `pos`. -/
structure Decoder.Found (d : Decoder) (pos : Nat) (block : List UInt8) : Prop where
  size : d.blockSize = block.length
  buff : d.cmprsBuff = fillCmprs head block
  place : d.cmprsFrom = pos + fotaBlockHeaderSize

/-- A search for the block at `pos` that ends with `n` chunks read and `hdrPos` in `block_hdr_pos`,
when the block lies in the bytes looked at, as `inside` says. -/
def SearchEnds (w : World) (pos : Nat) (block : List UInt8) (n hdrPos : Nat) (inside : Prop)
    (d : Decoder) (w' : World) : Prop :=
  inside ∧ Ticked w w' ∧ w'.decompressed = w.decompressed ∧ d.Found head pos block ∧
      d.HasRead b head m n ∧ d.blockHdrPos = hdrPos ∨
    ¬ inside ∧ w.oob < w'.oob

end defs

namespace SearchEnds
variable {b : Board} {head : List UInt8} {m : Nat → UInt8} {w w₁ w' : World} {pos n hdrPos : Nat}
  {block : List UInt8} {inside : Prop} {d : Decoder}

theorem after (h : SearchEnds b head m w₁ pos block n hdrPos inside d w') (ht : Ticked w w₁)
    (hdec : w₁.decompressed = w.decompressed) :
    SearchEnds b head m w pos block n hdrPos inside d w' := by
  rcases h with ⟨hin, ht', hdec', h⟩ | ⟨hout, hoob⟩
  · exact .inl ⟨hin, ht.trans ht', hdec'.trans hdec, h⟩
  · exact .inr ⟨hout, ht.oob ▸ hoob⟩

theorem congr {n' hdrPos' : Nat} {inside' : Prop}
    (h : SearchEnds b head m w pos block n hdrPos inside d w') (hinside : inside ↔ inside')
    (hn : inside → n = n') (hhdr : inside → hdrPos = hdrPos') :
    SearchEnds b head m w pos block n' hdrPos' inside' d w' := by
  rcases h with ⟨hin, h⟩ | ⟨hout, hoob⟩
  · exact .inl ⟨hinside.mp hin, hn hin ▸ hhdr hin ▸ h⟩
  · exact .inr ⟨fun hin => hout (hinside.mpr hin), hoob⟩

end SearchEnds

section search
variable {env : Env} {part : FalPartition} {head : List UInt8} {m : Nat → UInt8} {d : Decoder}
  {n pos : Nat} {block : List UInt8} {w : World}

theorem Decoder.hasRead_init {b : Board} : Decoder.init.HasRead b head m 0 :=
  ⟨rfl, rfl, fun _ h => (nomatch h), fun _ h => (nomatch h)⟩

theorem Decoder.HasRead.setBlock {b : Board} (hd : d.HasRead b head m n) (i hdrPos : Nat) :
    (d.setBlock head i block hdrPos).HasRead b head m n := ⟨hd.pos, hd.iv, hd.len, hd.buf⟩

theorem Decoder.HasRead.chunkPos {b : Board} (hd : d.HasRead b head m (n + 1)) :
    d.chunkPos = 4096 * n := by
  have hbuff : fotaAlgoBuffSize = 4096 := rfl
  rw [Decoder.chunkPos, hd.pos, hd.len n rfl]
  omega

variable (hrel : env.Reliable) {r : Region} (hr : env.region part = some r)
include hrel hr in
/-- The next chunk is read. -/
theorem Decoder.HasRead.refill (hd : d.HasRead env.toBoard head m n) (hm : r.view w.flash = m)
    (hin : sizeofHead + (n + 1) * 4096 ≤ part.len) :
    ∃ d' w', refill env part head d w = .done d' w' ∧ Ticked w w' ∧
      w'.decompressed = w.decompressed ∧ d'.HasRead env.toBoard head m (n + 1) := by
  have hbound := part.bound
  have hbuff : fotaAlgoBuffSize = 4096 := rfl
  have hpos := hd.pos
  have hnext : sizeofHead + d.fwRawPos + fotaAlgoBuffSize ≤ part.len := by
    rw [hpos]
    omega
  obtain ⟨w', ht, hdec, hrun⟩ := refill_in (w := w) (d := d) hrel head hr hnext
  rw [hm, hpos, hd.iv] at hrun
  obtain ⟨hlen, -⟩ : (chunk env.toBoard head m (4096 * n)
      (streamIv env.toBoard head m n)).1.length = _ ∧ _ := length_chunk length_streamIv
  refine ⟨_, w', hrun, ht, hdec, ?_, rfl, fun k hk => hlen, fun k hk => ?_⟩
  · rw [Decoder.refilled]
    dsimp only
    rw [hlen, hpos]
    simp only [u32]
    omega
  · obtain rfl := Nat.succ.inj hk
    exact slice_stream_chunk.symm

variable (hframe : FrameAt env.toBoard head m pos block)
  (husable : block.length < cmprsUsable env head)
include hframe husable

/-- The copy of a block that begins at `i` of the chunk just read. -/
theorem copyBlock_frame (hd : d.HasRead env.toBoard head m (n + 1)) {i : Nat}
    (hi : 4096 * n + i = pos + fotaBlockHeaderSize) {hdr : List UInt8}
    (hhdr : hdr = slice (stream env.toBoard head m) pos fotaBlockHeaderSize) (hdrPos : Nat → Nat) :
    Meets (do
        let blockSize ← getBlockSize env head hdr
        let payload ← peek env d.cryptBuf i blockSize
        pure (d.setBlock head i payload (hdrPos blockSize)) : Boot Decoder) w
      (SearchEnds env.toBoard head m w pos block (n + 1) (hdrPos block.length)
        (i + block.length ≤ fotaAlgoBuffSize))
      (fun _ _ => False) (fun _ _ => False) := by
  have hsize : beNat hdr = block.length := by rw [hhdr, hframe.header]
  refine Meets.bind (Meets.bind (Meets.require (fun _ => Meets.pure ?_) fun hge => ?_))
  rotate_left
  · rw [hsize] at hge
    exact absurd husable (of_decide_eq_false hge)
  rw [hsize]
  have hbuf := hd.buf n rfl
  refine Meets.bind ((peek_fits w).mono ?_ (fun _ _ h => h) fun _ _ h => h)
  rintro payload w' hpeek
  rw [hbuf, length_slice] at hpeek
  rcases hpeek with ⟨hin, rfl, rfl⟩ | ⟨hout, hoob⟩
  · have hblock : ((slice (stream env.toBoard head m) (4096 * n)
        fotaAlgoBuffSize).drop i).take block.length = block := by
      rw [take_drop_slice hin, hi, hframe.payload]
    rw [hblock]
    refine Meets.pure (.inl ⟨hin, Ticked.refl _, rfl, ⟨rfl, rfl, ?_⟩, hd.setBlock _ _, rfl⟩)
    rw [← hi, ← hd.chunkPos]
    rfl
  · exact Meets.pure (.inr ⟨hout, by omega⟩)

include hrel hr

/-- A header that begins a chunk. -/
theorem blockAtChunk_frame (hd : d.HasRead env.toBoard head m n) (hm : r.view w.flash = m)
    (hin : sizeofHead + (n + 1) * 4096 ≤ part.len) (hpos : pos = 4096 * n) :
    Meets (blockAtChunk env part head d) w
      (SearchEnds env.toBoard head m w pos block (n + 1) (fotaBlockHeaderSize + block.length)
        (fotaBlockHeaderSize + block.length ≤ fotaAlgoBuffSize))
      (fun _ _ => False) (fun _ _ => False) := by
  obtain ⟨d₁, w₁, hrun, ht, hdec, hd₁⟩ := hd.refill hrel hr hm hin
  have hhdr : d₁.cryptBuf.take fotaBlockHeaderSize =
      slice (stream env.toBoard head m) pos fotaBlockHeaderSize := by
    rw [hd₁.buf n rfl, take_slice, hpos]
    rfl
  refine Meets.bind (Meets.of_done hrun ((copyBlock_frame hframe husable hd₁ (by rw [hpos]) hhdr
    fun size => fotaBlockHeaderSize + size).mono ?_ (fun _ _ h => h) fun _ _ h => h))
  exact fun d' w' h => h.after ht hdec

/-- A header that lies across two chunks, with its first `k` bytes in the one held. -/
theorem blockSplitHeader_frame (hd : d.HasRead env.toBoard head m (n + 1)) (hm : r.view w.flash = m)
    (hin : sizeofHead + (n + 2) * 4096 ≤ part.len) {k : Nat} (hk : k ≤ fotaBlockHeaderSize)
    (hpos : pos + k = 4096 * (n + 1)) :
    Meets (blockSplitHeader env part head d (slice (stream env.toBoard head m) pos k)) w
      (SearchEnds env.toBoard head m w pos block (n + 2)
        ((fotaBlockHeaderSize - k + block.length) % fotaAlgoBuffSize)
        (fotaBlockHeaderSize - k + block.length ≤ fotaAlgoBuffSize))
      (fun _ _ => False) (fun _ _ => False) := by
  have hbuff : fotaAlgoBuffSize = 4096 := rfl
  have hhdr4 : fotaBlockHeaderSize = 4 := rfl
  obtain ⟨d₁, w₁, hrun, ht, hdec, hd₁⟩ := hd.refill hrel hr hm hin
  have hhdr : slice (stream env.toBoard head m) pos k ++ d₁.cryptBuf.take (fotaBlockHeaderSize - k) =
      slice (stream env.toBoard head m) pos fotaBlockHeaderSize := by
    have hsplit : fotaBlockHeaderSize = k + (fotaBlockHeaderSize - k) := by omega
    have hmin : min (fotaBlockHeaderSize - k) fotaAlgoBuffSize = fotaBlockHeaderSize - k := by omega
    rw [hd₁.buf (n + 1) rfl, take_slice, hmin, ← hpos, ← slice_add, ← hsplit]
  unfold blockSplitHeader
  rw [length_slice]
  refine Meets.bind (Meets.of_done hrun ((copyBlock_frame hframe husable hd₁ (by omega) hhdr
    fun size => (fotaBlockHeaderSize - k + size) % fotaAlgoBuffSize).mono ?_ (fun _ _ h => h)
      fun _ _ h => h))
  exact fun d' w' h => h.after ht hdec

omit husable in
/-- A header in the chunk held, whose block begins at `i` of that chunk and goes on in the next. -/
theorem blockAcross_frame (hd : d.HasRead env.toBoard head m (n + 1)) (hm : r.view w.flash = m)
    (hin : sizeofHead + (n + 2) * 4096 ≤ part.len) {i rest : Nat} (hi : i < fotaAlgoBuffSize)
    (hpos : 4096 * n + i = pos + fotaBlockHeaderSize)
    (hrest : block.length + i = fotaAlgoBuffSize + rest) :
    Meets (blockAcross env part head d i rest) w
      (SearchEnds env.toBoard head m w pos block (n + 2) rest (rest ≤ fotaAlgoBuffSize))
      (fun _ _ => False) (fun _ _ => False) := by
  have hbuff : fotaAlgoBuffSize = 4096 := rfl
  obtain ⟨d₁, w₁, hrun, ht, hdec, hd₁⟩ := hd.refill hrel hr hm hin
  have hnext := hd₁.buf (n + 1) rfl
  refine Meets.bind (Meets.of_done hrun (Meets.bind ((peek_fits w₁).mono ?_ (fun _ _ h => h)
    fun _ _ h => h)))
  rintro tail w₂ hpeek
  rw [hnext, length_slice, Nat.zero_add] at hpeek
  rcases hpeek with ⟨hle, rfl, rfl⟩ | ⟨hout, hoob⟩
  · have hblock : d.cryptBuf.drop i ++ ((slice (stream env.toBoard head m) (4096 * (n + 1))
        fotaAlgoBuffSize).drop 0).take rest = block := by
      have hsplit : block.length = fotaAlgoBuffSize - i + rest := by omega
      have hplace : 4096 * (n + 1) = pos + fotaBlockHeaderSize + (fotaAlgoBuffSize - i) := by omega
      rw [hd.buf n rfl, drop_slice, hpos, List.drop_zero, take_slice, Nat.min_eq_left hle, hplace,
        ← slice_add, ← hsplit, hframe.payload]
    rw [hblock]
    have hd₂ := @Decoder.HasRead.setBlock head m d₁ (n + 2) block env.toBoard hd₁ 0 rest
    refine Meets.pure (.inl ⟨hle, ht, hdec, ⟨rfl, rfl, ?_⟩, ⟨hd₂.pos, hd₂.iv, hd₂.len, hd₂.buf⟩, rfl⟩)
    dsimp only
    rw [hd.chunkPos, hpos]
  · refine Meets.pure (.inr ⟨hout, ?_⟩)
    rw [hoob, ht.oob]
    exact Nat.lt_succ_self _

/-- A header in the chunk held, with bytes of that chunk behind it. -/
theorem blockInChunk_frame (hd : d.HasRead env.toBoard head m (n + 1)) (hm : r.view w.flash = m)
    (hin : sizeofHead + (n + 2) * 4096 ≤ part.len) {i : Nat} (hi : i < fotaAlgoBuffSize)
    (hpos : 4096 * n + i = pos + fotaBlockHeaderSize) :
    Meets (blockInChunk env part head d
        (slice (stream env.toBoard head m) pos fotaBlockHeaderSize) i) w
      (fun d' w' =>
        if i + block.length ≤ fotaAlgoBuffSize then
          SearchEnds env.toBoard head m w pos block (n + 1) (i + block.length) True d' w'
        else
          SearchEnds env.toBoard head m w pos block (n + 2) (i + block.length - fotaAlgoBuffSize)
            (i + block.length ≤ 2 * fotaAlgoBuffSize) d' w')
      (fun _ _ => False) (fun _ _ => False) := by
  have hbuff : fotaAlgoBuffSize = 4096 := rfl
  refine Meets.bind (Meets.bind (Meets.require (fun _ => Meets.pure ?_) fun hge => ?_))
  rotate_left
  · rw [hframe.header] at hge
    exact absurd husable (of_decide_eq_false hge)
  rw [hframe.header]
  refine Meets.ite (fun hacross => ?_) fun hno => ?_
  · rw [Nat.add_comm block.length i]
    refine (blockAcross_frame hrel hr hframe hd hm hin hi hpos (by omega)).mono ?_
      (fun _ _ h => h) fun _ _ h => h
    intro d' w' h
    rw [if_neg (by omega)]
    exact h.congr (by omega) (fun _ => rfl) fun _ => rfl
  · have hlen : i + block.length ≤ fotaAlgoBuffSize := by omega
    have hblock : (d.cryptBuf.drop i).take block.length = block := by
      rw [hd.buf n rfl, take_drop_slice hlen, hpos, hframe.payload]
    rw [hblock]
    refine Meets.pure ?_
    rw [if_pos hlen]
    refine .inl ⟨trivial, Ticked.refl _, rfl, ⟨rfl, rfl, ?_⟩, hd.setBlock _ _, rfl⟩
    rw [← hpos, ← hd.chunkPos]
    rfl

/-- The position of a decoder that is about to look for the header at `pos`. -/
structure Decoder.AtFrame (b : Board) (head : List UInt8) (m : Nat → UInt8) (d : Decoder) (pos : Nat) :
    Prop where
  read : d.HasRead b head m ((pos + 4095) / 4096)
  hdr : d.blockHdrPos + roundUp pos = pos + fotaAlgoBuffSize

/-- The search for the header at `pos` finds its block, or looks past the end of a chunk, or, when the
header ends a chunk, leaves the block before in `cmprs_buff`. -/
theorem nextBlock_frame (hd : d.AtFrame env.toBoard head m pos) (hm : r.view w.flash = m)
    (hin : sizeofHead + roundUp pos + fotaAlgoBuffSize ≤ part.len) :
    Meets (nextBlock env part head d) w
      (fun d' w' =>
        SearchEnds env.toBoard head m w pos block
            ((pos + fotaBlockHeaderSize + block.length + 4095) / 4096)
            (if Wraps pos block.length then 0
              else pos + fotaBlockHeaderSize + block.length + fotaAlgoBuffSize -
                roundUp (pos + fotaBlockHeaderSize + block.length))
            (Reachable pos block.length) d' w' ∨
          pos % 4096 + fotaBlockHeaderSize = fotaAlgoBuffSize ∧ Peeks w w' ∧
            d'.cmprsFrom = d.cmprsFrom)
      (fun _ _ => False) (fun _ _ => False) := by
  have hbuff : fotaAlgoBuffSize = 4096 := rfl
  have hhdr4 : fotaBlockHeaderSize = 4 := rfl
  have hsize : sizeofHead = 96 := rfl
  have hhdr := hd.hdr
  have hread := hd.read
  unfold roundUp at *
  generalize hN : (pos + 4095) / 4096 = N at hread hhdr hin
  unfold nextBlock
  refine Meets.ite (fun h => ?_) fun h => ?_
  · -- the chunk is used up
    have hpos : pos = 4096 * N := by omega
    refine (blockAtChunk_frame hrel hr hframe husable hread hm (by omega) hpos).mono ?_
      (fun _ _ h => h) fun _ _ h => h
    have hmod : pos % 4096 = 0 := by omega
    have hnowrap : ¬ Wraps pos block.length := by
      rw [wraps_iff]
      omega
    intro d' w' h
    rw [if_neg hnowrap]
    exact .inl (h.congr (reachable_of_start hmod).symm (fun _ => by omega) fun _ => by omega)
  obtain ⟨k, rfl⟩ : ∃ k, N = k + 1 := ⟨N - 1, by omega⟩
  have hmod : pos % 4096 = d.blockHdrPos := by omega
  have hreach := @reachable_of_inside pos block.length (by omega)
  rw [hmod] at hreach
  have hbytes {j : Nat} (hj : d.blockHdrPos + j ≤ fotaAlgoBuffSize) :
      (d.cryptBuf.drop d.blockHdrPos).take j = slice (stream env.toBoard head m) pos j := by
    rw [hread.buf k rfl, take_drop_slice hj]
    congr 1
    omega
  dsimp only
  refine Meets.ite (fun hsplit => ?_) fun hwhole => ?_
  · -- the header crosses into the next chunk
    have hmin : min fotaBlockHeaderSize (fotaAlgoBuffSize - d.blockHdrPos) =
        fotaAlgoBuffSize - d.blockHdrPos := by omega
    rw [hmin, hbytes (by omega)]
    refine (blockSplitHeader_frame hrel hr hframe husable hread hm (by omega) hsplit.le
      (by omega)).mono ?_ (fun _ _ h => h) fun _ _ h => h
    intro d' w' h
    refine .inl (h.congr ?_ (fun _ => by omega) fun _ => ?_)
    · rw [hreach]
      omega
    · have hwraps := @wraps_iff pos block.length
      rw [hmod] at hwraps
      rw [hbuff, hhdr4] at hwraps ⊢
      split
      · next hwrap =>
        have := hwraps.mp hwrap
        omega
      · next hwrap =>
        have := mt hwraps.mpr hwrap
        omega
  have hmin : min fotaBlockHeaderSize (fotaAlgoBuffSize - d.blockHdrPos) = fotaBlockHeaderSize := by
    omega
  rw [hmin]
  refine Meets.ite (fun hlt => ?_) fun hend => ?_
  · -- the header and a byte behind it lie in the chunk
    rw [hbytes (by omega)]
    refine (blockInChunk_frame hrel hr hframe husable hread hm (by omega) hlt (by omega)).mono ?_
      (fun _ _ h => h) fun _ _ h => h
    have hnowrap : ¬ Wraps pos block.length := by
      rw [wraps_iff, hmod]
      omega
    intro d' w' h
    rw [if_neg hnowrap]
    split at h
    · have hreached : Reachable pos block.length := hreach.mpr ⟨by omega, by omega⟩
      exact .inl (h.congr (iff_of_true trivial hreached) (fun _ => by omega) fun _ => by omega)
    · refine .inl (h.congr ?_ (fun _ => by omega) fun _ => by omega)
      rw [hreach]
      omega
  · -- the header ends the chunk
    exact Meets.pure (.inr ⟨by omega, Peeks.refl w, rfl⟩)

end search

section place
variable {env : Env} {part : FalPartition} {head : List UInt8} {d : Decoder} (hd : d.Within part)
  {i : Nat} (w : World)
include hd

theorem blockAcross_place {rest : Nat} :
    Meets (blockAcross env part head d i rest) w (fun d' _ => d'.cmprsFrom = d.chunkPos + i)
      (fun _ _ => True) (fun _ _ => False) := by
  refine Meets.bind ((refill_within hd w).mono ?_ (fun _ _ _ => trivial) fun _ _ h => h)
  rintro d₁ w₁ -
  refine Meets.bind ((peek_meets w₁).mono ?_ (fun _ _ h => h.elim) fun _ _ h => h)
  rintro tail w₂ -
  exact Meets.pure rfl

/-- A block that is looked for in the chunk held is taken from there. -/
theorem blockInChunk_place {hdr : List UInt8} :
    Meets (blockInChunk env part head d hdr i) w (fun d' _ => d'.cmprsFrom = d.chunkPos + i)
      (fun _ _ => True) (fun _ _ => False) := by
  refine Meets.bind ((getBlockSize_meets w).mono ?_ (fun _ _ _ => trivial) fun _ _ h => h)
  rintro size w₁ -
  exact Meets.ite (fun _ => blockAcross_place hd w₁) fun _ => Meets.pure rfl

end place

end McuUtilities.Fota
