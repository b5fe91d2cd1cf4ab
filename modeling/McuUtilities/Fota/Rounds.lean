import McuUtilities.Fota.Lockstep

/-!
# The rounds of the decoder

What each round of the two loops does, whatever the image, whichever allocations and reads fail and
whatever a read past the end of a buffer sees. A round of the main loop reads a chunk or moves on in
the current one, so `Decoder.remaining` decreases; a round of the tail loop moves on in the last
chunk. Hence `decode_meets`, the rule for invariants of a sink: the loops always end.
-/

namespace McuUtilities.Fota
open Prog

/-- The locals are those of a decoder that has read whole chunks inside the partition. -/
structure Decoder.Within (part : FalPartition) (d : Decoder) : Prop extends d.Sane part where
  raw : d.fwRawLen ≤ d.fwRawPos
  chunk : d.fwRawLen ≤ fotaAlgoBuffSize

theorem Decoder.within_init (part : FalPartition) : Decoder.init.Within part :=
  ⟨⟨Nat.zero_le _, rfl, Nat.zero_le _⟩, Nat.le_refl _, Nat.zero_le _⟩

/-- The bytes left in the partition and in the chunk. -/
def Decoder.remaining (part : FalPartition) (d : Decoder) : Nat :=
  (part.len - d.fwRawPos) + (fotaAlgoBuffSize - d.blockHdrPos)

/-- The lengths a decoded piece may have. -/
def PieceLen (b : Board) (n : Nat) : Prop :=
  n ≤ fotaAlgoBuffSize ∨ ∃ source, n = (b.qlzDecompress source).length

section steps
variable {env : Env} {part : FalPartition} {head : List UInt8} {d : Decoder} {w : World}

/-- Whatever fails, a chunk that is read and decrypted is the one asked for. -/
theorem fotaReadPart_cases {readPos : Nat} (iv : List UInt8) (hpos : readPos ≤ part.len) (w : World) :
    ∃ w', Ticked w w' ∧
      ((∃ e, fotaReadPart env part readPos (Head.cryptAlgo head = fotaCryptAlgoAes256) iv
          fotaAlgoBuffSize w = .fail e w') ∨
        ∃ r, env.region part = some r ∧ sizeofHead + readPos + fotaAlgoBuffSize ≤ part.len ∧
          fotaReadPart env part readPos (Head.cryptAlgo head = fotaCryptAlgoAes256) iv
            fotaAlgoBuffSize w = .done (chunk env.toBoard head (r.view w.flash) readPos iv) w') := by
  have hbound := part.bound
  have hbuff : fotaAlgoBuffSize = 4096 := rfl
  have hsize : sizeofHead = 96 := rfl
  have haddr : u32 (sizeofHead + readPos) = sizeofHead + readPos := by
    simp only [u32]
    omega
  have hlen : ¬ (fotaAlgoBuffSize % 16 ≠ 0 ∨ fotaAlgoBuffSize < fotaAlgoBuffSize) := by decide
  have hread := @falPartitionRead_cases env part (sizeofHead + readPos) fotaAlgoBuffSize (by omega)
  unfold fotaReadPart chunk
  rw [if_neg hlen, haddr]
  by_cases haes : Head.cryptAlgo head = fotaCryptAlgoAes256
  · rw [if_pos (decide_eq_true haes)]
    have ht₁ : Ticked w { w with allocs := w.allocs + 1 } := ⟨rfl, rfl, rfl, rfl, rfl, rfl, rfl⟩
    have hmalloc : malloc env w = .done (env.allocOk w.allocs) { w with allocs := w.allocs + 1 } := rfl
    cases halloc : env.allocOk w.allocs with
    | false =>
      refine ⟨_, ht₁, .inl ⟨.generalErr, ?_⟩⟩
      rw [bind_done hmalloc, halloc]
      rfl
    | true =>
      obtain ⟨w', ht, -, hnone | ⟨r, hr, hin, hrun⟩⟩ := hread { w with allocs := w.allocs + 1 }
      · refine ⟨w', ht₁.trans ht, .inl ⟨.partReadErr, ?_⟩⟩
        rw [bind_done hmalloc, halloc, require_true, bind_done (pure_apply _), bind_done hnone]
        rfl
      · have hbuf : ¬ ((slice (r.view w.flash) (sizeofHead + readPos) fotaAlgoBuffSize).length = 0 ∨
            (slice (r.view w.flash) (sizeofHead + readPos) fotaAlgoBuffSize).length % 16 ≠ 0) := by
          rw [length_slice]
          decide
        refine ⟨w', ht₁.trans ht, .inr ⟨r, hr, hin, ?_⟩⟩
        rw [bind_done hmalloc, halloc, require_true, bind_done (pure_apply _), bind_done hrun,
          if_pos haes]
        dsimp only
        rw [if_neg hbuf, pure_apply, length_slice]
  · rw [if_neg fun h => haes (of_decide_eq_true h)]
    obtain ⟨w', ht, -, hnone | ⟨r, hr, hin, hrun⟩⟩ := hread w
    · refine ⟨w', ht, .inl ⟨.partReadErr, ?_⟩⟩
      rw [bind_done hnone]
      rfl
    · have hbuf : ¬ (slice (r.view w.flash) (sizeofHead + readPos) fotaAlgoBuffSize).length = 0 := by
        rw [length_slice]
        decide
      refine ⟨w', ht, .inr ⟨r, hr, hin, ?_⟩⟩
      rw [bind_done hrun, if_neg haes]
      dsimp only
      rw [if_neg hbuf, pure_apply]

/-- Whatever fails, a chunk that is read is the next one of the partition. -/
theorem refill_meets (hd : d.Within part) (w : World) :
    Meets (refill env part head d) w
      (fun d' w' => Ticked w w' ∧ ∃ r, env.region part = some r ∧
        sizeofHead + d.fwRawPos + fotaAlgoBuffSize ≤ part.len ∧
        d' = d.refilled (chunk env.toBoard head (r.view w.flash) d.fwRawPos d.aesIv))
      (fun e w' => Ticked w w' ∧ e = .partReadErr) (fun _ _ => False) := by
  obtain ⟨w', ht, ⟨e, hfail⟩ | ⟨r, hr, hin, hread⟩⟩ :=
    @fotaReadPart_cases env part head d.fwRawPos d.aesIv hd.pos w
  · have hrun : refill env part head d w = .fail .partReadErr w' := by
      rw [refill, bind_done (attempt_fail hfail)]
      rfl
    exact Meets.of_fail hrun ⟨ht, rfl⟩
  · have hrun : refill env part head d w =
        .done (d.refilled (chunk env.toBoard head (r.view w.flash) d.fwRawPos d.aesIv)) w' := by
      rw [refill, bind_done (attempt_done hread)]
      rfl
    exact Meets.of_done hrun ⟨ht, r, hr, hin, rfl⟩

/-- A refill leaves the position in the chunk alone and moves on by a whole chunk. -/
theorem refill_within (hd : d.Within part) (w : World) :
    Meets (refill env part head d) w
      (fun d' w' => Ticked w w' ∧ d'.Within part ∧ d'.fwRawPos = d.fwRawPos + fotaAlgoBuffSize ∧
        d'.blockHdrPos = d.blockHdrPos ∧ d'.cryptBuf.length = fotaAlgoBuffSize)
      (fun e w' => Ticked w w' ∧ e = .partReadErr) (fun _ _ => False) := by
  refine (refill_meets hd w).mono ?_ (fun _ _ h => h) fun _ _ h => h
  rintro d' w' ⟨ht, r, hr, hin, rfl⟩
  have hbound := part.bound
  have hbuff : fotaAlgoBuffSize = 4096 := rfl
  obtain ⟨hc, hiv⟩ : (chunk env.toBoard head (r.view w.flash) d.fwRawPos d.aesIv).1.length = _ ∧ _ :=
    length_chunk hd.iv
  have hpos : u32 (d.fwRawPos + fotaAlgoBuffSize) = d.fwRawPos + fotaAlgoBuffSize := by
    simp only [u32]
    omega
  refine ⟨ht, ⟨⟨?_, hiv, ?_⟩, ?_, ?_⟩, ?_, rfl, hc⟩ <;> simp only [Decoder.refilled, hc, hpos] <;> omega

theorem getBlockSize_meets {buf : List UInt8} (w : World) :
    Meets (getBlockSize env head buf) w
      (fun n w' => w' = w ∧ n = beNat buf ∧ n < cmprsUsable env head)
      (fun e w' => w' = w ∧ e = .generalErr) (fun _ _ => False) :=
  Meets.bind (Meets.require (fun h => Meets.pure ⟨rfl, rfl, of_decide_eq_true h⟩) fun _ => ⟨rfl, rfl⟩)

theorem peek_meets {buf : List UInt8} {i n : Nat} (w : World) :
    Meets (peek env buf i n) w (fun seen _ => seen.length = n) (fun _ _ => False)
      (fun _ _ => False) := by
  unfold Meets peek
  dsimp only
  by_cases hin : i + n ≤ buf.length
  · rw [if_pos hin]
    dsimp only
    rw [List.length_take, List.length_drop]
    omega
  · rw [if_neg hin]
    simp only [List.length_append, List.length_map, List.length_range, List.length_take,
      List.length_drop]
    omega

theorem Decoder.Within.setBlock (h : d.Within part) (pos : Nat) (payload : List UInt8)
    (hdrPos : Nat) : (d.setBlock head pos payload hdrPos).Within part :=
  ⟨h.toSane.setBlock head pos payload hdrPos, h.raw, h.chunk⟩

theorem Decoder.remaining_setBlock {pos hdrPos : Nat} {payload : List UInt8} :
    (d.setBlock head pos payload hdrPos).remaining part =
      (part.len - d.fwRawPos) + (fotaAlgoBuffSize - hdrPos) := rfl

theorem blockAtChunk_meets (hd : d.Within part) (h : fotaAlgoBuffSize ≤ d.blockHdrPos) (w : World) :
    Meets (blockAtChunk env part head d) w
      (fun d' _ => d'.Within part ∧ d'.remaining part < d.remaining part)
      (fun e _ => e ≠ .noErr) (fun _ _ => False) := by
  have hbuff : fotaAlgoBuffSize = 4096 := rfl
  have hhdr : fotaBlockHeaderSize = 4 := rfl
  refine Meets.bind ((refill_within hd w).mono ?_ (fun e _ h => h.2 ▸ (by decide)) fun _ _ h => h)
  rintro d₁ w₁ ⟨-, hd₁, hpos, -, -⟩
  refine Meets.bind ((getBlockSize_meets w₁).mono ?_ (fun e _ h => h.2 ▸ (by decide)) fun _ _ h => h)
  rintro n w₂ -
  refine Meets.bind ((peek_meets w₂).mono ?_ (fun _ _ h => h.elim) fun _ _ h => h)
  rintro payload w₃ -
  refine Meets.pure ⟨hd₁.setBlock _ _ _, ?_⟩
  have hle := hd₁.pos
  rw [Decoder.remaining_setBlock, Decoder.remaining]
  omega

theorem blockSplitHeader_meets (hd : d.Within part) (h : d.blockHdrPos < fotaAlgoBuffSize)
    (hdr : List UInt8) (w : World) :
    Meets (blockSplitHeader env part head d hdr) w
      (fun d' _ => d'.Within part ∧ d'.remaining part < d.remaining part)
      (fun e _ => e ≠ .noErr) (fun _ _ => False) := by
  have hbuff : fotaAlgoBuffSize = 4096 := rfl
  refine Meets.bind ((refill_within hd w).mono ?_ (fun e _ h => h.2 ▸ (by decide)) fun _ _ h => h)
  rintro d₁ w₁ ⟨-, hd₁, hpos, -, -⟩
  refine Meets.bind ((getBlockSize_meets w₁).mono ?_ (fun e _ h => h.2 ▸ (by decide)) fun _ _ h => h)
  rintro n w₂ -
  refine Meets.bind ((peek_meets w₂).mono ?_ (fun _ _ h => h.elim) fun _ _ h => h)
  rintro payload w₃ -
  refine Meets.pure ⟨hd₁.setBlock _ _ _, ?_⟩
  have hle := hd₁.pos
  rw [Decoder.remaining_setBlock, Decoder.remaining]
  omega

theorem blockAcross_meets (hd : d.Within part) {pos rest : Nat} (h : d.blockHdrPos < fotaAlgoBuffSize)
    (w : World) :
    Meets (blockAcross env part head d pos rest) w
      (fun d' _ => d'.Within part ∧ d'.remaining part < d.remaining part)
      (fun e _ => e ≠ .noErr) (fun _ _ => False) := by
  have hbuff : fotaAlgoBuffSize = 4096 := rfl
  refine Meets.bind ((refill_within hd w).mono ?_ (fun e _ h => h.2 ▸ (by decide)) fun _ _ h => h)
  rintro d₁ w₁ ⟨-, hd₁, hpos, -, -⟩
  refine Meets.bind ((peek_meets w₁).mono ?_ (fun _ _ h => h.elim) fun _ _ h => h)
  rintro tail w₂ -
  have hd₂ := @Decoder.Within.setBlock _ head _ hd₁ 0 (d.cryptBuf.drop pos ++ tail) rest
  refine Meets.pure ⟨⟨⟨hd₂.pos, hd₂.iv, hd₂.buf⟩, hd₂.raw, hd₂.chunk⟩, ?_⟩
  have hle := hd₁.pos
  change (part.len - d₁.fwRawPos) + (fotaAlgoBuffSize - rest) < _
  rw [Decoder.remaining]
  omega

theorem blockInChunk_meets (hd : d.Within part) {pos : Nat} (hdr : List UInt8)
    (h : d.blockHdrPos < fotaAlgoBuffSize) (hpos : d.blockHdrPos < pos) (w : World) :
    Meets (blockInChunk env part head d hdr pos) w
      (fun d' _ => d'.Within part ∧ d'.remaining part < d.remaining part)
      (fun e _ => e ≠ .noErr) (fun _ _ => False) := by
  refine Meets.bind ((getBlockSize_meets w).mono ?_ (fun e _ h => h.2 ▸ (by decide)) fun _ _ h => h)
  rintro n w₁ -
  refine Meets.ite (fun _ => blockAcross_meets hd h w₁) fun _ => Meets.pure ⟨hd.setBlock _ _ _, ?_⟩
  rw [Decoder.remaining_setBlock, Decoder.remaining]
  omega

/-- The part of the main loop that fills `cmprs_buff` reads a chunk or moves on in the current one. -/
theorem nextBlock_meets (hd : d.Within part) (w : World) :
    Meets (nextBlock env part head d) w
      (fun d' _ => d'.Within part ∧ d'.remaining part < d.remaining part)
      (fun e _ => e ≠ .noErr) (fun _ _ => False) := by
  have hbuff : fotaAlgoBuffSize = 4096 := rfl
  have hhdr : fotaBlockHeaderSize = 4 := rfl
  unfold nextBlock
  refine Meets.ite (fun h => blockAtChunk_meets hd h w) fun h => ?_
  have hlt : d.blockHdrPos < fotaAlgoBuffSize := Nat.lt_of_not_le h
  refine Meets.ite (fun _ => blockSplitHeader_meets hd hlt _ w) fun _ => ?_
  refine Meets.ite (fun _ => blockInChunk_meets hd _ hlt (by omega) w) fun _ => ?_
  refine Meets.pure ⟨⟨⟨hd.pos, hd.iv, hd.buf⟩, hd.raw, hd.chunk⟩, ?_⟩
  dsimp only [Decoder.remaining]
  omega

/-- A decompressor's output has a length it may have. -/
theorem decompress_meets (w : World) :
    Meets (decompress env head d) w (fun piece _ => PieceLen env.toBoard piece.length)
      (fun e _ => e ≠ .noErr) (fun _ _ => False) := by
  have hout : PieceLen env.toBoard (if Head.cmprsAlgo head = fotaCmprsAlgoFastlz then
      env.fastlzDecompress d.cmprsBuff d.blockSize fotaCmprsBufferSize
    else if Head.cmprsAlgo head = fotaCmprsAlgoQuicklz then env.qlzDecompress d.cmprsBuff
    else []).length := by
    split
    · exact .inl (env.length_fastlzDecompress _ _ _)
    · split
      · exact .inr ⟨_, rfl⟩
      · exact .inl (Nat.zero_le _)
  unfold decompress
  generalize (if Head.cmprsAlgo head = fotaCmprsAlgoFastlz then _ else _ : List UInt8) = out at hout ⊢
  refine Meets.bind (Meets.of_done rfl (Meets.bind (Meets.require (fun _ => ?_) fun _ => ?_)))
  · exact (peek_meets _).mono (fun piece _ h => h ▸ hout) (fun _ _ h => h.elim) fun _ _ h => h
  · exact FotaErr.noConfusion

end steps

/-! ## Invariants of a sink -/

/-- `I` survives what only reads and counts, and an error of the decoder in a state that satisfies it
gives `E`. Each piece of a length a piece may have keeps `I`, or ends as `E` and `H` say. -/
structure SinkKeeps {τ : Type} (b : Board) (sink : Sink τ) (I : τ → World → Prop)
    (E : FotaErr → World → Prop) (H : Halt → World → Prop) : Prop where
  quiet : ∀ {t w w'}, I t w → Quiet w w' → I t w'
  error : ∀ {t w e}, I t w → e ≠ .noErr → E e w
  sink : ∀ {t w} (piece : List UInt8), I t w → PieceLen b piece.length → Meets (sink t piece) w I E H

section keeps
variable {env : Env} {part : FalPartition} {head : List UInt8} {τ : Type} {sink : Sink τ}
  {total : τ → Nat} {I : τ → World → Prop} {E : FotaErr → World → Prop} {H : Halt → World → Prop}
  (hs : SinkKeeps env.toBoard sink I E H) {d : Decoder} {t : τ} {w : World}
include hs

/-- A part of the decoder that only reads. -/
theorem SinkKeeps.read {α : Type} {m : Boot α} {Q : α → Prop} (h : I t w) (hq : Always Quiet m)
    (hm : Meets m w (fun a _ => Q a) (fun e _ => e ≠ .noErr) (fun _ _ => False)) :
    Meets m w (fun a w' => Q a ∧ I t w') E H :=
  (hm.and_always hq).mono (fun _ _ h' => ⟨h'.1, hs.quiet h h'.2⟩)
    (fun _ _ h' => hs.error (hs.quiet h h'.2) h'.1) fun _ _ h' => h'.1.elim

theorem mainStep_meets (hd : d.Within part) (h : I t w) :
    Meets (mainStep env part head sink (d, t)) w
      (fun r w' => match r with
        | .inl s' => (s'.1.Within part ∧ I s'.2 w') ∧ s'.1.remaining part < d.remaining part
        | .inr s' => s'.1.Within part ∧ I s'.2 w') E H := by
  have hbuff : fotaAlgoBuffSize = 4096 := rfl
  unfold mainStep
  refine Meets.ite (fun _ => Meets.ite (fun _ => ?_) fun _ => ?_) fun _ => Meets.pure ⟨hd, h⟩
  · refine Meets.bind ((hs.read h nextBlock_quiet (nextBlock_meets hd w)).mono ?_ (fun _ _ h => h)
      fun _ _ h => h)
    rintro d₁ w₁ ⟨⟨hd₁, hlt⟩, h₁⟩
    refine Meets.bind ((hs.read h₁ decompress_quiet (decompress_meets w₁)).mono ?_ (fun _ _ h => h)
      fun _ _ h => h)
    rintro piece w₂ ⟨hpiece, h₂⟩
    refine Meets.bind ((hs.sink piece h₂ hpiece).mono ?_ (fun _ _ h => h) fun _ _ h => h)
    exact fun t' w₃ h₃ => Meets.pure ⟨⟨hd₁, h₃⟩, hlt⟩
  · have hrefill : Meets (refill env part head d) w (fun d' _ => d'.Within part ∧
        d'.remaining part < d.remaining part ∧ d'.cryptBuf.length = fotaAlgoBuffSize)
        (fun e _ => e ≠ .noErr) (fun _ _ => False) := by
      refine (refill_within hd w).mono ?_ (fun _ _ h => h.2 ▸ (by decide)) fun _ _ h => h
      rintro d₁ w₁ ⟨-, hd₁, hpos, hhdr, hlen⟩
      have hle := hd₁.pos
      refine ⟨hd₁, ?_, hlen⟩
      dsimp only [Decoder.remaining]
      omega
    refine Meets.bind ((hs.read h refill_quiet hrefill).mono ?_ (fun _ _ h => h) fun _ _ h => h)
    rintro d₁ w₁ ⟨⟨hd₁, hlt, hlen⟩, h₁⟩
    refine Meets.bind ((hs.sink d₁.cryptBuf h₁ (.inl (Nat.le_of_eq hlen))).mono ?_ (fun _ _ h => h)
      fun _ _ h => h)
    exact fun t' w₂ h₂ => Meets.pure ⟨⟨hd₁, h₂⟩, hlt⟩

theorem tailStep_meets (hd : d.Within part) (h : I t w) :
    Meets (tailStep env head sink total (d, t)) w
      (fun r w' => match r with
        | .inl s' => (s'.1.Within part ∧ I s'.2 w') ∧
            s'.1.fwRawLen - s'.1.blockHdrPos < d.fwRawLen - d.blockHdrPos
        | .inr t' => I t' w') E H := by
  have hhdr : fotaBlockHeaderSize = 4 := rfl
  unfold tailStep
  dsimp only
  refine Meets.ite (fun hc => ?_) fun _ => Meets.pure h
  refine Meets.bind ((hs.read h getBlockSize_quiet ((getBlockSize_meets w).mono (fun _ _ _ => trivial)
    (fun _ _ h => h.2 ▸ (by decide)) fun _ _ h => h)).mono ?_ (fun _ _ h => h) fun _ _ h => h)
  rintro n w₁ ⟨-, h₁⟩
  refine Meets.ite (fun hle => ?_) fun _ => Meets.pure h₁
  refine Meets.bind ((hs.read h₁ peek_quiet ((peek_meets w₁).mono (fun _ _ _ => trivial)
    (fun _ _ h => h.elim) fun _ _ h => h)).mono ?_ (fun _ _ h => h) fun _ _ h => h)
  rintro payload w₂ ⟨-, h₂⟩
  refine Meets.bind ((hs.read h₂ decompress_quiet (decompress_meets w₂)).mono ?_ (fun _ _ h => h)
    fun _ _ h => h)
  rintro piece w₃ ⟨hpiece, h₃⟩
  refine Meets.bind ((hs.sink piece h₃ hpiece).mono ?_ (fun _ _ h => h) fun _ _ h => h)
  refine fun t' w₄ h₄ => Meets.pure ⟨⟨hd.setBlock _ _ _, h₄⟩, ?_⟩
  change d.fwRawLen - (d.blockHdrPos + fotaBlockHeaderSize + n) < _
  omega

/-- The two loops end within the rounds they are given, and keep the invariant of their sink. -/
theorem decode_meets (h : I t w) :
    Meets (decode env part head sink total Decoder.init t) w I E H := by
  have hbuff : fotaAlgoBuffSize = 4096 := rfl
  unfold decode
  refine Meets.bind (Meets.mono (Meets.iterate_of_measure (μ := fun s => s.1.remaining part)
    (I := fun s w => s.1.Within part ∧ I s.2 w) (Q := fun s w => s.1.Within part ∧ I s.2 w)
    ?_ ⟨Decoder.within_init part, h⟩ ?_) ?_ (fun _ _ h => h) fun _ _ h => h)
  · rintro ⟨d, t⟩ w ⟨hd, h⟩
    refine (mainStep_meets hs hd h).mono ?_ (fun _ _ h => h) fun _ _ h => h
    rintro (s' | s') w' h
    · exact h
    · exact h
  · simp only [Decoder.remaining, Decoder.init, loopFuel]
    omega
  · rintro ⟨d, t⟩ w ⟨hd, h⟩
    have hpos := hd.pos
    have hraw := hd.raw
    have hchunk := hd.chunk
    refine Meets.ite (fun _ => ?_) fun _ => Meets.pure h
    refine Meets.iterate_of_measure (μ := fun s => s.1.fwRawLen - s.1.blockHdrPos)
      (I := fun s w => s.1.Within part ∧ I s.2 w) ?_ ⟨hd, h⟩ ?_
    · rintro ⟨d, t⟩ w ⟨hd, h⟩
      refine (tailStep_meets hs hd h).mono ?_ (fun _ _ h => h) fun _ _ h => h
      rintro (s' | t') w' h
      · exact h
      · exact h
    · dsimp only at hpos hraw hchunk ⊢
      simp only [loopFuel]
      omega

end keeps

/-! ## Both functions return -/

section returns
variable {env : Env} {part : FalPartition} {head : List UInt8}

theorem cryptInit_meets (w : World) :
    Meets (cryptInit env head) w (fun _ _ => True) (fun e _ => e ≠ .noErr) (fun _ _ => False) := by
  refine Meets.ite (fun _ => ?_) fun _ => Meets.require (fun _ => trivial) fun _ => by decide
  exact Meets.bind (Meets.of_done rfl (Meets.bind (Meets.of_done rfl
    (Meets.require (fun _ => trivial) fun _ => by decide))))

theorem cmprsInit_meets (w : World) :
    Meets (cmprsInit env head) w (fun _ _ => True) (fun e _ => e ≠ .noErr) (fun _ _ => False) := by
  refine Meets.ite (fun _ => ?_) fun _ => Meets.ite (fun _ => ?_) fun _ =>
    Meets.require (fun _ => trivial) fun _ => by decide
  · exact Meets.bind (Meets.of_done rfl (Meets.bind (Meets.of_done rfl
      (Meets.require (fun _ => trivial) fun _ => by decide))))
  · exact Meets.bind (Meets.of_done rfl (Meets.bind (Meets.of_done rfl (Meets.bind
      (Meets.of_done rfl (Meets.require (fun _ => trivial) fun _ => by decide))))))

theorem decoderInit_meets (w : World) :
    Meets (decoderInit env head) w (fun _ _ => True) (fun e _ => e ≠ .noErr) (fun _ _ => False) :=
  Meets.bind ((cryptInit_meets w).mono (fun _ w' _ => cmprsInit_meets w') (fun _ _ h => h)
    fun _ _ h => h)

/-- `fota_upgrade_verify` returns. -/
theorem fotaUpgradeVerify_returns (name : Option (List UInt8)) (w : World) :
    ∃ e w', fotaUpgradeVerify env name w = .done e w' := by
  have hkeeps : ∀ rawSize, SinkKeeps env.toBoard (verifySink rawSize) (fun _ _ => True)
      (fun _ _ => True) (fun _ _ => False) := fun rawSize =>
    { quiet := fun _ _ => trivial
      error := fun _ _ => trivial
      sink := fun _ _ _ => trivial }
  have hm : Meets (fotaUpgradeVerify env name) w (fun _ _ => True) (fun _ _ => False)
      (fun _ _ => False) := by
    refine meets_exitCode ?_
    split
    · exact Meets.throw trivial
    · refine Meets.bind (Meets.of_done (get_apply) (Meets.bind (Meets.of_done rfl ?_)))
      refine Meets.bind (Meets.require (fun _ => ?_) fun _ => trivial)
      refine Meets.bind ((decoderInit_meets _).mono (fun _ w' _ => ?_) (fun _ _ _ => trivial)
        fun _ _ h => h)
      refine Meets.bind ((decode_meets (hkeeps _) trivial).mono (fun t w' _ => ?_) (fun _ _ h => h)
        fun _ _ h => h)
      exact Meets.require (fun _ => trivial) fun _ => trivial
  obtain ⟨e, w', hrun, -⟩ := hm.returns
  exact ⟨e, w', hrun⟩

/-- The power failed during a flash operation. -/
def PowerCut (env : Env) (c : Halt) (_ : World) : Prop := c = .powerCut ∧ ∃ n, env.fate n = .cut

theorem devChange_returns (op : FlashOp) (w : World) :
    Meets (devChange env op) w (fun _ _ => True) (fun _ _ => False) (PowerCut env) := by
  unfold Meets devChange
  cases hf : env.fate w.ops with
  | done => exact trivial
  | failed => exact trivial
  | cut => exact ⟨rfl, _, hf⟩

theorem fotaEraseAppPart_returns (w : World) :
    Meets (fotaEraseAppPart env) w (fun _ _ => True) (fun _ _ => False) (PowerCut env) := by
  refine Meets.bind (Meets.of_done (get_apply) ?_)
  dsimp only
  split
  · exact Meets.pure trivial
  · refine Meets.bind ?_
    unfold falPartitionEraseAll falPartitionErase
    refine Meets.ite (fun _ => Meets.pure (Meets.pure trivial)) fun _ => ?_
    split
    · exact Meets.pure (Meets.pure trivial)
    · exact (devChange_returns _ w).mono (fun _ _ _ => Meets.pure trivial) (fun _ _ h => h)
        fun _ _ h => h

theorem fotaWriteAppPart_returns (fwPos : Nat) (fwBuf : List UInt8) (w : World) :
    Meets (fotaWriteAppPart env fwPos fwBuf) w (fun _ _ => True) (fun _ _ => False)
      (PowerCut env) := by
  refine Meets.bind (Meets.of_done (get_apply) ?_)
  dsimp only
  split
  · exact Meets.pure trivial
  · refine Meets.bind (Meets.bind (Meets.of_done rfl ?_))
    refine Meets.ite (fun _ => Meets.pure (Meets.pure trivial)) fun _ => ?_
    split
    · exact Meets.pure (Meets.pure trivial)
    · exact (devChange_returns _ _).mono (fun _ _ _ => Meets.pure trivial) (fun _ _ h => h)
        fun _ _ h => h

/-- `fota_upgrade` returns, unless the power fails. -/
theorem fotaUpgrade_returns (name : Option (List UInt8)) (w : World) :
    Meets (fotaUpgrade env name) w (fun _ _ => True) (fun _ _ => False) (PowerCut env) := by
  have hkeeps : SinkKeeps env.toBoard (upgradeSink env) (fun _ _ => True) (fun _ _ => True)
      (PowerCut env) :=
    { quiet := fun _ _ => trivial
      error := fun _ _ => trivial
      sink := fun piece _ _ => Meets.bind ((fotaWriteAppPart_returns _ piece _).mono
        (fun _ _ _ => Meets.bind (Meets.require (fun _ => Meets.pure trivial) fun _ => trivial))
        (fun _ _ h => h.elim) fun _ _ h => h) }
  refine meets_exitCode ?_
  split
  · exact Meets.throw trivial
  · next part _ =>
    refine Meets.bind ((fotaEraseAppPart_returns w).mono (fun e w₁ _ => ?_) (fun _ _ h => h.elim)
      fun _ _ h => h)
    refine Meets.ite (fun _ => Meets.throw trivial) fun _ => ?_
    refine Meets.bind (Meets.of_done (get_apply) (Meets.bind (Meets.of_done rfl ?_)))
    refine Meets.bind (Meets.require (fun _ => ?_) fun _ => trivial)
    obtain ⟨w₂, -, -, hread | ⟨r, -, -, hread⟩⟩ := @falPartitionRead_cases env part 0 sizeofHead
      (by decide) { w₁ with allocs := w₁.allocs + 1 }
    · exact Meets.bind (Meets.of_done hread (Meets.throw trivial))
    · refine Meets.bind (Meets.of_done hread ?_)
      refine Meets.bind ((fotaWriteAppPart_returns _ _ w₂).mono (fun e w₃ _ => ?_)
        (fun _ _ h => h.elim) fun _ _ h => h)
      refine Meets.bind (Meets.require (fun _ => ?_) fun _ => trivial)
      refine Meets.bind ((decoderInit_meets w₃).mono (fun _ w' _ => ?_) (fun _ _ _ => trivial)
        fun _ _ h => h.elim)
      refine Meets.bind ((decode_meets hkeeps trivial).mono (fun t w' _ => ?_) (fun _ _ h => h)
        fun _ _ h => h)
      exact Meets.require (fun _ => trivial) fun _ => trivial

/-- Both decode loops end: `fota_upgrade_verify` returns, and so does `fota_upgrade` unless the power
fails while it runs, whatever the partition holds, whatever the header says, whatever fails and
whatever a read past a buffer sees. -/
theorem decoders_return (env : Env) (name : Option (List UInt8)) (w : World) :
    (∃ e w', fotaUpgradeVerify env name w = .done e w') ∧
      ((∃ e w', fotaUpgrade env name w = .done e w') ∨
        (∃ w', fotaUpgrade env name w = .halt .powerCut w') ∧ ∃ n, env.fate n = .cut) := by
  refine ⟨fotaUpgradeVerify_returns name w, ?_⟩
  have hm := @fotaUpgrade_returns env name w
  unfold Meets at hm
  split at hm
  · next e w' hrun => exact .inl ⟨e, w', hrun⟩
  · exact hm.elim
  · next c w' hrun =>
    obtain ⟨rfl, hcut⟩ := hm
    exact .inr ⟨⟨w', hrun⟩, hcut⟩

end returns

end McuUtilities.Fota
