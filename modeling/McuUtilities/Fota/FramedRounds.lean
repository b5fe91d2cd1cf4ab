import McuUtilities.Fota.FramedImage

/-!
# The rounds over a framed image

Each round of the two loops decompresses the next block, or fails, or leaves a trace in the state that
no later round removes. The states the rounds keep say so (`mainStep_state`, `tailStep_state`).
-/

namespace McuUtilities.Fota
open Prog

/-! ## The states of the loops -/

/-- The states of the main loop, for blocks that are decoded when `S` holds: it is about to look for the
header behind `pre`, or has wrapped `block_hdr_pos` behind `pre`, or has gone astray. -/
inductive MainState (b : Board) (head : List UInt8) (m : Nat → UInt8) (blocks : List (List UInt8))
    (w₀ : World) (S : Prop) (s : Decoder × VerifyState) (w : World) : Prop
  | ahead {pre rest : List (List UInt8)} (hsplit : blocks = pre ++ rest)
      (h : OnTrack b head w₀ pre s.2 w) (hd : s.1.AtFrame b head m (framed pre).length)
      (hplace : pre ≠ [] → s.1.cmprsFrom < (framed pre).length)
      (hiff : S ↔ Streamable b head (framed pre).length (output b head pre).length rest)
  | wrapped {pre rest : List (List UInt8)} {n : Nat} (hsplit : blocks = pre ++ rest)
      (h : OnTrack b head w₀ pre s.2 w) (hread : s.1.HasRead b head m (n + 1))
      (hpos : (framed pre).length = 4096 * (n + 1)) (hhdr : s.1.blockHdrPos = 0)
      (hiff : S ↔ rest = [])
  | astray (hno : ¬ S) (h : Astray head blocks w₀ w)

/-- The states of the loop over the last chunk: it is about to look for the header behind `pre`, or no
block is left, or the main loop has gone astray. -/
inductive TailState (b : Board) (head : List UInt8) (m : Nat → UInt8) (blocks : List (List UInt8))
    (w₀ : World) (S : Prop) (s : Decoder × VerifyState) (w : World) : Prop
  | ahead {pre rest : List (List UInt8)} (hsplit : blocks = pre ++ rest)
      (h : OnTrack b head w₀ pre s.2 w) (hd : s.1.AtFrame b head m (framed pre).length)
      (hlast : Head.comSize head ≤ roundUp (framed pre).length)
      (hiff : S ↔ Streamable b head (framed pre).length (output b head pre).length rest)
  | complete (h : OnTrack b head w₀ blocks s.2 w) (hS : S)
  | astray (hno : ¬ S) (h : Astray head blocks w₀ w)

/-- How the two loops end: enough blocks were decompressed, or something has gone astray. -/
inductive DecodeEnd (b : Board) (head : List UInt8) (blocks : List (List UInt8)) (w₀ : World) (S : Prop)
    (t : VerifyState) (w : World) : Prop
  | complete {pre rest : List (List UInt8)} (hsplit : blocks = pre ++ rest)
      (h : OnTrack b head w₀ pre t w) (hraw : Head.rawSize head ≤ (output b head pre).length) (hS : S)
  | astray (hno : ¬ S) (h : Astray head blocks w₀ w)

theorem roundUp_mono {n k : Nat} (h : n ≤ k) : roundUp n ≤ roundUp k := by
  unfold roundUp
  omega

/-- Nothing is asked of the blocks that neither loop looks for. -/
theorem streamable_of_done {b : Board} {head : List UInt8} {pos total : Nat}
    {blocks : List (List UInt8)} (hpos : Head.comSize head ≤ roundUp pos)
    (htotal : Head.rawSize head ≤ total) : Streamable b head pos total blocks := by
  induction blocks generalizing pos total with
  | nil => trivial
  | cons block blocks ih =>
    refine ⟨fun hlt => absurd hlt (Nat.not_lt_of_le hpos), fun hor => ?_, ih ?_ ?_⟩
    · rcases hor with hlt | hlt
      · exact absurd hlt (Nat.not_lt_of_le hpos)
      · exact absurd hlt (Nat.not_lt_of_le htotal)
    · refine Nat.le_trans hpos (roundUp_mono ?_)
      rw [Nat.add_assoc]
      exact Nat.le_add_right _ _
    · exact Nat.le_trans htotal (Nat.le_add_right _ _)

/-! ## The main loop -/

section round
variable {env : Env} {part : FalPartition} {head : List UInt8} {m : Nat → UInt8}
  {blocks : List (List UInt8)} {pad : List UInt8} {w₀ w : World} {d : Decoder} {t : VerifyState}

theorem astray_keeps (head : List UInt8) : SinkKeeps env.toBoard (verifySink (Head.rawSize head))
    (fun _ => Astray head blocks w₀) (fun e _ => e ≠ .noErr) (fun _ _ => False) where
  quiet h hq := h.quiet hq
  error _ he := he
  sink piece h _ := h.quiet ((verifySink_quiet _ piece).of_done verifySink_eq)

/-- What a round does with the block it has found. -/
def roundEnd (env : Env) (head : List UInt8) (t : VerifyState) (d : Decoder) :
    Boot (Decoder × VerifyState ⊕ Decoder × VerifyState) := do
  let t' ← verifySink (Head.rawSize head) t (← decompress env head d)
  pure (.inl (d, t'))

theorem mainStep_eq (hlt : d.fwRawPos < Head.comSize head) (hcmprs : Head.cmprsAlgo head ≠ 0) :
    mainStep env part head (verifySink (Head.rawSize head)) (d, t) =
      nextBlock env part head d >>= roundEnd env head t := by
  rw [mainStep, if_pos hlt, if_pos hcmprs]
  rfl

/-- A round that has gone astray when the block is decompressed. -/
theorem roundEnd_astray
    (h : Meets (decompress env head d) w (fun _ => Astray head blocks w₀) (fun _ _ => True)
      (fun _ _ => False)) :
    Meets (roundEnd env head t d) w (fun r w' => ∃ t', r = .inl (d, t') ∧ Astray head blocks w₀ w')
      (fun _ _ => True) (fun _ _ => False) := by
  refine Meets.bind (h.mono (fun piece w₁ h₁ => ?_) (fun _ _ h => h) fun _ _ h => h)
  exact Meets.bind (Meets.of_done verifySink_eq (Meets.pure
    ⟨_, rfl, h₁.quiet ((verifySink_quiet t piece).of_done verifySink_eq)⟩))

theorem roundEnd_off (h : Astray head blocks w₀ w) :
    Meets (roundEnd env head t d) w (fun r w' => ∃ t', r = .inl (d, t') ∧ Astray head blocks w₀ w')
      (fun _ _ => True) (fun _ _ => False) := by
  refine roundEnd_astray (((decompress_meets w).and_always decompress_quiet).mono ?_
    (fun _ _ _ => trivial) fun _ _ h => h.1)
  exact fun _ _ h' => h.quiet h'.2

/-- A block that is not the next one is decompressed. -/
theorem roundEnd_wrong {pre rest : List (List UInt8)} {w₁ : World} (hsplit : blocks = pre ++ rest)
    (h : OnTrack env.toBoard head w₀ pre t w) (hp : Peeks w w₁)
    (hplace : d.cmprsFrom < (framed pre).length + fotaBlockHeaderSize) :
    Meets (roundEnd env head t d) w₁ (fun r w' => ∃ t', r = .inl (d, t') ∧ Astray head blocks w₀ w')
      (fun _ _ => True) (fun _ _ => False) := by
  refine roundEnd_astray (decompress_records.mono (fun _ w₂ h₂ => ?_) (fun _ _ h => h) fun _ _ h => h)
  rw [hp.decompressed, h.decompressed] at h₂
  exact astray_of_record hsplit h₂ hplace

/-- The next block was found. -/
theorem roundEnd_found (blocks : List (List UInt8)) {pre : List (List UInt8)} {block : List UInt8}
    (h : OnTrack env.toBoard head w₀ pre t w) (hd : d.Found head (framed pre).length block)
    (hne : blockOutput env.toBoard head block ≠ [])
    (hlen : (blockOutput env.toBoard head block).length ≤ fotaCmprsBufferSize) :
    Meets (roundEnd env head t d) w
      (fun r w' => ∃ t', r = .inl (d, t') ∧
        if min (output env.toBoard head pre).length (Head.rawSize head) +
            (blockOutput env.toBoard head block).length < 2 ^ 32 then
          OnTrack env.toBoard head w₀ (pre ++ [block]) t' w'
        else Astray head blocks w₀ w')
      (fun _ _ => False) (fun _ _ => False) := by
  obtain ⟨w₁, t', w', hrun, hsink, hstate⟩ := h.hand blocks hd hne hlen
  exact Meets.bind (Meets.of_done hrun (Meets.bind (Meets.of_done hsink (Meets.pure
    ⟨t', rfl, hstate⟩))))

variable (himg : FramedImage env.toBoard head part.len m blocks pad) {S : Prop}
include himg

/-- The main loop looks for a block only when there is one. -/
theorem FramedImage.exists_next {pre rest : List (List UInt8)} (hsplit : blocks = pre ++ rest)
    (hlt : roundUp (framed pre).length < Head.comSize head) : rest ≠ [] := by
  rintro rfl
  rw [List.append_nil] at hsplit
  subst hsplit
  exact absurd himg.comSize_le_roundUp (Nat.not_le_of_lt hlt)

/-- Where the main loop stops, the other one starts. -/
theorem MainState.tail (h : MainState env.toBoard head m blocks w₀ S (d, t) w)
    (hend : Head.comSize head ≤ d.fwRawPos) : TailState env.toBoard head m blocks w₀ S (d, t) w := by
  cases h with
  | ahead hsplit h hd hplace hiff =>
    refine .ahead hsplit h hd ?_ hiff
    rw [hd.read.pos] at hend
    unfold roundUp
    omega
  | @wrapped pre rest n hsplit h hread hpos hhdr hiff =>
    have hhdr4 : fotaBlockHeaderSize = 4 := rfl
    rw [hread.pos, ← hpos] at hend
    cases rest with
    | nil =>
      rw [List.append_nil] at hsplit
      exact .complete (hsplit ▸ h) (hiff.mpr rfl)
    | cons block rest =>
      have hle := himg.next_le hsplit
      omega
  | astray hno h => exact .astray hno h

variable (hrel : env.Reliable) {r : Region} (hr : env.region part = some r)
  (hm : r.view w₀.flash = m)
include hrel hr hm

/-- A round that looks for the header behind `pre`. -/
theorem mainStep_ahead {pre rest : List (List UInt8)} (hlt : d.fwRawPos < Head.comSize head)
    (hsplit : blocks = pre ++ rest) (h : OnTrack env.toBoard head w₀ pre t w)
    (hd : d.AtFrame env.toBoard head m (framed pre).length)
    (hplace : pre ≠ [] → d.cmprsFrom < (framed pre).length)
    (hiff : S ↔ Streamable env.toBoard head (framed pre).length
      (output env.toBoard head pre).length rest) :
    Meets (mainStep env part head (verifySink (Head.rawSize head)) (d, t)) w
      (fun r' w' => ∃ s', r' = .inl s' ∧ MainState env.toBoard head m blocks w₀ S s' w')
      (fun _ _ => ¬ S) (fun _ _ => False) := by
  have hbuff : fotaAlgoBuffSize = 4096 := rfl
  have hhdr4 : fotaBlockHeaderSize = 4 := rfl
  rw [mainStep_eq hlt himg.cmprs_ne_zero]
  have hround : roundUp (framed pre).length < Head.comSize head := by
    rw [hd.read.pos] at hlt
    unfold roundUp
    omega
  obtain ⟨block, rest, rfl⟩ := List.exists_cons_of_ne_nil (himg.exists_next hsplit hround)
  obtain ⟨hne, hlen⟩ := himg.decompresses block (FramedImage.mem_next hsplit)
  have hpos := himg.length_pos hsplit
  have hnext := @length_framed_concat block pre
  have hview : r.view w.flash = m := by rw [h.flash, hm]
  have hsearch := nextBlock_frame (w := w) hrel hr (himg.frameAt hsplit) (himg.usable hsplit) hd hview
    (himg.room hround)
  rw [Streamable] at hiff
  refine Meets.bind (hsearch.mono ?_ (fun _ _ h => h.elim) fun _ _ h => h)
  rintro d₁ w₁ ((⟨hreach, ht, hdec, hfound, hread, hhdr⟩ | ⟨hunreach, hoob⟩) | ⟨hend, hp, hsame⟩)
  · -- the block is found
    have h₁ : OnTrack env.toBoard head w₀ pre t w₁ :=
      ⟨ht.flash.trans h.flash, ht.oob.trans h.oob, hdec.trans h.decompressed,
        ht.hashed.trans h.hashed, h.state⟩
    refine (roundEnd_found blocks h₁ hfound hne hlen).mono ?_ (fun _ _ h => h.elim)
      fun _ _ h => h
    rintro r' w' ⟨t', rfl, hstate⟩
    refine ⟨_, rfl, ?_⟩
    have hsplit' : blocks = pre ++ [block] ++ rest := by
      rw [hsplit, List.append_assoc]
      rfl
    split at hstate
    · next hfit =>
      by_cases hwrap : Wraps (framed pre).length block.length
      · obtain ⟨n, hn⟩ : ∃ n, (framed pre).length + fotaBlockHeaderSize + block.length =
            4096 * (n + 1) := by
          have := wraps_iff.mp hwrap
          exact ⟨(framed pre).length / 4096 + 1, by omega⟩
        have hcount : (4096 * (n + 1) + 4095) / 4096 = n + 1 := by omega
        rw [hn, hcount] at hread
        rw [if_pos hwrap] at hhdr
        refine .wrapped hsplit' hstate hread (hnext.trans hn) hhdr
          ⟨fun hS => ((hiff.mp hS).1 hround).2 hwrap, fun hrest => hiff.mpr ?_⟩
        rw [hrest]
        exact ⟨fun _ => ⟨hreach, fun _ => rfl⟩, fun _ => hfit, trivial⟩
      · rw [if_neg hwrap] at hhdr
        rw [← hnext] at hread hhdr
        refine .ahead hsplit' hstate ⟨hread, ?_⟩ (fun _ => ?_) ?_
        · dsimp only
          rw [hhdr]
          unfold roundUp
          omega
        · dsimp only
          rw [hfound.place, hnext]
          omega
        · rw [hiff, hnext, output_concat, List.length_append]
          exact ⟨fun hS => hS.2.2, fun hS => ⟨fun _ => ⟨hreach, fun h => absurd h hwrap⟩,
            fun _ => hfit, hS⟩⟩
    · next hover => exact .astray (fun hS => hover ((hiff.mp hS).2.1 (.inl hround))) hstate
  · -- part of the block is not in `crypt_buf`
    have hno : ¬ S := fun hS => hunreach ((hiff.mp hS).1 hround).1
    have hoff : Astray head blocks w₀ w₁ := .inl (h.oob ▸ hoob)
    refine (roundEnd_off hoff).mono ?_ (fun _ _ _ => hno) fun _ _ h => h
    rintro r' w' ⟨t', rfl, hstate⟩
    exact ⟨_, rfl, .astray hno hstate⟩
  · -- the header ends its chunk: the block before is decompressed once more
    have hno : ¬ S := fun hS => ((hiff.mp hS).1 hround).1.1 hend
    have hpre : pre ≠ [] := by
      rintro rfl
      exact absurd hend (by decide)
    have hplace₁ : d₁.cmprsFrom < (framed pre).length + fotaBlockHeaderSize := by
      rw [hsame]
      exact Nat.lt_of_lt_of_le (hplace hpre) (Nat.le_add_right _ _)
    refine (roundEnd_wrong hsplit h hp hplace₁).mono ?_ (fun _ _ _ => hno) fun _ _ h => h
    rintro r' w' ⟨t', rfl, hstate⟩
    exact ⟨_, rfl, .astray hno hstate⟩

omit hrel hr hm in
/-- A round after `block_hdr_pos` has wrapped takes its block from the chunk that is used up. -/
theorem mainStep_wrapped {pre rest : List (List UInt8)} {n : Nat} (hwithin : d.Within part)
    (hlt : d.fwRawPos < Head.comSize head) (hsplit : blocks = pre ++ rest)
    (h : OnTrack env.toBoard head w₀ pre t w) (hread : d.HasRead env.toBoard head m (n + 1))
    (hpos : (framed pre).length = 4096 * (n + 1)) (hhdr : d.blockHdrPos = 0) (hiff : S ↔ rest = []) :
    Meets (mainStep env part head (verifySink (Head.rawSize head)) (d, t)) w
      (fun r' w' => ∃ s', r' = .inl s' ∧ MainState env.toBoard head m blocks w₀ S s' w')
      (fun _ _ => ¬ S) (fun _ _ => False) := by
  rw [mainStep_eq hlt himg.cmprs_ne_zero]
  have hno : ¬ S := by
    rw [hiff]
    refine himg.exists_next hsplit ?_
    rw [hread.pos] at hlt
    unfold roundUp
    omega
  have hsearch : Meets (nextBlock env part head d) w
      (fun d₁ _ => d₁.cmprsFrom = d.chunkPos + fotaBlockHeaderSize) (fun _ _ => True)
      (fun _ _ => False) := by
    unfold nextBlock
    dsimp only
    rw [hhdr, if_neg (by decide), if_neg (by decide), if_pos (by decide)]
    exact blockInChunk_place hwithin w
  refine Meets.bind ((hsearch.and_always nextBlock_peeks).mono ?_ (fun _ _ _ => hno)
    fun _ _ h => h.1)
  rintro d₁ w₁ ⟨hplace, hp⟩
  have hplace₁ : d₁.cmprsFrom < (framed pre).length + fotaBlockHeaderSize := by
    rw [hplace, hread.chunkPos, hpos]
    omega
  refine (roundEnd_wrong hsplit h hp hplace₁).mono ?_ (fun _ _ _ => hno) fun _ _ h => h
  rintro r' w' ⟨t', rfl, hstate⟩
  exact ⟨_, rfl, .astray hno hstate⟩

/-- A round of the main loop. -/
theorem mainStep_state (hwithin : d.Within part)
    (h : MainState env.toBoard head m blocks w₀ S (d, t) w) :
    Meets (mainStep env part head (verifySink (Head.rawSize head)) (d, t)) w
      (fun r' w' => match r' with
        | .inl s' => MainState env.toBoard head m blocks w₀ S s' w'
        | .inr s' => TailState env.toBoard head m blocks w₀ S s' w')
      (fun _ _ => ¬ S) (fun _ _ => False) := by
  by_cases hlt : d.fwRawPos < Head.comSize head
  rotate_left
  · rw [mainStep, if_neg hlt]
    exact Meets.pure (h.tail himg (Nat.le_of_not_lt hlt))
  cases h with
  | ahead hsplit h hd hplace hiff =>
    refine (mainStep_ahead himg hrel hr hm hlt hsplit h hd hplace hiff).mono ?_ (fun _ _ h => h)
      fun _ _ h => h
    rintro r' w' ⟨s', rfl, h'⟩
    exact h'
  | wrapped hsplit h hread hpos hhdr hiff =>
    refine (mainStep_wrapped himg hwithin hlt hsplit h hread hpos hhdr hiff).mono ?_ (fun _ _ h => h)
      fun _ _ h => h
    rintro r' w' ⟨s', rfl, h'⟩
    exact h'
  | astray hno h =>
    refine (mainStep_meets (astray_keeps head) hwithin h).mono ?_ (fun _ _ _ => hno) fun _ _ h => h
    rintro (s' | s') w' h'
    · exact .astray hno h'.1.2
    · exact .astray hno h'.2

end round

/-! ## The loop over the last chunk -/

section tail
variable {env : Env} {part : FalPartition} {head : List UInt8} {m : Nat → UInt8}
  {blocks : List (List UInt8)} {pad : List UInt8} {w₀ w : World} {d : Decoder} {t : VerifyState}
  (himg : FramedImage env.toBoard head part.len m blocks pad) {S : Prop}
include himg

/-- The block that is looked for in the last chunk is found there. -/
theorem tailStep_next {pre rest : List (List UInt8)} {block : List UInt8}
    (hsplit : blocks = pre ++ block :: rest)
    (hd : d.AtFrame env.toBoard head m (framed pre).length)
    (hlast : Head.comSize head ≤ roundUp (framed pre).length)
    (htotal : t.totalCopySize < Head.rawSize head) :
    ∃ d', d'.Found head (framed pre).length block ∧
      d'.AtFrame env.toBoard head m (framed (pre ++ [block])).length ∧
      tailStep env head (verifySink (Head.rawSize head)) VerifyState.totalCopySize (d, t) w =
        (do
          let t' ← verifySink (Head.rawSize head) t (← decompress env head d')
          pure (.inl (d', t')) : Boot (Decoder × VerifyState ⊕ VerifyState)) w := by
  have hbuff : fotaAlgoBuffSize = 4096 := rfl
  have hhdr4 : fotaBlockHeaderSize = 4 := rfl
  have hpos := himg.length_pos hsplit
  have hframe := himg.frameAt hsplit
  have hin := Nat.le_trans (himg.next_le hsplit) hlast
  have hhdr := hd.hdr
  have hread := hd.read
  rw [length_framed_concat]
  unfold roundUp at hin hhdr
  generalize hn : ((framed pre).length + 4095) / 4096 = n at hread hhdr hin
  obtain ⟨k, rfl⟩ : ∃ k, n = k + 1 := ⟨n - 1, by omega⟩
  have hbuf := hread.buf k rfl
  have hlen := hread.len k rfl
  have hchunk := hread.chunkPos
  have hcount : ((framed pre).length + fotaBlockHeaderSize + block.length + 4095) / 4096 = k + 1 := by
    omega
  refine ⟨d.setBlock head (d.blockHdrPos + fotaBlockHeaderSize) block
    (d.blockHdrPos + fotaBlockHeaderSize + block.length), ⟨rfl, rfl, ?_⟩, ⟨?_, ?_⟩, ?_⟩
  · change d.chunkPos + (d.blockHdrPos + fotaBlockHeaderSize) = _
    omega
  · rw [hcount]
    exact hread.setBlock _ _
  · change d.blockHdrPos + fotaBlockHeaderSize + block.length + roundUp _ = _
    unfold roundUp
    rw [hcount]
    omega
  have hbytes {i j : Nat} (hij : d.blockHdrPos + i + j ≤ fotaAlgoBuffSize) :
      (d.cryptBuf.drop (d.blockHdrPos + i)).take j =
        slice (stream env.toBoard head m) ((framed pre).length + i) j := by
    rw [hbuf, take_drop_slice hij]
    congr 1
    omega
  have hsize : getBlockSize env head ((d.cryptBuf.drop d.blockHdrPos).take fotaBlockHeaderSize) w =
      .done block.length w := by
    have hheader := @hbytes 0 fotaBlockHeaderSize (by omega)
    rw [Nat.add_zero, Nat.add_zero] at hheader
    rw [hheader, getBlockSize, hframe.header, decide_eq_true (himg.usable hsplit), require_true]
    rfl
  have hpeek : peek env d.cryptBuf (d.blockHdrPos + fotaBlockHeaderSize) block.length w =
      .done block w := by
    have hinside : d.blockHdrPos + fotaBlockHeaderSize + block.length ≤ d.cryptBuf.length := by
      rw [hbuf, length_slice]
      omega
    have hpayload := @hbytes fotaBlockHeaderSize block.length (by omega)
    rw [hframe.payload] at hpayload
    rw [peek, if_pos hinside, hpayload]
  unfold tailStep
  dsimp only
  rw [if_pos ⟨htotal, by omega, by omega⟩, bind_done hsize, if_pos (by omega), bind_done hpeek]

/-- A round that looks for the header behind `pre` in the last chunk. -/
theorem tailStep_ahead {pre rest : List (List UInt8)} (hsplit : blocks = pre ++ rest)
    (h : OnTrack env.toBoard head w₀ pre t w) (hd : d.AtFrame env.toBoard head m (framed pre).length)
    (hlast : Head.comSize head ≤ roundUp (framed pre).length)
    (hiff : S ↔ Streamable env.toBoard head (framed pre).length
      (output env.toBoard head pre).length rest) :
    Meets (tailStep env head (verifySink (Head.rawSize head)) VerifyState.totalCopySize (d, t)) w
      (fun r' w' => match r' with
        | .inl s' => TailState env.toBoard head m blocks w₀ S s' w'
        | .inr t' => DecodeEnd env.toBoard head blocks w₀ S t' w')
      (fun _ _ => ¬ S) (fun _ _ => False) := by
  have htotal : t.totalCopySize = min (output env.toBoard head pre).length (Head.rawSize head) := by
    rw [h.state]
  by_cases hraw : Head.rawSize head ≤ (output env.toBoard head pre).length
  · -- all bytes that count are decoded
    have hstop : ¬ t.totalCopySize < Head.rawSize head := by omega
    unfold tailStep
    dsimp only
    rw [if_neg fun hc => hstop hc.1]
    exact Meets.pure (.complete hsplit h hraw (hiff.mpr (streamable_of_done hlast hraw)))
  have hrest : rest ≠ [] := by
    rintro rfl
    rw [List.append_nil] at hsplit
    exact hraw (hsplit ▸ himg.rawSize)
  obtain ⟨block, rest, rfl⟩ := List.exists_cons_of_ne_nil hrest
  obtain ⟨hne, hlen⟩ := himg.decompresses block (FramedImage.mem_next hsplit)
  obtain ⟨d', hfound, hd', hrun⟩ := tailStep_next (w := w) himg hsplit hd hlast (t := t) (by omega)
  obtain ⟨w₁, t', w', hdec, hsink, hstate⟩ := h.hand blocks hfound hne hlen
  have hstep : tailStep env head (verifySink (Head.rawSize head)) VerifyState.totalCopySize (d, t) w =
      .done (.inl (d', t')) w' := by
    rw [hrun, bind_done hdec, bind_done hsink]
    rfl
  refine Meets.of_done hstep ?_
  dsimp only
  rw [Streamable] at hiff
  split at hstate
  · next hfit =>
    have hsplit' : blocks = pre ++ [block] ++ rest := by
      rw [hsplit, List.append_assoc]
      rfl
    refine .ahead hsplit' hstate hd' (Nat.le_trans hlast (roundUp_mono ?_)) ?_
    · rw [length_framed_concat, Nat.add_assoc]
      exact Nat.le_add_right _ _
    · rw [hiff, length_framed_concat, output_concat, List.length_append]
      exact ⟨fun hS => hS.2.2, fun hS => ⟨fun hlt => absurd hlt (Nat.not_lt_of_le hlast),
        fun _ => hfit, hS⟩⟩
  · next hover =>
    exact .astray (fun hS => hover ((hiff.mp hS).2.1 (.inr (Nat.lt_of_not_le hraw)))) hstate

/-- A round of the loop over the last chunk. -/
theorem tailStep_state (hwithin : d.Within part)
    (h : TailState env.toBoard head m blocks w₀ S (d, t) w) :
    Meets (tailStep env head (verifySink (Head.rawSize head)) VerifyState.totalCopySize (d, t)) w
      (fun r' w' => match r' with
        | .inl s' => TailState env.toBoard head m blocks w₀ S s' w'
        | .inr t' => DecodeEnd env.toBoard head blocks w₀ S t' w')
      (fun _ _ => ¬ S) (fun _ _ => False) := by
  cases h with
  | ahead hsplit h hd hlast hiff => exact tailStep_ahead himg hsplit h hd hlast hiff
  | complete h hS =>
    have hstop : ¬ t.totalCopySize < Head.rawSize head := by
      have hraw := himg.rawSize
      obtain rfl : t = _ := h.state
      dsimp only
      omega
    unfold tailStep
    dsimp only
    rw [if_neg fun hc => hstop hc.1]
    exact Meets.pure (.complete (List.append_nil blocks).symm h himg.rawSize hS)
  | astray hno h =>
    refine (tailStep_meets (astray_keeps head) hwithin h).mono ?_ (fun _ _ _ => hno) fun _ _ h => h
    rintro (s' | t') w' h'
    · exact .astray hno h'.1.2
    · exact .astray hno h'

end tail

end McuUtilities.Fota
