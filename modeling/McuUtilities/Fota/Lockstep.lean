import McuUtilities.Fota.Check
import McuUtilities.Lib.Follows

/-!
# Two runs of the decoder in step

Two boots of one board whose allocations and reads succeed read the same chunks from a partition
with the same contents, and find the same blocks in them. So two runs of `decode` on it hand the
same pieces to their sinks, as long as neither is told something by a read past the end of a buffer
(`decode_follows`).
-/

namespace McuUtilities.Fota
open Prog

/-! ## Chunks -/

/-- The chunk at `pos` of an image body, decrypted when the header says so, and the new `aes_iv`. -/
def chunk (b : Board) (head : List UInt8) (m : Nat → UInt8) (pos : Nat) (iv : List UInt8) :
    List UInt8 × List UInt8 :=
  let buf := slice m (sizeofHead + pos) fotaAlgoBuffSize
  if Head.cryptAlgo head = fotaCryptAlgoAes256 then
    b.cipher.cbcDecrypt (fotaAlgoBuffSize / 16) iv buf
  else (buf, iv)

/-- The locals after a chunk was read. -/
def Decoder.refilled (d : Decoder) (c : List UInt8 × List UInt8) : Decoder :=
  { d with
    fwRawLen := c.1.length
    fwRawPos := u32 (d.fwRawPos + c.1.length)
    cryptBuf := c.1
    aesIv := c.2 }

theorem length_chunk {b : Board} {head : List UInt8} {m : Nat → UInt8} {pos : Nat}
    {iv : List UInt8} (hiv : iv.length = 16) :
    (chunk b head m pos iv).1.length = fotaAlgoBuffSize ∧ (chunk b head m pos iv).2.length = 16 := by
  have hbuff : fotaAlgoBuffSize = 4096 := rfl
  unfold chunk
  split
  · have hlen : 16 * (fotaAlgoBuffSize / 16) ≤
        (slice m (sizeofHead + pos) fotaAlgoBuffSize).length := by
      rw [length_slice]
      omega
    obtain ⟨h1, h2⟩ := BlockCipher.length_cbcDecrypt (c := b.cipher) hiv hlen
    exact ⟨h1.trans (by omega), h2⟩
  · simp only [length_slice, hiv, and_self]

theorem chunk_congr {b : Board} {head : List UInt8} {m m' : Nat → UInt8} {pos : Nat}
    {iv : List UInt8} (h : slice m (sizeofHead + pos) fotaAlgoBuffSize =
      slice m' (sizeofHead + pos) fotaAlgoBuffSize) :
    chunk b head m pos iv = chunk b head m' pos iv := by
  simp only [chunk, h]

section refill
variable {env : Env} (hrel : env.Reliable) {part : FalPartition} {r : Region} (head : List UInt8)
  {d : Decoder} {w : World}
include hrel

theorem cryptInit_reliable : ∃ w', Ticked w w' ∧ w'.decompressed = w.decompressed ∧
    cryptInit env head w =
      if Head.cryptAlgo head ≠ fotaCryptAlgoXor then .done () w' else .fail .generalErr w' := by
  unfold cryptInit
  by_cases haes : Head.cryptAlgo head = fotaCryptAlgoAes256
  · have hne : Head.cryptAlgo head ≠ fotaCryptAlgoXor := by rw [haes]; decide
    refine ⟨{ w with allocs := w.allocs + 1 + 1 }, ⟨rfl, rfl, rfl, rfl, rfl, rfl, rfl⟩, rfl, ?_⟩
    rw [if_pos haes, bind_done (malloc_reliable hrel), bind_done (malloc_reliable hrel), if_pos hne]
    rfl
  · refine ⟨w, Ticked.refl w, rfl, ?_⟩
    rw [if_neg haes]
    by_cases hne : Head.cryptAlgo head ≠ fotaCryptAlgoXor
    · rw [if_pos hne, decide_eq_true hne]
      rfl
    · rw [if_neg hne, decide_eq_false hne]
      rfl

theorem cmprsInit_reliable : ∃ w', Ticked w w' ∧ w'.decompressed = w.decompressed ∧
    cmprsInit env head w =
      if Head.cmprsAlgo head ≠ fotaCmprsAlgoGzip then .done () w' else .fail .generalErr w' := by
  unfold cmprsInit
  by_cases hfast : Head.cmprsAlgo head = fotaCmprsAlgoFastlz
  · have hne : Head.cmprsAlgo head ≠ fotaCmprsAlgoGzip := by rw [hfast]; decide
    refine ⟨{ w with allocs := w.allocs + 1 + 1 }, ⟨rfl, rfl, rfl, rfl, rfl, rfl, rfl⟩, rfl, ?_⟩
    rw [if_pos hfast, bind_done (malloc_reliable hrel), bind_done (malloc_reliable hrel), if_pos hne]
    rfl
  · rw [if_neg hfast]
    by_cases hqlz : Head.cmprsAlgo head = fotaCmprsAlgoQuicklz
    · have hne : Head.cmprsAlgo head ≠ fotaCmprsAlgoGzip := by rw [hqlz]; decide
      refine ⟨{ w with allocs := w.allocs + 1 + 1 + 1 }, ⟨rfl, rfl, rfl, rfl, rfl, rfl, rfl⟩, rfl, ?_⟩
      rw [if_pos hqlz, bind_done (malloc_reliable hrel), bind_done (malloc_reliable hrel),
        bind_done (malloc_reliable hrel), if_pos hne]
      rfl
    · refine ⟨w, Ticked.refl w, rfl, ?_⟩
      rw [if_neg hqlz]
      by_cases hne : Head.cmprsAlgo head ≠ fotaCmprsAlgoGzip
      · rw [if_pos hne, decide_eq_true hne]
        rfl
      · rw [if_neg hne, decide_eq_false hne]
        rfl

/-- The algorithms of the image are not among those that are refused. -/
def AlgoSupported (head : List UInt8) : Prop :=
  Head.cryptAlgo head ≠ fotaCryptAlgoXor ∧ Head.cmprsAlgo head ≠ fotaCmprsAlgoGzip

variable {head} in
theorem decoderInit_done (h : AlgoSupported head) : ∃ w', Ticked w w' ∧
    w'.decompressed = w.decompressed ∧ decoderInit env head w = .done () w' := by
  obtain ⟨w₁, ht₁, hd₁, h₁⟩ := cryptInit_reliable (w := w) hrel head
  obtain ⟨w₂, ht₂, hd₂, h₂⟩ := cmprsInit_reliable (w := w₁) hrel head
  rw [if_pos h.1] at h₁
  rw [if_pos h.2] at h₂
  exact ⟨w₂, ht₁.trans ht₂, hd₂.trans hd₁, by rw [decoderInit, bind_done h₁, h₂]⟩

variable {head} in
theorem algoSupported_of_decoderInit {w' : World} (h : decoderInit env head w = .done () w') :
    AlgoSupported head ∧ Ticked w w' := by
  obtain ⟨u, w₁, hc, hm⟩ := bind_eq_done h
  obtain ⟨v₁, ht₁, -, h₁⟩ := cryptInit_reliable (w := w) hrel head
  obtain ⟨v₂, ht₂, -, h₂⟩ := cmprsInit_reliable (w := w₁) hrel head
  rw [h₁] at hc
  split at hc
  · next hx =>
    cases hc
    rw [h₂] at hm
    split at hm
    · next hg =>
      cases hm
      exact ⟨⟨hx, hg⟩, ht₁.trans ht₂⟩
    · cases hm
  · cases hc

variable (hr : env.region part = some r)
include hr

theorem fotaReadPart_in {readPos : Nat} (iv : List UInt8)
    (h : sizeofHead + readPos + fotaAlgoBuffSize ≤ part.len) :
    ∃ w', Ticked w w' ∧ w'.decompressed = w.decompressed ∧
      fotaReadPart env part readPos (Head.cryptAlgo head = fotaCryptAlgoAes256) iv fotaAlgoBuffSize w =
        .done (chunk env.toBoard head (r.view w.flash) readPos iv) w' := by
  have hbound := part.bound
  have hbuff : fotaAlgoBuffSize = 4096 := rfl
  have haddr : u32 (sizeofHead + readPos) = sizeofHead + readPos := by
    simp only [u32]
    omega
  have hlen : ¬ (fotaAlgoBuffSize % 16 ≠ 0 ∨ fotaAlgoBuffSize < fotaAlgoBuffSize) := by decide
  unfold fotaReadPart chunk
  rw [if_neg hlen]
  by_cases haes : Head.cryptAlgo head = fotaCryptAlgoAes256
  · have hbuf : ¬ ((slice (r.view w.flash) (sizeofHead + readPos) fotaAlgoBuffSize).length = 0 ∨
        (slice (r.view w.flash) (sizeofHead + readPos) fotaAlgoBuffSize).length % 16 ≠ 0) := by
      rw [length_slice]
      decide
    refine ⟨{ w with allocs := w.allocs + 1, reads := w.reads + 1 },
      ⟨rfl, rfl, rfl, rfl, rfl, rfl, rfl⟩, rfl, ?_⟩
    have hread := falPartitionRead_reliable (w := { w with allocs := w.allocs + 1 }) hr hrel h
    rw [if_pos (decide_eq_true haes), bind_done (malloc_reliable hrel), require_true,
      bind_done (pure_apply _), haddr, bind_done hread, if_pos haes]
    dsimp only
    rw [if_neg hbuf, pure_apply, length_slice]
  · have hbuf : ¬ (slice (r.view w.flash) (sizeofHead + readPos) fotaAlgoBuffSize).length = 0 := by
      rw [length_slice]
      decide
    refine ⟨{ w with reads := w.reads + 1 }, ⟨rfl, rfl, rfl, rfl, rfl, rfl, rfl⟩, rfl, ?_⟩
    have hread := falPartitionRead_reliable (w := w) hr hrel h
    rw [if_neg (fun h => haes (of_decide_eq_true h)), haddr, bind_done hread, if_neg haes]
    dsimp only
    rw [if_neg hbuf, pure_apply]

/-- A chunk inside the partition is read. -/
theorem refill_in (h : sizeofHead + d.fwRawPos + fotaAlgoBuffSize ≤ part.len) :
    ∃ w', Ticked w w' ∧ w'.decompressed = w.decompressed ∧ refill env part head d w =
      .done (d.refilled (chunk env.toBoard head (r.view w.flash) d.fwRawPos d.aesIv)) w' := by
  obtain ⟨w', ht, hd, hread⟩ := fotaReadPart_in (w := w) hrel head hr d.aesIv h
  exact ⟨w', ht, hd, by rw [refill, bind_done (attempt_done hread)]; rfl⟩

omit hr in
/-- A chunk that ends past the partition is refused. -/
theorem refill_out (h : part.len < sizeofHead + d.fwRawPos + fotaAlgoBuffSize)
    (hpos : d.fwRawPos ≤ part.len) :
    ∃ w', Ticked w w' ∧ refill env part head d w = .fail .partReadErr w' := by
  have hbound := part.bound
  have hbuff : fotaAlgoBuffSize = 4096 := rfl
  have hsize : sizeofHead = 96 := rfl
  have haddr : u32 (sizeofHead + d.fwRawPos) = sizeofHead + d.fwRawPos := by
    simp only [u32]
    omega
  have hlen : ¬ (fotaAlgoBuffSize % 16 ≠ 0 ∨ fotaAlgoBuffSize < fotaAlgoBuffSize) := by decide
  have hwrap : sizeofHead + d.fwRawPos + fotaAlgoBuffSize < 2 ^ 32 := by omega
  have hfail : ∃ w', Ticked w w' ∧ fotaReadPart env part d.fwRawPos
      (Head.cryptAlgo head = fotaCryptAlgoAes256) d.aesIv fotaAlgoBuffSize w =
        .fail .partReadErr w' := by
    unfold fotaReadPart
    rw [if_neg hlen]
    by_cases haes : Head.cryptAlgo head = fotaCryptAlgoAes256
    · refine ⟨{ w with allocs := w.allocs + 1 }, ⟨rfl, rfl, rfl, rfl, rfl, rfl, rfl⟩, ?_⟩
      have hread : falPartitionRead env part _ _ { w with allocs := w.allocs + 1 } = _ :=
        falPartitionRead_out h hwrap
      rw [if_pos (decide_eq_true haes), bind_done (malloc_reliable hrel), require_true,
        bind_done (pure_apply _), haddr, bind_done hread]
      rfl
    · refine ⟨w, Ticked.refl w, ?_⟩
      have hread : falPartitionRead env part _ _ w = _ := falPartitionRead_out h hwrap
      rw [if_neg (fun h => haes (of_decide_eq_true h)), haddr, bind_done hread]
      rfl
  obtain ⟨w', ht, hfail⟩ := hfail
  exact ⟨w', ht, by rw [refill, bind_done (attempt_fail hfail)]; rfl⟩

end refill

/-! ## Reading in step -/

/-- The locals are those of a decoder that has not read past the partition. -/
structure Decoder.Sane (part : FalPartition) (d : Decoder) : Prop where
  pos : d.fwRawPos ≤ part.len
  iv : d.aesIv.length = 16
  buf : d.cryptBuf.length ≤ fotaAlgoBuffSize

theorem Decoder.Sane.setBlock {part : FalPartition} {d : Decoder} (h : d.Sane part)
    (head : List UInt8) (pos : Nat) (payload : List UInt8) (hdrPos : Nat) :
    (d.setBlock head pos payload hdrPos).Sane part := ⟨h.pos, h.iv, h.buf⟩

theorem Decoder.Sane.setFrom {part : FalPartition} {d : Decoder} (h : d.Sane part) (k : Nat) :
    ({ d with cmprsFrom := k } : Decoder).Sane part := ⟨h.pos, h.iv, h.buf⟩

/-- `Ok` is about what grows: it says at least that no access was outside a buffer, and what held
later held before. -/
structure Tame (n₀ : Nat) (Ok : World → Prop) : Prop where
  oob : ∀ {w}, Ok w → w.oob ≤ n₀
  quiet : ∀ {w w'}, Quiet w w' → Ok w' → Ok w

/-- From states that agree on the region `r`, the second program returns what the first one
does, unless that is not `Ok` any more; both only move counters. -/
def Alike {α : Type} (r : Region) (n₀ : Nat) (Ok : World → Prop) (m₁ m₂ : Boot α)
    (P : α → Prop) : Prop :=
  ∀ w₁ w₂ E H, r.Agree w₁.flash w₂.flash → n₀ ≤ w₁.oob →
    Follows Ok m₁ m₂ w₁ w₂
      (fun a t₁ b t₂ => a = b ∧ P a ∧ Ticked w₁ t₁ ∧ Ticked w₂ t₂) E H

section alike
variable {r : Region} {n₀ : Nat} {Ok : World → Prop} {α β : Type}

theorem Alike.bind (hok : Tame n₀ Ok) {m₁ m₂ : Boot α} {f₁ f₂ : α → Boot β} {P : α → Prop} {Q : β → Prop}
    (hm : Alike r n₀ Ok m₁ m₂ P) (hq : ∀ a, Always Quiet (f₁ a))
    (hf : ∀ a, P a → Alike r n₀ Ok (f₁ a) (f₂ a) Q) : Alike r n₀ Ok (m₁ >>= f₁) (m₂ >>= f₂) Q := by
  intro w₁ w₂ E H hag hle
  refine Follows.bind (hm w₁ w₂ E H hag hle)
    (fun a => (hq a).mono fun _ _ h => hok.quiet h) ?_
  rintro a t₁ _ t₂ - ⟨rfl, ha, ht₁, ht₂⟩
  rw [← ht₁.flash, ← ht₂.flash] at hag
  refine (hf a ha t₁ t₂ E H hag (ht₁.oob ▸ hle)).mono ?_
  rintro b u₁ b' u₂ - ⟨hb, hQ, hu₁, hu₂⟩
  exact ⟨hb, hQ, ht₁.trans hu₁, ht₂.trans hu₂⟩

theorem Alike.pure {P : α → Prop} {a : α} (h : P a) :
    Alike r n₀ Ok (Pure.pure a) (Pure.pure a) P :=
  fun w₁ w₂ _ _ _ _ => Follows.pure fun _ => ⟨rfl, h, Ticked.refl w₁, Ticked.refl w₂⟩

theorem Alike.require {c : Bool} {e : FotaErr} {P : Unit → Prop} (h : c = true → P ()) :
    Alike r n₀ Ok (Prog.require c e) (Prog.require c e) P :=
  fun w₁ w₂ _ _ _ _ => Follows.require (fun hc => hc) fun _ hc =>
    ⟨rfl, h hc, Ticked.refl w₁, Ticked.refl w₂⟩

theorem Alike.ite {c : Prop} [Decidable c] {m₁ m₂ m₁' m₂' : Boot α} {P : α → Prop}
    (h : c → Alike r n₀ Ok m₁ m₂ P) (h' : ¬ c → Alike r n₀ Ok m₁' m₂' P) :
    Alike r n₀ Ok (if c then m₁ else m₁') (if c then m₂ else m₂') P :=
  fun w₁ w₂ E H hag hle => Follows.ite (fun hc => h hc w₁ w₂ E H hag hle)
    fun hc => h' hc w₁ w₂ E H hag hle

theorem peek_alike (hok : Tame n₀ Ok) {env₁ env₂ : Env} {buf : List UInt8} {i n : Nat} {P : List UInt8 → Prop}
    (h : i + n ≤ buf.length → P ((buf.drop i).take n)) :
    Alike r n₀ Ok (peek env₁ buf i n) (peek env₂ buf i n) P := by
  intro w₁ w₂ E H hag hle a t₁ ha hend
  simp only [peek] at ha
  split at ha
  · next hin =>
    cases ha
    exact Meets.of_done (by simp only [peek, if_pos hin]) ⟨rfl, h hin, Ticked.refl _, Ticked.refl _⟩
  · cases ha
    have := hok.oob hend
    exact absurd this (by dsimp only; omega)

end alike

section decoder
variable {env₁ env₂ : Env} (hb : env₁.toBoard = env₂.toBoard) (h₁ : env₁.Reliable)
  (h₂ : env₂.Reliable) {part : FalPartition} {r : Region} (hr : env₁.region part = some r)
  {head : List UInt8} {n₀ : Nat} {Ok : World → Prop} (hok : Tame n₀ Ok) {d : Decoder}
include hb hok

theorem getBlockSize_alike {buf : List UInt8} :
    Alike r n₀ Ok (getBlockSize env₁ head buf) (getBlockSize env₂ head buf)
      (fun n => n < cmprsUsable env₁ head) := by
  have hu : cmprsUsable env₁ head = cmprsUsable env₂ head := by simp only [cmprsUsable, hb]
  unfold getBlockSize
  rw [← hu]
  exact Alike.bind hok (Alike.require fun hc => of_decide_eq_true hc) (fun _ => Quiet.pure _)
    fun _ h => Alike.pure h

theorem decompress_alike :
    Alike r n₀ Ok (decompress env₁ head d) (decompress env₂ head d)
      (fun piece => piece ≠ [] ∧ piece.length ≤ fotaAlgoBuffSize) := by
  have hf : env₁.fastlzDecompress = env₂.fastlzDecompress := by rw [hb]
  have hq : env₁.qlzDecompress = env₂.qlzDecompress := by rw [hb]
  unfold decompress
  rw [← hf, ← hq]
  refine Alike.bind hok (P := fun _ => True) ?_ (fun _ => Quiet.bind (Quiet.require _ _)
    fun _ => peek_quiet) fun _ _ => ?_
  · intro w₁ w₂ E H hag hle
    exact Follows.of_done rfl fun _ => Meets.of_done rfl
      ⟨rfl, trivial, ⟨rfl, rfl, rfl, rfl, rfl, rfl, rfl⟩, ⟨rfl, rfl, rfl, rfl, rfl, rfl, rfl⟩⟩
  · generalize (if Head.cmprsAlgo head = fotaCmprsAlgoFastlz then _ else _ : List UInt8) = out
    refine Alike.bind hok (P := fun _ => out.length ≠ 0)
      (Alike.require fun hc => of_decide_eq_true hc) (fun _ => peek_quiet) fun _ hne => ?_
    refine peek_alike hok fun hin => ?_
    have hsame : fotaCmprsBufferSize = fotaAlgoBuffSize := rfl
    rw [List.length_take] at hin
    rw [List.drop_zero]
    refine ⟨fun h0 => ?_, ?_⟩
    · have := congrArg List.length h0
      simp only [List.length_take, List.length_nil] at this
      omega
    · simp only [List.length_take]
      omega

include h₁ h₂ hr

omit hok in
theorem refill_alike (hd : d.Sane part) :
    Alike r n₀ Ok (refill env₁ part head d) (refill env₂ part head d)
      (fun d' => d'.Sane part ∧ d'.cryptBuf ≠ []) := by
  intro w₁ w₂ E H hag hle
  have hr₂ : env₂.region part = some r := by rw [← hb]; exact hr
  have hlen : r.len = part.len := (Board.region_eq hr).2.2
  have hbound := part.bound
  have hbuff : fotaAlgoBuffSize = 4096 := rfl
  by_cases hin : sizeofHead + d.fwRawPos + fotaAlgoBuffSize ≤ part.len
  · obtain ⟨t₁, ht₁, -, hrun₁⟩ := refill_in (w := w₁) (d := d) h₁ head hr hin
    obtain ⟨t₂, ht₂, -, hrun₂⟩ := refill_in (w := w₂) (d := d) h₂ head hr₂ hin
    obtain ⟨hc, hiv⟩ : (chunk env₁.toBoard head (r.view w₁.flash) d.fwRawPos d.aesIv).1.length = _ ∧ _ :=
      length_chunk hd.iv
    have hsame : chunk env₂.toBoard head (r.view w₂.flash) d.fwRawPos d.aesIv =
        chunk env₁.toBoard head (r.view w₁.flash) d.fwRawPos d.aesIv := by
      rw [hb]
      exact chunk_congr (hag.slice (by rw [hlen]; exact hin)).symm
    rw [hsame] at hrun₂
    refine Follows.of_done hrun₁ fun _ => Meets.of_done hrun₂
      ⟨rfl, ⟨⟨?_, hiv, ?_⟩, fun h0 => ?_⟩, ht₁, ht₂⟩
    · simp only [Decoder.refilled, hc, u32]
      omega
    · simp only [Decoder.refilled, hc]
      exact Nat.le_refl _
    · have := congrArg List.length h0
      rw [Decoder.refilled, hc, hbuff] at this
      cases this
  · obtain ⟨t₁, -, hrun₁⟩ := refill_out (w := w₁) h₁ head (by omega) hd.pos
    exact Follows.of_fail hrun₁

theorem blockAtChunk_alike (hd : d.Sane part) :
    Alike r n₀ Ok (blockAtChunk env₁ part head d) (blockAtChunk env₂ part head d)
      (Decoder.Sane part) := by
  refine Alike.bind hok (refill_alike hb h₁ h₂ hr hd) (fun _ => Quiet.bind getBlockSize_quiet fun _ =>
    Quiet.bind peek_quiet fun _ => Quiet.pure _) fun d' ⟨hd', _⟩ => ?_
  refine Alike.bind hok (getBlockSize_alike hb hok) (fun _ => Quiet.bind peek_quiet fun _ => Quiet.pure _)
    fun n _ => ?_
  exact Alike.bind hok (P := fun _ => True) (peek_alike hok fun _ => trivial) (fun _ => Quiet.pure _)
    fun payload _ => Alike.pure (hd'.setBlock _ _ _ _)

theorem blockSplitHeader_alike (hd : d.Sane part) (hdr : List UInt8) :
    Alike r n₀ Ok (blockSplitHeader env₁ part head d hdr) (blockSplitHeader env₂ part head d hdr)
      (Decoder.Sane part) := by
  refine Alike.bind hok (refill_alike hb h₁ h₂ hr hd) (fun _ => Quiet.bind getBlockSize_quiet fun _ =>
    Quiet.bind peek_quiet fun _ => Quiet.pure _) fun d' ⟨hd', _⟩ => ?_
  refine Alike.bind hok (getBlockSize_alike hb hok) (fun _ => Quiet.bind peek_quiet fun _ => Quiet.pure _)
    fun n _ => ?_
  exact Alike.bind hok (P := fun _ => True) (peek_alike hok fun _ => trivial) (fun _ => Quiet.pure _)
    fun payload _ => Alike.pure (hd'.setBlock _ _ _ _)

theorem blockAcross_alike (hd : d.Sane part) (pos rest : Nat) :
    Alike r n₀ Ok (blockAcross env₁ part head d pos rest) (blockAcross env₂ part head d pos rest)
      (Decoder.Sane part) := by
  refine Alike.bind hok (refill_alike hb h₁ h₂ hr hd) (fun _ => Quiet.bind peek_quiet
    fun _ => Quiet.pure _) fun d' ⟨hd', _⟩ => ?_
  exact Alike.bind hok (P := fun _ => True) (peek_alike hok fun _ => trivial) (fun _ => Quiet.pure _)
    fun tail _ => Alike.pure ((hd'.setBlock _ _ _ _).setFrom _)

theorem blockInChunk_alike (hd : d.Sane part) (hdr : List UInt8) (pos : Nat) :
    Alike r n₀ Ok (blockInChunk env₁ part head d hdr pos) (blockInChunk env₂ part head d hdr pos)
      (Decoder.Sane part) := by
  refine Alike.bind hok (getBlockSize_alike hb hok) (fun n => Always.ite (fun _ => blockAcross_quiet)
    fun _ => Quiet.pure _) fun n _ => Alike.ite (fun _ => ?_) fun _ => Alike.pure (hd.setBlock _ _ _ _)
  exact blockAcross_alike hb h₁ h₂ hr hok hd _ _

theorem nextBlock_alike (hd : d.Sane part) :
    Alike r n₀ Ok (nextBlock env₁ part head d) (nextBlock env₂ part head d) (Decoder.Sane part) :=
  Alike.ite (fun _ => blockAtChunk_alike hb h₁ h₂ hr hok hd) fun _ =>
    Alike.ite (fun _ => blockSplitHeader_alike hb h₁ h₂ hr hok hd _) fun _ =>
      Alike.ite (fun _ => blockInChunk_alike hb h₁ h₂ hr hok hd _ _) fun _ =>
        Alike.pure ⟨hd.pos, hd.iv, hd.buf⟩

end decoder

/-! ## Two sinks in step -/

/-- Two sinks that keep their states related by `S`, which says of the flash at least that the two
boots agree on the region, and which counters do not touch. `E` and `H` are the early ends of the
second one. -/
structure SinksAlike {τ₁ τ₂ : Type} (r : Region) (n₀ : Nat) (Ok : World → Prop) (rawSize : Nat)
    (sink₁ : Sink τ₁) (sink₂ : Sink τ₂) (total₁ : τ₁ → Nat) (total₂ : τ₂ → Nat)
    (S : τ₁ → World → τ₂ → World → Prop) (E : FotaErr → World → Prop) (H : Halt → World → Prop) :
    Prop extends Tame n₀ Ok where
  agree : ∀ {t₁ w₁ t₂ w₂}, S t₁ w₁ t₂ w₂ → r.Agree w₁.flash w₂.flash ∧ n₀ ≤ w₁.oob
  ticked : ∀ {t₁ w₁ t₂ w₂ w₁' w₂'}, S t₁ w₁ t₂ w₂ → Ticked w₁ w₁' → Ticked w₂ w₂' →
    S t₁ w₁' t₂ w₂'
  total : ∀ {t₁ w₁ t₂ w₂}, Ok w₁ → S t₁ w₁ t₂ w₂ → (total₁ t₁ < rawSize ↔ total₂ t₂ < rawSize)
  sink : ∀ t piece, Always Quiet (sink₁ t piece)
  step : ∀ {t₁ w₁ t₂ w₂ piece}, S t₁ w₁ t₂ w₂ → piece ≠ [] → piece.length ≤ fotaAlgoBuffSize →
    Follows Ok (sink₁ t₁ piece) (sink₂ t₂ piece) w₁ w₂ S E H

section sinks
variable {env₁ env₂ : Env} (hb : env₁.toBoard = env₂.toBoard) (h₁ : env₁.Reliable)
  (h₂ : env₂.Reliable) {part : FalPartition} {r : Region} (hr : env₁.region part = some r)
  {head : List UInt8} {n₀ : Nat} {Ok : World → Prop} {d : Decoder} {τ₁ τ₂ : Type}
  {sink₁ : Sink τ₁} {sink₂ : Sink τ₂} {total₁ : τ₁ → Nat} {total₂ : τ₂ → Nat}
  {S : τ₁ → World → τ₂ → World → Prop} {E : FotaErr → World → Prop} {H : Halt → World → Prop}
  {t₁ : τ₁} {t₂ : τ₂} {w₁ w₂ : World}
  (hs : SinksAlike r n₀ Ok (Head.rawSize head) sink₁ sink₂ total₁ total₂ S E H)
include hs

/-- Sequencing of a program that only reads. -/
theorem SinksAlike.bind {α β α' β' : Type} {m₁ : Boot α} {m₂ : Boot β} {f₁ : α → Boot α'}
    {f₂ : β → Boot β'} {Q : α → World → β → World → Prop} {Q' : α' → World → β' → World → Prop}
    (hm : Follows Ok m₁ m₂ w₁ w₂ Q E H) (hq : ∀ a, Always Quiet (f₁ a))
    (hf : ∀ a u₁ b u₂, Ok u₁ → Q a u₁ b u₂ → Follows Ok (f₁ a) (f₂ b) u₁ u₂ Q' E H) :
    Follows Ok (m₁ >>= f₁) (m₂ >>= f₂) w₁ w₂ Q' E H :=
  Follows.bind hm (fun a => (hq a).mono fun _ _ h => hs.quiet h) hf

/-- A read in step and what follows it. -/
theorem SinksAlike.read {α β γ : Type} {m₁ m₂ : Boot α} {P : α → Prop} {f₁ : α → Boot β}
    {f₂ : α → Boot γ} {Q : β → World → γ → World → Prop} (hS : S t₁ w₁ t₂ w₂)
    (hm : Alike r n₀ Ok m₁ m₂ P) (hq : ∀ a, Always Quiet (f₁ a))
    (hf : ∀ a u₁ u₂, P a → S t₁ u₁ t₂ u₂ → Follows Ok (f₁ a) (f₂ a) u₁ u₂ Q E H) :
    Follows Ok (m₁ >>= f₁) (m₂ >>= f₂) w₁ w₂ Q E H := by
  obtain ⟨hag, hle⟩ := hs.agree hS
  refine hs.bind (hm w₁ w₂ E H hag hle) hq ?_
  rintro a u₁ _ u₂ - ⟨rfl, hP, hu₁, hu₂⟩
  exact hf a u₁ u₂ hP (hs.ticked hS hu₁ hu₂)

/-- A piece handed to both sinks. -/
theorem SinksAlike.hand {α β : Type} {piece : List UInt8} {f₁ : τ₁ → α} {f₂ : τ₂ → β}
    {Q : α → World → β → World → Prop} (hS : S t₁ w₁ t₂ w₂)
    (hne : piece ≠ []) (hlen : piece.length ≤ fotaAlgoBuffSize)
    (hQ : ∀ t₁ u₁ t₂ u₂, S t₁ u₁ t₂ u₂ → Q (f₁ t₁) u₁ (f₂ t₂) u₂) :
    Follows Ok (do let t ← sink₁ t₁ piece; pure (f₁ t)) (do let t ← sink₂ t₂ piece; pure (f₂ t))
      w₁ w₂ Q E H :=
  hs.bind (hs.step hS hne hlen) (fun _ => Quiet.pure _) fun t u₁ t' u₂ _ h =>
    Follows.pure fun _ => hQ t u₁ t' u₂ h

/-- The states of the two loops. -/
def InStep (part : FalPartition) (S : τ₁ → World → τ₂ → World → Prop) (s₁ : Decoder × τ₁)
    (w₁ : World) (s₂ : Decoder × τ₂) (w₂ : World) : Prop :=
  s₁.1 = s₂.1 ∧ s₁.1.Sane part ∧ S s₁.2 w₁ s₂.2 w₂

include hb

theorem tailStep_follows {s₁ : Decoder × τ₁} {s₂ : Decoder × τ₂} (h : InStep part S s₁ w₁ s₂ w₂)
    (hok : Ok w₁) :
    Follows Ok (tailStep env₁ head sink₁ total₁ s₁) (tailStep env₂ head sink₂ total₂ s₂) w₁ w₂
      (Round (InStep part S) S) E H := by
  obtain ⟨d, t₁⟩ := s₁
  obtain ⟨d', t₂⟩ := s₂
  obtain ⟨hd, hsane, hS⟩ := h
  dsimp only at hd hsane hS
  subst hd
  have htotal := hs.total hok hS
  unfold tailStep
  simp only [htotal]
  refine Follows.ite (fun _ => ?_) fun _ => Follows.pure fun _ => hS
  refine hs.read hS (getBlockSize_alike hb hs.toTame) (fun n => Always.ite (fun _ => ?_)
    fun _ => Quiet.pure _) fun n u₁ u₂ _ hS => Follows.ite (fun _ => ?_)
      fun _ => Follows.pure fun _ => hS
  · exact Quiet.bind peek_quiet fun _ => Quiet.bind decompress_quiet fun _ =>
      Quiet.bind (hs.sink _ _) fun _ => Quiet.pure _
  · refine hs.read (P := fun _ => True) hS (peek_alike hs.toTame fun _ => trivial) (fun _ =>
      Quiet.bind decompress_quiet fun _ => Quiet.bind (hs.sink _ _) fun _ => Quiet.pure _)
      fun payload u₁ u₂ _ hS => ?_
    refine hs.read hS (decompress_alike hb hs.toTame) (fun _ => Quiet.bind (hs.sink _ _)
      fun _ => Quiet.pure _) fun piece u₁ u₂ ⟨hne, hlen⟩ hS => hs.hand hS hne hlen fun t u₁ t' u₂ h => ?_
    exact ⟨rfl, hsane.setBlock _ _ _ _, h⟩

include h₁ h₂ hr

theorem mainStep_follows {s₁ : Decoder × τ₁} {s₂ : Decoder × τ₂} (h : InStep part S s₁ w₁ s₂ w₂) :
    Follows Ok (mainStep env₁ part head sink₁ s₁) (mainStep env₂ part head sink₂ s₂) w₁ w₂
      (Round (InStep part S) (InStep part S)) E H := by
  obtain ⟨d, t₁⟩ := s₁
  obtain ⟨d', t₂⟩ := s₂
  obtain ⟨hd, hsane, hS⟩ := h
  dsimp only at hd hsane hS
  subst hd
  unfold mainStep
  refine Follows.ite (fun _ => Follows.ite (fun _ => ?_) fun _ => ?_) fun _ =>
    Follows.pure fun _ => ⟨rfl, hsane, hS⟩
  · refine hs.read hS (nextBlock_alike hb h₁ h₂ hr hs.toTame hsane) (fun _ =>
      Quiet.bind decompress_quiet fun _ => Quiet.bind (hs.sink _ _) fun _ => Quiet.pure _)
      fun d u₁ u₂ hsane hS => ?_
    refine hs.read hS (decompress_alike hb hs.toTame) (fun _ => Quiet.bind (hs.sink _ _)
      fun _ => Quiet.pure _) fun piece u₁ u₂ ⟨hne, hlen⟩ hS => hs.hand hS hne hlen fun t u₁ t' u₂ h => ?_
    exact ⟨rfl, hsane, h⟩
  · refine hs.read hS (refill_alike hb h₁ h₂ hr hsane) (fun _ =>
      Quiet.bind (hs.sink _ _) fun _ => Quiet.pure _) fun d u₁ u₂ ⟨hsane, hne⟩ hS => ?_
    exact hs.hand hS hne hsane.buf fun t u₁ t' u₂ h => ⟨rfl, hsane, h⟩

/-- Two runs of the decoder, on one board and one partition contents, hand the same pieces to their
sinks. -/
theorem decode_follows (hd : d.Sane part) (hS : S t₁ w₁ t₂ w₂) :
    Follows Ok (decode env₁ part head sink₁ total₁ d t₁) (decode env₂ part head sink₂ total₂ d t₂)
      w₁ w₂ S E H := by
  have htail : ∀ s, Always Quiet (tailStep env₁ head sink₁ total₁ s) :=
    tailStep_always Quiet.refl Quiet.trans (fun _ _ h => h) hs.sink
  refine hs.bind (Follows.iterate (R := InStep part S) (Q := InStep part S)
    (fun s => (mainStep_always Quiet.refl Quiet.trans (fun _ _ h => h) hs.sink s).mono
      fun _ _ h => hs.quiet h)
    (fun s₁ u₁ s₂ u₂ h => mainStep_follows hb h₁ h₂ hr hs h) _ ⟨rfl, hd, hS⟩)
    (fun s => Always.ite (fun _ => Quiet.iterate htail _ _) fun _ => Quiet.pure _) ?_
  rintro ⟨d, t⟩ u₁ ⟨d', t'⟩ u₂ - ⟨hdd, hsane, hS⟩
  dsimp only at hdd hsane hS
  subst hdd
  refine Follows.ite (fun _ => ?_) fun _ => Follows.pure fun _ => hS
  refine Follows.iterate (R := InStep part S) (fun s => (htail s).mono fun _ _ h => hs.quiet h)
    (fun s₁ u₁ s₂ u₂ h => ?_) _ ⟨rfl, hsane, hS⟩
  intro r u₁' hrun hend
  have hok : Ok u₁ := hs.quiet ((htail s₁).of_done hrun) hend
  exact tailStep_follows hb hs h hok r u₁' hrun hend

end sinks

end McuUtilities.Fota
