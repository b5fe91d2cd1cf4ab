import McuUtilities.Fota.Package
import McuUtilities.Fota.Pieces

/-!
# Plain images

An image without compression and encryption decodes to the 4096-byte chunks of its body, the last
one with what lies behind the body in the partition.
-/

namespace McuUtilities.Fota
open Prog

/-- The image is stored as it is. -/
def PlainAlgo (head : List UInt8) : Prop := Head.cryptAlgo head = 0 ∧ Head.cmprsAlgo head = 0

instance (head : List UInt8) : Decidable (PlainAlgo head) := inferInstanceAs (Decidable (_ ∧ _))

/-- The first `n` chunks of an image body. -/
def plainChunks (m : Nat → UInt8) (n : Nat) : List (List UInt8) :=
  (List.range n).map fun k => slice m (sizeofHead + 4096 * k) fotaAlgoBuffSize

theorem plainChunks_succ {m : Nat → UInt8} {n : Nat} : plainChunks m (n + 1) =
    plainChunks m n ++ [slice m (sizeofHead + 4096 * n) fotaAlgoBuffSize] := by
  rw [plainChunks, List.range_succ, List.map_append]
  rfl

theorem flatten_plainChunks {m : Nat → UInt8} {n : Nat} :
    (plainChunks m n).flatten = slice m sizeofHead (4096 * n) := by
  induction n with
  | zero => rfl
  | succ n ih => rw [plainChunks_succ, List.flatten_append, List.flatten_singleton, ih,
      Nat.mul_succ, slice_add]

theorem PlainAlgo.supported {head : List UInt8} (h : PlainAlgo head) : AlgoSupported head := by
  constructor
  · rw [h.1]
    decide
  · rw [h.2]
    decide

section pieces
variable {b : Board} {part : FalPartition} {r : Region} (hr : b.region part = some r)
  {head : List UInt8} (hplain : PlainAlgo head) {f : Flash}
include hr hplain

/-- One round of the main loop takes the next chunk. -/
theorem mainStep_plain {d : Decoder} {n : Nat} {w : World} (hf : w.flash = f) (hoob : w.oob = 0)
    (hpos : d.fwRawPos = 4096 * n) (hlt : d.fwRawPos < Head.comSize head)
    (hle : sizeofHead + roundUp (Head.comSize head) ≤ part.len) :
    ∃ d' w', mainStep b.quietEnv part head collectSink (d, plainChunks (r.view f) n) w =
        .done (.inl (d', plainChunks (r.view f) (n + 1))) w' ∧
      w'.flash = f ∧ w'.oob = 0 ∧ d'.fwRawPos = 4096 * (n + 1) := by
  have hbuff : fotaAlgoBuffSize = 4096 := rfl
  have hbound := part.bound
  have hround : sizeofHead + d.fwRawPos + fotaAlgoBuffSize ≤ part.len := by
    unfold roundUp at hle
    omega
  obtain ⟨w', ht, -, hrun⟩ := refill_in (w := w) (d := d) b.quietEnv_reliable head hr hround
  have hchunk : (chunk b.quietEnv.toBoard head (r.view w.flash) d.fwRawPos d.aesIv).1 =
      slice (r.view f) (sizeofHead + 4096 * n) fotaAlgoBuffSize := by
    unfold chunk
    rw [if_neg (by rw [hplain.1]; decide), hf, hpos]
  generalize chunk b.quietEnv.toBoard head (r.view w.flash) d.fwRawPos d.aesIv = c at hrun hchunk
  have hnext : (d.refilled c).fwRawPos = 4096 * (n + 1) := by
    simp only [Decoder.refilled, u32]
    rw [hchunk, length_slice]
    omega
  have hstep : mainStep b.quietEnv part head collectSink (d, plainChunks (r.view f) n) w =
      .done (.inl (d.refilled c, plainChunks (r.view f) n ++ [c.1]))
        { w' with hashed := w'.hashed ++ c.1 } := by
    rw [mainStep, if_pos hlt, if_neg (fun h => h hplain.2), bind_done hrun]
    rfl
  rw [hchunk, ← plainChunks_succ] at hstep
  exact ⟨_, _, hstep, ht.flash.trans hf, ht.oob.trans hoob, hnext⟩

/-- The pieces of a plain image are its chunks. -/
theorem decodedPieces_plain (hle : Head.comSize head ≠ 0 →
      sizeofHead + roundUp (Head.comSize head) ≤ part.len) :
    decodedPieces b part head f =
      some (plainChunks (r.view f) ((Head.comSize head + 4095) / 4096)) := by
  have hbuff : fotaAlgoBuffSize = 4096 := rfl
  have hbound := part.bound
  have hmeets : Meets (collect b part head) (World.boot f)
      (fun ps w => ps = plainChunks (r.view f) ((Head.comSize head + 4095) / 4096) ∧ w.oob = 0)
      (fun _ _ => False) (fun _ _ => False) := by
    unfold collect decode
    refine Meets.bind ((Meets.iterate_of_measure (μ := fun s => part.len - s.1.fwRawPos)
      (I := fun s w => w.flash = f ∧ w.oob = 0 ∧ ∃ n, s.1.fwRawPos = 4096 * n ∧
        s.2 = plainChunks (r.view f) n ∧ n ≤ (Head.comSize head + 4095) / 4096)
      (Q := fun s w => w.oob = 0 ∧
        s.2 = plainChunks (r.view f) ((Head.comSize head + 4095) / 4096)) ?_
      ⟨rfl, rfl, 0, rfl, rfl, Nat.zero_le _⟩ (by simp only [loopFuel]; omega)).mono ?_
      (fun _ _ h => h) fun _ _ h => h)
    · rintro ⟨d, ps⟩ w ⟨hf, hoob, n, hpos, rfl, hn⟩
      dsimp only at hpos hn ⊢
      by_cases hlt : d.fwRawPos < Head.comSize head
      · have hle := hle (by omega)
        obtain ⟨d', w', hrun, hf', hoob', hpos'⟩ := mainStep_plain hr hplain hf hoob hpos hlt hle
        unfold roundUp at hle
        refine Meets.of_done hrun ⟨⟨hf', hoob', n + 1, hpos', rfl, by omega⟩, ?_⟩
        dsimp only
        omega
      · have hrun : mainStep b.quietEnv part head collectSink (d, plainChunks (r.view f) n) w =
            .done (.inr (d, plainChunks (r.view f) n)) w := by
          rw [mainStep, if_neg hlt]
          rfl
        have hend : n = (Head.comSize head + 4095) / 4096 := by omega
        exact Meets.of_done hrun ⟨hoob, by rw [hend]⟩
    · rintro ⟨d, ps⟩ w ⟨hoob, hps⟩
      dsimp only at hps ⊢
      rw [if_neg (fun h => h hplain.2)]
      exact Meets.pure ⟨hps, hoob⟩
  obtain ⟨ps, w, hrun, hmeets⟩ := hmeets.returns
  obtain ⟨rfl, hoob⟩ := hmeets
  exact decodedPieces_eq_some.mpr ⟨w, hrun, hoob⟩

end pieces

/-- A plain image is accepted when it has the hash in its header. -/
theorem piecesAccepted_plain {m : Nat → UInt8} {head : List UInt8} (hplain : PlainAlgo head)
    (hraw : Head.rawSize head ≤ roundUp (Head.comSize head))
    (hlt : roundUp (Head.comSize head) < 2 ^ 32)
    (hhash : fotaCalcHashCode (slice m sizeofHead (Head.rawSize head)) fnvSeed =
      Head.hashVal head) :
    PiecesAccepted head (plainChunks m ((Head.comSize head + 4095) / 4096)) := by
  have hflat : (plainChunks m ((Head.comSize head + 4095) / 4096)).flatten =
      slice m sizeofHead (roundUp (Head.comSize head)) := by
    rw [flatten_plainChunks, roundUp, Nat.mul_comm]
  have hlen : (plainChunks m ((Head.comSize head + 4095) / 4096)).flatten.length < 2 ^ 32 := by
    rwa [hflat, length_slice]
  have hpieces := @verifyPieces_eq (Head.rawSize head) _ hlen
  rw [hflat, length_slice, Nat.min_eq_right hraw, take_slice, Nat.min_eq_left hraw] at hpieces
  exact ⟨hplain.supported, by rw [hpieces], by rw [hpieces]; exact hhash⟩

/-! ## A small plain image -/

/-- A field of `n` bytes that holds a string. -/
def strField (n : Nat) (s : List UInt8) : List UInt8 := (s ++ List.replicate n 0).take n

/-- The header, without its checksum, of the plain image with the body `[0]`, no current version and
the given target and download version. -/
def sampleFields (target download : List UInt8) : List UInt8 :=
  [0x52, 0x42, 0x4c] ++ List.replicate 9 0 ++ strField 16 target ++ strField 24 download ++
    List.replicate 24 0 ++ leBytes 4 (fotaCrc packageCrcTab [0]).toNat ++
    leBytes 4 (fotaCalcHashCode [0] fnvSeed).toNat ++ leBytes 4 1 ++ leBytes 4 1

/-- The header of that image. -/
def sampleHead (target download : List UInt8) : List UInt8 :=
  sampleFields target download ++
    leBytes 4 (fotaCrc packageCrcTab (sampleFields target download)).toNat

theorem length_fotaFmPartName : fotaFmPartName.length < 24 := by decide

theorem length_fotaAppPartName : fotaAppPartName.length < 24 := by decide

/-- The download partition of the sample boards. -/
def sampleFm : FalPartition :=
  ⟨fotaFmPartName, [0x66], 0, 0x2000, length_fotaFmPartName, by decide⟩

/-- The application partition of the sample boards. -/
def sampleApp : FalPartition :=
  ⟨fotaAppPartName, [0x66], 0x2000, 0x2000, length_fotaAppPartName, by decide⟩

/-- A board with one flash device and the given partitions. Its decompressors copy. -/
def sampleBoard (parts : List FalPartition) (rollback : Bool) : Board where
  deviceTable := [[0x66]]
  partitionTable := parts
  mallocUsableSize := id
  le_mallocUsableSize := fun _ => Nat.le_refl _
  fastlzDecompress := fun input length maxout => (input.take length).take maxout
  length_fastlzDecompress := fun _ _ _ => List.length_take_le _ _
  fastlzReads := fun _ length maxout => min length maxout
  qlzDecompress := fun source => source.take fotaCmprsBufferSize
  qlzReads := fun _ => fotaCmprsBufferSize
  cipher := ⟨id, id, fun _ h => h, fun _ h => h, fun _ _ => rfl, fun _ _ => rfl⟩
  pastHead := []
  onchip := 0
  rollback := rollback
  installRestart := false

section sample
variable {t d : List UInt8}

theorem length_strField {n : Nat} : (strField n d).length = n := by simp [strField]

theorem length_sampleFields : (sampleFields t d).length = 92 := by
  simp [sampleFields, length_strField]

theorem length_sampleHead : (sampleHead t d).length = sizeofHead := by
  simp [sampleHead, length_sampleFields]

theorem take_sampleHead : (sampleHead t d).take (sizeofHead - 4) = sampleFields t d := by
  rw [sampleHead]
  exact List.take_left' length_sampleFields

theorem headCrc_sampleHead :
    Head.headCrc (sampleHead t d) = fotaCrc packageCrcTab (sampleFields t d) := by
  have h : Head.field (sampleHead t d) 92 4 =
      leBytes 4 (fotaCrc packageCrcTab (sampleFields t d)).toNat := by
    rw [Head.field, sampleHead, List.drop_left' length_sampleFields,
      List.take_of_length_le (Nat.le_of_eq length_leBytes)]
  rw [Head.headCrc, h, leNat_leBytes (UInt32.toNat_lt _), UInt32.ofNat_toNat]

theorem plain_sampleHead : PlainAlgo (sampleHead t d) := by
  have h : Head.field (sampleHead t d) 4 2 = [0, 0] := by
    simp [Head.field, sampleHead, sampleFields]
  unfold PlainAlgo Head.cryptAlgo Head.cmprsAlgo
  rw [h]
  decide

theorem comSize_sampleHead : Head.comSize (sampleHead t d) = 1 := by
  have h : Head.field (sampleHead t d) 88 4 = leBytes 4 1 := by
    rw [Head.field, sampleHead, sampleFields, List.append_assoc,
      List.drop_left' (by simp [length_strField]), List.take_left' length_leBytes]
  rw [Head.comSize, h]
  rfl

theorem rawSize_sampleHead : Head.rawSize (sampleHead t d) = 1 := by
  have h : Head.field (sampleHead t d) 84 4 = leBytes 4 1 := by
    rw [Head.field, sampleHead, sampleFields, List.append_assoc, List.append_assoc,
      List.drop_left' (by simp [length_strField]), List.take_left' length_leBytes]
  rw [Head.rawSize, h]
  rfl

theorem hashVal_sampleHead : Head.hashVal (sampleHead t d) = fotaCalcHashCode [0] fnvSeed := by
  have h : Head.field (sampleHead t d) 80 4 = leBytes 4 (fotaCalcHashCode [0] fnvSeed).toNat := by
    rw [Head.field, sampleHead, sampleFields, List.append_assoc, List.append_assoc,
      List.append_assoc, List.drop_left' (by simp [length_strField]), List.take_left' length_leBytes]
  rw [Head.hashVal, h, leNat_leBytes (UInt32.toNat_lt _), UInt32.ofNat_toNat]

theorem codeCrc_sampleHead : Head.codeCrc (sampleHead t d) = fotaCrc packageCrcTab [0] := by
  have h : Head.field (sampleHead t d) 76 4 = leBytes 4 (fotaCrc packageCrcTab [0]).toNat := by
    rw [Head.field, sampleHead, sampleFields, List.append_assoc, List.append_assoc,
      List.append_assoc, List.append_assoc, List.drop_left' (by simp [length_strField]),
      List.take_left' length_leBytes]
  rw [Head.codeCrc, h, leNat_leBytes (UInt32.toNat_lt _), UInt32.ofNat_toNat]

/-- Contents of a partition that begin with the sample image. -/
def sampleContents (t d : List UInt8) : Nat → UInt8 := fun a => ((sampleHead t d)[a]?).getD 0

theorem headAt_sampleContents : headAt (sampleContents t d) = sampleHead t d := by
  rw [headAt, slice_eq_iff]
  refine ⟨length_sampleHead, fun i hi => ?_⟩
  have hi' : i < (sampleHead t d).length := by rwa [length_sampleHead]
  simp only [sampleContents, Nat.zero_add, List.getElem?_eq_getElem hi', Option.getD_some]

theorem slice_sampleContents_version : slice (sampleContents t d) 28 24 = strField 24 d := by
  rw [← field_headAt (by decide), headAt_sampleContents, Head.field, sampleHead, sampleFields]
  simp only [List.append_assoc]
  rw [← List.append_assoc, ← List.append_assoc, List.drop_left' (by simp [length_strField]),
    List.take_left' length_strField]

theorem body_sampleContents : slice (sampleContents t d) sizeofHead 1 = [0] := by
  rw [slice_eq_iff]
  refine ⟨rfl, fun i hi => ?_⟩
  have hi' : (sampleHead t d).length ≤ sizeofHead + i := by
    rw [length_sampleHead]
    exact Nat.le_add_right _ _
  obtain rfl : i = 0 := by omega
  simp only [sampleContents, List.getElem?_eq_none hi', Option.getD_none, List.getElem?_cons_zero]

/-- The sample image is a package when its target exists and its chunk fits. -/
theorem packageAccepted_sample {b : Board} {len : Nat}
    (htarget : (falPartitionFind b (Head.appPartName (sampleHead t d))).isSome = true)
    (hlen : 96 + 4096 ≤ len) : PackageAccepted b len (sampleContents t d) := by
  have hround : roundUp 1 = 4096 := rfl
  have hsize : sizeofHead = 96 := rfl
  refine ⟨by omega, ?_, ?_, ?_, fun _ => ?_, ?_⟩ <;> rw [headAt_sampleContents]
  · rw [take_sampleHead, headCrc_sampleHead]
  · rfl
  · exact htarget
  · rw [comSize_sampleHead]
    omega
  · rw [comSize_sampleHead, body_sampleContents, codeCrc_sampleHead]

theorem piecesAccepted_sample :
    PiecesAccepted (sampleHead t d) (plainChunks (sampleContents t d) 1) := by
  have h := @piecesAccepted_plain (sampleContents t d) (sampleHead t d) plain_sampleHead
  rw [rawSize_sampleHead, comSize_sampleHead, hashVal_sampleHead, body_sampleContents] at h
  exact h (by decide) (by decide) rfl

/-- Flash with the sample image at address 0 of every device. -/
def sampleFlash (t d : List UInt8) : Flash := fun _ => sampleContents t d

theorem view_sampleFlash {len : Nat} :
    (⟨0, 0, len⟩ : Region).view (sampleFlash t d) = sampleContents t d := by
  funext a
  simp only [Region.view, sampleFlash, Nat.zero_add]

/-- A boot of the sample board, in which nothing fails. -/
def sampleEnv : Env := (sampleBoard [sampleFm, sampleApp] false).quietEnv

theorem sampleEnv_reliable : sampleEnv.Reliable := Board.quietEnv_reliable _

theorem sampleEnv_uncut : sampleEnv.Uncut := fun _ => rfl

theorem sampleEnv_fm : falPartitionFind sampleEnv.toBoard fotaFmPartName = some sampleFm := rfl

theorem sampleEnv_app : falPartitionFind sampleEnv.toBoard fotaAppPartName = some sampleApp := rfl

theorem region_sampleFm : sampleEnv.region sampleFm = some ⟨0, 0, 0x2000⟩ := rfl

theorem region_sampleApp : sampleEnv.region sampleApp = some ⟨0, 0x2000, 0x2000⟩ := rfl

theorem sample_disjoint : (⟨0, 0, 0x2000⟩ : Region).Disjoint ⟨0, 0x2000, 0x2000⟩ := by
  rintro dev a ⟨-, -, h⟩ ⟨-, h', -⟩
  simp only at h h'
  omega

theorem target_sampleHead : falPartitionFind sampleEnv.toBoard
    (Head.appPartName (sampleHead fotaAppPartName [0x31])) = some sampleApp := by
  have hname : strcmpEq (Head.appPartName (sampleHead fotaAppPartName [0x31])) fotaAppPartName =
      true := by decide +kernel
  rw [falPartitionFind_congr hname]
  exact sampleEnv_app

theorem decodedPieces_sample {f : Flash}
    (hf : (⟨0, 0, 0x2000⟩ : Region).view f = sampleContents t d) :
    decodedPieces sampleEnv.toBoard sampleFm (sampleHead t d) f =
      some (plainChunks (sampleContents t d) 1) := by
  have hps := @decodedPieces_plain sampleEnv.toBoard sampleFm _ region_sampleFm (sampleHead t d)
    plain_sampleHead f (fun _ => by rw [comSize_sampleHead]; decide)
  rwa [comSize_sampleHead, hf] at hps

/-- The sample image passes the package check of the sample board. -/
theorem fotaPartFwVerify_sample
    (htarget : (falPartitionFind sampleEnv.toBoard (Head.appPartName (sampleHead t d))).isSome = true) :
    ∃ w', fotaPartFwVerify sampleEnv (some fotaFmPartName) (World.boot (sampleFlash t d)) =
        .done .noErr w' ∧ w'.crcTab = packageCrcTab ∧ w'.rblFotaPartHead = sampleHead t d ∧
      w'.flash = sampleFlash t d := by
  have hview : (⟨0, 0, 0x2000⟩ : Region).view (World.boot (sampleFlash t d)).flash = _ :=
    view_sampleFlash
  obtain ⟨w', hrun, htab, hhead, hflash, -⟩ := fotaPartFwVerify_of_accepted region_sampleFm
    sampleEnv_reliable sampleEnv_fm (w := World.boot (sampleFlash t d))
    (by rw [hview]; exact packageAccepted_sample htarget (by decide))
  exact ⟨w', hrun, htab, by rw [hhead, hview, headAt_sampleContents], hflash⟩

end sample

end McuUtilities.Fota
