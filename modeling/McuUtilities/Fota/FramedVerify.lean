import McuUtilities.Fota.FramedRounds
import McuUtilities.Fota.Plain

/-!
# Verification of a framed image

`fota_upgrade_verify` decodes a framed image exactly when it is streamable.
-/

namespace McuUtilities.Fota
open Prog

/-! ## The whole run -/

section run
variable {env : Env} {part : FalPartition} {r : Region} (hrel : env.Reliable)
  (hr : env.region part = some r) {blocks : List (List UInt8)} {pad : List UInt8} {w : World}
include hrel hr

/-- The two loops decompress enough blocks when the image is streamable, and go astray or fail when it
is not. -/
theorem decode_framed {head : List UInt8}
    (himg : FramedImage env.toBoard head part.len (r.view w.flash) blocks pad) :
    Meets (decode env part head (verifySink (Head.rawSize head)) VerifyState.totalCopySize Decoder.init
        ⟨0, fnvSeed⟩) w
      (DecodeEnd env.toBoard head blocks w (Streamable env.toBoard head 0 0 blocks))
      (fun e _ => e ≠ .noErr ∧ ¬ Streamable env.toBoard head 0 0 blocks) (fun _ _ => False) := by
  generalize hS : Streamable env.toBoard head 0 0 blocks = S
  have hbuff : fotaAlgoBuffSize = 4096 := rfl
  have hkeeps : SinkKeeps env.toBoard (verifySink (Head.rawSize head)) (fun _ _ => True)
      (fun e _ => e ≠ .noErr) (fun _ _ => False) :=
    { quiet := fun _ _ => trivial
      error := fun _ he => he
      sink := fun _ _ _ => trivial }
  have hstart : MainState env.toBoard head (r.view w.flash) blocks w S (Decoder.init, ⟨0, fnvSeed⟩) w := by
    refine .ahead (List.nil_append blocks).symm ⟨rfl, rfl, ?_, ?_, ?_⟩ ⟨Decoder.hasRead_init, rfl⟩
      (fun h => absurd rfl h) ?_
    · exact (List.append_nil _).symm
    · rw [output, List.flatMap_nil, List.take_nil, List.append_nil]
    · rw [output, List.flatMap_nil, List.length_nil, Nat.zero_min, List.take_nil]
      rfl
    · rw [← hS]
      exact Iff.rfl
  unfold decode
  refine Meets.bind (Meets.mono (Meets.iterate_of_measure (μ := fun s => s.1.remaining part)
    (I := fun s w' => s.1.Within part ∧ MainState env.toBoard head (r.view w.flash) blocks w S s w')
    (Q := fun s w' => s.1.Within part ∧ TailState env.toBoard head (r.view w.flash) blocks w S s w')
    ?_ ⟨Decoder.within_init part, hstart⟩ ?_) ?_ (fun _ _ h => h) fun _ _ h => h)
  · rintro ⟨d, t⟩ w' ⟨hd, h⟩
    refine ((mainStep_meets hkeeps hd trivial).and (mainStep_state himg hrel hr rfl hd h)).mono ?_
      (fun _ _ h => h) fun _ _ h => h.1
    rintro (s' | s') w'' ⟨hwithin, hstate⟩
    · exact ⟨⟨hwithin.1.1, hstate⟩, hwithin.2⟩
    · exact ⟨hwithin.1, hstate⟩
  · simp only [Decoder.remaining, Decoder.init, loopFuel]
    omega
  · rintro ⟨d, t⟩ w' ⟨hd, h⟩
    have hpos := hd.pos
    have hraw := hd.raw
    have hchunk := hd.chunk
    dsimp only
    rw [if_pos himg.cmprs_ne_zero]
    refine Meets.iterate_of_measure (μ := fun s => s.1.fwRawLen - s.1.blockHdrPos)
      (I := fun s w' => s.1.Within part ∧ TailState env.toBoard head (r.view w.flash) blocks w S s w')
      ?_ ⟨hd, h⟩ ?_
    · rintro ⟨d, t⟩ w' ⟨hd, h⟩
      refine ((tailStep_meets hkeeps hd trivial).and (tailStep_state himg hd h)).mono ?_
        (fun _ _ h => h) fun _ _ h => h.1
      rintro (s' | t') w'' ⟨hwithin, hstate⟩
      · exact ⟨⟨hwithin.1.1, hstate⟩, hwithin.2⟩
      · exact hstate
    · dsimp only at hpos hraw hchunk ⊢
      simp only [loopFuel]
      omega

omit hrel hr in
/-- Enough blocks: the bytes that count are hashed, and the hash is the one in the header. -/
theorem DecodeEnd.decoded {head : List UInt8} {S : Prop} {t : VerifyState} {w₀ : World}
    (himg : FramedImage env.toBoard head part.len (r.view w₀.flash) blocks pad)
    (h : DecodeEnd env.toBoard head blocks w₀ S t w) (hS : S) :
    Head.rawSize head ≤ t.totalCopySize ∧ t.hashCode = Head.hashVal head ∧
      Decoded env.toBoard head blocks w₀ w := by
  cases h with
  | @complete pre rest hsplit h hraw _ =>
    have htake : (output env.toBoard head blocks).take (Head.rawSize head) =
        (output env.toBoard head pre).take (Head.rawSize head) := by
      rw [hsplit, output_append, List.take_append_of_le_length hraw]
    obtain rfl : t = _ := h.state
    refine ⟨Nat.le_min.mpr ⟨hraw, Nat.le_refl _⟩, ?_, h.oob, ?_, ?_⟩
    · dsimp only
      rw [himg.hashVal, htake]
    · rw [h.decompressed, List.drop_left, hsplit, located_append]
      exact List.sublist_append_left _ _
    · rw [h.hashed, htake]
  | astray hno _ => exact absurd hS hno

variable {name : List UInt8} (hpart : falPartitionFind env.toBoard name = some part)
include hpart

/-- `fota_upgrade_verify` on a framed image. -/
theorem fotaUpgradeVerify_framed
    (himg : FramedImage env.toBoard w.rblFotaPartHead part.len (r.view w.flash) blocks pad) :
    Meets (fotaUpgradeVerify env (some name)) w
      (fun e w' => if Streamable env.toBoard w.rblFotaPartHead 0 0 blocks then
          e = .noErr ∧ Decoded env.toBoard w.rblFotaPartHead blocks w w'
        else e = .noErr → Astray w.rblFotaPartHead blocks w w')
      (fun _ _ => False) (fun _ _ => False) := by
  refine meets_exitCode ?_
  simp only [Option.bind_some, hpart]
  unfold upgradeVerifyBody
  refine Meets.bind (Meets.of_done get_apply (Meets.bind (Meets.of_done (malloc_reliable hrel) ?_)))
  rw [require_true]
  refine Meets.bind (Meets.pure ?_)
  obtain ⟨w₁, ht, hdec, hinit⟩ := decoderInit_done hrel (w := { w with allocs := w.allocs + 1 })
    himg.supported
  have ht : Ticked w w₁ := ⟨ht.flash, ht.head, ht.crcTab, ht.ops, ht.log, ht.oob, ht.hashed⟩
  have himg₁ : FramedImage env.toBoard w.rblFotaPartHead part.len (r.view w₁.flash) blocks pad :=
    ht.flash ▸ himg
  refine Meets.bind (Meets.of_done hinit (Meets.bind ((decode_framed hrel hr himg₁).mono ?_ ?_
    fun _ _ h => h)))
  · intro t w₂ hend
    split
    · next hS =>
      obtain ⟨htotal, hhash, hdecoded⟩ := hend.decoded himg₁ hS
      exact Meets.require (fun _ => ⟨trivial, hdecoded.after ht hdec⟩)
        fun hbad => absurd ⟨htotal, hhash⟩ (of_decide_eq_false hbad)
    · next hno =>
      cases hend with
      | complete _ _ _ hS => exact absurd hS hno
      | astray _ h => exact Meets.require (fun _ _ => h.after ht hdec) fun _ he => nomatch he
  · rintro e w₂ ⟨he, hno⟩
    rw [if_neg hno]
    exact fun h => absurd h he

theorem verifiesFramed_of_streamable
    (himg : FramedImage env.toBoard w.rblFotaPartHead part.len (r.view w.flash) blocks pad)
    (hS : Streamable env.toBoard w.rblFotaPartHead 0 0 blocks) : VerifiesFramed env name blocks w := by
  obtain ⟨e, w', hrun, h⟩ := (fotaUpgradeVerify_framed hrel hr hpart himg).returns
  rw [if_pos hS] at h
  exact ⟨w', h.1 ▸ hrun, h.2⟩

theorem VerifiesFramed.streamable
    (himg : FramedImage env.toBoard w.rblFotaPartHead part.len (r.view w.flash) blocks pad)
    (h : VerifiesFramed env name blocks w) : Streamable env.toBoard w.rblFotaPartHead 0 0 blocks := by
  obtain ⟨w', hrun, hdecoded⟩ := h
  have hend := (fotaUpgradeVerify_framed hrel hr hpart himg).done hrun
  by_contra hno
  rw [if_neg hno] at hend
  exact hdecoded.not_astray (hend rfl)

/-- `fota_upgrade_verify` accepts a framed image, having decompressed each block at most once, in order,
and hashed the first `raw_size` bytes, if and only if the image is streamable. -/
theorem verifiesFramed_iff
    (himg : FramedImage env.toBoard w.rblFotaPartHead part.len (r.view w.flash) blocks pad) :
    VerifiesFramed env name blocks w ↔ Streamable env.toBoard w.rblFotaPartHead 0 0 blocks :=
  ⟨fun h => h.streamable hrel hr hpart himg, verifiesFramed_of_streamable hrel hr hpart himg⟩

end run

/-! ## Images of stored blocks -/

/-- A download partition that holds three chunks. -/
def framedFm : FalPartition :=
  ⟨fotaFmPartName, [0x66], 0, 0x4000, length_fotaFmPartName, by decide⟩

/-- The application partition behind it. -/
def framedApp : FalPartition :=
  ⟨fotaAppPartName, [0x66], 0x4000, 0x2000, length_fotaAppPartName, by decide⟩

/-- A boot of a board with these partitions, in which nothing fails. -/
def framedEnv : Env := (sampleBoard [framedFm, framedApp] false).quietEnv

theorem framedEnv_reliable : framedEnv.Reliable := Board.quietEnv_reliable _

theorem framedEnv_fm : falPartitionFind framedEnv.toBoard fotaFmPartName = some framedFm := rfl

theorem region_framedFm : framedEnv.region framedFm = some ⟨0, 0, 0x4000⟩ := rfl

/-- The header, without its checksum, of the FastLZ image of these blocks, which decompress to
themselves. -/
def framedFields (blocks : List (List UInt8)) : List UInt8 :=
  [0x52, 0x42, 0x4c, 0] ++ leBytes 2 fotaCmprsAlgoFastlz ++ List.replicate 6 0 ++
    strField 16 fotaAppPartName ++ strField 24 [0x31] ++ List.replicate 24 0 ++
    leBytes 4 (fotaCrc packageCrcTab (framed blocks)).toNat ++
    leBytes 4 (fotaCalcHashCode blocks.flatten fnvSeed).toNat ++ leBytes 4 blocks.flatten.length ++
    leBytes 4 (framed blocks).length

/-- The header of that image. -/
def framedHead (blocks : List (List UInt8)) : List UInt8 :=
  framedFields blocks ++ leBytes 4 (fotaCrc packageCrcTab (framedFields blocks)).toNat

/-- Contents of a partition that begin with that image. -/
def framedContents (blocks : List (List UInt8)) : Nat → UInt8 :=
  fun a => ((framedHead blocks ++ framed blocks)[a]?).getD 0

section stored
variable {blocks : List (List UInt8)}

theorem length_framedFields : (framedFields blocks).length = 92 := by
  simp [framedFields, length_strField]

theorem length_framedHead : (framedHead blocks).length = sizeofHead := by
  simp [framedHead, length_framedFields]

theorem slice_framedContents {i n : Nat} (h : i + n ≤ (framedHead blocks ++ framed blocks).length) :
    slice (framedContents blocks) i n = ((framedHead blocks ++ framed blocks).drop i).take n := by
  rw [slice_eq_iff, List.length_take, List.length_drop]
  refine ⟨by omega, fun j hj => ?_⟩
  have hlt : i + j < (framedHead blocks ++ framed blocks).length := by omega
  rw [List.getElem?_take_of_lt hj, List.getElem?_drop, framedContents, List.getElem?_eq_getElem hlt]
  rfl

theorem headAt_framedContents : headAt (framedContents blocks) = framedHead blocks := by
  rw [headAt, slice_framedContents (by
    rw [List.length_append, length_framedHead]
    omega), List.drop_zero, List.take_left' length_framedHead]

theorem body_framedContents :
    slice (framedContents blocks) sizeofHead (framed blocks).length = framed blocks := by
  rw [slice_framedContents (by rw [List.length_append, length_framedHead]),
    List.drop_left' length_framedHead, List.take_length]

theorem algo_framedHead : Head.field (framedHead blocks) 4 2 = leBytes 2 fotaCmprsAlgoFastlz := by
  simp [Head.field, framedHead, framedFields]

theorem cmprsAlgo_framedHead : Head.cmprsAlgo (framedHead blocks) = fotaCmprsAlgoFastlz := by
  rw [Head.cmprsAlgo, algo_framedHead]
  decide

theorem cryptAlgo_framedHead : Head.cryptAlgo (framedHead blocks) = 0 := by
  rw [Head.cryptAlgo, algo_framedHead]
  decide

theorem comSize_framedHead (h : (framed blocks).length < 256 ^ 4) :
    Head.comSize (framedHead blocks) = (framed blocks).length := by
  have hfield : Head.field (framedHead blocks) 88 4 = leBytes 4 (framed blocks).length := by
    rw [Head.field, framedHead, framedFields, List.append_assoc,
      List.drop_left' (by simp [length_strField]), List.take_left' length_leBytes]
  rw [Head.comSize, hfield, leNat_leBytes h]

theorem rawSize_framedHead (h : blocks.flatten.length < 256 ^ 4) :
    Head.rawSize (framedHead blocks) = blocks.flatten.length := by
  have hfield : Head.field (framedHead blocks) 84 4 = leBytes 4 blocks.flatten.length := by
    rw [Head.field, framedHead, framedFields, List.append_assoc, List.append_assoc,
      List.drop_left' (by simp [length_strField]), List.take_left' length_leBytes]
  rw [Head.rawSize, hfield, leNat_leBytes h]

theorem hashVal_framedHead :
    Head.hashVal (framedHead blocks) = fotaCalcHashCode blocks.flatten fnvSeed := by
  have hfield : Head.field (framedHead blocks) 80 4 =
      leBytes 4 (fotaCalcHashCode blocks.flatten fnvSeed).toNat := by
    rw [Head.field, framedHead, framedFields, List.append_assoc, List.append_assoc, List.append_assoc,
      List.drop_left' (by simp [length_strField]), List.take_left' length_leBytes]
  rw [Head.hashVal, hfield, leNat_leBytes (UInt32.toNat_lt _), UInt32.ofNat_toNat]

theorem codeCrc_framedHead :
    Head.codeCrc (framedHead blocks) = fotaCrc packageCrcTab (framed blocks) := by
  have hfield : Head.field (framedHead blocks) 76 4 =
      leBytes 4 (fotaCrc packageCrcTab (framed blocks)).toNat := by
    rw [Head.field, framedHead, framedFields, List.append_assoc, List.append_assoc, List.append_assoc,
      List.append_assoc, List.drop_left' (by simp [length_strField]), List.take_left' length_leBytes]
  rw [Head.codeCrc, hfield, leNat_leBytes (UInt32.toNat_lt _), UInt32.ofNat_toNat]

theorem headCrc_framedHead : Head.headCrc (framedHead blocks) =
    fotaCrc packageCrcTab ((framedHead blocks).take (sizeofHead - 4)) := by
  have hfield : Head.field (framedHead blocks) 92 4 =
      leBytes 4 (fotaCrc packageCrcTab (framedFields blocks)).toNat := by
    rw [Head.field, framedHead, List.drop_left' length_framedFields,
      List.take_of_length_le (Nat.le_of_eq length_leBytes)]
  have htake : (framedHead blocks).take (sizeofHead - 4) = framedFields blocks :=
    List.take_left' length_framedFields
  rw [Head.headCrc, hfield, leNat_leBytes (UInt32.toNat_lt _), UInt32.ofNat_toNat, htake]

theorem target_framedHead : (falPartitionFind framedEnv.toBoard
    (Head.appPartName (framedHead blocks))).isSome = true := by
  have hname : strcmpEq (Head.appPartName (framedHead blocks)) fotaAppPartName = true := rfl
  rw [falPartitionFind_congr hname]
  rfl

/-- Blocks that are not too long, with a body that fits in the partition, make a package. -/
theorem packageAccepted_framed (hlen : sizeofHead + roundUp (framed blocks).length ≤ 0x4000) :
    PackageAccepted framedEnv.toBoard 0x4000 (framedContents blocks) := by
  have hsmall : (framed blocks).length < 256 ^ 4 := by
    unfold roundUp at hlen
    omega
  refine ⟨by decide, ?_, ?_, ?_, fun _ => ?_, ?_⟩ <;> rw [headAt_framedContents]
  · exact headCrc_framedHead.symm
  · rfl
  · exact target_framedHead
  · rwa [comSize_framedHead hsmall]
  · rw [comSize_framedHead hsmall, body_framedContents, codeCrc_framedHead]

theorem blockOutput_framed {block : List UInt8} (h : block.length ≤ fotaCmprsBufferSize) :
    blockOutput framedEnv.toBoard (framedHead blocks) block = block := by
  rw [blockOutput, if_pos cmprsAlgo_framedHead]
  change ((fillCmprs _ block).take block.length).take fotaCmprsBufferSize = block
  rw [fillCmprs, List.take_left' rfl, List.take_of_length_le h]

theorem output_framed {bs : List (List UInt8)}
    (h : ∀ block ∈ bs, block.length ≤ fotaCmprsBufferSize) :
    output framedEnv.toBoard (framedHead blocks) bs = bs.flatten := by
  rw [output, List.flatMap_def]
  congr 1
  exact (List.map_congr_left fun block hmem => blockOutput_framed (h block hmem)).trans
    (List.map_id _)

/-- They make a framed image. -/
theorem framedImage_framed
    (h : ∀ block ∈ blocks, block ≠ [] ∧ block.length ≤ fotaCmprsBufferSize)
    (hlen : sizeofHead + roundUp (framed blocks).length ≤ 0x4000) :
    FramedImage framedEnv.toBoard (framedHead blocks) 0x4000 (framedContents blocks) blocks [] := by
  have hout : output framedEnv.toBoard (framedHead blocks) blocks = blocks.flatten :=
    output_framed fun block hmem => (h block hmem).2
  have hsmall : (framed blocks).length < 256 ^ 4 := by
    unfold roundUp at hlen
    omega
  have hraw := Nat.lt_of_le_of_lt (length_flatten_le_framed blocks) hsmall
  have hpad : paddingSize (framedHead blocks) = fotaFastlzBufferPadding := if_pos cmprsAlgo_framedHead
  have hcrypt : Head.cryptAlgo (framedHead blocks) ≠ fotaCryptAlgoAes256 := by
    rw [cryptAlgo_framedHead]
    decide
  refine ⟨.inl cmprsAlgo_framedHead, by rw [cryptAlgo_framedHead]; decide, fun block hmem => ?_,
    fun block hmem => ?_, if_neg hcrypt ▸ rfl, ?_, ?_, ?_, ?_, ?_⟩
  · obtain ⟨hne, hle⟩ := h block hmem
    rw [hpad]
    exact ⟨hne, Nat.lt_of_le_of_lt hle (by decide)⟩
  · obtain ⟨hne, hle⟩ := h block hmem
    rw [blockOutput_framed hle]
    exact ⟨hne, hle⟩
  · rw [List.append_nil, comSize_framedHead hsmall]
  · rw [rawSize_framedHead hraw, hout]
  · rw [hashVal_framedHead, rawSize_framedHead hraw, hout, List.take_length]
  · rw [List.append_nil, storedBody, if_neg hcrypt, body_framedContents]
  · rwa [List.append_nil]

/-- They pass the package check. -/
theorem fotaPartFwVerify_framed (hlen : sizeofHead + roundUp (framed blocks).length ≤ 0x4000) :
    ∃ w, fotaPartFwVerify framedEnv (some fotaFmPartName) (World.boot fun _ => framedContents blocks) =
        .done .noErr w ∧ w.rblFotaPartHead = framedHead blocks ∧
      (⟨0, 0, 0x4000⟩ : Region).view w.flash = framedContents blocks := by
  have hview : (⟨0, 0, 0x4000⟩ : Region).view (World.boot fun _ => framedContents blocks).flash =
      framedContents blocks := by
    funext a
    simp only [World.boot, Region.view, Nat.zero_add]
  obtain ⟨w, hrun, -, hhead, hflash, -⟩ := fotaPartFwVerify_of_accepted region_framedFm
    framedEnv_reliable framedEnv_fm (w := World.boot fun _ => framedContents blocks)
    (by
      rw [hview]
      exact packageAccepted_framed hlen)
  rw [hview, headAt_framedContents] at hhead
  exact ⟨w, hrun, hhead, by rw [hflash, hview]⟩

end stored

/-- Two short blocks. -/
theorem verifiesFramed_iff_short : ∃ w, fotaPartFwVerify framedEnv (some fotaFmPartName)
      (World.boot fun _ => framedContents [[7], [8, 9]]) = .done .noErr w ∧
    VerifiesFramed framedEnv fotaFmPartName [[7], [8, 9]] w := by
  have hfits : sizeofHead + roundUp (framed [[7], [8, 9]]).length ≤ 0x4000 := by decide
  obtain ⟨w, hrun, hhead, hview⟩ := fotaPartFwVerify_framed hfits
  have himg := framedImage_framed (by decide) hfits
  rw [← hhead, ← hview] at himg
  refine ⟨w, hrun, (verifiesFramed_iff framedEnv_reliable region_framedFm framedEnv_fm himg).mpr ?_⟩
  rw [hhead]
  decide +kernel

/-- The second header begins four bytes before the end of the first chunk. -/
theorem not_verifiesFramed_skipped :
    ∃ blocks w, fotaPartFwVerify framedEnv (some fotaFmPartName)
        (World.boot fun _ => framedContents blocks) = .done .noErr w ∧
      FramedImage framedEnv.toBoard w.rblFotaPartHead framedFm.len
        ((⟨0, 0, 0x4000⟩ : Region).view w.flash) blocks [] ∧
      ¬ VerifiesFramed framedEnv fotaFmPartName blocks w := by
  have hlen : (framed [List.replicate 4088 0, [0]]).length = 4097 := by
    rw [length_framed_cons, length_framed_cons, List.length_replicate]
    rfl
  have hfits : sizeofHead + roundUp (framed [List.replicate 4088 0, [0]]).length ≤ 0x4000 := by
    rw [hlen]
    decide
  have hblocks : ∀ block ∈ [List.replicate 4088 (0 : UInt8), [0]],
      block ≠ [] ∧ block.length ≤ fotaCmprsBufferSize := by
    intro block hmem
    rcases List.mem_cons.mp hmem with rfl | hmem
    · exact ⟨List.ne_nil_of_length_pos (by rw [List.length_replicate]; decide),
        by rw [List.length_replicate]; decide⟩
    · rw [List.mem_singleton.mp hmem]
      decide
  obtain ⟨w, hrun, hhead, hview⟩ := fotaPartFwVerify_framed hfits
  have himg := framedImage_framed hblocks hfits
  have hcom : Head.comSize (framedHead [List.replicate 4088 0, [0]]) = 4097 := by
    rw [comSize_framedHead (by rw [hlen]; decide), hlen]
  rw [← hhead, ← hview] at himg
  refine ⟨_, w, hrun, himg, fun h => ?_⟩
  obtain ⟨-, -, hnext, -⟩ := h.streamable framedEnv_reliable region_framedFm framedEnv_fm himg
  rw [hhead, hcom, List.length_replicate] at hnext
  exact (hnext (by decide)).1.1 (by decide)

end McuUtilities.Fota
