import McuUtilities.Fota.FramedVerify
import McuUtilities.Fota.Install
import McuUtilities.FastLz.Safety
import McuUtilities.FastLz.Sample

/-!
# Images made of compressed files

What `fastlz_compress_file` writes is the body of an image: its blocks are what the decoder of the
bootloader reads, and they decompress to the file. So the bootloader installs the file that was compressed.
-/

namespace McuUtilities.Fota
open Prog FastLz

/-- A partition holds a compressed file, as `fastlz_compress_file` writes it, under a header that says so. -/
structure PackagedFile (b : Board) (head : List UInt8) (len : Nat) (m : Nat → UInt8)
    (file : List UInt8) (blocks : List (List UInt8)) (pad : List UInt8) : Prop where
  cmprs : Head.cmprsAlgo head = fotaCmprsAlgoFastlz
  crypt : Head.cryptAlgo head ≠ fotaCryptAlgoXor
  padding : if Head.cryptAlgo head = fotaCryptAlgoAes256 then
    pad.length < 16 ∧ (writeBlocks blocks ++ pad).length % 16 = 0 else pad = []
  comSize : Head.comSize head = (writeBlocks blocks ++ pad).length
  rawSize : Head.rawSize head = file.length
  hashVal : Head.hashVal head = fotaCalcHashCode file fnvSeed
  stored : slice m sizeofHead (writeBlocks blocks ++ pad).length = storedBody b head (writeBlocks blocks ++ pad)
  fits : sizeofHead + roundUp (writeBlocks blocks ++ pad).length ≤ len

section image
variable {b : Board} (hlz : b.fastlzDecompress = fastlzBytes) {head : List UInt8}
  {file : List UInt8} {chunks blocks : List (List UInt8)}

theorem writeBlocks_eq : writeBlocks blocks = framed blocks := by
  rw [writeBlocks, framed]
  simp only [bufferHdr_eq]
  rfl

theorem exists_chunk {block : List UInt8} (hall : List.Forall₂ Compressed chunks blocks)
    (hmem : block ∈ blocks) : ∃ chunk, Compressed chunk block := by
  induction hall with
  | nil => cases hmem
  | cons hblock hall ih =>
    rcases List.mem_cons.mp hmem with rfl | hmem
    · exact ⟨_, hblock⟩
    · exact ih hmem

include hlz in
theorem blockOutput_compressed (hcmprs : Head.cmprsAlgo head = fotaCmprsAlgoFastlz) {chunk block : List UInt8}
    (h : Compressed chunk block) : blockOutput b head block = chunk := by
  rw [blockOutput, if_pos hcmprs, hlz, fastlzBytes, fillCmprs, h.decompress _ _ h.chunk_le]

include hlz in
theorem output_compressed (hcmprs : Head.cmprsAlgo head = fotaCmprsAlgoFastlz)
    (hall : List.Forall₂ Compressed chunks blocks) : output b head blocks = chunks.flatten := by
  induction hall with
  | nil => rfl
  | cons hblock hall ih =>
    rw [output, List.flatMap_cons, List.flatten_cons, blockOutput_compressed hlz hcmprs hblock]
    exact congrArg _ ih

include hlz in
/-- The blocks are a framed image, and its output is the file. -/
theorem PackagedFile.framedImage {len : Nat} {m : Nat → UInt8} {pad : List UInt8}
    (h : PackagedFile b head len m file blocks pad) (hall : List.Forall₂ Compressed chunks blocks)
    (hfile : chunks.flatten = file) :
    output b head blocks = file ∧ FramedImage b head len m blocks pad := by
  have hout : output b head blocks = file := (output_compressed hlz h.cmprs hall).trans hfile
  have hpadding : paddingSize head = fotaFastlzBufferPadding := if_pos h.cmprs
  have hframes : framed blocks = writeBlocks blocks := writeBlocks_eq.symm
  refine ⟨hout, .inl h.cmprs, h.crypt, fun block hmem => ?_, fun block hmem => ?_, ?_, ?_, ?_, ?_, ?_, ?_⟩
  · obtain ⟨chunk, hc⟩ := exists_chunk hall hmem
    have hle := hc.length_le
    rw [hpadding]
    exact ⟨hc.ne_nil, by show block.length < 4096 + (66 + 4096 * 5 / 100); omega⟩
  · obtain ⟨chunk, hc⟩ := exists_chunk hall hmem
    rw [blockOutput_compressed hlz h.cmprs hc]
    exact ⟨hc.chunk_ne_nil, hc.chunk_le⟩
  · rw [hframes]
    exact h.padding
  · rw [hframes]
    exact h.comSize
  · rw [hout, h.rawSize]
  · rw [hout, h.rawSize, List.take_length]
    exact h.hashVal
  · rw [hframes]
    exact h.stored
  · rw [hframes]
    exact h.fits

end image

/-- The bytes that verification has hashed are installed. -/
theorem fotaUpgrade_hashed {env : Env} (hrel : env.Reliable) (hunc : env.Uncut) {fm app : FalPartition}
    {r rt : Region} (hfm : falPartitionFind env.toBoard fotaFmPartName = some fm) (hr : env.region fm = some r)
    (happ : falPartitionFind env.toBoard fotaAppPartName = some app) (hrt : env.region app = some rt)
    (hdis : r.Disjoint rt) {w w₁ w₂ : World} {file : List UInt8}
    (hfw : fotaPartFwVerify env (some fotaFmPartName) w = .done .noErr w₁)
    (hname : strcmpEq (Head.appPartName w₁.rblFotaPartHead) fotaAppPartName = true)
    (hverify : fotaUpgradeVerify env (some fotaFmPartName) w₁ = .done .noErr w₂) (hoob : w₂.oob = w₁.oob)
    (hraw : Head.rawSize w₁.rblFotaPartHead = file.length) (hfile : w₂.hashed = w₁.hashed ++ file)
    (hfit : WritesFit w₂ (fotaUpgrade env (some fotaFmPartName) w₂).state) :
    ∃ w₃ w₄, fotaUpgrade env (some fotaFmPartName) w₂ = .done .noErr w₃ ∧
      slice (rt.view w₃.flash) appHeaderLen file.length = file ∧
      fotaCheckApplication env w₃ = .done .noErr w₄ := by
  have hbound := app.bound
  have hbound' : app.len ≤ 2 ^ 31 := by omega
  obtain ⟨hacc, hkeep, tab, head, ht⟩ := (fotaPartFwVerify_meets hr hrel hfm w).done hfw
  have hhead₁ := (hkeep rfl).2
  have hflash₁ : w₁.flash = w.flash := ht.flash
  obtain ⟨ps, hps, hpacc, hhashed⟩ := pieces_of_fotaUpgradeVerify hrel hfm hr Region.Agree.refl hverify hoob
  have hq : Quiet w₁ w₂ := fotaUpgradeVerify_quiet.of_done hverify
  have hpieces : (verifyPieces (Head.rawSize w₁.rblFotaPartHead) ps).2 = file :=
    List.append_cancel_left (hhashed.symm.trans hfile)
  have htgt : falPartitionFind env.toBoard (Head.appPartName w₂.rblFotaPartHead) = some app := by
    rw [hq.head, falPartitionFind_congr hname, happ]
  rw [← hq.head] at hps hpacc hpieces hraw
  rw [← hq.flash] at hps
  have hup := fotaUpgrade_meets hrel hunc.unfailing hfm hr hrt hdis htgt (hacc.mp rfl).head_le
    (by rw [hq.head, hhead₁, hq.flash, hflash₁]) Region.Agree.refl hps hpacc
  obtain ⟨e, w₃, hrun, -, hend⟩ := hup.returns_of (fun _ _ h => h) fun _ _ => hunc.not_cutShort
  rw [hrun] at hfit
  obtain ⟨rfl, hpfit, -, hinst⟩ | ⟨-, -, hout, -⟩ := hend
  · have hlt : ps.flatten.length < 2 ^ 32 := length_lt_of_fits hbound' hpfit.2
    obtain ⟨w₄, hcheck⟩ := fotaCheckApplication_of_valid hrel happ hrt
      (hinst.imageValid (by omega) hpfit hpacc)
    have hbody := hinst.hashed hlt hpacc
    rw [hpieces, hraw] at hbody
    exact ⟨w₃, w₄, hrun, hbody.symm, hcheck⟩
  · exact absurd hout hfit.not_out

/-- A file that `fastlz_compress_file` has compressed, at either level, encrypted or not, is verified and
installed when its blocks lie where the decoder finds them and what is written is inside the application
partition: the body of the application is the file. -/
theorem fotaUpgrade_packagedFile {env : Env} (hrel : env.Reliable) (hunc : env.Uncut)
    (hlz : env.fastlzDecompress = fastlzBytes) {fm app : FalPartition} {r rt : Region}
    (hfm : falPartitionFind env.toBoard fotaFmPartName = some fm) (hr : env.region fm = some r)
    (happ : falPartitionFind env.toBoard fotaAppPartName = some app) (hrt : env.region app = some rt)
    (hdis : r.Disjoint rt) {w w₁ : World} {level : Int} (hlevel : level = 1 ∨ level = 2)
    {file pad : List UInt8} {blocks : List (List UInt8)} (hblocks : fastlzCompressBlocks level file = .ok blocks)
    (hfw : fotaPartFwVerify env (some fotaFmPartName) w = .done .noErr w₁)
    (hname : strcmpEq (Head.appPartName w₁.rblFotaPartHead) fotaAppPartName = true)
    (hpkg : PackagedFile env.toBoard w₁.rblFotaPartHead fm.len (r.view w.flash) file blocks pad)
    (hS : Streamable env.toBoard w₁.rblFotaPartHead 0 0 blocks) :
    ∃ w₂, fotaUpgradeVerify env (some fotaFmPartName) w₁ = .done .noErr w₂ ∧
      w₂.hashed = w₁.hashed ++ file ∧
      (WritesFit w₂ (fotaUpgrade env (some fotaFmPartName) w₂).state →
        ∃ w₃ w₄, fotaUpgrade env (some fotaFmPartName) w₂ = .done .noErr w₃ ∧
          slice (rt.view w₃.flash) appHeaderLen file.length = file ∧
          fotaCheckApplication env w₃ = .done .noErr w₄) := by
  obtain ⟨chunks, blocks', hrun, hall, hflat⟩ := @compressBlocks_eq level file (file.length + 1) 0 hlevel
    (by omega) (Nat.succ_pos _)
  rw [fastlzCompressBlocks, hrun] at hblocks
  obtain rfl := Except.ok.inj hblocks
  rw [List.drop_zero] at hflat
  obtain ⟨hacc, hkeep, tab, head, ht⟩ := (fotaPartFwVerify_meets hr hrel hfm w).done hfw
  have hflash₁ : w₁.flash = w.flash := ht.flash
  obtain ⟨hout, himg⟩ := hpkg.framedImage hlz hall hflat
  rw [← hflash₁] at himg
  obtain ⟨e, w₂, hverify, hend⟩ := (fotaUpgradeVerify_framed hrel hr hfm himg).returns
  rw [if_pos hS] at hend
  obtain ⟨rfl, hdec⟩ := hend
  have hhashed := hdec.hashed
  rw [hout, hpkg.rawSize, List.take_length] at hhashed
  exact ⟨w₂, hverify, hhashed, fotaUpgrade_hashed hrel hunc hfm hr happ hrt hdis hfw hname hverify hdec.oob
    hpkg.rawSize hhashed⟩

/-! ## A small package -/

theorem sampleEnv_le_mallocUsableSize : ∀ n, n ≤ sampleEnv.mallocUsableSize n :=
  sampleEnv.le_mallocUsableSize

/-- A boot of the sample board with the decompressor of the repository, in which nothing fails. -/
def packagedEnv : Env :=
  { sampleEnv with
    le_mallocUsableSize := sampleEnv_le_mallocUsableSize
    fastlzDecompress := fastlzBytes
    length_fastlzDecompress := length_fastlzBytes
    fastlzReads := bytesRead }

/-- The one block of the file 7, 7, 8. -/
def packagedBlock : List UInt8 := [2, 7, 7, 8]

/-- The header of its image, without its checksum. -/
def packagedFields : List UInt8 :=
  [0x52, 0x42, 0x4c, 0] ++ leBytes 2 fotaCmprsAlgoFastlz ++ List.replicate 6 0 ++
    strField 16 fotaAppPartName ++ strField 24 [0x31] ++ List.replicate 24 0 ++
    leBytes 4 (fotaCrc packageCrcTab (writeBlocks [packagedBlock])).toNat ++
    leBytes 4 (fotaCalcHashCode [7, 7, 8] fnvSeed).toNat ++ leBytes 4 3 ++ leBytes 4 8

def packagedHead : List UInt8 :=
  packagedFields ++ leBytes 4 (fotaCrc packageCrcTab packagedFields).toNat

/-- The download partition holds the image. -/
def packagedFlash : Flash := fun _ a => ((packagedHead ++ writeBlocks [packagedBlock])[a]?).getD 0

theorem headAt_packagedFlash : headAt ((⟨0, 0, 0x2000⟩ : Region).view packagedFlash) = packagedHead := by
  decide +kernel

theorem packageAccepted_packagedFlash :
    PackageAccepted packagedEnv.toBoard 0x2000 ((⟨0, 0, 0x2000⟩ : Region).view packagedFlash) := by
  refine ⟨by decide, ?_, ?_, ?_, fun _ => ?_, ?_⟩ <;> rw [headAt_packagedFlash] <;> decide +kernel

theorem packagedFile_packagedFlash : PackagedFile packagedEnv.toBoard packagedHead 0x2000
    ((⟨0, 0, 0x2000⟩ : Region).view packagedFlash) [7, 7, 8] [packagedBlock] [] := by
  refine ⟨by decide +kernel, by decide +kernel, ?_, by decide +kernel, by decide +kernel, by decide +kernel, ?_,
    by decide +kernel⟩
  · rw [if_neg (by decide +kernel)]
  · rw [storedBody, if_neg (by decide +kernel)]
    decide +kernel

theorem fotaUpgrade_packagedFile_sample :
    ∃ w₁ w₂, fotaPartFwVerify packagedEnv (some fotaFmPartName) (World.boot packagedFlash) = .done .noErr w₁ ∧
      fotaUpgradeVerify packagedEnv (some fotaFmPartName) w₁ = .done .noErr w₂ ∧
      w₂.hashed = w₁.hashed ++ [7, 7, 8] ∧
      (WritesFit w₂ (fotaUpgrade packagedEnv (some fotaFmPartName) w₂).state →
        ∃ w₃ w₄, fotaUpgrade packagedEnv (some fotaFmPartName) w₂ = .done .noErr w₃ ∧
          slice ((⟨0, 0x2000, 0x2000⟩ : Region).view w₃.flash) appHeaderLen 3 = [7, 7, 8] ∧
          fotaCheckApplication packagedEnv w₃ = .done .noErr w₄) := by
  have hrel : packagedEnv.Reliable := ⟨fun _ => rfl, fun _ => rfl⟩
  have hfm : falPartitionFind packagedEnv.toBoard fotaFmPartName = some sampleFm := rfl
  have hr : packagedEnv.region sampleFm = some ⟨0, 0, 0x2000⟩ := rfl
  obtain ⟨w₁, hfw, -, hhead, -⟩ := fotaPartFwVerify_of_accepted hr hrel hfm
    (w := World.boot packagedFlash) packageAccepted_packagedFlash
  have hhead : w₁.rblFotaPartHead = packagedHead := hhead.trans headAt_packagedFlash
  have hblocks : fastlzCompressBlocks 1 [7, 7, 8] = .ok [packagedBlock] := rfl
  have hpkg := packagedFile_packagedFlash
  have hS : Streamable packagedEnv.toBoard packagedHead 0 0 [packagedBlock] := by decide +kernel
  have hname : strcmpEq (Head.appPartName packagedHead) fotaAppPartName = true := by decide +kernel
  rw [← hhead] at hpkg hS hname
  obtain ⟨w₂, hend⟩ := fotaUpgrade_packagedFile hrel (fun _ => rfl) rfl hfm hr
    (rfl : falPartitionFind packagedEnv.toBoard fotaAppPartName = some sampleApp)
    (rfl : packagedEnv.region sampleApp = some ⟨0, 0x2000, 0x2000⟩) sample_disjoint (.inl rfl) hblocks hfw
    hname hpkg hS
  exact ⟨w₁, w₂, hfw, hend⟩

end McuUtilities.Fota
