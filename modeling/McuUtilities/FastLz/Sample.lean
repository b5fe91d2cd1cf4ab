import McuUtilities.FastLz.RoundTrip
import McuUtilities.Lib.Bytes

/-!
# Compressed files (`fastlz_sample.c`)

A file is cut into blocks of 4096 bytes, and each is written compressed behind the length it has then, in
four bytes. The buffers are cleared before they are used. A file that is read into a buffer that is too
small is a fault.
-/

namespace McuUtilities.FastLz

abbrev blockHeaderSize : Nat := 4
abbrev compressBufferSize : Nat := 4096
abbrev dcompressBufferSize : Nat := 4096

/-- `FASTLZ_BUFFER_PADDING(COMPRESS_BUFFER_SIZE)` -/
abbrev bufferPadding : Nat := 66 + compressBufferSize * 5 / 100

/-- `buffer_hdr` for a block of that size. -/
def bufferHdr (cmprsSize : Nat) : List UInt8 :=
  [UInt8.ofNat (cmprsSize / 2 ^ 24), UInt8.ofNat (cmprsSize % 2 ^ 24 / 2 ^ 16),
    UInt8.ofNat (cmprsSize % 2 ^ 16 / 2 ^ 8), UInt8.ofNat (cmprsSize % 2 ^ 8)]

/-- `read(fd, buffer, n)` at `i` into a cleared buffer of `size` bytes. -/
def readFile (size : Nat) (file : List UInt8) (i n : Nat) : Run (List UInt8) :=
  let bytes := (file.drop i).take n
  if bytes.length ≤ size then .ok (bytes ++ List.replicate (size - bytes.length) 0) else .error .output

/-- The blocks that `fastlz_compress_file` writes. -/
def compressBlocks (level : Int) (file : List UInt8) : Nat → Nat → Run (List (List UInt8))
  | 0, _ => .error .endless
  | n + 1, i =>
    if i < file.length then do
      let blockSize := if file.length - i < compressBufferSize then file.length - i else compressBufferSize
      let buffer ← readFile compressBufferSize file i blockSize
      let block ← fastlzCompressLevel level buffer blockSize (compressBufferSize + bufferPadding)
      let blocks ← compressBlocks level file n (i + compressBufferSize)
      .ok (block :: blocks)
    else .ok []

def fastlzCompressBlocks (level : Int) (file : List UInt8) : Run (List (List UInt8)) :=
  compressBlocks level file (file.length + 1) 0

/-- What is written for the blocks. -/
def writeBlocks (blocks : List (List UInt8)) : List UInt8 :=
  blocks.flatMap fun block => bufferHdr block.length ++ block

/-- `fastlz_compress_file(fd_in, fd_out)`: what it writes to `fd_out`. -/
def fastlzCompressFile (level : Int) (file : List UInt8) : Run (List UInt8) := do
  let blocks ← fastlzCompressBlocks level file
  .ok (writeBlocks blocks)

/-- The loop of `fastlz_decompress_file`. -/
def decompressBlocks (file : List UInt8) : Nat → Nat → List UInt8 → Run (List UInt8)
  | 0, _, _ => .error .endless
  | n + 1, i, bufferHdr =>
    if i < file.length then do
      -- A short read leaves the end of `buffer_hdr`.
      let got := (file.drop i).take blockHeaderSize
      let bufferHdr := got ++ bufferHdr.drop got.length
      let blockSize := beNat bufferHdr
      let buffer ← readFile (dcompressBufferSize + bufferPadding) file (i + blockHeaderSize) blockSize
      let bytes ← fastlzDecompress buffer blockSize dcompressBufferSize
      let rest ← decompressBlocks file n (i + (blockHeaderSize + blockSize)) bufferHdr
      .ok (bytes ++ rest)
    else .ok []

/-- `fastlz_decompress_file(fd_in, fd_out)`: its result and what it writes to `fd_out`. -/
def fastlzDecompressFile (file : List UInt8) : Run (Int × List UInt8) :=
  if file.length ≤ blockHeaderSize then .ok (-1, [])
  else do
    let out ← decompressBlocks file (file.length + 1) 0 [0, 0, 0, 0]
    .ok (0, out)

/-! ## Blocks -/

/-- A block that is decompressed to a chunk of the file. -/
structure Compressed (chunk block : List UInt8) : Prop where
  ne_nil : block ≠ []
  length_le : block.length ≤ 4225
  chunk_ne_nil : chunk ≠ []
  chunk_le : chunk.length ≤ compressBufferSize
  decompress : ∀ junk maxout, chunk.length ≤ maxout →
    fastlzDecompress (block ++ junk) block.length maxout = .ok chunk

section blocks
variable {level : Int} {file chunk block : List UInt8} {chunks blocks : List (List UInt8)} {fuel i n size : Nat}

theorem readFile_eq (h : n ≤ size) (hn : i + n ≤ file.length) :
    readFile size file i n = .ok ((file.drop i).take n ++ List.replicate (size - n) 0) := by
  have hlen : ((file.drop i).take n).length = n := by
    rw [List.length_take, List.length_drop]
    omega
  rw [readFile, hlen, if_pos h]

theorem fastlzCompressLevel_eq (hlevel : level = 1 ∨ level = 2) :
    ∃ level', fastlzCompressLevel level = compressor level' := by
  rcases hlevel with rfl | rfl
  · exact ⟨.one, rfl⟩
  · exact ⟨.two, rfl⟩

theorem compress_chunk (hlevel : level = 1 ∨ level = 2) (hpos : 0 < n) (hn : n ≤ compressBufferSize)
    (hin : i + n ≤ file.length) :
    ∃ block, fastlzCompressLevel level ((file.drop i).take n ++ List.replicate (compressBufferSize - n) 0) n
      (compressBufferSize + bufferPadding) = .ok block ∧ Compressed ((file.drop i).take n) block := by
  obtain ⟨level', hlevel'⟩ := fastlzCompressLevel_eq hlevel
  have hn : n ≤ 4096 := hn
  have hlen : ((file.drop i).take n).length = n := by
    rw [List.length_take, List.length_drop]
    omega
  have hbuffer : ((file.drop i).take n ++ List.replicate (compressBufferSize - n) 0).length = 4096 := by
    rw [List.length_append, hlen, List.length_replicate]
    show n + (4096 - n) = 4096
    omega
  obtain ⟨block, hrun, hshort, hback⟩ := @compressor_decompress level' _ (compressBufferSize + bufferPadding) n hpos
    (by rw [hbuffer]; exact hn) (by show n + n / 32 + 1 ≤ 4096 + (66 + 4096 * 5 / 100); omega)
    (fun _ h => absurd h (by omega))
  rw [List.take_append_of_le_length (Nat.le_of_eq hlen.symm), List.take_of_length_le (Nat.le_of_eq hlen)] at hback
  refine ⟨block, by rw [hlevel']; exact hrun, ?_, by omega, ?_, by rw [hlen]; exact hn, ?_⟩
  · rintro rfl
    cases hback [] n (Nat.le_refl n)
  · intro hnil
    rw [hnil] at hlen
    exact absurd hlen (Nat.ne_of_lt hpos)
  · intro junk maxout hmax
    rw [hlen] at hmax
    exact hback junk maxout hmax

/-- The blocks are those of the chunks of the file. -/
theorem compressBlocks_eq (hlevel : level = 1 ∨ level = 2) (hfuel : file.length < fuel + i) (hpos : 0 < fuel) :
    ∃ chunks blocks, compressBlocks level file fuel i = .ok blocks ∧ List.Forall₂ Compressed chunks blocks ∧
      chunks.flatten = file.drop i := by
  induction fuel generalizing i with
  | zero => exact absurd hpos (Nat.lt_irrefl 0)
  | succ fuel ih =>
    rw [compressBlocks]
    split
    · next hlt =>
      dsimp only
      generalize hsize : (if file.length - i < compressBufferSize then file.length - i else compressBufferSize) = n
      have hn : 0 < n ∧ n ≤ compressBufferSize ∧ i + n ≤ file.length ∧
          file.drop (i + compressBufferSize) = file.drop (i + n) := by
        subst hsize
        split
        · next hlast =>
          have hlast : file.length - i < 4096 := hlast
          refine ⟨by omega, Nat.le_of_lt hlast, by omega, ?_⟩
          rw [List.drop_eq_nil_of_le (by show file.length ≤ i + 4096; omega), List.drop_eq_nil_of_le (by omega)]
        · next hmore =>
          have hmore : ¬ file.length - i < 4096 := hmore
          exact ⟨by decide, Nat.le_refl _, by show i + 4096 ≤ file.length; omega, rfl⟩
      obtain ⟨hnpos, hnle, hnin, hdrop⟩ := hn
      obtain ⟨block, hrun, hblock⟩ := compress_chunk hlevel hnpos hnle hnin
      obtain ⟨chunks, blocks, hrest, hall, hflat⟩ := @ih (i + compressBufferSize)
        (by show file.length < fuel + (i + 4096); omega) (by omega)
      rw [readFile_eq hnle hnin, ok_bind, hrun, ok_bind, hrest, ok_bind]
      refine ⟨(file.drop i).take n :: chunks, _, rfl, .cons hblock hall, ?_⟩
      rw [List.flatten_cons, hflat, hdrop, ← List.drop_drop, List.take_append_drop]
    · next hge =>
      refine ⟨[], [], rfl, .nil, ?_⟩
      rw [List.drop_eq_nil_of_le (Nat.le_of_not_lt hge)]
      rfl

theorem bufferHdr_eq : bufferHdr n = beBytes 4 n := by
  have hbyte {a b : Nat} (hab : a % 256 = b % 256) : UInt8.ofNat a = UInt8.ofNat b := by
    refine UInt8.toNat_inj.mp ?_
    rw [UInt8.toNat_ofNat', UInt8.toNat_ofNat']
    exact hab
  simp only [beBytes, List.nil_append, List.cons_append]
  rw [bufferHdr, hbyte (a := n / 2 ^ 24) (b := n / 256 / 256 / 256) (by omega),
    hbyte (a := n % 2 ^ 24 / 2 ^ 16) (b := n / 256 / 256) (by omega),
    hbyte (a := n % 2 ^ 16 / 2 ^ 8) (b := n / 256) (by omega), hbyte (a := n % 2 ^ 8) (b := n) (by omega)]

/-- Reading the blocks gives the chunks. -/
theorem decompressBlocks_eq {hdr : List UInt8} (hall : List.Forall₂ Compressed chunks blocks)
    (hdrop : file.drop i = writeBlocks blocks) (hhdr : hdr.length = 4) (hfuel : blocks.length < fuel) :
    decompressBlocks file fuel i hdr = .ok chunks.flatten := by
  induction hall generalizing fuel i hdr with
  | nil =>
    obtain ⟨fuel, rfl⟩ := Nat.exists_eq_succ_of_ne_zero (Nat.ne_of_gt hfuel)
    have hend := List.drop_eq_nil_iff.mp hdrop
    rw [decompressBlocks, if_neg (Nat.not_lt_of_le hend)]
    rfl
  | cons hblock hall ih =>
    rename_i chunk block chunks blocks
    obtain ⟨fuel, rfl⟩ := Nat.exists_eq_succ_of_ne_zero (Nat.ne_of_gt (Nat.zero_lt_of_lt hfuel))
    have hshort := hblock.length_le
    have hlen4 : (bufferHdr block.length).length = 4 := rfl
    have hdrop' : file.drop i = bufferHdr block.length ++ (block ++ writeBlocks blocks) := by
      rw [hdrop, writeBlocks, List.flatMap_cons, List.append_assoc]
      rfl
    have hbytes := congrArg List.length hdrop'
    rw [List.length_drop, List.length_append, List.length_append, hlen4] at hbytes
    have hgot : (file.drop i).take blockHeaderSize = bufferHdr block.length := by
      rw [hdrop', List.take_left' hlen4]
    have hsize : beNat (bufferHdr block.length) = block.length := by
      rw [bufferHdr_eq, beNat_beBytes (by omega)]
    have hblock_eq : (file.drop (i + blockHeaderSize)).take block.length = block := by
      rw [← List.drop_drop, hdrop', List.drop_left' hlen4, List.take_left]
    have hroom : block.length ≤ dcompressBufferSize + bufferPadding := by
      show block.length ≤ 4096 + (66 + 4096 * 5 / 100)
      omega
    have hread := @readFile_eq file (i + blockHeaderSize) block.length _ hroom
      (by show i + 4 + block.length ≤ file.length; omega)
    rw [hblock_eq] at hread
    have hnext : file.drop (i + (blockHeaderSize + block.length)) = writeBlocks blocks := by
      rw [← List.drop_drop, hdrop', ← List.append_assoc, List.drop_left' (by rw [List.length_append, hlen4])]
    rw [decompressBlocks, if_pos (by omega)]
    dsimp only
    rw [hgot, hlen4, List.drop_eq_nil_of_le (Nat.le_of_eq hhdr), List.append_nil, hsize, hread, ok_bind,
      hblock.decompress _ _ hblock.chunk_le, ok_bind, ih hnext hlen4 (Nat.lt_of_succ_lt_succ hfuel), ok_bind,
      List.flatten_cons]

theorem length_le_writeBlocks : blocks.length * 4 ≤ (writeBlocks blocks).length := by
  induction blocks with
  | nil => exact Nat.le_refl 0
  | cons block blocks ih =>
    rw [writeBlocks, List.flatMap_cons, List.length_append, List.length_append, List.length_cons]
    have hlen4 : (bufferHdr block.length).length = 4 := rfl
    change blocks.length * 4 ≤ (blocks.flatMap fun block => bufferHdr block.length ++ block).length at ih
    omega

end blocks

/-- `fastlz_decompress_file` gives every file back that `fastlz_compress_file` compressed, at either level,
and neither leaves its buffers. -/
theorem fastlzDecompressFile_compressFile (level : Int) (hlevel : level = 1 ∨ level = 2) (file : List UInt8)
    (hne : file ≠ []) :
    ∃ out, fastlzCompressFile level file = .ok out ∧ fastlzDecompressFile out = .ok (0, file) := by
  obtain ⟨chunks, blocks, hrun, hall, hflat⟩ := @compressBlocks_eq level file (file.length + 1) 0 hlevel
    (by omega) (Nat.succ_pos _)
  rw [List.drop_zero] at hflat
  refine ⟨writeBlocks blocks, by rw [fastlzCompressFile, fastlzCompressBlocks, hrun]; rfl, ?_⟩
  have hlong : blockHeaderSize < (writeBlocks blocks).length := by
    cases hall with
    | nil => exact absurd hflat.symm hne
    | cons hblock hall =>
      rename_i chunk block chunks blocks
      have hpos := List.length_pos_of_ne_nil hblock.ne_nil
      have hlen4 : (bufferHdr block.length).length = 4 := rfl
      rw [writeBlocks, List.flatMap_cons, List.length_append, List.length_append, hlen4]
      show 4 < _
      omega
  have hblocks := @length_le_writeBlocks blocks
  rw [fastlzDecompressFile, if_neg (Nat.not_le_of_lt hlong),
    decompressBlocks_eq hall (List.drop_zero) rfl (by omega), ok_bind, hflat]

theorem fastlzDecompressFile_compressFile_sample :
    ∃ out, fastlzCompressFile 1 [7, 7, 8] = .ok out ∧ fastlzDecompressFile out = .ok (0, [7, 7, 8]) :=
  fastlzDecompressFile_compressFile 1 (.inl rfl) [7, 7, 8] (by simp)

end McuUtilities.FastLz
