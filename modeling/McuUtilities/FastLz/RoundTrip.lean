import McuUtilities.FastLz.Matching

/-!
# Compression and decompression

Along the loops of the compressor the output is the code of items that expand to the input so far, then
the control byte and the bytes of an unfinished run of literals (`Coded`). So decompression gives the
input back, and the output never needs more room than the header asks for.
-/

namespace McuUtilities.FastLz

open LempelZiv

variable {level : Level} {input op : List UInt8} {items : List (Item UInt8)} {cap copy ip length n : Nat}

/-! ## The output -/

/-- The first item is a run of literals. -/
def Starts (items : List (Item UInt8)) : Prop := ∃ bytes rest, items = .literal bytes :: rest

/-- The output when the items are complete up to a place. -/
structure Complete (level : Level) (input : List UInt8) (items : List (Item UInt8)) (ip : Nat) : Prop where
  fits : ∀ it ∈ items, Fits level it
  covers : Covers items input ip
  starts : Starts items

/-- The output with `copy` literals of an unfinished run. -/
structure Coded (level : Level) (input : List UInt8) (items : List (Item UInt8)) (ip copy : Nat)
    (op : List UInt8) : Prop where
  op_eq : op = encodeAll level items ++ UInt8.ofNat (maxCopy - 1) :: (input.drop (ip - copy)).take copy
  fits : ∀ it ∈ items, Fits level it
  covers : Covers items input (ip - copy)
  starts : Starts items ∨ items = [] ∧ 0 < copy
  copy_lt : copy < 32
  copy_le : copy ≤ ip
  ip_le : ip ≤ input.length
  short : (encodeAll level items).length ≤ ip - copy + (ip - copy) / 32

section coded
variable (h : Coded level input items ip copy op)

include h in
theorem Coded.length_eq : op.length = (encodeAll level items).length + 1 + copy := by
  have hip := h.ip_le
  have hcopy := h.copy_le
  rw [h.op_eq, List.length_append, List.length_cons, List.length_take, List.length_drop]
  omega

include h in
/-- There is room as long as there is a byte for each byte of the input, and for each 32 bytes. -/
theorem Coded.length_le : op.length ≤ ip + ip / 32 + 1 := by
  have hlen := h.length_eq
  have hshort := h.short
  have hcopy := h.copy_le
  have hdiv := Nat.div_le_div_right (c := 32) (Nat.sub_le ip copy)
  omega

theorem starts_append {items items' : List (Item UInt8)} (h : Starts items) : Starts (items ++ items') := by
  obtain ⟨bytes, rest, rfl⟩ := h
  exact ⟨bytes, rest ++ items', rfl⟩

theorem encode_slice {i : Nat} (h : i + n ≤ input.length) :
    encode level (.literal ((input.drop i).take n)) = UInt8.ofNat (n - 1) :: (input.drop i).take n := by
  have hlen : ((input.drop i).take n).length = n := by
    rw [List.length_take, List.length_drop]
    omega
  rw [encode, hlen]

theorem fits_slice {i : Nat} (h : i + n ≤ input.length) (hpos : 0 < n) (hn : n ≤ 32) :
    Fits level (.literal ((input.drop i).take n)) := by
  have hlen : ((input.drop i).take n).length = n := by
    rw [List.length_take, List.length_drop]
    omega
  exact ⟨by rw [hlen]; exact hpos, by rw [hlen]; exact hn⟩

include h in
/-- The unfinished run becomes an item. -/
theorem Coded.close (hpos : 0 < copy) :
    Complete level input (items ++ [.literal ((input.drop (ip - copy)).take copy)]) ip := by
  have hip := h.ip_le
  have hcopy := h.copy_le
  refine ⟨fun it hit => ?_, ?_, ?_⟩
  · rcases List.mem_append.mp hit with hit | hit
    · exact h.fits it hit
    · rw [List.mem_singleton.mp hit]
      exact fits_slice (by omega) hpos (Nat.le_of_lt h.copy_lt)
  · have hcovers := h.covers.literal (n := copy)
    rw [Nat.sub_add_cancel hcopy] at hcovers
    exact hcovers
  · rcases h.starts with hstarts | ⟨rfl, -⟩
    · exact starts_append hstarts
    · exact ⟨_, [], rfl⟩

include h in
/-- Writing the copy count completes the output. -/
theorem Coded.adjust : ∃ items', adjustCopy copy op = .ok (encodeAll level items') ∧
    Complete level input items' ip ∧
    (encodeAll level items').length ≤ ip + (ip - copy) / 32 + (if copy = 0 then 0 else 1) := by
  have hlen := h.length_eq
  have hshort := h.short
  have hip := h.ip_le
  have hcopy := h.copy_le
  by_cases hzero : copy = 0
  · subst hzero
    refine ⟨items, ?_, ⟨h.fits, h.covers, h.starts.resolve_right fun hno => absurd hno.2 (Nat.lt_irrefl 0)⟩, ?_⟩
    · rw [adjustCopy, if_neg (by simp), h.op_eq, List.take_zero, List.dropLast_concat]
    · rw [if_pos rfl]
      exact hshort
  · have hslice : ip - copy + copy ≤ input.length := by omega
    refine ⟨_, ?_, h.close (Nat.pos_of_ne_zero hzero), ?_⟩
    · have hindex : op.length - copy - 1 = (encodeAll level items).length := by omega
      rw [adjustCopy, if_pos hzero, if_pos (by omega), hindex, h.op_eq, List.set_append_right _ _ (Nat.le_refl _),
        Nat.sub_self, List.set_cons_zero, encodeAll_append, encodeAll_cons, encode_slice hslice, encodeAll_nil,
        List.append_nil]
    · rw [if_neg hzero, encodeAll_append, encodeAll_cons, encode_slice hslice, encodeAll_nil, List.append_nil,
        List.length_append, List.length_cons, List.length_take, List.length_drop]
      omega

end coded

/-! ## Steps -/

/-- The state of the loops. -/
structure Inv (level : Level) (input : List UInt8) (s : State) : Prop where
  coded : ∃ items, Coded level input items s.ip s.copy s.op
  htab_lt : ∀ h, s.htab h < s.ip

section steps
variable {s : State} (hlength : length ≤ input.length) (hcap : length + length / 32 + 1 ≤ cap)

theorem take_drop_succ {i : Nat} (h : i + n < input.length) :
    (input.drop i).take n ++ [input[i + n]] = (input.drop i).take (n + 1) := by
  have hlt : n < (input.drop i).length := by
    rw [List.length_drop]
    omega
  rw [← List.take_append_getElem hlt, List.getElem_drop]

include hlength hcap

/-- A literal keeps the invariant. -/
theorem literal_eq (hcoded : ∃ items, Coded level input items s.ip s.copy s.op) (htab_le : ∀ h, s.htab h ≤ s.ip)
    (hip : s.ip < length) :
    ∃ s', literal input cap s = .ok s' ∧ s'.ip = s.ip + 1 ∧ Inv level input s' := by
  obtain ⟨items, h⟩ := hcoded
  have hlen := h.length_eq
  have hshort := h.short
  have hcopy := h.copy_le
  have hlt := h.copy_lt
  have hin : s.ip < input.length := Nat.lt_of_lt_of_le hip hlength
  have hkeep : ∀ k, s.htab k < s.ip + 1 := fun k => Nat.lt_succ_of_le (htab_le k)
  have hbytes : (input.drop (s.ip - s.copy)).take s.copy ++ [input[s.ip]] =
      (input.drop (s.ip - s.copy)).take (s.copy + 1) := by
    have hslice := @take_drop_succ input s.copy (s.ip - s.copy) (by omega)
    simp only [Nat.sub_add_cancel hcopy] at hslice
    exact hslice
  have hput : put cap [input[s.ip]] s.op = .ok (s.op ++ [input[s.ip]]) := by
    refine put_eq ?_
    rw [List.length_singleton]
    omega
  have hop : s.op ++ [input[s.ip]] = encodeAll level items ++ UInt8.ofNat (maxCopy - 1) ::
      (input.drop (s.ip - s.copy)).take (s.copy + 1) := by
    conv => lhs; rw [h.op_eq]
    rw [List.append_assoc, List.cons_append, hbytes]
  rw [literal, byteAt_lt hin, ok_bind, hput, ok_bind]
  split
  · next hfull =>
    -- The run is complete.
    have hcopy31 : s.copy = 31 := by simpa [maxCopy] using hfull
    rw [hcopy31] at hop hlen hshort hcopy hbytes
    have hput' : put cap [UInt8.ofNat (maxCopy - 1)] (s.op ++ [input[s.ip]]) =
        .ok (s.op ++ [input[s.ip]] ++ [UInt8.ofNat (maxCopy - 1)]) := by
      refine put_eq ?_
      rw [List.length_append, List.length_singleton, List.length_singleton]
      omega
    rw [hput', ok_bind]
    have hslice : s.ip - 31 + 32 ≤ input.length := by omega
    refine ⟨_, rfl, rfl, ⟨items ++ [.literal ((input.drop (s.ip - 31)).take 32)], ?_, fun it hit => ?_, ?_, ?_,
      (by decide : (0 : Nat) < 32), Nat.zero_le _, hin, ?_⟩, hkeep⟩
    · show s.op ++ [input[s.ip]] ++ [UInt8.ofNat (maxCopy - 1)] = _
      rw [hop, encodeAll_append, encodeAll_cons, encode_slice hslice, encodeAll_nil, List.append_nil, List.take_zero]
    · rcases List.mem_append.mp hit with hit | hit
      · exact h.fits it hit
      · rw [List.mem_singleton.mp hit]
        exact fits_slice hslice (by decide) (Nat.le_refl 32)
    · have hcovers := h.covers
      rw [hcopy31] at hcovers
      have hcovers := hcovers.literal (n := 32)
      rw [(by omega : s.ip - 31 + 32 = s.ip + 1 - 0)] at hcovers
      exact hcovers
    · rcases h.starts with hstarts | ⟨rfl, -⟩
      · exact .inl (starts_append hstarts)
      · exact .inl ⟨_, [], rfl⟩
    · rw [encodeAll_append, encodeAll_cons, encode_slice hslice, encodeAll_nil, List.append_nil,
        List.length_append, List.length_cons, List.length_take, List.length_drop]
      show _ ≤ s.ip + 1 - 0 + (s.ip + 1 - 0) / 32
      omega
  · next hmore =>
    have hmore : s.copy + 1 ≠ 32 := hmore
    refine ⟨_, rfl, rfl, ⟨items, ?_, h.fits, ?_, ?_, ?_, Nat.succ_le_succ hcopy, hin, ?_⟩, hkeep⟩
    · show s.op ++ [input[s.ip]] = _
      rw [hop, Nat.add_sub_add_right]
    · show Covers items input (s.ip + 1 - (s.copy + 1))
      rw [Nat.add_sub_add_right]
      exact h.covers
    · exact h.starts.imp_right fun hstarts => ⟨hstarts.1, Nat.succ_pos _⟩
    · show s.copy + 1 < 32
      omega
    · show _ ≤ s.ip + 1 - (s.copy + 1) + (s.ip + 1 - (s.copy + 1)) / 32
      rw [Nat.add_sub_add_right]
      exact hshort

/-- A match keeps the invariant. -/
theorem mainStep_eq (h : Inv level input s) (hip : s.ip + 12 < length) (hpos : 0 < s.ip)
    (hbehind : level = .two → 8204 ≤ length → length < input.length) :
    ∃ s', mainStep level input length cap s = .ok s' ∧ s.ip < s'.ip ∧ s'.ip ≤ length ∧ Inv level input s' := by
  obtain ⟨found, htab, hprobe, htab_le, hfound⟩ :=
    @probe_eq level input s.ip s.htab hpos (by omega) h.htab_lt
  obtain ⟨items, hcoded⟩ := h.coded
  rw [mainStep, hprobe, ok_bind]
  cases found with
  | none =>
    obtain ⟨s', hrun, hip', hinv⟩ := @literal_eq level input cap length { s with htab } hlength hcap
      ⟨items, hcoded⟩ htab_le (show s.ip < length by omega)
    exact ⟨s', hrun, by rw [hip']; exact Nat.lt_succ_self _, by rw [hip']; show s.ip + 1 ≤ length; omega, hinv⟩
  | some match_ =>
    obtain ⟨d, len⟩ := match_
    have hm := hfound d len rfl
    have hbytes := hm.bytes
    have hdi := hm.le
    have hd := hm.pos
    have hnear : d = 1 → len = 3 := by
      intro hone
      refine hm.bytes.resolve_right fun h5 => ?_
      have hfar := (hm.far.mp h5).2
      rw [hone] at hfar
      exact absurd hfar (by cases level <;> decide)
    obtain ⟨e, hend, hle, hmax, hrun, hmatch⟩ := @matchEnd_eq input d (s.ip + len) length hd (by omega)
      (by omega) (fun hone => by have := hnear hone; omega) hlength (by omega)
    dsimp only
    rw [hend, ok_bind]
    -- The code of a match of `n` bytes.
    obtain ⟨n, rfl⟩ : ∃ n, e = s.ip + n + 1 := ⟨e - 1 - s.ip, by omega⟩
    have hwhole : Matches input d s.ip (s.ip + n) := hm.same.trans hmatch
    obtain ⟨items', hadjust, hcomplete, hlen'⟩ := hcoded.adjust
    obtain ⟨pieces, hencode, hfits, hshort, hcovers⟩ := @exists_pieces level d n hd hm.near (by omega)
      (fun htwo hfar => by
        have h5 := hm.far.mpr ⟨htwo, by rw [htwo]; omega⟩
        omega)
    have hcopy_le := hcoded.copy_le
    have hcopy_lt := hcoded.copy_lt
    have hin : s.ip + n ≤ input.length := by omega
    have hgrow : (encodeAll level items').length + (encodeAll level pieces).length ≤
        s.ip + n + (s.ip + n) / 32 := by
      split at hlen' <;> omega
    have hput : put cap (encodeMatch level (n - 2) (d - 1)) (encodeAll level items') =
        .ok (encodeAll level (items' ++ pieces)) := by
      rw [encodeAll_append, hencode]
      exact put_eq (by omega)
    have hput' : put cap [UInt8.ofNat (maxCopy - 1)] (encodeAll level (items' ++ pieces)) =
        .ok (encodeAll level (items' ++ pieces) ++ [UInt8.ofNat (maxCopy - 1)]) := by
      refine put_eq ?_
      rw [encodeAll_append, List.length_append, List.length_singleton]
      omega
    -- Hashing at the end of a far match reads one byte more.
    have hbyte : s.ip + n + 2 ≤ input.length := by
      rcases hbytes with h3 | h5
      · omega
      · obtain ⟨htwo, hfar⟩ := hm.far.mp h5
        rw [htwo] at hfar
        have hfar : 8191 ≤ d := hfar
        have := hbehind htwo (by omega)
        omega
    obtain ⟨hval, hhash⟩ := @hashFunction_isOk input (s.ip + n + 1 - 3) (by omega)
    obtain ⟨hval', hhash'⟩ := @hashFunction_isOk input (s.ip + n + 1 - 3 + 1) (by omega)
    rw [hadjust, ok_bind, (by omega : s.ip + n + 1 - 3 - s.ip = n - 2), hput, ok_bind, hhash, ok_bind, hhash',
      ok_bind, hput', ok_bind, (by omega : s.ip + n + 1 - 3 + 2 = s.ip + n)]
    refine ⟨_, rfl, by show s.ip < s.ip + n; omega, by show s.ip + n ≤ length; omega,
      ⟨items' ++ pieces, ?_, ?_, ?_, .inl (starts_append hcomplete.starts), (by decide : (0 : Nat) < 32),
        Nat.zero_le _, hin, ?_⟩, ?_⟩
    · rw [List.take_zero]
    · intro it hit
      rcases List.mem_append.mp hit with hit | hit
      · exact hcomplete.fits it hit
      · exact hfits it hit
    · exact hcovers items' input s.ip hcomplete.covers hdi hin hwhole
    · rw [encodeAll_append, List.length_append]
      exact hgrow
    · intro k
      have hk := htab_le k
      show Function.update (Function.update htab hval _) hval' _ k < s.ip + n
      rcases eq_or_ne k hval' with rfl | hne'
      · rw [Function.update_self]
        omega
      · rw [Function.update_of_ne hne']
        rcases eq_or_ne k hval with rfl | hne
        · rw [Function.update_self]
          omega
        · rw [Function.update_of_ne hne]
          omega

/-! ## Runs of the loops -/

theorem mainLoop_eq {fuel : Nat} (h : Inv level input s) (hpos : 0 < s.ip) (hip : s.ip ≤ length)
    (hfuel : length < fuel + s.ip) (hbehind : level = .two → 8204 ≤ length → length < input.length) :
    ∃ s', mainLoop level input length cap fuel s = .ok s' ∧ s'.ip ≤ length ∧ Inv level input s' := by
  induction fuel generalizing s with
  | zero => omega
  | succ fuel ih =>
    rw [mainLoop]
    split
    · next hlt =>
      obtain ⟨s₁, hstep, hgrow, hle, hinv⟩ := mainStep_eq hlength hcap h hlt hpos hbehind
      rw [hstep, ok_bind]
      exact ih hinv (by omega) hle (by omega)
    · exact ⟨s, rfl, hip, h⟩

theorem leftOver_eq {fuel : Nat} (h : Inv level input s) (hip : s.ip ≤ length) (hfuel : length < fuel + s.ip) :
    ∃ s', leftOver input length cap fuel s = .ok s' ∧ s'.ip = length ∧ Inv level input s' := by
  induction fuel generalizing s with
  | zero => omega
  | succ fuel ih =>
    rw [leftOver]
    split
    · next hlt =>
      obtain ⟨s₁, hstep, hnext, hinv⟩ := literal_eq hlength hcap h.coded (fun k => Nat.le_of_lt (h.htab_lt k)) hlt
      rw [hstep, ok_bind]
      exact ih hinv (by omega) (by omega)
    · next hge => exact ⟨s, rfl, by omega, h⟩

end steps

/-- Compressed data: the code of items that expand to the input. -/
theorem compressor_eq (hpos : 0 < length) (hlength : length ≤ input.length)
    (hcap : length + length / 32 + 1 ≤ cap)
    (hbehind : level = .two → 8204 ≤ length → length < input.length) :
    ∃ level' items, compressor level input length cap = .ok (mark level' (encodeAll level' items)) ∧
      Complete level' input items length ∧ (encodeAll level' items).length ≤ length + length / 32 + 1 := by
  rw [compressor]
  split
  · next hshort =>
    have hput : put cap [UInt8.ofNat (length - 1)] [] = .ok [UInt8.ofNat (length - 1)] :=
      put_eq (by simp; omega)
    have hslice : 0 + length ≤ input.length := by omega
    have hcode := @encode_slice .one input length 0 hslice
    rw [if_pos (Nat.ne_of_gt hpos), hput, ok_bind, putInput_eq hslice (by simp; omega)]
    refine ⟨.one, [.literal ((input.drop 0).take length)], ?_, ⟨fun it hit => ?_, ?_, ⟨_, [], rfl⟩⟩, ?_⟩
    · rw [mark, encodeAll_cons, encodeAll_nil, List.append_nil, hcode]
      rfl
    · rw [List.mem_singleton.mp hit]
      exact fits_slice hslice hpos (by omega)
    · have hcovers := (@covers_nil _ input).literal (n := length)
      rw [Nat.zero_add] at hcovers
      exact hcovers
    · rw [encodeAll_cons, encodeAll_nil, List.append_nil, hcode, List.length_cons, List.length_take,
        List.length_drop]
      omega
  · next hlong =>
    have hput : put cap [UInt8.ofNat (maxCopy - 1)] [] = .ok [UInt8.ofNat (maxCopy - 1)] :=
      put_eq (by simp; omega)
    have hput' : putInput input cap 2 0 [UInt8.ofNat (maxCopy - 1)] =
        .ok ([UInt8.ofNat (maxCopy - 1)] ++ (input.drop 0).take 2) := putInput_eq (by omega) (by simp; omega)
    have hinit : Inv level input ⟨2, 2, [UInt8.ofNat (maxCopy - 1)] ++ (input.drop 0).take 2, fun _ => 0⟩ :=
      ⟨⟨[], rfl, fun _ hit => absurd hit List.not_mem_nil, covers_nil, .inr ⟨rfl, Nat.two_pos⟩,
        (by decide : (2 : Nat) < 32), Nat.le_refl 2, by show 2 ≤ input.length; omega, Nat.zero_le _⟩, fun _ => Nat.two_pos⟩
    obtain ⟨s₁, hmain, hle₁, hinv₁⟩ := @mainLoop_eq level input cap length _ hlength hcap length hinit Nat.two_pos
      (by show 2 ≤ length; omega) (by show length < length + 2; omega) hbehind
    obtain ⟨s₂, hrest, hend, hinv₂⟩ := @leftOver_eq level input cap length s₁ hlength hcap (length + 1) hinv₁ hle₁
      (by omega)
    obtain ⟨items, hcoded⟩ := hinv₂.coded
    rw [hend] at hcoded
    obtain ⟨items', hadjust, hcomplete, hlen⟩ := hcoded.adjust
    rw [hput, ok_bind, hput', ok_bind, hmain, ok_bind, hrest, ok_bind, hadjust, ok_bind]
    refine ⟨level, items', rfl, hcomplete, ?_⟩
    have hdiv := Nat.div_le_div_right (c := 32) (Nat.sub_le length s₂.copy)
    split at hlen <;> omega

theorem length_mark {bytes : List UInt8} : (mark level bytes).length = bytes.length := by
  cases level with
  | one => rfl
  | two => exact List.length_modifyHead

/-- What a compressor writes is expanded again. -/
theorem compressor_decompress (hpos : 0 < length) (hlength : length ≤ input.length)
    (hcap : length + length / 32 + 1 ≤ cap)
    (hbehind : level = .two → 8204 ≤ length → length < input.length) :
    ∃ out, compressor level input length cap = .ok out ∧ out.length ≤ length + length / 32 + 1 ∧
      ∀ junk maxout, length ≤ maxout →
        fastlzDecompress (out ++ junk) out.length maxout = .ok (input.take length) := by
  obtain ⟨level', items, hrun, hcomplete, hlen⟩ := compressor_eq hpos hlength hcap hbehind
  refine ⟨_, hrun, by rw [length_mark]; exact hlen, fun junk maxout hmax => ?_⟩
  obtain ⟨bytes, rest, rfl⟩ := hcomplete.starts
  refine fastlzDecompress_eq hcomplete.fits hcomplete.covers ?_
  rw [List.length_take]
  omega

/-- `fastlz_compress` and both levels of `fastlz_compress_level` stay in their buffers when the output has
5% more bytes than the input, and `fastlz_decompress` gives the input back, whatever is behind the
compressed data. An input of 8204 bytes or more must have a byte behind it, which level 2 may read. -/
theorem fastlz_roundTrip (input : List UInt8) (length cap : Nat) (hpos : 0 < length)
    (hlength : length ≤ input.length) (hbehind : 8204 ≤ length → length < input.length)
    (hcap : length * 105 ≤ cap * 100) :
    ∀ compress ∈ [fastlzCompress, fastlzCompressLevel 1, fastlzCompressLevel 2],
      ∃ out, compress input length cap = .ok out ∧ out.length ≤ cap ∧ ∀ junk maxout, length ≤ maxout →
        fastlzDecompress (out ++ junk) out.length maxout = .ok (input.take length) := by
  have hroom : length + length / 32 + 1 ≤ cap := by omega
  have hlevel : ∀ level, ∃ out, compressor level input length cap = .ok out ∧ out.length ≤ cap ∧
      ∀ junk maxout, length ≤ maxout →
        fastlzDecompress (out ++ junk) out.length maxout = .ok (input.take length) := by
    intro level
    obtain ⟨out, hrun, hlen, hback⟩ := @compressor_decompress level input cap length hpos hlength hroom
      (fun _ => hbehind)
    exact ⟨out, hrun, Nat.le_trans hlen hroom, hback⟩
  intro compress hmem
  simp only [List.mem_cons, List.not_mem_nil, or_false] at hmem
  rcases hmem with rfl | rfl | rfl
  · rw [fastlzCompress]
    split
    · exact hlevel .one
    · exact hlevel .two
  · rw [fastlzCompressLevel, if_pos rfl]
    exact hlevel .one
  · rw [fastlzCompressLevel, if_neg (by decide), if_pos rfl]
    exact hlevel .two

theorem fastlz_roundTrip_zeros :
    ∃ out, fastlzCompress (List.replicate 4096 0) 4096 4301 = .ok out ∧ out.length ≤ 4301 ∧
      ∀ junk maxout, 4096 ≤ maxout →
        fastlzDecompress (out ++ junk) out.length maxout = .ok ((List.replicate 4096 0).take 4096) :=
  fastlz_roundTrip (List.replicate 4096 0) 4096 4301 (by decide) (by rw [List.length_replicate])
    (fun h => absurd h (by decide)) (by decide) fastlzCompress List.mem_cons_self

end McuUtilities.FastLz
