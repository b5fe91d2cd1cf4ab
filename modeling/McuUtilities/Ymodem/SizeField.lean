import McuUtilities.Ymodem.Session

/-!
# The size field of a header block

The size stands in decimal after the NUL that ends the name, up to a byte of the block that is no
digit. `get_file_len` finds that field where there is one; what it makes of an empty field, and of a
value that is too large, is not the "no size" it is documented to return.
-/

namespace McuUtilities.Ymodem

variable {block digits : List UInt8}

/-- The digits between the first NUL of the block and the next byte that is no digit. -/
def SizeField (block digits : List UInt8) : Prop :=
  ∃ name stop rest, block = name ++ 0 :: (digits ++ stop :: rest) ∧ (∀ b ∈ name, b ≠ 0) ∧
    (∀ b ∈ digits, isDigit b = true) ∧ isDigit stop = false

theorem getFileLen_of_field (hlen : block.length = 128) (h : SizeField block digits) :
    getFileLen block = UInt32.ofNat (decimal digits) := by
  obtain ⟨name, stop, rest, rfl, hname, hdigits, hstop⟩ := h
  exact getFileLen_append hname hdigits hstop hlen

/-- There is one size field at most. -/
theorem SizeField.unique {digits' : List UInt8} (h : SizeField block digits)
    (h' : SizeField block digits') : digits = digits' := by
  have hdigits : ∀ {d : List UInt8}, SizeField block d →
      (block.drop (block.findIdx (· == 0) + 1)).takeWhile isDigit = d := by
    rintro d ⟨name, stop, rest, rfl, hname, hd, hstop⟩
    rw [findIdx_name hname, drop_name, takeWhile_digits hd hstop]
  rw [← hdigits h, hdigits h']

/-- Where a scan for a byte stops. -/
theorem split_findIdx {α : Type} {p : α → Bool} {l : List α} (h : l.findIdx p < l.length) :
    ∃ x, l = l.take (l.findIdx p) ++ x :: l.drop (l.findIdx p + 1) ∧ p x = true ∧
      ∀ y ∈ l.take (l.findIdx p), p y = false := by
  refine ⟨l[l.findIdx p], ?_, List.findIdx_getElem, fun y hy => ?_⟩
  · rw [← List.drop_eq_getElem_cons h, List.take_append_drop]
  · obtain ⟨i, hi, rfl⟩ := List.mem_take_iff_getElem.mp hy
    exact List.not_of_lt_findIdx (Nat.lt_of_lt_of_le hi (Nat.min_le_left _ _))

/-- Where a scan over the bytes of one kind stops. -/
theorem split_takeWhile {α : Type} {p : α → Bool} {l : List α}
    (h : (l.takeWhile p).length < l.length) :
    ∃ stop rest, l = l.takeWhile p ++ stop :: rest ∧ p stop = false := by
  cases hrest : l.dropWhile p with
  | nil =>
    have hall := List.takeWhile_append_dropWhile (p := p) (l := l)
    rw [hrest, List.append_nil] at hall
    rw [hall] at h
    exact absurd h (Nat.lt_irrefl _)
  | cons stop rest =>
    refine ⟨stop, rest, ?_, ?_⟩
    · rw [← hrest, List.takeWhile_append_dropWhile]
    · have := List.head?_dropWhile_not p l
      rw [hrest] at this
      simpa using this

/-- A block without a size field has no size. -/
theorem getFileLen_of_noField (hlen : block.length = 128)
    (h : ∀ digits, ¬ SizeField block digits) : getFileLen block = yNoLength := by
  rw [getFileLen, List.take_of_length_le (Nat.le_of_eq hlen)]
  dsimp only
  split
  · rfl
  · next hidx =>
    split
    · rfl
    · next hend =>
      exfalso
      obtain ⟨nul, hname, hnul, hbefore⟩ := split_findIdx
        (l := block) (p := (· == 0)) (by omega)
      rw [beq_iff_eq] at hnul
      subst hnul
      generalize hafter : block.drop (block.findIdx (· == 0) + 1) = after at hname hend
      have hlenAfter : after.length = 128 - (block.findIdx (· == 0) + 1) := by
        rw [← hafter, List.length_drop, hlen]
      obtain ⟨stop, rest, hdigits, hstop⟩ := split_takeWhile (l := after) (p := isDigit) (by omega)
      refine h (after.takeWhile isDigit) ⟨block.take (block.findIdx (· == 0)), stop, rest, ?_, ?_,
        fun b hb => List.all_eq_true.mp List.all_takeWhile b hb, hstop⟩
      · rwa [← hdigits]
      · exact fun b hb => by simpa using hbefore b hb

/-! ## What is documented -/

/-- The block announces a size: its size field is not empty and its value is one that
`receive_nanme_size_callback` can be told. -/
def Announces (block : List UInt8) (size : Nat) : Prop :=
  ∃ digits, SizeField block digits ∧ digits ≠ [] ∧ decimal digits = size ∧ size < 0xFFFFFFFF

/-- `get_file_len` returns the announced size, or 0xFFFFFFFF when none was announced. -/
structure ParsesSize (block : List UInt8) : Prop where
  size : ∀ size, Announces block size → (getFileLen block).toNat = size
  none : (∀ size, ¬ Announces block size) → getFileLen block = yNoLength

/-- It does so exactly when the field is not an empty one, and its value is below 0xFFFFFFFF or
wraps to just that. -/
theorem parsesSize_iff (hlen : block.length = 128) :
    ParsesSize block ↔ ∀ digits, SizeField block digits → digits ≠ [] ∧
      (decimal digits < 0xFFFFFFFF ∨ decimal digits % 2 ^ 32 = 0xFFFFFFFF) := by
  have hmax : yNoLength.toNat = 0xFFFFFFFF := rfl
  constructor
  · intro h digits hfield
    have hvalue := getFileLen_of_field hlen hfield
    -- the field is the only one, so if it announces no size then nothing does
    have hnone : ¬ (digits ≠ [] ∧ decimal digits < 0xFFFFFFFF) →
        decimal digits % 2 ^ 32 = 0xFFFFFFFF := by
      intro hnot
      have hno : ∀ size, ¬ Announces block size := by
        rintro size ⟨digits', hfield', hne, rfl, hlt⟩
        rw [← hfield.unique hfield'] at hne hlt
        exact hnot ⟨hne, hlt⟩
      rw [h.none hno, ← UInt32.toNat_inj, hmax, UInt32.toNat_ofNat'] at hvalue
      exact hvalue.symm
    refine ⟨fun hnil => ?_, ?_⟩
    · have := hnone fun hann => hann.1 hnil
      rw [hnil] at this
      cases this
    · by_cases hlt : decimal digits < 0xFFFFFFFF
      · exact .inl hlt
      · exact .inr (hnone fun hann => hlt hann.2)
  · intro h
    constructor
    · rintro size ⟨digits, hfield, -, rfl, hlt⟩
      have hsize : UInt32.size = 2 ^ 32 := rfl
      rw [getFileLen_of_field hlen hfield, UInt32.toNat_ofNat_of_lt' (by omega)]
    · intro hno
      by_cases hfield : ∃ digits, SizeField block digits
      · obtain ⟨digits, hfield⟩ := hfield
        obtain ⟨hne, hvalue⟩ := h digits hfield
        have hbig := hvalue.resolve_left fun hlt => hno _ ⟨digits, hfield, hne, rfl, hlt⟩
        rw [getFileLen_of_field hlen hfield, ← UInt32.toNat_inj, hmax, UInt32.toNat_ofNat']
        exact hbig
      · exact getFileLen_of_noField hlen fun digits hd => hfield ⟨digits, hd⟩

theorem parsesSize_iff_sample :
    ParsesSize oneByteFile.block.bytes ↔ ∀ digits, SizeField oneByteFile.block.bytes digits →
      digits ≠ [] ∧ (decimal digits < 0xFFFFFFFF ∨ decimal digits % 2 ^ 32 = 0xFFFFFFFF) :=
  parsesSize_iff oneByteFile.block.length_bytes

/-- The header of a file "a" that gives no size: it is read as the size 0. -/
theorem not_parsesSize_nameOnly :
    getFileLen (0x61 :: List.replicate 127 0) = 0 ∧
      ¬ ParsesSize (0x61 :: List.replicate 127 0) := by
  have hzero : getFileLen (0x61 :: List.replicate 127 0) = 0 := by decide +kernel
  refine ⟨hzero, fun h => ?_⟩
  have hfield : SizeField (0x61 :: List.replicate 127 0) [] :=
    ⟨[0x61], 0, List.replicate 125 0, rfl, by simp, by simp, rfl⟩
  have hno : ∀ size, ¬ Announces (0x61 :: List.replicate 127 0) size := by
    rintro size ⟨digits, hfield', hne, -, -⟩
    exact hne (hfield'.unique hfield)
  have := h.none hno
  rw [hzero] at this
  cases this

end McuUtilities.Ymodem
