import McuUtilities.Ymodem.Receive

/-!
# Packets of a conforming sender

`packet number data` is the frame that carries `data`; the receiver reads from it what was put in,
whatever an earlier frame left behind it in `recv_buf`. The first packet of a file carries a header
block: the name, a NUL, the size in decimal and a byte that is no digit.
-/

namespace McuUtilities.Ymodem

variable {header xs ys zs data residue : List UInt8} {i n size : Nat}

/-! ## Bytes of a frame -/

theorem bytesAt_eq (h : i + n ≤ header.length) : bytesAt header i n = (header.drop i).take n := by
  rw [bytesAt, slice_eq_iff]
  refine ⟨by simp; omega, fun j hj => ?_⟩
  have hj' : i + j < header.length := by omega
  simp [hj, hj']

/-- The bytes in the middle of a frame. -/
theorem bytesAt_append (hi : xs.length = i) (hn : ys.length = n) :
    bytesAt (xs ++ (ys ++ zs)) i n = ys := by
  rw [bytesAt_eq (by simp; omega), List.drop_left' hi, List.take_left' hn]

/-! ## Building packets -/

/-- The header byte for `data`. -/
def startByte (data : List UInt8) : UInt8 := if data.length = 128 then ySoh else yStx

/-- The two bytes of a CRC. -/
def crcBytes (crc : UInt16) : List UInt8 := [(crc >>> (8 : UInt16)).toUInt8, crc.toUInt8]

/-- The frame with the given number and data. -/
def packet (number : UInt8) (data : List UInt8) : List UInt8 :=
  [startByte data, number, 255 - number] ++ (data ++ crcBytes (ymodemCalcCrc data))

theorem joinCrcBytes (crc : UInt16) :
    (crc >>> (8 : UInt16)).toUInt8.toUInt16 <<< (8 : UInt16) ||| crc.toUInt8.toUInt16 = crc := by
  apply UInt16.toNat_inj.mp
  have h := crc.toNat_lt
  have hor : (crc.toNat / 256) <<< 8 ||| crc.toNat % 256 =
      (crc.toNat / 256) <<< 8 + crc.toNat % 256 :=
    (Nat.shiftLeft_add_eq_or_of_lt (by omega) _).symm
  have hhi : crc.toNat / 256 % 256 = crc.toNat / 256 := by omega
  have hmul : crc.toNat / 256 * 256 % 65536 = crc.toNat / 256 * 256 := by omega
  simp only [UInt16.toNat_or, UInt16.toNat_shiftLeft, UInt8.toNat_toUInt16, UInt16.toNat_toUInt8,
    UInt16.toNat_shiftRight, UInt16.reduceToNat, Nat.reduceMod, Nat.shiftRight_eq_div_pow,
    Nat.shiftLeft_eq, Nat.reducePow] at hor ⊢
  rw [hhi, hmul, hor]
  omega

section intact
variable {number : UInt8} (hsize : data.length = 128 ∨ data.length = 1024)
include hsize

theorem packetSize_packet : packetSize (packet number data ++ residue) = some data.length := by
  have h0 : (packet number data ++ residue).getD 0 0 = startByte data := rfl
  rw [packetSize, h0, startByte]
  rcases hsize with h | h <;> rw [h] <;> rfl

theorem startByte_packet (number : UInt8) (residue : List UInt8) : (packet number data ++ residue).getD 0 0 = ySoh ∨
    (packet number data ++ residue).getD 0 0 = yStx := by
  have h0 : (packet number data ++ residue).getD 0 0 = startByte data := rfl
  rw [h0, startByte]
  rcases hsize with h | h <;> rw [h]
  · exact .inl rfl
  · exact .inr rfl

omit hsize

theorem packetNumber_packet : packetNumber (packet number data ++ residue) = number := rfl

theorem packetData_packet :
    packetData (packet number data ++ residue) data.length = data := by
  rw [packetData, packet, List.append_assoc, List.append_assoc]
  exact bytesAt_append rfl rfl

theorem complementMatches_packet : complementMatches (packet number data ++ residue) = true := by
  have h : (packet number data ++ residue).getD yPacketNumberComplementIndex 0 = 255 - number := rfl
  have hle := number.toNat_lt
  have hsub : (255 - number).toNat = 255 - number.toNat := by
    rw [UInt8.toNat_sub_of_le _ _ (UInt8.le_iff_toNat_le.mpr (by simp; omega))]
    rfl
  rw [complementMatches, packetNumber_packet, h, hsub, decide_eq_true_eq]
  omega

theorem crcMatches_packet : crcMatches (packet number data ++ residue) data.length = true := by
  have h : ∀ j, (packet number data ++ residue).getD (yPacketDataIndex + data.length + j) 0 =
      (crcBytes (ymodemCalcCrc data) ++ residue).getD j 0 := by
    intro j
    have hlen : ([startByte data, number, 255 - number] ++ data).length + j =
        yPacketDataIndex + data.length + j := by
      simp only [List.length_append, List.length_cons, List.length_nil]
    rw [packet, ← List.append_assoc, List.append_assoc, ← hlen]
    simp only [List.getD_eq_getElem?_getD]
    rw [List.getElem?_append_right (Nat.le_add_right _ _), Nat.add_sub_cancel_left]
  have h0 := h 0
  have h1 := h 1
  rw [crcMatches, packetData_packet, decide_eq_true_eq]
  simp only [Nat.add_zero] at h0
  rw [h0, h1]
  exact (joinCrcBytes _).symm

/-- An intact packet passes all checks but that of its number. -/
theorem checkPacket_packet {expected : UInt8} :
    checkPacket (packet number data ++ residue) data.length expected =
      if expected = number then yOk else yErrorNumber := by
  rw [checkPacket, crcMatches_packet, complementMatches_packet, packetNumber_packet]
  by_cases h : expected = number
  · simp only [if_pos h]; rfl
  · simp only [if_neg h]; rfl

/-- The name is what stands before the first NUL. -/
theorem fileName_packet {name rest : List UInt8} (h : data = name ++ 0 :: rest)
    (hname : ∀ b ∈ name, b ≠ 0) :
    fileName (packet number data ++ residue) data.length = name := by
  have hall : ∀ b ∈ name, decide (b ≠ 0) = true := fun b hb => decide_eq_true (hname b hb)
  have hbytes : bytesAt (packet number data ++ residue) yPacketDataIndex
      (data.length + yPacketCrcSize) = data ++ crcBytes (ymodemCalcCrc data) := by
    rw [packet, List.append_assoc]
    exact bytesAt_append rfl (by simp [crcBytes])
  rw [fileName, hbytes]
  generalize crcBytes (ymodemCalcCrc data) = crc
  rw [h, List.append_assoc, List.takeWhile_append_of_pos hall]
  simp

end intact

/-! ## Header blocks -/

/-- The value of decimal digits. -/
def decimal (digits : List UInt8) : Nat := digits.foldl (fun v b => b.toNat - 0x30 + v * 10) 0

theorem foldl_digits {digits : List UInt8} (h : ∀ b ∈ digits, isDigit b = true) (v : Nat) :
    digits.foldl (fun len b => (b - 0x30).toUInt32 + len * 10) (UInt32.ofNat v) =
      UInt32.ofNat (digits.foldl (fun v b => b.toNat - 0x30 + v * 10) v) := by
  induction digits generalizing v with
  | nil => rfl
  | cons b digits ih =>
    have hb := h b List.mem_cons_self
    simp only [isDigit, Bool.and_eq_true, decide_eq_true_eq, UInt8.le_iff_toNat_le] at hb
    have hsub : (b - 0x30).toNat = b.toNat - 0x30 :=
      UInt8.toNat_sub_of_le _ _ (UInt8.le_iff_toNat_le.mpr hb.1)
    have hstep : (b - 0x30).toUInt32 + UInt32.ofNat v * 10 =
        UInt32.ofNat (b.toNat - 0x30 + v * 10) := by
      apply UInt32.toNat_inj.mp
      have htoUInt32 : (b - 0x30).toUInt32.toNat = b.toNat - 0x30 := hsub
      rw [UInt32.toNat_add, UInt32.toNat_mul, htoUInt32]
      simp
    rw [List.foldl_cons, List.foldl_cons, hstep, ih fun c hc => h c (List.mem_cons_of_mem _ hc)]

section fields
variable {name digits rest : List UInt8} {stop : UInt8} (hname : ∀ b ∈ name, b ≠ 0)
  (hdigits : ∀ b ∈ digits, isDigit b = true) (hstop : isDigit stop = false)

include hname in
/-- The first NUL ends the name. -/
theorem findIdx_name (tail : List UInt8) : (name ++ 0 :: tail).findIdx (· == 0) = name.length := by
  rw [List.findIdx_append, List.findIdx_eq_length_of_false (by simpa using hname)]
  simp [List.findIdx_cons]

theorem drop_name (name tail : List UInt8) : (name ++ 0 :: tail).drop (name.length + 1) = tail := by
  rw [List.drop_append]
  simp

include hdigits hstop in
theorem takeWhile_digits (rest : List UInt8) :
    (digits ++ stop :: rest).takeWhile isDigit = digits := by
  rw [List.takeWhile_append_of_pos hdigits, List.takeWhile_cons, hstop]
  simp

include hname hdigits hstop in
/-- `get_file_len` reads the digits behind the name, modulo the width of the counter. -/
theorem getFileLen_append (hlen : (name ++ 0 :: (digits ++ stop :: rest)).length = 128) :
    getFileLen (name ++ 0 :: (digits ++ stop :: rest)) = UInt32.ofNat (decimal digits) := by
  rw [getFileLen, List.take_of_length_le (Nat.le_of_eq hlen), findIdx_name hname, drop_name,
    takeWhile_digits hdigits hstop]
  simp only [List.length_append, List.length_cons] at hlen
  have h1 : ¬ 128 ≤ name.length + 1 := by omega
  have h2 : ¬ 128 ≤ name.length + 1 + digits.length := by omega
  simp only [if_neg h1, if_neg h2]
  exact foldl_digits hdigits 0

end fields

/-- A header block: the name, a NUL, the size in decimal, a byte that ends it. -/
structure HeaderBlock where
  name : List UInt8
  digits : List UInt8
  stop : UInt8
  rest : List UInt8
  name_ne_nil : name ≠ []
  name_le : name.length ≤ 49
  name_ne_zero : ∀ b ∈ name, b ≠ 0
  digits_ne_nil : digits ≠ []
  digits_isDigit : ∀ b ∈ digits, isDigit b = true
  stop_isDigit : isDigit stop = false
  length_eq : name.length + digits.length + rest.length + 2 = 128

namespace HeaderBlock
variable (b : HeaderBlock)

def bytes : List UInt8 := b.name ++ 0 :: (b.digits ++ b.stop :: b.rest)

theorem length_bytes : b.bytes.length = 128 := by
  have := b.length_eq
  simp [bytes]
  omega

theorem getFileLen_bytes : getFileLen b.bytes = UInt32.ofNat (decimal b.digits) :=
  getFileLen_append b.name_ne_zero b.digits_isDigit b.stop_isDigit b.length_bytes

theorem fileName_bytes {number : UInt8} :
    fileName (packet number b.bytes ++ residue) b.bytes.length = b.name :=
  fileName_packet rfl b.name_ne_zero

end HeaderBlock

end McuUtilities.Ymodem
