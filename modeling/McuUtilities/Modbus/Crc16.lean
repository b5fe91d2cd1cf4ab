import McuUtilities.Lib.Access
import McuUtilities.Lib.Crc

/-!
# The CRC-16 of Modbus frames

`calculate_crc16` (`crc16.c`) and `usMBCRC16` (`mbcrc.c`), each with its two tables of 256 half words.
The first keeps the two halves of the register in 16-bit variables, which never leave 8 bits
(`returns_calculateCrc16`). Both compute the reflected CRC with polynomial `0xA001`.
-/

namespace McuUtilities.Modbus

/-! ## Tables -/

/-- `chCRCHTalbe`. -/
@[irreducible] def chCRCHTalbe : List UInt8 := [
  0x00, 0xC1, 0x81, 0x40, 0x01, 0xC0, 0x80, 0x41, 0x01, 0xC0, 0x80, 0x41, 0x00, 0xC1, 0x81, 0x40,
  0x01, 0xC0, 0x80, 0x41, 0x00, 0xC1, 0x81, 0x40, 0x00, 0xC1, 0x81, 0x40, 0x01, 0xC0, 0x80, 0x41,
  0x01, 0xC0, 0x80, 0x41, 0x00, 0xC1, 0x81, 0x40, 0x00, 0xC1, 0x81, 0x40, 0x01, 0xC0, 0x80, 0x41,
  0x00, 0xC1, 0x81, 0x40, 0x01, 0xC0, 0x80, 0x41, 0x01, 0xC0, 0x80, 0x41, 0x00, 0xC1, 0x81, 0x40,
  0x01, 0xC0, 0x80, 0x41, 0x00, 0xC1, 0x81, 0x40, 0x00, 0xC1, 0x81, 0x40, 0x01, 0xC0, 0x80, 0x41,
  0x00, 0xC1, 0x81, 0x40, 0x01, 0xC0, 0x80, 0x41, 0x01, 0xC0, 0x80, 0x41, 0x00, 0xC1, 0x81, 0x40,
  0x00, 0xC1, 0x81, 0x40, 0x01, 0xC0, 0x80, 0x41, 0x01, 0xC0, 0x80, 0x41, 0x00, 0xC1, 0x81, 0x40,
  0x01, 0xC0, 0x80, 0x41, 0x00, 0xC1, 0x81, 0x40, 0x00, 0xC1, 0x81, 0x40, 0x01, 0xC0, 0x80, 0x41,
  0x01, 0xC0, 0x80, 0x41, 0x00, 0xC1, 0x81, 0x40, 0x00, 0xC1, 0x81, 0x40, 0x01, 0xC0, 0x80, 0x41,
  0x00, 0xC1, 0x81, 0x40, 0x01, 0xC0, 0x80, 0x41, 0x01, 0xC0, 0x80, 0x41, 0x00, 0xC1, 0x81, 0x40,
  0x00, 0xC1, 0x81, 0x40, 0x01, 0xC0, 0x80, 0x41, 0x01, 0xC0, 0x80, 0x41, 0x00, 0xC1, 0x81, 0x40,
  0x01, 0xC0, 0x80, 0x41, 0x00, 0xC1, 0x81, 0x40, 0x00, 0xC1, 0x81, 0x40, 0x01, 0xC0, 0x80, 0x41,
  0x00, 0xC1, 0x81, 0x40, 0x01, 0xC0, 0x80, 0x41, 0x01, 0xC0, 0x80, 0x41, 0x00, 0xC1, 0x81, 0x40,
  0x01, 0xC0, 0x80, 0x41, 0x00, 0xC1, 0x81, 0x40, 0x00, 0xC1, 0x81, 0x40, 0x01, 0xC0, 0x80, 0x41,
  0x01, 0xC0, 0x80, 0x41, 0x00, 0xC1, 0x81, 0x40, 0x00, 0xC1, 0x81, 0x40, 0x01, 0xC0, 0x80, 0x41,
  0x00, 0xC1, 0x81, 0x40, 0x01, 0xC0, 0x80, 0x41, 0x01, 0xC0, 0x80, 0x41, 0x00, 0xC1, 0x81, 0x40]

/-- `chCRCLTalbe`. -/
@[irreducible] def chCRCLTalbe : List UInt8 := [
  0x00, 0xC0, 0xC1, 0x01, 0xC3, 0x03, 0x02, 0xC2, 0xC6, 0x06, 0x07, 0xC7, 0x05, 0xC5, 0xC4, 0x04,
  0xCC, 0x0C, 0x0D, 0xCD, 0x0F, 0xCF, 0xCE, 0x0E, 0x0A, 0xCA, 0xCB, 0x0B, 0xC9, 0x09, 0x08, 0xC8,
  0xD8, 0x18, 0x19, 0xD9, 0x1B, 0xDB, 0xDA, 0x1A, 0x1E, 0xDE, 0xDF, 0x1F, 0xDD, 0x1D, 0x1C, 0xDC,
  0x14, 0xD4, 0xD5, 0x15, 0xD7, 0x17, 0x16, 0xD6, 0xD2, 0x12, 0x13, 0xD3, 0x11, 0xD1, 0xD0, 0x10,
  0xF0, 0x30, 0x31, 0xF1, 0x33, 0xF3, 0xF2, 0x32, 0x36, 0xF6, 0xF7, 0x37, 0xF5, 0x35, 0x34, 0xF4,
  0x3C, 0xFC, 0xFD, 0x3D, 0xFF, 0x3F, 0x3E, 0xFE, 0xFA, 0x3A, 0x3B, 0xFB, 0x39, 0xF9, 0xF8, 0x38,
  0x28, 0xE8, 0xE9, 0x29, 0xEB, 0x2B, 0x2A, 0xEA, 0xEE, 0x2E, 0x2F, 0xEF, 0x2D, 0xED, 0xEC, 0x2C,
  0xE4, 0x24, 0x25, 0xE5, 0x27, 0xE7, 0xE6, 0x26, 0x22, 0xE2, 0xE3, 0x23, 0xE1, 0x21, 0x20, 0xE0,
  0xA0, 0x60, 0x61, 0xA1, 0x63, 0xA3, 0xA2, 0x62, 0x66, 0xA6, 0xA7, 0x67, 0xA5, 0x65, 0x64, 0xA4,
  0x6C, 0xAC, 0xAD, 0x6D, 0xAF, 0x6F, 0x6E, 0xAE, 0xAA, 0x6A, 0x6B, 0xAB, 0x69, 0xA9, 0xA8, 0x68,
  0x78, 0xB8, 0xB9, 0x79, 0xBB, 0x7B, 0x7A, 0xBA, 0xBE, 0x7E, 0x7F, 0xBF, 0x7D, 0xBD, 0xBC, 0x7C,
  0xB4, 0x74, 0x75, 0xB5, 0x77, 0xB7, 0xB6, 0x76, 0x72, 0xB2, 0xB3, 0x73, 0xB1, 0x71, 0x70, 0xB0,
  0x50, 0x90, 0x91, 0x51, 0x93, 0x53, 0x52, 0x92, 0x96, 0x56, 0x57, 0x97, 0x55, 0x95, 0x94, 0x54,
  0x9C, 0x5C, 0x5D, 0x9D, 0x5F, 0x9F, 0x9E, 0x5E, 0x5A, 0x9A, 0x9B, 0x5B, 0x99, 0x59, 0x58, 0x98,
  0x88, 0x48, 0x49, 0x89, 0x4B, 0x8B, 0x8A, 0x4A, 0x4E, 0x8E, 0x8F, 0x4F, 0x8D, 0x4D, 0x4C, 0x8C,
  0x44, 0x84, 0x85, 0x45, 0x87, 0x47, 0x46, 0x86, 0x82, 0x42, 0x43, 0x83, 0x41, 0x81, 0x80, 0x40]

/-- `aucCRCHi`. -/
@[irreducible] def aucCRCHi : List UInt8 := [
  0x00, 0xC1, 0x81, 0x40, 0x01, 0xC0, 0x80, 0x41, 0x01, 0xC0, 0x80, 0x41, 0x00, 0xC1, 0x81, 0x40,
  0x01, 0xC0, 0x80, 0x41, 0x00, 0xC1, 0x81, 0x40, 0x00, 0xC1, 0x81, 0x40, 0x01, 0xC0, 0x80, 0x41,
  0x01, 0xC0, 0x80, 0x41, 0x00, 0xC1, 0x81, 0x40, 0x00, 0xC1, 0x81, 0x40, 0x01, 0xC0, 0x80, 0x41,
  0x00, 0xC1, 0x81, 0x40, 0x01, 0xC0, 0x80, 0x41, 0x01, 0xC0, 0x80, 0x41, 0x00, 0xC1, 0x81, 0x40,
  0x01, 0xC0, 0x80, 0x41, 0x00, 0xC1, 0x81, 0x40, 0x00, 0xC1, 0x81, 0x40, 0x01, 0xC0, 0x80, 0x41,
  0x00, 0xC1, 0x81, 0x40, 0x01, 0xC0, 0x80, 0x41, 0x01, 0xC0, 0x80, 0x41, 0x00, 0xC1, 0x81, 0x40,
  0x00, 0xC1, 0x81, 0x40, 0x01, 0xC0, 0x80, 0x41, 0x01, 0xC0, 0x80, 0x41, 0x00, 0xC1, 0x81, 0x40,
  0x01, 0xC0, 0x80, 0x41, 0x00, 0xC1, 0x81, 0x40, 0x00, 0xC1, 0x81, 0x40, 0x01, 0xC0, 0x80, 0x41,
  0x01, 0xC0, 0x80, 0x41, 0x00, 0xC1, 0x81, 0x40, 0x00, 0xC1, 0x81, 0x40, 0x01, 0xC0, 0x80, 0x41,
  0x00, 0xC1, 0x81, 0x40, 0x01, 0xC0, 0x80, 0x41, 0x01, 0xC0, 0x80, 0x41, 0x00, 0xC1, 0x81, 0x40,
  0x00, 0xC1, 0x81, 0x40, 0x01, 0xC0, 0x80, 0x41, 0x01, 0xC0, 0x80, 0x41, 0x00, 0xC1, 0x81, 0x40,
  0x01, 0xC0, 0x80, 0x41, 0x00, 0xC1, 0x81, 0x40, 0x00, 0xC1, 0x81, 0x40, 0x01, 0xC0, 0x80, 0x41,
  0x00, 0xC1, 0x81, 0x40, 0x01, 0xC0, 0x80, 0x41, 0x01, 0xC0, 0x80, 0x41, 0x00, 0xC1, 0x81, 0x40,
  0x01, 0xC0, 0x80, 0x41, 0x00, 0xC1, 0x81, 0x40, 0x00, 0xC1, 0x81, 0x40, 0x01, 0xC0, 0x80, 0x41,
  0x01, 0xC0, 0x80, 0x41, 0x00, 0xC1, 0x81, 0x40, 0x00, 0xC1, 0x81, 0x40, 0x01, 0xC0, 0x80, 0x41,
  0x00, 0xC1, 0x81, 0x40, 0x01, 0xC0, 0x80, 0x41, 0x01, 0xC0, 0x80, 0x41, 0x00, 0xC1, 0x81, 0x40]

/-- `aucCRCLo`. -/
@[irreducible] def aucCRCLo : List UInt8 := [
  0x00, 0xC0, 0xC1, 0x01, 0xC3, 0x03, 0x02, 0xC2, 0xC6, 0x06, 0x07, 0xC7, 0x05, 0xC5, 0xC4, 0x04,
  0xCC, 0x0C, 0x0D, 0xCD, 0x0F, 0xCF, 0xCE, 0x0E, 0x0A, 0xCA, 0xCB, 0x0B, 0xC9, 0x09, 0x08, 0xC8,
  0xD8, 0x18, 0x19, 0xD9, 0x1B, 0xDB, 0xDA, 0x1A, 0x1E, 0xDE, 0xDF, 0x1F, 0xDD, 0x1D, 0x1C, 0xDC,
  0x14, 0xD4, 0xD5, 0x15, 0xD7, 0x17, 0x16, 0xD6, 0xD2, 0x12, 0x13, 0xD3, 0x11, 0xD1, 0xD0, 0x10,
  0xF0, 0x30, 0x31, 0xF1, 0x33, 0xF3, 0xF2, 0x32, 0x36, 0xF6, 0xF7, 0x37, 0xF5, 0x35, 0x34, 0xF4,
  0x3C, 0xFC, 0xFD, 0x3D, 0xFF, 0x3F, 0x3E, 0xFE, 0xFA, 0x3A, 0x3B, 0xFB, 0x39, 0xF9, 0xF8, 0x38,
  0x28, 0xE8, 0xE9, 0x29, 0xEB, 0x2B, 0x2A, 0xEA, 0xEE, 0x2E, 0x2F, 0xEF, 0x2D, 0xED, 0xEC, 0x2C,
  0xE4, 0x24, 0x25, 0xE5, 0x27, 0xE7, 0xE6, 0x26, 0x22, 0xE2, 0xE3, 0x23, 0xE1, 0x21, 0x20, 0xE0,
  0xA0, 0x60, 0x61, 0xA1, 0x63, 0xA3, 0xA2, 0x62, 0x66, 0xA6, 0xA7, 0x67, 0xA5, 0x65, 0x64, 0xA4,
  0x6C, 0xAC, 0xAD, 0x6D, 0xAF, 0x6F, 0x6E, 0xAE, 0xAA, 0x6A, 0x6B, 0xAB, 0x69, 0xA9, 0xA8, 0x68,
  0x78, 0xB8, 0xB9, 0x79, 0xBB, 0x7B, 0x7A, 0xBA, 0xBE, 0x7E, 0x7F, 0xBF, 0x7D, 0xBD, 0xBC, 0x7C,
  0xB4, 0x74, 0x75, 0xB5, 0x77, 0xB7, 0xB6, 0x76, 0x72, 0xB2, 0xB3, 0x73, 0xB1, 0x71, 0x70, 0xB0,
  0x50, 0x90, 0x91, 0x51, 0x93, 0x53, 0x52, 0x92, 0x96, 0x56, 0x57, 0x97, 0x55, 0x95, 0x94, 0x54,
  0x9C, 0x5C, 0x5D, 0x9D, 0x5F, 0x9F, 0x9E, 0x5E, 0x5A, 0x9A, 0x9B, 0x5B, 0x99, 0x59, 0x58, 0x98,
  0x88, 0x48, 0x49, 0x89, 0x4B, 0x8B, 0x8A, 0x4A, 0x4E, 0x8E, 0x8F, 0x4F, 0x8D, 0x4D, 0x4C, 0x8C,
  0x44, 0x84, 0x85, 0x45, 0x87, 0x47, 0x46, 0x86, 0x82, 0x42, 0x43, 0x83, 0x41, 0x81, 0x80, 0x40]

/-- A table access. -/
def lookup (table : List UInt8) (i : Nat) : Logged Nat UInt8 :=
  Logged.access i (decide (i < table.length)) (table.getD i 0)

/-! ## The functions -/

/-- One round of the loop of `calculate_crc16`: `chCRCHi` and `chCRCLo`. -/
def calculateCrc16Step (s : UInt16 × UInt16) (b : UInt8) : Logged Nat (UInt16 × UInt16) := do
  let wIndex := s.2 ^^^ b.toUInt16
  let chCRCLo := s.1 ^^^ (← lookup chCRCHTalbe wIndex.toNat).toUInt16
  let chCRCHi := (← lookup chCRCLTalbe wIndex.toNat).toUInt16
  pure (chCRCHi, chCRCLo)

/-- `calculate_crc16(crc_buf, crc_count)`, with the table indices it forms. -/
def calculateCrc16 (crcBuf : List UInt8) (crcCount : UInt8) : Logged Nat UInt16 := do
  let s ← (crcBuf.take crcCount.toNat).foldlM calculateCrc16Step (0xFF, 0xFF)
  pure (s.1 <<< 8 ||| s.2)

/-- One round of the loop of `usMBCRC16`: `ucCRCHi` and `ucCRCLo`. -/
def usMBCRC16Step (s : UInt8 × UInt8) (b : UInt8) : Logged Nat (UInt8 × UInt8) := do
  let iIndex := (s.2 ^^^ b).toNat
  let ucCRCLo := s.1 ^^^ (← lookup aucCRCHi iIndex)
  let ucCRCHi ← lookup aucCRCLo iIndex
  pure (ucCRCHi, ucCRCLo)

/-- `usMBCRC16(pucFrame, usLen)`, with the table indices it forms. -/
def usMBCRC16 (pucFrame : List UInt8) (usLen : UInt16) : Logged Nat UInt16 := do
  let s ← (pucFrame.take usLen.toNat).foldlM usMBCRC16Step (0xFF, 0xFF)
  pure (s.1.toUInt16 <<< 8 ||| s.2.toUInt16)

/-- The bit-serial CRC-16 with the reflected polynomial `0xA001` that starts from `0xFFFF`. -/
def bitwiseCrc16 (buf : List UInt8) : UInt16 :=
  ⟨crcBits 0xA001#16 0xFFFF#16 (buf.flatMap fun b => lowBits b.toBitVec)⟩

/-- The two bytes of a CRC, the low one first. -/
def lowFirst (crc : UInt16) : List UInt8 := [crc.toUInt8, (crc >>> 8).toUInt8]

/-! ## One byte -/

/-- The high and the low half of a register. -/
def halves (c : BitVec 16) : UInt8 × UInt8 := (⟨(c >>> 8).setWidth 8⟩, ⟨c.setWidth 8⟩)

/-- The tables hold the halves of the remainders of single bytes. -/
theorem zip_tables : (List.range 256).map (fun n => halves (crcTable 0xA001#16 (BitVec.ofNat 8 n))) =
    chCRCLTalbe.zip chCRCHTalbe := by decide +kernel

theorem halves_crcTable (i : UInt8) :
    halves (crcTable 0xA001#16 i.toBitVec) =
      (chCRCLTalbe.getD i.toNat 0, chCRCHTalbe.getD i.toNat 0) := by
  have hi : BitVec.ofNat 8 i.toNat = i.toBitVec := BitVec.eq_of_toNat_eq (by simp)
  have h : (chCRCLTalbe.zip chCRCHTalbe)[i.toNat]? = some (halves (crcTable 0xA001#16 i.toBitVec)) := by
    rw [← zip_tables, List.getElem?_map, List.getElem?_range i.toNat_lt, Option.map_some, hi]
  obtain ⟨hl, hh⟩ := List.getElem?_zip_eq_some.mp h
  rw [List.getD_eq_getElem?_getD, List.getD_eq_getElem?_getD, hl, hh]
  rfl

theorem aucCRCHi_eq : aucCRCHi = chCRCHTalbe := by decide +kernel

theorem aucCRCLo_eq : aucCRCLo = chCRCLTalbe := by decide +kernel

theorem length_chCRCHTalbe : chCRCHTalbe.length = 256 := by decide +kernel

theorem length_chCRCLTalbe : chCRCLTalbe.length = 256 := by decide +kernel

/-- The register after one more byte. -/
def takeByte (c : BitVec 16) (b : UInt8) : BitVec 16 := crcByte 0xA001#16 c b.toBitVec

variable {c : BitVec 16} {b : UInt8} {buf : List UInt8}

theorem halves_takeByte :
    halves (takeByte c b) = (chCRCLTalbe.getD ((halves c).2 ^^^ b).toNat 0,
      (halves c).1 ^^^ chCRCHTalbe.getD ((halves c).2 ^^^ b).toNat 0) := by
  have hindex : (c ^^^ b.toBitVec.setWidth 16).setWidth 8 = ((halves c).2 ^^^ b).toBitVec := by
    rw [BitVec.setWidth_xor, BitVec.setWidth_setWidth_of_le _ (by decide), BitVec.setWidth_eq,
      UInt8.toBitVec_xor]
    rfl
  have htable := halves_crcTable ((halves c).2 ^^^ b)
  have hhigh : ((c >>> 8) >>> 8).setWidth 8 = 0#8 := by
    apply BitVec.eq_of_getLsbD_eq
    intro i _
    have hi : 16 ≤ 8 + (8 + i) := by omega
    rw [BitVec.getLsbD_setWidth, BitVec.getLsbD_ushiftRight, BitVec.getLsbD_ushiftRight,
      BitVec.getLsbD_of_ge c _ hi, Bool.and_false, BitVec.getLsbD_zero]
  rw [takeByte, crcByte_eq_table, hindex]
  generalize crcTable 0xA001#16 ((halves c).2 ^^^ b).toBitVec = r at htable
  obtain ⟨hhi, hlo⟩ := Prod.mk.inj htable
  rw [← hhi, ← hlo]
  refine Prod.ext ?_ ?_ <;> apply UInt8.toBitVec_inj.mp
  · change ((c >>> 8 ^^^ r) >>> 8).setWidth 8 = (r >>> 8).setWidth 8
    rw [BitVec.ushiftRight_xor_distrib, BitVec.setWidth_xor, hhigh, BitVec.zero_xor]
  · change (c >>> 8 ^^^ r).setWidth 8 = (c >>> 8).setWidth 8 ^^^ r.setWidth 8
    rw [BitVec.setWidth_xor]

theorem returns_lookup {table : List UInt8} {i : UInt8} (h : table.length = 256) :
    Logged.Returns (lookup table i.toNat) (table.getD i.toNat 0) (· < 256) :=
  Logged.returns_access (decide_eq_true (h ▸ i.toNat_lt)) i.toNat_lt

theorem returns_usMBCRC16Step :
    Logged.Returns (usMBCRC16Step (halves c) b) (halves (takeByte c b)) (· < 256) := by
  rw [halves_takeByte, usMBCRC16Step, aucCRCHi_eq, aucCRCLo_eq]
  exact (returns_lookup length_chCRCHTalbe).bind
    ((returns_lookup length_chCRCLTalbe).bind Logged.returns_pure)

/-- The register of `calculate_crc16`, in 16-bit variables. -/
def wideHalves (c : BitVec 16) : UInt16 × UInt16 := ((halves c).1.toUInt16, (halves c).2.toUInt16)

theorem returns_calculateCrc16Step :
    Logged.Returns (calculateCrc16Step (wideHalves c) b) (wideHalves (takeByte c b)) (· < 256) := by
  have hindex : ((halves c).2.toUInt16 ^^^ b.toUInt16).toNat = ((halves c).2 ^^^ b).toNat := by
    rw [← UInt8.toUInt16_xor, UInt8.toNat_toUInt16]
  rw [wideHalves, wideHalves, halves_takeByte, UInt8.toUInt16_xor, calculateCrc16Step]
  simp only [hindex]
  exact (returns_lookup length_chCRCHTalbe).bind
    ((returns_lookup length_chCRCLTalbe).bind Logged.returns_pure)

/-! ## Buffers -/

theorem append_halves : (halves c).1.toBitVec ++ (halves c).2.toBitVec = c :=
  high_append_low (n := 8) (m := 8) c

theorem join_halves : (halves c).1.toUInt16 <<< 8 ||| (halves c).2.toUInt16 = ⟨c⟩ := by
  apply UInt16.toBitVec_inj.mp
  refine Eq.trans ?_ append_halves
  rw [BitVec.append_def, BitVec.shiftLeftZeroExtend_eq, BitVec.setWidth'_eq, UInt16.toBitVec_or]
  rfl

theorem bitwiseCrc16_eq : bitwiseCrc16 buf = ⟨buf.foldl takeByte 0xFFFF#16⟩ := by
  rw [bitwiseCrc16, crcBits_flatMap_lowBits (by decide), crcBytes, List.foldl_map]
  rfl

theorem returns_calculateCrc16 (h : buf.length < 2 ^ 8) :
    Logged.Returns (calculateCrc16 buf (UInt8.ofNat buf.length)) (bitwiseCrc16 buf) (· < 256) := by
  rw [calculateCrc16, UInt8.toNat_ofNat_of_lt' h, List.take_length, bitwiseCrc16_eq, ← join_halves]
  exact (Logged.returns_foldlM_of wideHalves (fun _ _ _ => returns_calculateCrc16Step) 0xFFFF#16).bind
    Logged.returns_pure

theorem returns_usMBCRC16 (h : buf.length < 2 ^ 16) :
    Logged.Returns (usMBCRC16 buf (UInt16.ofNat buf.length)) (bitwiseCrc16 buf) (· < 256) := by
  rw [usMBCRC16, UInt16.toNat_ofNat_of_lt' h, List.take_length, bitwiseCrc16_eq, ← join_halves]
  exact (Logged.returns_foldlM_of halves (fun _ _ _ => returns_usMBCRC16Step) 0xFFFF#16).bind
    Logged.returns_pure

/-- A buffer followed by its CRC has CRC zero. -/
theorem bitwiseCrc16_append_lowFirst : bitwiseCrc16 (buf ++ lowFirst (bitwiseCrc16 buf)) = 0 := by
  have hcrc : (lowFirst (bitwiseCrc16 buf)).flatMap (fun b => lowBits b.toBitVec) =
      lowBits (bitwiseCrc16 buf).toBitVec := by
    conv => rhs; rw [← append_halves (c := (bitwiseCrc16 buf).toBitVec), lowBits_append]
    simp [lowFirst]
    rfl
  apply UInt16.toBitVec_inj.mp
  change crcBits _ _ _ = 0#16
  rw [List.flatMap_append, crcBits_append, hcrc]
  exact crcBits_self

/-- The table-driven CRC-16 is the bit-serial one and that of the protocol stack, forms no index past
its tables, and a frame with its CRC has CRC zero. -/
theorem calculateCrc16_correct (buf : List UInt8) (h : buf.length ≤ 255) :
    Logged.Returns (calculateCrc16 buf (UInt8.ofNat buf.length)) (bitwiseCrc16 buf) (· < 256) ∧
      Logged.Returns (usMBCRC16 buf (UInt16.ofNat buf.length)) (bitwiseCrc16 buf) (· < 256) ∧
      (buf.length ≤ 253 → Logged.Returns (calculateCrc16 (buf ++ lowFirst (bitwiseCrc16 buf))
        (UInt8.ofNat (buf ++ lowFirst (bitwiseCrc16 buf)).length)) 0 (· < 256)) := by
  refine ⟨returns_calculateCrc16 (by omega), returns_usMBCRC16 (by omega), fun hshort => ?_⟩
  have hlen : (lowFirst (bitwiseCrc16 buf)).length = 2 := rfl
  have hlt : (buf ++ lowFirst (bitwiseCrc16 buf)).length < 2 ^ 8 := by
    rw [List.length_append, hlen]
    omega
  have hzero := returns_calculateCrc16 hlt
  rwa [bitwiseCrc16_append_lowFirst] at hzero

theorem calculateCrc16_correct_request :
    Logged.Returns (calculateCrc16 [1, 3, 0, 0, 0, 1] 6) 0x0A84 (· < 256) ∧
      Logged.Returns (usMBCRC16 [1, 3, 0, 0, 0, 1] 6) 0x0A84 (· < 256) ∧
      Logged.Returns (calculateCrc16 [1, 3, 0, 0, 0, 1, 0x84, 0x0A] 8) 0 (· < 256) := by
  have hcrc : bitwiseCrc16 [1, 3, 0, 0, 0, 1] = 0x0A84 := by decide +kernel
  have h := calculateCrc16_correct [1, 3, 0, 0, 0, 1] (by decide)
  rw [hcrc] at h
  exact ⟨h.1, h.2.1, h.2.2 (by decide)⟩

end McuUtilities.Modbus
