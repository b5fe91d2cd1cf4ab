import McuUtilities.Lib.Bytes
import McuUtilities.Lib.Store

/-!
# Constants and image header of the bootloader

The 96-byte header `fota_part_head` is kept as the bytes it has in flash; its members are read at
their offsets, little-endian.
-/

namespace McuUtilities.Fota

/-- `fota_err_t`. -/
inductive FotaErr where
  | noErr
  | generalErr
  | checkFailed
  | algoNotSupported
  | copyFailed
  | fwVerifyFailed
  | noMemErr
  | partReadErr
  | partWriteErr
  | partEraseErr
deriving DecidableEq, Repr

/-- `FOTA_FM_PART_NAME`: "main_mcu_temp". -/
def fotaFmPartName : List UInt8 :=
  [0x6d, 0x61, 0x69, 0x6e, 0x5f, 0x6d, 0x63, 0x75, 0x5f, 0x74, 0x65, 0x6d, 0x70]

/-- `FOTA_APP_PART_NAME`: "main_mcu_app". -/
def fotaAppPartName : List UInt8 :=
  [0x6d, 0x61, 0x69, 0x6e, 0x5f, 0x6d, 0x63, 0x75, 0x5f, 0x61, 0x70, 0x70]

/-- `FOTA_ROLLBACK_PART_NAME`: "main_mcu_rollback". -/
def fotaRollbackPartName : List UInt8 :=
  [0x6d, 0x61, 0x69, 0x6e, 0x5f, 0x6d, 0x63, 0x75, 0x5f, 0x72, 0x6f, 0x6c, 0x6c, 0x62, 0x61, 0x63,
    0x6b]

/-- `FOTA_ALGO_AES_IV`: "0123456789ABCDEF". -/
def fotaAlgoAesIv : List UInt8 :=
  [0x30, 0x31, 0x32, 0x33, 0x34, 0x35, 0x36, 0x37, 0x38, 0x39, 0x41, 0x42, 0x43, 0x44, 0x45, 0x46]

/-- `FOTA_ALGO_AES_KEY`: "0123456789ABCDEF0123456789ABCDEF". -/
def fotaAlgoAesKey : List UInt8 := fotaAlgoAesIv ++ fotaAlgoAesIv

/-- `FOTA_ALGO_BUFF_SIZE`, also `FOTA_CRC_BUFF_SIZE` and `THE_NOR_FLASH_GRANULARITY`. -/
abbrev fotaAlgoBuffSize : Nat := 4096

/-- `FOTA_CMPRS_BUFFER_SIZE`. -/
abbrev fotaCmprsBufferSize : Nat := 4096

/-- `FOTA_BLOCK_HEADER_SIZE`. -/
abbrev fotaBlockHeaderSize : Nat := 4

/-- `FOTA_FASTLZ_BUFFER_PADDING`. -/
abbrev fotaFastlzBufferPadding : Nat := 66 + fotaCmprsBufferSize * 5 / 100

/-- `FOTA_QUICKLZ_BUFFER_PADDING`. -/
abbrev fotaQuicklzBufferPadding : Nat := 400

/-- `APP_HEADER_LEN`. -/
abbrev appHeaderLen : Nat := 0x200

/-- `sizeof(fota_part_head)`. -/
abbrev sizeofHead : Nat := 96

/-- Wrap-around of `uint32_t` arithmetic. -/
abbrev u32 (n : Nat) : Nat := n % 2 ^ 32

/-! ## Members of `fota_part_head` -/

namespace Head
variable (h : List UInt8)

/-- The `n` bytes of the header at offset `off`. -/
def field (off n : Nat) : List UInt8 := (h.drop off).take n

/-- `fota_algo & FOTA_CRYPT_STAT_MASK`. -/
def cryptAlgo : Nat := leNat (field h 4 2) &&& 0xF

/-- `fota_algo & FOTA_CMPRS_STAT_MASK`. -/
def cmprsAlgo : Nat := leNat (field h 4 2) &&& 0xF00

/-- `type`, as a C string: up to the end of the header. -/
def type : List UInt8 := h.drop 0

/-- `app_part_name`, as a C string: up to the end of the header. -/
def appPartName : List UInt8 := h.drop 12

/-- `download_version`, as a C string: up to the end of the header. -/
def downloadVersion : List UInt8 := h.drop 28

/-- `current_version`, as a C string: up to the end of the header. -/
def currentVersion : List UInt8 := h.drop 52

def codeCrc : UInt32 := UInt32.ofNat (leNat (field h 76 4))

def hashVal : UInt32 := UInt32.ofNat (leNat (field h 80 4))

def rawSize : Nat := leNat (field h 84 4)

def comSize : Nat := leNat (field h 88 4)

def headCrc : UInt32 := UInt32.ofNat (leNat (field h 92 4))

end Head

/-- `FOTA_CRYPT_ALGO_XOR`. -/
abbrev fotaCryptAlgoXor : Nat := 0x1
/-- `FOTA_CRYPT_ALGO_AES256`. -/
abbrev fotaCryptAlgoAes256 : Nat := 0x2
/-- `FOTA_CMPRS_ALGO_GZIP`. -/
abbrev fotaCmprsAlgoGzip : Nat := 0x100
/-- `FOTA_CMPRS_ALGO_QUICKLZ`. -/
abbrev fotaCmprsAlgoQuicklz : Nat := 0x200
/-- `FOTA_CMPRS_ALGO_FASTLZ`. -/
abbrev fotaCmprsAlgoFastlz : Nat := 0x300

theorem Head.length_field {h : List UInt8} {off n : Nat} : (Head.field h off n).length ≤ n := by
  simp only [Head.field, List.length_take]; omega

theorem Head.leNat_field_lt {h : List UInt8} {off : Nat} : leNat (Head.field h off 4) < 2 ^ 32 :=
  calc leNat (Head.field h off 4) < 256 ^ (Head.field h off 4).length := leNat_lt
    _ ≤ 256 ^ 4 := Nat.pow_le_pow_right (by decide) Head.length_field
    _ = 2 ^ 32 := by decide

theorem Head.rawSize_lt {h : List UInt8} : Head.rawSize h < 2 ^ 32 := Head.leNat_field_lt

end McuUtilities.Fota
