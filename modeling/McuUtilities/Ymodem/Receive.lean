import Mathlib.Algebra.Ring.Nat
import Mathlib.Logic.Function.Iterate
import McuUtilities.Lib.Machine
import McuUtilities.Lib.Store

/-!
# The YMODEM receiver (`ymodem.c`)

`ymodem_receive` waits for what `get_receive_data` returns, a time-out or a received frame, and
answers it: it calls the user's callbacks and sends bytes to the other side. It is modelled as a
machine whose inputs are these returns and whose outputs are the calls it makes. `file_ptr` is NULL
throughout and left out.
-/

namespace McuUtilities.Ymodem

abbrev yProtFrameLenRecv : Nat := 1100
abbrev yMayErrors : UInt8 := 10
abbrev yPacketNumberIndex : Nat := 1
abbrev yPacketNumberComplementIndex : Nat := 2
abbrev yPacketDataIndex : Nat := 3
abbrev yPacketCrcSize : Nat := 2

/-- `sizeof(file_name)`, of the name in `ymodem_handle_packet`. -/
abbrev fileNameSize : Nat := 50

abbrev ySoh : UInt8 := 0x01
abbrev yStx : UInt8 := 0x02
abbrev yEot : UInt8 := 0x04
abbrev yAck : UInt8 := 0x06
abbrev yNak : UInt8 := 0x15
abbrev yCan : UInt8 := 0x18
abbrev yC : UInt8 := 0x43

/-! `ymodem_status` is built up with `|=`, so it is kept as a number. -/

abbrev yOk : UInt8 := 0x00
abbrev yErrorCrc : UInt8 := 0x01
abbrev yErrorNumber : UInt8 := 0x02
abbrev yErrorFlash : UInt8 := 0x06
abbrev yEoy : UInt8 := 0x07
abbrev yError : UInt8 := 0xFF

/-- The length `file_len` has when none was announced. -/
abbrev yNoLength : UInt32 := 0xFFFFFFFF

/-- What `get_receive_data` returns: -1, or 0 with `recv_buf`, of which the bytes up to the last
nonzero one are enough. -/
inductive Input where
  | timeout
  | data (recvBuf : List UInt8)

/-- A call `ymodem_receive` makes. -/
inductive Action where
  | transmitCh (ch : UInt8)
  | receiveNanmeSize (fileName : List UInt8) (fileSize : UInt32)
  | receiveFileData (fileData : List UInt8)
  | receiveFile
deriving DecidableEq, Repr

/-- The callbacks of the user, over a state of his own. -/
structure Callbacks (κ : Type) where
  receiveNanmeSizeCallback : List UInt8 → UInt32 → κ → Int × κ
  receiveFileDataCallback : List UInt8 → κ → Int × κ
  receiveFileCallback : κ → κ

/-- Callbacks that keep nothing. -/
def silentCallbacks : Callbacks Unit := ⟨fun _ _ _ => (0, ()), fun _ _ => (0, ()), fun _ => ()⟩

/-- The static data of `ymodem.c` and the locals of `ymodem_receive`. -/
structure Receiver (κ : Type) where
  /-- `y_first_packet_received` is `Y_IS_PACKET`. -/
  yFirstPacketReceived : Bool
  ymodemPacketNumber : UInt8
  ymodemFileNumber : UInt16
  fileLen : UInt32
  errorNumber : UInt8
  eotNum : UInt8
  app : κ

variable {κ : Type}

/-! ## Checksum and lengths -/

/-- One round of the inner loop of `ymodem_calc_crc`. -/
def calcCrcBit (crc : UInt16) : UInt16 :=
  if crc &&& 0x8000 ≠ 0 then (crc <<< 1) ^^^ 0x1021 else crc <<< 1

/-- `ymodem_calc_crc(data, length)` over the bytes of `data`. -/
def ymodemCalcCrc (data : List UInt8) : UInt16 :=
  data.foldl (fun crc b => Nat.iterate calcCrcBit 8 (crc ^^^ b.toUInt16 <<< (8 : UInt16))) 0

/-- `get_active_length(data, len)`. -/
def getActiveLength (data : List UInt8) : Nat → Nat
  | 0 => 0
  | len + 1 => if data.getD len 0 = 0x1A then getActiveLength data len else len + 1

/-- The byte is a decimal digit. -/
def isDigit (b : UInt8) : Bool := 0x30 ≤ b && b ≤ 0x39

/-- `get_file_len(data)`: the decimal number after the first NUL, if it ends within the block. -/
def getFileLen (data : List UInt8) : UInt32 :=
  let block := data.take 128
  let index := block.findIdx (· == 0) + 1
  if 128 ≤ index then yNoLength
  else
    let digits := (block.drop index).takeWhile isDigit
    if 128 ≤ index + digits.length then yNoLength
    else digits.foldl (fun len b => (b - 0x30).toUInt32 + len * 10) 0

/-! ## Packets -/

/-- The `n` bytes of a received frame from index `i` on. -/
def bytesAt (header : List UInt8) (i n : Nat) : List UInt8 := slice (fun j => header.getD j 0) i n

/-- `size`, from the type of the packet. -/
def packetSize (header : List UInt8) : Option Nat :=
  if header.getD 0 0 = ySoh then some 128
  else if header.getD 0 0 = yStx then some 1024
  else none

section packet
variable (header : List UInt8) (size : Nat)

/-- The packet number. -/
def packetNumber : UInt8 := header.getD yPacketNumberIndex 0

/-- The data of the packet. -/
def packetData : List UInt8 := bytesAt header yPacketDataIndex size

/-- The CRC in the packet is that of its data. -/
def crcMatches : Bool :=
  ymodemCalcCrc (packetData header size) =
    (header.getD (yPacketDataIndex + size) 0).toUInt16 <<< (8 : UInt16) |||
      (header.getD (yPacketDataIndex + size + 1) 0).toUInt16

/-- Packet number and complement add up to 255. -/
def complementMatches : Bool :=
  (packetNumber header).toNat + (header.getD yPacketNumberComplementIndex 0).toNat = 255

/-- `file_name`: what `strcpy` copies from the start of the data, up to the first NUL. The source has
room for it when the header is `NameFits`; what it does with a longer name is not defined, and the
functions below, which go on with it, then say nothing of the source. -/
def fileName : List UInt8 :=
  (bytesAt header yPacketDataIndex (size + yPacketCrcSize)).takeWhile (· ≠ 0)

/-- The checks of `ymodem_handle_packet`. -/
def checkPacket (number : UInt8) : UInt8 :=
  (if crcMatches header size then yOk else yErrorCrc) |||
    (if number = packetNumber header then yOk else yErrorNumber) |||
    (if complementMatches header then yOk else yErrorNumber)

end packet

section handle
variable (cb : Callbacks κ) (s : Receiver κ)

/-- The end of `ymodem_handle_packet`: the next packet is expected when there was no error. -/
def finishPacket (status : UInt8) : Receiver κ :=
  if status = yOk then { s with ymodemPacketNumber := s.ymodemPacketNumber + 1 } else s

/-- The branch of `ymodem_handle_packet` for the first packet of a file. -/
def handleFirst (header : List UInt8) (size : Nat) (status : UInt8) :
    UInt8 × List Action × Receiver κ :=
  let name := fileName header size
  if name.length = 0 then (status ||| yEoy, [], s)
  else
    let len := getFileLen (packetData header size)
    let (res, app) := cb.receiveNanmeSizeCallback name len s.app
    let status := if res ≠ 0 then status ||| yErrorFlash else status
    (status, [.receiveNanmeSize name len], finishPacket { s with fileLen := len, app } status)

/-- How many bytes of a data packet are taken: without the padding, and not more than are left. -/
def dataSize (data : List UInt8) (size : Nat) : Nat :=
  let size := if s.fileLen = yNoLength then getActiveLength data size else size
  if s.fileLen.toNat < size then s.fileLen.toNat else size

/-- The branch of `ymodem_handle_packet` for data. -/
def handleData (header : List UInt8) (size : Nat) (status : UInt8) :
    UInt8 × List Action × Receiver κ :=
  let data := packetData header size
  let size := dataSize s data size
  let (res, app) := cb.receiveFileDataCallback (data.take size) s.app
  let status := if res ≠ 0 then status ||| yErrorFlash else status
  let fileLen := if s.fileLen ≠ yNoLength then s.fileLen - UInt32.ofNat size else s.fileLen
  (status, [.receiveFileData (data.take size)],
    finishPacket { s with fileLen, app, yFirstPacketReceived := true } status)

/-- `ymodem_handle_packet(header)`: the status, the callbacks it calls, the state it leaves. -/
def ymodemHandlePacket (header : List UInt8) : UInt8 × List Action × Receiver κ :=
  match packetSize header with
  | none => (yError, [], s)
  | some size =>
    let status := checkPacket header size s.ymodemPacketNumber
    if packetNumber header = 0 ∧ s.yFirstPacketReceived = false then
      handleFirst cb s header size status
    else handleData cb s header size status

end handle

/-! ## The receiver -/

/-- The value returned after an error. -/
def errorResult (s : Receiver κ) : UInt16 := s.ymodemFileNumber ||| (1 : UInt16) <<< 15

/-- `ymodem_error_handler(error_number, Y_MAY_ERRORS)`, with what it leads to. -/
def ymodemErrorHandler (s : Receiver κ) : List Action × (Receiver κ ⊕ UInt16) :=
  let errorNumber := s.errorNumber + 1
  if yMayErrors ≤ errorNumber then
    ([.transmitCh yCan, .transmitCh yCan], .inr (errorResult s))
  else ([.transmitCh yNak], .inl { s with errorNumber })

variable (cb : Callbacks κ)

/-- The case of a packet in the loop of `ymodem_receive`. -/
def receivePacket (s : Receiver κ) (header : List UInt8) : List Action × (Receiver κ ⊕ UInt16) :=
  let (status, calls, s) := ymodemHandlePacket cb s header
  if status = yOk then
    (calls ++ .transmitCh yAck ::
      (if s.yFirstPacketReceived = false then [.transmitCh yC] else []), .inl s)
  else if status = yErrorFlash then
    let (acts, next) := ymodemErrorHandler { s with errorNumber := yMayErrors }
    (calls ++ acts, next)
  else if status = yEoy then (calls ++ [.transmitCh yAck], .inr s.ymodemFileNumber)
  else
    let (acts, next) := ymodemErrorHandler s
    (calls ++ acts, next)

/-- The case of an EOT in the loop of `ymodem_receive`. -/
def receiveEot (s : Receiver κ) : List Action × (Receiver κ ⊕ UInt16) :=
  if 1 < s.eotNum + 1 then
    ([.transmitCh yAck, .receiveFile, .transmitCh yC], .inl { s with
      yFirstPacketReceived := false
      ymodemPacketNumber := 0
      eotNum := 0
      ymodemFileNumber := s.ymodemFileNumber + 1
      app := cb.receiveFileCallback s.app })
  else ([.transmitCh yNak], .inl { s with eotNum := s.eotNum + 1 })

/-- One round of the loop of `ymodem_receive`. -/
def receiveStep (s : Receiver κ) : Input → List Action × (Receiver κ ⊕ UInt16)
  | .timeout =>
    if s.yFirstPacketReceived = false then ([.transmitCh yC], .inl s) else ymodemErrorHandler s
  | .data header =>
    let ch := header.getD 0 0
    if ch = ySoh ∨ ch = yStx then receivePacket cb s header
    else if ch = yEot then receiveEot cb s
    else if ch = yCan then ([], .inr (errorResult s))
    else ymodemErrorHandler s

/-- The loop of `ymodem_receive`. -/
def receiver : Machine (Receiver κ) Input Action UInt16 := ⟨receiveStep cb⟩

/-- The state at the start of the loop; `file_len` is what an earlier session left. -/
def Receiver.start (fileLen : UInt32) (app : κ) : Receiver κ where
  yFirstPacketReceived := false
  ymodemPacketNumber := 0
  ymodemFileNumber := 0
  fileLen := fileLen
  errorNumber := 0
  eotNum := 0
  app := app

/-- `ymodem_receive()` over a list of inputs: what it sends at the start, then the inputs it takes
with its answers, and where it is or the value it returned. -/
def ymodemReceive (fileLen : UInt32) (app : κ) (inputs : List Input) :
    List Action × List (Input × List Action) × (Receiver κ ⊕ UInt16) :=
  ([.transmitCh yC], (receiver cb).run (Receiver.start fileLen app) inputs)

/-! ## Results and answers -/

/-- Bit 15 of the value `ymodem_receive` returns. -/
def errorBit (r : UInt16) : Bool := r >>> 15 &&& 1 ≠ 0

theorem errorBit_eq (r : UInt16) : errorBit r = decide (2 ^ 15 ≤ r.toNat) := by
  have h := r.toNat_lt
  have hbit : (r >>> 15 &&& 1).toNat = r.toNat / 2 ^ 15 % 2 := by
    rw [UInt16.toNat_and, UInt16.toNat_shiftRight]
    simp [Nat.shiftRight_eq_div_pow, Nat.and_one_is_mod]
  rw [errorBit]
  congr 1
  rw [ne_eq, ← UInt16.toNat_inj, hbit, eq_iff_iff]
  have : (0 : UInt16).toNat = 0 := rfl
  omega

theorem errorBit_errorResult (s : Receiver κ) : errorBit (errorResult s) = true := by
  rw [errorBit_eq, decide_eq_true_eq, errorResult, UInt16.toNat_or]
  have h : ((1 : UInt16) <<< 15).toNat = 2 ^ 15 := rfl
  rw [h]
  exact Nat.right_le_or

theorem errorHandler_cases (s : Receiver κ) :
    (∃ out, ymodemErrorHandler s = (out, .inr (errorResult s))) ∨
      ymodemErrorHandler s = ([.transmitCh yNak], .inl { s with errorNumber := s.errorNumber + 1 }) := by
  unfold ymodemErrorHandler
  dsimp only
  split
  · exact .inl ⟨_, rfl⟩
  · exact .inr rfl

section answers
variable {cb : Callbacks κ} {s s' : Receiver κ} {header : List UInt8} {status : UInt8}
  {as : List Action}

theorem receivePacket_ok (h : ymodemHandlePacket cb s header = (yOk, as, s')) :
    receivePacket cb s header = (as ++ .transmitCh yAck ::
      (if s'.yFirstPacketReceived = false then [.transmitCh yC] else []), .inl s') := by
  simp only [receivePacket, h, if_true]

theorem receivePacket_flash (h : ymodemHandlePacket cb s header = (yErrorFlash, as, s')) :
    ∃ out, receivePacket cb s header = (out, .inr (errorResult s')) := by
  have hok : ¬ yErrorFlash = yOk := by decide
  have hmax : yMayErrors ≤ yMayErrors + 1 := by decide
  simp only [receivePacket, h, if_neg hok, if_true, ymodemErrorHandler, if_pos hmax]
  exact ⟨_, rfl⟩

theorem receivePacket_eoy (h : ymodemHandlePacket cb s header = (yEoy, as, s')) :
    receivePacket cb s header = (as ++ [.transmitCh yAck], .inr s'.ymodemFileNumber) := by
  have hok : ¬ yEoy = yOk := by decide
  have hflash : ¬ yEoy = yErrorFlash := by decide
  simp only [receivePacket, h, if_neg hok, if_neg hflash, if_true]

/-- A packet that fails a check is refused, or the receiver gives up. -/
theorem receivePacket_refused (h : ymodemHandlePacket cb s header = (status, as, s'))
    (hok : status ≠ yOk) (hflash : status ≠ yErrorFlash) (heoy : status ≠ yEoy) :
    (∃ out, receivePacket cb s header = (out, .inr (errorResult s'))) ∨
      receivePacket cb s header =
        (as ++ [.transmitCh yNak], .inl { s' with errorNumber := s'.errorNumber + 1 }) := by
  simp only [receivePacket, h, if_neg hok, if_neg hflash, if_neg heoy]
  rcases errorHandler_cases s' with ⟨out, he⟩ | he
  · exact .inl ⟨as ++ out, by rw [he]⟩
  · exact .inr (by rw [he])

/-- The checks come out as one of four values. -/
theorem checkPacket_cases (header : List UInt8) (size : Nat) (number : UInt8) :
    (crcMatches header size = true ∧ number = packetNumber header ∧
        complementMatches header = true ∧ checkPacket header size number = yOk) ∨
      (crcMatches header size = true ∧ checkPacket header size number = yErrorNumber) ∨
      (crcMatches header size = false ∧ (checkPacket header size number = yErrorCrc ∨
        checkPacket header size number = yErrorCrc ||| yErrorNumber)) := by
  unfold checkPacket
  by_cases h : number = packetNumber header
  all_goals
    cases crcMatches header size
    all_goals
      cases complementMatches header
      all_goals
        simp only [h, Bool.false_eq_true, if_true, if_false]
        decide

end answers

/-! ## The two paths of a packet -/

section paths
variable {s : Receiver κ} {header : List UInt8} {size : Nat}

@[simp] theorem finishPacket_fileLen (s : Receiver κ) (status : UInt8) :
    (finishPacket s status).fileLen = s.fileLen := by
  rw [finishPacket]
  split <;> rfl

@[simp] theorem finishPacket_first (s : Receiver κ) (status : UInt8) :
    (finishPacket s status).yFirstPacketReceived = s.yFirstPacketReceived := by
  rw [finishPacket]
  split <;> rfl

theorem packetSize_cases (h : packetSize header = some size) : size = 128 ∨ size = 1024 := by
  rw [packetSize] at h
  split at h
  · cases h
    exact .inl rfl
  · split at h
    · cases h
      exact .inr rfl
    · cases h

theorem packetSize_of_start (h : header.getD 0 0 = ySoh ∨ header.getD 0 0 = yStx) :
    ∃ size, packetSize header = some size := by
  rw [packetSize]
  rcases h with h | h
  · exact ⟨128, by rw [if_pos h]⟩
  · exact ⟨1024, by rw [h]; rfl⟩

theorem handlePacket_first (hsize : packetSize header = some size) (cb : Callbacks κ)
    (hb : packetNumber header = 0 ∧ s.yFirstPacketReceived = false) :
    ymodemHandlePacket cb s header =
      handleFirst cb s header size (checkPacket header size s.ymodemPacketNumber) := by
  simp only [ymodemHandlePacket, hsize, if_pos hb]

theorem handlePacket_data (hsize : packetSize header = some size) (cb : Callbacks κ)
    (hb : ¬ (packetNumber header = 0 ∧ s.yFirstPacketReceived = false)) :
    ymodemHandlePacket cb s header =
      handleData cb s header size (checkPacket header size s.ymodemPacketNumber) := by
  simp only [ymodemHandlePacket, hsize, if_neg hb]

theorem getActiveLength_le (data : List UInt8) (n : Nat) : getActiveLength data n ≤ n := by
  induction n with
  | zero => exact Nat.le_refl 0
  | succ n ih =>
    rw [getActiveLength]
    split
    · exact Nat.le_succ_of_le ih
    · exact Nat.le_refl (n + 1)

theorem dataSize_le (s : Receiver κ) (data : List UInt8) (size : Nat) :
    dataSize s data size ≤ size := by
  have hle : (if s.fileLen = yNoLength then getActiveLength data size else size) ≤ size := by
    split
    · exact getActiveLength_le data size
    · exact Nat.le_refl size
  rw [dataSize]
  generalize (if s.fileLen = yNoLength then getActiveLength data size else size) = n at hle ⊢
  split <;> omega

/-- Of a file whose length is known, a packet gives what is left at most. -/
theorem dataSize_eq_min (hknown : s.fileLen ≠ yNoLength) (data : List UInt8) (size : Nat) :
    dataSize s data size = min s.fileLen.toNat size := by
  rw [dataSize, if_neg hknown]
  split <;> omega

/-- What is left after that; the subtraction does not wrap. -/
theorem dataSize_left (hknown : s.fileLen ≠ yNoLength) (data : List UInt8) (size : Nat) :
    (s.fileLen - UInt32.ofNat (dataSize s data size)).toNat + dataSize s data size =
      s.fileLen.toNat := by
  have hlt := s.fileLen.toNat_lt
  have hsize32 : UInt32.size = 2 ^ 32 := rfl
  rw [dataSize_eq_min hknown, UInt32.toNat_sub_of_le, UInt32.toNat_ofNat_of_lt' (by omega)]
  · omega
  · rw [UInt32.le_iff_toNat_le, UInt32.toNat_ofNat_of_lt' (by omega)]
    omega

end paths

end McuUtilities.Ymodem
