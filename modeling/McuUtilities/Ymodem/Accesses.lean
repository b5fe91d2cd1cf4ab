import McuUtilities.Lib.Access
import McuUtilities.Ymodem.Classify

/-!
# The arrays of `ymodem_handle_packet`

The frame is copied into `received_data`, which a frame of 133 bytes does not fill, and the name from
there into `file_name`, which has 50 bytes. The functions of `Ymodem.Receive` are given again, with
the accesses they make to the two arrays: all of them are in bounds, and they compute the same,
unless a header has no NUL among the first 50 bytes of its data.
-/

namespace McuUtilities.Ymodem.Accesses

variable {κ α : Type}

/-- The arrays on the stack of `ymodem_handle_packet`. -/
inductive Local where
  | receivedData
  | fileName
deriving DecidableEq, Repr

/-- `sizeof` of the array. -/
def Local.size : Local → Nat
  | .receivedData => 1024 + yPacketDataIndex + yPacketCrcSize
  | .fileName => fileNameSize

/-- The element that is accessed is one of the array. -/
def InBounds (a : Local × Nat) : Prop := a.2 < a.1.size

instance (a : Local × Nat) : Decidable (InBounds a) := Nat.decLt a.2 a.1.size

abbrev Accessing (α : Type) := Logged (Local × Nat) α

/-- An access to an element of an array. -/
def touch (array : Local) (i : Nat) (v : α) : Accessing α :=
  Logged.access (array, i) (i < array.size) v

section functions
variable (data : Nat → UInt8)

/-- `received_data[i]`. -/
def readByte (i : Nat) : Accessing UInt8 := touch .receivedData i (data i)

/-- `data[i]`, where `data` points to the data of the packet. -/
def readData (i : Nat) : Accessing UInt8 := readByte data (yPacketDataIndex + i)

/-- `memcpy(received_data, header, length)`. -/
def memcpy (length : Nat) : Accessing Unit :=
  (List.range length).foldlM (fun _ i => touch .receivedData i ()) ()

/-- `ymodem_calc_crc(data, length)`. -/
def ymodemCalcCrc (length : Nat) : Accessing UInt16 :=
  (List.range length).foldlM (fun crc i => do
    let b ← readData data i
    pure (Nat.iterate calcCrcBit 8 (crc ^^^ b.toUInt16 <<< (8 : UInt16)))) 0

/-- `get_active_length(data, len)`. -/
def getActiveLength : Nat → Accessing Nat
  | 0 => pure 0
  | len + 1 => do
    let b ← readData data len
    if b = 0x1A then getActiveLength len else pure (len + 1)

/-- The first loop of `get_file_len`, with the rounds it has left: `index`, or 128. -/
def findNul : Nat → Nat → Accessing Nat
  | 0, count => pure count
  | n + 1, count => do
    let b ← readData data count
    if b = 0 then pure (count + 1) else findNul n (count + 1)

/-- The second loop: the end of the digits, or 128. -/
def findEnd : Nat → Nat → Accessing Nat
  | 0, count => pure count
  | n + 1, count => do
    let b ← readData data count
    if isDigit b then findEnd n (count + 1) else pure count

/-- The third loop: the value of the digits. -/
def number : Nat → Nat → UInt32 → Accessing UInt32
  | 0, _, len => pure len
  | n + 1, index, len => do
    let b ← readData data index
    number n (index + 1) ((b - 0x30).toUInt32 + len * 10)

/-- `get_file_len(data)`. -/
def getFileLen : Accessing UInt32 := do
  let index ← findNul data 128 0
  if 128 ≤ index then pure yNoLength
  else
    let count ← findEnd data (128 - index) index
    if 128 ≤ count then pure yNoLength else number data (count - index) index 0

/-- `strcpy(file_name, data)` from byte `k` on. It goes on until it finds a NUL; the rounds it is
given are more than `file_name` lets it make. -/
def strcpy : Nat → Nat → Accessing (List UInt8)
  | 0, _ => pure []
  | n + 1, k => do
    let b ← readData data k
    touch .fileName k ()
    if b = 0 then pure []
    else
      let rest ← strcpy n (k + 1)
      pure (b :: rest)

/-- `strcpy(file_name, data)`. -/
def copyName : Accessing (List UInt8) := strcpy data (Local.fileName.size + 1) 0

/-- `strlen(file_name)` from byte `k` on, where the rest of the string stands. -/
def strlen : List UInt8 → Nat → Accessing Nat
  | [], k => touch .fileName k 0
  | _ :: rest, k => do
    touch .fileName k ()
    let n ← strlen rest (k + 1)
    pure (n + 1)

/-- The checks. -/
def checkPacket (size : Nat) (number : UInt8) : Accessing UInt8 := do
  let hi ← readByte data (yPacketDataIndex + size)
  let lo ← readByte data (yPacketDataIndex + size + 1)
  let crc ← ymodemCalcCrc data size
  let n ← readByte data yPacketNumberIndex
  let n' ← readByte data yPacketNumberIndex
  let complement ← readByte data yPacketNumberComplementIndex
  pure ((if crc = hi.toUInt16 <<< (8 : UInt16) ||| lo.toUInt16 then yOk else yErrorCrc) |||
    (if number = n then yOk else yErrorNumber) |||
    (if n'.toNat + complement.toNat = 255 then yOk else yErrorNumber))

variable (cb : Callbacks κ) (s : Receiver κ)

/-- The branch for the first packet of a file. -/
def handleFirst (status : UInt8) : Accessing (UInt8 × List Action × Receiver κ) := do
  let name ← copyName data
  let length ← strlen name 0
  if length = 0 then pure (status ||| yEoy, [], s)
  else
    let len ← getFileLen data
    let (res, app) := cb.receiveNanmeSizeCallback name len s.app
    let status := if res ≠ 0 then status ||| yErrorFlash else status
    pure (status, [.receiveNanmeSize name len], finishPacket { s with fileLen := len, app } status)

/-- The branch for data; the callback gets `&received_data[Y_PACKET_DATA_INDEX]` and `size`. -/
def handleData (size : Nat) (status : UInt8) :
    Accessing (UInt8 × List Action × Receiver κ) := do
  let size ← (if s.fileLen = yNoLength then getActiveLength data size else pure size)
  let size := if s.fileLen.toNat < size then s.fileLen.toNat else size
  let (res, app) := cb.receiveFileDataCallback (slice data yPacketDataIndex size) s.app
  let status := if res ≠ 0 then status ||| yErrorFlash else status
  let fileLen := if s.fileLen ≠ yNoLength then s.fileLen - UInt32.ofNat size else s.fileLen
  pure (status, [.receiveFileData (slice data yPacketDataIndex size)],
    finishPacket { s with fileLen, app, yFirstPacketReceived := true } status)

end functions

/-- `length`, what is copied of the frame. -/
def frameLength (size : Nat) : Nat := size + yPacketDataIndex + yPacketCrcSize

/-- `received_data` after the frame was copied: behind it stands what stood there. -/
def receivedData (header : List UInt8) (size : Nat) (stale : Nat → UInt8) (i : Nat) : UInt8 :=
  if i < frameLength size then header.getD i 0 else stale i

/-- `ymodem_handle_packet(header)`. -/
def ymodemHandlePacket (cb : Callbacks κ) (s : Receiver κ) (header : List UInt8)
    (stale : Nat → UInt8) : Accessing (UInt8 × List Action × Receiver κ) :=
  match packetSize header with
  | none => do
    memcpy (frameLength 0)
    pure (yError, [], s)
  | some size => do
    let data := receivedData header size stale
    memcpy (frameLength size)
    let status ← checkPacket data size s.ymodemPacketNumber
    let n ← readByte data yPacketNumberIndex
    if n = 0 ∧ s.yFirstPacketReceived = false then handleFirst data cb s status
    else handleData data cb s size status

/-! ## What each function accesses and returns -/

section specs
variable {data : Nat → UInt8}

/-- The access is to a byte of `received_data` in front of `bound`. -/
def Below (bound : Nat) (a : Local × Nat) : Prop := a.1 = .receivedData ∧ a.2 < bound

theorem returns_touch {array : Local} {i : Nat} {v : α} {P : Local × Nat → Prop}
    (hi : i < array.size) (hP : P (array, i)) : Logged.Returns (touch array i v) v P :=
  Logged.returns_access (decide_eq_true hi) hP

theorem returns_readByte {i bound : Nat} (hi : i < bound) (hbound : bound ≤ Local.receivedData.size) :
    Logged.Returns (readByte data i) (data i) (Below bound) :=
  returns_touch (Nat.lt_of_lt_of_le hi hbound) ⟨rfl, hi⟩

theorem returns_memcpy {length : Nat} (h : length ≤ Local.receivedData.size) :
    Logged.Returns (memcpy length) () (Below length) := by
  change Logged.Returns ((List.range length).foldlM (fun _ i => touch .receivedData i ()) ())
    ((List.range length).foldl (fun _ _ => ()) ()) _
  refine Logged.returns_foldlM (fun _ i hi => ?_) ()
  have hi' := List.mem_range.mp hi
  exact returns_touch (Nat.lt_of_lt_of_le hi' h) ⟨rfl, hi'⟩

theorem returns_ymodemCalcCrc {length : Nat} (h : yPacketDataIndex + length ≤ Local.receivedData.size) :
    Logged.Returns (ymodemCalcCrc data length) (Ymodem.ymodemCalcCrc (slice data yPacketDataIndex length))
      (Below (yPacketDataIndex + length)) := by
  rw [Ymodem.ymodemCalcCrc, slice, List.foldl_map]
  refine Logged.returns_foldlM (fun crc i hi => ?_) 0
  have hi' := List.mem_range.mp hi
  exact (returns_readByte (by omega) h).bind Logged.returns_pure

theorem returns_getActiveLength {len size : Nat} (hlen : len ≤ size)
    (h : yPacketDataIndex + size ≤ Local.receivedData.size) :
    Logged.Returns (getActiveLength data len)
      (Ymodem.getActiveLength (slice data yPacketDataIndex size) len)
      (Below (yPacketDataIndex + size)) := by
  induction len with
  | zero => exact Logged.returns_pure
  | succ len ih =>
    have hget : (slice data yPacketDataIndex size).getD len 0 = data (yPacketDataIndex + len) := by
      rw [List.getD_eq_getElem?_getD, getElem?_slice, if_pos (by omega)]
      rfl
    rw [getActiveLength, Ymodem.getActiveLength, hget]
    refine (returns_readByte (by omega) h).bind ?_
    split
    · exact ih (by omega)
    · exact Logged.returns_pure

/-- The NUL is looked for in the first 128 bytes of the data. -/
theorem returns_findNul {n count : Nat} (h : count + n = 128) :
    Logged.Returns (findNul data n count)
      (min (count + (slice data (yPacketDataIndex + count) n).findIdx (· == 0) + 1) 128)
      (Below (yPacketDataIndex + 128)) := by
  induction n generalizing count with
  | zero =>
    have hend : min (count + (slice data (yPacketDataIndex + count) 0).findIdx (· == 0) + 1) 128 =
        count := by
      rw [slice_zero, List.findIdx_nil]
      omega
    rw [hend]
    exact Logged.returns_pure
  | succ n ih =>
    rw [findNul, slice_succ, List.findIdx_cons]
    refine (returns_readByte (by omega) (by decide)).bind ?_
    by_cases hzero : data (yPacketDataIndex + count) = 0
    · have hend : min (count + 0 + 1) 128 = count + 1 := by omega
      rw [if_pos hzero, hzero, beq_self_eq_true, cond_true, hend]
      exact Logged.returns_pure
    · have hrest := ih (by omega : count + 1 + n = 128)
      rw [if_neg hzero, beq_eq_false_iff_ne.mpr hzero, cond_false, ← Nat.add_assoc,
        Nat.add_right_comm count]
      exact hrest

/-- The end of the digits is looked for in the same bytes. -/
theorem returns_findEnd {n count : Nat} (h : count + n = 128) :
    Logged.Returns (findEnd data n count)
      (count + ((slice data (yPacketDataIndex + count) n).takeWhile isDigit).length)
      (Below (yPacketDataIndex + 128)) := by
  induction n generalizing count with
  | zero => exact Logged.returns_pure
  | succ n ih =>
    rw [findEnd, slice_succ, List.takeWhile_cons]
    refine (returns_readByte (by omega) (by decide)).bind ?_
    split
    · have hrest := ih (by omega : count + 1 + n = 128)
      rw [List.length_cons, ← Nat.add_assoc, Nat.add_right_comm]
      exact hrest
    · exact Logged.returns_pure

theorem returns_number {n index : Nat} {len : UInt32} (h : index + n ≤ 128) :
    Logged.Returns (number data n index len)
      ((slice data (yPacketDataIndex + index) n).foldl
        (fun len b => (b - 0x30).toUInt32 + len * 10) len) (Below (yPacketDataIndex + 128)) := by
  induction n generalizing index len with
  | zero => exact Logged.returns_pure
  | succ n ih =>
    rw [number, slice_succ, List.foldl_cons]
    exact (returns_readByte (by omega) (by decide)).bind (ih (by omega))

/-- `get_file_len` stays in the first 128 bytes of the data. -/
theorem returns_getFileLen {size : Nat} (hsize : 128 ≤ size) :
    Logged.Returns (getFileLen data) (Ymodem.getFileLen (slice data yPacketDataIndex size))
      (Below (yPacketDataIndex + 128)) := by
  rw [getFileLen, Ymodem.getFileLen, take_slice, Nat.min_eq_left hsize]
  refine (returns_findNul (Nat.zero_add 128)).bind ?_
  rw [Nat.add_zero, Nat.zero_add]
  generalize hindex : (slice data yPacketDataIndex 128).findIdx (· == 0) + 1 = index
  dsimp only
  by_cases hidx : 128 ≤ index
  · rw [if_pos hidx, if_pos (by omega)]
    exact Logged.returns_pure
  · rw [if_neg hidx, if_neg (by omega), Nat.min_eq_left (by omega), drop_slice]
    refine (returns_findEnd (by omega)).bind ?_
    generalize hdigits : (slice data (yPacketDataIndex + index) (128 - index)).takeWhile isDigit =
      digits
    by_cases hend : 128 ≤ index + digits.length
    · rw [if_pos hend, if_pos hend]
      exact Logged.returns_pure
    · have htaken : digits = slice data (yPacketDataIndex + index) digits.length := by
        have hpre := List.takeWhile_prefix (p := isDigit)
          (l := slice data (yPacketDataIndex + index) (128 - index))
        rw [hdigits, List.prefix_iff_eq_take, take_slice, Nat.min_eq_left (by omega)] at hpre
        exact hpre
      rw [if_neg hend, if_neg hend, Nat.add_sub_cancel_left]
      have hvalue : Logged.Returns (number data digits.length index 0) _ _ :=
        returns_number (by omega)
      rw [← htaken] at hvalue
      exact hvalue

/-- The accesses of the string functions: in bounds, and those to `received_data` to the first 50
bytes of the data. -/
def InName (a : Local × Nat) : Prop :=
  InBounds a ∧ (a.1 = .receivedData → a.2 < yPacketDataIndex + Local.fileName.size)

theorem returns_readName {k : Nat} (h : k < Local.fileName.size) :
    Logged.Returns (readData data k) (data (yPacketDataIndex + k)) InName := by
  have hsmall : yPacketDataIndex + Local.fileName.size ≤ Local.receivedData.size := by decide
  refine returns_touch (by omega) ⟨?_, fun _ => Nat.add_lt_add_left h _⟩
  exact Nat.lt_of_lt_of_le (Nat.add_lt_add_left h _) hsmall

theorem returns_writeName {k : Nat} {v : α} (h : k < Local.fileName.size) :
    Logged.Returns (touch .fileName k v) v InName :=
  returns_touch h ⟨h, nofun⟩

/-- The name is copied up to the first NUL, when that is among the first 50 bytes. -/
theorem returns_strcpy {k n i : Nat} (h : k + n = Local.fileName.size + 1) (hk : k ≤ i)
    (hi : i < Local.fileName.size) (hnul : data (yPacketDataIndex + i) = 0) :
    Logged.Returns (strcpy data n k)
      ((slice data (yPacketDataIndex + k) (Local.fileName.size - k)).takeWhile (· ≠ 0))
      InName := by
  induction n generalizing k with
  | zero => omega
  | succ n ih =>
    have hleft : Local.fileName.size - k = Local.fileName.size - (k + 1) + 1 := by omega
    rw [strcpy, hleft, slice_succ, List.takeWhile_cons]
    refine (returns_readName (by omega)).bind ((returns_writeName (by omega)).bind ?_)
    by_cases hzero : data (yPacketDataIndex + k) = 0
    · rw [if_pos hzero, hzero]
      exact Logged.returns_pure
    · have hne : k ≠ i := fun he => hzero (he ▸ hnul)
      have hkeep : decide (data (yPacketDataIndex + k) ≠ 0) = true := decide_eq_true hzero
      rw [if_neg hzero, hkeep, if_pos rfl]
      exact (ih (by omega) (by omega)).bind Logged.returns_pure

theorem returns_strlen {name : List UInt8} {k : Nat} (h : k + name.length < Local.fileName.size) :
    Logged.Returns (strlen name k) name.length InName := by
  induction name generalizing k with
  | nil => exact returns_writeName h
  | cons b name ih =>
    rw [List.length_cons] at h
    rw [strlen]
    exact (returns_writeName (by omega)).bind ((ih (by omega)).bind Logged.returns_pure)

/-- Without a NUL among the first 50 bytes the copy goes on to the end of `file_name`. -/
theorem strcpy_stops {k n : Nat} (h : k + n = Local.fileName.size + 1)
    (hk : k ≤ Local.fileName.size)
    (hnone : ∀ i < Local.fileName.size, data (yPacketDataIndex + i) ≠ 0) :
    Logged.Stops (strcpy data n k) (.fileName, Local.fileName.size) := by
  induction n generalizing k with
  | zero => omega
  | succ n ih =>
    have hsmall : yPacketDataIndex + Local.fileName.size < Local.receivedData.size := by decide
    have hread : Logged.Returns (readData data k) (data (yPacketDataIndex + k)) fun _ => True :=
      returns_touch (by omega) trivial
    rw [strcpy]
    refine hread.bind_stops ?_
    by_cases hlast : k = Local.fileName.size
    · rw [hlast]
      exact (Logged.stops_access (decide_eq_false (Nat.lt_irrefl _))).bind
    · have hwrite : Logged.Returns (touch .fileName k ()) () fun _ => True :=
        returns_touch (by omega) trivial
      refine hwrite.bind_stops ?_
      rw [if_neg (hnone k (by omega))]
      exact (ih (by omega) (by omega)).bind

end specs

/-! ## A packet -/

section packet
variable {header : List UInt8} {size : Nat} {stale : Nat → UInt8}

theorem Below.inBounds {bound : Nat} (hbound : bound ≤ Local.receivedData.size)
    {a : Local × Nat} (h : Below bound a) : InBounds a := by
  rw [InBounds, h.1]
  exact Nat.lt_of_lt_of_le h.2 hbound

theorem frameLength_eq : frameLength size = size + 5 := rfl

theorem receivedData_eq {i : Nat} (hi : i < frameLength size) :
    receivedData header size stale i = header.getD i 0 := if_pos hi

/-- The data of the packet stands in `received_data`. -/
theorem slice_receivedData {n : Nat} (hn : n ≤ size + 2) :
    slice (receivedData header size stale) yPacketDataIndex n =
      bytesAt header yPacketDataIndex n :=
  slice_congr fun i hi => receivedData_eq (by
    have h3 : yPacketDataIndex = 3 := rfl
    rw [frameLength_eq]
    omega)

theorem returns_readFrame (hsize : size ≤ 1024) {i : Nat} (hi : i < size + 5) :
    Logged.Returns (readByte (receivedData header size stale) i) (header.getD i 0) InBounds := by
  have hcap : Local.receivedData.size = 1029 := rfl
  rw [← receivedData_eq hi]
  exact (returns_readByte hi (by omega)).mono fun a => Below.inBounds (by omega)

/-- The checks read the frame only and find what `Ymodem.checkPacket` does. -/
theorem returns_checkPacket (hsize : size ≤ 1024) (number : UInt8) :
    Logged.Returns (checkPacket (receivedData header size stale) size number)
      (Ymodem.checkPacket header size number) InBounds := by
  have hcap : Local.receivedData.size = 1029 := rfl
  have h3 : yPacketDataIndex = 3 := rfl
  have hcrc : Logged.Returns (ymodemCalcCrc (receivedData header size stale) size) _ InBounds :=
    (returns_ymodemCalcCrc (by omega)).mono fun a => Below.inBounds (by omega)
  rw [slice_receivedData (by omega)] at hcrc
  have h1 : yPacketNumberIndex < size + 5 := by
    have : yPacketNumberIndex = 1 := rfl
    omega
  have h2 : yPacketNumberComplementIndex < size + 5 := by
    have : yPacketNumberComplementIndex = 2 := rfl
    omega
  refine (returns_readFrame hsize (by omega)).bind ((returns_readFrame hsize (by omega)).bind
    (hcrc.bind ((returns_readFrame hsize h1).bind ((returns_readFrame hsize h1).bind
      ((returns_readFrame hsize h2).bind ?_)))))
  have hite : ∀ (p : Prop) [Decidable p] (a b : UInt8),
      (if decide p = true then a else b) = if p then a else b := by
    intro p _ a b
    by_cases h : p
    · simp only [h, decide_true, if_true]
    · simp only [h, decide_false, Bool.false_eq_true, if_false]
  rw [Ymodem.checkPacket, crcMatches, complementMatches, hite, hite]
  exact Logged.returns_pure

/-- A scan stops at the first byte that is not of its kind, whatever follows. -/
theorem takeWhile_stop {p : UInt8 → Bool} {l : List UInt8} {i : Nat} {b : UInt8}
    (h : l[i]? = some b) (hb : p b = false) :
    (l.takeWhile p).length ≤ i ∧ ∀ tail, (l ++ tail).takeWhile p = l.takeWhile p := by
  induction l generalizing i with
  | nil => cases h
  | cons c l ih =>
    simp only [List.cons_append, List.takeWhile_cons]
    cases i with
    | zero =>
      obtain rfl : c = b := Option.some.inj h
      simp only [hb, Bool.false_eq_true, if_false, List.length_nil, Nat.le_refl, implies_true,
        and_self]
    | succ i =>
      obtain ⟨hlen, htail⟩ := ih h
      by_cases hc : p c = true
      · simp only [hc, if_true, List.length_cons, htail, implies_true, and_true]
        omega
      · simp only [hc, Bool.false_eq_true, if_false, List.length_nil, Nat.zero_le, implies_true,
          and_self]

variable (hsize : size = 128 ∨ size = 1024)
include hsize

/-- The name ends where its first NUL is. -/
theorem fileName_of_nul {i : Nat} (hi : i < Local.fileName.size)
    (hnul : header.getD (yPacketDataIndex + i) 0 = 0) :
    fileName header size =
        (bytesAt header yPacketDataIndex Local.fileName.size).takeWhile (· ≠ 0) ∧
      (fileName header size).length ≤ i := by
  have h50 : Local.fileName.size = 50 := rfl
  have hat : (bytesAt header yPacketDataIndex Local.fileName.size)[i]? = some 0 := by
    rw [bytesAt, getElem?_slice, if_pos hi, hnul]
  obtain ⟨hlen, htail⟩ := takeWhile_stop (p := fun b => decide (b ≠ 0)) hat (by decide)
  have hsplit : size + yPacketCrcSize =
      Local.fileName.size + (size + yPacketCrcSize - Local.fileName.size) := by omega
  have hname : fileName header size =
      (bytesAt header yPacketDataIndex Local.fileName.size).takeWhile (· ≠ 0) := by
    rw [fileName, hsplit, bytesAt, slice_add]
    exact htail _
  exact ⟨hname, hname ▸ hlen⟩

/-- A header whose name ends among its first 50 bytes. -/
theorem returns_handleFirst {i : Nat} (hi : i < Local.fileName.size)
    (hnul : header.getD (yPacketDataIndex + i) 0 = 0) (cb : Callbacks κ) (s : Receiver κ)
    (status : UInt8) :
    Logged.Returns (handleFirst (receivedData header size stale) cb s status)
      (Ymodem.handleFirst cb s header size status) InBounds := by
  have h50 : Local.fileName.size = 50 := rfl
  have h3 : yPacketDataIndex = 3 := rfl
  have hsmall : Local.fileName.size ≤ size := by omega
  have hzero : receivedData header size stale (yPacketDataIndex + i) = 0 :=
    (receivedData_eq (by rw [frameLength_eq]; omega)).trans hnul
  obtain ⟨hname, hshort⟩ := fileName_of_nul hsize hi hnul
  have hcopy : Logged.Returns (copyName (receivedData header size stale)) _ InBounds :=
    (returns_strcpy (Nat.zero_add _) (Nat.zero_le i) hi hzero).mono fun a ha => ha.1
  rw [Nat.add_zero, Nat.sub_zero, slice_receivedData (by omega), ← hname] at hcopy
  have hlen : Logged.Returns (getFileLen (receivedData header size stale)) _ InBounds :=
    (returns_getFileLen (by omega : 128 ≤ size)).mono fun a => Below.inBounds (by decide)
  rw [slice_receivedData (by omega)] at hlen
  refine hcopy.bind (((returns_strlen (by omega)).mono fun a ha => ha.1).bind ?_)
  rw [Ymodem.handleFirst]
  dsimp only
  split
  · exact Logged.returns_pure
  · exact hlen.bind Logged.returns_pure

theorem returns_handleData (cb : Callbacks κ) (s : Receiver κ) (status : UInt8) :
    Logged.Returns (handleData (receivedData header size stale) cb s size status)
      (Ymodem.handleData cb s header size status) InBounds := by
  have hcap : Local.receivedData.size = 1029 := rfl
  have h3 : yPacketDataIndex = 3 := rfl
  have hactive : Logged.Returns (getActiveLength (receivedData header size stale) size)
      (Ymodem.getActiveLength (packetData header size) size) InBounds := by
    have : Logged.Returns (getActiveLength (receivedData header size stale) size) _ InBounds :=
      (returns_getActiveLength (Nat.le_refl size) (by omega)).mono fun a =>
        Below.inBounds (by omega)
    rwa [slice_receivedData (by omega)] at this
  have htaken : Logged.Returns
      (if s.fileLen = yNoLength then getActiveLength (receivedData header size stale) size
        else pure size)
      (if s.fileLen = yNoLength then Ymodem.getActiveLength (packetData header size) size
        else size) InBounds := by
    split
    · exact hactive
    · exact Logged.returns_pure
  have hdata : slice (receivedData header size stale) yPacketDataIndex
      (dataSize s (packetData header size) size) =
        (packetData header size).take (dataSize s (packetData header size) size) := by
    have hle := dataSize_le s (packetData header size) size
    generalize dataSize s (packetData header size) size = n at hle ⊢
    rw [slice_receivedData (by omega), packetData, bytesAt, bytesAt, take_slice,
      Nat.min_eq_left hle]
  refine htaken.bind ?_
  rw [Ymodem.handleData]
  dsimp only
  rw [← dataSize.eq_def, hdata]
  exact Logged.returns_pure

end packet

/-! ## The whole packet -/

section whole
variable {header : List UInt8} {size : Nat} {stale : Nat → UInt8} {cb : Callbacks κ}
  {s : Receiver κ} (hpacket : packetSize header = some size)
include hpacket

/-- What comes before the packet is handled as a header or as data. -/
theorem handlePacket_eq : ymodemHandlePacket cb s header stale = (do
    memcpy (frameLength size)
    let status ← checkPacket (receivedData header size stale) size s.ymodemPacketNumber
    let n ← readByte (receivedData header size stale) yPacketNumberIndex
    if n = 0 ∧ s.yFirstPacketReceived = false then
      handleFirst (receivedData header size stale) cb s status
    else handleData (receivedData header size stale) cb s size status) := by
  rw [ymodemHandlePacket, hpacket]

theorem returns_start (stale : Nat → UInt8) : size ≤ 1024 ∧
    Logged.Returns (memcpy (frameLength size)) () InBounds ∧
    Logged.Returns (readByte (receivedData header size stale) yPacketNumberIndex)
      (packetNumber header) InBounds := by
  have hcap : Local.receivedData.size = 1029 := rfl
  have hn : yPacketNumberIndex = 1 := rfl
  have hframe := @frameLength_eq size
  have hsize : size ≤ 1024 := by
    rcases packetSize_cases hpacket with h | h <;> omega
  exact ⟨hsize, (returns_memcpy (by omega)).mono fun a => Below.inBounds (by omega),
    returns_readFrame hsize (by omega)⟩

/-- A packet is handled within bounds, and as `Ymodem.ymodemHandlePacket` handles it, when the name
of a header ends among its first 50 bytes. -/
theorem returns_handlePacket (hnul : NameFits s header) :
    Logged.Returns (ymodemHandlePacket cb s header stale) (Ymodem.ymodemHandlePacket cb s header)
      InBounds := by
  obtain ⟨hsize, hcopy, hread⟩ := returns_start hpacket stale
  rw [handlePacket_eq hpacket]
  refine hcopy.bind ((returns_checkPacket hsize _).bind (hread.bind ?_))
  by_cases hb : packetNumber header = 0 ∧ s.yFirstPacketReceived = false
  · obtain ⟨i, hi, hzero⟩ := hnul hb
    rw [if_pos hb, handlePacket_first hpacket cb hb]
    exact returns_handleFirst (packetSize_cases hpacket) hi hzero cb s _
  · rw [if_neg hb, handlePacket_data hpacket cb hb]
    exact returns_handleData (packetSize_cases hpacket) cb s _

/-- A header whose name does not end among the first 50 bytes stops the call at the end of
`file_name`. -/
theorem stops_handlePacket (h : ¬ NameFits s header) :
    Logged.Stops (ymodemHandlePacket cb s header stale) (.fileName, Local.fileName.size) := by
  obtain ⟨hb, hnone⟩ := Classical.not_imp.mp h
  obtain ⟨hsize, hcopy, hread⟩ := returns_start hpacket stale
  have h50 : Local.fileName.size = 50 := rfl
  have h3 : yPacketDataIndex = 3 := rfl
  have hsizes := packetSize_cases hpacket
  have hname : ∀ i < Local.fileName.size,
      receivedData header size stale (yPacketDataIndex + i) ≠ 0 := fun i hi hzero =>
    hnone ⟨i, hi, (receivedData_eq (by rw [frameLength_eq]; omega)).symm.trans hzero⟩
  rw [handlePacket_eq hpacket]
  refine hcopy.bind_stops ((returns_checkPacket hsize _).bind_stops (hread.bind_stops ?_))
  rw [if_pos (And.intro hb.1 hb.2)]
  exact (strcpy_stops (Nat.zero_add _) (Nat.zero_le _) hname).bind

/-- What the call returns, if its accesses are allowed. -/
theorem value_handlePacket (h : NameFits s header) :
    (ymodemHandlePacket cb s header stale).value = some (Ymodem.ymodemHandlePacket cb s header) :=
  (returns_handlePacket hpacket h).value

end whole

/-- A frame that is no packet. -/
theorem value_handlePacket_none {header : List UInt8} (hpacket : packetSize header = none)
    (cb : Callbacks κ) (s : Receiver κ) (stale : Nat → UInt8) :
    (ymodemHandlePacket cb s header stale).value = some (yError, [], s) := by
  have hcopy : Logged.Returns (memcpy (frameLength 0)) () _ := returns_memcpy (by decide)
  have hcall : Logged.Returns (ymodemHandlePacket cb s header stale) (yError, [], s)
      (Below (frameLength 0)) := by
    rw [ymodemHandlePacket, hpacket]
    exact hcopy.bind Logged.returns_pure
  exact hcall.value

/-- Every access is in bounds; the name of a header is found to end inside the packet; the size is
looked for in the 128-byte block. -/
structure Confined (cb : Callbacks κ) (s : Receiver κ) (header : List UInt8) (size : Nat)
    (stale : Nat → UInt8) : Prop where
  inBounds : ∀ a ∈ (ymodemHandlePacket cb s header stale).accesses, InBounds a
  name : AtHeader s header → ∃ name, Logged.Returns (copyName (receivedData header size stale)) name
    fun a => InBounds a ∧ (a.1 = .receivedData → a.2 < yPacketDataIndex + size)
  block : ∀ a ∈ (getFileLen (receivedData header size stale)).accesses,
    a.1 = .receivedData ∧ a.2 < yPacketDataIndex + 128

/-- The accesses are confined exactly when the name of a header ends among its first 50 bytes,
whatever else the frame holds. -/
theorem confined_iff {header : List UInt8} {size : Nat} (hpacket : packetSize header = some size)
    (cb : Callbacks κ) (s : Receiver κ) (stale : Nat → UInt8) :
    Confined cb s header size stale ↔ (AtHeader s header →
      ∃ i < Local.fileName.size, header.getD (yPacketDataIndex + i) 0 = 0) := by
  have hsizes := packetSize_cases hpacket
  have h50 : Local.fileName.size = 50 := rfl
  have h3 : yPacketDataIndex = 3 := rfl
  have hdata : ∀ {i}, i < Local.fileName.size →
      receivedData header size stale (yPacketDataIndex + i) =
        header.getD (yPacketDataIndex + i) 0 :=
    fun hi => receivedData_eq (by rw [frameLength_eq]; omega)
  constructor
  · intro h
    by_contra hfits
    exact absurd (h.inBounds _ (stops_handlePacket hpacket hfits).accesses) (Nat.lt_irrefl _)
  · intro hnul
    refine ⟨(returns_handlePacket hpacket hnul).accesses, fun hb => ?_,
      (returns_getFileLen (by omega : 128 ≤ size)).accesses⟩
    obtain ⟨i, hi, hzero⟩ := hnul hb
    exact ⟨_, (returns_strcpy (Nat.zero_add _) (Nat.zero_le i) hi
      ((hdata hi).trans hzero)).mono fun a ha => ⟨ha.1, fun hr => by
        have := ha.2 hr
        omega⟩⟩

/-- A header, with a wrong CRC, of a file with the name "a" and one byte. -/
def shortName : List UInt8 :=
  [ySoh, 0, 255] ++ ([0x61, 0, 0x31, 0x20] ++ List.replicate 124 0 ++ [0, 0])

theorem confined_iff_sample :
    AtHeader (Receiver.start 0 ()) shortName ∧ fileName shortName 128 = [0x61] ∧
      Confined silentCallbacks (Receiver.start 0 ()) shortName 128 fun _ => 0 :=
  ⟨⟨rfl, rfl⟩, rfl, (confined_iff rfl silentCallbacks (Receiver.start 0 ()) fun _ => 0).mpr
    fun _ => ⟨1, by decide, rfl⟩⟩

/-- A header, with a wrong CRC, whose name fills the whole block. -/
def longName : List UInt8 := [ySoh, 0, 255] ++ (List.replicate 128 0x61 ++ [0, 0])

/-- Its name is copied past the end of `file_name`. -/
theorem not_confined_longName :
    (.fileName, 50) ∈ (ymodemHandlePacket silentCallbacks (Receiver.start 0 ()) longName
        fun _ => 0).accesses ∧
      ¬ Confined silentCallbacks (Receiver.start 0 ()) longName 128 fun _ => 0 := by
  have hpacket : packetSize longName = some 128 := rfl
  have hletters : ∀ i < fileNameSize, longName.getD (yPacketDataIndex + i) 0 ≠ 0 := by decide
  have hlong : ¬ NameFits (Receiver.start 0 ()) longName := fun h =>
    let ⟨i, hi, hzero⟩ := h ⟨rfl, rfl⟩
    hletters i hi hzero
  have hleft : (.fileName, 50) ∈ (ymodemHandlePacket silentCallbacks (Receiver.start 0 ()) longName
      fun _ => 0).accesses := (stops_handlePacket hpacket hlong).accesses
  exact ⟨hleft, fun h => absurd (h.inBounds _ hleft) (by decide)⟩

end McuUtilities.Ymodem.Accesses
