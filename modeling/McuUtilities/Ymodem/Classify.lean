import McuUtilities.Ymodem.Packet

/-!
# How a packet is classified

`ymodem_handle_packet` or-s what it finds into a status, and `ymodem_receive` reads from the status
what to do. The values are not independent bits: the 1 of a CRC error and the 6 of a failed callback
make the 7 that ends the session, and the 7 of an empty name swallows a failed check.
-/

namespace McuUtilities.Ymodem

variable {κ : Type}

/-! ## What a status is read as -/

/-- What `ymodem_receive` does after a packet: it acknowledges it, aborts the transfer, returns the
number of files, or asks for the packet again. -/
inductive Outcome where
  | ack
  | abort
  | finish
  | retry
deriving DecidableEq, Repr

/-- The dispatch on the status of a packet. -/
def outcome (status : UInt8) : Outcome :=
  if status = yOk then .ack
  else if status = yErrorFlash then .abort
  else if status = yEoy then .finish
  else .retry

theorem receivePacket_outcome {cb : Callbacks κ} {s s' : Receiver κ} {header : List UInt8}
    {status : UInt8} {calls : List Action}
    (h : ymodemHandlePacket cb s header = (status, calls, s')) :
    receivePacket cb s header =
      match outcome status with
      | .ack => (calls ++ .transmitCh yAck ::
          (if s'.yFirstPacketReceived = false then [.transmitCh yC] else []), .inl s')
      | .abort =>
        let (acts, next) := ymodemErrorHandler { s' with errorNumber := yMayErrors }
        (calls ++ acts, next)
      | .finish => (calls ++ [.transmitCh yAck], .inr s'.ymodemFileNumber)
      | .retry =>
        let (acts, next) := ymodemErrorHandler s'
        (calls ++ acts, next) := by
  simp only [receivePacket, h, outcome]
  by_cases hok : status = yOk
  · simp only [if_pos hok]
  · by_cases hflash : status = yErrorFlash
    · simp only [if_neg hok, if_pos hflash]
    · by_cases heoy : status = yEoy
      · simp only [if_neg hok, if_neg hflash, if_pos heoy]
      · simp only [if_neg hok, if_neg hflash, if_neg heoy]

/-! ## What a packet is -/

section packet
variable (cb : Callbacks κ) (s : Receiver κ) (header : List UInt8) (size : Nat)

/-- The packet passes the three checks. -/
def Passes : Prop :=
  crcMatches header size = true ∧ s.ymodemPacketNumber = packetNumber header ∧
    complementMatches header = true

instance : Decidable (Passes s header size) := inferInstanceAs (Decidable (_ ∧ _))

/-- The packet is handled as the first one of a file. -/
def AtHeader : Prop := packetNumber header = 0 ∧ s.yFirstPacketReceived = false

instance : Decidable (AtHeader s header) := inferInstanceAs (Decidable (_ ∧ _))

/-- The name of a header ends within `file_name`: one of the first 50 bytes of the data is 0. -/
def NameFits : Prop :=
  AtHeader s header → ∃ i < fileNameSize, header.getD (yPacketDataIndex + i) 0 = 0

/-- The packet is an intact header with an empty name. -/
def EndsBatch : Prop := AtHeader s header ∧ fileName header size = [] ∧ Passes s header size

instance : Decidable (EndsBatch s header size) := inferInstanceAs (Decidable (_ ∧ _ ∧ _))

/-- A callback is called for the packet and does not return 0. -/
def CallbackFails : Prop :=
  if AtHeader s header then
    fileName header size ≠ [] ∧ (cb.receiveNanmeSizeCallback (fileName header size)
      (getFileLen (packetData header size)) s.app).1 ≠ 0
  else
    (cb.receiveFileDataCallback ((packetData header size).take
      (dataSize s (packetData header size) size)) s.app).1 ≠ 0

instance : Decidable (CallbackFails cb s header size) :=
  inferInstanceAs (Decidable (if AtHeader s header then _ ∧ _ else _))

/-- What the packet calls for. -/
def calledFor : Outcome :=
  if EndsBatch s header size then .finish
  else if CallbackFails cb s header size then .abort
  else if Passes s header size then .ack
  else .retry

end packet

section names
variable {s : Receiver κ} {n : UInt8} {data residue : List UInt8}

/-- A name that a NUL ends in time. -/
theorem nameFits_packet {name rest : List UInt8} (h : data = name ++ 0 :: rest)
    (hname : name.length < fileNameSize) (s : Receiver κ) :
    NameFits s (packet n data ++ residue) := by
  refine fun _ => ⟨name.length, hname, ?_⟩
  have hlen : yPacketDataIndex + name.length =
      ([startByte data, n, 255 - n] ++ name).length := by
    rw [List.length_append]
    rfl
  rw [packet, hlen]
  generalize crcBytes (ymodemCalcCrc data) = crc
  rw [h]
  simp

/-- Packets of data are copied as they are. -/
theorem nameFits_of_data (h : s.yFirstPacketReceived = true ∨ n ≠ 0) :
    NameFits s (packet n data ++ residue) := by
  rintro ⟨hn, hf⟩
  rcases h with h | h
  · rw [h] at hf
    cases hf
  · exact absurd hn h

end names

section status
variable {cb : Callbacks κ} {s : Receiver κ} {header : List UInt8} {size : Nat}

/-- The checks give one of four values, and 0 when the packet passes them. -/
theorem checkPacket_of_passes (h : Passes s header size) :
    checkPacket header size s.ymodemPacketNumber = yOk := by
  simp only [checkPacket, h.1, h.2.1, h.2.2, if_true]
  rfl

/-- A failed check leaves a mark, a CRC error in bit 0. -/
theorem checkPacket_of_not_passes (h : ¬ Passes s header size) :
    checkPacket header size s.ymodemPacketNumber = yErrorNumber ∧ crcMatches header size = true ∨
      (checkPacket header size s.ymodemPacketNumber = yErrorCrc ∨
        checkPacket header size s.ymodemPacketNumber = yErrorCrc ||| yErrorNumber) ∧
      crcMatches header size = false := by
  rcases checkPacket_cases header size s.ymodemPacketNumber with
    ⟨hcrc, hn, hcompl, -⟩ | ⟨hcrc, hc⟩ | ⟨hcrc, hc⟩
  · exact absurd ⟨hcrc, hn, hcompl⟩ h
  · exact .inl ⟨hc, hcrc⟩
  · exact .inr ⟨hc, hcrc⟩

variable (hsize : packetSize header = some size)
include hsize

/-- The status: what the checks found, joined with what became of the name or of the callback. -/
theorem handlePacket_status (cb : Callbacks κ) (s : Receiver κ) :
    (ymodemHandlePacket cb s header).1 = checkPacket header size s.ymodemPacketNumber |||
      (if AtHeader s header ∧ fileName header size = [] then yEoy
        else if CallbackFails cb s header size then yErrorFlash else yOk) := by
  have hzero : ∀ c : UInt8, c ||| yOk = c := fun c => UInt8.or_zero
  by_cases hb : AtHeader s header
  · rw [handlePacket_first hsize cb hb, handleFirst]
    by_cases hname : fileName header size = []
    · simp only [hname, List.length_nil, if_true, hb, and_self]
    · have hlen : (fileName header size).length ≠ 0 := fun h0 =>
        hname (List.eq_nil_of_length_eq_zero h0)
      simp only [if_neg hlen, hname, and_false, if_false, CallbackFails, if_pos hb, ne_eq,
        not_false_eq_true, true_and]
      split <;> simp only [hzero]
  · rw [handlePacket_data hsize cb hb, handleData]
    simp only [hb, false_and, if_false, CallbackFails, ne_eq]
    split <;> simp only [hzero]

/-- A callback is called, unless the packet is handled as a header and has no name. -/
theorem handlePacket_calls (cb : Callbacks κ) (s : Receiver κ) :
    (ymodemHandlePacket cb s header).2.1 = [] ↔
      AtHeader s header ∧ fileName header size = [] := by
  by_cases hb : AtHeader s header
  · rw [handlePacket_first hsize cb hb, handleFirst]
    by_cases hname : fileName header size = []
    · simp only [hname, List.length_nil, if_true, hb, and_self]
    · have hlen : (fileName header size).length ≠ 0 := fun h0 =>
        hname (List.eq_nil_of_length_eq_zero h0)
      simp only [if_neg hlen, hname, and_false, List.cons_ne_nil]
  · rw [handlePacket_data hsize cb hb, handleData]
    simp only [hb, false_and, List.cons_ne_nil]

/-- A header with an empty name is read as the end of the batch, whatever the checks found. -/
theorem outcome_emptyName (cb : Callbacks κ) (h : AtHeader s header)
    (hname : fileName header size = []) :
    outcome (ymodemHandlePacket cb s header).1 = .finish := by
  rw [handlePacket_status hsize, if_pos ⟨h, hname⟩]
  by_cases hpass : Passes s header size
  · rw [checkPacket_of_passes hpass]
    rfl
  · rcases checkPacket_of_not_passes hpass with ⟨hc, -⟩ | ⟨hc | hc, -⟩
    all_goals
      rw [hc]
      rfl

/-- A failed callback is read as such when the CRC is correct, else as the end of the batch. -/
theorem outcome_callbackFails (h : CallbackFails cb s header size) :
    outcome (ymodemHandlePacket cb s header).1 =
      if crcMatches header size = true then .abort else .finish := by
  have hname : ¬ (AtHeader s header ∧ fileName header size = []) := by
    rintro ⟨hb, hname⟩
    rw [CallbackFails, if_pos hb] at h
    exact h.1 hname
  rw [handlePacket_status hsize, if_neg hname, if_pos h]
  by_cases hpass : Passes s header size
  · rw [checkPacket_of_passes hpass, if_pos hpass.1]
    rfl
  · rcases checkPacket_of_not_passes hpass with ⟨hc, hcrc⟩ | ⟨hc | hc, hcrc⟩
    all_goals
      rw [hc, hcrc]
      rfl

/-- Where the callback returned 0 the checks alone decide. -/
theorem outcome_checks (hname : ¬ (AtHeader s header ∧ fileName header size = []))
    (h : ¬ CallbackFails cb s header size) :
    outcome (ymodemHandlePacket cb s header).1 =
      if Passes s header size then .ack else .retry := by
  rw [handlePacket_status hsize, if_neg hname, if_neg h]
  by_cases hpass : Passes s header size
  · rw [checkPacket_of_passes hpass, if_pos hpass]
    rfl
  · rw [if_neg hpass]
    rcases checkPacket_of_not_passes hpass with ⟨hc, -⟩ | ⟨hc | hc, -⟩
    all_goals
      rw [hc]
      rfl

end status

/-! ## A rejected packet -/

/-- The packet leaves no trace: no callback is called, the receiver is as it was, the packet is
asked for again, and whatever comes next is handled as if it had come first. -/
structure NoEffect (cb : Callbacks κ) (s : Receiver κ) (header : List UInt8) : Prop where
  calls : (ymodemHandlePacket cb s header).2.1 = []
  fileLen : (ymodemHandlePacket cb s header).2.2.fileLen = s.fileLen
  number : (ymodemHandlePacket cb s header).2.2.ymodemPacketNumber = s.ymodemPacketNumber
  first : (ymodemHandlePacket cb s header).2.2.yFirstPacketReceived = s.yFirstPacketReceived
  again : outcome (ymodemHandlePacket cb s header).1 = .retry
  next : ∀ header', ymodemHandlePacket cb (ymodemHandlePacket cb s header).2.2 header' =
    ymodemHandlePacket cb s header'

section rejected
variable {header : List UInt8} {size : Nat} {s : Receiver κ}

theorem not_noEffect (hsize : packetSize header = some size) (cb : Callbacks κ) :
    ¬ NoEffect cb s header := by
  intro h
  obtain ⟨hb, hname⟩ := (handlePacket_calls hsize cb s).mp h.calls
  have hfinish := outcome_emptyName hsize cb hb hname
  rw [h.again] at hfinish
  cases hfinish

/-- The one thing a rejected packet is sure to leave alone. -/
theorem rejected_number (hsize : packetSize header = some size) (cb : Callbacks κ)
    (hfail : ¬ Passes s header size) :
    (ymodemHandlePacket cb s header).2.2.ymodemPacketNumber = s.ymodemPacketNumber := by
  have hfinish : ∀ {t : Receiver κ} {status : UInt8}, status ≠ yOk →
      (finishPacket t status).ymodemPacketNumber = t.ymodemPacketNumber := by
    intro t status hs
    rw [finishPacket, if_neg hs]
  have hstatus : checkPacket header size s.ymodemPacketNumber ≠ yOk ∧
      checkPacket header size s.ymodemPacketNumber ||| yErrorFlash ≠ yOk := by
    rcases checkPacket_of_not_passes hfail with ⟨hc, -⟩ | ⟨hc | hc, -⟩
    all_goals
      rw [hc]
      decide
  by_cases hb : AtHeader s header
  · rw [handlePacket_first hsize cb hb, handleFirst]
    dsimp only
    split
    · rfl
    · apply hfinish
      split
      · exact hstatus.2
      · exact hstatus.1
  · rw [handlePacket_data hsize cb hb, handleData]
    apply hfinish
    split
    · exact hstatus.2
    · exact hstatus.1

/-- A rejected packet is never without effect: a callback is called for it, or, when it is handled
as a header and has no name, the session ends. -/
theorem noEffect_iff_passes (hsize : packetSize header = some size) (cb : Callbacks κ)
    (s : Receiver κ) :
    (¬ Passes s header size → NoEffect cb s header) ↔ Passes s header size :=
  ⟨fun h => Classical.byContradiction fun hfail => not_noEffect hsize cb (h hfail),
    fun hpass hfail => absurd hpass hfail⟩

end rejected

/-- A receiver that waits for data packet 1 of a file of 128 bytes. -/
def dataExpected : Receiver Unit := { Receiver.start 128 () with ymodemPacketNumber := 1 }

/-- Data packet 1, all zero, with a wrong CRC. -/
def spoiledData : List UInt8 := [ySoh, 1, 254] ++ (List.replicate 128 0 ++ [0, 1])

theorem calcCrc_zeros (n : Nat) : ymodemCalcCrc (List.replicate n 0) = 0 := by
  induction n with
  | zero => rfl
  | succ n ih =>
    have hstep : Nat.iterate calcCrcBit 8 (0 ^^^ (0 : UInt8).toUInt16 <<< (8 : UInt16)) = 0 := by
      decide
    rw [ymodemCalcCrc, List.replicate_succ, List.foldl_cons, hstep]
    exact ih

theorem crcMatches_spoiled {a b c : UInt8} :
    crcMatches ([a, b, c] ++ (List.replicate 128 0 ++ [0, 1])) 128 = false := by
  have hdata : packetData ([a, b, c] ++ (List.replicate 128 0 ++ [0, 1])) 128 =
      List.replicate 128 0 := bytesAt_append rfl List.length_replicate
  have hhi : ([a, b, c] ++ (List.replicate 128 0 ++ [0, 1])).getD (yPacketDataIndex + 128) 0 =
      0 := rfl
  have hlo : ([a, b, c] ++ (List.replicate 128 0 ++ [0, 1])).getD (yPacketDataIndex + 128 + 1) 0 =
      1 := rfl
  rw [crcMatches, hdata, calcCrc_zeros, hhi, hlo]
  rfl

theorem noEffect_iff_passes_sample :
    (¬ Passes dataExpected spoiledData 128 → NoEffect silentCallbacks dataExpected spoiledData) ↔
      Passes dataExpected spoiledData 128 :=
  noEffect_iff_passes rfl silentCallbacks dataExpected

/-- The spoiled packet is passed on, and nothing of the file is left for the intact one. -/
theorem spoiledData_taken :
    (ymodemHandlePacket silentCallbacks dataExpected spoiledData).2.1 =
        [.receiveFileData (List.replicate 128 0)] ∧
      (ymodemHandlePacket silentCallbacks dataExpected spoiledData).2.2.fileLen = 0 ∧
      ¬ (¬ Passes dataExpected spoiledData 128 →
        NoEffect silentCallbacks dataExpected spoiledData) := by
  have hfail : ¬ Passes dataExpected spoiledData 128 := fun h => by
    have := h.1
    rw [spoiledData, crcMatches_spoiled] at this
    cases this
  have hsize : packetSize spoiledData = some 128 := rfl
  have hdata : packetData spoiledData 128 = List.replicate 128 0 :=
    bytesAt_append rfl List.length_replicate
  have htaken : dataSize dataExpected (List.replicate 128 0) 128 = 128 :=
    dataSize_eq_min (by decide) (List.replicate 128 0) 128
  have hpath : ¬ (packetNumber spoiledData = 0 ∧ dataExpected.yFirstPacketReceived = false) :=
    fun h => absurd h.1 (by decide)
  rw [handlePacket_data hsize silentCallbacks hpath, handleData, hdata, htaken]
  exact ⟨by rw [List.take_of_length_le (Nat.le_of_eq List.length_replicate)],
    by rw [finishPacket_fileLen]; decide, fun h => not_noEffect rfl silentCallbacks (h hfail)⟩

end McuUtilities.Ymodem
