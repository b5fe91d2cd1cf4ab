import McuUtilities.Ymodem.Classify
import McuUtilities.Ymodem.Session

/-!
# What a result without error means

The log of a session falls into segments, each ended by a call of `receive_file_callback`. A
segment received a file when a header in it was acknowledged and the data acknowledged after that
is as long as the header announced. Along a run whose steps are all `Sound`, every completed
segment received a file, and a result without error counts them.
-/

namespace McuUtilities.Ymodem

variable {κ : Type}

/-! ## Segments of a log -/

/-- Ends the current segment, the second component, at a call of `receive_file_callback`. -/
def segmentStep (segs : List (List (Input × List Action)) × List (Input × List Action))
    (e : Input × List Action) : List (List (Input × List Action)) × List (Input × List Action) :=
  if .receiveFile ∈ e.2 then (segs.1 ++ [segs.2], []) else (segs.1, segs.2 ++ [e])

/-- The completed segments of a log, and what follows the last of them. -/
def segments (log : List (Input × List Action)) :
    List (List (Input × List Action)) × List (Input × List Action) :=
  log.foldl segmentStep ([], [])

/-- The length of the data that was acknowledged. -/
def ackedBytes : Input × List Action → Nat
  | (_, [.receiveFileData d, .transmitCh ch]) => if ch = yAck then d.length else 0
  | _ => 0

def acked (log : List (Input × List Action)) : Nat := (log.map ackedBytes).sum

/-- The answer to a header that was acknowledged. -/
def headerAnswer (name : List UInt8) (size : UInt32) : List Action :=
  [.receiveNanmeSize name size, .transmitCh yAck, .transmitCh yC]

/-- In the segment a header was acknowledged, and after it the data it announced. -/
def FileReceived (seg : List (Input × List Action)) : Prop :=
  ∃ pre i name size post, seg = pre ++ (i, headerAnswer name size) :: post ∧
    (size ≠ yNoLength → acked post = size.toNat)

/-- An intact header packet with an empty name. -/
def EndPacket (i : Input) : Prop :=
  ∃ header size, i = .data header ∧ packetSize header = some size ∧ fileName header size = [] ∧
    crcMatches header size = true ∧ packetNumber header = 0 ∧ complementMatches header = true

/-- The result counts the files received, and the session was ended by an end packet. -/
structure Truthful (log : List (Input × List Action)) (r : UInt16) : Prop where
  count : (segments log).1.length = r.toNat
  files : ∀ seg ∈ (segments log).1, FileReceived seg
  ended : ∃ log' i, log = log' ++ [(i, [.transmitCh yAck])] ∧ EndPacket i

/-! ## Sound steps -/

/-- A packet was acknowledged since the last file ended: the header of a file, with this state. -/
def HeaderAccepted (s : Receiver κ) : Prop :=
  s.ymodemPacketNumber ≠ 0 ∨ s.yFirstPacketReceived = true

/-- A header that fails a check, but does no harm: it has a name, its callback does not turn the
CRC error into another status, and no header was accepted yet, or one of the same size. -/
def HarmlessHeader (cb : Callbacks κ) (s : Receiver κ) (header : List UInt8) (size : Nat) : Prop :=
  let name := fileName header size
  let len := getFileLen (packetData header size)
  name ≠ [] ∧ (s.ymodemPacketNumber = 0 ∨ len = s.fileLen) ∧
    (crcMatches header size = true ∨ (cb.receiveNanmeSizeCallback name len s.app).1 = 0)

/-- Data that fails a check, but does no harm: it comes after a header, none of it is taken or the
size of the file is not known, and its callback does not turn the CRC error into another status. -/
def HarmlessData (cb : Callbacks κ) (s : Receiver κ) (header : List UInt8) (size : Nat) : Prop :=
  let data := packetData header size
  HeaderAccepted s ∧ (dataSize s data size = 0 ∨ s.fileLen = yNoLength) ∧
    (crcMatches header size = true ∨
      (cb.receiveFileDataCallback (data.take (dataSize s data size)) s.app).1 = 0)

/-- A step that does not reach a defect of the receiver: the name of a header ends within
`file_name`, a packet passes the checks or does no harm, and an EOT that completes a file finds a
header accepted, no announced byte missing, and room in the file counter. -/
def Sound (cb : Callbacks κ) (s : Receiver κ) : Input → Prop
  | .timeout => True
  | .data header =>
    (∀ size, packetSize header = some size → NameFits s header ∧ (Passes s header size ∨
      if packetNumber header = 0 ∧ s.yFirstPacketReceived = false then
        HarmlessHeader cb s header size
      else HarmlessData cb s header size)) ∧
    (header.getD 0 0 = yEot → s.eotNum ≠ 0 →
      HeaderAccepted s ∧ (s.fileLen = 0 ∨ s.fileLen = yNoLength) ∧ s.ymodemFileNumber ≠ 0xFFFF)

/-! ## What a sound run keeps -/

/-- In the current segment a header was acknowledged, and `left` is what is missing of its file. -/
def Open (seg : List (Input × List Action)) (left : UInt32) : Prop :=
  ∃ pre i name size post, seg = pre ++ (i, headerAnswer name size) :: post ∧
    (size = yNoLength ∧ left = yNoLength ∨
      left ≠ yNoLength ∧ acked post + left.toNat = size.toNat)

/-- The state agrees with the log. -/
structure Tracks (log : List (Input × List Action)) (s : Receiver κ) : Prop where
  count : (segments log).1.length = s.ymodemFileNumber.toNat
  files : ∀ seg ∈ (segments log).1, FileReceived seg
  current : HeaderAccepted s → Open (segments log).2 s.fileLen

section tracks
variable {log seg : List (Input × List Action)} {e : Input × List Action} {s s' : Receiver κ}
  {left : UInt32}

theorem segments_concat : segments (log ++ [e]) = segmentStep (segments log) e := by
  simp [segments]

/-- An entry without a call of `receive_file_callback` stays in the current segment. -/
theorem segments_stay (log : List (Input × List Action)) (he : .receiveFile ∉ e.2) :
    segments (log ++ [e]) = ((segments log).1, (segments log).2 ++ [e]) := by
  rw [segments_concat, segmentStep, if_neg he]

/-- A call of `receive_file_callback` completes the current segment. -/
theorem segments_close (log : List (Input × List Action)) (he : .receiveFile ∈ e.2) :
    segments (log ++ [e]) = ((segments log).1 ++ [(segments log).2], []) := by
  rw [segments_concat, segmentStep, if_pos he]

theorem acked_concat : acked (log ++ [e]) = acked log + ackedBytes e := by
  simp [acked]

theorem Open.concat (h : Open seg left) (he : ackedBytes e = 0) : Open (seg ++ [e]) left := by
  obtain ⟨pre, i, name, size, post, rfl, hsize⟩ := h
  refine ⟨pre, i, name, size, post ++ [e], by simp, ?_⟩
  rwa [acked_concat, he, Nat.add_zero]

theorem Open.data {i : Input} {d : List UInt8} {left' : UInt32} (h : Open seg left)
    (hknown : left ≠ yNoLength → left'.toNat + d.length = left.toNat)
    (hno : left = yNoLength → left' = yNoLength) :
    Open (seg ++ [(i, [.receiveFileData d, .transmitCh yAck])]) left' := by
  obtain ⟨pre, i', name, size, post, rfl, hsize⟩ := h
  refine ⟨pre, i', name, size, post ++ [(i, [.receiveFileData d, .transmitCh yAck])], by simp, ?_⟩
  have hd : ackedBytes (i, [.receiveFileData d, .transmitCh yAck]) = d.length := rfl
  rw [acked_concat, hd]
  rcases hsize with ⟨h1, h2⟩ | ⟨h1, h2⟩
  · exact .inl ⟨h1, hno h2⟩
  · have := hknown h1
    refine .inr ⟨fun h' => ?_, by omega⟩
    have hlt := left.toNat_lt
    have hmax : yNoLength.toNat = 2 ^ 32 - 1 := rfl
    apply h1
    rw [← UInt32.toNat_inj]
    rw [h'] at this
    omega

/-- An answer that acknowledges nothing and ends no file. -/
theorem Tracks.quiet (h : Tracks log s) (he : .receiveFile ∉ e.2) (hack : ackedBytes e = 0)
    (hn : s'.ymodemFileNumber = s.ymodemFileNumber)
    (hhead : HeaderAccepted s' → HeaderAccepted s ∧ s'.fileLen = s.fileLen) :
    Tracks (log ++ [e]) s' := by
  have hseg := segments_stay log he
  refine ⟨by rw [hseg, hn]; exact h.count, by rw [hseg]; exact h.files, fun hh => ?_⟩
  rw [hseg, (hhead hh).2]
  exact (h.current (hhead hh).1).concat hack

/-- A header that is acknowledged opens a file. -/
theorem Tracks.header {i : Input} {name : List UInt8} {size : UInt32} (h : Tracks log s)
    (hn : s'.ymodemFileNumber = s.ymodemFileNumber) (hl : s'.fileLen = size) :
    Tracks (log ++ [(i, headerAnswer name size)]) s' := by
  subst hl
  have hseg := segments_stay log (e := (i, headerAnswer name s'.fileLen))
    (by simp [headerAnswer])
  refine ⟨by rw [hseg, hn]; exact h.count, by rw [hseg]; exact h.files, fun _ => ?_⟩
  rw [hseg]
  refine ⟨_, i, name, s'.fileLen, [], rfl, ?_⟩
  by_cases hlen : s'.fileLen = yNoLength
  · exact .inl ⟨hlen, hlen⟩
  · exact .inr ⟨hlen, by simp [acked]⟩

/-- Data that is acknowledged. -/
theorem Tracks.data {i : Input} {d : List UInt8} (h : Tracks log s)
    (hn : s'.ymodemFileNumber = s.ymodemFileNumber) (hhead : HeaderAccepted s)
    (hknown : s.fileLen ≠ yNoLength → s'.fileLen.toNat + d.length = s.fileLen.toNat)
    (hno : s.fileLen = yNoLength → s'.fileLen = yNoLength) :
    Tracks (log ++ [(i, [.receiveFileData d, .transmitCh yAck])]) s' := by
  have hseg := segments_stay log (e := (i, [.receiveFileData d, .transmitCh yAck]))
    (by simp)
  refine ⟨by rw [hseg, hn]; exact h.count, by rw [hseg]; exact h.files, fun _ => ?_⟩
  rw [hseg]
  exact (h.current hhead).data hknown hno

/-- The second EOT closes the file. -/
theorem Tracks.close (h : Tracks log s) (he : .receiveFile ∈ e.2) (hhead : HeaderAccepted s)
    (hlen : s.fileLen = 0 ∨ s.fileLen = yNoLength)
    (hn : s'.ymodemFileNumber.toNat = s.ymodemFileNumber.toNat + 1) (hno : ¬ HeaderAccepted s') :
    Tracks (log ++ [e]) s' := by
  have hseg := segments_close log he
  refine ⟨?_, ?_, fun hh => absurd hh hno⟩
  · rw [hseg, List.length_append, h.count, hn]
    rfl
  · rw [hseg]
    intro seg hseg'
    rcases List.mem_append.mp hseg' with hm | hm
    · exact h.files seg hm
    · rw [List.mem_singleton] at hm
      subst hm
      obtain ⟨pre, i, name, size, post, hcur, hsize⟩ := h.current hhead
      refine ⟨pre, i, name, size, post, hcur, fun hne => ?_⟩
      rcases hsize with ⟨h1, -⟩ | ⟨h1, h2⟩
      · exact absurd h1 hne
      · rcases hlen with h0 | h0
        · rw [h0] at h2
          simpa using h2
        · exact absurd h0 h1

end tracks

/-! ## One step -/

/-- What a step of a sound run does: the state goes on agreeing with the log, or the receiver stops
with an error, or at an end packet. -/
def StepOutcome (log : List (Input × List Action)) (s : Receiver κ) (i : Input) :
    List Action × (Receiver κ ⊕ UInt16) → Prop
  | (out, .inl s') => Tracks (log ++ [(i, out)]) s'
  | (out, .inr r) => errorBit r = true ∨
      r = s.ymodemFileNumber ∧ out = [.transmitCh yAck] ∧ EndPacket i

section step
variable {cb : Callbacks κ} {log : List (Input × List Action)} {s : Receiver κ}
  {header : List UInt8} {size : Nat} {i : Input}

/-- The statuses of a CRC error are none that stops the receiver or is acknowledged. -/
theorem crc_status {c : UInt8} (hc : c = yErrorCrc ∨ c = yErrorCrc ||| yErrorNumber) :
    c ≠ yOk ∧ c ≠ yErrorFlash ∧ c ≠ yEoy := by
  rcases hc with rfl | rfl <;> decide

theorem errorHandler_outcome (h : Tracks log s) : StepOutcome log s i (ymodemErrorHandler s) := by
  rcases errorHandler_cases s with ⟨out, he⟩ | he
  · rw [he]
    exact .inl (errorBit_errorResult s)
  · rw [he]
    exact h.quiet (by simp) rfl rfl fun hh => ⟨hh, rfl⟩

/-- A packet that is refused, with a state that differs in nothing the log is about. -/
theorem refused_outcome {s' : Receiver κ} {as : List Action} {status : UInt8} (h : Tracks log s)
    (hp : ymodemHandlePacket cb s header = (status, as, s')) (hok : status ≠ yOk)
    (hflash : status ≠ yErrorFlash) (heoy : status ≠ yEoy)
    (has : .receiveFile ∉ as ++ [.transmitCh yNak])
    (hack : ackedBytes (i, as ++ [.transmitCh yNak]) = 0)
    (hn : s'.ymodemFileNumber = s.ymodemFileNumber)
    (hhead : HeaderAccepted s' → HeaderAccepted s ∧ s'.fileLen = s.fileLen) :
    StepOutcome log s i (receivePacket cb s header) := by
  rcases receivePacket_refused hp hok hflash heoy with ⟨out, he⟩ | he
  · rw [he]
    exact .inl (errorBit_errorResult s')
  · rw [he]
    exact h.quiet has hack hn hhead

theorem flash_outcome {s' : Receiver κ} {as : List Action}
    (hp : ymodemHandlePacket cb s header = (yErrorFlash, as, s')) :
    StepOutcome log s i (receivePacket cb s header) := by
  obtain ⟨out, he⟩ := receivePacket_flash hp
  rw [he]
  exact .inl (errorBit_errorResult s')

variable (hsize : packetSize header = some size)
include hsize

/-- The packet ends the batch. -/
theorem end_outcome (hb : packetNumber header = 0 ∧ s.yFirstPacketReceived = false)
    (hname : fileName header size = [])
    (hsound : Passes s header size ∨ HarmlessHeader cb s header size) :
    StepOutcome log s (.data header) (receivePacket cb s header) := by
  have hpass : Passes s header size := hsound.resolve_right fun hh => hh.1 hname
  have hp : ymodemHandlePacket cb s header = (yEoy, [], s) := by
    rw [handlePacket_first hsize cb hb]
    simp only [handleFirst, hname, List.length_nil, if_true]
    rcases checkPacket_cases header size s.ymodemPacketNumber with
      ⟨-, -, -, hc⟩ | ⟨-, hc⟩ | ⟨-, hc | hc⟩ <;> rw [hc] <;> rfl
  rw [receivePacket_eoy hp]
  exact .inr ⟨rfl, rfl, header, size, rfl, hsize, hname, hpass.1, hb.1, hpass.2.2⟩

/-- The packet is the header of a file. -/
theorem header_outcome (h : Tracks log s)
    (hb : packetNumber header = 0 ∧ s.yFirstPacketReceived = false)
    (hname : fileName header size ≠ [])
    (hsound : Passes s header size ∨ HarmlessHeader cb s header size) :
    StepOutcome log s (.data header) (receivePacket cb s header) := by
  have hlen : (fileName header size).length ≠ 0 := fun h0 =>
    hname (List.eq_nil_of_length_eq_zero h0)
  obtain ⟨res, app, hres⟩ : ∃ res app, cb.receiveNanmeSizeCallback (fileName header size)
      (getFileLen (packetData header size)) s.app = (res, app) := ⟨_, _, rfl⟩
  have hp := handlePacket_first hsize cb hb
  simp only [handleFirst, if_neg hlen, hres] at hp
  have hquiet : ∀ s' : Receiver κ, s'.ymodemPacketNumber = s.ymodemPacketNumber →
      s'.yFirstPacketReceived = s.yFirstPacketReceived →
      s'.fileLen = getFileLen (packetData header size) →
      (s.ymodemPacketNumber = 0 ∨ getFileLen (packetData header size) = s.fileLen) →
      HeaderAccepted s' → HeaderAccepted s ∧ s'.fileLen = s.fileLen := by
    intro s' hn hf hl hor hh
    have hh' : s.ymodemPacketNumber ≠ 0 := by
      rcases hh with hh | hh
      · rwa [hn] at hh
      · rw [hf, hb.2] at hh
        cases hh
    exact ⟨.inl hh', hl.trans (hor.resolve_left hh')⟩
  rcases checkPacket_cases header size s.ymodemPacketNumber with
    ⟨-, hn, -, hc⟩ | ⟨-, hc⟩ | ⟨hcrc, hc⟩
  · rw [hc] at hp
    by_cases hr : res = 0
    · simp only [hr, ne_eq, not_true_eq_false, if_false, finishPacket, if_true] at hp
      rw [receivePacket_ok hp]
      simp only [hb.2, if_true]
      exact h.header rfl rfl
    · simp only [ne_eq, hr, not_false_eq_true, if_true] at hp
      exact flash_outcome hp
  · rw [hc] at hp
    have hor : s.ymodemPacketNumber = 0 ∨ getFileLen (packetData header size) = s.fileLen := by
      rcases hsound with hpass | hh
      · exact .inl (hpass.2.1.trans hb.1)
      · exact hh.2.1
    by_cases hr : res = 0
    · simp only [hr, ne_eq, not_true_eq_false, if_false, finishPacket] at hp
      exact refused_outcome h hp (by decide) (by decide) (by decide) (by simp) rfl rfl
        (hquiet _ rfl rfl rfl hor)
    · simp only [ne_eq, hr, not_false_eq_true, if_true] at hp
      exact flash_outcome hp
  · have hh : HarmlessHeader cb s header size := hsound.resolve_left fun hpass => by
      rw [hpass.1] at hcrc
      cases hcrc
    have hr : res = 0 := by
      have := hh.2.2.resolve_left (by rw [hcrc]; decide)
      rwa [hres] at this
    have hbad := crc_status hc
    simp only [hr, ne_eq, not_true_eq_false, if_false, finishPacket, if_neg hbad.1] at hp
    exact refused_outcome h hp hbad.1 hbad.2.1 hbad.2.2 (by simp) rfl rfl
      (hquiet _ rfl rfl rfl hh.2.1)

/-- The packet is data. -/
theorem data_outcome (h : Tracks log s)
    (hb : ¬ (packetNumber header = 0 ∧ s.yFirstPacketReceived = false))
    (hsound : Passes s header size ∨ HarmlessData cb s header size) :
    StepOutcome log s (.data header) (receivePacket cb s header) := by
  obtain ⟨res, app, hres⟩ : ∃ res app, cb.receiveFileDataCallback
      ((packetData header size).take (dataSize s (packetData header size) size)) s.app =
        (res, app) := ⟨_, _, rfl⟩
  have hp := handlePacket_data hsize cb hb
  simp only [handleData, hres] at hp
  -- the length that is left over when nothing is taken or it is not known
  have hsame : (dataSize s (packetData header size) size = 0 ∨ s.fileLen = yNoLength) →
      (if s.fileLen ≠ yNoLength then
        s.fileLen - UInt32.ofNat (dataSize s (packetData header size) size) else s.fileLen) =
        s.fileLen := by
    intro hor
    split
    · next hknown =>
      rw [hor.resolve_right hknown]
      exact UInt32.sub_zero _
    · rfl
  rcases checkPacket_cases header size s.ymodemPacketNumber with
    ⟨-, hn, -, hc⟩ | ⟨-, hc⟩ | ⟨hcrc, hc⟩
  · rw [hc] at hp
    have hhead : HeaderAccepted s := by
      by_cases hn0 : s.ymodemPacketNumber = 0
      · refine .inr ?_
        cases hf : s.yFirstPacketReceived with
        | true => rfl
        | false => exact absurd ⟨hn.symm.trans hn0, hf⟩ hb
      · exact .inl hn0
    by_cases hr : res = 0
    · simp only [hr, ne_eq, not_true_eq_false, if_false, finishPacket, if_true] at hp
      rw [receivePacket_ok hp]
      simp only [Bool.true_eq_false, if_false]
      refine h.data rfl hhead (fun hknown => ?_) (fun hno => ?_)
      · have hlen : (packetData header size).length = size := by
          rw [packetData, bytesAt, length_slice]
        simp only [hknown, not_false_eq_true, if_true, List.length_take, hlen]
        have hleft := dataSize_left hknown (packetData header size) size
        have hmin := dataSize_eq_min hknown (packetData header size) size
        omega
      · simp only [hno, not_true_eq_false, if_false]
    · simp only [ne_eq, hr, not_false_eq_true, if_true] at hp
      exact flash_outcome hp
  · rw [hc] at hp
    by_cases hr : res = 0
    · have hh : HarmlessData cb s header size := by
        refine hsound.resolve_left fun hpass => ?_
        have : checkPacket header size s.ymodemPacketNumber = yOk := by
          simp only [checkPacket, hpass.1, hpass.2.1, hpass.2.2, if_true]
          rfl
        rw [hc] at this
        exact absurd this (by decide)
      simp only [hr, ne_eq, not_true_eq_false, if_false, finishPacket] at hp
      exact refused_outcome h hp (by decide) (by decide) (by decide) (by simp) rfl rfl
        fun _ => ⟨hh.1, hsame hh.2.1⟩
    · simp only [ne_eq, hr, not_false_eq_true, if_true] at hp
      exact flash_outcome hp
  · have hh : HarmlessData cb s header size := hsound.resolve_left fun hpass => by
      rw [hpass.1] at hcrc
      cases hcrc
    have hr : res = 0 := by
      have := hh.2.2.resolve_left (by rw [hcrc]; decide)
      rwa [hres] at this
    have hbad := crc_status hc
    simp only [hr, ne_eq, not_true_eq_false, if_false, finishPacket, if_neg hbad.1] at hp
    exact refused_outcome h hp hbad.1 hbad.2.1 hbad.2.2 (by simp) rfl rfl
      fun _ => ⟨hh.1, hsame hh.2.1⟩

omit hsize in
/-- An EOT that completes a file closes it; the first one changes nothing the log is about. -/
theorem eot_outcome (h : Tracks log s)
    (hsound : s.eotNum ≠ 0 → HeaderAccepted s ∧ (s.fileLen = 0 ∨ s.fileLen = yNoLength) ∧
      s.ymodemFileNumber ≠ 0xFFFF) :
    StepOutcome log s i (receiveEot cb s) := by
  unfold receiveEot
  split
  · next heot =>
    have hne : s.eotNum ≠ 0 := by
      intro h0
      rw [h0] at heot
      exact absurd heot (by decide)
    obtain ⟨hhead, hlen, hmax⟩ := hsound hne
    refine h.close (by simp) hhead hlen ?_ ?_
    · have hlt : s.ymodemFileNumber.toNat ≠ 0xFFFF := fun he => hmax (UInt16.toNat_inj.mp he)
      have := s.ymodemFileNumber.toNat_lt
      rw [UInt16.toNat_add]
      have h1 : (1 : UInt16).toNat = 1 := rfl
      omega
    · rintro (hh | hh)
      · exact hh rfl
      · cases hh
  · exact h.quiet (by simp) rfl rfl fun hh => ⟨hh, rfl⟩

omit hsize in
/-- Every sound step. -/
theorem sound_step (h : Tracks log s) (hsound : Sound cb s i) :
    StepOutcome log s i (receiveStep cb s i) := by
  cases i with
  | timeout =>
    simp only [receiveStep]
    split
    · exact h.quiet (by simp) rfl rfl fun hh => ⟨hh, rfl⟩
    · exact errorHandler_outcome h
  | data header =>
    obtain ⟨hpacket, heot⟩ := hsound
    simp only [receiveStep]
    split
    · next hch =>
      obtain ⟨size, hsize⟩ := packetSize_of_start hch
      have hs := (hpacket size hsize).2
      by_cases hb : packetNumber header = 0 ∧ s.yFirstPacketReceived = false
      · rw [if_pos hb] at hs
        by_cases hname : fileName header size = []
        · exact end_outcome hsize hb hname hs
        · exact header_outcome hsize h hb hname hs
      · rw [if_neg hb] at hs
        exact data_outcome hsize h hb hs
    · split
      · next hch => exact eot_outcome h (heot hch)
      · split
        · exact .inl (errorBit_errorResult s)
        · exact errorHandler_outcome h

end step

/-! ## Sessions -/

theorem Tracks.start (fileLen : UInt32) (app : κ) : Tracks [] (Receiver.start fileLen app) where
  count := rfl
  files := by simp [segments]
  current := by
    rintro (hh | hh)
    · exact absurd rfl hh
    · cases hh

/-- When every step of a session is sound, a result without error is truthful: it is the number of
files that were completely received, and the session was ended by an intact end packet. -/
theorem truthful_of_sound {cb : Callbacks κ} {fileLen : UInt32} {app : κ} {inputs : List Input}
    {sent : List Action} {log : List (Input × List Action)} {r : UInt16}
    (hsound : (receiver cb).Along (Sound cb) (Receiver.start fileLen app) inputs)
    (hrun : ymodemReceive cb fileLen app inputs = (sent, log, .inr r)) (hok : errorBit r = false) :
    Truthful log r := by
  have hinv := Machine.run_invariant (I := Tracks) (fun log s i out s' h hC hstep => by
    have := sound_step h hC
    rwa [show receiveStep cb s i = (out, .inl s') from hstep] at this)
    (Tracks.start fileLen app) hsound
  have hlog : (receiver cb).run (Receiver.start fileLen app) inputs = (log, .inr r) :=
    (Prod.mk.inj hrun).2
  rw [hlog] at hinv
  obtain ⟨log₁, s, i, out, h, hC, hstep, hlog⟩ := hinv
  rw [List.nil_append] at hlog
  have hout := sound_step h hC
  rw [show receiveStep cb s i = (out, .inr r) from hstep] at hout
  rcases hout with herr | ⟨rfl, rfl, hend⟩
  · rw [herr] at hok
    cases hok
  · subst hlog
    have hseg := segments_stay log₁ (e := (i, [.transmitCh yAck])) (by simp)
    exact ⟨by rw [hseg]; exact h.count, by rw [hseg]; exact h.files, log₁, i, rfl, hend⟩

/-- An intact packet with the expected number is sound, if it is no header with a long name. -/
theorem sound_packet {cb : Callbacks κ} {s : Receiver κ} {n : UInt8} {data residue : List UInt8}
    (hsize : data.length = 128 ∨ data.length = 1024) (hn : s.ymodemPacketNumber = n)
    (hfits : NameFits s (packet n data ++ residue)) :
    Sound cb s (.data (packet n data ++ residue)) := by
  refine ⟨fun size hs => ⟨hfits, .inl ?_⟩, fun hch => ?_⟩
  · rw [packetSize_packet hsize, Option.some_inj] at hs
    subst hs
    exact ⟨crcMatches_packet, hn, complementMatches_packet⟩
  · have hstart := startByte_packet hsize n residue
    rw [hch] at hstart
    exact absurd hstart (by decide)

/-- An EOT is sound when it completes no file, or one whose bytes are all there. -/
theorem sound_eot {cb : Callbacks κ} {s : Receiver κ} {residue : List UInt8}
    (h : s.eotNum ≠ 0 → HeaderAccepted s ∧ (s.fileLen = 0 ∨ s.fileLen = yNoLength) ∧
      s.ymodemFileNumber ≠ 0xFFFF) :
    Sound cb s (.data ([yEot] ++ residue)) := by
  refine ⟨fun size hs => ?_, fun _ => h⟩
  have hnone : packetSize ([yEot] ++ residue) = none := rfl
  rw [hnone] at hs
  cases hs

section conforming
variable {cb : Callbacks κ} (hcb : cb.Accepting) {s : Receiver κ} {is : List Input} {k : Nat}
include hcb

theorem along_dataPackets {chunks : List (List UInt8)} {left : Nat} {n : UInt8}
    (hs : Receiving s n left k) (hsize : ∀ c ∈ chunks, c.length = 128 ∨ c.length = 1024)
    (his : Conveys is (dataPackets n chunks)) : (receiver cb).Along (Sound cb) s is := by
  induction chunks generalizing left n s is with
  | nil =>
    cases his
    trivial
  | cons c chunks ih =>
    obtain ⟨residue, is', rfl, his'⟩ := Conveys.cons his
    have hc := hsize c List.mem_cons_self
    obtain ⟨s₁, hstep, hs₁, -⟩ := receive_data residue hcb hs hc
    exact Machine.along_cons (sound_packet hc hs.number (nameFits_of_data hs.notFirst)) hstep
      (ih hs₁ (fun d hd => hsize d (List.mem_cons_of_mem c hd)) his')

omit hcb in
theorem along_eots (hs : HeaderAccepted s) (hlen : s.fileLen = 0) (heot : s.eotNum = 0)
    (hk : s.ymodemFileNumber = UInt16.ofNat k) (hlt : k < 65535)
    (his : Conveys is [⟨[yEot], [yNak]⟩, ⟨[yEot], [yAck, yC]⟩]) :
    (receiver cb).Along (Sound cb) s is := by
  obtain ⟨residue₁, is₁, rfl, his₁⟩ := his.cons
  obtain ⟨residue₂, is₂, rfl, his₂⟩ := his₁.cons
  cases his₂
  have hfew : s.ymodemFileNumber ≠ 0xFFFF := by
    intro h
    have hsize : UInt16.size = 2 ^ 16 := rfl
    have := congrArg UInt16.toNat (hk.symm.trans h)
    rw [UInt16.toNat_ofNat_of_lt' (by omega)] at this
    have h1 : (0xFFFF : UInt16).toNat = 65535 := rfl
    omega
  obtain ⟨s', hstep, -⟩ := receive_eot_again residue₂ cb (s := { s with eotNum := 1 }) rfl hk
  refine Machine.along_cons (sound_eot fun h => absurd heot h) (receive_eot residue₁ cb heot) ?_
  exact Machine.along_cons (sound_eot fun _ => ⟨hs, .inl hlen, hfew⟩) hstep trivial

theorem along_transfer {t : Transfer} (hs : Awaiting s k) (hlt : k < 65535)
    (his : Conveys is t.sent) : (receiver cb).Along (Sound cb) s is := by
  obtain ⟨residue, is', rfl, his'⟩ := his.cons
  obtain ⟨is₁, is₂, rfl, his₁, his₂⟩ := his'.append
  have hlen : decimal t.block.digits < 0xFFFFFFFF := t.size_eq ▸ t.contents_lt
  obtain ⟨s₁, hstep, hs₁, -⟩ := receive_header residue hcb hs t.block hlen
  rw [t.size_eq] at hstep hs₁
  obtain ⟨log, s₂, n, pieces, hrun, hs₂, -, -, -⟩ :=
    run_dataPackets hcb hs₁ t.chunk_size t.covers his₁
  have hopen : HeaderAccepted s₂ := by
    rcases hs₂.notFirst with h | h
    · exact .inr h
    · exact .inl (by rwa [hs₂.number])
  have hfits : NameFits s (packet 0 t.block.bytes ++ residue) :=
    nameFits_packet rfl (Nat.lt_succ_of_le t.block.name_le) s
  exact Machine.along_cons (sound_packet (.inl t.block.length_bytes) hs.number hfits) hstep
    (Machine.along_append hrun (along_dataPackets hcb hs₁ t.chunk_size his₁)
      (along_eots hopen hs₂.len hs₂.eot hs₂.files hlt his₂))

theorem along_transfers {ts : List Transfer} (hs : Awaiting s k) (hlt : k + ts.length ≤ 65535)
    (his : Conveys is (ts.flatMap Transfer.sent)) : (receiver cb).Along (Sound cb) s is := by
  induction ts generalizing k s is with
  | nil =>
    cases his
    trivial
  | cons t ts ih =>
    rw [List.length_cons] at hlt
    obtain ⟨is₁, is₂, rfl, his₁, his₂⟩ := his.append
    obtain ⟨log, s₁, hrun, hs₁, -, -⟩ := run_transfer hcb hs his₁
    exact Machine.along_append hrun (along_transfer hcb hs (by omega) his₁)
      (ih hs₁ (by omega) his₂)

/-- The session of a conforming sender is sound. -/
theorem along_batch {b : Batch} (hs : Awaiting s 0) (hlt : b.transfers.length ≤ 65535)
    (his : Conveys is b.sent) : (receiver cb).Along (Sound cb) s is := by
  obtain ⟨is₁, is₂, rfl, his₁, his₂⟩ := his.append
  obtain ⟨residue, is', rfl, his'⟩ := his₂.cons
  cases his'
  obtain ⟨log, s', hrun, hs', -, -⟩ := run_transfers hcb hs his₁
  have hsize : (0 :: b.rest).length = 128 := by rw [List.length_cons, b.length_rest]
  have hfits : NameFits s' (packet 0 (0 :: b.rest) ++ residue) :=
    nameFits_packet (List.nil_append _).symm (by decide) s'
  exact Machine.along_append hrun (along_transfers hcb hs (by omega) his₁)
    (Machine.along_stop (sound_packet (.inl hsize) hs'.number hfits)
      (receive_end residue cb b.length_rest hs'))

end conforming

/-! ## A session that is truthful and one that is not -/

theorem truthful_oneFileBatch :
    ∃ log, ymodemReceive silentCallbacks 0 () (oneFileBatch.sent.map fun p => .data (p.bytes ++ []))
        = ([.transmitCh yC], log, .inr 1) ∧ errorBit 1 = false ∧ Truthful log 1 := by
  have hcb := accepting_silentCallbacks
  have hs := Receiver.awaiting_start 0 ()
  have his := conveys_bytes oneFileBatch.sent
  obtain ⟨log, hrun, -, -⟩ := run_batch hcb hs his
  have h : ymodemReceive silentCallbacks 0 ()
      (oneFileBatch.sent.map fun p => .data (p.bytes ++ [])) =
      ([.transmitCh yC], log, .inr 1) := by
    rw [ymodemReceive, hrun]
    rfl
  exact ⟨log, h, by decide,
    truthful_of_sound (along_batch hcb hs (by decide) his) h (by decide)⟩

/-- Two EOTs and an end packet, before any header. -/
theorem run_twoEots (cb : Callbacks κ) {s : Receiver κ} {rest : List UInt8}
    (hrest : rest.length = 127) (hs : Awaiting s 0) :
    (receiver cb).run s [.data ([yEot] ++ []), .data ([yEot] ++ []),
      .data (packet 0 (0 :: rest) ++ [])] =
      ([(.data ([yEot] ++ []), [.transmitCh yNak]),
        (.data ([yEot] ++ []), [.transmitCh yAck, .receiveFile, .transmitCh yC]),
        (.data (packet 0 (0 :: rest) ++ []), [.transmitCh yAck])], .inr 1) := by
  obtain ⟨s₂, hs₂, h₂⟩ := receive_eot_again [] cb (s := { s with eotNum := 1 }) rfl hs.files
  rw [Machine.run_cons (receive_eot [] cb hs.eot), Machine.run_cons hs₂,
    Machine.run_stop (receive_end [] cb hrest h₂)]
  rfl

/-- The session counts one file and reports no error, though no header and no data was received. -/
theorem not_truthful_twoEots :
    ∃ log, ymodemReceive silentCallbacks 0 () [.data ([yEot] ++ []), .data ([yEot] ++ []),
        .data (packet 0 (0 :: List.replicate 127 0) ++ [])] =
      ([.transmitCh yC], log, .inr 1) ∧ errorBit 1 = false ∧ ¬ Truthful log 1 := by
  have hrest : (List.replicate 127 (0 : UInt8)).length = 127 := List.length_replicate
  have hrun := run_twoEots silentCallbacks hrest (Receiver.awaiting_start 0 ())
  refine ⟨_, by rw [ymodemReceive, hrun], by decide, fun h => ?_⟩
  have hfile := h.files [(.data ([yEot] ++ []), [.transmitCh yNak])] (by
    simp [segments, segmentStep])
  obtain ⟨pre, i, name, size, post, hseg, -⟩ := hfile
  have hmem : (i, headerAnswer name size) ∈
      [((.data ([yEot] ++ []) : Input), [Action.transmitCh yNak])] := by
    rw [hseg]
    simp
  simp [headerAnswer] at hmem

end McuUtilities.Ymodem
