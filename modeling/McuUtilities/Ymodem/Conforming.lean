import McuUtilities.Ymodem.Packet

/-!
# A conforming sender

What a conforming sender sends for a batch of files, packet by packet, with the reply it waits for
before it goes on; how the receiver answers each of these packets.
-/

namespace McuUtilities.Ymodem

variable {κ : Type}

/-- All callbacks return 0. -/
structure Callbacks.Accepting (cb : Callbacks κ) : Prop where
  nameSize : ∀ name size app, (cb.receiveNanmeSizeCallback name size app).1 = 0
  fileData : ∀ data app, (cb.receiveFileDataCallback data app).1 = 0

/-! ## The sender -/

/-- A file, its header block and the data it is sent as. -/
structure Transfer where
  block : HeaderBlock
  contents : List UInt8
  chunks : List (List UInt8)
  contents_lt : contents.length < 0xFFFFFFFF
  size_eq : decimal block.digits = contents.length
  chunk_size : ∀ c ∈ chunks, c.length = 128 ∨ c.length = 1024
  covers : contents <+: chunks.flatten

/-- A batch of files and the header block with an empty name that ends it. -/
structure Batch where
  transfers : List Transfer
  rest : List UInt8
  length_rest : rest.length = 127

/-- A frame of the sender and the reply it gets when nothing is lost. -/
structure Sent where
  bytes : List UInt8
  reply : List UInt8

/-- The data packets from number `n` on. -/
def dataPackets : UInt8 → List (List UInt8) → List Sent
  | _, [] => []
  | n, c :: cs => ⟨packet n c, [yAck]⟩ :: dataPackets (n + 1) cs

def Transfer.sent (t : Transfer) : List Sent :=
  ⟨packet 0 t.block.bytes, [yAck, yC]⟩ ::
    (dataPackets 1 t.chunks ++ [⟨[yEot], [yNak]⟩, ⟨[yEot], [yAck, yC]⟩])

def Batch.sent (b : Batch) : List Sent :=
  b.transfers.flatMap Transfer.sent ++ [⟨packet 0 (0 :: b.rest), [yAck]⟩]

/-- The inputs carry the frames, each in front of what was in the buffer. -/
def Conveys : List Input → List Sent → Prop :=
  List.Forall₂ fun i p => ∃ residue, i = .data (p.bytes ++ residue)

/-! ## The receiver -/

/-- The receiver waits for the header of a file, with `k` files received. -/
structure Awaiting (s : Receiver κ) (k : Nat) : Prop where
  first : s.yFirstPacketReceived = false
  number : s.ymodemPacketNumber = 0
  eot : s.eotNum = 0
  files : s.ymodemFileNumber = UInt16.ofNat k

/-- The receiver waits for data packet `n` with `left` bytes of the file still to come. -/
structure Receiving (s : Receiver κ) (n : UInt8) (left k : Nat) : Prop where
  number : s.ymodemPacketNumber = n
  notFirst : s.yFirstPacketReceived = true ∨ n ≠ 0
  len : s.fileLen = UInt32.ofNat left
  left_lt : left < 0xFFFFFFFF
  eot : s.eotNum = 0
  files : s.ymodemFileNumber = UInt16.ofNat k

/-- The bytes among the actions that go to the sender. -/
def bytesSent (out : List Action) : List UInt8 :=
  out.filterMap fun a => match a with
    | .transmitCh ch => some ch
    | _ => none

/-- The calls of the callbacks among the actions. -/
def calls (out : List Action) : List Action :=
  out.filter fun a => match a with
    | .transmitCh _ => false
    | _ => true

section steps
variable {cb : Callbacks κ} {s : Receiver κ} (residue : List UInt8) {n : UInt8} {left k : Nat}

/-- The last packet of a batch. -/
theorem handle_end {rest : List UInt8} (hrest : rest.length = 127)
    (hf : s.yFirstPacketReceived = false) (hn : s.ymodemPacketNumber = 0) :
    ymodemHandlePacket cb s (packet 0 (0 :: rest) ++ residue) = (yEoy, [], s) := by
  have hsize : (0 :: rest).length = 128 ∨ (0 :: rest).length = 1024 := .inl (by simp [hrest])
  have hname : fileName (packet 0 (0 :: rest) ++ residue) (0 :: rest).length = [] :=
    fileName_packet (rfl : 0 :: rest = [] ++ 0 :: rest) (by simp)
  simp only [ymodemHandlePacket, packetSize_packet hsize, packetNumber_packet, hf, and_self,
    if_true, handleFirst, hname, checkPacket_packet, hn, List.length_nil]
  rfl

variable (hcb : cb.Accepting)
include hcb

/-- The first packet of a file, whether it is expected or not. -/
theorem handle_header (b : HeaderBlock) (hf : s.yFirstPacketReceived = false) :
    ∃ app, ymodemHandlePacket cb s (packet 0 b.bytes ++ residue) =
      (if s.ymodemPacketNumber = 0 then yOk else yErrorNumber,
        [.receiveNanmeSize b.name (UInt32.ofNat (decimal b.digits))],
        { s with
          fileLen := UInt32.ofNat (decimal b.digits)
          app := app
          ymodemPacketNumber := if s.ymodemPacketNumber = 0 then 1 else s.ymodemPacketNumber }) := by
  have hsize : b.bytes.length = 128 ∨ b.bytes.length = 1024 := .inl b.length_bytes
  have hname : b.name.length ≠ 0 := fun h => b.name_ne_nil (List.eq_nil_of_length_eq_zero h)
  have hres := hcb.nameSize b.name (UInt32.ofNat (decimal b.digits)) s.app
  refine ⟨(cb.receiveNanmeSizeCallback b.name (UInt32.ofNat (decimal b.digits)) s.app).2, ?_⟩
  simp only [ymodemHandlePacket, packetSize_packet hsize, packetNumber_packet, hf, and_self,
    if_true, handleFirst, b.fileName_bytes, if_neg hname, packetData_packet, b.getFileLen_bytes,
    checkPacket_packet, hres, ne_eq, not_true_eq_false, if_false, finishPacket]
  by_cases hn : s.ymodemPacketNumber = 0
  · simp only [hn, if_true]
    rfl
  · simp only [if_neg hn]
    rfl

/-- A data packet, whether it is the expected one or not. -/
theorem handle_data {data : List UInt8} (hsize : data.length = 128 ∨ data.length = 1024)
    (hnf : s.yFirstPacketReceived = true ∨ n ≠ 0) (hlen : s.fileLen = UInt32.ofNat left)
    (hleft : left < 0xFFFFFFFF) :
    ∃ app, ymodemHandlePacket cb s (packet n data ++ residue) =
      (if s.ymodemPacketNumber = n then yOk else yErrorNumber,
        [.receiveFileData (data.take left)],
        { s with
          fileLen := UInt32.ofNat (left - data.length)
          app := app
          yFirstPacketReceived := true
          ymodemPacketNumber :=
            if s.ymodemPacketNumber = n then n + 1 else s.ymodemPacketNumber }) := by
  have hbranch : ¬ (n = 0 ∧ s.yFirstPacketReceived = false) := by
    rintro ⟨h0, hf⟩
    rcases hnf with h | h
    · rw [hf] at h; cases h
    · exact h h0
  have hsize32 : UInt32.size = 2 ^ 32 := rfl
  have htoNat : s.fileLen.toNat = left := by
    rw [hlen, UInt32.toNat_ofNat_of_lt' (by omega)]
  have hknown : s.fileLen ≠ yNoLength := by
    intro h
    rw [h] at htoNat
    have : yNoLength.toNat = 0xFFFFFFFF := rfl
    omega
  have htake : data.take (dataSize s data data.length) = data.take left := by
    rw [dataSize, if_neg hknown, htoNat]
    split
    · rfl
    · rw [List.take_length, List.take_of_length_le (by omega)]
  have hsub : s.fileLen - UInt32.ofNat (dataSize s data data.length) =
      UInt32.ofNat (left - data.length) := by
    have hds : dataSize s data data.length = min left data.length := by
      rw [dataSize, if_neg hknown, htoNat]
      split <;> omega
    apply UInt32.toNat_inj.mp
    rw [hds, UInt32.toNat_sub_of_le]
    · rw [htoNat, UInt32.toNat_ofNat_of_lt' (by omega), UInt32.toNat_ofNat_of_lt' (by omega)]
      omega
    · rw [UInt32.le_iff_toNat_le, htoNat, UInt32.toNat_ofNat_of_lt' (by omega)]
      omega
  have hres := hcb.fileData (data.take left) s.app
  refine ⟨(cb.receiveFileDataCallback (data.take left) s.app).2, ?_⟩
  simp only [ymodemHandlePacket, packetSize_packet hsize, packetNumber_packet, if_neg hbranch,
    handleData, packetData_packet, htake, checkPacket_packet, hres, ne_eq, not_true_eq_false,
    if_false, hknown, not_false_eq_true, if_true, hsub, finishPacket]
  by_cases hn : s.ymodemPacketNumber = n
  · simp only [hn, if_true]
  · simp only [if_neg hn]
    rfl

/-- The header of a file is announced and acknowledged. -/
theorem receive_header (h : Awaiting s k) (b : HeaderBlock)
    (hlt : decimal b.digits < 0xFFFFFFFF) :
    ∃ s', receiveStep cb s (.data (packet 0 b.bytes ++ residue)) =
      ([.receiveNanmeSize b.name (UInt32.ofNat (decimal b.digits)), .transmitCh yAck,
        .transmitCh yC], .inl s') ∧ Receiving s' 1 (decimal b.digits) k ∧
        s'.yFirstPacketReceived = false := by
  obtain ⟨app, hp⟩ := handle_header residue hcb b h.first
  have hch := startByte_packet (.inl b.length_bytes) 0 residue
  refine ⟨{ s with fileLen := UInt32.ofNat (decimal b.digits), app, ymodemPacketNumber := 1 },
    ?_, ⟨rfl, .inr (by decide), rfl, hlt, h.eot, h.files⟩, h.first⟩
  simp only [receiveStep, if_pos hch, receivePacket, hp, h.number, if_true, h.first]
  rfl

/-- A data packet is delivered, up to the end of the file, and acknowledged. -/
theorem receive_data {data : List UInt8} (h : Receiving s n left k)
    (hsize : data.length = 128 ∨ data.length = 1024) :
    ∃ s', receiveStep cb s (.data (packet n data ++ residue)) =
      ([.receiveFileData (data.take left), .transmitCh yAck], .inl s') ∧
      Receiving s' (n + 1) (left - data.length) k ∧ s'.yFirstPacketReceived = true := by
  obtain ⟨app, hp⟩ := handle_data residue hcb hsize h.notFirst h.len h.left_lt
  have hch := startByte_packet hsize n residue
  refine ⟨{ s with
      fileLen := UInt32.ofNat (left - data.length), app, yFirstPacketReceived := true
      ymodemPacketNumber := n + 1 },
    ?_, ⟨rfl, .inl rfl, rfl, by have := h.left_lt; omega, h.eot, h.files⟩, rfl⟩
  simp only [receiveStep, if_pos hch, receivePacket, hp, h.number, if_true]
  rfl

omit hcb

/-- The first EOT is refused. -/
theorem receive_eot (cb : Callbacks κ) (h : s.eotNum = 0) :
    receiveStep cb s (.data ([yEot] ++ residue)) =
      ([.transmitCh yNak], .inl { s with eotNum := 1 }) := by
  have h0 : ([yEot] ++ residue).getD 0 0 = yEot := rfl
  have h1 : ¬ (yEot = ySoh ∨ yEot = yStx) := by decide
  have h2 : ¬ (1 : UInt8) < 0 + 1 := by decide
  simp only [receiveStep, h0, if_neg h1, if_true, receiveEot, h, if_neg h2]
  rfl

/-- The second EOT ends the file. -/
theorem receive_eot_again (cb : Callbacks κ) (h : s.eotNum = 1) (hk : s.ymodemFileNumber = UInt16.ofNat k) :
    ∃ s', receiveStep cb s (.data ([yEot] ++ residue)) =
      ([.transmitCh yAck, .receiveFile, .transmitCh yC], .inl s') ∧ Awaiting s' (k + 1) := by
  have h0 : ([yEot] ++ residue).getD 0 0 = yEot := rfl
  have h1 : ¬ (yEot = ySoh ∨ yEot = yStx) := by decide
  have h2 : (1 : UInt8) < 1 + 1 := by decide
  refine ⟨{ s with
      yFirstPacketReceived := false, ymodemPacketNumber := 0, eotNum := 0
      ymodemFileNumber := s.ymodemFileNumber + 1, app := cb.receiveFileCallback s.app },
    ?_, rfl, rfl, rfl, ?_⟩
  · simp only [receiveStep, h0, if_neg h1, if_true, receiveEot, h, if_pos h2]
  · simp only [hk, UInt16.ofNat_add]
    rfl

/-- The last packet ends the session. -/
theorem receive_end (cb : Callbacks κ) {rest : List UInt8} (hrest : rest.length = 127) (h : Awaiting s k) :
    receiveStep cb s (.data (packet 0 (0 :: rest) ++ residue)) =
      ([.transmitCh yAck], .inr (UInt16.ofNat k)) := by
  have hsize : (0 :: rest).length = 128 ∨ (0 :: rest).length = 1024 := .inl (by simp [hrest])
  have hch := startByte_packet hsize 0 residue
  simp only [receiveStep, if_pos hch, receivePacket, handle_end residue hrest h.first h.number, h.files]
  rfl

end steps

end McuUtilities.Ymodem
