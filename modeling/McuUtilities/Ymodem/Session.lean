import Mathlib.Data.List.Forall2
import McuUtilities.Ymodem.Conforming

/-!
# A session with a conforming sender

The receiver answers every frame with the reply the sender waits for, and hands each file over
once: its header, its bytes, its end.
-/

namespace McuUtilities.Ymodem

variable {κ : Type}

/-- Every frame was answered with the reply the sender waits for. -/
def AnswersAll (log : List (Input × List Action)) (sent : List Sent) : Prop :=
  log.map (fun e => bytesSent e.2) = sent.map Sent.reply

/-- The calls of the callbacks in a log. -/
def logCalls (log : List (Input × List Action)) : List Action := log.flatMap fun e => calls e.2

/-- The calls hand over a file once: its header, data calls that make up its contents, its end. -/
def Delivers (t : Transfer) (as : List Action) : Prop :=
  ∃ pieces : List (List UInt8), pieces.flatten = t.contents ∧
    as = .receiveNanmeSize t.block.name (UInt32.ofNat t.contents.length) ::
      (pieces.map .receiveFileData ++ [.receiveFile])

/-- The calls hand over the files of a batch, in order, each once. -/
inductive DeliversAll : List Transfer → List Action → Prop
  | nil : DeliversAll [] []
  | cons {t ts as bs} : Delivers t as → DeliversAll ts bs → DeliversAll (t :: ts) (as ++ bs)

theorem AnswersAll.append {log₁ log₂ : List (Input × List Action)} {sent₁ sent₂ : List Sent}
    (h₁ : AnswersAll log₁ sent₁) (h₂ : AnswersAll log₂ sent₂) :
    AnswersAll (log₁ ++ log₂) (sent₁ ++ sent₂) := by
  simp only [AnswersAll, List.map_append] at *
  rw [h₁, h₂]

theorem logCalls_append {log₁ log₂ : List (Input × List Action)} :
    logCalls (log₁ ++ log₂) = logCalls log₁ ++ logCalls log₂ := List.flatMap_append

theorem Conveys.cons {is : List Input} {p : Sent} {sent : List Sent} (h : Conveys is (p :: sent)) :
    ∃ residue is', is = .data (p.bytes ++ residue) :: is' ∧ Conveys is' sent := by
  cases h with
  | cons hi his =>
    obtain ⟨residue, rfl⟩ := hi
    exact ⟨residue, _, rfl, his⟩

theorem Conveys.append {is : List Input} {sent₁ sent₂ : List Sent}
    (h : Conveys is (sent₁ ++ sent₂)) :
    ∃ is₁ is₂, is = is₁ ++ is₂ ∧ Conveys is₁ sent₁ ∧ Conveys is₂ sent₂ :=
  ⟨is.take sent₁.length, is.drop sent₁.length, (List.take_append_drop _ _).symm,
    List.forall₂_take_append _ _ _ h, List.forall₂_drop_append _ _ _ h⟩

section run
variable {cb : Callbacks κ} (hcb : cb.Accepting)
include hcb

/-- The data packets of a file hand over what is left of it. -/
theorem run_dataPackets {chunks : List (List UInt8)} {left : List UInt8} {n : UInt8} {k : Nat}
    {s : Receiver κ} {is : List Input} (hs : Receiving s n left.length k)
    (hsize : ∀ c ∈ chunks, c.length = 128 ∨ c.length = 1024) (hcov : left <+: chunks.flatten)
    (his : Conveys is (dataPackets n chunks)) :
    ∃ log s' n', ∃ pieces : List (List UInt8), (receiver cb).run s is = (log, .inl s') ∧
      Receiving s' n' 0 k ∧ AnswersAll log (dataPackets n chunks) ∧
      logCalls log = pieces.map .receiveFileData ∧ pieces.flatten = left := by
  induction chunks generalizing left n s is with
  | nil =>
    cases his
    obtain rfl : left = [] := List.prefix_nil.mp hcov
    exact ⟨[], s, n, [], rfl, hs, rfl, rfl, rfl⟩
  | cons c chunks ih =>
    obtain ⟨residue, is', rfl, his'⟩ := Conveys.cons his
    obtain ⟨s₁, hstep, hs₁, -⟩ := receive_data residue hcb hs (hsize c List.mem_cons_self)
    obtain ⟨tail, htail⟩ := hcov
    have hrest : left.drop c.length <+: chunks.flatten := by
      refine ⟨tail.drop (c.length - left.length), ?_⟩
      have := congrArg (List.drop c.length) htail
      rw [List.drop_append, List.flatten_cons, List.drop_left] at this
      exact this
    have htake : c.take left.length = left.take c.length := by
      have h1 := congrArg (List.take (min c.length left.length)) htail
      rw [List.flatten_cons, List.take_append_of_le_length (by omega),
        List.take_append_of_le_length (by omega)] at h1
      have h2 : c.take left.length = c.take (min c.length left.length) := by
        rw [Nat.min_comm, ← List.take_take, List.take_length]
      have h3 : left.take c.length = left.take (min c.length left.length) := by
        rw [← List.take_take, List.take_length]
      rw [h2, h3, h1]
    rw [← List.length_drop] at hs₁
    obtain ⟨log, s', n', pieces, hrun, hs', hans, hcalls, hpieces⟩ :=
      ih hs₁ (fun d hd => hsize d (List.mem_cons_of_mem c hd)) hrest his'
    refine ⟨(.data (packet n c ++ residue),
      [.receiveFileData (c.take left.length), .transmitCh yAck]) :: log, s', n',
      left.take c.length :: pieces, ?_, hs', ?_, ?_, ?_⟩
    · rw [Machine.run_cons hstep, hrun]
    · simpa [AnswersAll, dataPackets, bytesSent] using hans
    · simpa [logCalls, calls, htake] using hcalls
    · rw [List.flatten_cons, hpieces, List.take_append_drop]

omit hcb in
/-- The two EOTs end a file. -/
theorem run_eots (cb : Callbacks κ) {k : Nat} {s : Receiver κ} {is : List Input} (heot : s.eotNum = 0)
    (hk : s.ymodemFileNumber = UInt16.ofNat k)
    (his : Conveys is [⟨[yEot], [yNak]⟩, ⟨[yEot], [yAck, yC]⟩]) :
    ∃ log s', (receiver cb).run s is = (log, .inl s') ∧ Awaiting s' (k + 1) ∧
      AnswersAll log [⟨[yEot], [yNak]⟩, ⟨[yEot], [yAck, yC]⟩] ∧
      logCalls log = [.receiveFile] := by
  obtain ⟨residue₁, is₁, rfl, his₁⟩ := his.cons
  obtain ⟨residue₂, is₂, rfl, his₂⟩ := his₁.cons
  cases his₂
  obtain ⟨s', hstep, hs'⟩ := receive_eot_again residue₂ cb (s := { s with eotNum := 1 }) rfl hk
  have hrun : (receiver cb).run s [.data ([yEot] ++ residue₁), .data ([yEot] ++ residue₂)] =
      ([(.data ([yEot] ++ residue₁), [.transmitCh yNak]),
        (.data ([yEot] ++ residue₂), [.transmitCh yAck, .receiveFile, .transmitCh yC])], .inl s') := by
    rw [Machine.run_cons (receive_eot residue₁ cb heot), Machine.run_cons hstep]
    rfl
  exact ⟨_, s', hrun, hs', rfl, rfl⟩

/-- A file is handed over. -/
theorem run_transfer {t : Transfer} {k : Nat} {s : Receiver κ} {is : List Input}
    (hs : Awaiting s k) (his : Conveys is t.sent) :
    ∃ log s', (receiver cb).run s is = (log, .inl s') ∧ Awaiting s' (k + 1) ∧
      AnswersAll log t.sent ∧ Delivers t (logCalls log) := by
  obtain ⟨residue, is', rfl, his'⟩ := his.cons
  obtain ⟨is₁, is₂, rfl, his₁, his₂⟩ := his'.append
  have hlt : decimal t.block.digits < 0xFFFFFFFF := t.size_eq ▸ t.contents_lt
  obtain ⟨s₁, hstep, hs₁, -⟩ := receive_header residue hcb hs t.block hlt
  rw [t.size_eq] at hstep hs₁
  obtain ⟨log₂, s₂, n', pieces, hrun₂, hs₂, hans₂, hcalls₂, hpieces⟩ :=
    run_dataPackets hcb hs₁ t.chunk_size t.covers his₁
  obtain ⟨log₃, s₃, hrun₃, hs₃, hans₃, hcalls₃⟩ := run_eots cb hs₂.eot hs₂.files his₂
  have hrun := Machine.run_append hrun₂ is₂
  rw [hrun₃] at hrun
  refine ⟨_, s₃, (Machine.run_cons hstep).trans (by rw [hrun]), hs₃, ?_, pieces, hpieces, ?_⟩
  · simpa [AnswersAll, Transfer.sent, bytesSent] using hans₂.append hans₃
  · rw [← List.singleton_append, logCalls_append, logCalls_append, hcalls₂, hcalls₃]
    rfl

/-- The files of a batch are handed over. -/
theorem run_transfers {ts : List Transfer} {k : Nat} {s : Receiver κ} {is : List Input}
    (hs : Awaiting s k) (his : Conveys is (ts.flatMap Transfer.sent)) :
    ∃ log s', (receiver cb).run s is = (log, .inl s') ∧ Awaiting s' (k + ts.length) ∧
      AnswersAll log (ts.flatMap Transfer.sent) ∧ DeliversAll ts (logCalls log) := by
  induction ts generalizing k s is with
  | nil =>
    cases his
    exact ⟨[], s, rfl, hs, rfl, .nil⟩
  | cons t ts ih =>
    obtain ⟨is₁, is₂, rfl, his₁, his₂⟩ := his.append
    obtain ⟨log₁, s₁, hrun₁, hs₁, hans₁, hdel₁⟩ := run_transfer hcb hs his₁
    obtain ⟨log₂, s₂, hrun₂, hs₂, hans₂, hdel₂⟩ := ih hs₁ his₂
    refine ⟨log₁ ++ log₂, s₂, ?_, ?_, hans₁.append hans₂, ?_⟩
    · rw [Machine.run_append hrun₁ is₂, hrun₂]
    · rwa [List.length_cons, Nat.add_comm ts.length 1, ← Nat.add_assoc]
    · rw [logCalls_append]
      exact .cons hdel₁ hdel₂

/-- The session: every frame is answered as the sender expects, every file is handed over once, and
the number of files is returned. -/
theorem run_batch {b : Batch} {s : Receiver κ} {is : List Input} (hs : Awaiting s 0)
    (his : Conveys is b.sent) :
    ∃ log, (receiver cb).run s is = (log, .inr (UInt16.ofNat b.transfers.length)) ∧
      AnswersAll log b.sent ∧ DeliversAll b.transfers (logCalls log) := by
  obtain ⟨is₁, is₂, rfl, his₁, his₂⟩ := his.append
  obtain ⟨residue, is', rfl, his'⟩ := his₂.cons
  cases his'
  obtain ⟨log, s', hrun, hs', hans, hdel⟩ := run_transfers hcb hs his₁
  rw [Nat.zero_add] at hs'
  have hend : AnswersAll [(.data (packet 0 (0 :: b.rest) ++ residue), [.transmitCh yAck])]
    [⟨packet 0 (0 :: b.rest), [yAck]⟩] := rfl
  refine ⟨_, ?_, hans.append hend, ?_⟩
  · rw [Machine.run_append hrun _, Machine.run_stop (receive_end residue cb b.length_rest hs')]
  · rw [logCalls_append]
    simpa [logCalls, calls] using hdel

end run

theorem Receiver.awaiting_start (fileLen : UInt32) (app : κ) :
    Awaiting (Receiver.start fileLen app) 0 := ⟨rfl, rfl, rfl, rfl⟩

/-- A batch of fewer than 32768 files, sent as intact packets by a conforming sender, is received
without loss: each frame gets the reply the sender waits for, each file is handed over once, in
order, and the number of files is returned, with bit 15 clear. -/
theorem session_lossless {cb : Callbacks κ} (hcb : cb.Accepting) {b : Batch}
    (hlen : b.transfers.length < 32768) {is : List Input} (his : Conveys is b.sent)
    (fileLen : UInt32) (app : κ) :
    ∃ log r, ymodemReceive cb fileLen app is = ([.transmitCh yC], log, .inr r) ∧
      AnswersAll log b.sent ∧ DeliversAll b.transfers (logCalls log) ∧
      r.toNat = b.transfers.length ∧ errorBit r = false := by
  obtain ⟨log, hrun, hans, hdel⟩ := run_batch hcb
    (Receiver.awaiting_start fileLen app) his
  have hsize : UInt16.size = 2 ^ 16 := rfl
  have hr : (UInt16.ofNat b.transfers.length).toNat = b.transfers.length :=
    UInt16.toNat_ofNat_of_lt' (by omega)
  refine ⟨log, UInt16.ofNat b.transfers.length, ?_, hans, hdel, hr, ?_⟩
  · rw [ymodemReceive, hrun]
  · rw [errorBit_eq, hr, decide_eq_false_iff_not]
    omega

/-! ## A batch of one file -/

/-- The file "a" with the one byte 0x62, sent in a packet of 128 bytes. -/
def oneByteFile : Transfer where
  block := {
    name := [0x61]
    digits := [0x31]
    stop := 0x20
    rest := List.replicate 124 0
    name_ne_nil := by decide
    name_le := by decide
    name_ne_zero := by simp
    digits_ne_nil := by decide
    digits_isDigit := by simp [isDigit]
    stop_isDigit := by decide
    length_eq := by simp }
  contents := [0x62]
  chunks := [0x62 :: List.replicate 127 0x1A]
  contents_lt := by decide
  size_eq := by decide
  chunk_size := by simp
  covers := ⟨List.replicate 127 0x1A, rfl⟩

/-- The batch of that file. -/
def oneFileBatch : Batch := ⟨[oneByteFile], List.replicate 127 0, by simp⟩

theorem accepting_silentCallbacks : silentCallbacks.Accepting := ⟨fun _ _ _ => rfl, fun _ _ => rfl⟩

theorem conveys_bytes (sent : List Sent) : Conveys (sent.map fun p => .data (p.bytes ++ [])) sent := by
  induction sent with
  | nil => exact .nil
  | cons p sent ih => exact List.Forall₂.cons ⟨[], rfl⟩ ih

theorem session_lossless_one :
    ∃ log r, ymodemReceive silentCallbacks 0 () (oneFileBatch.sent.map fun p => .data (p.bytes ++ []))
        = ([.transmitCh yC], log, .inr r) ∧
      AnswersAll log oneFileBatch.sent ∧ DeliversAll [oneByteFile] (logCalls log) ∧
      r.toNat = 1 ∧ errorBit r = false :=
  session_lossless accepting_silentCallbacks (by decide) (conveys_bytes _) 0 ()

end McuUtilities.Ymodem
