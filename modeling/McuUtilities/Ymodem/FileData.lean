import Mathlib.Data.List.DropRight
import McuUtilities.Ymodem.Accesses
import McuUtilities.Ymodem.Session

/-!
# The data of a file

What `receive_file_data_callback` gets between two headers. When a size was announced, `file_len`
counts down from it and the bytes passed on never exceed it, if the name in the header is short
enough to be copied. When none was, every packet loses the 0x1A bytes it ends with, not only the last
one.
-/

namespace McuUtilities.Ymodem

variable {κ : Type}

/-- The data among the calls of the callbacks. -/
def passedOn (calls : List Action) : List UInt8 :=
  calls.flatMap fun a => match a with
    | .receiveFileData d => d
    | _ => []

@[simp] theorem passedOn_append (as bs : List Action) :
    passedOn (as ++ bs) = passedOn as ++ passedOn bs := List.flatMap_append

/-- Packets handled as data, one after the other, each with the calls it led to. Between two of
them the rest of `ymodem.c` may run, also the end of a session and the start of the next: it leaves
`file_len` alone. -/
inductive DataRun (cb : Callbacks κ) :
    Receiver κ → List (List UInt8 × List Action) → Receiver κ → Prop where
  | done (s : Receiver κ) : DataRun cb s [] s
  | between {s s₁ s' : Receiver κ} {log : List (List UInt8 × List Action)}
      (h : s₁.fileLen = s.fileLen) : DataRun cb s₁ log s' → DataRun cb s log s'
  | packet {s s' : Receiver κ} {header : List UInt8} {size : Nat}
      {log : List (List UInt8 × List Action)} (hsize : packetSize header = some size)
      (hpath : ¬ AtHeader s header) :
      DataRun cb (ymodemHandlePacket cb s header).2.2 log s' →
      DataRun cb s ((header, (ymodemHandlePacket cb s header).2.1) :: log) s'

/-- The data of a packet of either size. -/
def payload (header : List UInt8) : List UInt8 :=
  packetData header ((packetSize header).getD 0)

section packet
variable {cb : Callbacks κ} {s : Receiver κ} {header : List UInt8} {size : Nat}

theorem length_packetData : (packetData header size).length = size := by
  rw [packetData, bytesAt, length_slice]

variable (hsize : packetSize header = some size) (hpath : ¬ AtHeader s header)
include hsize

theorem payload_eq : payload header = packetData header size := by
  rw [payload, hsize, Option.getD_some]

theorem length_payload : (payload header).length = size := by
  rw [payload_eq hsize, length_packetData]

include hpath

theorem passedOn_packet : passedOn (ymodemHandlePacket cb s header).2.1 =
    (packetData header size).take (dataSize s (packetData header size) size) := by
  rw [handlePacket_data hsize cb hpath, handleData]
  simp [passedOn]

theorem fileLen_packet : (ymodemHandlePacket cb s header).2.2.fileLen =
    if s.fileLen ≠ yNoLength then
      s.fileLen - UInt32.ofNat (dataSize s (packetData header size) size) else s.fileLen := by
  rw [handlePacket_data hsize cb hpath, handleData, finishPacket_fileLen]

end packet

/-! ## Runs of the receiver -/

section runs
variable {cb : Callbacks κ} {s s' t : Receiver κ} {log : List (List UInt8 × List Action)}

/-- The input is not the header of a file. -/
def NoHeader (s : Receiver κ) : Input → Prop
  | .timeout => True
  | .data header => ∀ size, packetSize header = some size → AtHeader s header →
    fileName header size = []

theorem errorHandler_between {out : List Action} (h : ymodemErrorHandler s = (out, .inl s')) :
    s'.fileLen = s.fileLen ∧ passedOn out = [] := by
  rcases errorHandler_cases s with ⟨out', he⟩ | he
  · rw [he] at h
    cases h
  · rw [he] at h
    cases h
    exact ⟨rfl, rfl⟩

/-- After a packet the receiver goes on with the length the packet left. -/
theorem receivePacket_between {header : List UInt8} {out : List Action}
    (h : receivePacket cb s header = (out, .inl s')) :
    s'.fileLen = (ymodemHandlePacket cb s header).2.2.fileLen ∧
      passedOn out = passedOn (ymodemHandlePacket cb s header).2.1 := by
  rcases hp : ymodemHandlePacket cb s header with ⟨status, calls, t⟩
  rw [receivePacket_outcome hp] at h
  cases houtcome : outcome status with
  | ack =>
    rw [houtcome] at h
    cases h
    refine ⟨rfl, ?_⟩
    rw [passedOn_append]
    split <;> exact List.append_nil _
  | abort =>
    rw [houtcome] at h
    rcases he : ymodemErrorHandler { t with errorNumber := yMayErrors } with ⟨acts, next⟩
    simp only [he] at h
    cases h
    obtain ⟨hlen, hacts⟩ := errorHandler_between he
    exact ⟨hlen, by rw [passedOn_append, hacts, List.append_nil]⟩
  | finish =>
    rw [houtcome] at h
    cases h
  | retry =>
    rw [houtcome] at h
    rcases he : ymodemErrorHandler t with ⟨acts, next⟩
    simp only [he] at h
    cases h
    obtain ⟨hlen, hacts⟩ := errorHandler_between he
    exact ⟨hlen, by rw [passedOn_append, hacts, List.append_nil]⟩

/-- One round of `ymodem_receive` in front of a run. -/
theorem DataRun.step {i : Input} {out : List Action} (hno : NoHeader s i)
    (hstep : receiveStep cb s i = (out, .inl s')) (hrun : DataRun cb s' log t) :
    ∃ log', DataRun cb s log' t ∧
      passedOn (log'.flatMap (·.2)) = passedOn out ++ passedOn (log.flatMap (·.2)) := by
  have quiet : s'.fileLen = s.fileLen ∧ passedOn out = [] → ∃ log', DataRun cb s log' t ∧
      passedOn (log'.flatMap (·.2)) = passedOn out ++ passedOn (log.flatMap (·.2)) := by
    rintro ⟨hlen, hout⟩
    exact ⟨log, .between hlen hrun, by rw [hout, List.nil_append]⟩
  cases i with
  | timeout =>
    simp only [receiveStep] at hstep
    split at hstep
    · cases hstep
      exact quiet ⟨rfl, rfl⟩
    · exact quiet (errorHandler_between hstep)
  | data header =>
    simp only [receiveStep] at hstep
    split at hstep
    · next hch =>
      obtain ⟨size, hsize⟩ := packetSize_of_start hch
      obtain ⟨hlen, hout⟩ := receivePacket_between hstep
      by_cases hb : AtHeader s header
      · have hfinish := outcome_emptyName hsize cb hb (hno size hsize hb)
        rcases hp : ymodemHandlePacket cb s header with ⟨status, calls, s₁⟩
        rw [hp] at hfinish
        rw [receivePacket_outcome hp, hfinish] at hstep
        cases hstep
      · refine ⟨_, .packet hsize hb (.between hlen hrun), ?_⟩
        rw [hout, List.flatMap_cons, passedOn_append]
    · split at hstep
      · simp only [receiveEot] at hstep
        split at hstep
        · cases hstep
          exact quiet ⟨rfl, rfl⟩
        · cases hstep
          exact quiet ⟨rfl, rfl⟩
      · split at hstep
        · cases hstep
        · exact quiet (errorHandler_between hstep)

/-- A run of `ymodem_receive` that sees no header of a file. -/
theorem DataRun.of_run {inputs : List Input} {answers : List (Input × List Action)}
    (hno : (receiver cb).Along NoHeader s inputs)
    (hrun : (receiver cb).run s inputs = (answers, .inl s')) :
    ∃ log, DataRun cb s log s' ∧
      passedOn (log.flatMap (·.2)) = passedOn (answers.flatMap (·.2)) := by
  induction inputs generalizing s answers with
  | nil =>
    cases hrun
    exact ⟨[], .done _, rfl⟩
  | cons i inputs ih =>
    obtain ⟨hi, hrest⟩ := hno
    cases hstep : (receiver cb).step s i with
    | mk out next =>
      cases next with
      | inl t =>
        rw [Machine.run_cons hstep] at hrun
        obtain ⟨rfl, hend⟩ := Prod.mk.inj hrun
        obtain ⟨log, hdata, hout⟩ := ih (hrest out t hstep) (Prod.ext rfl hend)
        obtain ⟨log', hdata', hout'⟩ := hdata.step hi hstep
        exact ⟨log', hdata', by rw [hout', hout, List.flatMap_cons, passedOn_append]⟩
      | inr r =>
        rw [Machine.run_stop hstep] at hrun
        cases hrun

end runs

/-! ## An announced size -/

/-- How many bytes the packets hold. -/
def offered (log : List (List UInt8 × List Action)) : Nat :=
  (log.map fun e => (payload e.1).length).sum

/-- How many bytes were passed on. -/
def taken (log : List (List UInt8 × List Action)) : Nat := (passedOn (log.flatMap (·.2))).length

section counts
variable {cb : Callbacks κ} {s s' : Receiver κ} {log before after : List (List UInt8 × List Action)}

@[simp] theorem taken_append : taken (before ++ after) = taken before + taken after := by
  simp [taken, passedOn]

/-- One packet: what is passed on is taken off `file_len`. -/
theorem packet_counts (cb : Callbacks κ) {header : List UInt8} {size : Nat} (hsize : packetSize header = some size)
    (hpath : ¬ AtHeader s header) (hknown : s.fileLen ≠ yNoLength) :
    (passedOn (ymodemHandlePacket cb s header).2.1).length = min s.fileLen.toNat size ∧
      (ymodemHandlePacket cb s header).2.2.fileLen.toNat + min s.fileLen.toNat size =
        s.fileLen.toNat ∧
      (ymodemHandlePacket cb s header).2.2.fileLen ≠ yNoLength := by
  have hleft := dataSize_left hknown (packetData header size) size
  have hlt : s.fileLen.toNat < yNoLength.toNat := by
    have hmax : yNoLength.toNat = 2 ^ 32 - 1 := rfl
    have hne : s.fileLen.toNat ≠ yNoLength.toNat := fun h => hknown (UInt32.toNat_inj.mp h)
    have := s.fileLen.toNat_lt
    omega
  rw [passedOn_packet hsize hpath, fileLen_packet hsize hpath, if_pos hknown, List.length_take,
    length_packetData]
  rw [dataSize_eq_min hknown] at hleft ⊢
  refine ⟨by omega, hleft, fun h => ?_⟩
  rw [h] at hleft
  omega

/-- What is passed on and what is left always make the length there was at the start. -/
theorem DataRun.counts (h : DataRun cb s log s') (hknown : s.fileLen ≠ yNoLength) :
    taken log + s'.fileLen.toNat = s.fileLen.toNat ∧
      taken log = min s.fileLen.toNat (offered log) ∧ s'.fileLen ≠ yNoLength := by
  induction h with
  | done s => exact ⟨Nat.zero_add _, (Nat.min_zero _).symm, hknown⟩
  | between hlen _ ih =>
    rw [← hlen] at hknown ⊢
    exact ih hknown
  | packet hsize hpath _ ih =>
    obtain ⟨htaken, hleft, hknown'⟩ := packet_counts cb hsize hpath hknown
    obtain ⟨hsum, hmin, hend⟩ := ih hknown'
    simp only [taken, offered, List.flatMap_cons, passedOn_append, List.length_append,
      List.map_cons, List.sum_cons, htaken, length_payload hsize] at *
    exact ⟨by omega, by omega, hend⟩

/-- A run over two lists of packets passes a state between them. -/
theorem DataRun.split (h : DataRun cb s (before ++ after) s') :
    ∃ mid, DataRun cb s before mid ∧ DataRun cb mid after s' := by
  generalize hall : before ++ after = log at h
  induction h generalizing before with
  | done s =>
    obtain ⟨rfl, rfl⟩ := List.append_eq_nil_iff.mp hall
    exact ⟨s, .done s, .done s⟩
  | between hlen _ ih =>
    obtain ⟨mid, hbefore, hafter⟩ := ih hall
    exact ⟨mid, .between hlen hbefore, hafter⟩
  | @packet s s' header size log hsize hpath hrest ih =>
    cases before with
    | nil =>
      rw [List.nil_append] at hall
      subst hall
      exact ⟨s, .done s, .packet hsize hpath hrest⟩
    | cons p before =>
      obtain ⟨rfl, htail⟩ := List.cons.inj hall
      obtain ⟨mid, hbefore, hafter⟩ := ih htail
      exact ⟨mid, .packet hsize hpath hbefore, hafter⟩

end counts

/-- The header is handled, and after it and after each of the packets handled as data since, what was
passed on and what is left make the announced size: what was passed on never exceeds it and never
decreases, and what is left never becomes the value for no size. -/
def SizeKept (cb : Callbacks κ) (s : Receiver κ) (header : List UInt8) (size : Nat)
    (stale : Nat → UInt8) : Prop :=
  ∃ status calls start, (Accesses.ymodemHandlePacket cb s header stale).value =
      some (status, calls, start) ∧
    ∀ before after s', DataRun cb start (before ++ after) s' →
      ∃ mid, DataRun cb start before mid ∧ DataRun cb mid after s' ∧
        taken before + mid.fileLen.toNat = (getFileLen (packetData header size)).toNat ∧
        taken before = min (getFileLen (packetData header size)).toNat (offered before) ∧
        taken before ≤ taken (before ++ after) ∧ mid.fileLen ≠ yNoLength

/-- From a state whose `file_len` is known the counts hold all along a run. -/
theorem DataRun.kept {cb : Callbacks κ} {s s' : Receiver κ}
    {before after : List (List UInt8 × List Action)} (hknown : s.fileLen ≠ yNoLength)
    (hrun : DataRun cb s (before ++ after) s') :
    ∃ mid, DataRun cb s before mid ∧ DataRun cb mid after s' ∧
      taken before + mid.fileLen.toNat = s.fileLen.toNat ∧
      taken before = min s.fileLen.toNat (offered before) ∧
      taken before ≤ taken (before ++ after) ∧ mid.fileLen ≠ yNoLength := by
  obtain ⟨mid, hbefore, hafter⟩ := hrun.split
  obtain ⟨hsum, hmin, hend⟩ := hbefore.counts hknown
  exact ⟨mid, hbefore, hafter, hsum, hmin, by rw [taken_append]; omega, hend⟩

/-- A header leaves the announced size in `file_len`. -/
theorem fileLen_header {s : Receiver κ} {header : List UInt8} {size : Nat}
    (hsize : packetSize header = some size) (cb : Callbacks κ) (hb : AtHeader s header)
    (hname : fileName header size ≠ []) :
    (ymodemHandlePacket cb s header).2.2.fileLen = getFileLen (packetData header size) := by
  have hlen : (fileName header size).length ≠ 0 := fun h0 =>
    hname (List.eq_nil_of_length_eq_zero h0)
  rw [handlePacket_first hsize cb hb, handleFirst]
  simp only [if_neg hlen, finishPacket_fileLen]

/-- The size a header announces is kept exactly when its name ends within `file_name`. -/
theorem sizeKept_iff {s : Receiver κ} {header : List UInt8} {size : Nat}
    (hsize : packetSize header = some size) (hb : AtHeader s header)
    (hname : fileName header size ≠ [])
    (hknown : getFileLen (packetData header size) ≠ yNoLength) (cb : Callbacks κ)
    (stale : Nat → UInt8) :
    SizeKept cb s header size stale ↔
      ∃ i < fileNameSize, header.getD (yPacketDataIndex + i) 0 = 0 := by
  have hfits : NameFits s header ↔ ∃ i < fileNameSize, header.getD (yPacketDataIndex + i) 0 = 0 :=
    forall_prop_of_true hb
  rw [← hfits]
  constructor
  · rintro ⟨status, calls, start, hvalue, -⟩
    by_contra hlong
    rw [(Accesses.stops_handlePacket hsize hlong).value] at hvalue
    cases hvalue
  · intro h
    have hlen := fileLen_header hsize cb hb hname
    have hvalue : (Accesses.ymodemHandlePacket cb s header stale).value =
        some (ymodemHandlePacket cb s header) := Accesses.value_handlePacket hsize h
    rcases hp : ymodemHandlePacket cb s header with ⟨status, calls, start⟩
    rw [hp] at hlen hvalue
    refine ⟨status, calls, start, hvalue, fun before after s' hrun => ?_⟩
    rw [← hlen] at hknown ⊢
    exact hrun.kept hknown

/-- The size of a file of one byte is kept. -/
theorem sizeKept_oneByteFile : SizeKept silentCallbacks (Receiver.start 0 ())
    (packet 0 oneByteFile.block.bytes ++ []) oneByteFile.block.bytes.length fun _ => 0 := by
  have hblock := oneByteFile.block.length_bytes
  have hname : fileName (packet 0 oneByteFile.block.bytes ++ [])
      oneByteFile.block.bytes.length ≠ [] := by
    rw [HeaderBlock.fileName_bytes]
    exact oneByteFile.block.name_ne_nil
  have hknown : getFileLen (packetData (packet 0 oneByteFile.block.bytes ++ [])
      oneByteFile.block.bytes.length) ≠ yNoLength := by
    rw [packetData_packet, HeaderBlock.getFileLen_bytes]
    decide
  exact (sizeKept_iff (packetSize_packet (.inl hblock)) ⟨packetNumber_packet, rfl⟩ hname hknown
    silentCallbacks fun _ => 0).mpr ⟨1, by decide, rfl⟩

/-- A header block that announces one byte, for a file whose name has 60 letters. -/
def longBlock : List UInt8 :=
  List.replicate 60 0x61 ++ 0 :: ([0x31] ++ 0x20 :: List.replicate 65 0)

/-- An intact header with it. -/
def longNamed : List UInt8 := packet 0 longBlock ++ []

/-- Its name is copied past the end of `file_name`, and nothing is known of what follows. -/
theorem not_sizeKept_longNamed :
    AtHeader (Receiver.start 0 ()) longNamed ∧ fileName longNamed 128 ≠ [] ∧
      getFileLen (packetData longNamed 128) = 1 ∧
      (.fileName, 50) ∈ (Accesses.ymodemHandlePacket silentCallbacks (Receiver.start 0 ()) longNamed
        fun _ => 0).accesses ∧
      ¬ SizeKept silentCallbacks (Receiver.start 0 ()) longNamed 128 fun _ => 0 := by
  have hletters : ∀ b ∈ List.replicate 60 (0x61 : UInt8), b ≠ 0 := by simp
  have hblock : longBlock.length = 128 := rfl
  have hpacket : packetSize longNamed = some longBlock.length := packetSize_packet (.inl hblock)
  have hname : fileName longNamed longBlock.length = List.replicate 60 0x61 :=
    fileName_packet rfl hletters
  have hlen : getFileLen (packetData longNamed longBlock.length) = UInt32.ofNat (decimal [0x31]) := by
    rw [longNamed, packetData_packet]
    refine getFileLen_append hletters (fun d hd => ?_) rfl hblock
    rw [List.mem_singleton.mp hd]
    rfl
  have hlong : ¬ NameFits (Receiver.start 0 ()) longNamed := by
    intro h
    obtain ⟨i, hi, hzero⟩ := h ⟨rfl, rfl⟩
    revert i
    decide
  rw [hblock] at hpacket hname hlen
  have hstops : Logged.Stops (Accesses.ymodemHandlePacket silentCallbacks (Receiver.start 0 ())
      longNamed fun _ => 0) (.fileName, 50) := Accesses.stops_handlePacket hpacket hlong
  refine ⟨⟨rfl, rfl⟩, by rw [hname]; decide, hlen, hstops.accesses, ?_⟩
  rintro ⟨status, calls, start, hvalue, -⟩
  rw [hstops.value] at hvalue
  cases hvalue

/-! ## A size that is not known -/

/-- The data without the 0x1A bytes it ends with. -/
def withoutPadding (data : List UInt8) : List UInt8 := data.rdropWhile (· == 0x1A)

/-- The scan looks at the bytes before its start only. -/
theorem getActiveLength_append (data tail : List UInt8) {n : Nat} (h : n ≤ data.length) :
    getActiveLength (data ++ tail) n = getActiveLength data n := by
  induction n with
  | zero => rfl
  | succ n ih =>
    have hget : (data ++ tail).getD n 0 = data.getD n 0 := by
      simp [List.getElem?_append_left (Nat.lt_of_succ_le h)]
    rw [getActiveLength, getActiveLength, hget, ih (Nat.le_of_succ_le h)]

theorem take_getActiveLength (data : List UInt8) :
    data.take (getActiveLength data data.length) = withoutPadding data := by
  induction data using List.reverseRecOn with
  | nil => rfl
  | append_singleton data b ih =>
    have hlast : (data ++ [b]).getD data.length 0 = b := by simp
    rw [withoutPadding, List.length_append, List.length_singleton, getActiveLength, hlast]
    by_cases hb : b = 0x1A
    · rw [if_pos hb, getActiveLength_append data [b] (Nat.le_refl _),
        List.take_append_of_le_length (getActiveLength_le data _), ih,
        List.rdropWhile_concat_pos _ _ _ (by simpa using hb)]
      rfl
    · rw [if_neg hb, List.rdropWhile_concat_neg _ _ _ (by simpa using hb)]
      exact List.take_of_length_le (by simp)

theorem withoutPadding_eq_self {data : List UInt8} :
    withoutPadding data = data ↔ data.getLast? ≠ some 0x1A := by
  rw [withoutPadding, List.rdropWhile_eq_self_iff]
  cases data using List.reverseRecOn with
  | nil => simp
  | append_singleton data b => simp

/-- Shortening the parts shortens the whole, unless every part stays as it is. -/
theorem flatten_map_eq_iff {α : Type} {f : List α → List α} (hf : ∀ l, (f l).length ≤ l.length)
    {parts : List (List α)} :
    (parts.map f).flatten = parts.flatten ↔ ∀ l ∈ parts, f l = l := by
  have hle : ∀ parts : List (List α), (parts.map f).flatten.length ≤ parts.flatten.length := by
    intro parts
    induction parts with
    | nil => exact Nat.le_refl 0
    | cons l parts ih =>
      have := hf l
      simp only [List.map_cons, List.flatten_cons, List.length_append]
      omega
  induction parts with
  | nil => simp
  | cons l parts ih =>
    rw [List.map_cons, List.flatten_cons, List.flatten_cons, List.forall_mem_cons]
    constructor
    · intro h
      have hlen := congrArg List.length h
      have hl := hf l
      have hparts := hle parts
      simp only [List.length_append] at hlen
      obtain ⟨hhead, htail⟩ := List.append_inj h (by omega)
      exact ⟨hhead, ih.mp htail⟩
    · rintro ⟨hhead, htail⟩
      rw [hhead, ih.mpr htail]

section unknown
variable {cb : Callbacks κ} {s s' : Receiver κ} {log : List (List UInt8 × List Action)}

/-- Without a size every packet is passed on without its padding. -/
theorem DataRun.trimmed (h : DataRun cb s log s') (hunknown : s.fileLen = yNoLength) :
    passedOn (log.flatMap (·.2)) = (log.map fun e => withoutPadding (payload e.1)).flatten := by
  induction h with
  | done s => rfl
  | between hlen _ ih => exact ih (hlen.trans hunknown)
  | @packet s s' header size log hsize hpath _ ih =>
    have hlen : (ymodemHandlePacket cb s header).2.2.fileLen = yNoLength := by
      rw [fileLen_packet hsize hpath, hunknown]
      rfl
    have hdata : dataSize s (packetData header size) size =
        getActiveLength (packetData header size) size := by
      have hle := getActiveLength_le (packetData header size) size
      have hmax : yNoLength.toNat = 2 ^ 32 - 1 := rfl
      have hsizes := packetSize_cases hsize
      have hfits : ¬ yNoLength.toNat < getActiveLength (packetData header size) size := by omega
      simp only [dataSize, hunknown, if_true, if_neg hfits]
    have htrim := take_getActiveLength (packetData header size)
    rw [length_packetData] at htrim
    rw [List.flatMap_cons, passedOn_append, List.map_cons, List.flatten_cons, ih hlen,
      passedOn_packet hsize hpath, hdata, htrim, payload_eq hsize]

end unknown

/-- What should be passed on of a file without a size: all but the padding of its last packet. -/
def unpadded : List (List UInt8) → List UInt8
  | [] => []
  | [last] => withoutPadding last
  | data :: next :: rest => data ++ unpadded (next :: rest)

theorem unpadded_concat (init : List (List UInt8)) (last : List UInt8) :
    unpadded (init ++ [last]) = init.flatten ++ withoutPadding last := by
  induction init with
  | nil => rfl
  | cons data init ih =>
    rw [List.flatten_cons, List.append_assoc, ← ih]
    cases init <;> rfl

/-- Without a size the file is passed on as it should be exactly when no packet but the last ends
with 0x1A. -/
theorem unknown_size_iff {cb : Callbacks κ} {s s' : Receiver κ}
    {log : List (List UInt8 × List Action)} (hunknown : s.fileLen = yNoLength)
    (hrun : DataRun cb s log s') :
    passedOn (log.flatMap (·.2)) = unpadded (log.map fun e => payload e.1) ↔
      ∀ data ∈ (log.map fun e => payload e.1).dropLast, data.getLast? ≠ some 0x1A := by
  have hshorter : ∀ data, (withoutPadding data).length ≤ data.length :=
    fun data => List.IsPrefix.length_le (List.rdropWhile_prefix _ data)
  have hmap : (log.map fun e => withoutPadding (payload e.1)) =
      (log.map fun e => payload e.1).map withoutPadding := by
    rw [List.map_map]
    rfl
  rw [hrun.trimmed hunknown, hmap]
  generalize (log.map fun e => payload e.1) = sent
  cases sent using List.reverseRecOn with
  | nil => simp [unpadded]
  | append_singleton init last =>
    rw [unpadded_concat, List.map_append, List.flatten_append, List.map_singleton,
      List.flatten_singleton, List.append_cancel_right_eq, flatten_map_eq_iff hshorter,
      List.dropLast_concat]
    exact forall₂_congr fun data _ => withoutPadding_eq_self

/-- What a conforming sender sends of a file is such a run. -/
theorem DataRun.of_dataPackets (cb : Callbacks κ) {s : Receiver κ} {n : UInt8}
    {chunks : List (List UInt8)} (hsize : ∀ c ∈ chunks, c.length = 128 ∨ c.length = 1024)
    (hs : s.yFirstPacketReceived = true ∨ n ≠ 0) :
    ∃ log s', DataRun cb s log s' ∧ log.map (·.1) = (dataPackets n chunks).map (·.bytes) ∧
      (log.map fun e => payload e.1) = chunks := by
  induction chunks generalizing s n with
  | nil => exact ⟨[], s, .done s, rfl, rfl⟩
  | cons c chunks ih =>
    have hpacket : packetSize (Ymodem.packet n c ++ []) = some c.length :=
      packetSize_packet (hsize c List.mem_cons_self)
    rw [List.append_nil] at hpacket
    have hpath : ¬ AtHeader s (Ymodem.packet n c) := by
      rintro ⟨hn, hf⟩
      rcases hs with hs | hs
      · rw [hs] at hf
        cases hf
      · exact hs hn
    have hfirst : (ymodemHandlePacket cb s (Ymodem.packet n c)).2.2.yFirstPacketReceived = true := by
      rw [handlePacket_data hpacket cb hpath, handleData, finishPacket_first]
    obtain ⟨log, s', hrun, hframes, hchunks⟩ :=
      ih (fun d hd => hsize d (List.mem_cons_of_mem c hd)) (n := n + 1) (.inl hfirst)
    refine ⟨_, s', .packet hpacket hpath hrun, ?_, ?_⟩
    · rw [List.map_cons, hframes, dataPackets, List.map_cons]
    · have hdata : packetData (Ymodem.packet n c ++ []) c.length = c := packetData_packet
      rw [List.append_nil] at hdata
      rw [List.map_cons, hchunks, payload_eq hpacket, hdata]

/-- A receiver that waits for data packet 1 of a file without a size. -/
def sizeUnknown : Receiver Unit := { Receiver.start yNoLength () with ymodemPacketNumber := 1 }

/-- Two packets of data, of which the first ends with a byte of 0x1A. -/
def twoChunks : List (List UInt8) :=
  [List.replicate 127 0x62 ++ [0x1A], List.replicate 128 0x63]

theorem twoChunks_run : ∃ log s', DataRun silentCallbacks sizeUnknown log s' ∧
    log.map (·.1) = (dataPackets 1 twoChunks).map (·.bytes) ∧
    (log.map fun e => payload e.1) = twoChunks :=
  DataRun.of_dataPackets silentCallbacks (by simp [twoChunks]) (.inr (by decide))

theorem unknown_size_iff_two : ∃ log s', DataRun silentCallbacks sizeUnknown log s' ∧
    (passedOn (log.flatMap (·.2)) = unpadded (log.map fun e => payload e.1) ↔
      ∀ data ∈ (log.map fun e => payload e.1).dropLast, data.getLast? ≠ some 0x1A) := by
  obtain ⟨log, s', hrun, -, -⟩ := twoChunks_run
  exact ⟨log, s', hrun, unknown_size_iff rfl hrun⟩

/-- The byte is lost though the packet is not the last. -/
theorem twoChunks_spoiled : ∃ log s', DataRun silentCallbacks sizeUnknown log s' ∧
    log.map (·.1) = (dataPackets 1 twoChunks).map (·.bytes) ∧
    passedOn (log.flatMap (·.2)) = List.replicate 127 0x62 ++ List.replicate 128 0x63 ∧
    passedOn (log.flatMap (·.2)) ≠ unpadded (log.map fun e => payload e.1) := by
  obtain ⟨log, s', hrun, hframes, hchunks⟩ := twoChunks_run
  have hmap : (log.map fun e => withoutPadding (payload e.1)) = twoChunks.map withoutPadding := by
    rw [← hchunks, List.map_map]
    rfl
  have hlost : withoutPadding (List.replicate 127 0x62 ++ [0x1A]) = List.replicate 127 0x62 := by
    rw [withoutPadding, List.rdropWhile_concat_pos _ _ _ rfl]
    exact withoutPadding_eq_self.mpr (by simp)
  have hkept : withoutPadding (List.replicate 128 0x63) = List.replicate 128 0x63 :=
    withoutPadding_eq_self.mpr (by simp)
  have hall := hrun.trimmed rfl
  rw [hmap, twoChunks, List.map_cons, List.map_singleton, hlost, hkept, List.flatten_cons,
    List.flatten_singleton] at hall
  refine ⟨log, s', hrun, hframes, hall, fun h => ?_⟩
  rw [hall, hchunks, twoChunks, unpadded, unpadded, hkept] at h
  have hlen := congrArg List.length h
  simp only [List.length_append, List.length_replicate, List.length_singleton] at hlen
  omega

end McuUtilities.Ymodem
