import McuUtilities.Ymodem.Accesses

/-!
# The classification of packets

What status is returned for a packet, if `ymodem_handle_packet` returns, and what `ymodem_receive`
makes of it. The name of a header has to end within `file_name`; beyond that a packet is read as what
it is, unless its flags join to another status.
-/

namespace McuUtilities.Ymodem

variable {κ : Type}

/-- The status `ymodem_handle_packet` returns; none when it is stopped before that, because the name
of a header does not end within `file_name`. -/
def packetStatus (cb : Callbacks κ) (s : Receiver κ) (header : List UInt8) (stale : Nat → UInt8) :
    Option UInt8 := (Accesses.ymodemHandlePacket cb s header stale).value.map (·.1)

/-- The status says what the packet is, and `ymodem_receive` reads from it what it calls for. -/
structure Classified (cb : Callbacks κ) (s : Receiver κ) (header : List UInt8)
    (stale : Nat → UInt8) : Prop where
  eoy : packetStatus cb s header stale = some yEoy ↔
    ∃ size, packetSize header = some size ∧ EndsBatch s header size
  ok : packetStatus cb s header stale = some yOk ↔
    ∃ size, packetSize header = some size ∧ Passes s header size ∧ ¬ EndsBatch s header size ∧
      ¬ CallbackFails cb s header size
  flash : packetStatus cb s header stale = some yErrorFlash →
    ∃ size, packetSize header = some size ∧ CallbackFails cb s header size
  read : ∀ size, packetSize header = some size →
    (packetStatus cb s header stale).map outcome = some (calledFor cb s header size)

/-- The two kinds of packet whose flags join to another status: a header without a name that fails
a check, and a packet with a wrong CRC whose callback fails. -/
def Misread (cb : Callbacks κ) (s : Receiver κ) (header : List UInt8) (size : Nat) : Prop :=
  AtHeader s header ∧ fileName header size = [] ∧ ¬ Passes s header size ∨
    CallbackFails cb s header size ∧ crcMatches header size = false

section classified
variable {cb : Callbacks κ} {s : Receiver κ} {header : List UInt8} {size : Nat} {status : UInt8}
  {stale : Nat → UInt8}

theorem packetStatus_of_fits (hsize : packetSize header = some size) (hfits : NameFits s header) :
    packetStatus cb s header stale = some (ymodemHandlePacket cb s header).1 := by
  rw [packetStatus, Accesses.value_handlePacket hsize hfits]
  rfl

theorem packetStatus_of_not_fits (hsize : packetSize header = some size)
    (hfits : ¬ NameFits s header) : packetStatus cb s header stale = none := by
  rw [packetStatus, (Accesses.stops_handlePacket hsize hfits).value]
  rfl

theorem outcome_eq_ack : outcome status = .ack ↔ status = yOk := by
  refine ⟨fun h => ?_, fun h => by rw [h]; rfl⟩
  by_contra hok
  rw [outcome, if_neg hok] at h
  split at h
  · cases h
  · split at h <;> cases h

theorem outcome_eq_abort : outcome status = .abort ↔ status = yErrorFlash := by
  refine ⟨fun h => ?_, fun h => by rw [h]; rfl⟩
  by_contra hflash
  rw [outcome, if_neg hflash] at h
  split at h
  · cases h
  · split at h <;> cases h

theorem outcome_eq_finish : outcome status = .finish ↔ status = yEoy := by
  refine ⟨fun h => ?_, fun h => by rw [h]; rfl⟩
  by_contra heoy
  rw [outcome, if_neg heoy] at h
  split at h
  · cases h
  · split at h <;> cases h

theorem calledFor_eq_finish : calledFor cb s header size = .finish ↔ EndsBatch s header size := by
  rw [calledFor]
  split
  · next h => exact ⟨fun _ => h, fun _ => rfl⟩
  · next h =>
    refine ⟨fun hf => ?_, fun he => absurd he h⟩
    split at hf
    · cases hf
    · split at hf <;> cases hf

theorem calledFor_eq_abort (h : calledFor cb s header size = .abort) :
    CallbackFails cb s header size := by
  rw [calledFor] at h
  split at h
  · cases h
  · split at h
    · assumption
    · split at h <;> cases h

theorem calledFor_eq_ack : calledFor cb s header size = .ack ↔
    Passes s header size ∧ ¬ EndsBatch s header size ∧ ¬ CallbackFails cb s header size := by
  rw [calledFor]
  by_cases hend : EndsBatch s header size
  · simp [hend]
  · by_cases hcb : CallbackFails cb s header size
    · simp [hend, hcb]
    · by_cases hpass : Passes s header size <;> simp [hend, hcb, hpass]

theorem not_callbackFails_of_empty (cb : Callbacks κ) (h : AtHeader s header) (hname : fileName header size = []) :
    ¬ CallbackFails cb s header size := by
  rw [CallbackFails, if_pos h]
  exact fun hf => hf.1 hname

/-- A packet is read as what it calls for, except where it is misread. -/
theorem read_iff (hsize : packetSize header = some size) :
    outcome (ymodemHandlePacket cb s header).1 = calledFor cb s header size ↔
      ¬ Misread cb s header size := by
  by_cases hempty : AtHeader s header ∧ fileName header size = []
  · obtain ⟨hb, hname⟩ := hempty
    have hcb := not_callbackFails_of_empty cb hb hname
    rw [outcome_emptyName hsize cb hb hname, eq_comm, calledFor_eq_finish]
    constructor
    · rintro ⟨-, -, hpass⟩ (⟨-, -, hfail⟩ | ⟨hf, -⟩)
      · exact hfail hpass
      · exact hcb hf
    · intro hread
      refine ⟨hb, hname, ?_⟩
      by_contra hfail
      exact hread (.inl ⟨hb, hname, hfail⟩)
  · have hend : ¬ EndsBatch s header size := fun h => hempty ⟨h.1, h.2.1⟩
    by_cases hcb : CallbackFails cb s header size
    · rw [outcome_callbackFails hsize hcb, calledFor, if_neg hend, if_pos hcb]
      cases hcrc : crcMatches header size with
      | true =>
        simp only [if_true, true_iff]
        rintro (⟨hb, hname, -⟩ | ⟨-, h⟩)
        · exact hempty ⟨hb, hname⟩
        · rw [hcrc] at h
          cases h
      | false =>
        simp only [Bool.false_eq_true, if_false, reduceCtorEq, false_iff]
        exact fun hread => hread (.inr ⟨hcb, hcrc⟩)
    · rw [outcome_checks hsize hempty hcb, calledFor, if_neg hend, if_neg hcb]
      simp only [true_iff]
      rintro (⟨hb, hname, -⟩ | ⟨h, -⟩)
      · exact hempty ⟨hb, hname⟩
      · exact hcb h

theorem classified_of_read (hsize : packetSize header = some size)
    (hstatus : packetStatus cb s header stale = some status)
    (h : outcome status = calledFor cb s header size) : Classified cb s header stale where
  eoy := by
    rw [hstatus, Option.some_inj, ← outcome_eq_finish, h, calledFor_eq_finish, hsize]
    simp
  ok := by
    rw [hstatus, Option.some_inj, ← outcome_eq_ack, h, calledFor_eq_ack, hsize]
    simp
  flash := by
    rw [hstatus, Option.some_inj, ← outcome_eq_abort, h]
    exact fun hf => ⟨size, hsize, calledFor_eq_abort hf⟩
  read := by
    intro size' hsize'
    rw [hsize, Option.some_inj] at hsize'
    rw [hstatus, ← hsize', ← h]
    rfl

/-- A frame that is no packet has a status of its own. -/
theorem classified_none (hsize : packetSize header = none) (cb : Callbacks κ) (s : Receiver κ)
    (stale : Nat → UInt8) : Classified cb s header stale := by
  have hstatus : packetStatus cb s header stale = some yError := by
    rw [packetStatus, Accesses.value_handlePacket_none hsize]
    rfl
  have heoy : yError ≠ yEoy := by decide
  have hok : yError ≠ yOk := by decide
  have hflash : yError ≠ yErrorFlash := by decide
  constructor
  · simp only [hstatus, Option.some_inj, hsize, heoy, reduceCtorEq, false_and, exists_false]
  · simp only [hstatus, Option.some_inj, hsize, hok, reduceCtorEq, false_and, exists_false]
  · simp only [hstatus, Option.some_inj, hflash, false_implies]
  · simp only [hsize, reduceCtorEq, false_implies, implies_true]

end classified

/-- A packet is classified as it should be exactly when the name of a header ends within `file_name`
and the flags do not join to another status. -/
theorem classified_iff (cb : Callbacks κ) (s : Receiver κ) (header : List UInt8)
    (stale : Nat → UInt8) :
    Classified cb s header stale ↔ ∀ size, packetSize header = some size →
      NameFits s header ∧ ¬ Misread cb s header size := by
  cases hsize : packetSize header with
  | none => simp only [classified_none hsize, reduceCtorEq, false_implies, implies_true]
  | some size =>
    simp only [Option.some_inj, forall_eq']
    constructor
    · intro h
      have hread := h.read size hsize
      by_cases hfits : NameFits s header
      · rw [packetStatus_of_fits hsize hfits, Option.map_some, Option.some_inj] at hread
        exact ⟨hfits, (read_iff hsize).mp hread⟩
      · rw [packetStatus_of_not_fits hsize hfits] at hread
        cases hread
    · rintro ⟨hfits, hread⟩
      exact classified_of_read hsize (packetStatus_of_fits hsize hfits) ((read_iff hsize).mpr hread)

/-- A header without a name and with a wrong CRC. -/
def spoiledEnd : List UInt8 := [ySoh, 0, 255] ++ (List.replicate 128 0 ++ [0, 1])

/-- The spoiled header ends the session without error. -/
theorem not_classified_spoiledEnd :
    packetStatus silentCallbacks (Receiver.start 0 ()) spoiledEnd (fun _ => 0) = some yEoy ∧
      crcMatches spoiledEnd 128 = false ∧
      ¬ Classified silentCallbacks (Receiver.start 0 ()) spoiledEnd fun _ => 0 := by
  have hb : AtHeader (Receiver.start 0 ()) spoiledEnd := ⟨rfl, rfl⟩
  have hname : fileName spoiledEnd 128 = [] := rfl
  have hfits : NameFits (Receiver.start 0 ()) spoiledEnd := fun _ => ⟨0, by decide, rfl⟩
  have heoy : packetStatus silentCallbacks (Receiver.start 0 ()) spoiledEnd (fun _ => 0) =
      some yEoy := by
    rw [packetStatus_of_fits rfl hfits,
      outcome_eq_finish.mp (outcome_emptyName rfl silentCallbacks hb hname)]
  refine ⟨heoy, crcMatches_spoiled, fun h => ?_⟩
  obtain ⟨size, hsize, -, -, hpass⟩ := h.eoy.mp heoy
  cases hsize
  have := hpass.1
  rw [spoiledEnd, crcMatches_spoiled] at this
  cases this

end McuUtilities.Ymodem
