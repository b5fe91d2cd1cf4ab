import McuUtilities.Modbus.Handlers
import McuUtilities.Modbus.RtuServer

/-!
# Every run of a slave serves its frames

The relation of `RtuServer` holds along every run in which bytes arrive only while the slave listens and
no frame ends while the main loop is clearing the event flag. So a slave never reads or writes past its buffer, what it has sent is always the beginning of what the
server answers, and once its main loop and its transmitter get their turns it has sent all of it and
listens again.
-/

namespace McuUtilities.Modbus

variable {σ : Type} {ucMBAddress : UInt8} {xFuncHandlers : List (FuncEntry σ)}
variable {srv : Server σ} {cur : Option (List UInt8)} {out : List UInt8} {s : Slave σ}

/-- The bytes a run has put on the line. -/
def sent (log : List (Line × List UInt8)) : List UInt8 := log.flatMap (·.2)

theorem sent_append (log log' : List (Line × List UInt8)) : sent (log ++ log') = sent log ++ sent log' :=
  List.flatMap_append

/-! ## Along a run -/

theorem follows_started (mem : Nat → UInt8) (app : σ) :
    Follows ucMBAddress xFuncHandlers ⟨mem, app, []⟩ none [] (started mem app) :=
  .listening ⟨⟨.inl rfl, rfl, by simp [started], by simp [started]⟩, rfl, rfl, ⟨rfl, rfl, rfl⟩, rfl, rfl⟩

/-- Along a run the slave follows the server. -/
theorem follows_run {is : List Line} (h : Follows ucMBAddress xFuncHandlers srv cur out s)
    (hC : (rtuSlave ucMBAddress xFuncHandlers).Along Disciplined s is) :
    ∃ log t, (rtuSlave ucMBAddress xFuncHandlers).run s is = (log, .inl t) ∧
      Follows ucMBAddress xFuncHandlers (srv.serveAll ucMBAddress xFuncHandlers (heard cur is).2)
        (heard cur is).1 (out ++ sent log) t := by
  induction is generalizing srv cur out s with
  | nil => exact ⟨[], s, rfl, by rw [sent, List.flatMap_nil, List.append_nil]; exact h⟩
  | cons i is ih =>
    obtain ⟨hi, hrest⟩ := hC
    obtain ⟨o, t, hstep, hnext⟩ := h.step i hi
    obtain ⟨log, u, hrun, hend⟩ := ih hnext (hrest o t hstep)
    refine ⟨(i, o) :: log, u, by rw [Machine.run_cons hstep, hrun], ?_⟩
    have hserve : srv.serveAll ucMBAddress xFuncHandlers (heard cur (i :: is)).2 =
        (srv.serveAll ucMBAddress xFuncHandlers (heardFrame cur i)).serveAll ucMBAddress xFuncHandlers
          (heard (hear cur i) is).2 := List.foldl_append
    rw [hserve, show sent ((i, o) :: log) = o ++ sent log from rfl, ← List.append_assoc]
    exact hend

theorem serve_out (srv : Server σ) (frame : List UInt8) :
    srv.out <+: (srv.serve ucMBAddress xFuncHandlers frame).out := by
  unfold Server.serve
  dsimp only
  split
  · split
    · exact List.prefix_rfl
    · exact List.prefix_append _ _
  · exact List.prefix_rfl

/-- What the slave has sent is the beginning of what the server has answered. -/
theorem Follows.out_prefix (h : Follows ucMBAddress xFuncHandlers srv cur out s) : out <+: srv.out := by
  cases h with
  | listening h => exact h.out ▸ List.prefix_rfl
  | pending before frame h =>
    rw [h.served, ← h.out]
    exact serve_out before frame
  | replying h => exact h.out ▸ List.prefix_append _ _
  | sending h => exact h.out ▸ List.prefix_append _ _

/-! ## Any order of interrupts -/

/-- The positions in the buffer are in it. -/
structure InBuffer (s : Slave σ) : Prop where
  rcv : s.usRcvBufferPos ≤ 256
  pdu : s.usLength ≤ 253
  snd : s.pucSndBufferCur + s.usSndBufferCount ≤ 256

theorem InBuffer.receiveFSM (h : InBuffer s) (b : UInt8) : InBuffer (xMBRTUReceiveFSM b s) := by
  obtain ⟨hrcv, hpdu, hsnd⟩ := h
  unfold xMBRTUReceiveFSM
  split
  · exact ⟨hrcv, hpdu, hsnd⟩
  · exact ⟨hrcv, hpdu, hsnd⟩
  · exact ⟨show 1 ≤ 256 by decide, hpdu, hsnd⟩
  · split
    · next hpos => exact ⟨hpos, hpdu, hsnd⟩
    · exact ⟨hrcv, hpdu, hsnd⟩

theorem InBuffer.t35 (h : InBuffer s) : InBuffer (xMBRTUTimerT35Expired s) := by
  obtain ⟨hrcv, hpdu, hsnd⟩ := h
  unfold xMBRTUTimerT35Expired
  split <;> exact ⟨hrcv, hpdu, hsnd⟩

theorem InBuffer.transmitFSM (h : InBuffer s) :
    ∃ o t, xMBRTUTransmitFSM s = (o, .inl t) ∧ InBuffer t := by
  obtain ⟨hrcv, hpdu, hsnd⟩ := h
  unfold xMBRTUTransmitFSM
  split
  · exact ⟨_, _, rfl, hrcv, hpdu, hsnd⟩
  · split
    · next hcount =>
      rw [if_pos (by omega)]
      refine ⟨_, _, rfl, hrcv, hpdu, ?_⟩
      dsimp only
      omega
    · exact ⟨_, _, rfl, hrcv, hpdu, hsnd⟩

theorem InBuffer.poll (h : InBuffer s) :
    ∃ o t, eMBPoll ucMBAddress xFuncHandlers s = (o, .inl t) ∧ InBuffer t := by
  have hpdu := h.pdu
  unfold eMBPoll
  split
  · split <;> exact ⟨_, _, rfl, h.rcv, h.pdu, h.snd⟩
  · exact ⟨_, _, rfl, h.rcv, h.pdu, h.snd⟩
  · refine ⟨_, _, rfl, ?_⟩
    have hrcv := h.rcv
    unfold eMBRTUReceive
    split
    · exact ⟨hrcv, show s.usRcvBufferPos - 3 ≤ 253 by omega, h.snd⟩
    · exact ⟨hrcv, hpdu, h.snd⟩
  · exact ⟨_, _, rfl, h.rcv, h.pdu, h.snd⟩
  · exact ⟨_, _, rfl, h.rcv, (execute_bounds length_slice hpdu).2, h.snd⟩
  · unfold eMBRTUSend
    split
    · dsimp only
      rw [if_pos (by omega)]
      exact InBuffer.transmitFSM ⟨h.rcv, hpdu, by dsimp only; omega⟩
    · exact ⟨_, _, rfl, h.rcv, hpdu, h.snd⟩

theorem InBuffer.step (h : InBuffer s) (i : Line) :
    ∃ o t, (rtuSlave ucMBAddress xFuncHandlers).step s i = (o, .inl t) ∧ InBuffer t := by
  cases i with
  | rx b =>
    refine ⟨[], _, rfl, ?_⟩
    split
    · exact h.receiveFSM b
    · exact h
  | t35 =>
    refine ⟨[], _, rfl, ?_⟩
    split
    · exact h.t35
    · exact h
  | txe =>
    by_cases hbusy : s.txBusy = true
    · obtain ⟨o, t, hfsm, ht⟩ := @InBuffer.transmitFSM σ { s with txBusy := false } ⟨h.rcv, h.pdu, h.snd⟩
      exact ⟨o, t, (if_pos hbusy).trans hfsm, ht⟩
    · exact ⟨[], s, if_neg hbusy, h⟩
  | poll => exact h.poll

/-- Whatever happens on the line and in whatever order, also a byte that arrives while a frame is served
or sent, a slave never leaves its buffer. -/
theorem rtuSlave_in_buffer (ucMBAddress : UInt8) (xFuncHandlers : List (FuncEntry σ)) (mem : Nat → UInt8)
    (app : σ) (is : List Line) :
    ∃ log s, (rtuSlave ucMBAddress xFuncHandlers).run (started mem app) is = (log, .inl s) ∧
      s.usRcvBufferPos ≤ 256 ∧ s.usLength ≤ 253 ∧ s.pucSndBufferCur + s.usSndBufferCount ≤ 256 := by
  have hruns (s : Slave σ) (h : InBuffer s) : ∃ log t,
      (rtuSlave ucMBAddress xFuncHandlers).run s is = (log, .inl t) ∧ InBuffer t := by
    induction is generalizing s with
    | nil => exact ⟨[], s, rfl, h⟩
    | cons i is ih =>
      obtain ⟨o, t, hstep, ht⟩ := h.step i
      obtain ⟨log, u, hrun, hu⟩ := ih t ht
      exact ⟨(i, o) :: log, u, by rw [Machine.run_cons hstep, hrun], hu⟩
  obtain ⟨log, s, hrun, h⟩ := hruns (started mem app)
    ⟨Nat.zero_le 256, Nat.zero_le 253, Nat.zero_le 256⟩
  exact ⟨log, s, hrun, h.rcv, h.pdu, h.snd⟩

/-! ## Turns of the main loop -/

/-- How many steps the main loop needs for an event that it has copied. -/
def pollsFor : MbEventType → Nat
  | .frameReceived => 7
  | .execute => 3
  | .ready | .frameSent => 1

/-- How many steps the main loop needs before it has nothing to do. -/
def pollsLeft (s : Slave σ) : Nat :=
  match s.pollPoint with
  | .entry =>
    match s.event with
    | none => 0
    | some e => pollsFor e + 1
  | .got e => pollsFor e
  | .receive => 6
  | .post => 5
  | .execute => 2
  | .send => 1

theorem pollsFor_le (e : MbEventType) : pollsFor e ≤ 7 := by cases e <;> decide

theorem pollsLeft_le (s : Slave σ) : pollsLeft s ≤ 8 := by
  unfold pollsLeft
  split
  · split
    · exact Nat.zero_le 8
    · next e _ => exact Nat.succ_le_succ (pollsFor_le e)
  · next e _ => exact Nat.le_succ_of_le (pollsFor_le e)
  all_goals decide

theorem pollsLeft_entry (hpoll : s.pollPoint = .entry) (hevent : s.event = none) : pollsLeft s = 0 := by
  rw [pollsLeft, hpoll]
  dsimp only
  rw [hevent]

theorem pollsLeft_le_of_entry (hpoll : s.pollPoint = .entry) (hevent : s.event = none) (n : Nat) :
    pollsLeft s ≤ n := by
  rw [pollsLeft_entry hpoll hevent]
  exact Nat.zero_le n

theorem pollsLeft_event {e : MbEventType} (hpoll : s.pollPoint = .entry) (hevent : s.event = some e) :
    pollsLeft s = pollsFor e + 1 := by
  rw [pollsLeft, hpoll]
  dsimp only
  rw [hevent]

theorem pollsLeft_got {e : MbEventType} (hpoll : s.pollPoint = .got e) : pollsLeft s = pollsFor e := by
  rw [pollsLeft, hpoll]

/-- Copying an event is one step. -/
theorem pollsLeft_copy {o : List UInt8} {t : Slave σ} (hpoll : s.pollPoint = .entry)
    (hstep : eMBPoll ucMBAddress xFuncHandlers s = (o, .inl t)) : pollsLeft t ≤ pollsLeft s - 1 := by
  rw [eMBPoll, hpoll] at hstep
  dsimp only at hstep
  cases hevent : s.event with
  | none =>
    rw [hevent] at hstep
    cases hstep
    exact pollsLeft_le_of_entry hpoll hevent _
  | some e =>
    rw [hevent] at hstep
    cases hstep
    rw [pollsLeft_event hpoll hevent]
    rfl

/-- Clearing the flag is one step. -/
theorem pollsLeft_clear {e : MbEventType} {o : List UInt8} {t : Slave σ} (hpoll : s.pollPoint = .got e)
    (hstep : eMBPoll ucMBAddress xFuncHandlers s = (o, .inl t)) : pollsLeft t ≤ pollsLeft s - 1 := by
  rw [eMBPoll, hpoll] at hstep
  rw [pollsLeft_got hpoll]
  cases hstep
  cases e with
  | ready => exact Nat.zero_le 0
  | frameReceived => exact Nat.le_refl 6
  | execute => exact Nat.le_refl 2
  | frameSent => exact Nat.zero_le 0

/-- Checking the frame leaves nothing to do when it is not for this slave. -/
theorem pollsLeft_receive {o : List UInt8} {t : Slave σ} (hevent : s.event = none)
    (hpoll : s.pollPoint = .receive) (hstep : eMBPoll ucMBAddress xFuncHandlers s = (o, .inl t)) :
    pollsLeft t ≤ pollsLeft s - 1 := by
  rw [eMBPoll, hpoll] at hstep
  cases hstep
  have hnow : pollsLeft s = 6 := by rw [pollsLeft, hpoll]
  rw [hnow]
  unfold eMBRTUReceive
  by_cases hok : 4 ≤ s.usRcvBufferPos ∧ crcOf s.ucRTUBuf s.usRcvBufferPos = 0
  · rw [if_pos hok]
    by_cases hours : s.ucRTUBuf 0 = ucMBAddress ∨ s.ucRTUBuf 0 = mbAddressBroadcast
    · rw [if_pos hours]
      exact Nat.le_refl 5
    · rw [if_neg hours]
      refine pollsLeft_le_of_entry rfl ?_ 5
      exact hevent
  · rw [if_neg hok]
    refine pollsLeft_le_of_entry rfl ?_ 5
    exact hevent

/-- Serving the frame leaves the reply to start, unless it was broadcast. -/
theorem pollsLeft_execute {o : List UInt8} {t : Slave σ} (hevent : s.event = none)
    (hpoll : s.pollPoint = .execute) (hstep : eMBPoll ucMBAddress xFuncHandlers s = (o, .inl t)) :
    pollsLeft t ≤ pollsLeft s - 1 := by
  rw [eMBPoll, hpoll] at hstep
  cases hstep
  have hnow : pollsLeft s = 2 := by rw [pollsLeft, hpoll]
  rw [hnow]
  by_cases hbroadcast : s.ucRcvAddress = mbAddressBroadcast
  · rw [if_pos hbroadcast]
    refine pollsLeft_le_of_entry rfl ?_ 1
    exact hevent
  · rw [if_neg hbroadcast]
    exact Nat.le_refl 1

/-- A step of the main loop is one of those it needs. -/
theorem Follows.pollsLeft_step {o : List UInt8} {t : Slave σ}
    (h : Follows ucMBAddress xFuncHandlers srv cur out s)
    (hstep : eMBPoll ucMBAddress xFuncHandlers s = (o, .inl t)) : pollsLeft t ≤ pollsLeft s - 1 := by
  cases h with
  | listening h =>
    rcases h.listens.1 with hpoll | hpoll | hpoll
    · exact pollsLeft_copy hpoll hstep
    · exact pollsLeft_clear hpoll hstep
    · exact pollsLeft_clear hpoll hstep
  | replying h =>
    obtain ⟨b, t', ht', hnext⟩ := @Replying.send_step σ ucMBAddress xFuncHandlers _ _ _ h
    rw [ht'] at hstep
    cases hstep
    exact pollsLeft_le_of_entry hnext.poll hnext.event _
  | sending h => exact pollsLeft_copy h.poll hstep
  | pending before frame h =>
    cases h.stage with
    | received hevent hpoll hpos =>
      rcases hpoll with hpoll | hpoll
      · exact pollsLeft_copy hpoll hstep
      · exact pollsLeft_clear hpoll hstep
    | checking hevent hpoll hpos => exact pollsLeft_receive hevent hpoll hstep
    | accepted hacc haddr hlen hpoint =>
      rcases hpoint with ⟨hevent, hpoll⟩ | ⟨hevent, hpoll⟩ | ⟨hevent, hpoll⟩ | ⟨hevent, hpoll⟩
      · rw [eMBPoll, hpoll] at hstep
        cases hstep
        have hnow : pollsLeft s = 5 := by rw [pollsLeft, hpoll]
        rw [hnow]
        exact Nat.le_refl 4
      · exact pollsLeft_copy hpoll hstep
      · exact pollsLeft_clear hpoll hstep
      · exact pollsLeft_execute hevent hpoll hstep

/-- Once the main loop has had its turns it has nothing to do. -/
theorem Follows.polls {n : Nat} (h : Follows ucMBAddress xFuncHandlers srv cur out s)
    (hn : pollsLeft s ≤ n) :
    ∃ log t, (rtuSlave ucMBAddress xFuncHandlers).run s (List.replicate n .poll) = (log, .inl t) ∧
      Follows ucMBAddress xFuncHandlers srv cur (out ++ sent log) t ∧ pollsLeft t = 0 := by
  induction n generalizing out s with
  | zero =>
    refine ⟨[], s, rfl, ?_, Nat.le_zero.mp hn⟩
    rw [sent, List.flatMap_nil, List.append_nil]
    exact h
  | succ n ih =>
    obtain ⟨o, t, hstep, hnext⟩ := h.step .poll trivial
    rw [heardFrame_poll, hear_poll] at hnext
    obtain ⟨log, u, hrun, hend, hleft⟩ := ih hnext (by have := h.pollsLeft_step hstep; omega)
    refine ⟨(.poll, o) :: log, u, ?_, ?_, hleft⟩
    · rw [List.replicate_succ, Machine.run_cons hstep, hrun]
    · rw [show sent ((.poll, o) :: log) = o ++ sent log from rfl, ← List.append_assoc]
      exact hend

/-- A slave whose main loop has nothing to do listens or sends. -/
theorem Follows.listening_or_sending (h : Follows ucMBAddress xFuncHandlers srv cur out s)
    (hdone : pollsLeft s = 0) :
    Listening srv cur out s ∧ s.pollPoint = .entry ∨ cur = some [] ∧ Sending srv out s := by
  cases h with
  | listening h =>
    refine .inl ⟨h, h.poll_eq_entry fun e hpoll => ?_⟩
    rw [pollsLeft_got hpoll] at hdone
    cases e <;> cases hdone
  | sending h => exact .inr ⟨rfl, h⟩
  | replying h =>
    rw [pollsLeft, h.poll] at hdone
    cases hdone
  | pending before frame h =>
    cases h.stage with
    | received hevent hpoll _ =>
      rcases hpoll with hpoll | hpoll
      · rw [pollsLeft_event hpoll hevent] at hdone; cases hdone
      · rw [pollsLeft_got hpoll] at hdone; cases hdone
    | checking _ hpoll _ => rw [pollsLeft, hpoll] at hdone; cases hdone
    | accepted _ _ _ hpoint =>
      rcases hpoint with ⟨_, hpoll⟩ | ⟨hevent, hpoll⟩ | ⟨_, hpoll⟩ | ⟨_, hpoll⟩
      · rw [pollsLeft, hpoll] at hdone; cases hdone
      · rw [pollsLeft_event hpoll hevent] at hdone; cases hdone
      · rw [pollsLeft_got hpoll] at hdone; cases hdone
      · rw [pollsLeft, hpoll] at hdone; cases hdone

/-! ## Turns of the transmitter -/

theorem Listening.txes {n : Nat} (h : Listening srv cur out s) :
    ∃ log t, (rtuSlave ucMBAddress xFuncHandlers).run s (List.replicate n .txe) = (log, .inl t) ∧
      Listening srv cur (out ++ sent log) t ∧ t.pollPoint = s.pollPoint := by
  have hidle : (rtuSlave ucMBAddress xFuncHandlers).step s .txe = ([], .inl s) := step_txe_idle h.tx
  induction n with
  | zero =>
    refine ⟨[], s, rfl, ?_, rfl⟩
    rw [sent, List.flatMap_nil, List.append_nil]
    exact h
  | succ n ih =>
    obtain ⟨log, t, hrun, hend⟩ := ih
    refine ⟨(.txe, []) :: log, t, ?_, hend⟩
    rw [List.replicate_succ, Machine.run_cons hidle, hrun]

/-- Once the transmitter has had its turns the reply is sent. -/
theorem Sending.txes {n : Nat} (h : Sending srv out s) (hn : s.usSndBufferCount < n) :
    ∃ log t, (rtuSlave ucMBAddress xFuncHandlers).run s (List.replicate n .txe) = (log, .inl t) ∧
      Listening srv (some []) (out ++ sent log) t ∧ t.pollPoint = .entry := by
  induction n generalizing out s with
  | zero => exact absurd hn (Nat.not_lt_zero _)
  | succ n ih =>
    obtain ⟨o, t, hstep, hnext⟩ := @Sending.txe_step σ ucMBAddress xFuncHandlers _ _ _ h
    have hrest : ∃ log u, (rtuSlave ucMBAddress xFuncHandlers).run t (List.replicate n .txe) =
        (log, .inl u) ∧ Listening srv (some []) (out ++ o ++ sent log) u ∧ u.pollPoint = .entry := by
      rcases hnext with ⟨hlisten, hpoll⟩ | ⟨hsend, hcount⟩
      · obtain ⟨log, u, hrun, hend, hsame⟩ := hlisten.txes
        exact ⟨log, u, hrun, hend, hsame.trans hpoll⟩
      · exact ih hsend (by omega)
    obtain ⟨log, u, hrun, hend, hpoll⟩ := hrest
    refine ⟨(.txe, o) :: log, u, ?_, ?_, hpoll⟩
    · rw [List.replicate_succ, Machine.run_cons hstep, hrun]
    · rw [show sent ((.txe, o) :: log) = o ++ sent log from rfl, ← List.append_assoc]
      exact hend

/-! ## The slave serves -/

/-- Eight steps of the main loop and the end of 257 bytes. -/
def turns : List Line := List.replicate 8 .poll ++ List.replicate 257 .txe

/-- After these turns the slave listens, and its main loop has nothing to do. -/
theorem Follows.turns (h : Follows ucMBAddress xFuncHandlers srv cur out s) :
    ∃ log t, (rtuSlave ucMBAddress xFuncHandlers).run s turns = (log, .inl t) ∧
      Listening srv cur (out ++ sent log) t ∧ t.pollPoint = .entry := by
  obtain ⟨log₁, t₁, hpolls, hfollows, hdone⟩ := h.polls (pollsLeft_le s)
  have htxes : ∃ log₂ t₂, (rtuSlave ucMBAddress xFuncHandlers).run t₁ (List.replicate 257 .txe) =
      (log₂, .inl t₂) ∧ Listening srv cur (out ++ sent log₁ ++ sent log₂) t₂ ∧
        t₂.pollPoint = .entry := by
    rcases hfollows.listening_or_sending hdone with ⟨hlisten, hpoll⟩ | ⟨rfl, hsend⟩
    · obtain ⟨log, t, hrun, hend, hsame⟩ := hlisten.txes
      exact ⟨log, t, hrun, hend, hsame.trans hpoll⟩
    · have hfits := hsend.fits
      exact hsend.txes (by omega)
  obtain ⟨log₂, t₂, htx, hend, hpoll⟩ := htxes
  refine ⟨log₁ ++ log₂, t₂, ?_, ?_, hpoll⟩
  · rw [Modbus.turns, Machine.run_append hpolls, htx]
  · rw [sent_append, ← List.append_assoc]
    exact hend

/-- The server behind the frames that the inputs complete. -/
def served (ucMBAddress : UInt8) (xFuncHandlers : List (FuncEntry σ)) (mem : Nat → UInt8) (app : σ)
    (is : List Line) : Server σ :=
  Server.serveAll ucMBAddress xFuncHandlers ⟨mem, app, []⟩ (heard none is).2

/-- A slave that hears bytes only while it listens, and no end of a frame while its main loop is clearing
the event flag, never leaves its buffer. What it has sent is the beginning of the replies to the frames
it has heard. After eight more steps of the main loop and the end of 257 bytes it has sent all of them,
its application is where serving the frames one by one leaves it, and it listens. -/
theorem rtuSlave_serves (mem : Nat → UInt8) (app : σ) (is : List Line)
    (hC : (rtuSlave ucMBAddress xFuncHandlers).Along Disciplined (started mem app) is) :
    ∃ log s, (rtuSlave ucMBAddress xFuncHandlers).run (started mem app) is = (log, .inl s) ∧
      sent log <+: (served ucMBAddress xFuncHandlers mem app is).out ∧
      ∃ log' t, (rtuSlave ucMBAddress xFuncHandlers).run s turns = (log', .inl t) ∧
        sent log ++ sent log' = (served ucMBAddress xFuncHandlers mem app is).out ∧
        t.app = (served ucMBAddress xFuncHandlers mem app is).app ∧ t.Listens := by
  obtain ⟨log, s, hrun, hfollows⟩ := follows_run (follows_started mem app) hC
  rw [List.nil_append] at hfollows
  obtain ⟨log', t, hturns, hend, -⟩ := hfollows.turns
  exact ⟨log, s, hrun, hfollows.out_prefix, log', t, hturns, hend.out.symm, hend.app.symm, hend.listens⟩

/-! ## A master that waits -/

/-- A frame, the silence behind it, and the time to serve it. -/
def exchange (frame : List UInt8) : List Line := frame.map .rx ++ .t35 :: turns

/-- The turns of the main loop and the transmitter keep to the discipline. -/
theorem along_turns : (rtuSlave ucMBAddress xFuncHandlers).Along Disciplined s turns := by
  have hquiet {is : List Line} (h : ∀ i ∈ is, i = .poll ∨ i = .txe) (s : Slave σ) :
      (rtuSlave ucMBAddress xFuncHandlers).Along Disciplined s is := by
    induction is generalizing s with
    | nil => trivial
    | cons i is ih =>
      refine ⟨?_, fun _ _ _ => ih (fun i hi => h i (List.mem_cons_of_mem _ hi)) _⟩
      rcases h i List.mem_cons_self with rfl | rfl
      · trivial
      · trivial
  refine hquiet (fun i hi => ?_) s
  rcases List.mem_append.mp hi with h | h
  · exact .inl (List.eq_of_mem_replicate h)
  · exact .inr (List.eq_of_mem_replicate h)

/-- A listening slave hears the bytes of a frame. -/
theorem Listening.hears_bytes {bs frame : List UInt8} (h : Listening srv (some bs) out s) :
    (rtuSlave ucMBAddress xFuncHandlers).Along Disciplined s (frame.map .rx) ∧
      ∃ log t, (rtuSlave ucMBAddress xFuncHandlers).run s (frame.map .rx) = (log, .inl t) ∧
        sent log = [] ∧ Listening srv (some (bs ++ frame)) out t ∧ t.pollPoint = s.pollPoint := by
  induction frame generalizing bs s with
  | nil => exact ⟨trivial, [], s, rfl, rfl, by rw [List.append_nil]; exact h, rfl⟩
  | cons b frame ih =>
    have hstep : (rtuSlave ucMBAddress xFuncHandlers).step s (.rx b) =
        ([], .inl (xMBRTUReceiveFSM b s)) := by
      show ([], Sum.inl (if s.rxEnabled then xMBRTUReceiveFSM b s else s)) = _
      rw [if_pos h.rx]
    obtain ⟨halong, log, t, hrun, hsent, hend, hpoll⟩ := ih (@Listening.rx_step _ _ _ _ _ b h)
    refine ⟨Machine.along_cons h.listens hstep halong, (.rx b, []) :: log, t, ?_, hsent, ?_,
      hpoll.trans xMBRTUReceiveFSM_frame.1⟩
    · rw [List.map_cons, Machine.run_cons hstep, hrun]
    · rw [List.append_assoc] at hend
      exact hend

/-- A frame that is given time is served. -/
theorem Listening.exchange {frame : List UInt8} (hframe : frame ≠ [])
    (h : Listening srv (some []) out s) (hpoll : s.pollPoint = .entry) :
    (rtuSlave ucMBAddress xFuncHandlers).Along Disciplined s (exchange frame) ∧
      ∃ log t, (rtuSlave ucMBAddress xFuncHandlers).run s (exchange frame) = (log, .inl t) ∧
        Listening (srv.serve ucMBAddress xFuncHandlers frame) (some []) (out ++ sent log) t ∧
        t.pollPoint = .entry := by
  obtain ⟨hbytes, log₁, t₁, hrun₁, hsent₁, hheard, hsame⟩ :=
    @Listening.hears_bytes σ ucMBAddress xFuncHandlers srv out s [] frame h
  obtain ⟨b, bs, rfl⟩ := List.exists_cons_of_ne_nil hframe
  have hi : Disciplined t₁ .t35 := fun _ e hgot => by
    rw [hsame, hpoll] at hgot
    cases hgot
  have hserved := @Listening.t35_step σ ucMBAddress xFuncHandlers _ _ _ _ hheard hi
  have hstep : (rtuSlave ucMBAddress xFuncHandlers).step t₁ .t35 =
      ([], .inl (if t₁.timerEnabled then xMBRTUTimerT35Expired t₁ else t₁)) := rfl
  obtain ⟨log₂, t₂, hrun₂, hend, hentry⟩ := hserved.turns
  refine ⟨Machine.along_append hrun₁ hbytes (Machine.along_cons hi hstep along_turns),
    log₁ ++ (.t35, []) :: log₂, t₂, ?_, ?_, hentry⟩
  · rw [Modbus.exchange, Machine.run_append hrun₁, Machine.run_cons hstep, hrun₂]
  · rw [sent_append, hsent₁]
    exact hend

/-- What a master that waits for each reply sends. -/
def exchanges (frames : List (List UInt8)) : List Line := .t35 :: frames.flatMap exchange

theorem Listening.exchanges {frames : List (List UInt8)} (hframes : ∀ frame ∈ frames, frame ≠ [])
    (h : Listening srv (some []) out s) (hpoll : s.pollPoint = .entry) :
    (rtuSlave ucMBAddress xFuncHandlers).Along Disciplined s (frames.flatMap Modbus.exchange) ∧
      ∃ log t, (rtuSlave ucMBAddress xFuncHandlers).run s (frames.flatMap Modbus.exchange) =
          (log, .inl t) ∧
        Listening (srv.serveAll ucMBAddress xFuncHandlers frames) (some []) (out ++ sent log) t := by
  induction frames generalizing srv out s with
  | nil => exact ⟨trivial, [], s, rfl, by rw [sent, List.flatMap_nil, List.append_nil]; exact h⟩
  | cons frame frames ih =>
    obtain ⟨hfirst, log₁, t₁, hrun₁, h₁, hpoll₁⟩ := @Listening.exchange σ ucMBAddress xFuncHandlers srv
      out s frame (hframes frame List.mem_cons_self) h hpoll
    obtain ⟨hrest, log₂, t₂, hrun₂, h₂⟩ :=
      ih (fun f hf => hframes f (List.mem_cons_of_mem _ hf)) h₁ hpoll₁
    refine ⟨Machine.along_append hrun₁ hfirst hrest, log₁ ++ log₂, t₂, ?_, ?_⟩
    · rw [List.flatMap_cons, Machine.run_append hrun₁, hrun₂]
    · rw [sent_append, ← List.append_assoc]
      exact h₂

/-- A master that waits keeps to the discipline, and is answered as by the server. -/
theorem rtuSlave_exchanges (mem : Nat → UInt8) (app : σ) {frames : List (List UInt8)}
    (hframes : ∀ frame ∈ frames, frame ≠ []) :
    (rtuSlave ucMBAddress xFuncHandlers).Along Disciplined (started mem app) (exchanges frames) ∧
      ∃ log t, (rtuSlave ucMBAddress xFuncHandlers).run (started mem app) (exchanges frames) =
          (log, .inl t) ∧ t.Listens ∧
        sent log = (Server.serveAll ucMBAddress xFuncHandlers ⟨mem, app, []⟩ frames).out ∧
        t.app = (Server.serveAll ucMBAddress xFuncHandlers ⟨mem, app, []⟩ frames).app := by
  have hready : (some MbEventType.ready ≠ some .frameReceived) ∧ some MbEventType.ready ≠ some .execute := by
    decide
  have hlistening : Listening (⟨mem, app, []⟩ : Server σ) (some []) []
      (xMBRTUTimerT35Expired (started mem app)) :=
    ⟨⟨.inl rfl, rfl, hready.1, hready.2⟩, rfl, rfl, ⟨rfl, rfl, rfl⟩, rfl, rfl⟩
  obtain ⟨halong, log, t, hrun, hend⟩ :=
    @Listening.exchanges σ ucMBAddress xFuncHandlers _ _ _ frames hframes hlistening rfl
  have hstep : (rtuSlave ucMBAddress xFuncHandlers).step (started mem app) .t35 =
      ([], .inl (xMBRTUTimerT35Expired (started mem app))) := rfl
  have hi : Disciplined (started mem app) .t35 := fun h => by cases h
  refine ⟨Machine.along_cons hi hstep halong, (.t35, []) :: log, t, ?_, hend.listens, ?_,
    hend.app.symm⟩
  · rw [Modbus.exchanges, Machine.run_cons hstep, hrun]
  · exact hend.out.symm

theorem heard_append {is js : List Line} : heard cur (is ++ js) =
    ((heard (heard cur is).1 js).1, (heard cur is).2 ++ (heard (heard cur is).1 js).2) := by
  induction is generalizing cur with
  | nil => rfl
  | cons i is ih => simp only [List.cons_append, heard, ih, List.append_assoc]

theorem heard_bytes {bs frame : List UInt8} :
    heard (some bs) (frame.map .rx) = (some (bs ++ frame), []) := by
  induction frame generalizing bs with
  | nil => rw [List.append_nil]; rfl
  | cons b frame ih =>
    have hnone : heardFrame (some bs) (.rx b) = [] := by cases bs <;> rfl
    rw [List.map_cons, heard, hnone, hear, ih, List.append_assoc]
    rfl

theorem heard_turns : heard cur turns = (cur, []) := by
  have hquiet {i : Line} (hhear : hear cur i = cur) (hframe : heardFrame cur i = []) (n : Nat) :
      heard cur (List.replicate n i) = (cur, []) := by
    induction n with
    | zero => rfl
    | succ n ih => rw [List.replicate_succ, heard, hhear, hframe, ih, List.nil_append]
  have htxe : hear cur .txe = cur ∧ heardFrame cur .txe = [] := by
    rcases cur with _ | _ | _ <;> exact ⟨rfl, rfl⟩
  rw [turns, heard_append, hquiet hear_poll heardFrame_poll, hquiet htxe.1 htxe.2]
  rfl

/-- The frames of a master that waits are those that the slave hears. -/
theorem heard_exchanges {frames : List (List UInt8)} (hframes : ∀ frame ∈ frames, frame ≠ []) :
    (heard none (exchanges frames)).2 = frames := by
  have hfrom : heard (some []) (frames.flatMap Modbus.exchange) = (some [], frames) := by
    induction frames with
    | nil => rfl
    | cons frame frames ih =>
      obtain ⟨b, bs, rfl⟩ := List.exists_cons_of_ne_nil (hframes frame List.mem_cons_self)
      have hone : heard (some []) (Modbus.exchange (b :: bs)) = (some [], [b :: bs]) := by
        rw [Modbus.exchange, heard_append, heard_bytes, heard]
        simp only [List.nil_append, hear, heard_turns, heardFrame, List.append_nil]
      rw [List.flatMap_cons, heard_append, hone, ih fun f hf => hframes f (List.mem_cons_of_mem _ hf)]
      rfl
  rw [Modbus.exchanges, heard]
  exact congrArg Prod.snd hfrom

/-- The handlers of the stack over two input registers. -/
abbrev inputHandlers : List (FuncEntry Unit) := Modbus.xFuncHandlers adjacentEntries [] ⟨[], fits_noId⟩

/-- A slave with these handlers that is asked for an input register. -/
theorem rtuSlave_serves_read :
    ∃ log s, (rtuSlave 1 inputHandlers).run (started (fun _ => 0) ())
        (exchanges [adu 1 [4, 0, 0x10, 0, 1]]) = (log, .inl s) ∧
      sent log <+: (served 1 inputHandlers (fun _ => 0) () (exchanges [adu 1 [4, 0, 0x10, 0, 1]])).out ∧
      ∃ log' t, (rtuSlave 1 inputHandlers).run s turns = (log', .inl t) ∧
        sent log ++ sent log' =
          (served 1 inputHandlers (fun _ => 0) () (exchanges [adu 1 [4, 0, 0x10, 0, 1]])).out ∧
        t.app = (served 1 inputHandlers (fun _ => 0) ()
          (exchanges [adu 1 [4, 0, 0x10, 0, 1]])).app ∧ t.Listens :=
  rtuSlave_serves (fun _ => 0) () _ (rtuSlave_exchanges _ _ fun frame hframe => by
    rw [List.mem_singleton.mp hframe]
    exact List.cons_ne_nil _ _).1

end McuUtilities.Modbus
