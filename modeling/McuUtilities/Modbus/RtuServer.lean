import McuUtilities.Modbus.Rtu

/-!
# A slave serves one frame after the other

What a slave on a serial line is for: bytes between two silences are a frame, a frame that is long
enough, not too long, has a valid CRC and is addressed to the slave or broadcast is executed, and
unless it was broadcast it is answered by one frame with the address of the slave and a CRC. `Server`
does so at once, at the silence that ends a frame. The slave does it in steps of its interrupts and of
the main loop, and for every order of them its bytes on the line are those of the server, as long as
no byte arrives while it has a frame to serve or sends, and no frame ends while the main loop is clearing
the event flag.
-/

namespace McuUtilities.Modbus

variable {σ : Type}

/-! ## The line -/

/-- What a receiver has heard since the last silence; nothing counts before the first one. -/
def hear : Option (List UInt8) → Line → Option (List UInt8)
  | some bs, .rx b => some (bs ++ [b])
  | _, .t35 => some []
  | cur, _ => cur

/-- The frame that an input completes. -/
def heardFrame : Option (List UInt8) → Line → List (List UInt8)
  | some (b :: bs), .t35 => [b :: bs]
  | _, _ => []

/-- What a receiver has heard since the last silence after the inputs, and the frames before. -/
def heard : Option (List UInt8) → List Line → Option (List UInt8) × List (List UInt8)
  | cur, [] => (cur, [])
  | cur, i :: is => ((heard (hear cur i) is).1, heardFrame cur i ++ (heard (hear cur i) is).2)

section
variable {cur : Option (List UInt8)}

theorem heardFrame_rx {b : UInt8} : heardFrame cur (.rx b) = [] := by rcases cur with _ | _ | _ <;> rfl

theorem heardFrame_txe : heardFrame cur .txe = [] := by rcases cur with _ | _ | _ <;> rfl

theorem heardFrame_poll : heardFrame cur .poll = [] := by rcases cur with _ | _ | _ <;> rfl

theorem hear_txe : hear cur .txe = cur := by rcases cur with _ | _ <;> rfl

theorem hear_poll : hear cur .poll = cur := by rcases cur with _ | _ <;> rfl

end

/-! ## The server -/

/-- The buffer, the application and what is on the line. -/
structure Server (σ : Type) where
  mem : Nat → UInt8
  app : σ
  out : List UInt8

/-- A frame that is served by the slave `ucMBAddress`. -/
def Accepts (ucMBAddress : UInt8) (frame : List UInt8) : Prop :=
  4 ≤ frame.length ∧ frame.length ≤ 256 ∧ bitwiseCrc16 frame = 0 ∧
    (frame.getD 0 0 = ucMBAddress ∨ frame.getD 0 0 = mbAddressBroadcast)

instance (ucMBAddress : UInt8) (frame : List UInt8) : Decidable (Accepts ucMBAddress frame) :=
  inferInstanceAs (Decidable (_ ∧ _))

/-- A PDU as a frame on the line. -/
def adu (address : UInt8) (pdu : List UInt8) : List UInt8 :=
  (address :: pdu) ++ lowFirst (bitwiseCrc16 (address :: pdu))

section
variable (ucMBAddress : UInt8) (xFuncHandlers : List (FuncEntry σ))

/-- Serves a frame. Of a frame that is too long the buffer keeps what fits. -/
def Server.serve (srv : Server σ) (frame : List UInt8) : Server σ :=
  let mem := store srv.mem 0 (frame.take 256)
  if Accepts ucMBAddress frame then
    let address := frame.getD 0 0
    let r := execute xFuncHandlers address (slice mem 1 255) (frame.length - 3) srv.app
    let mem := store mem 1 r.frame
    if address = mbAddressBroadcast then ⟨mem, r.app, srv.out⟩
    else
      let reply := adu ucMBAddress (r.frame.take r.usLen)
      ⟨store mem 0 reply, r.app, srv.out ++ reply⟩
  else ⟨mem, srv.app, srv.out⟩

/-- Serves one frame after the other. -/
def Server.serveAll (srv : Server σ) (frames : List (List UInt8)) : Server σ :=
  frames.foldl (Server.serve ucMBAddress xFuncHandlers) srv

end

/-! ## Where the slave stands -/

/-- The slave has no frame to serve and sends nothing. -/
def Slave.Listens (s : Slave σ) : Prop :=
  (s.pollPoint = .entry ∨ s.pollPoint = .got .ready ∨ s.pollPoint = .got .frameSent) ∧
    s.eSndState = .idle ∧ s.event ≠ some .frameReceived ∧ s.event ≠ some .execute

instance (s : Slave σ) : Decidable s.Listens := inferInstanceAs (Decidable (_ ∧ _))

/-- The discipline of the line: bytes arrive only while the slave listens, and a frame does not end
between the two accesses of `xMBPortEventGet`. -/
def Disciplined (s : Slave σ) : Line → Prop
  | .rx _ => s.Listens
  | .t35 => s.eRcvState = .rcv → ∀ eEvent, s.pollPoint ≠ .got eEvent
  | _ => True

/-- The receiver after it has heard `cur` over the buffer `mem`. -/
def Hears (mem : Nat → UInt8) (s : Slave σ) : Option (List UInt8) → Prop
  | none => s.eRcvState = .init ∧ s.timerEnabled = true ∧ s.ucRTUBuf = mem
  | some [] => s.eRcvState = .idle ∧ s.timerEnabled = false ∧ s.ucRTUBuf = mem
  | some (b :: bs) => s.timerEnabled = true ∧
      s.ucRTUBuf = store mem 0 ((b :: bs).take 256) ∧
      (if (b :: bs).length ≤ 256 then
        s.eRcvState = .rcv ∧ s.usRcvBufferPos = (b :: bs).length
      else s.eRcvState = .error)

/-- The slave listens; it is where the server is. -/
structure Listening (srv : Server σ) (cur : Option (List UInt8)) (out : List UInt8) (s : Slave σ) :
    Prop where
  listens : s.Listens
  rx : s.rxEnabled = true
  tx : s.txBusy = false
  hears : Hears srv.mem s cur
  app : srv.app = s.app
  out : srv.out = out

/-- Between the silence behind a frame and its reply: nothing is received or sent. -/
structure Busy (s : Slave σ) : Prop where
  rcv : s.eRcvState = .idle
  snd : s.eSndState = .idle
  timer : s.timerEnabled = false
  rx : s.rxEnabled = true
  tx : s.txBusy = false

/-- How far the main loop is with a frame. -/
inductive Stage (ucMBAddress : UInt8) (frame : List UInt8) (s : Slave σ) : Prop where
  | received (event : s.event = some .frameReceived)
      (poll : s.pollPoint = .entry ∨ s.pollPoint = .got .frameReceived)
      (pos : s.usRcvBufferPos = frame.length)
  | checking (event : s.event = none) (poll : s.pollPoint = .receive)
      (pos : s.usRcvBufferPos = frame.length)
  | accepted (accepts : Accepts ucMBAddress frame) (address : s.ucRcvAddress = frame.getD 0 0)
      (len : s.usLength = frame.length - 3)
      (point : s.event = none ∧ s.pollPoint = .post ∨ s.event = some .execute ∧ s.pollPoint = .entry ∨
        s.event = some .execute ∧ s.pollPoint = .got .execute ∨ s.event = none ∧ s.pollPoint = .execute)

section
variable (ucMBAddress : UInt8) (xFuncHandlers : List (FuncEntry σ))

/-- The slave is on its way to serve a frame, which the server has served. -/
structure Pending (srv : Server σ) (out : List UInt8) (s : Slave σ) (before : Server σ)
    (frame : List UInt8) : Prop where
  busy : Busy s
  stage : Stage ucMBAddress frame s
  fits : frame.length ≤ 256
  buf : s.ucRTUBuf = store before.mem 0 frame
  app : before.app = s.app
  out : before.out = out
  served : srv = before.serve ucMBAddress xFuncHandlers frame

/-- The slave has served a frame and not started the reply. -/
structure Replying (srv : Server σ) (out : List UInt8) (s : Slave σ) : Prop where
  busy : Busy s
  event : s.event = none
  poll : s.pollPoint = .send
  fits : s.usLength ≤ 253
  app : srv.app = s.app
  mem : srv.mem = store s.ucRTUBuf 0 (adu ucMBAddress (slice s.ucRTUBuf 1 s.usLength))
  out : srv.out = out ++ adu ucMBAddress (slice s.ucRTUBuf 1 s.usLength)

/-- The slave sends the rest of a reply. -/
structure Sending (srv : Server σ) (out : List UInt8) (s : Slave σ) : Prop where
  rcv : s.eRcvState = .idle
  snd : s.eSndState = .xmit
  timer : s.timerEnabled = false
  tx : s.txBusy = true
  event : s.event = none
  poll : s.pollPoint = .entry
  fits : s.pucSndBufferCur + s.usSndBufferCount ≤ 256
  app : srv.app = s.app
  mem : srv.mem = s.ucRTUBuf
  out : srv.out = out ++ slice s.ucRTUBuf s.pucSndBufferCur s.usSndBufferCount

/-- The slave after it has sent `out`, where the server is at `srv` and the line at `cur`. -/
inductive Follows (srv : Server σ) : Option (List UInt8) → List UInt8 → Slave σ → Prop where
  | listening {cur out s} : Listening srv cur out s → Follows srv cur out s
  | pending {out s} (before frame) : Pending ucMBAddress xFuncHandlers srv out s before frame →
      Follows srv (some []) out s
  | replying {out s} : Replying ucMBAddress srv out s → Follows srv (some []) out s
  | sending {out s} : Sending srv out s → Follows srv (some []) out s

end

/-! ## The frames of the buffer -/

theorem crcOf_eq {buf : Nat → UInt8} {n : Nat} (h : n ≤ 256) :
    crcOf buf n = bitwiseCrc16 (slice buf 0 n) := by
  have hlen : (slice buf 0 n).length = n := length_slice
  have hret := (@returns_usMBCRC16 (slice buf 0 n) (by rw [hlen]; omega)).value
  rw [hlen] at hret
  rw [crcOf, hret]
  rfl

theorem length_adu {address : UInt8} {pdu : List UInt8} :
    (adu address pdu).length = pdu.length + 3 := by
  simp [adu, lowFirst]

theorem store_concat {mem : Nat → UInt8} {bs : List UInt8} {b : UInt8} :
    store (store mem 0 bs) bs.length [b] = store mem 0 (bs ++ [b]) := by
  have := @store_append _ mem 0 bs [b]
  rwa [Nat.zero_add] at this

/-- The bytes of the buffer with the address in front are those of the reply without its CRC. -/
theorem slice_address {buf : Nat → UInt8} {address : UInt8} {n : Nat} :
    slice (store buf 0 [address]) 0 (1 + n) = address :: slice buf 1 n := by
  have hrest : slice (store buf 0 [address]) 1 n = slice buf 1 n :=
    slice_store_of_disjoint (.inl (by simp))
  rw [Nat.add_comm, slice_succ, Nat.zero_add, hrest, store_add (i := 0) (by simp)]
  rfl

/-- Writing the address in front of a PDU and the CRC behind it writes the reply. -/
theorem store_adu {buf : Nat → UInt8} {address : UInt8} {n : Nat} (hn : 1 + n ≤ 256) :
    store (store buf 0 [address]) (1 + n) (lowFirst (crcOf (store buf 0 [address]) (1 + n))) =
      store buf 0 (adu address (slice buf 1 n)) := by
  have hlen : (address :: slice buf 1 n).length = 1 + n := by
    rw [List.length_cons, length_slice, Nat.add_comm]
  have hbuf : store buf 0 [address] = store buf 0 (address :: slice buf 1 n) := by
    rw [← slice_address]
    exact (store_slice fun a ha => store_of_ge (by simp; omega)).symm
  rw [crcOf_eq hn, slice_address]
  conv => lhs; rw [hbuf]
  have := @store_append _ buf 0 (address :: slice buf 1 n)
    (lowFirst (bitwiseCrc16 (address :: slice buf 1 n)))
  rw [Nat.zero_add, hlen] at this
  exact this

/-! ## Bytes on the line -/

section rx
variable {srv : Server σ} {cur : Option (List UInt8)} {out : List UInt8} {s : Slave σ} {b : UInt8}

theorem receiveFSM_init (h : s.eRcvState = .init) :
    xMBRTUReceiveFSM b s = { s with timerEnabled := true } := by
  rw [xMBRTUReceiveFSM, h]

theorem receiveFSM_error (h : s.eRcvState = .error) :
    xMBRTUReceiveFSM b s = { s with timerEnabled := true } := by
  rw [xMBRTUReceiveFSM, h]

theorem receiveFSM_idle (h : s.eRcvState = .idle) :
    xMBRTUReceiveFSM b s = { s with
      usRcvBufferPos := 1
      ucRTUBuf := store s.ucRTUBuf 0 [b]
      eRcvState := .rcv
      timerEnabled := true } := by
  rw [xMBRTUReceiveFSM, h]

theorem receiveFSM_rcv (h : s.eRcvState = .rcv) (hpos : s.usRcvBufferPos < 256) :
    xMBRTUReceiveFSM b s = { s with
      ucRTUBuf := store s.ucRTUBuf s.usRcvBufferPos [b]
      usRcvBufferPos := s.usRcvBufferPos + 1
      timerEnabled := true } := by
  rw [xMBRTUReceiveFSM, h]
  exact if_pos hpos

theorem receiveFSM_full (h : s.eRcvState = .rcv) (hpos : ¬ s.usRcvBufferPos < 256) :
    xMBRTUReceiveFSM b s = { s with eRcvState := .error, timerEnabled := true } := by
  rw [xMBRTUReceiveFSM, h]
  exact if_neg hpos

theorem hears_rx (h : Hears srv.mem s cur) :
    Hears srv.mem (xMBRTUReceiveFSM b s) (hear cur (.rx b)) := by
  cases cur with
  | none =>
    obtain ⟨hstate, -, hbuf⟩ := h
    rw [receiveFSM_init hstate]
    exact ⟨hstate, rfl, hbuf⟩
  | some bs =>
    cases bs with
    | nil =>
      obtain ⟨hstate, -, hbuf⟩ := h
      rw [receiveFSM_idle hstate]
      exact ⟨rfl, congrArg (store · 0 [b]) hbuf, rfl, rfl⟩
    | cons a bs =>
      obtain ⟨htimer, hbuf, hstate⟩ := h
      have hlen' : (a :: (bs ++ [b])).length = (a :: bs).length + 1 := by simp
      show Hears _ _ (some (a :: (bs ++ [b])))
      by_cases hlen : (a :: bs).length ≤ 256
      · rw [if_pos hlen] at hstate
        obtain ⟨hrcv, hpos⟩ := hstate
        rcases Nat.lt_or_eq_of_le hlen with hlt | heq
        · have hfits : (a :: (bs ++ [b])).length ≤ 256 := by omega
          rw [receiveFSM_rcv hrcv (by omega)]
          refine ⟨rfl, ?_, ?_⟩
          · show store s.ucRTUBuf s.usRcvBufferPos [b] = _
            rw [hbuf, hpos, List.take_of_length_le hlen, List.take_of_length_le hfits]
            exact store_concat
          · rw [if_pos hfits]
            exact ⟨hrcv, by rw [hlen', ← hpos]⟩
        · rw [receiveFSM_full hrcv (by omega)]
          refine ⟨rfl, ?_, ?_⟩
          · show s.ucRTUBuf = _
            rw [hbuf, ← List.cons_append, List.take_append_of_le_length (Nat.le_of_eq heq.symm)]
          · rw [if_neg (by omega)]
      · rw [if_neg hlen] at hstate
        rw [receiveFSM_error hstate]
        refine ⟨rfl, ?_, ?_⟩
        · show s.ucRTUBuf = _
          rw [hbuf, ← List.cons_append, List.take_append_of_le_length (by omega)]
        · rw [if_neg (by omega)]
          exact hstate

theorem xMBRTUReceiveFSM_frame : (xMBRTUReceiveFSM b s).pollPoint = s.pollPoint ∧
    (xMBRTUReceiveFSM b s).eSndState = s.eSndState ∧ (xMBRTUReceiveFSM b s).event = s.event ∧
    (xMBRTUReceiveFSM b s).rxEnabled = s.rxEnabled ∧ (xMBRTUReceiveFSM b s).txBusy = s.txBusy ∧
    (xMBRTUReceiveFSM b s).app = s.app := by
  unfold xMBRTUReceiveFSM
  split
  · exact ⟨rfl, rfl, rfl, rfl, rfl, rfl⟩
  · exact ⟨rfl, rfl, rfl, rfl, rfl, rfl⟩
  · exact ⟨rfl, rfl, rfl, rfl, rfl, rfl⟩
  · split <;> exact ⟨rfl, rfl, rfl, rfl, rfl, rfl⟩

theorem Listening.rx_step (h : Listening srv cur out s) :
    Listening srv (hear cur (.rx b)) out (xMBRTUReceiveFSM b s) := by
  obtain ⟨hpoll, hsnd, hevent, hrx, htx, happ⟩ := @xMBRTUReceiveFSM_frame σ s b
  obtain ⟨h1, h2, h3, h4⟩ := h.listens
  exact ⟨⟨hpoll ▸ h1, hsnd.trans h2, hevent ▸ h3, hevent ▸ h4⟩, hrx.trans h.rx, htx.trans h.tx,
    hears_rx h.hears, h.app.trans happ.symm, h.out⟩

end rx

/-! ## The silence behind a frame -/

section steps
variable {ucMBAddress : UInt8} {xFuncHandlers : List (FuncEntry σ)}
variable {srv : Server σ} {cur : Option (List UInt8)} {out : List UInt8} {s : Slave σ}

theorem t35_init (h : s.eRcvState = .init) : xMBRTUTimerT35Expired s =
    { s with event := some .ready, timerEnabled := false, eRcvState := .idle } := by
  rw [xMBRTUTimerT35Expired, h]

theorem t35_rcv (h : s.eRcvState = .rcv) : xMBRTUTimerT35Expired s =
    { s with event := some .frameReceived, timerEnabled := false, eRcvState := .idle } := by
  rw [xMBRTUTimerT35Expired, h]

theorem t35_error (h : s.eRcvState = .error) : xMBRTUTimerT35Expired s =
    { s with timerEnabled := false, eRcvState := .idle } := by
  rw [xMBRTUTimerT35Expired, h]

theorem serve_of_not_accepts {frame : List UInt8} (h : ¬ Accepts ucMBAddress frame) :
    srv.serve ucMBAddress xFuncHandlers frame =
      ⟨store srv.mem 0 (frame.take 256), srv.app, srv.out⟩ := by
  rw [Server.serve, if_neg h]

theorem Listening.poll_eq_entry (h : Listening srv cur out s) (hgot : ∀ e, s.pollPoint ≠ .got e) :
    s.pollPoint = .entry := by
  rcases h.listens.1 with hpoll | hpoll | hpoll
  · exact hpoll
  · exact absurd hpoll (hgot _)
  · exact absurd hpoll (hgot _)

theorem Listening.t35_step (h : Listening srv cur out s) (hi : Disciplined s .t35) :
    Follows ucMBAddress xFuncHandlers
      (srv.serveAll ucMBAddress xFuncHandlers (heardFrame cur .t35)) (hear cur .t35) out
      (if s.timerEnabled then xMBRTUTimerT35Expired s else s) := by
  obtain ⟨hpoll, hsnd, hevent, hexec⟩ := h.listens
  have hhears := h.hears
  cases cur with
  | none =>
    obtain ⟨hstate, htimer, hbuf⟩ := hhears
    rw [if_pos htimer, t35_init hstate]
    exact .listening ⟨⟨hpoll, hsnd, by simp, by simp⟩, h.rx, h.tx, ⟨rfl, rfl, hbuf⟩, h.app, h.out⟩
  | some bs =>
    cases bs with
    | nil =>
      obtain ⟨hstate, htimer, hbuf⟩ := hhears
      rw [htimer]
      exact .listening ⟨h.listens, h.rx, h.tx, ⟨hstate, htimer, hbuf⟩, h.app, h.out⟩
    | cons b bs =>
      obtain ⟨htimer, hbuf, hstate⟩ := hhears
      rw [if_pos htimer]
      show Follows _ _ (srv.serve ucMBAddress xFuncHandlers (b :: bs)) (some []) out _
      by_cases hlen : (b :: bs).length ≤ 256
      · rw [if_pos hlen] at hstate
        rw [List.take_of_length_le hlen] at hbuf
        rw [t35_rcv hstate.1]
        have hentry := h.poll_eq_entry (hi hstate.1)
        exact .pending srv (b :: bs) ⟨⟨rfl, hsnd, rfl, h.rx, h.tx⟩,
          .received rfl (.inl hentry) hstate.2, hlen, hbuf, h.app, h.out, rfl⟩
      · rw [if_neg hlen] at hstate
        rw [t35_error hstate, serve_of_not_accepts fun hacc => hlen hacc.2.1]
        exact .listening ⟨⟨hpoll, hsnd, hevent, hexec⟩, h.rx, h.tx, ⟨rfl, rfl, hbuf⟩, h.app, h.out⟩

/-! ## The main loop -/

theorem execute_bounds {address : UInt8} {f : List UInt8} {len : Nat} {app : σ} (hf : f.length = 255)
    (hlen : len ≤ 253) :
    (execute xFuncHandlers address f len app).frame.length = 255 ∧
      (execute xFuncHandlers address f len app).usLen ≤ 253 := by
  have hcall : (callHandler xFuncHandlers f len app).frame.length = 255 ∧
      (callHandler xFuncHandlers f len app).usLen ≤ 253 := by
    unfold callHandler
    split
    · exact ⟨hf, hlen⟩
    · next h _ => exact ⟨h.length_frame f len app hf, h.usLen_le f len app hlen⟩
  unfold execute
  dsimp only
  split
  · exact hcall
  · unfold Handled.answer
    split
    · exact hcall
    · exact ⟨by simpa using hcall.1, show 2 ≤ 253 by decide⟩

/-- The server has served the frame as the slave does. -/
theorem Pending.execute_step {before : Server σ} {frame : List UInt8}
    (h : Pending ucMBAddress xFuncHandlers srv out s before frame) (hacc : Accepts ucMBAddress frame)
    (haddr : s.ucRcvAddress = frame.getD 0 0) (hlen : s.usLength = frame.length - 3)
    (hevent : s.event = none) (hpoll : s.pollPoint = .execute) :
    ∃ t, eMBPoll ucMBAddress xFuncHandlers s = ([], .inl t) ∧
      Follows ucMBAddress xFuncHandlers srv (some []) out t := by
  have hfits := h.fits
  have hbounds := @execute_bounds σ xFuncHandlers s.ucRcvAddress (slice s.ucRTUBuf 1 255) s.usLength s.app
    length_slice (by omega)
  have hstep : eMBPoll ucMBAddress xFuncHandlers s = ([], .inl { s with
      ucRTUBuf := store s.ucRTUBuf 1
        (execute xFuncHandlers s.ucRcvAddress (slice s.ucRTUBuf 1 255) s.usLength s.app).frame
      usLength := (execute xFuncHandlers s.ucRcvAddress (slice s.ucRTUBuf 1 255) s.usLength s.app).usLen
      app := (execute xFuncHandlers s.ucRcvAddress (slice s.ucRTUBuf 1 255) s.usLength s.app).app
      pollPoint := if s.ucRcvAddress = mbAddressBroadcast then .entry else .send }) := by
    rw [eMBPoll, hpoll]
  refine ⟨_, hstep, ?_⟩
  have hserve := h.served
  rw [Server.serve, if_pos hacc, List.take_of_length_le hfits, ← h.buf] at hserve
  dsimp only at hserve
  rw [← haddr, ← hlen, h.app] at hserve
  generalize execute xFuncHandlers s.ucRcvAddress (slice s.ucRTUBuf 1 255) s.usLength s.app = r
    at hbounds hserve
  by_cases hbroadcast : s.ucRcvAddress = mbAddressBroadcast
  · rw [if_pos hbroadcast] at hserve
    rw [if_pos hbroadcast, hserve]
    exact .listening ⟨⟨.inl rfl, h.busy.snd, by simp [hevent], by simp [hevent]⟩, h.busy.rx, h.busy.tx,
      ⟨h.busy.rcv, h.busy.timer, rfl⟩, rfl, h.out⟩
  · rw [if_neg hbroadcast] at hserve
    have hpdu : slice (store s.ucRTUBuf 1 r.frame) 1 r.usLen = r.frame.take r.usLen := by
      conv => rhs; rw [← @slice_store_self _ s.ucRTUBuf 1 r.frame]
      rw [take_slice, Nat.min_eq_left (by omega)]
    rw [if_neg hbroadcast, hserve]
    refine .replying ⟨⟨h.busy.rcv, h.busy.snd, h.busy.timer, h.busy.rx, h.busy.tx⟩, hevent, rfl, hbounds.2,
      rfl, ?_, ?_⟩
    · show store _ 0 _ = store _ 0 (adu ucMBAddress (slice (store s.ucRTUBuf 1 r.frame) 1 r.usLen))
      rw [hpdu]
    · show before.out ++ _ = out ++ adu ucMBAddress (slice (store s.ucRTUBuf 1 r.frame) 1 r.usLen)
      rw [hpdu, h.out]

theorem Pending.check_step {before : Server σ} {frame : List UInt8}
    (h : Pending ucMBAddress xFuncHandlers srv out s before frame) (hevent : s.event = none)
    (hpos : s.usRcvBufferPos = frame.length) :
    Follows ucMBAddress xFuncHandlers srv (some []) out (eMBRTUReceive ucMBAddress s) := by
  have hfits := h.fits
  have hslice : slice s.ucRTUBuf 0 frame.length = frame := by rw [h.buf, slice_store_self]
  have hcrc : crcOf s.ucRTUBuf s.usRcvBufferPos = bitwiseCrc16 frame := by
    rw [hpos, crcOf_eq hfits, hslice]
  have hrejected (hno : ¬ Accepts ucMBAddress frame) {t : Slave σ}
      (ht : t.pollPoint = .entry) (hevt : t.event = s.event) (hsnd : t.eSndState = s.eSndState)
      (hrx : t.rxEnabled = s.rxEnabled) (htx : t.txBusy = s.txBusy) (hrcv : t.eRcvState = s.eRcvState)
      (htimer : t.timerEnabled = s.timerEnabled) (hbuf : t.ucRTUBuf = s.ucRTUBuf)
      (happ : t.app = s.app) : Follows ucMBAddress xFuncHandlers srv (some []) out t := by
    have hserve := h.served
    rw [serve_of_not_accepts hno, List.take_of_length_le hfits, ← h.buf, h.app] at hserve
    rw [hserve]
    exact .listening ⟨⟨.inl ht, hsnd.trans h.busy.snd, by simp [hevt, hevent], by simp [hevt, hevent]⟩,
      hrx.trans h.busy.rx, htx.trans h.busy.tx, ⟨hrcv.trans h.busy.rcv, htimer.trans h.busy.timer, hbuf⟩,
      happ.symm, h.out⟩
  unfold eMBRTUReceive
  split
  · next hok =>
    rw [hpos] at hok
    have haddr : s.ucRTUBuf 0 = frame.getD 0 0 := by
      have h0 : 0 < frame.length := by omega
      have := @store_add _ before.mem 0 frame 0 h0
      rw [h.buf]
      simpa [List.getD, h0] using this
    by_cases hours : s.ucRTUBuf 0 = ucMBAddress ∨ s.ucRTUBuf 0 = mbAddressBroadcast
    · have hacc : Accepts ucMBAddress frame := by
        refine ⟨hok.1, hfits, ?_, haddr ▸ hours⟩
        rw [← hcrc, hpos]
        exact hok.2
      refine .pending before frame ⟨⟨h.busy.rcv, h.busy.snd, h.busy.timer, h.busy.rx, h.busy.tx⟩, ?_, hfits,
        h.buf, h.app, h.out, h.served⟩
      exact .accepted hacc haddr (by rw [hpos]) (.inl ⟨hevent, if_pos hours⟩)
    · exact hrejected (fun hacc => hours (haddr ▸ hacc.2.2.2)) (if_neg hours) rfl rfl rfl rfl rfl rfl rfl rfl
  · next hbad =>
    refine hrejected (fun hacc => hbad ⟨hpos ▸ hacc.1, ?_⟩) rfl rfl rfl rfl rfl rfl rfl rfl rfl
    rw [hcrc]
    exact hacc.2.2.1

/-- Starting the reply puts its first byte on the line. -/
theorem Replying.send_step (h : Replying ucMBAddress srv out s) :
    ∃ b t, eMBPoll ucMBAddress xFuncHandlers s = ([b], .inl t) ∧ Sending srv (out ++ [b]) t := by
  have hfits := h.fits
  have hlen : (adu ucMBAddress (slice s.ucRTUBuf 1 s.usLength)).length = 1 + s.usLength + 2 := by
    rw [length_adu, length_slice]
    omega
  have hbuf := @store_adu s.ucRTUBuf ucMBAddress s.usLength (by omega)
  have hstep : eMBPoll ucMBAddress xFuncHandlers s = ([srv.mem 0], .inl { s with
      ucRTUBuf := srv.mem
      pucSndBufferCur := 1
      usSndBufferCount := 1 + s.usLength + 1
      eSndState := .xmit
      rxEnabled := false
      txBusy := true
      pollPoint := .entry }) := by
    rw [eMBPoll, h.poll]
    dsimp only
    rw [eMBRTUSend, if_pos h.busy.rcv]
    dsimp only
    rw [if_pos (by omega), hbuf, ← h.mem]
    rfl
  refine ⟨_, _, hstep, h.busy.rcv, rfl, h.busy.timer, rfl, h.event, rfl, ?_, h.app, rfl, ?_⟩
  · show 1 + (1 + s.usLength + 1) ≤ 256
    omega
  · have hall : slice srv.mem 0 (1 + s.usLength + 2) =
        adu ucMBAddress (slice s.ucRTUBuf 1 s.usLength) := by
      rw [h.mem, ← hlen, slice_store_self]
    rw [h.out, ← hall, show 1 + s.usLength + 2 = (1 + s.usLength + 1) + 1 by omega, slice_succ,
      List.append_assoc]
    rfl

theorem Listening.poll_step (h : Listening srv cur out s) :
    ∃ t, eMBPoll ucMBAddress xFuncHandlers s = ([], .inl t) ∧ Listening srv cur out t := by
  obtain ⟨hpoll, hsnd, hevent, hexec⟩ := h.listens
  have hears (t : Slave σ) (hstate : t.eRcvState = s.eRcvState) (htimer : t.timerEnabled = s.timerEnabled)
      (hbuf : t.ucRTUBuf = s.ucRTUBuf) (hpos : t.usRcvBufferPos = s.usRcvBufferPos) :
      Hears srv.mem t cur := by
    have hhears := h.hears
    rcases cur with _ | _ | ⟨b, bs⟩ <;> simp only [Hears, hstate, htimer, hbuf, hpos] at hhears ⊢ <;>
      exact hhears
  have hcleared : Listening srv cur out { s with event := none, pollPoint := .entry } :=
    ⟨⟨.inl rfl, hsnd, by simp, by simp⟩, h.rx, h.tx, hears _ rfl rfl rfl rfl, h.app, h.out⟩
  rcases hpoll with hpoll | hpoll | hpoll
  · cases he : s.event with
    | none => exact ⟨s, by rw [eMBPoll, hpoll]; dsimp only; rw [he], h⟩
    | some e =>
      have hcopied (hgot : PollPoint.got e = .got .ready ∨ PollPoint.got e = .got .frameSent) :
          Listening srv cur out { s with pollPoint := .got e } :=
        ⟨⟨.inr hgot, hsnd, hevent, hexec⟩, h.rx, h.tx, hears _ rfl rfl rfl rfl, h.app, h.out⟩
      refine ⟨_, by rw [eMBPoll, hpoll]; dsimp only; rw [he], hcopied ?_⟩
      cases e with
      | ready => exact .inl rfl
      | frameReceived => exact absurd he hevent
      | execute => exact absurd he hexec
      | frameSent => exact .inr rfl
  · exact ⟨_, by rw [eMBPoll, hpoll], hcleared⟩
  · exact ⟨_, by rw [eMBPoll, hpoll], hcleared⟩

theorem Pending.poll_step {before : Server σ} {frame : List UInt8}
    (h : Pending ucMBAddress xFuncHandlers srv out s before frame) :
    ∃ t, eMBPoll ucMBAddress xFuncHandlers s = ([], .inl t) ∧
      Follows ucMBAddress xFuncHandlers srv (some []) out t := by
  have hbusy : Busy s := h.busy
  have hmove (t : Slave σ) (hrcv : t.eRcvState = s.eRcvState) (hsnd : t.eSndState = s.eSndState)
      (htimer : t.timerEnabled = s.timerEnabled) (hrx : t.rxEnabled = s.rxEnabled)
      (htx : t.txBusy = s.txBusy) (hbuf : t.ucRTUBuf = s.ucRTUBuf) (happ : t.app = s.app)
      (hstage : Stage ucMBAddress frame t) : Follows ucMBAddress xFuncHandlers srv (some []) out t :=
    .pending before frame ⟨⟨hrcv.trans hbusy.rcv, hsnd.trans hbusy.snd, htimer.trans hbusy.timer,
      hrx.trans hbusy.rx, htx.trans hbusy.tx⟩, hstage, h.fits, hbuf.trans h.buf, h.app.trans happ.symm,
      h.out, h.served⟩
  cases h.stage with
  | received hevent hpoll hpos =>
    rcases hpoll with hpoll | hpoll
    · refine ⟨{ s with pollPoint := .got .frameReceived }, by rw [eMBPoll, hpoll]; dsimp only; rw [hevent],
        ?_⟩
      exact hmove _ rfl rfl rfl rfl rfl rfl rfl (.received hevent (.inr rfl) hpos)
    · refine ⟨{ s with event := none, pollPoint := .receive }, by rw [eMBPoll, hpoll], ?_⟩
      exact hmove _ rfl rfl rfl rfl rfl rfl rfl (.checking rfl rfl hpos)
  | checking hevent hpoll hpos =>
    exact ⟨_, by rw [eMBPoll, hpoll], h.check_step hevent hpos⟩
  | accepted hacc haddr hlen hpoint =>
    rcases hpoint with ⟨hevent, hpoll⟩ | ⟨hevent, hpoll⟩ | ⟨hevent, hpoll⟩ | ⟨hevent, hpoll⟩
    · refine ⟨{ s with event := some .execute, pollPoint := .entry }, by rw [eMBPoll, hpoll], ?_⟩
      exact hmove _ rfl rfl rfl rfl rfl rfl rfl (.accepted hacc haddr hlen (.inr (.inl ⟨rfl, rfl⟩)))
    · refine ⟨{ s with pollPoint := .got .execute }, by rw [eMBPoll, hpoll]; dsimp only; rw [hevent], ?_⟩
      exact hmove _ rfl rfl rfl rfl rfl rfl rfl
        (.accepted hacc haddr hlen (.inr (.inr (.inl ⟨hevent, rfl⟩))))
    · refine ⟨{ s with event := none, pollPoint := .execute }, by rw [eMBPoll, hpoll], ?_⟩
      exact hmove _ rfl rfl rfl rfl rfl rfl rfl
        (.accepted hacc haddr hlen (.inr (.inr (.inr ⟨rfl, rfl⟩))))
    · exact h.execute_step hacc haddr hlen hevent hpoll

/-! ## The transmission -/

theorem step_txe_idle (h : s.txBusy = false) :
    (rtuSlave ucMBAddress xFuncHandlers).step s .txe = ([], .inl s) := by
  show (if s.txBusy then _ else _) = _
  rw [h]
  rfl

/-- The end of a byte starts the next one, or ends the reply behind the last one. -/
theorem Sending.txe_step (h : Sending srv out s) :
    ∃ o t, (rtuSlave ucMBAddress xFuncHandlers).step s .txe = (o, .inl t) ∧
      (Listening srv (some []) (out ++ o) t ∧ t.pollPoint = .entry ∨
        Sending srv (out ++ o) t ∧ t.usSndBufferCount + 1 = s.usSndBufferCount) := by
  have hfsm : (rtuSlave ucMBAddress xFuncHandlers).step s .txe =
      xMBRTUTransmitFSM { s with txBusy := false } := if_pos h.tx
  have hfits := h.fits
  have hout := h.out
  by_cases hdone : s.usSndBufferCount = 0
  · refine ⟨[], { s with txBusy := false, event := some .frameSent, rxEnabled := true, eSndState := .idle },
      ?_, .inl ?_⟩
    · rw [hfsm, xMBRTUTransmitFSM]
      dsimp only
      rw [h.snd]
      exact if_neg (fun hne => hne hdone)
    · rw [hdone, slice_zero, List.append_nil] at hout
      rw [List.append_nil]
      exact ⟨⟨⟨.inl h.poll, rfl, by simp, by simp⟩, rfl, rfl, ⟨h.rcv, h.timer, h.mem.symm⟩, h.app, hout⟩,
        h.poll⟩
  · obtain ⟨n, hn⟩ := Nat.exists_eq_succ_of_ne_zero hdone
    refine ⟨[s.ucRTUBuf s.pucSndBufferCur], { s with
        pucSndBufferCur := s.pucSndBufferCur + 1
        usSndBufferCount := s.usSndBufferCount - 1
        txBusy := true }, ?_, .inr ⟨?_, ?_⟩⟩
    · rw [hfsm, xMBRTUTransmitFSM]
      dsimp only
      rw [h.snd]
      dsimp only
      rw [if_pos hdone, if_pos (by omega)]
    · refine ⟨h.rcv, h.snd, h.timer, rfl, h.event, h.poll, ?_, h.app, h.mem, ?_⟩
      · show s.pucSndBufferCur + 1 + (s.usSndBufferCount - 1) ≤ 256
        omega
      · rw [hout, hn, slice_succ, List.append_assoc]
        rfl
    · show s.usSndBufferCount - 1 + 1 = s.usSndBufferCount
      omega

/-! ## Every step -/

/-- While a frame is served the line is not listened to. -/
theorem Pending.not_listens {before : Server σ} {frame : List UInt8}
    (h : Pending ucMBAddress xFuncHandlers srv out s before frame) : ¬ s.Listens := by
  rintro ⟨hpoll, -, hevent, hexec⟩
  cases h.stage with
  | received he _ _ => exact absurd he hevent
  | checking _ hp _ => rw [hp] at hpoll; exact absurd hpoll (by decide)
  | accepted _ _ _ hpoint =>
    rcases hpoint with ⟨-, hp⟩ | ⟨he, -⟩ | ⟨he, -⟩ | ⟨-, hp⟩
    · rw [hp] at hpoll; exact absurd hpoll (by decide)
    · exact absurd he hexec
    · exact absurd he hexec
    · rw [hp] at hpoll; exact absurd hpoll (by decide)

theorem Follows.step (h : Follows ucMBAddress xFuncHandlers srv cur out s) (i : Line)
    (hi : Disciplined s i) :
    ∃ o t, (rtuSlave ucMBAddress xFuncHandlers).step s i = (o, .inl t) ∧
      Follows ucMBAddress xFuncHandlers
        (srv.serveAll ucMBAddress xFuncHandlers (heardFrame cur i)) (hear cur i) (out ++ o) t := by
  cases i with
  | rx b =>
    have hlisten : s.Listens := hi
    rw [heardFrame_rx]
    cases h with
    | listening h =>
      refine ⟨[], _, rfl, ?_⟩
      rw [if_pos h.rx, List.append_nil]
      exact .listening h.rx_step
    | pending before frame h => exact absurd hlisten h.not_listens
    | replying h =>
      have hpoll := hlisten.1
      rw [h.poll] at hpoll
      exact absurd hpoll (by decide)
    | sending h => exact absurd (h.snd.symm.trans hlisten.2.1) (by decide)
  | t35 =>
    cases h with
    | listening h => exact ⟨[], _, rfl, by rw [List.append_nil]; exact h.t35_step hi⟩
    | pending before frame h =>
      refine ⟨[], _, rfl, ?_⟩
      rw [h.busy.timer, List.append_nil]
      exact .pending before frame h
    | replying h =>
      refine ⟨[], _, rfl, ?_⟩
      rw [h.busy.timer, List.append_nil]
      exact .replying h
    | sending h =>
      refine ⟨[], _, rfl, ?_⟩
      rw [h.timer, List.append_nil]
      exact .sending h
  | txe =>
    rw [heardFrame_txe, hear_txe]
    cases h with
    | listening h => exact ⟨[], s, step_txe_idle h.tx, by rw [List.append_nil]; exact .listening h⟩
    | pending before frame h =>
      exact ⟨[], s, step_txe_idle h.busy.tx, by rw [List.append_nil]; exact .pending before frame h⟩
    | replying h =>
      exact ⟨[], s, step_txe_idle h.busy.tx, by rw [List.append_nil]; exact .replying h⟩
    | sending h =>
      obtain ⟨o, t, hstep, hnext⟩ := @Sending.txe_step σ ucMBAddress xFuncHandlers _ _ _ h
      rcases hnext with ⟨hlisten, -⟩ | ⟨hsend, -⟩
      · exact ⟨o, t, hstep, .listening hlisten⟩
      · exact ⟨o, t, hstep, .sending hsend⟩
  | poll =>
    rw [heardFrame_poll, hear_poll]
    cases h with
    | listening h =>
      obtain ⟨t, hstep, hnext⟩ := @Listening.poll_step σ ucMBAddress xFuncHandlers _ _ _ _ h
      exact ⟨[], t, hstep, by rw [List.append_nil]; exact .listening hnext⟩
    | pending before frame h =>
      obtain ⟨t, hstep, hnext⟩ := h.poll_step
      exact ⟨[], t, hstep, by rw [List.append_nil]; exact hnext⟩
    | replying h =>
      obtain ⟨b, t, hstep, hnext⟩ := @Replying.send_step σ ucMBAddress xFuncHandlers _ _ _ h
      exact ⟨[b], t, hstep, .sending hnext⟩
    | sending h =>
      refine ⟨[], s, ?_, by rw [List.append_nil]; exact .sending h⟩
      show eMBPoll ucMBAddress xFuncHandlers s = _
      rw [eMBPoll, h.poll, h.event]

end steps

end McuUtilities.Modbus
