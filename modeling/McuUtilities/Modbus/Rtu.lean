import McuUtilities.Lib.Machine
import McuUtilities.Modbus.Api
import McuUtilities.Modbus.Crc16

/-!
# A slave on a serial line (`mbrtu.c`, `mb.c`, `portevent.c`)

A slave takes four kinds of inputs: a byte on the line, the expiry of the t3.5 timer, the end of the
transmission of a byte, and a step of the main loop in `eMBPoll`. A call of `eMBPoll` is cut at the
calls it makes, and `xMBPortEventGet` once more: it copies `event` and then clears `eventReceived`, and
no critical section keeps an interrupt from posting an event in between, which is lost. So interrupts
may come before and after each of copying the event, clearing the flag, checking the frame, posting the
next event, serving the request and starting the reply. Each of these is one step, a function handler
too. Two more pairs of accesses could be told apart, but the order does not matter there: the test of
`eventReceived` and the copy, since an event posted between them is copied as one posted before them
is, and the two stores of `xMBPortEventPost(EV_EXECUTE)`, since an event posted between them is
overwritten as one posted before them is. The machine stops where the code would access `ucRTUBuf` out
of bounds, past its `MB_SER_PDU_SIZE_MAX` = 256 bytes. The port defines `assert` away.
-/

namespace McuUtilities.Modbus

/-- `eMBRcvState`. -/
inductive MbRcvState where
  | init
  | idle
  | rcv
  | error
deriving DecidableEq, Repr

/-- `eMBSndState`. -/
inductive MbSndState where
  | idle
  | xmit
deriving DecidableEq, Repr

/-- `eMBEventType`. -/
inductive MbEventType where
  | ready
  | frameReceived
  | execute
  | frameSent
deriving DecidableEq, Repr

/-- The value of an `eMBException`. -/
def MbException.code : MbException → UInt8
  | .none => 0x00
  | .illegalFunction => 0x01
  | .illegalDataAddress => 0x02
  | .illegalDataValue => 0x03
  | .slaveDeviceFailure => 0x04
  | .acknowledge => 0x05
  | .slaveBusy => 0x06
  | .memoryParityError => 0x08
  | .gatewayPathFailed => 0x0A
  | .gatewayTgtFailed => 0x0B

/-! ## Function handlers -/

/-- What a handler returns, and what it leaves in the frame, in `*pusLength` and in the
application. -/
structure Handled (σ : Type) where
  exception : MbException
  frame : List UInt8
  usLen : Nat
  app : σ

/-- A `pxMBFunctionHandler`. It is given the 255 bytes of `ucRTUBuf` behind the address and the length
of the PDU in it; it stays inside of them, and a PDU that fits the line is answered by one that
does. -/
structure FuncHandler (σ : Type) where
  run : List UInt8 → Nat → σ → Handled σ
  length_frame : ∀ f len s, f.length = 255 → (run f len s).frame.length = 255
  usLen_le : ∀ f len s, len ≤ 253 → (run f len s).usLen ≤ 253
  usLen_pos : ∀ f len s, 1 ≤ len → 1 ≤ (run f len s).usLen

/-- An `xMBFunctionHandler`; no handler is a NULL pointer. -/
structure FuncEntry (σ : Type) where
  ucFunctionCode : UInt8
  pxHandler : Option (FuncHandler σ)

variable {σ : Type}

/-- The search loop of `EV_EXECUTE`: it ends at the first entry without a function code. -/
def findHandler (ucFunctionCode : UInt8) : List (FuncEntry σ) → Option (FuncHandler σ)
  | [] => none
  | e :: es =>
    if e.ucFunctionCode = 0 then none
    else if e.ucFunctionCode = ucFunctionCode then e.pxHandler
    else findHandler ucFunctionCode es

/-- The call of the handler for the frame, if there is one. -/
def callHandler (xFuncHandlers : List (FuncEntry σ)) (f : List UInt8) (len : Nat) (s : σ) : Handled σ :=
  match findHandler (f.getD 0 0) xFuncHandlers with
  | none => ⟨.illegalFunction, f, len, s⟩
  | some h => h.run f len s

/-- The error frame over what a handler left, if it returned an exception. -/
def Handled.answer (r : Handled σ) (ucFunctionCode : UInt8) : Handled σ :=
  if r.exception = .none then r
  else { r with
    frame := (r.frame.set 0 (ucFunctionCode ||| 0x80)).set 1 r.exception.code
    usLen := 2 }

/-- `MB_ADDRESS_BROADCAST` -/
abbrev mbAddressBroadcast : UInt8 := 0

/-- `EV_EXECUTE` up to the reply: an error frame is built unless the request was broadcast. -/
def execute (xFuncHandlers : List (FuncEntry σ)) (ucRcvAddress : UInt8) (f : List UInt8) (len : Nat)
    (s : σ) : Handled σ :=
  let r := callHandler xFuncHandlers f len s
  if ucRcvAddress = mbAddressBroadcast then r else r.answer (f.getD 0 0)

/-! ## The slave -/

/-- Where the main loop is in `eMBPoll`. -/
inductive PollPoint where
  /-- before `xMBPortEventGet` -/
  | entry
  /-- in `xMBPortEventGet`, with `eEvent` copied and `eventReceived` not yet cleared -/
  | got (eEvent : MbEventType)
  /-- before `peMBFrameReceiveCur` -/
  | receive
  /-- before `xMBPortEventPost(EV_EXECUTE)` -/
  | post
  /-- before the search for a handler -/
  | execute
  /-- before `peMBFrameSendCur` -/
  | send
deriving DecidableEq, Repr

/-- The static variables of the stack, the interrupts that the port has enabled, and the state of the
application. -/
structure Slave (σ : Type) where
  eRcvState : MbRcvState
  eSndState : MbSndState
  ucRTUBuf : Nat → UInt8
  usRcvBufferPos : Nat
  pucSndBufferCur : Nat
  usSndBufferCount : Nat
  /-- `event`, if `eventReceived` -/
  event : Option MbEventType
  rxEnabled : Bool
  timerEnabled : Bool
  /-- a byte is on the line -/
  txBusy : Bool
  pollPoint : PollPoint
  ucRcvAddress : UInt8
  usLength : Nat
  app : σ

/-- An access of `ucRTUBuf` out of bounds. -/
inductive Stop where
  | outOfBounds
deriving DecidableEq, Repr

/-- `usMBCRC16(ucRTUBuf, n)` -/
def crcOf (buf : Nat → UInt8) (n : Nat) : UInt16 :=
  (usMBCRC16 (slice buf 0 n) (UInt16.ofNat n)).value.getD 0

/-- `xMBRTUReceiveFSM`, with the byte in the receive register. -/
def xMBRTUReceiveFSM (ucByte : UInt8) (s : Slave σ) : Slave σ :=
  match s.eRcvState with
  | .init | .error => { s with timerEnabled := true }
  | .idle =>
    { s with
      usRcvBufferPos := 1
      ucRTUBuf := store s.ucRTUBuf 0 [ucByte]
      eRcvState := .rcv
      timerEnabled := true }
  | .rcv =>
    if s.usRcvBufferPos < 256 then
      { s with
        ucRTUBuf := store s.ucRTUBuf s.usRcvBufferPos [ucByte]
        usRcvBufferPos := s.usRcvBufferPos + 1
        timerEnabled := true }
    else { s with eRcvState := .error, timerEnabled := true }

/-- `xMBRTUTimerT35Expired` -/
def xMBRTUTimerT35Expired (s : Slave σ) : Slave σ :=
  let s := match s.eRcvState with
    | .init => { s with event := some .ready }
    | .rcv => { s with event := some .frameReceived }
    | .error | .idle => s
  { s with timerEnabled := false, eRcvState := .idle }

/-- `xMBRTUTransmitFSM` -/
def xMBRTUTransmitFSM (s : Slave σ) : List UInt8 × (Slave σ ⊕ Stop) :=
  match s.eSndState with
  | .idle => ([], .inl { s with rxEnabled := true })
  | .xmit =>
    if s.usSndBufferCount ≠ 0 then
      if s.pucSndBufferCur < 256 then
        ([s.ucRTUBuf s.pucSndBufferCur], .inl { s with
          pucSndBufferCur := s.pucSndBufferCur + 1
          usSndBufferCount := s.usSndBufferCount - 1
          txBusy := true })
      else ([], .inr .outOfBounds)
    else
      ([], .inl { s with event := some .frameSent, rxEnabled := true, eSndState := .idle })

/-- `eMBRTUSend(ucSlaveAddress, &ucRTUBuf[1], usLength)`; enabling the transmitter takes the first
step of `xMBRTUTransmitFSM`. -/
def eMBRTUSend (ucSlaveAddress : UInt8) (s : Slave σ) : List UInt8 × (Slave σ ⊕ Stop) :=
  if s.eRcvState = .idle then
    let buf := store s.ucRTUBuf 0 [ucSlaveAddress]
    let n := 1 + s.usLength
    if n + 2 ≤ 256 then
      xMBRTUTransmitFSM { s with
        ucRTUBuf := store buf n (lowFirst (crcOf buf n))
        pucSndBufferCur := 0
        usSndBufferCount := n + 2
        eSndState := .xmit
        rxEnabled := false }
    else ([], .inr .outOfBounds)
  else ([], .inl s)

/-- The checks of `eMBRTUReceive` and of `EV_FRAME_RECEIVED`: where `eMBPoll` goes on. -/
def eMBRTUReceive (ucMBAddress : UInt8) (s : Slave σ) : Slave σ :=
  if 4 ≤ s.usRcvBufferPos ∧ crcOf s.ucRTUBuf s.usRcvBufferPos = 0 then
    { s with
      ucRcvAddress := s.ucRTUBuf 0
      usLength := s.usRcvBufferPos - 3
      pollPoint :=
        if s.ucRTUBuf 0 = ucMBAddress ∨ s.ucRTUBuf 0 = mbAddressBroadcast then .post else .entry }
  else { s with pollPoint := .entry }

section
variable (ucMBAddress : UInt8) (xFuncHandlers : List (FuncEntry σ))

/-- The next step of the main loop in `eMBPoll`. -/
def eMBPoll (s : Slave σ) : List UInt8 × (Slave σ ⊕ Stop) :=
  match s.pollPoint with
  | .entry =>
    match s.event with
    | none => ([], .inl s)
    | some eEvent => ([], .inl { s with pollPoint := .got eEvent })
  | .got eEvent =>
    ([], .inl { s with
      event := none
      pollPoint := match eEvent with
        | .frameReceived => .receive
        | .execute => .execute
        | .ready | .frameSent => .entry })
  | .receive => ([], .inl (eMBRTUReceive ucMBAddress s))
  | .post => ([], .inl { s with event := some .execute, pollPoint := .entry })
  | .execute =>
    let r := execute xFuncHandlers s.ucRcvAddress (slice s.ucRTUBuf 1 255) s.usLength s.app
    ([], .inl { s with
      ucRTUBuf := store s.ucRTUBuf 1 r.frame
      usLength := r.usLen
      app := r.app
      pollPoint := if s.ucRcvAddress = mbAddressBroadcast then .entry else .send })
  | .send => eMBRTUSend ucMBAddress { s with pollPoint := .entry }

/-- What happens to a slave. -/
inductive Line where
  | rx (b : UInt8)
  | t35
  | txe
  | poll
deriving DecidableEq, Repr

/-- An interrupt that is not enabled, or that nothing causes, does not happen. -/
def rtuStep (s : Slave σ) : Line → List UInt8 × (Slave σ ⊕ Stop)
  | .rx b => ([], .inl (if s.rxEnabled then xMBRTUReceiveFSM b s else s))
  | .t35 => ([], .inl (if s.timerEnabled then xMBRTUTimerT35Expired s else s))
  | .txe => if s.txBusy then xMBRTUTransmitFSM { s with txBusy := false } else ([], .inl s)
  | .poll => eMBPoll ucMBAddress xFuncHandlers s

/-- The slave as a machine. -/
def rtuSlave : Machine (Slave σ) Line UInt8 Stop := ⟨rtuStep ucMBAddress xFuncHandlers⟩

end

/-- A slave behind `eMBEnable`: `eMBRTUStart` has run, and nothing has happened yet. -/
def started (buf : Nat → UInt8) (app : σ) : Slave σ where
  eRcvState := .init
  eSndState := .idle
  ucRTUBuf := buf
  usRcvBufferPos := 0
  pucSndBufferCur := 0
  usSndBufferCount := 0
  event := none
  rxEnabled := true
  timerEnabled := true
  txBusy := false
  pollPoint := .entry
  ucRcvAddress := 0
  usLength := 0
  app := app

end McuUtilities.Modbus
