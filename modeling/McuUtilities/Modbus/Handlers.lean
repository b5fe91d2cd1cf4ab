import McuUtilities.Modbus.InPlace
import McuUtilities.Modbus.Rtu

/-!
# The function handlers of the slave (`mbfunc*.c`, `mb.c`)

A handler works on the 255 bytes of the receive buffer behind the address: it takes its arguments from
them, has a callback fill or use the part that holds the registers, and puts the head of the reply in
front. The four read requests have one shape, `readRequest`; the others keep their own. Each of them is
`Proper`, so the table `xFuncHandlers` of the stack consists of handlers that a slave can run.
-/

namespace McuUtilities.Modbus

variable {σ : Type}

/-! ## Coils -/

/-- `eMBRegCoilsCB` -/
def eMBRegCoilsCB (pucRegBuffer : List UInt8) (_usAddress _usNCoils : UInt16) (_eMode : MbRegisterMode)
    (s : σ) : Left σ := ⟨.enoreg, pucRegBuffer, s⟩

/-- `eMBRegDiscreteCB` -/
def eMBRegDiscreteCB (pucRegBuffer : List UInt8) (_usAddress _usNDiscrete : UInt16) (s : σ) : Left σ :=
  ⟨.enoreg, pucRegBuffer, s⟩

/-- The bytes that hold so many bits. -/
def coilBytes (usCoilCount : UInt16) : UInt8 :=
  if usCoilCount &&& 0x0007 ≠ 0 then (usCoilCount / 8 + 1).toUInt8 else (usCoilCount / 8).toUInt8

/-! ## Read requests -/

/-- The shape of a read request: the number of items to read, whether it is valid, and the bytes that
hold the items. The head of the reply is in the frame before the callback fills the rest. -/
def readRequest (ucFunctionCode : UInt8) (usCount : List UInt8 → UInt16) (valid : UInt16 → Bool)
    (nBytes : UInt16 → Nat) (callback : List UInt8 → UInt16 → UInt16 → σ → Left σ)
    (pucFrame : List UInt8) (usLen : Nat) (s : σ) : Handled σ :=
  if usLen = 5 then
    let n := usCount pucFrame
    if valid n then
      let frame := (pucFrame.set 0 ucFunctionCode).set 1 (UInt8.ofNat (nBytes n))
      let r := callback (frame.drop 2) (frameWord pucFrame 1 + 1) n s
      ⟨prveMBError2Exception r.eStatus, frame.take 2 ++ r.buf,
        if r.eStatus = .enoerr then 2 + nBytes n else 2, r.app⟩
    else ⟨.illegalDataValue, pucFrame, usLen, s⟩
  else ⟨.illegalDataValue, pucFrame, usLen, s⟩

/-- `eMBFuncReadHoldingRegister`. The low byte of the number of registers overwrites the high byte. -/
def eMBFuncReadHoldingRegister (modebusRwRegList : List (ModbusReg σ)) :
    List UInt8 → Nat → σ → Handled σ :=
  readRequest 3 (fun pucFrame => (pucFrame.getD 4 0).toUInt16) (fun n => 1 ≤ n ∧ n ≤ 0x007D)
    (fun n => n.toNat * 2)
    fun buf usAddress usNRegs => InPlace.eMBRegHoldingCB modebusRwRegList buf usAddress usNRegs .read

/-- `eMBFuncReadInputRegister` -/
def eMBFuncReadInputRegister (modebusReadRegList : List (ModbusReg σ)) :
    List UInt8 → Nat → σ → Handled σ :=
  readRequest 4 (frameWord · 3) (fun n => 1 ≤ n ∧ n < 0x007D) (fun n => n.toNat * 2)
    (InPlace.eMBRegInputCB modebusReadRegList)

/-- `eMBFuncReadCoils` -/
def eMBFuncReadCoils : List UInt8 → Nat → σ → Handled σ :=
  readRequest 1 (frameWord · 3) (fun n => 1 ≤ n ∧ n < 0x07D0) (fun n => (coilBytes n).toNat)
    fun buf usAddress usNCoils => eMBRegCoilsCB buf usAddress usNCoils .read

/-- `eMBFuncReadDiscreteInputs` -/
def eMBFuncReadDiscreteInputs : List UInt8 → Nat → σ → Handled σ :=
  readRequest 2 (frameWord · 3) (fun n => 1 ≤ n ∧ n < 0x07D0) (fun n => (coilBytes n).toNat)
    eMBRegDiscreteCB

/-! ## Write requests -/

/-- `eMBFuncWriteHoldingRegister` -/
def eMBFuncWriteHoldingRegister (modebusRwRegList : List (ModbusReg σ)) (pucFrame : List UInt8)
    (usLen : Nat) (s : σ) : Handled σ :=
  if usLen = 5 then
    let r := InPlace.eMBRegHoldingCB modebusRwRegList (pucFrame.drop 3) (frameWord pucFrame 1 + 1) 1
      .write s
    ⟨prveMBError2Exception r.eStatus, pucFrame.take 3 ++ r.buf, usLen, r.app⟩
  else ⟨.illegalDataValue, pucFrame, usLen, s⟩

/-- `eMBFuncWriteMultipleHoldingRegister` -/
def InPlace.eMBFuncWriteMultipleHoldingRegister (modebusRwRegList : List (ModbusReg σ))
    (pucFrame : List UInt8) (usLen : Nat) (s : σ) : Handled σ :=
  if 6 ≤ usLen then
    let usRegCount := frameWord pucFrame 3
    let ucRegByteCount := pucFrame.getD 5 0
    if 1 ≤ usRegCount ∧ usRegCount ≤ mbPduFuncWriteMulRegcntMax ∧
        ucRegByteCount = (2 * usRegCount).toUInt8 then
      let r := InPlace.eMBRegHoldingCB modebusRwRegList (pucFrame.drop 6) (frameWord pucFrame 1 + 1)
        usRegCount .write s
      ⟨prveMBError2Exception r.eStatus, pucFrame.take 6 ++ r.buf,
        if r.eStatus = .enoerr then 5 else usLen, r.app⟩
    else ⟨.illegalDataValue, pucFrame, usLen, s⟩
  else ⟨.illegalDataValue, pucFrame, usLen, s⟩

/-- It returns what `eMBFuncWriteMultipleHoldingRegister` returns. -/
theorem InPlace.eMBFuncWriteMultipleHoldingRegister_eq {modebusRwRegList : List (ModbusReg σ)}
    {pucFrame : List UInt8} {usLen : UInt16} {s : σ} :
    Modbus.eMBFuncWriteMultipleHoldingRegister modebusRwRegList pucFrame usLen s =
      let r := InPlace.eMBFuncWriteMultipleHoldingRegister modebusRwRegList pucFrame usLen.toNat s
      .done (r.exception, UInt16.ofNat r.usLen) r.app := by
  have hlen : UInt16.ofNat usLen.toNat = usLen := UInt16.ofNat_toNat
  have hmin : 6 ≤ usLen ↔ 6 ≤ usLen.toNat := UInt16.le_iff_toNat_le
  rw [InPlace.eMBFuncWriteMultipleHoldingRegister]
  unfold Modbus.eMBFuncWriteMultipleHoldingRegister
  by_cases h : 6 ≤ usLen.toNat
  · rw [if_pos (hmin.mpr h), if_pos h]
    dsimp only
    by_cases hvalid : 1 ≤ frameWord pucFrame 3 ∧ frameWord pucFrame 3 ≤ mbPduFuncWriteMulRegcntMax ∧
        pucFrame.getD 5 0 = (2 * frameWord pucFrame 3).toUInt8
    · rw [if_pos hvalid, if_pos hvalid, Prog.bind_apply, Prog.attempt, InPlace.eMBRegHoldingCB_eq]
      generalize InPlace.eMBRegHoldingCB modebusRwRegList (pucFrame.drop 6) (frameWord pucFrame 1 + 1)
        (frameWord pucFrame 3) .write s = r
      obtain ⟨e, out, t⟩ := r
      by_cases he : e = .enoerr
      · subst he
        rfl
      · simp only [Left.outcome, if_neg he, hlen]
        rfl
    · rw [if_neg hvalid, if_neg hvalid]
      dsimp only
      rw [hlen]
      rfl
  · rw [if_neg fun h' => h (hmin.mp h'), if_neg h]
    dsimp only
    rw [hlen]
    rfl

/-- `eMBFuncReadWriteMultipleHoldingRegister`. A request that is too short is no error: it is its own
reply. -/
def eMBFuncReadWriteMultipleHoldingRegister (modebusRwRegList : List (ModbusReg σ))
    (pucFrame : List UInt8) (usLen : Nat) (s : σ) : Handled σ :=
  if 10 ≤ usLen then
    let usRegReadCount := frameWord pucFrame 3
    let usRegWriteCount := frameWord pucFrame 7
    let ucRegWriteByteCount := pucFrame.getD 9 0
    if 1 ≤ usRegReadCount ∧ usRegReadCount ≤ 0x7D ∧ 1 ≤ usRegWriteCount ∧ usRegWriteCount ≤ 0x79 ∧
        2 * usRegWriteCount.toNat = ucRegWriteByteCount.toNat then
      let w := InPlace.eMBRegHoldingCB modebusRwRegList (pucFrame.drop 10) (frameWord pucFrame 5 + 1)
        usRegWriteCount .write s
      let frame := pucFrame.take 10 ++ w.buf
      if w.eStatus = .enoerr then
        let frame := (frame.set 0 23).set 1 (UInt8.ofNat (usRegReadCount.toNat * 2))
        let r := InPlace.eMBRegHoldingCB modebusRwRegList (frame.drop 2) (frameWord pucFrame 1 + 1)
          usRegReadCount .read w.app
        ⟨prveMBError2Exception r.eStatus, frame.take 2 ++ r.buf,
          if r.eStatus = .enoerr then 2 + 2 * usRegReadCount.toNat else 2, r.app⟩
      else ⟨prveMBError2Exception w.eStatus, frame, usLen, w.app⟩
    else ⟨.illegalDataValue, pucFrame, usLen, s⟩
  else ⟨.none, pucFrame, usLen, s⟩

/-- `eMBFuncWriteCoil` -/
def eMBFuncWriteCoil (pucFrame : List UInt8) (usLen : Nat) (s : σ) : Handled σ :=
  if usLen = 5 then
    if pucFrame.getD 4 0 = 0x00 ∧ (pucFrame.getD 3 0 = 0xFF ∨ pucFrame.getD 3 0 = 0x00) then
      let ucBuf := [if pucFrame.getD 3 0 = 0xFF then 1 else 0, 0]
      let r := eMBRegCoilsCB ucBuf (frameWord pucFrame 1 + 1) 1 .write s
      ⟨prveMBError2Exception r.eStatus, pucFrame, usLen, r.app⟩
    else ⟨.illegalDataValue, pucFrame, usLen, s⟩
  else ⟨.illegalDataValue, pucFrame, usLen, s⟩

/-- `eMBFuncWriteMultipleCoils` -/
def eMBFuncWriteMultipleCoils (pucFrame : List UInt8) (usLen : Nat) (s : σ) : Handled σ :=
  if 5 < usLen then
    let usCoilCnt := frameWord pucFrame 3
    if 1 ≤ usCoilCnt ∧ usCoilCnt ≤ 0x07B0 ∧ coilBytes usCoilCnt = pucFrame.getD 5 0 then
      let r := eMBRegCoilsCB (pucFrame.drop 6) (frameWord pucFrame 1 + 1) usCoilCnt .write s
      ⟨prveMBError2Exception r.eStatus, pucFrame.take 6 ++ r.buf,
        if r.eStatus = .enoerr then 5 else usLen, r.app⟩
    else ⟨.illegalDataValue, pucFrame, usLen, s⟩
  else ⟨.illegalDataValue, pucFrame, usLen, s⟩

/-! ## The identity of the slave (`mbfuncother.c`) -/

/-- `ucMBSlaveID` up to `usMBSlaveIDLen`; the buffer has `MB_FUNC_OTHER_REP_SLAVEID_BUF` = 32 bytes. -/
structure SlaveId where
  bytes : List UInt8
  fits : bytes.length < 32

theorem fits_noId : ([] : List UInt8).length < 32 := by decide

theorem length_slaveId {ucSlaveID : UInt8} {xIsRunning : Bool} {pucAdditional : List UInt8}
    (h : pucAdditional.length + 2 < 32) :
    (ucSlaveID :: (if xIsRunning then 0xFF else 0x00) :: pucAdditional).length < 32 := h

/-- `eMBSetSlaveID` -/
def eMBSetSlaveID (ucSlaveID : UInt8) (xIsRunning : Bool) (pucAdditional : List UInt8) :
    Except MbErrorCode SlaveId :=
  if h : pucAdditional.length + 2 < 32 then
    .ok ⟨ucSlaveID :: (if xIsRunning then 0xFF else 0x00) :: pucAdditional, length_slaveId h⟩
  else .error .enores

/-- `eMBFuncReportSlaveID` -/
def eMBFuncReportSlaveID (id : SlaveId) (pucFrame : List UInt8) (_usLen : Nat) (s : σ) : Handled σ :=
  ⟨.none, overwrite pucFrame 1 id.bytes, 1 + id.bytes.length, s⟩

/-! ## Proper handlers -/

/-- A handler for `ucFunctionCode` keeps the length of the frame and its function code, and leaves a
PDU that fits the line. -/
structure Proper (ucFunctionCode : UInt8) (run : List UInt8 → Nat → σ → Handled σ) : Prop where
  length_frame : ∀ f len s, f.length = 255 → (run f len s).frame.length = 255
  usLen_le : ∀ f len s, len ≤ 253 → (run f len s).usLen ≤ 253
  usLen_pos : ∀ f len s, 1 ≤ len → 1 ≤ (run f len s).usLen
  code : ∀ f len s, f.length = 255 → f.getD 0 0 = ucFunctionCode →
    (run f len s).frame.getD 0 0 = ucFunctionCode

theorem getD_zero_take_append {f buf : List UInt8} {k : Nat} (hk : 0 < k) (hf : 0 < f.length) :
    (f.take k ++ buf).getD 0 0 = f.getD 0 0 := by
  obtain ⟨a, f, rfl⟩ := List.exists_cons_of_length_pos hf
  obtain ⟨k, rfl⟩ := Nat.exists_eq_succ_of_ne_zero (Nat.ne_of_gt hk)
  rfl

theorem getD_zero_set_set {f : List UInt8} {a b : UInt8} (hf : 0 < f.length) :
    ((f.set 0 a).set 1 b).getD 0 0 = a := by
  obtain ⟨c, f, rfl⟩ := List.exists_cons_of_length_pos hf
  rfl

theorem proper_readRequest {ucFunctionCode : UInt8} {usCount : List UInt8 → UInt16}
    {valid : UInt16 → Bool} {nBytes : UInt16 → Nat}
    {callback : List UInt8 → UInt16 → UInt16 → σ → Left σ} (hn : ∀ n, valid n → nBytes n ≤ 251)
    (hlength : ∀ buf a n s, valid n → buf.length = 253 → (callback buf a n s).buf.length = buf.length) :
    Proper ucFunctionCode (readRequest ucFunctionCode usCount valid nBytes callback) where
  length_frame f len s hf := by
    unfold readRequest
    split
    · dsimp only
      split
      · next hvalid =>
        rw [List.length_append, hlength _ _ _ _ hvalid (by simp [hf])]
        simp [hf]
      · exact hf
    · exact hf
  usLen_le f len s hlen := by
    unfold readRequest
    split
    · dsimp only
      split
      · next hvalid =>
        have := hn _ hvalid
        dsimp only
        split <;> omega
      · exact hlen
    · exact hlen
  usLen_pos f len s hlen := by
    unfold readRequest
    split
    · dsimp only
      split
      · dsimp only
        split <;> omega
      · exact hlen
    · exact hlen
  code f len s hf hcode := by
    unfold readRequest
    split
    · dsimp only
      split
      · rw [getD_zero_take_append (by decide) (by simp [hf]), getD_zero_set_set (by omega)]
      · exact hcode
    · exact hcode

theorem registers_le {n : UInt16} (h : n ≤ 0x007D) : n.toNat ≤ 125 := UInt16.le_iff_toNat_le.mp h

section table
variable (modebusReadRegList modebusRwRegList : List (ModbusReg σ)) (id : SlaveId)

theorem proper_eMBFuncReadHoldingRegister : Proper 3 (eMBFuncReadHoldingRegister modebusRwRegList) := by
  refine proper_readRequest (fun n hn => ?_) fun buf a n s hn hbuf => ?_
  · have := registers_le (of_decide_eq_true hn).2
    omega
  · have := registers_le (of_decide_eq_true hn).2
    exact InPlace.length_eMBRegHoldingCB (by omega)

theorem proper_eMBFuncReadInputRegister : Proper 4 (eMBFuncReadInputRegister modebusReadRegList) := by
  refine proper_readRequest (fun n hn => ?_) fun buf a n s hn hbuf => ?_
  · have := registers_le (UInt16.le_of_lt (of_decide_eq_true hn).2)
    omega
  · have := registers_le (UInt16.le_of_lt (of_decide_eq_true hn).2)
    exact InPlace.length_eMbregGet (by omega)

theorem coilBytes_le {n : UInt16} (h : n < 0x07D0) : (coilBytes n).toNat ≤ 251 := by
  have hn : n.toNat < 2000 := UInt16.lt_iff_toNat_lt.mp h
  unfold coilBytes
  split
  · simp [UInt16.toNat_div]
    omega
  · simp [UInt16.toNat_div]
    omega

theorem proper_eMBFuncReadCoils : Proper 1 (eMBFuncReadCoils (σ := σ)) :=
  proper_readRequest (fun _ hn => coilBytes_le (of_decide_eq_true hn).2) fun _ _ _ _ _ _ => rfl

theorem proper_eMBFuncReadDiscreteInputs : Proper 2 (eMBFuncReadDiscreteInputs (σ := σ)) :=
  proper_readRequest (fun _ hn => coilBytes_le (of_decide_eq_true hn).2) fun _ _ _ _ _ _ => rfl

theorem proper_eMBFuncWriteHoldingRegister :
    Proper 6 (eMBFuncWriteHoldingRegister modebusRwRegList) where
  length_frame f len s hf := by
    unfold eMBFuncWriteHoldingRegister
    split
    · have hone : 2 * (1 : UInt16).toNat ≤ (f.drop 3).length := by
        rw [List.length_drop, hf]
        decide
      rw [List.length_append, InPlace.length_eMBRegHoldingCB hone]
      simp [hf]
    · exact hf
  usLen_le f len s hlen := by
    unfold eMBFuncWriteHoldingRegister
    split <;> exact hlen
  usLen_pos f len s hlen := by
    unfold eMBFuncWriteHoldingRegister
    split <;> exact hlen
  code f len s hf hcode := by
    unfold eMBFuncWriteHoldingRegister
    split
    · rw [getD_zero_take_append (by decide) (by omega)]
      exact hcode
    · exact hcode

theorem proper_eMBFuncWriteMultipleHoldingRegister :
    Proper 16 (InPlace.eMBFuncWriteMultipleHoldingRegister modebusRwRegList) where
  length_frame f len s hf := by
    unfold InPlace.eMBFuncWriteMultipleHoldingRegister
    split
    · dsimp only
      split
      · next hc =>
        have hn : (frameWord f 3).toNat ≤ 120 := UInt16.le_iff_toNat_le.mp hc.2.1
        rw [List.length_append, InPlace.length_eMBRegHoldingCB (by rw [List.length_drop]; omega)]
        simp [hf]
      · exact hf
    · exact hf
  usLen_le f len s hlen := by
    unfold InPlace.eMBFuncWriteMultipleHoldingRegister
    split
    · dsimp only
      split
      · dsimp only
        split <;> omega
      · exact hlen
    · exact hlen
  usLen_pos f len s hlen := by
    unfold InPlace.eMBFuncWriteMultipleHoldingRegister
    split
    · dsimp only
      split
      · dsimp only
        split <;> omega
      · exact hlen
    · exact hlen
  code f len s hf hcode := by
    unfold InPlace.eMBFuncWriteMultipleHoldingRegister
    split
    · dsimp only
      split
      · rw [getD_zero_take_append (by decide) (by omega)]
        exact hcode
      · exact hcode
    · exact hcode

theorem proper_eMBFuncReadWriteMultipleHoldingRegister :
    Proper 23 (eMBFuncReadWriteMultipleHoldingRegister modebusRwRegList) where
  length_frame f len s hf := by
    unfold eMBFuncReadWriteMultipleHoldingRegister
    split
    · dsimp only
      split
      · next hc =>
        have hread := registers_le hc.2.1
        have hwrite : (frameWord f 7).toNat ≤ 121 := UInt16.le_iff_toNat_le.mp hc.2.2.2.1
        have hlength : (f.take 10 ++ (InPlace.eMBRegHoldingCB modebusRwRegList (f.drop 10)
            (frameWord f 5 + 1) (frameWord f 7) .write s).buf).length = 255 := by
          rw [List.length_append, InPlace.length_eMBRegHoldingCB (by rw [List.length_drop]; omega)]
          simp [hf]
        generalize f.take 10 ++ _ = frame at hlength ⊢
        split
        · have hrest : ((frame.set 0 23).set 1 (UInt8.ofNat ((frameWord f 3).toNat * 2))).length = 255 := by
            rw [List.length_set, List.length_set, hlength]
          rw [List.length_append, InPlace.length_eMBRegHoldingCB (by rw [List.length_drop]; omega)]
          simp [hlength]
        · exact hlength
      · exact hf
    · exact hf
  usLen_le f len s hlen := by
    unfold eMBFuncReadWriteMultipleHoldingRegister
    split
    · dsimp only
      split
      · next hc =>
        have hread := registers_le hc.2.1
        split
        · dsimp only
          split <;> omega
        · exact hlen
      · exact hlen
    · exact hlen
  usLen_pos f len s hlen := by
    unfold eMBFuncReadWriteMultipleHoldingRegister
    split
    · dsimp only
      split
      · split
        · dsimp only
          split <;> omega
        · exact hlen
      · exact hlen
    · exact hlen
  code f len s hf hcode := by
    unfold eMBFuncReadWriteMultipleHoldingRegister
    split
    · dsimp only
      split
      · split
        · have hpos : 0 < (f.take 10 ++ (InPlace.eMBRegHoldingCB modebusRwRegList (f.drop 10)
              (frameWord f 5 + 1) (frameWord f 7) .write s).buf).length := by
            rw [List.length_append, List.length_take]
            omega
          rw [getD_zero_take_append (by decide) (by rw [List.length_set, List.length_set]; exact hpos),
            getD_zero_set_set hpos]
        · rw [getD_zero_take_append (by decide) (by omega)]
          exact hcode
      · exact hcode
    · exact hcode

theorem proper_eMBFuncWriteCoil : Proper 5 (eMBFuncWriteCoil (σ := σ)) := by
  have hkeep (f : List UInt8) (len : Nat) (s : σ) :
      (eMBFuncWriteCoil f len s).frame = f ∧ (eMBFuncWriteCoil f len s).usLen = len := by
    unfold eMBFuncWriteCoil
    split
    · split <;> exact ⟨rfl, rfl⟩
    · exact ⟨rfl, rfl⟩
  refine ⟨fun f len s hf => ?_, fun f len s hlen => ?_, fun f len s hlen => ?_, fun f len s hf hcode => ?_⟩
  · rw [(hkeep f len s).1, hf]
  · rw [(hkeep f len s).2]
    exact hlen
  · rw [(hkeep f len s).2]
    exact hlen
  · rw [(hkeep f len s).1, hcode]

theorem proper_eMBFuncWriteMultipleCoils : Proper 15 (eMBFuncWriteMultipleCoils (σ := σ)) := by
  have hkeep (f : List UInt8) (len : Nat) (s : σ) :
      (eMBFuncWriteMultipleCoils f len s).frame = f ∧ (eMBFuncWriteMultipleCoils f len s).usLen = len := by
    unfold eMBFuncWriteMultipleCoils
    split
    · dsimp only
      split
      · exact ⟨List.take_append_drop 6 f, rfl⟩
      · exact ⟨rfl, rfl⟩
    · exact ⟨rfl, rfl⟩
  refine ⟨fun f len s hf => ?_, fun f len s hlen => ?_, fun f len s hlen => ?_, fun f len s hf hcode => ?_⟩
  · rw [(hkeep f len s).1, hf]
  · rw [(hkeep f len s).2]
    exact hlen
  · rw [(hkeep f len s).2]
    exact hlen
  · rw [(hkeep f len s).1, hcode]

theorem proper_eMBFuncReportSlaveID : Proper 17 (eMBFuncReportSlaveID (σ := σ) id) where
  length_frame f len s hf := by
    have := id.fits
    exact (InPlace.length_overwrite (by omega)).trans hf
  usLen_le f len s _ := by
    have := id.fits
    show 1 + id.bytes.length ≤ 253
    omega
  usLen_pos f len s _ := Nat.le_add_right 1 _
  code f len s hf hcode := by
    show (f.take 1 ++ id.bytes ++ f.drop (1 + id.bytes.length)).getD 0 0 = 17
    rw [List.append_assoc, getD_zero_take_append (by decide) (by omega)]
    exact hcode

/-! ## The table -/

/-- An entry of the table. -/
def Proper.entry {ucFunctionCode : UInt8} {run : List UInt8 → Nat → σ → Handled σ}
    (h : Proper ucFunctionCode run) : FuncEntry σ :=
  ⟨ucFunctionCode, some ⟨run, h.length_frame, h.usLen_le, h.usLen_pos⟩⟩

/-- `xFuncHandlers`, with `MB_FUNC_HANDLERS_MAX` = 16 entries. -/
def xFuncHandlers : List (FuncEntry σ) :=
  [(proper_eMBFuncReportSlaveID id).entry,
   (proper_eMBFuncReadInputRegister modebusReadRegList).entry,
   (proper_eMBFuncReadHoldingRegister modebusRwRegList).entry,
   (proper_eMBFuncWriteMultipleHoldingRegister modebusRwRegList).entry,
   (proper_eMBFuncWriteHoldingRegister modebusRwRegList).entry,
   (proper_eMBFuncReadWriteMultipleHoldingRegister modebusRwRegList).entry,
   proper_eMBFuncReadCoils.entry,
   proper_eMBFuncWriteCoil.entry,
   proper_eMBFuncWriteMultipleCoils.entry,
   proper_eMBFuncReadDiscreteInputs.entry] ++ List.replicate 6 ⟨0, none⟩

end table

end McuUtilities.Modbus
