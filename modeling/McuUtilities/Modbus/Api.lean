import McuUtilities.Lib.Interrupt
import McuUtilities.Lib.Store

/-!
# Holding registers (`modbus_api.c`)

A register table maps ranges of addresses to getters and setters over a state `σ` of the
application. `eMbregGet` and `eMbregSet` walk through a request entry by entry: each round finds
the first entry of the table that maps the next address and serves the part of the request that
lies in it. The buffer on the wire is big-endian, the registers are kept little-endian.
-/

namespace McuUtilities.Modbus
open Prog

/-- `eMBErrorCode`. -/
inductive MbErrorCode where
  | enoerr
  | enoreg
  | einval
  | eporterr
  | enores
  | eio
  | eillstate
  | etimedout
deriving DecidableEq, Repr

/-- `eMBRegisterMode`. -/
inductive MbRegisterMode where
  | read
  | write
deriving DecidableEq, Repr

/-- What a `UCHAR *` points to: the bytes of the object, and what lies past it. -/
structure Pointer where
  object : List UInt8
  past : Nat → UInt8

/-- The `n` bytes from `p + off` on. -/
def Pointer.read (p : Pointer) (off n : Nat) : List UInt8 :=
  slice (fun i => p.object.getD i (p.past (i - p.object.length))) off n

/-- `MODBUS_REG`. A missing callback is a NULL function pointer; a getter may return NULL; a
setter is given what `set_val` points to and reads it only. -/
structure ModbusReg (σ : Type) where
  regStart : UInt16
  u16len : UInt16
  get : Option (σ → Option Pointer × σ)
  set : Option (List UInt8 → Nat → Nat → σ → Int × σ)

variable {σ : Type}

namespace ModbusReg
variable (reg : ModbusReg σ)

/-- The entry maps the register `addr`. -/
def Maps (addr : Nat) : Prop :=
  reg.regStart.toNat ≤ addr ∧ addr < reg.regStart.toNat + reg.u16len.toNat

instance (addr : Nat) : Decidable (reg.Maps addr) := inferInstanceAs (Decidable (_ ∧ _))

/-- `add_offset`: where in the entry the register `addr` lies. -/
def addOffset (addr : Nat) : Nat :=
  if reg.regStart.toNat < addr then addr - reg.regStart.toNat else 0

/-- `len`: how many of the `left` registers of a request lie in the entry from `addOffset` on. -/
def len (addOffset left : Nat) : Nat :=
  if reg.u16len.toNat - addOffset < left then reg.u16len.toNat - addOffset else left

end ModbusReg

/-- The search loop over `reg_list`: the first entry that maps `addr`. -/
def regAt (regList : List (ModbusReg σ)) (addr : Nat) : Option (ModbusReg σ) :=
  regList.find? fun reg => reg.Maps addr

/-- The byte-order loops: the bytes of the first `regNum` registers swapped. -/
def swapBytes : Nat → List UInt8 → List UInt8
  | regNum + 1, a :: b :: data => b :: a :: swapBytes regNum data
  | _, data => data

/-- `memcpy(buf + off, val, …)` with the bytes `val`. -/
def overwrite (buf : List UInt8) (off : Nat) (val : List UInt8) : List UInt8 :=
  buf.take off ++ val ++ buf.drop (off + val.length)

section loops
variable (usAddress usNRegs : Nat) (regList : List (ModbusReg σ))

/-- One round of the loop of `eMbregGet`: `offset` and the buffer. -/
def getStep (s : Nat × List UInt8) :
    Prog σ MbErrorCode (Nat × List UInt8 ⊕ List UInt8) :=
  if s.1 < usNRegs then
    match regAt regList (usAddress + s.1) with
    | none => throw .enoreg
    | some reg =>
      match reg.get with
      | none => throw .enoreg
      | some getter => do
        let val ← call getter
        let addOffset := reg.addOffset (usAddress + s.1)
        let len := reg.len addOffset (usNRegs - s.1)
        match val with
        | none => throw .enoreg
        | some val =>
          pure (.inl (s.1 + len, overwrite s.2 (s.1 * 2) (val.read (addOffset * 2) (len * 2))))
  else pure (.inr s.2)

/-- `eMbregGet(usAddress, usNRegs, pucRegBuffer, reg_list, count)`: the buffer it fills. -/
def eMbregGet (pucRegBuffer : List UInt8) : Prog σ MbErrorCode (List UInt8) := do
  let buf ← iterate (usNRegs + 1) (getStep usAddress usNRegs regList) (0, pucRegBuffer)
  pure (swapBytes usNRegs buf)

/-- One round of the loop of `eMbregSet`: `offset`. Every setter is given the start of the
buffer. -/
def setStep (pucRegBuffer : List UInt8) (offset : Nat) : Prog σ MbErrorCode (Nat ⊕ Unit) :=
  if offset < usNRegs then
    match regAt regList (usAddress + offset) with
    | none => throw .enoreg
    | some reg =>
      let addOffset := reg.addOffset (usAddress + offset)
      let len := reg.len addOffset (usNRegs - offset)
      match reg.set with
      | none => throw .enoreg
      | some setter => do
        require ((← call (setter pucRegBuffer (addOffset * 2) (len * 2))) == 0) .enoreg
        pure (.inl (offset + len))
  else pure (.inr ())

/-- `eMbregSet(usAddress, usNRegs, pucRegBuffer, reg_list, count)`: the buffer it leaves. A single
register is swapped back, for the reply that echoes it. -/
def eMbregSet (pucRegBuffer : List UInt8) : Prog σ MbErrorCode (List UInt8) := do
  let buf := swapBytes usNRegs pucRegBuffer
  iterate (usNRegs + 1) (setStep usAddress usNRegs regList buf) 0
  pure (if usNRegs = 1 then swapBytes usNRegs buf else buf)

end loops

/-- `eMBRegHoldingCB(pucRegBuffer, usAddress, usNRegs, eMode)` over the table
`modebus_rw_reg_list`. -/
def eMBRegHoldingCB (modebusRwRegList : List (ModbusReg σ)) (pucRegBuffer : List UInt8)
    (usAddress usNRegs : UInt16) (eMode : MbRegisterMode) : Prog σ MbErrorCode (List UInt8) :=
  let usAddress := usAddress - 1
  match eMode with
  | .read => eMbregGet usAddress.toNat usNRegs.toNat modebusRwRegList pucRegBuffer
  | .write => eMbregSet usAddress.toNat usNRegs.toNat modebusRwRegList pucRegBuffer

/-! ## The requests (`mbfuncholding.c`) -/

/-- `eMBException`. -/
inductive MbException where
  | none
  | illegalFunction
  | illegalDataAddress
  | illegalDataValue
  | slaveDeviceFailure
  | acknowledge
  | slaveBusy
  | memoryParityError
  | gatewayPathFailed
  | gatewayTgtFailed
deriving DecidableEq, Repr

/-- `prveMBError2Exception(eErrorCode)`. -/
def prveMBError2Exception : MbErrorCode → MbException
  | .enoerr => .none
  | .enoreg => .illegalDataAddress
  | .etimedout => .slaveBusy
  | _ => .slaveDeviceFailure

/-- `MB_PDU_FUNC_WRITE_MUL_REGCNT_MAX`. -/
abbrev mbPduFuncWriteMulRegcntMax : UInt16 := 0x0078

/-- The big-endian number at `pucFrame[off]`. -/
def frameWord (pucFrame : List UInt8) (off : Nat) : UInt16 :=
  (pucFrame.getD off 0).toUInt16 <<< 8 ||| (pucFrame.getD (off + 1) 0).toUInt16

/-- `eMBFuncWriteMultipleHoldingRegister(pucFrame, usLen)`: the exception and the new `*usLen`. The
reply only takes bytes of the frame in front of the register values. -/
def eMBFuncWriteMultipleHoldingRegister (modebusRwRegList : List (ModbusReg σ))
    (pucFrame : List UInt8) (usLen : UInt16) : Prog σ MbErrorCode (MbException × UInt16) :=
  if 6 ≤ usLen then
    let usRegAddress := frameWord pucFrame 1 + 1
    let usRegCount := frameWord pucFrame 3
    let ucRegByteCount := pucFrame.getD 5 0
    if 1 ≤ usRegCount ∧ usRegCount ≤ mbPduFuncWriteMulRegcntMax ∧
        ucRegByteCount = (2 * usRegCount).toUInt8 then do
      match ← (attempt (eMBRegHoldingCB modebusRwRegList (pucFrame.drop 6) usRegAddress usRegCount
          .write) : Prog σ MbErrorCode _) with
      | .ok _ => pure (.none, 5)
      | .error e => pure (prveMBError2Exception e, usLen)
    else pure (.illegalDataValue, usLen)
  else pure (.illegalDataValue, usLen)

end McuUtilities.Modbus
