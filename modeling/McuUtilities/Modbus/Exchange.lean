import McuUtilities.Modbus.ReadAfterWrite
import McuUtilities.Modbus.Replies

/-!
# A write and a read on the line

A master writes registers with one frame and reads them back with the next. Between them are the
receiver, the CRC, the table of handlers, the register table and its setters and getters. Over a table
with storage the second reply carries the values of the first frame exactly when the setters took them
from their places (`readsBack_iff`), and a read of other registers is answered as before the write.
-/

namespace McuUtilities.Modbus

variable {σ : Type}

/-! ## Requests -/

/-- A request to write the registers from `a` on. -/
def writeRegisters (a : UInt16) (vs : List UInt16) : List UInt8 :=
  [16, hi a, lo a, hi (UInt16.ofNat vs.length), lo (UInt16.ofNat vs.length), UInt8.ofNat (2 * vs.length)] ++
    wire vs

/-- The reply to it. -/
def written (a : UInt16) (vs : List UInt16) : List UInt8 :=
  [16, hi a, lo a, hi (UInt16.ofNat vs.length), lo (UInt16.ofNat vs.length)]

/-- A request to read `n` registers from `a` on. -/
def readRegisters (a n : UInt16) : List UInt8 := [3, hi a, lo a, hi n, lo n]

/-- The reply that carries `vs`. -/
def registers (vs : List UInt16) : List UInt8 := [3, UInt8.ofNat (vs.length * 2)] ++ wire vs

theorem halves_eq (v : UInt16) : halves v.toBitVec = (hi v, lo v) := by
  have hlt := v.toNat_lt
  refine Prod.ext (UInt8.toNat_inj.mp ?_) (UInt8.toNat_inj.mp ?_)
  · show ((v.toBitVec >>> 8).setWidth 8).toNat = (UInt8.ofNat (v.toNat / 256)).toNat
    rw [BitVec.toNat_setWidth, BitVec.toNat_ushiftRight, Nat.shiftRight_eq_div_pow, UInt8.toNat_ofNat']
    rfl
  · show (v.toBitVec.setWidth 8).toNat = (UInt8.ofNat v.toNat).toNat
    rw [BitVec.toNat_setWidth, UInt8.toNat_ofNat']
    rfl

theorem frameWord_eq {f : List UInt8} {i : Nat} {v : UInt16} (h : f.getD i 0 = hi v)
    (h' : f.getD (i + 1) 0 = lo v) : frameWord f i = v := by
  have hjoin := @join_halves v.toBitVec
  rw [halves_eq] at hjoin
  rw [frameWord, h, h']
  exact hjoin

/-! ## Serving a PDU -/

/-- What serving a frame puts on the line. -/
def Server.reply (ucMBAddress : UInt8) (xFuncHandlers : List (FuncEntry σ)) (srv : Server σ)
    (frame : List UInt8) : List UInt8 :=
  (srv.serve ucMBAddress xFuncHandlers frame).out.drop srv.out.length

section serve
variable {ucMBAddress : UInt8} {es : List (FuncEntry σ)} {srv : Server σ} {pdu : List UInt8}

theorem accepts_adu (hpos : 1 ≤ pdu.length) (hle : pdu.length ≤ 253) :
    Accepts ucMBAddress (adu ucMBAddress pdu) := by
  have hlen := @length_adu ucMBAddress pdu
  exact ⟨by omega, by omega, bitwiseCrc16_append_lowFirst, .inl rfl⟩

/-- The request of a frame is executed with the PDU in front of what the buffer held before. -/
theorem serve_adu (haddr : ucMBAddress ≠ mbAddressBroadcast) (hpos : 1 ≤ pdu.length)
    (hle : pdu.length ≤ 253) : ∃ rest : List UInt8, pdu.length + rest.length = 255 ∧
      (srv.serve ucMBAddress es (adu ucMBAddress pdu)).app =
        (execute es ucMBAddress (pdu ++ rest) pdu.length srv.app).app ∧
      srv.reply ucMBAddress es (adu ucMBAddress pdu) = adu ucMBAddress
        ((execute es ucMBAddress (pdu ++ rest) pdu.length srv.app).frame.take
          (execute es ucMBAddress (pdu ++ rest) pdu.length srv.app).usLen) := by
  have hlen := @length_adu ucMBAddress pdu
  have hunicast : (adu ucMBAddress pdu).getD 0 0 = ucMBAddress := rfl
  obtain ⟨rest, hrest⟩ : ∃ rest, slice (store srv.mem 0 (adu ucMBAddress pdu)) 1 255 = pdu ++ rest := by
    have hself : slice (store srv.mem 0 (adu ucMBAddress pdu)) 0 (pdu.length + 3) =
        adu ucMBAddress pdu := by
      rw [← hlen, slice_store_self]
    have hpdu : slice (store srv.mem 0 (adu ucMBAddress pdu)) 1 pdu.length = pdu := by
      have hinner := @take_drop_slice _ (store srv.mem 0 (adu ucMBAddress pdu)) 0 (pdu.length + 3)
        pdu.length 1 (by omega)
      rw [hself] at hinner
      rw [← hinner]
      simp [adu]
    refine ⟨slice (store srv.mem 0 (adu ucMBAddress pdu)) (1 + pdu.length) (255 - pdu.length), ?_⟩
    conv => lhs; rw [show 255 = pdu.length + (255 - pdu.length) by omega, slice_add, hpdu]
  have hcount := congrArg List.length hrest
  rw [length_slice, List.length_append] at hcount
  refine ⟨rest, hcount.symm, ?_, ?_⟩
  · rw [Server.serve, if_pos (accepts_adu hpos hle), List.take_of_length_le (by omega), hunicast, hrest,
      hlen, Nat.add_sub_cancel]
    dsimp only
    rw [if_neg haddr]
  · rw [Server.reply, Server.serve, if_pos (accepts_adu hpos hle), List.take_of_length_le (by omega),
      hunicast, hrest, hlen, Nat.add_sub_cancel]
    dsimp only
    rw [if_neg haddr, List.drop_left]

theorem adu_injective {pdu' : List UInt8} (h : adu ucMBAddress pdu = adu ucMBAddress pdu') :
    pdu = pdu' := by
  obtain ⟨hhead, -⟩ := List.append_inj' h rfl
  exact (List.cons.inj hhead).2

end serve

/-! ## Reading -/

section read
variable {ucMBAddress : UInt8} {modebusReadRegList modebusRwRegList : List (ModbusReg σ)} {id : SlaveId}
variable {srv : Server σ} {a n : UInt16} {vs : List UInt16}

theorem toNat_lo {v : UInt16} (h : v.toNat < 256) : (lo v).toUInt16 = v := by
  apply UInt16.toNat_inj.mp
  rw [lo, UInt8.toNat_toUInt16, UInt8.toNat_ofNat']
  omega

theorem exception_ne_none {e : MbErrorCode} (h : e ≠ .enoerr) : prveMBError2Exception e ≠ .none := by
  cases e with
  | enoerr => exact absurd rfl h
  | _ => decide

/-- What a callback in place leaves is an answer. -/
theorem answer_inPlace {buf : List UInt8} {s : σ} :
    answer modebusRwRegList buf (a + 1) n s =
      let r := InPlace.eMBRegHoldingCB modebusRwRegList buf (a + 1) n .read s
      some (if r.eStatus = .enoerr then .ok r.buf else .error r.eStatus) := by
  rw [answer, InPlace.eMBRegHoldingCB_eq]
  rcases InPlace.eMBRegHoldingCB modebusRwRegList buf (a + 1) n .read s with ⟨e, out, t⟩
  by_cases he : e = .enoerr
  · subst he
    rfl
  · simp only [Left.outcome, if_neg he]

theorem answer_of_none {r : Handled σ} {ucFunctionCode : UInt8} (h : r.exception = .none) :
    r.answer ucFunctionCode = r := if_pos h

/-- An exception is answered by its code. -/
theorem take_answer {r : Handled σ} {ucFunctionCode : UInt8} (hframe : 2 ≤ r.frame.length)
    (he : r.exception ≠ .none) :
    (r.answer ucFunctionCode).frame.take (r.answer ucFunctionCode).usLen =
      [ucFunctionCode ||| 0x80, r.exception.code] := by
  obtain ⟨b, frame, hcons⟩ := List.exists_cons_of_length_pos (l := r.frame) (by omega)
  obtain ⟨b', frame', hcons'⟩ := List.exists_cons_of_length_pos (l := frame) (by
    rw [hcons, List.length_cons] at hframe
    omega)
  subst hcons'
  rw [Handled.answer, if_neg he]
  dsimp only
  rw [hcons]
  rfl

/-- The reply to a read carries what the callback answers. -/
theorem reply_readRegisters (haddr : ucMBAddress ≠ mbAddressBroadcast) (hpos : 1 ≤ n.toNat)
    (hn : n.toNat ≤ 125) : ∃ buf, buf.length = 2 * n.toNat ∧
      srv.reply ucMBAddress (xFuncHandlers modebusReadRegList modebusRwRegList id)
          (adu ucMBAddress (readRegisters a n)) =
        match answer modebusRwRegList buf (a + 1) n srv.app with
        | some (.ok out) => adu ucMBAddress ([3, UInt8.ofNat (n.toNat * 2)] ++ out)
        | some (.error e) => adu ucMBAddress [0x83, (prveMBError2Exception e).code]
        | none => [] := by
  obtain ⟨rest, hrest, -, hreply⟩ := @serve_adu σ ucMBAddress
    (xFuncHandlers modebusReadRegList modebusRwRegList id) srv (readRegisters a n) haddr (by simp [readRegisters])
    (by simp [readRegisters])
  have hlen : (readRegisters a n).length = 5 := rfl
  have hcall : execute (xFuncHandlers modebusReadRegList modebusRwRegList id) ucMBAddress
      (readRegisters a n ++ rest) 5 srv.app =
        (eMBFuncReadHoldingRegister modebusRwRegList (readRegisters a n ++ rest) 5 srv.app).answer 3 :=
    if_neg haddr
  have hvalid : decide (1 ≤ n ∧ n ≤ 0x007D) = true :=
    decide_eq_true ⟨UInt16.le_iff_toNat_le.mpr hpos, UInt16.le_iff_toNat_le.mpr hn⟩
  have hword : frameWord (readRegisters a n ++ rest) 1 = a := frameWord_eq rfl rfl
  have hcount : ((readRegisters a n ++ rest).getD 4 0).toUInt16 = n := toNat_lo (by omega)
  -- The registers of the reply are written from the third byte of the request on.
  have hsplit : ∃ buf tail, lo a :: hi n :: lo n :: rest = buf ++ tail ∧ buf.length = 2 * n.toNat := by
    refine ⟨_, _, (List.take_append_drop (2 * n.toNat) _).symm, ?_⟩
    rw [hlen] at hrest
    rw [List.length_take, List.length_cons, List.length_cons, List.length_cons]
    omega
  obtain ⟨buf, tail, htail, hbuf⟩ := hsplit
  refine ⟨buf, hbuf, ?_⟩
  have hcb : InPlace.eMBRegHoldingCB modebusRwRegList (buf ++ tail) (a + 1) n .read srv.app =
      let r := InPlace.eMBRegHoldingCB modebusRwRegList buf (a + 1) n .read srv.app
      { r with buf := r.buf ++ tail } := InPlace.eMbregGet_append (Nat.le_of_eq hbuf.symm)
  have hout : (InPlace.eMBRegHoldingCB modebusRwRegList buf (a + 1) n .read srv.app).buf.length =
      2 * n.toNat := (InPlace.length_eMBRegHoldingCB (Nat.le_of_eq hbuf.symm)).trans hbuf
  have hhandled : eMBFuncReadHoldingRegister modebusRwRegList (readRegisters a n ++ rest) 5 srv.app =
      let r := InPlace.eMBRegHoldingCB modebusRwRegList buf (a + 1) n .read srv.app
      ⟨prveMBError2Exception r.eStatus, [3, UInt8.ofNat (n.toNat * 2)] ++ (r.buf ++ tail),
        if r.eStatus = .enoerr then 2 + n.toNat * 2 else 2, r.app⟩ := by
    rw [eMBFuncReadHoldingRegister, readRequest, if_pos rfl]
    dsimp only
    rw [hcount, if_pos hvalid, hword]
    have hdrop : (((readRegisters a n ++ rest).set 0 3).set 1 (UInt8.ofNat (n.toNat * 2))).drop 2 =
        buf ++ tail := htail
    rw [hdrop, hcb]
    rfl
  rw [hreply, hlen, hcall, hhandled, answer_inPlace]
  generalize InPlace.eMBRegHoldingCB modebusRwRegList buf (a + 1) n .read srv.app = r at hout
  obtain ⟨e, out, t⟩ := r
  by_cases he : e = .enoerr
  · subst he
    dsimp only at hout ⊢
    rw [answer_of_none rfl, if_pos rfl, if_pos rfl]
    dsimp only
    rw [← List.append_assoc, List.take_left' ?_]
    rw [List.length_append, hout, Nat.mul_comm]
    rfl
  · dsimp only
    rw [if_neg he, if_neg he, take_answer (Nat.le_add_left 2 _) (by exact exception_ne_none he)]
    rfl

/-- A read is answered by the values `vs` when the registers hold them. -/
theorem reply_readRegisters_iff {cell : ModbusReg σ → σ → List UInt8} (hb : Backed modebusRwRegList cell)
    (hd : DisjointRanges modebusRwRegList) (haddr : ucMBAddress ≠ mbAddressBroadcast)
    (hpos : 1 ≤ n.toNat) (hn : n.toNat ≤ 125) (hlen : vs.length = n.toNat) :
    srv.reply ucMBAddress (xFuncHandlers modebusReadRegList modebusRwRegList id)
        (adu ucMBAddress (readRegisters a n)) = adu ucMBAddress (registers vs) ↔
      Holds (regFile modebusRwRegList cell srv.app) a.toNat vs := by
  obtain ⟨buf, hbuf, hreply⟩ := @reply_readRegisters σ ucMBAddress modebusReadRegList modebusRwRegList id
    srv a n haddr hpos hn
  rw [hreply, ← answer_eq_ok hb hd hbuf hlen]
  rcases answer_eq hb hd (a := a) (s := srv.app) hbuf with ⟨ws, hws, -, he⟩ | ⟨-, he⟩
  · rw [he]
    dsimp only
    constructor
    · intro h
      have hpdu := adu_injective h
      rw [registers, ← hlen] at hpdu
      rw [List.append_cancel_left hpdu]
    · intro h
      rw [Except.ok.inj (Option.some.inj h), registers, hlen]
  · rw [he]
    dsimp only
    constructor
    · intro h
      have hpdu := congrArg (List.getD · 0 0) (adu_injective h)
      exact absurd hpdu (by decide : (0x83 : UInt8) ≠ 3)
    · intro h
      cases h

/-- Registers with the same values are answered alike. -/
theorem reply_readRegisters_congr {cell : ModbusReg σ → σ → List UInt8} {srv' : Server σ}
    (hb : Backed modebusRwRegList cell) (hd : DisjointRanges modebusRwRegList)
    (haddr : ucMBAddress ≠ mbAddressBroadcast) (hpos : 1 ≤ n.toNat) (hn : n.toNat ≤ 125)
    (h : ∀ i < n.toNat, regFile modebusRwRegList cell srv.app (a.toNat + i) =
      regFile modebusRwRegList cell srv'.app (a.toNat + i)) :
    srv.reply ucMBAddress (xFuncHandlers modebusReadRegList modebusRwRegList id)
        (adu ucMBAddress (readRegisters a n)) =
      srv'.reply ucMBAddress (xFuncHandlers modebusReadRegList modebusRwRegList id)
        (adu ucMBAddress (readRegisters a n)) := by
  obtain ⟨buf, hbuf, hreply⟩ := @reply_readRegisters σ ucMBAddress modebusReadRegList modebusRwRegList id
    srv a n haddr hpos hn
  obtain ⟨buf', hbuf', hreply'⟩ := @reply_readRegisters σ ucMBAddress modebusReadRegList modebusRwRegList
    id srv' a n haddr hpos hn
  rw [hreply, hreply', answer_congr hb hd hbuf h]
  rcases answer_eq hb hd (a := a) (s := srv'.app) hbuf with ⟨vs, hl, hvs, he⟩ | ⟨⟨i, hi, hnone⟩, he⟩ <;>
    rcases answer_eq hb hd (a := a) (s := srv'.app) hbuf' with ⟨ws, hl', hws, he'⟩ | ⟨⟨j, hj, hnone'⟩, he'⟩
  · rw [he, he', hvs.unique hws (hl.trans hl'.symm)]
  · have := hvs j (hl ▸ hj)
    rw [hnone'] at this
    cases this
  · have := hws i (hl' ▸ hi)
    rw [hnone] at this
    cases this
  · rw [he, he']

end read

/-! ## Writing -/

section write
variable {ucMBAddress : UInt8} {modebusReadRegList modebusRwRegList : List (ModbusReg σ)} {id : SlaveId}
variable {srv : Server σ} {a : UInt16} {vs : List UInt16}

/-- The reply to a write tells whether the callback accepted it. -/
theorem serve_writeRegisters (haddr : ucMBAddress ≠ mbAddressBroadcast) (hpos : 1 ≤ vs.length)
    (hlen : vs.length ≤ 120) : ∃ rest : List UInt8,
      let r := InPlace.eMBRegHoldingCB modebusRwRegList (wire vs ++ rest) (a + 1) (UInt16.ofNat vs.length)
        .write srv.app
      (srv.serve ucMBAddress (xFuncHandlers modebusReadRegList modebusRwRegList id)
          (adu ucMBAddress (writeRegisters a vs))).app = r.app ∧
        srv.reply ucMBAddress (xFuncHandlers modebusReadRegList modebusRwRegList id)
            (adu ucMBAddress (writeRegisters a vs)) =
          adu ucMBAddress (if r.eStatus = .enoerr then written a vs
            else [0x90, (prveMBError2Exception r.eStatus).code]) := by
  have hcount : (writeRegisters a vs).length = 6 + 2 * vs.length := by
    rw [writeRegisters, List.length_append, length_wire]
    rfl
  obtain ⟨rest, -, happ, hreply⟩ := @serve_adu σ ucMBAddress
    (xFuncHandlers modebusReadRegList modebusRwRegList id) srv (writeRegisters a vs) haddr (by omega)
    (by omega)
  refine ⟨rest, ?_⟩
  have hn : (UInt16.ofNat vs.length).toNat = vs.length := by
    rw [UInt16.toNat_ofNat']
    omega
  have hvalid : 1 ≤ UInt16.ofNat vs.length ∧ UInt16.ofNat vs.length ≤ mbPduFuncWriteMulRegcntMax ∧
      (writeRegisters a vs ++ rest).getD 5 0 = (2 * UInt16.ofNat vs.length).toUInt8 := by
    refine ⟨UInt16.le_iff_toNat_le.mpr (by rw [hn]; exact hpos),
      UInt16.le_iff_toNat_le.mpr (by rw [hn]; exact hlen), UInt8.toNat_inj.mp ?_⟩
    show (UInt8.ofNat (2 * vs.length)).toNat = _
    rw [UInt8.toNat_ofNat', UInt16.toNat_toUInt8, UInt16.toNat_mul, hn]
    show _ = 2 * vs.length % 65536 % 256
    omega
  have hcall : execute (xFuncHandlers modebusReadRegList modebusRwRegList id) ucMBAddress
      (writeRegisters a vs ++ rest) (6 + 2 * vs.length) srv.app =
        (InPlace.eMBFuncWriteMultipleHoldingRegister modebusRwRegList (writeRegisters a vs ++ rest)
          (6 + 2 * vs.length) srv.app).answer 16 := if_neg haddr
  have hword : frameWord (writeRegisters a vs ++ rest) 1 = a := frameWord_eq rfl rfl
  have hword' : frameWord (writeRegisters a vs ++ rest) 3 = UInt16.ofNat vs.length := frameWord_eq rfl rfl
  have hhandled : InPlace.eMBFuncWriteMultipleHoldingRegister modebusRwRegList
      (writeRegisters a vs ++ rest) (6 + 2 * vs.length) srv.app =
        let r := InPlace.eMBRegHoldingCB modebusRwRegList (wire vs ++ rest) (a + 1)
          (UInt16.ofNat vs.length) .write srv.app
        ⟨prveMBError2Exception r.eStatus,
          written a vs ++ ([UInt8.ofNat (2 * vs.length)] ++ r.buf),
          if r.eStatus = .enoerr then 5 else 6 + 2 * vs.length, r.app⟩ := by
    rw [InPlace.eMBFuncWriteMultipleHoldingRegister, if_pos (by omega)]
    dsimp only
    rw [hword', if_pos hvalid, hword]
    rfl
  rw [happ, hreply, hcount, hcall, hhandled]
  generalize InPlace.eMBRegHoldingCB modebusRwRegList (wire vs ++ rest) (a + 1)
    (UInt16.ofNat vs.length) .write srv.app = r
  obtain ⟨e, out, t⟩ := r
  by_cases he : e = .enoerr
  · subst he
    dsimp only
    rw [answer_of_none rfl, if_pos rfl, if_pos rfl]
    exact ⟨rfl, rfl⟩
  · dsimp only
    rw [if_neg he, if_neg he, take_answer (Nat.le_add_left 2 _) (by exact exception_ne_none he)]
    refine ⟨?_, rfl⟩
    rw [Handled.answer, if_neg (by exact exception_ne_none he)]

/-- A write that is answered as accepted was accepted by the callback. -/
theorem accepted_of_reply (haddr : ucMBAddress ≠ mbAddressBroadcast) (hpos : 1 ≤ vs.length)
    (hlen : vs.length ≤ 120)
    (hwrite : srv.reply ucMBAddress (xFuncHandlers modebusReadRegList modebusRwRegList id)
      (adu ucMBAddress (writeRegisters a vs)) = adu ucMBAddress (written a vs)) :
    ∃ rest buf', eMBRegHoldingCB modebusRwRegList (wire vs ++ rest) (a + 1) (UInt16.ofNat vs.length)
      .write srv.app = .done buf' (srv.serve ucMBAddress
        (xFuncHandlers modebusReadRegList modebusRwRegList id) (adu ucMBAddress (writeRegisters a vs))).app := by
  obtain ⟨rest, happ, hreply⟩ := @serve_writeRegisters σ ucMBAddress modebusReadRegList modebusRwRegList id
    srv a vs haddr hpos hlen
  have hok : (InPlace.eMBRegHoldingCB modebusRwRegList (wire vs ++ rest) (a + 1)
      (UInt16.ofNat vs.length) .write srv.app).eStatus = .enoerr := by
    by_contra hne
    rw [hreply, if_neg hne] at hwrite
    have := congrArg List.length (adu_injective hwrite)
    exact absurd this (by decide : (2 : Nat) ≠ 5)
  exact ⟨rest, _, by rw [InPlace.eMBRegHoldingCB_eq, Left.outcome, if_pos hok, happ]⟩

end write

/-! ## Reading back -/

/-- In every disciplined run in which a slave hears `frames` it sends `out`, once its main loop and its
transmitter have had their turns. -/
def Sends (ucMBAddress : UInt8) (xFuncHandlers : List (FuncEntry σ)) (mem : Nat → UInt8) (app : σ)
    (frames : List (List UInt8)) (out : List UInt8) : Prop :=
  ∀ is, (rtuSlave ucMBAddress xFuncHandlers).Along Disciplined (started mem app) is →
    (heard none is).2 = frames →
    ∃ log s log' t, (rtuSlave ucMBAddress xFuncHandlers).run (started mem app) is = (log, .inl s) ∧
      (rtuSlave ucMBAddress xFuncHandlers).run s turns = (log', .inl t) ∧ sent log ++ sent log' = out

section sends
variable {ucMBAddress : UInt8} {es : List (FuncEntry σ)} {mem : Nat → UInt8} {app : σ}
  {frames : List (List UInt8)} {out : List UInt8}

theorem sends_iff (hframes : ∀ frame ∈ frames, frame ≠ []) :
    Sends ucMBAddress es mem app frames out ↔
      out = (Server.serveAll ucMBAddress es ⟨mem, app, []⟩ frames).out := by
  constructor
  · intro h
    have halong := (@rtuSlave_exchanges σ ucMBAddress es mem app frames hframes).1
    obtain ⟨log, s, log', t, hrun, hturns, hsent⟩ := h _ halong (heard_exchanges hframes)
    obtain ⟨log₁, s₁, hrun₁, hfollows⟩ := follows_run (follows_started mem app) halong
    obtain ⟨log₂, t₂, hturns₂, hend, -⟩ := hfollows.turns
    rw [hrun] at hrun₁
    cases hrun₁
    rw [hturns] at hturns₂
    cases hturns₂
    have hout := hend.out
    rw [List.nil_append, hsent, heard_exchanges hframes] at hout
    exact hout.symm
  · rintro rfl is halong rfl
    obtain ⟨log, s, hrun, hfollows⟩ := follows_run (follows_started mem app) halong
    obtain ⟨log', t, hturns, hend, -⟩ := hfollows.turns
    exact ⟨log, s, log', t, hrun, hturns, hend.out.symm⟩

theorem serveAll_snoc {srv : Server σ} {frame : List UInt8} :
    srv.serveAll ucMBAddress es (frames ++ [frame]) =
      (srv.serveAll ucMBAddress es frames).serve ucMBAddress es frame := List.foldl_concat ..

theorem out_serve (srv : Server σ) (frame : List UInt8) :
    (srv.serve ucMBAddress es frame).out = srv.out ++ srv.reply ucMBAddress es frame := by
  obtain ⟨reply, hreply⟩ := @serve_out σ ucMBAddress es srv frame
  rw [Server.reply, ← hreply, List.drop_left]

theorem adu_ne_nil {pdu : List UInt8} : adu ucMBAddress pdu ≠ [] := List.cons_ne_nil _ _

end sends

/-- Each value is also at the place from which the setter of its entry takes it: as far from the start
of the request as its register is from the start of the entry, or of the request when this starts inside
the entry. -/
def TakenInPlace (regList : List (ModbusReg σ)) (a : UInt16) (vs : List UInt16) : Prop :=
  ∀ i < vs.length, ∀ reg, regAt regList (a.toNat + i) = some reg →
    vs[i]? = vs[a.toNat + i - max a.toNat reg.regStart.toNat]?

section exchange
variable {modebusReadRegList modebusRwRegList : List (ModbusReg σ)} {id : SlaveId}
  {cell : ModbusReg σ → σ → List UInt8} {a : UInt16} {vs : List UInt16} {s s' : σ}

/-- The registers behind an accepted write. -/
theorem holds_iff_of_write {rest buf' : List UInt8} (hb : Backed modebusRwRegList cell)
    (hd : DisjointRanges modebusRwRegList) (hlen : vs.length ≤ 120)
    (h : eMBRegHoldingCB modebusRwRegList (wire vs ++ rest) (a + 1) (UInt16.ofNat vs.length) .write s =
      .done buf' s') :
    (Holds (regFile modebusRwRegList cell s') a.toNat vs ↔ TakenInPlace modebusRwRegList a vs) ∧
      ∀ x, x < a.toNat ∨ a.toNat + vs.length ≤ x →
        regFile modebusRwRegList cell s' x = regFile modebusRwRegList cell s x := by
  have hn : vs.length = (UInt16.ofNat vs.length).toNat := by
    rw [UInt16.toNat_ofNat']
    omega
  obtain ⟨-, hfile⟩ := regFile_of_write hb hd hn h
  have hout : ∀ x, x < a.toNat ∨ a.toNat + vs.length ≤ x →
      regFile modebusRwRegList cell s' x = regFile modebusRwRegList cell s x := by
    intro x hx
    rw [hfile]
    simp only [if_neg (show ¬ (a.toNat ≤ x ∧ x < a.toNat + (UInt16.ofNat vs.length).toNat) by omega)]
    rfl
  refine ⟨?_, hout⟩
  have hback := readsBack_iff hb hd hn h
  rw [← hn] at hback
  refine Iff.trans ⟨fun hholds => ?_, fun hread => ?_⟩ hback
  · refine ⟨fun buf hbuf => (answer_eq_ok hb hd hbuf hn).mpr hholds, fun x m buf hbuf hdisj => ?_⟩
    exact answer_congr hb hd hbuf fun i hi => hout _ (by omega)
  · exact (answer_eq_ok hb hd (by simp) hn).mp (hread.inside (List.replicate _ 0) List.length_replicate)

/-- A master writes registers and reads `m` registers from `x` on, and bytes arrive only while the slave
listens. If the write is answered as accepted, a read of the same registers is answered by the written
values exactly when the setters take them from their places, and a read of other registers is answered
as it would have been without the write. -/
theorem rtuSlave_reads_back {ucMBAddress : UInt8} (hb : Backed modebusRwRegList cell)
    (hd : DisjointRanges modebusRwRegList) (haddr : ucMBAddress ≠ mbAddressBroadcast)
    (hpos : 1 ≤ vs.length) (hlen : vs.length ≤ 120) {mem : Nat → UInt8} {app : σ}
    {frames : List (List UInt8)} (hframes : ∀ frame ∈ frames, frame ≠ []) {before : List UInt8}
    (hbefore : Sends ucMBAddress (xFuncHandlers modebusReadRegList modebusRwRegList id) mem app frames
      before)
    (hwrite : Sends ucMBAddress (xFuncHandlers modebusReadRegList modebusRwRegList id) mem app
      (frames ++ [adu ucMBAddress (writeRegisters a vs)]) (before ++ adu ucMBAddress (written a vs)))
    {x m : UInt16} (hm : 1 ≤ m.toNat) (hm' : m.toNat ≤ 125) :
    ∃ reply, Sends ucMBAddress (xFuncHandlers modebusReadRegList modebusRwRegList id) mem app
        (frames ++ [adu ucMBAddress (writeRegisters a vs)] ++ [adu ucMBAddress (readRegisters x m)])
        (before ++ adu ucMBAddress (written a vs) ++ reply) ∧
      (x = a → m.toNat = vs.length →
        (reply = adu ucMBAddress (registers vs) ↔ TakenInPlace modebusRwRegList a vs)) ∧
      (x.toNat + m.toNat ≤ a.toNat ∨ a.toNat + vs.length ≤ x.toNat →
        Sends ucMBAddress (xFuncHandlers modebusReadRegList modebusRwRegList id) mem app
          (frames ++ [adu ucMBAddress (readRegisters x m)]) (before ++ reply)) := by
  have hsnoc {fs : List (List UInt8)} {pdu : List UInt8} (h : ∀ frame ∈ fs, frame ≠ []) :
      ∀ frame ∈ fs ++ [adu ucMBAddress pdu], frame ≠ [] := by
    intro frame hframe
    rcases List.mem_append.mp hframe with h' | h'
    · exact h frame h'
    · rw [List.mem_singleton.mp h']
      exact adu_ne_nil
  rw [sends_iff hframes] at hbefore
  rw [sends_iff (hsnoc hframes), serveAll_snoc, out_serve, ← hbefore] at hwrite
  obtain ⟨rest, buf', hdone⟩ := accepted_of_reply haddr hpos hlen (List.append_cancel_left hwrite).symm
  obtain ⟨hholds, hout⟩ := holds_iff_of_write hb hd hlen hdone
  refine ⟨((Server.serveAll ucMBAddress (xFuncHandlers modebusReadRegList modebusRwRegList id)
      ⟨mem, app, []⟩ frames).serve ucMBAddress (xFuncHandlers modebusReadRegList modebusRwRegList id)
        (adu ucMBAddress (writeRegisters a vs))).reply ucMBAddress
          (xFuncHandlers modebusReadRegList modebusRwRegList id) (adu ucMBAddress (readRegisters x m)),
    ?_, ?_, ?_⟩
  · rw [sends_iff (hsnoc (hsnoc hframes)), serveAll_snoc, serveAll_snoc, out_serve, out_serve, ← hbefore,
      ← hwrite]
  · intro hx hcount
    subst hx
    exact (reply_readRegisters_iff hb hd haddr hm hm' hcount.symm).trans hholds
  · intro hdisj
    rw [sends_iff (hsnoc hframes), serveAll_snoc, out_serve, ← hbefore]
    congr 1
    refine reply_readRegisters_congr hb hd haddr hm hm' fun i hi => ?_
    exact hout _ (by omega)

theorem write_twoEntries_rest (rest : List UInt8) :
    eMBRegHoldingCB twoEntries (wire [7, 7] ++ rest) (0x10 + 1) 2 .write (0, 0) =
      .done (host [7, 7] ++ rest) (7, 7) := rfl

/-- Two registers written with one value and read back. -/
theorem rtuSlave_reads_back_twoEntries :
    ∃ reply, Sends 1 (xFuncHandlers [] twoEntries ⟨[], fits_noId⟩) (fun _ => 0) (0, 0)
        ([] ++ [adu 1 (writeRegisters 0x10 [7, 7])] ++ [adu 1 (readRegisters 0x10 2)])
        ([] ++ adu 1 (written 0x10 [7, 7]) ++ reply) ∧
      (reply = adu 1 (registers [7, 7]) ↔ TakenInPlace twoEntries 0x10 [7, 7]) := by
  have hnil : ∀ frame ∈ ([] : List (List UInt8)), frame ≠ [] := fun frame h => by cases h
  have hw : ∀ frame ∈ ([] : List (List UInt8)) ++ [adu 1 (writeRegisters 0x10 [7, 7])], frame ≠ [] := by
    intro frame hframe
    rw [List.mem_singleton.mp hframe]
    exact adu_ne_nil
  obtain ⟨rest, -, hreply⟩ := @serve_writeRegisters _ 1 [] twoEntries ⟨[], fits_noId⟩
    ⟨fun _ => 0, (0, 0), []⟩ 0x10 [7, 7] (by decide) (by decide) (by decide)
  have hok : (InPlace.eMBRegHoldingCB twoEntries (wire [7, 7] ++ rest) (0x10 + 1) 2 .write (0, 0)).eStatus =
      .enoerr := by
    by_contra hne
    have hcb := write_twoEntries_rest rest
    rw [InPlace.eMBRegHoldingCB_eq, Left.outcome, if_neg hne] at hcb
    cases hcb
  have hwrite : Sends 1 (xFuncHandlers [] twoEntries ⟨[], fits_noId⟩) (fun _ => 0) (0, 0)
      ([] ++ [adu 1 (writeRegisters 0x10 [7, 7])]) ([] ++ adu 1 (written 0x10 [7, 7])) := by
    rw [sends_iff hw, serveAll_snoc, out_serve]
    exact congrArg _ (hreply.trans (congrArg (adu 1) (if_pos hok))).symm
  obtain ⟨reply, hsends, hback, -⟩ := rtuSlave_reads_back backed_twoEntries disjoint_twoEntries (by decide)
    (by decide) (by decide) hnil ((sends_iff hnil).mpr rfl) hwrite (x := 0x10) (m := 2) (by decide)
    (by decide)
  exact ⟨reply, hsends, hback rfl rfl⟩

end exchange

end McuUtilities.Modbus
