import McuUtilities.Modbus.Refusal

/-!
# The callbacks over the frame itself

`eMbregGet` and `eMbregSet` work on the frame they are called for. A request that is refused half-way
leaves there the registers that were already copied, or the swapped bytes, and the stack keeps the frame
for the next request. `InPlace.eMbregGet` and `InPlace.eMbregSet` are the same functions with the buffer
they leave in every case; on what they return they agree with `eMbregGet` and `eMbregSet`.
-/

namespace McuUtilities.Modbus
open Prog

variable {σ : Type}

/-- What a callback returns, and what it leaves in the buffer and in the application. -/
structure Left (σ : Type) where
  eStatus : MbErrorCode
  buf : List UInt8
  app : σ

/-- The outcome of a callback for a caller that only sees the buffer of a success. -/
def Left.outcome (r : Left σ) : Outcome σ MbErrorCode (List UInt8) :=
  if r.eStatus = .enoerr then .done r.buf r.app else .fail r.eStatus r.app

namespace InPlace

section loops
variable (usAddress usNRegs : Nat) (regList : List (ModbusReg σ))

/-- The loop of `eMbregGet` from `offset` on. -/
def getLoop (offset : Nat) (buf : List UInt8) (s : σ) : Left σ :=
  if _hlt : offset < usNRegs then
    match _hreg : regAt regList (usAddress + offset) with
    | none => ⟨.enoreg, buf, s⟩
    | some reg =>
      match reg.get with
      | none => ⟨.enoreg, buf, s⟩
      | some getter =>
        let addOffset := reg.addOffset (usAddress + offset)
        let len := reg.len addOffset (usNRegs - offset)
        match getter s with
        | (none, t) => ⟨.enoreg, buf, t⟩
        | (some val, t) =>
          getLoop (offset + len) (overwrite buf (offset * 2) (val.read (addOffset * 2) (len * 2))) t
  else ⟨.enoerr, buf, s⟩
termination_by usNRegs - offset
decreasing_by
  have := (maps_of_regAt _hreg).len_pos (usNRegs - offset) (by omega)
  omega

/-- The loop of `eMbregSet` from `offset` on. -/
def setLoop (buf : List UInt8) (offset : Nat) (s : σ) : MbErrorCode × σ :=
  if _hlt : offset < usNRegs then
    match _hreg : regAt regList (usAddress + offset) with
    | none => (.enoreg, s)
    | some reg =>
      let addOffset := reg.addOffset (usAddress + offset)
      let len := reg.len addOffset (usNRegs - offset)
      match reg.set with
      | none => (.enoreg, s)
      | some setter =>
        let r := setter buf (addOffset * 2) (len * 2) s
        if r.1 = 0 then setLoop buf (offset + len) r.2 else (.enoreg, r.2)
  else (.enoerr, s)
termination_by usNRegs - offset
decreasing_by
  have := (maps_of_regAt _hreg).len_pos (usNRegs - offset) (by omega)
  omega

/-- `eMbregGet`; a request that is refused is not swapped. -/
def eMbregGet (pucRegBuffer : List UInt8) (s : σ) : Left σ :=
  let r := getLoop usAddress usNRegs regList 0 pucRegBuffer s
  if r.eStatus = .enoerr then { r with buf := swapBytes usNRegs r.buf } else r

/-- `eMbregSet`; a request that is refused stays swapped. -/
def eMbregSet (pucRegBuffer : List UInt8) (s : σ) : Left σ :=
  let buf := swapBytes usNRegs pucRegBuffer
  let r := setLoop usAddress usNRegs regList buf 0 s
  ⟨r.1, if r.1 = .enoerr ∧ usNRegs = 1 then swapBytes usNRegs buf else buf, r.2⟩

end loops

/-- `eMBRegHoldingCB` -/
def eMBRegHoldingCB (modebusRwRegList : List (ModbusReg σ)) (pucRegBuffer : List UInt8)
    (usAddress usNRegs : UInt16) (eMode : MbRegisterMode) (s : σ) : Left σ :=
  let usAddress := usAddress - 1
  match eMode with
  | .read => eMbregGet usAddress.toNat usNRegs.toNat modebusRwRegList pucRegBuffer s
  | .write => eMbregSet usAddress.toNat usNRegs.toNat modebusRwRegList pucRegBuffer s

/-- `eMBRegInputCB` -/
def eMBRegInputCB (modebusReadRegList : List (ModbusReg σ)) (pucRegBuffer : List UInt8)
    (usAddress usNRegs : UInt16) (s : σ) : Left σ :=
  let usAddress := usAddress - 1
  eMbregGet usAddress.toNat usNRegs.toNat modebusReadRegList pucRegBuffer s

/-! ## They return what `eMbregGet` and `eMbregSet` return -/

section agree
variable {usAddress usNRegs offset fuel : Nat} {regList : List (ModbusReg σ)} {buf : List UInt8} {s : σ}

theorem getLoop_unmapped (hlt : offset < usNRegs) (hreg : regAt regList (usAddress + offset) = none) :
    getLoop usAddress usNRegs regList offset buf s = ⟨.enoreg, buf, s⟩ := by
  rw [getLoop, dif_pos hlt]
  split
  · rfl
  · next hreg' => rw [hreg] at hreg'; cases hreg'

theorem getLoop_mapped {reg : ModbusReg σ} (hlt : offset < usNRegs)
    (hreg : regAt regList (usAddress + offset) = some reg) :
    getLoop usAddress usNRegs regList offset buf s =
      match reg.get with
      | none => ⟨.enoreg, buf, s⟩
      | some getter =>
        let addOffset := reg.addOffset (usAddress + offset)
        let len := reg.len addOffset (usNRegs - offset)
        match getter s with
        | (none, t) => ⟨.enoreg, buf, t⟩
        | (some val, t) => getLoop usAddress usNRegs regList (offset + len)
            (overwrite buf (offset * 2) (val.read (addOffset * 2) (len * 2))) t := by
  rw [getLoop, dif_pos hlt]
  split
  · next hreg' => rw [hreg] at hreg'; cases hreg'
  · next reg' hreg' =>
    rw [hreg] at hreg'
    cases hreg'
    rfl

theorem setLoop_unmapped (hlt : offset < usNRegs) (hreg : regAt regList (usAddress + offset) = none) :
    setLoop usAddress usNRegs regList buf offset s = (.enoreg, s) := by
  rw [setLoop, dif_pos hlt]
  split
  · rfl
  · next hreg' => rw [hreg] at hreg'; cases hreg'

theorem setLoop_mapped {reg : ModbusReg σ} (hlt : offset < usNRegs)
    (hreg : regAt regList (usAddress + offset) = some reg) :
    setLoop usAddress usNRegs regList buf offset s =
      let addOffset := reg.addOffset (usAddress + offset)
      let len := reg.len addOffset (usNRegs - offset)
      match reg.set with
      | none => (.enoreg, s)
      | some setter =>
        let r := setter buf (addOffset * 2) (len * 2) s
        if r.1 = 0 then setLoop usAddress usNRegs regList buf (offset + len) r.2 else (.enoreg, r.2) := by
  rw [setLoop, dif_pos hlt]
  split
  · next hreg' => rw [hreg] at hreg'; cases hreg'
  · next reg' hreg' =>
    rw [hreg] at hreg'
    cases hreg'
    rfl

theorem iterate_getStep (hfuel : usNRegs - offset < fuel) :
    iterate fuel (getStep usAddress usNRegs regList) (offset, buf) s =
      (getLoop usAddress usNRegs regList offset buf s).outcome := by
  induction fuel generalizing offset buf s with
  | zero => exact absurd hfuel (Nat.not_lt_zero _)
  | succ fuel ih =>
    rw [iterate, bind_apply, getStep]
    by_cases hlt : offset < usNRegs
    · rw [if_pos hlt]
      cases hreg : regAt regList (usAddress + offset) with
      | none =>
        rw [getLoop_unmapped hlt hreg]
        rfl
      | some reg =>
        rw [getLoop_mapped hlt hreg]
        dsimp only
        cases reg.get with
        | none => rfl
        | some getter =>
          dsimp only
          rw [bind_apply, call_apply]
          rcases getter s with ⟨val, t⟩
          cases val with
          | none => rfl
          | some val =>
            have hpos := (maps_of_regAt hreg).len_pos (usNRegs - offset) (by omega)
            exact ih (by omega)
    · rw [if_neg hlt, getLoop, dif_neg hlt]
      rfl

theorem setStep_mapped {reg : ModbusReg σ} (hlt : offset < usNRegs)
    (hreg : regAt regList (usAddress + offset) = some reg) :
    setStep usAddress usNRegs regList buf offset s =
      let addOffset := reg.addOffset (usAddress + offset)
      let len := reg.len addOffset (usNRegs - offset)
      match reg.set with
      | none => .fail .enoreg s
      | some setter =>
        let r := setter buf (addOffset * 2) (len * 2) s
        if r.1 = 0 then .done (.inl (offset + len)) r.2 else .fail .enoreg r.2 := by
  rw [setStep, if_pos hlt, hreg]
  dsimp only
  cases reg.set with
  | none => rfl
  | some setter =>
    generalize reg.len (reg.addOffset (usAddress + offset)) (usNRegs - offset) = len
    show (call (setter buf (reg.addOffset (usAddress + offset) * 2) (len * 2)) >>= fun r =>
      (require (r == 0) .enoreg >>= fun _ => pure (.inl (offset + len)) :
        Prog σ MbErrorCode (Nat ⊕ Unit))) s = _
    rw [bind_done (call_apply _)]
    dsimp only
    generalize setter buf (reg.addOffset (usAddress + offset) * 2) (len * 2) s = r
    by_cases hr : r.1 = 0
    · rw [if_pos hr, beq_iff_eq.mpr hr]
      rfl
    · rw [if_neg hr, beq_eq_false_iff_ne.mpr hr]
      rfl

theorem iterate_setStep (hfuel : usNRegs - offset < fuel) :
    iterate fuel (setStep usAddress usNRegs regList buf) offset s =
      match setLoop usAddress usNRegs regList buf offset s with
      | (e, t) => if e = .enoerr then .done () t else .fail e t := by
  induction fuel generalizing offset s with
  | zero => exact absurd hfuel (Nat.not_lt_zero _)
  | succ fuel ih =>
    by_cases hlt : offset < usNRegs
    · cases hreg : regAt regList (usAddress + offset) with
      | none =>
        rw [iterate, bind_apply, setStep, if_pos hlt, hreg, setLoop_unmapped hlt hreg]
        rfl
      | some reg =>
        have hpos := (maps_of_regAt hreg).len_pos (usNRegs - offset) (by omega)
        have hstep := @setStep_mapped σ usAddress usNRegs offset regList buf s reg hlt hreg
        rw [setLoop_mapped hlt hreg]
        cases hset : reg.set with
        | none =>
          rw [hset] at hstep
          rw [iterate, bind_apply, hstep]
          rfl
        | some setter =>
          rw [hset] at hstep
          dsimp only at hstep ⊢
          split
          · next hr =>
            rw [iterate, bind_done (hstep.trans (if_pos hr))]
            exact ih (by omega)
          · next hr =>
            rw [iterate, bind_apply, hstep.trans (if_neg hr)]
            rfl
    · rw [iterate, bind_apply, setStep, if_neg hlt, setLoop, dif_neg hlt]
      rfl

/-- `eMbregGet` returns what the function in place leaves. -/
theorem eMbregGet_eq : Modbus.eMbregGet usAddress usNRegs regList buf s =
    (eMbregGet usAddress usNRegs regList buf s).outcome := by
  rw [Modbus.eMbregGet, bind_apply, iterate_getStep (by omega), eMbregGet]
  rcases getLoop usAddress usNRegs regList 0 buf s with ⟨e, out, t⟩
  by_cases he : e = .enoerr
  · subst he
    rfl
  · dsimp only [Left.outcome]
    rw [if_neg he, if_neg he, if_neg he]

/-- `eMbregSet` returns what the function in place leaves. -/
theorem eMbregSet_eq : Modbus.eMbregSet usAddress usNRegs regList buf s =
    (eMbregSet usAddress usNRegs regList buf s).outcome := by
  rw [show Modbus.eMbregSet usAddress usNRegs regList buf s =
    (iterate (usNRegs + 1) (setStep usAddress usNRegs regList (swapBytes usNRegs buf)) 0 >>= fun _ =>
      pure (if usNRegs = 1 then swapBytes usNRegs (swapBytes usNRegs buf) else swapBytes usNRegs buf)) s
    from rfl, bind_apply, iterate_setStep (by omega), eMbregSet]
  rcases setLoop usAddress usNRegs regList (swapBytes usNRegs buf) 0 s with ⟨e, t⟩
  by_cases he : e = .enoerr
  · subst he
    by_cases hone : usNRegs = 1
    · subst hone
      rfl
    · simp [Left.outcome, hone]
  · dsimp only [Left.outcome]
    rw [if_neg he, if_neg he]

theorem eMBRegHoldingCB_eq {usAddress usNRegs : UInt16} {eMode : MbRegisterMode} :
    Modbus.eMBRegHoldingCB regList buf usAddress usNRegs eMode s =
      (eMBRegHoldingCB regList buf usAddress usNRegs eMode s).outcome := by
  cases eMode with
  | read => exact eMbregGet_eq
  | write => exact eMbregSet_eq

end agree

/-! ## They stay in the buffer -/

section length
variable {usAddress usNRegs offset : Nat} {regList : List (ModbusReg σ)} {buf : List UInt8} {s : σ}

theorem length_overwrite {off : Nat} {val : List UInt8} (h : off + val.length ≤ buf.length) :
    (overwrite buf off val).length = buf.length := by
  simp only [overwrite, List.length_append, List.length_take, List.length_drop]
  omega

theorem length_getLoop (h : 2 * usNRegs ≤ buf.length) :
    (getLoop usAddress usNRegs regList offset buf s).buf.length = buf.length := by
  fun_induction getLoop usAddress usNRegs regList offset buf s with
  | case1 => rfl
  | case2 => rfl
  | case3 => rfl
  | case4 offset buf s hlt reg hreg getter hget addOffset len val t hval ih =>
    have hlen : len ≤ usNRegs - offset := reg.len_le _ _
    have hover : (overwrite buf (offset * 2) (val.read (addOffset * 2) (len * 2))).length =
        buf.length := by
      refine length_overwrite ?_
      rw [Pointer.read, length_slice]
      omega
    rw [ih (by rw [hover]; exact h), hover]
  | case5 => rfl

theorem length_eMbregGet (h : 2 * usNRegs ≤ buf.length) :
    (eMbregGet usAddress usNRegs regList buf s).buf.length = buf.length := by
  have hloop := @length_getLoop σ usAddress usNRegs 0 regList buf s h
  rw [eMbregGet]
  split
  · rw [length_swapBytes]
    exact hloop
  · exact hloop

theorem length_eMbregSet : (eMbregSet usAddress usNRegs regList buf s).buf.length = buf.length := by
  rw [eMbregSet]
  dsimp only
  split
  · rw [length_swapBytes, length_swapBytes]
  · rw [length_swapBytes]

theorem length_eMBRegHoldingCB {usAddress usNRegs : UInt16} {eMode : MbRegisterMode}
    (h : 2 * usNRegs.toNat ≤ buf.length) :
    (eMBRegHoldingCB regList buf usAddress usNRegs eMode s).buf.length = buf.length := by
  cases eMode with
  | read => exact length_eMbregGet h
  | write => exact length_eMbregSet

end length

/-! ## They leave the bytes behind the registers alone -/

section append
variable {usAddress usNRegs offset : Nat} {regList : List (ModbusReg σ)} {buf rest : List UInt8} {s : σ}

theorem overwrite_append {off : Nat} {val : List UInt8} (h : off + val.length ≤ buf.length) :
    overwrite (buf ++ rest) off val = overwrite buf off val ++ rest := by
  rw [overwrite, overwrite, List.take_append_of_le_length (by omega), List.drop_append_of_le_length h]
  simp only [List.append_assoc]

theorem swapBytes_append {k : Nat} (h : 2 * k ≤ buf.length) :
    swapBytes k (buf ++ rest) = swapBytes k buf ++ rest := by
  induction k generalizing buf with
  | zero => rfl
  | succ k ih =>
    obtain ⟨a, buf, rfl⟩ := List.exists_cons_of_length_pos (by omega : 0 < buf.length)
    rw [List.length_cons] at h
    obtain ⟨b, buf, rfl⟩ := List.exists_cons_of_length_pos (by omega : 0 < buf.length)
    rw [List.length_cons] at h
    rw [List.cons_append, List.cons_append, swapBytes, swapBytes, ih (by omega), List.cons_append,
      List.cons_append]

theorem getLoop_append (h : 2 * usNRegs ≤ buf.length) :
    getLoop usAddress usNRegs regList offset (buf ++ rest) s =
      let r := getLoop usAddress usNRegs regList offset buf s
      { r with buf := r.buf ++ rest } := by
  induction hleft : usNRegs - offset using Nat.strongRecOn generalizing offset buf s with
  | _ left ih =>
    by_cases hlt : offset < usNRegs
    · cases hreg : regAt regList (usAddress + offset) with
      | none => rw [getLoop_unmapped hlt hreg, getLoop_unmapped hlt hreg]
      | some reg =>
        rw [getLoop_mapped hlt hreg, getLoop_mapped hlt hreg]
        cases reg.get with
        | none => rfl
        | some getter =>
          have hpos := (maps_of_regAt hreg).len_pos (usNRegs - offset) (by omega)
          have hle := reg.len_le (reg.addOffset (usAddress + offset)) (usNRegs - offset)
          dsimp only
          rcases getter s with ⟨val, t⟩
          cases val with
          | none => rfl
          | some val =>
            have hval : offset * 2 + (val.read (reg.addOffset (usAddress + offset) * 2)
                (reg.len (reg.addOffset (usAddress + offset)) (usNRegs - offset) * 2)).length ≤
                buf.length := by
              rw [Pointer.read, length_slice]
              omega
            dsimp only
            rw [overwrite_append hval]
            exact ih _ (by omega) (by rw [length_overwrite hval]; exact h) rfl
    · rw [getLoop, getLoop, dif_neg hlt, dif_neg hlt]

/-- A read fills the buffer up to its registers. -/
theorem eMbregGet_append (h : 2 * usNRegs ≤ buf.length) :
    eMbregGet usAddress usNRegs regList (buf ++ rest) s =
      let r := eMbregGet usAddress usNRegs regList buf s
      { r with buf := r.buf ++ rest } := by
  have hlen := @length_getLoop σ usAddress usNRegs 0 regList buf s h
  rw [eMbregGet, eMbregGet, getLoop_append h]
  dsimp only
  split
  · rw [swapBytes_append (by omega)]
  · rfl

end append

end InPlace

end McuUtilities.Modbus
