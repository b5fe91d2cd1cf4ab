import McuUtilities.Modbus.ReadAfterWrite

/-!
# What a refused write leaves

`eMbregSet` applies a request entry by entry while it checks it, so a request that is refused at
some register has been carried out up to there.
-/

namespace McuUtilities.Modbus
open Prog

variable {σ : Type}

/-- When the register is refused by a setter, the setter has stored nothing itself. -/
def RefusalStoresNothing (regList : List (ModbusReg σ)) (x : Nat) : Prop :=
  ∀ reg, regAt regList x = some reg → ∀ setter, reg.set = some setter → ∀ p start len s r s',
    setter p start len s = (r, s') → r ≠ 0 → s' = s

variable {regList : List (ModbusReg σ)} {cell : ModbusReg σ → σ → List UInt8} {a n k : Nat}
  {s s' : σ} {buf : List UInt8}

theorem Refused.eq (hs : RefusalStoresNothing regList (a + k)) (h : Refused regList a n buf k s s') :
    s' = s := by
  unfold Refused at h
  split at h
  · exact h
  · next reg hr =>
    split at h
    · exact h
    · next setter hset =>
      obtain ⟨r, hr0, hcall⟩ := h
      exact hs reg hr setter hset _ _ _ _ _ _ hcall hr0

/-- Nothing has run before the first register. -/
theorem Applied.eq_of_zero (h : Applied regList a n buf s k s') (hk : k = 0) : s' = s := by
  cases h with
  | nil => rfl
  | @snoc k s₁ s₂ reg setter h hlt hr hset hs =>
    have := (maps_of_regAt hr).len_pos (n - k) (by omega)
    omega

/-- A run of setters leaves the registers outside its range alone. -/
theorem Applied.regFile_outside (hb : Stored regList cell) (hd : DisjointRanges regList)
    (hlen : 2 * n ≤ buf.length) (h : Applied regList a n buf s k s') {x : Nat}
    (hx : ¬ (a ≤ x ∧ x < a + k)) : regFile regList cell s' x = regFile regList cell s x := by
  rw [h.regFile_eq hb hd hlen]
  simp only [if_neg hx]
  rfl

theorem length_swapBytes : ∀ (k : Nat) (bs : List UInt8), (swapBytes k bs).length = bs.length
  | 0, _ => rfl
  | _ + 1, [] => rfl
  | _ + 1, [_] => rfl
  | k + 1, _ :: _ :: bs => by
    simp only [swapBytes, List.length_cons, length_swapBytes k bs]

/-- A write-multiple request that is answered with `MB_EX_ILLEGAL_DATA_ADDRESS` got there through
`eMBRegHoldingCB`. -/
theorem eMBRegHoldingCB_of_illegalDataAddress {pucFrame : List UInt8} {usLen l : UInt16}
    (h : eMBFuncWriteMultipleHoldingRegister regList pucFrame usLen s =
      .done (.illegalDataAddress, l) s') :
    eMBRegHoldingCB regList (pucFrame.drop 6) (frameWord pucFrame 1 + 1) (frameWord pucFrame 3)
      .write s = .fail .enoreg s' := by
  unfold eMBFuncWriteMultipleHoldingRegister at h
  split at h
  · dsimp only at h
    split at h
    · obtain ⟨r, t, hr, h⟩ := bind_eq_done h
      unfold attempt at hr
      split at hr
      · cases hr; cases h
      · next e t' hm =>
        cases hr
        cases e <;> cases h
        exact hm
      · cases hr
    · cases h
  · cases h

/-- A write-multiple request that is refused with `MB_ENOREG` has been carried out up to the first
register that is refused, and not further: the setters of the entries before it have run, in
order, each once, and no register from there on or outside the request has changed, unless the setter
that refuses its part stores something itself. -/
theorem refused_write_applied {pucFrame : List UInt8} {usLen l : UInt16}
    (h : eMBFuncWriteMultipleHoldingRegister regList pucFrame usLen s =
      .done (.illegalDataAddress, l) s') :
    let a := (frameWord pucFrame 1).toNat
    let n := (frameWord pucFrame 3).toNat
    let buf := swapBytes n (pucFrame.drop 6)
    ∃ k < n, ∃ t, Applied regList a n buf s k t ∧ Refused regList a n buf k t s' ∧
      (RefusalStoresNothing regList (a + k) → s' = t) ∧ (k = 0 → t = s) ∧
      ∀ cell, Stored regList cell → DisjointRanges regList → 2 * n ≤ (pucFrame.drop 6).length →
        ∀ x, ¬ (a ≤ x ∧ x < a + k) → regFile regList cell t x = regFile regList cell s x := by
  have hfail := eMBRegHoldingCB_of_illegalDataAddress h
  rw [eMBRegHoldingCB_write] at hfail
  have hmeets := eMbregSet_meets regList (frameWord pucFrame 1).toNat (frameWord pucFrame 3).toNat
    (pucFrame.drop 6) s
  obtain ⟨-, k, hk, t, happ, href⟩ := hmeets.fail hfail
  exact ⟨k, hk, t, happ, href, href.eq, happ.eq_of_zero, fun cell hb hd hlen x hx =>
    happ.regFile_outside hb hd (by rw [length_swapBytes]; exact hlen) hx⟩

/-! ## An entry with a setter before one without -/

/-- The register 0x10 can be written, the register 0x11 cannot. -/
def readOnlySecond : List (ModbusReg UInt16) :=
  [⟨0x10, 1, some fun s => (some ⟨host [s], fun _ => 0⟩, s), some (setOne fun v _ => v)⟩,
   ⟨0x11, 1, some fun s => (some ⟨host [0], fun _ => 0⟩, s), none⟩]

theorem refusalStoresNothing_readOnlySecond (x : Nat) : RefusalStoresNothing readOnlySecond x := by
  intro reg hreg setter hset p start len s r s' hcall hr
  have hm := mem_of_regAt hreg
  simp only [readOnlySecond, List.mem_cons, List.not_mem_nil, or_false] at hm
  rcases hm with rfl | rfl
  · cases hset
    unfold setOne at hcall
    split at hcall <;> cases hcall
    · exact absurd rfl hr
    · rfl
  · cases hset

/-- The storage of the two entries. -/
def readOnlySecondCells (reg : ModbusReg UInt16) (s : UInt16) : List UInt8 :=
  if reg.regStart = 0x10 then host [s] else host [0]

theorem disjoint_readOnlySecond : DisjointRanges readOnlySecond := by
  simp only [DisjointRanges, readOnlySecond, List.pairwise_cons, List.mem_singleton, forall_eq,
    List.not_mem_nil, false_imp_iff, implies_true, List.Pairwise.nil, and_true, ModbusReg.Maps]
  intro x hx hx'
  simp at hx hx'
  omega

theorem stored_readOnlySecond : Stored readOnlySecond readOnlySecondCells where
  length := by
    intro reg hm s
    simp only [readOnlySecond, List.mem_cons, List.not_mem_nil, or_false] at hm
    rcases hm with rfl | rfl <;> rfl
  set := by
    intro reg hm setter hset p start len s s' hs hlen hend
    simp only [readOnlySecond, List.mem_cons, List.not_mem_nil, or_false] at hm ⊢
    rcases hm with rfl | rfl
    · cases hset
      obtain ⟨rfl, rfl, rfl⟩ := setOne_eq hs
      refine ⟨(overwrite_two rfl hlen).symm, ?_⟩
      rintro r (rfl | rfl) hne
      · exact absurd rfl hne
      · rfl
    · cases hset

/-- The request to write 1 and 2 to the registers 0x10 and 0x11. -/
def writeBoth : List UInt8 := [0x10, 0x00, 0x10, 0x00, 0x02, 0x04, 0x00, 0x01, 0x00, 0x02]

/-- The request is refused, and the first register has changed from 0 to 1. -/
theorem refused_write_changes :
    (∀ x, RefusalStoresNothing readOnlySecond x) ∧
      eMBFuncWriteMultipleHoldingRegister readOnlySecond writeBoth 10 0 =
        .done (.illegalDataAddress, 10) 1 ∧ (1 : UInt16) ≠ 0 :=
  ⟨refusalStoresNothing_readOnlySecond, rfl, by decide⟩

theorem refused_write_applied_readOnlySecond :
    ∃ k < 2, Applied readOnlySecond 0x10 2 (swapBytes 2 (writeBoth.drop 6)) 0 k 1 ∧
      Refused readOnlySecond 0x10 2 (swapBytes 2 (writeBoth.drop 6)) k 1 1 ∧
      ∀ x, ¬ (0x10 ≤ x ∧ x < 0x10 + k) → regFile readOnlySecond readOnlySecondCells 1 x =
        regFile readOnlySecond readOnlySecondCells 0 x := by
  have h : eMBFuncWriteMultipleHoldingRegister readOnlySecond writeBoth 10 0 =
      .done (.illegalDataAddress, 10) 1 := rfl
  obtain ⟨k, hk, t, happ, href, heq, -, hkeep⟩ := refused_write_applied h
  obtain rfl := heq (refusalStoresNothing_readOnlySecond _)
  exact ⟨k, hk, happ, href, hkeep readOnlySecondCells stored_readOnlySecond disjoint_readOnlySecond
    (by decide)⟩

end McuUtilities.Modbus
