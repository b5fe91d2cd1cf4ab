import McuUtilities.Modbus.Setters

/-!
# Reading back what was written

A write that `eMBRegHoldingCB` accepts, and the reads that follow it.
-/

namespace McuUtilities.Modbus
open Prog

variable {σ : Type}

/-- The answer of `eMBRegHoldingCB` in read mode. -/
def answer (regList : List (ModbusReg σ)) (buf : List UInt8) (usAddress usNRegs : UInt16) (s : σ) :
    Option (Except MbErrorCode (List UInt8)) :=
  match eMBRegHoldingCB regList buf usAddress usNRegs .read s with
  | .done out _ => some (.ok out)
  | .fail e _ => some (.error e)
  | .halt _ _ => none

/-- After the write of `vs` at the address `a` took `s` to `s'`, reading the same registers gives
`vs`, and reading any others gives what it gave before. -/
structure ReadsBack (regList : List (ModbusReg σ)) (a n : UInt16) (vs : List UInt16) (s s' : σ) :
    Prop where
  inside : ∀ buf, buf.length = 2 * n.toNat →
    answer regList buf (a + 1) n s' = some (.ok (wire vs))
  outside : ∀ (x m : UInt16) buf, buf.length = 2 * m.toNat →
    x.toNat + m.toNat ≤ a.toNat ∨ a.toNat + n.toNat ≤ x.toNat →
    answer regList buf (x + 1) m s' = answer regList buf (x + 1) m s

variable {regList : List (ModbusReg σ)} {cell : ModbusReg σ → σ → List UInt8}
  {a n : UInt16} {s s' : σ} {buf : List UInt8} {vs : List UInt16}

theorem eMBRegHoldingCB_read : eMBRegHoldingCB regList buf (a + 1) n .read =
    eMbregGet a.toNat n.toNat regList buf := by
  have : a + 1 - 1 = a := UInt16.add_sub_cancel a 1
  simp only [eMBRegHoldingCB, this]

theorem eMBRegHoldingCB_write : eMBRegHoldingCB regList buf (a + 1) n .write =
    eMbregSet a.toNat n.toNat regList buf := by
  have : a + 1 - 1 = a := UInt16.add_sub_cancel a 1
  simp only [eMBRegHoldingCB, this]

section storage
variable (hb : Backed regList cell) (hd : DisjointRanges regList)
include hb hd

/-- The answer to a read is in the register file. -/
theorem answer_eq (hbuf : buf.length = 2 * n.toNat) :
    (∃ vs, vs.length = n.toNat ∧ Holds (regFile regList cell s) a.toNat vs ∧
      answer regList buf (a + 1) n s = some (.ok (wire vs))) ∨
    (∃ i < n.toNat, regFile regList cell s (a.toNat + i) = none) ∧
      answer regList buf (a + 1) n s = some (.error .enoreg) := by
  have h := eMbregGet_meets hb hd (a := a.toNat) (s := s) hbuf
  rw [← eMBRegHoldingCB_read] at h
  unfold answer
  rcases h.ends with ⟨out, t, hm⟩ | ⟨e, t, hm⟩
  · obtain ⟨-, vs, hlen, hvs, rfl⟩ := h.done hm
    exact .inl ⟨vs, hlen, hvs, by rw [hm]⟩
  · obtain ⟨rfl, hi⟩ := h.fail hm
    exact .inr ⟨hi, by rw [hm]⟩

/-- Registers with the same values are read alike. -/
theorem answer_congr (hbuf : buf.length = 2 * n.toNat)
    (h : ∀ i < n.toNat, regFile regList cell s (a.toNat + i) =
      regFile regList cell s' (a.toNat + i)) :
    answer regList buf (a + 1) n s = answer regList buf (a + 1) n s' := by
  rcases answer_eq hb hd (a := a) (s := s) hbuf with ⟨vs, hl, hvs, he⟩ | ⟨⟨i, hi, hn⟩, he⟩ <;>
    rcases answer_eq hb hd (a := a) (s := s') hbuf with ⟨ws, hl', hws, he'⟩ | ⟨⟨j, hj, hn'⟩, he'⟩
  · have := (hvs.congr fun i hi => h i (hl ▸ hi)).unique hws (hl.trans hl'.symm)
    rw [he, he', this]
  · have := hvs j (hl ▸ hj)
    rw [h j hj, hn'] at this
    cases this
  · have := hws i (hl' ▸ hi)
    rw [← h i hi, hn] at this
    cases this
  · rw [he, he']

/-- A read gives `vs` exactly when the registers hold them. -/
theorem answer_eq_ok (hbuf : buf.length = 2 * n.toNat) (hlen : vs.length = n.toNat) :
    answer regList buf (a + 1) n s = some (.ok (wire vs)) ↔
      Holds (regFile regList cell s) a.toNat vs := by
  rcases answer_eq hb hd (a := a) (s := s) hbuf with ⟨ws, hl, hws, he⟩ | ⟨⟨i, hi, hn⟩, he⟩
  · constructor
    · intro h
      rw [he] at h
      rwa [← wire_injective (Except.ok.inj (Option.some.inj h))]
    · intro h
      rw [he, hws.unique h (hl.trans hlen.symm)]
  · constructor
    · intro h
      rw [he] at h
      cases h
    · intro h
      have := h i (hlen ▸ hi)
      rw [hn] at this
      cases this

/-- What an accepted write leaves in the registers. -/
theorem regFile_of_write {rest buf' : List UInt8} (hlen : vs.length = n.toNat)
    (h : eMBRegHoldingCB regList (wire vs ++ rest) (a + 1) n .write s = .done buf' s') :
    Applied regList a.toNat n.toNat (host vs ++ rest) s n.toNat s' ∧
      ∀ x, regFile regList cell s' x = (regAt regList x).map fun reg =>
        if a.toNat ≤ x ∧ x < a.toNat + n.toNat then
          word (host vs ++ rest) (x - max a.toNat reg.regStart.toNat)
        else word (cell reg s) (x - reg.regStart.toNat) := by
  rw [eMBRegHoldingCB_write] at h
  have happ := (eMbregSet_meets _ _ _ _ _).done h
  rw [← hlen, swapBytes_wire, hlen] at happ
  exact ⟨happ, happ.regFile_eq hb.toStored hd (by simp; omega)⟩

/-- An accepted write is read back, and leaves the other registers alone, exactly when each value
is also the one at the place from which the setter of its entry takes it: as far from the start of
the request as the register is from the start of its entry, or from the start of the request when
the request starts inside the entry. -/
theorem readsBack_iff {rest buf' : List UInt8} (hlen : vs.length = n.toNat)
    (h : eMBRegHoldingCB regList (wire vs ++ rest) (a + 1) n .write s = .done buf' s') :
    ReadsBack regList a n vs s s' ↔
      ∀ i < n.toNat, ∀ reg, regAt regList (a.toNat + i) = some reg →
        vs[i]? = vs[a.toNat + i - max a.toNat reg.regStart.toNat]? := by
  obtain ⟨happ, hfile⟩ := regFile_of_write hb hd hlen h
  have hin : ∀ i, (hi : i < n.toNat) → ∀ reg, regAt regList (a.toNat + i) = some reg →
      ∃ hj : a.toNat + i - max a.toNat reg.regStart.toNat < vs.length,
        regFile regList cell s' (a.toNat + i) =
          some (vs[a.toNat + i - max a.toNat reg.regStart.toNat]) := by
    intro i hi reg hr
    have hj : a.toNat + i - max a.toNat reg.regStart.toNat < vs.length := by omega
    refine ⟨hj, ?_⟩
    rw [hfile, hr, Option.map_some, if_pos (by omega), word_host hj]
  have hout : ∀ x, ¬ (a.toNat ≤ x ∧ x < a.toNat + n.toNat) →
      regFile regList cell s' x = regFile regList cell s x := by
    intro x hx
    rw [hfile]
    simp only [if_neg hx]
    rfl
  constructor
  · intro hrb i hi reg hr
    have hholds := (answer_eq_ok hb hd (by simp) hlen).mp
      (hrb.inside (List.replicate (2 * n.toNat) 0) (by simp))
    obtain ⟨hj, hval⟩ := hin i hi reg hr
    have := hholds i (hlen ▸ hi)
    rw [hval] at this
    rw [List.getElem?_eq_getElem (hlen ▸ hi), List.getElem?_eq_getElem hj, this]
  · intro hcond
    refine ⟨fun buf hbuf => (answer_eq_ok hb hd hbuf hlen).mpr fun i hi => ?_,
      fun x m buf hbuf hdisj => answer_congr hb hd hbuf fun i hi => hout _ (by omega)⟩
    obtain ⟨reg, hr⟩ := happ.mapped hd (hlen ▸ hi)
    obtain ⟨hj, hval⟩ := hin i (hlen ▸ hi) reg hr
    have := hcond i (hlen ▸ hi) reg hr
    rw [List.getElem?_eq_getElem hi, List.getElem?_eq_getElem hj] at this
    rw [hval, this]

end storage

/-! ## Two adjacent entries -/

/-- A setter for one register: it accepts that register only. -/
def setOne (put : UInt16 → σ → σ) (setVal : List UInt8) (start len : Nat) (s : σ) : Int × σ :=
  if start = 0 ∧ len = 2 then (0, put (word setVal 0) s) else (1, s)

/-- The registers 0x10 and 0x11, an entry each. -/
def twoEntries : List (ModbusReg (UInt16 × UInt16)) :=
  [⟨0x10, 1, some fun s => (some ⟨host [s.1], fun _ => 0⟩, s), some (setOne fun v s => (v, s.2))⟩,
   ⟨0x11, 1, some fun s => (some ⟨host [s.2], fun _ => 0⟩, s), some (setOne fun v s => (s.1, v))⟩]

/-- The storage of the two entries. -/
def twoCells (reg : ModbusReg (UInt16 × UInt16)) (s : UInt16 × UInt16) : List UInt8 :=
  if reg.regStart = 0x10 then host [s.1] else host [s.2]

theorem disjoint_twoEntries : DisjointRanges twoEntries := by
  simp only [DisjointRanges, twoEntries, List.pairwise_cons, List.mem_singleton, forall_eq,
    List.not_mem_nil, false_imp_iff, implies_true, List.Pairwise.nil, and_true, ModbusReg.Maps]
  intro x hx hx'
  simp at hx hx'
  omega

theorem setOne_eq {put : UInt16 → σ → σ} {p : List UInt8} {start len : Nat}
    (h : setOne put p start len s = (0, s')) : start = 0 ∧ len = 2 ∧ s' = put (word p 0) s := by
  unfold setOne at h
  split at h
  · next hc => cases h; exact ⟨hc.1, hc.2, rfl⟩
  · cases h

theorem overwrite_two {bs p : List UInt8} (hbs : bs.length = 2) (hp : 2 ≤ p.length) :
    overwrite bs 0 (p.take 2) = host [word p 0] := by
  match p, hp with
  | x :: y :: p, _ => simp [overwrite, host, word, hbs]

theorem backed_twoEntries : Backed twoEntries twoCells where
  length := by
    intro reg hm s
    simp only [twoEntries, List.mem_cons, List.not_mem_nil, or_false] at hm
    rcases hm with rfl | rfl <;> rfl
  get := by
    intro reg hm
    simp only [twoEntries, List.mem_cons, List.not_mem_nil, or_false] at hm
    rcases hm with rfl | rfl
    · exact ⟨_, rfl, fun s => ⟨⟨_, rfl⟩, fun _ _ => rfl⟩⟩
    · exact ⟨_, rfl, fun s => ⟨⟨_, rfl⟩, fun _ _ => rfl⟩⟩
  set := by
    intro reg hm setter hset p start len s s' hs hlen hend
    simp only [twoEntries, List.mem_cons, List.not_mem_nil, or_false] at hm ⊢
    rcases hm with rfl | rfl
    · cases hset
      obtain ⟨rfl, rfl, rfl⟩ := setOne_eq hs
      refine ⟨(overwrite_two rfl hlen).symm, ?_⟩
      rintro r (rfl | rfl) hne
      · exact absurd rfl hne
      · rfl
    · cases hset
      obtain ⟨rfl, rfl, rfl⟩ := setOne_eq hs
      refine ⟨(overwrite_two rfl hlen).symm, ?_⟩
      rintro r (rfl | rfl) hne
      · rfl
      · exact absurd rfl hne

/-- The write of 1 and 2 to two adjacent entries is accepted; both registers then read 1. -/
theorem readAfterWrite_twoEntries :
    DisjointRanges twoEntries ∧ Backed twoEntries twoCells ∧
      eMBRegHoldingCB twoEntries (wire [1, 2]) (0x10 + 1) 2 .write (0, 0) =
        .done (host [1, 2]) (1, 1) ∧
      ¬ ReadsBack twoEntries 0x10 2 [1, 2] (0, 0) (1, 1) := by
  refine ⟨disjoint_twoEntries, backed_twoEntries, rfl, fun h => ?_⟩
  have h1 := h.inside [0, 0, 0, 0] rfl
  have h2 : answer twoEntries [0, 0, 0, 0] (0x10 + 1) 2 (1, 1) = some (.ok (wire [1, 1])) := rfl
  rw [h2] at h1
  have := wire_injective (Except.ok.inj (Option.some.inj h1))
  exact absurd this (by decide)

theorem write_twoEntries : eMBRegHoldingCB twoEntries (wire [7, 7] ++ []) (0x10 + 1) 2 .write (0, 0) =
    .done (host [7, 7]) (7, 7) := rfl

/-- The same write with equal values is read back. -/
theorem readsBack_twoEntries : ReadsBack twoEntries 0x10 2 [7, 7] (0, 0) (7, 7) := by
  refine (readsBack_iff backed_twoEntries disjoint_twoEntries rfl write_twoEntries).mpr ?_
  intro i hi reg hr
  have hi' : i < 2 := hi
  have hsame : ∀ i < 2, ∀ j < 2, ([7, 7] : List UInt16)[i]? = [7, 7][j]? := by decide
  exact hsame i hi' _ (by omega)

end McuUtilities.Modbus
