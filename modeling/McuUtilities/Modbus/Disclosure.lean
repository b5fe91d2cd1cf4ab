import Mathlib.Data.List.Forall2
import McuUtilities.Modbus.InputRegs
import McuUtilities.Modbus.Reads

/-!
# What a read of the input registers discloses

The ranges of `modebusReadRegList` and the structures behind them are written by hand in two files
(`entries` puts them side by side). Most of the ranges end with their structure; three of them go
on behind it. A read stays in the structures exactly when none of its registers lies past the end of
its structure (`ownBytes_iff`).
-/

namespace McuUtilities.Modbus
open Prog

/-- The bytes of the response are those of the buffers that the getters of the entries that map the
registers returned: the high byte of each register, then the low one. -/
def OwnBytes {σ : Type} (regList : List (ModbusReg σ)) (a n : Nat) (s : σ) (out : List UInt8) :
    Prop :=
  ∀ j < n, ∃ reg p, ReadFrom regList a n s (a + j) reg p ∧
    ∃ h : 2 * (a + j - reg.regStart.toNat) + 1 < p.object.length,
      out[2 * j]? = some p.object[2 * (a + j - reg.regStart.toNat) + 1] ∧
      out[2 * j + 1]? = some p.object[2 * (a + j - reg.regStart.toNat)]

theorem getElem?_wire (vs : List UInt16) (rest : List UInt8) {j : Nat} (hj : j < vs.length) :
    (wire vs ++ rest)[2 * j]? = some (hi vs[j]) ∧
      (wire vs ++ rest)[2 * j + 1]? = some (lo vs[j]) := by
  induction vs generalizing j with
  | nil => cases hj
  | cons v vs ih =>
    cases j with
    | zero => exact ⟨rfl, rfl⟩
    | succ j =>
      have h := ih (Nat.lt_of_succ_lt_succ hj)
      simpa [Nat.mul_succ] using h

/-- Over words that lie in the buffers a response is made of their bytes. -/
theorem Fetched.ownBytes {σ : Type} {regList : List (ModbusReg σ)} {a : Nat} {s : σ}
    {vs : List UInt16} (h : Fetched regList a vs.length s vs) (rest : List UInt8)
    (hin : ∀ j < vs.length, ∀ reg p, ReadFrom regList a vs.length s (a + j) reg p →
      2 * (a + j - reg.regStart.toNat) + 1 < p.object.length) :
    OwnBytes regList a vs.length s (wire vs ++ rest) := by
  intro j hj
  obtain ⟨reg, p, hread, hword⟩ := h j hj
  have hlt := hin j hj reg p hread
  have hlt' : 2 * (a + j - reg.regStart.toNat) < p.object.length := by omega
  obtain ⟨hhi, hlo⟩ := getElem?_wire vs rest hj
  rw [hword, Pointer.valueAt_object hlt] at hhi hlo
  refine ⟨reg, p, hread, hlt, ?_, ?_⟩
  · rw [hhi]
    simp [word, List.getD_eq_getElem?_getD, hlt, hlt']
  · rw [hlo]
    simp [word, List.getD_eq_getElem?_getD, hlt, hlt']

/-! ## The entries -/

/-- An entry of the table: its registers, and where its getter points to. -/
structure Entry where
  first : Nat
  last : Nat
  object : InputObject
  off : Nat
deriving DecidableEq

def entries : List Entry :=
  [⟨0x1000, 0x1000, .example, 0⟩, ⟨0x3002, 0x3005, .thtb, 0⟩, ⟨0x3015, 0x3018, .touchEdge, 0⟩,
   ⟨0x3020, 0x302C, .batttery, 0⟩, ⟨0x30A0, 0x30A0, .modNvgUpdown, 0⟩,
   ⟨0x30EC, 0x30FE, .usound, 0⟩, ⟨0x3130, 0x3133, .luna, 0⟩, ⟨0x3140, 0x3148, .robotSta, 0⟩,
   ⟨0x3200, 0x320D, .motorDriveParas, 0⟩, ⟨0x3300, 0x3307, .version, 0⟩,
   ⟨0x3308, 0x3326, .version, ModbusRegVersion.dateOffset⟩, ⟨0x3400, 0x3405, .rtcTime, 0⟩,
   ⟨0x3500, 0x3501, .perpSta, 0⟩]

section entries
variable {B : BitTypes} {past : InputObject → Device B → Nat → UInt8} {e : Entry}
  {reg : ModbusReg (Device B)} {x : Nat}

/-- The register `reg` of the table is the entry `e`. -/
structure Entry.Describes (past : InputObject → Device B → Nat → UInt8) (e : Entry)
    (reg : ModbusReg (Device B)) : Prop where
  first : reg.regStart.toNat = e.first
  last : reg.regStart.toNat + reg.u16len.toNat = e.last + 1
  get : ∃ getter, reg.get = some getter ∧
    ∀ d, (getter d).1 = some (pointTo past (getter d).2 e.object e.off)

theorem describes_entries : List.Forall₂ (fun e reg => e.Describes past reg) entries
    (modebusReadRegList past) := by
  unfold entries modebusReadRegList
  repeat refine .cons ⟨rfl, rfl, _, rfl, fun _ => rfl⟩ ?_
  exact .nil

theorem Entry.Describes.maps (h : e.Describes past reg) :
    reg.Maps x ↔ e.first ≤ x ∧ x ≤ e.last := by
  have h1 := h.first
  have h2 := h.last
  unfold ModbusReg.Maps
  omega

theorem exists_describes {es : List Entry} {regs : List (ModbusReg (Device B))}
    (h : List.Forall₂ (fun e reg => e.Describes past reg) es regs) (hm : reg ∈ regs) :
    ∃ e ∈ es, e.Describes past reg := by
  induction h with
  | nil => cases hm
  | @cons e r es regs hr _ ih =>
    rcases List.mem_cons.mp hm with rfl | hm
    · exact ⟨e, List.mem_cons_self, hr⟩
    · obtain ⟨e', he', hd⟩ := ih hm
      exact ⟨e', List.mem_cons_of_mem _ he', hd⟩

/-- Entries in ascending order are disjoint. -/
theorem disjointRanges_of_describes {es : List Entry} {regs : List (ModbusReg (Device B))}
    (h : List.Forall₂ (fun e reg => e.Describes past reg) es regs)
    (hp : es.Pairwise fun e e' => e.last < e'.first) : DisjointRanges regs := by
  induction h with
  | nil => exact .nil
  | @cons e r es regs hr hrs ih =>
    obtain ⟨h1, h2⟩ := List.pairwise_cons.mp hp
    refine List.pairwise_cons.mpr ⟨fun r' hm x hx hx' => ?_, ih h2⟩
    obtain ⟨e', he', hd⟩ := exists_describes hrs hm
    have hlt := h1 e' he'
    have hxe := hr.maps.mp hx
    have hxe' := hd.maps.mp hx'
    omega

theorem disjoint_modebusReadRegList : DisjointRanges (modebusReadRegList past) :=
  disjointRanges_of_describes describes_entries (by decide)

/-- The registers that are mapped but lie past the end of their structure. -/
def PastObject (B : BitTypes) (x : Nat) : Prop :=
  0x30F9 ≤ x ∧ x ≤ 0x30FE ∨ x = 0x3133 ∨ 0x331B ≤ x ∧ x ≤ 0x3326 ∨
    0x3020 ≤ x ∧ x ≤ 0x302C ∧ 22 + B.staProtectBits + B.staWarmingBits < 2 * (x - 0x3020 + 1) ∨
    0x3140 ≤ x ∧ x ≤ 0x3148 ∧ 14 + 2 * B.motorErrorBits < 2 * (x - 0x3140 + 1)

theorem pastObject_iff : PastObject B x ↔ ∃ e ∈ entries, e.first ≤ x ∧ x ≤ e.last ∧
    e.object.size B - e.off < 2 * (x - e.first + 1) := by
  constructor
  · rintro (h | h | h | h | h)
    · refine ⟨⟨0x30EC, 0x30FE, .usound, 0⟩, by decide, ?_⟩
      dsimp only [InputObject.size]
      omega
    · refine ⟨⟨0x3130, 0x3133, .luna, 0⟩, by decide, ?_⟩
      dsimp only [InputObject.size]
      omega
    · refine ⟨⟨0x3308, 0x3326, .version, ModbusRegVersion.dateOffset⟩, by decide, ?_⟩
      dsimp only [InputObject.size, ModbusRegVersion.dateOffset]
      omega
    · exact ⟨⟨0x3020, 0x302C, .batttery, 0⟩, by decide, h⟩
    · exact ⟨⟨0x3140, 0x3148, .robotSta, 0⟩, by decide, h⟩
  · rintro ⟨e, he, h1, h2, h3⟩
    simp only [entries, List.mem_cons, List.not_mem_nil, or_false] at he
    unfold PastObject
    rcases he with rfl | rfl | rfl | rfl | rfl | rfl | rfl | rfl | rfl | rfl | rfl | rfl | rfl
    all_goals
      simp only [InputObject.size, ModbusRegVersion.dateOffset] at h1 h2 h3
      omega

/-- A register lies in one entry. -/
theorem entry_unique {e' : Entry} (he : e ∈ entries) (he' : e' ∈ entries)
    (hx : e.first ≤ x ∧ x ≤ e.last) (hx' : e'.first ≤ x ∧ x ≤ e'.last) : e = e' := by
  have hall : ∀ e ∈ entries, ∀ e' ∈ entries, e = e' ∨ e.last < e'.first ∨ e'.last < e.first := by
    decide
  rcases hall e he e' he' with h | h | h
  · exact h
  · omega
  · omega

/-- What a register is read from is an object of the device, from the getter's pointer on. -/
theorem ReadFrom.length_object {a n : Nat} {d : Device B} {p : Pointer}
    (h : ReadFrom (modebusReadRegList past) a n d x reg p) :
    ∃ e ∈ entries, e.Describes past reg ∧ p.object.length = e.object.size B - e.off := by
  obtain ⟨t, getter, hcall, hget, hp⟩ := h.called
  have hm := (getterCalls_forall (J := fun _ => True) (fun _ _ _ _ _ _ => trivial) trivial _
    hcall).1
  obtain ⟨e, he, hd⟩ := exists_describes describes_entries hm
  obtain ⟨getter', hget', hpoint⟩ := hd.get
  obtain rfl := Option.some.inj (hget.symm.trans hget')
  obtain rfl := Option.some.inj (hp.symm.trans (hpoint t))
  exact ⟨e, he, hd, length_pointTo past _ e.object e.off⟩

end entries

/-! ## A read of the input registers -/

section read
variable {B : BitTypes} {past : InputObject → Device B → Nat → UInt8} {d d' : Device B}
  {pucRegBuffer out : List UInt8} {usAddress usNRegs : UInt16}

/-- A register past the end of its structure is not read out of it. -/
theorem not_ownBytes {a n j : Nat} (hj : j < n) (hpast : PastObject B (a + j)) :
    ¬ OwnBytes (modebusReadRegList past) a n d out := by
  intro hown
  obtain ⟨reg, p, hread, hlt, -⟩ := hown j hj
  obtain ⟨e, he, hd, hlen⟩ := hread.length_object
  obtain ⟨e', he', h1, h2, hend⟩ := pastObject_iff.mp hpast
  obtain rfl := entry_unique he he' (hd.maps.mp hread.maps) ⟨h1, h2⟩
  have := hd.first
  omega

/-- A read that `eMBRegInputCB` answers is made of bytes of the structures exactly when it asks for
no register past the end of its structure. -/
theorem ownBytes_iff (hrun : eMBRegInputCB past pucRegBuffer usAddress usNRegs d = .done out d') :
    OwnBytes (modebusReadRegList past) (usAddress - 1).toNat usNRegs.toNat d out ↔
      ∀ j < usNRegs.toNat, ¬ PastObject B ((usAddress - 1).toNat + j) := by
  obtain ⟨-, -, vs, hlen, rfl, hvs⟩ := (eMbregGet_fetches (J := fun _ => True)
    disjoint_modebusReadRegList (fun _ _ _ _ _ _ => trivial) trivial).done hrun
  generalize (usAddress - 1).toNat = a at *
  generalize usNRegs.toNat = n at *
  subst hlen
  refine ⟨fun hown j hj hpast => not_ownBytes hj hpast hown, fun hin => ?_⟩
  refine hvs.ownBytes _ fun j hj reg p hread => ?_
  obtain ⟨e, he, hd, hlen⟩ := hread.length_object
  obtain ⟨h1, h2⟩ := hd.maps.mp hread.maps
  have hnot : ¬ e.object.size B - e.off < 2 * (a + j - e.first + 1) := fun hend =>
    hin j hj (pastObject_iff.mpr ⟨e, he, h1, h2, hend⟩)
  rw [hlen, hd.first]
  omega

end read

/-- Bit fields of two bytes each. -/
def twoByteTypes : BitTypes := ⟨2, 2, 2, fun bits _ _ => bits⟩

/-- A memory that holds `0xAA` behind every structure. -/
def pastAA : InputObject → Device twoByteTypes → Nat → UInt8 := fun _ _ _ => 0xAA

/-- The registers of the laser sensor's structure are read out of it. -/
theorem ownBytes_luna : OwnBytes (modebusReadRegList pastAA) 0x3130 3 default [0, 0, 0, 0, 0, 0] := by
  have hrun : eMBRegInputCB pastAA [9, 9, 9, 9, 9, 9] 0x3131 3 default =
    .done [0, 0, 0, 0, 0, 0] (modbusInputRegLunaRead pastAA default).2 := rfl
  refine (ownBytes_iff hrun).mpr fun j hj => ?_
  have hj' : j < 3 := hj
  have ha : ((0x3131 : UInt16) - 1).toNat = 0x3130 := rfl
  rw [ha, PastObject]
  omega

/-- The fourth register of its entry is answered with what lies behind the structure. -/
theorem foreignBytes_luna :
    eMBRegInputCB pastAA [0, 0] 0x3134 1 default =
        .done [0xAA, 0xAA] (modbusInputRegLunaRead pastAA default).2 ∧
      ¬ OwnBytes (modebusReadRegList pastAA) 0x3133 1 default [0xAA, 0xAA] :=
  ⟨rfl, not_ownBytes Nat.one_pos (.inr (.inl rfl))⟩

end McuUtilities.Modbus
