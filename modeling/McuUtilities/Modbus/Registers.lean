import McuUtilities.Modbus.Reads

/-!
# Register tables as register files

A register file is the value behind each mapped address. A table whose entries map disjoint ranges
and are backed by storage presents the register file `regFile`; `eMbregGet` reads it
(`eMbregGet_meets`).
-/

namespace McuUtilities.Modbus
open Prog

variable {σ : Type}

/-- Each entry keeps its registers in `cell reg`: a setter that accepts stores its bytes there and leaves
the other entries alone. -/
structure Stored (regList : List (ModbusReg σ)) (cell : ModbusReg σ → σ → List UInt8) : Prop where
  length : ∀ reg ∈ regList, ∀ s, (cell reg s).length = 2 * reg.u16len.toNat
  set : ∀ reg ∈ regList, ∀ setter, reg.set = some setter → ∀ p start len s s',
    setter p start len s = (0, s') → len ≤ p.length → start + len ≤ 2 * reg.u16len.toNat →
      cell reg s' = overwrite (cell reg s) start (p.take len) ∧
      ∀ r ∈ regList, r ≠ reg → cell r s' = cell r s

/-- Each entry has a getter too, which shows its registers. -/
structure Backed (regList : List (ModbusReg σ)) (cell : ModbusReg σ → σ → List UInt8) : Prop
    extends Stored regList cell where
  get : ∀ reg ∈ regList, ∃ getter, reg.get = some getter ∧
    ∀ s, (∃ past, (getter s).1 = some ⟨cell reg s, past⟩) ∧
      ∀ r ∈ regList, cell r (getter s).2 = cell r s

/-- The value behind each mapped address. -/
def regFile (regList : List (ModbusReg σ)) (cell : ModbusReg σ → σ → List UInt8) (s : σ)
    (x : Nat) : Option UInt16 :=
  (regAt regList x).map fun reg => word (cell reg s) (x - reg.regStart.toNat)

/-- The register file `f` holds the values `vs` from address `a` on. -/
def Holds (f : Nat → Option UInt16) (a : Nat) (vs : List UInt16) : Prop :=
  ∀ i (h : i < vs.length), f (a + i) = some vs[i]

section holds
variable {f g : Nat → Option UInt16} {a : Nat} {vs ws : List UInt16}

theorem Holds.nil : Holds f a [] := fun _ h => by cases h

theorem Holds.append (h : Holds f a vs) (h' : Holds f (a + vs.length) ws) :
    Holds f a (vs ++ ws) := by
  intro i hi
  rw [List.getElem_append]
  split
  · next hlt => exact h i hlt
  · next hge =>
    have hi' : i - vs.length < ws.length := by simp only [List.length_append] at hi; omega
    rw [← h' (i - vs.length) hi']
    congr 1
    omega

theorem Holds.congr (h : Holds f a vs) (hfg : ∀ i, i < vs.length → f (a + i) = g (a + i)) :
    Holds g a vs := fun i hi => (hfg i hi).symm.trans (h i hi)

theorem Holds.unique (h : Holds f a vs) (h' : Holds f a ws) (hlen : vs.length = ws.length) :
    vs = ws := by
  apply List.ext_getElem hlen
  intro i h1 h2
  exact Option.some.inj ((h i h1).symm.trans (h' i h2))

end holds

section regFile
variable {regList : List (ModbusReg σ)} {reg : ModbusReg σ} {x : Nat}
  {cell : ModbusReg σ → σ → List UInt8} {s s' : σ}

theorem regFile_of_regAt (h : regAt regList x = some reg) :
    regFile regList cell s x = some (word (cell reg s) (x - reg.regStart.toNat)) := by
  rw [regFile, h, Option.map_some]

theorem regFile_eq_none : regFile regList cell s x = none ↔ regAt regList x = none :=
  Option.map_eq_none_iff

end regFile

/-! ## Reading -/

section read
variable {regList : List (ModbusReg σ)} {cell : ModbusReg σ → σ → List UInt8}
  (hb : Backed regList cell) (hd : DisjointRanges regList)
include hb

theorem Backed.sized : Sized regList := by
  intro reg hm getter hget s p hp
  obtain ⟨getter', hget', hspec⟩ := hb.get reg hm
  obtain rfl := Option.some.inj (hget.symm.trans hget')
  obtain ⟨past, hval⟩ := (hspec s).1
  obtain rfl := Option.some.inj (hp.symm.trans hval)
  exact hb.length reg hm s

include hd

/-- `eMbregGet` reads the register file: it returns the values of the request when all its
registers are mapped, and is refused otherwise. -/
theorem eMbregGet_meets {a n : Nat} {s : σ} {buf : List UInt8} (hbuf : buf.length = 2 * n) :
    Meets (eMbregGet a n regList buf) s
      (fun out s' => (∀ reg ∈ regList, cell reg s' = cell reg s) ∧
        ∃ vs, vs.length = n ∧ Holds (regFile regList cell s) a vs ∧ out = wire vs)
      (fun e _ => e = .enoreg ∧ ∃ i < n, regFile regList cell s (a + i) = none)
      (fun _ _ => False) := by
  have hkeep : ∀ reg ∈ regList, ∀ getter, reg.get = some getter → ∀ t,
      (∀ r ∈ regList, cell r t = cell r s) → ∀ r ∈ regList, cell r (getter t).2 = cell r s := by
    intro reg hm getter hget t ht r hr
    obtain ⟨getter', hget', hspec⟩ := hb.get reg hm
    obtain rfl := Option.some.inj (hget.symm.trans hget')
    exact ((hspec t).2 r hr).trans (ht r hr)
  refine (eMbregGet_reads hd hkeep hb.sized fun _ _ => rfl).mono ?_ ?_ fun _ _ h => h
  · rintro out t ⟨ht, -, vs, hlen, hout, hreads⟩
    refine ⟨ht, vs, hlen, fun i hi => ?_, ?_⟩
    · obtain ⟨reg, p, ⟨hx, t', getter, hcall, hget, hp⟩, hword⟩ := hreads i hi
      obtain ⟨hm, hcell⟩ := getterCalls_forall hkeep (fun _ _ => rfl) _ hcall
      obtain ⟨getter', hget', hspec⟩ := hb.get reg hm
      obtain rfl := Option.some.inj (hget.symm.trans hget')
      obtain ⟨past, hval⟩ := (hspec t').1
      obtain rfl := Option.some.inj (hp.symm.trans hval)
      rw [regFile_of_regAt (regAt_of_maps hd hm hx), hword, hcell reg hm]
    · rw [hout, List.drop_of_length_le (Nat.le_of_eq hbuf), List.append_nil]
  · rintro e t ⟨he, i, hi, hnot⟩
    refine ⟨he, i, hi, regFile_eq_none.mpr ?_⟩
    cases hreg : regAt regList (a + i) with
    | none => rfl
    | some reg =>
      have hm := mem_of_regAt hreg
      obtain ⟨getter, hget, hspec⟩ := hb.get reg hm
      refine absurd ⟨reg, hm, maps_of_regAt hreg, getter, hget, fun t' _ => ?_⟩ hnot
      obtain ⟨past, hval⟩ := (hspec t').1
      rw [hval]
      nofun

end read

end McuUtilities.Modbus
