import Mathlib.Data.List.Basic
import McuUtilities.Modbus.Api

/-!
# Register values in byte buffers

A register value is two bytes: the low one first in the storage of an entry (`host`), the high
one first on the wire (`wire`). `swapBytes` turns one into the other, `word` reads one register of
a storage.
-/

namespace McuUtilities.Modbus

/-- The low and the high byte of a register value. -/
def lo (v : UInt16) : UInt8 := UInt8.ofNat v.toNat
def hi (v : UInt16) : UInt8 := UInt8.ofNat (v.toNat / 256)

/-- The register value with the given bytes. -/
def ofBytes (l h : UInt8) : UInt16 := UInt16.ofNat (l.toNat + 256 * h.toNat)

@[simp] theorem ofBytes_lo_hi (v : UInt16) : ofBytes (lo v) (hi v) = v := by
  apply UInt16.toNat_inj.mp
  have := v.toNat_lt
  simp only [ofBytes, lo, hi, UInt16.toNat_ofNat', UInt8.toNat_ofNat']
  omega

@[simp] theorem lo_ofBytes (l h : UInt8) : lo (ofBytes l h) = l := by
  apply UInt8.toNat_inj.mp
  have := l.toNat_lt
  simp only [ofBytes, lo, UInt16.toNat_ofNat', UInt8.toNat_ofNat']
  omega

@[simp] theorem hi_ofBytes (l h : UInt8) : hi (ofBytes l h) = h := by
  apply UInt8.toNat_inj.mp
  have := l.toNat_lt
  have := h.toNat_lt
  simp only [ofBytes, hi, UInt16.toNat_ofNat', UInt8.toNat_ofNat']
  omega

/-- Register values as an entry stores them. -/
def host (vs : List UInt16) : List UInt8 := vs.flatMap fun v => [lo v, hi v]

/-- Register values as a frame carries them. -/
def wire (vs : List UInt16) : List UInt8 := vs.flatMap fun v => [hi v, lo v]

/-- The register value at index `i` of a storage. -/
def word (bs : List UInt8) (i : Nat) : UInt16 := ofBytes (bs.getD (2 * i) 0) (bs.getD (2 * i + 1) 0)

variable {vs ws : List UInt16} {bs rest : List UInt8} {i k : Nat}

@[simp] theorem host_cons {v : UInt16} : host (v :: vs) = lo v :: hi v :: host vs := rfl

@[simp] theorem wire_cons {v : UInt16} : wire (v :: vs) = hi v :: lo v :: wire vs := rfl

theorem host_append : host (vs ++ ws) = host vs ++ host ws := List.flatMap_append

@[simp] theorem length_host : (host vs).length = 2 * vs.length := by
  induction vs with
  | nil => rfl
  | cons v vs ih => simp only [host_cons, List.length_cons, ih]; omega

@[simp] theorem length_wire : (wire vs).length = 2 * vs.length := by
  induction vs with
  | nil => rfl
  | cons v vs ih => simp only [wire_cons, List.length_cons, ih]; omega

theorem swapBytes_wire : swapBytes vs.length (wire vs ++ rest) = host vs ++ rest := by
  induction vs with
  | nil => simp [swapBytes, wire, host]
  | cons v vs ih => simp [swapBytes, ih]

theorem swapBytes_host (vs : List UInt16) (rest : List UInt8) :
    swapBytes vs.length (host vs ++ rest) = wire vs ++ rest := by
  induction vs with
  | nil => simp [swapBytes, wire, host]
  | cons v vs ih => simp [swapBytes, ih]

theorem wire_injective (h : wire vs = wire ws) : vs = ws := by
  induction vs generalizing ws with
  | nil => cases ws with
    | nil => rfl
    | cons w ws => cases h
  | cons v vs ih => cases ws with
    | nil => cases h
    | cons w ws =>
      simp only [wire_cons, List.cons.injEq] at h
      rw [← ofBytes_lo_hi v, ← ofBytes_lo_hi w, h.1, h.2.1, ih h.2.2]

theorem word_host (h : i < vs.length) : word (host vs ++ rest) i = vs[i] := by
  induction vs generalizing i with
  | nil => cases h
  | cons v vs ih =>
    cases i with
    | zero => simp [word]
    | succ i =>
      have := ih (i := i) (Nat.lt_of_succ_lt_succ h)
      simpa [word, Nat.mul_succ] using this

theorem word_drop : word (bs.drop (2 * k)) i = word bs (k + i) := by
  have h1 : 2 * k + 2 * i = 2 * (k + i) := by omega
  have h2 : 2 * k + (2 * i + 1) = 2 * (k + i) + 1 := by omega
  simp [word, List.getD_eq_getElem?_getD, h1, h2]

theorem word_append_left (bs rest : List UInt8) (h : 2 * i + 1 < bs.length) : word (bs ++ rest) i = word bs i := by
  have h' : 2 * i < bs.length := by omega
  simp [word, List.getD_eq_getElem?_getD, List.getElem?_append_left h,
    List.getElem?_append_left h']

theorem word_append_right (h : bs.length = 2 * k) : word (bs ++ rest) (k + i) = word rest i := by
  rw [← word_drop, List.drop_left' h]

/-- The values of a storage after some of them are overwritten. -/
theorem word_overwrite {p : List UInt8} {n : Nat} (hp : p.length = 2 * n)
    (h : 2 * k + 2 * n ≤ bs.length) :
    word (overwrite bs (2 * k) p) i =
      if k ≤ i ∧ i < k + n then word p (i - k) else word bs i := by
  have hk : (bs.take (2 * k)).length = 2 * k := by simp; omega
  have hkn : (bs.take (2 * k) ++ p).length = 2 * (k + n) := by simp [hp]; omega
  by_cases h1 : i < k
  · have hc : ¬ (k ≤ i ∧ i < k + n) := by omega
    rw [if_neg hc, overwrite, List.append_assoc, word_append_left _ _ (by omega)]
    have := word_append_left (bs.take (2 * k)) (bs.drop (2 * k)) (i := i) (by omega)
    rw [List.take_append_drop] at this
    exact this.symm
  · obtain ⟨j, rfl⟩ := Nat.exists_eq_add_of_le (Nat.le_of_not_lt h1)
    by_cases h2 : j < n
    · rw [if_pos (by omega), overwrite, List.append_assoc, word_append_right hk,
        word_append_left _ _ (by omega), Nat.add_sub_cancel_left]
    · obtain ⟨l, rfl⟩ := Nat.exists_eq_add_of_le (Nat.le_of_not_lt h2)
      rw [if_neg (by omega), overwrite, ← Nat.add_assoc, word_append_right hkn, hp,
        ← Nat.mul_add, word_drop]

end McuUtilities.Modbus
