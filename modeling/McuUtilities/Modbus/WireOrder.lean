import McuUtilities.Lib.Bytes
import McuUtilities.Lib.Swaps
import McuUtilities.Modbus.InputRegs
import McuUtilities.Modbus.Words

/-!
# The order in which a field goes out

A field that takes several registers goes through up to three permutations before it is sent:
`data_little2big` reverses it, `data_reg_change` swaps the bytes of each register, and `eMbregGet`
swaps them once more. The loops of the two helpers have 8-bit counters; they are given here as the
loops they are.
-/

namespace McuUtilities.Modbus

variable {size : Nat} {data : Vector UInt8 size} {l : List UInt8} {k : Nat}

/-! ## The loops -/

/-- The loop of `data_little2big(data, size)` from `i` on. It gives nothing where it would access a byte
outside the buffer, or after `fuel` rounds. -/
def little2bigLoop (data : Vector UInt8 size) (i : UInt8) : Nat → Option (Vector UInt8 size)
  | 0 => none
  | fuel + 1 =>
    if i.toNat < (UInt8.ofNat size).toNat / 2 then
      if i.toNat < size ∧ (UInt8.ofNat size).toNat - i.toNat - 1 < size then
        little2bigLoop (data.swapIfInBounds i.toNat ((UInt8.ofNat size).toNat - i.toNat - 1)) (i + 1) fuel
      else none
    else some data

/-- The loop of `data_reg_change(data, size)` from `i` on, likewise. -/
def regChangeLoop (data : Vector UInt8 size) (i : UInt8) : Nat → Option (Vector UInt8 size)
  | 0 => none
  | fuel + 1 =>
    if i < UInt8.ofNat size then
      if i.toNat + 1 < size then
        regChangeLoop (data.swapIfInBounds i.toNat (i.toNat + 1)) (i + 2) fuel
      else none
    else some data

/-- What `eMbregGet` makes of a register: `temp >> 8 | temp << 8`. -/
def swapWord (temp : UInt16) : UInt16 := temp >>> 8 ||| temp <<< 8

/-- The loop of `eMbregGet` over the registers of a response, on a little-endian target. -/
def swapWords : Nat → List UInt8 → List UInt8
  | regNum + 1, a :: b :: data =>
    lo (swapWord (ofBytes a b)) :: hi (swapWord (ofBytes a b)) :: swapWords regNum data
  | _, data => data

/-! ## The register swap -/

theorem swapWord_ofBytes (a b : UInt8) : swapWord (ofBytes a b) = ofBytes b a := by
  apply UInt16.toNat_inj.mp
  have ha := a.toNat_lt
  have hb := b.toNat_lt
  have hword : (a.toNat + 256 * b.toNat) % 65536 = a.toNat + 256 * b.toNat := by omega
  have hhigh : (a.toNat + 256 * b.toNat) / 256 = b.toNat := by omega
  have hlow : (a.toNat + 256 * b.toNat) * 256 % 65536 = a.toNat * 256 := by omega
  have hor : a.toNat <<< 8 ||| b.toNat = a.toNat <<< 8 + b.toNat :=
    (Nat.shiftLeft_add_eq_or_of_lt (by omega) _).symm
  simp only [swapWord, ofBytes, UInt16.toNat_or, UInt16.toNat_shiftRight, UInt16.toNat_shiftLeft,
    UInt16.toNat_ofNat', UInt16.reduceToNat, Nat.reduceMod, Nat.shiftRight_eq_div_pow,
    Nat.shiftLeft_eq, Nat.reducePow] at hor ⊢
  rw [hword, hhigh, hlow, Nat.or_comm, hor]
  omega

theorem swapWords_eq : swapWords k l = swapBytes k l := by
  induction k, l using swapWords.induct with
  | case1 regNum a b data ih =>
    rw [swapWords, swapBytes, ih, swapWord_ofBytes, lo_ofBytes, hi_ofBytes]
  | case2 k l h =>
    cases k with
    | zero => simp [swapWords, swapBytes]
    | succ k =>
      rcases l with _ | ⟨a, _ | ⟨b, rest⟩⟩
      · rfl
      · rfl
      · exact absurd rfl (h k a b rest rfl)

theorem swapBytes_swapBytes : swapBytes k (swapBytes k l) = l := by
  induction k, l using swapBytes.induct with
  | case1 regNum a b data ih => rw [swapBytes, swapBytes, ih]
  | case2 k l h => rw [swapBytes.eq_2 _ _ h, swapBytes.eq_2 _ _ h]

/-- Where the byte with index `j` of a register goes. -/
def inRegister (j : Nat) : Nat := if j % 2 = 0 then j + 1 else j - 1

theorem getElem?_swapBytes (h : 2 * k ≤ l.length) (j : Nat) :
    (swapBytes k l)[j]? = if j < 2 * k then l[inRegister j]? else l[j]? := by
  induction k, l using swapBytes.induct generalizing j with
  | case1 k a b l ih =>
    rw [List.length_cons, List.length_cons] at h
    rw [swapBytes]
    rcases j with _ | _ | j
    · simp [inRegister]
    · have hlt : 1 < 2 * (k + 1) := by omega
      simp [inRegister, hlt]
    · have hpartner : inRegister (j + 2) = inRegister j + 2 := by
        unfold inRegister
        split <;> split <;> omega
      have hlt : j + 2 < 2 * (k + 1) ↔ j < 2 * k := by omega
      simp only [List.getElem?_cons_succ, ih (by omega) j, hpartner, hlt]
  | case2 k l hshort =>
    rcases k with _ | k
    · simp [swapBytes]
    · rcases l with _ | ⟨a, _ | ⟨b, l⟩⟩
      · exact absurd h (Nat.not_succ_le_zero _)
      · rw [List.length_singleton] at h
        omega
      · exact absurd rfl (hshort k a b l rfl)

/-! ## The helpers -/

theorem pairing_little2big : Pairing size (fun i => i) (fun j => size - j - 1) (size / 2) where
  partner_lt := fun j hj => by omega
  partner_partner := fun j hj => by omega
  lt := fun i hi => by omega
  untouched := by
    rintro i hi ⟨i', hi', h | h⟩
    · change i = i' at h
      omega
    · change i = size - i' - 1 at h
      omega

theorem pairing_regChange (heven : size % 2 = 0) :
    Pairing size (fun i => 2 * i) inRegister (size / 2) where
  partner_lt := fun j hj => by
    rw [inRegister]
    split <;> omega
  partner_partner := fun j hj => by
    unfold inRegister
    split <;> split <;> omega
  lt := fun i hi => by omega
  untouched := by
    rintro i hi ⟨i', hi', h | h⟩
    · change 2 * i = 2 * i' at h
      omega
    · change 2 * i = inRegister (2 * i') at h
      rw [inRegister, if_pos (Nat.mul_mod_right 2 i')] at h
      omega

/-- `data_little2big` reverses the buffer. -/
theorem dataLittle2big_eq : dataLittle2big data = data.reverse := by
  apply Vector.ext
  intro j hj
  have hall : ∀ j < size, size - j - 1 = j ∨ Touched (fun i => i) (fun j => size - j - 1) (size / 2) j := by
    intro j hj
    rcases Nat.lt_trichotomy j (size - j - 1) with h | h | h
    · exact .inr ⟨j, by omega, .inl rfl⟩
    · exact .inl h.symm
    · refine .inr ⟨size - j - 1, by omega, .inr ?_⟩
      change j = size - (size - j - 1) - 1
      omega
  have h := getElem_swaps data pairing_little2big hall hj (pairing_little2big.partner_lt j hj)
  rw [Vector.getElem_reverse]
  refine Eq.trans h ?_
  congr 1
  omega

theorem dataRegChange_eq_swaps :
    dataRegChange data = swaps (fun i => 2 * i) inRegister (size / 2) data := by
  have hpartner : ∀ i, inRegister (2 * i) = 2 * i + 1 := fun i => by
    rw [inRegister, if_pos (Nat.mul_mod_right 2 i)]
  simp only [dataRegChange, swaps, hpartner]

theorem touched_regChange (heven : size % 2 = 0) (j : Nat) (hj : j < size) :
    Touched (fun i => 2 * i) inRegister (size / 2) j := by
  refine ⟨j / 2, by omega, ?_⟩
  change j = 2 * (j / 2) ∨ j = inRegister (2 * (j / 2))
  rw [inRegister, if_pos (Nat.mul_mod_right 2 _)]
  omega

/-- `data_reg_change` swaps the bytes of each register. -/
theorem toList_dataRegChange (heven : size % 2 = 0) :
    (dataRegChange data).toList = swapBytes (size / 2) data.toList := by
  apply List.ext_getElem?
  intro j
  have hlen : 2 * (size / 2) = size := by omega
  rw [getElem?_swapBytes (by rw [Vector.length_toList, hlen]), hlen, dataRegChange_eq_swaps]
  by_cases hj : j < size
  · have hj' := (pairing_regChange heven).partner_lt j hj
    have h := getElem_swaps data (pairing_regChange heven)
      (fun j hj => .inr (touched_regChange heven j hj)) hj hj'
    rw [if_pos hj, List.getElem?_eq_getElem (by rwa [Vector.length_toList]),
      List.getElem?_eq_getElem (by rwa [Vector.length_toList]), Vector.getElem_toList,
      Vector.getElem_toList, h]
  · rw [if_neg hj, List.getElem?_eq_none (by rw [Vector.length_toList]; omega),
      List.getElem?_eq_none (by rw [Vector.length_toList]; omega)]

theorem dataLittle2big_dataLittle2big : dataLittle2big (dataLittle2big data) = data := by
  rw [dataLittle2big_eq, dataLittle2big_eq, Vector.reverse_reverse]

theorem dataRegChange_dataRegChange (heven : size % 2 = 0) :
    dataRegChange (dataRegChange data) = data := by
  rw [dataRegChange_eq_swaps, dataRegChange_eq_swaps]
  exact swaps_swaps (pairing_regChange heven) fun j hj => .inr (touched_regChange heven j hj)

/-! ## The 8-bit counters -/

/-- `data_little2big` ends, inside the buffer. -/
theorem little2bigLoop_eq (hsize : size < 2 ^ 8) {i : UInt8} {rounds fuel : Nat}
    (hi : i.toNat + rounds = size / 2) (hfuel : rounds < fuel) :
    little2bigLoop data i fuel = some ((List.range' i.toNat rounds).foldl
      (fun data i => data.swapIfInBounds i (size - i - 1)) data) := by
  have hn : (UInt8.ofNat size).toNat = size := UInt8.toNat_ofNat_of_lt' hsize
  induction rounds generalizing i fuel data with
  | zero =>
    obtain ⟨fuel, rfl⟩ : ∃ f, fuel = f + 1 := ⟨fuel - 1, by omega⟩
    rw [little2bigLoop, hn, if_neg (by omega)]
    rfl
  | succ rounds ih =>
    obtain ⟨fuel, rfl⟩ : ∃ f, fuel = f + 1 := ⟨fuel - 1, by omega⟩
    have hnext : (i + 1).toNat = i.toNat + 1 := by
      have h1 : (1 : UInt8).toNat = 1 := rfl
      rw [UInt8.toNat_add, h1]
      omega
    rw [little2bigLoop, hn, if_pos (by omega), if_pos (by omega),
      ih (by rw [hnext]; omega) (by omega), hnext, List.range'_succ, List.foldl_cons]

/-- `data_reg_change` ends, inside the buffer, when the size is even. -/
theorem regChangeLoop_eq (hsize : size < 2 ^ 8) (heven : size % 2 = 0) {i : UInt8} {j rounds fuel : Nat}
    (hj : i.toNat = 2 * j) (hi : j + rounds = size / 2) (hfuel : rounds < fuel) :
    regChangeLoop data i fuel = some ((List.range' j rounds).foldl
      (fun data i => data.swapIfInBounds (2 * i) (2 * i + 1)) data) := by
  have hn : (UInt8.ofNat size).toNat = size := UInt8.toNat_ofNat_of_lt' hsize
  induction rounds generalizing i j fuel data with
  | zero =>
    obtain ⟨fuel, rfl⟩ : ∃ f, fuel = f + 1 := ⟨fuel - 1, by omega⟩
    have hend : ¬ i < UInt8.ofNat size := by
      rw [UInt8.lt_iff_toNat_lt, hn]
      omega
    rw [regChangeLoop, if_neg hend]
    rfl
  | succ rounds ih =>
    obtain ⟨fuel, rfl⟩ : ∃ f, fuel = f + 1 := ⟨fuel - 1, by omega⟩
    have hlt : i < UInt8.ofNat size := by
      rw [UInt8.lt_iff_toNat_lt, hn]
      omega
    have hnext : (i + 2).toNat = 2 * (j + 1) := by
      have h2 : (2 : UInt8).toNat = 2 := rfl
      rw [UInt8.toNat_add, h2]
      omega
    rw [regChangeLoop, if_pos hlt, if_pos (by omega), ih hnext (by omega) (by omega),
      List.range'_succ, List.foldl_cons, hj]

/-! ## What goes out -/

/-- The helpers and the swap of `eMbregGet` put a field on the wire as it is meant: a number with its
highest byte first, a text as it stands in memory. -/
structure WireOrder (size : Nat) : Prop where
  /-- The helpers end inside the buffer, with 8-bit counters. -/
  little2big : ∀ data : Vector UInt8 size, little2bigLoop data 0 256 = some (dataLittle2big data)
  regChange : ∀ data : Vector UInt8 size, regChangeLoop data 0 256 = some (dataRegChange data)
  number : ∀ data : Vector UInt8 size,
    swapWords (size / 2) (dataRegChange (dataLittle2big data)).toList = data.toList.reverse
  bigEndian : ∀ (data : Vector UInt8 size) (v : Nat), data.toList = leBytes size v →
    swapWords (size / 2) (dataRegChange (dataLittle2big data)).toList = beBytes size v
  text : ∀ data : Vector UInt8 size,
    swapWords (size / 2) (dataRegChange data).toList = data.toList
  little2big_twice : ∀ data : Vector UInt8 size, dataLittle2big (dataLittle2big data) = data
  regChange_twice : ∀ data : Vector UInt8 size, dataRegChange (dataRegChange data) = data

theorem swapWords_dataRegChange (heven : size % 2 = 0) :
    swapWords (size / 2) (dataRegChange data).toList = data.toList := by
  rw [swapWords_eq, toList_dataRegChange heven, swapBytes_swapBytes]

theorem swapWords_number (heven : size % 2 = 0) :
    swapWords (size / 2) (dataRegChange (dataLittle2big data)).toList = data.toList.reverse := by
  rw [swapWords_dataRegChange heven, dataLittle2big_eq, Vector.toList_reverse]

/-- Every field of an even number of bytes, up to 254, goes out as it is meant. -/
theorem wireOrder (size : Nat) (heven : size % 2 = 0) (hsize : size ≤ 254) : WireOrder size where
  little2big := fun data => by
    have hloop : little2bigLoop data 0 256 = _ :=
      little2bigLoop_eq (by omega) (Nat.zero_add (size / 2)) (by omega)
    rw [hloop, dataLittle2big, List.range_eq_range']
    rfl
  regChange := fun data => by
    have hloop : regChangeLoop data 0 256 = _ :=
      regChangeLoop_eq (by omega) heven (j := 0) rfl (Nat.zero_add (size / 2)) (by omega)
    rw [hloop, dataRegChange, List.range_eq_range']
  number := fun _ => swapWords_number heven
  bigEndian := fun data v h => by
    rw [swapWords_number heven, h, leBytes, List.reverse_reverse]
  text := fun _ => swapWords_dataRegChange heven
  little2big_twice := fun _ => dataLittle2big_dataLittle2big
  regChange_twice := fun _ => dataRegChange_dataRegChange heven

theorem wireOrder_four : WireOrder 4 ∧
    swapWords 2 (dataRegChange (dataLittle2big #v[0x44, 0x33, 0x22, 0x11])).toList =
      [0x11, 0x22, 0x33, 0x44] := by
  have h := wireOrder 4 rfl (by decide)
  exact ⟨h, h.number _⟩

end McuUtilities.Modbus
