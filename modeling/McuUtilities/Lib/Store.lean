import Mathlib.Data.List.Basic

/-!
# Addressed stores and their slices

A store maps addresses to values. `slice m off n` is the list of the `n` values from address
`off` on, `store m off xs` overwrites them, `fill m off n x` sets all of them to one value. A
`Region` is a range of addresses of one of several stores; two regions that share no address
are disjoint.
-/

namespace McuUtilities

variable {α : Type}

/-- The `n` values of `m` from address `off` on. -/
def slice (m : Nat → α) (off n : Nat) : List α := (List.range n).map fun i => m (off + i)

/-- `m` with the values `xs` at the addresses from `off` on. -/
def store (m : Nat → α) (off : Nat) (xs : List α) : Nat → α := fun a =>
  if off ≤ a then (xs[a - off]?).getD (m a) else m a

/-- `m` with `x` at the `n` addresses from `off` on. -/
def fill (m : Nat → α) (off n : Nat) (x : α) : Nat → α := fun a =>
  if off ≤ a ∧ a < off + n then x else m a

/-! ## Slices -/

section slice
variable {m m' : Nat → α} {off off' n k : Nat}

@[simp] theorem length_slice : (slice m off n).length = n := by simp [slice]

@[simp] theorem slice_zero : slice m off 0 = [] := rfl

@[simp] theorem getElem?_slice {i : Nat} :
    (slice m off n)[i]? = if i < n then some (m (off + i)) else none := by
  by_cases h : i < n <;> simp [slice, h]

@[simp] theorem getElem_slice {i : Nat} (h : i < (slice m off n).length) :
    (slice m off n)[i] = m (off + i) := by simp [slice]

theorem slice_congr (h : ∀ i, i < n → m (off + i) = m' (off' + i)) :
    slice m off n = slice m' off' n := by
  apply List.ext_getElem?
  intro i
  simp only [getElem?_slice]
  split
  · next hi => rw [h i hi]
  · rfl

theorem slice_eq_iff {xs : List α} :
    slice m off n = xs ↔ xs.length = n ∧ ∀ i, i < n → xs[i]? = some (m (off + i)) := by
  constructor
  · rintro rfl
    exact ⟨length_slice, fun i hi => by simp [hi]⟩
  · rintro ⟨hlen, h⟩
    apply List.ext_getElem?
    intro i
    by_cases hi : i < n
    · simp [hi, h i hi]
    · simp [hi]; omega

theorem eq_of_slice_eq (h : slice m off n = slice m' off' n) {i : Nat} (hi : i < n) :
    m (off + i) = m' (off' + i) := by
  have := congrArg (·[i]?) h
  simpa [hi] using this

theorem slice_add : slice m off (n + k) = slice m off n ++ slice m (off + n) k := by
  apply List.ext_getElem?
  intro i
  simp only [List.getElem?_append, length_slice, getElem?_slice]
  by_cases h : i < n
  · have h' : i < n + k := by omega
    simp [h, h']
  · by_cases h' : i < n + k
    · have h1 : i - n < k := by omega
      have h2 : off + n + (i - n) = off + i := by omega
      simp [h, h', h1, h2]
    · have h1 : ¬ i - n < k := by omega
      simp [h, h', h1]

theorem slice_succ : slice m off (n + 1) = m off :: slice m (off + 1) n := by
  rw [Nat.add_comm n 1, slice_add]
  rfl

theorem take_slice : (slice m off n).take k = slice m off (min k n) := by
  apply List.ext_getElem?
  intro i
  simp only [List.getElem?_take, getElem?_slice, Nat.lt_min]
  by_cases h : i < k
  · simp only [h, true_and, if_true]
  · simp only [h, false_and, if_false]

theorem drop_slice : (slice m off n).drop k = slice m (off + k) (n - k) := by
  apply List.ext_getElem?
  intro i
  simp only [List.getElem?_drop, getElem?_slice, Nat.add_assoc]
  by_cases h : k + i < n
  · have h' : i < n - k := by omega
    simp [h, h']
  · have h' : ¬ i < n - k := by omega
    simp [h, h']

/-- A slice of a slice. -/
theorem take_drop_slice {i : Nat} (h : i + k ≤ n) :
    ((slice m off n).drop i).take k = slice m (off + i) k := by
  rw [drop_slice, take_slice]
  congr 1
  omega

theorem slice_shift : slice (fun a => m (off + a)) off' n = slice m (off + off') n :=
  slice_congr fun i _ => by rw [Nat.add_assoc]

end slice

/-! ## Updates -/

section update
variable {m m' : Nat → α} {off off' n k a : Nat} {xs : List α} {x : α}

theorem store_of_lt (h : a < off) : store m off xs a = m a := by
  have h' : ¬ off ≤ a := by omega
  simp [store, h']

theorem store_of_ge (h : off + xs.length ≤ a) : store m off xs a = m a := by
  have h' : xs[a - off]? = none := by simp; omega
  simp [store, h']

theorem store_add {i : Nat} (h : i < xs.length) : store m off xs (off + i) = xs[i] := by
  simp [store, h]

theorem slice_store_self : slice (store m off xs) off xs.length = xs := by
  rw [slice_eq_iff]
  refine ⟨rfl, fun i hi => ?_⟩
  rw [store_add hi, List.getElem?_eq_getElem hi]

theorem slice_store_of_disjoint (h : off + xs.length ≤ off' ∨ off' + n ≤ off) :
    slice (store m off xs) off' n = slice m off' n :=
  slice_congr fun i hi => by
    rcases h with h | h
    · exact store_of_ge (by omega)
    · exact store_of_lt (by omega)

@[simp] theorem store_nil : store m off [] = m := by
  funext a
  simp [store]

/-- Two updates side by side are one. -/
theorem store_append {ys : List α} :
    store (store m off xs) (off + xs.length) ys = store m off (xs ++ ys) := by
  funext a
  rcases Nat.lt_or_ge a off with h | h
  · rw [store_of_lt h, store_of_lt (Nat.lt_add_right _ h), store_of_lt h]
  rcases Nat.lt_or_ge a (off + xs.length) with h' | h'
  · have hi : a - off < xs.length := by omega
    rw [store_of_lt h']
    simp only [store, if_pos h, List.getElem?_append_left hi]
  · have hi : xs.length ≤ a - off := by omega
    have hsub : a - (off + xs.length) = a - off - xs.length := by omega
    simp only [store, if_pos h, if_pos h', List.getElem?_append_right hi, hsub,
      List.getElem?_eq_none hi, Option.getD_none]

/-- Writing what `m'` has where alone it differs from `m` gives `m'`. -/
theorem store_slice (h : ∀ a, ¬ (off ≤ a ∧ a < off + n) → m' a = m a) :
    store m off (slice m' off n) = m' := by
  funext a
  by_cases ha : off ≤ a ∧ a < off + n
  · have hi : a - off < n := by omega
    simp only [store, if_pos ha.1, getElem?_slice, if_pos hi, Option.getD_some,
      Nat.add_sub_cancel' ha.1]
  · rw [h a ha]
    rcases Nat.lt_or_ge a off with h' | h'
    · exact store_of_lt h'
    · exact store_of_ge (by rw [length_slice]; omega)

theorem fill_of_lt (h : a < off) : fill m off n x a = m a := by
  have h' : ¬ (off ≤ a ∧ a < off + n) := by omega
  simp only [fill, if_neg h']

theorem fill_of_ge (h : off + n ≤ a) : fill m off n x a = m a := by
  have h' : ¬ (off ≤ a ∧ a < off + n) := by omega
  simp only [fill, if_neg h']

theorem fill_of_mem (h : off ≤ a) (h' : a < off + n) : fill m off n x a = x := by
  simp [fill, h, h']

/-- An update does not see what it covers. -/
theorem store_fill (h : n ≤ xs.length) : store (fill m off n x) off xs = store m off xs := by
  funext a
  rcases Nat.lt_or_ge a off with h' | h'
  · rw [store_of_lt h', store_of_lt h', fill_of_lt h']
  rcases Nat.lt_or_ge a (off + xs.length) with h'' | h''
  · have hi : a - off < xs.length := by omega
    simp only [store, if_pos h', List.getElem?_eq_getElem hi, Option.getD_some]
  · rw [store_of_ge h'', store_of_ge h'', fill_of_ge (by omega)]

end update

/-! ## Regions -/

/-- The addresses `[off, off + len)` of store number `dev`. -/
structure Region where
  dev : Nat
  off : Nat
  len : Nat
deriving DecidableEq

namespace Region

/-- Address `a` of store `dev` belongs to the region. -/
def Covers (r : Region) (dev a : Nat) : Prop := dev = r.dev ∧ r.off ≤ a ∧ a < r.off + r.len

instance (r : Region) (dev a : Nat) : Decidable (r.Covers dev a) :=
  inferInstanceAs (Decidable (_ ∧ _ ∧ _))

/-- No address belongs to both regions. -/
def Disjoint (r s : Region) : Prop := ∀ dev a, r.Covers dev a → ¬ s.Covers dev a

theorem Disjoint.symm {r s : Region} (h : r.Disjoint s) : s.Disjoint r :=
  fun dev a hs hr => h dev a hr hs

/-- The values of the region, numbered from its start. -/
def view (r : Region) (f : Nat → Nat → α) : Nat → α := fun a => f r.dev (r.off + a)

/-- Two families of stores agree on the region. -/
def Agree (r : Region) (f g : Nat → Nat → α) : Prop := ∀ dev a, r.Covers dev a → f dev a = g dev a

variable {r s : Region} {f g h : Nat → Nat → α}

theorem Agree.refl : r.Agree f f := fun _ _ _ => rfl

theorem Agree.symm (H : r.Agree f g) : r.Agree g f := fun dev a hc => (H dev a hc).symm

theorem Agree.trans (H : r.Agree f g) (H' : r.Agree g h) : r.Agree f h :=
  fun dev a hc => (H dev a hc).trans (H' dev a hc)

theorem Agree.view (H : r.Agree f g) {a : Nat} (ha : a < r.len) : r.view f a = r.view g a :=
  H _ _ ⟨rfl, by omega, by omega⟩

theorem agree_of_view (H : ∀ a, a < r.len → r.view f a = r.view g a) : r.Agree f g := by
  rintro dev a ⟨rfl, h1, h2⟩
  have := H (a - r.off) (by omega)
  rwa [Region.view, Region.view, Nat.add_sub_cancel' h1] at this

theorem Agree.slice (H : r.Agree f g) {off n : Nat} (hn : off + n ≤ r.len) :
    McuUtilities.slice (r.view f) off n = McuUtilities.slice (r.view g) off n :=
  slice_congr fun _ hi => H.view (by omega)

/-- A change confined to one region is not seen in a disjoint one. -/
theorem agree_of_confined (hd : r.Disjoint s)
    (H : ∀ dev a, ¬ s.Covers dev a → f dev a = g dev a) : r.Agree f g :=
  fun dev a hc => H dev a (hd dev a hc)

end Region

end McuUtilities
