import Mathlib.Data.List.Basic

/-!
# Literals and copies

A compressed text is a list of items: literals, and copies of what was put out some distance before. A
copy is made element by element, so it may overlap what it writes. A compressor keeps the invariant
`Covers`: the items so far expand to the text so far. `Covers.literal` and `Covers.copy` extend it, the
second one by what a comparison of the text with itself found (`Matches`).
-/

namespace McuUtilities.LempelZiv

variable {α : Type}

/-! ## Copies -/

/-- Puts `n` elements of the text at its end, from the place `ref` on, one after the other. -/
def copyFrom : Nat → Nat → List α → Option (List α)
  | 0, _, out => some out
  | n + 1, ref, out =>
    match out[ref]? with
    | none => none
    | some x => copyFrom n (ref + 1) (out ++ [x])

/-- From `i` to `j` the text is the same as `d` places before. -/
def Matches (xs : List α) (d i j : Nat) : Prop := ∀ k, i ≤ k → k < j → xs[k - d]? = xs[k]?

section copies
variable {xs out : List α} {d i j n ref : Nat}

theorem Matches.mono {i' j' : Nat} (h : Matches xs d i j) (hi : i ≤ i') (hj : j' ≤ j) : Matches xs d i' j' :=
  fun k hik hkj => h k (Nat.le_trans hi hik) (Nat.lt_of_lt_of_le hkj hj)

theorem Matches.trans {k : Nat} (h : Matches xs d i j) (h' : Matches xs d j k) : Matches xs d i k := by
  intro m him hmk
  rcases Nat.lt_or_ge m j with hmj | hjm
  · exact h m him hmj
  · exact h' m hjm hmk

theorem matches_self : Matches xs d i i := fun _ hik hki => absurd hki (Nat.not_lt_of_le hik)

theorem Matches.succ (h : Matches xs d i j) (hj : xs[j - d]? = xs[j]?) : Matches xs d i (j + 1) := by
  intro k hik hkj
  rcases Nat.lt_succ_iff_lt_or_eq.mp hkj with hkj | rfl
  · exact h k hik hkj
  · exact hj

/-- Copying what matches goes on with the text. -/
theorem copyFrom_take (hd : 0 < d) (hdi : d ≤ i) (hn : i + n ≤ xs.length) (h : Matches xs d i (i + n)) :
    copyFrom n (i - d) (xs.take i) = some (xs.take (i + n)) := by
  induction n generalizing i with
  | zero => rfl
  | succ n ih =>
    have hlt : i < xs.length := by omega
    have hnext : (xs.take i)[i - d]? = some xs[i] := by
      rw [List.getElem?_take_of_lt (by omega), h i (Nat.le_refl i) (by omega), List.getElem?_eq_getElem hlt]
    have hrest := @ih (i + 1) (by omega) (by omega) (h.mono (Nat.le_succ i) (by omega))
    rw [copyFrom, hnext]
    dsimp only
    rw [List.take_append_getElem hlt, (by omega : i - d + 1 = i + 1 - d), hrest]
    congr 2
    omega

theorem length_copyFrom {out' : List α} (h : copyFrom n ref out = some out') :
    out'.length = out.length + n := by
  induction n generalizing ref out with
  | zero =>
    cases h
    rfl
  | succ n ih =>
    rw [copyFrom] at h
    split at h
    · cases h
    · rw [ih h, List.length_append, List.length_singleton]
      omega

/-- Copying from before the end never fails. -/
theorem copyFrom_isSome (h : ref < out.length) : (copyFrom n ref out).isSome := by
  induction n generalizing ref out with
  | zero => rfl
  | succ n ih =>
    rw [copyFrom, List.getElem?_eq_getElem h]
    exact ih (by simpa using h)

/-- Copying the last element repeats it. -/
theorem copyFrom_last {x : α} : copyFrom n out.length (out ++ [x]) =
    some (out ++ [x] ++ List.replicate n x) := by
  induction n generalizing out with
  | zero => simp [copyFrom]
  | succ n ih =>
    have hlast : (out ++ [x])[out.length]? = some x := by simp
    have hrest := @ih (out ++ [x])
    rw [List.length_append, List.length_singleton] at hrest
    rw [copyFrom, hlast]
    dsimp only
    rw [hrest, List.replicate_succ, List.append_assoc, List.append_assoc, List.append_assoc]
    rfl

end copies

/-! ## Items -/

/-- A part of a compressed text. -/
inductive Item (α : Type) where
  | literal (bytes : List α)
  | copy (distance length : Nat)

/-- The text goes on with an item. -/
def Item.extend (out : List α) : Item α → Option (List α)
  | .literal bytes => some (out ++ bytes)
  | .copy distance length =>
    if 0 < distance ∧ distance ≤ out.length then copyFrom length (out.length - distance) out else none

/-- How much the text grows. -/
def Item.size : Item α → Nat
  | .literal bytes => bytes.length
  | .copy _ length => length

/-- The text goes on with the items. -/
def expand : List (Item α) → List α → Option (List α)
  | [], out => some out
  | item :: items, out => (item.extend out).bind (expand items)

/-- The items expand to the first `i` elements of the text. -/
def Covers (items : List (Item α)) (xs : List α) (i : Nat) : Prop := expand items [] = some (xs.take i)

section items
variable {items items' : List (Item α)} {xs out : List α} {d i n : Nat}

theorem expand_append : expand (items ++ items') out = (expand items out).bind (expand items') := by
  induction items generalizing out with
  | nil => rfl
  | cons item items ih =>
    rw [List.cons_append, expand, expand]
    cases item.extend out with
    | none => rfl
    | some out' => exact ih

theorem Item.length_extend {item : Item α} {out' : List α} (h : item.extend out = some out') :
    out'.length = out.length + item.size := by
  cases item with
  | literal bytes =>
    cases h
    exact List.length_append
  | copy d n =>
    rw [Item.extend] at h
    split at h
    · exact length_copyFrom h
    · cases h

theorem length_le_expand (h : expand items out = some xs) : out.length ≤ xs.length := by
  induction items generalizing out with
  | nil =>
    cases h
    exact Nat.le_refl _
  | cons item items ih =>
    obtain ⟨out', hitem, hrest⟩ := Option.bind_eq_some_iff.mp h
    have hlen := Item.length_extend hitem
    exact Nat.le_trans (by omega) (ih hrest)

theorem covers_nil : Covers [] xs 0 := rfl

theorem Covers.append_one {item : Item α} {j : Nat} (h : Covers items xs i)
    (hitem : item.extend (xs.take i) = some (xs.take j)) : Covers (items ++ [item]) xs j := by
  have hlast : expand [item] (xs.take i) = some (xs.take j) := by rw [expand, hitem, Option.bind_some, expand]
  rw [Covers, expand_append, h, Option.bind_some, hlast]

/-- A literal goes on with the text. -/
theorem Covers.literal (h : Covers items xs i) :
    Covers (items ++ [.literal ((xs.drop i).take n)]) xs (i + n) :=
  h.append_one (by rw [Item.extend, List.take_add])

/-- A copy of what matches goes on with the text. -/
theorem Covers.copy (h : Covers items xs i) (hd : 0 < d) (hdi : d ≤ i) (hn : i + n ≤ xs.length)
    (hmatch : Matches xs d i (i + n)) : Covers (items ++ [.copy d n]) xs (i + n) := by
  refine h.append_one ?_
  have hlen : (xs.take i).length = i := by
    rw [List.length_take]
    omega
  rw [Item.extend, hlen, if_pos ⟨hd, hdi⟩, copyFrom_take hd hdi hn hmatch]

end items

end McuUtilities.LempelZiv
