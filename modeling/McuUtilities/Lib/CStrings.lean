import Mathlib.Data.List.TakeWhile
import McuUtilities.Lib.Bytes

/-!
# Searching and comparing within a bound

`memchr`, `strncpy`, `strlen` and `strncmp` on the bytes of a buffer. Where a search runs past the end
of its buffer there is no result.
-/

namespace McuUtilities

/-- `memchr(s, c, n)`: where `c` comes first among `n` bytes. -/
def memchr (s : List UInt8) (c : UInt8) (n : Nat) : Option Nat := (s.take n).findIdx? (· == c)

/-- What `strncpy` leaves in a field of `n` bytes. -/
def strncpy (n : Nat) (src : List UInt8) : List UInt8 :=
  (cstr src).take n ++ List.replicate (n - (cstr src).length) 0

/-- `strlen`, of a string that ends in its buffer. -/
def strlen (buf : List UInt8) : Option Nat := buf.findIdx? (· == 0)

/-- `strncmp(a, b, n) == 0`. -/
def strncmpEq : Nat → List UInt8 → List UInt8 → Bool
  | 0, _, _ => true
  | _ + 1, [], [] => true
  | _ + 1, [], y :: _ => y == 0
  | _ + 1, x :: _, [] => x == 0
  | n + 1, x :: xs, y :: ys => if x == y then x == 0 || strncmpEq n xs ys else false

variable {s xs ys : List UInt8} {c : UInt8} {k n : Nat}

/-- A byte that is found splits the buffer. -/
theorem append_of_memchr (h : memchr s c n = some k) :
    ∃ rest, s = s.take k ++ c :: rest ∧ c ∉ s.take k := by
  rw [memchr, List.findIdx?_eq_some_iff_getElem] at h
  obtain ⟨hk, hc, hbefore⟩ := h
  have hlen : k < s.length := lt_of_lt_of_le hk (by rw [List.length_take]; omega)
  have hsplit : s = s.take k ++ s.drop k := (List.take_append_drop k s).symm
  rw [List.getElem_take, beq_iff_eq] at hc
  rw [List.drop_eq_getElem_cons hlen, hc] at hsplit
  refine ⟨s.drop (k + 1), hsplit, fun hmem => ?_⟩
  obtain ⟨j, hj, heq⟩ := List.getElem_of_mem hmem
  have hjk : j < k := lt_of_lt_of_le hj (by rw [List.length_take]; omega)
  refine hbefore j hjk ?_
  rw [List.getElem_take] at heq ⊢
  exact beq_iff_eq.mpr heq

/-- Up to the byte that ends a field, a string without that byte begins the buffer if it begins the
field. -/
theorem isPrefix_append_cons_iff (hc : c ∉ xs) (rest : List UInt8) :
    xs <+: ys ++ c :: rest ↔ xs <+: ys := by
  induction ys generalizing xs with
  | nil =>
    cases xs with
    | nil => simp
    | cons x xs =>
      have hx : x ≠ c := fun h => hc (h ▸ List.mem_cons_self)
      simp [List.cons_prefix_cons, hx]
  | cons y ys ih =>
    cases xs with
    | nil => simp
    | cons x xs =>
      have hxs : c ∉ xs := fun h => hc (List.mem_cons_of_mem _ h)
      rw [List.cons_append, List.cons_prefix_cons, List.cons_prefix_cons, ih hxs]

theorem cstr_eq_self (h : 0 ∉ xs) : cstr xs = xs := by
  refine List.takeWhile_eq_self_iff.mpr fun x hx => decide_eq_true fun h0 => h ?_
  rwa [← h0]

theorem strncpy_of_le (h : 0 ∉ xs) (hn : xs.length ≤ n) :
    strncpy n xs = xs ++ List.replicate (n - xs.length) 0 := by
  rw [strncpy, cstr_eq_self h, List.take_of_length_le hn]

theorem findIdx?_append_cons (h : c ∉ xs) (ys : List UInt8) :
    (xs ++ c :: ys).findIdx? (· == c) = some xs.length := by
  induction xs with
  | nil => simp [List.findIdx?_cons]
  | cons x xs ih =>
    have hx : (x == c) = false := beq_eq_false_iff_ne.mpr fun hc => h (hc ▸ List.mem_cons_self)
    rw [List.cons_append, List.findIdx?_cons, hx, ih fun hc => h (List.mem_cons_of_mem _ hc)]
    rfl

theorem strlen_append (h : 0 ∉ xs) (ys : List UInt8) : strlen (xs ++ 0 :: ys) = some xs.length :=
  findIdx?_append_cons h ys

theorem memchr_append (h : c ∉ xs) (hn : xs.length < n) (ys : List UInt8) :
    memchr (xs ++ c :: ys) c n = some xs.length := by
  obtain ⟨k, hk⟩ : ∃ k, n - xs.length = k + 1 := ⟨n - xs.length - 1, by omega⟩
  rw [memchr, List.take_append, hk, List.take_succ_cons, List.take_of_length_le hn.le]
  exact findIdx?_append_cons h _

/-- Compared up to its own length, a string without a NUL is a prefix of what it equals. -/
theorem strncmpEq_append_iff (h : 0 ∉ xs) (zs : List UInt8) :
    strncmpEq xs.length (xs ++ zs) ys = true ↔ xs <+: ys := by
  induction xs generalizing ys with
  | nil => simp [strncmpEq]
  | cons x xs ih =>
    have hx : x ≠ 0 := fun h0 => h (h0 ▸ List.mem_cons_self)
    have hxs : 0 ∉ xs := fun h0 => h (List.mem_cons_of_mem _ h0)
    cases ys with
    | nil => simp [strncmpEq, hx]
    | cons y ys =>
      rw [List.cons_append, List.length_cons, strncmpEq, List.cons_prefix_cons, ← ih hxs]
      by_cases hxy : x = y
      · simp [hxy, hxy ▸ hx]
      · simp [hxy]

end McuUtilities
