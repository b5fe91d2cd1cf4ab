import Mathlib.Data.List.Induction
import Mathlib.Tactic.Ring

/-!
# Numbers and strings in byte buffers

Big-endian and little-endian numbers, and C strings: `strcmpEq` is the test `strcmp(a, b) == 0`
on two buffers, where the end of a buffer reads as a NUL.
-/

namespace McuUtilities

/-- The number whose big-endian bytes are `bs`. -/
def beNat (bs : List UInt8) : Nat := bs.foldl (fun n b => n * 256 + b.toNat) 0

/-- The `k` big-endian bytes of `n`. -/
def beBytes : Nat → Nat → List UInt8
  | 0, _ => []
  | k + 1, n => beBytes k (n / 256) ++ [UInt8.ofNat n]

/-- The number whose little-endian bytes are `bs`. -/
def leNat (bs : List UInt8) : Nat := beNat bs.reverse

/-- The `k` little-endian bytes of `n`. -/
def leBytes (k n : Nat) : List UInt8 := (beBytes k n).reverse

@[simp] theorem beNat_nil : beNat [] = 0 := rfl

@[simp] theorem beNat_concat {bs : List UInt8} {b : UInt8} :
    beNat (bs ++ [b]) = beNat bs * 256 + b.toNat := by simp [beNat]

theorem beNat_append {bs cs : List UInt8} :
    beNat (bs ++ cs) = beNat bs * 256 ^ cs.length + beNat cs := by
  induction cs using List.reverseRecOn with
  | nil => simp
  | append_singleton cs c ih =>
    rw [← List.append_assoc, beNat_concat, beNat_concat, ih, List.length_append,
      List.length_singleton, Nat.pow_succ]
    ring

@[simp] theorem length_beBytes {k n : Nat} : (beBytes k n).length = k := by
  induction k generalizing n with
  | zero => rfl
  | succ k ih => simp [beBytes, ih]

@[simp] theorem length_leBytes {k n : Nat} : (leBytes k n).length = k := by simp [leBytes]

theorem beNat_beBytes {k n : Nat} (h : n < 256 ^ k) : beNat (beBytes k n) = n := by
  induction k generalizing n with
  | zero => simp at h; simp [beBytes, h]
  | succ k ih =>
    have hdiv : n / 256 < 256 ^ k := by
      rw [Nat.pow_succ] at h
      exact Nat.div_lt_of_lt_mul (by rwa [Nat.mul_comm] at h)
    rw [beBytes, beNat_concat, ih hdiv, UInt8.toNat_ofNat']
    omega

theorem leNat_leBytes {k n : Nat} (h : n < 256 ^ k) : leNat (leBytes k n) = n := by
  rw [leNat, leBytes, List.reverse_reverse, beNat_beBytes h]

theorem beBytes_beNat {bs : List UInt8} : beBytes bs.length (beNat bs) = bs := by
  induction bs using List.reverseRecOn with
  | nil => rfl
  | append_singleton bs b ih =>
    have hb := b.toNat_lt
    have hdiv : (beNat bs * 256 + b.toNat) / 256 = beNat bs := by omega
    have hlast : UInt8.ofNat (beNat bs * 256 + b.toNat) = b := by
      apply UInt8.toNat_inj.mp
      rw [UInt8.toNat_ofNat']
      omega
    rw [List.length_append, List.length_singleton, beBytes, beNat_concat, hdiv, hlast, ih]

theorem leBytes_leNat {bs : List UInt8} : leBytes bs.length (leNat bs) = bs := by
  rw [leBytes, leNat, ← List.length_reverse, beBytes_beNat, List.reverse_reverse]

theorem beNat_lt {bs : List UInt8} : beNat bs < 256 ^ bs.length := by
  induction bs using List.reverseRecOn with
  | nil => simp
  | append_singleton bs b ih =>
    have := b.toNat_lt
    rw [beNat_concat, List.length_append, List.length_singleton, Nat.pow_succ]
    omega

theorem leNat_lt {bs : List UInt8} : leNat bs < 256 ^ bs.length := by
  simpa [leNat] using @beNat_lt bs.reverse

/-- The last byte of a little-endian number is its most significant one. -/
theorem leNat_concat {bs : List UInt8} {b : UInt8} :
    leNat (bs ++ [b]) = b.toNat * 256 ^ bs.length + leNat bs := by
  rw [leNat, List.reverse_append, List.reverse_singleton, beNat_append, List.length_reverse]
  simp [beNat, leNat]

/-! ## C strings -/

/-- `strcmp(a, b) == 0`. -/
def strcmpEq : List UInt8 → List UInt8 → Bool
  | [], [] => true
  | [], y :: _ => y == 0
  | x :: _, [] => x == 0
  | x :: xs, y :: ys => if x == y then x == 0 || strcmpEq xs ys else false

theorem strcmpEq_cons {x y : UInt8} {xs ys : List UInt8} (hy : y ≠ 0) :
    strcmpEq (x :: xs) (y :: ys) = true ↔ x = y ∧ strcmpEq xs ys = true := by
  by_cases hxy : x = y
  · subst hxy
    simp [strcmpEq, hy]
  · simp [strcmpEq, hxy]

/-- The comparison with a string ends with that string. -/
theorem strcmpEq_append_left {xs as bs name : List UInt8} (h : name.length < xs.length) :
    strcmpEq (xs ++ as) name = strcmpEq (xs ++ bs) name := by
  induction xs generalizing name with
  | nil => cases h
  | cons x xs ih =>
    cases name with
    | nil => rfl
    | cons y ys => simp only [List.cons_append, strcmpEq, ih (Nat.lt_of_succ_lt_succ h)]

/-- The bytes of a C string, up to its NUL. -/
def cstr (xs : List UInt8) : List UInt8 := xs.takeWhile (· ≠ 0)

/-- A string that ends in its field does not see what comes after the field. -/
theorem cstr_append {xs : List UInt8} (h : 0 ∈ xs) (ys : List UInt8) :
    cstr (xs ++ ys) = cstr xs := by
  induction xs with
  | nil => cases h
  | cons x xs ih =>
    by_cases hx : x = 0
    · simp [cstr, hx]
    · have ih := ih ((List.mem_cons.mp h).resolve_left (Ne.symm hx))
      simp only [cstr, List.cons_append, List.takeWhile_cons, decide_eq_true hx, if_true] at ih ⊢
      rw [ih]

theorem strcmpEq_iff {xs ys : List UInt8} : strcmpEq xs ys = true ↔ cstr xs = cstr ys := by
  induction xs generalizing ys with
  | nil =>
    cases ys with
    | nil => exact iff_of_true rfl rfl
    | cons y ys => by_cases hy : y = 0 <;> simp [strcmpEq, cstr, hy]
  | cons x xs ih =>
    cases ys with
    | nil => by_cases hx : x = 0 <;> simp [strcmpEq, cstr, hx]
    | cons y ys =>
      have ih := @ih ys
      unfold cstr at ih ⊢
      by_cases hx : x = 0
      · subst hx
        by_cases hy : y = 0
        · simp [strcmpEq, hy]
        · simp [strcmpEq, hy, Ne.symm hy]
      · by_cases hxy : x = y
        · subst hxy
          simp [strcmpEq, hx, ih]
        · by_cases hy : y = 0
          · simp [strcmpEq, hx, hy]
          · simp [strcmpEq, hx, hy, hxy]

/-- Strings that compare equal compare the same with any other. -/
theorem strcmpEq_congr {as bs : List UInt8} (h : strcmpEq as bs = true) (cs : List UInt8) :
    strcmpEq as cs = strcmpEq bs cs := by
  rw [Bool.eq_iff_iff, strcmpEq_iff, strcmpEq_iff, strcmpEq_iff.mp h]

/-- After a common prefix without a NUL, the rest decides. -/
theorem strcmpEq_append_iff {xs as bs : List UInt8} :
    strcmpEq (xs ++ as) (xs ++ bs) = true ↔ 0 ∈ xs ∨ strcmpEq as bs = true := by
  induction xs with
  | nil => simp
  | cons x xs ih =>
    by_cases hx : x = 0
    · simp [strcmpEq, hx]
    · simp [strcmpEq, hx, Ne.symm hx, ih]

/-- A string that runs through a field is longer than what comes after the field. -/
theorem not_strcmpEq_append {xs as : List UInt8} (h : 0 ∉ xs) (hne : xs ≠ []) :
    ¬ strcmpEq (xs ++ as) as = true := by
  have hall : ∀ x ∈ xs, decide (x ≠ 0) = true := by
    intro x hx
    refine decide_eq_true fun h0 => h ?_
    rwa [h0] at hx
  intro heq
  rw [strcmpEq_iff, cstr, List.takeWhile_append_of_pos hall] at heq
  have hlen := congrArg List.length heq
  rw [List.length_append, cstr] at hlen
  exact hne (List.eq_nil_of_length_eq_zero (by omega))

end McuUtilities
