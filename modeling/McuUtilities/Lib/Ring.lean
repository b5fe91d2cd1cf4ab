import McuUtilities.Lib.Store

/-!
# Cyclic memories

A ring of `size` cells goes on at its first cell behind its last one. `span` are the values of cells in
a row, and `putSpan` overwrites cells in a row, both with at most one jump from the last cell to the
first.
-/

namespace McuUtilities

variable {α : Type}

/-- The `n` values of the ring from place `r` on. -/
def span (size : Nat) (m : Nat → α) (r n : Nat) : List α :=
  (List.range n).map fun k => m ((r + k) % size)

/-- The ring with the values `xs` from place `w` on. -/
def putSpan (size : Nat) (m : Nat → α) (w : Nat) (xs : List α) : Nat → α :=
  store (store m w (xs.take (size - w))) 0 (xs.drop (size - w))

variable {m : Nat → α} {size r w n k : Nat} {xs : List α}

theorem ring_mod (hr : r ≤ size) (hk : k < size) :
    (r + k) % size = if r + k < size then r + k else r + k - size := by
  split
  · next h => exact Nat.mod_eq_of_lt h
  · next h =>
    rw [Nat.mod_eq_sub_mod (by omega)]
    exact Nat.mod_eq_of_lt (by omega)

theorem ring_mod_of_lt (hr : r < size) (hk : k ≤ size) :
    (r + k) % size = if r + k < size then r + k else r + k - size := by
  rw [Nat.add_comm, ring_mod hk hr]

/-! ## Spans -/

@[simp] theorem length_span : (span size m r n).length = n := by
  rw [span, List.length_map, List.length_range]

@[simp] theorem span_zero : span size m r 0 = [] := rfl

theorem getElem_span (hk : k < (span size m r n).length) : (span size m r n)[k] = m ((r + k) % size) := by
  simp only [span, List.getElem_map, List.getElem_range]

theorem span_add : span size m r (n + k) = span size m r n ++ span size m (r + n) k := by
  rw [span, List.range_add, List.map_append, List.map_map]
  congr 1
  refine List.map_congr_left fun i _ => ?_
  rw [Function.comp_apply, Nat.add_assoc]

theorem span_mod : span size m (r % size) n = span size m r n :=
  List.map_congr_left fun k _ => by rw [Nat.mod_add_mod]

theorem span_size : span size m size n = span size m 0 n := by
  rw [← span_mod, Nat.mod_self]

theorem span_eq_slice (h : r + n ≤ size) : span size m r n = slice m r n := by
  refine List.map_congr_left fun k hk => ?_
  rw [Nat.mod_eq_of_lt (by have := List.mem_range.mp hk; omega)]

/-- A span is a slice up to the last cell and a slice from the first cell on. -/
theorem span_eq_slices (hr : r ≤ size) (hn : n ≤ size) : span size m r n =
    slice m r (min (size - r) n) ++ slice m 0 (n - min (size - r) n) := by
  have hsum : n = min (size - r) n + (n - min (size - r) n) := by omega
  conv_lhs => rw [hsum, span_add]
  rw [span_eq_slice (by omega)]
  congr 1
  by_cases hfit : n ≤ size - r
  · rw [Nat.min_eq_right hfit, Nat.sub_self, span_zero, slice_zero]
  · rw [Nat.min_eq_left (by omega), Nat.add_sub_cancel' hr, span_size, span_eq_slice (by omega)]

theorem take_span : (span size m r n).take k = span size m r (min k n) := by
  have hsum : n = min k n + (n - min k n) := by omega
  conv_lhs => rw [hsum, span_add]
  by_cases hk : k ≤ n
  · rw [Nat.min_eq_left hk, List.take_left' length_span]
  · rw [Nat.min_eq_right (by omega), Nat.sub_self, span_zero, List.append_nil,
      List.take_of_length_le (by rw [length_span]; omega)]

theorem drop_span (hk : k ≤ n) : (span size m r n).drop k = span size m (r + k) (n - k) := by
  have hsum : n = k + (n - k) := by omega
  conv_lhs => rw [hsum, span_add]
  exact List.drop_left' length_span

/-! ## Writing -/

/-- The cells that are written. -/
theorem putSpan_written (hw : w < size) (hxs : xs.length ≤ size) (hk : k < xs.length) :
    putSpan size m w xs ((w + k) % size) = xs[k] := by
  have hdrop : (xs.drop (size - w)).length = xs.length - (size - w) := List.length_drop
  rw [ring_mod (by omega) (by omega), putSpan]
  split
  · next h =>
    have hlt : k < (xs.take (size - w)).length := by rw [List.length_take]; omega
    rw [store_of_ge (by omega), store_add hlt, List.getElem_take]
  · next h =>
    have hlt : w + k - size < (xs.drop (size - w)).length := by omega
    have hcell := @store_add α (store m w (xs.take (size - w))) 0 (xs.drop (size - w)) _ hlt
    rw [Nat.zero_add] at hcell
    rw [hcell, List.getElem_drop]
    congr 1
    omega

/-- The cells between the end of what is written and its start. -/
theorem putSpan_kept (hw : w < size) (hn : xs.length + n ≤ size) (hk : k < n) :
    putSpan size m w xs ((w + (xs.length + k)) % size) = m ((w + (xs.length + k)) % size) := by
  have htake : (xs.take (size - w)).length = min (size - w) xs.length := List.length_take
  have hdrop : (xs.drop (size - w)).length = xs.length - (size - w) := List.length_drop
  rw [ring_mod (by omega) (by omega), putSpan]
  split
  · next h => rw [store_of_ge (by omega), store_of_ge (by omega)]
  · next h => rw [store_of_ge (by omega), store_of_lt (by omega)]

/-- Values behind a span make it longer, when there is room for them. -/
theorem span_append (hsize : 0 < size) (hn : n + xs.length ≤ size) :
    span size (putSpan size m ((r + n) % size) xs) r (n + xs.length) = span size m r n ++ xs := by
  have hw : (r + n) % size < size := Nat.mod_lt _ hsize
  rw [span_add]
  congr 1
  · refine List.map_congr_left fun k hk => ?_
    have hk : k < n := List.mem_range.mp hk
    -- The place `r + k` comes `size - n + k` places behind the end of the span.
    have hplace : (r + k) % size = ((r + n) % size + (xs.length + (size - n - xs.length + k))) % size := by
      rw [Nat.mod_add_mod, ← Nat.add_mod_right]
      congr 1
      omega
    rw [hplace]
    exact putSpan_kept hw (n := size - xs.length) (by omega) (by omega)
  · rw [← span_mod]
    apply List.ext_getElem (by rw [length_span])
    intro k hk hk'
    rw [getElem_span]
    exact putSpan_written hw (by omega) hk'

end McuUtilities
