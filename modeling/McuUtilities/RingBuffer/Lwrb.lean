import McuUtilities.Lib.Machine
import McuUtilities.Lib.Ring

/-!
# The ring buffer (`lwrb.c`)

A buffer of `size` bytes holds up to `size - 1` bytes from `r` on, behind the last byte again from the
first one on, and `w` is the place behind them. The handle is valid (`BUF_IS_VALID`) and no event function
is set. In whatever order the functions are called, they act on what the buffer holds as on a queue.
-/

namespace McuUtilities.RingBuffer

structure Lwrb where
  buff : Nat → UInt8
  size : Nat
  r : Nat
  w : Nat

/-! ## The functions -/

def lwrbInit (buffdata : Nat → UInt8) (size : Nat) : Option Lwrb :=
  if size = 0 then none else some ⟨buffdata, size, 0, 0⟩

def lwrbGetFree (b : Lwrb) : Nat :=
  (if b.w = b.r then b.size
    else if b.w < b.r then b.r - b.w
    else b.size - (b.w - b.r)) - 1

def lwrbGetFull (b : Lwrb) : Nat :=
  if b.w = b.r then 0
  else if b.r < b.w then b.w - b.r
  else b.size - (b.r - b.w)

/-- `lwrb_write(buff, data, btw)` with all of `data`. -/
def lwrbWrite (data : List UInt8) (b : Lwrb) : Nat × Lwrb :=
  let btw := min (lwrbGetFree b) data.length
  if btw = 0 then (0, b)
  else
    let tocopy := min (b.size - b.w) btw
    let b := { b with buff := store b.buff b.w (data.take tocopy), w := b.w + tocopy }
    let btw := btw - tocopy
    let b :=
      if 0 < btw then { b with buff := store b.buff 0 ((data.drop tocopy).take btw), w := btw } else b
    let b := if b.size ≤ b.w then { b with w := 0 } else b
    (tocopy + btw, b)

/-- `lwrb_read(buff, data, btr)`, with the bytes it copies. -/
def lwrbRead (btr : Nat) (b : Lwrb) : List UInt8 × Lwrb :=
  let btr := min (lwrbGetFull b) btr
  if btr = 0 then ([], b)
  else
    let tocopy := min (b.size - b.r) btr
    let d := slice b.buff b.r tocopy
    let b := { b with r := b.r + tocopy }
    let btr := btr - tocopy
    let d := if 0 < btr then d ++ slice b.buff 0 btr else d
    let b := if 0 < btr then { b with r := btr } else b
    let b := if b.size ≤ b.r then { b with r := 0 } else b
    (d, b)

/-- `lwrb_peek(buff, skip_count, data, btp)`, with the bytes it copies. -/
def lwrbPeek (skipCount btp : Nat) (b : Lwrb) : List UInt8 :=
  let full := lwrbGetFull b
  if full ≤ skipCount then []
  else
    let r := b.r + skipCount
    let full := full - skipCount
    let r := if b.size ≤ r then r - b.size else r
    let btp := min full btp
    if btp = 0 then []
    else
      let tocopy := min (b.size - r) btp
      let d := slice b.buff r tocopy
      let btp := btp - tocopy
      if 0 < btp then d ++ slice b.buff 0 btp else d

def lwrbSkip (len : Nat) (b : Lwrb) : Nat × Lwrb :=
  if len = 0 then (0, b)
  else
    let len := min len (lwrbGetFull b)
    let b := { b with r := b.r + len }
    (len, if b.size ≤ b.r then { b with r := b.r - b.size } else b)

def lwrbAdvance (len : Nat) (b : Lwrb) : Nat × Lwrb :=
  if len = 0 then (0, b)
  else
    let len := min len (lwrbGetFree b)
    let b := { b with w := b.w + len }
    (len, if b.size ≤ b.w then { b with w := b.w - b.size } else b)

def lwrbReset (b : Lwrb) : Lwrb := { b with w := 0, r := 0 }

def lwrbGetLinearBlockReadAddress (b : Lwrb) : Nat := b.r

def lwrbGetLinearBlockReadLength (b : Lwrb) : Nat :=
  if b.r < b.w then b.w - b.r
  else if b.w < b.r then b.size - b.r
  else 0

def lwrbGetLinearBlockWriteAddress (b : Lwrb) : Nat := b.w

def lwrbGetLinearBlockWriteLength (b : Lwrb) : Nat :=
  if b.r ≤ b.w then
    let len := b.size - b.w
    if b.r = 0 then len - 1 else len
  else b.r - b.w - 1

/-! ## What a buffer holds -/

/-- The buffer holds the bytes `q`. A reader may be about to set `r` back from `size` to 0. -/
structure Holds (b : Lwrb) (q : List UInt8) : Prop where
  r_le : b.r ≤ b.size
  fits : q.length < b.size
  w_eq : b.w = (b.r + q.length) % b.size
  data : span b.size b.buff b.r q.length = q

variable {b : Lwrb} {q xs : List UInt8} {k n : Nat}

theorem Holds.w_lt (h : Holds b q) : b.w < b.size := by
  rw [h.w_eq]
  exact Nat.mod_lt _ (by have := h.fits; omega)

theorem Holds.w_cases (h : Holds b q) :
    b.w = if b.r + q.length < b.size then b.r + q.length else b.r + q.length - b.size :=
  h.w_eq.trans (ring_mod h.r_le h.fits)

theorem Holds.getFull (h : Holds b q) : lwrbGetFull b = q.length := by
  have hr := h.r_le
  have hfits := h.fits
  have hw := h.w_cases
  rw [lwrbGetFull]
  grind

theorem Holds.getFree (h : Holds b q) : lwrbGetFree b = b.size - 1 - q.length := by
  have hr := h.r_le
  have hfits := h.fits
  have hw := h.w_cases
  rw [lwrbGetFree]
  grind

theorem holds_init {buffdata : Nat → UInt8} {size : Nat} (h : lwrbInit buffdata size = some b) :
    Holds b [] ∧ b.size = size := by
  rw [lwrbInit] at h
  split at h
  · cases h
  · next hsize =>
    cases h
    exact ⟨⟨Nat.zero_le _, Nat.pos_of_ne_zero hsize, Nat.zero_mod _ ▸ rfl, rfl⟩, rfl⟩

/-- Bytes behind those held, where there is room for them. -/
theorem Holds.stored (h : Holds b q) (hfit : q.length + xs.length < b.size) :
    Holds { b with buff := putSpan b.size b.buff b.w xs, w := (b.w + xs.length) % b.size } (q ++ xs) := by
  refine ⟨h.r_le, by rw [List.length_append]; exact hfit, ?_, ?_⟩
  · rw [List.length_append, ← Nat.add_assoc, h.w_eq, Nat.mod_add_mod]
  · rw [List.length_append, h.w_eq]
    refine (span_append ?_ (Nat.le_of_lt hfit)).trans (by rw [h.data])
    exact Nat.zero_lt_of_lt hfit

/-- The first `k` bytes are given up. -/
theorem Holds.released {r : Nat} (h : Holds b q) (hk : k ≤ q.length) (hr : r ≤ b.size)
    (hmod : r % b.size = (b.r + k) % b.size) : Holds { b with r := r } (q.drop k) := by
  have hlen : (q.drop k).length = q.length - k := List.length_drop
  have hfits : (q.drop k).length < b.size := by have := h.fits; omega
  refine ⟨hr, hfits, ?_, ?_⟩
  · rw [hlen, ← Nat.mod_add_mod, hmod, Nat.mod_add_mod, h.w_eq, Nat.add_assoc, Nat.add_sub_cancel' hk]
  · rw [hlen, ← span_mod, hmod, span_mod, ← drop_span hk, h.data]

/-! ## Each function on what the buffer holds -/

theorem lwrbWrite_eq (hw : b.w < b.size) (data : List UInt8) (hfree : lwrbGetFree b < b.size) :
    lwrbWrite data b = (min (lwrbGetFree b) data.length,
      { b with
        buff := putSpan b.size b.buff b.w (data.take (min (lwrbGetFree b) data.length))
        w := (b.w + min (lwrbGetFree b) data.length) % b.size }) := by
  generalize hn : min (lwrbGetFree b) data.length = n
  have hlt : n < b.size := by omega
  rw [lwrbWrite, hn, ring_mod (by omega) hlt, putSpan]
  by_cases hzero : n = 0
  · rw [if_pos hzero, hzero, List.take_zero, List.take_nil, List.drop_nil, store_nil, store_nil,
      if_pos (by omega)]
    rfl
  · rw [if_neg hzero, List.take_take, List.drop_take]
    by_cases hover : b.size - b.w < n
    · simp only [Nat.min_eq_left (Nat.le_of_lt hover), if_pos (show 0 < n - (b.size - b.w) by omega)]
      rw [if_neg (show ¬ b.size ≤ n - (b.size - b.w) by omega), if_neg (show ¬ b.w + n < b.size by omega),
        show b.size - b.w + (n - (b.size - b.w)) = n by omega,
        show n - (b.size - b.w) = b.w + n - b.size by omega]
    · have hfit : n ≤ b.size - b.w := Nat.le_of_not_lt hover
      simp only [Nat.min_eq_right hfit, Nat.sub_self, Nat.sub_eq_zero_of_le hfit, List.take_zero, store_nil,
        if_neg (Nat.lt_irrefl 0)]
      by_cases hend : b.size ≤ b.w + n
      · rw [if_pos hend, if_neg (show ¬ b.w + n < b.size by omega), show b.w + n - b.size = 0 by omega]
        rfl
      · rw [if_neg hend, if_pos (show b.w + n < b.size by omega)]
        rfl

theorem Holds.write (h : Holds b q) (data : List UInt8) :
    (lwrbWrite data b).1 = min (b.size - 1 - q.length) data.length ∧ (lwrbWrite data b).2.size = b.size ∧
    (lwrbWrite data b).2.r = b.r ∧
    Holds (lwrbWrite data b).2 (q ++ data.take (b.size - 1 - q.length)) := by
  have hfits := h.fits
  have hfree := h.getFree
  rw [lwrbWrite_eq h.w_lt data (by omega), hfree]
  have hlen : (data.take (b.size - 1 - q.length)).length = min (b.size - 1 - q.length) data.length :=
    List.length_take
  have hstored := @Holds.stored b q (data.take (b.size - 1 - q.length)) h (by omega)
  rw [hlen] at hstored
  have htake : data.take (min (b.size - 1 - q.length) data.length) = data.take (b.size - 1 - q.length) := by
    rw [← List.take_eq_take_min]
  rw [htake]
  exact ⟨rfl, rfl, rfl, hstored⟩

/-- What is read up to the end of the buffer and from its start is what the ring holds. -/
theorem slices_eq (hr : n ≤ b.size) (hle : b.r ≤ b.size) :
    (if 0 < n - min (b.size - b.r) n
      then slice b.buff b.r (min (b.size - b.r) n) ++ slice b.buff 0 (n - min (b.size - b.r) n)
      else slice b.buff b.r (min (b.size - b.r) n)) = span b.size b.buff b.r n := by
  rw [span_eq_slices hle hr]
  split
  · rfl
  · next h => rw [Nat.eq_zero_of_not_pos h, slice_zero, List.append_nil]

theorem Holds.span_take (h : Holds b q) : span b.size b.buff b.r (min k q.length) = q.take k := by
  rw [← take_span, h.data]

theorem lwrbRead_eq (hle : b.r ≤ b.size) (hfull : lwrbGetFull b < b.size) :
    ∃ r, lwrbRead n b = (span b.size b.buff b.r (min (lwrbGetFull b) n), { b with r := r }) ∧ r ≤ b.size ∧
      r % b.size = (b.r + min (lwrbGetFull b) n) % b.size := by
  generalize hk : min (lwrbGetFull b) n = k
  have hlt : k < b.size := by omega
  rw [lwrbRead, hk]
  by_cases hzero : k = 0
  · rw [if_pos hzero, hzero]
    exact ⟨b.r, rfl, hle, rfl⟩
  · have hmod := ring_mod hle hlt
    simp only [if_neg hzero, slices_eq (Nat.le_of_lt hlt) hle]
    by_cases hover : 0 < k - min (b.size - b.r) k
    · simp only [if_pos hover]
      have hr : k - min (b.size - b.r) k = b.r + k - b.size := by omega
      rw [if_neg (show ¬ b.r + k < b.size by omega)] at hmod
      rw [if_neg (show ¬ b.size ≤ k - min (b.size - b.r) k by omega), hr]
      exact ⟨_, rfl, by omega, (Nat.mod_eq_of_lt (by omega)).trans hmod.symm⟩
    · have hmin : min (b.size - b.r) k = k := by omega
      simp only [if_neg hover]
      rw [hmin]
      split
      · next hend =>
        have hsum : b.r + k = b.size := by omega
        refine ⟨0, rfl, Nat.zero_le _, ?_⟩
        rw [hsum, Nat.mod_self, Nat.zero_mod]
      · next hend => exact ⟨_, rfl, by omega, rfl⟩

theorem Holds.read (h : Holds b q) (n : Nat) : (lwrbRead n b).1 = q.take n ∧
    (lwrbRead n b).2.size = b.size ∧ Holds (lwrbRead n b).2 (q.drop n) := by
  have hfull := h.getFull
  obtain ⟨r, hread, hr, hmod⟩ := @lwrbRead_eq b n h.r_le (by have := h.fits; omega)
  rw [hfull, Nat.min_comm] at hread hmod
  rw [hread]
  refine ⟨h.span_take, rfl, ?_⟩
  have hheld := h.released (Nat.min_le_right n q.length) hr hmod
  rw [List.drop_eq_drop_min]
  exact hheld

theorem Holds.peek (h : Holds b q) (skipCount btp : Nat) :
    lwrbPeek skipCount btp b = (q.drop skipCount).take btp := by
  have hle := h.r_le
  have hfits := h.fits
  rw [lwrbPeek, h.getFull]
  by_cases hskip : q.length ≤ skipCount
  · rw [if_pos hskip, List.drop_of_length_le hskip, List.take_nil]
  · simp only [if_neg hskip]
    have hrest := h.released (k := skipCount) (r := if b.size ≤ b.r + skipCount then b.r + skipCount - b.size
      else b.r + skipCount) (by omega) (by split <;> omega) (by
        split
        · next hend => rw [Nat.mod_eq_sub_mod hend]
        · rfl)
    generalize (if b.size ≤ b.r + skipCount then b.r + skipCount - b.size else b.r + skipCount) = r at hrest ⊢
    have hlen : (q.drop skipCount).length = q.length - skipCount := List.length_drop
    have hdata := hrest.span_take (k := btp)
    rw [hlen] at hdata
    rw [← hdata, Nat.min_comm btp]
    split
    · next hzero => rw [hzero, span_zero]
    · exact @slices_eq { b with r := r } (min (q.length - skipCount) btp) (show _ ≤ b.size by omega) hrest.r_le

theorem Holds.skip (h : Holds b q) (len : Nat) : (lwrbSkip len b).1 = min len q.length ∧
    (lwrbSkip len b).2.size = b.size ∧ Holds (lwrbSkip len b).2 (q.drop len) := by
  have hle := h.r_le
  have hfits := h.fits
  rw [lwrbSkip, h.getFull]
  split
  · next hzero =>
    rw [hzero, Nat.zero_min]
    exact ⟨rfl, rfl, h⟩
  · rw [List.drop_eq_drop_min]
    simp only [true_and]
    split
    · next hend =>
      refine ⟨rfl, h.released (Nat.min_le_right _ _) (by omega) ?_⟩
      rw [← Nat.mod_eq_sub_mod hend]
    · next hend => exact ⟨rfl, h.released (Nat.min_le_right _ _) (by omega) rfl⟩

theorem Holds.reset (h : Holds b q) : Holds (lwrbReset b) [] :=
  ⟨Nat.zero_le _, Nat.zero_lt_of_lt h.fits, Nat.zero_mod _ ▸ rfl, rfl⟩

theorem Holds.linearReadLength (h : Holds b q) :
    lwrbGetLinearBlockReadLength b = min (b.size - b.r) q.length := by
  have hle := h.r_le
  have hfits := h.fits
  have hw := h.w_cases
  rw [lwrbGetLinearBlockReadLength]
  grind

/-- The linear block for reading is the start of what is held. -/
theorem Holds.linearRead (h : Holds b q) :
    slice b.buff (lwrbGetLinearBlockReadAddress b) (lwrbGetLinearBlockReadLength b) =
      q.take (lwrbGetLinearBlockReadLength b) := by
  have hle := h.r_le
  rw [h.linearReadLength, ← h.span_take, Nat.min_eq_left (Nat.min_le_right _ _), lwrbGetLinearBlockReadAddress]
  exact (span_eq_slice (by omega)).symm

/-- The linear block for reading is sent and then skipped. -/
def sendBlock (b : Lwrb) : List UInt8 × Lwrb :=
  (slice b.buff (lwrbGetLinearBlockReadAddress b) (lwrbGetLinearBlockReadLength b),
    (lwrbSkip (lwrbGetLinearBlockReadLength b) b).2)

/-- Two blocks are all that the buffer holds. -/
theorem Holds.sendBlocks (h : Holds b q) (hr : b.r < b.size) :
    (sendBlock b).1 ++ (sendBlock (sendBlock b).2).1 = q ∧ Holds (sendBlock (sendBlock b).2).2 [] := by
  have hfits := h.fits
  have hlen := h.linearReadLength
  obtain ⟨-, hsize, hheld⟩ := h.skip (lwrbGetLinearBlockReadLength b)
  have hlen' := hheld.linearReadLength
  -- Either the first block is everything, or it ends where the buffer does and `r` goes back to 0.
  have hstart : lwrbGetLinearBlockReadLength b < q.length →
      (lwrbSkip (lwrbGetLinearBlockReadLength b) b).2.r = 0 := by
    intro hlt
    rw [lwrbSkip, if_neg (by omega), h.getFull, Nat.min_eq_left (Nat.le_of_lt hlt)]
    simp only
    rw [if_pos (by omega)]
    show b.r + _ - b.size = 0
    omega
  have hrest : lwrbGetLinearBlockReadLength (lwrbSkip (lwrbGetLinearBlockReadLength b) b).2 =
      (q.drop (lwrbGetLinearBlockReadLength b)).length := by
    rw [hlen', hsize, List.length_drop]
    by_cases hlt : lwrbGetLinearBlockReadLength b < q.length
    · rw [hstart hlt]
      omega
    · omega
  obtain ⟨-, -, hend⟩ := hheld.skip (q.drop (lwrbGetLinearBlockReadLength b)).length
  rw [sendBlock, sendBlock, h.linearRead, hheld.linearRead, hrest, List.take_length]
  rw [List.drop_length] at hend
  exact ⟨List.take_append_drop _ _, hend⟩

/-- Bytes that something else stores in the linear block for writing are held once `lwrb_advance` is told
of them. -/
theorem Holds.transfer (h : Holds b q) (hxs : xs.length ≤ lwrbGetLinearBlockWriteLength b) :
    let written := { b with buff := store b.buff (lwrbGetLinearBlockWriteAddress b) xs }
    (lwrbAdvance xs.length written).1 = xs.length ∧ (lwrbAdvance xs.length written).2.size = b.size ∧
      Holds (lwrbAdvance xs.length written).2 (q ++ xs) := by
  have hle := h.r_le
  have hfits := h.fits
  have hw := h.w_cases
  have hlin : b.w + xs.length ≤ b.size ∧ q.length + xs.length < b.size := by
    rw [lwrbGetLinearBlockWriteLength] at hxs
    grind
  have hstored := @Holds.stored b q xs h hlin.2
  have hput : putSpan b.size b.buff b.w xs = store b.buff b.w xs := by
    rw [putSpan, List.take_of_length_le (by omega), List.drop_of_length_le (by omega), store_nil]
  rw [hput, ring_mod (Nat.le_of_lt h.w_lt) (by omega)] at hstored
  have hfree : lwrbGetFree { b with buff := store b.buff b.w xs } = b.size - 1 - q.length := h.getFree
  change (lwrbAdvance xs.length { b with buff := store b.buff b.w xs }).1 = _ ∧
    (lwrbAdvance xs.length { b with buff := store b.buff b.w xs }).2.size = _ ∧
    Holds (lwrbAdvance xs.length { b with buff := store b.buff b.w xs }).2 _
  rw [lwrbAdvance, hfree]
  by_cases hzero : xs.length = 0
  · rw [if_pos hzero]
    obtain rfl := List.length_eq_zero_iff.mp hzero
    rw [List.append_nil, store_nil]
    exact ⟨rfl, rfl, h⟩
  · simp only [if_neg hzero, Nat.min_eq_left (show xs.length ≤ b.size - 1 - q.length by omega), true_and]
    split
    · next hend =>
      rw [if_neg (by omega)] at hstored
      exact ⟨rfl, hstored⟩
    · next hend =>
      rw [if_pos (by omega)] at hstored
      exact ⟨rfl, hstored⟩

/-! ## A queue -/

/-- A call of a function of the buffer. `transfer` is a transfer into the linear block for writing. -/
inductive Call where
  | write (data : List UInt8)
  | read (btr : Nat)
  | peek (skipCount btp : Nat)
  | skip (len : Nat)
  | transfer (data : List UInt8)
  | reset
  | getFree
  | getFull

/-- What a call returns. -/
inductive Result where
  | count (n : Nat)
  | bytes (d : List UInt8)
deriving DecidableEq

def lwrb : Machine Lwrb Call Result Empty where
  step b
    | .write data => ([.count (lwrbWrite data b).1], .inl (lwrbWrite data b).2)
    | .read btr => ([.bytes (lwrbRead btr b).1], .inl (lwrbRead btr b).2)
    | .peek skipCount btp => ([.bytes (lwrbPeek skipCount btp b)], .inl b)
    | .skip len => ([.count (lwrbSkip len b).1], .inl (lwrbSkip len b).2)
    | .transfer data =>
      let b := { b with buff := store b.buff (lwrbGetLinearBlockWriteAddress b) data }
      ([.count (lwrbAdvance data.length b).1], .inl (lwrbAdvance data.length b).2)
    | .reset => ([], .inl (lwrbReset b))
    | .getFree => ([.count (lwrbGetFree b)], .inl b)
    | .getFull => ([.count (lwrbGetFull b)], .inl b)

/-- A queue of at most `capacity` bytes. -/
def queue (capacity : Nat) : Machine (List UInt8) Call Result Empty where
  step q
    | .write data => ([.count (min (capacity - q.length) data.length)], .inl (q ++ data.take (capacity - q.length)))
    | .read btr => ([.bytes (q.take btr)], .inl (q.drop btr))
    | .peek skipCount btp => ([.bytes ((q.drop skipCount).take btp)], .inl q)
    | .skip len => ([.count (min len q.length)], .inl (q.drop len))
    | .transfer data => ([.count data.length], .inl (q ++ data))
    | .reset => ([], .inl [])
    | .getFree => ([.count (capacity - q.length)], .inl q)
    | .getFull => ([.count q.length], .inl q)

/-- A transfer stays in the linear block. -/
def Call.InBlock (b : Lwrb) : Call → Prop
  | .transfer data => data.length ≤ lwrbGetLinearBlockWriteLength b
  | _ => True

theorem queue_step {size : Nat} (hsize : b.size = size) (h : Holds b q) (c : Call) (hc : c.InBlock b) :
    ∃ out q' b', (queue (size - 1)).step q c = (out, .inl q') ∧ lwrb.step b c = (out, .inl b') ∧
      b'.size = size ∧ Holds b' q' := by
  subst hsize
  cases c with
  | write data =>
    obtain ⟨hcount, hsame, -, hheld⟩ := h.write data
    exact ⟨_, _, _, rfl, by rw [← hcount]; rfl, hsame, hheld⟩
  | read btr =>
    obtain ⟨hbytes, hsame, hheld⟩ := h.read btr
    exact ⟨_, _, _, rfl, by rw [← hbytes]; rfl, hsame, hheld⟩
  | peek skipCount btp => exact ⟨_, _, _, rfl, by rw [← h.peek]; rfl, rfl, h⟩
  | skip len =>
    obtain ⟨hcount, hsame, hheld⟩ := h.skip len
    exact ⟨_, _, _, rfl, by rw [← hcount]; rfl, hsame, hheld⟩
  | transfer data =>
    obtain ⟨hcount, hsame, hheld⟩ := h.transfer hc
    exact ⟨_, _, _, rfl, Prod.ext (congrArg (fun n => [Result.count n]) hcount) rfl, hsame, hheld⟩
  | reset => exact ⟨_, _, _, rfl, rfl, rfl, h.reset⟩
  | getFree => exact ⟨_, _, _, rfl, by rw [← h.getFree]; rfl, rfl, h⟩
  | getFull => exact ⟨_, _, _, rfl, by rw [← h.getFull]; rfl, rfl, h⟩

/-- Along every run of calls the buffer answers as a queue of `size - 1` bytes, as long as transfers stay
in the linear block. -/
theorem lwrb_refines_queue {buffdata : Nat → UInt8} {size : Nat} {calls : List Call}
    (hinit : lwrbInit buffdata size = some b) (hcalls : lwrb.Along (fun b c => c.InBlock b) b calls) :
    ∃ log q b', (queue (size - 1)).run [] calls = (log, .inl q) ∧ lwrb.run b calls = (log, .inl b') ∧
      Holds b' q := by
  obtain ⟨hheld, hsize⟩ := holds_init hinit
  obtain ⟨log, q, b', hq, hb, -, h⟩ := Machine.run_simulates (R := fun q b => b.size = size ∧ Holds b q)
    (fun q b c h hc => queue_step h.1 h.2 c hc) ⟨hsize, hheld⟩ hcalls
  exact ⟨log, q, b', hq, hb, h⟩

theorem lwrb_refines_queue_sample :
    ∃ log q b', (queue (4 - 1)).run [] [.write [1, 2, 3, 4], .read 2, .transfer [5], .read 4] = (log, .inl q) ∧
      lwrb.run ⟨fun _ => 0, 4, 0, 0⟩ [.write [1, 2, 3, 4], .read 2, .transfer [5], .read 4] = (log, .inl b') ∧
      Holds b' q := by
  refine lwrb_refines_queue (rfl : lwrbInit (fun _ => 0) 4 = some ⟨fun _ => 0, 4, 0, 0⟩) ?_
  exact Machine.along_cons trivial rfl (Machine.along_cons trivial rfl (Machine.along_cons
    (show 1 ≤ 1 from Nat.le_refl 1) rfl (Machine.along_cons trivial rfl trivial)))

end McuUtilities.RingBuffer
