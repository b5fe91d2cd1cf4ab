import McuUtilities.Lib.Machine
import McuUtilities.Lib.Ring

/-!
# Asynchronous output (`elog_async.c`)

Logs go into a ring of `OUTPUT_BUF_SIZE` bytes, from which another task takes and outputs them. Two flags
tell a full ring from an empty one. Both sides hold the output lock, so they take turns in any order.
While no empty log comes when the ring is empty, it is a queue; an empty log in an empty ring clears the
flag, and the ring counts as full of whatever it contains.
-/

namespace McuUtilities.EasyLogger

/-- The static variables of `elog_async.c`. -/
structure Async where
  logBuf : Nat → UInt8
  writeIndex : Nat
  readIndex : Nat
  bufIsFull : Bool
  bufIsEmpty : Bool
  isEnabled : Bool

/-- The static variables at the start. -/
def Async.start : Async := ⟨fun _ => 0, 0, 0, false, true, false⟩

/-! ## The functions -/

section functions
variable (outputBufSize : Nat)

def elogAsyncGetBufUsed (a : Async) : Nat :=
  if a.readIndex < a.writeIndex then a.writeIndex - a.readIndex
  else if ¬ a.bufIsFull ∧ ¬ a.bufIsEmpty then outputBufSize - (a.readIndex - a.writeIndex)
  else if a.bufIsFull then outputBufSize
  else 0

def asyncGetBufSpace (a : Async) : Nat := outputBufSize - elogAsyncGetBufUsed outputBufSize a

/-- The copy into the ring and the new `write_index`. -/
def copyIn (log : List UInt8) (size : Nat) (a : Async) : Async :=
  if a.writeIndex + size < outputBufSize then
    { a with
      logBuf := store a.logBuf a.writeIndex (log.take size)
      writeIndex := a.writeIndex + size }
  else
    let left := outputBufSize - a.writeIndex
    { a with
      logBuf := store (store a.logBuf a.writeIndex (log.take left)) 0 ((log.drop left).take (size - left))
      writeIndex := a.writeIndex + size - outputBufSize }

/-- `async_put_log(log, size)` with all of `log`. -/
def asyncPutLog (log : List UInt8) (a : Async) : Nat × Async :=
  let space := asyncGetBufSpace outputBufSize a
  if space = 0 then (0, a)
  else
    let size := if space ≤ log.length then space else log.length
    let a := { a with bufIsFull := if space ≤ log.length then true else a.bufIsFull }
    (size, { copyIn outputBufSize log size a with bufIsEmpty := false })

/-- The copy out of the ring and the new `read_index`. -/
def copyOut (size : Nat) (a : Async) : List UInt8 × Async :=
  if a.readIndex + size < outputBufSize then
    (slice a.logBuf a.readIndex size, { a with readIndex := a.readIndex + size })
  else
    let left := outputBufSize - a.readIndex
    (slice a.logBuf a.readIndex left ++ slice a.logBuf 0 (size - left),
      { a with readIndex := a.readIndex + size - outputBufSize })

/-- `elog_async_get_log(log, size)`, with the bytes it copies. -/
def elogAsyncGetLog (size : Nat) (a : Async) : List UInt8 × Async :=
  let used := elogAsyncGetBufUsed outputBufSize a
  if used = 0 ∨ size = 0 then ([], a)
  else
    let a := { a with bufIsEmpty := if used ≤ size then true else a.bufIsEmpty }
    let size := if used ≤ size then used else size
    let copied := copyOut outputBufSize size a
    (copied.1, { copied.2 with bufIsFull := false })

end functions

/-! ## What the ring holds -/

/-- The ring holds the bytes `q`, and the flags say whether these are all or none. -/
structure Holds (size : Nat) (a : Async) (q : List UInt8) : Prop where
  read_lt : a.readIndex < size
  fits : q.length ≤ size
  write_eq : a.writeIndex = (a.readIndex + q.length) % size
  full : a.bufIsFull = decide (q.length = size)
  empty : a.bufIsEmpty = decide (q.length = 0)
  data : span size a.logBuf a.readIndex q.length = q

variable {size n : Nat} {a : Async} {q log : List UInt8}

theorem Holds.used (h : Holds size a q) : elogAsyncGetBufUsed size a = q.length := by
  have hread := h.read_lt
  have hfits := h.fits
  have hwrite := h.write_eq
  rw [ring_mod_of_lt hread hfits] at hwrite
  rw [elogAsyncGetBufUsed, h.full, h.empty]
  grind

theorem Holds.space (h : Holds size a q) : asyncGetBufSpace size a = size - q.length := by
  rw [asyncGetBufSpace, h.used]

theorem holds_start (hsize : 0 < size) : Holds size Async.start [] :=
  ⟨hsize, Nat.zero_le _, (Nat.zero_mod _).symm, (decide_eq_false (Nat.ne_of_lt hsize)).symm, rfl, rfl⟩

theorem copyIn_eq (hwrite : a.writeIndex < size) (hn : n ≤ size) : copyIn size log n a =
    { a with
      logBuf := putSpan size a.logBuf a.writeIndex (log.take n)
      writeIndex := (a.writeIndex + n) % size } := by
  rw [copyIn, ring_mod_of_lt hwrite hn, putSpan, List.take_take, List.drop_take]
  split
  · next hfit =>
    rw [Nat.min_eq_right (by omega), Nat.sub_eq_zero_of_le (by omega), List.take_zero, store_nil]
  · next hwrap => rw [Nat.min_eq_left (by omega)]

theorem copyOut_eq (hread : a.readIndex < size) (hn : n ≤ size) : copyOut size n a =
    (span size a.logBuf a.readIndex n, { a with readIndex := (a.readIndex + n) % size }) := by
  rw [copyOut, ring_mod_of_lt hread hn, span_eq_slices (Nat.le_of_lt hread) hn]
  split
  · next hfit => rw [Nat.min_eq_right (by omega), Nat.sub_self, slice_zero, List.append_nil]
  · next hwrap => rw [Nat.min_eq_left (by omega)]

/-- A log is appended as far as there is room for it. -/
theorem Holds.put (h : Holds size a q) (hlog : log ≠ [] ∨ q ≠ []) :
    Holds size (asyncPutLog size log a).2 (q ++ log.take (size - q.length)) ∧
      (asyncPutLog size log a).2.isEnabled = a.isEnabled := by
  have hread := h.read_lt
  have hfits := h.fits
  rw [asyncPutLog, h.space]
  by_cases hzero : size - q.length = 0
  · rw [if_pos hzero, hzero, List.take_zero, List.append_nil]
    exact ⟨h, rfl⟩
  · rw [if_neg hzero]
    generalize hn : (if size - q.length ≤ log.length then size - q.length else log.length) = n
    have hmin : min (size - q.length) log.length = n := by
      rw [← hn]
      grind
    have htake : log.take (size - q.length) = log.take n := by rw [List.take_eq_take_min, hmin]
    have hlen : (log.take n).length = n := by rw [← htake, List.length_take, hmin]
    have hle : q.length + n ≤ size := by grind
    have hnone : q.length + n ≠ 0 := by
      rw [ne_eq, ← List.length_eq_zero_iff, ne_eq, ← List.length_eq_zero_iff] at hlog
      grind
    have hwrite : a.writeIndex < size := h.write_eq ▸ Nat.mod_lt _ (by omega)
    have hfull : (if size - q.length ≤ log.length then true else a.bufIsFull) =
        decide (q.length + n = size) := by
      rw [h.full]
      grind
    have hcopy := @copyIn_eq size n { a with bufIsFull := decide (q.length + n = size) } log hwrite (by omega)
    simp only [hfull, hcopy, htake]
    refine ⟨⟨hread, ?_, ?_, ?_, ?_, ?_⟩, trivial⟩
    · rw [List.length_append, hlen]
      exact hle
    · rw [List.length_append, hlen, h.write_eq, Nat.mod_add_mod, Nat.add_assoc]
    · rw [List.length_append, hlen]
    · rw [List.length_append, hlen]
      exact (decide_eq_false hnone).symm
    · have happend := @span_append _ a.logBuf size a.readIndex q.length (log.take n) (by omega)
        (by rw [hlen]; exact hle)
      rw [List.length_append, h.write_eq]
      exact happend.trans (by rw [h.data])

/-- The next bytes are taken, as many as are asked for. -/
theorem Holds.get (h : Holds size a q) (n : Nat) : (elogAsyncGetLog size n a).1 = q.take n ∧
    Holds size (elogAsyncGetLog size n a).2 (q.drop n) ∧
    (elogAsyncGetLog size n a).2.isEnabled = a.isEnabled := by
  have hread := h.read_lt
  have hfits := h.fits
  rw [elogAsyncGetLog, h.used]
  by_cases hzero : q.length = 0 ∨ n = 0
  · rw [if_pos hzero]
    rcases hzero with hq | rfl
    · obtain rfl := List.length_eq_zero_iff.mp hq
      rw [List.take_nil, List.drop_nil]
      exact ⟨rfl, h, rfl⟩
    · exact ⟨rfl, h, rfl⟩
  · rw [if_neg hzero]
    generalize hk : (if q.length ≤ n then q.length else n) = k
    have hkq : k ≤ q.length := by grind
    have hpos : 0 < k := by grind
    have hmin : min n q.length = k := by
      rw [← hk]
      grind
    have hempty : (if q.length ≤ n then true else a.bufIsEmpty) = decide (q.length - k = 0) := by
      rw [h.empty]
      grind
    have hlen : (q.drop k).length = q.length - k := List.length_drop
    have hcopy := @copyOut_eq size k { a with bufIsEmpty := decide (q.length - k = 0) } hread (by omega)
    rw [List.take_eq_take_min, List.drop_eq_drop_min, hmin]
    simp only [hempty, hcopy]
    refine ⟨?_, ⟨Nat.mod_lt _ (by omega), by rw [hlen]; omega, ?_, ?_, by rw [hlen], ?_⟩, trivial⟩
    · have htaken := @take_span _ a.logBuf size a.readIndex q.length k
      rw [h.data, Nat.min_eq_left hkq] at htaken
      exact htaken.symm
    · rw [hlen, h.write_eq, Nat.mod_add_mod, Nat.add_assoc, Nat.add_sub_cancel' hkq]
    · rw [hlen]
      exact (decide_eq_false (by omega)).symm
    · rw [hlen, span_mod, ← drop_span hkq, h.data]

/-! ## A queue of logs -/

inductive Call where
  /-- `elog_async_output(level, log, size)` with all of `log`. -/
  | output (level : Nat) (log : List UInt8)
  | getLog (size : Nat)
  | enable (enabled : Bool)

inductive Result where
  /-- `elog_port_output` is called. -/
  | port (log : List UInt8)
  | got (log : List UInt8)

section machines
variable (size outputLvl : Nat)

/-- The log goes into the ring. -/
def Deferred (level : Nat) : Prop := outputLvl = 0 ∨ outputLvl ≤ level

instance {level : Nat} : Decidable (Deferred outputLvl level) := inferInstanceAs (Decidable (_ ∨ _))

def elogAsync : Machine Async Call Result Empty where
  step a
    | .output level log =>
      if a.isEnabled = true ∧ Deferred outputLvl level then ([], .inl (asyncPutLog size log a).2)
      else ([.port log], .inl a)
    | .getLog n => ([.got (elogAsyncGetLog size n a).1], .inl (elogAsyncGetLog size n a).2)
    | .enable enabled => ([], .inl { a with isEnabled := enabled })

/-- A queue of at most `size` bytes, which may be switched on and off. -/
def logQueue : Machine (List UInt8 × Bool) Call Result Empty where
  step s
    | .output level log =>
      if s.2 = true ∧ Deferred outputLvl level then ([], .inl (s.1 ++ log.take (size - s.1.length), s.2))
      else ([.port log], .inl s)
    | .getLog n => ([.got (s.1.take n)], .inl (s.1.drop n, s.2))
    | .enable enabled => ([], .inl (s.1, enabled))

end machines

/-- No empty log is put into an empty queue. One that is output at once may be empty. -/
def Call.NotBlank (outputLvl : Nat) (s : List UInt8 × Bool) : Call → Prop
  | .output level log => s.2 = true ∧ Deferred outputLvl level → log ≠ [] ∨ s.1 ≠ []
  | _ => True

theorem elogAsync_step {outputLvl : Nat} {s : List UInt8 × Bool} {c : Call} (h : Holds size a s.1)
    (henabled : a.isEnabled = s.2) (hc : c.NotBlank outputLvl s) : ∃ out a' s',
      (elogAsync size outputLvl).step a c = (out, .inl a') ∧
      (logQueue size outputLvl).step s c = (out, .inl s') ∧ Holds size a' s'.1 ∧ a'.isEnabled = s'.2 := by
  cases c with
  | output level log =>
    by_cases hdeferred : s.2 = true ∧ Deferred outputLvl level
    · obtain ⟨hput, hsame⟩ := h.put (hc hdeferred)
      exact ⟨_, _, _, if_pos (henabled ▸ hdeferred), if_pos hdeferred, hput, hsame.trans henabled⟩
    · exact ⟨_, _, _, if_neg (henabled ▸ hdeferred), if_neg hdeferred, h, henabled⟩
  | getLog n =>
    obtain ⟨hgot, hrest, hsame⟩ := h.get n
    refine ⟨_, _, (s.1.drop n, s.2), rfl, ?_, hrest, hsame.trans henabled⟩
    rw [hgot]
    rfl
  | enable enabled =>
    exact ⟨_, _, _, rfl, rfl, ⟨h.read_lt, h.fits, h.write_eq, h.full, h.empty, h.data⟩, rfl⟩

/-- Along every run in which no empty log is put into an empty queue, the output is that of a queue of
`OUTPUT_BUF_SIZE` bytes: in order, and cut only where the queue is full. -/
theorem elogAsync_refines_queue (hsize : 0 < size) (outputLvl : Nat) {calls : List Call}
    (hcalls : (logQueue size outputLvl).Along (fun s c => c.NotBlank outputLvl s) ([], false) calls) :
    ∃ log a s, (elogAsync size outputLvl).run Async.start calls = (log, .inl a) ∧
      (logQueue size outputLvl).run ([], false) calls = (log, .inl s) ∧ Holds size a s.1 := by
  obtain ⟨log, a, s, ha, hs, h, -⟩ := Machine.run_simulates
    (R := fun a s => Holds size a s.1 ∧ a.isEnabled = s.2)
    (fun a s c h hc => by
      obtain ⟨out, a', s', ha, hs, hheld, hsame⟩ := elogAsync_step h.1 h.2 hc
      exact ⟨out, a', s', ha, hs, hheld, hsame⟩)
    ⟨holds_start hsize, rfl⟩ hcalls
  exact ⟨log, a, s, ha, hs, h⟩

theorem elogAsync_refines_queue_sample : ∃ log a s,
    (elogAsync 4 0).run Async.start [.enable true, .output 0 [1, 2, 3], .getLog 2, .output 0 [4, 5, 6, 7]] =
      (log, .inl a) ∧
    (logQueue 4 0).run ([], false) [.enable true, .output 0 [1, 2, 3], .getLog 2, .output 0 [4, 5, 6, 7]] =
      (log, .inl s) ∧ Holds 4 a s.1 :=
  elogAsync_refines_queue (by decide) 0 (Machine.along_cons trivial rfl (Machine.along_cons
    (fun _ => .inl (List.cons_ne_nil _ _)) rfl (Machine.along_cons trivial rfl (Machine.along_cons
      (fun _ => .inl (List.cons_ne_nil _ _)) rfl trivial))))

/-- An empty log in an empty ring makes it count as full, and what is got next was not put. -/
theorem Holds.blank (h : Holds size a []) :
    elogAsyncGetBufUsed size (asyncPutLog size [] a).2 = size := by
  have hread := h.read_lt
  have hwrite := h.write_eq
  rw [List.length_nil, Nat.add_zero, Nat.mod_eq_of_lt hread] at hwrite
  have hfull : a.bufIsFull = false := by
    rw [h.full]
    exact decide_eq_false (by rw [List.length_nil]; omega)
  have hcopy := @copyIn_eq size 0 { a with bufIsFull := false } [] (hwrite ▸ hread) (Nat.zero_le _)
  rw [asyncPutLog, h.space, List.length_nil, Nat.sub_zero, if_neg (by omega)]
  simp only [if_neg (show ¬ size ≤ 0 by omega), hfull, hcopy]
  rw [elogAsyncGetBufUsed]
  simp only [Nat.add_zero, hwrite, Nat.mod_eq_of_lt hread]
  rw [if_neg (Nat.lt_irrefl _), Nat.sub_self, Nat.sub_zero]
  rfl

end McuUtilities.EasyLogger
