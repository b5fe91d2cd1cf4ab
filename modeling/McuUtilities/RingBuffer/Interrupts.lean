import McuUtilities.RingBuffer.Lwrb

/-!
# Writing from an interrupt (`lwrb.c`)

The main loop reads a buffer that an interrupt writes. A call of `lwrb_read` is cut at its accesses to
the buffer and to `w`, which the interrupt changes, and between any two of them the interrupt may call
`lwrb_write`. No byte is lost, read twice or read out of order, and a read returns what it would have
returned without the interrupts.
-/

namespace McuUtilities.RingBuffer

/-! ## A read in steps -/

/-- Where the main loop is in `lwrb_read`. -/
inductive ReadPoint where
  | idle
  /-- It copies `tocopy` of the `btr` bytes from `r` on, and has copied `d`. -/
  | linear (tocopy btr : Nat) (d : List UInt8)
  /-- It copies `btr` bytes from the start of the buffer, and has copied `rest` behind `d`. -/
  | overflow (btr : Nat) (d rest : List UInt8)
  /-- It is about to check for the end of the buffer. -/
  | check (d : List UInt8)

structure Reader where
  buff : Lwrb
  point : ReadPoint

/-- A step of the main loop, which calls `lwrb_read` for `btr` bytes when it is not reading. -/
def mainStep (btr : Nat) (b : Lwrb) : ReadPoint → Option (List UInt8) × Reader
  | .idle =>
    let btr := min (lwrbGetFull b) btr
    if btr = 0 then (some [], ⟨b, .idle⟩) else (none, ⟨b, .linear (min (b.size - b.r) btr) btr []⟩)
  | .linear tocopy btr d =>
    if d.length < tocopy then (none, ⟨b, .linear tocopy btr (d ++ [b.buff (b.r + d.length)])⟩)
    else
      let b := { b with r := b.r + tocopy }
      let btr := btr - tocopy
      (none, ⟨b, if 0 < btr then .overflow btr d [] else .check d⟩)
  | .overflow btr d rest =>
    if rest.length < btr then (none, ⟨b, .overflow btr d (rest ++ [b.buff rest.length])⟩)
    else (none, ⟨{ b with r := btr }, .check (d ++ rest)⟩)
  | .check d => (some d, ⟨if b.size ≤ b.r then { b with r := 0 } else b, .idle⟩)

inductive Event where
  /-- A step of the main loop. -/
  | main (btr : Nat)
  /-- An interrupt writes. -/
  | write (data : List UInt8)

inductive Answer where
  /-- A read has returned. -/
  | got (d : List UInt8)
  /-- The buffer took these bytes. -/
  | wrote (data : List UInt8)

def reader : Machine Reader Event Answer Empty where
  step s
    | .main btr =>
      let r := mainStep btr s.buff s.point
      (r.1.toList.map .got, .inl r.2)
    | .write data =>
      let r := lwrbWrite data s.buff
      ([.wrote (data.take r.1)], .inl ⟨r.2, s.point⟩)

/-! ## What a read has copied -/

/-- What it has copied of the bytes whose place it has given up. -/
def ReadPoint.gone : ReadPoint → List UInt8
  | .idle | .linear .. => []
  | .overflow _ d _ | .check d => d

/-- How many bytes of those in the buffer it takes. -/
def ReadPoint.due (btr : Nat) : ReadPoint → Nat
  | .idle => btr
  | .linear _ n _ | .overflow n _ _ => n
  | .check _ => 0

/-- The copied bytes are those at the front of the buffer, as far as they are not given up yet. -/
def ReadPoint.Copies (b : Lwrb) (q : List UInt8) : ReadPoint → Prop
  | .idle | .check _ => True
  | .linear tocopy n d =>
    n ≤ q.length ∧ tocopy = min (b.size - b.r) n ∧ d.length ≤ tocopy ∧ d = q.take d.length
  | .overflow n _ rest => n ≤ q.length ∧ b.r = b.size ∧ rest.length ≤ n ∧ rest = q.take rest.length

variable {b : Lwrb} {q : List UInt8} {p : ReadPoint} {btr k : Nat}

theorem Holds.byte (h : Holds b q) (hk : k < q.length) : some (b.buff ((b.r + k) % b.size)) = q[k]? := by
  have hlt : k < (span b.size b.buff b.r q.length).length := by rw [length_span]; exact hk
  rw [← getElem_span hlt, ← List.getElem?_eq_getElem hlt, h.data]

theorem take_concat {d : List UInt8} {x : UInt8} (hd : d = q.take d.length) (hx : some x = q[d.length]?) :
    d ++ [x] = q.take (d ++ [x]).length := by
  rw [List.length_append, List.length_singleton, List.take_add_one, ← hx, ← hd]
  rfl

/-- A step of the main loop keeps what is read, and returns it at the end. -/
theorem mainStep_spec (h : Holds b q) (hp : p.Copies b q) : ∃ q' b' p' out,
    mainStep btr b p = (out, ⟨b', p'⟩) ∧ Holds b' q' ∧ p'.Copies b' q' ∧
    match out with
    | none => p' ≠ .idle ∧ p'.gone ++ q' = p.gone ++ q ∧
        p'.gone ++ q'.take (p'.due btr) = p.gone ++ q.take (p.due btr)
    | some d => p' = .idle ∧ d ++ q' = p.gone ++ q ∧ d = p.gone ++ q.take (p.due btr) := by
  have hle := h.r_le
  have hfits := h.fits
  cases p with
  | idle =>
    rw [mainStep, h.getFull]
    by_cases hzero : min q.length btr = 0
    · simp only [if_pos hzero]
      refine ⟨q, b, .idle, _, rfl, h, trivial, rfl, rfl, ?_⟩
      rw [ReadPoint.due, List.take_eq_take_min, Nat.min_comm, hzero]
      rfl
    · simp only [if_neg hzero]
      refine ⟨q, b, _, _, rfl, h, ⟨Nat.min_le_left _ _, rfl, Nat.zero_le _, rfl⟩, nofun, rfl, ?_⟩
      rw [ReadPoint.due, ReadPoint.due, Nat.min_comm q.length, ← List.take_eq_take_min]
      rfl
  | linear tocopy n d =>
    obtain ⟨hn, htocopy, hlen, hd⟩ := hp
    rw [mainStep]
    by_cases hmore : d.length < tocopy
    · rw [if_pos hmore]
      have hbyte := h.byte (k := d.length) (by omega)
      rw [Nat.mod_eq_of_lt (by omega)] at hbyte
      refine ⟨q, b, _, _, rfl, h, ⟨hn, htocopy, ?_, take_concat hd hbyte⟩, nofun, rfl, rfl⟩
      rw [List.length_append, List.length_singleton]
      exact hmore
    · rw [if_neg hmore]
      have hall : d = q.take tocopy := by rw [hd]; congr 1; omega
      have hheld := h.released (k := tocopy) (r := b.r + tocopy) (by omega) (by omega) rfl
      by_cases hover : 0 < n - tocopy
      · simp only [if_pos hover]
        refine ⟨_, _, _, _, rfl, hheld, ⟨?_, ?_, Nat.zero_le _, rfl⟩, nofun, ?_, ?_⟩
        · rw [List.length_drop]
          omega
        · show b.r + tocopy = b.size
          omega
        · show d ++ q.drop tocopy = q
          rw [hall, List.take_append_drop]
        · show d ++ (q.drop tocopy).take (n - tocopy) = q.take n
          rw [hall, ← List.take_add]
          congr 1
          omega
      · simp only [if_neg hover]
        refine ⟨_, _, _, _, rfl, hheld, trivial, nofun, ?_, ?_⟩
        · show d ++ q.drop tocopy = q
          rw [hall, List.take_append_drop]
        · show d ++ _ = q.take n
          rw [ReadPoint.due, List.take_zero, List.append_nil, hall]
          congr 1
          omega
  | overflow n d rest =>
    obtain ⟨hn, hr, hlen, hover⟩ := hp
    rw [mainStep]
    by_cases hmore : rest.length < n
    · rw [if_pos hmore]
      have hbyte := h.byte (k := rest.length) (by omega)
      rw [hr, Nat.add_mod_left, Nat.mod_eq_of_lt (by omega)] at hbyte
      refine ⟨q, b, _, _, rfl, h, ⟨hn, hr, ?_, take_concat hover hbyte⟩, nofun, rfl, rfl⟩
      rw [List.length_append, List.length_singleton]
      exact hmore
    · rw [if_neg hmore]
      have hall : rest = q.take n := by rw [hover]; congr 1; omega
      have hheld := h.released (k := n) (r := n) hn (by omega) (by rw [hr, Nat.add_mod_left])
      refine ⟨_, _, _, _, rfl, hheld, trivial, nofun, ?_, ?_⟩
      · show (d ++ rest) ++ q.drop n = d ++ q
        rw [hall, List.append_assoc, List.take_append_drop]
      · show (d ++ rest) ++ (q.drop n).take 0 = d ++ q.take n
        rw [List.take_zero, List.append_nil, hall]
  | check d =>
    rw [mainStep]
    refine ⟨q, _, .idle, _, rfl, ?_, trivial, rfl, rfl, (List.append_nil d).symm⟩
    split
    · next hend =>
      have hsize : b.r = b.size := Nat.le_antisymm hle hend
      have hheld := h.released (k := 0) (r := 0) (Nat.zero_le _) (Nat.zero_le _)
        (by rw [hsize, Nat.add_zero, Nat.mod_self, Nat.zero_mod])
      exact hheld
    · exact h

/-! ## Runs -/

/-- The bytes the buffer took. -/
def written (log : List (Event × List Answer)) : List UInt8 :=
  log.flatMap fun e => e.2.flatMap fun
    | .wrote data => data
    | .got _ => []

/-- What the reads have returned. -/
def results (log : List (Event × List Answer)) : List (List UInt8) :=
  log.flatMap fun e => e.2.filterMap fun
    | .wrote _ => none
    | .got d => some d

section runs
variable {log : List (Event × List Answer)} {s s' : Reader} {out : List Answer}

theorem written_concat {e : Event} : written (log ++ [(e, out)]) = written log ++ written [(e, out)] :=
  List.flatMap_append

theorem results_concat {e : Event} : results (log ++ [(e, out)]) = results log ++ results [(e, out)] :=
  List.flatMap_append

theorem reader_main {out : Option (List UInt8)} (h : mainStep btr b p = (out, s')) :
    reader.step ⟨b, p⟩ (.main btr) = (out.toList.map .got, .inl s') := by
  rw [← Prod.eta (mainStep btr b p)] at h
  obtain ⟨rfl, rfl⟩ := Prod.mk.inj h
  rfl

/-- An interrupt appends what the buffer takes to what it holds. -/
theorem write_spec {data : List UInt8} (h : Holds b q) (hp : p.Copies b q) : ∃ b' taken,
    reader.step ⟨b, p⟩ (.write data) = ([.wrote taken], .inl ⟨b', p⟩) ∧ Holds b' (q ++ taken) ∧
    p.Copies b' (q ++ taken) ∧ (p ≠ .idle → (q ++ taken).take (p.due 0) = q.take (p.due 0)) := by
  obtain ⟨hcount, hsize, hr, hheld⟩ := h.write data
  have htaken : data.take (lwrbWrite data b).1 = data.take (b.size - 1 - q.length) := by
    rw [hcount, ← List.take_eq_take_min]
  refine ⟨_, _, rfl, ?_, ?_, fun hbusy => ?_⟩
  · rw [htaken]
    exact hheld
  · cases p with
    | idle | check => trivial
    | linear tocopy n d =>
      obtain ⟨hn, htocopy, hlen, hd⟩ := hp
      refine ⟨by rw [List.length_append]; omega, by rw [hsize, hr]; exact htocopy, hlen, ?_⟩
      rw [List.take_append_of_le_length (by omega)]
      exact hd
    | overflow n d rest =>
      obtain ⟨hn, hend, hlen, hover⟩ := hp
      refine ⟨by rw [List.length_append]; omega, by rw [hsize, hr]; exact hend, hlen, ?_⟩
      rw [List.take_append_of_le_length (by omega)]
      exact hover
  · cases p with
    | idle => exact absurd rfl hbusy
    | linear tocopy n d => exact List.take_append_of_le_length hp.1
    | overflow n d rest => exact List.take_append_of_le_length hp.1
    | check d => rfl

/-- Every order of the steps of reads and of interrupts. -/
theorem reader_step {e : Event} (h : Holds s.buff q) (hp : s.point.Copies s.buff q)
    (hlog : written log = (results log).flatten ++ s.point.gone ++ q)
    (hstep : reader.step s e = (out, .inl s')) : ∃ q', Holds s'.buff q' ∧ s'.point.Copies s'.buff q' ∧
      written (log ++ [(e, out)]) = (results (log ++ [(e, out)])).flatten ++ s'.point.gone ++ q' := by
  obtain ⟨b, p⟩ := s
  rw [written_concat, results_concat, hlog, List.flatten_append]
  cases e with
  | main btr =>
    obtain ⟨q', b', p', r, hmain, hheld, hcopies, hkept⟩ := @mainStep_spec b q p btr h hp
    rw [reader_main hmain] at hstep
    cases hstep
    refine ⟨q', hheld, hcopies, ?_⟩
    cases r with
    | none =>
      obtain ⟨-, hkept, -⟩ := hkept
      show _ ++ [] = _ ++ [] ++ p'.gone ++ q'
      rw [List.append_nil, List.append_nil, List.append_assoc, List.append_assoc, hkept]
    | some d =>
      obtain ⟨rfl, hkept, -⟩ := hkept
      show _ ++ [] = _ ++ [d].flatten ++ [] ++ q'
      rw [List.append_nil, List.append_nil, List.flatten_singleton, List.append_assoc, List.append_assoc, hkept]
  | write data =>
    obtain ⟨b', taken, heq, hheld, hcopies, -⟩ := @write_spec b q p data h hp
    rw [heq] at hstep
    cases hstep
    refine ⟨_, hheld, hcopies, ?_⟩
    have hwritten : written [(.write data, [.wrote taken])] = taken := by
      show (taken ++ []) ++ [] = taken
      rw [List.append_nil, List.append_nil]
    rw [hwritten]
    show _ = _ ++ [] ++ p.gone ++ (q ++ taken)
    rw [List.append_nil, ← List.append_assoc]

/-- In every order of the steps of reads and of interrupts, what the reads returned, what the current one
has given up the place of and what is in the buffer are all the bytes that were written, in their order. -/
theorem reader_lossless {buffdata : Nat → UInt8} {size : Nat} (hinit : lwrbInit buffdata size = some b)
    (events : List Event) : ∃ log s q, reader.run ⟨b, .idle⟩ events = (log, .inl s) ∧ Holds s.buff q ∧
      written log = (results log).flatten ++ s.point.gone ++ q := by
  obtain ⟨hheld, -⟩ := holds_init hinit
  have hrun := @Machine.run_invariant _ _ _ _ reader ⟨b, .idle⟩ events (fun _ _ => True)
    (fun log s => ∃ q, Holds s.buff q ∧ s.point.Copies s.buff q ∧
      written log = (results log).flatten ++ s.point.gone ++ q)
    (fun log s e out s' ⟨q, h, hp, hlog⟩ _ hstep => reader_step h hp hlog hstep)
    [] ⟨[], hheld, trivial, rfl⟩ (Machine.along_of_forall fun _ _ => trivial)
  cases hend : reader.run ⟨b, .idle⟩ events with
  | mk log next =>
    rw [hend] at hrun
    cases next with
    | inl s =>
      obtain ⟨q, h, -, hlog⟩ := hrun
      exact ⟨log, s, q, rfl, h, hlog⟩
    | inr r => cases r

theorem reader_lossless_sample : ∃ log s q,
    reader.run ⟨⟨fun _ => 0, 4, 0, 0⟩, .idle⟩ [.write [1, 2, 3], .main 2, .main 2, .write [4], .main 2] =
      (log, .inl s) ∧ Holds s.buff q ∧ written log = (results log).flatten ++ s.point.gone ++ q :=
  reader_lossless (rfl : lwrbInit (fun _ => 0) 4 = some ⟨fun _ => 0, 4, 0, 0⟩) _

end runs

/-! ## What one read returns -/

/-- How many steps of the main loop a read takes at most. -/
def ReadPoint.stepsLeft : ReadPoint → Nat
  | .idle => 0
  | .linear _ n d => n - d.length + 3
  | .overflow n _ rest => n - rest.length + 2
  | .check _ => 1

def Event.isMain : Event → Bool
  | .main _ => true
  | .write _ => false

theorem ReadPoint.due_busy {btr' : Nat} (h : p ≠ .idle) : p.due btr = p.due btr' := by
  cases p with
  | idle => exact absurd rfl h
  | linear | overflow | check => rfl

theorem mainStep_stepsLeft (hp : p.Copies b q) (hbusy : p ≠ .idle) (hout : (mainStep btr b p).1 = none) :
    (mainStep btr b p).2.point.stepsLeft < p.stepsLeft := by
  cases p with
  | idle => exact absurd rfl hbusy
  | linear tocopy n d =>
    obtain ⟨-, htocopy, hlen, -⟩ := hp
    rw [mainStep, ReadPoint.stepsLeft]
    split
    · rw [ReadPoint.stepsLeft, List.length_append, List.length_singleton]
      omega
    · simp only
      split
      · rw [ReadPoint.stepsLeft, List.length_nil]
        omega
      · rw [ReadPoint.stepsLeft]
        omega
  | overflow n d rest =>
    rw [mainStep, ReadPoint.stepsLeft]
    split
    · rw [ReadPoint.stepsLeft, List.length_append, List.length_singleton]
      omega
    · rw [ReadPoint.stepsLeft]
      omega
  | check d => cases hout

/-- A read under way returns the bytes that were in front when it was called. -/
theorem read_returns {s : Reader} {events : List Event} (h : Holds s.buff q) (hp : s.point.Copies s.buff q)
    (hbusy : s.point ≠ .idle) (hsteps : s.point.stepsLeft ≤ events.countP Event.isMain) :
    ∃ more, results (reader.run s events).1 = (s.point.gone ++ q.take (s.point.due 0)) :: more := by
  induction events generalizing s q with
  | nil =>
    obtain ⟨b, p⟩ := s
    cases p with
    | idle => exact absurd rfl hbusy
    | linear | overflow | check => exact absurd hsteps (Nat.not_succ_le_zero _)
  | cons e events ih =>
    obtain ⟨b, p⟩ := s
    cases e with
    | main btr =>
      obtain ⟨q', b', p', out, hmain, hheld, hcopies, hkept⟩ := @mainStep_spec b q p btr h hp
      rw [Machine.run_cons (reader_main hmain)]
      cases out with
      | none =>
        obtain ⟨hbusy', -, hresult⟩ := hkept
        have hless := mainStep_stepsLeft hp hbusy (congrArg Prod.fst hmain)
        rw [hmain] at hless
        rw [List.countP_cons_of_pos rfl] at hsteps
        obtain ⟨more, hmore⟩ := @ih q' ⟨b', p'⟩ hheld hcopies hbusy'
          (Nat.le_of_lt_succ (Nat.lt_of_lt_of_le hless hsteps))
        refine ⟨more, hmore.trans ?_⟩
        rw [ReadPoint.due_busy hbusy, ← hresult, ReadPoint.due_busy hbusy']
      | some d =>
        obtain ⟨-, -, hresult⟩ := hkept
        refine ⟨results (reader.run ⟨b', p'⟩ events).1, ?_⟩
        show d :: _ = _
        rw [hresult, @ReadPoint.due_busy p btr 0 hbusy]
        rfl
    | write data =>
      obtain ⟨b', taken, heq, hheld, hcopies, hsame⟩ := @write_spec b q p data h hp
      rw [List.countP_cons_of_neg (Bool.false_ne_true)] at hsteps
      rw [Machine.run_cons heq]
      obtain ⟨more, hmore⟩ := @ih _ ⟨b', p⟩ hheld hcopies hbusy hsteps
      refine ⟨more, hmore.trans ?_⟩
      rw [hsame hbusy]

/-- A read that interrupts write into returns what the buffer held when it was called, and it returns
after `btr + 4` steps of the main loop at most. -/
theorem interrupted_read {s : Reader} (h : Holds s.buff q) (hidle : s.point = .idle) (btr : Nat)
    (events : List Event) (hsteps : btr + 3 ≤ events.countP Event.isMain) :
    ∃ more, results (reader.run s (.main btr :: events)).1 = q.take btr :: more := by
  obtain ⟨b, p⟩ := s
  cases hidle
  obtain ⟨q', b', p', out, hmain, hheld, hcopies, hkept⟩ := @mainStep_spec b q .idle btr h trivial
  rw [Machine.run_cons (reader_main hmain)]
  cases out with
  | none =>
    obtain ⟨hbusy, -, hresult⟩ := hkept
    have hleft : p'.stepsLeft ≤ btr + 3 := by
      rw [mainStep] at hmain
      split at hmain
      · cases hmain
      · cases hmain
        rw [ReadPoint.stepsLeft, List.length_nil]
        omega
    obtain ⟨more, hmore⟩ := @read_returns q' ⟨b', p'⟩ events hheld hcopies hbusy (Nat.le_trans hleft hsteps)
    refine ⟨more, hmore.trans ?_⟩
    rw [ReadPoint.due_busy hbusy, hresult]
    rfl
  | some d =>
    obtain ⟨-, -, hresult⟩ := hkept
    refine ⟨results (reader.run ⟨b', p'⟩ events).1, ?_⟩
    show d :: _ = _
    rw [hresult]
    rfl

theorem interrupted_read_sample : ∃ more,
    results (reader.run ⟨⟨UInt8.ofNat, 4, 3, 1⟩, .idle⟩
      (.main 2 :: [.write [9], .main 0, .main 0, .write [8], .main 0, .main 0, .main 0])).1 =
    [3, 0].take 2 :: more :=
  interrupted_read ⟨by decide, by decide, rfl, rfl⟩ rfl 2 _ (by decide)

end McuUtilities.RingBuffer
