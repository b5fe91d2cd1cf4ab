import McuUtilities.Fota.Pending

/-!
# Copies between the application and its backup

`fota_rollback_copy` erases its destination and copies the source over it, as far as the shorter of
the two partitions goes. It logs the copy before the erase; the other functions log none.
-/

namespace McuUtilities.Fota
open Prog

/-! ## What is logged -/

/-- Between the two states only events that satisfy `P` were logged. -/
def LogsOnly (P : Event → Prop) (w w' : World) : Prop := ∃ new, w'.log = w.log ++ new ∧ ∀ e ∈ new, P e

/-- The event is not the start of a copy. -/
def Event.NoCopy (e : Event) : Prop := ∀ dest source f, e ≠ .copy dest source f

namespace LogsOnly
variable {P Q : Event → Prop} {w w' w'' : World}

theorem of_eq (h : w'.log = w.log) : LogsOnly P w w' :=
  ⟨[], by rw [h, List.append_nil], fun _ he => by cases he⟩

theorem refl (w : World) : LogsOnly P w w := of_eq rfl

theorem trans (h : LogsOnly P w w') (h' : LogsOnly P w' w'') : LogsOnly P w w'' := by
  obtain ⟨new, hlog, hnew⟩ := h
  obtain ⟨new', hlog', hnew'⟩ := h'
  refine ⟨new ++ new', by rw [hlog', hlog, List.append_assoc], fun e he => ?_⟩
  exact (List.mem_append.mp he).elim (hnew e) (hnew' e)

theorem mono (hPQ : ∀ e, P e → Q e) (h : LogsOnly P w w') : LogsOnly Q w w' := by
  obtain ⟨new, hlog, hnew⟩ := h
  exact ⟨new, hlog, fun e he => hPQ e (hnew e he)⟩

theorem of_quiet (h : Quiet w w') : LogsOnly P w w' := of_eq h.log

variable {α β : Type}

theorem pure (a : α) : Always (LogsOnly P) (Pure.pure a : Boot α) := Always.pure refl a

theorem throw (e : FotaErr) : Always (LogsOnly P) (Prog.throw e : Boot α) := Always.throw refl e

theorem require (c : Bool) (e : FotaErr) : Always (LogsOnly P) (Prog.require c e : Boot Unit) :=
  Always.require refl c e

theorem bind {m : Boot α} {f : α → Boot β} (hm : Always (LogsOnly P) m)
    (hf : ∀ a, Always (LogsOnly P) (f a)) : Always (LogsOnly P) (m >>= f) := Always.bind trans hm hf

theorem quiet {m : Boot α} (h : Always Quiet m) : Always (LogsOnly P) m :=
  h.mono fun _ _ => of_quiet

theorem exitCode {m : Boot Unit} (h : Always (LogsOnly P) m) : Always (LogsOnly P) (exitCode m) := by
  refine bind (Always.attempt h) fun r => ?_
  cases r with
  | ok _ => exact pure _
  | error e => exact pure e

theorem logEvent {e : Event} (h : P e) : Always (LogsOnly P) (Fota.logEvent e) := fun _ =>
  ⟨[e], rfl, fun _ he => List.mem_singleton.mp he ▸ h⟩

end LogsOnly

section logs
variable {env : Env} {part : FalPartition}

theorem devChange_log (op : FlashOp) (w : World) : (devChange env op w).state.log = w.log := by
  unfold devChange
  cases env.fate w.ops <;> rfl

theorem falPartitionErase_logs {P : Event → Prop} {addr size : Nat} :
    Always (LogsOnly P) (falPartitionErase env part addr size) := by
  refine Always.ite (fun _ => LogsOnly.pure _) fun _ => ?_
  split
  · exact LogsOnly.pure _
  · exact fun w => LogsOnly.of_eq (devChange_log _ w)

theorem falPartitionWrite_logs {P : Event → Prop} {addr : Nat} {buf : List UInt8}
    (h : P (.write part addr buf.length)) :
    Always (LogsOnly P) (falPartitionWrite env part addr buf) := by
  refine LogsOnly.bind (LogsOnly.logEvent h) fun _ => Always.ite (fun _ => LogsOnly.pure _) fun _ => ?_
  split
  · exact LogsOnly.pure _
  · exact fun w => LogsOnly.of_eq (devChange_log _ w)

variable {P : Event → Prop} (hwrite : ∀ part addr len, P (.write part addr len))
include hwrite

theorem fotaWriteAppPart_logs {pos : Nat} {buf : List UInt8} :
    Always (LogsOnly P) (fotaWriteAppPart env pos buf) := by
  refine LogsOnly.bind (Always.get LogsOnly.refl) fun w => ?_
  dsimp only
  split
  · exact LogsOnly.pure _
  · exact LogsOnly.bind (falPartitionWrite_logs (hwrite _ _ _)) fun _ => LogsOnly.pure _

/-- `fota_upgrade` logs nothing but its writes. -/
theorem fotaUpgrade_logs {name : Option (List UInt8)} : Always (LogsOnly P) (fotaUpgrade env name) := by
  have herase : Always (LogsOnly P) (fotaEraseAppPart env) := by
    refine LogsOnly.bind (Always.get LogsOnly.refl) fun w => ?_
    dsimp only
    split
    · exact LogsOnly.pure _
    · exact LogsOnly.bind falPartitionErase_logs fun _ => LogsOnly.pure _
  have hsink : ∀ total piece, Always (LogsOnly P) (upgradeSink env total piece) := fun _ _ =>
    LogsOnly.bind (fotaWriteAppPart_logs hwrite) fun _ => LogsOnly.bind (LogsOnly.require _ _)
      fun _ => LogsOnly.pure _
  refine LogsOnly.exitCode ?_
  split
  · exact LogsOnly.throw _
  refine LogsOnly.bind herase fun _ => Always.ite (fun _ => LogsOnly.throw _) fun _ =>
    LogsOnly.bind (Always.get LogsOnly.refl) fun _ => LogsOnly.bind (LogsOnly.quiet malloc_quiet)
      fun _ => LogsOnly.bind (LogsOnly.require _ _) fun _ =>
        LogsOnly.bind (LogsOnly.quiet falPartitionRead_quiet) fun res => ?_
  cases res with
  | none => exact LogsOnly.throw _
  | some buf =>
    refine LogsOnly.bind (fotaWriteAppPart_logs hwrite) fun _ => LogsOnly.bind (LogsOnly.require _ _)
      fun _ => LogsOnly.bind (LogsOnly.quiet decoderInit_quiet) fun _ => LogsOnly.bind ?_ fun _ =>
        LogsOnly.require _ _
    exact decode_always LogsOnly.refl LogsOnly.trans (fun _ _ => LogsOnly.of_quiet) hsink _ _

/-- `fota_copy_version` logs nothing but its write. -/
theorem fotaCopyVersion_logs {name : List UInt8} : Always (LogsOnly P) (fotaCopyVersion env name) := by
  refine LogsOnly.exitCode ?_
  split
  · exact LogsOnly.throw _
  refine LogsOnly.bind (LogsOnly.quiet malloc_quiet) fun _ => LogsOnly.bind (LogsOnly.require _ _)
    fun _ => LogsOnly.bind (LogsOnly.quiet falPartitionRead_quiet) fun res => ?_
  cases res with
  | none => exact LogsOnly.throw _
  | some cache =>
    refine LogsOnly.bind (Always.get LogsOnly.refl) fun _ => LogsOnly.bind falPartitionErase_logs
      fun _ => LogsOnly.bind (LogsOnly.require _ _) fun _ =>
        LogsOnly.bind (falPartitionWrite_logs (hwrite _ _ _)) fun _ =>
          LogsOnly.bind (LogsOnly.require _ _) fun _ => ?_
    exact Always.ite (fun _ => LogsOnly.refl) fun _ => LogsOnly.pure _

/-- `fota_rollback_copy` logs the copy, with the flash before it, and its writes. -/
theorem fotaRollbackCopy_logs {destName sourceName : List UInt8} (w : World)
    (hcopy : ∀ dest source, falPartitionFind env.toBoard destName = some dest →
      falPartitionFind env.toBoard sourceName = some source → P (.copy dest source w.flash)) :
    LogsOnly P w (fotaRollbackCopy env destName sourceName w).state := by
  have hm : Meets (fotaRollbackCopy env destName sourceName) w (fun _ => LogsOnly P w)
      (fun _ => LogsOnly P w) (fun _ => LogsOnly P w) := by
    refine meets_exitCode ?_
    split
    · next dest source hdest hsource =>
      refine Meets.bind (Meets.of_done rfl (Meets.bind (Meets.require (fun _ => ?_) fun _ =>
        LogsOnly.of_eq rfl)))
      refine Meets.bind (Meets.of_done get_apply (Meets.bind (Meets.of_done (modify_apply _) ?_)))
      have hlogged : LogsOnly P w { w with
          allocs := w.allocs + 1, log := w.log ++ [.copy dest source w.flash] } :=
        ⟨[_], rfl, fun _ he => List.mem_singleton.mp he ▸ hcopy dest source hdest hsource⟩
      have hstep : ∀ size n, Always (LogsOnly P) (rollbackStep env dest source size n) := by
        intro size n
        refine Always.ite (fun _ => LogsOnly.bind (LogsOnly.quiet falPartitionRead_quiet)
          fun res => ?_) fun _ => LogsOnly.pure _
        cases res with
        | none => exact LogsOnly.throw _
        | some buf =>
          exact LogsOnly.bind (falPartitionWrite_logs (hwrite _ _ _)) fun _ =>
            LogsOnly.bind (LogsOnly.require _ _) fun _ => LogsOnly.pure _
      have hrest : Always (LogsOnly P) (do
          require (← falPartitionEraseAll env dest) .partEraseErr
          iterate (loopFuel dest) (rollbackStep env dest source (min source.len dest.len)) 0 :
            Boot Unit) :=
        LogsOnly.bind falPartitionErase_logs fun _ => LogsOnly.bind (LogsOnly.require _ _) fun _ =>
          Always.iterate LogsOnly.refl LogsOnly.trans (hstep _) _ _
      exact (hrest.meets _).mono (fun _ _ h => hlogged.trans h) (fun _ _ h => hlogged.trans h)
        fun _ _ h => hlogged.trans h
    · exact Meets.throw (LogsOnly.refl w)
  exact hm.state

end logs

/-! ## What is copied -/

/-- In flash `g` the destination starts with the first `k` bytes that the source had in flash `f`,
and is erased from there on. -/
structure Copied (rd rs : Region) (k : Nat) (f g : Flash) : Prop where
  slice_eq : slice (rd.view g) 0 k = slice (rs.view f) 0 k
  erased : ∀ a, k ≤ a → a < rd.len → rd.view g a = 0xFF

/-- The next piece is written. -/
theorem Copied.store {rd rs : Region} {n k : Nat} {f g g' : Flash} (h : Copied rd rs n f g)
    (hg' : rd.view g' = store (rd.view g) n (slice (rs.view f) n k)) :
    Copied rd rs (n + k) f g' := by
  constructor
  · have hfirst : slice (McuUtilities.store (rd.view g) n (slice (rs.view f) n k)) 0 n =
        slice (rd.view g) 0 n := slice_store_of_disjoint (.inr (by omega))
    have hlast := @slice_store_self _ (rd.view g) n (slice (rs.view f) n k)
    rw [length_slice] at hlast
    rw [hg', slice_add, slice_add, Nat.zero_add, hlast, hfirst, h.slice_eq]
  · intro a hk ha
    rw [hg', store_of_ge (by rw [length_slice]; omega)]
    exact h.erased a (by omega) ha

section copy
variable {env : Env} {dest source : FalPartition} {rd rs : Region}
  (hrd : env.region dest = some rd) (hrs : env.region source = some rs) (hdis : rs.Disjoint rd)
include hrd hrs hdis

/-- One round copies the next piece. It fails only where the board does. -/
theorem rollbackStep_meets {size n : Nat} {w₀ w : World} (hsize : size ≤ source.len)
    (hsize' : size ≤ dest.len) (hc : Confined rd w₀ w)
    (hcopied : Copied rd rs (min n size) w₀.flash w.flash) :
    Meets (rollbackStep env dest source size n) w
      (fun res w' => Confined rd w₀ w' ∧ match res with
        | .inl n' => n < size ∧ n' = n + fotaAlgoBuffSize ∧
            Copied rd rs (min n' size) w₀.flash w'.flash
        | .inr _ => Copied rd rs size w₀.flash w'.flash)
      (fun e w' => Confined rd w₀ w' ∧ e ≠ .noErr ∧ (env.Reliable → ¬ env.Unfailing))
      (CutShort env rd w₀) := by
  have hbound := dest.bound
  have hbuff : fotaAlgoBuffSize = 4096 := rfl
  obtain ⟨-, -, hlen⟩ := Board.region_eq hrs
  refine Meets.ite (fun hlt => ?_) fun hge => ?_
  rotate_left
  · rw [Nat.min_eq_right (by omega)] at hcopied
    exact Meets.pure ⟨hc, hcopied⟩
  have hpiece : (if size < u32 (n + fotaAlgoBuffSize) then size - n else fotaAlgoBuffSize) =
      min fotaAlgoBuffSize (size - n) := by
    simp only [u32]
    split <;> omega
  have hnext : u32 (n + fotaAlgoBuffSize) = n + fotaAlgoBuffSize := by
    simp only [u32]
    omega
  have hsum : min (n + fotaAlgoBuffSize) size = n + min fotaAlgoBuffSize (size - n) := by omega
  rw [Nat.min_eq_left (by omega)] at hcopied
  dsimp only
  rw [hpiece]
  generalize min fotaAlgoBuffSize (size - n) = k at hsum ⊢
  have hread : slice (rs.view w.flash) n k = slice (rs.view w₀.flash) n k :=
    ((hc.agree hdis).slice (by omega)).symm
  have hread₁ : Confined rd w₀ { w with reads := w.reads + 1 } := hc.trans (.of_same rfl rfl rfl rfl)
  refine Meets.bind (Meets.of_done (falPartitionRead_eq hrs (by omega)) ?_)
  cases hok : env.readOk w.reads with
  | false =>
    refine Meets.throw ⟨hread₁, by decide, fun hrel => ?_⟩
    rw [hrel.read] at hok
    cases hok
  | true =>
    rw [if_pos rfl]
    dsimp only
    rw [hread]
    refine Meets.bind ((falPartitionWrite_spec hrd (by rw [length_slice]; omega)).mono ?_
      (fun _ _ h => h.elim) fun _ _ h => ?_)
    · rintro ok w' ⟨hview, hdone, -, hc'⟩
      have hc'' : Confined rd w₀ w' := hread₁.trans hc'
      refine Meets.bind (Meets.require (fun hok => ?_) fun hok => ?_)
      · refine Meets.pure ⟨hc'', hlt, hnext, ?_⟩
        rw [hnext, hsum]
        exact hcopied.store (hview hok)
      · refine ⟨hc'', by decide, fun _ hno => ?_⟩
        rw [hdone hno] at hok
        cases hok
    · exact CutShort.trans hread₁ h

/-- A copy changes its destination only. When it succeeds, the destination is what the source starts
with, as far as it fits, and it succeeds unless the board fails. -/
theorem fotaRollbackCopy_spec {destName sourceName : List UInt8}
    (hdest : falPartitionFind env.toBoard destName = some dest)
    (hsource : falPartitionFind env.toBoard sourceName = some source) (w : World) :
    Meets (fotaRollbackCopy env destName sourceName) w
      (fun e w' => Confined rd w w' ∧
        (e = .noErr → Copied rd rs (min source.len dest.len) w.flash w'.flash) ∧
        (env.Reliable → env.Unfailing → e = .noErr))
      (fun _ _ => False) (CutShort env rd w) := by
  have hbound := dest.bound
  have hbuff : fotaAlgoBuffSize = 4096 := rfl
  obtain ⟨-, -, hlen⟩ := Board.region_eq hrd
  have hfail {e : FotaErr} {w' : World} (hc : Confined rd w w') (he : e ≠ .noErr)
      (hnot : env.Reliable → ¬ env.Unfailing) : Confined rd w w' ∧
        (e = .noErr → Copied rd rs (min source.len dest.len) w.flash w'.flash) ∧
        (env.Reliable → env.Unfailing → e = .noErr) :=
    ⟨hc, fun h => absurd h he, fun hrel hno => absurd hno (hnot hrel)⟩
  refine meets_exitCode ?_
  simp only [hdest, hsource]
  refine Meets.bind (Meets.of_done rfl (Meets.bind (Meets.require (fun _ => ?_) fun hok => ?_)))
  rotate_left
  · refine hfail (.of_same rfl rfl rfl rfl) (by decide) fun hrel => ?_
    rw [hrel.alloc] at hok
    cases hok
  refine Meets.bind (Meets.of_done get_apply (Meets.bind (Meets.of_done (modify_apply _) ?_)))
  have hlogged : Confined rd w { w with
      allocs := w.allocs + 1, log := w.log ++ [.copy dest source w.flash] } :=
    .of_same rfl rfl rfl rfl
  refine Meets.bind ((falPartitionErase_spec hrd (Nat.le_of_eq (Nat.zero_add _))).mono ?_
    (fun _ _ h => h.elim) fun _ _ h => CutShort.trans hlogged h)
  rintro ok w₁ ⟨hview, hdone, -, hc⟩
  have hc : Confined rd w w₁ := hlogged.trans hc
  refine Meets.bind (Meets.require (fun hok => ?_) fun hok => ?_)
  rotate_left
  · refine hfail hc (by decide) fun _ hno => ?_
    rw [hdone hno] at hok
    cases hok
  refine (Meets.iterate_of_measure (μ := fun n => dest.len + 4095 - n)
    (I := fun n w' => Confined rd w w' ∧
      Copied rd rs (min n (min source.len dest.len)) w.flash w'.flash)
    (E := fun e w' => Confined rd w w' ∧ e ≠ .noErr ∧ (env.Reliable → ¬ env.Unfailing))
    (H := CutShort env rd w)
    (Q := fun _ w' => Confined rd w w' ∧
      Copied rd rs (min source.len dest.len) w.flash w'.flash) ?_ ⟨hc, ?_⟩
    (by simp only [loopFuel]; omega)).mono (fun _ _ h => ?_) (fun _ _ h => ?_) fun _ _ h => h
  · rintro n w' ⟨hc', hcopied⟩
    refine (rollbackStep_meets hrd hrs hdis (Nat.min_le_left _ _) (Nat.min_le_right _ _) hc'
      hcopied).mono ?_ (fun _ _ h => h) fun _ _ h => h
    rintro (n' | u) w'' ⟨hc'', h⟩
    · exact ⟨⟨hc'', h.2.2⟩, by omega⟩
    · exact ⟨hc'', h⟩
  · rw [Nat.zero_min]
    refine ⟨by rw [slice_zero, slice_zero], fun a _ ha => ?_⟩
    rw [hview hok]
    exact fill_of_mem (Nat.zero_le a) (by omega)
  · exact ⟨h.1, fun _ => h.2, fun _ _ => trivial⟩
  · exact hfail h.1 h.2.1 h.2.2

/-- When only the power may fail, the destination starts with what the source starts with. -/
theorem fotaRollbackCopy_meets (hrel : env.Reliable) (hno : env.Unfailing)
    {destName sourceName : List UInt8}
    (hdest : falPartitionFind env.toBoard destName = some dest)
    (hsource : falPartitionFind env.toBoard sourceName = some source) (w : World) :
    Meets (fotaRollbackCopy env destName sourceName) w
      (fun _ w' => Confined rd w w' ∧ slice (rd.view w'.flash) 0 (min source.len dest.len) =
        slice (rs.view w.flash) 0 (min source.len dest.len))
      (fun _ _ => False) (CutShort env rd w) := by
  refine (fotaRollbackCopy_spec hrd hrs hdis hdest hsource w).mono ?_ (fun _ _ h => h)
    fun _ _ h => h
  rintro e w' ⟨hc, hcopied, hok⟩
  exact ⟨hc, (hcopied (hok hrel hno)).slice_eq⟩

end copy

/-- The power fails while the destination is erased. -/
theorem fotaRollbackCopy_cut {env : Env} {dest source : FalPartition} {rd : Region}
    {destName sourceName : List UInt8} {w : World} (hrd : env.region dest = some rd)
    (hdest : falPartitionFind env.toBoard destName = some dest)
    (hsource : falPartitionFind env.toBoard sourceName = some source)
    (halloc : env.allocOk w.allocs = true) (hcut : env.fate w.ops = .cut) :
    fotaRollbackCopy env destName sourceName w = .halt .powerCut { w with
      allocs := w.allocs + 1, log := w.log ++ [.copy dest source w.flash],
      flash := env.tear w.ops (.erase rd) w.flash, ops := w.ops + 1 } := by
  have herase {w' : World} (hops : w'.ops = w.ops) : falPartitionEraseAll env dest w' =
      .halt .powerCut { w' with
        flash := env.tear w.ops (.erase rd) w'.flash, ops := w.ops + 1 } := by
    rw [falPartitionEraseAll_eq hrd, devChange, hops, hcut]
  have hmalloc : malloc env w = .done true { w with allocs := w.allocs + 1 } := by
    rw [malloc, halloc]
  rw [fotaRollbackCopy, exitCode, hdest, hsource]
  refine bind_halt (attempt_halt ?_)
  dsimp only
  rw [bind_done hmalloc, require_true, bind_done (pure_apply _), bind_done get_apply,
    logEvent, bind_done (modify_apply _)]
  exact bind_halt (herase rfl)

end McuUtilities.Fota
