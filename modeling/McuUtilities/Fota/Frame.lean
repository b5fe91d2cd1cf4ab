import McuUtilities.Fota.Upgrade

/-!
# What the functions of the bootloader leave alone

Reading, decoding and checking change neither flash nor the static data; they only count and
record. `Quiet` says so of a state and a later one.
-/

namespace McuUtilities.Fota
open Prog

/-- Between the two states nothing was written: flash, static data and log are the same, and the
records of accesses outside a buffer, of decompressed blocks and of hashed bytes have only grown. -/
structure Quiet (w w' : World) : Prop where
  flash : w'.flash = w.flash
  head : w'.rblFotaPartHead = w.rblFotaPartHead
  crcTab : w'.crcTab = w.crcTab
  ops : w'.ops = w.ops
  log : w'.log = w.log
  oob : w.oob ≤ w'.oob
  decompressed : w.decompressed <+: w'.decompressed
  hashed : w.hashed <+: w'.hashed

namespace Quiet
variable {w w' w'' : World}

theorem refl (w : World) : Quiet w w :=
  ⟨rfl, rfl, rfl, rfl, rfl, Nat.le_refl _, List.prefix_rfl, List.prefix_rfl⟩

theorem trans (h : Quiet w w') (h' : Quiet w' w'') : Quiet w w'' where
  flash := h'.flash.trans h.flash
  head := h'.head.trans h.head
  crcTab := h'.crcTab.trans h.crcTab
  ops := h'.ops.trans h.ops
  log := h'.log.trans h.log
  oob := Nat.le_trans h.oob h'.oob
  decompressed := h.decompressed.trans h'.decompressed
  hashed := h.hashed.trans h'.hashed

theorem pure {α : Type} (a : α) : Always Quiet (Pure.pure a : Boot α) := Always.pure refl a

theorem throw {α : Type} (e : FotaErr) : Always Quiet (Prog.throw e : Boot α) := Always.throw refl e

theorem require (c : Bool) (e : FotaErr) : Always Quiet (Prog.require c e : Boot Unit) :=
  Always.require refl c e

theorem bind {α β : Type} {m : Boot α} {f : α → Boot β} (hm : Always Quiet m)
    (hf : ∀ a, Always Quiet (f a)) : Always Quiet (m >>= f) := Always.bind trans hm hf

theorem iterate {β γ : Type} {body : β → Boot (β ⊕ γ)} (h : ∀ b, Always Quiet (body b))
    (fuel : Nat) (b : β) : Always Quiet (Prog.iterate fuel body b) :=
  Always.iterate refl trans h fuel b

theorem exitCode {m : Boot Unit} (h : Always Quiet m) : Always Quiet (exitCode m) := by
  refine bind (Always.attempt h) fun r => ?_
  cases r with
  | ok _ => exact pure _
  | error e => exact pure e

end Quiet

/-- Only counters have moved between the two states. -/
structure Ticked (w w' : World) : Prop where
  flash : w'.flash = w.flash
  head : w'.rblFotaPartHead = w.rblFotaPartHead
  crcTab : w'.crcTab = w.crcTab
  ops : w'.ops = w.ops
  log : w'.log = w.log
  oob : w'.oob = w.oob
  hashed : w'.hashed = w.hashed

theorem Ticked.refl (w : World) : Ticked w w := ⟨rfl, rfl, rfl, rfl, rfl, rfl, rfl⟩

theorem Ticked.trans {w w' w'' : World} (h : Ticked w w') (h' : Ticked w' w'') : Ticked w w'' where
  flash := h'.flash.trans h.flash
  head := h'.head.trans h.head
  crcTab := h'.crcTab.trans h.crcTab
  ops := h'.ops.trans h.ops
  log := h'.log.trans h.log
  oob := h'.oob.trans h.oob
  hashed := h'.hashed.trans h.hashed

theorem Ticked.quiet {w w' : World} (h : Ticked w w') (hd : w'.decompressed = w.decompressed) :
    Quiet w w' where
  flash := h.flash
  head := h.head
  crcTab := h.crcTab
  ops := h.ops
  log := h.log
  oob := Nat.le_of_eq h.oob.symm
  decompressed := hd ▸ List.prefix_rfl
  hashed := h.hashed ▸ List.prefix_rfl

/-- What a read of a partition can see, whatever fails: nothing, or the bytes asked for. -/
theorem falPartitionRead_cases {env : Env} {part : FalPartition} {addr size : Nat}
    (h : addr + size < 2 ^ 32) (w : World) :
    ∃ w', Ticked w w' ∧ w'.decompressed = w.decompressed ∧
      (falPartitionRead env part addr size w = .done none w' ∨
        ∃ r, env.region part = some r ∧ addr + size ≤ part.len ∧
          falPartitionRead env part addr size w =
            .done (some (slice (r.view w.flash) addr size)) w') := by
  have htick : Ticked w { w with reads := w.reads + 1 } := ⟨rfl, rfl, rfl, rfl, rfl, rfl, rfl⟩
  by_cases hin : addr + size ≤ part.len
  · cases hdev : falFlashDeviceFind env.toBoard part.flashName with
    | none =>
      have h1 : ¬ part.len < u32 (addr + size) := by simp only [u32]; omega
      refine ⟨w, Ticked.refl w, rfl, .inl ?_⟩
      simp only [falPartitionRead, if_neg h1, hdev, pure_apply]
    | some dev =>
      have hr : env.region part = some ⟨dev, part.offset, part.len⟩ := by
        rw [Board.region, hdev, Option.map_some]
      refine ⟨_, htick, rfl, ?_⟩
      rw [falPartitionRead_eq hr hin]
      cases env.readOk w.reads with
      | true => exact .inr ⟨_, hr, hin, rfl⟩
      | false => exact .inl rfl
  · exact ⟨w, Ticked.refl w, rfl, .inl (falPartitionRead_out (Nat.lt_of_not_le hin) h)⟩

/-- Between the two states nothing was recorded but accesses outside a buffer. -/
structure Peeks (w w' : World) : Prop where
  flash : w'.flash = w.flash
  head : w'.rblFotaPartHead = w.rblFotaPartHead
  crcTab : w'.crcTab = w.crcTab
  ops : w'.ops = w.ops
  log : w'.log = w.log
  oob : w.oob ≤ w'.oob
  decompressed : w'.decompressed = w.decompressed
  hashed : w'.hashed = w.hashed

namespace Peeks
variable {w w' w'' : World}

theorem refl (w : World) : Peeks w w := ⟨rfl, rfl, rfl, rfl, rfl, Nat.le_refl _, rfl, rfl⟩

theorem trans (h : Peeks w w') (h' : Peeks w' w'') : Peeks w w'' where
  flash := h'.flash.trans h.flash
  head := h'.head.trans h.head
  crcTab := h'.crcTab.trans h.crcTab
  ops := h'.ops.trans h.ops
  log := h'.log.trans h.log
  oob := Nat.le_trans h.oob h'.oob
  decompressed := h'.decompressed.trans h.decompressed
  hashed := h'.hashed.trans h.hashed

theorem quiet (h : Peeks w w') : Quiet w w' where
  flash := h.flash
  head := h.head
  crcTab := h.crcTab
  ops := h.ops
  log := h.log
  oob := h.oob
  decompressed := h.decompressed ▸ List.prefix_rfl
  hashed := h.hashed ▸ List.prefix_rfl

theorem pure {α : Type} (a : α) : Always Peeks (Pure.pure a : Boot α) := Always.pure refl a

theorem throw {α : Type} (e : FotaErr) : Always Peeks (Prog.throw e : Boot α) := Always.throw refl e

theorem require (c : Bool) (e : FotaErr) : Always Peeks (Prog.require c e : Boot Unit) :=
  Always.require refl c e

theorem bind {α β : Type} {m : Boot α} {f : α → Boot β} (hm : Always Peeks m)
    (hf : ∀ a, Always Peeks (f a)) : Always Peeks (m >>= f) := Always.bind trans hm hf

end Peeks

section peeks
variable {env : Env} {part : FalPartition} {head : List UInt8}

theorem malloc_peeks : Always Peeks (malloc env) :=
  fun _ => ⟨rfl, rfl, rfl, rfl, rfl, Nat.le_refl _, rfl, rfl⟩

theorem peek_peeks {buf : List UInt8} {i n : Nat} : Always Peeks (peek env buf i n) := by
  intro w
  simp only [peek]
  split
  · exact Peeks.refl w
  · exact ⟨rfl, rfl, rfl, rfl, rfl, Nat.le_succ _, rfl, rfl⟩

theorem falPartitionRead_peeks {addr size : Nat} :
    Always Peeks (falPartitionRead env part addr size) := by
  unfold falPartitionRead
  split
  · exact Peeks.pure _
  · split
    · exact Peeks.pure _
    · exact fun _ => ⟨rfl, rfl, rfl, rfl, rfl, Nat.le_refl _, rfl, rfl⟩

theorem fotaReadPart_peeks {readPos : Nat} {aes : Bool} {aesIv : List UInt8} {decryptLen : Nat} :
    Always Peeks (fotaReadPart env part readPos aes aesIv decryptLen) := by
  unfold fotaReadPart
  split
  · exact Peeks.throw _
  · split
    · refine Peeks.bind malloc_peeks fun ok => Peeks.bind (Peeks.require _ _) fun _ =>
        Peeks.bind falPartitionRead_peeks fun r => ?_
      cases r with
      | none => exact Peeks.throw _
      | some buf =>
        dsimp only
        split
        · exact Peeks.throw _
        · exact Peeks.pure _
    · refine Peeks.bind falPartitionRead_peeks fun r => ?_
      cases r with
      | none => exact Peeks.throw _
      | some buf =>
        dsimp only
        split
        · exact Peeks.throw _
        · exact Peeks.pure _

theorem refill_peeks {d : Decoder} : Always Peeks (refill env part head d) := by
  refine Peeks.bind (Always.attempt fotaReadPart_peeks) fun r => ?_
  cases r with
  | ok p => exact Peeks.pure _
  | error _ => exact Peeks.throw _

theorem getBlockSize_peeks {buf : List UInt8} : Always Peeks (getBlockSize env head buf) :=
  Peeks.bind (Peeks.require _ _) fun _ => Peeks.pure _

theorem blockAcross_peeks {d : Decoder} {pos rest : Nat} :
    Always Peeks (blockAcross env part head d pos rest) :=
  Peeks.bind refill_peeks fun _ => Peeks.bind peek_peeks fun _ => Peeks.pure _

theorem nextBlock_peeks {d : Decoder} : Always Peeks (nextBlock env part head d) := by
  unfold nextBlock
  split
  · exact Peeks.bind refill_peeks fun _ => Peeks.bind getBlockSize_peeks fun _ =>
      Peeks.bind peek_peeks fun _ => Peeks.pure _
  · dsimp only
    split
    · exact Peeks.bind refill_peeks fun _ => Peeks.bind getBlockSize_peeks fun _ =>
        Peeks.bind peek_peeks fun _ => Peeks.pure _
    · split
      · refine Peeks.bind getBlockSize_peeks fun _ => ?_
        split
        · exact blockAcross_peeks
        · exact Peeks.pure _
      · exact Peeks.pure _

end peeks

section quiet
variable {env : Env} {part : FalPartition} {head : List UInt8}

theorem malloc_quiet : Always Quiet (malloc env) := malloc_peeks.mono fun _ _ => Peeks.quiet

theorem peek_quiet {buf : List UInt8} {i n : Nat} : Always Quiet (peek env buf i n) :=
  peek_peeks.mono fun _ _ => Peeks.quiet

theorem hashBytes_quiet {data : List UInt8} {hash : UInt32} : Always Quiet (hashBytes data hash) :=
  fun _ => ⟨rfl, rfl, rfl, rfl, rfl, Nat.le_refl _, List.prefix_rfl, List.prefix_append _ _⟩

theorem falPartitionRead_quiet {addr size : Nat} :
    Always Quiet (falPartitionRead env part addr size) :=
  falPartitionRead_peeks.mono fun _ _ => Peeks.quiet

theorem refill_quiet {d : Decoder} : Always Quiet (refill env part head d) :=
  refill_peeks.mono fun _ _ => Peeks.quiet

theorem getBlockSize_quiet {buf : List UInt8} : Always Quiet (getBlockSize env head buf) :=
  getBlockSize_peeks.mono fun _ _ => Peeks.quiet

theorem blockAcross_quiet {d : Decoder} {pos rest : Nat} :
    Always Quiet (blockAcross env part head d pos rest) :=
  blockAcross_peeks.mono fun _ _ => Peeks.quiet

theorem nextBlock_quiet {d : Decoder} : Always Quiet (nextBlock env part head d) :=
  nextBlock_peeks.mono fun _ _ => Peeks.quiet

theorem decompress_quiet {d : Decoder} : Always Quiet (decompress env head d) := by
  refine Quiet.bind (fun w => ?_) fun _ => Quiet.bind (Quiet.require _ _) fun _ => peek_quiet
  exact ⟨rfl, rfl, rfl, rfl, rfl, Nat.le_refl _, List.prefix_append _ _, List.prefix_rfl⟩

theorem decoderInit_quiet : Always Quiet (decoderInit env head) := by
  refine Quiet.bind ?_ fun _ => ?_
  · unfold cryptInit
    split
    · exact Quiet.bind malloc_quiet fun _ => Quiet.bind malloc_quiet fun _ => Quiet.require _ _
    · exact Quiet.require _ _
  · unfold cmprsInit
    split
    · exact Quiet.bind malloc_quiet fun _ => Quiet.bind malloc_quiet fun _ => Quiet.require _ _
    · split
      · exact Quiet.bind malloc_quiet fun _ => Quiet.bind malloc_quiet fun _ =>
          Quiet.bind malloc_quiet fun _ => Quiet.require _ _
      · exact Quiet.require _ _

variable {τ : Type} {sink : Sink τ} {total : τ → Nat} {R : World → World → Prop}
  (hrefl : ∀ w, R w w) (htrans : ∀ {w₁ w₂ w₃}, R w₁ w₂ → R w₂ w₃ → R w₁ w₃)
  (hquiet : ∀ w w', Quiet w w' → R w w') (hsink : ∀ t piece, Always R (sink t piece))
include hrefl htrans hquiet hsink

theorem mainStep_always (s : Decoder × τ) : Always R (mainStep env part head sink s) := by
  unfold mainStep
  split
  · split
    · exact Always.bind htrans (nextBlock_quiet.mono hquiet) fun d =>
        Always.bind htrans (decompress_quiet.mono hquiet) fun piece =>
          Always.bind htrans (hsink _ piece) fun t => Always.pure hrefl _
    · exact Always.bind htrans (refill_quiet.mono hquiet) fun d =>
        Always.bind htrans (hsink _ _) fun t => Always.pure hrefl _
  · exact Always.pure hrefl _

theorem tailStep_always (s : Decoder × τ) : Always R (tailStep env head sink total s) := by
  unfold tailStep
  dsimp only
  split
  · refine Always.bind htrans (getBlockSize_quiet.mono hquiet) fun n => ?_
    split
    · exact Always.bind htrans (peek_quiet.mono hquiet) fun payload =>
        Always.bind htrans (decompress_quiet.mono hquiet) fun piece =>
          Always.bind htrans (hsink _ piece) fun t => Always.pure hrefl _
    · exact Always.pure hrefl _
  · exact Always.pure hrefl _

/-- The decoder itself only reads; what a run of it changes, its sink changes. -/
theorem decode_always (d : Decoder) (t : τ) : Always R (decode env part head sink total d t) := by
  refine Always.bind htrans (Always.iterate hrefl htrans
    (mainStep_always hrefl htrans hquiet hsink) _ _) fun s => ?_
  dsimp only
  split
  · exact Always.iterate hrefl htrans (tailStep_always hrefl htrans hquiet hsink) _ _
  · exact Always.pure hrefl _

end quiet

section functions
variable {env : Env}

theorem verifySink_quiet {rawSize : Nat} (t : VerifyState) (piece : List UInt8) :
    Always Quiet (verifySink rawSize t piece) :=
  Quiet.bind hashBytes_quiet fun _ => Quiet.pure _

theorem fotaUpgradeVerify_quiet {name : Option (List UInt8)} :
    Always Quiet (fotaUpgradeVerify env name) := by
  refine Quiet.exitCode ?_
  split
  · exact Quiet.throw _
  · refine Quiet.bind (Always.get Quiet.refl) fun _ => Quiet.bind malloc_quiet fun _ =>
      Quiet.bind (Quiet.require _ _) fun _ => Quiet.bind decoderInit_quiet fun _ =>
        Quiet.bind ?_ fun _ => Quiet.require _ _
    exact decode_always Quiet.refl Quiet.trans (fun _ _ h => h) verifySink_quiet _ _

theorem fotaCheckApplication_quiet : Always Quiet (fotaCheckApplication env) := by
  refine Quiet.exitCode ?_
  split
  · exact Quiet.throw _
  · refine Quiet.bind malloc_quiet fun _ => Quiet.bind (Quiet.require _ _) fun _ =>
      Quiet.bind falPartitionRead_quiet fun r => ?_
    cases r with
    | none => exact Quiet.throw _
    | some head =>
      refine Quiet.bind malloc_quiet fun _ => Quiet.bind (Quiet.require _ _) fun _ =>
        Quiet.bind (Quiet.iterate (fun s => ?_) _ _) fun _ => Quiet.require _ _
      unfold checkStep
      split
      · refine Quiet.bind falPartitionRead_quiet fun r => ?_
        cases r with
        | none => exact Quiet.throw _
        | some buf => exact Quiet.bind hashBytes_quiet fun _ => Quiet.pure _
      · exact Quiet.pure _

end functions

theorem exitCode_done {m : Boot Unit} {w w' : World} (h : m w = .done () w') :
    exitCode m w = .done .noErr w' := by
  rw [exitCode, bind_done (attempt_done h)]
  rfl

theorem exitCode_fail {m : Boot Unit} {e : FotaErr} {w w' : World} (h : m w = .fail e w') :
    exitCode m w = .done e w' := by
  rw [exitCode, bind_done (attempt_fail h)]
  rfl

/-- The program is never left by `goto` with `FOTA_NO_ERR`. -/
def Erring {α : Type} (m : Boot α) : Prop := ∀ w w', m w ≠ .fail .noErr w'

namespace Erring
variable {α β γ : Type}

theorem bind {m : Boot α} {f : α → Boot β} (hm : Erring m) (hf : ∀ a, Erring (f a)) :
    Erring (m >>= f) := by
  intro w w' h
  rw [bind_apply] at h
  split at h
  · next a s _ => exact hf a s w' h
  · next hm' =>
    cases h
    exact hm w w' hm'
  · cases h

theorem pure (a : α) : Erring (Pure.pure a : Boot α) := fun _ _ h => by cases h

theorem throw {e : FotaErr} (h : e ≠ .noErr) : Erring (Prog.throw e : Boot α) :=
  fun _ _ h' => by cases h'; exact h rfl

theorem require {c : Bool} {e : FotaErr} (h : e ≠ .noErr) : Erring (Prog.require c e) := by
  cases c
  · exact throw h
  · exact pure ()

theorem attempt (m : Boot α) : Erring (Prog.attempt m : Boot (Except FotaErr α)) := by
  intro w w' h
  unfold Prog.attempt at h
  split at h <;> cases h

theorem iterate {body : β → Boot (β ⊕ γ)} (h : ∀ b, Erring (body b)) (fuel : Nat) (b : β) :
    Erring (Prog.iterate fuel body b) := by
  induction fuel generalizing b with
  | zero => exact fun _ _ h => by cases h
  | succ k ih =>
    refine bind (h b) fun r => ?_
    cases r with
    | inl b' => exact ih b'
    | inr c => exact pure c

theorem exitCode_noErr {m : Boot Unit} (hm : Erring m) {w w' : World}
    (h : exitCode m w = .done .noErr w') : m w = .done () w' := by
  obtain ⟨r, w₁, hr, h⟩ := bind_eq_done h
  unfold Prog.attempt at hr
  split at hr
  · next hm' =>
    cases hr
    cases h
    exact hm'
  · next e _ hm' =>
    cases hr
    cases h
    exact absurd hm' (hm w w')
  · cases hr

end Erring

section erring
variable {env : Env} {part : FalPartition} {head : List UInt8}

theorem malloc_erring : Erring (malloc env) := fun _ _ h => by cases h

theorem peek_erring {buf : List UInt8} {i n : Nat} : Erring (peek env buf i n) := by
  intro w w' h
  simp only [peek] at h
  split at h <;> cases h

theorem refill_erring {d : Decoder} : Erring (refill env part head d) := by
  refine Erring.bind (Erring.attempt _) fun r => ?_
  cases r with
  | ok p => exact Erring.pure _
  | error _ => exact Erring.throw (by decide)

theorem getBlockSize_erring {buf : List UInt8} : Erring (getBlockSize env head buf) :=
  Erring.bind (Erring.require (by decide)) fun _ => Erring.pure _

theorem nextBlock_erring {d : Decoder} : Erring (nextBlock env part head d) := by
  unfold nextBlock
  split
  · exact Erring.bind refill_erring fun _ => Erring.bind getBlockSize_erring fun _ =>
      Erring.bind peek_erring fun _ => Erring.pure _
  · dsimp only
    split
    · exact Erring.bind refill_erring fun _ => Erring.bind getBlockSize_erring fun _ =>
        Erring.bind peek_erring fun _ => Erring.pure _
    · split
      · refine Erring.bind getBlockSize_erring fun _ => ?_
        split
        · exact Erring.bind refill_erring fun _ => Erring.bind peek_erring fun _ => Erring.pure _
        · exact Erring.pure _
      · exact Erring.pure _

theorem decompress_erring {d : Decoder} : Erring (decompress env head d) :=
  Erring.bind (fun _ _ h => by cases h) fun _ => Erring.bind (Erring.require (by decide))
    fun _ => peek_erring

theorem decoderInit_erring : Erring (decoderInit env head) := by
  refine Erring.bind ?_ fun _ => ?_
  · unfold cryptInit
    split
    · exact Erring.bind malloc_erring fun _ => Erring.bind malloc_erring fun _ =>
        Erring.require (by decide)
    · exact Erring.require (by decide)
  · unfold cmprsInit
    split
    · exact Erring.bind malloc_erring fun _ => Erring.bind malloc_erring fun _ =>
        Erring.require (by decide)
    · split
      · exact Erring.bind malloc_erring fun _ => Erring.bind malloc_erring fun _ =>
          Erring.bind malloc_erring fun _ => Erring.require (by decide)
      · exact Erring.require (by decide)

theorem decode_erring {τ : Type} {sink : Sink τ} {total : τ → Nat}
    (hsink : ∀ t piece, Erring (sink t piece)) (d : Decoder) (t : τ) :
    Erring (decode env part head sink total d t) := by
  refine Erring.bind (Erring.iterate (fun s => ?_) _ _) fun s => ?_
  · unfold mainStep
    split
    · split
      · exact Erring.bind nextBlock_erring fun _ => Erring.bind decompress_erring fun _ =>
          Erring.bind (hsink _ _) fun _ => Erring.pure _
      · exact Erring.bind refill_erring fun _ => Erring.bind (hsink _ _) fun _ => Erring.pure _
    · exact Erring.pure _
  · dsimp only
    split
    · refine Erring.iterate (fun s => ?_) _ _
      unfold tailStep
      dsimp only
      split
      · refine Erring.bind getBlockSize_erring fun _ => ?_
        split
        · exact Erring.bind peek_erring fun _ => Erring.bind decompress_erring fun _ =>
            Erring.bind (hsink _ _) fun _ => Erring.pure _
        · exact Erring.pure _
      · exact Erring.pure _
    · exact Erring.pure _

theorem upgradeVerifyBody_erring : Erring (upgradeVerifyBody env part) :=
  Erring.bind (fun _ _ h => by cases h) fun _ => Erring.bind malloc_erring fun _ =>
    Erring.bind (Erring.require (by decide)) fun _ => Erring.bind decoderInit_erring fun _ =>
      Erring.bind (decode_erring (fun _ _ _ _ h => by cases h) _ _) fun _ =>
        Erring.require (by decide)

end erring

end McuUtilities.Fota
