import McuUtilities.Fota.CopyVersion

/-!
# Regions a program spares

`Spares s` says of a state and a later one that flash has not changed in the region `s`. A program
that changes only partitions disjoint from the region spares it, whatever fails and wherever the
power is cut.
-/

namespace McuUtilities.Fota
open Prog

/-- Between the two states, flash has not changed in the region, and the static data not at all. -/
structure Spares (s : Region) (w w' : World) : Prop where
  agree : s.Agree w.flash w'.flash
  head : w'.rblFotaPartHead = w.rblFotaPartHead
  crcTab : w'.crcTab = w.crcTab

namespace Spares
variable {s : Region} {w w' w'' : World}

theorem refl (w : World) : Spares s w w := ⟨Region.Agree.refl, rfl, rfl⟩

theorem trans (h : Spares s w w') (h' : Spares s w' w'') : Spares s w w'' :=
  ⟨h.agree.trans h'.agree, h'.head.trans h.head, h'.crcTab.trans h.crcTab⟩

theorem of_eq (hf : w'.flash = w.flash) (hh : w'.rblFotaPartHead = w.rblFotaPartHead)
    (hc : w'.crcTab = w.crcTab) : Spares s w w' := ⟨hf ▸ Region.Agree.refl, hh, hc⟩

theorem of_quiet (h : Quiet w w') : Spares s w w' := of_eq h.flash h.head h.crcTab

theorem of_confined {r : Region} (h : Confined r w w') (hd : s.Disjoint r) : Spares s w w' :=
  ⟨h.agree hd, h.head, h.crcTab⟩

variable {α β : Type}

theorem pure (a : α) : Always (Spares s) (Pure.pure a : Boot α) := Always.pure refl a

theorem throw (e : FotaErr) : Always (Spares s) (Prog.throw e : Boot α) := Always.throw refl e

theorem require (c : Bool) (e : FotaErr) : Always (Spares s) (Prog.require c e : Boot Unit) :=
  Always.require refl c e

theorem bind {m : Boot α} {f : α → Boot β} (hm : Always (Spares s) m)
    (hf : ∀ a, Always (Spares s) (f a)) : Always (Spares s) (m >>= f) := Always.bind trans hm hf

theorem quiet {m : Boot α} (h : Always Quiet m) : Always (Spares s) m := h.mono fun _ _ => of_quiet

theorem exitCode {m : Boot Unit} (h : Always (Spares s) m) : Always (Spares s) (exitCode m) := by
  refine bind (Always.attempt h) fun r => ?_
  cases r with
  | ok _ => exact pure _
  | error e => exact pure e

theorem logEvent (e : Event) : Always (Spares s) (Fota.logEvent e) := fun _ => of_eq rfl rfl rfl

end Spares

section partitions
variable {env : Env} {part : FalPartition} {s : Region}
  (hdis : ∀ r, env.region part = some r → s.Disjoint r)
include hdis

theorem falPartitionEraseAll_spares : Always (Spares s) (falPartitionEraseAll env part) := by
  intro w
  cases hr : env.region part with
  | none =>
    have hdev : falFlashDeviceFind env.toBoard part.flashName = none := Option.map_eq_none_iff.mp hr
    simp only [falPartitionEraseAll, falPartitionErase, hdev]
    split
    · exact Spares.refl w
    · exact Spares.refl w
  | some r =>
    have hm := falPartitionErase_spec (w := w) hr (Nat.le_of_eq (Nat.zero_add part.len))
    refine Meets.state (hm.mono ?_ (fun _ _ h => h.elim) ?_)
    · exact fun _ _ h => Spares.of_confined h.2.2.2 (hdis r hr)
    · exact fun _ _ h => Spares.of_confined h.2.1 (hdis r hr)

/-- A write whose end does not wrap around stays in its partition, or is refused. -/
theorem falPartitionWrite_spares {addr : Nat} {buf : List UInt8} (h : addr + buf.length < 2 ^ 32) :
    Always (Spares s) (falPartitionWrite env part addr buf) := by
  intro w
  by_cases hin : addr + buf.length ≤ part.len
  rotate_left
  · rw [falPartitionWrite_out (Nat.lt_of_not_le hin) h]
    exact Spares.of_eq rfl rfl rfl
  cases hr : env.region part with
  | none =>
    have hdev : falFlashDeviceFind env.toBoard part.flashName = none := Option.map_eq_none_iff.mp hr
    refine Spares.bind (Spares.logEvent _) (fun _ => ?_) w
    simp only [hdev]
    split
    · exact Spares.pure _
    · exact Spares.pure _
  | some r =>
    refine Meets.state ((falPartitionWrite_spec (w := w) hr hin).mono ?_ (fun _ _ h => h.elim) ?_)
    · exact fun _ _ h => Spares.of_confined h.2.2.2 (hdis r hr)
    · exact fun _ _ h => Spares.of_confined h.2.1 (hdis r hr)

end partitions

section rollback
variable {env : Env} {s : Region}

theorem rollbackStep_spares {dest source : FalPartition} {writeSize : Nat}
    (hdis : ∀ r, env.region dest = some r → s.Disjoint r) (hle : writeSize ≤ 2 ^ 31) (n : Nat) :
    Always (Spares s) (rollbackStep env dest source writeSize n) := by
  have hbuff : fotaAlgoBuffSize = 4096 := rfl
  unfold rollbackStep
  refine Always.ite (fun hlt => ?_) fun _ => Spares.pure _
  have hlen : (if writeSize < u32 (n + fotaAlgoBuffSize) then writeSize - n
      else fotaAlgoBuffSize) = min fotaAlgoBuffSize (writeSize - n) := by
    simp only [u32]
    split <;> omega
  rw [hlen]
  intro w
  obtain ⟨w₁, ht, -, hread | ⟨r, -, -, hread⟩⟩ := @falPartitionRead_cases env source n
    (min fotaAlgoBuffSize (writeSize - n)) (by omega) w
  · rw [bind_done hread]
    exact Spares.of_eq ht.flash ht.head ht.crcTab
  · rw [bind_done hread]
    refine Spares.trans (Spares.of_eq ht.flash ht.head ht.crcTab) (Spares.bind
      (falPartitionWrite_spares hdis ?_) (fun _ => Spares.bind (Spares.require _ _) fun _ =>
        Spares.pure _) w₁)
    rw [length_slice]
    omega

/-- `fota_rollback_copy` changes its destination only. -/
theorem fotaRollbackCopy_spares {destName sourceName : List UInt8}
    (hdis : ∀ dest r, falPartitionFind env.toBoard destName = some dest →
      env.region dest = some r → s.Disjoint r) :
    Always (Spares s) (fotaRollbackCopy env destName sourceName) := by
  refine Spares.exitCode ?_
  split
  · next dest source hdest _ =>
    have hbound := dest.bound
    have hdis := fun r => hdis dest r hdest
    refine Spares.bind (Spares.quiet malloc_quiet) fun _ => Spares.bind (Spares.require _ _) fun _ =>
      Spares.bind (Always.get Spares.refl) fun _ => Spares.bind (Spares.logEvent _) fun _ =>
        Spares.bind (falPartitionEraseAll_spares hdis) fun _ => Spares.bind (Spares.require _ _)
          fun _ => Always.iterate Spares.refl Spares.trans (fun n => ?_) _ _
    exact rollbackStep_spares hdis (by omega) n
  · exact Spares.throw _

theorem checkAndStart_spares : Always (Spares s) (checkAndStart env) := by
  refine Spares.bind (Spares.quiet fotaCheckApplication_quiet) fun e =>
    Always.ite (fun _ => ?_) fun _ => Spares.pure _
  refine Spares.bind (Always.get Spares.refl) fun w => ?_
  split
  · exact Spares.pure _
  · exact Spares.bind (Spares.logEvent _) fun _ => Spares.pure _

theorem fotaInitRollback_spares (hdis : ∀ app r,
      falPartitionFind env.toBoard fotaAppPartName = some app → env.region app = some r →
        s.Disjoint r) :
    Always (Spares s) (fotaInitRollback env) :=
  Spares.bind (fotaRollbackCopy_spares hdis) fun _ => checkAndStart_spares

/-- What `fota_init` does after the label `__exit_boot_entry`. -/
theorem checkAndRollback_spares (hdis : env.rollback = true → ∀ app r,
      falPartitionFind env.toBoard fotaAppPartName = some app → env.region app = some r →
        s.Disjoint r) :
    Always (Spares s) (do
      if ← checkAndStart env then pure true
      else if env.rollback then fotaInitRollback env
      else pure false : Boot Bool) :=
  Spares.bind checkAndStart_spares fun _ => Always.ite (fun _ => Spares.pure _) fun _ =>
    Always.ite (fun h => fotaInitRollback_spares (hdis h)) fun _ => Spares.pure _

end rollback

end McuUtilities.Fota
