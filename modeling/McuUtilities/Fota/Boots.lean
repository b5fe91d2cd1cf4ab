import McuUtilities.Fota.Spares

/-!
# Boot after boot

The boots that follow the installation of an image. A marked image is not installed again, provided
its version string ends in its field: `fota_check_upgrade` compares the two version fields as
C strings, and without a NUL the first of them runs on into the second.
-/

namespace McuUtilities.Fota
open Prog

/-- The flash that `fota_init` leaves after a reset. -/
def bootFlash (f : Flash) (env : Env) : Flash := (fotaInit env (World.boot f)).state.flash

/-- The flash after a number of boots, one after the other. -/
def bootAll (envs : List Env) (f : Flash) : Flash := envs.foldl bootFlash f

/-- However often the device is booted again, whatever fails in each boot: the package check still
accepts the download partition when nothing fails, `fota_check_upgrade` answers 0 after it, and
`fota_init` reaches its application check without a flash operation. -/
def StaysInstalled (b : Board) (f : Flash) : Prop :=
  ∀ envs : List Env, (∀ e ∈ envs, e.toBoard = b) → ∀ env : Env, env.toBoard = b →
    (env.Reliable → ∃ w, fotaPartFwVerify env (some fotaFmPartName) (World.boot (bootAll envs f)) =
      .done .noErr w) ∧
    (∀ w, fotaPartFwVerify env (some fotaFmPartName) (World.boot (bootAll envs f)) = .done .noErr w →
      fotaCheckUpgrade env w = .done 0 w) ∧
    ∃ w, fotaInitUpgrade env (World.boot (bootAll envs f)) = .done () w ∧ w.ops = 0

/-- The partition contents are those of a marked package whose version string ends in its field. -/
structure MarkedPackage (b : Board) (len : Nat) (m : Nat → UInt8) : Prop where
  accepted : PackageAccepted b len m
  version : slice m 52 24 = slice m 28 24
  terminated : 0 ∈ slice m 28 24

theorem MarkedPackage.agree {b : Board} {r : Region} {f g : Flash}
    (h : MarkedPackage b r.len (r.view f)) (hag : r.Agree f g) : MarkedPackage b r.len (r.view g) := by
  have hsize : sizeofHead = 96 := rfl
  have hle := h.accepted.head_le
  have hsame : ∀ off n, off + n ≤ 96 → slice (r.view g) off n = slice (r.view f) off n :=
    fun off n hn => (hag.slice (by omega)).symm
  refine ⟨h.accepted.agree hag, ?_, ?_⟩
  · rw [hsame 52 24 (by decide), hsame 28 24 (by decide), h.version]
  · rw [hsame 28 24 (by decide)]
    exact h.terminated

/-- With equal version fields the version strings are equal just when they end in their fields. -/
theorem version_strcmpEq {m : Nat → UInt8} {past : List UInt8} (h : slice m 52 24 = slice m 28 24) :
    strcmpEq (Head.downloadVersion (headAt m) ++ past) (Head.currentVersion (headAt m) ++ past) = true ↔
      0 ∈ slice m 28 24 := by
  have hdown : Head.downloadVersion (headAt m) = slice m 28 24 ++ (slice m 28 24 ++ slice m 76 20) := by
    rw [Head.downloadVersion, headAt, drop_slice, ← h, ← slice_add, h, ← slice_add]
    rfl
  have hcur : Head.currentVersion (headAt m) = slice m 28 24 ++ slice m 76 20 := by
    rw [Head.currentVersion, headAt, drop_slice, ← h, ← slice_add]
    rfl
  have hne : slice m 28 24 ≠ [] := fun h0 => by
    have := congrArg List.length h0
    rw [length_slice] at this
    cases this
  rw [hdown, hcur, List.append_assoc, List.append_assoc, strcmpEq_append_iff]
  refine ⟨fun heq => ?_, .inl⟩
  rcases heq with h0 | heq
  · exact h0
  · by_contra h0
    exact not_strcmpEq_append h0 hne heq

section boots
variable {b : Board} {fm : FalPartition} {r : Region} (hfm : falPartitionFind b fotaFmPartName = some fm)
  (hr : b.region fm = some r)
include hfm hr

/-- What the package check and `fota_check_upgrade` say of contents with equal version fields. -/
theorem fotaCheckUpgrade_marked {env : Env} (hb : env.toBoard = b) {w w' : World}
    (hversion : slice (r.view w.flash) 52 24 = slice (r.view w.flash) 28 24)
    (hrun : fotaPartFwVerify env (some fotaFmPartName) w = .done .noErr w') :
    fotaCheckUpgrade env w' = .done 0 w' ↔ 0 ∈ slice (r.view w.flash) 28 24 := by
  rw [← hb] at hfm hr
  obtain ⟨-, hok, -⟩ := (fotaPartFwVerify_spec hfm w).done hrun
  obtain ⟨r', hr', -, hhead, -⟩ := hok rfl
  obtain rfl := Option.some.inj (hr.symm.trans hr')
  have hcheck : fotaCheckUpgrade env w' = .done (if strcmpEq
      (Head.downloadVersion w'.rblFotaPartHead ++ env.pastHead)
      (Head.currentVersion w'.rblFotaPartHead ++ env.pastHead) then 0 else 1) w' := rfl
  rw [hcheck, hhead, ← @version_strcmpEq _ env.pastHead hversion]
  split
  · next heq => exact iff_of_true rfl heq
  · next hne => exact iff_of_false (fun h => by cases h) hne

/-- A boot finds nothing to install. -/
theorem fotaInitUpgrade_idle {env : Env} (hb : env.toBoard = b) {w : World}
    (h : MarkedPackage b fm.len (r.view w.flash)) :
    ∃ w', fotaInitUpgrade env w = .done () w' ∧ w'.ops = w.ops ∧ w'.flash = w.flash := by
  have hspec := @fotaPartFwVerify_spec env fm fotaFmPartName (hb ▸ hfm) w
  obtain ⟨e, w', hrun, hspec⟩ := hspec.returns
  obtain ⟨⟨tab, head, ht⟩, -, -⟩ := hspec
  refine ⟨w', ?_, ht.ops, ht.flash⟩
  by_cases he : e = .noErr
  · subst he
    have hcheck := (fotaCheckUpgrade_marked hfm hr hb h.version hrun).mpr h.terminated
    rw [fotaInitUpgrade, bind_done hrun, if_pos rfl, bind_done hcheck]
    rfl
  · rw [fotaInitUpgrade, bind_done hrun, if_neg he]
    rfl

variable (hdis : b.rollback = true → ∀ app ra, falPartitionFind b fotaAppPartName = some app →
  b.region app = some ra → r.Disjoint ra)
include hdis

/-- A boot leaves a marked package alone, whatever fails in it. -/
theorem bootFlash_marked {env : Env} (hb : env.toBoard = b) {f : Flash}
    (h : MarkedPackage b fm.len (r.view f)) : MarkedPackage b fm.len (r.view (bootFlash f env)) := by
  have hlen := (Board.region_eq hr).2.2
  have hdis' := hdis
  rw [← hb] at hdis'
  have hspares : r.Agree f (bootFlash f env) := by
    unfold bootFlash fotaInit
    split
    · next hc =>
      have hroll : env.rollback = true := (Bool.and_eq_true_iff.mp hc).1
      exact (fotaInitRollback_spares (hdis' hroll) (World.boot f)).agree
    · obtain ⟨w', hrun, -, hflash⟩ := fotaInitUpgrade_idle hfm hr hb (w := World.boot f) h
      rw [bind_done hrun]
      have hag := (checkAndRollback_spares hdis' w').agree
      rw [hflash] at hag
      exact hag
  rw [← hlen] at h ⊢
  exact h.agree hspares

theorem bootAll_marked {envs : List Env} (hb : ∀ e ∈ envs, e.toBoard = b) {f : Flash}
    (h : MarkedPackage b fm.len (r.view f)) : MarkedPackage b fm.len (r.view (bootAll envs f)) := by
  induction envs generalizing f with
  | nil => exact h
  | cons env envs ih =>
    exact ih (fun e he => hb e (List.mem_cons_of_mem _ he))
      (bootFlash_marked hfm hr hdis (hb env List.mem_cons_self) h)

/-- Contents with equal version fields stay installed just when the version strings end in their
fields. -/
theorem staysInstalled_iff_terminated {f : Flash} (hacc : PackageAccepted b fm.len (r.view f))
    (hversion : slice (r.view f) 52 24 = slice (r.view f) 28 24) :
    StaysInstalled b f ↔ 0 ∈ slice (r.view f) 28 24 := by
  constructor
  · intro h
    obtain ⟨hverify, hcheck, -⟩ := h [] (fun _ he => by cases he) b.quietEnv rfl
    obtain ⟨w, hrun⟩ := hverify b.quietEnv_reliable
    exact (fotaCheckUpgrade_marked hfm hr rfl hversion hrun).mp (hcheck w hrun)
  · intro h0 envs henvs env hb
    have hm := bootAll_marked hfm hr hdis henvs ⟨hacc, hversion, h0⟩
    refine ⟨fun hrel => ?_, fun w hrun => ?_, ?_⟩
    · subst hb
      obtain ⟨w, hrun, -⟩ := fotaPartFwVerify_of_accepted hr hrel hfm
        (w := World.boot (bootAll envs f)) hm.accepted
      exact ⟨w, hrun⟩
    · exact (fotaCheckUpgrade_marked hfm hr hb hm.version hrun).mpr hm.terminated
    · obtain ⟨w', hrun, hops, -⟩ := fotaInitUpgrade_idle hfm hr hb
        (w := World.boot (bootAll envs f)) hm
      exact ⟨w', hrun, hops⟩

end boots

/-- Once `fota_copy_version` has marked an accepted image in the boot that accepted it, the image
stays installed if and only if its 24-byte version field holds a NUL. -/
theorem staysInstalled_iff {env : Env} {fm : FalPartition} {r : Region}
    (hfm : falPartitionFind env.toBoard fotaFmPartName = some fm) (hr : env.region fm = some r)
    (hdis : env.rollback = true → ∀ app ra, falPartitionFind env.toBoard fotaAppPartName = some app →
      env.region app = some ra → r.Disjoint ra) {w w₁ w₂ w₃ : World}
    (hverify : fotaPartFwVerify env (some fotaFmPartName) w = .done .noErr w₁)
    (htab : w₂.crcTab = w₁.crcTab) (hag : r.Agree w.flash w₂.flash)
    (hcopy : fotaCopyVersion env fotaFmPartName w₂ = .done .noErr w₃)
    {f : Flash} (hf : r.Agree w₃.flash f) :
    StaysInstalled env.toBoard f ↔ 0 ∈ slice (r.view w.flash) 28 24 := by
  have hsize : sizeofHead = 96 := rfl
  have hlen := (Board.region_eq hr).2.2
  obtain ⟨hacc, hview⟩ := marked_of_copy hfm hr hverify htab hag hcopy
  have hle := hacc.head_le
  have hsame : ∀ off n, off + n ≤ 96 → slice (r.view f) off n = slice (r.view w₃.flash) off n :=
    fun off n hn => (hf.slice (by omega)).symm
  have hdown : slice (r.view f) 28 24 = slice (r.view w.flash) 28 24 := by
    rw [hsame 28 24 (by decide), hview, slice_markInstalled (.inl (by decide)) (.inl (by decide)),
      hag.slice (by omega)]
  rw [← hdown]
  refine staysInstalled_iff_terminated hfm hr hdis ?_ ?_
  · rw [← hlen] at hacc ⊢
    exact hacc.agree hf
  · rw [hsame 52 24 (by decide), hsame 28 24 (by decide), hview, slice_markInstalled_version,
      slice_markInstalled (.inl (by decide)) (.inl (by decide))]

/-- The sample image, accepted and marked. -/
theorem sample_marked {d : List UInt8} (htarget : (falPartitionFind sampleEnv.toBoard
      (Head.appPartName (sampleHead fotaAppPartName d))).isSome = true) :
    ∃ w₁ w₂, fotaPartFwVerify sampleEnv (some fotaFmPartName)
        (World.boot (sampleFlash fotaAppPartName d)) = .done .noErr w₁ ∧
      fotaCopyVersion sampleEnv fotaFmPartName w₁ = .done .noErr w₂ ∧
      (⟨0, 0, 0x2000⟩ : Region).Agree (World.boot (sampleFlash fotaAppPartName d)).flash w₁.flash := by
  obtain ⟨w₁, hverify, -, -, hflash⟩ := fotaPartFwVerify_sample htarget
  obtain ⟨w₂, hcopy, -⟩ := fotaCopyVersion_marks sampleEnv_fm region_sampleFm sampleEnv_reliable
    sampleEnv_uncut rfl (by decide) w₁
  exact ⟨w₁, w₂, hverify, hcopy, hflash ▸ Region.Agree.refl⟩

/-- The version "1". -/
theorem staysInstalled_iff_sample :
    ∃ w₁ w₂, fotaPartFwVerify sampleEnv (some fotaFmPartName)
        (World.boot (sampleFlash fotaAppPartName [0x31])) = .done .noErr w₁ ∧
      fotaCopyVersion sampleEnv fotaFmPartName w₁ = .done .noErr w₂ ∧
      StaysInstalled sampleEnv.toBoard w₂.flash := by
  obtain ⟨w₁, w₂, hverify, hcopy, hag⟩ := @sample_marked [0x31] (by decide +kernel)
  have hview : (⟨0, 0, 0x2000⟩ : Region).view
      (World.boot (sampleFlash fotaAppPartName [0x31])).flash = _ := view_sampleFlash
  refine ⟨w₁, w₂, hverify, hcopy, (staysInstalled_iff sampleEnv_fm region_sampleFm (fun h => ?_)
    hverify rfl hag hcopy Region.Agree.refl).mpr ?_⟩
  · cases h
  · rw [hview, slice_sampleContents_version]
    decide

/-- A version of 24 bytes without a NUL: the image is installed again at the next boot. -/
theorem not_staysInstalled_unterminated :
    ∃ w₁ w₂, fotaPartFwVerify sampleEnv (some fotaFmPartName)
        (World.boot (sampleFlash fotaAppPartName (List.replicate 24 0x31))) = .done .noErr w₁ ∧
      fotaCopyVersion sampleEnv fotaFmPartName w₁ = .done .noErr w₂ ∧
      ¬ StaysInstalled sampleEnv.toBoard w₂.flash := by
  obtain ⟨w₁, w₂, hverify, hcopy, hag⟩ := @sample_marked (List.replicate 24 0x31) (by decide +kernel)
  have hview : (⟨0, 0, 0x2000⟩ : Region).view
      (World.boot (sampleFlash fotaAppPartName (List.replicate 24 0x31))).flash = _ := view_sampleFlash
  obtain ⟨hacc, hmark⟩ := marked_of_copy sampleEnv_fm region_sampleFm hverify rfl hag hcopy
  refine ⟨w₁, w₂, hverify, hcopy, fun h => ?_⟩
  have h0 := (staysInstalled_iff_terminated sampleEnv_fm region_sampleFm (fun h => by cases h) hacc
    (by rw [hmark, slice_markInstalled_version,
      slice_markInstalled (.inl (by decide)) (.inl (by decide))])).mp h
  have hver := hag.slice (show 28 + 24 ≤ 0x2000 by decide)
  rw [hview, slice_sampleContents_version] at hver
  rw [hmark, slice_markInstalled (.inl (by decide)) (.inl (by decide)), ← hver] at h0
  exact absurd h0 (by decide)

end McuUtilities.Fota
