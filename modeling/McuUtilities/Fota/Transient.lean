import McuUtilities.Fota.Boots

/-!
# Pending updates

What `fota_init` does with an image whose verification fails for want of an allocation or a read.
It calls `fota_copy_version` on every error, so that the image counts as installed, and the update
is lost unless that call is short of something too.
-/

namespace McuUtilities.Fota
open Prog

/-- In a boot from the flash `f` the package check accepts the download partition and leaves `w₁`,
and the image is new. `fota_upgrade_verify` would accept it, but fails and leaves `w₂`. -/
structure TransientFailure (env : Env) (f : Flash) (w₁ w₂ : World) : Prop where
  entered : (env.rollback && env.fotaRollbackCheck == 0) = false
  accepted : fotaPartFwVerify env (some fotaFmPartName) (World.boot f) = .done .noErr w₁
  pending : fotaCheckUpgrade env w₁ = .done 1 w₁
  intact : ∀ env' : Env, env'.toBoard = env.toBoard → env'.Reliable →
    ∃ w', fotaUpgradeVerify env' (some fotaFmPartName) w₁ = .done .noErr w'
  failed : ∃ e, e ≠ .noErr ∧ fotaUpgradeVerify env (some fotaFmPartName) w₁ = .done e w₂

section failure
variable {env : Env} (hunc : env.Uncut) {fm : FalPartition} {r : Region}
  (hfm : falPartitionFind env.toBoard fotaFmPartName = some fm) (hr : env.region fm = some r)
  (hdis : env.rollback = true → ∀ app ra, falPartitionFind env.toBoard fotaAppPartName = some app →
    env.region app = some ra → r.Disjoint ra)
include hunc hfm hr

/-- After the failure the image is marked, or left as it is where `fota_copy_version` is short of
its buffer or its read. -/
theorem fotaInitUpgrade_failed {f : Flash} {w₁ w₂ : World} (h : TransientFailure env f w₁ w₂) :
    Meets (fotaInitUpgrade env) (World.boot f)
      (fun _ w' => (CanMark env fm w₂ → r.view w'.flash = markInstalled packageCrcTab (r.view f)) ∧
        (¬ CanMark env fm w₂ → w'.flash = f))
      (fun _ _ => False)
      (fun _ w' => CanMark env fm w₂ ∧
        r.view w'.flash = markInstalled packageCrcTab (r.view f)) := by
  obtain ⟨⟨tab, head, ht⟩, hok, -⟩ := (fotaPartFwVerify_spec hfm (World.boot f)).done h.accepted
  obtain ⟨-, -, htab, -, -⟩ := hok rfl
  obtain ⟨e, he, hverify⟩ := h.failed
  have hq := fotaUpgradeVerify_quiet.of_done hverify
  have hflash : w₂.flash = f := hq.flash.trans ht.flash
  have htab₂ : w₂.crcTab = packageCrcTab := hq.crcTab.trans htab
  refine Meets.bind (Meets.of_done h.accepted ?_)
  rw [if_pos rfl]
  refine Meets.bind (Meets.of_done h.pending ?_)
  rw [if_pos (by decide)]
  refine Meets.bind (Meets.of_done hverify ?_)
  rw [if_pos he]
  refine Meets.bind ((fotaCopyVersion_spec hfm hr w₂).mono ?_ (fun _ _ h => h.elim) ?_)
  · rintro e' w' ⟨-, hno, hview, hmark⟩
    refine Meets.pure ⟨fun hcan => ?_, fun hcan => (hno hcan).2.trans hflash⟩
    rw [hview (hmark hunc.unfailing hcan), htab₂, hflash]
  · rintro c w' ⟨-, -, hcan, ⟨n, hcut⟩ | ⟨-, hview⟩⟩
    · exact (hunc.not_cut hcut).elim
    · rw [htab₂, hflash] at hview
      exact ⟨hcan, hview⟩

include hdis

/-- The download partition at the end of that boot. -/
theorem bootFlash_failed {f : Flash} {w₁ w₂ : World} (h : TransientFailure env f w₁ w₂) :
    (CanMark env fm w₂ → ∃ g, r.view g = markInstalled packageCrcTab (r.view f) ∧
      r.Agree g (bootFlash f env)) ∧
    (¬ CanMark env fm w₂ → r.Agree f (bootFlash f env)) := by
  have hm := fotaInitUpgrade_failed hunc hfm hr h
  have hspares := @checkAndRollback_spares env r hdis
  unfold bootFlash fotaInit
  rw [if_neg (by rw [h.entered]; decide)]
  unfold Meets at hm
  split at hm
  · next u w' hrun =>
    rw [bind_done hrun]
    have hag := (hspares w').agree
    refine ⟨fun hcan => ⟨w'.flash, hm.1 hcan, hag⟩, fun hcan => ?_⟩
    rw [hm.2 hcan] at hag
    exact hag
  · exact hm.elim
  · next c w' hrun =>
    rw [bind_halt hrun]
    exact ⟨fun _ => ⟨w'.flash, hm.2, Region.Agree.refl⟩, fun hcan => absurd hm.1 hcan⟩

/-- An image whose verification failed for want of an allocation or a read is left pending if and
only if `fota_copy_version` then cannot mark it, or finds nothing to mark. -/
theorem pendingKept_iff {f : Flash} {w₁ w₂ : World} (h : TransientFailure env f w₁ w₂) :
    r.Agree f (bootFlash f env) ↔
      ¬ CanMark env fm w₂ ∨ slice (r.view f) 52 24 = slice (r.view f) 28 24 := by
  have hsize : sizeofHead = 96 := rfl
  obtain ⟨hmark, hkeep⟩ := bootFlash_failed hunc hfm hr hdis h
  obtain ⟨-, hok, -⟩ := (fotaPartFwVerify_spec hfm (World.boot f)).done h.accepted
  obtain ⟨r', hr', -, -, hacc⟩ := hok rfl
  obtain rfl := Option.some.inj (hr.symm.trans hr')
  have hacc : PackageAccepted env.toBoard fm.len (r.view f) := hacc
  have hlen := (Board.region_eq hr).2.2
  have hle := hacc.head_le
  constructor
  · intro hag
    refine or_iff_not_imp_left.mpr fun hcan => ?_
    obtain ⟨g, hview, hag'⟩ := hmark (Classical.not_not.mp hcan)
    rw [hag.slice (show 52 + 24 ≤ r.len by omega), ← hag'.slice (show 52 + 24 ≤ r.len by omega), hview,
      slice_markInstalled_version]
  · rintro (hcan | hversion)
    · exact hkeep hcan
    · by_cases hcan : CanMark env fm w₂
      · obtain ⟨g, hview, hag⟩ := hmark hcan
        refine Region.Agree.trans (Region.agree_of_view fun a _ => ?_) hag
        rw [hview, hacc.markInstalled_eq hversion]
      · exact hkeep hcan

end failure

/-! ## The allocations before the verification -/

/-- Between the two states no allocation was made. -/
def SameAllocs (w w' : World) : Prop := w'.allocs = w.allocs

namespace SameAllocs

theorem refl (w : World) : SameAllocs w w := rfl

theorem trans {w w' w'' : World} (h : SameAllocs w w') (h' : SameAllocs w' w'') : SameAllocs w w'' :=
  Eq.trans h' h

end SameAllocs

section allocs
variable {env : Env} {part : FalPartition}

theorem falPartitionRead_allocs {addr size : Nat} :
    Always SameAllocs (falPartitionRead env part addr size) := by
  unfold falPartitionRead
  refine Always.ite (fun _ => Always.pure SameAllocs.refl _) fun _ => ?_
  split
  · exact Always.pure SameAllocs.refl _
  · exact fun _ => rfl

theorem bodyStep_allocs {head : List UInt8} (s : Nat × UInt32) :
    Always SameAllocs (bodyStep env part head s) := by
  unfold bodyStep
  refine Always.ite (fun _ => Always.bind SameAllocs.trans falPartitionRead_allocs fun res => ?_)
    fun _ => Always.pure SameAllocs.refl _
  cases res with
  | none => exact Always.throw SameAllocs.refl _
  | some buf =>
    refine Always.ite (fun _ => Always.throw SameAllocs.refl _) fun _ =>
      Always.bind SameAllocs.trans (Always.get SameAllocs.refl) fun _ => Always.pure SameAllocs.refl _

/-- A package check that accepts has made one allocation. -/
theorem fotaPartFwCheck_allocs (w : World) :
    Meets (fotaPartFwCheck env part) w (fun _ w' => w'.allocs = w.allocs + 1)
      (fun _ _ => True) (fun _ _ => True) := by
  unfold fotaPartFwCheck
  refine Meets.bind ((falPartitionRead_allocs.meets w).mono (fun res w₁ h₁ => ?_)
    (fun _ _ _ => trivial) fun _ _ _ => trivial)
  cases res with
  | none => exact Meets.throw trivial
  | some head =>
  refine Meets.bind (Meets.of_done (modify_apply _) (Meets.bind (Meets.of_done get_apply ?_)))
  refine Meets.bind (Meets.require (fun _ => ?_) fun _ => trivial)
  refine Meets.bind (Meets.require (fun _ => ?_) fun _ => trivial)
  refine Meets.bind (Meets.require (fun _ => ?_) fun _ => trivial)
  refine Meets.bind (Meets.of_done rfl (Meets.bind (Meets.require (fun _ => ?_) fun _ => trivial)))
  have hloop := Always.iterate SameAllocs.refl SameAllocs.trans
    (@bodyStep_allocs env part head) (loopFuel part) (0, 0xffffffff)
  refine Meets.bind ((hloop.meets _).mono (fun crc w₂ h₂ => ?_) (fun _ _ _ => trivial)
    fun _ _ _ => trivial)
  refine Meets.bind (Meets.require (fun _ => Meets.pure ?_) fun _ => trivial)
  rw [h₂]
  exact congrArg (· + 1) h₁

theorem fotaPartFwVerify_allocs {name : List UInt8}
    (hpart : falPartitionFind env.toBoard name = some part) {w w' : World}
    (h : fotaPartFwVerify env (some name) w = .done .noErr w') : w'.allocs = w.allocs + 1 := by
  rw [fotaPartFwVerify, Option.bind_some, hpart] at h
  obtain ⟨res, w₁, hres, h⟩ := bind_eq_done h
  have hallocs := @fotaPartFwCheck_allocs env part w
  have hmeets := @fotaPartFwCheck_meets env part w
  cases hrun : fotaPartFwCheck env part w with
  | done head w₂ =>
    rw [attempt_done hrun] at hres
    cases hres
    have hallocs := hallocs.done hrun
    cases h
    exact hallocs
  | fail e w₂ =>
    rw [attempt_fail hrun] at hres
    cases hres
    cases h
    exact absurd rfl (hmeets.fail hrun).2.1
  | halt c w₂ =>
    rw [attempt_halt hrun] at hres
    cases hres

end allocs

/-! ## One failed allocation -/

/-- The board of the sample image, on which some allocations fail. -/
def sampleShortEnv (allocOk : Nat → Bool) : Env := { sampleEnv with allocOk := allocOk }

section sample
variable {allocOk : Nat → Bool}

theorem sampleShortEnv_uncut : (sampleShortEnv allocOk).Uncut := fun _ => rfl

theorem sampleShortEnv_fm :
    falPartitionFind (sampleShortEnv allocOk).toBoard fotaFmPartName = some sampleFm := rfl

theorem region_sampleShortFm :
    (sampleShortEnv allocOk).region sampleFm = some ⟨0, 0, 0x2000⟩ := rfl

theorem sampleShortEnv_rollback (h : (sampleShortEnv allocOk).rollback = true) : False := by
  cases h

/-- The allocation that follows the package check fails, and with it the verification. -/
theorem sample_transient (h0 : allocOk 0 = true) (h1 : allocOk 1 = false) :
    ∃ w₁ w₂, TransientFailure (sampleShortEnv allocOk)
        (sampleFlash fotaAppPartName [0x31]) w₁ w₂ ∧ w₂.allocs = 2 ∧ w₂.reads = w₁.reads := by
  have hfm := @sampleShortEnv_fm allocOk
  have hview : (⟨0, 0, 0x2000⟩ : Region).view
      (World.boot (sampleFlash fotaAppPartName [0x31])).flash = _ := view_sampleFlash
  have hacc := @packageAccepted_sample fotaAppPartName [0x31] sampleEnv.toBoard 0x2000
    (by rw [target_sampleHead]; rfl) (by decide)
  obtain ⟨w₁, hrun, -, hhead, tab, head, ht⟩ := fotaPartFwVerify_of_supplied hfm region_sampleShortFm
    (w := World.boot (sampleFlash fotaAppPartName [0x31])) ⟨h0, fun _ => rfl⟩
    (by rw [hview]; exact hacc)
  have hallocs : w₁.allocs = 1 := fotaPartFwVerify_allocs hfm hrun
  rw [hview, headAt_sampleContents] at hhead
  have hmalloc : malloc (sampleShortEnv allocOk) w₁ =
      .done false { w₁ with allocs := w₁.allocs + 1 } := by
    rw [malloc, hallocs]
    exact congrArg (fun c => Outcome.done c _) h1
  refine ⟨w₁, { w₁ with allocs := w₁.allocs + 1 }, ⟨rfl, hrun, ?_, fun env' hb hrel => ?_,
    .noMemErr, by decide, ?_⟩, by rw [hallocs], rfl⟩
  · have hnew : strcmpEq (Head.downloadVersion (sampleHead fotaAppPartName [0x31]) ++ [])
        (Head.currentVersion (sampleHead fotaAppPartName [0x31]) ++ []) = false := by decide +kernel
    have hcheck : fotaCheckUpgrade (sampleShortEnv allocOk) w₁ = .done (if strcmpEq
      (Head.downloadVersion w₁.rblFotaPartHead ++ []) (Head.currentVersion w₁.rblFotaPartHead ++ [])
        then 0 else 1) w₁ := rfl
    rw [hcheck, hhead, hnew]
    rfl
  · have hb : env'.toBoard = sampleEnv.toBoard := hb
    have hps := @decodedPieces_sample fotaAppPartName [0x31] w₁.flash (by rw [ht.flash]; exact hview)
    have hfm' : falPartitionFind env'.toBoard fotaFmPartName = some sampleFm := hb ▸ sampleEnv_fm
    have hr' : env'.region sampleFm = some ⟨0, 0, 0x2000⟩ := hb ▸ region_sampleFm
    have hacc' := @piecesAccepted_sample fotaAppPartName [0x31]
    rw [← hb, ← hhead] at hps
    rw [← hhead] at hacc'
    obtain ⟨w', hverify, -⟩ := fotaUpgradeVerify_of_pieces hrel hfm' hr' (w := w₁)
      Region.Agree.refl hps hacc'
    exact ⟨w', hverify⟩
  · simp only [fotaUpgradeVerify, Option.bind_some, hfm]
    refine exitCode_fail ?_
    rw [upgradeVerifyBody, bind_done get_apply, bind_done hmalloc]
    rfl

end sample

/-- The buffer of `fota_copy_version` is not to be had either. -/
theorem pendingKept_iff_sample :
    ∃ w₁ w₂, TransientFailure (sampleShortEnv fun n => n == 0)
        (sampleFlash fotaAppPartName [0x31]) w₁ w₂ ∧
      (⟨0, 0, 0x2000⟩ : Region).Agree (sampleFlash fotaAppPartName [0x31])
        (bootFlash (sampleFlash fotaAppPartName [0x31]) (sampleShortEnv fun n => n == 0)) := by
  obtain ⟨w₁, w₂, h, hallocs, -⟩ := @sample_transient (fun n => n == 0) rfl rfl
  refine ⟨w₁, w₂, h, (pendingKept_iff sampleShortEnv_uncut sampleShortEnv_fm region_sampleShortFm
    (fun h => (sampleShortEnv_rollback h).elim) h).mpr
    (.inl fun hcan => ?_)⟩
  have halloc := hcan.1
  rw [hallocs] at halloc
  cases halloc

/-- One allocation fails, once: the update is lost. -/
theorem not_pendingKept :
    ∃ w₁ w₂, TransientFailure (sampleShortEnv fun n => n != 1)
        (sampleFlash fotaAppPartName [0x31]) w₁ w₂ ∧
      ¬ (⟨0, 0, 0x2000⟩ : Region).Agree (sampleFlash fotaAppPartName [0x31])
        (bootFlash (sampleFlash fotaAppPartName [0x31]) (sampleShortEnv fun n => n != 1)) := by
  obtain ⟨w₁, w₂, h, hallocs, -⟩ := @sample_transient (fun n => n != 1) rfl rfl
  refine ⟨w₁, w₂, h, fun hag => ?_⟩
  obtain ⟨hmark, -⟩ := bootFlash_failed sampleShortEnv_uncut sampleShortEnv_fm region_sampleShortFm
    (fun h => (sampleShortEnv_rollback h).elim) h
  obtain ⟨g, hview, hag'⟩ := hmark ⟨by rw [hallocs]; rfl, rfl, by decide⟩
  have hsame : (⟨0, 0, 0x2000⟩ : Region).Agree (sampleFlash fotaAppPartName [0x31]) g :=
    hag.trans hag'.symm
  have hver := hsame.slice (show 52 + 24 ≤ 0x2000 by decide)
  rw [hview, slice_markInstalled_version, view_sampleFlash, slice_sampleContents_version] at hver
  have hcur : slice (sampleContents fotaAppPartName [0x31]) 52 24 = List.replicate 24 0 := rfl
  rw [hcur] at hver
  exact absurd hver (by decide)

end McuUtilities.Fota
