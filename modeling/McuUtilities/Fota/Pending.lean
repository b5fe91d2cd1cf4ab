import McuUtilities.Fota.Source
import McuUtilities.Fota.Boots

/-!
# Pending images

`fota_init` acts on the download partition only when the package check accepts it and its version
strings differ. Then it verifies the image, and either marks it as installed or installs it.
-/

namespace McuUtilities.Fota
open Prog

/-- A download partition of length `len` with contents `m` holds a package that counts as new. -/
structure Pending (b : Board) (len : Nat) (m : Nat → UInt8) : Prop where
  accepted : PackageAccepted b len m
  new : strcmpEq (Head.downloadVersion (headAt m) ++ b.pastHead)
    (Head.currentVersion (headAt m) ++ b.pastHead) = false

theorem Pending.agree {b : Board} {r : Region} {f g : Flash} (h : Pending b r.len (r.view f))
    (hag : r.Agree f g) : Pending b r.len (r.view g) := by
  have hhead : headAt (r.view g) = headAt (r.view f) := (hag.slice (by
    have := h.accepted.head_le
    omega)).symm
  exact ⟨h.accepted.agree hag, by rw [hhead]; exact h.new⟩

/-- The checks before an installation accept the image in the download partition. -/
def Verified (env : Env) (f : Flash) : Prop :=
  ∃ w₁ w₂, fotaPartFwVerify env (some fotaFmPartName) (World.boot f) = .done .noErr w₁ ∧
    fotaCheckUpgrade env w₁ = .done 1 w₁ ∧
    fotaUpgradeVerify env (some fotaFmPartName) w₁ = .done .noErr w₂

section init
variable (env : Env)

/-- `fota_init` from the backup of the application to the label `__exit_boot_entry`. -/
def fotaInitInstall : Boot Unit := do
  if env.rollback then
    let _ ← fotaRollbackCopy env fotaRollbackPartName fotaAppPartName
  let err ← fotaUpgrade env (some fotaFmPartName)
  if err = .noErr then
    let _ ← fotaCopyVersion env fotaFmPartName

/-- `fota_init` from the call of `fota_upgrade_verify` to the label `__exit_boot_entry`. -/
def fotaInitPending : Boot Unit := do
  let err ← fotaUpgradeVerify env (some fotaFmPartName)
  if err ≠ .noErr then
    let _ ← fotaCopyVersion env fotaFmPartName
  else fotaInitInstall env

end init

section pending
variable {env : Env} {w : World}

theorem fotaCheckUpgrade_eq : fotaCheckUpgrade env w = .done (if strcmpEq
    (Head.downloadVersion w.rblFotaPartHead ++ env.pastHead)
    (Head.currentVersion w.rblFotaPartHead ++ env.pastHead) then 0 else 1) w := rfl

/-- Without a pending image a boot goes on to its application check. -/
theorem fotaInitUpgrade_of_not_pending {fm : FalPartition}
    (hfm : falPartitionFind env.toBoard fotaFmPartName = some fm)
    (h : ∀ r, env.region fm = some r → ¬ Pending env.toBoard fm.len (r.view w.flash)) :
    ∃ tab head w', fotaInitUpgrade env w = .done () w' ∧
      Ticked { w with crcTab := tab, rblFotaPartHead := head } w' := by
  have hspec := fotaPartFwVerify_spec hfm w
  obtain ⟨e, w', hrun, hspec⟩ := hspec.returns
  obtain ⟨⟨tab, head, ht⟩, hok, -⟩ := hspec
  refine ⟨tab, head, w', ?_, ht⟩
  by_cases he : e = .noErr
  · subst he
    obtain ⟨r, hr, -, hhead, hacc⟩ := hok rfl
    have hold : strcmpEq (Head.downloadVersion w'.rblFotaPartHead ++ env.pastHead)
        (Head.currentVersion w'.rblFotaPartHead ++ env.pastHead) = true := by
      rw [hhead]
      by_contra hnew
      exact h r hr ⟨hacc, Bool.eq_false_iff.mpr hnew⟩
    rw [fotaInitUpgrade, bind_done hrun, if_pos rfl, bind_done fotaCheckUpgrade_eq, hold]
    rfl
  · rw [fotaInitUpgrade, bind_done hrun, if_neg he]
    rfl

/-- With a pending image, when nothing fails, a boot goes on to verify it. -/
theorem fotaInitUpgrade_of_pending (hrel : env.Reliable) {fm : FalPartition} {r : Region}
    (hfm : falPartitionFind env.toBoard fotaFmPartName = some fm) (hr : env.region fm = some r)
    (h : Pending env.toBoard fm.len (r.view w.flash)) :
    ∃ w₁, fotaPartFwVerify env (some fotaFmPartName) w = .done .noErr w₁ ∧
      fotaCheckUpgrade env w₁ = .done 1 w₁ ∧ fotaInitUpgrade env w = fotaInitPending env w₁ ∧
      w₁.crcTab = packageCrcTab ∧ w₁.rblFotaPartHead = headAt (r.view w.flash) ∧
      w₁.flash = w.flash ∧ w₁.log = w.log ∧ w₁.ops = w.ops ∧ w₁.oob = w.oob := by
  obtain ⟨w₁, hrun, htab, hhead, hrest⟩ := fotaPartFwVerify_of_accepted hr hrel hfm h.accepted
  have hcheck : fotaCheckUpgrade env w₁ = .done 1 w₁ := by
    rw [fotaCheckUpgrade_eq, hhead, h.new]
    rfl
  refine ⟨w₁, hrun, hcheck, ?_, htab, hhead, hrest⟩
  rw [fotaInitUpgrade, bind_done hrun, if_pos rfl, bind_done hcheck, if_pos (by decide)]
  rfl

/-- An image that fails its verification is marked. -/
theorem fotaInitPending_of_refused {e : FotaErr} {w₁ w₂ : World} (he : e ≠ .noErr)
    (hverify : fotaUpgradeVerify env (some fotaFmPartName) w₁ = .done e w₂) :
    fotaInitPending env w₁ = (do let _ ← fotaCopyVersion env fotaFmPartName : Boot Unit) w₂ := by
  rw [fotaInitPending, bind_done hverify, if_pos he]

/-- An image that passes its verification is installed. -/
theorem fotaInitPending_of_verified {w₁ w₂ : World}
    (hverify : fotaUpgradeVerify env (some fotaFmPartName) w₁ = .done .noErr w₂) :
    fotaInitPending env w₁ = fotaInitInstall env w₂ := by
  rw [fotaInitPending, bind_done hverify, if_neg (fun h => h rfl)]

theorem fotaInitInstall_eq (hroll : env.rollback = false) :
    fotaInitInstall env = (do
      let err ← fotaUpgrade env (some fotaFmPartName)
      if err = .noErr then
        let _ ← fotaCopyVersion env fotaFmPartName : Boot Unit) := by
  rw [fotaInitInstall, hroll]
  rfl

/-- The application check and the start change no flash. -/
theorem checkAndStart_flash : (checkAndStart env w).state.flash = w.flash := by
  funext dev a
  exact ((checkAndStart_spares (s := ⟨dev, a, 1⟩) w).agree dev a
    ⟨rfl, Nat.le_refl a, Nat.lt_succ_self a⟩).symm

/-- Without `FOTA_ROLLBACK`, flash is not changed after the label `__exit_boot_entry`. -/
theorem bootFlash_eq (hroll : env.rollback = false) {f : Flash} :
    bootFlash f env = (fotaInitUpgrade env (World.boot f)).state.flash := by
  rw [bootFlash, fotaInit, hroll, Bool.false_and, if_neg (by decide), bind_apply]
  cases hrun : fotaInitUpgrade env (World.boot f) with
  | done u w' =>
    have hflash := @checkAndStart_flash env w'
    dsimp only [Outcome.state]
    rw [bind_apply]
    cases hcheck : checkAndStart env w' with
    | done ok w'' => cases ok <;> rwa [hcheck] at hflash
    | fail e w'' => rwa [hcheck] at hflash
    | halt c w'' => rwa [hcheck] at hflash
  | fail e w' => rfl
  | halt c w' => rfl

end pending

/-! ## The sample image for the application -/

section sample
variable {b : Board} {f : Flash}

theorem target_sampleImage : falPartitionFind b (Head.appPartName (sampleHead fotaAppPartName [0x31])) =
    falPartitionFind b fotaAppPartName := by
  have hname : strcmpEq (Head.appPartName (sampleHead fotaAppPartName [0x31])) fotaAppPartName =
      true := by decide +kernel
  exact falPartitionFind_congr hname

variable (hag : (⟨0, 0, 0x2000⟩ : Region).Agree (sampleFlash fotaAppPartName [0x31]) f)
include hag

theorem headAt_sampleImage :
    headAt ((⟨0, 0, 0x2000⟩ : Region).view f) = sampleHead fotaAppPartName [0x31] := by
  rw [headAt, ← hag.slice (by decide), view_sampleFlash]
  exact headAt_sampleContents

theorem pending_sampleImage (hpast : b.pastHead = [])
    (happ : (falPartitionFind b fotaAppPartName).isSome = true) :
    Pending b 0x2000 ((⟨0, 0, 0x2000⟩ : Region).view f) := by
  have hacc := @packageAccepted_sample fotaAppPartName [0x31] b 0x2000
    (by rw [target_sampleImage]; exact happ) (by decide)
  have hnew : strcmpEq (Head.downloadVersion (sampleHead fotaAppPartName [0x31]) ++ [])
      (Head.currentVersion (sampleHead fotaAppPartName [0x31]) ++ []) = false := by decide +kernel
  rw [← view_sampleFlash] at hacc
  refine ⟨hacc.agree hag, ?_⟩
  rw [headAt_sampleImage hag, hpast]
  exact hnew

omit hag in
theorem decodedPieces_sampleImage (hr : b.region sampleFm = some ⟨0, 0, 0x2000⟩) :
    decodedPieces b sampleFm (sampleHead fotaAppPartName [0x31]) f =
      some (plainChunks ((⟨0, 0, 0x2000⟩ : Region).view f) 1) := by
  have hps := @decodedPieces_plain b sampleFm _ hr (sampleHead fotaAppPartName [0x31])
    plain_sampleHead f (fun _ => by rw [comSize_sampleHead]; decide)
  rwa [comSize_sampleHead] at hps

theorem piecesAccepted_sampleImage : PiecesAccepted (sampleHead fotaAppPartName [0x31])
    (plainChunks ((⟨0, 0, 0x2000⟩ : Region).view f) 1) := by
  have hbody : slice ((⟨0, 0, 0x2000⟩ : Region).view f) sizeofHead 1 = [0] := by
    rw [← hag.slice (by decide), view_sampleFlash]
    exact body_sampleContents
  have hacc := @piecesAccepted_plain ((⟨0, 0, 0x2000⟩ : Region).view f)
    (sampleHead fotaAppPartName [0x31]) plain_sampleHead
  rw [rawSize_sampleHead, comSize_sampleHead, hashVal_sampleHead, hbody] at hacc
  exact hacc (by decide) (by decide) rfl

/-- What a boot from flash with that image does until it installs it. -/
theorem fotaInitUpgrade_sampleImage {env : Env} (hrel : env.Reliable) (hpast : env.pastHead = [])
    (hfm : falPartitionFind env.toBoard fotaFmPartName = some sampleFm)
    (hr : env.region sampleFm = some ⟨0, 0, 0x2000⟩)
    (happ : (falPartitionFind env.toBoard fotaAppPartName).isSome = true) :
    ∃ w₁ w₂, fotaPartFwVerify env (some fotaFmPartName) (World.boot f) = .done .noErr w₁ ∧
      fotaUpgradeVerify env (some fotaFmPartName) w₁ = .done .noErr w₂ ∧ w₂.oob = w₁.oob ∧
      fotaInitUpgrade env (World.boot f) = fotaInitInstall env w₂ ∧
      w₂.rblFotaPartHead = sampleHead fotaAppPartName [0x31] ∧ w₂.flash = f ∧ w₂.ops = 0 ∧
      w₂.log = [] := by
  obtain ⟨w₁, hrun, -, heq, -, hhead, hflash, hlog, hops, -⟩ := fotaInitUpgrade_of_pending
    (w := World.boot f) hrel hfm hr (pending_sampleImage hag hpast happ)
  have hhead : w₁.rblFotaPartHead = sampleHead fotaAppPartName [0x31] :=
    hhead.trans (headAt_sampleImage hag)
  have hflash : w₁.flash = f := hflash
  obtain ⟨w₂, hverify, hq, hoob, -⟩ := fotaUpgradeVerify_of_pieces (f := f) (w := w₁) hrel hfm hr
    (hflash ▸ Region.Agree.refl) (by rw [hhead]; exact decodedPieces_sampleImage hr)
    (by rw [hhead]; exact piecesAccepted_sampleImage hag)
  exact ⟨w₁, w₂, hrun, hverify, hoob, heq.trans (fotaInitPending_of_verified hverify),
    hq.head.trans hhead, hq.flash.trans hflash, hq.ops.trans hops, hq.log.trans hlog⟩

end sample

end McuUtilities.Fota
