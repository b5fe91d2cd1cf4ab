import McuUtilities.Fota.Rollback
import McuUtilities.Fota.Recovery

/-!
# Boots and downloads on a device with a backup

Between boots anything may be downloaded, and the power may be cut during any flash operation of a
boot. When every boot is safe where it starts, no copy ever overwrites a valid partition from one that
is not valid, and once a valid image is there, the device can start one ever after.
-/

namespace McuUtilities.Fota
open Prog

/-- The flash after `fm` was downloaded. -/
def Device.download (d : Device) (fm : Nat → UInt8) (f : Flash) : Flash := fun dev a =>
  if d.fmRegion.Covers dev a then fm (a - d.fmRegion.off) else f dev a

theorem Device.view_download {d : Device} {fm : Nat → UInt8} {f : Flash} {a : Nat}
    (h : a < d.fmRegion.len) : d.fmRegion.view (d.download fm f) a = fm a := by
  rw [Region.view, Device.download, if_pos ⟨rfl, by omega, by omega⟩, Nat.add_sub_cancel_left]

theorem Device.download_agree {d : Device} {r : Region} (h : r.Disjoint d.fmRegion)
    (fm : Nat → UInt8) (f : Flash) : r.Agree f (d.download fm f) := by
  refine Region.agree_of_confined h fun dev a ha => ?_
  rw [Device.download, if_neg ha]

/-- One boot of a run: the flash it starts from, and the state it ends in. -/
structure Booted where
  before : Flash
  after : World

/-- A boot after its download. -/
def Start.boot {d : Device} (s : Start d) (f : Flash) : Booted where
  before := d.download s.fm f
  after := (fotaInit s.env (World.boot (d.download s.fm f))).state

/-- The device from boot to boot. -/
def bootMachine (d : Device) : Machine Flash (Start d) Booted Empty where
  step f s := ([s.boot f], .inl (s.boot f).after.flash)

theorem bootMachine_run {d : Device} {f : Flash} {s : Start d} {ss : List (Start d)} :
    (bootMachine d).run f (s :: ss) =
      ((s, [s.boot f]) :: ((bootMachine d).run (s.boot f).after.flash ss).1,
        ((bootMachine d).run (s.boot f).after.flash ss).2) := rfl

theorem bootMachine_along {d : Device} {C : Flash → Start d → Prop} {f : Flash} {s : Start d}
    {ss : List (Start d)} (h : C f s) (h' : (bootMachine d).Along C (s.boot f).after.flash ss) :
    (bootMachine d).Along C f (s :: ss) := Machine.along_cons h rfl h'

theorem bootMachine_run_nil {d : Device} {f : Flash} : (bootMachine d).run f [] = ([], .inl f) := rfl

/-- When the power is not cut, nothing is pending and the user does not ask for the backup, the next
boot enters a valid application. -/
def CanStart (d : Device) (f : Flash) : Prop :=
  ∀ s : Start d, s.env.Uncut → s.env.fotaRollbackCheck ≠ 0 →
    ¬ Pending s.env.toBoard d.fm.len (d.fmRegion.view (d.download s.fm f)) →
    ∃ w g, fotaInit s.env (World.boot (d.download s.fm f)) = .done true w ∧ .start g ∈ w.log ∧
      d.AppValid g

section start
variable {d : Device} {f : Flash}

/-- The backup, copied over the application, is started. -/
theorem fotaInitRollback_starts (s : Start d) (hunc : s.env.Uncut) {w : World}
    (h : d.Restorable w.flash) :
    ∃ w' g, fotaInitRollback s.env w = .done true w' ∧ .start g ∈ w'.log ∧ d.AppValid g := by
  obtain ⟨e, w₁, hrun, hc, hcopy⟩ := ((fotaRollbackCopy_meets s.region_app s.region_rbk
    d.app_rbk.symm s.reliable hunc.unfailing s.find_app s.find_rbk w).mono (fun _ _ h => h) (fun _ _ h => h)
    fun _ _ h => hunc.not_cutShort h).returns
  have hvalid : d.AppValid w₁.flash := (ImageValid.copy h.valid h.fits hcopy).1
  have hlegal : d.AppLegal w₁.flash := by
    have hle := d.vectors_app
    have hle' := d.vectors_rbk
    have hsame : slice (d.appRegion.view w₁.flash) appHeaderLen 8 =
        slice (d.rbkRegion.view w.flash) appHeaderLen 8 := by
      refine slice_congr fun i hi => ?_
      have := eq_of_slice_eq hcopy (i := appHeaderLen + i) (by omega)
      rwa [Nat.zero_add] at this
    rw [Device.AppLegal, hsame]
    exact h.legal
  obtain ⟨ok, w₂, hstart, -, -, hok, hlog⟩ := (checkAndStart_meets s w₁).returns
  obtain rfl := hok.mpr ⟨hvalid, hlegal⟩
  exact ⟨w₂, w₁.flash, by rw [fotaInitRollback, bind_done hrun, hstart], hlog rfl, hvalid⟩

/-- From the label `__exit_boot_entry` on, an image that the device can start is started. -/
theorem checkAndRollback_starts (s : Start d) (hunc : s.env.Uncut) {w : World}
    (h : d.Startable w.flash) :
    ∃ w' g, (do
      if ← checkAndStart s.env then pure true
      else if s.env.rollback then fotaInitRollback s.env
      else pure false : Boot Bool) w = .done true w' ∧ .start g ∈ w'.log ∧ d.AppValid g := by
  have hroll : s.env.rollback = true := s.board ▸ d.rollback
  obtain ⟨ok, w₁, hstart, -, hflash, hok, hlog⟩ := (checkAndStart_meets s w).returns
  rw [bind_done hstart, hroll]
  cases ok with
  | true => exact ⟨w₁, w.flash, rfl, hlog rfl, (hok.mp rfl).1⟩
  | false =>
    have hrestore : d.Restorable w₁.flash :=
      hflash ▸ h.resolve_left fun happ => Bool.false_ne_true (hok.mpr happ)
    exact fotaInitRollback_starts s hunc hrestore

theorem canStart_of_startable (h : d.Startable f) : CanStart d f := by
  intro s hunc hcheck hidle
  have hstart : d.Startable (d.download s.fm f) :=
    h.agree (Device.download_agree d.fm_app.symm _ _) (Device.download_agree d.fm_rbk.symm _ _)
  generalize d.download s.fm f = f₀ at hidle hstart ⊢
  obtain ⟨tab, head, w₁, hrun, ht⟩ := fotaInitUpgrade_of_not_pending (w := World.boot f₀) s.find_fm
    fun r hr => Option.some.inj (s.region_fm.symm.trans hr) ▸ hidle
  have hflash : w₁.flash = f₀ := ht.flash
  obtain ⟨w', g, hrest⟩ := checkAndRollback_starts s hunc (w := w₁) (hflash ▸ hstart)
  have hmanual : ¬ (s.env.rollback && s.env.fotaRollbackCheck == 0) = true :=
    fun hc => hcheck (eq_of_beq (Bool.and_eq_true_iff.mp hc).2)
  exact ⟨w', g, by rw [fotaInit, if_neg hmanual, bind_done hrun, hrest.1], hrest.2⟩

end start

/-- What the boots of a run have shown when the flash is `g`. -/
def BootsSafe (d : Device) (log : List (Start d × List Booted)) (g : Flash) : Prop :=
  ∀ entry ∈ log, ∀ boot ∈ entry.2,
    (∀ e ∈ boot.after.log, SafeCopy d.board e) ∧ (d.Valid boot.before → d.Startable g)

/-- One more boot. -/
theorem BootsSafe.step {d : Device} {log : List (Start d × List Booted)} {f f' : Flash} {s : Start d}
    {out : List Booted} (h : BootsSafe d log f) (hs : SafeBoot s (d.download s.fm f))
    (hstep : (bootMachine d).step f s = (out, .inl f')) : BootsSafe d (log ++ [(s, out)]) f' := by
  have hsound := fotaInit_sound hs
  cases hstep
  intro entry hentry boot hboot
  rcases List.mem_append.mp hentry with hold | hnew
  · obtain ⟨hcopies, hstart⟩ := h entry hold boot hboot
    refine ⟨hcopies, fun hv => hsound.startable ?_⟩
    exact (hstart hv).agree (Device.download_agree d.fm_app.symm _ _)
      (Device.download_agree d.fm_rbk.symm _ _)
  · obtain rfl := List.mem_singleton.mp hnew
    obtain rfl := List.mem_singleton.mp hboot
    obtain ⟨new, hlog, hsafe⟩ := hsound.copies
    exact ⟨hlog ▸ hsafe, fun hv => hsound.startable (hs.startable hv)⟩

/-- Along a run whose boots are all safe where they start, every copy is safe, and the device can start
an image at the end of the run if it held a valid one when any of the boots started. -/
theorem boots_safe {d : Device} {f : Flash} {starts : List (Start d)}
    (h : (bootMachine d).Along (fun f s => SafeBoot s (d.download s.fm f)) f starts) :
    match (bootMachine d).run f starts with
    | (log, .inl g) => ∀ entry ∈ log, ∀ boot ∈ entry.2,
        (∀ e ∈ boot.after.log, SafeCopy d.board e) ∧ (d.Valid boot.before → CanStart d g)
    | (_, .inr _) => False := by
  have hstart : BootsSafe d [] f := fun _ he => by cases he
  have hrun := Machine.run_invariant (fun _ _ _ _ _ hI hC hstep => hI.step hC hstep) hstart h
  generalize (bootMachine d).run f starts = res at hrun ⊢
  obtain ⟨log, g | r⟩ := res
  · exact fun entry hentry boot hboot =>
      (hrun entry hentry boot hboot).imp_right fun hv h => canStart_of_startable (hv h)
  · exact r.elim

/-! ## A device with three partitions -/

theorem length_fotaRollbackPartName : fotaRollbackPartName.length < 24 := by decide

theorem bound_sampleRbk : 0x4000 + 0x2000 ≤ 2 ^ 31 := by decide

/-- The backup partition of the sample device. -/
def sampleRbk : FalPartition :=
  ⟨fotaRollbackPartName, [0x66], 0x4000, 0x2000, length_fotaRollbackPartName, bound_sampleRbk⟩

/-- The sample board with a backup of the application. -/
def sampleDevice : Device where
  board := sampleBoard [sampleFm, sampleApp, sampleRbk] true
  rollback := rfl
  fm := sampleFm
  app := sampleApp
  rbk := sampleRbk
  fmRegion := ⟨0, 0, 0x2000⟩
  appRegion := ⟨0, 0x2000, 0x2000⟩
  rbkRegion := ⟨0, 0x4000, 0x2000⟩
  find_fm := rfl
  find_app := rfl
  find_rbk := rfl
  region_fm := rfl
  region_app := rfl
  region_rbk := rfl
  disjoint := by
    intro p hp q hq hne rp rq hrp hrq
    simp only [sampleBoard, List.mem_cons, List.not_mem_nil, or_false] at hp hq
    rcases hp with rfl | rfl | rfl <;> rcases hq with rfl | rfl | rfl <;> cases hrp <;> cases hrq <;>
      first
      | exact absurd rfl hne
      | (rintro dev a ⟨-, h₁, h₂⟩ ⟨-, h₃, h₄⟩
         simp only [sampleFm, sampleApp, sampleRbk] at h₁ h₂ h₃ h₄
         omega)
  onchip := rfl
  vectors_app := by decide
  vectors_rbk := by decide
  qlz_lt := fun _ => Nat.lt_of_le_of_lt (List.length_take_le _ _) (by decide)

/-- Flash with an empty image at the address `off` of every device, with a legal vector table. -/
def sampleEmptyFlash (off : Nat) : Flash := fun _ =>
  store (store (fun _ => 0) (off + 80) (leBytes 4 fnvSeed.toNat)) (off + appHeaderLen)
    [0, 0, 0, 0x20, 0, 0, 0, 0x08]

/-- A boot of the sample device, after the download of the sample image, that is cut while it erases
its first partition. -/
def sampleCutStart : Start sampleDevice where
  env := { sampleCutEnv 96 with toBoard := sampleDevice.board }
  board := rfl
  reliable := ⟨fun _ => rfl, fun _ => rfl⟩
  unfailing n h := by
    simp only [sampleCutEnv] at h
    split at h <;> cases h
  fm := sampleContents fotaAppPartName [0x31]

section sample

theorem rawSize_sampleEmptyFlash :
    Head.rawSize (headAt ((⟨0, 0x2000, 0x2000⟩ : Region).view (sampleEmptyFlash 0x2000))) = 0 := by
  decide +kernel

theorem appValid_sampleEmptyFlash : sampleDevice.AppValid (sampleEmptyFlash 0x2000) :=
  ImageValid.of_empty (by decide) rawSize_sampleEmptyFlash (by decide +kernel)

theorem appLegal_sampleEmptyFlash : sampleDevice.AppLegal (sampleEmptyFlash 0x2000) := by
  unfold Device.AppLegal
  decide +kernel

theorem rbkValid_sampleEmptyFlash : sampleDevice.RbkValid (sampleEmptyFlash 0x4000) :=
  ImageValid.of_empty (by decide) (by decide +kernel) (by decide +kernel)

theorem not_appValid_sampleEmptyFlash : ¬ sampleDevice.AppValid (sampleEmptyFlash 0x4000) := by
  intro h
  have hhash := h.hash
  have hraw : Head.rawSize (headAt (sampleDevice.appRegion.view (sampleEmptyFlash 0x4000))) = 0 := by
    decide +kernel
  rw [bodyAt, hraw, slice_zero] at hhash
  exact absurd hhash (by decide +kernel)

variable {f : Flash}

/-- The flash before that boot. -/
theorem sampleCut_agree : (⟨0, 0, 0x2000⟩ : Region).Agree (sampleFlash fotaAppPartName [0x31])
    (sampleDevice.download sampleCutStart.fm f) := by
  refine Region.agree_of_view fun a ha => ?_
  rw [view_sampleFlash]
  exact (sampleDevice.view_download ha).symm

/-- That boot ends while it erases the backup. -/
theorem sampleCut_boot :
    (sampleCutStart.boot f).after.flash =
        (FlashOp.erase ⟨0, 0x4000, 96⟩).apply (sampleDevice.download sampleCutStart.fm f) ∧
      (sampleCutStart.boot f).after.log =
        [.copy sampleRbk sampleApp (sampleDevice.download sampleCutStart.fm f)] := by
  obtain ⟨w₁, w₂, -, -, -, heq, -, hflash, hops, hlog⟩ := fotaInitUpgrade_sampleImage
    (sampleCut_agree (f := f)) sampleCutStart.reliable rfl sampleCutStart.find_fm
    sampleCutStart.region_fm rfl
  rw [Start.boot]
  generalize sampleDevice.download sampleCutStart.fm f = f₀ at heq hflash ⊢
  have hcut := fotaRollbackCopy_cut (w := w₂) sampleCutStart.region_rbk sampleCutStart.find_rbk
    sampleCutStart.find_app rfl (by rw [hops]; rfl)
  have hinstall : fotaInitInstall sampleCutStart.env w₂ = .halt .powerCut { w₂ with
      allocs := w₂.allocs + 1, log := w₂.log ++ [.copy sampleRbk sampleApp w₂.flash],
      flash := sampleCutStart.env.tear w₂.ops (.erase sampleDevice.rbkRegion) w₂.flash,
      ops := w₂.ops + 1 } := bind_halt hcut
  have hrun : fotaInit sampleCutStart.env (World.boot f₀) = .halt .powerCut { w₂ with
      allocs := w₂.allocs + 1, log := w₂.log ++ [.copy sampleRbk sampleApp w₂.flash],
      flash := sampleCutStart.env.tear w₂.ops (.erase sampleDevice.rbkRegion) w₂.flash,
      ops := w₂.ops + 1 } := bind_halt (heq.trans hinstall)
  dsimp only
  rw [hrun, Outcome.state, hflash, hlog]
  exact ⟨rfl, rfl⟩

/-- It keeps the application. -/
theorem sampleCut_app : sampleDevice.appRegion.Agree f (sampleCutStart.boot f).after.flash := by
  obtain ⟨hflash, -⟩ := @sampleCut_boot f
  rw [hflash]
  refine (Device.download_agree sampleDevice.fm_app.symm sampleCutStart.fm f).trans fun dev a hc => ?_
  refine (FlashOp.apply_of_not_covers fun hc' => ?_).symm
  exact sampleDevice.app_rbk dev a hc ⟨hc'.1, hc'.2.1, Nat.lt_of_lt_of_le hc'.2.2 (by decide)⟩

/-- It is safe when the application is valid. -/
theorem sampleCut_safe (hv : sampleDevice.AppValid f) (hl : sampleDevice.AppLegal f) :
    SafeBoot sampleCutStart (sampleDevice.download sampleCutStart.fm f) := by
  have hag := Device.download_agree (d := sampleDevice) sampleDevice.fm_app.symm sampleCutStart.fm f
  have hv := Device.AppValid.agree hv hag
  have hl := Device.AppLegal.agree hl hag
  refine ⟨fun _ => .inl ⟨hv, hl⟩, fun h => absurd h (by decide), fun _ _ tgt _ => ?_⟩
  exact ⟨fun _ => ⟨hv, hl⟩, fun _ _ => ⟨hv.head_le, hv.body_le⟩, fun _ h => absurd hv h⟩

end sample

/-- Two such boots of a device with a valid application. -/
theorem boots_safe_sample :
    let boot := sampleCutStart.boot (sampleEmptyFlash 0x2000)
    let boot' := sampleCutStart.boot boot.after.flash
    (bootMachine sampleDevice).run (sampleEmptyFlash 0x2000) [sampleCutStart, sampleCutStart] =
        ([(sampleCutStart, [boot]), (sampleCutStart, [boot'])], .inl boot'.after.flash) ∧
      (∀ e ∈ boot'.after.log, SafeCopy sampleDevice.board e) ∧
      CanStart sampleDevice boot'.after.flash := by
  have h := @boots_safe sampleDevice (sampleEmptyFlash 0x2000) [sampleCutStart, sampleCutStart]
    (bootMachine_along (sampleCut_safe appValid_sampleEmptyFlash appLegal_sampleEmptyFlash)
      (bootMachine_along (sampleCut_safe (Device.AppValid.agree appValid_sampleEmptyFlash sampleCut_app)
        (Device.AppLegal.agree appLegal_sampleEmptyFlash sampleCut_app)) trivial))
  simp only [bootMachine_run, bootMachine_run_nil] at h ⊢
  refine ⟨trivial, (h _ (List.mem_cons_of_mem _ (List.mem_singleton_self _)) _
    (List.mem_singleton_self _)).1, ?_⟩
  refine (h _ List.mem_cons_self _ (List.mem_singleton_self _)).2 (.inl ?_)
  exact Device.AppValid.agree appValid_sampleEmptyFlash
    (Device.download_agree sampleDevice.fm_app.symm _ _)

/-- Such a boot of a device with a valid backup only: the backup is about to be overwritten from the
invalid application, and when the power fails, neither is valid. -/
theorem boots_unsafe_sample :
    let boot := sampleCutStart.boot (sampleEmptyFlash 0x4000)
    (bootMachine sampleDevice).run (sampleEmptyFlash 0x4000) [sampleCutStart] =
        ([(sampleCutStart, [boot])], .inl boot.after.flash) ∧
      sampleDevice.Valid boot.before ∧ (∃ e ∈ boot.after.log, ¬ SafeCopy sampleDevice.board e) ∧
      ¬ sampleDevice.Valid boot.after.flash := by
  obtain ⟨hflash, hlog⟩ := @sampleCut_boot (sampleEmptyFlash 0x4000)
  have hbackup : sampleDevice.RbkValid
      (sampleDevice.download sampleCutStart.fm (sampleEmptyFlash 0x4000)) :=
    Device.RbkValid.agree rbkValid_sampleEmptyFlash
      (Device.download_agree sampleDevice.fm_rbk.symm _ _)
  have happ : ¬ sampleDevice.AppValid
      (sampleDevice.download sampleCutStart.fm (sampleEmptyFlash 0x4000)) := fun h =>
    not_appValid_sampleEmptyFlash (Device.AppValid.agree h
      (Device.download_agree sampleDevice.fm_app.symm _ _).symm)
  dsimp only
  refine ⟨bootMachine_run, .inr hbackup, ⟨.copy sampleRbk sampleApp
    (sampleDevice.download sampleCutStart.fm (sampleEmptyFlash 0x4000)), ?_, fun hsafe => ?_⟩, ?_⟩
  · rw [hlog]
    exact List.mem_singleton_self _
  · exact happ (hsafe _ _ sampleDevice.region_rbk sampleDevice.region_app hbackup)
  rintro (h | h)
  · exact not_appValid_sampleEmptyFlash (Device.AppValid.agree h sampleCut_app.symm)
  · have hraw : Head.rawSize (headAt (sampleDevice.rbkRegion.view ((FlashOp.erase ⟨0, 0x4000, 96⟩).apply
        (sampleDevice.download sampleCutStart.fm (sampleEmptyFlash 0x4000))))) = 4294967295 := by
      decide +kernel
    have hle := h.body_le
    rw [hflash, hraw] at hle
    exact absurd (hle (by decide)) (by decide)

end McuUtilities.Fota
