import McuUtilities.Fota.RollbackCopy
import McuUtilities.Lib.Machine

/-!
# The backup of the application

A device built with `FOTA_ROLLBACK` copies the application to the backup before an update, and back
when the user asks for it or the application does not start. No copy checks its source. What keeps a
valid image on the device is therefore a condition on every boot: that it does not find a valid
partition about to be overwritten from one that is not.
-/

namespace McuUtilities.Fota
open Prog

/-- A board with `FOTA_ROLLBACK` and its three partitions. The application runs in place, from the
memory-mapped flash. -/
structure Device where
  board : Board
  rollback : board.rollback = true
  fm : FalPartition
  app : FalPartition
  rbk : FalPartition
  fmRegion : Region
  appRegion : Region
  rbkRegion : Region
  find_fm : falPartitionFind board fotaFmPartName = some fm
  find_app : falPartitionFind board fotaAppPartName = some app
  find_rbk : falPartitionFind board fotaRollbackPartName = some rbk
  region_fm : board.region fm = some fmRegion
  region_app : board.region app = some appRegion
  region_rbk : board.region rbk = some rbkRegion
  disjoint : board.PartitionsDisjoint
  onchip : appRegion.dev = board.onchip
  vectors_app : appHeaderLen + 8 ≤ app.len
  vectors_rbk : appHeaderLen + 8 ≤ rbk.len
  qlz_lt : ∀ source, (board.qlzDecompress source).length < 2 ^ 31

/-- The first two words of an image are a legal stack pointer and reset vector. -/
def legalVectors (image : List UInt8) : Bool :=
  leNat ((image.drop 4).take 4) &&& 0xff000000 == 0x08000000 &&
    leNat (image.take 4) &&& 0x2ff80000 == 0x20000000

namespace Device
variable (d : Device)

theorem fm_app : d.fmRegion.Disjoint d.appRegion :=
  d.disjoint _ (mem_of_falPartitionFind d.find_fm) _ (mem_of_falPartitionFind d.find_app)
    (fun h => absurd (strcmpEq_of_falPartitionFind d.find_fm (h ▸ d.find_app)) (by decide)) _ _
    d.region_fm d.region_app

theorem fm_rbk : d.fmRegion.Disjoint d.rbkRegion :=
  d.disjoint _ (mem_of_falPartitionFind d.find_fm) _ (mem_of_falPartitionFind d.find_rbk)
    (fun h => absurd (strcmpEq_of_falPartitionFind d.find_fm (h ▸ d.find_rbk)) (by decide)) _ _
    d.region_fm d.region_rbk

theorem app_rbk : d.appRegion.Disjoint d.rbkRegion :=
  d.disjoint _ (mem_of_falPartitionFind d.find_app) _ (mem_of_falPartitionFind d.find_rbk)
    (fun h => absurd (strcmpEq_of_falPartitionFind d.find_app (h ▸ d.find_rbk)) (by decide)) _ _
    d.region_app d.region_rbk

/-- The application partition holds a valid image. -/
def AppValid (f : Flash) : Prop := ImageValid d.app.len (d.appRegion.view f)

/-- The backup partition holds a valid image. -/
def RbkValid (f : Flash) : Prop := ImageValid d.rbk.len (d.rbkRegion.view f)

/-- The vector table of the application is legal. -/
def AppLegal (f : Flash) : Prop := legalVectors (slice (d.appRegion.view f) appHeaderLen 8) = true

end Device

/-- The image at the start of contents `m` fits into a partition of length `len`. -/
def FitsIn (len : Nat) (m : Nat → UInt8) : Prop :=
  sizeofHead ≤ len ∧ (Head.rawSize (headAt m) ≠ 0 → appHeaderLen + Head.rawSize (headAt m) ≤ len)

/-- A valid image copied to where it fits is valid, and fits where it came from. -/
theorem ImageValid.copy {len len' : Nat} {m m' : Nat → UInt8} (h : ImageValid len m)
    (hfit : FitsIn len' m) (hcopy : slice m' 0 (min len len') = slice m 0 (min len len')) :
    ImageValid len' m' ∧ FitsIn len m' := by
  have hsame : ∀ off n, off + n ≤ min len len' → slice m' off n = slice m off n := by
    intro off n hn
    refine slice_congr fun i hi => ?_
    have := eq_of_slice_eq hcopy (i := off + i) (by omega)
    rwa [Nat.zero_add] at this
  have hle := h.head_le
  have hle' := hfit.1
  have hhead : headAt m' = headAt m := hsame 0 sizeofHead (by omega)
  refine ⟨h.congr hhead ?_ hle' hfit.2, hle, by rw [hhead]; exact h.body_le⟩
  unfold bodyAt
  rw [hhead]
  by_cases h0 : Head.rawSize (headAt m) = 0
  · rw [h0, slice_zero, slice_zero]
  · have := h.body_le h0
    have := hfit.2 h0
    exact hsame _ _ (by omega)

namespace Device
variable (d : Device)

/-- The backup holds a valid image that can be started from the application partition. -/
structure Restorable (f : Flash) : Prop where
  valid : d.RbkValid f
  fits : FitsIn d.app.len (d.rbkRegion.view f)
  legal : legalVectors (slice (d.rbkRegion.view f) appHeaderLen 8) = true

/-- The device holds a valid image. -/
def Valid (f : Flash) : Prop := d.AppValid f ∨ d.RbkValid f

/-- The device holds a valid image that it can start. -/
def Startable (f : Flash) : Prop := (d.AppValid f ∧ d.AppLegal f) ∨ d.Restorable f

variable {d} {f g : Flash}

theorem AppValid.agree (h : d.AppValid f) (hag : d.appRegion.Agree f g) : d.AppValid g :=
  ImageValid.agree_partition d.region_app h hag

theorem RbkValid.agree (h : d.RbkValid f) (hag : d.rbkRegion.Agree f g) : d.RbkValid g :=
  ImageValid.agree_partition d.region_rbk h hag

theorem AppLegal.agree (h : d.AppLegal f) (hag : d.appRegion.Agree f g) : d.AppLegal g := by
  have hlen := (Board.region_eq d.region_app).2.2
  have hle := d.vectors_app
  unfold AppLegal at *
  rwa [← hag.slice (by omega)]

theorem Restorable.agree (h : d.Restorable f) (hag : d.rbkRegion.Agree f g) : d.Restorable g := by
  have hlen := (Board.region_eq d.region_rbk).2.2
  have hle := ImageValid.head_le h.valid
  have hle' := d.vectors_rbk
  have hhead : headAt (d.rbkRegion.view g) = headAt (d.rbkRegion.view f) :=
    (hag.slice (by omega)).symm
  refine ⟨RbkValid.agree h.valid hag, ⟨h.fits.1, ?_⟩, ?_⟩
  · rw [hhead]
    exact h.fits.2
  · rw [← hag.slice (by omega)]
    exact h.legal

theorem Startable.agree (h : d.Startable f) (ha : d.appRegion.Agree f g)
    (hb : d.rbkRegion.Agree f g) : d.Startable g :=
  h.imp (fun h => ⟨AppValid.agree h.1 ha, AppLegal.agree h.2 ha⟩) fun h => h.agree hb

end Device

/-! ## Safe copies -/

/-- A copy does not overwrite a valid partition from one that is not valid. -/
def SafeCopy (b : Board) : Event → Prop
  | .copy dest source f => ∀ rd rs, b.region dest = some rd → b.region source = some rs →
      ImageValid dest.len (rd.view f) → ImageValid source.len (rs.view f)
  | _ => True

theorem Event.noCopy_write (part : FalPartition) (addr len : Nat) :
    Event.NoCopy (.write part addr len) := fun _ _ _ h => by cases h

theorem Event.NoCopy.safe {b : Board} {e : Event} (h : e.NoCopy) : SafeCopy b e := by
  cases e with
  | copy dest source f => exact absurd rfl (h dest source f)
  | _ => trivial

/-- Between the two states the copies were safe, and an image the device could start was not lost. -/
structure Sound (d : Device) (w w' : World) : Prop where
  copies : LogsOnly (SafeCopy d.board) w w'
  startable : d.Startable w.flash → d.Startable w'.flash

namespace Sound
variable {d : Device} {w w' w'' : World}

theorem trans (h : Sound d w w') (h' : Sound d w' w'') : Sound d w w'' :=
  ⟨h.copies.trans h'.copies, fun hh => h'.startable (h.startable hh)⟩

theorem of_agree (hlog : LogsOnly Event.NoCopy w w') (ha : d.appRegion.Agree w.flash w'.flash)
    (hb : d.rbkRegion.Agree w.flash w'.flash) : Sound d w w' :=
  ⟨hlog.mono fun _ h => h.safe, fun h => h.agree ha hb⟩

theorem of_same (hlog : LogsOnly Event.NoCopy w w') (hf : w'.flash = w.flash) : Sound d w w' :=
  of_agree hlog (hf ▸ Region.Agree.refl) (hf ▸ Region.Agree.refl)

end Sound

/-! ## One boot -/

/-- A boot after `fm` was downloaded, in which nothing goes wrong but that the power may be cut. -/
structure Start (d : Device) where
  env : Env
  board : env.toBoard = d.board
  reliable : env.Reliable
  unfailing : env.Unfailing
  fm : Nat → UInt8

namespace Start
variable {d : Device} (s : Start d)

theorem find_fm : falPartitionFind s.env.toBoard fotaFmPartName = some d.fm := s.board ▸ d.find_fm

theorem find_app : falPartitionFind s.env.toBoard fotaAppPartName = some d.app := s.board ▸ d.find_app

theorem find_rbk : falPartitionFind s.env.toBoard fotaRollbackPartName = some d.rbk :=
  s.board ▸ d.find_rbk

theorem region_fm : s.env.region d.fm = some d.fmRegion := s.board ▸ d.region_fm

theorem region_app : s.env.region d.app = some d.appRegion := s.board ▸ d.region_app

theorem region_rbk : s.env.region d.rbk = some d.rbkRegion := s.board ▸ d.region_rbk

end Start

theorem Start.vectorsLegal_eq {d : Device} (s : Start d) {f : Flash} :
    vectorsLegal s.env d.app f = legalVectors (slice (d.appRegion.view f) appHeaderLen 8) := by
  obtain ⟨-, hoff, -⟩ := Board.region_eq d.region_app
  have honchip : s.env.onchip = d.appRegion.dev := by rw [s.board, d.onchip]
  have hword : ∀ off, slice (f s.env.onchip) (d.app.offset + appHeaderLen + off) 4 =
      slice (d.appRegion.view f) (appHeaderLen + off) 4 := by
    intro off
    rw [honchip, ← hoff, Nat.add_assoc]
    exact slice_shift.symm
  simp only [vectorsLegal, legalVectors, hword]
  rw [take_drop_slice (by decide), take_slice]
  rfl

section boot
variable {d : Device} (s : Start d)

/-- The application check and the start: what they log, and when they enter the application. -/
theorem checkAndStart_meets (w : World) :
    Meets (checkAndStart s.env) w
      (fun ok w' => LogsOnly Event.NoCopy w w' ∧ w'.flash = w.flash ∧
        (ok = true ↔ d.AppValid w.flash ∧ d.AppLegal w.flash) ∧
        (ok = true → .start w.flash ∈ w'.log))
      (fun _ _ => False) (fun _ _ => False) := by
  refine Meets.bind ((fotaCheckApplication_meets s.reliable s.find_app s.region_app w).mono ?_
    (fun _ _ h => h) fun _ _ h => h)
  rintro e w₁ ⟨hiff, hq⟩
  have hlog₁ : LogsOnly Event.NoCopy w w₁ := LogsOnly.of_quiet hq
  refine Meets.ite (fun he => ?_) fun he => ?_
  · refine Meets.bind (Meets.of_done get_apply ?_)
    simp only [s.find_app]
    refine Meets.bind (Meets.of_done (modify_apply _) (Meets.pure ⟨?_, hq.flash, ?_, fun _ => ?_⟩))
    · exact hlog₁.trans ⟨[_], rfl, fun e he => List.mem_singleton.mp he ▸ fun _ _ _ h => by cases h⟩
    · rw [hq.flash, s.vectorsLegal_eq]
      exact (and_iff_right (hiff.mp he)).symm
    · dsimp only
      rw [hq.flash]
      exact List.mem_append_right _ (List.mem_singleton_self _)
  · exact Meets.pure ⟨hlog₁, hq.flash, iff_of_false Bool.false_ne_true fun h => he (hiff.mpr h.1),
      fun h => absurd h Bool.false_ne_true⟩

/-- Copying the backup over the application, and what follows. -/
theorem fotaInitRollback_sound {w : World} (h : d.AppValid w.flash → d.Restorable w.flash) :
    Sound d w (fotaInitRollback s.env w).state := by
  have hspares : Spares d.rbkRegion w
      (fotaRollbackCopy s.env fotaAppPartName fotaRollbackPartName w).state := by
    refine fotaRollbackCopy_spares (fun dest rd hdest hrd => ?_) w
    obtain rfl := Option.some.inj (s.find_app.symm.trans hdest)
    obtain rfl := Option.some.inj (s.region_app.symm.trans hrd)
    exact d.app_rbk.symm
  have hlogs : LogsOnly (SafeCopy d.board) w
      (fotaRollbackCopy s.env fotaAppPartName fotaRollbackPartName w).state := by
    refine fotaRollbackCopy_logs (fun _ _ _ => trivial) w fun dest source hd hs => ?_
    obtain rfl := Option.some.inj (s.find_app.symm.trans hd)
    obtain rfl := Option.some.inj (s.find_rbk.symm.trans hs)
    intro ra rb hra hrb hvalid
    obtain rfl := Option.some.inj (d.region_app.symm.trans hra)
    obtain rfl := Option.some.inj (d.region_rbk.symm.trans hrb)
    exact (h hvalid).valid
  refine bind_state (R := Sound d) Sound.trans ⟨hlogs, fun hh => ?_⟩ fun _ w' _ => ?_
  · exact .inr ((hh.elim (fun hh => h hh.1) id).agree hspares.agree)
  · exact Meets.state ((checkAndStart_meets s w').mono (fun _ _ h => Sound.of_same h.1 h.2.1)
      (fun _ _ h => h.elim) fun _ _ h => h.elim)

/-- What `fota_init` does after the label `__exit_boot_entry`. -/
theorem checkAndRollback_sound {w : World}
    (h : d.AppValid w.flash → d.AppLegal w.flash ∨ d.Restorable w.flash) :
    Sound d w ((do
      if ← checkAndStart s.env then pure true
      else if s.env.rollback then fotaInitRollback s.env
      else pure false : Boot Bool) w).state := by
  have hroll : s.env.rollback = true := s.board ▸ d.rollback
  refine Meets.state (Meets.bind ((checkAndStart_meets s w).mono ?_ (fun _ _ h => h.elim)
    fun _ _ h => h.elim))
  rintro ok w' ⟨hlog, hf, hok, -⟩
  have hsame : Sound d w w' := Sound.of_same hlog hf
  cases ok with
  | true => exact Meets.pure hsame
  | false =>
    rw [hroll]
    have hrest : Sound d w' (fotaInitRollback s.env w').state := by
      refine fotaInitRollback_sound s fun hv => ?_
      rw [hf] at hv ⊢
      exact (h hv).resolve_left fun hl => Bool.false_ne_true (hok.mpr ⟨hv, hl⟩)
    exact (Meets.of_state hrest).mono (fun _ _ h => hsame.trans h) (fun _ _ h => hsame.trans h)
      fun _ _ h => hsame.trans h

end boot

/-! ## An update -/

/-- The image in the download partition decodes to an application that fits and can be started. -/
structure ImageStarts (d : Device) (f : Flash) (ps : List (List UInt8)) : Prop where
  pieces : decodedPieces d.board d.fm (headAt (d.fmRegion.view f)) f = some ps
  accepted : PiecesAccepted (headAt (d.fmRegion.view f)) ps
  fits : PiecesFit d.app.len ps
  vectors : 8 ≤ ps.flatten.length
  legal : legalVectors ps.flatten = true

/-- The state before the backup and the installation of an accepted image for the partition `tgt`: a
valid backup is overwritten only from an application that can be started, and the application only
when it fits the backup, or is not valid and the image can be started. -/
structure SafeUpdate (d : Device) (tgt : FalPartition) (f : Flash) : Prop where
  backup : d.RbkValid f → d.AppValid f ∧ d.AppLegal f
  fits : tgt = d.app → d.AppValid f → FitsIn d.rbk.len (d.appRegion.view f)
  starts : tgt = d.app → ¬ d.AppValid f → ∃ ps, ImageStarts d f ps

section update
variable {d : Device} (s : Start d) {f : Flash} {tgt : FalPartition}

/-- The backup of the application. -/
theorem backup_meets {w : World} (hf : w.flash = f) (h : SafeUpdate d tgt f) :
    Meets (fotaRollbackCopy s.env fotaRollbackPartName fotaAppPartName) w
      (fun _ w' => LogsOnly (SafeCopy d.board) w w' ∧ Confined d.rbkRegion w w' ∧
        (d.AppValid f → d.AppLegal f → FitsIn d.rbk.len (d.appRegion.view f) →
          d.Restorable w'.flash))
      (fun _ _ => False)
      (fun _ w' => LogsOnly (SafeCopy d.board) w w' ∧ Confined d.rbkRegion w w') := by
  have hlogs : LogsOnly (SafeCopy d.board) w
      (fotaRollbackCopy s.env fotaRollbackPartName fotaAppPartName w).state := by
    refine fotaRollbackCopy_logs (fun _ _ _ => trivial) w fun dest source hd hs => ?_
    obtain rfl := Option.some.inj (s.find_rbk.symm.trans hd)
    obtain rfl := Option.some.inj (s.find_app.symm.trans hs)
    intro rb ra hrb hra hvalid
    obtain rfl := Option.some.inj (d.region_rbk.symm.trans hrb)
    obtain rfl := Option.some.inj (d.region_app.symm.trans hra)
    rw [hf] at hvalid ⊢
    exact (h.backup hvalid).1
  refine ((Meets.of_state hlogs).and (fotaRollbackCopy_meets s.region_rbk s.region_app d.app_rbk
    s.reliable s.unfailing s.find_rbk s.find_app w)).mono ?_ (fun _ _ h => h.2)
    fun _ _ h => ⟨h.1, h.2.2.1⟩
  rintro e w' ⟨hlog, hc, hcopy⟩
  refine ⟨hlog, hc, fun hv hl hfit => ?_⟩
  rw [hf] at hcopy
  obtain ⟨hvalid, hfits⟩ := ImageValid.copy hv hfit hcopy
  have hle := d.vectors_app
  have hle' := d.vectors_rbk
  refine ⟨hvalid, hfits, ?_⟩
  have hsame : slice (d.rbkRegion.view w'.flash) appHeaderLen 8 =
      slice (d.appRegion.view f) appHeaderLen 8 := by
    refine slice_congr fun i hi => ?_
    have := eq_of_slice_eq hcopy (i := appHeaderLen + i) (by omega)
    rwa [Nat.zero_add] at this
  rw [hsame]
  exact hl

/-- `fota_upgrade` changes its target and logs its writes. -/
theorem upgrade_frame {w : World}
    (htgt : falPartitionFind s.env.toBoard (Head.appPartName w.rblFotaPartHead) = some tgt) :
    let w' := (fotaUpgrade s.env (some fotaFmPartName) w).state
    LogsOnly Event.NoCopy w w' ∧
      ∀ r : Region, (∀ rt, s.env.region tgt = some rt → r.Disjoint rt) →
        r.Agree w.flash w'.flash := by
  have hqlz : ∀ source, (s.env.qlzDecompress source).length < 2 ^ 31 := by
    rw [s.board]
    exact d.qlz_lt
  exact ⟨fotaUpgrade_logs Event.noCopy_write w, fun r hdis =>
    (fotaUpgrade_spares hdis htgt hqlz (some fotaFmPartName)).agree⟩

theorem Start.region_disjoint {p q : FalPartition} {rp : Region} (hp : p ∈ d.board.partitionTable)
    (hq : q ∈ d.board.partitionTable) (hne : p ≠ q) (hrp : d.board.region p = some rp) :
    ∀ rq, s.env.region q = some rq → rp.Disjoint rq := by
  intro rq hrq
  rw [s.board] at hrq
  exact d.disjoint p hp q hq hne rp rq hrp hrq

/-- While `fota_upgrade` runs after the backup, the device can be started. -/
theorem upgrade_startable {w : World}
    (htgt : falPartitionFind s.env.toBoard (Head.appPartName w.rblFotaPartHead) = some tgt)
    (h : tgt = d.app → d.Restorable w.flash) (h' : tgt ≠ d.app → d.AppValid w.flash ∧ d.AppLegal w.flash) :
    d.Startable (fotaUpgrade s.env (some fotaFmPartName) w).state.flash := by
  obtain ⟨-, hspares⟩ := upgrade_frame s htgt
  by_cases heq : tgt = d.app
  · refine .inr ((h heq).agree (hspares _ fun rt hrt => ?_))
    rw [heq, s.region_app] at hrt
    obtain rfl := Option.some.inj hrt
    exact d.app_rbk.symm
  · obtain ⟨hv, hl⟩ := h' heq
    have htable : tgt ∈ d.board.partitionTable := s.board ▸ mem_of_falPartitionFind htgt
    have hag := hspares d.appRegion (s.region_disjoint (mem_of_falPartitionFind d.find_app) htable
      (Ne.symm heq) d.region_app)
    exact .inl ⟨Device.AppValid.agree hv hag, Device.AppLegal.agree hl hag⟩

omit s in
theorem legalVectors_take {image : List UInt8} : legalVectors (image.take 8) = legalVectors image := by
  rw [legalVectors, List.drop_take, List.take_take, List.take_take]
  rfl

/-- An image that starts is installed with a legal vector table. -/
theorem upgrade_legal {w : World} {ps : List (List UInt8)} (hlen : sizeofHead ≤ d.fm.len)
    (hag : d.fmRegion.Agree f w.flash) (hhead : w.rblFotaPartHead = headAt (d.fmRegion.view f))
    (h : ImageStarts d f ps)
    (htgt : falPartitionFind s.env.toBoard (Head.appPartName w.rblFotaPartHead) = some d.app) :
    Meets (fotaUpgrade s.env (some fotaFmPartName)) w (fun _ w' => d.AppLegal w'.flash)
      (fun _ _ => False) (fun _ _ => True) := by
  have hlen' := (Board.region_eq d.region_fm).2.2
  have hhead' : w.rblFotaPartHead = headAt (d.fmRegion.view w.flash) :=
    hhead.trans (hag.slice (by omega))
  have hps := h.pieces
  have hacc := h.accepted
  rw [← hhead] at hps hacc
  rw [← s.board] at hps
  refine (fotaUpgrade_meets s.reliable s.unfailing s.find_fm s.region_fm s.region_app d.fm_app htgt hlen
    hhead' hag hps hacc).mono ?_ (fun _ _ h => h) fun _ _ _ => trivial
  rintro e w' ⟨-, ⟨-, -, -, himage⟩ | ⟨-, hmisfit, -⟩⟩
  · have htake : (ps.flatten).take 8 = slice (d.appRegion.view w'.flash) appHeaderLen 8 := by
      rw [← himage.image, take_slice, Nat.min_eq_left h.vectors]
    have hlegal := h.legal
    rwa [← legalVectors_take, htake] at hlegal
  · exact absurd h.fits hmisfit

/-- Marking the image is no copy, and leaves the application and its backup alone. -/
theorem fotaCopyVersion_frame (w : World) :
    Meets (fotaCopyVersion s.env fotaFmPartName) w
      (fun _ w' => LogsOnly Event.NoCopy w w' ∧ d.appRegion.Agree w.flash w'.flash ∧
        d.rbkRegion.Agree w.flash w'.flash)
      (fun _ _ => False)
      (fun _ w' => LogsOnly Event.NoCopy w w' ∧ d.appRegion.Agree w.flash w'.flash ∧
        d.rbkRegion.Agree w.flash w'.flash) := by
  have hagree {w' : World} (h : Confined d.fmRegion w w') :
      d.appRegion.Agree w.flash w'.flash ∧ d.rbkRegion.Agree w.flash w'.flash :=
    ⟨h.agree d.fm_app.symm, h.agree d.fm_rbk.symm⟩
  exact ((fotaCopyVersion_spec s.find_fm s.region_fm w).and
    ((fotaCopyVersion_logs Event.noCopy_write).meets w)).mono (fun _ _ h => ⟨h.2, hagree h.1.1⟩)
    (fun _ _ h => h.1) fun _ _ h => ⟨h.2, hagree h.1.2.1⟩

/-- The installation of an accepted image after the backup. -/
theorem install_sound {w : World} (hf : w.flash = f) (hlen : sizeofHead ≤ d.fm.len)
    (hhead : w.rblFotaPartHead = headAt (d.fmRegion.view f)) (hvalid : d.Valid f → d.Startable f)
    (h : SafeUpdate d tgt f)
    (htgt : falPartitionFind s.env.toBoard (Head.appPartName w.rblFotaPartHead) = some tgt) :
    Meets (fotaInitInstall s.env) w
      (fun _ w' => Sound d w w' ∧
        (d.AppValid w'.flash → d.AppLegal w'.flash ∨ d.Restorable w'.flash))
      (fun _ _ => False) (fun _ w' => Sound d w w') := by
  have hroll : s.env.rollback = true := s.board ▸ d.rollback
  have hstart : d.Startable f → d.AppValid f ∧ d.AppLegal f := fun hs =>
    hs.elim id fun hr => h.backup hr.valid
  rw [fotaInitInstall, hroll, if_pos rfl]
  refine Meets.bind ((backup_meets s hf h).mono ?_ (fun _ _ h => h) ?_)
  rotate_left
  · -- the power fails during the backup
    rintro c w₃ ⟨hlog, hc⟩
    have hag := hc.agree d.app_rbk
    rw [hf] at hag
    refine ⟨hlog, fun hs => .inl ?_⟩
    rw [hf] at hs
    exact ⟨Device.AppValid.agree (hstart hs).1 hag, Device.AppLegal.agree (hstart hs).2 hag⟩
  rintro e w₃ ⟨hlog, hc, hbackup⟩
  have happ : d.appRegion.Agree f w₃.flash := hf ▸ hc.agree d.app_rbk
  have hfm : d.fmRegion.Agree f w₃.flash := hf ▸ hc.agree d.fm_rbk
  rw [← hc.head] at hhead htgt
  have hframe := upgrade_frame s htgt
  have hstay : d.Startable f →
      d.Startable (fotaUpgrade s.env (some fotaFmPartName) w₃).state.flash := by
    intro hs
    obtain ⟨hv, hl⟩ := hstart hs
    exact upgrade_startable s htgt (fun heq => hbackup hv hl (h.fits heq hv)) fun _ =>
      ⟨Device.AppValid.agree hv happ, Device.AppLegal.agree hl happ⟩
  have hsound : Sound d w (fotaUpgrade s.env (some fotaFmPartName) w₃).state :=
    ⟨hlog.trans (hframe.1.mono fun _ h => h.safe), fun hs => hstay (hf ▸ hs)⟩
  have hup : Meets (fotaUpgrade s.env (some fotaFmPartName)) w₃
      (fun _ w₄ => Sound d w w₄ ∧
        (d.AppValid w₄.flash → d.AppLegal w₄.flash ∨ d.Restorable w₄.flash))
      (fun _ _ => False) (fun _ w₄ => Sound d w w₄) := by
    have hall := (Meets.of_state (R := fun _ w₄ => Sound d w w₄ ∧
      (d.Startable f → d.Startable w₄.flash) ∧ ∀ r : Region,
        (∀ rt, s.env.region tgt = some rt → r.Disjoint rt) → r.Agree w₃.flash w₄.flash)
      ⟨hsound, hstay, hframe.2⟩).and (@fotaUpgrade_returns s.env (some fotaFmPartName) w₃)
    by_cases hv : d.AppValid f
    · refine hall.mono (fun _ _ h => ⟨h.1.1, fun _ => ?_⟩) (fun _ _ h => h.2) fun _ _ h => h.1.1
      exact (h.1.2.1 (hvalid (.inl hv))).imp_left And.right
    by_cases heq : tgt = d.app
    · obtain ⟨ps, hps⟩ := h.starts heq hv
      refine (hall.and (upgrade_legal s hlen hfm hhead hps (heq ▸ htgt))).mono ?_ (fun _ _ h => h.2)
        fun _ _ h => h.1.1.1
      exact fun _ _ h => ⟨h.1.1.1, fun _ => .inl h.2⟩
    · have htable : tgt ∈ d.board.partitionTable := s.board ▸ mem_of_falPartitionFind htgt
      refine hall.mono (fun _ w₄ h => ⟨h.1.1, fun hv' => absurd ?_ hv⟩) (fun _ _ h => h.2)
        fun _ _ h => h.1.1
      have hag := h.1.2.2 d.appRegion (s.region_disjoint (mem_of_falPartitionFind d.find_app) htable
        (Ne.symm heq) d.region_app)
      exact Device.AppValid.agree hv' (happ.trans hag).symm
  refine Meets.bind (hup.mono ?_ (fun _ _ h => h) fun _ _ h => h)
  rintro e w₄ ⟨hsound₄, hlegal⟩
  refine Meets.ite (fun _ => Meets.bind ?_) fun _ => Meets.pure ⟨hsound₄, hlegal⟩
  refine (fotaCopyVersion_frame s w₄).mono ?_ (fun _ _ h => h) ?_
  · rintro _ w₅ ⟨hlog₅, ha, hb⟩
    refine Meets.pure ⟨hsound₄.trans (Sound.of_agree hlog₅ ha hb), fun hv => ?_⟩
    exact (hlegal (Device.AppValid.agree hv ha.symm)).imp (fun h => h.agree ha) fun h => h.agree hb
  · exact fun _ w₅ h => hsound₄.trans (Sound.of_agree h.1 h.2.1 h.2.2)

end update

/-! ## Boots after downloads -/

/-- The device finds the flash `f` in a state from which its boot loses no valid image: a valid image
can be started, the user asks for the backup only when it can be started or the application is not
valid, and an accepted image is one for a safe update. -/
structure SafeBoot {d : Device} (s : Start d) (f : Flash) : Prop where
  startable : d.Valid f → d.Startable f
  manual : s.env.fotaRollbackCheck = 0 → d.AppValid f → d.Restorable f
  update : s.env.fotaRollbackCheck ≠ 0 → Verified s.env f → ∀ tgt,
    falPartitionFind d.board (Head.appPartName (headAt (d.fmRegion.view f))) = some tgt →
    SafeUpdate d tgt f

section safe
variable {d : Device} {s : Start d} {f : Flash} (h : SafeBoot s f)
include h

theorem SafeBoot.idle (hv : d.AppValid f) : d.AppLegal f ∨ d.Restorable f :=
  (h.startable (.inl hv)).imp_left And.right

/-- `fota_init` up to the label `__exit_boot_entry`. -/
theorem fotaInitUpgrade_sound (hcheck : s.env.fotaRollbackCheck ≠ 0) :
    Meets (fotaInitUpgrade s.env) (World.boot f)
      (fun _ w' => Sound d (World.boot f) w' ∧
        (d.AppValid w'.flash → d.AppLegal w'.flash ∨ d.Restorable w'.flash))
      (fun _ _ => False) (fun _ w' => Sound d (World.boot f) w') := by
  by_cases hp : Pending s.env.toBoard d.fm.len (d.fmRegion.view f)
  rotate_left
  · obtain ⟨tab, head, w', hrun, ht⟩ := fotaInitUpgrade_of_not_pending (w := World.boot f) s.find_fm
      fun r hr => Option.some.inj (s.region_fm.symm.trans hr) ▸ hp
    have hflash : w'.flash = f := ht.flash
    refine Meets.of_done hrun ⟨Sound.of_same (LogsOnly.of_eq ht.log) ht.flash, fun hv => ?_⟩
    rw [hflash] at hv ⊢
    exact h.idle hv
  obtain ⟨w₁, hrun, hnew, heq, -, hhead, hflash, hlog, -⟩ :=
    fotaInitUpgrade_of_pending (w := World.boot f) s.reliable s.find_fm s.region_fm hp
  obtain ⟨e, w₂, hverify⟩ := @fotaUpgradeVerify_returns s.env (some fotaFmPartName) w₁
  have hq := fotaUpgradeVerify_quiet.of_done hverify
  have hflash₂ : w₂.flash = f := hq.flash.trans hflash
  have hsound : Sound d (World.boot f) w₂ :=
    Sound.of_same (LogsOnly.of_eq (hq.log.trans hlog)) hflash₂
  unfold Meets
  rw [heq]
  by_cases he : e = .noErr
  · subst he
    have hhead₂ : w₂.rblFotaPartHead = headAt (d.fmRegion.view f) := hq.head.trans hhead
    obtain ⟨tgt, htgt⟩ := Option.isSome_iff_exists.mp hp.accepted.target
    have hup : SafeUpdate d tgt f :=
      h.update hcheck ⟨w₁, w₂, hrun, hnew, hverify⟩ tgt (s.board ▸ htgt)
    rw [← hhead₂] at htgt
    rw [fotaInitPending_of_verified hverify]
    exact (install_sound s hflash₂ hp.accepted.head_le hhead₂ h.startable hup htgt).mono
      (fun _ _ h' => ⟨hsound.trans h'.1, h'.2⟩) (fun _ _ h' => h') fun _ _ h' => hsound.trans h'
  · rw [fotaInitPending_of_refused he hverify]
    refine Meets.bind ((fotaCopyVersion_frame s w₂).mono ?_ (fun _ _ h' => h') ?_)
    · rintro _ w₃ ⟨hlog₃, ha, hb⟩
      refine Meets.pure ⟨hsound.trans (Sound.of_agree hlog₃ ha hb), fun hv => ?_⟩
      rw [hflash₂] at ha hb
      exact (h.idle (Device.AppValid.agree hv ha.symm)).imp (fun h' => h'.agree ha)
        fun h' => h'.agree hb
    · exact fun _ w₃ h' => hsound.trans (Sound.of_agree h'.1 h'.2.1 h'.2.2)

/-- No boot from such a state loses a valid image. -/
theorem fotaInit_sound : Sound d (World.boot f) (fotaInit s.env (World.boot f)).state := by
  have hroll : s.env.rollback = true := s.board ▸ d.rollback
  rw [fotaInit, hroll, Bool.true_and]
  by_cases hcheck : s.env.fotaRollbackCheck = 0
  · rw [if_pos (by rw [hcheck]; rfl)]
    exact fotaInitRollback_sound s (h.manual hcheck)
  · rw [if_neg (fun h0 => hcheck (eq_of_beq h0))]
    refine Meets.state (Meets.bind ((fotaInitUpgrade_sound h hcheck).mono ?_ (fun _ _ h' => h'.elim)
      fun _ _ h' => h'))
    rintro _ w₁ ⟨hsound, hlegal⟩
    have hrest := hsound.trans (checkAndRollback_sound s hlegal)
    rw [hroll] at hrest
    exact Meets.of_state (R := fun _ => Sound d (World.boot f)) hrest

end safe

end McuUtilities.Fota
