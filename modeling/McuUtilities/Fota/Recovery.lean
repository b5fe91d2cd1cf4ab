import McuUtilities.Fota.Pending

/-!
# Recovery from power cuts

An update is cut any number of times, anywhere. Either the download partition still holds the whole
image and the next boot installs it, or it holds nothing that a boot acts on and the application is
valid: `fota_copy_version` comes last, and whatever a cut leaves of the sector it rewrites is either
refused by the package check or has equal version fields.
-/

namespace McuUtilities.Fota
open Prog

/-! ## Torn operations -/

/-- The first `k` bytes of an operation. -/
def FlashOp.cutAt (k : Nat) : FlashOp → FlashOp
  | .erase r => .erase { r with len := min k r.len }
  | .write dev addr data => .write dev addr (data.take k)

theorem FlashOp.cutAt_apply_of_not_covers {k : Nat} {op : FlashOp} {f : Flash} {dev a : Nat}
    (h : ¬ op.region.Covers dev a) : (op.cutAt k).apply f dev a = f dev a := by
  refine apply_of_not_covers fun hc => h ?_
  cases op with
  | erase r =>
    obtain ⟨hd, h1, h2⟩ := hc
    simp only [cutAt, region] at h2
    exact ⟨hd, h1, by simp only [region]; omega⟩
  | write d addr data =>
    obtain ⟨hd, h1, h2⟩ := hc
    simp only [cutAt, region, List.length_take] at h2
    exact ⟨hd, h1, by simp only [region]; omega⟩

/-- A power cut during an operation in the region leaves a prefix of it done. -/
def Env.TearsPrefix (env : Env) (r : Region) : Prop :=
  ∀ n op f, env.fate n = .cut → (∀ dev a, op.region.Covers dev a → r.Covers dev a) →
    ∃ k, env.tear n op f = (op.cutAt k).apply f

/-- The boot may end before `fota_init` gets to its application check: the power is cut, or the board
is restarted after an installation. -/
def Env.MayStop (env : Env) : Prop := (∃ n, env.fate n = .cut) ∨ env.installRestart = true

/-- What `fota_copy_version` may leave of the contents `m`: the sector erased up to some byte, or
erased and written up to some byte. -/
def Torn (tab : CrcTab) (m m' : Nat → UInt8) : Prop :=
  (∃ k, m' = fill m 0 (min k fotaAlgoBuffSize) 0xFF) ∨
    ∃ k, m' = store (fill m 0 fotaAlgoBuffSize 0xFF) 0
      ((slice (markInstalled tab m) 0 fotaAlgoBuffSize).take k)

section torn
variable {env : Env} (hno : env.Unfailing) {part : FalPartition} {r : Region}
  (htear : env.TearsPrefix r) {w : World}
include hno htear

theorem devChange_torn {op : FlashOp} (hop : ∀ dev a, op.region.Covers dev a → r.Covers dev a) :
    Meets (devChange env op) w
      (fun ok w' => ok = true ∧ w'.flash = op.apply w.flash)
      (fun _ _ => False) (fun _ w' => ∃ k, w'.flash = (op.cutAt k).apply w.flash) := by
  unfold Meets devChange
  cases hf : env.fate w.ops with
  | done => exact ⟨rfl, rfl⟩
  | failed => exact absurd hf (hno _)
  | cut => exact htear _ _ _ hf hop

variable (hr : env.region part = some r)
include hr

theorem falPartitionErase_torn {addr size : Nat} (h : addr + size ≤ part.len) :
    Meets (falPartitionErase env part addr size) w
      (fun ok w' => ok = true ∧ r.view w'.flash = fill (r.view w.flash) addr size 0xFF)
      (fun _ _ => False)
      (fun _ w' => ∃ k, r.view w'.flash = fill (r.view w.flash) addr (min k size) 0xFF) := by
  obtain ⟨-, -, hlen⟩ := Board.region_eq hr
  unfold Meets
  rw [falPartitionErase_eq hr h]
  refine (devChange_torn hno htear fun dev a hc => ?_).mono ?_ (fun _ _ h => h) ?_
  · obtain ⟨rfl, h1, h2⟩ := hc
    simp only [FlashOp.region] at h1 h2
    exact ⟨rfl, by omega, by omega⟩
  · rintro ok w' ⟨hok, hf⟩
    exact ⟨hok, by rw [hf, FlashOp.view_erase]⟩
  · rintro c w' ⟨k, hf⟩
    exact ⟨k, by rw [hf, FlashOp.cutAt, FlashOp.view_erase]⟩

theorem falPartitionWrite_torn {addr : Nat} {buf : List UInt8} (h : addr + buf.length ≤ part.len) :
    Meets (falPartitionWrite env part addr buf) w
      (fun ok w' => ok = true ∧ r.view w'.flash = store (r.view w.flash) addr buf)
      (fun _ _ => False)
      (fun _ w' => ∃ k, r.view w'.flash = store (r.view w.flash) addr (buf.take k)) := by
  obtain ⟨-, -, hlen⟩ := Board.region_eq hr
  unfold Meets
  rw [falPartitionWrite_eq hr h]
  refine (devChange_torn hno htear fun dev a hc => ?_).mono ?_ (fun _ _ h => h) ?_
  · obtain ⟨rfl, h1, h2⟩ := hc
    simp only [FlashOp.region] at h1 h2
    exact ⟨rfl, by omega, by omega⟩
  · rintro ok w' ⟨hok, hf⟩
    exact ⟨hok, by rw [hf, FlashOp.view_write]⟩
  · rintro c w' ⟨k, hf⟩
    exact ⟨k, by rw [hf, FlashOp.cutAt, FlashOp.view_write]⟩

/-- `fota_copy_version`, cut or not. -/
theorem fotaCopyVersion_torn (hrel : env.Reliable) {name : List UInt8}
    (hpart : falPartitionFind env.toBoard name = some part) (w : World) :
    Meets (fotaCopyVersion env name) w
      (fun _ w' => Torn w.crcTab (r.view w.flash) (r.view w'.flash)) (fun _ _ => False)
      (fun _ w' => Torn w.crcTab (r.view w.flash) (r.view w'.flash)) := by
  have hbuff : fotaAlgoBuffSize = 4096 := rfl
  have hintact : r.view w.flash = fill (r.view w.flash) 0 (min 0 fotaAlgoBuffSize) 0xFF := by
    funext a
    exact (fill_of_ge (Nat.zero_le _)).symm
  unfold fotaCopyVersion
  refine meets_exitCode ?_
  rw [hpart]
  refine Meets.bind (Meets.of_done (malloc_reliable hrel) (Meets.bind (Meets.pure ?_)))
  by_cases hlen : 0 + fotaAlgoBuffSize ≤ part.len
  rotate_left
  · exact Meets.bind (Meets.of_done (falPartitionRead_out (Nat.lt_of_not_le hlen) (by decide))
      (Meets.throw (.inl ⟨0, hintact⟩)))
  refine Meets.bind (Meets.of_done (falPartitionRead_reliable hr hrel hlen) ?_)
  refine Meets.bind (Meets.of_done get_apply ?_)
  -- the sector that is written is the first sector of the marked contents
  have hsector : copyVersionSector w.crcTab (slice (r.view w.flash) 0 fotaAlgoBuffSize) =
      slice (markInstalled w.crcTab (r.view w.flash)) 0 fotaAlgoBuffSize := by
    have hself := @slice_store_self _ (r.view w.flash) 0
      (copyVersionSector w.crcTab (slice (r.view w.flash) 0 fotaAlgoBuffSize))
    rw [length_copyVersionSector length_slice, store_copyVersionSector] at hself
    exact hself.symm
  have hsize : (slice (markInstalled w.crcTab (r.view w.flash)) 0 fotaAlgoBuffSize).length =
      fotaAlgoBuffSize := length_slice
  dsimp only
  rw [hsector]
  unfold Torn
  generalize slice (markInstalled w.crcTab (r.view w.flash)) 0 fotaAlgoBuffSize = sector at hsize ⊢
  refine Meets.bind ((falPartitionErase_torn hno htear hr hlen).mono ?_ (fun _ _ h => h.elim) ?_)
  rotate_left
  · rintro c w' ⟨k, hview⟩
    exact .inl ⟨k, hview⟩
  rintro ok w₁ ⟨rfl, hview₁⟩
  refine Meets.bind (Meets.require (fun _ => ?_) fun h => by cases h)
  refine Meets.bind ((falPartitionWrite_torn hno htear hr (by rwa [hsize])).mono ?_
    (fun _ _ h => h.elim) ?_)
  rotate_left
  · rintro c w' ⟨k, hview⟩
    exact .inr ⟨k, by rw [hview, hview₁]⟩
  rintro ok w₂ ⟨rfl, hview₂⟩
  have hdone : r.view w₂.flash = store (fill (r.view w.flash) 0 fotaAlgoBuffSize 0xFF) 0
      (sector.take fotaAlgoBuffSize) := by
    rw [hview₂, hview₁, List.take_of_length_le (Nat.le_of_eq hsize)]
  refine Meets.bind (Meets.require (fun _ => ?_) fun h => by cases h)
  exact Meets.ite (fun _ => .inr ⟨_, hdone⟩) fun _ => Meets.pure (.inr ⟨_, hdone⟩)

end torn

/-! ## Torn headers -/

/-- A boot does not act on what a cut leaves of the sector, unless nothing has happened yet. -/
theorem Torn.inert {b : Board} {len : Nat} {m m' : Nat → UInt8} (hlen : len ≤ 2 ^ 31)
    (hterm : 0 ∈ slice m 28 24) (h : Torn packageCrcTab m m') : m' = m ∨ ¬ Pending b len m' := by
  have hbuff : fotaAlgoBuffSize = 4096 := rfl
  have hsize : sizeofHead = 96 := rfl
  -- an erased first byte is not the `R` of the type
  have hblank : m' 0 = 0xFF → ¬ Pending b len m' := by
    intro h0 hp
    have htype : Head.type (headAt m') = m' 0 :: slice m' 1 95 := rfl
    have h := hp.accepted.type
    rw [htype, strcmpEq_cons (by decide), h0] at h
    exact absurd h.1 (by decide)
  obtain ⟨k, rfl⟩ | ⟨k, rfl⟩ := h
  · by_cases hk : k = 0
    · left
      subst hk
      funext a
      exact fill_of_ge (Nat.zero_le _)
    · exact .inr (hblank (fill_of_mem (Nat.le_refl 0) (by omega)))
  right
  rw [take_slice] at hblank ⊢
  generalize min k fotaAlgoBuffSize = n at hblank ⊢
  have hlower : ∀ a, a < n → store (fill m 0 fotaAlgoBuffSize 0xFF) 0
      (slice (markInstalled packageCrcTab m) 0 n) a = markInstalled packageCrcTab m a := by
    intro a ha
    have := @store_add _ (fill m 0 fotaAlgoBuffSize 0xFF) 0 (slice (markInstalled packageCrcTab m) 0 n)
      a (by rwa [length_slice])
    rwa [Nat.zero_add, getElem_slice, Nat.zero_add] at this
  have hupper : ∀ a, n ≤ a → a < 4096 → store (fill m 0 fotaAlgoBuffSize 0xFF) 0
      (slice (markInstalled packageCrcTab m) 0 n) a = 0xFF := by
    intro a ha ha'
    rw [store_of_ge (by rw [length_slice]; omega), fill_of_mem (Nat.zero_le a) (by omega)]
  generalize store (fill m 0 fotaAlgoBuffSize 0xFF) 0
    (slice (markInstalled packageCrcTab m) 0 n) = m' at hlower hupper hblank ⊢
  by_cases h0 : n = 0
  · exact hblank (hupper 0 (by omega) (by decide))
  by_cases h92 : 92 ≤ n
  · -- the version fields are written and equal
    intro hp
    have hver : slice m' 52 24 = slice m 28 24 := by
      rw [← @slice_markInstalled_version packageCrcTab m]
      exact slice_congr fun i hi => hlower _ (by omega)
    have hdown : slice m' 28 24 = slice m 28 24 := by
      rw [← @slice_markInstalled packageCrcTab m 28 24 (.inl (by decide)) (.inl (by decide))]
      exact slice_congr fun i hi => hlower _ (by omega)
    have heq := (@version_strcmpEq m' b.pastHead (by rw [hver, hdown])).mpr (by rwa [hdown])
    exact Bool.false_ne_true (hp.new.symm.trans heq)
  · -- the highest byte of `com_size` is blank
    intro hp
    have hcom : 0xFF000000 ≤ Head.comSize (headAt m') := by
      rw [Head.comSize, field_headAt (by decide), show slice m' 88 4 = slice m' 88 3 ++ [m' 91] from rfl,
        leNat_concat, length_slice, hupper 91 (by omega) (by decide)]
      exact Nat.le_add_right _ _
    have hle := hp.accepted.body_le (by omega)
    have hround : Head.comSize (headAt m') ≤ roundUp (Head.comSize (headAt m')) := by
      unfold roundUp
      omega
    omega

/-! ## One boot -/

/-- The download partition holds an image for the application partition that decodes to the pieces
`ps`, passes its verification and fits. -/
structure Installable (b : Board) (fm app : FalPartition) (r : Region) (f : Flash)
    (ps : List (List UInt8)) : Prop where
  target : falPartitionFind b (Head.appPartName (headAt (r.view f))) = some app
  terminated : 0 ∈ slice (r.view f) 28 24
  pieces : decodedPieces b fm (headAt (r.view f)) f = some ps
  accepted : PiecesAccepted (headAt (r.view f)) ps
  fits : PiecesFit app.len ps

/-- What a cut leaves of an update from the flash `f₀`: the image is still pending, or nothing is and
the application is valid. -/
inductive Recoverable (b : Board) (fm app : FalPartition) (r ra : Region) (f₀ f : Flash) : Prop where
  | pending (same : r.Agree f₀ f) (h : Pending b fm.len (r.view f))
  | installed (valid : ImageValid app.len (ra.view f)) (h : ¬ Pending b fm.len (r.view f))

section boot
variable {env : Env} (hrel : env.Reliable) (hno : env.Unfailing) (hroll : env.rollback = false)
  {fm app : FalPartition} {r ra : Region}
  (hfm : falPartitionFind env.toBoard fotaFmPartName = some fm) (hr : env.region fm = some r)
  (hra : env.region app = some ra) (hdis : r.Disjoint ra) (htear : env.TearsPrefix r)
  {f₀ : Flash} {ps : List (List UInt8)} (hinst : Installable env.toBoard fm app r f₀ ps)
include hrel hno hfm hr hra hdis htear hinst

/-- Marking the image, cut or not, after its installation. -/
theorem fotaCopyVersion_recovers {w : World} (htab : w.crcTab = packageCrcTab)
    (hsame : r.Agree f₀ w.flash) (hp : Pending env.toBoard fm.len (r.view w.flash))
    (hvalid : ImageValid app.len (ra.view w.flash)) :
    Meets (fotaCopyVersion env fotaFmPartName) w
      (fun _ w' => Recoverable env.toBoard fm app r ra f₀ w'.flash ∧
        ImageValid app.len (ra.view w'.flash))
      (fun _ _ => False)
      (fun _ w' => Recoverable env.toBoard fm app r ra f₀ w'.flash ∧ env.MayStop) := by
  have hbound := fm.bound
  have hsize : sizeofHead = 96 := rfl
  obtain ⟨-, -, hlen⟩ := Board.region_eq hr
  obtain ⟨-, -, hlen'⟩ := Board.region_eq hra
  have hhead := hp.accepted.head_le
  have hterm : 0 ∈ slice (r.view w.flash) 28 24 := by
    rw [← hsame.slice (by omega)]
    exact hinst.terminated
  have hstate : ∀ w', Confined r w w' → Torn w.crcTab (r.view w.flash) (r.view w'.flash) →
      Recoverable env.toBoard fm app r ra f₀ w'.flash ∧ ImageValid app.len (ra.view w'.flash) := by
    intro w' hc htorn
    have hvalid' : ImageValid app.len (ra.view w'.flash) := by
      rw [← hlen'] at hvalid ⊢
      exact hvalid.agree (hc.agree hdis.symm)
    refine ⟨?_, hvalid'⟩
    rw [htab] at htorn
    rcases @Torn.inert env.toBoard fm.len _ _ (by omega) hterm htorn with heq | hinert
    · have hag : r.Agree w.flash w'.flash := Region.agree_of_view fun a _ => by rw [heq]
      exact .pending (hsame.trans hag) (by rwa [heq])
    · exact .installed hvalid' hinert
  refine ((fotaCopyVersion_spec hfm hr w).and
    (fotaCopyVersion_torn hno htear hr hrel hfm w)).mono ?_ (fun _ _ h => h.1) ?_
  · exact fun _ w' h => hstate w' h.1.1 h.2
  · exact fun _ w' h => ⟨(hstate w' h.1.2.1 h.2).1, h.1.2.2.2.imp_right And.left⟩

include hroll

/-- A boot keeps the update recoverable; when it is not cut, the application is valid after it. -/
theorem fotaInitUpgrade_recovers {w : World}
    (h : Recoverable env.toBoard fm app r ra f₀ w.flash) :
    Meets (fotaInitUpgrade env) w
      (fun _ w' => Recoverable env.toBoard fm app r ra f₀ w'.flash ∧
        ImageValid app.len (ra.view w'.flash))
      (fun _ _ => False)
      (fun _ w' => Recoverable env.toBoard fm app r ra f₀ w'.flash ∧ env.MayStop) := by
  have hsize : sizeofHead = 96 := rfl
  have hbound := app.bound
  obtain ⟨-, -, hlen⟩ := Board.region_eq hr
  cases h with
  | installed hvalid hidle =>
    obtain ⟨tab, head, w', hrun, ht⟩ := fotaInitUpgrade_of_not_pending (w := w) hfm
      (fun r' hr' => Option.some.inj (hr.symm.trans hr') ▸ hidle)
    have hflash : w'.flash = w.flash := ht.flash
    exact Meets.of_done hrun (hflash ▸ ⟨.installed hvalid hidle, hvalid⟩)
  | pending hsame hp =>
    obtain ⟨w₁, -, -, heq, htab, hhead, hflash, -⟩ := fotaInitUpgrade_of_pending hrel hfm hr hp
    have hhead₀ : headAt (r.view w.flash) = headAt (r.view f₀) :=
      (hsame.slice (by have := hp.accepted.head_le; omega)).symm
    have hps := hinst.pieces
    have hacc := hinst.accepted
    have htgt := hinst.target
    rw [← hhead₀, ← hhead] at hps hacc htgt
    have hsame₁ : r.Agree f₀ w₁.flash := hflash ▸ hsame
    obtain ⟨w₂, hverify, hq, -⟩ := fotaUpgradeVerify_of_pieces hrel hfm hr hsame₁ hps hacc
    unfold Meets
    rw [heq, fotaInitPending_of_verified hverify, fotaInitInstall_eq hroll]
    have hflash₂ : w₂.flash = w.flash := hq.flash.trans hflash
    rw [← hq.head] at hps hacc htgt
    have hhead₂ : w₂.rblFotaPartHead = headAt (r.view w₂.flash) := by
      rw [hq.head, hhead, hflash₂]
    have hsame₂ : r.Agree f₀ w₂.flash := hflash₂ ▸ hsame
    have hp₂ : Pending env.toBoard r.len (r.view w₂.flash) := by
      rw [hflash₂, hlen]
      exact hp
    refine Meets.bind ((fotaUpgrade_meets hrel hno hfm hr hra hdis htgt hp.accepted.head_le hhead₂
      hsame₂ hps hacc).mono ?_ (fun _ _ h => h) ?_)
    · rintro e w₃ ⟨hc, ⟨rfl, -, -, himage⟩ | ⟨-, hmisfit, -⟩⟩
      · refine Meets.bind (fotaCopyVersion_recovers hrel hno hfm hr hra hdis htear hinst ?_
          (hsame₂.trans (hc.agree hdis)) (hlen ▸ hp₂.agree (hc.agree hdis))
          (himage.imageValid (by omega) hinst.fits hacc))
        rw [hc.crcTab, hq.crcTab, htab]
      · exact absurd hinst.fits hmisfit
    · rintro c w' ⟨-, hc, hcut⟩
      exact ⟨.pending (hsame₂.trans (hc.agree hdis)) (hlen ▸ hp₂.agree (hc.agree hdis)), .inl hcut⟩

/-- The flash at the end of that boot. -/
theorem bootFlash_recovers {f : Flash} (h : Recoverable env.toBoard fm app r ra f₀ f) :
    Recoverable env.toBoard fm app r ra f₀ (bootFlash f env) := by
  rw [bootFlash_eq hroll]
  exact Meets.state (R := fun _ w' => Recoverable env.toBoard fm app r ra f₀ w'.flash)
    ((fotaInitUpgrade_recovers hrel hno hroll hfm hr hra hdis htear hinst (w := World.boot f) h).mono
      (fun _ _ h => h.1) (fun _ _ h => h.elim) fun _ _ h => h.1)

end boot

/-! ## Any number of boots -/

/-- A boot in which nothing goes wrong but that the power may be cut. -/
structure CutBoot (b : Board) (r : Region) (env : Env) : Prop where
  board : env.toBoard = b
  reliable : env.Reliable
  unfailing : env.Unfailing
  torn : env.TearsPrefix r

/-- Boot after boot, the update stays recoverable. -/
theorem bootAll_recovers {b : Board} (hroll : b.rollback = false) {fm app : FalPartition}
    {r ra : Region} (hfm : falPartitionFind b fotaFmPartName = some fm) (hr : b.region fm = some r)
    (hra : b.region app = some ra) (hdis : r.Disjoint ra) {f₀ : Flash} {ps : List (List UInt8)}
    (hinst : Installable b fm app r f₀ ps) {envs : List Env} (henvs : ∀ e ∈ envs, CutBoot b r e)
    {f : Flash} (h : Recoverable b fm app r ra f₀ f) :
    Recoverable b fm app r ra f₀ (bootAll envs f) := by
  induction envs generalizing f with
  | nil => exact h
  | cons env envs ih =>
    refine ih (fun e he => henvs e (List.mem_cons_of_mem _ he)) ?_
    obtain ⟨hb, hrel, hno, htear⟩ := henvs env List.mem_cons_self
    subst hb
    exact bootFlash_recovers hrel hno hroll hfm hr hra hdis htear hinst h

/-- Version strings that end in their fields. -/
theorem version_strcmpEq_fields {m : Nat → UInt8} {past : List UInt8} (hdown : 0 ∈ slice m 28 24)
    (hcur : 0 ∈ slice m 52 24) :
    strcmpEq (Head.downloadVersion (headAt m) ++ past) (Head.currentVersion (headAt m) ++ past) =
      strcmpEq (slice m 28 24) (slice m 52 24) := by
  have hd : Head.downloadVersion (headAt m) = slice m 28 24 ++ slice m 52 44 := by
    rw [Head.downloadVersion, headAt, drop_slice, ← slice_add]
    rfl
  have hc : Head.currentVersion (headAt m) = slice m 52 24 ++ slice m 76 20 := by
    rw [Head.currentVersion, headAt, drop_slice, ← slice_add]
    rfl
  rw [Bool.eq_iff_iff, strcmpEq_iff, strcmpEq_iff, hd, hc, List.append_assoc, List.append_assoc,
    cstr_append hdown, cstr_append hcur]

/-- An image that passes both verifications, names the application partition and fits there is
installable. -/
theorem installable_of_verified {env : Env} (hrel : env.Reliable) (hunc : env.Uncut)
    {fm app : FalPartition} {r ra : Region}
    (hfm : falPartitionFind env.toBoard fotaFmPartName = some fm) (hr : env.region fm = some r)
    (happ : falPartitionFind env.toBoard fotaAppPartName = some app)
    (hra : env.region app = some ra) (hdis : r.Disjoint ra) {f : Flash} {w₁ w₂ : World}
    (hfw : fotaPartFwVerify env (some fotaFmPartName) (World.boot f) = .done .noErr w₁)
    (hname : strcmpEq (Head.appPartName w₁.rblFotaPartHead) fotaAppPartName = true)
    (hterm : 0 ∈ slice (r.view f) 28 24)
    (hverify : fotaUpgradeVerify env (some fotaFmPartName) w₁ = .done .noErr w₂)
    (hoob : w₂.oob = w₁.oob)
    (hlarge : WritesFit w₂ (fotaUpgrade env (some fotaFmPartName) w₂).state) :
    PackageAccepted env.toBoard fm.len (r.view f) ∧
      ∃ ps, Installable env.toBoard fm app r f ps := by
  obtain ⟨hacc, hkeep, tab, head, ht⟩ := (fotaPartFwVerify_meets hr hrel hfm (World.boot f)).done hfw
  have hhead : w₁.rblFotaPartHead = headAt (r.view f) := (hkeep rfl).2
  have hflash : w₁.flash = f := ht.flash
  obtain ⟨ps, hps, hpacc, -⟩ := pieces_of_fotaUpgradeVerify hrel hfm hr
    (f := f) (hflash ▸ Region.Agree.refl) hverify hoob
  have hq := fotaUpgradeVerify_quiet.of_done hverify
  have htgt : falPartitionFind env.toBoard (Head.appPartName w₁.rblFotaPartHead) = some app := by
    rw [falPartitionFind_congr hname, happ]
  have hflash₂ : w₂.flash = f := hq.flash.trans hflash
  have hup := fotaUpgrade_meets (w := w₂) (f := f) hrel hunc.unfailing hfm hr hra hdis
    (by rw [hq.head]; exact htgt) (hacc.mp rfl).head_le (by rw [hq.head, hhead, hflash₂])
    (hflash₂ ▸ Region.Agree.refl) (by rw [hq.head]; exact hps) (by rw [hq.head]; exact hpacc)
  rw [hhead] at htgt hps hpacc
  refine ⟨hacc.mp rfl, ps, htgt, hterm, hps, hpacc, ?_⟩
  obtain ⟨e, w₃, hrun, hup⟩ := hup.returns_of (fun _ _ h => h) fun _ _ => hunc.not_cutShort
  rw [hrun] at hlarge
  exact hup.2.elim (fun h => h.2.1) fun h => absurd h.2.2.1 hlarge.not_out

/-- The download partition holds an image that both verifications accept, for the application
partition, in which it fits, and it is new or the application is valid. However often the device is
booted and cut, the next boot that is not reaches its application check with a valid application. -/
theorem application_recovers {env : Env} (hrel : env.Reliable) (hunc : env.Uncut)
    (hroll : env.rollback = false) (hrestart : env.installRestart = false)
    {fm app : FalPartition} {r ra : Region}
    (hfm : falPartitionFind env.toBoard fotaFmPartName = some fm) (hr : env.region fm = some r)
    (happ : falPartitionFind env.toBoard fotaAppPartName = some app)
    (hra : env.region app = some ra) (hdis : r.Disjoint ra) {f : Flash} {w₁ w₂ : World}
    (hfw : fotaPartFwVerify env (some fotaFmPartName) (World.boot f) = .done .noErr w₁)
    (hname : strcmpEq (Head.appPartName w₁.rblFotaPartHead) fotaAppPartName = true)
    (hdown : 0 ∈ slice (r.view f) 28 24) (hcur : 0 ∈ slice (r.view f) 52 24)
    (hverify : fotaUpgradeVerify env (some fotaFmPartName) w₁ = .done .noErr w₂)
    (hoob : w₂.oob = w₁.oob)
    (hlarge : WritesFit w₂ (fotaUpgrade env (some fotaFmPartName) w₂).state)
    (hnew : strcmpEq (slice (r.view f) 28 24) (slice (r.view f) 52 24) = false ∨
      ∃ w, fotaCheckApplication env (World.boot f) = .done .noErr w)
    {envs : List Env} (henvs : ∀ e ∈ envs, CutBoot env.toBoard r e)
    {env' : Env} (hb : env'.toBoard = env.toBoard) (hrel' : env'.Reliable) (hunc' : env'.Uncut) :
    ∃ w w', fotaInitUpgrade env' (World.boot (bootAll envs f)) = .done () w ∧
      fotaCheckApplication env' w = .done .noErr w' := by
  obtain ⟨hacc, ps, hinst⟩ := installable_of_verified hrel hunc hfm hr happ hra hdis hfw hname hdown
    hverify hoob hlarge
  have hstart : Recoverable env.toBoard fm app r ra f f := by
    by_cases hp : Pending env.toBoard fm.len (r.view f)
    · exact .pending Region.Agree.refl hp
    · refine .installed ?_ hp
      obtain hnew | ⟨w, hrun⟩ := hnew
      · exact absurd ⟨hacc, (version_strcmpEq_fields hdown hcur).trans hnew⟩ hp
      · exact ((fotaCheckApplication_meets hrel happ hra (World.boot f)).done hrun).1.mp rfl
  have hrec := bootAll_recovers hroll hfm hr hra hdis hinst henvs hstart
  rw [← hb] at hfm hr happ hra hroll hrestart hinst hrec
  have htear : env'.TearsPrefix r := by
    intro n op g hcut
    exact (hunc'.not_cut hcut).elim
  have hm := fotaInitUpgrade_recovers hrel' hunc'.unfailing hroll hfm hr hra hdis htear hinst
    (w := World.boot (bootAll envs f)) hrec
  obtain ⟨u, w, hrun, -, hvalid⟩ := hm.returns_of (fun _ _ h => h) (by
    rintro c w ⟨-, ⟨n, hcut⟩ | hres⟩
    · exact hunc'.not_cut hcut
    · exact absurd (hrestart.symm.trans hres) Bool.false_ne_true)
  obtain ⟨w', hcheck⟩ := fotaCheckApplication_of_valid hrel' happ hra hvalid
  exact ⟨w, w', hrun, hcheck⟩

/-- A boot of the board of the sample image that is cut in its first flash operation. -/
def sampleCutEnv (k : Nat) : Env where
  toBoard := sampleEnv.toBoard
  allocOk _ := true
  readOk _ := true
  fate n := if n = 0 then .cut else .done
  tear _ op f := (op.cutAt k).apply f
  tear_confined _ _ _ _ _ h := FlashOp.cutAt_apply_of_not_covers h
  stray _ _ := 0
  fotaRollbackCheck := -1

theorem cutBoot_sample (k : Nat) : CutBoot sampleEnv.toBoard ⟨0, 0, 0x2000⟩ (sampleCutEnv k) where
  board := rfl
  reliable := ⟨fun _ => rfl, fun _ => rfl⟩
  unfailing n h := by
    simp only [sampleCutEnv] at h
    split at h <;> cases h
  torn _ _ _ _ _ := ⟨k, rfl⟩

/-- Two boots of the sample image are cut while they erase the application. -/
theorem application_recovers_sample :
    ∃ w w', fotaInitUpgrade sampleEnv (World.boot (bootAll [sampleCutEnv 0, sampleCutEnv 1000]
        (sampleFlash fotaAppPartName [0x31]))) = .done () w ∧
      fotaCheckApplication sampleEnv w = .done .noErr w' := by
  obtain ⟨w₁, w₂, hfw, hname, hverify, hoob, hlarge⟩ := sample_verified
  have hdown : slice ((⟨0, 0, 0x2000⟩ : Region).view (sampleFlash fotaAppPartName [0x31])) 28 24 =
      strField 24 [0x31] := by
    rw [view_sampleFlash]
    exact slice_sampleContents_version
  have hcur : slice ((⟨0, 0, 0x2000⟩ : Region).view (sampleFlash fotaAppPartName [0x31])) 52 24 =
      List.replicate 24 0 := by
    rw [view_sampleFlash]
    rfl
  refine application_recovers sampleEnv_reliable sampleEnv_uncut rfl rfl sampleEnv_fm region_sampleFm
    sampleEnv_app region_sampleApp sample_disjoint hfw hname (by rw [hdown]; decide)
    (by rw [hcur]; decide) hverify hoob hlarge (.inl (by rw [hdown, hcur]; decide)) (fun e he => ?_)
    rfl sampleEnv_reliable sampleEnv_uncut
  rcases List.mem_cons.mp he with rfl | he
  · exact cutBoot_sample 0
  · obtain rfl := List.mem_singleton.mp he
    exact cutBoot_sample 1000

end McuUtilities.Fota
