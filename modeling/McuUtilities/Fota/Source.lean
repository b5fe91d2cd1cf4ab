import McuUtilities.Fota.Rounds
import McuUtilities.Fota.Spares

/-!
# The source of an installation

`fota_upgrade` writes to the partition that the image header names. As long as that is another
partition than the one the image is in, nothing it does touches the image, whatever fails and
wherever the power is cut. The package check also accepts an image that names its own partition;
that one is erased before it is copied.
-/

namespace McuUtilities.Fota
open Prog

/-- Different partitions of the table share no address of flash. -/
def Board.PartitionsDisjoint (b : Board) : Prop :=
  ∀ p ∈ b.partitionTable, ∀ q ∈ b.partitionTable, p ≠ q →
    ∀ rp rq, b.region p = some rp → b.region q = some rq → rp.Disjoint rq

section spares
variable {env : Env} {tgt : FalPartition} {s : Region}
  (hdis : ∀ rt, env.region tgt = some rt → s.Disjoint rt)

/-- A write that succeeds was inside its partition. -/
theorem falPartitionWrite_ok {addr : Nat} {buf : List UInt8} (h : addr + buf.length < 2 ^ 32)
    (w : World) :
    Meets (falPartitionWrite env tgt addr buf) w (fun ok _ => ok = true → addr + buf.length ≤ tgt.len)
      (fun _ _ => False) (fun _ _ => True) := by
  by_cases hin : addr + buf.length ≤ tgt.len
  · have hret : Meets (falPartitionWrite env tgt addr buf) w (fun _ _ => True) (fun _ _ => False)
        (fun _ _ => True) := by
      refine Meets.bind (Meets.of_done rfl (Meets.ite (fun _ => Meets.pure trivial) fun _ => ?_))
      split
      · exact Meets.pure trivial
      · exact (devChange_returns _ _).mono (fun _ _ h => h) (fun _ _ h => h) fun _ _ _ => trivial
    exact hret.mono (fun _ _ _ _ => hin) (fun _ _ h => h) fun _ _ h => h
  · refine Meets.of_done (falPartitionWrite_out (Nat.lt_of_not_le hin) h) fun hok => ?_
    cases hok

variable {head : List UInt8}
  (htgt : falPartitionFind env.toBoard (Head.appPartName head) = some tgt) {w : World}
  (hhead : w.rblFotaPartHead = head)

include hdis htgt hhead in
theorem fotaEraseAppPart_spares :
    Meets (fotaEraseAppPart env) w (fun _ => Spares s w) (fun _ => Spares s w) (fun _ => Spares s w) := by
  subst hhead
  refine Meets.bind (Meets.of_done (get_apply) ?_)
  dsimp only
  rw [htgt]
  refine Meets.bind ?_
  have hsp := falPartitionEraseAll_spares hdis w
  unfold Meets
  cases hrun : falPartitionEraseAll env tgt w <;> rw [hrun] at hsp <;> exact hsp

include hdis htgt hhead in
theorem fotaWriteAppPart_spares {pos : Nat} {buf : List UInt8} (h : pos + buf.length < 2 ^ 32) :
    Meets (fotaWriteAppPart env pos buf) w
      (fun e w' => Spares s w w' ∧ (e = .noErr → pos + buf.length ≤ tgt.len))
      (fun _ => Spares s w) (fun _ => Spares s w) := by
  subst hhead
  refine Meets.bind (Meets.of_done (get_apply) ?_)
  dsimp only
  rw [htgt]
  refine Meets.bind (((falPartitionWrite_ok h w).and_always (falPartitionWrite_spares hdis h)).mono ?_
    (fun _ _ h => h.1.elim) fun _ _ h => h.2)
  rintro ok w' ⟨hok, hsp⟩
  refine Meets.pure ⟨hsp, fun he => hok ?_⟩
  cases ok
  · cases he
  · rfl

/-- The sink of `fota_upgrade` writes inside the target partition only. -/
theorem upgradeSink_keeps (hdis : ∀ rt, env.region tgt = some rt → s.Disjoint rt)
    (htgt : falPartitionFind env.toBoard (Head.appPartName w.rblFotaPartHead) = some tgt)
    (hqlz : ∀ source, (env.qlzDecompress source).length < 2 ^ 31) :
    SinkKeeps env.toBoard (upgradeSink env)
      (fun total w' => Spares s w w' ∧ (total ≠ 0 → appHeaderLen + total ≤ tgt.len))
      (fun _ => Spares s w) (fun _ => Spares s w) where
  quiet h hq := ⟨h.1.trans (Spares.of_quiet hq), h.2⟩
  error h _ := h.1
  sink := by
    rintro total w' piece ⟨hsp, htotal⟩ hlen
    have hbound := tgt.bound
    have hbuff : fotaAlgoBuffSize = 4096 := rfl
    have hoff : appHeaderLen = 512 := rfl
    have hpiece : piece.length < 2 ^ 31 := by
      rcases hlen with hlen | ⟨source, hlen⟩
      · omega
      · rw [hlen]
        exact hqlz source
    have htotal' : total + appHeaderLen ≤ 2 ^ 31 := by
      by_cases h0 : total = 0
      · omega
      · have := htotal h0
        omega
    have haddr : u32 (total + appHeaderLen) = total + appHeaderLen := by
      simp only [u32]
      omega
    have hsum : u32 (total + piece.length) = total + piece.length := by
      simp only [u32]
      omega
    unfold upgradeSink
    rw [haddr, hsum]
    rw [← hsp.head] at htgt
    refine Meets.bind ((fotaWriteAppPart_spares hdis htgt rfl (by omega)).mono ?_
      (fun _ _ h => hsp.trans h) fun _ _ h => hsp.trans h)
    rintro e w₂ ⟨hsp₂, hin⟩
    refine Meets.bind (Meets.require (fun he => Meets.pure ⟨hsp.trans hsp₂, fun _ => ?_⟩)
      fun _ => hsp.trans hsp₂)
    have := hin (of_decide_eq_true he)
    omega

/-- `fota_upgrade` spares every region its target is disjoint from. -/
theorem fotaUpgrade_spares (hdis : ∀ rt, env.region tgt = some rt → s.Disjoint rt)
    (htgt : falPartitionFind env.toBoard (Head.appPartName w.rblFotaPartHead) = some tgt)
    (hqlz : ∀ source, (env.qlzDecompress source).length < 2 ^ 31) (name : Option (List UInt8)) :
    Spares s w (fotaUpgrade env name w).state := by
  have hsize : sizeofHead = 96 := rfl
  have hm : Meets (fotaUpgrade env name) w (fun _ => Spares s w) (fun _ => Spares s w)
      (fun _ => Spares s w) := by
    refine meets_exitCode ?_
    split
    · exact Meets.throw (Spares.refl w)
    next part _ =>
    refine Meets.bind ((fotaEraseAppPart_spares hdis htgt rfl).mono ?_ (fun _ _ h => h)
      fun _ _ h => h)
    rintro e w₁ hsp₁
    refine Meets.ite (fun _ => Meets.throw hsp₁) fun _ => ?_
    refine Meets.bind (Meets.of_done (get_apply) (Meets.bind (Meets.of_done rfl ?_)))
    have hsp₂ : Spares s w { w₁ with allocs := w₁.allocs + 1 } :=
      hsp₁.trans (Spares.of_eq rfl rfl rfl)
    refine Meets.bind (Meets.require (fun _ => ?_) fun _ => hsp₂)
    obtain ⟨w₃, ht₃, -, hread | ⟨r, -, -, hread⟩⟩ := @falPartitionRead_cases env part 0 sizeofHead
      (by decide) { w₁ with allocs := w₁.allocs + 1 }
    · exact Meets.bind (Meets.of_done hread
        (Meets.throw (hsp₂.trans (Spares.of_eq ht₃.flash ht₃.head ht₃.crcTab))))
    have hsp₃ : Spares s w w₃ := hsp₂.trans (Spares.of_eq ht₃.flash ht₃.head ht₃.crcTab)
    refine Meets.bind (Meets.of_done hread ?_)
    have htgt₃ := htgt
    rw [← hsp₃.head] at htgt₃
    refine Meets.bind ((fotaWriteAppPart_spares hdis htgt₃ rfl (by rw [length_slice]; decide)).mono ?_
      (fun _ _ h => hsp₃.trans h) fun _ _ h => hsp₃.trans h)
    rintro e w₄ ⟨hsp₄, -⟩
    have hsp₄ := hsp₃.trans hsp₄
    refine Meets.bind (Meets.require (fun _ => ?_) fun _ => hsp₄)
    refine Meets.bind (((decoderInit_meets w₄).and_always decoderInit_quiet).mono ?_
      (fun _ _ h => hsp₄.trans (Spares.of_quiet h.2)) fun _ _ h => h.1.elim)
    rintro u w₅ ⟨-, hq⟩
    have hsp₅ := hsp₄.trans (Spares.of_quiet hq)
    have htgt₅ := htgt
    rw [← hsp₅.head] at htgt₅
    refine Meets.bind ((decode_meets (upgradeSink_keeps hdis htgt₅ hqlz)
      ⟨Spares.refl w₅, fun h => absurd rfl h⟩).mono ?_ (fun _ _ h => hsp₅.trans h)
      fun _ _ h => hsp₅.trans h)
    exact fun total w₆ h => Meets.require (fun _ => hsp₅.trans h.1) fun _ => hsp₅.trans h.1
  exact hm.state

end spares

/-- Whatever fails and wherever the power is cut, `fota_upgrade` leaves the region of its source as
it is. -/
def SourceSpared (b : Board) (r : Region) (name : List UInt8) (w : World) : Prop :=
  ∀ env : Env, env.toBoard = b → r.Agree w.flash (fotaUpgrade env (some name) w).state.flash

/-- The erase comes first: it is done even when the next allocation fails. -/
theorem fotaUpgrade_erases {env : Env} {name : List UInt8} {part tgt : FalPartition} {rt : Region}
    {w : World} (hpart : falPartitionFind env.toBoard name = some part)
    (htgt : falPartitionFind env.toBoard (Head.appPartName w.rblFotaPartHead) = some tgt)
    (hrt : env.region tgt = some rt) (hunc : env.Uncut) (halloc : env.allocOk w.allocs = false) :
    (fotaUpgrade env (some name) w).state.flash = (FlashOp.erase rt).apply w.flash := by
  have hrun : falPartitionEraseAll env tgt w = _ :=
    (falPartitionEraseAll_eq hrt).trans (devChange_uncut hunc)
  have herase : fotaEraseAppPart env w = .done .noErr
      { w with flash := (FlashOp.erase rt).apply w.flash, ops := w.ops + 1 } := by
    rw [fotaEraseAppPart, bind_done (get_apply)]
    simp only [htgt]
    rw [bind_done hrun]
    rfl
  have hmalloc : malloc env { w with flash := (FlashOp.erase rt).apply w.flash, ops := w.ops + 1 } =
      .done false { w with
        flash := (FlashOp.erase rt).apply w.flash, ops := w.ops + 1, allocs := w.allocs + 1 } := by
    simp only [malloc, halloc]
  have hbody : upgradeBody env part w = .fail .noMemErr { w with
      flash := (FlashOp.erase rt).apply w.flash, ops := w.ops + 1, allocs := w.allocs + 1 } := by
    unfold upgradeBody
    rw [bind_done herase, if_neg (fun h => h rfl), bind_done (get_apply)]
    dsimp only
    rw [bind_done hmalloc]
    rfl
  have hdone : fotaUpgrade env (some name) w = .done .noMemErr { w with
      flash := (FlashOp.erase rt).apply w.flash, ops := w.ops + 1, allocs := w.allocs + 1 } := by
    simp only [fotaUpgrade, Option.bind_some, hpart]
    exact exitCode_fail hbody
  rw [hdone]
  rfl

/-- The boot of a board that is out of memory. -/
def Board.starvedEnv (b : Board) : Env := { b.quietEnv with allocOk := fun _ => false }

/-- An image that names its own partition does not survive. -/
theorem not_sourceSpared {b : Board} {name : List UInt8} {part : FalPartition} {r : Region} {w : World}
    (hpart : falPartitionFind b name = some part) (hr : b.region part = some r)
    (htgt : falPartitionFind b (Head.appPartName w.rblFotaPartHead) = some part)
    (hlen : 0 < r.len) (hne : r.view w.flash 0 ≠ 0xFF) : ¬ SourceSpared b r name w := by
  intro h
  have hag := (h b.starvedEnv rfl).view hlen
  rw [@fotaUpgrade_erases b.starvedEnv _ _ _ _ _ hpart htgt hr (fun _ => rfl) rfl] at hag
  have hview := congrFun (@FlashOp.view_erase r w.flash 0 r.len) 0
  rw [fill_of_mem (Nat.le_refl 0) (by omega)] at hview
  exact hne (hag.trans hview)

/-- An accepted image is spared by its installation if and only if it does not name its own
partition as its target. -/
theorem sourceSpared_iff {env : Env} {fm : FalPartition} {r : Region}
    (hfm : falPartitionFind env.toBoard fotaFmPartName = some fm) (hr : env.region fm = some r)
    (hdisj : env.toBoard.PartitionsDisjoint)
    (hqlz : ∀ source, (env.qlzDecompress source).length < 2 ^ 31) {w w₁ w₂ : World}
    (hverify : fotaPartFwVerify env (some fotaFmPartName) w = .done .noErr w₁)
    (hhead : w₂.rblFotaPartHead = w₁.rblFotaPartHead) (hag : r.Agree w.flash w₂.flash) :
    SourceSpared env.toBoard r fotaFmPartName w₂ ↔
      falPartitionFind env.toBoard (Head.appPartName (headAt (r.view w.flash))) ≠ some fm := by
  have hlen := (Board.region_eq hr).2.2
  obtain ⟨-, hok, -⟩ := (fotaPartFwVerify_spec hfm w).done hverify
  obtain ⟨r', hr', -, hhead₁, hacc⟩ := hok rfl
  obtain rfl := Option.some.inj (hr.symm.trans hr')
  obtain ⟨tgt, htgt⟩ := Option.isSome_iff_exists.mp hacc.target
  have hle := hacc.head_le
  have hsize : sizeofHead = 96 := rfl
  have hhead₂ : w₂.rblFotaPartHead = headAt (r.view w.flash) := hhead.trans hhead₁
  rw [htgt]
  constructor
  · rintro hspared heq
    obtain rfl := Option.some.inj heq
    refine not_sourceSpared hfm hr (hhead₂ ▸ htgt) (by omega) (fun hff => ?_) hspared
    -- the first byte of an accepted image is the `R` of its type
    have htype : Head.type (headAt (r.view w.flash)) = r.view w.flash 0 :: slice (r.view w.flash) 1 95 :=
      rfl
    have h0 := hacc.type
    rw [htype, strcmpEq_cons (by decide), hag.view (by omega), hff] at h0
    exact absurd h0.1 (by decide)
  · intro hne env' hb
    have hne : fm ≠ tgt := fun h => hne (congrArg some h.symm)
    rw [← hb] at hfm hr hdisj hqlz htgt
    refine (fotaUpgrade_spares (fun rt hrt => ?_) (hhead₂ ▸ htgt) hqlz _).agree
    exact hdisj fm (mem_of_falPartitionFind hfm) tgt (mem_of_falPartitionFind htgt) hne _ _ hr hrt

theorem sampleEnv_disjoint : sampleEnv.toBoard.PartitionsDisjoint := by
  intro p hp q hq hne rp rq hrp hrq
  rcases List.mem_cons.mp hp with rfl | hp <;> rcases List.mem_cons.mp hq with rfl | hq
  · exact absurd rfl hne
  · obtain rfl := List.mem_singleton.mp hq
    obtain rfl := Option.some.inj (region_sampleFm.symm.trans hrp)
    obtain rfl := Option.some.inj (region_sampleApp.symm.trans hrq)
    exact sample_disjoint
  · obtain rfl := List.mem_singleton.mp hp
    obtain rfl := Option.some.inj (region_sampleApp.symm.trans hrp)
    obtain rfl := Option.some.inj (region_sampleFm.symm.trans hrq)
    exact sample_disjoint.symm
  · exact absurd ((List.mem_singleton.mp hp).trans (List.mem_singleton.mp hq).symm) hne

/-- The sample image for the application partition. -/
theorem sourceSpared_iff_sample :
    ∃ w, fotaPartFwVerify sampleEnv (some fotaFmPartName)
        (World.boot (sampleFlash fotaAppPartName [0x31])) = .done .noErr w ∧
      SourceSpared sampleEnv.toBoard ⟨0, 0, 0x2000⟩ fotaFmPartName w := by
  have htgt := target_sampleHead
  obtain ⟨w, hverify, -, -, hflash⟩ :=
    @fotaPartFwVerify_sample fotaAppPartName [0x31] (by rw [htgt]; rfl)
  have hview : (⟨0, 0, 0x2000⟩ : Region).view
      (World.boot (sampleFlash fotaAppPartName [0x31])).flash = _ := view_sampleFlash
  have hag : (⟨0, 0, 0x2000⟩ : Region).Agree
      (World.boot (sampleFlash fotaAppPartName [0x31])).flash w.flash := by
    rw [hflash]
    exact Region.Agree.refl
  have hqlz : ∀ source, (sampleEnv.qlzDecompress source).length < 2 ^ 31 := fun source =>
    Nat.lt_of_le_of_lt (List.length_take_le _ _) (by decide)
  refine ⟨w, hverify, (sourceSpared_iff sampleEnv_fm region_sampleFm sampleEnv_disjoint hqlz hverify
    rfl hag).mpr ?_⟩
  rw [hview, headAt_sampleContents, htgt]
  intro h
  have hname := congrArg FalPartition.offset (Option.some.inj h)
  cases hname

/-- The sample image for the download partition itself. -/
theorem not_sourceSpared_self :
    ∃ w, fotaPartFwVerify sampleEnv (some fotaFmPartName)
        (World.boot (sampleFlash fotaFmPartName [0x31])) = .done .noErr w ∧
      ¬ SourceSpared sampleEnv.toBoard ⟨0, 0, 0x2000⟩ fotaFmPartName w := by
  have htgt : falPartitionFind sampleEnv.toBoard
      (Head.appPartName (sampleHead fotaFmPartName [0x31])) = some sampleFm := by
    have hname : strcmpEq (Head.appPartName (sampleHead fotaFmPartName [0x31])) fotaFmPartName =
        true := by decide +kernel
    rw [falPartitionFind_congr hname]
    exact sampleEnv_fm
  obtain ⟨w, hverify, -, hhead, hflash⟩ :=
    @fotaPartFwVerify_sample fotaFmPartName [0x31] (by rw [htgt]; rfl)
  refine ⟨w, hverify, not_sourceSpared sampleEnv_fm region_sampleFm (hhead ▸ htgt) (by decide) ?_⟩
  have hfirst : sampleContents fotaFmPartName [0x31] 0 = 0x52 := rfl
  rw [hflash, view_sampleFlash, hfirst]
  decide

end McuUtilities.Fota
