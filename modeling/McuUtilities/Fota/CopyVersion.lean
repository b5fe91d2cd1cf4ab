import McuUtilities.Fota.Install

/-!
# Marking an image as installed

`fota_copy_version` erases the first sector of a partition and writes it back with the current
version set to the download version and a new header checksum. Nothing else changes, and a package
stays a package.
-/

namespace McuUtilities.Fota
open Prog

/-- Contents with `current_version` set to `download_version`. -/
def markVersion (m : Nat → UInt8) : Nat → UInt8 := store m 52 (slice m 28 24)

/-- Contents with `current_version` set to `download_version` and `head_crc` renewed. -/
def markInstalled (tab : CrcTab) (m : Nat → UInt8) : Nat → UInt8 :=
  store (markVersion m) 92 (leBytes 4 (fotaCrc tab (slice (markVersion m) 0 92)).toNat)

section mark
variable {tab : CrcTab} {m : Nat → UInt8}

theorem markInstalled_of_ne {a : Nat} (h : ¬ (52 ≤ a ∧ a < 76)) (h' : ¬ (92 ≤ a ∧ a < 96)) :
    markInstalled tab m a = m a := by
  have hcrc : ∀ n, (leBytes 4 n).length = 4 := fun _ => length_leBytes
  have hver : (slice m 28 24).length = 24 := length_slice
  have hinner : markVersion m a = m a := by
    rcases Nat.lt_or_ge a 52 with ha | ha
    · exact store_of_lt ha
    · exact store_of_ge (by omega)
  rw [← hinner]
  rcases Nat.lt_or_ge a 92 with ha | ha
  · exact store_of_lt ha
  · exact store_of_ge (by rw [hcrc]; omega)

theorem slice_markInstalled {off n : Nat} (h : off + n ≤ 52 ∨ 76 ≤ off)
    (h' : off + n ≤ 92 ∨ 96 ≤ off) : slice (markInstalled tab m) off n = slice m off n :=
  slice_congr fun i hi => markInstalled_of_ne (by omega) (by omega)

theorem slice_markInstalled_version : slice (markInstalled tab m) 52 24 = slice m 28 24 := by
  rw [markInstalled, slice_store_of_disjoint (.inr (by decide)), markVersion]
  exact slice_store_self

theorem slice_markInstalled_head : slice (markInstalled tab m) 0 92 = slice (markVersion m) 0 92 := by
  rw [markInstalled, slice_store_of_disjoint (.inr (by decide))]

theorem slice_markInstalled_crc : slice (markInstalled tab m) 92 4 =
    leBytes 4 (fotaCrc tab (slice (markVersion m) 0 92)).toNat :=
  slice_store_self

/-- The sector that `fota_copy_version` writes, written. -/
theorem store_copyVersionSector :
    store m 0 (copyVersionSector tab (slice m 0 fotaAlgoBuffSize)) = markInstalled tab m := by
  have hsize : sizeofHead = 96 := rfl
  have hsealed : (slice m 0 fotaAlgoBuffSize).take 52 ++
      Head.field (slice m 0 fotaAlgoBuffSize) 28 24 ++
      Head.field (slice m 0 fotaAlgoBuffSize) 76 16 = slice (markVersion m) 0 92 := by
    have h1 : slice (markVersion m) 0 52 = slice m 0 52 := slice_store_of_disjoint (.inr (by decide))
    have h2 : slice (markVersion m) 52 24 = slice m 28 24 := slice_store_self
    have h3 : slice (markVersion m) 76 16 = slice m 76 16 := slice_store_of_disjoint (.inl (by simp))
    rw [show 92 = 52 + 24 + 16 from rfl, slice_add, slice_add, Nat.zero_add, h1, h2, h3, take_slice,
      Head.field, take_drop_slice (by decide), Head.field, take_drop_slice (by decide)]
    rfl
  have hrest : (slice m 0 fotaAlgoBuffSize).drop sizeofHead = slice (markInstalled tab m) 96 4000 := by
    rw [drop_slice, slice_markInstalled (.inr (by decide)) (.inr (by decide))]
    rfl
  have hfirst : store m 0 (slice (markVersion m) 0 92) = markVersion m := by
    refine store_slice fun a ha => ?_
    refine store_of_ge ?_
    rw [length_slice]
    omega
  rw [copyVersionSector, hsealed, hrest, ← store_append, ← store_append, hfirst, List.length_append, length_slice,
    length_leBytes, Nat.zero_add, Nat.zero_add]
  exact store_slice fun a _ => rfl

theorem length_copyVersionSector {cache : List UInt8} (h : cache.length = fotaAlgoBuffSize) :
    (copyVersionSector tab cache).length = fotaAlgoBuffSize := by
  have hbuff : fotaAlgoBuffSize = 4096 := rfl
  have hsize : sizeofHead = 96 := rfl
  simp only [copyVersionSector, Head.field, List.length_append, List.length_take, List.length_drop,
    length_leBytes]
  omega

end mark

/-- A package whose version fields are equal is marked already. -/
theorem PackageAccepted.markInstalled_eq {b : Board} {len : Nat} {m : Nat → UInt8}
    (h : PackageAccepted b len m) (hversion : slice m 52 24 = slice m 28 24) :
    markInstalled packageCrcTab m = m := by
  have hver : markVersion m = m := by
    rw [markVersion, ← hversion]
    exact store_slice fun _ _ => rfl
  have hcrc : fotaCrc packageCrcTab (slice m 0 92) = UInt32.ofNat (leNat (slice m 92 4)) := by
    have hcrc := h.headCrc
    rwa [Head.headCrc, field_headAt (by decide), headAt, take_slice] at hcrc
  have hbytes : leBytes 4 (fotaCrc packageCrcTab (slice m 0 92)).toNat = slice m 92 4 := by
    have hlt : leNat (slice m 92 4) < 2 ^ 32 := by
      have hlt := @leNat_lt (slice m 92 4)
      rwa [length_slice] at hlt
    rw [hcrc, UInt32.toNat_ofNat_of_lt' hlt]
    have h4 := @leBytes_leNat (slice m 92 4)
    rwa [length_slice] at h4
  rw [markInstalled, hver, hbytes]
  exact store_slice fun _ _ => rfl

/-- The checks that a package passes do not look at the fields that change. -/
theorem PackageAccepted.marked {b : Board} {len : Nat} {m : Nat → UInt8}
    (h : PackageAccepted b len m) : PackageAccepted b len (markInstalled packageCrcTab m) := by
  have hsize : sizeofHead = 96 := rfl
  have hfield : ∀ k, 76 ≤ k → k + 4 ≤ 92 → Head.field (headAt (markInstalled packageCrcTab m)) k 4 =
      Head.field (headAt m) k 4 := by
    intro k hk hk'
    rw [field_headAt (by omega), field_headAt (by omega),
      slice_markInstalled (.inr hk) (.inl hk')]
  have hcom : Head.comSize (headAt (markInstalled packageCrcTab m)) = Head.comSize (headAt m) :=
    congrArg leNat (hfield 88 (by decide) (by decide))
  have hcode : Head.codeCrc (headAt (markInstalled packageCrcTab m)) = Head.codeCrc (headAt m) :=
    congrArg (fun bs => UInt32.ofNat (leNat bs)) (hfield 76 (by decide) (by decide))
  -- the strings compared are shorter than what is left before `current_version`
  have hstring : ∀ m : Nat → UInt8, ∀ k n, k + n ≤ 96 → (headAt m).drop k = slice m k n ++
      slice m (k + n) (96 - (k + n)) := by
    intro m k n hkn
    rw [headAt, drop_slice, ← slice_add]
    congr 1 <;> omega
  have hname : ∀ p : FalPartition, strcmpEq (Head.appPartName (headAt
      (markInstalled packageCrcTab m))) p.name = strcmpEq (Head.appPartName (headAt m)) p.name := by
    intro p
    have hp := p.name_lt
    rw [Head.appPartName, Head.appPartName, hstring _ 12 40 (by decide), hstring m 12 40 (by decide),
      slice_markInstalled (.inl (by decide)) (.inl (by decide))]
    exact strcmpEq_append_left (by rw [length_slice]; omega)
  refine ⟨h.head_le, ?_, ?_, ?_, hcom ▸ h.body_le, ?_⟩
  · rw [Head.headCrc, field_headAt (by decide), slice_markInstalled_crc,
      leNat_leBytes (UInt32.toNat_lt _), UInt32.ofNat_toNat, headAt, take_slice]
    exact congrArg _ slice_markInstalled_head
  · rw [← h.type, Head.type, Head.type, hstring _ 0 52 (by decide), hstring m 0 52 (by decide),
      slice_markInstalled (.inl (by decide)) (.inl (by decide))]
    exact strcmpEq_append_left (by rw [length_slice]; decide)
  · have := h.target
    rw [falPartitionFind] at this ⊢
    simpa only [hname] using this
  · rw [hcom, hcode, slice_markInstalled (.inr (by decide)) (.inr (by decide))]
    exact h.codeCrc

/-! ## `fota_copy_version` -/

/-- `fota_copy_version` gets its buffer and reads the first sector. -/
def CanMark (env : Env) (part : FalPartition) (w : World) : Prop :=
  env.allocOk w.allocs = true ∧ env.readOk w.reads = true ∧ fotaAlgoBuffSize ≤ part.len

section copyVersion
variable {env : Env} {name : List UInt8} {part : FalPartition} {r : Region}
  (hpart : falPartitionFind env.toBoard name = some part) (hr : env.region part = some r)
include hpart hr

/-- What `fota_copy_version` does, whatever fails. -/
theorem fotaCopyVersion_spec (w : World) :
    Meets (fotaCopyVersion env name) w
      (fun e w' => Confined r w w' ∧ (¬ CanMark env part w → e ≠ .noErr ∧ w'.flash = w.flash) ∧
        (e = .noErr → r.view w'.flash = markInstalled w.crcTab (r.view w.flash)) ∧
        (env.Unfailing → CanMark env part w → e = .noErr))
      (fun _ _ => False)
      (fun h w' => h = .powerCut ∧ Confined r w w' ∧ CanMark env part w ∧
        ((∃ n, env.fate n = .cut) ∨
          env.installRestart = true ∧ r.view w'.flash = markInstalled w.crcTab (r.view w.flash))) := by
  have hbuff : fotaAlgoBuffSize = 4096 := rfl
  have hrefused {e : FotaErr} {w' : World} (ht : Ticked w w') (he : e ≠ .noErr)
      (hno : ¬ CanMark env part w) : Confined r w w' ∧
        (¬ CanMark env part w → e ≠ .noErr ∧ w'.flash = w.flash) ∧
        (e = .noErr → r.view w'.flash = markInstalled w.crcTab (r.view w.flash)) ∧
        (env.Unfailing → CanMark env part w → e = .noErr) :=
    ⟨ht.confined r, fun _ => ⟨he, ht.flash⟩, fun h => absurd h he, fun _ h => absurd h hno⟩
  unfold fotaCopyVersion
  refine meets_exitCode ?_
  rw [hpart]
  refine Meets.bind (Meets.of_done rfl (Meets.bind (Meets.require (fun halloc => ?_) fun halloc =>
    hrefused ⟨rfl, rfl, rfl, rfl, rfl, rfl, rfl⟩ (by decide) fun h => ?_)))
  rotate_left
  · exact Bool.false_ne_true (halloc.symm.trans h.1)
  by_cases hlen : 0 + fotaAlgoBuffSize ≤ part.len
  rotate_left
  · refine Meets.bind (Meets.of_done (falPartitionRead_out (Nat.lt_of_not_le hlen) (by decide)) ?_)
    refine Meets.throw (hrefused ⟨rfl, rfl, rfl, rfl, rfl, rfl, rfl⟩ (by decide) fun h => ?_)
    exact hlen (by rw [Nat.zero_add]; exact h.2.2)
  refine Meets.bind (Meets.of_done (falPartitionRead_eq hr hlen) ?_)
  cases hread : env.readOk w.reads with
  | false =>
    refine Meets.throw (hrefused ⟨rfl, rfl, rfl, rfl, rfl, rfl, rfl⟩ (by decide) fun h => ?_)
    exact Bool.false_ne_true (hread.symm.trans h.2.1)
  | true =>
  have hcan : CanMark env part w := ⟨halloc, hread, by rwa [Nat.zero_add] at hlen⟩
  rw [if_pos rfl]
  dsimp only
  refine Meets.bind (Meets.of_done (get_apply) ?_)
  -- the state after the allocation and the read
  have ht₁ : Ticked w { w with allocs := w.allocs + 1, reads := w.reads + 1 } :=
    ⟨rfl, rfl, rfl, rfl, rfl, rfl, rfl⟩
  generalize ({ w with allocs := w.allocs + 1, reads := w.reads + 1 } : World) = w₁ at ht₁ ⊢
  have hsector := @length_copyVersionSector w₁.crcTab (slice (r.view w.flash) 0 fotaAlgoBuffSize)
    length_slice
  generalize hs : copyVersionSector w₁.crcTab (slice (r.view w.flash) 0 fotaAlgoBuffSize) = sector
    at hsector ⊢
  have hfits : 0 + sector.length ≤ part.len := by rwa [hsector]
  refine Meets.bind ((falPartitionErase_spec hr hlen).mono ?_ (fun _ _ h => h.elim) ?_)
  rotate_left
  · rintro h w' ⟨rfl, hc, hcut⟩
    exact ⟨rfl, (ht₁.confined r).trans hc, hcan, .inl hcut⟩
  rintro ok w₂ ⟨herase, hok, -, hc₂⟩
  have hfailed {e : FotaErr} {w' : World} (hc : Confined r w w') (he : e ≠ .noErr)
      (hno : ¬ env.Unfailing) : Confined r w w' ∧
        (¬ CanMark env part w → e ≠ .noErr ∧ w'.flash = w.flash) ∧
        (e = .noErr → r.view w'.flash = markInstalled w.crcTab (r.view w.flash)) ∧
        (env.Unfailing → CanMark env part w → e = .noErr) :=
    ⟨hc, fun h => absurd hcan h, fun h => absurd h he, fun h => absurd h hno⟩
  have hc₂' : Confined r w w₂ := (ht₁.confined r).trans hc₂
  refine Meets.bind (Meets.require (fun hok₂ => ?_) fun hok₂ =>
    hfailed hc₂' (by decide) fun hno => Bool.false_ne_true (hok₂.symm.trans (hok hno)))
  refine Meets.bind ((falPartitionWrite_spec hr hfits).mono ?_ (fun _ _ h => h.elim) ?_)
  rotate_left
  · rintro h w' ⟨rfl, hc, hcut⟩
    exact ⟨rfl, hc₂'.trans hc, hcan, .inl hcut⟩
  rintro ok w₃ ⟨hwrite, hok, -, hc₃⟩
  have hc₃' : Confined r w w₃ := hc₂'.trans hc₃
  refine Meets.bind (Meets.require (fun hok₃ => ?_) fun hok₃ =>
    hfailed hc₃' (by decide) fun hno => Bool.false_ne_true (hok₃.symm.trans (hok hno)))
  have hview : r.view w₃.flash = markInstalled w.crcTab (r.view w.flash) := by
    rw [hwrite hok₃, herase hok₂, ht₁.flash, store_fill (Nat.le_of_eq hsector.symm), ← hs, ht₁.crcTab,
      store_copyVersionSector]
  cases hrestart : env.installRestart with
  | true => exact ⟨rfl, hc₃', hcan, .inr ⟨rfl, hview⟩⟩
  | false => exact ⟨hc₃', fun h => absurd hcan h, fun _ => hview, fun _ _ => rfl⟩

/-- When nothing fails, the image is marked. -/
theorem fotaCopyVersion_marks (hrel : env.Reliable) (hunc : env.Uncut)
    (hrestart : env.installRestart = false) (hlen : fotaAlgoBuffSize ≤ part.len) (w : World) :
    ∃ w', fotaCopyVersion env name w = .done .noErr w' ∧ Confined r w w' ∧
      r.view w'.flash = markInstalled w.crcTab (r.view w.flash) := by
  obtain ⟨e, w', hrun, hc, -, hview, hok⟩ := (fotaCopyVersion_spec hpart hr w).returns_of
    (fun _ _ h => h) (by
      rintro c w' ⟨-, -, -, ⟨n, hcut⟩ | ⟨hres, -⟩⟩
      · exact hunc.not_cut hcut
      · exact absurd hres (by rw [hrestart]; decide))
  obtain rfl := hok hunc.unfailing ⟨hrel.alloc _, hrel.read _, hlen⟩
  exact ⟨w', hrun, hc, hview rfl⟩

/-- What `fota_copy_version` leaves of a package that was accepted earlier in the boot. -/
theorem marked_of_copy {w w₁ w₂ w₃ : World}
    (hverify : fotaPartFwVerify env (some name) w = .done .noErr w₁)
    (htab : w₂.crcTab = w₁.crcTab) (hag : r.Agree w.flash w₂.flash)
    (hcopy : fotaCopyVersion env name w₂ = .done .noErr w₃) :
    PackageAccepted env.toBoard part.len (r.view w₃.flash) ∧
      r.view w₃.flash = markInstalled packageCrcTab (r.view w₂.flash) := by
  have hlen := (Board.region_eq hr).2.2
  obtain ⟨-, hok, -⟩ := (fotaPartFwVerify_spec hpart w).done hverify
  obtain ⟨r', hr', htab₁, -, hacc⟩ := hok rfl
  obtain rfl := Option.some.inj (hr.symm.trans hr')
  obtain ⟨-, -, hview, -⟩ := (fotaCopyVersion_spec hpart hr w₂).done hcopy
  have hview := hview rfl
  rw [htab, htab₁] at hview
  refine ⟨?_, hview⟩
  rw [hview]
  rw [← hlen] at hacc ⊢
  exact (hacc.agree hag).marked

/-- A package that was accepted earlier in the boot is still one after `fota_copy_version`, with
equal version fields, and only `current_version` and `head_crc` have changed. -/
theorem fotaCopyVersion_keeps {w w₁ w₂ w₃ : World}
    (hverify : fotaPartFwVerify env (some name) w = .done .noErr w₁)
    (htab : w₂.crcTab = w₁.crcTab) (hag : r.Agree w.flash w₂.flash)
    (hcopy : fotaCopyVersion env name w₂ = .done .noErr w₃) :
    (∀ env' : Env, env'.toBoard = env.toBoard → env'.Reliable →
        ∃ w₄, fotaPartFwVerify env' (some name) w₃ = .done .noErr w₄) ∧
      slice (r.view w₃.flash) 52 24 = slice (r.view w₃.flash) 28 24 ∧
      ∀ a, a < part.len → r.view w₃.flash a ≠ r.view w.flash a →
        (52 ≤ a ∧ a < 76) ∨ (92 ≤ a ∧ a < 96) := by
  have hlen := (Board.region_eq hr).2.2
  obtain ⟨hacc₃, hview⟩ := marked_of_copy hpart hr hverify htab hag hcopy
  refine ⟨fun env' hb hrel => ?_, ?_, fun a ha hne => ?_⟩
  · rw [← hb] at hpart hr hacc₃
    obtain ⟨w₄, hrun, -⟩ := fotaPartFwVerify_of_accepted hr hrel hpart hacc₃
    exact ⟨w₄, hrun⟩
  · rw [hview, slice_markInstalled_version, slice_markInstalled (.inl (by decide)) (.inl (by decide))]
  · by_contra hout
    refine hne ?_
    rw [hview, markInstalled_of_ne (by omega) (by omega)]
    exact (hag.view (by omega)).symm

end copyVersion

/-- The sample image, marked. -/
theorem fotaCopyVersion_keeps_sample :
    ∃ w₁ w₂ w₃, fotaPartFwVerify sampleEnv (some fotaFmPartName)
        (World.boot (sampleFlash fotaAppPartName [0x31])) = .done .noErr w₁ ∧
      fotaCopyVersion sampleEnv fotaFmPartName w₁ = .done .noErr w₂ ∧
      fotaPartFwVerify sampleEnv (some fotaFmPartName) w₂ = .done .noErr w₃ ∧
      slice ((⟨0, 0, 0x2000⟩ : Region).view w₂.flash) 52 24 =
        slice ((⟨0, 0, 0x2000⟩ : Region).view w₂.flash) 28 24 := by
  obtain ⟨w₁, hverify, -, -, hflash⟩ :=
    @fotaPartFwVerify_sample fotaAppPartName [0x31] (by decide +kernel)
  obtain ⟨w₂, hcopy, -⟩ := fotaCopyVersion_marks sampleEnv_fm region_sampleFm sampleEnv_reliable
    sampleEnv_uncut rfl (by decide) w₁
  have hag : (⟨0, 0, 0x2000⟩ : Region).Agree
      (World.boot (sampleFlash fotaAppPartName [0x31])).flash w₁.flash := by
    rw [hflash]
    exact Region.Agree.refl
  obtain ⟨hagain, hversion, -⟩ :=
    fotaCopyVersion_keeps sampleEnv_fm region_sampleFm hverify rfl hag hcopy
  obtain ⟨w₃, hagain⟩ := hagain sampleEnv rfl sampleEnv_reliable
  exact ⟨w₁, w₂, w₃, hverify, hcopy, hagain, hversion⟩

end McuUtilities.Fota
