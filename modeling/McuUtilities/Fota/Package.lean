import McuUtilities.Fota.Check

/-!
# Accepted packages

A package is a partition contents that `fota_part_fw_verify` accepts: an image header with its
checksum, the type and a target partition that exists, and a body with the checksum in the header,
all of whose 4096-byte chunks lie in the partition.
-/

namespace McuUtilities.Fota
open Prog

/-- The table `crc32_init` leaves in `crc_tab`. -/
def packageCrcTab : CrcTab := crc32Init 0x04c11db7

/-- The end of the last 4096-byte chunk that begins before `n`. -/
def roundUp (n : Nat) : Nat := (n + 4095) / 4096 * 4096

/-- A partition of length `len` with contents `m` holds a package. -/
structure PackageAccepted (b : Board) (len : Nat) (m : Nat → UInt8) : Prop where
  head_le : sizeofHead ≤ len
  headCrc : fotaCrc packageCrcTab ((headAt m).take (sizeofHead - 4)) = Head.headCrc (headAt m)
  type : strcmpEq (Head.type (headAt m)) [0x52, 0x42, 0x4c] = true
  target : (falPartitionFind b (Head.appPartName (headAt m))).isSome = true
  body_le : Head.comSize (headAt m) ≠ 0 → sizeofHead + roundUp (Head.comSize (headAt m)) ≤ len
  codeCrc : fotaCrc packageCrcTab (slice m sizeofHead (Head.comSize (headAt m))) =
    Head.codeCrc (headAt m)

/-- Only the contents of the partition matter. -/
theorem PackageAccepted.agree {b : Board} {r : Region} {f g : Flash}
    (h : PackageAccepted b r.len (r.view f)) (hag : r.Agree f g) :
    PackageAccepted b r.len (r.view g) := by
  have hle := h.head_le
  have hhead : headAt (r.view g) = headAt (r.view f) := (hag.slice (by omega)).symm
  refine ⟨hle, ?_, ?_, ?_, ?_, ?_⟩ <;> rw [hhead]
  · exact h.headCrc
  · exact h.type
  · exact h.target
  · exact h.body_le
  · rw [← h.codeCrc]
    congr 1
    by_cases h0 : Head.comSize (headAt (r.view f)) = 0
    · rw [h0, slice_zero, slice_zero]
    · have := h.body_le h0
      unfold roundUp at this
      exact (hag.slice (by omega)).symm

/-- The allocation and the reads of a package check that starts in `w` succeed. -/
structure Env.Supplied (env : Env) (w : World) : Prop where
  alloc : env.allocOk w.allocs = true
  read : ∀ n, env.readOk n = true

theorem Env.Reliable.supplied {env : Env} (h : env.Reliable) (w : World) : env.Supplied w :=
  ⟨h.alloc _, h.read⟩

section verify
variable {env : Env} {part : FalPartition} {r : Region} (hr : env.region part = some r)

include hr in
/-- One round of the loop over the body adds the next chunk to the checksum, or fails: because
a read failed, or because the chunk ends past the partition. -/
theorem bodyStep_meets {head : List UInt8} {s : Nat × UInt32} {w₀ w : World} (ht : Ticked w₀ w)
    (htab : w₀.crcTab = packageCrcTab) (hle : s.1 ≤ Head.comSize head)
    (halign : s.1 < Head.comSize head → s.1 % fotaAlgoBuffSize = 0)
    (hs : s.1 ≠ 0 → sizeofHead + roundUp s.1 ≤ part.len)
    (hcrc : s.2 = crc32 packageCrcTab 0xffffffff (slice (r.view w₀.flash) sizeofHead s.1)) :
    Meets (bodyStep env part head s) w
      (fun r' w' => Ticked w₀ w' ∧ match r' with
        | .inl s' => s.1 < part.len ∧ s.1 < s'.1 ∧ s'.1 ≤ Head.comSize head ∧
            (s'.1 < Head.comSize head → s'.1 % fotaAlgoBuffSize = 0) ∧
            (s'.1 ≠ 0 → sizeofHead + roundUp s'.1 ≤ part.len) ∧
            s'.2 = crc32 packageCrcTab 0xffffffff (slice (r.view w₀.flash) sizeofHead s'.1)
        | .inr crc => s.1 = Head.comSize head ∧ crc = s.2)
      (fun e w' => Ticked w₀ w' ∧ e ≠ .noErr ∧ ((∀ n, env.readOk n = true) → Head.comSize head ≠ 0 ∧
        part.len < sizeofHead + roundUp (Head.comSize head)))
      (fun _ _ => False) := by
  have hbound := part.bound
  have hbuff : fotaAlgoBuffSize = 4096 := rfl
  have hsize : sizeofHead = 96 := rfl
  by_cases hlt : s.1 < Head.comSize head
  · have hmod : s.1 % 4096 = 0 := halign hlt
    have hpos : s.1 ≤ 2 ^ 31 := by
      by_cases h0 : s.1 = 0
      · omega
      · have := hs h0
        unfold roundUp at this
        omega
    have haddr : u32 (sizeofHead + s.1) = sizeofHead + s.1 := by
      simp only [u32]
      omega
    by_cases hin : sizeofHead + s.1 + fotaAlgoBuffSize ≤ part.len
    · have htick : Ticked w₀ { w with reads := w.reads + 1 } :=
        ht.trans ⟨rfl, rfl, rfl, rfl, rfl, rfl, rfl⟩
      have hread := falPartitionRead_eq (w := w) hr hin
      generalize hbuf : slice (r.view w.flash) (sizeofHead + s.1) fotaAlgoBuffSize = buf at hread
      by_cases hok : env.readOk w.reads = true
      · rw [if_pos hok] at hread
        have hlen : buf.length = fotaAlgoBuffSize := by rw [← hbuf, length_slice]
        have hne : ¬ buf.length = 0 := by omega
        have hn : (if Head.comSize head < s.1 + buf.length then Head.comSize head - s.1
            else buf.length) = min fotaAlgoBuffSize (Head.comSize head - s.1) := by
          split <;> omega
        have hrun : bodyStep env part head s w =
            .done (.inl (s.1 + min fotaAlgoBuffSize (Head.comSize head - s.1),
              fotaStepCrc w.crcTab s.2
                (buf.take (min fotaAlgoBuffSize (Head.comSize head - s.1)))))
              { w with reads := w.reads + 1 } := by
          rw [bodyStep, if_pos hlt, haddr, bind_done hread]
          dsimp only
          rw [if_neg hne, hn]
          rfl
        refine Meets.of_done hrun ⟨htick, by omega, ?_⟩
        dsimp only
        refine ⟨by omega, by omega, fun _ => ?_, fun _ => by unfold roundUp; omega, ?_⟩
        · rw [hbuff]
          omega
        · rw [fotaStepCrc, hcrc, ht.crcTab, htab, slice_add, crc32_append, ← hbuf, take_slice,
            Nat.min_eq_left (Nat.min_le_left _ _), ht.flash]
      · rw [if_neg hok] at hread
        have hrun : bodyStep env part head s w =
            .fail .partReadErr { w with reads := w.reads + 1 } := by
          rw [bodyStep, if_pos hlt, haddr, bind_done hread]
          rfl
        exact Meets.of_fail hrun ⟨htick, by decide, fun hread => absurd (hread _) hok⟩
    · have hread : falPartitionRead env part (sizeofHead + s.1) fotaAlgoBuffSize w = _ :=
        falPartitionRead_out (by omega) (by omega)
      have hrun : bodyStep env part head s w = .fail .partReadErr w := by
        rw [bodyStep, if_pos hlt, haddr, bind_done hread]
        rfl
      exact Meets.of_fail hrun ⟨ht, by decide, fun _ => ⟨by omega, by unfold roundUp; omega⟩⟩
  · have hrun : bodyStep env part head s w = .done (.inr s.2) w := by
      rw [bodyStep, if_neg hlt]
      rfl
    exact Meets.of_done hrun ⟨ht, by omega, rfl⟩

/-- The checks of `fota_part_fw_verify` accept only packages; they reject a package only when an
allocation or a read fails. -/
theorem fotaPartFwCheck_meets (w : World) :
    Meets (fotaPartFwCheck env part) w
      (fun head w' => Ticked { w with crcTab := packageCrcTab } w' ∧
        ∃ r, env.region part = some r ∧ head = headAt (r.view w.flash) ∧
          PackageAccepted env.toBoard part.len (r.view w.flash))
      (fun e w' => (∃ tab, Ticked { w with crcTab := tab } w') ∧ e ≠ .noErr ∧
        ∀ r, env.region part = some r → env.Supplied w →
          ¬ PackageAccepted env.toBoard part.len (r.view w.flash))
      (fun _ _ => False) := by
  have hbuff : fotaAlgoBuffSize = 4096 := rfl
  have hsize : sizeofHead = 96 := rfl
  have hbound := part.bound
  have hidle : ∃ tab, Ticked { w with crcTab := tab } w := ⟨w.crcTab, Ticked.refl w⟩
  unfold fotaPartFwCheck
  cases hr : env.region part with
  | none =>
    obtain ⟨w₁, ht, -, hread | ⟨r, hr', -⟩⟩ :=
      @falPartitionRead_cases env part 0 sizeofHead (by decide) w
    · refine Meets.bind (Meets.of_done hread (Meets.throw ⟨⟨w.crcTab, ht⟩, by decide, ?_⟩))
      exact fun r h => by cases h
    · rw [hr] at hr'
      cases hr'
  | some r =>
  by_cases hhead : sizeofHead ≤ part.len
  rotate_left
  · refine Meets.bind (Meets.of_done (falPartitionRead_out (by omega) (by omega)) (Meets.throw
      ⟨hidle, by decide, fun r _ _ h => hhead h.head_le⟩))
  refine Meets.bind (Meets.of_done (falPartitionRead_eq hr (by omega)) ?_)
  by_cases hok : env.readOk w.reads = true
  rotate_left
  · rw [if_neg hok]
    exact Meets.throw ⟨⟨w.crcTab, rfl, rfl, rfl, rfl, rfl, rfl, rfl⟩, by decide,
      fun _ _ hsup => absurd (hsup.read _) hok⟩
  rw [if_pos hok]
  refine Meets.bind (Meets.of_done (modify_apply _) ?_)
  refine Meets.bind (Meets.of_done (get_apply) ?_)
  have ht : Ticked { w with crcTab := packageCrcTab }
      { w with reads := w.reads + 1, crcTab := packageCrcTab } :=
    ⟨rfl, rfl, rfl, rfl, rfl, rfl, rfl⟩
  change Meets _ { w with reads := w.reads + 1, crcTab := packageCrcTab } _ _ _
  have hreject {e : FotaErr} {w' : World} (ht : Ticked { w with crcTab := packageCrcTab } w')
      (he : e ≠ .noErr) (h : env.Supplied w → ¬ PackageAccepted env.toBoard part.len
        (r.view w.flash)) : (∃ tab, Ticked { w with crcTab := tab } w') ∧ e ≠ .noErr ∧
        ∀ r', some r = some r' → env.Supplied w →
          ¬ PackageAccepted env.toBoard part.len (r'.view w.flash) :=
    ⟨⟨_, ht⟩, he, fun r' hr' => Option.some.inj hr' ▸ h⟩
  refine Meets.bind (Meets.require (fun hcrc => ?_) fun hcrc =>
    hreject ht (by decide) fun _ h => of_decide_eq_false hcrc h.headCrc)
  refine Meets.bind (Meets.require (fun htype => ?_) fun htype =>
    hreject ht (by decide) fun _ h => Bool.false_ne_true (htype.symm.trans h.type))
  refine Meets.bind (Meets.require (fun htgt => ?_) fun htgt =>
    hreject ht (by decide) fun _ h => Bool.false_ne_true (htgt.symm.trans h.target))
  have ht' : Ticked { w with crcTab := packageCrcTab }
      { w with reads := w.reads + 1, crcTab := packageCrcTab, allocs := w.allocs + 1 } :=
    ⟨rfl, rfl, rfl, rfl, rfl, rfl, rfl⟩
  refine Meets.bind (Meets.of_done rfl (Meets.bind (Meets.require (fun _ => ?_) fun halloc =>
    hreject ht' (by decide) fun hsup =>
      absurd (halloc.symm.trans hsup.alloc) Bool.false_ne_true)))
  refine Meets.bind (Meets.mono (Meets.iterate_of_measure (μ := fun s => part.len + 1 - s.1)
    (I := fun s w' => Ticked { w with crcTab := packageCrcTab } w' ∧
      s.1 ≤ Head.comSize (headAt (r.view w.flash)) ∧
      (s.1 < Head.comSize (headAt (r.view w.flash)) → s.1 % fotaAlgoBuffSize = 0) ∧
      (s.1 ≠ 0 → sizeofHead + roundUp s.1 ≤ part.len) ∧
      s.2 = crc32 packageCrcTab 0xffffffff (slice (r.view w.flash) sizeofHead s.1))
    (E := fun e w' => Ticked { w with crcTab := packageCrcTab } w' ∧ e ≠ .noErr ∧
      ((∀ n, env.readOk n = true) → Head.comSize (headAt (r.view w.flash)) ≠ 0 ∧
        part.len < sizeofHead + roundUp (Head.comSize (headAt (r.view w.flash)))))
    (H := fun _ _ => False)
    (Q := fun crc w' => Ticked { w with crcTab := packageCrcTab } w' ∧
      (Head.comSize (headAt (r.view w.flash)) ≠ 0 →
        sizeofHead + roundUp (Head.comSize (headAt (r.view w.flash))) ≤ part.len) ∧
      crc = crc32 packageCrcTab 0xffffffff
        (slice (r.view w.flash) sizeofHead (Head.comSize (headAt (r.view w.flash)))))
    ?_ ⟨ht', Nat.zero_le _, fun _ => rfl, fun h => absurd rfl h, rfl⟩
    (by simp only [loopFuel]; omega)) ?_ ?_ fun _ _ h => h)
  · rintro s w' ⟨ht, hle, halign, hs, hcrc⟩
    refine (bodyStep_meets hr ht rfl hle halign hs hcrc).mono ?_ (fun _ _ h => h) fun _ _ h => h
    rintro (s' | crc) w'' ⟨ht, h⟩
    · obtain ⟨hlt, hlt', h⟩ := h
      exact ⟨⟨ht, h⟩, by omega⟩
    · obtain ⟨hend, rfl⟩ := h
      exact ⟨ht, hend ▸ hs, hend ▸ hcrc⟩
  · rintro crc w' ⟨ht, hbody, rfl⟩
    refine Meets.bind (Meets.require (fun hcode => ?_) fun hcode =>
      hreject ht (by decide) fun _ h => of_decide_eq_false hcode h.codeCrc)
    exact Meets.pure ⟨ht, r, rfl, rfl, hhead, of_decide_eq_true hcrc, htype, htgt, hbody,
      of_decide_eq_true hcode⟩
  · rintro e w' ⟨ht, he, h⟩
    refine hreject ht he fun hsup hacc => ?_
    obtain ⟨h0, hlt⟩ := h hsup.read
    exact absurd (hacc.body_le h0) (by omega)

/-- `fota_part_fw_verify` returns `FOTA_NO_ERR` only for a package, and keeps its header; otherwise
it clears the header, and a package is only rejected when an allocation or a read fails. -/
theorem fotaPartFwVerify_spec {name : List UInt8}
    (hpart : falPartitionFind env.toBoard name = some part) (w : World) :
    Meets (fotaPartFwVerify env (some name)) w
      (fun e w' => (∃ tab head, Ticked { w with crcTab := tab, rblFotaPartHead := head } w') ∧
        (e = .noErr → ∃ r, env.region part = some r ∧ w'.crcTab = packageCrcTab ∧
          w'.rblFotaPartHead = headAt (r.view w.flash) ∧
          PackageAccepted env.toBoard part.len (r.view w.flash)) ∧
        (e ≠ .noErr → w'.rblFotaPartHead = List.replicate sizeofHead 0 ∧
          ∀ r, env.region part = some r → env.Supplied w →
            ¬ PackageAccepted env.toBoard part.len (r.view w.flash)))
      (fun _ _ => False) (fun _ _ => False) := by
  unfold fotaPartFwVerify
  dsimp only [Option.bind_some]
  rw [hpart]
  refine Meets.bind (Meets.attempt ((fotaPartFwCheck_meets w).mono ?_ ?_ fun _ _ h => h))
  · rintro head w' ⟨ht, r, hr, rfl, hacc⟩
    refine Meets.bind (Meets.of_done (modify_apply _) (Meets.pure
      ⟨⟨packageCrcTab, headAt (r.view w.flash), ?_⟩, fun _ => ⟨r, hr, ht.crcTab, rfl, hacc⟩,
        fun h => absurd rfl h⟩))
    exact ⟨ht.flash, rfl, ht.crcTab, ht.ops, ht.log, ht.oob, ht.hashed⟩
  · rintro e w' ⟨⟨tab, ht⟩, he, hacc⟩
    refine Meets.bind (Meets.of_done (modify_apply _) (Meets.bind (Meets.pure (Meets.pure
      ⟨⟨tab, List.replicate sizeofHead 0, ?_⟩, fun h => absurd h he, fun _ => ⟨rfl, hacc⟩⟩))))
    exact ⟨ht.flash, rfl, ht.crcTab, ht.ops, ht.log, ht.oob, ht.hashed⟩

/-- A package passes when the allocation and the reads of the check succeed. -/
theorem fotaPartFwVerify_of_supplied {name : List UInt8}
    (hpart : falPartitionFind env.toBoard name = some part) (hr : env.region part = some r) {w : World}
    (hsup : env.Supplied w) (h : PackageAccepted env.toBoard part.len (r.view w.flash)) :
    ∃ w', fotaPartFwVerify env (some name) w = .done .noErr w' ∧ w'.crcTab = packageCrcTab ∧
      w'.rblFotaPartHead = headAt (r.view w.flash) ∧
      ∃ tab head, Ticked { w with crcTab := tab, rblFotaPartHead := head } w' := by
  have hspec := fotaPartFwVerify_spec hpart w
  obtain ⟨e, w', hrun, hspec⟩ := hspec.returns
  obtain ⟨ht, hok, hbad⟩ := hspec
  obtain rfl : e = .noErr := by
    by_contra he
    exact (hbad he).2 r hr hsup h
  obtain ⟨r', hr', htab, hhead, -⟩ := hok rfl
  obtain rfl := Option.some.inj (hr.symm.trans hr')
  exact ⟨w', hrun, htab, hhead, ht⟩

section reliable
variable (hrel : env.Reliable) {name : List UInt8}
  (hpart : falPartitionFind env.toBoard name = some part)
include hr hrel hpart

/-- When nothing fails, `fota_part_fw_verify` returns `FOTA_NO_ERR` exactly for a package. -/
theorem fotaPartFwVerify_meets (w : World) :
    Meets (fotaPartFwVerify env (some name)) w
      (fun e w' => (e = .noErr ↔ PackageAccepted env.toBoard part.len (r.view w.flash)) ∧
        (e = .noErr → w'.crcTab = packageCrcTab ∧
          w'.rblFotaPartHead = headAt (r.view w.flash)) ∧
        ∃ tab head, Ticked { w with crcTab := tab, rblFotaPartHead := head } w')
      (fun _ _ => False) (fun _ _ => False) := by
  refine (fotaPartFwVerify_spec hpart w).mono ?_ (fun _ _ h => h) fun _ _ h => h
  rintro e w' ⟨ht, hok, hbad⟩
  have hdone : e = .noErr → w'.crcTab = packageCrcTab ∧
      w'.rblFotaPartHead = headAt (r.view w.flash) ∧
      PackageAccepted env.toBoard part.len (r.view w.flash) := by
    intro he
    obtain ⟨r', hr', h⟩ := hok he
    obtain rfl := Option.some.inj (hr.symm.trans hr')
    exact h
  refine ⟨⟨fun he => (hdone he).2.2, fun hacc => ?_⟩, fun he => ⟨(hdone he).1, (hdone he).2.1⟩, ht⟩
  by_contra he
  exact (hbad he).2 r hr (hrel.supplied w) hacc

/-- A package passes. -/
theorem fotaPartFwVerify_of_accepted {w : World}
    (h : PackageAccepted env.toBoard part.len (r.view w.flash)) :
    ∃ w', fotaPartFwVerify env (some name) w = .done .noErr w' ∧ w'.crcTab = packageCrcTab ∧
      w'.rblFotaPartHead = headAt (r.view w.flash) ∧ w'.flash = w.flash ∧ w'.log = w.log ∧
      w'.ops = w.ops ∧ w'.oob = w.oob := by
  have hm := fotaPartFwVerify_meets hr hrel hpart w
  obtain ⟨e, w', hrun, hm⟩ := hm.returns
  obtain ⟨hiff, hkeep, tab, head, ht⟩ := hm
  obtain rfl := hiff.mpr h
  exact ⟨w', hrun, (hkeep rfl).1, (hkeep rfl).2, ht.flash, ht.log, ht.ops, ht.oob⟩

end reliable

end verify

end McuUtilities.Fota
