import McuUtilities.Fota.Frame

/-!
# Valid images

An image in a partition is valid when the hash of its `raw_size` bytes is the one in the header at
the start of the partition; that is what `fota_check_application` tests.
-/

namespace McuUtilities.Fota
open Prog

/-- The image header at the start of a partition with contents `m`. -/
def headAt (m : Nat → UInt8) : List UInt8 := slice m 0 sizeofHead

theorem field_headAt {m : Nat → UInt8} {off n : Nat} (h : off + n ≤ sizeofHead) :
    Head.field (headAt m) off n = slice m off n := by
  rw [Head.field, headAt, take_drop_slice h, Nat.zero_add]

/-- The bytes of the image behind that header. -/
def bodyAt (m : Nat → UInt8) : List UInt8 := slice m appHeaderLen (Head.rawSize (headAt m))

/-- A partition of length `len` with contents `m` holds a valid image. -/
structure ImageValid (len : Nat) (m : Nat → UInt8) : Prop where
  head_le : sizeofHead ≤ len
  body_le : Head.rawSize (headAt m) ≠ 0 → appHeaderLen + Head.rawSize (headAt m) ≤ len
  hash : fotaCalcHashCode (bodyAt m) fnvSeed = Head.hashVal (headAt m)

instance (len : Nat) (m : Nat → UInt8) : Decidable (ImageValid len m) :=
  decidable_of_iff (sizeofHead ≤ len ∧
      (Head.rawSize (headAt m) ≠ 0 → appHeaderLen + Head.rawSize (headAt m) ≤ len) ∧
      fotaCalcHashCode (bodyAt m) fnvSeed = Head.hashVal (headAt m))
    ⟨fun h => ⟨h.1, h.2.1, h.2.2⟩, fun h => ⟨h.head_le, h.body_le, h.hash⟩⟩

/-- An empty image is valid with the start value of the hash. -/
theorem ImageValid.of_empty {len : Nat} {m : Nat → UInt8} (hlen : sizeofHead ≤ len)
    (hraw : Head.rawSize (headAt m) = 0) (hhash : Head.hashVal (headAt m) = fnvSeed) :
    ImageValid len m := by
  refine ⟨hlen, fun h0 => absurd hraw h0, ?_⟩
  rw [bodyAt, hraw, slice_zero, hhash]
  rfl

/-- Only the header and the body matter. -/
theorem ImageValid.congr {len len' : Nat} {m m' : Nat → UInt8} (h : ImageValid len m)
    (hhead : headAt m' = headAt m) (hbody : bodyAt m' = bodyAt m) (hlen : sizeofHead ≤ len')
    (hle : Head.rawSize (headAt m) ≠ 0 → appHeaderLen + Head.rawSize (headAt m) ≤ len') :
    ImageValid len' m' :=
  ⟨hlen, hhead ▸ hle, by rw [hbody, hhead]; exact h.hash⟩

/-- An image is one of the partition's contents only. -/
theorem ImageValid.agree {r : Region} {f g : Flash} (h : ImageValid r.len (r.view f))
    (hag : r.Agree f g) : ImageValid r.len (r.view g) := by
  have hle := h.head_le
  have hhead : headAt (r.view g) = headAt (r.view f) := (hag.slice (by omega)).symm
  refine h.congr hhead ?_ h.head_le h.body_le
  unfold bodyAt
  rw [hhead]
  by_cases h0 : Head.rawSize (headAt (r.view f)) = 0
  · rw [h0, slice_zero, slice_zero]
  · exact (hag.slice (h.body_le h0)).symm

theorem ImageValid.agree_partition {b : Board} {part : FalPartition} {r : Region} {f g : Flash}
    (hr : b.region part = some r) (h : ImageValid part.len (r.view f)) (hag : r.Agree f g) :
    ImageValid part.len (r.view g) := by
  obtain ⟨-, -, hlen⟩ := Board.region_eq hr
  rw [← hlen] at h ⊢
  exact h.agree hag

theorem meets_exitCode {m : Boot Unit} {w : World} {Q : FotaErr → World → Prop}
    {E : FotaErr → World → Prop} {H : Halt → World → Prop}
    (h : Meets m w (fun _ => Q .noErr) Q H) : Meets (exitCode m) w Q E H := by
  refine Meets.bind (Meets.attempt (h.mono (fun _ _ hq => ?_) (fun _ _ he => ?_) fun _ _ hh => hh))
  · exact Meets.pure hq
  · exact Meets.pure he

section check
variable {env : Env} (hrel : env.Reliable) {app : FalPartition} {r : Region}
  (happ : falPartitionFind env.toBoard fotaAppPartName = some app) (hr : env.region app = some r)
include hrel hr

/-- One round of the loop of `fota_check_application` reads the next piece of the body, or is
refused because the body does not fit. -/
theorem checkStep_meets {rawSize : Nat} {f : Flash} {s : Nat × UInt32} {w : World}
    (hf : w.flash = f) (hs : s.1 ≠ 0 → appHeaderLen + min s.1 rawSize ≤ app.len)
    (hhash : s.2 = fotaCalcHashCode (slice (r.view f) appHeaderLen (min s.1 rawSize)) fnvSeed) :
    Meets (checkStep env app rawSize s) w
      (fun r' w' => w'.flash = f ∧ match r' with
        | .inl s' => s.1 < app.len ∧ s'.1 = s.1 + fotaAlgoBuffSize ∧
            (s'.1 ≠ 0 → appHeaderLen + min s'.1 rawSize ≤ app.len) ∧
            s'.2 = fotaCalcHashCode (slice (r.view f) appHeaderLen (min s'.1 rawSize)) fnvSeed
        | .inr hash => (rawSize ≠ 0 → appHeaderLen + rawSize ≤ app.len) ∧
            hash = fotaCalcHashCode (slice (r.view f) appHeaderLen rawSize) fnvSeed)
      (fun e _ => e ≠ .noErr ∧ rawSize ≠ 0 ∧ app.len < appHeaderLen + rawSize)
      (fun _ _ => False) := by
  have hbound := app.bound
  have hbuff : fotaAlgoBuffSize = 4096 := rfl
  have hoff : appHeaderLen = 512 := rfl
  have hsmall : s.1 < rawSize → s.1 ≤ 2 ^ 31 := by
    intro hlt
    by_cases h0 : s.1 = 0
    · omega
    · have := hs h0
      omega
  unfold checkStep
  split
  · next hlt =>
    have hle := hsmall hlt
    have hlen : (if rawSize < u32 (s.1 + fotaAlgoBuffSize) then rawSize - s.1
        else fotaAlgoBuffSize) = min fotaAlgoBuffSize (rawSize - s.1) := by
      simp only [u32]
      split <;> omega
    have haddr : u32 (s.1 + appHeaderLen) = appHeaderLen + s.1 := by
      simp only [u32]
      omega
    dsimp only
    rw [hlen, haddr]
    by_cases hin : appHeaderLen + s.1 + min fotaAlgoBuffSize (rawSize - s.1) ≤ app.len
    · refine Meets.bind (Meets.of_done (falPartitionRead_reliable hr hrel hin) ?_)
      refine Meets.bind (Meets.of_done rfl (Meets.pure ?_))
      have hnext : u32 (s.1 + fotaAlgoBuffSize) = s.1 + fotaAlgoBuffSize := by
        simp only [u32]
        omega
      have hsum : min (s.1 + fotaAlgoBuffSize) rawSize =
          min s.1 rawSize + min fotaAlgoBuffSize (rawSize - s.1) := by omega
      have hmin : appHeaderLen + s.1 = appHeaderLen + min s.1 rawSize := by omega
      refine ⟨hf, by omega, hnext, fun _ => ?_, ?_⟩
      · rw [hnext]
        omega
      · rw [hnext, hsum, slice_add, fotaCalcHashCode_append, ← hhash, hf, hmin]
    · refine Meets.bind (Meets.of_done (falPartitionRead_out (by omega) (by omega)) ?_)
      exact Meets.throw ⟨by decide, by omega, by omega⟩
  · next hge =>
    have hmin : min s.1 rawSize = rawSize := by omega
    refine Meets.pure ⟨hf, fun h0 => ?_, ?_⟩
    · have := hs (by omega)
      omega
    · rw [hhash, hmin]

include happ

/-- `fota_check_application` returns `FOTA_NO_ERR` exactly when the application partition holds a
valid image. -/
theorem fotaCheckApplication_meets (w : World) :
    Meets (fotaCheckApplication env) w
      (fun e w' => (e = .noErr ↔ ImageValid app.len (r.view w.flash)) ∧ Quiet w w')
      (fun _ _ => False) (fun _ _ => False) := by
  have hbuff : fotaAlgoBuffSize = 4096 := rfl
  have hsize : sizeofHead = 96 := rfl
  have hbound := app.bound
  have h : Meets (fotaCheckApplication env) w
      (fun e _ => e = .noErr ↔ ImageValid app.len (r.view w.flash))
      (fun _ _ => False) (fun _ _ => False) := by
    refine meets_exitCode ?_
    simp only [happ]
    refine Meets.bind (Meets.of_done (malloc_reliable hrel) (Meets.bind (Meets.pure ?_)))
    by_cases hhead : sizeofHead ≤ app.len
    · refine Meets.bind (Meets.of_done (falPartitionRead_reliable hr hrel (by omega)) ?_)
      refine Meets.bind (Meets.of_done (malloc_reliable hrel) (Meets.bind (Meets.pure ?_)))
      refine Meets.bind (Meets.mono (Meets.iterate_of_measure (μ := fun s => app.len + 4095 - s.1)
        (I := fun s w' => w'.flash = w.flash ∧
          (s.1 ≠ 0 → appHeaderLen + min s.1 (Head.rawSize (headAt (r.view w.flash))) ≤ app.len) ∧
          s.2 = fotaCalcHashCode (slice (r.view w.flash) appHeaderLen
            (min s.1 (Head.rawSize (headAt (r.view w.flash))))) fnvSeed)
        (E := fun e _ => e ≠ .noErr ∧ Head.rawSize (headAt (r.view w.flash)) ≠ 0 ∧
          app.len < appHeaderLen + Head.rawSize (headAt (r.view w.flash)))
        (H := fun _ _ => False)
        (Q := fun hash _ => (Head.rawSize (headAt (r.view w.flash)) ≠ 0 →
          appHeaderLen + Head.rawSize (headAt (r.view w.flash)) ≤ app.len) ∧
          hash = fotaCalcHashCode (bodyAt (r.view w.flash)) fnvSeed) ?_ ⟨rfl, fun h => absurd rfl h, ?_⟩
        (by simp only [loopFuel]; omega)) ?_ ?_ fun _ _ h => h)
      · rintro s w' ⟨hf, hs, hhash⟩
        refine (checkStep_meets hrel hr hf hs hhash).mono ?_ (fun _ _ h => h) fun _ _ h => h
        rintro (s' | hash) w'' ⟨hf', h⟩
        · obtain ⟨hlt, hs', hle, hh⟩ := h
          exact ⟨⟨hf', hle, hh⟩, by omega⟩
        · exact h
      · simp only [Nat.zero_min, slice_zero]
        rfl
      · rintro hash w' ⟨hle, rfl⟩
        refine Meets.require (fun hc => ?_) fun hc => ?_
        · exact iff_of_true trivial ⟨hhead, hle, of_decide_eq_true hc⟩
        · exact iff_of_false (by decide) fun hv => of_decide_eq_false hc hv.hash
      · rintro e w' ⟨he, h0, hlt⟩
        exact iff_of_false he fun hv => absurd (hv.body_le h0) (by omega)
    · refine Meets.bind (Meets.of_done (falPartitionRead_out (by omega) (by omega)) ?_)
      exact Meets.throw (iff_of_false (by decide) fun hv => hhead hv.head_le)
  exact (h.and_always fotaCheckApplication_quiet).mono (fun _ _ h => h) (fun _ _ h => h.1)
    fun _ _ h => h.1

/-- A valid image passes. -/
theorem fotaCheckApplication_of_valid {w : World} (h : ImageValid app.len (r.view w.flash)) :
    ∃ w', fotaCheckApplication env w = .done .noErr w' := by
  have hm := fotaCheckApplication_meets hrel happ hr w
  obtain ⟨e, w', hrun, hm⟩ := hm.returns
  obtain rfl := hm.1.mpr h
  exact ⟨w', hrun⟩

end check

end McuUtilities.Fota
