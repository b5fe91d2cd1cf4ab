import McuUtilities.Fota.Plain

/-!
# What the two checks decide

`fota_check_application` decides exactly whether the application partition holds a valid image.
`fota_part_fw_verify` decides exactly whether a partition holds a package, except that it reads the
body in whole chunks and refuses a package whose last chunk crosses the end of the partition. When
it fails it leaves no header behind, but its last log line names a partition that may not exist.
-/

namespace McuUtilities.Fota
open Prog

/-! ## The application check -/

/-- FNV-1a, 32 bits. -/
def fnv1a (bs : List UInt8) : UInt32 :=
  bs.foldl (fun hash b => (hash ^^^ b.toUInt32) * 16777619) 2166136261

theorem fotaCalcHashCode_eq_fnv1a {bs : List UInt8} : fotaCalcHashCode bs fnvSeed = fnv1a bs := by
  have hstep : (fun h b => fotaFnv1aR b h) = fun (hash : UInt32) b =>
      (hash ^^^ b.toUInt32) * 16777619 := by
    funext h b
    rw [fotaFnv1aR, UInt32.xor_comm]
  rw [fotaCalcHashCode, hstep]
  rfl

/-- `fota_check_application` returns, and accepts exactly the partitions with an image that fits and
has the hash in its header. -/
theorem fotaCheckApplication_exact {env : Env} (hrel : env.Reliable) {app : FalPartition}
    {r : Region} (happ : falPartitionFind env.toBoard fotaAppPartName = some app)
    (hr : env.region app = some r) (hlen : 0x200 ≤ app.len) (w : World) :
    ∃ e w', fotaCheckApplication env w = .done e w' ∧
      (e = .noErr ↔ 0x200 + Head.rawSize (headAt (r.view w.flash)) ≤ app.len ∧
        fnv1a (slice (r.view w.flash) 0x200 (Head.rawSize (headAt (r.view w.flash)))) =
          Head.hashVal (headAt (r.view w.flash))) := by
  have hoff : appHeaderLen = 0x200 := rfl
  have hsize : sizeofHead = 96 := rfl
  have hm := fotaCheckApplication_meets hrel happ hr w
  obtain ⟨e, w', hrun, hm⟩ := hm.returns
  refine ⟨e, w', hrun, hm.1.trans ⟨fun h => ⟨?_, ?_⟩, fun h => ⟨by omega, fun _ => ?_, ?_⟩⟩⟩
  · by_cases h0 : Head.rawSize (headAt (r.view w.flash)) = 0
    · omega
    · have := h.body_le h0
      omega
  · rw [← h.hash, ← fotaCalcHashCode_eq_fnv1a, bodyAt]
  · omega
  · rw [← h.2, ← fotaCalcHashCode_eq_fnv1a, bodyAt]

/-- Blank flash is not a valid image: its `raw_size` is far too large. -/
theorem fotaCheckApplication_exact_blank :
    let env := (sampleBoard [sampleFm, sampleApp] false).quietEnv
    ∃ e w', fotaCheckApplication env (World.boot fun _ _ => 0xFF) = .done e w' ∧ e ≠ .noErr := by
  intro env
  obtain ⟨e, w', hrun, hiff⟩ := fotaCheckApplication_exact (Board.quietEnv_reliable _)
    (show falPartitionFind env.toBoard fotaAppPartName = some sampleApp from rfl)
    (show env.region sampleApp = some ⟨0, 0x2000, 0x2000⟩ from rfl) (by decide)
    (World.boot fun _ _ => 0xFF)
  have hraw : Head.rawSize (headAt ((⟨0, 0x2000, 0x2000⟩ : Region).view
      (World.boot fun _ _ => 0xFF).flash)) = 0xFFFFFFFF := by decide +kernel
  refine ⟨e, w', hrun, fun he => ?_⟩
  have hle := (hiff.mp he).1
  rw [hraw] at hle
  exact absurd hle (by decide)

/-! ## The package check -/

/-- A partition of length `len` with contents `m` holds a package: a header with its checksum, the
type and a target that exists, and a body that fits and has its checksum. -/
structure PackageValid (b : Board) (len : Nat) (m : Nat → UInt8) : Prop where
  headCrc : standardCrc32 (slice m 0 92) = Head.headCrc (headAt m)
  type : slice m 0 4 = [0x52, 0x42, 0x4c, 0]
  target : ∃ p ∈ b.partitionTable, strcmpEq (Head.appPartName (headAt m)) p.name = true
  fits : sizeofHead + Head.comSize (headAt m) ≤ len
  codeCrc : standardCrc32 (slice m sizeofHead (Head.comSize (headAt m))) =
    Head.codeCrc (headAt m)

/-- The last chunk of the body ends in the partition. -/
def ChunksFit (len : Nat) (m : Nat → UInt8) : Prop :=
  Head.comSize (headAt m) ≠ 0 → sizeofHead + roundUp (Head.comSize (headAt m)) ≤ len

theorem strcmpEq_type {m : Nat → UInt8} : strcmpEq (Head.type (headAt m)) [0x52, 0x42, 0x4c] = true ↔
    slice m 0 4 = [0x52, 0x42, 0x4c, 0] := by
  have h : Head.type (headAt m) = m 0 :: m 1 :: m 2 :: m 3 :: slice m 4 92 := by
    rw [Head.type, List.drop_zero, headAt, show sizeofHead = 4 + 92 from rfl, slice_add]
    rfl
  have h4 : slice m 0 4 = [m 0, m 1, m 2, m 3] := rfl
  rw [h, h4, strcmpEq_cons (by decide), strcmpEq_cons (by decide), strcmpEq_cons (by decide)]
  simp only [strcmpEq, beq_iff_eq, List.cons.injEq, and_true]

theorem packageAccepted_iff {b : Board} {len : Nat} {m : Nat → UInt8} (hlen : 96 ≤ len) :
    PackageAccepted b len m ↔ PackageValid b len m ∧ ChunksFit len m := by
  have hsize : sizeofHead = 96 := rfl
  have hhead : (headAt m).take (sizeofHead - 4) = slice m 0 92 := take_slice
  have htarget : (falPartitionFind b (Head.appPartName (headAt m))).isSome = true ↔
      ∃ p ∈ b.partitionTable, strcmpEq (Head.appPartName (headAt m)) p.name = true :=
    List.find?_isSome
  constructor
  · intro h
    have h1 := h.headCrc
    have h2 := h.codeCrc
    rw [hhead, packageCrcTab, fotaCrc_eq_standardCrc32] at h1
    rw [packageCrcTab, fotaCrc_eq_standardCrc32] at h2
    refine ⟨⟨h1, strcmpEq_type.mp h.type, htarget.mp h.target, ?_, h2⟩, h.body_le⟩
    by_cases h0 : Head.comSize (headAt m) = 0
    · omega
    · have := h.body_le h0
      unfold roundUp at this
      omega
  · rintro ⟨h, hchunks⟩
    refine ⟨hlen, ?_, strcmpEq_type.mpr h.type, htarget.mpr h.target, hchunks, ?_⟩
    · rw [hhead, packageCrcTab, fotaCrc_eq_standardCrc32]
      exact h.headCrc
    · rw [packageCrcTab, fotaCrc_eq_standardCrc32]
      exact h.codeCrc

theorem fotaPartFwVerify_noErr_iff {env : Env} (hrel : env.Reliable) {name : List UInt8}
    {part : FalPartition} {r : Region} (hpart : falPartitionFind env.toBoard name = some part)
    (hr : env.region part = some r) {w : World} :
    (∃ w', fotaPartFwVerify env (some name) w = .done .noErr w') ↔
      PackageAccepted env.toBoard part.len (r.view w.flash) := by
  constructor
  · rintro ⟨w', hrun⟩
    exact ((fotaPartFwVerify_meets hr hrel hpart w).done hrun).1.mp rfl
  · intro h
    obtain ⟨w', hrun, -⟩ := fotaPartFwVerify_of_accepted hr hrel hpart h
    exact ⟨w', hrun⟩

/-- `fota_part_fw_verify` is exact if and only if the last chunk of the body ends in the partition
or the partition holds no package anyway. -/
theorem fotaPartFwVerify_exact_iff {env : Env} (hrel : env.Reliable) {name : List UInt8}
    {part : FalPartition} {r : Region} (hpart : falPartitionFind env.toBoard name = some part)
    (hr : env.region part = some r) (hlen : 96 ≤ part.len) (w : World) :
    ((∃ w', fotaPartFwVerify env (some name) w = .done .noErr w') ↔
        PackageValid env.toBoard part.len (r.view w.flash)) ↔
      (ChunksFit part.len (r.view w.flash) ∨
        ¬ PackageValid env.toBoard part.len (r.view w.flash)) := by
  rw [fotaPartFwVerify_noErr_iff hrel hpart hr, packageAccepted_iff hlen]
  constructor
  · intro h
    by_cases hvalid : PackageValid env.toBoard part.len (r.view w.flash)
    · exact .inl (h.mpr hvalid).2
    · exact .inr hvalid
  · rintro (hchunks | hvalid)
    · exact ⟨fun h => h.1, fun h => ⟨h, hchunks⟩⟩
    · exact ⟨fun h => h.1, fun h => absurd h hvalid⟩

/-- The sample image is a package of every partition it fits in. -/
theorem packageValid_sample {b : Board} {len : Nat} {t d : List UInt8}
    (htarget : (falPartitionFind b (Head.appPartName (sampleHead t d))).isSome = true)
    (hlen : 97 ≤ len) : PackageValid b len (sampleContents t d) := by
  have hacc := (packageAccepted_iff (by decide)).mp
    (@packageAccepted_sample t d b (96 + 4096) htarget (Nat.le_refl _))
  refine ⟨hacc.1.headCrc, hacc.1.type, hacc.1.target, ?_, hacc.1.codeCrc⟩
  rw [headAt_sampleContents, comSize_sampleHead]
  exact hlen

/-- In a partition of 8192 bytes the sample image is accepted. -/
theorem fotaPartFwVerify_exact_sample :
    let env := (sampleBoard [sampleFm, sampleApp] false).quietEnv
    ∃ w', fotaPartFwVerify env (some fotaFmPartName)
      (World.boot (sampleFlash fotaAppPartName [0x31])) = .done .noErr w' := by
  intro env
  have hview : (⟨0, 0, 0x2000⟩ : Region).view
      (World.boot (sampleFlash fotaAppPartName [0x31])).flash = _ := view_sampleFlash
  have hiff := (fotaPartFwVerify_exact_iff (Board.quietEnv_reliable _)
    (show falPartitionFind env.toBoard fotaFmPartName = some sampleFm from rfl)
    (show env.region sampleFm = some ⟨0, 0, 0x2000⟩ from rfl) (by decide)
    (World.boot (sampleFlash fotaAppPartName [0x31]))).mpr
  rw [hview] at hiff
  refine (hiff (.inl fun _ => ?_)).mpr (packageValid_sample ?_ (by decide))
  · rw [headAt_sampleContents, comSize_sampleHead]
    decide
  · decide +kernel

/-- In a partition of 97 bytes, just large enough for it, it is refused. -/
theorem not_fotaPartFwVerify_exact_short :
    let fm : FalPartition := ⟨fotaFmPartName, [0x66], 0, 97, by decide, by decide⟩
    let env := (sampleBoard [fm, sampleApp] false).quietEnv
    ¬ ((∃ w', fotaPartFwVerify env (some fotaFmPartName)
        (World.boot (sampleFlash fotaAppPartName [0x31])) = .done .noErr w') ↔
      PackageValid env.toBoard fm.len
        ((⟨0, 0, 97⟩ : Region).view (sampleFlash fotaAppPartName [0x31]))) := by
  intro fm env hiff
  rw [fotaPartFwVerify_noErr_iff (Board.quietEnv_reliable _)
    (show falPartitionFind env.toBoard fotaFmPartName = some fm from rfl)
    (show env.region fm = some ⟨0, 0, 97⟩ from rfl)] at hiff
  have hvalid : PackageValid env.toBoard fm.len
      ((⟨0, 0, 97⟩ : Region).view (sampleFlash fotaAppPartName [0x31])) := by
    rw [view_sampleFlash]
    exact packageValid_sample (by decide +kernel) (by decide)
  have hbody := (hiff.mpr hvalid).body_le
  have hview : (⟨0, 0, 97⟩ : Region).view
      (World.boot (sampleFlash fotaAppPartName [0x31])).flash = _ := view_sampleFlash
  rw [hview, headAt_sampleContents, comSize_sampleHead] at hbody
  exact absurd (hbody (by decide)) (by decide)

/-! ## How the package check fails -/

/-- `fota_part_fw_verify` returns; with an error it leaves a cleared header, without one the header
in flash; and it never reads through a NULL partition. -/
def FailsCleanly (env : Env) (name : Option (List UInt8)) (w : World) : Prop :=
  ∃ e w', fotaPartFwVerify env name w = .done e w' ∧
    (e ≠ .noErr → w'.rblFotaPartHead = List.replicate sizeofHead 0) ∧
    (e = .noErr → ∃ part r, name.bind (falPartitionFind env.toBoard) = some part ∧
      env.region part = some r ∧ w'.rblFotaPartHead = slice (r.view w.flash) 0 sizeofHead) ∧
    ∃ new, w'.log = w.log ++ new ∧ .derefNull ∉ new

theorem failsCleanly_of_found {env : Env} {name : List UInt8} {part : FalPartition}
    (hpart : falPartitionFind env.toBoard name = some part) (w : World) :
    FailsCleanly env (some name) w := by
  have hm := fotaPartFwVerify_spec hpart w
  obtain ⟨e, w', hrun, hm⟩ := hm.returns
  obtain ⟨⟨tab, head, ht⟩, hok, hbad⟩ := hm
  refine ⟨e, w', hrun, fun he => (hbad he).1, fun he => ?_, [], ?_, List.not_mem_nil⟩
  · obtain ⟨r, hr, -, hhead, -⟩ := hok he
    exact ⟨part, r, hpart, hr, hhead⟩
  · rw [List.append_nil]
    exact ht.log

/-- Whichever allocations and reads fail, `fota_part_fw_verify` fails cleanly if and only if its
argument is NULL or names a partition of the table. -/
theorem failsCleanly_iff (env : Env) (name : Option (List UInt8)) (w : World) :
    FailsCleanly env name w ↔
      ∀ n, name = some n → (falPartitionFind env.toBoard n).isSome = true := by
  cases name with
  | none =>
    refine iff_of_true ⟨.generalErr, _, rfl, fun _ => rfl, fun h => ?_, [], ?_,
      List.not_mem_nil⟩ fun n h => ?_
    · cases h
    · exact (List.append_nil _).symm
    · cases h
  | some name =>
    cases hpart : falPartitionFind env.toBoard name with
    | some part =>
      refine iff_of_true (failsCleanly_of_found hpart w) fun n hn => ?_
      cases hn
      rw [hpart]
      rfl
    | none =>
      refine iff_of_false ?_ fun h => ?_
      · have hrun : fotaPartFwVerify env (some name) w = .done .generalErr
            { w with rblFotaPartHead := List.replicate sizeofHead 0, log := w.log ++ [.derefNull] } := by
          simp only [fotaPartFwVerify, Option.bind_some, hpart]
          rfl
        rintro ⟨e, w', hrun', -, -, new, hlog, hnew⟩
        rw [hrun] at hrun'
        cases hrun'
        rw [← List.append_cancel_left hlog] at hnew
        exact hnew (List.mem_singleton_self _)
      · have := h name rfl
        rw [hpart] at this
        cases this

/-- A name that is not in the table. -/
theorem not_failsCleanly_unknown :
    ¬ FailsCleanly (sampleBoard [sampleFm] false).quietEnv (some fotaAppPartName)
      (World.boot fun _ _ => 0xFF) := by
  rintro ⟨e, w', hrun, -, -, new, hlog, hnew⟩
  have hdone : fotaPartFwVerify (sampleBoard [sampleFm] false).quietEnv (some fotaAppPartName)
      (World.boot fun _ _ => 0xFF) = .done .generalErr
        { World.boot fun _ _ => 0xFF with log := [.derefNull] } := rfl
  rw [hdone] at hrun
  cases hrun
  rw [show new = [.derefNull] from hlog.symm] at hnew
  exact hnew (List.mem_singleton_self _)

end McuUtilities.Fota
