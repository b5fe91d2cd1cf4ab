import McuUtilities.Fota.RollbackCopy
import McuUtilities.Fota.Survival

/-!
# A copy is as good as its source

After a successful `fota_rollback_copy` the destination holds what the source starts with, and
nothing else. The check of `fota_check_application` reads the header and the body of an image
only, so over an image that fits into both partitions it does the same on either of them.
-/

namespace McuUtilities.Fota
open Prog

/-- `fota_check_application()` from the partition `part` it has found on. -/
def fotaCheckPart (env : Env) (part : FalPartition) : Boot FotaErr := exitCode do
  require (← malloc env) .noMemErr
  match ← falPartitionRead env part 0 sizeofHead with
  | none => throw .partReadErr
  | some head => do
    require (← malloc env) .noMemErr
    let hashCode ← iterate (loopFuel part) (checkStep env part (Head.rawSize head)) (0, fnvSeed)
    require (hashCode = Head.hashVal head) .fwVerifyFailed

theorem fotaCheckApplication_eq {env : Env} {part : FalPartition}
    (h : falPartitionFind env.toBoard fotaAppPartName = some part) :
    fotaCheckApplication env = fotaCheckPart env part := by
  rw [fotaCheckApplication, h]
  rfl

/-! ## The check on two partitions -/

theorem exitCode_congr_at {m m' : Boot Unit} {w : World} (h : m w = m' w) :
    exitCode m w = exitCode m' w := by
  refine bind_congr_at ?_ fun _ _ _ => rfl
  rw [attempt, attempt, h]

section check
variable {env : Env} {p q : FalPartition} {rp rq : Region} (hp : env.region p = some rp)
  (hq : env.region q = some rq) {k : Nat} {f : Flash} (hkp : k ≤ p.len) (hkq : k ≤ q.len)
  (hsame : slice (rp.view f) 0 k = slice (rq.view f) 0 k)
include hsame

/-- Two partitions that start with the same bytes are the same to a part of them. -/
theorem slice_eq_of_start {addr size : Nat} (h : addr + size ≤ k) :
    slice (rp.view f) addr size = slice (rq.view f) addr size := by
  refine slice_congr fun i hi => ?_
  have := eq_of_slice_eq hsame (i := addr + i) (by omega)
  rwa [Nat.zero_add] at this

include hp hq hkp hkq

/-- … and to a read. -/
theorem falPartitionRead_congr {addr size : Nat} (h : addr + size ≤ k) {w : World}
    (hf : w.flash = f) : falPartitionRead env p addr size w = falPartitionRead env q addr size w := by
  rw [falPartitionRead_eq hp (by omega), falPartitionRead_eq hq (by omega), hf,
    slice_eq_of_start hsame h]

/-- … and to one round of the check of an image in them. -/
theorem checkStep_congr {rawSize : Nat} (hraw : appHeaderLen + rawSize ≤ k) (s : Nat × UInt32)
    {w : World} (hf : w.flash = f) : checkStep env p rawSize s w = checkStep env q rawSize s w := by
  have hbound := p.bound
  have hbuff : fotaAlgoBuffSize = 4096 := rfl
  have hoff : appHeaderLen = 512 := rfl
  unfold checkStep
  split
  · next hlt =>
    refine bind_congr_at (falPartitionRead_congr hp hq hkp hkq hsame ?_ hf) fun _ _ _ => rfl
    simp only [u32]
    split <;> omega
  · rfl

omit hq hkp hkq hsame hp in
/-- A round of the check leaves flash alone and moves on. -/
theorem checkStep_next {rawSize : Nat} (hraw : rawSize ≤ 2 ^ 31) {s s' : Nat × UInt32}
    {w w' : World} (hf : w.flash = f) (h : checkStep env p rawSize s w = .done (.inl s') w') :
    w'.flash = f ∧ rawSize + 4095 - s'.1 < rawSize + 4095 - s.1 := by
  have hbuff : fotaAlgoBuffSize = 4096 := rfl
  unfold checkStep at h
  split at h
  · next hlt =>
    obtain ⟨buf, w₁, hread, h⟩ := bind_eq_done h
    cases buf with
    | none => cases h
    | some buf =>
      obtain ⟨hash, w₂, hhash, h⟩ := bind_eq_done h
      simp only [pure_apply, Outcome.done.injEq, Sum.inl.injEq] at h
      obtain ⟨rfl, rfl⟩ := h
      refine ⟨(hashBytes_quiet.of_done hhash).flash.trans
        ((falPartitionRead_quiet.of_done hread).flash.trans hf), ?_⟩
      simp only [u32]
      omega
  · cases h

/-- The check does the same on two partitions that start with the same image. -/
theorem fotaCheckPart_congr (hraw : appHeaderLen + Head.rawSize (headAt (rp.view f)) ≤ k)
    {w : World} (hf : w.flash = f) : fotaCheckPart env p w = fotaCheckPart env q w := by
  have hbound := p.bound
  have hsize : sizeofHead = 96 := rfl
  have hoff : appHeaderLen = 512 := rfl
  have hbuff : fotaAlgoBuffSize = 4096 := rfl
  have hraw' : Head.rawSize (headAt (rp.view f)) ≤ 2 ^ 31 := by omega
  refine exitCode_congr_at (bind_congr_at rfl fun ok w₁ h₁ => bind_congr_at rfl fun _ w₂ h₂ => ?_)
  have hf₂ : w₂.flash = f := ((Quiet.require _ _).of_done h₂).flash.trans
    ((malloc_quiet.of_done h₁).flash.trans hf)
  refine bind_congr_at (falPartitionRead_congr hp hq hkp hkq hsame (by omega) hf₂)
    fun head w₃ h₃ => ?_
  have hf₃ : w₃.flash = f := (falPartitionRead_quiet.of_done h₃).flash.trans hf₂
  cases head with
  | none => rfl
  | some head =>
    have hhead : head = headAt (rp.view f) := by
      rw [falPartitionRead_eq hp (by omega), hf₂] at h₃
      cases hok : env.readOk w₂.reads <;> rw [hok] at h₃ <;> cases h₃
      rfl
    subst hhead
    refine bind_congr_at rfl fun ok w₄ h₄ => bind_congr_at rfl fun _ w₅ h₅ => ?_
    have hf₅ : w₅.flash = f := ((Quiet.require _ _).of_done h₅).flash.trans
      ((malloc_quiet.of_done h₄).flash.trans hf₃)
    refine bind_congr_at (iterate_congr_at (I := fun _ w => w.flash = f)
      (fun s => Head.rawSize (headAt (rp.view f)) + 4095 - s.1)
      (fun s _ h => checkStep_congr hp hq hkp hkq hsame hraw s h)
      (fun s _ h s' _ hrun => checkStep_next hraw' h hrun) hf₅ ?_ ?_) fun _ _ _ => rfl
    · simp only [loopFuel]
      omega
    · simp only [loopFuel]
      omega

end check

/-! ## The copy -/

/-- After a copy that succeeded the destination starts with what the source starts with, the rest of
it is erased, nothing else has changed, and the check of an image that fits into both partitions
does the same on either of them. -/
theorem fotaRollbackCopy_faithful {env : Env} {dest source : FalPartition} {rd rs : Region}
    {destName sourceName : List UInt8}
    (hdest : falPartitionFind env.toBoard destName = some dest)
    (hsource : falPartitionFind env.toBoard sourceName = some source)
    (hrd : env.region dest = some rd) (hrs : env.region source = some rs) (hdis : rs.Disjoint rd)
    {w w' : World} (hrun : fotaRollbackCopy env destName sourceName w = .done .noErr w') :
    let m := min dest.len source.len
    slice (rd.view w'.flash) 0 m = slice (rs.view w'.flash) 0 m ∧
      (∀ a, m ≤ a → a < dest.len → rd.view w'.flash a = 0xFF) ∧
      (∀ r : Region, r.Disjoint rd → r.Agree w.flash w'.flash) ∧
      (appHeaderLen + Head.rawSize (headAt (rs.view w.flash)) ≤ m →
        ∀ env' v, env'.toBoard = env.toBoard → v.flash = w'.flash →
          fotaCheckPart env' dest v = fotaCheckPart env' source v) := by
  intro m
  have hm : m = min source.len dest.len := Nat.min_comm _ _
  obtain ⟨-, -, hlen⟩ := Board.region_eq hrd
  obtain ⟨-, -, hlen'⟩ := Board.region_eq hrs
  obtain ⟨hc, hcopied, -⟩ := (fotaRollbackCopy_spec hrd hrs hdis hdest hsource w).done hrun
  obtain ⟨hslice, herased⟩ := hcopied rfl
  rw [← hm] at hslice herased
  have hkeep : ∀ off n, off + n ≤ source.len →
      slice (rs.view w'.flash) off n = slice (rs.view w.flash) off n :=
    fun off n hn => ((hc.agree hdis).slice (by omega)).symm
  have hsame : slice (rd.view w'.flash) 0 m = slice (rs.view w'.flash) 0 m := by
    rw [hslice, hkeep 0 m (by omega)]
  refine ⟨hsame, fun a ha ha' => herased a ha (by omega), fun r hr => hc.agree hr, ?_⟩
  intro hfits env' v hboard hv
  have hsize : sizeofHead = 96 := rfl
  have hoff : appHeaderLen = 512 := rfl
  have hhead : headAt (rs.view w'.flash) = headAt (rs.view w.flash) := hkeep 0 sizeofHead (by omega)
  refine (fotaCheckPart_congr (k := m) ?_ ?_ (by omega) (by omega) hsame.symm ?_ hv).symm
  · rw [hboard]
    exact hrs
  · rw [hboard]
    exact hrd
  · rw [hhead]
    exact hfits

/-- Nothing else makes a copy fail than the board. -/
theorem fotaRollbackCopy_succeeds {env : Env} (hrel : env.Reliable) (hunc : env.Uncut)
    {dest source : FalPartition} {rd rs : Region} (hrd : env.region dest = some rd)
    (hrs : env.region source = some rs) (hdis : rs.Disjoint rd) {destName sourceName : List UInt8}
    (hdest : falPartitionFind env.toBoard destName = some dest)
    (hsource : falPartitionFind env.toBoard sourceName = some source) (w : World) :
    ∃ w', fotaRollbackCopy env destName sourceName w = .done .noErr w' := by
  obtain ⟨e, w', hrun, -, -, he⟩ := ((fotaRollbackCopy_spec hrd hrs hdis hdest hsource w).mono
    (fun _ _ h => h) (fun _ _ h => h) fun _ _ h => hunc.not_cutShort h).returns
  obtain rfl := he hrel hunc.unfailing
  exact ⟨w', hrun⟩

/-- A copy of the download partition, with an image of one byte, over a smaller partition. -/
theorem fotaRollbackCopy_faithful_sample :
    let env := sampleLenEnv 0x1800 (by decide)
    let dest := sampleLenApp 0x1800 (by decide)
    ∃ w', fotaRollbackCopy env fotaAppPartName fotaFmPartName (World.boot sampleOldFlash) =
        .done .noErr w' ∧
      slice ((⟨0, 0x2000, 0x1800⟩ : Region).view w'.flash) 0 0x1800 =
        slice ((⟨0, 0, 0x2000⟩ : Region).view w'.flash) 0 0x1800 ∧
      ∀ v, v.flash = w'.flash → fotaCheckPart env dest v = fotaCheckPart env sampleFm v := by
  intro env dest
  have hrd : env.region dest = some ⟨0, 0x2000, 0x1800⟩ := region_sampleLenApp
  have hrs : env.region sampleFm = some ⟨0, 0, 0x2000⟩ := region_sampleLenFm
  have hdest : falPartitionFind env.toBoard fotaAppPartName = some dest := sampleLenEnv_app
  have hsource : falPartitionFind env.toBoard fotaFmPartName = some sampleFm := sampleLenEnv_fm
  obtain ⟨w', hrun⟩ := fotaRollbackCopy_succeeds (Board.quietEnv_reliable _) (fun _ => rfl) hrd hrs
    sampleLen_disjoint hdest hsource (World.boot sampleOldFlash)
  have hhead : headAt ((⟨0, 0, 0x2000⟩ : Region).view sampleOldFlash) =
      sampleHead fotaAppPartName [0x31] := by
    rw [headAt, ← sampleOldFlash_agree.slice (by decide), view_sampleFlash]
    exact headAt_sampleContents
  obtain ⟨hsame, -, -, hcheck⟩ := fotaRollbackCopy_faithful hdest hsource hrd hrs
    sampleLen_disjoint hrun
  refine ⟨w', hrun, hsame, fun v hv => hcheck ?_ env v rfl hv⟩
  have hflash : (World.boot sampleOldFlash).flash = sampleOldFlash := rfl
  rw [hflash, hhead, rawSize_sampleHead]
  decide

end McuUtilities.Fota
