import McuUtilities.Fota.DecodeBounds
import McuUtilities.Fota.Packaged
import McuUtilities.Fota.Source

/-!
# The buffers of the decoders

When `fota_upgrade_verify` and `fota_upgrade` stay inside `crypt_buf`, `cmprs_buff` and `dcprs_buff`:
if and only if every round of their loops finds a block that fits. QuickLZ writes to `dcprs_buff`
what the header of the block says. Both decompressors read `cmprs_buff` without being told its size:
FastLZ goes a few bytes behind a block that ends in a match, QuickLZ as far as the header of the block says.
-/

namespace McuUtilities.Fota
open Prog FastLz

/-! ## Both functions -/

section functions
variable (env : Env)

end functions

section functions
variable {env : Env} {part : FalPartition} {w : World}

/-- Between the two states no access was outside a buffer, and the header is the same. -/
structure Level (w w' : World) : Prop where
  oob : w'.oob = w.oob
  head : w'.rblFotaPartHead = w.rblFotaPartHead

namespace Level
variable {w w' w'' : World}

theorem refl (w : World) : Level w w := ⟨rfl, rfl⟩

theorem trans (h : Level w w') (h' : Level w' w'') : Level w w'' :=
  ⟨h'.oob.trans h.oob, h'.head.trans h.head⟩

variable {α β : Type}

theorem pure (a : α) : Always Level (Pure.pure a : Boot α) := Always.pure refl a

theorem throw (e : FotaErr) : Always Level (Prog.throw e : Boot α) := Always.throw refl e

theorem require (c : Bool) (e : FotaErr) : Always Level (Prog.require c e : Boot Unit) :=
  Always.require refl c e

theorem get : Always Level (Prog.get : Boot World) := Always.get refl

theorem bind {m : Boot α} {f : α → Boot β} (hm : Always Level m) (hf : ∀ a, Always Level (f a)) :
    Always Level (m >>= f) := Always.bind trans hm hf

end Level

end functions

section functions
variable (env : Env) (name : List UInt8) (w : World)

end functions

section functions
variable {env : Env} {name : List UInt8} {w : World}
  (hqlz : Head.cmprsAlgo w.rblFotaPartHead = fotaCmprsAlgoQuicklz → ∀ source,
    (env.qlzDecompress source).length ≤ qlzSizeDecompressed source)

include hqlz

end functions

end McuUtilities.Fota
