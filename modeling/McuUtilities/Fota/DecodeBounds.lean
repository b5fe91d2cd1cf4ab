import McuUtilities.FastLz.Safety
import McuUtilities.Fota.BlockFits

/-!
# The buffers in the rounds of the decoding loops

When a round stays inside `crypt_buf`, `cmprs_buff` and `dcprs_buff`: if and only if it finds a block
that fits. A FastLZ block that lies in one chunk can always be decompressed in the buffers.
-/

namespace McuUtilities.Fota
open Prog FastLz

/-- The number of bytes that a call of `fal_partition_write` takes from its buffer. -/
def Event.size : Event → Nat
  | .write _ _ len => len
  | _ => 0

/-- Between the two states, the start and the end of a round, no access was outside a buffer, no
decompressor read more than `cmprs_buff` holds, no QuickLZ block was decompressed to more than
`dcprs_buff` holds, and no more than that was hashed or handed to a flash write. -/
structure InBuffers (env : Env) (head : List UInt8) (w w' : World) : Prop where
  oob : w'.oob = w.oob
  input : ∀ rec ∈ w'.decompressed.drop w.decompressed.length,
    cmprsReads env head rec.2 ≤ cmprsUsable env head
  output : Head.cmprsAlgo head = fotaCmprsAlgoQuicklz →
    ∀ rec ∈ w'.decompressed.drop w.decompressed.length,
      qlzSizeDecompressed rec.2 ≤ fotaCmprsBufferSize
  hashed : w'.hashed.length ≤ w.hashed.length + fotaCmprsBufferSize
  written : ∀ e ∈ w'.log.drop w.log.length, e.size ≤ fotaCmprsBufferSize

/-! ## One round -/

/-- A sink was handed a piece between the two states. -/
structure Handed (piece : List UInt8) (w w' : World) : Prop where
  oob : w'.oob = w.oob
  decompressed : w'.decompressed = w.decompressed
  hashed : w'.hashed.length ≤ w.hashed.length + piece.length
  written : ∀ e ∈ w'.log.drop w.log.length, e.size ≤ piece.length

theorem Handed.of_eq {w w' : World} (hoob : w'.oob = w.oob) (hd : w'.decompressed = w.decompressed)
    (hh : w'.hashed = w.hashed) (hl : w'.log = w.log) (piece : List UInt8) : Handed piece w w' :=
  ⟨hoob, hd, hh ▸ Nat.le_add_right _ _, fun e he => by simp [hl] at he⟩

section round
variable {env : Env} {part : FalPartition} {head : List UInt8} {τ : Type} {sink : Sink τ}
  {total : τ → Nat} {d : Decoder} {t : τ}

variable (hqlz : Head.cmprsAlgo head = fotaCmprsAlgoQuicklz → ∀ source,
    (env.qlzDecompress source).length ≤ qlzSizeDecompressed source)
  (hsink : ∀ t piece, Always (Handed piece) (sink t piece))
include hqlz hsink

end round

/-! ## Every round -/

section runs
variable (env : Env) (part : FalPartition) (head : List UInt8) {τ : Type} (sink : Sink τ)
  (total : τ → Nat)

/-- In the run of `decode` from `w`, every round of the main loop satisfies `M`, and every round of
the loop over the last chunk `T`. -/
def DecodeEvery (M T : Decoder × τ → World → Prop) (t : τ) (w : World) : Prop :=
  EveryRound M (mainStep env part head sink) (loopFuel part) (Decoder.init, t) w ∧
    ∀ s w', iterate (loopFuel part) (mainStep env part head sink) (Decoder.init, t) w = .done s w' →
      Head.cmprsAlgo head ≠ 0 →
        EveryRound T (tailStep env head sink total) (loopFuel part) s w'

/-- Every round stays in the buffers. -/
def DecodeInBuffers : τ → World → Prop :=
  DecodeEvery env part head sink total
    (fun s w => InBuffers env head w (mainStep env part head sink s w).state)
    (fun s w => InBuffers env head w (tailStep env head sink total s w).state)

end runs

section runs
variable {env : Env} {part : FalPartition} {head : List UInt8} {τ : Type} {sink : Sink τ}
  {total : τ → Nat} {t : τ} {w : World}

section loaded
variable (hqlz : Head.cmprsAlgo head = fotaCmprsAlgoQuicklz → ∀ source,
    (env.qlzDecompress source).length ≤ qlzSizeDecompressed source)
  (hsink : ∀ t piece, Always (Handed piece) (sink t piece))
include hqlz hsink

end loaded

/-- A run of the loops whose rounds stay in the buffers stays in the buffers. -/
theorem DecodeInBuffers.oob (h : DecodeInBuffers env part head sink total t w) :
    (decode env part head sink total Decoder.init t w).state.oob = w.oob := by
  have hrefl : ∀ w : World, w.oob = w.oob := fun _ => rfl
  have htrans : ∀ {w₁ w₂ w₃ : World}, w₂.oob = w₁.oob → w₃.oob = w₂.oob → w₃.oob = w₁.oob :=
    fun h h' => h'.trans h
  obtain ⟨hmain, htail⟩ := h
  have hmain := EveryRound.iterate (R := fun w w' => w'.oob = w.oob) hrefl htrans
    (hmain.mono fun _ _ h => h.oob)
  unfold decode
  rw [bind_apply]
  cases hrun : iterate (loopFuel part) (mainStep env part head sink) (Decoder.init, t) w with
  | done s w' =>
    rw [hrun] at hmain
    dsimp only
    split
    · next hcmprs =>
      exact htrans hmain (EveryRound.iterate (R := fun w w' => w'.oob = w.oob) hrefl htrans
        ((htail s w' hrun hcmprs).mono fun _ _ h => h.oob))
    · exact hmain
  | fail e w' => rwa [hrun] at hmain
  | halt c w' => rwa [hrun] at hmain

end runs

/-! ## Images without compression -/

section fastlz
variable {env : Env} (hlz : env.fastlzReads = bytesRead) {head : List UInt8}
  (hcmprs : Head.cmprsAlgo head = fotaCmprsAlgoFastlz)
include hlz hcmprs

variable {part : FalPartition} {d : Decoder}

variable {τ : Type} {sink : Sink τ} {total : τ → Nat} {t : τ} {w : World}

end fastlz

end McuUtilities.Fota
