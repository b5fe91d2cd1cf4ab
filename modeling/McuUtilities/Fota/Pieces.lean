import McuUtilities.Fota.Lockstep

/-!
# The pieces an image decodes to

`decodedPieces` is what the decoder hands to its sink, as a function of the partition's contents.
`fota_upgrade_verify` accepts an image, without an access outside a buffer, exactly when the bytes
of these pieces are long enough and hash to `hash_val`.
-/

namespace McuUtilities.Fota
open Prog

/-! ## What is hashed -/

/-- The part of a piece that `fota_upgrade_verify` hashes after `total` bytes. -/
def cutPiece (rawSize total : Nat) (piece : List UInt8) : List UInt8 :=
  piece.take (if rawSize < u32 (total + piece.length) then rawSize - total else piece.length)

/-- `total_copy_size` and `hash_code` after one more piece. -/
def verifyPiece (rawSize : Nat) (t : VerifyState) (piece : List UInt8) : VerifyState where
  totalCopySize := u32 (t.totalCopySize +
    if rawSize < u32 (t.totalCopySize + piece.length) then rawSize - t.totalCopySize
    else piece.length)
  hashCode := fotaCalcHashCode (cutPiece rawSize t.totalCopySize piece) t.hashCode

/-- `total_copy_size` and `hash_code` after the pieces, and the bytes that were hashed. -/
def verifyPieces (rawSize : Nat) (ps : List (List UInt8)) : VerifyState × List UInt8 :=
  ps.foldl (fun s piece => (verifyPiece rawSize s.1 piece,
    s.2 ++ cutPiece rawSize s.1.totalCopySize piece)) (⟨0, fnvSeed⟩, [])

theorem verifyPieces_concat {rawSize : Nat} {ps : List (List UInt8)} {piece : List UInt8} :
    verifyPieces rawSize (ps ++ [piece]) =
      (verifyPiece rawSize (verifyPieces rawSize ps).1 piece, (verifyPieces rawSize ps).2 ++
        cutPiece rawSize (verifyPieces rawSize ps).1.totalCopySize piece) := by
  simp only [verifyPieces, List.foldl_append, List.foldl_cons, List.foldl_nil]

/-- One more piece after the bytes `done`: as long as the count does not wrap, the hash is that of the
first `raw_size` bytes. -/
theorem verifyPiece_eq {rawSize : Nat} {done piece : List UInt8}
    (h : min done.length rawSize + piece.length < 2 ^ 32) :
    verifyPiece rawSize ⟨min done.length rawSize, fotaCalcHashCode (done.take rawSize) fnvSeed⟩ piece =
        ⟨min (done ++ piece).length rawSize,
          fotaCalcHashCode ((done ++ piece).take rawSize) fnvSeed⟩ ∧
      done.take rawSize ++ cutPiece rawSize (min done.length rawSize) piece =
        (done ++ piece).take rawSize := by
  have hmod : u32 (min done.length rawSize + piece.length) = min done.length rawSize + piece.length :=
    Nat.mod_eq_of_lt h
  have hcut : cutPiece rawSize (min done.length rawSize) piece =
      piece.take (rawSize - done.length) := by
    unfold cutPiece
    rw [hmod]
    split
    · congr 1
      omega
    · rw [List.take_length, List.take_of_length_le (by omega)]
  have htotal : u32 (min done.length rawSize +
      if rawSize < u32 (min done.length rawSize + piece.length) then
        rawSize - min done.length rawSize else piece.length) =
      min (done.length + piece.length) rawSize := by
    rw [hmod]
    simp only [u32]
    split <;> omega
  simp only [verifyPiece, hcut, htotal, List.take_append, fotaCalcHashCode_append, List.length_append,
    and_self]

/-- When the count wraps, all of the piece is hashed. -/
theorem cutPiece_of_wrap {rawSize total : Nat} {piece : List UInt8} (hraw : rawSize < 2 ^ 32)
    (htotal : total ≤ rawSize) (hlen : piece.length ≤ fotaAlgoBuffSize)
    (hwrap : 2 ^ 32 ≤ total + piece.length) : cutPiece rawSize total piece = piece := by
  have hbuff : fotaAlgoBuffSize = 4096 := rfl
  have hmod : ¬ rawSize < u32 (total + piece.length) := by
    simp only [u32]
    omega
  rw [cutPiece, if_neg hmod, List.take_length]

/-- As long as the count does not wrap, exactly the first `raw_size` bytes are hashed. -/
theorem verifyPieces_eq {rawSize : Nat} {ps : List (List UInt8)}
    (h : ps.flatten.length < 2 ^ 32) :
    verifyPieces rawSize ps = (⟨min ps.flatten.length rawSize,
      fotaCalcHashCode (ps.flatten.take rawSize) fnvSeed⟩, ps.flatten.take rawSize) := by
  induction ps using List.reverseRecOn with
  | nil => simp [verifyPieces, fotaCalcHashCode]
  | append_singleton ps piece ih =>
    simp only [List.flatten_append, List.flatten_cons, List.flatten_nil, List.append_nil,
      List.length_append] at h ⊢
    obtain ⟨hstate, hhashed⟩ := @verifyPiece_eq rawSize ps.flatten piece (by omega)
    rw [verifyPieces_concat, ih (by omega)]
    dsimp only
    rw [hstate, hhashed, List.length_append]

theorem verifySink_eq {rawSize : Nat} {t : VerifyState} {piece : List UInt8} {w : World} :
    verifySink rawSize t piece w = .done (verifyPiece rawSize t piece)
      { w with hashed := w.hashed ++ cutPiece rawSize t.totalCopySize piece } := rfl

/-! ## The pieces -/

/-- The boot in which nothing fails and reads past a buffer see zeros. -/
def Board.quietEnv (b : Board) : Env where
  toBoard := b
  allocOk := fun _ => true
  readOk := fun _ => true
  fate := fun _ => .done
  tear := fun _ _ f => f
  tear_confined := fun _ _ _ _ _ _ => rfl
  stray := fun _ _ => 0
  fotaRollbackCheck := 1

theorem Board.quietEnv_reliable (b : Board) : b.quietEnv.Reliable := ⟨fun _ => rfl, fun _ => rfl⟩

/-- Collects the pieces; the bytes among them are also recorded in the state. -/
def collectSink : Sink (List (List UInt8)) := fun ps piece => do
  modify fun w => { w with hashed := w.hashed ++ piece }
  pure (ps ++ [piece])

/-- The run that collects the pieces of an image. -/
def collect (b : Board) (part : FalPartition) (head : List UInt8) : Boot (List (List UInt8)) :=
  decode b.quietEnv part head collectSink
    (fun ps => (verifyPieces (Head.rawSize head) ps).1.totalCopySize) Decoder.init []

/-- The pieces an image decodes to; none when it is malformed, or the decoder reads past the end of
a buffer. -/
def decodedPieces (b : Board) (part : FalPartition) (head : List UInt8) (f : Flash) :
    Option (List (List UInt8)) :=
  match collect b part head (World.boot f) with
  | .done ps w => if w.oob = 0 then some ps else none
  | _ => none

theorem collectSink_quiet (ps : List (List UInt8)) (piece : List UInt8) :
    Always Quiet (collectSink ps piece) :=
  fun _ => ⟨rfl, rfl, rfl, rfl, rfl, Nat.le_refl _, List.prefix_rfl, List.prefix_append _ _⟩

theorem decodedPieces_eq_some {b : Board} {part : FalPartition} {head : List UInt8} {f : Flash}
    {ps : List (List UInt8)} : decodedPieces b part head f = some ps ↔
      ∃ w, collect b part head (World.boot f) = .done ps w ∧ w.oob = 0 := by
  unfold decodedPieces
  constructor
  · intro h
    split at h
    · next ps' w hw =>
      split at h
      · next hoob =>
        cases h
        exact ⟨w, hw, hoob⟩
      · cases h
    · cases h
  · rintro ⟨w, hw, hoob⟩
    simp only [hw, if_pos hoob]

theorem Decoder.sane_init (part : FalPartition) : Decoder.init.Sane part :=
  ⟨Nat.zero_le _, rfl, Nat.zero_le _⟩

/-- The run that collects the pieces records their bytes. -/
theorem hashed_of_collect {b : Board} {part : FalPartition} {r : Region} {head : List UInt8}
    {f : Flash} {ps : List (List UInt8)} {w : World} (hr : b.region part = some r)
    (h : collect b part head (World.boot f) = .done ps w) (hoob : w.oob = 0) :
    w.hashed = ps.flatten := by
  have hself : Follows (fun w' => w'.oob ≤ 0) (collect b part head) (collect b part head)
      (World.boot f) (World.boot f) (fun ps w₁ ps' w₂ => r.Agree w₁.flash w₂.flash ∧ ps = ps' ∧
        w₂.hashed = ps'.flatten) (fun _ _ => False) (fun _ _ => False) := by
    have hrel := b.quietEnv_reliable
    refine decode_follows rfl hrel hrel hr
      { oob := fun h => h
        quiet := fun h h' => Nat.le_trans h.oob h'
        agree := fun h => ⟨h.1, Nat.zero_le _⟩
        ticked := ?_
        total := ?_
        sink := collectSink_quiet
        step := ?_ } (Decoder.sane_init part) ⟨Region.Agree.refl, rfl, rfl⟩
    · rintro ps w₁ ps' w₂ w₁' w₂' ⟨hag, hps, hh⟩ h₁ h₂
      exact ⟨by rwa [h₁.flash, h₂.flash], hps, h₂.hashed.trans hh⟩
    · rintro ps w₁ _ w₂ - ⟨-, rfl, -⟩
      exact Iff.rfl
    · rintro ps w₁ _ w₂ piece ⟨hag, rfl, hh⟩ - -
      refine Follows.of_done rfl fun _ => Meets.of_done rfl ⟨hag, rfl, ?_⟩
      dsimp only
      rw [hh, List.flatten_append, List.flatten_singleton]
  exact ((hself ps w h (Nat.le_of_eq hoob)).done h).2.2

/-! ## Verification -/

/-- What `fota_upgrade_verify` asks of the pieces. -/
structure PiecesAccepted (head : List UInt8) (ps : List (List UInt8)) : Prop where
  supported : AlgoSupported head
  total : Head.rawSize head ≤ (verifyPieces (Head.rawSize head) ps).1.totalCopySize
  hash : (verifyPieces (Head.rawSize head) ps).1.hashCode = Head.hashVal head

section verify
variable {env : Env} (hrel : env.Reliable) {part : FalPartition} {r : Region}
  (hr : env.region part = some r) {head : List UInt8} {w : World} {f : Flash}
  (hag : r.Agree w.flash f)
include hrel hr hag

/-- The pieces a verification run has seen. -/
theorem collect_follows_verify :
    Follows (fun w' => w'.oob ≤ w.oob)
      (decode env part head (verifySink (Head.rawSize head)) VerifyState.totalCopySize
        Decoder.init ⟨0, fnvSeed⟩)
      (collect env.toBoard part head) w (World.boot f)
      (fun t w₁ ps w₂ => (r.Agree w₁.flash w₂.flash ∧ w.oob ≤ w₁.oob) ∧ w₂.oob = 0 ∧
        t = (verifyPieces (Head.rawSize head) ps).1 ∧
        w₁.hashed = w.hashed ++ (verifyPieces (Head.rawSize head) ps).2)
      (fun _ _ => False) (fun _ _ => False) := by
  have hb : env.toBoard = env.toBoard.quietEnv.toBoard := rfl
  unfold collect
  refine decode_follows hb hrel env.toBoard.quietEnv_reliable hr
    { oob := fun h => h
      quiet := fun h h' => Nat.le_trans h.oob h'
      agree := fun h => h.1
      ticked := ?_
      total := ?_
      sink := verifySink_quiet
      step := ?_ } (Decoder.sane_init part) ⟨⟨hag, Nat.le_refl _⟩, rfl, rfl, ?_⟩
  · rintro t w₁ ps w₂ w₁' w₂' ⟨⟨hag, hle⟩, hoob, ht, hh⟩ h₁ h₂
    exact ⟨⟨by rwa [h₁.flash, h₂.flash], h₁.oob ▸ hle⟩, h₂.oob.trans hoob, ht, h₁.hashed.trans hh⟩
  · rintro t w₁ ps w₂ - ⟨-, -, rfl, -⟩
    exact Iff.rfl
  · rintro t w₁ ps w₂ piece ⟨hag, hoob, rfl, hh⟩ - -
    refine Follows.of_done verifySink_eq fun _ => Meets.of_done rfl ⟨hag, hoob, ?_, ?_⟩
    · rw [verifyPieces_concat]
    · rw [verifyPieces_concat, hh, List.append_assoc]
  · rw [show (verifyPieces (Head.rawSize head) []).2 = [] from rfl, List.append_nil]

omit hag in
/-- The other way: verification of an image that decodes to these pieces. -/
theorem verify_follows_collect (hag : r.Agree f w.flash) :
    Follows (fun w' => w'.oob ≤ 0) (collect env.toBoard part head)
      (decode env part head (verifySink (Head.rawSize head)) VerifyState.totalCopySize
        Decoder.init ⟨0, fnvSeed⟩) (World.boot f) w
      (fun ps w₁ t w₂ => (r.Agree w₁.flash w₂.flash ∧ 0 ≤ w₁.oob) ∧ w₂.oob = w.oob ∧
        t = (verifyPieces (Head.rawSize head) ps).1 ∧
        w₂.hashed = w.hashed ++ (verifyPieces (Head.rawSize head) ps).2)
      (fun _ _ => False) (fun _ _ => False) := by
  have hb : env.toBoard.quietEnv.toBoard = env.toBoard := rfl
  unfold collect
  refine decode_follows hb env.toBoard.quietEnv_reliable hrel hr
    { oob := fun h => h
      quiet := fun h h' => Nat.le_trans h.oob h'
      agree := fun h => h.1
      ticked := ?_
      total := ?_
      sink := collectSink_quiet
      step := ?_ } (Decoder.sane_init part) ⟨⟨hag, Nat.zero_le _⟩, rfl, rfl, ?_⟩
  · rintro ps w₁ t w₂ w₁' w₂' ⟨⟨hag, -⟩, hoob, ht, hh⟩ h₁ h₂
    exact ⟨⟨by rwa [h₁.flash, h₂.flash], Nat.zero_le _⟩, h₂.oob.trans hoob, ht, h₂.hashed.trans hh⟩
  · rintro ps w₁ t w₂ - ⟨-, -, rfl, -⟩
    exact Iff.rfl
  · rintro ps w₁ t w₂ piece ⟨hag, hoob, rfl, hh⟩ - -
    refine Follows.of_done rfl fun _ => Meets.of_done verifySink_eq ⟨hag, hoob, ?_, ?_⟩
    · rw [verifyPieces_concat]
    · rw [verifyPieces_concat, hh, List.append_assoc]
  · rw [show (verifyPieces (Head.rawSize head) []).2 = [] from rfl, List.append_nil]

end verify

section fotaUpgradeVerify
variable {env : Env} (hrel : env.Reliable) {name : List UInt8} {part : FalPartition} {r : Region}
  (hpart : falPartitionFind env.toBoard name = some part) (hr : env.region part = some r)
  {w : World} {f : Flash}
include hrel hpart hr

/-- A verification that succeeds, without an access outside a buffer, has seen pieces it accepts. -/
theorem pieces_of_fotaUpgradeVerify {w' : World} (hag : r.Agree w.flash f)
    (h : fotaUpgradeVerify env (some name) w = .done .noErr w') (hoob : w'.oob = w.oob) :
    ∃ ps, decodedPieces env.toBoard part w.rblFotaPartHead f = some ps ∧
      PiecesAccepted w.rblFotaPartHead ps ∧
      w'.hashed = w.hashed ++ (verifyPieces (Head.rawSize w.rblFotaPartHead) ps).2 := by
  simp only [fotaUpgradeVerify, Option.bind_some, hpart] at h
  have hbody := upgradeVerifyBody_erring.exitCode_noErr h
  unfold upgradeVerifyBody at hbody
  rw [bind_done (get_apply), bind_done (malloc_reliable hrel), require_true,
    bind_done (pure_apply _)] at hbody
  obtain ⟨_, w₁, hinit, hbody⟩ := bind_eq_done hbody
  obtain ⟨t, w₂, hdec, hbody⟩ := bind_eq_done hbody
  obtain ⟨hc, rfl⟩ := require_eq_done hbody
  obtain ⟨htotal, hhash⟩ := of_decide_eq_true hc
  obtain ⟨hsup, ht⟩ := algoSupported_of_decoderInit hrel hinit
  have hag₁ : r.Agree w₁.flash f := by rw [ht.flash]; exact hag
  have hoob₁ : w₁.oob = w.oob := ht.oob
  have hfol := collect_follows_verify hrel hr hag₁ t w' hdec (by omega)
  obtain ⟨ps, w₃, hcol, hfol⟩ := hfol.returns
  obtain ⟨-, hoob₃, rfl, hh⟩ := hfol
  refine ⟨ps, decodedPieces_eq_some.mpr ⟨w₃, hcol, hoob₃⟩, ⟨hsup, htotal, hhash⟩, ?_⟩
  rw [hh, ht.hashed]

/-- An image that decodes to pieces it accepts passes verification. -/
theorem fotaUpgradeVerify_of_pieces {ps : List (List UInt8)} (hag : r.Agree f w.flash)
    (hps : decodedPieces env.toBoard part w.rblFotaPartHead f = some ps)
    (hacc : PiecesAccepted w.rblFotaPartHead ps) :
    ∃ w', fotaUpgradeVerify env (some name) w = .done .noErr w' ∧ Quiet w w' ∧
      w'.oob = w.oob ∧
      w'.hashed = w.hashed ++ (verifyPieces (Head.rawSize w.rblFotaPartHead) ps).2 := by
  obtain ⟨w₃, hcol, hoob₃⟩ := decodedPieces_eq_some.mp hps
  obtain ⟨w₁, ht, -, hinit⟩ := decoderInit_done hrel (w := { w with allocs := w.allocs + 1 })
    hacc.supported
  have hag₁ : r.Agree f w₁.flash := by rw [ht.flash]; exact hag
  have hfol := verify_follows_collect hrel hr hag₁ ps w₃ hcol (by omega)
  obtain ⟨t, w₂, hdec, hfol⟩ := hfol.returns
  obtain ⟨-, hoob₂, rfl, hh⟩ := hfol
  have hrun : fotaUpgradeVerify env (some name) w = .done .noErr w₂ := by
    have hc : decide (Head.rawSize w.rblFotaPartHead ≤
        (verifyPieces (Head.rawSize w.rblFotaPartHead) ps).1.totalCopySize ∧
        (verifyPieces (Head.rawSize w.rblFotaPartHead) ps).1.hashCode =
          Head.hashVal w.rblFotaPartHead) = true := decide_eq_true ⟨hacc.total, hacc.hash⟩
    simp only [fotaUpgradeVerify, Option.bind_some, hpart]
    refine exitCode_done ?_
    unfold upgradeVerifyBody
    rw [bind_done (get_apply), bind_done (malloc_reliable hrel), require_true,
      bind_done (pure_apply _), bind_done hinit, bind_done hdec, hc]
    rfl
  have hquiet := fotaUpgradeVerify_quiet.of_done hrun
  exact ⟨w₂, hrun, hquiet, hoob₂.trans ht.oob, by rw [hh, ht.hashed]⟩

end fotaUpgradeVerify

end McuUtilities.Fota
