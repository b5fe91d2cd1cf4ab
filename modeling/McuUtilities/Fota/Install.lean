import McuUtilities.Fota.Plain

/-!
# Installing an image

`fota_upgrade` on an image that `fota_upgrade_verify` accepts: run next to the run that collects the
pieces of the image, it writes exactly these pieces, one after the other. It succeeds if and only
if they fit into the target partition; otherwise it asks for a write past its end.
-/

namespace McuUtilities.Fota
open Prog

/-! ## Changes of one region -/

/-- No flash operation of the boot reports a failure: it succeeds, or the power fails. -/
def Env.Unfailing (env : Env) : Prop := ∀ n, env.fate n ≠ .failed

theorem Env.Uncut.unfailing {env : Env} (h : env.Uncut) : env.Unfailing := by
  intro n hn
  rw [h n] at hn
  cases hn

/-- Flash has changed only in the region, and the static data not at all. -/
structure Confined (r : Region) (w w' : World) : Prop where
  flash : ∀ dev a, ¬ r.Covers dev a → w'.flash dev a = w.flash dev a
  head : w'.rblFotaPartHead = w.rblFotaPartHead
  crcTab : w'.crcTab = w.crcTab
  oob : w'.oob = w.oob

theorem Confined.trans {r : Region} {w w' w'' : World} (h : Confined r w w')
    (h' : Confined r w' w'') : Confined r w w'' where
  flash dev a ha := (h'.flash dev a ha).trans (h.flash dev a ha)
  head := h'.head.trans h.head
  crcTab := h'.crcTab.trans h.crcTab
  oob := h'.oob.trans h.oob

theorem Confined.of_same {r : Region} {w w' : World} (hf : w'.flash = w.flash)
    (hh : w'.rblFotaPartHead = w.rblFotaPartHead) (ht : w'.crcTab = w.crcTab) (ho : w'.oob = w.oob) :
    Confined r w w' := ⟨fun _ _ _ => by rw [hf], hh, ht, ho⟩

theorem Ticked.confined {w w' : World} (h : Ticked w w') (r : Region) : Confined r w w' :=
  .of_same h.flash h.head h.crcTab h.oob

theorem Confined.agree {r s : Region} {w w' : World} (h : Confined r w w') (hd : s.Disjoint r) :
    s.Agree w.flash w'.flash :=
  Region.agree_of_confined hd fun dev a ha => (h.flash dev a ha).symm

/-- The boot ended because the power failed during a flash operation in the region. -/
def CutShort (env : Env) (r : Region) (w : World) (h : Halt) (w' : World) : Prop :=
  h = .powerCut ∧ Confined r w w' ∧ ∃ n, env.fate n = .cut

theorem CutShort.trans {env : Env} {r : Region} {w w' w'' : World} {h : Halt}
    (hc : Confined r w w') (hh : CutShort env r w' h w'') : CutShort env r w h w'' :=
  ⟨hh.1, hc.trans hh.2.1, hh.2.2⟩

theorem Env.Uncut.not_cut {env : Env} (hunc : env.Uncut) {n : Nat} : env.fate n ≠ .cut := by
  rw [hunc n]
  nofun

theorem Env.Uncut.not_cutShort {env : Env} (hunc : env.Uncut) {r : Region} {w w' : World} {h : Halt} :
    ¬ CutShort env r w h w' := fun ⟨_, _, _, hcut⟩ => hunc.not_cut hcut

section change
variable {env : Env} {part : FalPartition} {r : Region} {w : World}

/-- A flash operation in a region. -/
theorem devChange_spec {op : FlashOp} (h : ∀ dev a, op.region.Covers dev a → r.Covers dev a) :
    Meets (devChange env op) w
      (fun ok w' => (ok = true → w'.flash = op.apply w.flash) ∧ (env.Unfailing → ok = true) ∧
        w'.log = w.log ∧ Confined r w w')
      (fun _ _ => False) (CutShort env r w) := by
  have htear : ∀ dev a, ¬ r.Covers dev a → env.tear w.ops op w.flash dev a = w.flash dev a :=
    fun dev a ha => env.tear_confined _ _ _ dev a fun hc => ha (h dev a hc)
  unfold Meets devChange
  cases hf : env.fate w.ops with
  | done =>
    refine ⟨fun _ => rfl, fun _ => rfl, rfl, fun dev a ha => ?_, rfl, rfl, rfl⟩
    exact FlashOp.apply_of_not_covers fun hc => ha (h dev a hc)
  | failed =>
    refine ⟨fun h => ?_, fun hno => absurd hf (hno _), rfl, htear, rfl, rfl, rfl⟩
    cases h
  | cut => exact ⟨rfl, ⟨htear, rfl, rfl, rfl⟩, _, hf⟩

variable (hr : env.region part = some r)
include hr

theorem falPartitionErase_spec {addr size : Nat} (h : addr + size ≤ part.len) :
    Meets (falPartitionErase env part addr size) w
      (fun ok w' => (ok = true → r.view w'.flash = fill (r.view w.flash) addr size 0xFF) ∧
        (env.Unfailing → ok = true) ∧ w'.log = w.log ∧ Confined r w w')
      (fun _ _ => False) (CutShort env r w) := by
  obtain ⟨-, -, hlen⟩ := Board.region_eq hr
  unfold Meets
  rw [falPartitionErase_eq hr h]
  refine (devChange_spec (r := r) fun dev a hc => ?_).mono ?_ (fun _ _ h => h) fun _ _ h => h
  · obtain ⟨rfl, h1, h2⟩ := hc
    simp only [FlashOp.region] at h1 h2
    exact ⟨rfl, by omega, by omega⟩
  · rintro ok w' ⟨hf, hok, hlog, hc⟩
    exact ⟨fun h => by rw [hf h, FlashOp.view_erase], hok, hlog, hc⟩

theorem falPartitionWrite_spec {addr : Nat} {buf : List UInt8}
    (h : addr + buf.length ≤ part.len) :
    Meets (falPartitionWrite env part addr buf) w
      (fun ok w' => (ok = true → r.view w'.flash = store (r.view w.flash) addr buf) ∧
        (env.Unfailing → ok = true) ∧ w'.log = w.log ++ [.write part addr buf.length] ∧
        Confined r w w')
      (fun _ _ => False) (CutShort env r w) := by
  obtain ⟨-, -, hlen⟩ := Board.region_eq hr
  have hlogged : Confined r w { w with log := w.log ++ [.write part addr buf.length] } :=
    .of_same rfl rfl rfl rfl
  unfold Meets
  rw [falPartitionWrite_eq hr h]
  refine (devChange_spec (r := r) fun dev a hc => ?_).mono ?_ (fun _ _ h => h) ?_
  · obtain ⟨rfl, h1, h2⟩ := hc
    simp only [FlashOp.region] at h1 h2
    exact ⟨rfl, by omega, by omega⟩
  · rintro ok w' ⟨hf, hok, hlog, hc⟩
    exact ⟨fun h => by rw [hf h, FlashOp.view_write], hok, hlog, hlogged.trans hc⟩
  · exact fun _ _ h => CutShort.trans hlogged h

variable (hno : env.Unfailing)
include hno

theorem falPartitionEraseAll_meets :
    Meets (falPartitionEraseAll env part) w
      (fun ok w' => ok = true ∧ r.view w'.flash = fill (r.view w.flash) 0 r.len 0xFF ∧
        w'.log = w.log ∧ Confined r w w')
      (fun _ _ => False) (CutShort env r w) := by
  obtain ⟨-, -, hlen⟩ := Board.region_eq hr
  refine (falPartitionErase_spec hr (Nat.le_of_eq (Nat.zero_add _))).mono ?_ (fun _ _ h => h)
    fun _ _ h => h
  rintro ok w' ⟨hf, hok, hlog, hc⟩
  exact ⟨hok hno, hlen ▸ hf (hok hno), hlog, hc⟩

theorem falPartitionWrite_meets {addr : Nat} {buf : List UInt8}
    (h : addr + buf.length ≤ part.len) :
    Meets (falPartitionWrite env part addr buf) w
      (fun ok w' => ok = true ∧ r.view w'.flash = store (r.view w.flash) addr buf ∧
        w'.log = w.log ++ [.write part addr buf.length] ∧ Confined r w w')
      (fun _ _ => False) (CutShort env r w) := by
  refine (falPartitionWrite_spec hr h).mono ?_ (fun _ _ h => h) fun _ _ h => h
  rintro ok w' ⟨hf, hok, hlog, hc⟩
  exact ⟨hok hno, hf (hok hno), hlog, hc⟩

end change

/-! ## Writes past the end of a partition -/

/-- A write stays inside its partition. -/
def Event.InRange : Event → Prop
  | .write part addr len => addr + len ≤ part.len
  | _ => True

/-- Between the two states, every write asked for stays inside its partition. -/
def WritesFit (w w' : World) : Prop := ∃ new, w'.log = w.log ++ new ∧ ∀ e ∈ new, e.InRange

/-- Between the two states, a write past the end of its partition was asked for. -/
def OutWrite (w w' : World) : Prop := ∃ new, w'.log = w.log ++ new ∧ ∃ e ∈ new, ¬ e.InRange

theorem WritesFit.of_eq {w w' : World} (h : w'.log = w.log) : WritesFit w w' :=
  ⟨[], by rw [h, List.append_nil], fun _ he => by cases he⟩

theorem WritesFit.trans {w w' w'' : World} (h : WritesFit w w') (h' : WritesFit w' w'') :
    WritesFit w w'' := by
  obtain ⟨new, hlog, hin⟩ := h
  obtain ⟨new', hlog', hin'⟩ := h'
  refine ⟨new ++ new', by rw [hlog', hlog, List.append_assoc], fun e he => ?_⟩
  exact (List.mem_append.mp he).elim (hin e) (hin' e)

theorem WritesFit.write {w w' : World} {part : FalPartition} {addr len : Nat}
    (hlog : w'.log = w.log ++ [.write part addr len]) (h : addr + len ≤ part.len) :
    WritesFit w w' := by
  refine ⟨_, hlog, fun e he => ?_⟩
  rw [List.mem_singleton.mp he]
  exact h

theorem OutWrite.write {w w' : World} {part : FalPartition} {addr len : Nat}
    (hlog : w'.log = w.log ++ [.write part addr len]) (h : ¬ addr + len ≤ part.len) :
    OutWrite w w' := ⟨_, hlog, _, List.mem_singleton_self _, h⟩

theorem WritesFit.out {w w' w'' : World} (h : WritesFit w w') (h' : OutWrite w' w'') :
    OutWrite w w'' := by
  obtain ⟨new, hlog, -⟩ := h
  obtain ⟨new', hlog', e, he, hbad⟩ := h'
  exact ⟨new ++ new', by rw [hlog', hlog, List.append_assoc], e, List.mem_append_right _ he, hbad⟩

theorem WritesFit.not_out {w w' : World} (h : WritesFit w w') : ¬ OutWrite w w' := by
  obtain ⟨new, hlog, hin⟩ := h
  rintro ⟨new', hlog', e, he, hbad⟩
  rw [hlog] at hlog'
  exact hbad (hin e (List.append_cancel_left hlog' ▸ he))

/-- The pieces, written from `APP_HEADER_LEN` on, and the header fit into a partition. -/
def PiecesFit (len : Nat) (ps : List (List UInt8)) : Prop :=
  sizeofHead ≤ len ∧ (ps.flatten ≠ [] → appHeaderLen + ps.flatten.length ≤ len)

/-- Pieces that fit are too short for their length to wrap around. -/
theorem length_lt_of_fits {len : Nat} {ps : List (List UInt8)} (hlen : len ≤ 2 ^ 31)
    (h : ps.flatten ≠ [] → appHeaderLen + ps.flatten.length ≤ len) :
    ps.flatten.length < 2 ^ 32 := by
  by_cases hnil : ps.flatten = []
  · rw [hnil]
    decide
  · have := h hnil
    omega

/-- A piece did not fit: the header and the pieces before it are written. -/
structure NotInstalled (rt : Region) (len : Nat) (base : World) (ps : List (List UInt8)) (e : FotaErr)
    (w : World) : Prop where
  error : e ≠ .noErr
  confined : Confined rt base w
  misfit : ¬ PiecesFit len ps
  out : OutWrite base w
  head : headAt (rt.view w.flash) = headAt (rt.view base.flash)

/-- The header and the bytes of an image are where `fota_upgrade` puts them. -/
structure Installed (m : Nat → UInt8) (head image : List UInt8) : Prop where
  head : headAt m = head
  image : slice m appHeaderLen image.length = image

/-! ## The sink of `fota_upgrade` -/

section sink
variable {env : Env} (hrel : env.Reliable) (hno : env.Unfailing) {part tgt : FalPartition}
  {r rt : Region} (hr : env.region part = some r) (hrt : env.region tgt = some rt)
  (hdis : r.Disjoint rt) {head : List UInt8}
  (htgt : falPartitionFind env.toBoard (Head.appPartName head) = some tgt)

section write
include htgt
variable {w : World} (hhead : w.rblFotaPartHead = head) {total : Nat} {piece : List UInt8}
include hhead

theorem upgradeSink_eq : upgradeSink env total piece w = (do
    let ok ← falPartitionWrite env tgt (u32 (total + appHeaderLen)) piece
    require ok .copyFailed
    pure (u32 (total + piece.length)) : Boot Nat) w := by
  unfold upgradeSink fotaWriteAppPart
  subst hhead
  rw [bind_apply, bind_apply, get_apply]
  dsimp only
  rw [htgt]
  dsimp only
  rw [bind_apply, bind_apply]
  cases falPartitionWrite env tgt (u32 (total + appHeaderLen)) piece w with
  | done ok w' => cases ok <;> rfl
  | fail e w' => rfl
  | halt h w' => rfl

include hno hrt in
theorem upgradeSink_meets (h : appHeaderLen + total + piece.length ≤ tgt.len) :
    Meets (upgradeSink env total piece) w
      (fun total' w' => total' = total + piece.length ∧
        rt.view w'.flash = store (rt.view w.flash) (appHeaderLen + total) piece ∧
        w'.log = w.log ++ [.write tgt (appHeaderLen + total) piece.length] ∧ Confined rt w w')
      (fun _ _ => False) (CutShort env rt w) := by
  have hbound := tgt.bound
  have haddr : u32 (total + appHeaderLen) = appHeaderLen + total := by
    simp only [u32]
    omega
  have hsum : u32 (total + piece.length) = total + piece.length := by
    simp only [u32]
    omega
  unfold Meets
  rw [upgradeSink_eq htgt hhead, haddr, hsum]
  refine Meets.bind ((falPartitionWrite_meets hrt hno h).mono ?_ (fun _ _ h => h) fun _ _ h => h)
  rintro ok w' ⟨rfl, hview, hlog, hc⟩
  exact Meets.bind (Meets.pure (Meets.pure ⟨rfl, hview, hlog, hc⟩))

theorem upgradeSink_out (h : tgt.len < appHeaderLen + total + piece.length)
    (h' : appHeaderLen + total + piece.length < 2 ^ 32) :
    upgradeSink env total piece w = .fail .copyFailed
      { w with log := w.log ++ [.write tgt (appHeaderLen + total) piece.length] } := by
  have haddr : u32 (total + appHeaderLen) = appHeaderLen + total := by
    simp only [u32]
    omega
  rw [upgradeSink_eq htgt hhead, haddr, bind_done (falPartitionWrite_out h h')]
  rfl

end write

/-- What relates the run that collects the pieces and the run that writes them, from `base` on. -/
structure Installing (r rt : Region) (len : Nat) (base : World) (ps : List (List UInt8))
    (w₁ : World) (total : Nat) (w₂ : World) : Prop where
  agree : r.Agree w₁.flash w₂.flash
  hashed : w₁.hashed = ps.flatten
  total : total = ps.flatten.length
  fits : ps.flatten ≠ [] → appHeaderLen + ps.flatten.length ≤ len
  confined : Confined rt base w₂
  view : rt.view w₂.flash = store (rt.view base.flash) appHeaderLen ps.flatten
  writes : WritesFit base w₂

include hdis htgt hrt hno in
/-- One more piece is written after the pieces written before, or it does not fit. -/
theorem Installing.step {base w₁ w₂ : World} {ps all : List (List UInt8)} {total : Nat}
    {piece : List UInt8} (h : Installing r rt tgt.len base ps w₁ total w₂)
    (hhead : base.rblFotaPartHead = head) (hne : piece ≠ [])
    (hlen : piece.length ≤ fotaAlgoBuffSize) :
    Follows (fun w' => w'.oob ≤ 0 ∧ w'.hashed <+: all.flatten) (collectSink ps piece)
      (upgradeSink env total piece) w₁ w₂ (Installing r rt tgt.len base)
      (NotInstalled rt tgt.len base all) (CutShort env rt base) := by
  have hbound := tgt.bound
  have hbuff : fotaAlgoBuffSize = 4096 := rfl
  have hoff : appHeaderLen = 512 := rfl
  have hhead₂ : w₂.rblFotaPartHead = head := h.confined.head.trans hhead
  obtain ⟨hag, hh, rfl, hfits, hconf, hview, hwrites⟩ := h
  have hflat : (ps ++ [piece]).flatten = ps.flatten ++ piece := by
    rw [List.flatten_append, List.flatten_singleton]
  have hpos : piece.length ≠ 0 := fun h0 => hne (List.eq_nil_of_length_eq_zero h0)
  refine Follows.of_done rfl fun hok => ?_
  dsimp only at hok
  by_cases hin : appHeaderLen + ps.flatten.length + piece.length ≤ tgt.len
  · refine (upgradeSink_meets hno hrt htgt hhead₂ hin).mono ?_ (fun _ _ h => h.elim)
      fun _ _ h => CutShort.trans hconf h
    rintro total' w' ⟨rfl, hview', hlog', hc⟩
    have hlen' : (ps ++ [piece]).flatten.length = ps.flatten.length + piece.length := by
      rw [hflat, List.length_append]
    refine ⟨hag.trans (hc.agree hdis), ?_, hlen'.symm, fun _ => ?_, hconf.trans hc, ?_, ?_⟩
    · dsimp only
      rw [hh, hflat]
    · rw [hlen', ← Nat.add_assoc]
      exact hin
    · rw [hview', hview, store_append, hflat]
    · exact hwrites.trans (WritesFit.write hlog' hin)
  · have hsmall : appHeaderLen + ps.flatten.length + piece.length < 2 ^ 32 := by
      by_cases hnil : ps.flatten = []
      · rw [hnil, List.length_nil]
        omega
      · have := hfits hnil
        omega
    refine Meets.of_fail (upgradeSink_out htgt hhead₂ (Nat.lt_of_not_le hin) hsmall)
      ⟨by decide, ⟨hconf.flash, hconf.head, hconf.crcTab, hconf.oob⟩, fun hfit => ?_,
        hwrites.out (OutWrite.write rfl hin), ?_⟩
    rotate_left
    · dsimp only
      rw [hview, headAt, slice_store_of_disjoint (.inr (by decide)), headAt]
    have hpre := hok.2.length_le
    rw [hh, List.length_append] at hpre
    have hnil : all.flatten ≠ [] := by
      intro h0
      rw [h0, List.length_nil] at hpre
      omega
    have := hfit.2 hnil
    omega

include hrel hr hdis htgt hrt hno in
/-- The two loops of `fota_upgrade` write the pieces of the image. -/
theorem decode_installs {base : World} {f : Flash} {ps : List (List UInt8)}
    (hhead : base.rblFotaPartHead = head) (hag : r.Agree f base.flash)
    (hps : decodedPieces env.toBoard part head f = some ps) :
    Meets (decode env part head (upgradeSink env) id Decoder.init 0) base
      (fun total w' => ∃ w₁, Installing r rt tgt.len base ps w₁ total w')
      (NotInstalled rt tgt.len base ps) (CutShort env rt base) := by
  have hbound := tgt.bound
  have hoff : appHeaderLen = 512 := rfl
  obtain ⟨w₃, hcol, hoob⟩ := decodedPieces_eq_some.mp hps
  have hh₃ := hashed_of_collect hr hcol hoob
  have hb : env.toBoard.quietEnv.toBoard = env.toBoard := rfl
  have hfol : Follows (fun w' => w'.oob ≤ 0 ∧ w'.hashed <+: ps.flatten)
      (collect env.toBoard part head) (decode env part head (upgradeSink env) id Decoder.init 0)
      (World.boot f) base (Installing r rt tgt.len base) (NotInstalled rt tgt.len base ps)
      (CutShort env rt base) := by
    unfold collect
    refine decode_follows hb env.toBoard.quietEnv_reliable hrel hr
      { oob := fun h => h.1
        quiet := fun h h' => ⟨Nat.le_trans h.oob h'.1, h.hashed.trans h'.2⟩
        agree := fun h => ⟨h.agree, Nat.zero_le _⟩
        ticked := ?_
        total := ?_
        sink := collectSink_quiet
        step := fun h hne hlen => h.step hno hrt hdis htgt hhead hne hlen }
      (Decoder.sane_init part) ⟨hag, rfl, rfl, fun h => absurd rfl h,
        (Ticked.refl base).confined rt, ?_, WritesFit.of_eq rfl⟩
    · rintro qs w₁ total w₂ w₁' w₂' h h₁ h₂
      refine ⟨?_, h₁.hashed.trans h.hashed, h.total, h.fits, h.confined.trans (h₂.confined rt), ?_,
        ?_⟩
      · rw [h₁.flash, h₂.flash]
        exact h.agree
      · rw [h₂.flash]
        exact h.view
      · exact h.writes.trans (WritesFit.of_eq h₂.log)
    · rintro qs w₁ total w₂ - h
      rw [verifyPieces_eq (length_lt_of_fits (by omega) h.fits), h.total]
      simp only [id]
      omega
    · exact (store_nil).symm
  exact (hfol ps w₃ hcol ⟨Nat.le_of_eq hoob, hh₃ ▸ List.prefix_rfl⟩).mono
    (fun total w' h => ⟨w₃, h⟩) (fun _ _ h => h) fun _ _ h => h

end sink

/-! ## `fota_upgrade` -/

section upgrade
variable {env : Env} (hrel : env.Reliable) (hno : env.Unfailing) {name : List UInt8}
  {part tgt : FalPartition} {r rt : Region}
  (hpart : falPartitionFind env.toBoard name = some part) (hr : env.region part = some r)
  (hrt : env.region tgt = some rt) (hdis : r.Disjoint rt) {w : World}
  (htgt : falPartitionFind env.toBoard (Head.appPartName w.rblFotaPartHead) = some tgt)

include hno htgt hrt in
theorem fotaEraseAppPart_meets :
    Meets (fotaEraseAppPart env) w
      (fun e w' => e = .noErr ∧ rt.view w'.flash = fill (rt.view w.flash) 0 rt.len 0xFF ∧
        w'.log = w.log ∧ Confined rt w w')
      (fun _ _ => False) (CutShort env rt w) := by
  unfold fotaEraseAppPart
  refine Meets.bind (Meets.of_done (get_apply) ?_)
  dsimp only
  rw [htgt]
  refine Meets.bind ((falPartitionEraseAll_meets hrt hno).mono ?_ (fun _ _ h => h) fun _ _ h => h)
  rintro ok w' ⟨rfl, h⟩
  exact Meets.pure ⟨rfl, h⟩

include hno htgt hrt in
/-- The header is written, or it does not fit. -/
theorem fotaWriteAppPart_head_meets {buf : List UInt8} (hbuf : buf.length = sizeofHead) :
    Meets (fotaWriteAppPart env 0 buf) w
      (fun e w' => (e = .noErr ∧ sizeofHead ≤ tgt.len ∧
          rt.view w'.flash = store (rt.view w.flash) 0 buf ∧ WritesFit w w' ∧ Confined rt w w') ∨
        (e ≠ .noErr ∧ tgt.len < sizeofHead ∧ OutWrite w w' ∧ Confined rt w w'))
      (fun _ _ => False) (CutShort env rt w) := by
  unfold fotaWriteAppPart
  refine Meets.bind (Meets.of_done (get_apply) ?_)
  dsimp only
  rw [htgt]
  by_cases hin : 0 + buf.length ≤ tgt.len
  · refine Meets.bind ((falPartitionWrite_meets hrt hno hin).mono ?_ (fun _ _ h => h)
      fun _ _ h => h)
    rintro ok w' ⟨rfl, hview, hlog, hc⟩
    exact Meets.pure (.inl ⟨rfl, by omega, hview, WritesFit.write hlog hin, hc⟩)
  · have hsmall : 0 + buf.length < 2 ^ 32 := by
      rw [hbuf]
      decide
    refine Meets.bind (Meets.of_done (falPartitionWrite_out (Nat.lt_of_not_le hin) hsmall)
      (Meets.pure (.inr ⟨by decide, by omega, ?_, fun _ _ _ => rfl, rfl, rfl, rfl⟩)))
    exact OutWrite.write rfl hin

include hrel hno hpart hr hrt hdis htgt in
/-- `fota_upgrade` on an image that `fota_upgrade_verify` accepts installs it exactly when it fits;
otherwise it asks for a write past the end of the target partition. -/
theorem fotaUpgrade_meets {f : Flash} {ps : List (List UInt8)} (hfm : sizeofHead ≤ part.len)
    (hhead : w.rblFotaPartHead = headAt (r.view w.flash)) (hag : r.Agree f w.flash)
    (hps : decodedPieces env.toBoard part w.rblFotaPartHead f = some ps)
    (hacc : PiecesAccepted w.rblFotaPartHead ps) :
    Meets (fotaUpgrade env (some name)) w
      (fun e w' => Confined rt w w' ∧
        ((e = .noErr ∧ PiecesFit tgt.len ps ∧ WritesFit w w' ∧
            Installed (rt.view w'.flash) w.rblFotaPartHead ps.flatten) ∨
          (e ≠ .noErr ∧ ¬ PiecesFit tgt.len ps ∧ OutWrite w w' ∧
            (sizeofHead ≤ tgt.len → headAt (rt.view w'.flash) = w.rblFotaPartHead))))
      (fun _ _ => False) (CutShort env rt w) := by
  have hsize : sizeofHead = 96 := rfl
  have hoff : appHeaderLen = 512 := rfl
  have hbound := tgt.bound
  unfold fotaUpgrade
  dsimp only [Option.bind_some]
  rw [hpart]
  refine meets_exitCode ?_
  unfold upgradeBody
  refine Meets.bind ((fotaEraseAppPart_meets hno hrt htgt).mono ?_ (fun _ _ h => h.elim)
    fun _ _ h => h)
  rintro e w₁ ⟨rfl, hview₁, hlog₁, hc₁⟩
  rw [if_neg (by decide)]
  refine Meets.bind (Meets.of_done (get_apply) ?_)
  refine Meets.bind (Meets.of_done (malloc_reliable hrel) (Meets.bind (Meets.pure ?_)))
  refine Meets.bind (Meets.of_done (falPartitionRead_reliable hr hrel (by omega)) ?_)
  have hbuf : slice (r.view w₁.flash) 0 sizeofHead = w.rblFotaPartHead := by
    rw [hhead]
    exact ((hc₁.agree hdis).slice (by rw [(Board.region_eq hr).2.2]; omega)).symm
  dsimp only
  rw [hbuf]
  -- the state after the erase, with the counters of the allocation and of the read moved
  have ht₂ : Ticked w₁ { w₁ with allocs := w₁.allocs + 1, reads := w₁.reads + 1 } :=
    ⟨rfl, rfl, rfl, rfl, rfl, rfl, rfl⟩
  generalize ({ w₁ with allocs := w₁.allocs + 1, reads := w₁.reads + 1 } : World) = w₂ at ht₂
  have hc₂ : Confined rt w w₂ := hc₁.trans (ht₂.confined rt)
  have hwrites₂ : WritesFit w w₂ := WritesFit.of_eq (ht₂.log.trans hlog₁)
  rw [← hc₂.head] at htgt
  have hlen : w.rblFotaPartHead.length = sizeofHead := by rw [hhead, headAt, length_slice]
  refine Meets.bind ((fotaWriteAppPart_head_meets hno hrt htgt hlen).mono ?_ (fun _ _ h => h.elim)
    fun _ _ h => CutShort.trans hc₂ h)
  rintro e w₃ (⟨rfl, hfit, hview₃, hwrites₃, hc₃⟩ | ⟨he, hfit, hout, hc₃⟩)
  rotate_left
  · refine Meets.bind (Meets.require (fun hc => absurd (of_decide_eq_true hc) he) fun _ =>
      ⟨hc₂.trans hc₃, .inr ⟨by decide, fun h => absurd h.1 (by omega), hwrites₂.out hout,
        fun h => absurd h (by omega)⟩⟩)
  refine Meets.bind (Meets.require (fun _ => ?_) fun hc => absurd rfl (of_decide_eq_false hc))
  obtain ⟨w₄, ht₄, -, hinit⟩ := decoderInit_done (w := w₃) hrel hacc.supported
  rw [hc₁.head]
  refine Meets.bind (Meets.of_done hinit ?_)
  have hc₄ : Confined rt w w₄ := (hc₂.trans hc₃).trans (ht₄.confined rt)
  have hwrites₄ : WritesFit w w₄ :=
    (hwrites₂.trans hwrites₃).trans (WritesFit.of_eq ht₄.log)
  rw [hc₂.head] at htgt
  have hhead₄ : headAt (rt.view w₄.flash) = w.rblFotaPartHead := by
    rw [ht₄.flash, hview₃, headAt, ← hlen, slice_store_self]
  refine Meets.bind ((decode_installs hrel hno hr hrt hdis htgt hc₄.head
    (hag.trans (hc₄.agree hdis)) hps).mono ?_ ?_ fun _ _ h => CutShort.trans hc₄ h)
  · rintro total w' ⟨w₁', h⟩
    have hfits : PiecesFit tgt.len ps := ⟨hfit, h.fits⟩
    have htotal := hacc.total
    rw [verifyPieces_eq (length_lt_of_fits (by omega) h.fits)] at htotal
    dsimp only at htotal
    refine Meets.require (fun _ => ⟨hc₄.trans h.confined, .inl ⟨rfl, hfits,
      hwrites₄.trans h.writes, ?_, ?_⟩⟩) fun hc => ?_
    · rw [h.view, headAt, slice_store_of_disjoint (.inr (by omega)), ← headAt, hhead₄]
    · rw [h.view, slice_store_self]
    · have := of_decide_eq_false hc
      rw [h.total] at this
      omega
  · rintro e w' h
    exact ⟨hc₄.trans h.confined, .inr ⟨h.error, h.misfit, hwrites₄.out h.out,
      fun _ => h.head.trans hhead₄⟩⟩

end upgrade

/-! ## The installed image -/

/-- The bytes `fota_upgrade_verify` hashed are the body of the installed image. -/
theorem Installed.hashed {m : Nat → UInt8} {head : List UInt8} {ps : List (List UInt8)}
    (h : Installed m head ps.flatten) (hlt : ps.flatten.length < 2 ^ 32)
    (hacc : PiecesAccepted head ps) :
    (verifyPieces (Head.rawSize head) ps).2 = slice m appHeaderLen (Head.rawSize head) := by
  have htotal := hacc.total
  rw [verifyPieces_eq hlt] at htotal ⊢
  dsimp only at htotal ⊢
  rw [← h.image, take_slice, Nat.min_eq_left (by omega)]

/-- An accepted image is valid where it was installed. -/
theorem Installed.imageValid {len : Nat} {m : Nat → UInt8} {head : List UInt8}
    {ps : List (List UInt8)} (h : Installed m head ps.flatten) (hlen : len ≤ 2 ^ 31)
    (hfit : PiecesFit len ps) (hacc : PiecesAccepted head ps) : ImageValid len m := by
  have hoff : appHeaderLen = 512 := rfl
  have hlt : ps.flatten.length < 2 ^ 32 := length_lt_of_fits hlen hfit.2
  have hraw : Head.rawSize head ≤ ps.flatten.length := by
    have htotal := hacc.total
    rw [verifyPieces_eq hlt] at htotal
    dsimp only at htotal
    omega
  refine ⟨hfit.1, fun h0 => ?_, ?_⟩
  · rw [h.head] at h0 ⊢
    have := hfit.2 fun hnil => h0 (by rw [hnil, List.length_nil] at hraw; omega)
    omega
  · have hbody := h.hashed hlt hacc
    rw [verifyPieces_eq hlt] at hbody
    rw [bodyAt, h.head, ← hbody, ← hacc.hash, verifyPieces_eq hlt]

/-! ## Verification implies installation -/

/-- An image that `fota_part_fw_verify` and `fota_upgrade_verify` accept is installed by
`fota_upgrade` when everything it writes is inside the application partition: the verified bytes are
the body of the application, and `fota_check_application` accepts it. -/
theorem fotaUpgrade_of_fotaUpgradeVerify {env : Env} (hrel : env.Reliable) (hunc : env.Uncut)
    {fm app : FalPartition} {r rt : Region}
    (hfm : falPartitionFind env.toBoard fotaFmPartName = some fm) (hr : env.region fm = some r)
    (happ : falPartitionFind env.toBoard fotaAppPartName = some app)
    (hrt : env.region app = some rt) (hdis : r.Disjoint rt) {w w₁ w₂ : World}
    (hfw : fotaPartFwVerify env (some fotaFmPartName) w = .done .noErr w₁)
    (hname : strcmpEq (Head.appPartName w₁.rblFotaPartHead) fotaAppPartName = true)
    (hverify : fotaUpgradeVerify env (some fotaFmPartName) w₁ = .done .noErr w₂)
    (hoob : w₂.oob = w₁.oob)
    (hlarge : WritesFit w₂ (fotaUpgrade env (some fotaFmPartName) w₂).state) :
    ∃ w₃ w₄, fotaUpgrade env (some fotaFmPartName) w₂ = .done .noErr w₃ ∧
      w₂.hashed = w₁.hashed ++
        slice (rt.view w₃.flash) appHeaderLen (Head.rawSize w₂.rblFotaPartHead) ∧
      slice (rt.view w₃.flash) 0 sizeofHead = slice (r.view w.flash) 0 sizeofHead ∧
      fotaCheckApplication env w₃ = .done .noErr w₄ := by
  have hbound := app.bound
  have hbound' : app.len ≤ 2 ^ 31 := by omega
  obtain ⟨-, -, hlen⟩ := Board.region_eq hrt
  obtain ⟨hacc, hkeep, tab, head, ht⟩ := (fotaPartFwVerify_meets hr hrel hfm w).done hfw
  have hhead₁ := (hkeep rfl).2
  have hflash₁ : w₁.flash = w.flash := ht.flash
  obtain ⟨ps, hps, hpacc, hhashed⟩ := pieces_of_fotaUpgradeVerify hrel hfm hr Region.Agree.refl
    hverify hoob
  have hq : Quiet w₁ w₂ := fotaUpgradeVerify_quiet.of_done hverify
  have htgt : falPartitionFind env.toBoard (Head.appPartName w₂.rblFotaPartHead) = some app := by
    rw [hq.head, falPartitionFind_congr hname, happ]
  rw [← hq.head] at hps hpacc hhashed
  rw [← hq.flash] at hps
  have hup := fotaUpgrade_meets hrel hunc.unfailing hfm hr hrt hdis htgt (hacc.mp rfl).head_le
    (by rw [hq.head, hhead₁, hq.flash, hflash₁]) Region.Agree.refl hps hpacc
  obtain ⟨e, w₃, hrun, hc, hend⟩ := hup.returns_of (fun _ _ h => h) fun _ _ => hunc.not_cutShort
  rw [hrun] at hlarge
  obtain ⟨rfl, hfit, -, hinst⟩ | ⟨-, -, hout, -⟩ := hend
  · have hlt : ps.flatten.length < 2 ^ 32 := length_lt_of_fits hbound' hfit.2
    have hvalid : ImageValid app.len (rt.view w₃.flash) :=
      hinst.imageValid (by omega) hfit hpacc
    obtain ⟨w₄, hcheck⟩ := fotaCheckApplication_of_valid hrel happ hrt hvalid
    refine ⟨w₃, w₄, hrun, ?_, ?_, hcheck⟩
    · rw [hhashed, hinst.hashed hlt hpacc]
    · have hhead₃ := hinst.head
      rw [headAt] at hhead₃
      rw [hhead₃, hq.head, hhead₁, headAt]
  · exact absurd hout hlarge.not_out

/-- The sample image is verified, and all that `fota_upgrade` writes of it is inside the application
partition. -/
theorem sample_verified :
    ∃ w₁ w₂, fotaPartFwVerify sampleEnv (some fotaFmPartName)
        (World.boot (sampleFlash fotaAppPartName [0x31])) = .done .noErr w₁ ∧
      strcmpEq (Head.appPartName w₁.rblFotaPartHead) fotaAppPartName = true ∧
      fotaUpgradeVerify sampleEnv (some fotaFmPartName) w₁ = .done .noErr w₂ ∧ w₂.oob = w₁.oob ∧
      WritesFit w₂ (fotaUpgrade sampleEnv (some fotaFmPartName) w₂).state := by
  have htgt := target_sampleHead
  obtain ⟨w₁, hfw, -, hhead₁, hflash₁⟩ :=
    @fotaPartFwVerify_sample fotaAppPartName [0x31] (by rw [htgt]; rfl)
  have hview₁ : (⟨0, 0, 0x2000⟩ : Region).view w₁.flash = sampleContents fotaAppPartName [0x31] := by
    rw [hflash₁]
    exact view_sampleFlash
  have hps := decodedPieces_sample hview₁
  have hpacc := @piecesAccepted_sample fotaAppPartName [0x31]
  rw [← hhead₁] at hps hpacc htgt
  obtain ⟨w₂, hverify, hq, hoob, -⟩ := fotaUpgradeVerify_of_pieces sampleEnv_reliable sampleEnv_fm
    region_sampleFm Region.Agree.refl hps hpacc
  have hfit : PiecesFit sampleApp.len (plainChunks (sampleContents fotaAppPartName [0x31]) 1) := by
    refine ⟨by decide, fun _ => ?_⟩
    rw [flatten_plainChunks, length_slice]
    decide
  have hname : strcmpEq (Head.appPartName w₁.rblFotaPartHead) fotaAppPartName = true := by
    rw [hhead₁]
    decide +kernel
  refine ⟨w₁, w₂, hfw, hname, hverify, hoob, ?_⟩
  rw [← hq.head] at hps hpacc htgt
  have hup := fotaUpgrade_meets sampleEnv_reliable sampleEnv_uncut.unfailing sampleEnv_fm
    region_sampleFm region_sampleApp sample_disjoint htgt (by decide)
    (by rw [hq.head, hhead₁, hq.flash, hview₁, headAt_sampleContents])
    (hq.flash ▸ Region.Agree.refl) hps hpacc
  obtain ⟨e, w₃, hrun, hup⟩ := hup.returns_of (fun _ _ h => h) fun _ _ => sampleEnv_uncut.not_cutShort
  rw [hrun]
  exact hup.2.elim (fun h => h.2.2.1) fun h => absurd hfit h.2.1

/-- A small image is verified and installed. -/
theorem fotaUpgrade_of_fotaUpgradeVerify_sample :
    let env := (sampleBoard [sampleFm, sampleApp] false).quietEnv
    ∃ w₁ w₂ w₃ w₄, fotaPartFwVerify env (some fotaFmPartName)
        (World.boot (sampleFlash fotaAppPartName [0x31])) = .done .noErr w₁ ∧
      fotaUpgradeVerify env (some fotaFmPartName) w₁ = .done .noErr w₂ ∧
      fotaUpgrade env (some fotaFmPartName) w₂ = .done .noErr w₃ ∧
      w₂.hashed = w₁.hashed ++ slice ((⟨0, 0x2000, 0x2000⟩ : Region).view w₃.flash) appHeaderLen
        (Head.rawSize w₂.rblFotaPartHead) ∧
      slice ((⟨0, 0x2000, 0x2000⟩ : Region).view w₃.flash) 0 sizeofHead =
        slice ((⟨0, 0, 0x2000⟩ : Region).view (sampleFlash fotaAppPartName [0x31])) 0 sizeofHead ∧
      fotaCheckApplication env w₃ = .done .noErr w₄ := by
  obtain ⟨w₁, w₂, hfw, hname, hverify, hoob, hwrites⟩ := sample_verified
  obtain ⟨w₃, w₄, hdone⟩ := fotaUpgrade_of_fotaUpgradeVerify sampleEnv_reliable sampleEnv_uncut
    sampleEnv_fm region_sampleFm sampleEnv_app region_sampleApp sample_disjoint hfw hname hverify hoob
    hwrites
  exact ⟨w₁, w₂, w₃, w₄, hfw, hverify, hdone⟩

end McuUtilities.Fota
