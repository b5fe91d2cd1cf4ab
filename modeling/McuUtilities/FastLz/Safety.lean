import McuUtilities.FastLz.Format

/-!
# Decompressing arbitrary data

Whatever the data are, nothing is written behind the output and the loops end. The code checks the end of
the input only at a control byte and before literals, so the length and the distance of a match may be
read behind it: a length goes on as long as bytes are 255, and then there are at most three bytes more.
-/

namespace McuUtilities.FastLz

open LempelZiv

/-- The bytes behind the data do not stop the code from leaving the buffer. -/
def Overruns (input : List UInt8) (length : Nat) : Prop :=
  input.length < length + 4 ∨ input[length]? = some 255

/-- The only fault is that the code leaves the input, when the bytes behind the data allow it. -/
def Reads {α : Type} (past : Prop) (r : Run α) (Q : α → Prop) : Prop :=
  match r with
  | .ok a => Q a
  | .error f => f = .input ∧ past

section reads
variable {α β : Type} {past : Prop} {Q : α → Prop} {R : β → Prop} {r : Run α} {f : α → Run β}

theorem Reads.bind (h : Reads past r Q) (hf : ∀ a, Q a → Reads past (f a) R) : Reads past (r >>= f) R := by
  cases r with
  | ok a => exact hf a h
  | error e => exact h

end reads

variable {level : Level} {input op : List UInt8} {ctrl fuel ip len length maxout n p : Nat}

theorem byteAt_reads (hp : p ≤ length + 3) :
    Reads (Overruns input length) (byteAt input p) fun b => input[p]? = some b := by
  rw [byteAt]
  cases hget : input[p]? with
  | some b => rfl
  | none =>
    have hlen := List.getElem?_eq_none_iff.mp hget
    exact ⟨rfl, .inl (by omega)⟩

theorem readLen_reads (hip : ip ≤ length ∨ Overruns input length) (hfuel : input.length < fuel + ip) (hpos : 0 < fuel) :
    Reads (Overruns input length) (readLen input fuel ip len) fun r =>
      ip ≤ r.2 ∧ (r.2 ≤ length + 1 ∨ Overruns input length) ∧ r.1 ≤ len + 255 * (input.length - ip) := by
  induction fuel generalizing ip len with
  | zero => exact absurd hpos (Nat.lt_irrefl 0)
  | succ fuel ih =>
    rw [readLen]
    rw [byteAt]
    cases hget : input[ip]? with
    | none =>
      have hlen := List.getElem?_eq_none_iff.mp hget
      refine ⟨rfl, hip.elim (fun h => .inl (by omega)) id⟩
    | some b =>
      have hlt := (List.getElem?_eq_some_iff.mp hget).1
      have hb := b.toNat_lt
      rw [ok_bind]
      split
      · next h255 =>
        have hnext : ip + 1 ≤ length ∨ Overruns input length := by
          rcases hip with hle | hover
          · rcases Nat.lt_or_eq_of_le hle with hlt' | rfl
            · exact .inl hlt'
            · exact .inr (.inr (h255 ▸ hget))
          · exact .inr hover
        have hrest := @ih (ip + 1) (len + b.toNat) hnext (by omega) (by omega)
        cases hrun : readLen input fuel (ip + 1) (len + b.toNat) with
        | ok r =>
          rw [hrun] at hrest
          exact ⟨Nat.le_of_succ_le hrest.1, hrest.2.1, by have := hrest.2.2; omega⟩
        | error e =>
          rw [hrun] at hrest
          exact hrest
      · exact ⟨Nat.le_succ ip, hip.imp_left Nat.succ_le_succ, by dsimp only; omega⟩

theorem longLen_reads (hip : ip ≤ length) :
    Reads (Overruns input length) (longLen input ip len) fun r =>
      ip ≤ r.2 ∧ (r.2 ≤ length + 1 ∨ Overruns input length) ∧ r.1 ≤ len + 255 * input.length := by
  rw [longLen]
  split
  · have h := @readLen_reads input (input.length + 1) ip len length (.inl hip) (by omega) (Nat.succ_pos _)
    cases hrun : readLen input (input.length + 1) ip len with
    | ok r =>
      rw [hrun] at h
      exact ⟨h.1, h.2.1, by have := h.2.2; omega⟩
    | error e =>
      rw [hrun] at h
      exact h
  · exact ⟨Nat.le_refl ip, .inl (Nat.le_succ_of_le hip), Nat.le_add_right _ _⟩

/-- A read that may also happen far behind the data. -/
theorem byteAt_overruns (hp : p ≤ length + 3 ∨ Overruns input length) :
    Reads (Overruns input length) (byteAt input p) fun _ => p < input.length := by
  rcases hp with hp | hover
  · have h := @byteAt_reads input length p hp
    cases hb : byteAt input p with
    | ok b =>
      rw [hb] at h
      exact (List.getElem?_eq_some_iff.mp h).1
    | error e =>
      rw [hb] at h
      exact h
  · rw [byteAt]
    cases hget : input[p]? with
    | some b => exact (List.getElem?_eq_some_iff.mp hget).1
    | none => exact ⟨rfl, hover⟩

/-- A match ends behind the place it is read at, and each byte read for it adds at most 255 to `len`. -/
theorem readMatch_reads (hip : ip ≤ length) :
    Reads (Overruns input length) (readMatch level input ip ctrl) fun m =>
      ip ≤ m.2.2 ∧ m.2.1 ≤ ctrl >>> 5 - 1 + 255 * input.length := by
  cases level with
  | one =>
    rw [readMatch]
    split
    · refine (byteAt_overruns (.inl (by omega))).bind fun more hlt => ?_
      refine (byteAt_overruns (.inl (by omega))).bind fun code _ => ?_
      have hmore := more.toNat_lt
      exact ⟨by dsimp only; omega, by dsimp only; omega⟩
    · refine (byteAt_overruns (.inl (by omega))).bind fun code _ => ?_
      exact ⟨Nat.le_succ ip, Nat.le_add_right _ _⟩
  | two =>
    rw [readMatch]
    refine (longLen_reads hip).bind fun r hr => ?_
    obtain ⟨hle, hend, hlen⟩ := hr
    refine (byteAt_overruns (hend.imp_left fun h => by omega)).bind fun code _ => ?_
    split
    · refine (byteAt_overruns (hend.imp_left fun h => by omega)).bind fun hi _ => ?_
      refine (byteAt_overruns (hend.imp_left fun h => by omega)).bind fun lo _ => ?_
      exact ⟨by dsimp only; omega, hlen⟩
    · exact ⟨by dsimp only; omega, hlen⟩

theorem nextCtrl_reads : Reads (Overruns input length) (nextCtrl input length ip) fun next =>
    ∀ ctrl ip', next = some (ctrl, ip') → ip < ip' ∧ ip' ≤ length := by
  rw [nextCtrl]
  split
  · next hlt =>
    refine (byteAt_overruns (.inl (by omega))).bind fun b _ => ?_
    intro ctrl ip' h
    cases h
    exact ⟨Nat.lt_succ_self ip, hlt⟩
  · intro ctrl ip' h
    cases h

theorem copyMatch_eq {distance : Nat} (hdist : distance < op.length) (hroom : op.length + n ≤ maxout) :
    ∃ out, copyMatch maxout distance n op = .ok out ∧ out.length ≤ maxout := by
  rw [copyMatch]
  split
  · have hne : op ≠ [] := fun hnil => by simp [hnil] at hdist
    rw [List.getLast?_eq_some_getLast hne]
    refine ⟨_, put_eq (by rw [List.length_replicate]; exact hroom), ?_⟩
    rw [List.length_append, List.length_replicate]
    exact hroom
  · obtain ⟨out, hout⟩ := Option.isSome_iff_exists.mp
      (copyFrom_isSome (n := n) (by omega : op.length - distance - 1 < op.length))
    have hlen := length_copyFrom hout
    exact ⟨out, copyRef_eq hout (by omega), by omega⟩

theorem putInput_reads (hin : ip + n ≤ length) (hroom : op.length + n ≤ maxout) :
    Reads (Overruns input length) (putInput input maxout n ip op) fun out => out.length ≤ maxout := by
  induction n generalizing ip op with
  | zero => exact hroom
  | succ n ih =>
    rw [putInput]
    refine (byteAt_overruns (.inl (by omega))).bind fun b _ => ?_
    have hput : put maxout [b] op = .ok (op ++ [b]) := put_eq (by simp; omega)
    rw [hput, ok_bind]
    exact ih (by omega) (by simp; omega)

theorem decompressLoop_reads (hip : ip ≤ length ∨ ctrl < 32) (hfuel : length < fuel + ip) (hpos : 0 < fuel)
    (hop : op.length ≤ maxout) :
    Reads (Overruns input length) (decompressLoop level input length maxout fuel ip ctrl op)
      fun out => out.length ≤ maxout := by
  induction fuel generalizing ip ctrl op with
  | zero => exact absurd hpos (Nat.lt_irrefl 0)
  | succ fuel ih =>
    rw [decompressLoop]
    split
    · next hctrl =>
      have hip : ip ≤ length := hip.resolve_right (Nat.not_lt_of_le hctrl)
      refine (readMatch_reads hip).bind fun m hm => ?_
      have hread := hm.1
      dsimp only
      split
      · exact Nat.zero_le _
      · next hroom =>
        split
        · exact Nat.zero_le _
        · next hback =>
          refine nextCtrl_reads.bind fun next hnext => ?_
          obtain ⟨out, hcopy, hout⟩ := @copyMatch_eq op maxout (m.2.1 + 3) m.1 (by omega) (by omega)
          rw [hcopy, ok_bind]
          cases next with
          | none => exact hout
          | some c =>
            obtain ⟨hlt, hle⟩ := hnext c.1 c.2 rfl
            exact ih (.inl hle) (by omega) (by omega) hout
    · dsimp only
      split
      · exact Nat.zero_le _
      · next hroom =>
        split
        · exact Nat.zero_le _
        · next hin =>
          refine (putInput_reads (by omega) (by omega)).bind fun out hout => ?_
          refine nextCtrl_reads.bind fun next hnext => ?_
          cases next with
          | none => exact hout
          | some c =>
            obtain ⟨hlt, hle⟩ := hnext c.1 c.2 rfl
            exact ih (.inl hle) (by omega) (by omega) hout

theorem decompressor_reads : Reads (Overruns input length) (decompressor level input length maxout)
    fun out => out.length ≤ maxout := by
  rw [decompressor]
  refine (byteAt_overruns (.inl (Nat.zero_le _))).bind fun ctrl _ => ?_
  refine decompressLoop_reads (.inr ?_) (by omega) (Nat.succ_pos _) (Nat.zero_le _)
  rw [UInt8.toNat_and]
  exact Nat.lt_of_le_of_lt Nat.and_le_right (by decide)

theorem fastlzDecompress_reads : Reads (Overruns input length) (fastlzDecompress input length maxout)
    fun out => out.length ≤ maxout := by
  rw [fastlzDecompress]
  refine (byteAt_overruns (.inl (Nat.zero_le _))).bind fun magic _ => ?_
  dsimp only
  split
  · exact decompressor_reads
  · split
    · exact decompressor_reads
    · exact Nat.zero_le _

/-- Whatever the data and whatever the buffer behind them, as long as it is small enough for 32-bit sums,
decompression ends, never writes more than `maxout` bytes and reads only what it has written; and when four
bytes are behind the data the first of which is not 255, it does not leave the buffer either. No match
that can be read there has a length with which the check against `op_limit` would wrap. -/
theorem fastlzDecompress_safe (input : List UInt8) (length maxout : Nat)
    (hsmall : maxout + 255 * input.length + 9 < 2 ^ 31) :
    (∀ out, fastlzDecompress input length maxout = .ok out → out.length ≤ maxout) ∧
      (∀ f, fastlzDecompress input length maxout = .error f →
        f = .input ∧ (input.length < length + 4 ∨ input[length]? = some 255)) ∧
      ∀ level ip ctrl m, ip ≤ length → ctrl < 256 → readMatch level input ip ctrl = .ok m →
        maxout + m.2.1 + 3 < 2 ^ 31 := by
  have h := @fastlzDecompress_reads input length maxout
  refine ⟨fun out hrun => ?_, fun f hrun => ?_, fun level ip ctrl m hip hctrl hrun => ?_⟩
  · rw [hrun] at h
    exact h
  · rw [hrun] at h
    exact h
  · have hm := @readMatch_reads level input ctrl ip length hip
    rw [hrun] at hm
    have hlen := hm.2
    rw [Nat.shiftRight_eq_div_pow] at hlen
    omega

/-- Data that end in a match, whose second byte is read behind them, from a zeroed buffer. -/
theorem fastlzDecompress_safe_cut :
    (∀ out, fastlzDecompress [0, 0x61, 0xE0, 0, 0, 0, 0] 3 16 = .ok out → out.length ≤ 16) ∧
      (∀ f, fastlzDecompress [0, 0x61, 0xE0, 0, 0, 0, 0] 3 16 = .error f →
        f = .input ∧ (7 < 3 + 4 ∨ some (0 : UInt8) = some 255)) ∧
      ∀ level ip ctrl m, ip ≤ 3 → ctrl < 256 →
        readMatch level [0, 0x61, 0xE0, 0, 0, 0, 0] ip ctrl = .ok m → 16 + m.2.1 + 3 < 2 ^ 31 :=
  fastlzDecompress_safe [0, 0x61, 0xE0, 0, 0, 0, 0] 3 16 (by decide)

/-! ## The bytes a call reads -/

/-- How many bytes of `input` a call of `fastlz_decompress` reads: with that many it does not leave
`input`. It is one more than there are when no number of them is enough. -/
def bytesRead (input : List UInt8) (length maxout : Nat) : Nat :=
  ((List.range (input.length + 1)).find? fun n =>
    match fastlzDecompress (input.take n) length maxout with
    | .error .input => false
    | _ => true).getD (input.length + 1)

/-- The bytes that `fastlz_decompress` returns. -/
def fastlzBytes (input : List UInt8) (length maxout : Nat) : List UInt8 :=
  match fastlzDecompress input length maxout with
  | .ok out => out
  | .error _ => []

theorem length_fastlzBytes (input : List UInt8) (length maxout : Nat) :
    (fastlzBytes input length maxout).length ≤ maxout := by
  have h := @fastlzDecompress_reads input length maxout
  rw [fastlzBytes]
  cases hrun : fastlzDecompress input length maxout with
  | ok out =>
    rw [hrun] at h
    exact h
  | error f => exact Nat.zero_le _

end McuUtilities.FastLz
