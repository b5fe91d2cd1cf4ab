import McuUtilities.FastLz.Format

/-!
# What the compressor finds

The hash table holds places before the current one, so every match the code finds is one of the text with
an earlier part of itself (`probe_eq`, `matchEnd_eq`), and nothing outside of the input is read.
-/

namespace McuUtilities.FastLz

open LempelZiv

variable {level : Level} {input : List UInt8} {d ip n : Nat}

theorem readU16_eq (h : ip + 2 ≤ input.length) : readU16 input ip =
    .ok (input[ip].toNat ||| input[ip + 1].toNat <<< 8) := by
  rw [readU16, byteAt_lt (by omega), ok_bind, byteAt_lt (by omega), ok_bind]
  rfl

theorem hashFunction_isOk (h : ip + 3 ≤ input.length) : ∃ hval, hashFunction input ip = .ok hval := by
  rw [hashFunction, readU16_eq (by omega), ok_bind, readU16_eq (by omega), ok_bind]
  exact ⟨_, rfl⟩

/-- A number of two bytes determines them. -/
theorem u16_inj {a b a' b' : UInt8} (h : a.toNat ||| b.toNat <<< 8 = a'.toNat ||| b'.toNat <<< 8) :
    a = a' ∧ b = b' := by
  have ha : a.toNat < 2 ^ 8 := a.toNat_lt
  have ha' : a'.toNat < 2 ^ 8 := a'.toNat_lt
  rw [Nat.or_comm, ← Nat.shiftLeft_add_eq_or_of_lt ha, Nat.or_comm a'.toNat,
    ← Nat.shiftLeft_add_eq_or_of_lt ha', Nat.shiftLeft_eq, Nat.shiftLeft_eq] at h
  exact ⟨UInt8.toNat_inj.mp (by omega), UInt8.toNat_inj.mp (by omega)⟩

/-! ## The first bytes -/

theorem same_eq (hd : d ≤ ip) (h : ip + n ≤ input.length) :
    ∃ b, same input n (ip - d) ip = .ok b ∧ (b = true → Matches input d ip (ip + n)) := by
  induction n generalizing ip with
  | zero => exact ⟨true, rfl, fun _ => matches_self⟩
  | succ n ih =>
    obtain ⟨b, hb, hmatch⟩ := @ih (ip + 1) (by omega) (by omega)
    rw [same, byteAt_lt (by omega), ok_bind, byteAt_lt (by omega), ok_bind]
    split
    · next heq =>
      refine ⟨b, ?_, fun htrue => ?_⟩
      · rw [(by omega : ip - d + 1 = ip + 1 - d)]
        exact hb
      · have hfirst : Matches input d ip (ip + 1) := by
          refine matches_self.succ ?_
          rw [List.getElem?_eq_getElem (by omega), List.getElem?_eq_getElem (by omega), heq]
        rw [(by omega : ip + (n + 1) = ip + 1 + n)]
        exact hfirst.trans (hmatch htrue)
    · exact ⟨false, rfl, fun h => by cases h⟩

theorem isRun_eq (hip : 0 < ip) (h : ip + 3 ≤ input.length) :
    ∃ b, isRun level input ip = .ok b ∧ (b = true → level = .two ∧ Matches input 1 ip (ip + 3)) := by
  cases level with
  | one => exact ⟨false, rfl, fun h => by cases h⟩
  | two =>
    rw [isRun, byteAt_lt (by omega), ok_bind, byteAt_lt (by omega), ok_bind]
    split
    · next heq =>
      rw [readU16_eq (by omega), ok_bind, readU16_eq (by omega), ok_bind]
      refine ⟨_, rfl, fun htrue => ⟨rfl, ?_⟩⟩
      obtain ⟨h₁, h₂⟩ := u16_inj (of_decide_eq_true htrue)
      simp only [Nat.sub_add_cancel hip] at h₂
      -- All four bytes from the one before on are the same.
      have hfirst : Matches input 1 ip (ip + 1) := by
        refine matches_self.succ ?_
        rw [List.getElem?_eq_getElem (by omega), List.getElem?_eq_getElem (by omega), heq]
      have hsecond : Matches input 1 ip (ip + 1 + 1) := by
        refine hfirst.succ ?_
        rw [Nat.add_sub_cancel, List.getElem?_eq_getElem (by omega), List.getElem?_eq_getElem (by omega),
          heq, h₁]
      refine hsecond.succ ?_
      rw [Nat.add_sub_cancel, List.getElem?_eq_getElem (by omega), List.getElem?_eq_getElem (by omega), ← h₁,
        ← heq, h₂]
    · exact ⟨false, rfl, fun h => by cases h⟩

/-- What the code finds at a place: how far the match is, and how many bytes it has at least. -/
structure Found (level : Level) (input : List UInt8) (anchor d len : Nat) : Prop where
  pos : 0 < d
  le : d ≤ anchor
  near : d < beyond level
  bytes : len = 3 ∨ len = 5
  far : len = 5 ↔ level = .two ∧ maxDistance level ≤ d
  same : Matches input d anchor (anchor + len)

theorem probe_eq {anchor : Nat} {htab : Nat → Nat} (hanchor : 0 < anchor)
    (hend : anchor + 5 ≤ input.length) (htab_lt : ∀ h, htab h < anchor) :
    ∃ found htab', probe level input anchor htab = .ok (found, htab') ∧ (∀ h, htab' h ≤ anchor) ∧
      ∀ d len, found = some (d, len) → Found level input anchor d len := by
  obtain ⟨run, hrun, hrun_match⟩ := @isRun_eq level input anchor hanchor (by omega)
  obtain ⟨hval, hhash⟩ := @hashFunction_isOk input anchor (by omega)
  have hlt := htab_lt hval
  have hkeep : ∀ h, Function.update htab hval anchor h ≤ anchor := by
    intro h
    rcases eq_or_ne h hval with rfl | hne
    · rw [Function.update_self]
    · rw [Function.update_of_ne hne]
      exact Nat.le_of_lt (htab_lt h)
  obtain ⟨three, hthree, hthree_match⟩ :=
    @same_eq input (anchor - htab hval) anchor 3 (Nat.sub_le _ _) (by omega)
  obtain ⟨two, htwo, htwo_match⟩ :=
    @same_eq input (anchor - htab hval) (anchor + 3) 2 (by omega) (by omega)
  rw [(by omega : anchor - (anchor - htab hval) = htab hval)] at hthree
  rw [(by omega : anchor + 3 - (anchor - htab hval) = htab hval + 3)] at htwo
  rw [probe, hrun, ok_bind]
  split
  · next htrue =>
    obtain ⟨rfl, hmatch⟩ := hrun_match htrue
    refine ⟨_, _, rfl, fun h => Nat.le_of_lt (htab_lt h), fun d len hfound => ?_⟩
    cases hfound
    exact ⟨Nat.one_pos, hanchor, by decide, .inl rfl, by decide, hmatch⟩
  · rw [hhash, ok_bind]
    dsimp only
    split
    · exact ⟨none, _, rfl, hkeep, fun d len h => by cases h⟩
    · next hnear =>
      obtain ⟨hpos, hbeyond⟩ := not_or.mp hnear
      rw [hthree, ok_bind]
      split
      · exact ⟨none, _, rfl, hkeep, fun d len h => by cases h⟩
      · next hsame =>
        have hmatch := hthree_match (by simpa using hsame)
        split
        · next hfar =>
          rw [htwo, ok_bind]
          split
          · next htrue =>
            refine ⟨_, _, rfl, hkeep, fun d len hfound => ?_⟩
            cases hfound
            exact ⟨Nat.pos_of_ne_zero hpos, Nat.sub_le _ _, Nat.lt_of_not_le hbeyond, .inr rfl,
              ⟨fun _ => hfar, fun _ => rfl⟩, hmatch.trans (htwo_match htrue)⟩
          · exact ⟨none, _, rfl, hkeep, fun d len h => by cases h⟩
        · next hfar =>
          refine ⟨_, _, rfl, hkeep, fun d len hfound => ?_⟩
          cases hfound
          exact ⟨Nat.pos_of_ne_zero hpos, Nat.sub_le _ _, Nat.lt_of_not_le hbeyond, .inl rfl,
            ⟨fun h => absurd h (by decide), fun h => absurd h hfar⟩, hmatch⟩

/-! ## The end of a match -/

theorem runEnd_eq {bound : Nat} {x : UInt8} (hip : 0 < ip) (hbound : bound ≤ input.length)
    (hfuel : bound < n + ip) (hn : 0 < n) :
    ∃ e, runEnd input bound x n (ip - 1) ip = .ok e ∧ ip ≤ e ∧ e ≤ max ip bound ∧
      (∀ j, ip - 1 ≤ j → j < e - 1 → input[j]? = some x) ∧
      (ip < bound → input[ip - 1]? = some x → ip + 1 ≤ e) := by
  induction n generalizing ip with
  | zero => exact absurd hn (Nat.lt_irrefl 0)
  | succ n ih =>
    rw [runEnd]
    split
    · next hlt =>
      rw [byteAt_lt (by omega), ok_bind]
      split
      · next hne =>
        refine ⟨ip, rfl, Nat.le_refl ip, Nat.le_max_left _ _, fun j hj hj' => by omega, fun _ hx => ?_⟩
        rw [List.getElem?_eq_getElem (by omega)] at hx
        exact absurd (Option.some.inj hx) hne
      · next heq =>
        obtain ⟨e, hrun, hle, hmax, hall, -⟩ := @ih (ip + 1) (by omega) (by omega) (by omega)
        rw [Nat.add_sub_cancel] at hrun hall
        refine ⟨e, by rw [Nat.sub_add_cancel hip]; exact hrun, by omega, by omega, fun j hj hj' => ?_, fun _ _ => hle⟩
        rcases Nat.lt_or_ge j ip with hlt' | hge
        · obtain rfl : j = ip - 1 := by omega
          rw [List.getElem?_eq_getElem (by omega)]
          exact congrArg some (by simpa using heq)
        · exact hall j hge hj'
    · next hge =>
      exact ⟨ip, rfl, Nat.le_refl ip, Nat.le_max_left _ _, fun j hj hj' => by omega, fun h => absurd h hge⟩

theorem compareEnd_eq {bound k : Nat} (hd : d ≤ ip) (hk : ip + k ≤ input.length)
    (hbound : bound ≤ input.length) (hfuel : max (ip + k) bound < n + ip) :
    ∃ e, compareEnd input bound n k (ip - d) ip = .ok e ∧ ip ≤ e ∧ e ≤ max (ip + k) bound ∧
      Matches input d ip (e - 1) ∧ (0 < k → ip + 1 ≤ e) := by
  induction n generalizing ip k with
  | zero => omega
  | succ n ih =>
    rw [compareEnd]
    split
    · next hgo =>
      rw [byteAt_lt (by omega), ok_bind, byteAt_lt (by omega), ok_bind]
      split
      · refine ⟨ip + 1, rfl, Nat.le_succ ip, by omega, ?_, fun _ => Nat.le_refl _⟩
        rw [Nat.add_sub_cancel]
        exact matches_self
      · next heq =>
        obtain ⟨e, hrun, hle, hmax, hmatch, -⟩ := @ih (ip + 1) (k - 1) (by omega) (by omega) (by omega)
        have hfirst : Matches input d ip (ip + 1) := by
          refine matches_self.succ ?_
          rw [List.getElem?_eq_getElem (by omega), List.getElem?_eq_getElem (by omega)]
          exact congrArg some (by simpa using heq)
        refine ⟨e, ?_, by omega, by omega, hfirst.trans hmatch, fun _ => hle⟩
        rw [(by omega : ip - d + 1 = ip + 1 - d)]
        exact hrun
    · next hstop =>
      exact ⟨ip, rfl, Nat.le_refl ip, by omega, matches_self.mono (Nat.le_refl ip) (Nat.sub_le _ _),
        fun h => absurd (.inl h) hstop⟩

/-- The end of a match is at least one byte on, behind bytes that are the same. -/
theorem matchEnd_eq {length : Nat} (hd : 0 < d) (hdi : d ≤ ip) (hip : ip + 8 ≤ input.length)
    (hrun : d = 1 → ip + 2 < length) (hlen : length ≤ input.length) (h8 : 8 ≤ length) :
    ∃ e, matchEnd input length d ip = .ok e ∧ ip + 1 ≤ e ∧ e ≤ max (ip + 8) (length - 2) ∧
      (d = 1 → e ≤ length - 2) ∧ Matches input d ip (e - 1) := by
  rw [matchEnd]
  split
  · next hone =>
    obtain rfl : d = 1 := by omega
    have hbound := hrun rfl
    have hlt : ip - 1 < input.length := by omega
    obtain ⟨e, hend, hle, hmax, hall, hnext⟩ := @runEnd_eq input ip (length + 1) (length - 2) input[ip - 1]
      (by omega) (by omega) (by omega) (by omega)
    have hlast : input[ip - 1]? = some input[ip - 1] := List.getElem?_eq_getElem hlt
    rw [byteAt_lt hlt, ok_bind]
    refine ⟨e, hend, hnext (by omega) hlast, by omega, fun _ => by omega, fun k hk hk' => ?_⟩
    rw [hall (k - 1) (by omega) (by omega), hall k (by omega) hk']
  · next hne =>
    obtain ⟨e, hend, hle, hmax, hmatch, hnext⟩ := @compareEnd_eq input d ip (length + 1) (length - 2) 8 hdi hip
      (by omega) (by omega)
    exact ⟨e, hend, hnext (by omega), hmax, fun h => absurd h (by omega), hmatch⟩

end McuUtilities.FastLz
