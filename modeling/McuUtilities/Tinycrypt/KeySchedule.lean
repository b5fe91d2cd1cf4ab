import McuUtilities.Tinycrypt.Layers

/-!
# The key schedules of `tiny_aes.c`

`tiny_aes_setkey_enc` writes every word of the round keys from the key alone, whatever the context
held before, and `tiny_aes_setkey_dec` holds the same round keys in the order and the form the inverse
cipher takes them.
-/

namespace McuUtilities.Tinycrypt

/-! ## Words of a context -/

section keys
variable {buf sk : RoundKeys} {f : BitVec 32 → BitVec 32} {i j RK SK n : Nat} {v : BitVec 32}

theorem getWord_setWord (hi : i < 68) :
    getWord (setWord buf i v) j = if i = j then v else getWord buf j := by
  by_cases hj : j < 68
  · simp [getWord, setWord, Vector.getD, hj, Array.getElem_setIfInBounds]
  · simp [getWord, setWord, Vector.getD, hj, show i ≠ j by omega]

/-! ## The schedule depends on the key alone -/

/-- The first `n` words are the same. -/
def Agree (n : Nat) (a b : RoundKeys) : Prop := ∀ i, i < n → getWord a i = getWord b i

theorem agree_setWord {a b : RoundKeys} {v' : BitVec 32} (h : Agree n a b) (hn : n < 68)
    (hv : v = v') : Agree (n + 1) (setWord a n v) (setWord b n v') := by
  intro i hi
  rw [getWord_setWord hn, getWord_setWord hn]
  split
  · exact hv
  · exact h i (by omega)

theorem agree_loadKey {key : List UInt8} {a b : RoundKeys} (hn : n ≤ 68) :
    Agree n (loadKey key n a) (loadKey key n b) := by
  induction n with
  | zero => exact fun _ h => absurd h (Nat.not_lt_zero _)
  | succ n ih =>
    simp only [loadKey, List.range_succ, List.foldl_append, List.foldl_cons, List.foldl_nil]
    exact agree_setWord (ih (by omega)) (by omega) rfl

theorem agree_chainWords {a b : RoundKeys} {m : Nat} (h : Agree i a b) (hn : 1 ≤ n) (hni : n ≤ i)
    (hi : i + m ≤ 68) : Agree (i + m) (chainWords n i m a) (chainWords n i m b) := by
  induction m with
  | zero => exact h
  | succ m ih =>
    have hm := ih (by omega)
    have hstep : ∀ c, chainWords n i (m + 1) c = setWord
        (chainWords n i m c) (i + m) (getWord (chainWords n i m c) (i + m - n) ^^^
          getWord (chainWords n i m c) (i + m - 1)) := by
      intro c
      simp only [chainWords, List.range_succ, List.foldl_append, List.foldl_cons,
        List.foldl_nil]
    rw [hstep a, hstep b]
    refine agree_setWord hm (show i + m < 68 by omega) ?_
    rw [hm _ (by omega), hm _ (by omega)]

theorem agree_firstWord {a b : RoundKeys} (h : Agree (n * i + n) a b) (hn : 1 ≤ n)
    (hi : n * i + n < 68) : Agree (n * i + n + 1) (firstWord n i a) (firstWord n i b) := by
  refine agree_setWord h hi ?_
  rw [h _ (by omega), h _ (by omega)]

theorem agree_expand128 {a b : RoundKeys} (hi : i < 10) (h : Agree (4 * i + 4) a b) :
    Agree (4 * (i + 1) + 4) (expand128 a i) (expand128 b i) := by
  have hfirst : Agree (4 * i + 5) _ _ := agree_firstWord h (by omega) (by omega)
  exact agree_chainWords (m := 3) hfirst (by omega) (by omega) (by omega)

theorem agree_expand192 {a b : RoundKeys} (hi : i < 8) (h : Agree (6 * i + 6) a b) :
    Agree (6 * (i + 1) + 6) (expand192 a i) (expand192 b i) := by
  have hfirst : Agree (6 * i + 7) _ _ := agree_firstWord h (by omega) (by omega)
  exact agree_chainWords (m := 5) hfirst (by omega) (by omega) (by omega)

theorem agree_expand256 {a b : RoundKeys} (hi : i < 7) (h : Agree (8 * i + 8) a b) :
    Agree (8 * (i + 1) + 8) (expand256 a i) (expand256 b i) := by
  have hfirst : Agree (8 * i + 9) _ _ := agree_firstWord h (by omega) (by omega)
  have hleft : Agree (8 * i + 12) _ _ :=
    agree_chainWords (n := 8) (m := 3) hfirst (by omega) (by omega) (by omega)
  have hmid := agree_setWord hleft (by omega) (congrArg₂ (· ^^^ subWord ·)
    (hleft (8 * i + 4) (by omega)) (hleft (8 * i + 11) (by omega)))
  exact agree_chainWords (n := 8) (m := 3) hmid (by omega) (by omega) (by omega)

/-- A loop whose rounds write `n` words each. -/
theorem agree_foldl {a b : RoundKeys} {round : RoundKeys → Nat → RoundKeys} {m : Nat}
    (hround : ∀ i, i < m → ∀ a b, Agree (n * i + n) a b →
      Agree (n * (i + 1) + n) (round a i) (round b i))
    (h : Agree n a b) :
    Agree (n * m + n) ((List.range m).foldl round a) ((List.range m).foldl round b) := by
  induction m with
  | zero => simpa using h
  | succ m ih =>
    simp only [List.range_succ, List.foldl_append, List.foldl_cons, List.foldl_nil]
    exact hround m (by omega) _ _ (ih fun i hi => hround i (by omega))

/-- Every word of the round keys is written, from the key. -/
theorem agree_aesSetkeyEnc (ctx ctx' : AesContext) (key : List UInt8) {keysize nr : Nat}
    (h : rounds? keysize = some nr) :
    Agree (4 * nr + 4) (aesSetkeyEnc ctx key keysize).buf (aesSetkeyEnc ctx' key keysize).buf := by
  unfold rounds? at h
  split at h <;> cases h
  · exact agree_foldl (n := 4) (m := 10) (fun i hi a b => agree_expand128 hi) (agree_loadKey (by decide))
  · have hall : Agree 54 (aesSetkeyEnc ctx key 192).buf (aesSetkeyEnc ctx' key 192).buf :=
      agree_foldl (n := 6) (m := 8) (fun i hi a b => agree_expand192 hi) (agree_loadKey (by decide))
    exact fun i hi => hall i (by omega)
  · have hall : Agree 64 (aesSetkeyEnc ctx key 256).buf (aesSetkeyEnc ctx' key 256).buf :=
      agree_foldl (n := 8) (m := 7) (fun i hi a b => agree_expand256 hi) (agree_loadKey (by decide))
    exact fun i hi => hall i (by omega)

/-! ## The decryption schedule -/

theorem getWord_copyWords (hRK : RK + 4 ≤ 68) :
    getWord (copyWords f sk RK SK buf) i =
      if RK ≤ i ∧ i < RK + 4 then f (getWord sk (SK + (i - RK))) else getWord buf i := by
  have hrange : List.range 4 = [0, 1, 2, 3] := rfl
  simp only [copyWords, hrange, List.foldl_cons, List.foldl_nil]
  rw [getWord_setWord (by omega), getWord_setWord (by omega), getWord_setWord (by omega),
    getWord_setWord (by omega)]
  split
  · next h => subst h; simp
  · split
    · next h => subst h; simp
    · split
      · next h => subst h; simp
      · split
        · next h => subst h; simp
        · rw [if_neg (by omega)]

theorem wordsAt_copyWords (hRK : RK + 4 ≤ 68) :
    wordsAt (copyWords f sk RK SK buf) RK = (wordsAt sk SK).map f := by
  simp only [wordsAt, getWord_copyWords hRK]
  apply Words.ext <;> simp [Words.map]

theorem wordsAt_copyWords_of_lt (hRK : RK + 4 ≤ 68) (hi : i + 4 ≤ RK) :
    wordsAt (copyWords f sk RK SK buf) i = wordsAt buf i := by
  simp only [wordsAt, getWord_copyWords hRK]
  apply Words.ext <;> exact if_neg (by omega)

theorem wordsAt_decKeys_of_lt (hRK : RK + 4 * n + 4 ≤ 68) (hi : i + 4 ≤ RK) :
    wordsAt (decKeys sk n RK SK buf) i = wordsAt buf i := by
  induction n generalizing RK SK buf with
  | zero => exact wordsAt_copyWords_of_lt (by omega) hi
  | succ n ih =>
    rw [decKeys, ih (by omega) (by omega), wordsAt_copyWords_of_lt (by omega) hi]

/-- Round keys in the order of decryption. -/
theorem wordsAt_decKeys (hRK : RK + 4 * n + 4 ≤ 68) (hSK : 4 * n ≤ SK) (hi : i ≤ n) :
    wordsAt (decKeys sk n RK SK buf) (RK + 4 * i) =
      (wordsAt sk (SK - 4 * i)).map (if i = n then id else mixKey) := by
  induction n generalizing RK SK buf i with
  | zero =>
    obtain rfl : i = 0 := by omega
    exact wordsAt_copyWords (by omega)
  | succ n ih =>
    rw [decKeys]
    cases i with
    | zero =>
      rw [wordsAt_decKeys_of_lt (by omega) (by omega)]
      exact wordsAt_copyWords (by omega)
    | succ i =>
      have hstep : wordsAt (decKeys sk n (RK + 4) (SK + 4 - 8) (copyWords mixKey sk RK SK buf))
          (RK + 4 + 4 * i) = _ := ih (by omega) (by omega) (show i ≤ n by omega)
      rw [show RK + 4 * (i + 1) = RK + 4 + 4 * i by omega, hstep,
        show SK + 4 - 8 - 4 * i = SK - 4 * (i + 1) by omega]
      simp only [Nat.add_right_cancel_iff]

variable (ctx cty : AesContext) (key : List UInt8) {keysize nr : Nat}

theorem nr_aesSetkeyEnc (h : rounds? keysize = some nr) : (aesSetkeyEnc ctx key keysize).nr = nr := by
  rw [aesSetkeyEnc, h]
  dsimp only
  split <;> rfl

theorem rounds?_cases (h : rounds? keysize = some nr) : nr = 10 ∨ nr = 12 ∨ nr = 14 := by
  unfold rounds? at h
  split at h
  all_goals simp at h
  all_goals omega

/-- What `aesSetkeyEnc` leaves of the words it does not write is not read for the keys. -/
theorem inverseKeys_aesSetkeyDec (h : rounds? keysize = some nr) :
    aesLayers.InverseKeys (roundKey (aesSetkeyEnc cty key keysize).buf)
      (roundKey (aesSetkeyDec ctx cty key keysize).buf) (nr - 1) := by
  have hnr : 10 ≤ nr ∧ nr ≤ 14 := by
    have := rounds?_cases h
    omega
  have hdec : (aesSetkeyDec ctx cty key keysize).buf =
      decKeys (aesSetkeyEnc cty key keysize).buf (nr - 1) 4 (nr * 4 + 4 - 8)
        (copyWords id (aesSetkeyEnc cty key keysize).buf 0 (nr * 4) ctx.buf) := by
    rw [aesSetkeyDec, h]
    dsimp only
    rw [nr_aesSetkeyEnc _ _ h]
  have hid : ∀ a : Words, a.map id = a := fun _ => rfl
  refine ⟨?_, fun i hi => ?_, ?_⟩
  · rw [roundKey, hdec, wordsAt_decKeys_of_lt (by omega) (by omega), wordsAt_copyWords (by omega), hid,
      roundKey, show 4 * (nr - 1 + 1) = nr * 4 by omega]
  · rw [roundKey, hdec, show 4 * (i + 1) = 4 + 4 * i by omega,
      wordsAt_decKeys (by omega) (by omega) (by omega), if_neg (by omega), roundKey,
      show 4 * (nr - 1 - i) = nr * 4 + 4 - 8 - 4 * i by omega]
    rfl
  · rw [roundKey, hdec, show 4 * (nr - 1 + 1) = 4 + 4 * (nr - 1) by omega,
      wordsAt_decKeys (by omega) (by omega) (by omega), if_pos rfl, hid, roundKey,
      show 4 * 0 = nr * 4 + 4 - 8 - 4 * (nr - 1) by omega]

end keys

end McuUtilities.Tinycrypt
