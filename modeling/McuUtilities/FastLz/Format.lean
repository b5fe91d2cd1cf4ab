import McuUtilities.FastLz.Decompress
import McuUtilities.Lib.LempelZiv
import Mathlib.Data.Nat.Bitwise

/-!
# The format of the compressed data

Each item has a control byte and operands: the literals of a run, or the length and the distance of a
match. `decompressLoop_eq` says that the code expands the items it reads. A match that is too long for
level 1 is written as several ones (`exists_pieces`).
-/

namespace McuUtilities.FastLz

open LempelZiv

/-! ## Computations -/

section runs
variable {α β : Type} {buf bytes op : List UInt8} {cap p k : Nat} {b : UInt8}

@[simp] theorem ok_bind {a : α} {f : α → Run β} : (Except.ok a >>= f : Run β) = f a := rfl

theorem byteAt_eq (h : buf[p]? = some b) : byteAt buf p = .ok b := by
  rw [byteAt, h]

theorem byteAt_lt (h : p < buf.length) : byteAt buf p = .ok buf[p] :=
  byteAt_eq (List.getElem?_eq_getElem h)

/-- A byte of the rest of the buffer. -/
theorem byteAt_drop {rest : List UInt8} (h : buf.drop p = rest) (hk : rest[k]? = some b) :
    byteAt buf (p + k) = .ok b := by
  rw [← h, List.getElem?_drop] at hk
  exact byteAt_eq hk

theorem put_eq (h : op.length + bytes.length ≤ cap) : put cap bytes op = .ok (op ++ bytes) := if_pos h

theorem putInput_eq {n ip : Nat} (hin : ip + n ≤ buf.length) (hout : op.length + n ≤ cap) :
    putInput buf cap n ip op = .ok (op ++ (buf.drop ip).take n) := by
  induction n generalizing ip op with
  | zero => rw [putInput, List.take_zero, List.append_nil]
  | succ n ih =>
    have hlt : ip < buf.length := by omega
    have hput : put cap [buf[ip]] op = .ok (op ++ [buf[ip]]) := put_eq (by simp; omega)
    have hrest := @ih (op ++ [buf[ip]]) (ip + 1) (by omega) (by simp; omega)
    rw [putInput, byteAt_lt hlt, ok_bind, hput, ok_bind, hrest, List.append_assoc,
      List.drop_eq_getElem_cons hlt, List.take_succ_cons, List.singleton_append]

theorem copyRef_eq {maxout n ref : Nat} {out : List UInt8} (h : copyFrom n ref op = some out)
    (hout : out.length ≤ maxout) : copyRef maxout n ref op = .ok out := by
  induction n generalizing ref op with
  | zero =>
    cases h
    rfl
  | succ n ih =>
    have hlen := length_copyFrom h
    rw [copyFrom] at h
    rw [copyRef]
    cases hget : op[ref]? with
    | none =>
      rw [hget] at h
      cases h
    | some b =>
      rw [hget] at h
      dsimp only at h ⊢
      have hput : put maxout [b] op = .ok (op ++ [b]) := put_eq (by simp; omega)
      rw [hput, ok_bind]
      exact ih h

end runs

theorem and_31 (n : Nat) : n &&& 31 = n % 32 := Nat.and_two_pow_sub_one_eq_mod n 5

theorem and_255 (n : Nat) : n &&& 255 = n % 256 := Nat.and_two_pow_sub_one_eq_mod n 8

/-! ## Items -/

/-- What one item of the format can say. -/
def Fits : Level → Item UInt8 → Prop
  | _, .literal bytes => 0 < bytes.length ∧ bytes.length ≤ maxCopy
  | .one, .copy distance length => 0 < distance ∧ distance ≤ maxDistance .one ∧ 3 ≤ length ∧ length ≤ maxLen
  | .two, .copy distance length => 0 < distance ∧ distance ≤ 65536 + maxDistance .two ∧ 3 ≤ length

/-- The bytes of an item. -/
def encode (level : Level) : Item UInt8 → List UInt8
  | .literal bytes => UInt8.ofNat (bytes.length - 1) :: bytes
  | .copy distance length => encodeMatch level (length - 2) (distance - 1)

def encodeAll (level : Level) (items : List (Item UInt8)) : List UInt8 := items.flatMap (encode level)

section encode
variable {level : Level} {items items' : List (Item UInt8)} {d n : Nat}

@[simp] theorem encodeAll_nil : encodeAll level [] = [] := rfl

@[simp] theorem encodeAll_cons {item : Item UInt8} :
    encodeAll level (item :: items) = encode level item ++ encodeAll level items := rfl

@[simp] theorem encodeAll_append : encodeAll level (items ++ items') =
    encodeAll level items ++ encodeAll level items' := List.flatMap_append

theorem lenBytes_length_le : (lenBytes n).length ≤ n / 255 + 1 := by
  induction n using Nat.strong_induction_on with
  | _ n ih =>
    rw [lenBytes]
    split
    · have := ih (n - 255) (by omega)
      rw [List.length_cons]
      omega
    · simp

theorem le_length_lenBytes (n : Nat) : n / 255 < (lenBytes n).length := by
  induction n using Nat.strong_induction_on with
  | _ n ih =>
    rw [lenBytes]
    split
    · have := ih (n - 255) (by omega)
      rw [List.length_cons]
      omega
    · rw [List.length_singleton]
      omega

/-- Every match is written shorter than it is, in one or several items. -/
theorem exists_pieces (hd : 0 < d) (hreach : d < beyond level) (hn : 3 ≤ n)
    (hfar : level = .two → maxDistance .two < d → 5 ≤ n) :
    ∃ items, encodeMatch level (n - 2) (d - 1) = encodeAll level items ∧ (∀ it ∈ items, Fits level it) ∧
      (encodeAll level items).length < n ∧
      ∀ its xs i, Covers its xs i → d ≤ i → i + n ≤ xs.length → Matches xs d i (i + n) →
        Covers (its ++ items) xs (i + n) := by
  cases level with
  | one =>
    induction n using Nat.strong_induction_on with
    | _ n ih =>
      by_cases hlong : maxLen < n
      · unfold maxLen at hlong
        obtain ⟨items, henc, hfits, hlen, hcovers⟩ := ih (n - 262) (by omega) (by omega) (fun h => by cases h)
        have hone : encode .one (.copy d 262) = [UInt8.ofNat (7 <<< 5 + (d - 1) >>> 8), UInt8.ofNat 253,
            UInt8.ofNat ((d - 1) &&& 255)] := by
          rw [encode, encodeMatch, encodeNear, if_neg (by unfold maxLen; omega), if_neg (by omega)]
        refine ⟨.copy d 262 :: items, ?_, ?_, ?_, ?_⟩
        · rw [encodeMatch, encodeNear, if_pos (by unfold maxLen; omega), encodeAll_cons, hone, ← henc, encodeMatch,
            (by unfold maxLen; omega : n - 2 - (maxLen - 2) = n - 262 - 2)]
          rfl
        · intro it hit
          rcases List.mem_cons.mp hit with rfl | hit
          · exact ⟨hd, Nat.le_of_lt hreach, by omega, by unfold maxLen; omega⟩
          · exact hfits it hit
        · rw [encodeAll_cons, hone, List.length_append]
          simp only [List.length_cons, List.length_nil]
          omega
        · intro its xs i hits hdi hxs hmatch
          have hfirst := hits.copy hd hdi (by omega : i + 262 ≤ xs.length) (hmatch.mono (Nat.le_refl i) (by omega))
          have hrest := hcovers _ xs (i + 262) hfirst (by omega) (by omega)
            (hmatch.mono (by omega) (by omega))
          rw [List.append_assoc, (by omega : i + 262 + (n - 262) = i + n)] at hrest
          exact hrest
      · refine ⟨[.copy d n], by rw [encodeAll_cons, encodeAll_nil, List.append_nil]; rfl, ?_, ?_, ?_⟩
        · intro it hit
          obtain rfl := List.mem_singleton.mp hit
          exact ⟨hd, Nat.le_of_lt hreach, hn, Nat.le_of_not_lt hlong⟩
        · unfold maxLen at hlong
          rw [encodeAll_cons, encodeAll_nil, List.append_nil, encode, encodeMatch, encodeNear,
            if_neg (by unfold maxLen; omega)]
          split <;> simp only [List.length_cons, List.length_nil] <;> omega
        · exact fun its xs i hits hdi hxs hmatch => hits.copy hd hdi hxs hmatch
  | two =>
    refine ⟨[.copy d n], by rw [encodeAll_cons, encodeAll_nil, List.append_nil]; rfl, ?_, ?_, ?_⟩
    · intro it hit
      obtain rfl := List.mem_singleton.mp hit
      refine ⟨hd, ?_, hn⟩
      simp only [beyond, maxFardistance, maxDistance] at hreach ⊢
      omega
    · have hbytes := @lenBytes_length_le (n - 2 - 7)
      rw [encodeAll_cons, encodeAll_nil, List.append_nil, encode, encodeMatch, encodeFar]
      split
      · split
        · simp only [List.length_cons, List.length_nil]
          omega
        · simp only [List.length_cons, List.length_append, List.length_nil]
          omega
      · next hnear =>
        have h5 := hfar rfl (by omega)
        dsimp only
        split
        · simp only [List.length_cons, List.length_nil]
          omega
        · simp only [List.length_cons, List.length_append, List.length_nil]
          omega
    · exact fun its xs i hits hdi hxs hmatch => hits.copy hd hdi hxs hmatch

/-! ## Reading a match -/

/-- The fields of the control byte of a match. -/
theorem ctrl_fields {len ofs : Nat} (hlen : len < 8) (hofs : ofs < 32) :
    (UInt8.ofNat (len <<< 5 + ofs)).toNat >>> 5 - 1 = len - 1 ∧
      (UInt8.ofNat (len <<< 5 + ofs)).toNat &&& 31 = ofs ∧ (0 < len → 32 ≤ (UInt8.ofNat (len <<< 5 + ofs)).toNat) := by
  have hbyte : (UInt8.ofNat (len <<< 5 + ofs)).toNat = len * 32 + ofs := by
    rw [UInt8.toNat_ofNat', Nat.shiftLeft_eq]
    omega
  rw [hbyte, and_31, Nat.shiftRight_eq_div_pow]
  omega

theorem toNat_255 : (255 : UInt8).toNat = 255 := rfl

theorem readLen_eq {input post : List UInt8} {fuel ip len more : Nat}
    (h : input.drop ip = lenBytes more ++ post) (hfuel : more / 255 < fuel) :
    readLen input fuel ip len = .ok (len + more, ip + (lenBytes more).length) := by
  induction fuel generalizing ip len more with
  | zero => exact absurd hfuel (Nat.not_lt_zero _)
  | succ fuel ih =>
    rw [lenBytes] at h ⊢
    rw [readLen]
    split at h
    · next hge =>
      rw [if_pos hge]
      have hbyte := @byteAt_drop input ip 0 255 _ h rfl
      have hdrop : input.drop (ip + 1) = lenBytes (more - 255) ++ post := by
        rw [← List.drop_drop, h]
        rfl
      have hrest := @ih (ip + 1) (len + 255) (more - 255) hdrop (by omega)
      rw [Nat.add_zero] at hbyte
      rw [hbyte, ok_bind, if_pos rfl, toNat_255, hrest, List.length_cons,
        (by omega : len + 255 + (more - 255) = len + more), Nat.add_assoc, Nat.add_comm 1]
    · next hlt =>
      rw [if_neg hlt]
      have hbyte := @byteAt_drop input ip 0 (UInt8.ofNat more) _ h rfl
      have hval : (UInt8.ofNat more).toNat = more := by
        rw [UInt8.toNat_ofNat']
        omega
      have hne : UInt8.ofNat more ≠ 255 := by
        intro heq
        rw [heq] at hval
        exact hlt (by rw [← hval]; decide)
      rw [Nat.add_zero] at hbyte
      rw [hbyte, ok_bind, if_neg hne, hval]
      rfl

section read
variable {input operands post : List UInt8} {ip : Nat} {c : UInt8}

theorem low_byte (m : Nat) : (UInt8.ofNat (m &&& 255)).toNat = m % 256 := by
  rw [UInt8.toNat_ofNat', and_255]
  omega

theorem readMatch_one (hfits : Fits .one (.copy d n)) (henc : encode .one (.copy d n) = c :: operands)
    (h : input.drop ip = operands ++ post) :
    32 ≤ c.toNat ∧ readMatch .one input ip c.toNat = .ok (d - 1, n - 3, ip + operands.length) := by
  obtain ⟨hd, hreach, hn, hmax⟩ := hfits
  have hhigh : (d - 1) >>> 8 = (d - 1) / 256 := Nat.shiftRight_eq_div_pow (d - 1) 8
  simp only [maxDistance, maxLen] at hreach hmax
  have hofs : (d - 1) / 256 < 32 := by omega
  have hback : ((d - 1) / 256) <<< 8 + (d - 1) % 256 = d - 1 := by
    rw [Nat.shiftLeft_eq]
    omega
  rw [encode, encodeMatch, encodeNear, if_neg (by unfold maxLen; omega), hhigh] at henc
  split at henc
  · next hshort =>
    obtain ⟨rfl, rfl⟩ := List.cons.inj henc
    obtain ⟨hlen, hlow, hge⟩ := ctrl_fields (by omega : n - 2 < 8) hofs
    have hbyte := @byteAt_drop input ip 0 _ _ h rfl
    rw [Nat.add_zero] at hbyte
    refine ⟨hge (by omega), ?_⟩
    rw [readMatch, hlen, hlow]
    rw [if_neg (by omega), hbyte, ok_bind, low_byte, hback]
    rfl
  · next hlong =>
    obtain ⟨rfl, rfl⟩ := List.cons.inj henc
    obtain ⟨hlen, hlow, hge⟩ := ctrl_fields (by omega : 7 < 8) hofs
    have hmore := @byteAt_drop input ip 0 _ _ h rfl
    have hcode := @byteAt_drop input ip 1 _ _ h rfl
    rw [Nat.add_zero] at hmore
    have hval : (UInt8.ofNat (n - 2 - 7)).toNat = n - 2 - 7 := by
      rw [UInt8.toNat_ofNat']
      omega
    refine ⟨hge (by omega), ?_⟩
    rw [readMatch, hlen, hlow]
    rw [if_pos rfl, hmore, ok_bind, hcode, ok_bind, low_byte, hback, hval,
      (by omega : 7 - 1 + (n - 2 - 7) = n - 3)]
    rfl

/-- The length of a match of level 2. -/
theorem readLen_two {ofs : Nat} {tail : List UInt8} (hn : 3 ≤ n) (hofs : ofs < 32)
    (henc : (if n - 2 < 7 then UInt8.ofNat ((n - 2) <<< 5 + ofs) :: tail
      else UInt8.ofNat (7 <<< 5 + ofs) :: (lenBytes (n - 2 - 7) ++ tail)) = c :: operands)
    (h : input.drop ip = operands ++ post) :
    32 ≤ c.toNat ∧ c.toNat &&& 31 = ofs ∧
      longLen input ip (c.toNat >>> 5 - 1) = .ok (n - 3, ip + (operands.length - tail.length)) ∧
      input.drop (ip + (operands.length - tail.length)) = tail ++ post ∧ tail.length ≤ operands.length := by
  split at henc
  · next hshort =>
    obtain ⟨rfl, rfl⟩ := List.cons.inj henc
    obtain ⟨hlen, hlow, hge⟩ := ctrl_fields (by omega : n - 2 < 8) hofs
    rw [hlen, longLen, if_neg (by omega), Nat.sub_self]
    exact ⟨hge (by omega), hlow, rfl, h, Nat.le_refl _⟩
  · next hlong =>
    obtain ⟨rfl, rfl⟩ := List.cons.inj henc
    obtain ⟨hlen, hlow, hge⟩ := ctrl_fields (by omega : 7 < 8) hofs
    rw [List.append_assoc] at h
    have hbytes := congrArg List.length h
    rw [List.length_drop, List.length_append] at hbytes
    have hroom : (n - 2 - 7) / 255 < input.length + 1 := by
      have := le_length_lenBytes (n - 2 - 7)
      omega
    have hlens := @readLen_eq input (tail ++ post) (input.length + 1) ip (7 - 1) (n - 2 - 7) h hroom
    have hsize : (lenBytes (n - 2 - 7) ++ tail).length - tail.length = (lenBytes (n - 2 - 7)).length := by
      rw [List.length_append]
      omega
    rw [hlen, longLen, if_pos rfl, hlens, hsize, (by omega : 7 - 1 + (n - 2 - 7) = n - 3)]
    refine ⟨hge (by omega), hlow, rfl, ?_, by rw [List.length_append]; omega⟩
    rw [← List.drop_drop, h, List.drop_left]

theorem readMatch_two (hfits : Fits .two (.copy d n)) (henc : encode .two (.copy d n) = c :: operands)
    (h : input.drop ip = operands ++ post) :
    32 ≤ c.toNat ∧ readMatch .two input ip c.toNat = .ok (d - 1, n - 3, ip + operands.length) := by
  obtain ⟨hd, hreach, hn⟩ := hfits
  simp only [maxDistance] at hreach
  rw [encode, encodeMatch, encodeFar] at henc
  split at henc
  · next hnear =>
    have hnear : d - 1 < 8191 := hnear
    have hhigh : (d - 1) >>> 8 = (d - 1) / 256 := Nat.shiftRight_eq_div_pow (d - 1) 8
    have hback : ((d - 1) / 256) <<< 8 + (d - 1) % 256 = d - 1 := by
      rw [Nat.shiftLeft_eq]
      omega
    rw [hhigh] at henc
    obtain ⟨hge, hlow, hlens, hdrop, hle⟩ := @readLen_two n input operands post ip c ((d - 1) / 256)
      [UInt8.ofNat ((d - 1) &&& 255)] hn (by omega) henc h
    have hcode := @byteAt_drop input _ 0 _ _ hdrop rfl
    rw [Nat.add_zero] at hcode
    refine ⟨hge, ?_⟩
    rw [readMatch, hlow, hlens, ok_bind]
    have hnot : ¬ (UInt8.ofNat ((d - 1) &&& 255) = 255 ∧ ((d - 1) / 256) <<< 8 = 31 <<< 8) := by
      rintro ⟨hlast, hfirst⟩
      have hlast := congrArg UInt8.toNat hlast
      rw [low_byte, toNat_255] at hlast
      rw [Nat.shiftLeft_eq, Nat.shiftLeft_eq] at hfirst
      omega
    rw [hcode, ok_bind, if_neg hnot, low_byte, hback]
    have hlen : ip + (operands.length - [UInt8.ofNat ((d - 1) &&& 255)].length) + 1 = ip + operands.length := by
      rw [List.length_singleton] at hle ⊢
      omega
    rw [hlen]
  · next hfar =>
    have hfar : ¬ d - 1 < 8191 := hfar
    dsimp only at henc
    have hhigh : (d - 1 - maxDistance .two) >>> 8 = (d - 1 - 8191) / 256 :=
      Nat.shiftRight_eq_div_pow (d - 1 - 8191) 8
    rw [hhigh] at henc
    obtain ⟨hge, hlow, hlens, hdrop, hle⟩ := @readLen_two n input operands post ip c 31
      [255, UInt8.ofNat ((d - 1 - 8191) / 256), UInt8.ofNat ((d - 1 - 8191) &&& 255)] hn (by omega) henc h
    have hcode := @byteAt_drop input _ 0 _ _ hdrop rfl
    have hhi := @byteAt_drop input _ 1 _ _ hdrop rfl
    have hlo := @byteAt_drop input _ 2 _ _ hdrop rfl
    rw [Nat.add_zero] at hcode
    refine ⟨hge, ?_⟩
    rw [readMatch, hlow, hlens, ok_bind]
    have hval : (UInt8.ofNat ((d - 1 - 8191) / 256)).toNat = (d - 1 - 8191) / 256 := by
      rw [UInt8.toNat_ofNat']
      omega
    have hback : ((d - 1 - 8191) / 256) <<< 8 + (d - 1 - 8191) % 256 + maxDistance .two = d - 1 := by
      rw [Nat.shiftLeft_eq]
      simp only [maxDistance]
      omega
    rw [hcode, ok_bind, if_pos ⟨rfl, rfl⟩, hhi, ok_bind, hlo, ok_bind, hval, low_byte, hback]
    have hend {tail : List UInt8} (h3 : tail.length = 3) (hle : tail.length ≤ operands.length) :
        ip + (operands.length - tail.length) + 3 = ip + operands.length := by omega
    rw [hend rfl hle]

/-- The code reads a match as it was written. -/
theorem readMatch_eq (hfits : Fits level (.copy d n)) (henc : encode level (.copy d n) = c :: operands)
    (h : input.drop ip = operands ++ post) :
    32 ≤ c.toNat ∧ readMatch level input ip c.toNat = .ok (d - 1, n - 3, ip + operands.length) := by
  cases level with
  | one => exact readMatch_one hfits henc h
  | two => exact readMatch_two hfits henc h

end read

/-! ## The main loop -/

theorem encode_ne_nil {item : Item UInt8} (h : Fits level item) : ∃ c operands, encode level item = c :: operands := by
  cases item with
  | literal bytes => exact ⟨_, _, rfl⟩
  | copy d n =>
    cases level with
    | one =>
      rw [encode, encodeMatch, encodeNear]
      split
      · exact ⟨_, _, rfl⟩
      · split <;> exact ⟨_, _, rfl⟩
    | two =>
      rw [encode, encodeMatch, encodeFar]
      split
      · split <;> exact ⟨_, _, rfl⟩
      · dsimp only
        split <;> exact ⟨_, _, rfl⟩

section loop
variable {input junk operands out xs : List UInt8} {item : Item UInt8} {ip fuel length maxout : Nat} {c : UInt8}

theorem nextCtrl_eq (h : input.drop ip = c :: operands) (hlen : ip < length) :
    nextCtrl input length ip = .ok (some (c.toNat, ip + 1)) := by
  have hbyte := @byteAt_drop input ip 0 c _ h rfl
  rw [Nat.add_zero] at hbyte
  rw [nextCtrl, if_pos hlen, hbyte, ok_bind]

/-- One round expands one item. -/
theorem decompressLoop_item (hfits : Fits level item) (henc : encode level item = c :: operands)
    (hdrop : input.drop ip = operands ++ junk) (hitem : item.extend out = some xs)
    (hlen : ip + operands.length ≤ length) (hmax : xs.length ≤ maxout) :
    (nextCtrl input length (ip + operands.length) = .ok none →
      decompressLoop level input length maxout (fuel + 1) ip c.toNat out = .ok xs) ∧
    ∀ ctrl ip', nextCtrl input length (ip + operands.length) = .ok (some (ctrl, ip')) →
      decompressLoop level input length maxout (fuel + 1) ip c.toNat out =
        decompressLoop level input length maxout fuel ip' ctrl xs := by
  have hsize := Item.length_extend hitem
  cases item with
  | literal bytes =>
    obtain ⟨hpos, hle⟩ := hfits
    obtain ⟨rfl, rfl⟩ := List.cons.inj henc
    cases hitem
    have hle : bytes.length ≤ 32 := hle
    have hctrl : (UInt8.ofNat (bytes.length - 1)).toNat = bytes.length - 1 := by
      rw [UInt8.toNat_ofNat']
      omega
    rw [List.length_append] at hmax
    have hin : ip + bytes.length ≤ input.length := by
      have := congrArg List.length hdrop
      rw [List.length_drop, List.length_append] at this
      omega
    have hput : putInput input maxout bytes.length ip out = .ok (out ++ bytes) := by
      rw [putInput_eq hin hmax, hdrop, List.take_left]
    rw [decompressLoop, hctrl, if_neg (by omega), Nat.sub_add_cancel hpos, if_neg (by omega),
      if_neg (by omega), hput, ok_bind]
    constructor
    · intro hnext
      rw [hnext]
      rfl
    · intro ctrl ip' hnext
      rw [hnext]
      rfl
  | copy d n =>
    obtain ⟨hge, hread⟩ := readMatch_eq hfits henc hdrop
    have hn : 3 ≤ n := by
      cases level with
      | one => exact hfits.2.2.1
      | two => exact hfits.2.2
    rw [Item.size] at hsize
    rw [Item.extend] at hitem
    split at hitem
    · next hd =>
      obtain ⟨hd, hout⟩ := hd
      rw [decompressLoop, if_pos hge, hread, ok_bind]
      dsimp only
      rw [if_neg (by omega), if_neg (by omega), (by omega : n - 3 + 3 = n)]
      have hwritten : copyMatch maxout (d - 1) n out = .ok xs := by
        rw [copyMatch]
        split
        · next hd0 =>
          obtain rfl : d = 1 := by omega
          have hne : out ≠ [] := fun hnil => by simp [hnil] at hout
          obtain ⟨out, b, rfl⟩ := List.eq_nil_or_concat' out |>.resolve_left hne
          rw [List.length_append, List.length_singleton, Nat.add_sub_cancel, copyFrom_last] at hitem
          rw [List.getLast?_concat]
          dsimp only
          obtain rfl := Option.some.inj hitem
          refine put_eq ?_
          rw [List.length_append, List.length_replicate] at hmax
          rw [List.length_replicate]
          exact hmax
        · rw [(by omega : out.length - (d - 1) - 1 = out.length - d)]
          exact copyRef_eq hitem hmax
      constructor
      · intro hnext
        rw [hnext, ok_bind, hwritten]
        rfl
      · intro ctrl ip' hnext
        rw [hnext, ok_bind, hwritten]
        rfl
    · cases hitem

/-- The code expands the items it reads. -/
theorem decompressLoop_eq {items : List (Item UInt8)} (hfits : ∀ it ∈ item :: items, Fits level it)
    (henc : encode level item = c :: operands)
    (hdrop : input.drop ip = operands ++ (encodeAll level items ++ junk))
    (hlen : length = ip + operands.length + (encodeAll level items).length)
    (hexpand : expand (item :: items) out = some xs) (hmax : xs.length ≤ maxout) (hfuel : items.length < fuel) :
    decompressLoop level input length maxout fuel ip c.toNat out = .ok xs := by
  induction items generalizing item ip c operands out fuel with
  | nil =>
    obtain ⟨fuel, rfl⟩ := Nat.exists_eq_succ_of_ne_zero (Nat.ne_of_gt hfuel)
    obtain ⟨out', hitem, hrest⟩ := Option.bind_eq_some_iff.mp hexpand
    cases hrest
    rw [encodeAll_nil, List.length_nil] at hlen
    have hend : nextCtrl input length (ip + operands.length) = .ok none := if_neg (by omega)
    exact (decompressLoop_item (hfits item List.mem_cons_self) henc hdrop hitem (by omega) hmax).1 hend
  | cons item' items ih =>
    obtain ⟨fuel, rfl⟩ := Nat.exists_eq_succ_of_ne_zero (Nat.ne_of_gt (Nat.zero_lt_of_lt hfuel))
    obtain ⟨out', hitem, hrest⟩ := Option.bind_eq_some_iff.mp hexpand
    have hfits' : ∀ it ∈ item' :: items, Fits level it := fun it hit => hfits it (List.mem_cons_of_mem _ hit)
    obtain ⟨c', operands', henc'⟩ := encode_ne_nil (hfits' item' List.mem_cons_self)
    have hdrop' : input.drop (ip + operands.length) = c' :: (operands' ++ (encodeAll level items ++ junk)) := by
      rw [← List.drop_drop, hdrop, List.drop_left, encodeAll_cons, henc', List.append_assoc]
      rfl
    rw [encodeAll_cons, henc', List.length_append, List.length_cons] at hlen
    have hnext := @nextCtrl_eq input (operands' ++ (encodeAll level items ++ junk)) _ length c' hdrop' (by omega)
    have hloop := (@decompressLoop_item level input _ operands out out' item ip fuel length maxout c
      (hfits item List.mem_cons_self) henc hdrop hitem (by omega)
      (Nat.le_trans (length_le_expand hrest) hmax)).2 _ _ hnext
    rw [hloop]
    refine @ih operands' out' item' (ip + operands.length + 1) fuel c' hfits' henc' ?_ (by omega) hrest
      (Nat.lt_of_succ_lt_succ hfuel)
    rw [← List.drop_drop, hdrop']
    rfl

end loop

theorem length_le_encodeAll (hfits : ∀ it ∈ items, Fits level it) :
    items.length ≤ (encodeAll level items).length := by
  induction items with
  | nil => exact Nat.le_refl 0
  | cons it items ih =>
    obtain ⟨c, operands, henc⟩ := encode_ne_nil (hfits it List.mem_cons_self)
    have hrest := ih fun it' hit => hfits it' (List.mem_cons_of_mem _ hit)
    rw [encodeAll_cons, henc, List.length_append, List.length_cons, List.length_cons]
    omega

/-- The first byte says the level. -/
theorem first_byte {k : Nat} (hk : k < 32) :
    ((UInt8.ofNat k).toNat >>> 5 + 1 = 1 ∧ UInt8.ofNat k &&& 31 = UInt8.ofNat k) ∧
      (UInt8.ofNat k ||| 32).toNat >>> 5 + 1 = 2 ∧ (UInt8.ofNat k ||| 32) &&& 31 = UInt8.ofNat k := by
  have hall : ∀ k < 32, ((UInt8.ofNat k).toNat >>> 5 + 1 = 1 ∧ UInt8.ofNat k &&& 31 = UInt8.ofNat k) ∧
      (UInt8.ofNat k ||| 32).toNat >>> 5 + 1 = 2 ∧ (UInt8.ofNat k ||| 32) &&& 31 = UInt8.ofNat k := by decide
  exact hall k hk

/-- The code expands compressed data that begin with a literal. -/
theorem fastlzDecompress_eq {bytes junk xs : List UInt8} {maxout : Nat}
    (hfits : ∀ it ∈ .literal bytes :: items, Fits level it)
    (hexpand : expand (.literal bytes :: items) [] = some xs) (hmax : xs.length ≤ maxout) :
    fastlzDecompress (mark level (encodeAll level (.literal bytes :: items)) ++ junk)
      (mark level (encodeAll level (.literal bytes :: items))).length maxout = .ok xs := by
  obtain ⟨hpos, hle⟩ := hfits _ List.mem_cons_self
  have hle : bytes.length ≤ 32 := hle
  have hfuel := length_le_encodeAll fun it hit => hfits it (List.mem_cons_of_mem _ hit)
  have hloop : ∀ level' first, first &&& 31 = UInt8.ofNat (bytes.length - 1) → level' = level →
      decompressor level' (first :: (bytes ++ (encodeAll level items ++ junk)))
        (1 + bytes.length + (encodeAll level items).length) maxout = .ok xs := by
    intro level' first hfirst hlevel
    subst hlevel
    rw [decompressor, byteAt_eq (b := first) rfl, ok_bind, hfirst]
    have hdrop : (first :: (bytes ++ (encodeAll level' items ++ junk))).drop 1 =
        bytes ++ (encodeAll level' items ++ junk) := rfl
    exact decompressLoop_eq hfits rfl hdrop rfl hexpand hmax (by omega)
  have hbytes : encodeAll level (.literal bytes :: items) =
      UInt8.ofNat (bytes.length - 1) :: (bytes ++ encodeAll level items) := rfl
  obtain ⟨hone, htwo⟩ := first_byte (by omega : bytes.length - 1 < 32)
  rw [fastlzDecompress, hbytes]
  cases level with
  | one =>
    rw [mark, List.cons_append, List.append_assoc, byteAt_eq rfl, ok_bind, if_pos hone.1, List.length_cons,
      List.length_append, Nat.add_comm _ 1, ← Nat.add_assoc]
    exact hloop .one _ hone.2 rfl
  | two =>
    rw [mark, List.modifyHead_cons, List.cons_append, List.append_assoc, byteAt_eq rfl, ok_bind,
      if_neg (by rw [htwo.1]; decide), if_pos htwo.1, List.length_cons, List.length_append, Nat.add_comm _ 1,
      ← Nat.add_assoc]
    exact hloop .two _ htwo.2 rfl

end encode

end McuUtilities.FastLz
