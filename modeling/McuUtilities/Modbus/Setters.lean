import McuUtilities.Modbus.Registers

/-!
# Writing as a run of setters

What `eMbregSet` does is a run of setters over the entries from the start of the request on
(`Applied`). The run serves the whole request, or it is refused at some register (`Refused`) and
has then served the registers before it: `eMbregSet_meets`. Over a table with storage the run
leaves in each register it serves the value that the setter of its entry found at the start of the
buffer, not at the register's place in the request (`Applied.regFile_eq`).
-/

namespace McuUtilities.Modbus
open Prog

variable {σ : Type}

section defs
variable (regList : List (ModbusReg σ)) (a n : Nat) (buf : List UInt8)

/-- The setters of the entries of the registers `[a, a + k)`, called in order for a request of `n`
registers, accepted their parts and took the state `s` to `s'`. -/
inductive Applied (s : σ) : Nat → σ → Prop
  | nil : Applied s 0 s
  | snoc {k s₁ s₂ reg setter} : Applied s k s₁ → k < n → regAt regList (a + k) = some reg →
      reg.set = some setter →
      setter buf (reg.addOffset (a + k) * 2) (reg.len (reg.addOffset (a + k)) (n - k) * 2) s₁ =
        (0, s₂) →
      Applied s (k + reg.len (reg.addOffset (a + k)) (n - k)) s₂

/-- In the state `s` the register `a + k` of the request is refused, which leaves `s'`: it is not
mapped, its entry has no setter, or the setter refuses its part. -/
def Refused (k : Nat) (s s' : σ) : Prop :=
  match regAt regList (a + k) with
  | none => s' = s
  | some reg =>
    match reg.set with
    | none => s' = s
    | some setter =>
      ∃ r, r ≠ 0 ∧ setter buf (reg.addOffset (a + k) * 2)
        (reg.len (reg.addOffset (a + k)) (n - k) * 2) s = (r, s')

end defs

variable {regList : List (ModbusReg σ)} {a n k : Nat} {buf : List UInt8} {s s' : σ}

/-- One round of `eMbregSet` calls one more setter, or is refused. -/
theorem setStep_meets (h : Applied regList a n buf s k s') :
    Meets (setStep a n regList buf k) s'
      (fun r t => match r with
        | .inl k' => k < k' ∧ k' ≤ n ∧ Applied regList a n buf s k' t
        | .inr _ => n ≤ k ∧ t = s')
      (fun e t => e = .enoreg ∧ k < n ∧ Refused regList a n buf k s' t)
      (fun _ _ => False) := by
  unfold setStep
  split
  · next hlt =>
    split
    · next hr => exact ⟨rfl, hlt, by simp only [Refused, hr]⟩
    · next reg hr =>
      dsimp only
      split
      · next hset => exact ⟨rfl, hlt, by simp only [Refused, hr, hset]⟩
      · next setter hset =>
        refine Meets.bind (Meets.of_done (call_apply _) ?_)
        refine Meets.bind (Meets.require (fun hc => ?_) fun hc => ?_)
        · have hpos := (maps_of_regAt hr).len_pos (n - k) (by omega)
          have hle := reg.len_le (reg.addOffset (a + k)) (n - k)
          refine Meets.pure ⟨by omega, by omega, .snoc h hlt hr hset ?_⟩
          exact Prod.ext (by simpa using hc) rfl
        · refine ⟨rfl, hlt, ?_⟩
          simp only [Refused, hr, hset]
          exact ⟨_, by simpa using hc, rfl⟩
  · next hge => exact Meets.pure ⟨by omega, rfl⟩

/-- `eMbregSet` serves the whole request, or serves the registers before the first one that is
refused. -/
theorem eMbregSet_meets (regList : List (ModbusReg σ)) (a n : Nat) (buf : List UInt8) (s : σ) :
    Meets (eMbregSet a n regList buf) s
    (fun _ s' => Applied regList a n (swapBytes n buf) s n s')
    (fun e s' => e = .enoreg ∧ ∃ k < n, ∃ t, Applied regList a n (swapBytes n buf) s k t ∧
      Refused regList a n (swapBytes n buf) k t s')
    (fun _ _ => False) := by
  unfold eMbregSet
  refine Meets.bind (Meets.iterate_of_measure (μ := fun k => n - k)
    (I := fun k t => k ≤ n ∧ Applied regList a n (swapBytes n buf) s k t)
    ?_ ⟨Nat.zero_le _, .nil⟩ (by omega))
  rintro k t ⟨hk, ht⟩
  refine (setStep_meets ht).mono ?_ ?_ fun _ _ h => h
  · rintro r t' hr
    match r, hr with
    | .inl k', ⟨hlt, hle, hk'⟩ => exact ⟨⟨hle, hk'⟩, by omega⟩
    | .inr _, ⟨hge, ht'⟩ =>
      obtain rfl : k = n := by omega
      exact Meets.pure (ht' ▸ ht)
  · rintro e t' ⟨he, hlt, hr⟩
    exact ⟨he, k, hlt, t, ht, hr⟩

/-! ## Over storage -/

section storage
variable {cell : ModbusReg σ → σ → List UInt8}

/-- The run ends with the request or with an entry. -/
theorem Applied.boundary (h : Applied regList a n buf s k s') : k = 0 ∨ k = n ∨
    ∃ reg ∈ regList, reg.Maps (a + k - 1) ∧
      a + k = reg.regStart.toNat + reg.u16len.toNat := by
  cases h with
  | nil => exact .inl rfl
  | @snoc k s₁ s₂ reg setter h hlt hr hset hs =>
    have hx := maps_of_regAt hr
    have hpos := hx.len_pos (n - k) (by omega)
    rcases hx.len_eq (n - k) with hl | hl
    · exact .inr (.inl (by omega))
    · refine .inr (.inr ⟨reg, mem_of_regAt hr, ⟨?_, ?_⟩, by omega⟩)
      · have := hx.1; omega
      · omega

variable (hb : Stored regList cell) (hd : DisjointRanges regList)
include hd

/-- A setter called further on in the request starts at the start of its entry. -/
theorem Applied.start_eq (h : Applied regList a n buf s k s') (hk : k < n) {reg : ModbusReg σ}
    (hr : regAt regList (a + k) = some reg) : a + k = max a reg.regStart.toNat := by
  have hx := maps_of_regAt hr
  have hx1 := hx.1
  rcases h.boundary with rfl | rfl | ⟨reg', hm', hx', hend⟩
  · omega
  · omega
  · by_cases hk0 : k = 0
    · omega
    · by_contra hne
      have hprev : reg.Maps (a + k - 1) := ⟨by omega, by have := hx.2; omega⟩
      have h1 := regAt_of_maps hd hm' hx'
      rw [regAt_of_maps hd (mem_of_regAt hr) hprev] at h1
      cases h1
      have := hx.2
      omega

include hb

/-- What a run of setters leaves in the registers. -/
theorem Applied.regFile_eq (hlen : 2 * n ≤ buf.length) (h : Applied regList a n buf s k s') (x : Nat) :
    regFile regList cell s' x =
      (regAt regList x).map fun reg =>
        if a ≤ x ∧ x < a + k then word buf (x - max a reg.regStart.toNat)
        else word (cell reg s) (x - reg.regStart.toNat) := by
  induction h generalizing x with
  | nil =>
    have hc : ¬ (a ≤ x ∧ x < a + 0) := by omega
    simp only [if_neg hc]
    rfl
  | @snoc k s₁ s₂ reg setter h hlt hr hset hs ih =>
    have hm := mem_of_regAt hr
    have hx := maps_of_regAt hr
    have hstart := h.start_eq hd hlt hr
    have hoff := hx.addOffset
    have hend := hx.addOffset_add_len (n - k)
    have hle := reg.len_le (reg.addOffset (a + k)) (n - k)
    have hadd : ∀ i, i < reg.len (reg.addOffset (a + k)) (n - k) → reg.Maps (a + k + i) :=
      fun i hi => hx.add hi
    generalize reg.len (reg.addOffset (a + k)) (n - k) = l at *
    obtain ⟨hown, hother⟩ := hb.set reg hm setter hset _ _ _ _ _ hs (by omega) (by omega)
    cases hrx : regAt regList x with
    | none => rw [Option.map_none, regFile_eq_none.mpr hrx]
    | some r =>
      have hxr := maps_of_regAt hrx
      have hih := ih x
      rw [regFile_of_regAt hrx, hrx, Option.map_some, Option.some.injEq] at hih
      rw [regFile_of_regAt hrx, Option.map_some, Option.some.injEq]
      by_cases hne : r = reg
      · subst hne
        have h1 := hx.1
        have h2 := hxr.1
        have hcell := hb.length r hm s₁
        have hp : (buf.take (l * 2)).length = 2 * l := by simp; omega
        rw [hown, Nat.mul_comm _ 2, word_overwrite hp (by omega), hoff]
        by_cases hin : a + k ≤ x ∧ x < a + k + l
        · rw [if_pos (by omega), if_pos (by omega)]
          have := word_append_left (buf.take (l * 2)) (buf.drop (l * 2))
            (i := x - r.regStart.toNat - (a + k - r.regStart.toNat)) (by omega)
          rw [List.take_append_drop] at this
          rw [← this]
          congr 1
          omega
        · rw [if_neg (by omega), hih]
          by_cases hc : a ≤ x ∧ x < a + k
          · rw [if_pos hc, if_pos (by omega)]
          · rw [if_neg hc, if_neg (by omega)]
      · rw [hother r (mem_of_regAt hrx) hne, hih]
        have hout : ¬ (a + k ≤ x ∧ x < a + k + l) := fun hin => by
          have hmaps := hadd (x - (a + k)) (by omega)
          rw [Nat.add_sub_cancel' hin.1] at hmaps
          rw [regAt_of_maps hd hm hmaps] at hrx
          exact hne (Option.some.inj hrx).symm
        by_cases hc : a ≤ x ∧ x < a + k
        · rw [if_pos hc, if_pos (by omega)]
        · rw [if_neg hc, if_neg (by omega)]

omit hd hb in
/-- A run of setters serves mapped registers only. -/
theorem Applied.mapped (h : Applied regList a n buf s k s') (hd : DisjointRanges regList) {i : Nat}
    (hi : i < k) : ∃ reg, regAt regList (a + i) = some reg := by
  induction h with
  | nil => omega
  | @snoc k s₁ s₂ reg setter h hlt hr hset hs ih =>
    by_cases hik : i < k
    · exact ih hik
    · refine ⟨reg, regAt_of_maps hd (mem_of_regAt hr) ?_⟩
      have hlt' : i - k < reg.len (reg.addOffset (a + k)) (n - k) := by omega
      have := (maps_of_regAt hr).add hlt'
      rwa [Nat.add_assoc, Nat.add_sub_cancel' (Nat.le_of_not_lt hik)] at this

end storage

end McuUtilities.Modbus
