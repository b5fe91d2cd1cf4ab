import McuUtilities.Modbus.Words

/-!
# Reading a request

A request is read entry by entry: `getterCalls` lists the getters that are called for it, each with
the state it finds. Over disjoint ranges `eMbregGet` succeeds exactly when each register of the
request lies in an entry whose getter was called and returned a buffer, and then it returns the
words of these buffers (`eMbregGet_reads`).
-/

namespace McuUtilities.Modbus
open Prog

variable {σ : Type}

/-- No register is mapped by two entries. -/
def DisjointRanges (regList : List (ModbusReg σ)) : Prop :=
  regList.Pairwise fun r r' => ∀ x, r.Maps x → ¬ r'.Maps x

/-! ## The search -/

section search
variable {regList : List (ModbusReg σ)} {reg : ModbusReg σ} {x : Nat}

theorem mem_of_regAt (h : regAt regList x = some reg) : reg ∈ regList := List.mem_of_find?_eq_some h

theorem maps_of_regAt (h : regAt regList x = some reg) : reg.Maps x := by
  have := List.find?_some h
  simpa using this

/-- Over disjoint ranges the search finds the entry that maps the address. -/
theorem regAt_of_maps (hd : DisjointRanges regList) (hm : reg ∈ regList) (hx : reg.Maps x) :
    regAt regList x = some reg := by
  induction regList with
  | nil => cases hm
  | cons r rs ih =>
    obtain ⟨hr, hrs⟩ := List.pairwise_cons.mp hd
    by_cases hrx : r.Maps x
    · have : r = reg := by
        rcases List.mem_cons.mp hm with h | h
        · exact h.symm
        · exact absurd hx (hr reg h x hrx)
      simp [regAt, this ▸ hrx, this]
    · have hne : reg ≠ r := fun h => hrx (h ▸ hx)
      have hm' : reg ∈ rs := (List.mem_cons.mp hm).resolve_left hne
      simpa [regAt, hrx] using ih hrs hm'

end search

/-! ## The part of a request that lies in one entry -/

section part
variable {reg : ModbusReg σ} {x left i : Nat}

theorem ModbusReg.Maps.addOffset (h : reg.Maps x) : reg.addOffset x = x - reg.regStart.toNat := by
  obtain ⟨h1, -⟩ := h
  simp only [ModbusReg.addOffset]
  split <;> omega

theorem ModbusReg.len_le (reg : ModbusReg σ) (x left : Nat) : reg.len x left ≤ left := by
  simp only [ModbusReg.len]
  split <;> omega

/-- The part is not empty. -/
theorem ModbusReg.Maps.len_pos (h : reg.Maps x) (left : Nat) (hl : 0 < left) :
    0 < reg.len (reg.addOffset x) left := by
  rw [h.addOffset]
  obtain ⟨h1, h2⟩ := h
  simp only [ModbusReg.len]
  split <;> omega

/-- The part ends in the entry. -/
theorem ModbusReg.Maps.addOffset_add_len (h : reg.Maps x) (left : Nat) :
    reg.addOffset x + reg.len (reg.addOffset x) left ≤ reg.u16len.toNat := by
  rw [h.addOffset]
  obtain ⟨h1, h2⟩ := h
  simp only [ModbusReg.len]
  split <;> omega

theorem ModbusReg.Maps.add (h : reg.Maps x) (hi : i < reg.len (reg.addOffset x) left) :
    reg.Maps (x + i) := by
  have h3 := h.addOffset_add_len left
  rw [h.addOffset] at h3 hi
  obtain ⟨h1, h2⟩ := h
  exact ⟨by omega, by omega⟩

/-- Either the part is all that is left, or it ends with the entry. -/
theorem ModbusReg.Maps.len_eq (h : reg.Maps x) (left : Nat) :
    reg.len (reg.addOffset x) left = left ∨
      x + reg.len (reg.addOffset x) left = reg.regStart.toNat + reg.u16len.toNat := by
  rw [h.addOffset]
  obtain ⟨h1, h2⟩ := h
  simp only [ModbusReg.len]
  split <;> omega

end part

/-! ## The getters that are called -/

/-- The getters called for a request, each with the state it finds. One that returns NULL is the
last. -/
def getterCalls (regList : List (ModbusReg σ)) (a n : Nat) (s : σ) : List (ModbusReg σ × σ) :=
  if _hn : n = 0 then []
  else
    match _hreg : regAt regList a with
    | none => []
    | some reg =>
      match reg.get with
      | none => []
      | some getter =>
        (reg, s) :: match getter s with
          | (none, _) => []
          | (some _, s') => getterCalls regList (a + reg.len (reg.addOffset a) n)
              (n - reg.len (reg.addOffset a) n) s'
termination_by n
decreasing_by
  have := (maps_of_regAt _hreg).len_pos n (Nat.pos_of_ne_zero _hn)
  omega

/-- The register `x` of a request can be read: it lies in an entry that has a getter, which returns
no NULL when it is called. -/
def Readable (regList : List (ModbusReg σ)) (a n : Nat) (s : σ) (x : Nat) : Prop :=
  ∃ reg ∈ regList, reg.Maps x ∧ ∃ getter, reg.get = some getter ∧
    ∀ t, (reg, t) ∈ getterCalls regList a n s → (getter t).1 ≠ none

/-- The register `x` of a request is read from what the getter of its entry returned. -/
structure ReadFrom (regList : List (ModbusReg σ)) (a n : Nat) (s : σ) (x : Nat)
    (reg : ModbusReg σ) (p : Pointer) : Prop where
  maps : reg.Maps x
  called : ∃ t getter, (reg, t) ∈ getterCalls regList a n s ∧ reg.get = some getter ∧
    (getter t).1 = some p

/-- A buffer that a getter returns is as long as its entry says. -/
def Sized (regList : List (ModbusReg σ)) : Prop :=
  ∀ reg ∈ regList, ∀ getter, reg.get = some getter → ∀ s p, (getter s).1 = some p →
    p.object.length = 2 * reg.u16len.toNat

section calls
variable {regList : List (ModbusReg σ)} {a n : Nat} {s s' : σ} {reg : ModbusReg σ} {p : Pointer}
  {getter : σ → Option Pointer × σ}

theorem getterCalls_unmapped (h : regAt regList a = none) : getterCalls regList a n s = [] := by
  rw [getterCalls]
  split
  · rfl
  · split
    · rfl
    · next hreg =>
      rw [h] at hreg
      cases hreg

section mapped
variable (hn : 0 < n) (hreg : regAt regList a = some reg)
include hn hreg

theorem getterCalls_noGetter (h : reg.get = none) : getterCalls regList a n s = [] := by
  rw [getterCalls, dif_neg (Nat.ne_of_gt hn)]
  split
  · rfl
  · next hreg' =>
    obtain rfl := Option.some.inj (hreg.symm.trans hreg')
    rw [h]

theorem getterCalls_null (h : reg.get = some getter) (hnull : (getter s).1 = none) :
    getterCalls regList a n s = [(reg, s)] := by
  rw [getterCalls, dif_neg (Nat.ne_of_gt hn)]
  split
  · next hreg' =>
    rw [hreg] at hreg'
    cases hreg'
  · next hreg' =>
    obtain rfl := Option.some.inj (hreg.symm.trans hreg')
    rw [h]
    rcases hval : getter s with ⟨val, t⟩
    rw [hval] at hnull
    cases hnull
    simp only [hval]

theorem getterCalls_cons (h : reg.get = some getter) (hval : getter s = (some p, s')) :
    getterCalls regList a n s = (reg, s) :: getterCalls regList (a + reg.len (reg.addOffset a) n)
      (n - reg.len (reg.addOffset a) n) s' := by
  rw [getterCalls, dif_neg (Nat.ne_of_gt hn)]
  split
  · next hreg' =>
    rw [hreg] at hreg'
    cases hreg'
  · next hreg' =>
    obtain rfl := Option.some.inj (hreg.symm.trans hreg')
    rw [h]
    simp only [hval]

end mapped

/-- Calls are made of entries of the table, and what getters keep holds at each of them. -/
theorem getterCalls_forall {J : σ → Prop} (hJ : ∀ reg ∈ regList, ∀ getter, reg.get = some getter →
    ∀ s, J s → J (getter s).2) (hs : J s) :
    ∀ c ∈ getterCalls regList a n s, c.1 ∈ regList ∧ J c.2 := by
  induction n using Nat.strongRecOn generalizing a s with
  | ind n ih =>
    intro c hc
    rcases Nat.eq_zero_or_pos n with rfl | hn
    · rw [getterCalls, dif_pos rfl] at hc
      cases hc
    · cases hreg : regAt regList a with
      | none =>
        rw [getterCalls_unmapped hreg] at hc
        cases hc
      | some reg =>
        have hm := mem_of_regAt hreg
        cases hget : reg.get with
        | none =>
          rw [getterCalls_noGetter hn hreg hget] at hc
          cases hc
        | some getter =>
          rcases hval : getter s with ⟨val, t⟩
          cases val with
          | none =>
            rw [getterCalls_null hn hreg hget (by rw [hval])] at hc
            rw [List.mem_singleton.mp hc]
            exact ⟨hm, hs⟩
          | some p =>
            rw [getterCalls_cons hn hreg hget hval] at hc
            rcases List.mem_cons.mp hc with rfl | hc
            · exact ⟨hm, hs⟩
            · have hpos := (maps_of_regAt hreg).len_pos n hn
              have ht := hJ reg hm getter hget s hs
              rw [hval] at ht
              exact ih _ (by omega) ht c hc

end calls

/-! ## The loop -/

section reading
variable {regList : List (ModbusReg σ)} {a n : Nat} {s : σ} {buf : List UInt8} {J : σ → Prop}

/-- The register value at index `i` from `p` on, in the object or past it. -/
def Pointer.valueAt (p : Pointer) (i : Nat) : UInt16 :=
  ofBytes (p.object.getD (2 * i) (p.past (2 * i - p.object.length)))
    (p.object.getD (2 * i + 1) (p.past (2 * i + 1 - p.object.length)))

theorem Pointer.valueAt_object {p : Pointer} {i : Nat} (h : 2 * i + 1 < p.object.length) :
    p.valueAt i = word p.object i := by
  have h' : 2 * i < p.object.length := by omega
  simp [Pointer.valueAt, word, List.getD_eq_getElem?_getD, h, h']

theorem Pointer.read_words (p : Pointer) (i k : Nat) :
    p.read (i * 2) (k * 2) = host ((List.range k).map fun j => p.valueAt (i + j)) := by
  induction k generalizing i with
  | zero => rfl
  | succ k ih =>
    have h1 : (k + 1) * 2 = k * 2 + 1 + 1 := by omega
    have h2 : i * 2 + 1 + 1 = (i + 1) * 2 := by omega
    have htl : (List.range k).map ((fun j => p.valueAt (i + j)) ∘ Nat.succ) =
        (List.range k).map fun j => p.valueAt (i + 1 + j) :=
      List.map_congr_left fun j _ => congrArg p.valueAt (by simp only [Nat.succ_eq_add_one]; omega)
    have hrest := ih (i + 1)
    rw [Pointer.read] at hrest ⊢
    rw [h1, slice_succ, slice_succ, h2, hrest, List.range_succ_eq_map, List.map_cons, List.map_map,
      htl, host_cons]
    simp [Pointer.valueAt, Nat.mul_comm i 2]

/-- The values `vs` are those of the registers of the request from `a` on, as they stand where the
getters point to. -/
def Fetched (regList : List (ModbusReg σ)) (a n : Nat) (s : σ) (vs : List UInt16) : Prop :=
  ∀ j (h : j < vs.length), ∃ reg p, ReadFrom regList a n s (a + j) reg p ∧
    vs[j] = p.valueAt (a + j - reg.regStart.toNat)

theorem Fetched.append {vs ws : List UInt16} (h : Fetched regList a n s vs)
    (h' : ∀ j (hj : j < ws.length), ∃ reg p, ReadFrom regList a n s (a + vs.length + j) reg p ∧
      ws[j] = p.valueAt (a + vs.length + j - reg.regStart.toNat)) :
    Fetched regList a n s (vs ++ ws) := by
  intro j hj
  rw [List.getElem_append]
  split
  · next hlt => exact h j hlt
  · next hge =>
    have hj' : j - vs.length < ws.length := by
      rw [List.length_append] at hj
      omega
    obtain ⟨reg, p, hread, hword⟩ := h' (j - vs.length) hj'
    have hx : a + vs.length + (j - vs.length) = a + j := by omega
    rw [hx] at hread hword
    exact ⟨reg, p, hread, hword⟩

/-- The values `vs` are those of the registers of the request from `a` on, in the buffers that the
getters returned. -/
def ReadsOut (regList : List (ModbusReg σ)) (a n : Nat) (s : σ) (vs : List UInt16) : Prop :=
  ∀ j (h : j < vs.length), ∃ reg p, ReadFrom regList a n s (a + j) reg p ∧
    vs[j] = word p.object (a + j - reg.regStart.toNat)

/-- What is read out of buffers of the right length lies in them. -/
theorem Fetched.readsOut {vs : List UInt16} (hsized : Sized regList)
    (h : Fetched regList a n s vs) : ReadsOut regList a n s vs := by
  intro j hj
  obtain ⟨reg, p, hread, hword⟩ := h j hj
  obtain ⟨t, getter, hcall, hget, hp⟩ := hread.called
  have hall : ∀ reg ∈ regList, ∀ getter, reg.get = some getter → ∀ t : σ, True → True :=
    fun _ _ _ _ _ h => h
  have hm := (getterCalls_forall (J := fun _ => True) hall trivial _ hcall).1
  have hlen := hsized reg hm getter hget t p hp
  have hx := hread.maps
  rw [Pointer.valueAt_object (by have := hx.1; have := hx.2; omega)] at hword
  exact ⟨reg, p, hread, hword⟩

/-- What is read goes behind what was read before. -/
theorem overwrite_host (vs ws : List UInt16) (buf : List UInt8) :
    overwrite (host vs ++ buf.drop (2 * vs.length)) (vs.length * 2) (host ws) =
      host (vs ++ ws) ++ buf.drop (2 * (vs ++ ws).length) := by
  have htake : (host vs ++ buf.drop (2 * vs.length)).take (vs.length * 2) = host vs :=
    List.take_left' (by rw [length_host, Nat.mul_comm])
  have hdrop : (host vs ++ buf.drop (2 * vs.length)).drop (vs.length * 2 + (host ws).length) =
      buf.drop (2 * (vs ++ ws).length) := by
    rw [← List.drop_drop, List.drop_left' (by rw [length_host, Nat.mul_comm]), List.drop_drop,
      length_host, List.length_append, Nat.mul_add]
  rw [overwrite, htake, hdrop, host_append]

/-- Where the loop of `eMbregGet` is: it has read the first registers of the request, the getter
calls that are still to come are those of the rest, and the entries whose getters were called lie in
front of the next register. -/
structure Reading (regList : List (ModbusReg σ)) (a n : Nat) (buf : List UInt8) (s : σ)
    (b : Nat × List UInt8) (t : σ) : Prop where
  le : b.1 ≤ n
  words : ∃ vs : List UInt16, vs.length = b.1 ∧ b.2 = host vs ++ buf.drop (2 * b.1) ∧
    Fetched regList a n s vs
  calls : ∃ calls, getterCalls regList a n s = calls ++ getterCalls regList (a + b.1) (n - b.1) t ∧
    (∀ c ∈ calls, ∀ getter, c.1.get = some getter → (getter c.2).1 ≠ none) ∧
    (b.1 < n → ∀ c ∈ calls, c.1.regStart.toNat + c.1.u16len.toNat ≤ a + b.1)

theorem Reading.start (regList : List (ModbusReg σ)) (a n : Nat) (buf : List UInt8) (s : σ) :
    Reading regList a n buf s (0, buf) s where
  le := Nat.zero_le n
  words := ⟨[], rfl, rfl, fun _ h => by cases h⟩
  calls := ⟨[], rfl, nofun, nofun⟩

variable (hd : DisjointRanges regList)
include hd

/-- What a register that can be read lies in is the entry the search finds. -/
theorem Readable.regAt {x : Nat} (h : Readable regList a n s x) :
    ∃ reg getter, regAt regList x = some reg ∧ reg.get = some getter ∧
      ∀ t, (reg, t) ∈ getterCalls regList a n s → (getter t).1 ≠ none := by
  obtain ⟨reg, hm, hx, getter, hget, hcalls⟩ := h
  exact ⟨reg, getter, regAt_of_maps hd hm hx, hget, hcalls⟩

variable (hJ : ∀ reg ∈ regList, ∀ getter, reg.get = some getter → ∀ s, J s → J (getter s).2)
include hJ

/-- One round of `eMbregGet` reads the registers of the next entry. -/
theorem getStep_reads {b : Nat × List UInt8} {t : σ} (h : Reading regList a n buf s b t)
    (ht : J t) :
    Meets (getStep a n regList b) t
      (fun r t' => J t' ∧ match r with
        | .inl b' => Reading regList a n buf s b' t' ∧ b.1 < b'.1
        | .inr buf' => (∀ i < n, Readable regList a n s (a + i)) ∧ ∃ vs : List UInt16,
            vs.length = n ∧ buf' = host vs ++ buf.drop (2 * n) ∧ Fetched regList a n s vs)
      (fun e _ => e = .enoreg ∧ ∃ i < n, ¬ Readable regList a n s (a + i))
      (fun _ _ => False) := by
  obtain ⟨k, b⟩ := b
  obtain ⟨hle, ⟨vs, hvs, hwords, hout⟩, calls, hcalls, hgot, hpast⟩ := h
  dsimp only at hle hvs hwords hcalls hpast
  subst hwords hvs
  unfold getStep
  dsimp only
  split
  · next hlt =>
    split
    · next hr =>
      refine ⟨rfl, vs.length, hlt, fun hread => ?_⟩
      obtain ⟨reg, getter, hreg, -, -⟩ := hread.regAt hd
      rw [hr] at hreg
      cases hreg
    · next reg hr =>
      have hm := mem_of_regAt hr
      have hx := maps_of_regAt hr
      have hleft : 0 < n - vs.length := Nat.sub_pos_of_lt hlt
      split
      · next hget =>
        refine ⟨rfl, vs.length, hlt, fun hread => ?_⟩
        obtain ⟨reg', getter, hreg, hget', -⟩ := hread.regAt hd
        obtain rfl := Option.some.inj (hr.symm.trans hreg)
        rw [hget] at hget'
        cases hget'
      · next getter hget =>
        rcases hval : getter t with ⟨val, t'⟩
        have ht' := hJ reg hm getter hget t ht
        rw [hval] at ht'
        refine Meets.bind (Meets.of_done (call_apply getter) ?_)
        rw [hval]
        cases val with
        | none =>
          refine ⟨rfl, vs.length, hlt, fun hread => ?_⟩
          obtain ⟨reg', getter', hreg, hget', hcalled⟩ := hread.regAt hd
          obtain rfl := Option.some.inj (hr.symm.trans hreg)
          obtain rfl := Option.some.inj (hget.symm.trans hget')
          have hnull : (getter t).1 = none := by rw [hval]
          refine hcalled t ?_ hnull
          rw [hcalls, getterCalls_null hleft hr hget hnull]
          exact List.mem_append_right _ (List.mem_singleton_self _)
        | some p =>
          refine Meets.pure ⟨ht', ?_⟩
          have hpos := hx.len_pos (n - vs.length) hleft
          have hcons := getterCalls_cons hleft hr hget hval
          have hwhole := hx.len_eq (n - vs.length)
          have hlen := reg.len_le (reg.addOffset (a + vs.length)) (n - vs.length)
          have hadd : ∀ i, i < reg.len (reg.addOffset (a + vs.length)) (n - vs.length) →
              reg.Maps (a + vs.length + i) := fun i hi => hx.add hi
          have hval' : (getter t).1 = some p := by rw [hval]
          have hfrom := p.read_words (reg.addOffset (a + vs.length))
            (reg.len (reg.addOffset (a + vs.length)) (n - vs.length))
          have hoff := hx.addOffset
          generalize reg.len (reg.addOffset (a + vs.length)) (n - vs.length) = k at *
          have hcall : (reg, t) ∈ getterCalls regList a n s := by
            rw [hcalls, hcons]
            exact List.mem_append_right _ List.mem_cons_self
          refine ⟨⟨by dsimp only; omega, ⟨vs ++ (List.range k).map fun j =>
            p.valueAt (reg.addOffset (a + vs.length) + j), ?_, ?_, ?_⟩,
            calls ++ [(reg, t)], ?_, ?_, ?_⟩, by dsimp only; omega⟩
          · rw [List.length_append, List.length_map, List.length_range]
          · dsimp only
            rw [hfrom, overwrite_host, List.length_append, List.length_map, List.length_range]
          · refine hout.append fun j hj => ?_
            have hj' : j < k := by simpa using hj
            refine ⟨reg, p, ⟨hadd j hj', t, getter, hcall, hget, hval'⟩, ?_⟩
            rw [List.getElem_map, List.getElem_range, hoff]
            have := hx.1
            congr 1
            omega
          · rw [hcalls, hcons, List.append_assoc, Nat.add_assoc, Nat.sub_sub]
            rfl
          · intro c hc getter' hget'
            rcases List.mem_append.mp hc with hc | hc
            · exact hgot c hc getter' hget'
            · cases List.mem_singleton.mp hc
              obtain rfl := Option.some.inj (hget.symm.trans hget')
              rw [hval']
              exact Option.some_ne_none p
          · dsimp only
            intro hmore c hc
            rcases List.mem_append.mp hc with hc | hc
            · have := hpast hlt c hc
              omega
            · rw [List.mem_singleton.mp hc]
              dsimp only
              omega
  · next hge =>
    have hall : vs.length = n := by omega
    have hend : getterCalls regList a n s = calls := by
      rw [hcalls, hall, Nat.sub_self, getterCalls, dif_pos rfl, List.append_nil]
    refine Meets.pure ⟨ht, fun i hi => ?_, vs, hall, by rw [hall], hout⟩
    obtain ⟨reg, p, ⟨hx, t', getter, hcall, hget, -⟩, -⟩ := hout i (by omega)
    have hm := getterCalls_forall (J := fun _ => True) (fun _ _ _ _ _ _ => trivial) trivial _ hcall
    refine ⟨reg, hm.1, hx, getter, hget, fun t₁ hcall₁ => ?_⟩
    rw [hend] at hcall₁
    exact hgot _ hcall₁ getter hget

/-- `eMbregGet` reads a request when each of its registers can be read, and refuses it otherwise. -/
theorem eMbregGet_fetches (hs : J s) :
    Meets (eMbregGet a n regList buf) s
      (fun out t => J t ∧ (∀ i < n, Readable regList a n s (a + i)) ∧ ∃ vs : List UInt16,
        vs.length = n ∧ out = wire vs ++ buf.drop (2 * n) ∧ Fetched regList a n s vs)
      (fun e _ => e = .enoreg ∧ ∃ i < n, ¬ Readable regList a n s (a + i))
      (fun _ _ => False) := by
  unfold eMbregGet
  refine Meets.bind (Meets.iterate_of_measure (μ := fun b => n - b.1)
    (I := fun b t => Reading regList a n buf s b t ∧ J t) ?_
    ⟨Reading.start regList a n buf s, hs⟩ (by simp))
  rintro b t ⟨h, ht⟩
  have hle := h.le
  refine (getStep_reads hd hJ h ht).mono ?_ (fun _ _ he => he) fun _ _ hh => hh
  rintro r t' ⟨ht', hr⟩
  match r, hr with
  | .inl b', ⟨hreading, hlt⟩ =>
    have hle' := hreading.le
    exact ⟨⟨hreading, ht'⟩, by omega⟩
  | .inr buf', ⟨hall, vs, hvs, hbuf, hout⟩ =>
    subst hbuf hvs
    exact Meets.pure ⟨ht', hall, vs, rfl, swapBytes_host vs _, hout⟩

/-- Over buffers of the right length the words read are those of the buffers. -/
theorem eMbregGet_reads (hsized : Sized regList) (hs : J s) :
    Meets (eMbregGet a n regList buf) s
      (fun out t => J t ∧ (∀ i < n, Readable regList a n s (a + i)) ∧ ∃ vs : List UInt16,
        vs.length = n ∧ out = wire vs ++ buf.drop (2 * n) ∧ ReadsOut regList a n s vs)
      (fun e _ => e = .enoreg ∧ ∃ i < n, ¬ Readable regList a n s (a + i))
      (fun _ _ => False) := by
  refine (eMbregGet_fetches hd hJ hs).mono ?_ (fun _ _ h => h) fun _ _ h => h
  rintro out t ⟨ht, hall, vs, hlen, hout, hvs⟩
  exact ⟨ht, hall, vs, hlen, hout, hvs.readsOut hsized⟩

omit hJ in
/-- Over a table whose getters leave the state alone, a request can be read when each of its
registers lies in an entry with a getter that returns no NULL. -/
theorem readable_of_still (hstill : ∀ reg ∈ regList, ∀ getter, reg.get = some getter →
    ∀ t, (getter t).2 = t) :
    (∀ i < n, Readable regList a n s (a + i)) ↔ ∀ i < n, ∃ reg ∈ regList, reg.Maps (a + i) ∧
      ∃ getter, reg.get = some getter ∧ (getter s).1 ≠ none := by
  have hkeep : ∀ reg ∈ regList, ∀ getter, reg.get = some getter → ∀ t, t = s → (getter t).2 = s :=
    fun reg hm getter hget t ht => (hstill reg hm getter hget t).trans ht
  constructor
  · intro hall i hi
    have h := @eMbregGet_fetches σ regList a n s [] (· = s) hd hkeep rfl
    rcases h.ends with ⟨out, t, hrun⟩ | ⟨e, t, hrun⟩
    · obtain ⟨-, -, vs, hlen, -, hout⟩ := h.done hrun
      obtain ⟨reg, p, ⟨hx, t', getter, hcall, hget, hp⟩, -⟩ := hout i (by omega)
      obtain ⟨hm, ht'⟩ := getterCalls_forall hkeep rfl _ hcall
      dsimp only at ht'
      subst ht'
      exact ⟨reg, hm, hx, getter, hget, by rw [hp]; nofun⟩
    · obtain ⟨-, j, hj, hnot⟩ := h.fail hrun
      exact absurd (hall j hj) hnot
  · intro hall i hi
    obtain ⟨reg, hm, hx, getter, hget, hp⟩ := hall i hi
    refine ⟨reg, hm, hx, getter, hget, fun t hcall => ?_⟩
    have ht : t = s := (getterCalls_forall hkeep rfl _ hcall).2
    rwa [ht]

end reading

/-! ## The registers of a request -/

/-- `eMbregGet` ends. It succeeds exactly when each register of the request can be read, and then
the first `2 * usNRegs` bytes of the buffer are the words of the entries that map the registers,
high byte first. -/
theorem eMbregGet_returns {regList : List (ModbusReg σ)} (hd : DisjointRanges regList)
    (hsized : Sized regList) (usAddress usNRegs : UInt16) (pucRegBuffer : List UInt8) (s : σ) :
    let a := usAddress.toNat
    let n := usNRegs.toNat
    let run := eMbregGet a n regList pucRegBuffer s
    ((∃ out t, run = .done out t) ∨ ∃ t, run = .fail .enoreg t) ∧
      ((∃ out t, run = .done out t) ↔ ∀ i < n, Readable regList a n s (a + i)) ∧
      ∀ out t, run = .done out t → ∃ vs : List UInt16, vs.length = n ∧
        out = wire vs ++ pucRegBuffer.drop (2 * n) ∧ ReadsOut regList a n s vs := by
  intro a n run
  have h := @eMbregGet_reads σ regList a n s pucRegBuffer (fun _ => True) hd
    (fun _ _ _ _ _ _ => trivial) hsized trivial
  rcases h.ends with ⟨out, t, hrun⟩ | ⟨e, t, hrun⟩
  · obtain ⟨-, hall, hout⟩ := h.done hrun
    refine ⟨.inl ⟨out, t, hrun⟩, ⟨fun _ => hall, fun _ => ⟨out, t, hrun⟩⟩, fun out' t' hrun' => ?_⟩
    cases hrun.symm.trans hrun'
    exact hout
  · obtain ⟨rfl, i, hi, hnot⟩ := h.fail hrun
    refine ⟨.inr ⟨t, hrun⟩, ⟨?_, fun hall => absurd (hall i hi) hnot⟩, fun out' t' hrun' => ?_⟩
    · rintro ⟨out, t', hrun'⟩
      cases hrun.symm.trans hrun'
    · cases hrun.symm.trans hrun'

/-- Two adjacent entries of two registers each, the second one listed first. -/
def adjacentEntries : List (ModbusReg Unit) :=
  [⟨0x12, 2, some fun s => (some ⟨[5, 6, 7, 8], fun _ => 0⟩, s), none⟩,
   ⟨0x10, 2, some fun s => (some ⟨[1, 2, 3, 4], fun _ => 0⟩, s), none⟩]

theorem disjoint_adjacentEntries : DisjointRanges adjacentEntries := by
  simp only [DisjointRanges, adjacentEntries, List.pairwise_cons, List.mem_singleton, forall_eq,
    List.not_mem_nil, false_imp_iff, implies_true, List.Pairwise.nil, and_true, ModbusReg.Maps]
  intro x hx hx'
  simp at hx hx'
  omega

theorem sized_adjacentEntries : Sized adjacentEntries := by
  intro reg hm getter hget s p hp
  simp only [adjacentEntries, List.mem_cons, List.not_mem_nil, or_false] at hm
  rcases hm with rfl | rfl
  all_goals
    cases hget
    cases hp
    rfl

/-- A read of the last register of the one entry and the first of the other. -/
theorem eMbregGet_returns_two : ∃ out t, eMbregGet 0x11 2 adjacentEntries [0, 0, 0, 0, 9] () =
      .done out t ∧ ∃ vs : List UInt16, vs.length = 2 ∧ out = wire vs ++ [9] ∧
        ReadsOut adjacentEntries 0x11 2 () vs :=
  ⟨[4, 3, 6, 5, 9], (), rfl, (eMbregGet_returns disjoint_adjacentEntries sized_adjacentEntries 0x11 2
    [0, 0, 0, 0, 9] ()).2.2 _ _ rfl⟩

end McuUtilities.Modbus
