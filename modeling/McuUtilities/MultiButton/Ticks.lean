import McuUtilities.MultiButton.WorkList

/-!
# Every tick calls the buttons that are started

While `button_ticks` is at a button, the rest of the tick lies behind it in the list: a callback can put
other buttons only in front, and a button that is stopped keeps its `next` field. So under callbacks that
are fair the buttons behave as `startedButtons` along every run, and what a button does depends on its
own pin only.
-/

namespace McuUtilities.MultiButton

variable {ι σ : Type}

theorem length_lt_rounds [Fintype ι] {l : List ι} (h : l.Nodup) : l.length < rounds ι :=
  Nat.lt_succ_of_le h.length_le_card

variable [DecidableEq ι]

/-! ## Calls of `button_start` and `button_stop` -/

section calls
variable [Fintype ι] {s : Links ι} {l : List ι}

theorem apply_start (h : s.Holds l) (handle : ι) : ∃ s', Edit.apply s (.start handle) = some s' ∧
    s'.Holds (Edit.act l (.start handle)) ∧ ∀ b, b ≠ handle → s'.next b = s.next b := by
  have hseek := @Links.seek_eq ι s handle l (rounds ι) _ _ h.chain (length_lt_rounds h.nodup)
  rw [Edit.apply, buttonStart, hseek, Edit.act]
  by_cases hmem : handle ∈ l
  · rw [if_pos hmem, decide_eq_true hmem]
    exact ⟨s, rfl, h, fun _ _ => rfl⟩
  · rw [if_neg hmem, decide_eq_false hmem]
    exact ⟨s.push handle, rfl, h.push hmem, fun b hb => Links.next_push_of_ne hb⟩

theorem apply_stop (h : s.Holds l) (handle : ι) : ∃ s', Edit.apply s (.stop handle) = some s' ∧
    s'.Holds (Edit.act l (.stop handle)) ∧ s'.next handle = s.next handle := by
  obtain ⟨s', hrun, hholds, hnext⟩ := @Links.Holds.unlink ι s handle l (rounds ι) _ h
    (length_lt_rounds h.nodup)
  exact ⟨s', hrun, hholds, hnext handle (.inl rfl)⟩

end calls

/-! ## Between two buttons -/

/-- What of the rest of a tick is still started. -/
def behind (rest l : List ι) : List ι := rest.filter (· ∈ l)

/-- `button_ticks` is at the button `handle`, with the buttons `rest` of the tick behind it. -/
structure At (all : List ι) (handle : ι) (rest l : List ι) (s : Links ι) : Prop where
  holds : s.Holds l
  nodup : (handle :: rest).Nodup
  tick : ∀ b ∈ handle :: rest, b ∈ all
  next : s.next handle = (behind rest l).head?
  list : ∃ before, l = before ++ (if handle ∈ l then handle :: behind rest l else behind rest l)

section edits
variable {all rest l : List ι} {handle : ι} {s : Links ι}

theorem behind_cons_of_not_mem {h : ι} (hh : h ∉ rest) : behind rest (h :: l) = behind rest l := by
  refine List.filter_congr fun b hb => ?_
  have hne : b ≠ h := fun heq => hh (heq ▸ hb)
  simp [hne]

theorem behind_erase (hl : l.Nodup) {h : ι} :
    behind rest (l.erase h) = (behind rest l).filter (· ≠ h) := by
  rw [behind, behind, List.filter_filter]
  refine List.filter_congr fun b _ => ?_
  simp [hl.mem_erase_iff]

theorem At.start [Fintype ι] (h : At all handle rest l s) {k : ι} (hfair : k ∈ all → k ∈ l) :
    ∃ s', Edit.apply s (.start k) = some s' ∧ At all handle rest (Edit.act l (.start k)) s' := by
  obtain ⟨s', hrun, hholds, hnext⟩ := apply_start h.holds k
  refine ⟨s', hrun, ?_⟩
  rw [Edit.act] at hholds ⊢
  by_cases hmem : k ∈ l
  · rw [if_pos hmem] at hholds ⊢
    -- The search finds the button, and nothing is written.
    have hsame : s' = s := by
      have hseek := @Links.seek_eq ι s k l (rounds ι) _ _ h.holds.chain (length_lt_rounds h.holds.nodup)
      rw [Edit.apply, buttonStart, hseek, decide_eq_true hmem] at hrun
      exact (Option.some.inj hrun).symm
    rw [hsame]
    exact h
  · rw [if_neg hmem] at hholds ⊢
    have hall : k ∉ all := fun hk => hmem (hfair hk)
    have hrest : k ∉ rest := fun hk => hall (h.tick k (List.mem_cons_of_mem _ hk))
    have hne : handle ≠ k := fun heq => hall (heq ▸ h.tick handle List.mem_cons_self)
    obtain ⟨before, hlist⟩ := h.list
    refine ⟨hholds, h.nodup, h.tick, ?_, k :: before, ?_⟩
    · rw [hnext handle hne, behind_cons_of_not_mem hrest]
      exact h.next
    · have hiff : handle ∈ k :: l ↔ handle ∈ l := by simp [hne]
      simp only [hiff, behind_cons_of_not_mem hrest]
      conv => lhs; rw [hlist]
      rfl

theorem At.stop [Fintype ι] (h : At all handle rest l s) (hmem : handle ∈ l) (k : ι) :
    ∃ s', Edit.apply s (.stop k) = some s' ∧ At all handle rest (Edit.act l (.stop k)) s' := by
  obtain ⟨s', hrun, hholds, hnext⟩ := apply_stop h.holds k
  have hnodup := h.holds.nodup
  obtain ⟨before, hlist⟩ := h.list
  rw [if_pos hmem] at hlist
  have hfilter : l.erase k = before.filter (· ≠ k) ++ (handle :: behind rest l).filter (· ≠ k) := by
    rw [hnodup.erase_eq_filter, ← List.filter_append, ← hlist]
    refine List.filter_congr fun b _ => ?_
    by_cases hb : b = k <;> simp [hb]
  refine ⟨s', hrun, ?_⟩
  have hholds : s'.Holds (l.erase k) := hholds
  show At all handle rest (l.erase k) s'
  by_cases hk : k = handle
  · subst hk
    have hbehind : behind rest (l.erase k) = behind rest l := by
      rw [behind_erase hnodup]
      refine List.filter_eq_self.mpr fun b hb => ?_
      have hb' : b ∈ rest := List.mem_of_mem_filter hb
      have hne : b ≠ k := fun heq => (List.nodup_cons.mp h.nodup).1 (heq ▸ hb')
      simpa using hne
    have hgone : k ∉ l.erase k := hnodup.not_mem_erase
    refine ⟨hholds, h.nodup, h.tick, ?_, before.filter (· ≠ k), ?_⟩
    · rw [hnext, hbehind]
      exact h.next
    · rw [if_neg hgone, hbehind, hfilter, List.filter_cons_of_neg (by simp), ← behind_erase hnodup, hbehind]
  · have hne : handle ≠ k := fun heq => hk heq.symm
    have hstays : handle ∈ l.erase k := (List.mem_erase_of_ne hne).mpr hmem
    have hlist' : l.erase k = before.filter (· ≠ k) ++ handle :: behind rest (l.erase k) := by
      rw [behind_erase hnodup]
      rw [hfilter, List.filter_cons_of_pos (by simpa using hne)]
    refine ⟨hholds, h.nodup, h.tick, ?_, before.filter (· ≠ k), ?_⟩
    · rw [hlist'] at hholds
      exact hholds.next_eq
    · rw [if_pos hstays]
      exact hlist'

/-- What the callbacks of a button may do leaves the rest of the tick behind it. -/
theorem At.fair [Fintype ι] {es : List (Edit ι)} (h : At all handle rest l s)
    (hown : handle ∈ l ∨ ∀ k, Edit.stop k ∉ es) (hfair : Fair all handle l es) :
    ∃ s', applyAll es s = some s' ∧ At all handle rest (es.foldl Edit.act l) s' := by
  induction es generalizing l s with
  | nil => exact ⟨s, rfl, h⟩
  | cons e es ih =>
    have hnext {e : Edit ι} {l' : List ι} {s' : Links ι} (hrun : Edit.apply s e = some s')
        (h' : At all handle rest l' s') (hown' : handle ∈ l' ∨ ∀ k, Edit.stop k ∉ es)
        (hfair' : Fair all handle l' es) :
        ∃ s', applyAll (e :: es) s = some s' ∧ At all handle rest (es.foldl Edit.act l') s' := by
      obtain ⟨t, hrest, ht⟩ := ih h' hown' hfair'
      exact ⟨t, by rw [applyAll, hrun]; exact hrest, ht⟩
    cases e with
    | start k =>
      obtain ⟨hk, hrest⟩ := hfair
      obtain ⟨s', hrun, h'⟩ := h.start hk
      refine hnext hrun h' (hown.imp (fun hmem => ?_) fun hno j hj => ?_) hrest
      · rw [Edit.act]
        split
        · exact hmem
        · exact List.mem_cons_of_mem k hmem
      · exact hno j (List.mem_cons_of_mem _ hj)
    | stop k =>
      obtain ⟨hk, hrest⟩ := hfair
      have hmem : handle ∈ l := hown.resolve_right fun hno => hno k List.mem_cons_self
      obtain ⟨s', hrun, h'⟩ := h.stop hmem k
      refine hnext hrun h' ?_ hrest
      by_cases heq : k = handle
      · exact .inr (hk heq)
      · exact .inl ((List.mem_erase_of_ne fun heq' => heq heq'.symm).mpr hmem)

end edits

/-! ## A tick -/

/-- The concrete buttons are those that are started. -/
structure Refines (s : Work ι σ) (t : Started ι σ) : Prop where
  holds : s.links.Holds t.list
  button : s.button = t.button
  app : s.app = t.app

section tick
variable [Fintype ι] {cb : Callbacks ι σ} {pin : ι → UInt8} {all rest : List ι} {s : Work ι σ}
  {t : Started ι σ} {handle : ι}

/-- Visiting a button that is started calls its handler, and leaves the rest of the tick behind it. -/
theorem visit_eq (h : Refines s t) (hmem : handle ∈ t.list)
    (hat : At all handle rest t.list s.links)
    (hfair : Fair all handle t.list
      (cb.run handle (buttonHandler (t.button handle) (pin handle)).2 t.app).1) :
    ∃ s', visit cb handle (pin handle) s = ((call cb pin handle t).1, some s') ∧
      Refines s' (call cb pin handle t).2 ∧
      At all handle rest (call cb pin handle t).2.list s'.links := by
  obtain ⟨links, hrun, hat'⟩ := hat.fair (.inl hmem) hfair
  rw [call, if_pos hmem]
  dsimp only
  refine ⟨⟨links, _, _⟩, ?_, ⟨hat'.holds, rfl, rfl⟩, hat'⟩
  rw [visit]
  rw [h.button, h.app, hrun]
  rfl

/-- The loop calls the buttons of the tick that are started. -/
theorem ticksLoop_eq {n : Nat} (h : Refines s t) (hnodup : rest.Nodup) (hrest : ∀ b ∈ rest, b ∈ all)
    (hlist : ∃ before, t.list = before ++ behind rest t.list) (hfair : FairCalls cb pin all rest t)
    (hn : rest.length < n) :
    ∃ s', ticksLoop cb pin n (behind rest t.list).head? s = ((calls cb pin rest t).1, .inl s') ∧
      Refines s' (calls cb pin rest t).2 := by
  induction rest generalizing n s t with
  | nil =>
    obtain ⟨n, rfl⟩ := Nat.exists_eq_succ_of_ne_zero (Nat.ne_of_gt hn)
    exact ⟨s, rfl, h⟩
  | cons handle rest ih =>
    obtain ⟨hcall, hcalls⟩ := hfair
    obtain ⟨hhandle, hnodup'⟩ := List.nodup_cons.mp hnodup
    have hrest' : ∀ b ∈ rest, b ∈ all := fun b hb => hrest b (List.mem_cons_of_mem _ hb)
    by_cases hmem : handle ∈ t.list
    · have hbehind : behind (handle :: rest) t.list = handle :: behind rest t.list :=
        List.filter_cons_of_pos (by simpa using hmem)
      obtain ⟨n, rfl⟩ := Nat.exists_eq_succ_of_ne_zero (Nat.ne_of_gt (Nat.lt_of_le_of_lt (Nat.zero_le _) hn))
      rw [hbehind] at hlist ⊢
      obtain ⟨before, hlist⟩ := hlist
      have hat : At all handle rest t.list s.links := by
        refine ⟨h.holds, hnodup, hrest, ?_, before, by rw [if_pos hmem]; exact hlist⟩
        have hholds := h.holds
        rw [hlist] at hholds
        exact hholds.next_eq
      obtain ⟨s₁, hvisit, h₁, hat₁⟩ := visit_eq h hmem hat (hcall hmem)
      have hlist₁ : ∃ before, (call cb pin handle t).2.list =
          before ++ behind rest (call cb pin handle t).2.list := by
        obtain ⟨before₁, hbefore₁⟩ := hat₁.list
        by_cases hmem₁ : handle ∈ (call cb pin handle t).2.list
        · rw [if_pos hmem₁] at hbefore₁
          exact ⟨before₁ ++ [handle], by rw [List.append_assoc]; exact hbefore₁⟩
        · rw [if_neg hmem₁] at hbefore₁
          exact ⟨before₁, hbefore₁⟩
      obtain ⟨s₂, hloop, h₂⟩ := ih h₁ hnodup' hrest' hlist₁ hcalls (Nat.lt_of_succ_lt_succ hn)
      refine ⟨s₂, ?_, h₂⟩
      rw [List.head?_cons, ticksLoop, hvisit]
      dsimp only
      rw [hat₁.next, hloop]
      rfl
    · have hbehind : behind (handle :: rest) t.list = behind rest t.list :=
        List.filter_cons_of_neg (by simpa using hmem)
      have hskip : call cb pin handle t = ([], t) := if_neg hmem
      rw [hskip] at hcalls
      rw [hbehind] at hlist ⊢
      obtain ⟨s₂, hloop, h₂⟩ := ih h hnodup' hrest' hlist hcalls (Nat.lt_of_succ_lt hn)
      refine ⟨s₂, ?_, ?_⟩
      · rw [hloop, calls, hskip]
        rfl
      · rw [calls, hskip]
        exact h₂

/-- Each turn of the buttons is one of the buttons that are started. -/
theorem Refines.step (h : Refines s t) {i : Turn ι} (hfair : FairTurn cb t i) :
    ∃ out s' t', (buttons cb).step s i = (out, .inl s') ∧ (startedButtons cb).step t i = (out, .inl t') ∧
      Refines s' t' := by
  cases i with
  | ticks pin =>
    have hself : behind t.list t.list = t.list := List.filter_eq_self.mpr fun b hb => by simpa using hb
    obtain ⟨s', hloop, h'⟩ := ticksLoop_eq h h.holds.nodup (fun b hb => hb)
      ⟨[], by rw [hself, List.nil_append]⟩ hfair (length_lt_rounds h.holds.nodup)
    rw [hself, h.holds.chain.head?_eq] at hloop
    exact ⟨_, s', _, hloop, rfl, h'⟩
  | edit e =>
    have hedit : ∃ links, e.apply s.links = some links ∧ links.Holds (e.act t.list) := by
      cases e with
      | start k =>
        obtain ⟨links, hrun, hholds, -⟩ := apply_start h.holds k
        exact ⟨links, hrun, hholds⟩
      | stop k =>
        obtain ⟨links, hrun, hholds, -⟩ := apply_stop h.holds k
        exact ⟨links, hrun, hholds⟩
    obtain ⟨links, hrun, hholds⟩ := hedit
    refine ⟨[], { s with links }, _, ?_, rfl, ⟨hholds, h.button, h.app⟩⟩
    simp only [buttons, hrun]

/-- As long as the callbacks are fair, `button_ticks` always ends, and along any run of ticks, starts and
stops from an empty list the handler of each button that is started is called once a tick, the one that
was started last first, unless a callback of the tick has stopped it before its turn. -/
theorem buttons_refine (cb : Callbacks ι σ) (next : ι → Option ι) (button : ι → Button) (app : σ)
    (turns : List (Turn ι))
    (hC : (startedButtons cb).Along (FairTurn cb) ⟨[], button, app⟩ turns) :
    ∃ log s t, (buttons cb).run ⟨⟨none, next⟩, button, app⟩ turns = (log, .inl s) ∧
      (startedButtons cb).run ⟨[], button, app⟩ turns = (log, .inl t) ∧
      s.links.Holds t.list ∧ s.button = t.button ∧ s.app = t.app := by
  obtain ⟨log, s, t, hs, ht, h⟩ := Machine.run_simulates (fun _ _ _ h hi => h.step hi)
    (⟨Links.holds_nil, rfl, rfl⟩ : Refines ⟨⟨none, next⟩, button, app⟩ ⟨[], button, app⟩) hC
  exact ⟨log, s, t, hs, ht, h.holds, h.button, h.app⟩

end tick

/-! ## A button that stops itself -/

/-- Callbacks that stop the button `false` when it is released, and count the events. -/
def oneShot : Callbacks Bool Nat where
  run handle evs app := (if handle = false ∧ .pressUp ∈ evs then [.stop false] else [], app + evs.length)

theorem oneShot_fairCalls (pin : Bool → UInt8) (all rest : List Bool) (t : Started Bool Nat) :
    FairCalls oneShot pin all rest t := by
  induction rest generalizing t with
  | nil => trivial
  | cons handle rest ih =>
    refine ⟨fun _ => ?_, ih _⟩
    show Fair all handle t.list (if handle = false ∧ _ then [.stop false] else [])
    split
    · exact ⟨fun _ _ => List.not_mem_nil, trivial⟩
    · trivial

theorem oneShot_fair (t : Started Bool Nat) (i : Turn Bool) : FairTurn oneShot t i := by
  cases i with
  | ticks pin => exact oneShot_fairCalls pin t.list t.list t
  | edit e => trivial

theorem oneShot_keeps (handle : Bool) (evs : List PressEvent) (app : Nat) :
    Edit.stop true ∉ (oneShot.run handle evs app).1 := by
  show Edit.stop true ∉ if handle = false ∧ _ then [.stop false] else []
  split <;> simp

/-- Both pins are pressed for three ticks, and released for three. -/
def clickBoth : List (Turn Bool) :=
  [.ticks fun _ => 1, .ticks fun _ => 1, .ticks fun _ => 1, .ticks fun _ => 0, .ticks fun _ => 0,
    .ticks fun _ => 0]

theorem buttons_refine_oneShot :
    ∃ log s t,
      (buttons oneShot).run ⟨⟨none, fun _ => none⟩, fun _ => buttonInit 0 1, 0⟩
        (.edit (.start false) :: .edit (.start true) :: clickBoth) = (log, .inl s) ∧
      (startedButtons oneShot).run ⟨[], fun _ => buttonInit 0 1, 0⟩
        (.edit (.start false) :: .edit (.start true) :: clickBoth) = (log, .inl t) ∧
      s.links.Holds t.list ∧ s.button = t.button ∧ s.app = t.app :=
  buttons_refine oneShot (fun _ => none) (fun _ => buttonInit 0 1) 0 _ (Machine.along_of_forall oneShot_fair)

end McuUtilities.MultiButton
