import McuUtilities.MultiButton.Ticks

/-!
# What a button does depends on its own pin only

Each tick reaches a button that stays started exactly once, wherever it stands in the list and whatever
the callbacks start and stop. So its events and its state are those of `handler` on the levels of its own
pin, and what holds along every run of the handler holds of each button in `button_ticks`.
-/

namespace McuUtilities.MultiButton

variable {ι σ : Type} [DecidableEq ι]

/-- The events of one button. -/
def own (k : ι) (out : List (ι × PressEvent)) : List PressEvent :=
  out.filterMap fun e => if e.1 = k then some e.2 else none

/-- The levels of its pin, tick after tick. -/
def samples (k : ι) (turns : List (Turn ι)) : List UInt8 :=
  turns.filterMap fun
    | .ticks pin => some (pin k)
    | .edit _ => none

/-- The levels of its pin with the events of the button. -/
def heard (k : ι) (log : List (Turn ι × List (ι × PressEvent))) : List (UInt8 × List PressEvent) :=
  log.filterMap fun
    | (.ticks pin, out) => some (pin k, own k out)
    | (.edit _, _) => none

/-- The callbacks never stop the button. -/
def Keeps (cb : Callbacks ι σ) (k : ι) : Prop := ∀ handle evs app, Edit.stop k ∉ (cb.run handle evs app).1

/-! ## One tick -/

section tick
variable {cb : Callbacks ι σ} {pin : ι → UInt8} {handle k : ι} {handles : List ι} {t : Started ι σ}

theorem own_append {out out' : List (ι × PressEvent)} : own k (out ++ out') = own k out ++ own k out' :=
  List.filterMap_append

theorem own_map_self {evs : List PressEvent} : own k (evs.map (k, ·)) = evs := by
  induction evs with
  | nil => rfl
  | cons e evs ih =>
    rw [List.map_cons, own, List.filterMap_cons, if_pos rfl]
    exact congrArg (e :: ·) ih

theorem own_map_of_ne (h : handle ≠ k) {evs : List PressEvent} : own k (evs.map (handle, ·)) = [] := by
  induction evs with
  | nil => rfl
  | cons e evs ih =>
    rw [List.map_cons, own, List.filterMap_cons, if_neg h]
    exact ih

theorem mem_foldl_act {es : List (Edit ι)} {l : List ι} (hmem : k ∈ l) (hno : Edit.stop k ∉ es) :
    k ∈ es.foldl Edit.act l := by
  induction es generalizing l with
  | nil => exact hmem
  | cons e es ih =>
    obtain ⟨he, hes⟩ := not_or.mp (mt List.mem_cons.mpr hno)
    refine ih ?_ hes
    cases e with
    | start h =>
      rw [Edit.act]
      split
      · exact hmem
      · exact List.mem_cons_of_mem h hmem
    | stop h =>
      have hne : k ≠ h := fun heq => he (heq ▸ rfl)
      exact (List.mem_erase_of_ne hne).mpr hmem

/-- A call keeps a button in the list that the callbacks never stop. -/
theorem mem_call (hcb : Keeps cb k) (hmem : k ∈ t.list) : k ∈ (call cb pin handle t).2.list := by
  rw [call]
  split
  · exact mem_foldl_act hmem (hcb _ _ _)
  · exact hmem

/-- The handler of another button leaves the button alone. -/
theorem call_of_ne (hne : handle ≠ k) :
    own k (call cb pin handle t).1 = [] ∧ (call cb pin handle t).2.button k = t.button k := by
  rw [call]
  split
  · exact ⟨own_map_of_ne hne, Function.update_of_ne hne.symm _ _⟩
  · exact ⟨rfl, rfl⟩

theorem call_self (hmem : k ∈ t.list) :
    own k (call cb pin k t).1 = (buttonHandler (t.button k) (pin k)).2 ∧
      (call cb pin k t).2.button k = (buttonHandler (t.button k) (pin k)).1 := by
  rw [call, if_pos hmem]
  exact ⟨own_map_self, Function.update_self ..⟩

theorem mem_calls (hcb : Keeps cb k) (hmem : k ∈ t.list) : k ∈ (calls cb pin handles t).2.list := by
  induction handles generalizing t with
  | nil => exact hmem
  | cons handle handles ih => exact ih (mem_call hcb hmem)

theorem calls_of_not_mem (hk : k ∉ handles) :
    own k (calls cb pin handles t).1 = [] ∧ (calls cb pin handles t).2.button k = t.button k := by
  induction handles generalizing t with
  | nil => exact ⟨rfl, rfl⟩
  | cons handle handles ih =>
    obtain ⟨hne, hrest⟩ := not_or.mp (mt List.mem_cons.mpr hk)
    obtain ⟨hout, hbutton⟩ := @call_of_ne ι σ _ cb pin handle k t (Ne.symm hne)
    obtain ⟨hout', hbutton'⟩ := @ih (call cb pin handle t).2 hrest
    rw [calls]
    dsimp only
    exact ⟨by rw [own_append, hout, hout', List.append_nil], hbutton'.trans hbutton⟩

/-- A tick calls the handler of the button once. -/
theorem calls_self (hcb : Keeps cb k) (hmem : k ∈ t.list) (hk : k ∈ handles) (hnodup : handles.Nodup) :
    own k (calls cb pin handles t).1 = (buttonHandler (t.button k) (pin k)).2 ∧
      (calls cb pin handles t).2.button k = (buttonHandler (t.button k) (pin k)).1 := by
  induction handles generalizing t with
  | nil => exact absurd hk List.not_mem_nil
  | cons handle handles ih =>
    obtain ⟨hhandle, hnodup⟩ := List.nodup_cons.mp hnodup
    rw [calls]
    dsimp only
    rw [own_append]
    by_cases heq : handle = k
    · subst heq
      obtain ⟨hout, hbutton⟩ := @call_self ι σ _ cb pin handle t hmem
      obtain ⟨hout', hbutton'⟩ :=
        @calls_of_not_mem ι σ _ cb pin handle handles (call cb pin handle t).2 hhandle
      exact ⟨by rw [hout, hout', List.append_nil], hbutton'.trans hbutton⟩
    · have hk' : k ∈ handles := (List.mem_cons.mp hk).resolve_left (Ne.symm heq)
      obtain ⟨hout, hbutton⟩ := @call_of_ne ι σ _ cb pin handle k t heq
      obtain ⟨hout', hbutton'⟩ := @ih (call cb pin handle t).2 (mem_call hcb hmem) hk' hnodup
      rw [hbutton] at hout' hbutton'
      exact ⟨by rw [hout, hout', List.nil_append], hbutton'⟩

end tick

/-! ## Runs -/

theorem mem_act_start (k : ι) (l : List ι) : k ∈ Edit.act l (.start k) := by
  rw [Edit.act]
  split
  · assumption
  · exact List.mem_cons_self

theorem heard_cons_ticks {k : ι} {pin : ι → UInt8} {out : List (ι × PressEvent)}
    {log : List (Turn ι × List (ι × PressEvent))} :
    heard k ((.ticks pin, out) :: log) = (pin k, own k out) :: heard k log := rfl

section runs
variable [Fintype ι] {cb : Callbacks ι σ} {k : ι}

/-- A button that is started and not stopped follows the handler. -/
theorem Refines.follows {s : Work ι σ} {t : Started ι σ} {turns : List (Turn ι)} (h : Refines s t)
    (hcb : Keeps cb k) (hmem : k ∈ t.list) (hstop : Turn.edit (.stop k) ∉ turns)
    (hC : (startedButtons cb).Along (FairTurn cb) t turns) :
    ∃ log s', (buttons cb).run s turns = (log, .inl s') ∧
      handler.run (s.button k) (samples k turns) = (heard k log, .inl (s'.button k)) := by
  induction turns generalizing s t with
  | nil => exact ⟨[], s, rfl, rfl⟩
  | cons i turns ih =>
    obtain ⟨hi, hrest⟩ := hC
    obtain ⟨hne, hstop'⟩ := not_or.mp (mt List.mem_cons.mpr hstop)
    obtain ⟨out, s₁, t₁, hs, ht, h₁⟩ := h.step hi
    cases i with
    | ticks pin =>
      obtain ⟨hout, hnext⟩ := Prod.mk.inj ht
      obtain rfl := Sum.inl.inj hnext
      obtain ⟨hown, hbutton⟩ := @calls_self ι σ _ cb pin k t.list t hcb hmem hmem h.holds.nodup
      obtain ⟨log, s', hrun, hhandler⟩ := ih h₁ (mem_calls hcb hmem) hstop' (hrest out _ ht)
      refine ⟨(.ticks pin, out) :: log, s', by rw [Machine.run_cons hs, hrun], ?_⟩
      rw [h₁.button, hbutton, ← h.button] at hhandler
      have hstep : handler.step (s.button k) (pin k) =
          (own k out, .inl (buttonHandler (s.button k) (pin k)).1) := by
        rw [← hout, hown, ← h.button]
        rfl
      show handler.run (s.button k) (pin k :: samples k turns) = _
      rw [Machine.run_cons hstep, hhandler, heard_cons_ticks]
    | edit e =>
      obtain ⟨hout, hnext⟩ := Prod.mk.inj ht
      obtain rfl := Sum.inl.inj hnext
      have hmem₁ : k ∈ e.act t.list := by
        refine @mem_foldl_act ι _ k [e] t.list hmem fun hin => ?_
        exact hne (congrArg Turn.edit (List.mem_singleton.mp hin))
      obtain ⟨log, s', hrun, hhandler⟩ := ih h₁ hmem₁ hstop' (hrest out _ ht)
      rw [h₁.button, ← h.button] at hhandler
      exact ⟨(.edit e, out) :: log, s', by rw [Machine.run_cons hs, hrun], hhandler⟩

/-- From any run on, a button that is started, and that neither the program nor a callback stops, sees in
each tick one sample of its pin, and its events and its state are those of the handler on these samples:
no other button and no call of `button_start` or `button_stop` for one makes a difference. -/
theorem buttons_follow (cb : Callbacks ι σ) (next : ι → Option ι) (button : ι → Button) (app : σ)
    (turns turns' : List (Turn ι)) (k : ι)
    (hC : (startedButtons cb).Along (FairTurn cb) ⟨[], button, app⟩ (turns ++ .edit (.start k) :: turns'))
    (hcb : ∀ handle evs app, Edit.stop k ∉ (cb.run handle evs app).1)
    (hstop : Turn.edit (.stop k) ∉ turns') :
    ∃ log s log' s',
      (buttons cb).run ⟨⟨none, next⟩, button, app⟩ turns = (log, .inl s) ∧
      (buttons cb).run s (.edit (.start k) :: turns') = (log', .inl s') ∧
      handler.run (s.button k) (samples k turns') = (heard k log', .inl (s'.button k)) := by
  obtain ⟨hbefore, hafter⟩ := Machine.along_append_iff.mp hC
  obtain ⟨log, s, t, hs, ht, h⟩ := Machine.run_simulates (fun _ _ _ h hi => h.step hi)
    (⟨Links.holds_nil, rfl, rfl⟩ : Refines ⟨⟨none, next⟩, button, app⟩ ⟨[], button, app⟩) hbefore
  obtain ⟨hstart, hrest⟩ := hafter log t ht
  obtain ⟨out, s₁, t₁, hs₁, ht₁, h₁⟩ := h.step hstart
  obtain ⟨-, hnext⟩ := Prod.mk.inj ht₁
  obtain rfl := Sum.inl.inj hnext
  obtain ⟨log', s', hrun, hhandler⟩ := h₁.follows hcb (mem_act_start k t.list) hstop (hrest out _ ht₁)
  rw [h₁.button, ← h.button] at hhandler
  exact ⟨log, s, (.edit (.start k), out) :: log', s', hs, by rw [Machine.run_cons hs₁, hrun], hhandler⟩

theorem buttons_follow_true :
    ∃ log s log' s',
      (buttons oneShot).run ⟨⟨none, fun _ => none⟩, fun _ => buttonInit 0 1, 0⟩ [.edit (.start false)] =
        (log, .inl s) ∧
      (buttons oneShot).run s (.edit (.start true) :: clickBoth) = (log', .inl s') ∧
      handler.run (s.button true) [1, 1, 1, 0, 0, 0] = (heard true log', .inl (s'.button true)) :=
  buttons_follow oneShot (fun _ => none) (fun _ => buttonInit 0 1) 0 [.edit (.start false)] clickBoth true
    (Machine.along_of_forall oneShot_fair) oneShot_keeps (by simp [clickBoth])

end runs

end McuUtilities.MultiButton
