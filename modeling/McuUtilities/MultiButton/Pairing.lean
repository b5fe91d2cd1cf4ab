import McuUtilities.MultiButton.Handler

/-!
# Presses and releases

The events of a run say whether the button is held down: it is from `PRESS_DOWN` to the next `PRESS_UP`.
The state machine agrees with that, so each event comes when it makes sense.
-/

namespace McuUtilities.MultiButton

/-- The events of a log. -/
def events (log : List (UInt8 × List PressEvent)) : List PressEvent := log.flatMap (·.2)

/-- The button is held down after the event. -/
def downAfter (down : Bool) : PressEvent → Bool
  | .pressDown => true
  | .pressUp => false
  | _ => down

/-- The button is held down after the events. -/
def isDown (evs : List PressEvent) : Bool := evs.foldl downAfter false

/-- The event is one of a button that is held down. -/
def PressEvent.whileDown : PressEvent → Bool
  | .pressUp | .pressRepeat | .longPressStart | .longPressHold => true
  | .pressDown | .singleClick | .doubleClick | .nonePress => false

/-- Each event comes while the button is held down, or while it is not, as it should. So `PRESS_DOWN` and
`PRESS_UP` take turns, and the first of them is a `PRESS_DOWN`. -/
def Paired (evs : List PressEvent) : Prop :=
  ∀ pre e post, evs = pre ++ e :: post → isDown pre = e.whileDown

/-- The states of the machine, and those in which the button is held down. -/
def states : List (BitVec 3) := [0, 1, 2, 3, 5, 6]
def downStates : List (BitVec 3) := [1, 3, 5, 6]

/-- The state agrees with the events so far. -/
structure Agrees (log : List (UInt8 × List PressEvent)) (b : Button) : Prop where
  paired : Paired (events log)
  state : b.state ∈ states
  down : isDown (events log) = decide (b.state ∈ downStates)

section pairing
variable {evs : List PressEvent} {e : PressEvent} {b b' : Button}
  {log : List (UInt8 × List PressEvent)} {level : UInt8}

theorem isDown_concat : isDown (evs ++ [e]) = downAfter (isDown evs) e := by
  rw [isDown, List.foldl_append]
  rfl

theorem paired_nil : Paired [] := by
  intro pre e post h
  simp at h

theorem Paired.concat (h : Paired evs) (he : isDown evs = e.whileDown) : Paired (evs ++ [e]) := by
  intro pre e' post hsplit
  rcases List.eq_nil_or_concat post with rfl | ⟨post', last, rfl⟩
  · obtain ⟨rfl, heq⟩ := List.append_inj' hsplit rfl
    cases heq
    exact he
  · rw [List.concat_eq_append, ← List.cons_append, ← List.append_assoc] at hsplit
    exact h pre e' post' (List.append_inj' hsplit rfl).1

theorem events_concat {out : List PressEvent} : events (log ++ [(level, out)]) = events log ++ out := by
  simp [events]

/-- One transition, by what it does to the state and to the events. -/
theorem moves_pairing {s' : BitVec 3} {r' : BitVec 4} {out : List PressEvent}
    (hmove : Moves b s' r' out) (hp : Paired evs) (hs : b.state ∈ states)
    (hd : isDown evs = decide (b.state ∈ downStates)) :
    Paired (evs ++ out) ∧ s' ∈ states ∧ isDown (evs ++ out) = decide (s' ∈ downStates) := by
  cases hmove with
  | stay =>
    rw [List.append_nil]
    exact ⟨hp, hs, hd⟩
  | press h =>
    rw [h] at hd
    exact ⟨hp.concat hd, by decide, by rw [isDown_concat]; rfl⟩
  | release h h' =>
    have hd' : isDown evs = true := by
      rcases h with h | h <;> rw [h] at hd <;> exact hd
    refine ⟨hp.concat hd', ?_, ?_⟩
    · rcases h' with rfl | rfl <;> decide
    · rw [isDown_concat]
      rcases h' with rfl | rfl <;> rfl
  | long h h' =>
    rw [h] at hd
    refine ⟨hp.concat hd, ?_, ?_⟩
    · rcases h' with rfl | rfl <;> decide
    · rw [isDown_concat]
      rcases h' with rfl | rfl <;> exact hd
  | again h =>
    rw [h] at hd
    have hdown := hp.concat (e := .pressDown) hd
    have hd' : isDown (evs ++ [.pressDown]) = true := by rw [isDown_concat]; rfl
    have hsplit : evs ++ [.pressDown, .pressRepeat] = evs ++ [.pressDown] ++ [.pressRepeat] := by simp
    rw [hsplit]
    exact ⟨hdown.concat hd', by decide, by rw [isDown_concat]; exact hd'⟩
  | single h =>
    rw [h.1] at hd
    exact ⟨hp.concat hd, by decide, by rw [isDown_concat]; exact hd⟩
  | double h =>
    rw [h.1] at hd
    exact ⟨hp.concat hd, by decide, by rw [isDown_concat]; exact hd⟩
  | many h =>
    rw [h.1] at hd
    rw [List.append_nil]
    exact ⟨hp, by decide, hd⟩
  | hold h =>
    rw [h] at hd
    exact ⟨hp.concat hd, by decide, by rw [isDown_concat]; exact hd⟩
  | resume h =>
    rw [h] at hd
    rw [List.append_nil]
    exact ⟨hp, by decide, hd⟩
  | releaseLong h =>
    have hd' : isDown evs = true := by
      rcases h with h | h <;> rw [h] at hd <;> exact hd
    exact ⟨hp.concat hd', by decide, by rw [isDown_concat]; rfl⟩

/-- One call of the handler. -/
theorem Agrees.step (h : Agrees log b) :
    Agrees (log ++ [(level, (buttonHandler b level).2)]) (buttonHandler b level).1 := by
  have hmove := stateMachine_moves (b := debounce level (countTick b)) (b.period / ticksInterval)
  have hpair := moves_pairing hmove h.paired (by simpa using h.state) (by simpa using h.down)
  exact ⟨by rw [events_concat]; exact hpair.1, hpair.2.1, by rw [events_concat]; exact hpair.2.2⟩

end pairing

/-- From a button that was just initialised, whatever is sampled from its pin: presses and releases take
turns, every other event comes between the two it belongs to, and the state is one of six. -/
theorem handler_paired {b : Button} (hb : Fresh b) (samples : List UInt8) :
    ∃ log b', handler.run b samples = (log, .inl b') ∧ Paired (events log) ∧ b'.state ∈ states := by
  have hstart : Agrees [] b := ⟨paired_nil, hb.state ▸ by decide, by rw [hb.state]; rfl⟩
  have halong : handler.Along (fun _ _ => True) b samples := Machine.along_of_forall fun _ _ => trivial
  have hinv := Machine.run_invariant (I := Agrees) (fun log s i out s' h _ hstep => by
    cases hstep
    exact h.step) hstart halong
  cases hrun : handler.run b samples with
  | mk log last =>
    rw [hrun] at hinv
    cases last with
    | inl b' =>
      have hagrees : Agrees log b' := hinv
      exact ⟨log, b', rfl, hagrees.paired, hagrees.state⟩
    | inr r => exact r.elim

/-- A button with a long press of one second. -/
def sampleButton : Button := { buttonInit 0 1 with period := 1000, longPressStartFlag := 0 }

/-- A press that bounces once, and its release. -/
theorem handler_paired_bounce :
    events (handler.run sampleButton [1, 0, 1, 1, 1, 0, 0, 0]).1 = [.pressDown, .pressUp] ∧
      Paired [.pressDown, .pressUp] := by
  have hevents : events (handler.run sampleButton [1, 0, 1, 1, 1, 0, 0, 0]).1 =
      [.pressDown, .pressUp] := by decide
  obtain ⟨log, b', hrun, hpaired, -⟩ := handler_paired (.init 0 1 1000 0) [1, 0, 1, 1, 1, 0, 0, 0]
  refine ⟨hevents, ?_⟩
  rw [← sampleButton] at hrun
  rw [hrun] at hevents
  exact hevents ▸ hpaired

end McuUtilities.MultiButton
