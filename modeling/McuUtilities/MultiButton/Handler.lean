import McuUtilities.Lib.Machine

/-!
# The button state machine (`multi_button.c`)

`button_handler` is called every 5 ms. It reads the pin, debounces the level and makes one transition of
a state machine, whose events go to the callbacks; its output is the list of the events it is about to
call a callback for. Callbacks are taken to leave the button alone. `Moves` lists the transitions.
-/

namespace McuUtilities.MultiButton

/-- `PressEvent`. -/
inductive PressEvent where
  | pressDown
  | pressUp
  | pressRepeat
  | singleClick
  | doubleClick
  | longPressStart
  | longPressHold
  | nonePress
deriving DecidableEq, Repr

abbrev ticksInterval : UInt16 := 5
abbrev debounceTicks : BitVec 3 := 3
abbrev shortTicks : UInt16 := 300 / ticksInterval
abbrev continueTrigger : UInt8 := 1

/-- `struct Button`, without its callbacks and the link to the next one. The field `repeat` is
`repeats`. -/
structure Button where
  ticks : UInt16
  repeats : BitVec 4
  event : PressEvent
  state : BitVec 3
  debounceCnt : BitVec 3
  activeLevel : BitVec 1
  buttonLevel : BitVec 1
  period : UInt16
  longPressStartFlag : UInt8

/-- A pin level, as it is kept in a field of one bit. -/
def bitOf (level : UInt8) : BitVec 1 := BitVec.ofNat 1 level.toNat

/-- `button_init_ext(handle, pin_level_ext, active_level)`. -/
def buttonInitExt (activeLevel : UInt8) : Button where
  ticks := 0
  repeats := 0
  event := .nonePress
  state := 0
  debounceCnt := 0
  activeLevel := bitOf activeLevel
  buttonLevel := 0
  period := 0
  longPressStartFlag := 0

/-- `button_init(handle, pin_level, active_level)` when the pin is at `pinLevel`. -/
def buttonInit (pinLevel activeLevel : UInt8) : Button :=
  { buttonInitExt activeLevel with buttonLevel := bitOf pinLevel }

/-! ## One call of the handler -/

/-- The debounced level is the active one. -/
def Button.Pressed (b : Button) : Prop := b.buttonLevel = b.activeLevel

instance (b : Button) : Decidable b.Pressed := inferInstanceAs (Decidable (_ = _))

/-- The ticks counter. -/
def countTick (b : Button) : Button := if 0 < b.state then { b with ticks := b.ticks + 1 } else b

/-- The debouncing of the level that was read. -/
def debounce (readGpioLevel : UInt8) (b : Button) : Button :=
  if readGpioLevel.toNat ≠ b.buttonLevel.toNat then
    let debounceCnt := b.debounceCnt + 1
    if debounceTicks ≤ debounceCnt then
      { b with buttonLevel := bitOf readGpioLevel, debounceCnt := 0 }
    else { b with debounceCnt := debounceCnt }
  else { b with debounceCnt := 0 }

section cases
variable (b : Button)

/-- `case 0`. -/
def case0 : Button × List PressEvent :=
  if b.Pressed then
    ({ b with event := .pressDown, ticks := 0, repeats := 1, state := 1 }, [.pressDown])
  else ({ b with event := .nonePress }, [])

/-- `case 1`. -/
def case1 (longTicks : UInt16) : Button × List PressEvent :=
  if ¬ b.Pressed then
    let b := { b with event := .pressUp, ticks := 0 }
    if continueTrigger = b.longPressStartFlag then ({ b with state := 0 }, [.pressUp])
    else ({ b with state := 2 }, [.pressUp])
  else if longTicks < b.ticks then
    let b := { b with event := .longPressStart }
    if .longPressStart = b.event ∧ continueTrigger = b.longPressStartFlag then
      ({ b with state := 6 }, [.longPressStart])
    else ({ b with state := 5 }, [.longPressStart])
  else (b, [])

/-- `case 2`. -/
def case2 : Button × List PressEvent :=
  if b.Pressed then
    ({ b with event := .pressDown, repeats := b.repeats + 1, ticks := 0, state := 3 },
      [.pressDown, .pressRepeat])
  else if shortTicks < b.ticks then
    if b.repeats = 1 then ({ b with event := .singleClick, state := 0 }, [.singleClick])
    else if b.repeats = 2 then ({ b with event := .doubleClick, state := 0 }, [.doubleClick])
    else ({ b with state := 0 }, [])
  else (b, [])

/-- `case 3`. -/
def case3 : Button × List PressEvent :=
  if ¬ b.Pressed then
    let b := { b with event := .pressUp }
    if b.ticks < shortTicks then ({ b with ticks := 0, state := 2 }, [.pressUp])
    else ({ b with state := 0 }, [.pressUp])
  else (b, [])

/-- `case 5`. -/
def case5 : Button × List PressEvent :=
  if b.Pressed then ({ b with event := .longPressHold }, [.longPressHold])
  else ({ b with event := .pressUp, state := 0 }, [.pressUp])

/-- `case 6`. -/
def case6 : Button × List PressEvent :=
  if b.Pressed then ({ b with ticks := 0, state := 1 }, [])
  else ({ b with event := .pressUp, state := 0 }, [.pressUp])

/-- The state machine. -/
def stateMachine (longTicks : UInt16) : Button × List PressEvent :=
  match b.state with
  | 0#3 => case0 b
  | 1#3 => case1 b longTicks
  | 2#3 => case2 b
  | 3#3 => case3 b
  | 5#3 => case5 b
  | 6#3 => case6 b
  | _ => (b, [])

end cases

/-- `button_handler(handle)` when the pin reads `readGpioLevel`. -/
def buttonHandler (b : Button) (readGpioLevel : UInt8) : Button × List PressEvent :=
  let longTicks := b.period / ticksInterval
  stateMachine (debounce readGpioLevel (countTick b)) longTicks

/-- The handler, called with one sample of the pin after the other. -/
def handler : Machine Button UInt8 PressEvent Empty where
  step b level := ((buttonHandler b level).2, .inl (buttonHandler b level).1)

/-! ## The transitions -/

/-- The release time-out of state 2. -/
def TimedOut (b : Button) : Prop := b.state = 2 ∧ ¬ b.Pressed ∧ shortTicks < b.ticks

instance (b : Button) : Decidable (TimedOut b) := inferInstanceAs (Decidable (_ ∧ _ ∧ _))

/-- The transitions from `b`: to which state and click count, with which events. -/
inductive Moves (b : Button) : BitVec 3 → BitVec 4 → List PressEvent → Prop where
  | stay (h : ¬ TimedOut b) : Moves b b.state b.repeats []
  | press (h : b.state = 0) : Moves b 1 1 [.pressDown]
  | release {s' : BitVec 3} (h : b.state = 1 ∨ b.state = 3) (h' : s' = 0 ∨ s' = 2) :
      Moves b s' b.repeats [.pressUp]
  | long {s' : BitVec 3} (h : b.state = 1) (h' : s' = 5 ∨ s' = 6) :
      Moves b s' b.repeats [.longPressStart]
  | again (h : b.state = 2) (hp : b.Pressed) :
      Moves b 3 (b.repeats + 1) [.pressDown, .pressRepeat]
  | single (h : TimedOut b) (hr : b.repeats = 1) : Moves b 0 b.repeats [.singleClick]
  | double (h : TimedOut b) (hr : b.repeats = 2) : Moves b 0 b.repeats [.doubleClick]
  | many (h : TimedOut b) (h1 : b.repeats ≠ 1) (h2 : b.repeats ≠ 2) : Moves b 0 b.repeats []
  | hold (h : b.state = 5) : Moves b 5 b.repeats [.longPressHold]
  | resume (h : b.state = 6) : Moves b 1 b.repeats []
  | releaseLong (h : b.state = 5 ∨ b.state = 6) : Moves b 0 b.repeats [.pressUp]

section moves
variable {b : Button}

theorem stateMachine_moves (longTicks : UInt16) : Moves b (stateMachine b longTicks).1.state
    (stateMachine b longTicks).1.repeats (stateMachine b longTicks).2 := by
  have hother : ∀ {s : BitVec 3}, b.state = s → s ≠ 2 → ¬ TimedOut b :=
    fun h hs ht => hs (h.symm.trans ht.1)
  unfold stateMachine
  split
  · next h =>
    unfold case0
    split
    · exact .press h
    · exact .stay (hother h (by decide))
  · next h =>
    unfold case1
    split
    · dsimp only
      split
      · exact .release (.inl h) (.inl rfl)
      · exact .release (.inl h) (.inr rfl)
    · split
      · dsimp only
        split
        · exact .long h (.inr rfl)
        · exact .long h (.inl rfl)
      · exact .stay (hother h (by decide))
  · next h =>
    unfold case2
    split
    · next hp => exact .again h hp
    · next hp =>
      split
      · next ht =>
        split
        · next hr => exact .single ⟨h, hp, ht⟩ hr
        · next hr =>
          split
          · next hr' => exact .double ⟨h, hp, ht⟩ hr'
          · next hr' => exact .many ⟨h, hp, ht⟩ hr hr'
      · next ht => exact .stay fun htimed => ht htimed.2.2
  · next h =>
    unfold case3
    split
    · dsimp only
      split
      · exact .release (.inr h) (.inr rfl)
      · exact .release (.inr h) (.inl rfl)
    · exact .stay (hother h (by decide))
  · next h =>
    unfold case5
    split
    · exact h ▸ .hold h
    · exact .releaseLong (.inl h)
  · next h =>
    unfold case6
    split
    · exact .resume h
    · exact .releaseLong (.inr h)
  · next h2 _ _ _ => exact .stay fun htimed => h2 htimed.1

@[simp] theorem state_countTick : (countTick b).state = b.state := by
  unfold countTick
  split <;> rfl

@[simp] theorem repeats_countTick : (countTick b).repeats = b.repeats := by
  unfold countTick
  split <;> rfl

@[simp] theorem state_debounce {level : UInt8} : (debounce level b).state = b.state := by
  unfold debounce
  dsimp only
  split
  · split <;> rfl
  · rfl

@[simp] theorem repeats_debounce {level : UInt8} : (debounce level b).repeats = b.repeats := by
  unfold debounce
  dsimp only
  split
  · split <;> rfl
  · rfl

end moves

/-! ## Buttons at the start -/

/-- A button that was just initialised, with any period and flag. -/
inductive Fresh : Button → Prop where
  | init (pinLevel activeLevel : UInt8) (period : UInt16) (longPressStartFlag : UInt8) :
      Fresh { buttonInit pinLevel activeLevel with period, longPressStartFlag }
  | initExt (activeLevel : UInt8) (period : UInt16) (longPressStartFlag : UInt8) :
      Fresh { buttonInitExt activeLevel with period, longPressStartFlag }

theorem Fresh.state {b : Button} (h : Fresh b) : b.state = 0 := by
  cases h <;> rfl

end McuUtilities.MultiButton
