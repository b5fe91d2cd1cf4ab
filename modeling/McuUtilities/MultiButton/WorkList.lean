import McuUtilities.Lib.Linked
import McuUtilities.MultiButton.Handler

/-!
# The work list (`multi_button.c`)

`button_start` puts a button in front of a linked list, `button_stop` removes it, and `button_ticks`
calls the handler of each button from the head on. Callbacks run inside the handler and may start and
stop buttons themselves, also their own, while `button_ticks` is between two buttons. The cells are the
finitely many buttons of the firmware; a loop over the list that makes more rounds than there are buttons
never ends, and the machine stops.
-/

namespace McuUtilities.MultiButton

/-- A call of `button_start` or `button_stop`. -/
inductive Edit (ι : Type) where
  | start (handle : ι)
  | stop (handle : ι)

/-- What the callbacks of a handler call do: the calls they make, and what they do to the application.
They are given the button and the events, in order. -/
structure Callbacks (ι σ : Type) where
  run : ι → List PressEvent → σ → List (Edit ι) × σ

/-- The work list, the buttons, and the state of the application. -/
structure Work (ι σ : Type) where
  links : Links ι
  button : ι → Button
  app : σ

/-- A loop that never ends. -/
inductive Hung where
  | hung

/-- What happens to the buttons: the timer ticks, with the levels of the pins, or the program starts or
stops a button. -/
inductive Turn (ι : Type) where
  | ticks (pin : ι → UInt8)
  | edit (e : Edit ι)

variable {ι σ : Type} [DecidableEq ι]

section loops
variable [Fintype ι]

/-- One round more than there are buttons. -/
def rounds (ι : Type) [Fintype ι] : Nat := Fintype.card ι + 1

/-- `button_start(handle)`: its result and the list. -/
def buttonStart (handle : ι) (s : Links ι) : Option (Int × Links ι) :=
  match s.seek handle (rounds ι) s.head with
  | none => none
  | some true => some (-1, s)
  | some false => some (0, s.push handle)

/-- `button_stop(handle)` -/
def buttonStop (handle : ι) (s : Links ι) : Option (Links ι) := s.unlink handle (rounds ι) .head

/-- A call. -/
def Edit.apply (s : Links ι) : Edit ι → Option (Links ι)
  | .start handle => (buttonStart handle s).map (·.2)
  | .stop handle => buttonStop handle s

/-- One call after the other. -/
def applyAll : List (Edit ι) → Links ι → Option (Links ι)
  | [], s => some s
  | e :: es, s => (e.apply s).bind (applyAll es)

/-- `button_handler(handle)` with its callbacks, when the pin of the button reads `level`. -/
def visit (cb : Callbacks ι σ) (handle : ι) (level : UInt8) (s : Work ι σ) :
    List (ι × PressEvent) × Option (Work ι σ) :=
  let r := buttonHandler (s.button handle) level
  let c := cb.run handle r.2 s.app
  (r.2.map (handle, ·), (applyAll c.1 s.links).map fun links =>
    ⟨links, Function.update s.button handle r.1, c.2⟩)

/-- The loop of `button_ticks` from `target` on. -/
def ticksLoop (cb : Callbacks ι σ) (pin : ι → UInt8) :
    Nat → Option ι → Work ι σ → List (ι × PressEvent) × (Work ι σ ⊕ Hung)
  | 0, _, _ => ([], .inr .hung)
  | _ + 1, none, s => ([], .inl s)
  | n + 1, some target, s =>
    match visit cb target (pin target) s with
    | (out, none) => (out, .inr .hung)
    | (out, some s') =>
      let r := ticksLoop cb pin n (s'.links.next target) s'
      (out ++ r.1, r.2)

/-- `button_ticks()` -/
def buttonTicks (cb : Callbacks ι σ) (pin : ι → UInt8) (s : Work ι σ) :
    List (ι × PressEvent) × (Work ι σ ⊕ Hung) := ticksLoop cb pin (rounds ι) s.links.head s

/-- The buttons as a machine. -/
def buttons (cb : Callbacks ι σ) : Machine (Work ι σ) (Turn ι) (ι × PressEvent) Hung where
  step s
    | .ticks pin => buttonTicks cb pin s
    | .edit e => match e.apply s.links with
      | none => ([], .inr .hung)
      | some links => ([], .inl { s with links })

end loops

/-! ## What the list is for -/

/-- The buttons that are started, the one started last in front, the buttons, and the application. -/
structure Started (ι σ : Type) where
  list : List ι
  button : ι → Button
  app : σ

/-- A call, on the buttons that are started. -/
def Edit.act (l : List ι) : Edit ι → List ι
  | .start handle => if handle ∈ l then l else handle :: l
  | .stop handle => l.erase handle

/-- The handler of a button that is started is called; one that was stopped is passed over. -/
def call (cb : Callbacks ι σ) (pin : ι → UInt8) (handle : ι) (s : Started ι σ) :
    List (ι × PressEvent) × Started ι σ :=
  if handle ∈ s.list then
    let r := buttonHandler (s.button handle) (pin handle)
    let c := cb.run handle r.2 s.app
    (r.2.map (handle, ·), ⟨c.1.foldl Edit.act s.list, Function.update s.button handle r.1, c.2⟩)
  else ([], s)

/-- The handlers of the buttons are called in order. -/
def calls (cb : Callbacks ι σ) (pin : ι → UInt8) : List ι → Started ι σ →
    List (ι × PressEvent) × Started ι σ
  | [], s => ([], s)
  | handle :: handles, s =>
    let r := call cb pin handle s
    let r' := calls cb pin handles r.2
    (r.1 ++ r'.1, r'.2)

/-- Each tick calls the handler of each button that was started before the tick, in order, unless a
callback has stopped it in the meantime. -/
def startedButtons (cb : Callbacks ι σ) : Machine (Started ι σ) (Turn ι) (ι × PressEvent) Empty where
  step s
    | .ticks pin => ((calls cb pin s.list s).1, .inl (calls cb pin s.list s).2)
    | .edit e => ([], .inl { s with list := e.act s.list })

/-! ## The discipline of the callbacks -/

/-- The calls that the callbacks of the button `handle` may make during a tick over `all`: they do not
start a button again that was stopped during the tick, and once they have stopped their own button they
stop no other one. -/
def Fair (all : List ι) (handle : ι) : List ι → List (Edit ι) → Prop
  | _, [] => True
  | l, .start h :: es => (h ∈ all → h ∈ l) ∧ Fair all handle (Edit.act l (.start h)) es
  | l, .stop h :: es =>
    (h = handle → ∀ k, .stop k ∉ es) ∧ Fair all handle (Edit.act l (.stop h)) es

/-- The callbacks of the handler calls of a tick keep to it. -/
def FairCalls (cb : Callbacks ι σ) (pin : ι → UInt8) (all : List ι) : List ι → Started ι σ → Prop
  | [], _ => True
  | handle :: handles, s =>
    (handle ∈ s.list → Fair all handle s.list
      (cb.run handle (buttonHandler (s.button handle) (pin handle)).2 s.app).1) ∧
      FairCalls cb pin all handles (call cb pin handle s).2

/-- The callbacks keep to it in a turn. -/
def FairTurn (cb : Callbacks ι σ) (s : Started ι σ) : Turn ι → Prop
  | .ticks pin => FairCalls cb pin s.list s.list s
  | .edit _ => True

end McuUtilities.MultiButton
