import RustStd.Lib.Threads

/-!
# Once, over a futex

The state of a `Once` and the bit that says that threads wait for it are one
word. `steps` lists what a thread can do next; it follows `call`, `wait` and the
guard that `call` drops, and every step accesses the word at most once.
-/

set_option autoImplicit false

namespace RustStd.Once
open RustStd.Threads

def incomplete : ℕ := 3

def poisoned : ℕ := 2

def running : ℕ := 1

def complete : ℕ := 0

def queued : ℕ := 4

def stateMask : ℕ := 3

def stateOf (word : ℕ) : ℕ := word &&& stateMask

def IsQueued (word : ℕ) : Prop := word &&& queued ≠ 0

instance (word : ℕ) : Decidable (IsQueued word) := inferInstanceAs (Decidable (_ ≠ _))

inductive Op
  | wait
  | call
  deriving DecidableEq, Repr

/-- How a closure ends: it returns, it returns after `OnceState::poison`, or it
panics. -/
inductive Outcome
  | returns
  | poisons
  | panics
  deriving DecidableEq, Repr

inductive Pc
  | idle
  | isCompleted
  | answered (completed : Bool)
  | load (op : Op) (ignorePoisoning : Bool)
  | look (op : Op) (ignorePoisoning : Bool) (stateAndQueued : ℕ)
  | futexWait (op : Op) (ignorePoisoning : Bool) (expected : ℕ)
  | asleep (op : Op) (ignorePoisoning : Bool)
  | running (ignorePoisoning : Bool)
  | swap (outcome : Outcome)
  | wakeAll (outcome : Outcome)
  /-- A normal return, after a closure of its own or without one. -/
  | returned (own : Option Outcome)
  | panicked
  | assertFailed
  deriving DecidableEq, Repr

structure Shared where
  stateAndQueued : ℕ
  -- whether a closure has returned without poisoning
  completed : Bool
  deriving DecidableEq, Repr

abbrev Result : Type := Shared × Wake Unit × Pc

/-- A weak compare-exchange, which may also fail without a reason. -/
def compareExchangeWeak (g : Shared) (current new : ℕ) (ok : Pc) (err : ℕ → Pc) : List Result :=
  if g.stateAndQueued = current then
    [({ g with stateAndQueued := new }, .nobody, ok), (g, .nobody, err g.stateAndQueued)]
  else [(g, .nobody, err g.stateAndQueued)]

def queueUp (g : Shared) (op : Op) (ignore : Bool) (word : ℕ) : List Result :=
  if IsQueued word then [(g, .nobody, .futexWait op ignore word)]
  else compareExchangeWeak g (stateOf word) (word+queued) (.futexWait op ignore (word+queued))
    (.look op ignore)

def lookWait (g : Shared) (ignore : Bool) (word : ℕ) : List Result :=
  let state := stateOf word
  if state = complete then [(g, .nobody, .returned none)]
  else if state = poisoned ∧ ignore = false then [(g, .nobody, .panicked)]
  else queueUp g .wait ignore word

/-- The word with which `call` registers its thread as the one running. -/
def next (word : ℕ) : ℕ := running+if IsQueued word then queued else 0

def lookCall (g : Shared) (ignore : Bool) (word : ℕ) : List Result :=
  let state := stateOf word
  if state = complete then [(g, .nobody, .returned none)]
  else if state = poisoned ∧ ignore = false then [(g, .nobody, .panicked)]
  else if state = incomplete ∨ state = poisoned then
    compareExchangeWeak g word (next word) (.running ignore) (.look .call ignore)
  else if state ≠ running then [(g, .nobody, .assertFailed)]
  else queueUp g .call ignore word

def Outcome.state : Outcome → ℕ
  | .returns => complete
  | _ => poisoned

def Outcome.exit : Outcome → Pc
  | .panics => .panicked
  | outcome => .returned (some outcome)

def calls (g : Shared) : List Result :=
  [(g, .nobody, .isCompleted), (g, .nobody, .load .wait false), (g, .nobody, .load .wait true),
    (g, .nobody, .load .call false), (g, .nobody, .load .call true)]

def steps (g : Shared) : Pc → List Result
  | .idle => calls g
  | .answered _ => calls g
  | .returned _ => calls g
  | .panicked => calls g
  | .isCompleted => [(g, .nobody, .answered (g.stateAndQueued = complete))]
  | .load op ignore => [(g, .nobody, .look op ignore g.stateAndQueued)]
  | .look .wait ignore word => lookWait g ignore word
  | .look .call ignore word => lookCall g ignore word
  | .futexWait op ignore expected =>
    if g.stateAndQueued = expected then [(g, .nobody, .asleep op ignore)]
    else [(g, .nobody, .load op ignore)]
  | .asleep _ _ => []
  | .running _ =>
    [({ g with completed := true }, .nobody, .swap .returns), (g, .nobody, .swap .poisons),
      (g, .nobody, .swap .panics)]
  | .swap outcome =>
    [({ g with stateAndQueued := outcome.state }, .nobody,
      if IsQueued g.stateAndQueued then .wakeAll outcome else outcome.exit)]
  | .wakeAll outcome => [(g, .all (), outcome.exit)]
  | .assertFailed => []

def program : Program Shared Pc Unit where
  Step g p wake g' p' := (g', wake, p') ∈ steps g p
  sleepsOn
    | .asleep _ _ => some ()
    | _ => none
  woken
    | .asleep op ignore => .load op ignore
    | p => p

def new (ι : Type) : Config ι Shared Pc := ⟨⟨incomplete, false⟩, fun _ => .idle⟩

end RustStd.Once
