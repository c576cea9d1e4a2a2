import RustStd.Iter.Step
import RustStd.Lib.ListCalls
import RustStd.Lib.Usize

/-!
# `RangeInclusive`

The end of the range is the last element, and a flag says that it was taken already. Types with
trusted steps move by the unchecked methods, the others by the checked ones. `none` is a panic, undefined
behaviour or a loop that has run out of fuel.
-/

set_option autoImplicit false

namespace RustStd.Ranges

variable {A β γ : Type}

structure RangeInclusive (A : Type) where
  start : A
  last : A
  exhausted : Bool

namespace RangeInclusive

def new (start last : A) : RangeInclusive A := ⟨start, last, false⟩

section Methods

variable (step : Step A) (trusted : Bool) [DecidableEq A] (r : RangeInclusive A)

def isEmpty : Bool := r.exhausted || !decide (step.key r.start ≤ step.key r.last)

/-- The step of both implementations of `RangeInclusiveIteratorImpl`. -/
def succ (a : A) : Option A :=
  if trusted then step.forwardUnchecked a 1 else (step.forwardChecked a 1).join

def pred (a : A) : Option A :=
  if trusted then step.backwardUnchecked a 1 else (step.backwardChecked a 1).join

def specNext : Option (Option A × RangeInclusive A) :=
  if r.isEmpty step then some (none, r)
  else if step.key r.start < step.key r.last then do
    let n ← succ step trusted r.start
    return (some r.start, { r with start := n })
  else some (some r.start, { r with exhausted := true })

def specNextBack : Option (Option A × RangeInclusive A) :=
  if r.isEmpty step then some (none, r)
  else if step.key r.start < step.key r.last then do
    let n ← pred step trusted r.last
    return (some r.last, { r with last := n })
  else some (some r.last, { r with exhausted := true })

section Folds

variable (f : γ → A → Except β γ)

def foldLoop : ℕ → γ → RangeInclusive A → Option (Except β γ × RangeInclusive A)
  | 0, _, _ => none
  | fuel+1, accum, r =>
    if step.key r.start < step.key r.last then
      match succ step trusted r.start with
      | none => none
      | some n =>
        match f accum r.start with
        | .ok accum => foldLoop fuel accum { r with start := n }
        | .error b => some (.error b, { r with start := n })
    else some (.ok accum, r)

def rfoldLoop : ℕ → γ → RangeInclusive A → Option (Except β γ × RangeInclusive A)
  | 0, _, _ => none
  | fuel+1, accum, r =>
    if step.key r.start < step.key r.last then
      match pred step trusted r.last with
      | none => none
      | some n =>
        match f accum r.last with
        | .ok accum => rfoldLoop fuel accum { r with last := n }
        | .error b => some (.error b, { r with last := n })
    else some (.ok accum, r)

/-- The last element, unless the closure has stopped before. -/
def foldLast : Except β γ × RangeInclusive A → Except β γ × RangeInclusive A
  | (.error b, r) => (.error b, r)
  | (.ok accum, r) =>
    if r.start = r.last then (f accum r.start, { r with exhausted := true })
    else (.ok accum, { r with exhausted := true })

def specTryFold (fuel : ℕ) (init : γ) : Option (Except β γ × RangeInclusive A) :=
  if r.isEmpty step then some (.ok init, r) else (foldLoop step trusted f fuel init r).map (foldLast f)

def specTryRfold (fuel : ℕ) (init : γ) : Option (Except β γ × RangeInclusive A) :=
  if r.isEmpty step then some (.ok init, r)
  else (rfoldLoop step trusted f fuel init r).map (foldLast f)

end Folds

def sizeHint : ℕ × Option ℕ :=
  if r.isEmpty step then (0, some 0)
  else
    let hint := step.stepsBetween r.start r.last
    (Usize.saturatingAdd hint.1 1, hint.2.bind fun steps => Usize.add steps 1)

def nthAt (plusN : A) : Option (Option A × RangeInclusive A) :=
  match compare (step.key plusN) (step.key r.last) with
  | .lt => do
    let next ← step.forward plusN 1
    return (some plusN, { r with start := next })
  | .eq => some (some plusN, { r with start := plusN, exhausted := true })
  | .gt => some (none, { r with start := r.last, exhausted := true })

def nth (n : ℕ) : Option (Option A × RangeInclusive A) :=
  if r.isEmpty step then some (none, r)
  else
    match step.forwardChecked r.start n with
    | none => none
    | some (some plusN) => nthAt step r plusN
    | some none => some (none, { r with start := r.last, exhausted := true })

def nthBackAt (minusN : A) : Option (Option A × RangeInclusive A) :=
  match compare (step.key minusN) (step.key r.start) with
  | .gt => do
    let next ← step.backward minusN 1
    return (some minusN, { r with last := next })
  | .eq => some (some minusN, { r with last := minusN, exhausted := true })
  | .lt => some (none, { r with last := r.start, exhausted := true })

def nthBack (n : ℕ) : Option (Option A × RangeInclusive A) :=
  if r.isEmpty step then some (none, r)
  else
    match step.backwardChecked r.last n with
    | none => none
    | some (some minusN) => nthBackAt step r minusN
    | some none => some (none, { r with last := r.start, exhausted := true })

end Methods

/-- `advance_by` and `advance_back_by` are the default methods. -/
def iter (step : Step A) (trusted : Bool) [DecidableEq A] (fuel : ℕ) :
    ListCalls.Iter (RangeInclusive A) A where
  next := specNext step trusted
  nextBack := specNextBack step trusted
  nth n r := nth step r n
  nthBack n r := nthBack step r n
  advanceBy := ListCalls.advanceByFold fun f init r => specTryFold step trusted r f fuel init
  advanceBackBy := ListCalls.advanceBackByNext (specNextBack step trusted)
  tryFold f init r := specTryFold step trusted r f fuel init
  tryRfold f init r := specTryRfold step trusted r f fuel init

end RangeInclusive

end RustStd.Ranges
