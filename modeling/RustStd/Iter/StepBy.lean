import RustStd.Lib.ListIter
import RustStd.Lib.Loop
import RustStd.Lib.Usize

/-!
# `StepBy`

The generic methods work on any inner iterator through `next`, `nth`, `nth_back` and its size
hint. For a range of unsigned integers of width `w` the end of the range is a count instead, and
every method is replaced. `none` is a panic or an overflow.
-/

set_option autoImplicit false

namespace RustStd.Stepping
open RustStd.Loop RustStd.Machine RustStd.ListIter RustStd.Usize

variable {σ α : Type}

structure StepBy (σ : Type) where
  iter : σ
  stepMinusOne : ℕ
  firstTake : Bool
  deriving DecidableEq, Repr

namespace StepBy

def originalStep (self : StepBy σ) : Option ℕ := add self.stepMinusOne 1

def new (iter : σ) (step : ℕ) : Option (StepBy σ) :=
  if step ≠ 0 then some { iter, stepMinusOne := step-1, firstTake := true } else none

end StepBy

section Generic

variable (it : Iter σ α) (self : StepBy σ)

def specNext : Option (Option α × StepBy σ) := do
  let stepSize := if self.firstTake then 0 else self.stepMinusOne
  let (x, iter) ← it.nth stepSize self.iter
  return (x, { self with iter, firstTake := false })

def firstSize (step n : ℕ) : ℕ := if n = 0 then 0 else 1+(n-1)/step

def otherSize (step n : ℕ) : ℕ := n/step

def specSizeHint : Option (ℕ × Option ℕ) := do
  let (low, high) ← it.sizeHint self.iter
  let step ← self.originalStep
  let f := if self.firstTake then firstSize step else otherSize step
  return (f low, high.map f)

/-- A round of the overflow handling: as many blocks of one of the factors as fit are skipped. -/
def overflowStep : σ × ℕ × ℕ → Option ((σ × ℕ × ℕ) ⊕ (Option α × σ))
  | (iter, n, step) =>
    match mul n step with
    | some m => do
      let index ← Checked.sub m 1
      let r ← it.nth index iter
      return .inr r
    | none => do
      let divN ← div usizeMax n
      let divStep ← div usizeMax step
      let nthN ← mul divN n
      let nthStep ← mul divStep step
      if nthN > nthStep then
        let step ← Checked.sub step divN
        let index ← Checked.sub nthN 1
        let (_, iter) ← it.nth index iter
        return .inl (iter, n, step)
      else
        let n ← Checked.sub n divStep
        let index ← Checked.sub nthStep 1
        let (_, iter) ← it.nth index iter
        return .inl (iter, n, step)

def overflowLoop (iter : σ) (n step : ℕ) : Option (Option α × StepBy σ) := do
  let (x, iter) ← loop (overflowStep it) (n+step+1) (iter, n, step)
  return (x, { self with iter })

def nthRest (n : ℕ) : Option (Option α × StepBy σ) := do
  let step ← self.originalStep
  if n = usizeMax then
    let index ← Checked.sub step 1
    let (_, iter) ← it.nth index self.iter
    overflowLoop it self iter n step
  else
    let n ← add n 1
    overflowLoop it self self.iter n step

def specNth (n : ℕ) : Option (Option α × StepBy σ) :=
  if self.firstTake then do
    let (first, iter) ← it.next self.iter
    let self := { self with iter, firstTake := false }
    if n = 0 then return (first, self)
    else
      let n ← Checked.sub n 1
      nthRest it self n
  else nthRest it self n

def nextBackIndex : Option ℕ := do
  let len ← exactLen (← it.sizeHint self.iter)
  let step ← self.originalStep
  let rem ← rem len step
  return if self.firstTake then if rem = 0 then self.stepMinusOne else rem-1 else rem

def specNextBack : Option (Option α × StepBy σ) := do
  let index ← nextBackIndex it self
  let (x, iter) ← it.nthBack index self.iter
  return (x, { self with iter })

def specNthBack (n : ℕ) : Option (Option α × StepBy σ) := do
  let step ← self.originalStep
  let index ← nextBackIndex it self
  let (x, iter) ← it.nthBack (saturatingAdd (saturatingMul n step) index) self.iter
  return (x, { self with iter })

def generic : Iter (StepBy σ) α :=
  { next := specNext it, nth := fun n s => specNth it s n, nextBack := specNextBack it
    nthBack := fun n s => specNthBack it s n, sizeHint := specSizeHint it }

end Generic

/-! ## The integer ranges -/

structure Range where
  start : ℕ
  end_ : ℕ
  deriving DecidableEq, Repr

namespace Range

def len (self : Range) : ℕ := if self.start < self.end_ then self.end_-self.start else 0

/-- `SpecRangeSetup::setup`: the end becomes the number of elements. -/
def setup (w : ℕ) (r : Range) (step : ℕ) : Range := { r with end_ := ceil r.len step%2^w }

def stepBy (w : ℕ) (r : Range) (step : ℕ) : Option (StepBy Range) :=
  if step ≠ 0 then
    some { iter := setup w r step, stepMinusOne := step-1, firstTake := true }
  else none

section Methods

variable (w : ℕ) (self : StepBy Range)

def stepOrMax (step : ℕ) : ℕ := if step < 2^w then step else 2^w-1

def specNext : Option (Option ℕ × StepBy Range) := do
  let step ← self.originalStep
  let step := stepOrMax w step
  let remaining := self.iter.end_
  if remaining > 0 then
    let val := self.iter.start
    return (some val, { self with iter := { start := (val+step)%2^w, end_ := remaining-1 } })
  else return (none, self)

def specSizeHint : Option (ℕ × Option ℕ) := some (self.iter.end_, some self.iter.end_)

/-- The default `nth`, over the default `advance_by`. -/
def specNth (n : ℕ) : Option (Option ℕ × StepBy Range) := nthByNext (specNext w) n self

def specNextBack : Option (Option ℕ × StepBy Range) := do
  let step ← self.originalStep
  let step := step%2^w
  let remaining := self.iter.end_
  if remaining > 0 then
    let start := self.iter.start
    let offset ← Checked.unsigned w (step*(remaining-1))
    let val ← Checked.unsigned w (start+offset)
    return (some val, { self with iter := { start, end_ := remaining-1 } })
  else return (none, self)

/-- The default `nth_back`, over the default `advance_back_by`. -/
def specNthBack (n : ℕ) : Option (Option ℕ × StepBy Range) := nthByNext (specNextBack w) n self

def special : Iter (StepBy Range) ℕ :=
  { next := specNext w, nth := fun n s => specNth w s n, nextBack := specNextBack w
    nthBack := fun n s => specNthBack w s n, sizeHint := specSizeHint }

end Methods

end Range

/-! ## The list -/

def everyFrom (step : ℕ) : ℕ → List α → List α
  | _, [] => []
  | 0, x :: l => x :: everyFrom step (step-1) l
  | k+1, _ :: l => everyFrom step k l

def everyNth (step : ℕ) (l : List α) : List α := everyFrom step 0 l

def rangeList (start stop : ℕ) : List ℕ := tabulate (stop-start) fun i => start+i

end RustStd.Stepping
