import RustStd.Lib.Slots

/-!
# Vectors with owned slots

The buffer of a vector has slots that own their values, and `len` says how many of them
belong to the vector. Callbacks change the values that they are given and may unwind. What
a vector drops is recorded in order.
-/

set_option autoImplicit false

namespace RustStd.Vec
open RustStd.Unwind RustStd.Slots

variable {ε σ S T β : Type}

structure RawVec (T : Type) where
  slots : Slots T
  len : ℕ
  dropped : List T
  deriving DecidableEq, Repr

/-- The elements of a vector with spare capacity, and what was dropped so far. -/
def RawVec.of (l : List T) (spare : ℕ) (dropped : List T) : RawVec T :=
  ⟨live l ++ free spare, l.length, dropped⟩

/-- The answer, and the element as the call leaves it. -/
abbrev Predicate (ε σ T : Type) : Type := σ → T → Except ε Bool × T × σ

abbrev Dropper (ε σ T : Type) : Type := σ → T → Except ε Unit × σ

def setLen (len : ℕ) : M ε σ (RawVec T) Unit := fun v st => (.ok (), { v with len }, st)

def onSlots (f : Slots T → Option (Slots T)) : M ε σ (RawVec T) Unit := fun v st =>
  match f v.slots with
  | none => (.error .outOfBounds, v, st)
  | some slots => (.ok (), { v with slots }, st)

def callAt (f : Predicate ε σ T) (i : ℕ) : M ε σ (RawVec T) Bool := fun v st =>
  match peek v.slots i with
  | none => (.error .outOfBounds, v, st)
  | some x =>
    let (r, y, st) := f st x
    (r.mapError .unwind, { v with slots := v.slots.set i (some y) }, st)

def readAt (i : ℕ) : M ε σ (RawVec T) T := fun v st =>
  match Slots.read v.slots i with
  | none => (.error .outOfBounds, v, st)
  | some (x, slots) => (.ok x, { v with slots }, st)

def dropInPlace (drop : Dropper ε σ T) (i : ℕ) : M ε σ (RawVec T) Unit := fun v st =>
  match Slots.read v.slots i with
  | none => (.error .outOfBounds, v, st)
  | some (x, slots) =>
    let (r, st) := drop st x
    (r.mapError .unwind, { v with slots, dropped := v.dropped ++ [x] }, st)

section Runs

variable {v : RawVec T} {st : σ} {x : T} {i : ℕ}

theorem onSlots_run {f : Slots T → Option (Slots T)} {slots : Slots T}
    (h : f v.slots = some slots) :
    (onSlots f : M ε σ (RawVec T) Unit) v st = (.ok (), { v with slots }, st) := by
  rw [onSlots, h]

theorem callAt_run {f : Predicate ε σ T} (h : peek v.slots i = some x) :
    callAt f i v st = ((f st x).1.mapError .unwind,
      { v with slots := v.slots.set i (some (f st x).2.1) }, (f st x).2.2) := by
  rw [callAt, h]

theorem readAt_run {slots : Slots T} (h : Slots.read v.slots i = some (x, slots)) :
    (readAt i : M ε σ (RawVec T) T) v st = (.ok x, { v with slots }, st) := by
  rw [readAt, h]

theorem dropInPlace_run {drop : Dropper ε σ T} {slots : Slots T}
    (h : Slots.read v.slots i = some (x, slots)) :
    dropInPlace drop i v st = ((drop st x).1.mapError .unwind,
      { v with slots, dropped := v.dropped ++ [x] }, (drop st x).2) := by
  rw [dropInPlace, h]

end Runs

end RustStd.Vec
