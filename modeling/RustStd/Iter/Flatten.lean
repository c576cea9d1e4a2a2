import RustStd.Lib.Checked
import RustStd.Lib.ListCalls
import RustStd.Lib.Loop
import RustStd.Lib.Usize

/-!
# `Flatten`

The outer iterator is a list of inner ones behind a `Fuse`, which forgets it once it is exhausted
unless it is known to be fused. One inner iterator at either end may be in use. `none` is a loop
that does not end, or an overflow.
-/

set_option autoImplicit false

namespace RustStd.Flattening
open RustStd.Loop RustStd.Usize

variable {α β γ κ ρ : Type}

/-- `and_then_or_clear` -/
def andThenOrClear (f : List κ → Option ρ × List κ) : Option (List κ) → Option ρ × Option (List κ)
  | none => (none, none)
  | some l =>
    match f l with
    | (some x, l) => (some x, some l)
    | (none, _) => (none, none)

/-! ## `Fuse` -/

namespace Fuse

/-- A call that may exhaust the iterator; an iterator that is known to be fused stays. -/
def call (fused : Bool) (f : List κ → Option ρ × List κ) (iter : Option (List κ)) :
    Option ρ × Option (List κ) :=
  if fused then
    match iter with
    | none => (none, none)
    | some l => ((f l).1, some (f l).2)
  else andThenOrClear f iter

def next (fused : Bool) : Option (List κ) → Option κ × Option (List κ) := call fused ListCalls.next

def nextBack (fused : Bool) : Option (List κ) → Option κ × Option (List κ) :=
  call fused ListCalls.nextBack

def tryCall (fused : Bool) (fold : γ → List κ → Except β γ × List κ) (acc : γ) :
    Option (List κ) → Except β γ × Option (List κ)
  | none => (.ok acc, none)
  | some l =>
    match fold acc l with
    | (.ok acc, l) => (.ok acc, if fused then some l else none)
    | (.error b, l) => (.error b, some l)

def tryFold (fused : Bool) (f : γ → κ → Except β γ) (acc : γ) (iter : Option (List κ)) :
    Except β γ × Option (List κ) :=
  tryCall fused (ListCalls.tryFold f) acc iter

def tryRfold (fused : Bool) (f : γ → κ → Except β γ) (acc : γ) (iter : Option (List κ)) :
    Except β γ × Option (List κ) :=
  tryCall fused (ListCalls.tryRfold f) acc iter

def fold (f : γ → κ → γ) (acc : γ) : Option (List κ) → γ
  | none => acc
  | some l => l.foldl f acc

def rfold (f : γ → κ → γ) (acc : γ) : Option (List κ) → γ
  | none => acc
  | some l => l.reverse.foldl f acc

def sizeHint (hint : List κ → ℕ × Option ℕ) : Option (List κ) → ℕ × Option ℕ
  | none => (0, some 0)
  | some l => hint l

/-- The default `advance_by(0)`, which takes no element. -/
def advanceByZero (iter : Option (List κ)) : Except ℕ Unit × Option (List κ) := (.ok (), iter)

end Fuse

/-! ## The general implementation -/

structure FlattenCompat (α : Type) where
  iter : Option (List (List α))
  frontiter : Option (List α)
  backiter : Option (List α)
  deriving DecidableEq, Repr

def new (iter : List (List α)) : FlattenCompat α :=
  { iter := some iter, frontiter := none, backiter := none }

namespace FlattenCompat

section Folds

variable (self : FlattenCompat α)

def foldSlot (fold : γ → List α → γ) (acc : γ) : Option (List α) → γ
  | none => acc
  | some iter => fold acc iter

def iterFold (fold : γ → List α → γ) (acc : γ) : γ :=
  let acc := foldSlot fold acc self.frontiter
  let acc := Fuse.fold fold acc self.iter
  foldSlot fold acc self.backiter

def iterRfold (fold : γ → List α → γ) (acc : γ) : γ :=
  let acc := foldSlot fold acc self.backiter
  let acc := Fuse.rfold fold acc self.iter
  foldSlot fold acc self.frontiter

/-- The inner iterator in use, which is forgotten unless the fold breaks. -/
def trySlot (fold : γ → List α → Except β γ × List α) (acc : γ) :
    Option (List α) → Except β γ × Option (List α)
  | none => (.ok acc, none)
  | some iter =>
    match fold acc iter with
    | (.ok acc, _) => (.ok acc, none)
    | (.error b, iter) => (.error b, some iter)

/-- The closure over the outer iterator stores each inner one in the slot that it captures. -/
def flatten (fold : γ → List α → Except β γ × List α) :
    γ × Option (List α) → List α → Except (β × Option (List α)) (γ × Option (List α))
  | (acc, _), iter =>
    match fold acc iter with
    | (.ok acc, iter) => .ok (acc, some iter)
    | (.error b, iter) => .error (b, some iter)

variable (fused : Bool)

def iterTryFold (fold : γ → List α → Except β γ × List α) (acc : γ) :
    Except β γ × FlattenCompat α :=
  match trySlot fold acc self.frontiter with
  | (.error b, frontiter) => (.error b, { self with frontiter })
  | (.ok acc, frontiter) =>
    match Fuse.tryFold fused (flatten fold) (acc, frontiter) self.iter with
    | (.error (b, frontiter), iter) => (.error b, { self with iter, frontiter })
    | (.ok (acc, _), iter) =>
      match trySlot fold acc self.backiter with
      | (.error b, backiter) => (.error b, { iter, frontiter := none, backiter })
      | (.ok acc, backiter) => (.ok acc, { iter, frontiter := none, backiter })

def iterTryRfold (fold : γ → List α → Except β γ × List α) (acc : γ) :
    Except β γ × FlattenCompat α :=
  match trySlot fold acc self.backiter with
  | (.error b, backiter) => (.error b, { self with backiter })
  | (.ok acc, backiter) =>
    match Fuse.tryRfold fused (flatten fold) (acc, backiter) self.iter with
    | (.error (b, backiter), iter) => (.error b, { self with iter, backiter })
    | (.ok (acc, _), iter) =>
      match trySlot fold acc self.frontiter with
      | (.error b, frontiter) => (.error b, { iter, frontiter, backiter := none })
      | (.ok acc, frontiter) => (.ok acc, { iter, frontiter, backiter := none })

end Folds

section Methods

variable (fused : Bool) (self : FlattenCompat α)

def nextStep (self : FlattenCompat α) :
    Option (FlattenCompat α ⊕ (Option α × FlattenCompat α)) :=
  match andThenOrClear ListCalls.next self.frontiter with
  | (some x, frontiter) => some (.inr (some x, { self with frontiter }))
  | (none, frontiter) =>
    match Fuse.next fused self.iter with
    | (none, iter) =>
      let (x, backiter) := andThenOrClear ListCalls.next self.backiter
      some (.inr (x, { iter, frontiter, backiter }))
    | (some inner, iter) => some (.inl { self with iter, frontiter := some inner })

/-- A round for each inner iterator. -/
def rounds : ℕ := (self.iter.getD []).length+1

def next : Option (Option α × FlattenCompat α) := loop (nextStep fused) self.rounds self

def nextBackStep (self : FlattenCompat α) :
    Option (FlattenCompat α ⊕ (Option α × FlattenCompat α)) :=
  match andThenOrClear ListCalls.nextBack self.backiter with
  | (some x, backiter) => some (.inr (some x, { self with backiter }))
  | (none, backiter) =>
    match Fuse.nextBack fused self.iter with
    | (none, iter) =>
      let (x, frontiter) := andThenOrClear ListCalls.nextBack self.frontiter
      some (.inr (x, { iter, frontiter, backiter }))
    | (some inner, iter) => some (.inl { self with iter, backiter := some inner })

def nextBack : Option (Option α × FlattenCompat α) := loop (nextBackStep fused) self.rounds self

def tryFold (f : γ → α → Except β γ) (init : γ) : Except β γ × FlattenCompat α :=
  self.iterTryFold fused (ListCalls.tryFold f) init

def tryRfold (f : γ → α → Except β γ) (init : γ) : Except β γ × FlattenCompat α :=
  self.iterTryRfold fused (ListCalls.tryRfold f) init

def fold (f : γ → α → γ) (init : γ) : γ := self.iterFold (fun acc iter => iter.foldl f acc) init

def rfold (f : γ → α → γ) (init : γ) : γ :=
  self.iterRfold (fun acc iter => iter.reverse.foldl f acc) init

/-- Breaks where the inner iterator has enough elements. -/
def advance (advanceBy : ℕ → List α → Except ℕ Unit × List α) (n : ℕ) (iter : List α) :
    Except Unit ℕ × List α :=
  match advanceBy n iter with
  | (.ok (), iter) => (.error (), iter)
  | (.error remaining, iter) => (.ok remaining, iter)

def advancedBy : Except Unit ℕ × FlattenCompat α → Except ℕ Unit × FlattenCompat α
  | (.ok remaining, self) => (if remaining = 0 then .ok () else .error remaining, self)
  | (.error _, self) => (.ok (), self)

def advanceBy (n : ℕ) : Except ℕ Unit × FlattenCompat α :=
  advancedBy (self.iterTryFold fused (advance ListCalls.advanceBy) n)

def advanceBackBy (n : ℕ) : Except ℕ Unit × FlattenCompat α :=
  advancedBy (self.iterTryRfold fused (advance ListCalls.advanceBackBy) n)

def nth (n : ℕ) : Option (Option α × FlattenCompat α) :=
  ListCalls.skipThen (next fused) (self.advanceBy fused n)

def nthBack (n : ℕ) : Option (Option α × FlattenCompat α) :=
  ListCalls.skipThen (nextBack fused) (self.advanceBackBy fused n)

/-- `count` of an inner iterator. -/
def countList (l : List α) : Option ℕ := Checked.unsigned 64 l.length

def count : Option ℕ :=
  self.iterFold (fun acc iter => do add (← acc) (← countList iter)) (some 0)

def last : Option α := self.iterFold (fun last iter => iter.getLast?.or last) none

/-- The hints of the inner and the outer iterators, and the size that every inner one is known to
have at its start. -/
structure Hints (α : Type) where
  inner : List α → ℕ × Option ℕ
  outer : List (List α) → ℕ × Option ℕ
  fixedSize : Option ℕ

def slotHint (hint : List α → ℕ × Option ℕ) : Option (List α) → ℕ × Option ℕ
  | none => (0, some 0)
  | some iter => hint iter

def sizeHint (hints : Hints α) : ℕ × Option ℕ :=
  let (flo, fhi) := slotHint hints.inner self.frontiter
  let (blo, bhi) := slotHint hints.inner self.backiter
  let lo := saturatingAdd flo blo
  match hints.fixedSize with
  | some fixedSize =>
    let (lower, upper) := Fuse.sizeHint hints.outer self.iter
    (saturatingAdd (saturatingMul lower fixedSize) lo, do
      add (← add (← fhi) (← bhi)) (← mul fixedSize (← upper)))
  | none =>
    match Fuse.sizeHint hints.outer self.iter, fhi, bhi with
    | (0, some 0), some a, some b => (lo, add a b)
    | _, _, _ => (lo, none)

def general : ListCalls.Iter (FlattenCompat α) α :=
  { next := next fused, nextBack := nextBack fused
    nth := fun n self => self.nth fused n, nthBack := fun n self => self.nthBack fused n
    advanceBy := fun n self => some (self.advanceBy fused n)
    advanceBackBy := fun n self => some (self.advanceBackBy fused n)
    tryFold := fun f init self => some (self.tryFold fused f init)
    tryRfold := fun f init self => some (self.tryRfold fused f init) }

end Methods

end FlattenCompat

/-! ## The implementation for inner iterators of at most one element -/

namespace OneShot
open FlattenCompat

section Methods

variable (fused : Bool) (self : FlattenCompat α)

/-- `into_item` -/
def intoItem (inner : List α) : Option α := (ListCalls.next inner).1

def flattenOne (fold : γ → α → γ) (acc : γ) (inner : List α) : γ :=
  match intoItem inner with
  | some item => fold acc item
  | none => acc

def tryFlattenOne (fold : γ → α → Except β γ) (acc : γ) (inner : List α) : Except β γ :=
  match intoItem inner with
  | some item => fold acc item
  | none => .ok acc

/-- Breaks at the last element that is skipped. -/
def advanceByOne (n : ℕ) (inner : List α) : Except Unit ℕ :=
  match intoItem inner with
  | some _ => if n-1 = 0 then .error () else .ok (n-1)
  | none => .ok n

def nextStep (fuseNext : Option (List (List α)) → Option (List α) × Option (List (List α)))
    (self : FlattenCompat α) : Option (FlattenCompat α ⊕ (Option α × FlattenCompat α)) :=
  match fuseNext self.iter with
  | (none, iter) => some (.inr (none, { self with iter }))
  | (some inner, iter) =>
    match intoItem inner with
    | some item => some (.inr (some item, { self with iter }))
    | none => some (.inl { self with iter })

def next : Option (Option α × FlattenCompat α) := loop (nextStep (Fuse.next fused)) self.rounds self

def nextBack : Option (Option α × FlattenCompat α) :=
  loop (nextStep (Fuse.nextBack fused)) self.rounds self

def tryFold (f : γ → α → Except β γ) (init : γ) : Except β γ × FlattenCompat α :=
  let (r, iter) := Fuse.tryFold fused (tryFlattenOne f) init self.iter
  (r, { self with iter })

def tryRfold (f : γ → α → Except β γ) (init : γ) : Except β γ × FlattenCompat α :=
  let (r, iter) := Fuse.tryRfold fused (tryFlattenOne f) init self.iter
  (r, { self with iter })

def fold (f : γ → α → γ) (init : γ) : γ := Fuse.fold (flattenOne f) init self.iter

def rfold (f : γ → α → γ) (init : γ) : γ := Fuse.rfold (flattenOne f) init self.iter

/-- `map_or(Ok(()), Err)` -/
def advancedBy : Except Unit ℕ → Except ℕ Unit
  | .ok n => .error n
  | .error _ => .ok ()

def advanceBy (n : ℕ) : Except ℕ Unit × FlattenCompat α :=
  if n ≠ 0 then
    let (r, iter) := Fuse.tryFold fused advanceByOne n self.iter
    (advancedBy r, { self with iter })
  else
    let (r, iter) := Fuse.advanceByZero self.iter
    (r, { self with iter })

def advanceBackBy (n : ℕ) : Except ℕ Unit × FlattenCompat α :=
  if n ≠ 0 then
    let (r, iter) := Fuse.tryRfold fused advanceByOne n self.iter
    (advancedBy r, { self with iter })
  else
    let (r, iter) := Fuse.advanceByZero self.iter
    (r, { self with iter })

def nth (n : ℕ) : Option (Option α × FlattenCompat α) :=
  ListCalls.skipThen (next fused) (advanceBy fused self n)

def nthBack (n : ℕ) : Option (Option α × FlattenCompat α) :=
  ListCalls.skipThen (nextBack fused) (advanceBackBy fused self n)

def items : List α := (self.iter.getD []).filterMap intoItem

def count : Option ℕ := countList (items self)

def last : Option α := (items self).getLast?

def sizeHint (hints : Hints α) : ℕ × Option ℕ :=
  let (lower, upper) := Fuse.sizeHint hints.outer self.iter
  match hints.fixedSize with
  | some 0 => (0, some 0)
  | some 1 => (lower, upper)
  | _ => (0, upper)

def special : ListCalls.Iter (FlattenCompat α) α :=
  { next := next fused, nextBack := nextBack fused
    nth := fun n self => nth fused self n, nthBack := fun n self => nthBack fused self n
    advanceBy := fun n self => some (advanceBy fused self n)
    advanceBackBy := fun n self => some (advanceBackBy fused self n)
    tryFold := fun f init self => some (tryFold fused self f init)
    tryRfold := fun f init self => some (tryRfold fused self f init) }

end Methods

end OneShot

end RustStd.Flattening
