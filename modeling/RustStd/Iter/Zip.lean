import RustStd.Lib.CallRuns
import RustStd.Lib.Unwind

/-!
# `Zip`

`core::iter::adapters::zip`, with the specialisation for iterators whose elements can be accessed by
their index. User code runs when an element is read or taken from the back, and it may panic. The
caller of `__iterator_get_unchecked` has to keep its contract.
-/

set_option autoImplicit false

namespace RustStd.Zipping
open RustStd.Unwind

variable {σ α β γ : Type}

inductive Panic
  | user
  | assertion
  | overflow
  deriving DecidableEq, Repr

inductive Back
  | returns
  | panicsBefore
  | panicsAfter
  deriving DecidableEq, Repr

/-- The user code of an inner iterator, with a state of its own; a read that gives `true` panics. -/
structure Code (σ : Type) where
  get : ℕ → σ → Bool × σ
  nextBack : σ → Back × σ

/-- An inner iterator over a list, with the indices that were passed to `__iterator_get_unchecked` and
the number of calls of `next_back`. -/
structure Inner (α : Type) where
  elems : List α
  passed : List ℕ
  backs : ℕ

namespace Inner

variable (code : Code σ)

def size (it : Inner α) : ℕ := it.elems.length

def callGet (i : ℕ) : M Panic σ (Inner α) Unit := fun it st =>
  match code.get i st with
  | (false, st) => (.ok (), it, st)
  | (true, st) => (.error (.unwind .user), it, st)

def getUnchecked (i : ℕ) : M Panic σ (Inner α) α := do
  let it ← get
  match it.elems[i]? with
  | none => exit .outOfBounds
  | some x => do
    if i ∈ it.passed then exit .outOfBounds else do
      put { it with passed := i :: it.passed }
      callGet code i
      return x

/-- `next_back`, of which the caller drops the element. After an index was passed the elements up to it
have to stay. -/
def nextBack : M Panic σ (Inner α) Unit := fun it st =>
  if ∃ i ∈ it.passed, it.elems.length ≤ i+1 then (.error .outOfBounds, it, st)
  else
    match code.nextBack st with
    | (.returns, st) => (.ok (), ⟨it.elems.dropLast, it.passed, it.backs+1⟩, st)
    | (.panicsBefore, st) => (.error (.unwind .user), ⟨it.elems, it.passed, it.backs+1⟩, st)
    | (.panicsAfter, st) =>
      (.error (.unwind .user), ⟨it.elems.dropLast, it.passed, it.backs+1⟩, st)

def trim : ℕ → M Panic σ (Inner α) Unit
  | 0 => return ()
  | n+1 => do
    nextBack code
    trim n

end Inner

/-- `MAY_HAVE_SIDE_EFFECT` of both iterators, and whether debug assertions are compiled in. -/
structure Flags where
  a : Bool
  b : Bool
  debug : Bool

structure User (σ : Type) where
  a : Code σ
  b : Code σ

structure Zip (α β : Type) where
  a : Inner α
  b : Inner β
  index : ℕ
  len : ℕ

namespace Zip

def onA (m : M Panic σ (Inner α) γ) : M Panic σ (Zip α β) γ :=
  onPart Zip.a (fun a z => { z with a }) m

def onB (m : M Panic σ (Inner β) γ) : M Panic σ (Zip α β) γ :=
  onPart Zip.b (fun b z => { z with b }) m

def new (a : List α) (b : List β) : Zip α β :=
  ⟨⟨a, [], 0⟩, ⟨b, [], 0⟩, 0, min a.length b.length⟩

def minus (m n : ℕ) : M Panic σ (Zip α β) ℕ :=
  if n ≤ m then return m-n else exit (.unwind .overflow)

def runIf (c : Bool) (m : M Panic σ (Zip α β) Unit) : M Panic σ (Zip α β) Unit :=
  if c then m else return ()

variable (flags : Flags) (user : User σ)

def getBoth (i : ℕ) : M Panic σ (Zip α β) (α × β) := do
  let x ← onA (Inner.getUnchecked user.a i)
  let y ← onB (Inner.getUnchecked user.b i)
  return (x, y)

def next : M Panic σ (Zip α β) (Option (α × β)) := do
  let z ← get
  if z.index < z.len then do
    put { z with index := z.index+1 }
    let x ← getBoth user z.index
    return some x
  else return none

def sizeHint : M Panic σ (Zip α β) (ℕ × Option ℕ) := do
  let z ← get
  let len ← minus z.len z.index
  return (len, some len)

def superNth : ℕ → M Panic σ (Zip α β) (Option (α × β))
  | 0 => next user
  | n+1 => do
    match ← next user with
    | none => return none
    | some _ => superNth n

def skipTo (stop : ℕ) : ℕ → M Panic σ (Zip α β) Unit
  | 0 => exit .outOfFuel
  | fuel+1 => do
    let z ← get
    if z.index < stop then do
      put { z with index := z.index+1 }
      runIf flags.a do
        let _ ← onA (Inner.getUnchecked user.a z.index)
        return ()
      runIf flags.b do
        let _ ← onB (Inner.getUnchecked user.b z.index)
        return ()
      skipTo stop fuel
    else return ()

def nth (n : ℕ) : M Panic σ (Zip α β) (Option (α × β)) := do
  let z ← get
  let rest ← minus z.len z.index
  let delta := min n rest
  skipTo flags user (z.index+delta) (delta+1)
  superNth user (n-delta)

def assertSizes : M Panic σ (Zip α β) Unit := do
  let z ← get
  runIf (flags.debug && z.a.size != z.b.size) (exit (.unwind .assertion))

def adjust (oldLen : ℕ) : M Panic σ (Zip α β) Unit := do
  let z ← get
  let szA := z.a.size
  let szB := z.b.size
  if szA ≠ szB ∧ (oldLen = szA ∨ oldLen = szB) then do
    runIf (flags.a && decide (szA > oldLen)) (onA (Inner.trim user.a (szA-oldLen)))
    runIf (flags.b && decide (szB > oldLen)) (onB (Inner.trim user.b (szB-oldLen)))
    assertSizes flags
  else return ()

def nextBack : M Panic σ (Zip α β) (Option (α × β)) := do
  let z ← get
  if z.index < z.len then do
    put { z with len := z.len-1 }
    runIf (flags.a || flags.b) (adjust flags user z.len)
    let x ← getBoth user (z.len-1)
    return some x
  else return none

end Zip

/-! ## `Zip` without the specialisation -/

structure General (α β : Type) where
  a : List α
  b : List β

namespace General

def next : General α β → Option (α × β) × General α β
  | ⟨[], b⟩ => (none, ⟨[], b⟩)
  | ⟨_ :: a, []⟩ => (none, ⟨a, []⟩)
  | ⟨x :: a, y :: b⟩ => (some (x, y), ⟨a, b⟩)

def superNth : ℕ → General α β → Option (α × β) × General α β
  | 0, z => next z
  | n+1, z =>
    match next z with
    | (none, z) => (none, z)
    | (some _, z) => superNth n z

def trim (n : ℕ) (l : List γ) : List γ := List.dropLast^[n] l

def adjust (z : General α β) : General α β :=
  if z.a.length ≠ z.b.length then
    if z.a.length > z.b.length then { z with a := trim (z.a.length-z.b.length) z.a }
    else { z with b := trim (z.b.length-z.a.length) z.b }
  else z

/-- `none` is the unreachable branch. -/
def nextBack (z : General α β) : Option (Option (α × β) × General α β) :=
  let z := adjust z
  match z.a.getLast?, z.b.getLast? with
  | some x, some y => some (some (x, y), ⟨z.a.dropLast, z.b.dropLast⟩)
  | none, none => some (none, ⟨z.a.dropLast, z.b.dropLast⟩)
  | _, _ => none

def sizeHint (z : General α β) : ℕ × Option ℕ :=
  (min z.a.length z.b.length, some (min z.a.length z.b.length))

end General

/-! ## Calls -/

inductive Call
  | next
  | nth (n : ℕ)
  | nextBack
  | sizeHint
  deriving DecidableEq, Repr

inductive Answer (γ : Type)
  | item (x : Option γ)
  | hint (bounds : ℕ × Option ℕ)
  | panicked (p : Panic)

def Zip.perform (flags : Flags) (user : User σ) : Call → M Panic σ (Zip α β) (Answer (α × β))
  | .next => do return .item (← next user)
  | .nth n => do return .item (← nth flags user n)
  | .nextBack => do return .item (← nextBack flags user)
  | .sizeHint => do return .hint (← sizeHint)

def Zip.backs (z : Zip α β) : ℕ := z.a.backs+z.b.backs

/-- A call whose panic is caught, with the number of its own calls of `next_back`; `none` is undefined
behaviour or a loop that does not end. -/
def Zip.call (flags : Flags) (user : User σ) (c : Call) (s : Zip α β × σ) :
    Option ((Answer (α × β) × ℕ) × (Zip α β × σ)) :=
  match perform flags user c s.1 s.2 with
  | (.ok x, z, st) => some ((x, z.backs-s.1.backs), (z, st))
  | (.error (.unwind p), z, st) => some ((.panicked p, z.backs-s.1.backs), (z, st))
  | _ => none

def General.call : Call → General α β → Option (Answer (α × β) × General α β)
  | .next, z => some ((next z).map .item id)
  | .nth n, z => some ((superNth n z).map .item id)
  | .nextBack, z => (nextBack z).map (Prod.map .item id)
  | .sizeHint, z => some (.hint (sizeHint z), z)

end RustStd.Zipping
