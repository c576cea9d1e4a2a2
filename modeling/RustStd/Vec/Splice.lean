import RustStd.Vec.Drain

/-!
# `Vec::splice`

When the iterator is dropped, the replacement fills the gap of the drained elements. For more
elements the tail moves up, first by the lower bound of `size_hint`, which may be wrong, and then
by the number of the elements that were collected.
-/

set_option autoImplicit false

namespace RustStd.Vec
open RustStd.Machine RustStd.Unwind RustStd.Slots RustStd.DoubleEnded

variable {ε σ S T β : Type}

/-- The iterator of replacements, with the number of calls of `size_hint`, and the elements that
were collected from it. -/
structure Source (T : Type) where
  items : List T
  asked : ℕ
  collected : List T

def nextItem : M ε (Source T) S (Option T) := fun s st =>
  match st.items with
  | [] => (.ok none, s, st)
  | x :: items => (.ok (some x), s, { st with items })

def nextCollected : M ε (Source T) S (Option T) := fun s st =>
  match st.collected with
  | [] => (.ok none, s, st)
  | x :: collected => (.ok (some x), s, { st with collected })

def whileSome (next : M ε σ S (Option T)) (body : T → M ε σ S Unit) : ℕ → M ε σ S Unit
  | 0 => exit .outOfFuel
  | fuel+1 => do
    match ← next with
    | none => pure ()
    | some x => do
      body x
      whileSome next body fuel

def discard (x : T) : M ε σ (SoundVec T) Unit := change (discardStep x)

def write (i : ℕ) (x : T) : M ε σ (SoundVec T) Unit :=
  change (slotsStep fun s => place s i [x])

def minNonZeroCap (size : ℕ) : ℕ := if size = 1 then 8 else if size ≤ 1024 then 4 else 1

section Buffers

variable (e : ElemLayout T) (overflow : ε)

/-- Whether an array of `cap` elements has a layout. -/
def layoutArray (cap : ℕ) : Bool := cap*e.size ≤ isizeMax-(e.align-1)

def capacity (s : Slots T) : ℕ := if e.size = 0 then usizeMax else s.length

def growAmortized (s : Slots T) (len additional : ℕ) : Option (Slots T) :=
  if e.size = 0 then none
  else if len+additional > usizeMax then none
  else
    let cap := max (minNonZeroCap e.size) (max (s.length*2) (len+additional))
    if layoutArray e cap then some (s ++ free (cap-s.length)) else none

def reserve (len additional : ℕ) : M ε σ (SoundVec T) Unit := do
  let v ← get
  if additional > wrappingSub (capacity e v.1.slots) len then
    match growAmortized e v.1.slots len additional with
    | none => exit (.unwind overflow)
    | some slots => change (slotsStep fun _ => some slots)
  else pure ()

/-- `Vec::new`; elements without a size need no buffer. -/
def newVec : SoundVec T :=
  front [] (free (if e.size = 0 then usizeMax else 0)) []

def withCapacity (cap : ℕ) : M ε σ (SoundVec T) Unit :=
  if layoutArray e cap then
    change (slotsStep fun s => some (if e.size = 0 then s else s ++ free cap))
  else exit (.unwind overflow)

section Extend

variable (hint : ℕ → UInt64)

def lowerBound : M ε (Source T) S ℕ := fun s st =>
  (.ok (hint st.asked).toNat, s, { st with asked := st.asked+1 })

/-- A full vector grows. The next element `x` is dropped if that unwinds. -/
def makeRoom (x : T) : M ε (Source T) (SoundVec T) Unit := do
  let v ← get
  if v.1.len = capacity e v.1.slots then do
    let lower ← lowerBound hint
    onFailure (reserve e overflow v.1.len (min (lower+1) usizeMax)) (discard x)
  else pure ()

def pushNext (x : T) : M ε (Source T) (SoundVec T) Unit := do
  let v ← get
  makeRoom e overflow hint x
  write v.1.len x
  change (lenStep (v.1.len+1))

def extendDesugared : M ε (Source T) (SoundVec T) Unit := fun v st =>
  whileSome nextItem (pushNext e overflow hint) (st.items.length+1) v st

/-- `Vec::from_iter`, in place of a new vector. -/
def fromIter : M ε (Source T) (SoundVec T) Unit := do
  match ← nextItem with
  | none => pure ()
  | some x => do
    let lower ← lowerBound hint
    onFailure (withCapacity e overflow (max (minNonZeroCap e.size) (min (lower+1) usizeMax)))
      (discard x)
    write 0 x
    change (lenStep 1)
    extendDesugared e overflow hint

end Extend

end Buffers

def RawVec.elems (v : RawVec T) : List T := (v.slots.take v.len).reduceOption

def SoundVec.log (v : SoundVec T) (l : List T) : SoundVec T :=
  ⟨{ v.1 with dropped := v.1.dropped ++ l }, v.2⟩

namespace Drain

section Fill

variable (next : M ε σ (Drain T) (Option T))

def putNext (i : ℕ) (x : T) : M ε σ (SoundVec T) Unit := do
  write i x
  let v ← get
  change (lenStep (v.1.len+1))

def fillPlaces : ℕ → ℕ → M ε σ (Drain T) Bool
  | _, 0 => pure true
  | i, n+1 => do
    match ← next with
    | none => return false
    | some x => do
      onVec (putNext i x)
      fillPlaces (i+1) n

def fill : M ε σ (Drain T) Bool := do
  let d ← get
  if d.vec.1.len ≤ d.tailStart then fillPlaces next d.vec.1.len (d.tailStart-d.vec.1.len)
  else exit .outOfBounds

end Fill

def moveTail (e : ElemLayout T) (overflow : ε) (additional : ℕ) : M ε σ (Drain T) Unit := do
  let d ← get
  onVec (reserve e overflow (d.tailStart+d.tailLen) additional)
  let tailStart := d.tailStart+additional
  onVec (change (slotsStep fun s => copy s d.tailStart tailStart d.tailLen))
  let d ← get
  put { d with tailStart }

end Drain

/-! ## The destructor of `Splice` -/

namespace Splice
open Drain

section Drop

variable (e : ElemLayout T) (overflow : ε) (hint : ℕ → UInt64)

/-- `collect` into a vector of its own, which is dropped if it unwinds. -/
def collect : M ε (Source T) (Drain T) (List T) := fun d st =>
  match fromIter e overflow hint (newVec e) st with
  | (.ok (), v, st) => (.ok v.1.elems, d, st)
  | (.error err, v, st) => (.error err, { d with vec := d.vec.log (v.1.dropped ++ v.1.elems) }, st)

def dropItems : M ε (Source T) (Drain T) Unit := fun d st =>
  (.ok (), { d with vec := d.vec.log st.items }, { st with items := [] })

def dropCollected : M ε (Source T) (Drain T) Unit := fun d st =>
  (.ok (), { d with vec := d.vec.log st.collected }, { st with collected := [] })

def intoIter (collected : List T) : M ε (Source T) (Drain T) Unit := fun d st =>
  (.ok (), d, { st with collected })

def collectedLen : M ε (Source T) (Drain T) ℕ := fun d st => (.ok st.collected.length, d, st)

def fillCollected (n : ℕ) : M ε (Source T) (Drain T) Unit := do
  moveTail e overflow n
  let filled ← fill nextCollected
  let left ← collectedLen
  -- the two debug assertions
  if filled = true ∧ left = 0 then pure () else exit .outOfBounds

def collectRest : M ε (Source T) (Drain T) Unit := do
  let collected ← collect e overflow hint
  intoIter collected
  onExit (if collected.length > 0 then fillCollected e overflow collected.length else pure ())
    dropCollected

def estimate : M ε (Source T) (Drain T) Unit := do
  let lower ← lowerBound hint
  if lower > 0 then do
    moveTail e overflow lower
    let filled ← fill nextItem
    if filled then collectRest e overflow hint else pure ()
  else collectRest e overflow hint

def placeItems : M ε (Source T) (Drain T) Unit := do
  let d ← get
  if d.tailLen = 0 then onVec (extendDesugared e overflow hint)
  else do
    let filled ← fill nextItem
    if filled then estimate e overflow hint else pure ()

def dropBody : M ε (Source T) (Drain T) Unit := do
  let d ← get
  whileSome next (fun x => onVec (discard x)) (d.iterEnd-d.iterStart+1)
  takeIter
  placeItems e overflow hint

/-- Both fields are dropped after the body. -/
def drop : M ε (Source T) (Drain T) Unit :=
  onExit (onExit (dropBody e overflow hint) (Drain.drop e)) dropItems

end Drop

end Splice

end RustStd.Vec
