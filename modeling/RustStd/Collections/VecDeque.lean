import RustStd.Collections.VecDequeBuffer

/-!
# The operations of `VecDeque`

The functions of `vec_deque/mod.rs` over the ring buffer. Where the buffer has to
grow, `chosen` is the capacity that the raw vector aims at (twice the old one, or
its least capacity); a capacity that no allocation can have panics.
-/

set_option autoImplicit false

namespace RustStd.VecDeque
open RustStd.Machine RustStd.Outcome

variable {σ T : Type} (e : Elem T)

def withCapacity (capacity : ℕ) : Deque T :=
  { head := 0, len := 0, cap := if e.isZst then 0 else capacity, slot := fun _ => none }

def isFull (self : Deque T) : Bool := self.len == capacity e self

def isContiguous (self : Deque T) : Bool := self.head ≤ capacity e self-self.len

/-- The buffer grows to hold `required` elements or more; new slots are uninitialised. -/
def growBuf (self : Deque T) (required chosen : ℕ) : M T (Deque T) :=
  match e with
  | .zeroSized .. => .panic self
  | .sized maxCap _ => do
    let cap := max required chosen
    ensure self (cap ≤ maxCap)
    return { self with cap, slot := fun j => if j < self.cap then self.slot j else none }

def handleCapacityIncrease (self : Deque T) (oldCapacity : ℕ) : M T (Deque T) :=
  let newCapacity := capacity e self
  if self.head ≤ oldCapacity-self.len then .ok self
  else
    let headLen := oldCapacity-self.head
    let tailLen := self.len-headLen
    if headLen > tailLen ∧ newCapacity-oldCapacity ≥ tailLen then
      copyNonoverlapping e self 0 oldCapacity tailLen
    else do
      let newHead := newCapacity-headLen
      let self ← copy e self self.head newHead headLen
      return { self with head := newHead }

def grow (self : Deque T) (chosen : ℕ) : M T (Deque T) := do
  let oldCap := capacity e self
  let self ← growBuf e self (oldCap+1) chosen
  handleCapacityIncrease e self oldCap

def growIfFull (self : Deque T) (chosen : ℕ) : M T (Deque T) :=
  if isFull e self then grow e self chosen else .ok self

def reserve (self : Deque T) (additional chosen : ℕ) : M T (Deque T) := do
  ensure self (self.len+additional ≤ usizeMax)
  let newCap := self.len+additional
  let oldCap := capacity e self
  if newCap > oldCap then do
    let self ← growBuf e self newCap chosen
    handleCapacityIncrease e self oldCap
  else .ok self

def pushFront (self : Deque T) (value : T) (chosen : ℕ) : M T (Deque T) := do
  let self ← growIfFull e self chosen
  let self := { self with head := wrapSub e self self.head 1, len := self.len+1 }
  bufferWrite e self self.head value

def pushBack (self : Deque T) (value : T) (chosen : ℕ) : M T (Deque T) := do
  let self ← growIfFull e self chosen
  let len := self.len
  let self := { self with len := self.len+1 }
  bufferWrite e self (toPhysicalIdx e self len) value

def popFront (self : Deque T) : M T (Option T × Deque T) :=
  if self.len = 0 then .ok (none, self)
  else do
    let oldHead := self.head
    let self := { self with head := toPhysicalIdx e self 1, len := self.len-1 }
    require (self.len < capacity e self)
    let x ← bufferRead e self oldHead
    return (some x, self)

def popBack (self : Deque T) : M T (Option T × Deque T) :=
  if self.len = 0 then .ok (none, self)
  else do
    let self := { self with len := self.len-1 }
    require (self.len < capacity e self)
    let x ← bufferRead e self (toPhysicalIdx e self self.len)
    return (some x, self)

def swap (self : Deque T) (i j : ℕ) : M T (Deque T) := do
  ensure self (i < self.len)
  ensure self (j < self.len)
  let ri := toPhysicalIdx e self i
  let rj := toPhysicalIdx e self j
  let x ← bufferRead e self ri
  let y ← bufferRead e self rj
  let self ← bufferWrite e self ri y
  bufferWrite e self rj x

def swapRemoveFront (self : Deque T) (index : ℕ) : M T (Option T × Deque T) :=
  let length := self.len
  if index < length ∧ index ≠ 0 then do
    let self ← swap e self index 0
    popFront e self
  else if index ≥ length then .ok (none, self)
  else popFront e self

def swapRemoveBack (self : Deque T) (index : ℕ) : M T (Option T × Deque T) :=
  let length := self.len
  if length > 0 ∧ index < length-1 then do
    let self ← swap e self index (length-1)
    popBack e self
  else if index ≥ length then .ok (none, self)
  else popBack e self

def insert (self : Deque T) (index : ℕ) (value : T) (chosen : ℕ) : M T (Deque T) := do
  ensure self (index ≤ self.len)
  let self ← growIfFull e self chosen
  let k := self.len-index
  if k < index then do
    let self ← wrapCopy e self (toPhysicalIdx e self index) (toPhysicalIdx e self (index+1)) k
    let self := { self with len := self.len+1 }
    bufferWrite e self (toPhysicalIdx e self index) value
  else do
    let oldHead := self.head
    let self := { self with head := wrapSub e self self.head 1 }
    let self ← wrapCopy e self oldHead self.head index
    let self := { self with len := self.len+1 }
    bufferWrite e self (toPhysicalIdx e self index) value

def remove (self : Deque T) (index : ℕ) : M T (Option T × Deque T) :=
  if self.len ≤ index then .ok (none, self)
  else do
    let wrappedIdx := toPhysicalIdx e self index
    let elem ← bufferRead e self wrappedIdx
    let k := self.len-index-1
    if k < index then do
      let self ← wrapCopy e self (wrapAdd e self wrappedIdx 1) wrappedIdx k
      return (some elem, { self with len := self.len-1 })
    else do
      let oldHead := self.head
      let self := { self with head := toPhysicalIdx e self 1 }
      let self ← wrapCopy e self oldHead self.head index
      return (some elem, { self with len := self.len-1 })

def sliceRanges (self : Deque T) : (ℕ × ℕ) × (ℕ × ℕ) :=
  let len := self.len
  if len = 0 then ((0, 0), (0, 0))
  else
    let wrappedStart := toPhysicalIdx e self 0
    let headLen := capacity e self-wrappedStart
    if headLen ≥ len then ((wrappedStart, wrappedStart+len), (0, 0))
    else
      let tailLen := len-headLen
      ((wrappedStart, capacity e self), (0, tailLen))

def bufferRange (self : Deque T) (start : ℕ) : ℕ → M T (List T)
  | 0 => .ok []
  | n+1 => do
    let x ← bufferRead e self start
    let xs ← bufferRange self (start+1) n
    return x :: xs

def asSlices (self : Deque T) : M T (List T × List T) := do
  let (a, b) := sliceRanges e self
  let front ← bufferRange e self a.1 (a.2-a.1)
  let back ← bufferRange e self b.1 (b.2-b.1)
  return (front, back)

def truncate (self : Deque T) (len : ℕ) : M T (List T × Deque T) :=
  if len ≥ self.len then .ok ([], self)
  else do
    let (front, back) ← asSlices e self
    if len > front.length then do
      let start := len-front.length
      require (start ≤ back.length)
      return (back.drop start, { self with len })
    else return (front.drop len ++ back, { self with len })

def truncateFront (self : Deque T) (len : ℕ) : M T (List T × Deque T) :=
  if len ≥ self.len then .ok ([], self)
  else do
    let (front, back) ← asSlices e self
    if len > back.length then do
      let stop := front.length-(len-back.length)
      require (len-back.length ≤ front.length)
      return (front.take stop, { self with head := self.head+stop, len })
    else do
      let stop := back.length-len
      return (front ++ back.take stop,
        { self with head := toPhysicalIdx e self (self.len-len), len })

/-- What `split_off` copies to the new deque. -/
def copyTail (other : Deque T) (firstHalf secondHalf : List T) (at' : ℕ) : M T (Deque T) :=
  let firstLen := firstHalf.length
  if at' < firstLen then do
    let amountInFirst := firstLen-at'
    let other ← writeSlice e other 0 (firstHalf.drop at')
    writeSlice e other amountInFirst secondHalf
  else
    let offset := at'-firstLen
    writeSlice e other 0 (secondHalf.drop offset)

def splitOff (self : Deque T) (at' : ℕ) : M T (Deque T × Deque T) := do
  let len := self.len
  ensure self (at' ≤ len)
  let otherLen := len-at'
  let (firstHalf, secondHalf) ← asSlices e self
  let other ← copyTail e (withCapacity e otherLen) firstHalf secondHalf at'
  return ({ other with len := otherLen }, { self with len := at' })

def copySlice (self : Deque T) (dst : ℕ) (src : List T) : M T (Deque T) :=
  let headRoom := capacity e self-dst
  if src.length ≤ headRoom then writeSlice e self dst src
  else do
    let self ← writeSlice e self dst (src.take headRoom)
    writeSlice e self 0 (src.drop headRoom)

/-- `append`, with what is left of `other`. -/
def append (self other : Deque T) (chosen : ℕ) : M T (Deque T × Deque T) :=
  if e.isZst then do
    ensure self (self.len+other.len ≤ usizeMax)
    return ({ other with len := 0, head := 0 }, { self with len := self.len+other.len })
  else do
    let self ← reserve e self other.len chosen
    let (left, right) ← asSlices e other
    let self ← copySlice e self (toPhysicalIdx e self self.len) left
    let self ← copySlice e self (toPhysicalIdx e self (self.len+left.length)) right
    return ({ other with len := 0, head := 0 }, { self with len := self.len+other.len })

def visit (self : Deque T) (f : σ → T → Bool × T × σ) (s : σ) (cur : ℕ) :
    M T (Bool × σ × Deque T) := do
  ensure self (cur < self.len)
  let x ← bufferRead e self (toPhysicalIdx e self cur)
  let (keep, x, s) := f s x
  let self ← bufferWrite e self (toPhysicalIdx e self cur) x
  return (keep, s, self)

def retainRest (f : σ → T → Bool × T × σ) : ℕ → σ → Deque T → ℕ → ℕ → M T (ℕ × ℕ × Deque T)
  | 0, _, self, idx, cur => .ok (idx, cur, self)
  | n+1, s, self, idx, cur => do
    let (keep, s, self) ← visit e self f s cur
    if !keep then retainRest f n s self idx (cur+1)
    else do
      let self ← swap e self idx cur
      retainRest f n s self (idx+1) (cur+1)

def retainFirst (f : σ → T → Bool × T × σ) : ℕ → σ → Deque T → ℕ → ℕ → M T (ℕ × ℕ × Deque T)
  | 0, _, self, idx, cur => .ok (idx, cur, self)
  | n+1, s, self, idx, cur => do
    let (keep, s, self) ← visit e self f s cur
    if !keep then retainRest e f n s self idx (cur+1)
    else retainFirst f n s self (idx+1) (cur+1)

def retainMut (self : Deque T) (f : σ → T → Bool × T × σ) (s : σ) : M T (List T × Deque T) := do
  let (idx, cur, self) ← retainFirst e f self.len s self 0 0
  if cur ≠ idx then truncate e self idx else return ([], self)

def generate (g : σ → T × σ) : ℕ → σ → List T
  | 0, _ => []
  | n+1, s => (g s).1 :: generate g n (g s).2

def writeIter (self : Deque T) (dst : ℕ) : List T → M T (Deque T)
  | [] => .ok self
  | x :: iter => do
    let self ← bufferWrite e self dst x
    writeIter self (dst+1) iter

/-- `write_iter_wrapping`, whose guard adds the number of elements written. -/
def writeIterWrapping (self : Deque T) (dst : ℕ) (iter : List T) (len : ℕ) : M T (Deque T) :=
  let headRoom := capacity e self-dst
  if headRoom ≥ len then do
    let self ← writeIter e self dst iter
    return { self with len := self.len+iter.length }
  else do
    let self ← writeIter e self dst (iter.take headRoom)
    let self ← writeIter e self 0 (iter.drop headRoom)
    return { self with len := self.len+iter.length }

def resizeWith (self : Deque T) (newLen : ℕ) (g : σ → T × σ) (s : σ) (chosen : ℕ) :
    M T (List T × Deque T) :=
  let len := self.len
  if newLen > len then do
    let additional := newLen-len
    let self ← reserve e self additional chosen
    let self ← writeIterWrapping e self (toPhysicalIdx e self self.len)
      (generate g additional s) additional
    return ([], self)
  else truncate e self newLen

def rotateSlots (slot : ℕ → Option T) (start stop mid : ℕ) : ℕ → Option T := fun j =>
  if start ≤ j ∧ j < stop then
    slot (if j+mid < stop then j+mid else j+mid-(stop-start))
  else slot j

def rotateSlice (self : Deque T) (start stop mid : ℕ) : M T (Deque T) := do
  require (stop ≤ capacity e self)
  ensure self (mid ≤ stop-start)
  return if e.isZst then self else { self with slot := rotateSlots self.slot start stop mid }

def rotateSliceRight (self : Deque T) (start stop k : ℕ) : M T (Deque T) := do
  ensure self (k ≤ stop-start)
  rotateSlice e self start stop (stop-start-k)

def contiguousMoves (self : Deque T) : M T (Deque T) :=
  let head := self.head
  let len := self.len
  let cap := capacity e self
  let free := cap-len
  let headLen := cap-head
  let tail := len-headLen
  let tailLen := tail
  if free ≥ headLen then do
    let self ← copy e self 0 headLen tailLen
    let self ← copyNonoverlapping e self head 0 headLen
    return { self with head := 0 }
  else if free ≥ tailLen then do
    let self ← copy e self head tail headLen
    let self ← copyNonoverlapping e self 0 (tail+headLen) tailLen
    return { self with head := tail }
  else if headLen > tailLen then do
    let self ← (if free ≠ 0 then copy e self 0 free tailLen else .ok self : M T (Deque T))
    let self ← rotateSlice e self free (capacity e self) tailLen
    return { self with head := free }
  else do
    let self ← (if free ≠ 0 then copy e self self.head tailLen headLen else .ok self : M T (Deque T))
    let self ← rotateSliceRight e self 0 self.len headLen
    return { self with head := 0 }

def makeContiguous (self : Deque T) : M T (List T × Deque T) := do
  let self := if e.isZst then { self with head := 0 } else self
  let self ← (if isContiguous e self then .ok self else contiguousMoves e self : M T (Deque T))
  let slice ← bufferRange e self self.head self.len
  return (slice, self)

def rotateLeftInner (self : Deque T) (mid : ℕ) : M T (Deque T) := do
  let self ← wrapCopy e self self.head (toPhysicalIdx e self self.len) mid
  return { self with head := toPhysicalIdx e self mid }

def rotateRightInner (self : Deque T) (k : ℕ) : M T (Deque T) := do
  let self := { self with head := wrapSub e self self.head k }
  wrapCopy e self (toPhysicalIdx e self self.len) self.head k

def rotateLeft (self : Deque T) (n : ℕ) : M T (Deque T) := do
  ensure self (n ≤ self.len)
  let k := self.len-n
  if n ≤ k then rotateLeftInner e self n else rotateRightInner e self k

def rotateRight (self : Deque T) (n : ℕ) : M T (Deque T) := do
  ensure self (n ≤ self.len)
  let k := self.len-n
  if n ≤ k then rotateRightInner e self n else rotateLeftInner e self k

def abortShrink (self : Deque T) (oldHead targetCap : ℕ) : M T (Deque T) :=
  if self.head ≤ targetCap-self.len then .ok self
  else
    let headLen := targetCap-self.head
    let tailLen := self.len-headLen
    if tailLen ≤ min headLen (capacity e self-targetCap) then
      copyNonoverlapping e self 0 targetCap tailLen
    else do
      let self ← copy e self self.head oldHead headLen
      return { self with head := oldHead }

def shrinkMoves (self : Deque T) (targetCap : ℕ) : M T (Deque T) :=
  let tailOutside := targetCap+1 ≤ self.head+self.len ∧ self.head+self.len ≤ capacity e self
  if self.len = 0 then .ok { self with head := 0 }
  else if self.head ≥ targetCap ∧ tailOutside then do
    let self ← copyNonoverlapping e self self.head 0 self.len
    return { self with head := 0 }
  else if self.head < targetCap ∧ tailOutside then
    let len := self.head+self.len-targetCap
    copyNonoverlapping e self targetCap 0 len
  else if !isContiguous e self then do
    let headLen := capacity e self-self.head
    let newHead := targetCap-headLen
    let self ← copy e self self.head newHead headLen
    return { self with head := newHead }
  else .ok self

/-- `shrink_to`; `fails` says that the allocator unwinds. -/
def shrinkTo (self : Deque T) (minCapacity : ℕ) (fails : Bool) : M T (Deque T) :=
  let targetCap := max minCapacity self.len
  if e.isZst || capacity e self ≤ targetCap then .ok self
  else do
    let oldHead := self.head
    let self ← shrinkMoves e self targetCap
    if fails then do
      let self ← abortShrink e self oldHead targetCap
      .panic self
    else return { self with cap := targetCap }

end RustStd.VecDeque
