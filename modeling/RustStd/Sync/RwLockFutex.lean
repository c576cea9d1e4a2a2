import RustStd.Lib.Threads

/-!
# RwLock, over two futexes

One word holds the number of readers, or the write-locked value, and a bit each
for waiting readers and waiting writers; a counter is bumped whenever a writer is
notified. `steps` lists what a thread can do next, one atomic access a step, and
`sums` the additions and subtractions that it computes there.
-/

set_option autoImplicit false

namespace RustStd.RwLockFutex
open RustStd.Threads

def readLocked : ℕ := 1

def mask : ℕ := 2^30-1

def writeLocked : ℕ := mask

def downgrade : ℕ := (readLocked+2^32-writeLocked)%2^32

def maxReaders : ℕ := mask-1

def readersWaiting : ℕ := 2^30

def writersWaiting : ℕ := 2^31

def isUnlocked (state : ℕ) : Bool := state &&& mask == 0

def isWriteLocked (state : ℕ) : Bool := state &&& mask == writeLocked

def hasReadersWaiting (state : ℕ) : Bool := state &&& readersWaiting != 0

def hasWritersWaiting (state : ℕ) : Bool := state &&& writersWaiting != 0

def isReadLockable (state : ℕ) : Bool :=
  decide (state &&& mask < maxReaders) && !hasReadersWaiting state && !hasWritersWaiting state

def isReadLockableAfterWakeup (state : ℕ) : Bool :=
  decide (state &&& mask < maxReaders) && !hasReadersWaiting state && !isWriteLocked state &&
    !isUnlocked state

def hasReachedMaxReaders (state : ℕ) : Bool := state &&& mask == maxReaders

def fetchAdd (word k : ℕ) : ℕ := (word+k)%2^32

def fetchSub (word k : ℕ) : ℕ := (word+2^32-k)%2^32

inductive Address
  | state
  | writerNotify
  deriving DecidableEq, Repr

inductive Place
  | outside
  | read (state : ℕ)
  | spinRead (hasSlept : Bool) (spin : ℕ)
  | readContended (hasSlept : Bool) (state : ℕ)
  | readWait (expected : ℕ)
  | readAsleep
  | tryRead (prev : ℕ)
  | spinWrite (otherWriters : Bool) (spin : ℕ)
  | writeContended (otherWriters : Bool) (state : ℕ)
  | examine
  /-- About to look at the state again. `seen` is how many notifications there had
  been when the counter was loaded, of which `seq` has the low bits. -/
  | recheck (seen : ℕ)
  | writeWait (seen : ℕ)
  | writeAsleep
  | tryWrite (prev : ℕ)
  | unsetReaders
  | wakeReaders
  | wakeWriterOrReaders (state : ℕ)
  | wakeBoth (state : ℕ)
  | wakeOnlyReaders (state : ℕ)
  | notify (both : Bool)
  | wakeWriter (both : Bool)
  | failed
  deriving DecidableEq, Repr

structure Thread where
  reads : ℕ
  writes : Bool
  place : Place
  deriving DecidableEq, Repr

namespace Thread
variable (th : Thread)

def go (place : Place) : Thread := { th with place }

def lockRead : Thread := { th with reads := th.reads+1, place := .outside }

def lockWrite : Thread := { th with writes := true, place := .outside }

end Thread

structure Shared where
  state : ℕ
  /-- How many notifications there have been; `writer_notify` has the low bits. -/
  notified : ℕ
  deriving DecidableEq, Repr

def Shared.writerNotify (g : Shared) : ℕ := g.notified%2^32

abbrev Result : Type := Shared × Wake Address × Thread

section Steps
variable (g : Shared) (th : Thread)

def stay (place : Place) : Result := (g, .nobody, th.go place)

def compareExchange (current new : ℕ) (ok : Thread) (err : ℕ → Place) : List Result :=
  if g.state = current then [({ g with state := new }, .nobody, ok)] else [stay g th (err g.state)]

def compareExchangeWeak (current new : ℕ) (ok : Thread) (err : ℕ → Place) : List Result :=
  if g.state = current then [({ g with state := new }, .nobody, ok), stay g th (err g.state)]
  else [stay g th (err g.state)]

def read : List Result :=
  [stay g th (if isReadLockable g.state then .read g.state else .spinRead false 100)]

def readUnlock : List Result :=
  let state := fetchSub g.state readLocked
  [({ g with state }, .nobody, { th with
    reads := th.reads-1
    place :=
      if hasReadersWaiting state && !hasWritersWaiting state then .failed
      else if isUnlocked state && hasWritersWaiting state then .wakeWriterOrReaders state
      else .outside })]

/-- A round of the loop of `spin_read`. -/
def spinRead (hasSlept : Bool) (spin : ℕ) : List Result :=
  let state := g.state
  if !isWriteLocked state || hasReadersWaiting state || hasWritersWaiting state || spin == 0 then
    [stay g th (.readContended hasSlept state)]
  else [stay g th (.spinRead hasSlept (spin-1))]

def readContended (hasSlept : Bool) (state : ℕ) : List Result :=
  if (hasSlept && isReadLockableAfterWakeup state) || isReadLockable state then
    compareExchangeWeak g th state (state+readLocked) th.lockRead (.readContended hasSlept)
  else if hasReachedMaxReaders state then
    -- The call panics, and the lock is as it was.
    [stay g th .outside]
  else if !hasReadersWaiting state then
    compareExchange g th state (state ||| readersWaiting)
      (th.go (.readWait (state ||| readersWaiting))) (.readContended hasSlept)
  else [stay g th (.readWait (state ||| readersWaiting))]

def tryRead (prev : ℕ) : List Result :=
  if isReadLockable prev then
    compareExchangeWeak g th prev (prev+readLocked) th.lockRead .tryRead
  else [stay g th .outside]

def write : List Result :=
  compareExchangeWeak g th 0 writeLocked th.lockWrite fun _ => .spinWrite false 100

def writeUnlock : List Result :=
  let state := fetchSub g.state writeLocked
  [({ g with state }, .nobody, { th with
    writes := false
    place :=
      if !isUnlocked state then .failed
      else if hasWritersWaiting state || hasReadersWaiting state then .wakeWriterOrReaders state
      else .outside })]

def startDowngrade : List Result :=
  let state := g.state
  [({ g with state := fetchAdd state downgrade }, .nobody, { th with
    reads := th.reads+1
    writes := false
    place :=
      if !isWriteLocked state then .failed
      else if hasReadersWaiting state then .unsetReaders
      else .outside })]

/-- A round of the loop of `spin_write`. -/
def spinWrite (otherWriters : Bool) (spin : ℕ) : List Result :=
  let state := g.state
  if isUnlocked state || hasWritersWaiting state || spin == 0 then
    [stay g th (.writeContended otherWriters state)]
  else [stay g th (.spinWrite otherWriters (spin-1))]

def writeContended (otherWriters : Bool) (state : ℕ) : List Result :=
  if isUnlocked state then
    compareExchangeWeak g th state
      (state ||| writeLocked ||| if otherWriters then writersWaiting else 0) th.lockWrite
      (.writeContended otherWriters)
  else if !hasWritersWaiting state then
    compareExchange g th state (state ||| writersWaiting) (th.go .examine)
      (.writeContended otherWriters)
  else [stay g th .examine]

def tryWrite (prev : ℕ) : List Result :=
  if isUnlocked prev then
    compareExchangeWeak g th prev (prev+writeLocked) th.lockWrite .tryWrite
  else [stay g th .outside]

def wakeWriterOrReaders (state : ℕ) : List Result :=
  if !isUnlocked state then [stay g th .failed]
  else if state = writersWaiting then
    compareExchange g th state 0 (th.go (.notify false)) .wakeBoth
  else [stay g th (.wakeBoth state)]

def wakeBoth (state : ℕ) : List Result :=
  if state = readersWaiting+writersWaiting then
    compareExchange g th state readersWaiting (th.go (.notify true)) fun _ => .outside
  else [stay g th (.wakeOnlyReaders state)]

def wakeOnlyReaders (state : ℕ) : List Result :=
  if state = readersWaiting then
    compareExchange g th state 0 (th.go .wakeReaders) fun _ => .outside
  else [stay g th .outside]

/-- Where `wake_writer_or_readers` goes on. -/
def afterWakeWriter (both woke : Bool) : Place :=
  if both && !woke then .wakeOnlyReaders readersWaiting else .outside

def calls : List Result :=
  read g th ++ [stay g th (.tryRead g.state)] ++ write g th ++ [stay g th (.tryWrite g.state)] ++
    (if 0 < th.reads then readUnlock g th else []) ++
    (if th.writes then writeUnlock g th ++ startDowngrade g th else [])

def steps : List Result :=
  match th.place with
  | .outside => calls g th
  | .read state =>
    compareExchangeWeak g th state (state+readLocked) th.lockRead fun _ => .spinRead false 100
  | .spinRead hasSlept spin => spinRead g th hasSlept spin
  | .readContended hasSlept state => readContended g th hasSlept state
  | .readWait expected =>
    if g.state = expected then [stay g th .readAsleep] else [stay g th (.spinRead true 100)]
  | .readAsleep => []
  | .tryRead prev => tryRead g th prev
  | .spinWrite otherWriters spin => spinWrite g th otherWriters spin
  | .writeContended otherWriters state => writeContended g th otherWriters state
  | .examine => [stay g th (.recheck g.notified)]
  | .recheck seen =>
    if isUnlocked g.state || !hasWritersWaiting g.state then
      [stay g th (.writeContended true g.state)]
    else [stay g th (.writeWait seen)]
  | .writeWait seen =>
    if g.writerNotify = seen%2^32 then [stay g th .writeAsleep]
    else [stay g th (.spinWrite true 100)]
  | .writeAsleep => []
  | .tryWrite prev => tryWrite g th prev
  | .unsetReaders =>
    [({ g with state := fetchSub g.state readersWaiting }, .nobody, th.go .wakeReaders)]
  | .wakeReaders => [(g, .all .state, th.go .outside)]
  | .wakeWriterOrReaders state => wakeWriterOrReaders g th state
  | .wakeBoth state => wakeBoth g th state
  | .wakeOnlyReaders state => wakeOnlyReaders g th state
  | .notify both =>
    [({ g with notified := g.notified+1 }, .nobody, th.go (.wakeWriter both))]
  | .wakeWriter both =>
    -- Who wakes a writer may be told so or not.
    [(g, .one .writerNotify true, th.go (afterWakeWriter both true)),
      (g, .one .writerNotify true, th.go (afterWakeWriter both false)),
      (g, .one .writerNotify false, th.go (afterWakeWriter both false))]
  | .failed => []

/-- The words that a step adds to or subtracts from, each with the result. -/
def sums : List (ℕ × ℕ) :=
  match th.place with
  | .outside =>
    (if 0 < th.reads then [(g.state, fetchSub g.state readLocked)] else []) ++
      (if th.writes then [(g.state, fetchSub g.state writeLocked),
        (g.state, fetchAdd g.state downgrade)] else [])
  | .read state => [(state, state+readLocked)]
  | .readContended hasSlept state =>
    if (hasSlept && isReadLockableAfterWakeup state) || isReadLockable state then
      [(state, state+readLocked)] else []
  | .tryRead prev => if isReadLockable prev then [(prev, prev+readLocked)] else []
  | .tryWrite prev => if isUnlocked prev then [(prev, prev+writeLocked)] else []
  | _ => []

end Steps

def program : Program Shared Thread Address where
  Step g th wake g' th' := (g', wake, th') ∈ steps g th
  sleepsOn th :=
    match th.place with
    | .readAsleep => some .state
    | .writeAsleep => some .writerNotify
    | _ => none
  woken th :=
    match th.place with
    | .readAsleep => th.go (.spinRead true 100)
    | .writeAsleep => th.go (.spinWrite true 100)
    | _ => th

def new (ι : Type) : Config ι Shared Thread := ⟨⟨0, 0⟩, fun _ => ⟨0, false, .outside⟩⟩

end RustStd.RwLockFutex
