import RustStd.Lib.ListIter
import RustStd.Lib.Usize

/-!
# `Windows`, `Chunks` and `RChunks`

The iterators of `library/core/src/slice/iter.rs` over parts of a shared slice. The state is the
part of the slice that is left, from both ends. `none` is a panic, an overflow or an unchecked
access out of bounds.
-/

set_option autoImplicit false

namespace RustStd.ChunkIters
open RustStd.Machine RustStd.ListIter RustStd.Usize

variable {T : Type}

def splitAt (v : List T) (mid : ℕ) : Option (List T × List T) :=
  if mid ≤ v.length then some (v.take mid, v.drop mid) else none

def fromRawParts (v : List T) (start len : ℕ) : Option (List T) := slice v start (start+len)

structure Windows (T : Type) where
  v : List T
  size : ℕ
  size_pos : 0 < size

namespace Windows

variable (self : Windows T)

def next : Option (Option (List T) × Windows T) :=
  if self.size > self.v.length then some (none, self)
  else do
    let ret ← slice self.v 0 self.size
    let v ← slice self.v 1 self.v.length
    return (some ret, { self with v })

def sizeHint : Option (ℕ × Option ℕ) :=
  if self.size > self.v.length then some (0, some 0)
  else do
    let size ← Checked.sub self.v.length self.size
    let size ← add size 1
    return (size, some size)

def clear : Option (Option (List T) × Windows T) := do
  let v ← slice self.v 0 0
  return (none, { self with v })

def nth (n : ℕ) : Option (Option (List T) × Windows T) :=
  match slice self.v n self.v.length with
  | none => self.clear
  | some rest =>
    match slice rest 0 self.size with
    | none => self.clear
    | some nth => do
      let v ← slice rest 1 rest.length
      return (some nth, { self with v })

def last : Option (Option (List T)) :=
  if self.size > self.v.length then some none
  else do
    let start ← Checked.sub self.v.length self.size
    let ret ← slice self.v start self.v.length
    return some ret

def getUnchecked (idx : ℕ) : Option (List T) := fromRawParts self.v idx self.size

def nextBack : Option (Option (List T) × Windows T) :=
  if self.size > self.v.length then some (none, self)
  else do
    let start ← Checked.sub self.v.length self.size
    let ret ← slice self.v start self.v.length
    let stop ← Checked.sub self.v.length 1
    let v ← slice self.v 0 stop
    return (some ret, { self with v })

def nthBack (n : ℕ) : Option (Option (List T) × Windows T) :=
  let (stop, overflow) := overflowingSub self.v.length n
  if stop < self.size ∨ overflow then self.clear
  else do
    let start ← Checked.sub stop self.size
    let ret ← slice self.v start stop
    let stop ← Checked.sub stop 1
    let v ← slice self.v 0 stop
    return (some ret, { self with v })

def ops : Ops (Windows T) (List T) :=
  { next, nth := fun n s => s.nth n, nextBack, nthBack := fun n s => s.nthBack n, sizeHint, last
    getUnchecked }

end Windows

def roundUp (n rem : ℕ) : Option ℕ := if rem > 0 then add n 1 else some n

def chunkHint (v : List T) (chunkSize : ℕ) : Option (ℕ × Option ℕ) :=
  if v.isEmpty then some (0, some 0)
  else do
    let n ← div v.length chunkSize
    let rem ← rem v.length chunkSize
    let n ← roundUp n rem
    return (n, some n)

/-- The size of the chunk that may be short. -/
def shortSize (v : List T) (chunkSize : ℕ) : Option ℕ := do
  let remainder ← rem v.length chunkSize
  return if remainder ≠ 0 then remainder else chunkSize

def chunkEnd (len start chunkSize : ℕ) : ℕ :=
  match add start chunkSize with
  | some res => min len res
  | none => len

def rchunkStart (stop chunkSize : ℕ) : ℕ :=
  match Checked.sub stop chunkSize with
  | some start => start
  | none => 0

structure Chunks (T : Type) where
  v : List T
  chunkSize : ℕ

namespace Chunks

variable (self : Chunks T)

def next : Option (Option (List T) × Chunks T) :=
  if self.v.isEmpty then some (none, self)
  else do
    let chunksz := min self.v.length self.chunkSize
    let (fst, snd) ← splitAt self.v chunksz
    return (some fst, { self with v := snd })

def sizeHint : Option (ℕ × Option ℕ) := chunkHint self.v self.chunkSize

def clear : Option (Option (List T) × Chunks T) := do
  let v ← slice self.v 0 0
  return (none, { self with v })

def nth (n : ℕ) : Option (Option (List T) × Chunks T) := do
  let (start, overflow) := overflowingMul n self.chunkSize
  let chunkStart ← slice self.v (min start self.v.length) self.v.length
  let (nth, remainder) ← splitAt chunkStart (min self.chunkSize chunkStart.length)
  if overflow = false ∧ start < self.v.length then
    return (some nth, { self with v := remainder })
  else self.clear

def last : Option (Option (List T)) :=
  if self.v.isEmpty then some none
  else do
    let n ← Checked.sub self.v.length 1
    let n ← div n self.chunkSize
    let start ← mul n self.chunkSize
    let ret ← slice self.v start self.v.length
    return some ret

def getUnchecked (idx : ℕ) : Option (List T) := do
  let start ← mul idx self.chunkSize
  let rest ← Checked.sub self.v.length start
  fromRawParts self.v start (min rest self.chunkSize)

def nextBack : Option (Option (List T) × Chunks T) :=
  if self.v.isEmpty then some (none, self)
  else do
    let chunksz ← shortSize self.v self.chunkSize
    let mid ← Checked.sub self.v.length chunksz
    let (fst, snd) ← splitAt self.v mid
    return (some snd, { self with v := fst })

def nthBack (n : ℕ) : Option (Option (List T) × Chunks T) := do
  let len ← exactLen (← self.sizeHint)
  if n ≥ len then self.clear
  else
    let back ← Checked.sub len 1
    let back ← Checked.sub back n
    let start ← mul back self.chunkSize
    let nthBack ← slice self.v start (chunkEnd self.v.length start self.chunkSize)
    let v ← slice self.v 0 start
    return (some nthBack, { self with v })

def ops : Ops (Chunks T) (List T) :=
  { next, nth := fun n s => s.nth n, nextBack, nthBack := fun n s => s.nthBack n, sizeHint, last
    getUnchecked }

end Chunks

structure RChunks (T : Type) where
  v : List T
  chunkSize : ℕ

namespace RChunks

variable (self : RChunks T)

def next : Option (Option (List T) × RChunks T) :=
  if self.v.isEmpty then some (none, self)
  else do
    let chunksz := min self.v.length self.chunkSize
    let mid ← Checked.sub self.v.length chunksz
    let (fst, snd) ← splitAt self.v mid
    return (some snd, { self with v := fst })

def sizeHint : Option (ℕ × Option ℕ) := chunkHint self.v self.chunkSize

def clear : Option (Option (List T) × RChunks T) := do
  let v ← slice self.v 0 0
  return (none, { self with v })

def nth (n : ℕ) : Option (Option (List T) × RChunks T) :=
  let (stop, overflow) := overflowingMul n self.chunkSize
  if stop ≥ self.v.length ∨ overflow then self.clear
  else do
    let stop ← Checked.sub self.v.length stop
    let start := rchunkStart stop self.chunkSize
    let nth ← slice self.v start stop
    let v ← slice self.v 0 start
    return (some nth, { self with v })

def last : Option (Option (List T)) :=
  if self.v.isEmpty then some none
  else do
    let stop ← shortSize self.v self.chunkSize
    let ret ← slice self.v 0 stop
    return some ret

def getUnchecked (idx : ℕ) : Option (List T) := do
  let skipped ← mul idx self.chunkSize
  let stop ← Checked.sub self.v.length skipped
  let start := rchunkStart stop self.chunkSize
  let len ← Checked.sub stop start
  fromRawParts self.v start len

def nextBack : Option (Option (List T) × RChunks T) :=
  if self.v.isEmpty then some (none, self)
  else do
    let chunksz ← shortSize self.v self.chunkSize
    let (fst, snd) ← splitAt self.v chunksz
    return (some fst, { self with v := snd })

def nthBack (n : ℕ) : Option (Option (List T) × RChunks T) := do
  let len ← exactLen (← self.sizeHint)
  if n ≥ len then self.clear
  else
    let back ← Checked.sub len 1
    let back ← Checked.sub back n
    let offsetFromEnd ← mul back self.chunkSize
    let stop ← Checked.sub self.v.length offsetFromEnd
    let start := stop-self.chunkSize
    let nthBack ← slice self.v start stop
    let v ← slice self.v stop self.v.length
    return (some nthBack, { self with v })

def ops : Ops (RChunks T) (List T) :=
  { next, nth := fun n s => s.nth n, nextBack, nthBack := fun n s => s.nthBack n, sizeHint, last
    getUnchecked }

end RChunks

/-! ## The lists -/

def windowList (size : ℕ) (v : List T) : List (List T) :=
  tabulate (v.length+1-size) fun i => (v.drop i).take size

/-- Groups from the start. -/
def chunkList (chunkSize : ℕ) (v : List T) : List (List T) :=
  tabulate (ceil v.length chunkSize) fun i => (v.drop (i*chunkSize)).take chunkSize

/-- Groups from the end. -/
def rchunkList (chunkSize : ℕ) (v : List T) : List (List T) :=
  tabulate (ceil v.length chunkSize) fun i =>
    (v.take (v.length-i*chunkSize)).drop (v.length-(i+1)*chunkSize)

end RustStd.ChunkIters
