import RustStd.Lib.Checked
import RustStd.Lib.Machine
import RustStd.Sort.Partition
import RustStd.Sort.Shared

/-!
# `select_nth_unstable`

A quickselect with a fixed number of rounds, then a quickselect that takes its
pivots from the medians of ninthers. Each round goes on with a part of the
slice. Overflow and an index out of range are `outOfBounds`, the panic for an
index behind the slice included; a failed debug assertion is `abort`.
-/

set_option autoImplicit false

namespace RustStd.Sort
open RustStd.Unwind RustStd.WeakOrder RustStd.Machine
open Unstable (partition)

variable {σ S T : Type}

namespace Select

def checked {β : Type} : Option β → SortM σ S β
  | none => exit .outOfBounds
  | some x => pure x

def unwrap {β : Type} : Option β → SortM σ S β
  | none => exit .abort
  | some x => pure x

def lessAt (o : Oracle σ T) (v : List T) (i j : ℕ) : SortM σ S Bool := do
  let x ← at? v i
  let y ← at? v j
  less o x y

def reduceIndex (replace : T → T → SortM σ S Bool) : ℕ → ℕ × T → List T → SortM σ S ℕ
  | _, acc, [] => pure acc.1
  | i, acc, t :: ts => do
    if ← replace acc.2 t then reduceIndex replace (i+1) (i, t) ts
    else reduceIndex replace (i+1) acc ts

def reduceFirst (replace : T → T → SortM σ S Bool) : List T → SortM σ S (Option ℕ)
  | [] => pure none
  | t :: ts => do return some (← reduceIndex replace 1 (0, t) ts)

def minIndex (o : Oracle σ T) (slice : List T) : SortM σ S (Option ℕ) :=
  reduceFirst (fun acc t => less o t acc) slice

def maxIndex (o : Oracle σ T) (slice : List T) : SortM σ S (Option ℕ) :=
  reduceFirst (fun acc t => less o acc t) slice

def medianIdx (o : Oracle σ T) (v : List T) (a b c : ℕ) : SortM σ S ℕ := do
  let (a, c) := if ← lessAt o v c a then (c, a) else (a, c)
  if ← lessAt o v c b then return c
  else if ← lessAt o v b a then return a
  else return b

def nintherSwap (o : Oracle σ T) (b d e h : ℕ) : SortM σ (List T) Unit := do
  let v ← get
  let d ← (do
    if ← lessAt o v d b then return b
    else if ← lessAt o v h d then return h
    else return d : SortM σ (List T) ℕ)
  swap d e

def ninther (o : Oracle σ T) (a b c d e f g h i : ℕ) : SortM σ (List T) Unit := do
  let v ← get
  let b ← medianIdx o v a b c
  let h ← medianIdx o v g h i
  let (b, h) := if ← lessAt o v h b then (h, b) else (b, h)
  let (d, f) := if ← lessAt o v f d then (f, d) else (d, f)
  if ← lessAt o v e d then nintherSwap o b d e h
  else if ← lessAt o v f e then nintherSwap o b f e h
  else if ← lessAt o v e b then swap e b
  else if ← lessAt o v h e then swap e h

def ninthers (o : Oracle σ T) (frac : ℕ) : ℕ → ℕ → ℕ → ℕ → SortM σ (List T) Unit
  | 0, _, _, _ => pure ()
  | n+1, i, a, b => do
    let before ← checked (Checked.sub i frac)
    let after ← checked (Checked.u64 (i+frac))
    ninther o a before b (a+1) i (b+1) (a+2) after (b+2)
    let a ← checked (Checked.u64 (a+3))
    let b ← checked (Checked.u64 (b+3))
    ninthers o frac n (i+1) a b

def saturatingMul (a b : ℕ) : ℕ := min (a*b) usizeMax

/-- `select` is `median_of_medians`. -/
def medianOfNinthers (ti : TypeInfo T) (o : Oracle σ T) (select : ℕ → SortM σ (List T) Unit) :
    SortM σ (List T) ℕ := do
  let len := (← get).length
  let frac :=
    if len ≤ 1024 then len/12
    else if len ≤ saturatingMul 128 1024 then len/64
    else len/1024
  let pivot := frac/2
  let lo ← checked (Checked.sub (len/2) pivot)
  let hi ← checked (Checked.u64 (frac+lo))
  let gap := (← checked (Checked.sub len (← checked (Checked.u64 (9*frac)))))/4
  let a ← checked (Checked.sub lo (← checked (Checked.u64 (4*frac))))
  let a ← checked (Checked.sub a gap)
  let b ← checked (Checked.u64 (hi+gap))
  ninthers o frac (hi-lo) lo a b
  onSlice lo frac (select pivot)
  partition ti o (lo+pivot)

def insertionSortThreshold : ℕ := 16

def sortShort (o : Oracle σ T) : SortM σ (List T) Unit := do
  if (← get).length ≥ 2 then insertionSortShiftLeft o 1

/-- The maximum goes to the last position, which is `k`. -/
def placeMax (o : Oracle σ T) (k : ℕ) : SortM σ (List T) Unit := do
  let maxIdx ← unwrap (← maxIndex o (← get))
  swap maxIdx k

def placeMin (o : Oracle σ T) (k : ℕ) : SortM σ (List T) Unit := do
  let minIdx ← unwrap (← minIndex o (← get))
  swap minIdx k

/-- The debug assertions at the start of `median_of_medians`. -/
def entered (ti : TypeInfo T) (loop : ℕ → SortM σ (List T) Unit) (k : ℕ) :
    SortM σ (List T) Unit := do
  if k < (← get).length ∧ ti.sizeOf ≠ 0 then loop k else exit .abort

def medianOfMediansLoop (ti : TypeInfo T) (o : Oracle σ T) : ℕ → ℕ → SortM σ (List T) Unit
  | 0, _ => exit .outOfFuel
  | fuel+1, k => do
    let len := (← get).length
    if len ≤ insertionSortThreshold then sortShort o
    else if k = len-1 then placeMax o k
    else if k = 0 then placeMin o k
    else do
      let p ← medianOfNinthers ti o (entered ti (medianOfMediansLoop ti o fuel))
      if p = k then pure ()
      else if p > k then onSlice 0 p (medianOfMediansLoop ti o fuel k)
      else do
        let k ← checked (Checked.sub k (p+1))
        onSlice (p+1) (len-(p+1)) (medianOfMediansLoop ti o fuel k)

def medianOfMedians (ti : TypeInfo T) (o : Oracle σ T) (k : ℕ) : SortM σ (List T) Unit := do
  let len := (← get).length
  entered ti (medianOfMediansLoop ti o (len+1)) k

def partitionAtIndexRounds (ti : TypeInfo T) (o : Oracle σ T) :
    ℕ → ℕ → Option T → SortM σ (List T) Unit
  | 0, index, _ => do
    if (← get).length ≤ insertionSortThreshold then sortShort o
    else medianOfMedians ti o index
  | limit+1, index, ancestorPivot => do
    let v ← get
    let len := v.length
    if len ≤ insertionSortThreshold then sortShort o
    else do
      let pivotPos ← choosePivot o v
      let pivot ← at? v pivotPos
      if ← equalsAncestor o ancestorPivot pivot then do
        let numLt ← partition ti (notGreater o) pivotPos
        let mid := numLt+1
        if mid > index then pure ()
        else do
          let index ← checked (Checked.sub index mid)
          onSlice mid (len-mid) (partitionAtIndexRounds ti o limit index none)
      else do
        let mid ← partition ti o pivotPos
        let pivot ← read mid
        if mid < index then do
          let index ← checked (Checked.sub index mid)
          let index ← checked (Checked.sub index 1)
          onSlice (mid+1) (len-(mid+1)) (partitionAtIndexRounds ti o limit index (some pivot))
        else if mid > index then onSlice 0 mid (partitionAtIndexRounds ti o limit index ancestorPivot)
        else pure ()

def partitionAtIndexLoop (ti : TypeInfo T) (o : Oracle σ T) (index : ℕ) (ancestorPivot : Option T) :
    SortM σ (List T) Unit :=
  partitionAtIndexRounds ti o 16 index ancestorPivot

def placeIndex (ti : TypeInfo T) (o : Oracle σ T) (len index : ℕ) : SortM σ (List T) Unit :=
  if ti.sizeOf = 0 then pure ()
  else if index = len-1 then placeMax o index
  else if index = 0 then placeMin o index
  else partitionAtIndexLoop ti o index none

/-- The three parts are what the two calls of `split_at_mut` return. -/
def partitionAtIndex (ti : TypeInfo T) (o : Oracle σ T) (index : ℕ) :
    SortM σ (List T) (List T × T × List T) := do
  let len := (← get).length
  if index ≥ len then exit .outOfBounds
  else do
    placeIndex ti o len index
    let pivot ← read index
    let v ← get
    return (v.take index, pivot, v.drop (index+1))

end Select

end RustStd.Sort
