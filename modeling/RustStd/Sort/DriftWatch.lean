import RustStd.Lib.Machine
import RustStd.Sort.Drift

/-!
# Driftsort under watch

The same code with assertions about what the sort relies on: the arithmetic of
the depths, the stack of runs and the room in the scratch space. Which events
pass is a parameter; a run that no event stops is the run of the code.
-/

set_option autoImplicit false

namespace RustStd.Sort
open RustStd.Unwind

variable {σ S T : Type}

namespace Drift

/-- What a run of the sort comes past. -/
inductive Event
  | depth (left mid right scaleFactor : ℕ)
  /-- The stack of runs, its top first, and the length of the run that is not on it. -/
  | stack (scanIdx : ℕ) (entries : List (DriftsortRun × ℕ)) (pending : ℕ)
  | quicksort (len scratchLen : ℕ)
  | merge (len mid scratchLen : ℕ)

section Code

variable (ok : Event → Bool) (ti : TypeInfo T) (o : Oracle σ T) (scratch : List T)
  (fallback : SortM σ (List T) Unit)

def watch (e : Event) : SortM σ S Unit := guarded (ok e)

def stableQuicksortWatched : SortM σ (List T) Unit := do
  let len := (← get).length
  watch ok (.quicksort len scratch.length)
  stableQuicksort ti o scratch fallback

def sortRunWatched (a : ℕ) (r : DriftsortRun) : SortM σ (List T) Unit :=
  if r.sorted then pure ()
  else onSlice a r.len (stableQuicksortWatched ok ti o scratch fallback)

def logicalMergeWatched (left right : DriftsortRun) : SortM σ (List T) DriftsortRun := do
  let len := (← get).length
  let canFitInScratch : Bool := len ≤ scratch.length
  if !canFitInScratch || left.sorted || right.sorted then do
    sortRunWatched ok ti o scratch fallback 0 left
    sortRunWatched ok ti o scratch fallback left.len right
    watch ok (.merge len left.len scratch.length)
    merge o scratch.length left.len
    return .newSorted len
  else return .newUnsorted len

def collapseWatched (scanIdx desiredDepth : ℕ) :
    List (DriftsortRun × ℕ) → DriftsortRun →
      SortM σ (List T) (List (DriftsortRun × ℕ) × DriftsortRun)
  | [], prev => pure ([], prev)
  | (left, depth) :: stack, prev =>
    if stack.length+1 > 1 ∧ depth ≥ desiredDepth then do
      let mergedLen := left.len+prev.len
      let prev ← onSlice (scanIdx-mergedLen) mergedLen
        (logicalMergeWatched ok ti o scratch fallback left prev)
      watch ok (.stack scanIdx stack prev.len)
      collapseWatched scanIdx desiredDepth stack prev
    else pure ((left, depth) :: stack, prev)

def nextRunWatched (eagerSort : Bool) (scanIdx : ℕ) (prev : DriftsortRun) :
    SortM σ (List T) (DriftsortRun × ℕ) := do
  let len := (← get).length
  if scanIdx < len then do
    let next ← onSlice scanIdx (len-scanIdx)
      (createRun ti o scratch fallback (minGoodRunLen len) eagerSort)
    watch ok (.depth (scanIdx-prev.len) scanIdx (scanIdx+next.len) (mergeTreeScaleFactor len))
    return (next, mergeTreeDepth (scanIdx-prev.len) scanIdx (scanIdx+next.len)
      (mergeTreeScaleFactor len))
  else return (.newSorted 0, 0)

/-- The stack is looked at in the head of the loop, behind every merge and behind the
push. -/
def sortLoopWatched (eagerSort : Bool) :
    ℕ → ℕ → List (DriftsortRun × ℕ) → DriftsortRun → SortM σ (List T) DriftsortRun
  | 0, _, _, _ => exit .outOfFuel
  | fuel+1, scanIdx, stack, prev => do
    watch ok (.stack scanIdx stack prev.len)
    let (next, desiredDepth) ← nextRunWatched ok ti o scratch fallback eagerSort scanIdx prev
    let (stack, prev) ← collapseWatched ok ti o scratch fallback scanIdx desiredDepth stack prev
    if stack.length ≥ 66 then exit .outOfBounds
    else do
      watch ok (.stack scanIdx ((prev, desiredDepth) :: stack) 0)
      if scanIdx ≥ (← get).length then pure prev
      else sortLoopWatched eagerSort fuel (scanIdx+next.len) ((prev, desiredDepth) :: stack) next

def sortWithWatched (eagerSort : Bool) : SortM σ (List T) Unit := do
  let len := (← get).length
  if len < 2 then pure ()
  else do
    let prev ← sortLoopWatched ok ti o scratch fallback eagerSort (len+1) 0 [] (.newSorted 0)
    if prev.sorted then pure () else stableQuicksortWatched ok ti o scratch fallback

def sortWatched : ℕ → Bool → SortM σ (List T) Unit
  | 0, _ => exit .outOfFuel
  | depth+1, eagerSort =>
    sortWithWatched ok ti o scratch (sortWatched depth true) eagerSort

end Code

section Guards

variable {ok : Event → Bool} {ti : TypeInfo T} {o : Oracle σ T} {scratch : List T}
  {fallback fallback' : SortM σ (List T) Unit} (h : Guards fallback fallback')
include h

theorem quicksort_guards (limit : ℕ) (ancestor : Option T) :
    Guards (Stable.quicksort ti o scratch fallback limit ancestor)
      (Stable.quicksort ti o scratch fallback' limit ancestor) := by
  induction limit generalizing ancestor with
  | zero => exact .bind (.refl _) fun _ => .ite (.refl _) h
  | succ limit ih =>
    refine .bind (.refl _) fun v => .ite (.refl _) ?_
    refine .bind (.refl _) fun _ => .bind (.refl _) fun _ => .bind (.refl _) fun _ => ?_
    refine .bind (.refl _) fun _ => .ite ?_ ?_
    · exact .bind (.refl _) fun _ => .onSlice (ih _)
    · exact .bind (.onSlice (ih _)) fun _ => .onSlice (ih _)

theorem createRun_guards (minGoodRunLen : ℕ) (eagerSort : Bool) :
    Guards (createRun ti o scratch fallback minGoodRunLen eagerSort)
      (createRun ti o scratch fallback' minGoodRunLen eagerSort) := by
  refine .bind (.refl _) fun v => .bind (.refl _) fun _ => .ite (.refl _) (.ite ?_ (.refl _))
  exact .bind (.onSlice (quicksort_guards h _ _)) fun _ => .refl _

theorem stableQuicksort_guards :
    Guards (stableQuicksortWatched ok ti o scratch fallback)
      (stableQuicksort ti o scratch fallback') := by
  intro v st
  exact Guards.guarded (ok (.quicksort v.length scratch.length))
    (Guards.bind (.refl get) fun _ => quicksort_guards h _ _) v st

theorem sortRun_guards (a : ℕ) (r : DriftsortRun) :
    Guards (sortRunWatched ok ti o scratch fallback a r) (sortRun ti o scratch fallback' a r) :=
  .ite (.refl _) (.onSlice (stableQuicksort_guards h))

theorem logicalMerge_guards (left right : DriftsortRun) :
    Guards (logicalMergeWatched ok ti o scratch fallback left right)
      (logicalMerge ti o scratch fallback' left right) := by
  refine .bind (.refl _) fun _ => .ite ?_ (.refl _)
  exact .bind (sortRun_guards h _ _) fun _ => .bind (sortRun_guards h _ _) fun _ =>
    .guarded _ (.refl _)

theorem collapse_guards (scanIdx desiredDepth : ℕ) (stack : List (DriftsortRun × ℕ))
    (prev : DriftsortRun) :
    Guards (collapseWatched ok ti o scratch fallback scanIdx desiredDepth stack prev)
      (collapse ti o scratch fallback' scanIdx desiredDepth stack prev) := by
  induction stack generalizing prev with
  | nil => exact .refl _
  | cons e stack ih =>
    refine .ite ?_ (.refl _)
    exact .bind (.onSlice (logicalMerge_guards h _ _)) fun _ => .guarded _ (ih _)

theorem nextRun_guards (eagerSort : Bool) (scanIdx : ℕ) (prev : DriftsortRun) :
    Guards (nextRunWatched ok ti o scratch fallback eagerSort scanIdx prev)
      (nextRun ti o scratch fallback' eagerSort scanIdx prev) := by
  refine .bind (.refl _) fun _ => .ite ?_ (.refl _)
  exact .bind (.onSlice (createRun_guards h _ _)) fun _ => .guarded _ (.refl _)

theorem sortLoop_guards (eagerSort : Bool) (fuel scanIdx : ℕ) (stack : List (DriftsortRun × ℕ))
    (prev : DriftsortRun) :
    Guards (sortLoopWatched ok ti o scratch fallback eagerSort fuel scanIdx stack prev)
      (sortLoop ti o scratch fallback' eagerSort fuel scanIdx stack prev) := by
  induction fuel generalizing scanIdx stack prev with
  | zero => exact .refl _
  | succ fuel ih =>
    refine .guarded _ (.bind (nextRun_guards h _ _ _) fun _ => ?_)
    refine .bind (collapse_guards h _ _ _ _) fun _ => .ite (.refl _) (.guarded _ ?_)
    exact .bind (.refl _) fun _ => .ite (.refl _) (ih _ _ _)

theorem sortWith_guards (eagerSort : Bool) :
    Guards (sortWithWatched ok ti o scratch fallback eagerSort)
      (sortWith ti o scratch fallback' eagerSort) := by
  refine .bind (.refl _) fun _ => .ite (.refl _) ?_
  exact .bind (sortLoop_guards h _ _ _ _ _) fun _ => .ite (.refl _) (stableQuicksort_guards h)

omit h in
theorem sort_guards (depth : ℕ) (eagerSort : Bool) :
    Guards (sortWatched ok ti o scratch depth eagerSort) (sort ti o scratch depth eagerSort) := by
  induction depth generalizing eagerSort with
  | zero => exact .refl _
  | succ depth ih => exact sortWith_guards (ih true) eagerSort

end Guards

end Drift

end RustStd.Sort
