import RustStd.Sort.Shared

/-!
# Stable quicksort

`stable_partition` writes the elements to both ends of the scratch space and
copies them back at the end, so an unwind finds the slice unchanged. Each round
of `quicksort` uses up a part of `limit`, which is why the recursion ends for
every callback; at zero the sort is left to another algorithm.
-/

set_option autoImplicit false

namespace RustStd.Sort
open RustStd.Unwind RustStd.WeakOrder

variable {σ T : Type}

structure PartitionState where
  scan : ℕ
  numLeft : ℕ
  scratchRev : ℕ

def partitionOne (v : List T) (towardsLeft : Bool) (s : PartitionState) :
    SortM σ (List T) (PartitionState × ℕ) :=
  match s.scratchRev with
  | 0 => exit .outOfBounds
  | rev+1 => do
    let dst := (if towardsLeft then 0 else rev)+s.numLeft
    write dst (← at? v s.scan)
    return (⟨s.scan+1, s.numLeft+towardsLeft.toNat, rev⟩, dst)

def partitionNext (o : Oracle σ T) (v : List T) (pivotPos : ℕ) (s : PartitionState) :
    SortM σ (List T) PartitionState := do
  let x ← at? v s.scan
  let p ← at? v pivotPos
  let r ← partitionOne v (← less o x p) s
  return r.1

def partitionUnrolled (o : Oracle σ T) (v : List T) (pivotPos unrollEnd : ℕ) :
    ℕ → PartitionState → SortM σ (List T) PartitionState
  | 0, _ => exit .outOfFuel
  | fuel+1, s =>
    if s.scan < unrollEnd then do
      let s ← partitionNext o v pivotPos s
      let s ← partitionNext o v pivotPos s
      let s ← partitionNext o v pivotPos s
      let s ← partitionNext o v pivotPos s
      partitionUnrolled o v pivotPos unrollEnd fuel s
    else pure s

def partitionTo (o : Oracle σ T) (v : List T) (pivotPos loopEnd : ℕ) :
    ℕ → PartitionState → SortM σ (List T) PartitionState
  | 0, _ => exit .outOfFuel
  | fuel+1, s =>
    if s.scan < loopEnd then do
      let s ← partitionNext o v pivotPos s
      partitionTo o v pivotPos loopEnd fuel s
    else pure s

/-- One pass of the outer loop of `stable_partition`, up to `loopEndPos`. -/
def partitionPass (ti : TypeInfo T) (o : Oracle σ T) (v : List T) (pivotPos loopEndPos : ℕ)
    (s : PartitionState) : SortM σ (List T) PartitionState := do
  let s ← (if ti.sizeOf ≤ 16 then partitionUnrolled o v pivotPos (loopEndPos-3) (v.length+1) s
    else pure s : SortM σ (List T) PartitionState)
  partitionTo o v pivotPos loopEndPos (v.length+1) s

/-- The outer loop runs twice, up to the pivot and up to the end; the pivot is not
compared with itself. -/
def stablePartition (ti : TypeInfo T) (o : Oracle σ T) (scratch : List T) (pivotPos : ℕ)
    (pivotGoesLeft : Bool) : SortM σ (List T) ℕ := do
  let v ← get
  let len := v.length
  if scratch.length < len ∨ pivotPos ≥ len then exit .abort
  else withScratch scratch do
    let s ← onScratch (partitionPass ti o v pivotPos pivotPos ⟨0, 0, len⟩)
    let (s, pivotInScratch) ← onScratch (partitionOne v pivotGoesLeft s)
    let s ← onScratch (partitionPass ti o v pivotPos len s)
    let pivot ← at? v pivotPos
    onScratch (if ti.isFreeze then pure () else write pivotInScratch pivot)
    let sc := (← get).2
    onSorted (writeAll 0 (sc.take s.numLeft))
    onSorted (writeAll s.numLeft ((sc.take len).drop s.numLeft).reverse)
    return s.numLeft

def Stable.smallSortThreshold (ti : TypeInfo T) : ℕ := if ti.isFreeze then 32 else 16

def Stable.smallSort (ti : TypeInfo T) (o : Oracle σ T) (scratch : List T) :
    SortM σ (List T) Unit :=
  if ti.isFreeze then smallSortGeneralWithScratch ti o scratch
  else do
    if (← get).length ≥ 2 then insertionSortShiftLeft o 1

def Stable.quicksort (ti : TypeInfo T) (o : Oracle σ T) (scratch : List T)
    (fallback : SortM σ (List T) Unit) : ℕ → Option T → SortM σ (List T) Unit
  | 0, _ => do
    if (← get).length ≤ Stable.smallSortThreshold ti then Stable.smallSort ti o scratch
    else fallback
  | limit+1, leftAncestorPivot => do
    let v ← get
    let len := v.length
    if len ≤ Stable.smallSortThreshold ti then Stable.smallSort ti o scratch
    else do
      let pivotPos ← choosePivot o v
      let pivot ← at? v pivotPos
      let pivotRef := if ti.isFreeze then some pivot else none
      let performEqualPartition ← equalsAncestor o leftAncestorPivot pivot
      let leftPartitionLen ← (if performEqualPartition then pure 0
        else stablePartition ti o scratch pivotPos false : SortM σ (List T) ℕ)
      if leftPartitionLen = 0 then do
        let midEq ← stablePartition ti (notGreater o) scratch pivotPos true
        onSlice midEq (len-midEq) (Stable.quicksort ti o scratch fallback limit none)
      else do
        onSlice leftPartitionLen (len-leftPartitionLen)
          (Stable.quicksort ti o scratch fallback limit pivotRef)
        onSlice 0 leftPartitionLen
          (Stable.quicksort ti o scratch fallback limit leftAncestorPivot)

/-- The elements of `src` that went to either side, in their order. -/
def Split (L : Prop) (p : T → Bool) (src ls rs : List T) : Prop :=
  (ls ++ rs).Perm src ∧ (L → ls = src.filter p ∧ rs = src.filter fun x => !p x)

theorem Split.concat {L : Prop} {p : T → Bool} {src ls rs : List T} (h : Split L p src ls rs)
    {x : T} (left : Bool) (hx : L → p x = left) :
    Split L p (src ++ [x]) (if left then ls ++ [x] else ls) (if left then rs else rs ++ [x]) := by
  cases left with
  | true =>
    refine ⟨?_, fun hl => ?_⟩
    · simp only [if_true, List.append_assoc, List.singleton_append]
      exact List.perm_middle.trans ((h.1.cons x).trans (List.perm_append_singleton x src).symm)
    · simp [hx hl, (h.2 hl).1, (h.2 hl).2]
  | false =>
    refine ⟨?_, fun hl => ?_⟩
    · simp only [Bool.false_eq_true, if_false, ← List.append_assoc]
      exact h.1.append_right [x]
    · simp [hx hl, (h.2 hl).1, (h.2 hl).2]

/-- The first `s.scan` elements are at the two ends of the scratch space `m`. -/
structure Scanned (L : Prop) (p : T → Bool) (v : List T) (s : PartitionState) (ls rs m : List T) :
    Prop where
  memory : ∃ mid tail, m = ls ++ mid ++ rs.reverse ++ tail ∧
    (ls ++ mid ++ rs.reverse).length = v.length
  split : Split L p (v.take s.scan) ls rs
  scan : s.scan = ls.length+rs.length
  numLeft : s.numLeft = ls.length
  scratchRev : s.scratchRev+s.scan = v.length

def Placed (len : ℕ) (ls rs : List T) (d : ℕ) (x : T) : Prop :=
  ls[d]? = some x ∨ ∃ i, d+i+1 = len ∧ rs[i]? = some x

theorem Placed.mono {len d : ℕ} {ls rs ls' rs' : List T} {x : T} (h : Placed len ls rs d x)
    (hl : ls <+: ls') (hr : rs <+: rs') : Placed len ls' rs' d x := by
  obtain ⟨l, rfl⟩ := hl
  obtain ⟨r, rfl⟩ := hr
  have hget {a b : List T} {i : ℕ} (hi : a[i]? = some x) : (a ++ b)[i]? = some x := by
    rw [List.getElem?_append_left (List.getElem?_eq_some_iff.mp hi).1, hi]
  exact h.imp hget fun ⟨i, hi, hx⟩ => ⟨i, hi, hget hx⟩

theorem Placed.set {len d : ℕ} {ls rs : List T} {x : T} (h : Placed len ls rs d x)
    (hlen : ls.length+rs.length = len) (tail : List T) :
    d < (ls ++ rs.reverse ++ tail).length ∧
      (ls ++ rs.reverse ++ tail).set d x = ls ++ rs.reverse ++ tail := by
  have hd : (ls ++ rs.reverse ++ tail)[d]? = some x := by
    rcases h with h | ⟨i, hi, h⟩
    · rw [List.append_assoc, List.getElem?_append_left (List.getElem?_eq_some_iff.mp h).1, h]
    · have hlt := (List.getElem?_eq_some_iff.mp h).1
      rw [List.append_assoc, List.getElem?_append_right (by lia),
        List.getElem?_append_left (by rw [List.length_reverse]; lia),
        List.getElem?_reverse (by lia), show rs.length-1-(d-ls.length) = i by lia, h]
  obtain ⟨hlt, hx⟩ := List.getElem?_eq_some_iff.mp hd
  refine ⟨hlt, ?_⟩
  rw [← hx]
  exact List.set_getElem_self hlt

section Partition

variable {L : Prop} {o : Oracle σ T} {g : T → T → Bool} {v : List T} {p : T → Bool}

theorem partitionOne_sat {s : PartitionState} {ls rs m : List T} (h : Scanned L p v s ls rs m)
    (hs : s.scan < v.length) {towardsLeft : Bool}
    (hp : L → ∀ x, v[s.scan]? = some x → p x = towardsLeft) {E : List T → Prop} :
    Sat L (partitionOne v towardsLeft s : SortM σ (List T) _) m
      (fun r m' => ∃ ls' rs', Scanned L p v r.1 ls' rs' m' ∧ r.1.scan = s.scan+1 ∧
        ls <+: ls' ∧ rs <+: rs' ∧ ∀ x, v[s.scan]? = some x → Placed v.length ls' rs' r.2 x) E := by
  obtain ⟨mid, tail, rfl, hlen⟩ := h.memory
  obtain ⟨scan, numLeft, scratchRev⟩ := s
  obtain rfl : numLeft = ls.length := h.numLeft
  have hscan := h.scan
  have hrev := h.scratchRev
  simp only at hscan hrev hs hp
  obtain ⟨x, hx⟩ : ∃ x, v[scan]? = some x := ⟨_, List.getElem?_eq_getElem hs⟩
  have htake : v.take (scan+1) = v.take scan ++ [x] := by
    rw [List.take_add_one, hx]
    rfl
  simp only [List.length_append, List.length_reverse] at hlen
  obtain ⟨rev, rfl⟩ : ∃ rev, scratchRev = rev+1 := ⟨scratchRev-1, by lia⟩
  have hsplit := h.split.concat towardsLeft fun hl => hp hl x hx
  unfold partitionOne
  refine .bind (sat_at hx ?_)
  cases towardsLeft with
  | true =>
    obtain ⟨y, mid, rfl⟩ := List.exists_cons_of_length_pos (show 0 < mid.length by lia)
    simp only [List.length_cons] at hlen
    refine .bind (sat_write (by simp) (sat_pure ⟨ls ++ [x], rs, ?_, rfl, List.prefix_append _ _,
      List.prefix_rfl, fun z hz => .inl ?_⟩))
    · refine ⟨⟨mid, tail, by simp, by simp; lia⟩, ?_, by simp; lia, by simp, by simp; lia⟩
      rw [htake]
      exact hsplit
    · rw [← hz, hx]
      simp
  | false =>
    obtain ⟨mid, y, rfl⟩ : ∃ mid' y, mid = mid' ++ [y] := by
      simpa using (List.eq_nil_or_concat mid).resolve_left (by rintro rfl; simp at hlen; lia)
    simp only [List.length_append, List.length_singleton] at hlen
    have hpos : rev+ls.length = (ls ++ mid).length := by
      rw [List.length_append]
      lia
    have hset : (ls ++ (mid ++ [y]) ++ rs.reverse ++ tail).set (rev+ls.length) x =
        ls ++ mid ++ (rs ++ [x]).reverse ++ tail := by
      rw [hpos, show ls ++ (mid ++ [y]) ++ rs.reverse ++ tail =
        (ls ++ mid) ++ y :: (rs.reverse ++ tail) by simp, List.set_append_right _ _ le_rfl]
      simp
    simp only [Bool.false_eq_true, if_false]
    refine .bind (sat_write (by simp; lia) (sat_pure ⟨ls, rs ++ [x], ?_, rfl, List.prefix_rfl,
      List.prefix_append _ _, fun z hz => .inr ⟨rs.length, ?_, ?_⟩⟩))
    · rw [hset]
      refine ⟨⟨mid, tail, rfl, by simp; lia⟩, ?_, by simp; lia, by simp, by simp; lia⟩
      rw [htake]
      exact hsplit
    · simp only
      lia
    · rw [← hz, hx]
      simp

def ScannedTo (L : Prop) (p : T → Bool) (v ls rs : List T) (P : ℕ → Prop) (s : PartitionState)
    (m : List T) : Prop :=
  ∃ ls' rs', Scanned L p v s ls' rs' m ∧ ls <+: ls' ∧ rs <+: rs' ∧ P s.scan

theorem ScannedTo.trans {P P' : ℕ → Prop} {s : PartitionState} {ls rs ls' rs' m : List T}
    (h : ScannedTo L p v ls' rs' P s m) (hl : ls <+: ls') (hr : rs <+: rs')
    (hP : ∀ i, P i → P' i) : ScannedTo L p v ls rs P' s m := by
  obtain ⟨ls'', rs'', hs, hl', hr', hp⟩ := h
  exact ⟨ls'', rs'', hs, hl.trans hl', hr.trans hr', hP _ hp⟩

variable (hL : L → Answers o g) {pivotPos : ℕ} {pivot : T} (hpivot : v[pivotPos]? = some pivot)
include hL hpivot

theorem partitionNext_sat {s : PartitionState} {ls rs m : List T}
    (h : Scanned L (fun x => g x pivot) v s ls rs m) (hs : s.scan < v.length) :
    Sat L (partitionNext o v pivotPos s) m
      (ScannedTo L (fun x => g x pivot) v ls rs (· = s.scan+1)) fun _ => True := by
  obtain ⟨x, hx⟩ : ∃ x, v[s.scan]? = some x := ⟨_, List.getElem?_eq_getElem hs⟩
  refine .bind (sat_at hx (.bind (sat_at hpivot (.bind (sat_less hL trivial fun r hr => ?_)))))
  refine (partitionOne_sat h hs (fun hl y hy => ?_)).call ?_ fun m _ h => h
  · obtain rfl : x = y := Option.some.inj (hx.symm.trans hy)
    exact (hr hl).symm
  · rintro q m' ⟨ls', rs', hs', hscan, hl, hr, -⟩
    exact sat_pure ⟨ls', rs', hs', hl, hr, hscan⟩

theorem partitionUnrolled_sat {unrollEnd : ℕ} (hend : unrollEnd+3 ≤ v.length) (fuel : ℕ)
    {s : PartitionState} {ls rs m : List T} (h : Scanned L (fun x => g x pivot) v s ls rs m)
    (hfuel : v.length-s.scan < fuel) :
    Sat L (partitionUnrolled o v pivotPos unrollEnd fuel s) m
      (ScannedTo L (fun x => g x pivot) v ls rs fun i => i ≤ max s.scan (unrollEnd+3))
      fun _ => True := by
  induction fuel generalizing s ls rs m with
  | zero => lia
  | succ fuel ih =>
    unfold partitionUnrolled
    by_cases hlt : s.scan < unrollEnd
    · rw [if_pos hlt]
      refine (partitionNext_sat hL hpivot h (by lia)).call ?_ fun _ _ _ => trivial
      rintro s1 m1 ⟨ls1, rs1, h1, hl1, hr1, hs1⟩
      refine (partitionNext_sat hL hpivot h1 (by lia)).call ?_ fun _ _ _ => trivial
      rintro s2 m2 ⟨ls2, rs2, h2, hl2, hr2, hs2⟩
      refine (partitionNext_sat hL hpivot h2 (by lia)).call ?_ fun _ _ _ => trivial
      rintro s3 m3 ⟨ls3, rs3, h3, hl3, hr3, hs3⟩
      refine (partitionNext_sat hL hpivot h3 (by lia)).call ?_ fun _ _ _ => trivial
      rintro s4 m4 ⟨ls4, rs4, h4, hl4, hr4, hs4⟩
      refine (ih h4 (by lia)).mono (fun s' m' h' => ?_) fun _ _ _ => trivial
      exact h'.trans (((hl1.trans hl2).trans hl3).trans hl4) (((hr1.trans hr2).trans hr3).trans hr4)
        fun i hi => by lia
    · rw [if_neg hlt]
      exact sat_pure ⟨ls, rs, h, List.prefix_rfl, List.prefix_rfl, by lia⟩

theorem partitionTo_sat {loopEnd : ℕ} (hend : loopEnd ≤ v.length) (fuel : ℕ)
    {s : PartitionState} {ls rs m : List T} (h : Scanned L (fun x => g x pivot) v s ls rs m)
    (hs : s.scan ≤ loopEnd) (hfuel : v.length-s.scan < fuel) :
    Sat L (partitionTo o v pivotPos loopEnd fuel s) m
      (ScannedTo L (fun x => g x pivot) v ls rs (· = loopEnd)) fun _ => True := by
  induction fuel generalizing s ls rs m with
  | zero => lia
  | succ fuel ih =>
    unfold partitionTo
    by_cases hlt : s.scan < loopEnd
    · rw [if_pos hlt]
      refine (partitionNext_sat hL hpivot h (by lia)).call ?_ fun _ _ _ => trivial
      rintro s1 m1 ⟨ls1, rs1, h1, hl1, hr1, hs1⟩
      refine (ih h1 (by lia) (by lia)).mono (fun s' m' h' => ?_) fun _ _ _ => trivial
      exact h'.trans hl1 hr1 fun i hi => hi
    · rw [if_neg hlt]
      exact sat_pure ⟨ls, rs, h, List.prefix_rfl, List.prefix_rfl, by lia⟩

theorem partitionPass_sat (ti : TypeInfo T) {loopEnd : ℕ} (hend : loopEnd ≤ v.length)
    {s : PartitionState} {ls rs m : List T} (h : Scanned L (fun x => g x pivot) v s ls rs m)
    (hs : s.scan ≤ loopEnd) :
    Sat L (partitionPass ti o v pivotPos loopEnd s) m
      (ScannedTo L (fun x => g x pivot) v ls rs (· = loopEnd)) fun _ => True := by
  have hfirst : Sat L (if ti.sizeOf ≤ 16 then
      partitionUnrolled o v pivotPos (loopEnd-3) (v.length+1) s else pure s) m
      (ScannedTo L (fun x => g x pivot) v ls rs fun i => i ≤ loopEnd) fun _ => True := by
    by_cases hsize : ti.sizeOf ≤ 16
    · rw [if_pos hsize]
      by_cases h3 : 3 ≤ loopEnd
      · refine (partitionUnrolled_sat hL hpivot (by lia) _ h (by lia)).mono
          (fun s' m' h' => h'.trans List.prefix_rfl List.prefix_rfl fun i hi => by lia)
          fun _ _ _ => trivial
      · -- the subtraction saturates, so nothing is unrolled
        unfold partitionUnrolled
        rw [if_neg (by lia)]
        exact sat_pure ⟨ls, rs, h, List.prefix_rfl, List.prefix_rfl, hs⟩
    · rw [if_neg hsize]
      exact sat_pure ⟨ls, rs, h, List.prefix_rfl, List.prefix_rfl, hs⟩
  refine hfirst.call ?_ fun _ _ _ => trivial
  rintro s1 m1 ⟨ls1, rs1, h1, hl1, hr1, hs1⟩
  exact (partitionTo_sat hL hpivot hend _ h1 hs1 (by lia)).mono
    (fun s' m' h' => h'.trans hl1 hr1 fun i hi => hi) fun _ _ _ => trivial

theorem stablePartition_sat (ti : TypeInfo T) {scratch : List T} {pivotGoesLeft : Bool}
    (hscr : v.length ≤ scratch.length) (hself : L → g pivot pivot = pivotGoesLeft) :
    Sat L (stablePartition ti o scratch pivotPos pivotGoesLeft) v
      (fun n v' => ∃ ls rs, v' = ls ++ rs ∧ n = ls.length ∧ Split L (fun x => g x pivot) v ls rs)
      fun v' => v' = v := by
  have hpos : pivotPos < v.length := (List.getElem?_eq_some_iff.mp hpivot).1
  refine .bind (sat_get ?_)
  rw [if_neg (by lia)]
  apply Sat.withScratch
  have hE {F : List T → Prop} (q : List T × List T) (_ : ¬ L) (h : ∃ s', q = (v, s') ∧ F s') :
      q.1 = v := by
    obtain ⟨s', rfl, -⟩ := h
    rfl
  have hstart : Scanned L (fun x => g x pivot) v ⟨0, 0, v.length⟩ [] [] scratch := by
    refine ⟨⟨scratch.take v.length, scratch.drop v.length, by simp, by simp; lia⟩, ?_, rfl, rfl,
      rfl⟩
    exact ⟨by simp, fun _ => by simp⟩
  -- up to the pivot, the pivot, and up to the end
  refine (Sat.onScratch (partitionPass_sat hL hpivot ti hpos.le hstart (by simp))).call ?_ hE
  rintro s1 _ ⟨m1, rfl, ls1, rs1, h1, -, -, hs1⟩
  have hself' : L → ∀ x, v[s1.scan]? = some x → g x pivot = pivotGoesLeft := by
    intro hl x hx
    rw [hs1, hpivot] at hx
    rw [← Option.some.inj hx]
    exact hself hl
  refine (Sat.onScratch (partitionOne_sat h1 (by lia) hself' (E := fun _ => True))).call ?_ hE
  rintro ⟨s2, d⟩ _ ⟨m2, rfl, ls2, rs2, h2, hs2, -, -, hplaced⟩
  simp only at h2 hs2 hplaced
  have hplaced := hplaced pivot (by rw [hs1, hpivot])
  refine (Sat.onScratch (partitionPass_sat hL hpivot ti le_rfl h2 (by lia))).call ?_ hE
  rintro s3 _ ⟨m3, rfl, ls, rs, h3, hl3, hr3, hs3⟩
  have hplaced := hplaced.mono hl3 hr3
  obtain ⟨mid, tail, hm3, hlen⟩ := h3.memory
  have hscan := h3.scan
  simp only [List.length_append, List.length_reverse] at hlen
  obtain rfl : mid = [] := List.length_eq_zero_iff.mp (by lia)
  rw [List.append_nil] at hm3
  subst hm3
  have hsplit := h3.split
  rw [hs3, List.take_length] at hsplit
  have hnum := h3.numLeft
  obtain ⟨hd, hset⟩ := hplaced.set (show ls.length+rs.length = v.length by lia) tail
  have hwrite : Sat L (if ti.isFreeze then pure () else write d pivot : SortM σ (List T) Unit)
      (ls ++ rs.reverse ++ tail) (fun _ m => m = ls ++ rs.reverse ++ tail) fun _ => True := by
    by_cases hfr : ti.isFreeze = true
    · rw [if_pos hfr]
      exact sat_pure rfl
    · rw [if_neg hfr]
      exact sat_write hd hset
  refine .bind (sat_at hpivot ((Sat.onScratch hwrite).call ?_ hE))
  rintro ⟨⟩ _ ⟨_, rfl, rfl⟩
  refine .bind (sat_get ?_)
  have hleft : (ls ++ rs.reverse ++ tail).take s3.numLeft = ls := by
    rw [hnum, List.append_assoc, List.take_left]
  have hright : ((ls ++ rs.reverse ++ tail).take v.length).drop s3.numLeft = rs.reverse := by
    rw [show v.length = (ls ++ rs.reverse).length by simp; lia, List.take_left, hnum,
      List.drop_left]
  simp only [hleft, hright, List.reverse_reverse]
  -- the copy back
  refine (Sat.onSorted (sat_writeAll (Q := fun _ w => w = ls ++ v.drop ls.length)
    (E := fun _ => False) (by lia) (by simp))).call ?_ (by simp)
  rintro ⟨⟩ _ ⟨_, rfl, rfl⟩
  refine (Sat.onSorted (sat_writeAll (Q := fun _ w => w = ls ++ rs) (E := fun _ => False)
    (by simp; lia) ?_)).call ?_ (by simp)
  · rw [hnum, List.take_left, ← List.drop_drop, List.drop_left, List.drop_drop,
      List.drop_eq_nil_of_le (by lia), List.append_nil]
  · rintro ⟨⟩ _ ⟨_, rfl, rfl⟩
    exact sat_pure ⟨ls, rs, rfl, hnum, hsplit⟩

end Partition

section Combine

variable {L : Prop} {f : T → T → Bool} {p : T → Bool} {v ls rs ls' rs' : List T}

theorem Split.sortOf (h : Split L p v ls rs) (hp : L → ∀ a b, equiv f a b = true → p a = p b)
    (hle : L → ∀ a b, p a = true → p b = false → f b a = false) (hl : SortOf L f ls ls')
    (hr : SortOf L f rs rs') : SortOf L f v (ls' ++ rs') := by
  refine ⟨(hl.1.append hr.1).trans h.1, fun hlaw => ?_⟩
  obtain ⟨hls, hlst⟩ := hl.2 hlaw
  obtain ⟨hrs, hrst⟩ := hr.2 hlaw
  obtain ⟨hfl, hfr⟩ := h.2 hlaw
  refine ⟨sorted_append.mpr ⟨hls, hrs, fun a ha b hb => ?_⟩, ?_⟩
  · have ha := hl.1.subset ha
    have hb := hr.1.subset hb
    rw [hfl] at ha
    rw [hfr] at hb
    exact hle hlaw a b (List.mem_filter.mp ha).2 (by simpa using (List.mem_filter.mp hb).2)
  · have := stable_partition (hp hlaw) v
    rw [← hfl, ← hfr] at this
    exact this.trans (hlst.append hrst)

theorem Split.sortOf_less (hf : L → Weak f) {pivot : T}
    (h : Split L (fun x => f x pivot) v ls rs) (hl : SortOf L f ls ls')
    (hr : SortOf L f rs rs') : SortOf L f v (ls' ++ rs') := by
  refine h.sortOf (fun hlaw a b hab => ?_) (fun hlaw a b ha hb => ?_) hl hr
  · obtain ⟨h1, h2⟩ := (equiv_iff a b).mp hab
    by_cases ha : f a pivot = true
    · rw [ha, (hf hlaw).lt_of_le_of_lt h1 ha]
    · by_cases hb : f b pivot = true
      · exact absurd ((hf hlaw).lt_of_le_of_lt h2 hb) ha
      · rw [Bool.eq_false_of_not_eq_true ha, Bool.eq_false_of_not_eq_true hb]
  · by_contra hba
    rw [(hf hlaw).trans (Bool.eq_true_of_not_eq_false hba) ha] at hb
    simp at hb

theorem Split.sortOf_equal (hf : L → Weak f) {pivot : T}
    (h : Split L (fun x => !f pivot x) v ls rs) (hmin : L → ∀ x ∈ v, f x pivot = false)
    (hr : SortOf L f rs rs') : SortOf L f v (ls ++ rs') := by
  have hls : SortOf L f ls ls := by
    refine ⟨.refl ls, fun hlaw => ⟨?_, Stable.refl ls⟩⟩
    refine List.pairwise_of_forall_mem_list fun a ha b hb => ?_
    have hmem {x : T} (hx : x ∈ ls) : x ∈ v ∧ f pivot x = false := by
      rw [(h.2 hlaw).1] at hx
      simpa using List.mem_filter.mp hx
    exact (hf hlaw).le_trans (hmem ha).2 (hmin hlaw b (hmem hb).1)
  refine h.sortOf (fun hlaw a b hab => ?_) (fun hlaw a b ha hb => ?_) hls hr
  · obtain ⟨h1, h2⟩ := (equiv_iff a b).mp hab
    by_cases ha : f pivot a = true
    · rw [ha, (hf hlaw).lt_of_lt_of_le ha h2]
    · by_cases hb : f pivot b = true
      · exact absurd ((hf hlaw).lt_of_lt_of_le hb h1) ha
      · rw [Bool.eq_false_of_not_eq_true ha, Bool.eq_false_of_not_eq_true hb]
  · by_contra hba
    have hb : f pivot b = true := by simpa using hb
    have := (hf hlaw).trans hb (Bool.eq_true_of_not_eq_false hba)
    rw [this] at ha
    simp at ha

end Combine

section Quicksort

variable {L : Prop} {o : Oracle σ T} {f : T → T → Bool} (hL : L → Answers o f) (hf : L → Weak f)
include hL hf

theorem stableSmallSort_sat (ti : TypeInfo T) {v scratch : List T}
    (hv : v.length ≤ Stable.smallSortThreshold ti) (hscr : 48 ≤ scratch.length) :
    Sat L (Stable.smallSort ti o scratch) v (fun _ v' => SortOf L f v v') fun v' => v'.Perm v := by
  unfold Stable.smallSort
  by_cases hfr : ti.isFreeze = true
  · rw [Stable.smallSortThreshold, if_pos hfr] at hv
    rw [if_pos hfr]
    exact smallSortGeneralWithScratch_sat hL hf ti (by lia)
  · rw [if_neg hfr]
    refine .bind (sat_get ?_)
    by_cases h2 : v.length ≥ 2
    · rw [if_pos h2]
      refine insertionSortShiftLeft_sat hL hf (by lia) (by lia) fun _ => ?_
      obtain ⟨x, v, rfl⟩ := List.exists_cons_of_length_pos (show 0 < v.length by lia)
      exact List.pairwise_singleton _ _
    · rw [if_neg h2]
      exact sat_pure (sortOf_short (by lia))

theorem quicksort_small_sat (ti : TypeInfo T) {v scratch : List T}
    (hv : v.length ≤ Stable.smallSortThreshold ti) (hscr : 48 ≤ scratch.length)
    {fallback : SortM σ (List T) Unit} {limit : ℕ} {ancestor : Option T} :
    Sat L (Stable.quicksort ti o scratch fallback limit ancestor) v (fun _ v' => SortOf L f v v')
      fun v' => v'.Perm v := by
  have hsmall := stableSmallSort_sat hL hf ti hv hscr
  cases limit with
  | zero =>
    refine .bind (sat_get ?_)
    rw [if_pos hv]
    exact hsmall
  | succ limit =>
    refine .bind (sat_get ?_)
    rw [if_pos hv]
    exact hsmall

omit hf in
/-- A partition without elements below the pivot leaves a lawful slice as it is. -/
theorem leftPartition_sat (ti : TypeInfo T) {scratch v : List T} {pivotPos : ℕ} {pivot : T}
    (hpivot : v[pivotPos]? = some pivot) (hscr : v.length ≤ scratch.length)
    (hirrefl : L → f pivot pivot = false) {equal : Bool}
    (hequal : equal = true → L → ∀ x ∈ v, f x pivot = false) :
    Sat L (if equal then pure 0 else stablePartition ti o scratch pivotPos false) v
      (fun n v' => ∃ ls rs, v' = ls ++ rs ∧ n = ls.length ∧ v'.Perm v ∧
        (n ≠ 0 → Split L (fun x => f x pivot) v ls rs) ∧
        (n = 0 → L → v' = v ∧ ∀ x ∈ v, f x pivot = false)) fun v' => v' = v := by
  cases equal with
  | true => exact sat_pure ⟨[], v, rfl, rfl, .refl v, by simp, fun _ hl => ⟨rfl, hequal rfl hl⟩⟩
  | false =>
    refine (stablePartition_sat hL hpivot ti hscr hirrefl).mono ?_ fun _ _ h => h
    rintro n v' ⟨ls, rs, rfl, rfl, hsplit⟩
    refine ⟨ls, rs, rfl, rfl, hsplit.1, fun _ => hsplit, fun hn hl => ?_⟩
    obtain rfl := List.length_eq_zero_iff.mp hn
    obtain ⟨h1, h2⟩ := hsplit.2 hl
    have hmin : ∀ x ∈ v, f x pivot = false := by
      intro x hx
      by_contra hlt
      have : x ∈ v.filter fun x => f x pivot :=
        List.mem_filter.mpr ⟨hx, Bool.eq_true_of_not_eq_false hlt⟩
      rw [← h1] at this
      simp at this
    refine ⟨?_, hmin⟩
    rw [List.nil_append, h2, List.filter_eq_self]
    intro x hx
    simp [hmin x hx]

/-- The elements equal to the pivot are the smallest ones, and the others are sorted. -/
theorem equalPartition_sat (ti : TypeInfo T) {scratch v w : List T} {pivotPos : ℕ} {pivot : T}
    (hpivot : v[pivotPos]? = some pivot) (hscr : v.length ≤ scratch.length) (hperm : w.Perm v)
    (hzero : L → w = v ∧ ∀ x ∈ v, f x pivot = false) {sort : SortM σ (List T) Unit}
    (hsort : ∀ gt : List T, gt.length ≤ v.length →
      Sat L sort gt (fun _ gt' => SortOf L f gt gt') fun gt' => gt'.Perm gt) :
    Sat L (stablePartition ti (notGreater o) scratch pivotPos true >>= fun midEq =>
        onSlice midEq (v.length-midEq) sort) w
      (fun _ v' => SortOf L f v v') fun v' => v'.Perm v := by
  have hpos : pivotPos < v.length := (List.getElem?_eq_some_iff.mp hpivot).1
  obtain ⟨pivot', hpivot', hsame⟩ : ∃ q, w[pivotPos]? = some q ∧ (L → q = pivot) := by
    obtain ⟨q, hq⟩ : ∃ q, w[pivotPos]? = some q :=
      ⟨_, List.getElem?_eq_getElem (by rwa [hperm.length_eq])⟩
    refine ⟨q, hq, fun hl => ?_⟩
    rw [(hzero hl).1, hpivot] at hq
    exact (Option.some.inj hq).symm
  have hmin : L → ∀ x ∈ w, f x pivot' = false := by
    intro hl x hx
    rw [hsame hl]
    exact (hzero hl).2 x (hperm.subset hx)
  refine (stablePartition_sat (fun hl => (hL hl).notGreater) hpivot' ti
    (by rw [hperm.length_eq]; exact hscr) fun hl => ?_).call ?_ fun v' _ h => h ▸ hperm
  · simp [(hf hl).irrefl]
  rintro midEq _ ⟨eq, gt, rfl, rfl, hsplit⟩
  have hperm' := hsplit.1.trans hperm
  have hlens : eq.length+gt.length = v.length := by simpa using hperm'.length_eq
  refine (Sat.onSlice (p := eq) (w := gt) (r := []) (by simp) rfl (by lia)
    (hsort gt (by lia))).mono ?_ ?_
  · rintro ⟨⟩ _ ⟨gt', rfl, hgt'⟩
    rw [List.append_nil]
    exact (hsplit.sortOf_equal hf hmin hgt').of_stable hperm fun hl => by
      rw [(hzero hl).1]
      exact Stable.refl v
  · rintro _ - ⟨gt', rfl, hgt'⟩
    rw [List.append_nil]
    exact (hgt'.append_left eq).trans hperm'

omit hL in
/-- Both sides of the pivot are sorted, the right one first. -/
theorem bothSides_sat {v ls rs : List T} {pivot : T}
    (hsplit : Split L (fun x => f x pivot) v ls rs) {right left : SortM σ (List T) Unit}
    (hright : Sat L right rs (fun _ rs' => SortOf L f rs rs') fun rs' => rs'.Perm rs)
    (hleft : Sat L left ls (fun _ ls' => SortOf L f ls ls') fun ls' => ls'.Perm ls) :
    Sat L (onSlice ls.length (v.length-ls.length) right >>= fun _ => onSlice 0 ls.length left)
      (ls ++ rs) (fun _ v' => SortOf L f v v') fun v' => v'.Perm v := by
  have hperm := hsplit.1
  have hlens : ls.length+rs.length = v.length := by simpa using hperm.length_eq
  refine (Sat.onSlice (p := ls) (w := rs) (r := []) (by simp) rfl (by lia) hright).call ?_ ?_
  · rintro ⟨⟩ _ ⟨rs', rfl, hrs'⟩
    refine (Sat.onSlice (p := []) (w := ls) (r := rs') (by simp) rfl rfl hleft).mono ?_ ?_
    · rintro ⟨⟩ _ ⟨ls', rfl, hls'⟩
      exact hsplit.sortOf_less hf hls' hrs'
    · rintro _ - ⟨ls', rfl, hls'⟩
      exact (hls'.append hrs'.1).trans hperm
  · rintro _ - ⟨rs', rfl, hrs'⟩
    rw [List.append_nil]
    exact (hrs'.append_left ls).trans hperm

/-- The ancestor pivot is not greater than any element of the slice, and the fallback
sorts up to `room` elements. -/
theorem quicksort_sat (ti : TypeInfo T) {scratch : List T} (hscr : 48 ≤ scratch.length)
    {fallback : SortM σ (List T) Unit} {room : ℕ} (hroom : room ≤ scratch.length)
    (hfb : ∀ v, v.length ≤ room →
      Sat L fallback v (fun _ v' => SortOf L f v v') fun v' => v'.Perm v)
    (limit : ℕ) {ancestor : Option T} {v : List T} (hv : v.length ≤ room)
    (hanc : L → ∀ p, ancestor = some p → ∀ x ∈ v, f x p = false) :
    Sat L (Stable.quicksort ti o scratch fallback limit ancestor) v (fun _ v' => SortOf L f v v')
      fun v' => v'.Perm v := by
  induction limit generalizing ancestor v with
  | zero =>
    refine .bind (sat_get ?_)
    by_cases hsmall : v.length ≤ Stable.smallSortThreshold ti
    · rw [if_pos hsmall]
      exact stableSmallSort_sat hL hf ti hsmall hscr
    · rw [if_neg hsmall]
      exact hfb v hv
  | succ limit ih =>
    by_cases hsmall : v.length ≤ Stable.smallSortThreshold ti
    · exact quicksort_small_sat hL hf ti hsmall hscr
    refine .bind (sat_get ?_)
    rw [if_neg hsmall]
    have hlen : 8 ≤ v.length := by
      unfold Stable.smallSortThreshold at hsmall
      split_ifs at hsmall <;> lia
    have hkeep (v' : List T) (_ : ¬ L) (h : v' = v) : v'.Perm v := h ▸ .refl v
    refine (choosePivot_sat hL hlen).call ?_ hkeep
    rintro pivotPos v ⟨rfl, hpos⟩
    obtain ⟨pivot, hpivot⟩ : ∃ p, v[pivotPos]? = some p := ⟨_, List.getElem?_eq_getElem hpos⟩
    refine .bind (sat_at hpivot ((equalsAncestor_sat hL).call ?_ hkeep))
    rintro equal v ⟨rfl, hequal⟩
    refine (leftPartition_sat hL ti hpivot (hv.trans hroom) (fun hl => (hf hl).irrefl pivot)
      fun he hl x hx => ?_).call ?_ hkeep
    · obtain ⟨p, hp, hpp⟩ := hequal he hl
      exact (hf hl).le_trans hpp (hanc hl p hp x hx)
    rintro n v1 ⟨ls, rs, rfl, rfl, hperm, hless, hzero⟩
    by_cases hn0 : ls.length = 0
    · rw [if_pos hn0]
      exact equalPartition_sat hL hf ti hpivot (hv.trans hroom) hperm (hzero hn0)
        fun gt hgt => ih (hgt.trans hv) (by simp)
    · rw [if_neg hn0]
      have hsplit := hless hn0
      have hlens : ls.length+rs.length = v.length := by simpa using hperm.length_eq
      refine bothSides_sat hf hsplit (ih (by lia) fun hl p hp x hx => ?_)
        (ih (by lia) fun hl p hp x hx => hanc hl p hp x (hperm.subset (by simp [hx])))
      split_ifs at hp
      obtain rfl := Option.some.inj hp
      rw [(hsplit.2 hl).2] at hx
      simpa using (List.mem_filter.mp hx).2

end Quicksort

end RustStd.Sort
