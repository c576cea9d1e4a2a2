import RustStd.Sort.SelectNth

/-!
# Why a selection unwinds

The only panics of `select_nth_unstable` come out of the callback. A callback
without them, lawful or not, is answered with a return.
-/

set_option autoImplicit false

namespace RustStd.Sort
open RustStd.Unwind RustStd.WeakOrder RustStd.Machine
open Unstable

variable {σ S T : Type} {P : SortPanic → Prop} {o : Oracle σ T}

/-- Panics of the callback are in `P`. -/
def PanicsIn (P : SortPanic → Prop) (o : Oracle σ T) : Prop :=
  ∀ st a b, (o st a b).1 = none → P .isLess

theorem PanicsIn.notGreater (h : PanicsIn P o) : PanicsIn P (notGreater o) := by
  intro st a b hn
  apply h st b a
  simpa [Sort.notGreater] using hn

theorem PanicsIn.less (h : PanicsIn P o) (a b : T) :
    UnwindsBy P (less o a b : SortM σ S Bool) := by
  intro s st e s' st' hr
  unfold Sort.less at hr
  rcases ho : o st a b with ⟨_ | r, st₁⟩
  · rw [ho] at hr
    cases hr
    exact h st a b (by rw [ho])
  · rw [ho] at hr
    cases hr

section Insertion

variable (h : PanicsIn P o)
include h

theorem insertTailLoop_unwindsBy (tmp : T) (n : ℕ) : UnwindsBy P (insertTailLoop o tmp n) := by
  induction n with
  | zero => exact .bind (.read 0) fun _ => .bind (.write 1 _) fun _ => .write 0 tmp
  | succ n ih =>
    refine .bind (.read _) fun _ => .bind (.write _ _) fun _ => .bind (.read _) fun _ => ?_
    exact .bind (.onUnwind (h.less _ _)) fun _ => .ite ih (.write _ _)

theorem insertTail_unwindsBy (tail : ℕ) : UnwindsBy P (insertTail o tail) := by
  cases tail with
  | zero => exact .exit nofun
  | succ sift =>
    refine .bind (.read _) fun _ => .bind (.read _) fun _ => .bind (h.less _ _) fun _ => ?_
    exact .ite (insertTailLoop_unwindsBy h _ _) (.pure _)

theorem insertTails_unwindsBy (n tail : ℕ) : UnwindsBy P (insertTails o n tail) := by
  induction n generalizing tail with
  | zero => exact .pure _
  | succ n ih => exact .bind (insertTail_unwindsBy h tail) fun _ => ih (tail+1)

theorem insertionSortShiftLeft_unwindsBy (offset : ℕ) :
    UnwindsBy P (insertionSortShiftLeft o offset) :=
  .bind .get fun _ => .ite (.exit nofun) (insertTails_unwindsBy h _ _)

end Insertion

section Pivot

variable (h : PanicsIn P o) {v : List T}
include h

theorem median3_unwindsBy (a b c : ℕ) : UnwindsBy P (median3 o v a b c : SortM σ S ℕ) := by
  refine .bind (.at? v a) fun _ => .bind (.at? v b) fun _ => .bind (.at? v c) fun _ => ?_
  refine .bind (h.less _ _) fun _ => .bind (h.less _ _) fun _ => ?_
  exact .ite (.bind (h.less _ _) fun _ => .pure _) (.pure a)

theorem median3Rec_unwindsBy (fuel a b c n : ℕ) :
    UnwindsBy P (median3Rec o v fuel a b c n : SortM σ S ℕ) := by
  induction fuel generalizing a b c n with
  | zero => exact .exit nofun
  | succ fuel ih =>
    refine .ite ?_ (median3_unwindsBy h a b c)
    exact .bind (ih _ _ _ _) fun _ => .bind (ih _ _ _ _) fun _ => .bind (ih _ _ _ _) fun _ =>
      median3_unwindsBy h _ _ _

theorem choosePivot_unwindsBy : UnwindsBy P (choosePivot o v : SortM σ S ℕ) :=
  .ite (.exit nofun) (.ite (median3_unwindsBy h _ _ _) (median3Rec_unwindsBy h _ _ _ _ _))

theorem equalsAncestor_unwindsBy (ancestor : Option T) (pivot : T) :
    UnwindsBy P (equalsAncestor o ancestor pivot : SortM σ S Bool) := by
  cases ancestor with
  | none => exact .pure _
  | some p => exact .bind (h.less _ _) fun _ => .pure _

end Pivot

section Partition

variable (h : PanicsIn P o) {pivot : T}
include h

theorem scanLeft_unwindsBy (gap : Option (ℕ × T)) (right fuel left : ℕ) :
    UnwindsBy P (scanLeft o pivot gap right fuel left) := by
  induction fuel generalizing left with
  | zero => exact .exit nofun
  | succ fuel ih =>
    refine .ite (.bind (.read left) fun _ => .bind (.onUnwind (h.less _ _)) fun _ => ?_) (.pure left)
    exact .ite (ih (left+1)) (.pure left)

theorem scanRight_unwindsBy (gap : Option (ℕ × T)) (left right : ℕ) :
    UnwindsBy P (scanRight o pivot gap left right) := by
  induction right with
  | zero => exact .exit nofun
  | succ right ih =>
    refine .ite (.pure right)
      (.bind (.read right) fun _ => .bind (.onUnwind (h.less _ _)) fun _ => ?_)
    exact .ite (.pure right) ih

omit h in
theorem fillGap_unwindsBy (gap : Option (ℕ × T)) (x : T) :
    UnwindsBy P (fillGap gap x : SortM σ (List T) T) := by
  cases gap with
  | none => exact .pure x
  | some g => exact .bind (.write _ _) fun _ => .pure _

theorem hoareLoop_unwindsBy (len fuel left right : ℕ) (gap : Option (ℕ × T)) :
    UnwindsBy P (hoareLoop o pivot len fuel left right gap) := by
  induction fuel generalizing left right gap with
  | zero => exact .exit nofun
  | succ fuel ih =>
    refine .bind (scanLeft_unwindsBy h gap right _ left) fun l => ?_
    refine .bind (scanRight_unwindsBy h gap l right) fun r => .ite ?_ ?_
    · exact .bind .get fun _ => .bind (.put _) fun _ => .pure l
    · refine .bind (.read l) fun _ => .bind (fillGap_unwindsBy gap _) fun _ => ?_
      exact .bind (.read r) fun _ => .bind (.write l _) fun _ => ih _ _ _

theorem loopBody_unwindsBy (gapValue : T) (isDone : Bool) (s : PartitionState) :
    UnwindsBy P (loopBody o pivot gapValue isDone s) := by
  refine .bind (.ite (.pure _) (.read _)) fun _ => .bind (.onUnwind (h.less _ _)) fun _ => ?_
  refine .bind (.read _) fun _ => .bind (.write _ _) fun _ => ?_
  exact .bind (.ite (.pure _) (.read _)) fun _ => .bind (.write _ _) fun _ => .pure _

theorem lomutoUnrolled_unwindsBy (gapValue : T) (unrollLen unrollEnd fuel : ℕ) (s : PartitionState) :
    UnwindsBy P (lomutoUnrolled o pivot gapValue unrollLen unrollEnd fuel s) := by
  induction fuel generalizing s with
  | zero => exact .exit nofun
  | succ fuel ih =>
    have hbody (s : PartitionState) : UnwindsBy P (loopBody o pivot gapValue false s) :=
      loopBody_unwindsBy h gapValue false s
    refine .ite (.ite ?_ ?_) (.pure s)
    · exact .bind (hbody _) fun _ => .bind (hbody _) fun _ => ih _
    · exact .bind (hbody _) fun _ => ih _

theorem lomutoCleanup_unwindsBy (gapValue : T) (len fuel : ℕ) (s : PartitionState) :
    UnwindsBy P (lomutoCleanup o pivot gapValue len fuel s) := by
  induction fuel generalizing s with
  | zero => exact .exit nofun
  | succ fuel ih => exact .bind (loopBody_unwindsBy h _ _ _) fun _ => .ite (.pure _) (ih _)

theorem instPartition_unwindsBy (ti : TypeInfo T) : UnwindsBy P (instPartition ti o pivot) := by
  refine .ite ?_ ?_
  · refine .bind .get fun _ => .ite (.pure 0) (.bind (.read 0) fun _ => ?_)
    exact .bind (lomutoUnrolled_unwindsBy h _ _ _ _ _) fun _ => lomutoCleanup_unwindsBy h _ _ _ _
  · exact .bind .get fun _ => .ite (.pure 0) (hoareLoop_unwindsBy h _ _ _ _ _)

theorem partition_unwindsBy (ti : TypeInfo T) (pivot : ℕ) : UnwindsBy P (partition ti o pivot) := by
  refine .bind .get fun _ => .ite (.pure 0) (.ite (.exit nofun) ?_)
  refine .bind (.swap 0 pivot) fun _ => .bind (.read 0) fun _ => ?_
  refine .bind (.onSlice (instPartition_unwindsBy h ti)) fun n => .ite (.exit nofun) ?_
  exact .bind (.swap 0 n) fun _ => .pure n

end Partition

namespace Select

section Unwinds

variable {β : Type} (h : PanicsIn P o)

theorem checked_unwindsBy (r : Option β) : UnwindsBy P (checked r : SortM σ S β) := by
  cases r with
  | none => exact .exit nofun
  | some x => exact .pure x

theorem unwrap_unwindsBy (r : Option β) : UnwindsBy P (unwrap r : SortM σ S β) := by
  cases r with
  | none => exact .exit nofun
  | some x => exact .pure x

theorem reduceFirst_unwindsBy {replace : T → T → SortM σ S Bool}
    (hr : ∀ x y, UnwindsBy P (replace x y)) (v : List T) : UnwindsBy P (reduceFirst replace v) := by
  have hindex (i : ℕ) (acc : ℕ × T) (ts : List T) : UnwindsBy P (reduceIndex replace i acc ts) := by
    induction ts generalizing i acc with
    | nil => exact .pure _
    | cons t ts ih => exact .bind (hr _ _) fun _ => .ite (ih _ _) (ih _ _)
  cases v with
  | nil => exact .pure none
  | cons t ts => exact .bind (hindex 1 _ ts) fun _ => .pure _

include h

theorem lessAt_unwindsBy (v : List T) (i j : ℕ) : UnwindsBy P (lessAt o v i j : SortM σ S Bool) :=
  .bind (.at? v i) fun _ => .bind (.at? v j) fun _ => h.less _ _

theorem medianIdx_unwindsBy (v : List T) (a b c : ℕ) :
    UnwindsBy P (medianIdx o v a b c : SortM σ S ℕ) := by
  refine .bind (lessAt_unwindsBy h v c a) fun swapped => ?_
  generalize (if swapped = true then (c, a) else (a, c)) = p
  refine .bind (lessAt_unwindsBy h v _ _) fun _ => .ite (.pure _) ?_
  exact .bind (lessAt_unwindsBy h v _ _) fun _ => .ite (.pure _) (.pure _)

theorem nintherSwap_unwindsBy (b d e i : ℕ) : UnwindsBy P (nintherSwap o b d e i) := by
  refine .bind .get fun v => .bind ?_ fun _ => .swap _ e
  refine .bind (lessAt_unwindsBy h v d b) fun _ => .ite (.pure b) ?_
  exact .bind (lessAt_unwindsBy h v i d) fun _ => .ite (.pure i) (.pure d)

theorem ninther_unwindsBy (a b c d e i j k l : ℕ) :
    UnwindsBy P (ninther o a b c d e i j k l) := by
  refine .bind .get fun v => .bind (medianIdx_unwindsBy h v a b c) fun b => ?_
  refine .bind (medianIdx_unwindsBy h v j k l) fun k => .bind (lessAt_unwindsBy h v k b) fun s => ?_
  generalize (if s = true then (k, b) else (b, k)) = p
  refine .bind (lessAt_unwindsBy h v i d) fun s => ?_
  generalize (if s = true then (i, d) else (d, i)) = q
  refine .bind (lessAt_unwindsBy h v e _) fun _ => .ite (nintherSwap_unwindsBy h _ _ _ _) ?_
  refine .bind (lessAt_unwindsBy h v _ e) fun _ => .ite (nintherSwap_unwindsBy h _ _ _ _) ?_
  refine .bind (lessAt_unwindsBy h v e _) fun _ => .ite (.swap e _) ?_
  exact .bind (lessAt_unwindsBy h v _ e) fun _ => .ite (.swap e _) (.pure _)

theorem ninthers_unwindsBy (frac n i a b : ℕ) : UnwindsBy P (ninthers o frac n i a b) := by
  induction n generalizing i a b with
  | zero => exact .pure _
  | succ n ih =>
    refine .bind (checked_unwindsBy _) fun _ => .bind (checked_unwindsBy _) fun _ => ?_
    refine .bind (ninther_unwindsBy h _ _ _ _ _ _ _ _ _) fun _ => ?_
    exact .bind (checked_unwindsBy _) fun _ => .bind (checked_unwindsBy _) fun _ => ih _ _ _

theorem medianOfNinthers_unwindsBy (ti : TypeInfo T) {select : ℕ → SortM σ (List T) Unit}
    (hs : ∀ k, UnwindsBy P (select k)) : UnwindsBy P (medianOfNinthers ti o select) := by
  refine .bind .get fun _ => .bind (checked_unwindsBy _) fun _ => ?_
  refine .bind (checked_unwindsBy _) fun _ => .bind (checked_unwindsBy _) fun _ => ?_
  refine .bind (checked_unwindsBy _) fun _ => .bind (checked_unwindsBy _) fun _ => ?_
  refine .bind (checked_unwindsBy _) fun _ => .bind (checked_unwindsBy _) fun _ => ?_
  refine .bind (checked_unwindsBy _) fun _ => .bind (ninthers_unwindsBy h _ _ _ _ _) fun _ => ?_
  exact .bind (.onSlice (hs _)) fun _ => partition_unwindsBy h ti _

theorem sortShort_unwindsBy : UnwindsBy P (sortShort o) :=
  .bind .get fun _ => .ite (insertionSortShiftLeft_unwindsBy h 1) (.pure _)

theorem placeMax_unwindsBy (k : ℕ) : UnwindsBy P (placeMax o k) :=
  .bind .get fun v => .bind (reduceFirst_unwindsBy (fun x y => h.less x y) v) fun _ =>
    .bind (unwrap_unwindsBy _) fun _ => .swap _ k

theorem placeMin_unwindsBy (k : ℕ) : UnwindsBy P (placeMin o k) :=
  .bind .get fun v => .bind (reduceFirst_unwindsBy (fun x y => h.less y x) v) fun _ =>
    .bind (unwrap_unwindsBy _) fun _ => .swap _ k

theorem medianOfMediansLoop_unwindsBy (ti : TypeInfo T) (fuel k : ℕ) :
    UnwindsBy P (medianOfMediansLoop ti o fuel k) := by
  induction fuel generalizing k with
  | zero => exact .exit nofun
  | succ fuel ih =>
    refine .bind .get fun _ => .ite (sortShort_unwindsBy h) (.ite (placeMax_unwindsBy h k) ?_)
    refine .ite (placeMin_unwindsBy h k) (.bind (medianOfNinthers_unwindsBy h ti ?_) fun p => ?_)
    · exact fun k => .bind .get fun _ => .ite (ih k) (.exit nofun)
    · refine .ite (.pure _) (.ite (.onSlice (ih k)) ?_)
      exact .bind (checked_unwindsBy _) fun k => .onSlice (ih k)

theorem partitionAtIndexRounds_unwindsBy (ti : TypeInfo T) (limit index : ℕ)
    (ancestor : Option T) : UnwindsBy P (partitionAtIndexRounds ti o limit index ancestor) := by
  induction limit generalizing index ancestor with
  | zero =>
    refine .bind .get fun _ => .ite (sortShort_unwindsBy h) (.bind .get fun _ => .bind .get fun _ => ?_)
    exact .ite (medianOfMediansLoop_unwindsBy h ti _ index) (.exit nofun)
  | succ limit ih =>
    refine .bind .get fun v => .ite (sortShort_unwindsBy h) ?_
    refine .bind (choosePivot_unwindsBy h) fun pos => .bind (.at? v pos) fun pivot => ?_
    refine .bind (equalsAncestor_unwindsBy h ancestor pivot) fun _ => .ite ?_ ?_
    · refine .bind (partition_unwindsBy h.notGreater ti pos) fun _ => .ite (.pure _) ?_
      exact .bind (checked_unwindsBy _) fun _ => .onSlice (ih _ _)
    · refine .bind (partition_unwindsBy h ti pos) fun _ => .bind (.read _) fun _ => .ite ?_ ?_
      · refine .bind (checked_unwindsBy _) fun _ => .bind (checked_unwindsBy _) fun _ => ?_
        exact .onSlice (ih _ _)
      · exact .ite (.onSlice (ih _ _)) (.pure _)

theorem partitionAtIndex_unwindsBy (ti : TypeInfo T) (index : ℕ) :
    UnwindsBy P (partitionAtIndex ti o index) := by
  refine .bind .get fun v => .ite (.exit nofun) (.bind ?_ fun _ => ?_)
  · exact .ite (.pure _) (.ite (placeMax_unwindsBy h index) (.ite (placeMin_unwindsBy h index)
      (partitionAtIndexRounds_unwindsBy h ti 16 index none)))
  · exact .bind (.read index) fun _ => .bind .get fun _ => .pure _

end Unwinds

/-- For every callback the call ends with a permutation, by a return unless the callback
panics. With a strict weak order the element at `index` is the one that sorting puts there,
none before it is greater and none behind it is less. -/
theorem partitionAtIndex_correct (ti : TypeInfo T) (o : Oracle σ T) (v : Slice T) {index : ℕ}
    (hindex : index < v.elems.length) (st : σ) :
    (∃ r v' st', partitionAtIndex ti o index v.elems st = (r, v', st') ∧ v'.Perm v.elems ∧
      ((∃ parts, r = .ok parts ∧ Returned index parts v') ∨
        r = .error (.unwind .isLess) ∧ ∃ st a b, (o st a b).1 = none)) ∧
    ∀ f : T → T → Bool, IsStrictWeakOrder T (fun a b => f a b = true) → Answers o f →
      ∃ left pivot right st',
        partitionAtIndex ti o index v.elems st =
          (.ok (left, pivot, right), left++pivot::right, st') ∧
        left.length = index ∧ (left++pivot::right).Perm v.elems ∧
        (∀ x ∈ left, f pivot x = false) ∧ (∀ x ∈ right, f x pivot = false) ∧
        ∀ w, w.Perm v.elems → Sorted f w → ∃ y, w[index]? = some y ∧ equiv f pivot y = true := by
  constructor
  · have hsat := partitionAtIndex_sat (L := False) (o := o) (f := fun _ _ => false) False.elim
      False.elim ti hindex v.len_le
    have hends := hsat st
    have hby := partitionAtIndex_unwindsBy (P := fun e => e = .isLess ∧ ∃ st a b, (o st a b).1 = none)
      (fun st a b hn => ⟨rfl, st, a, b, hn⟩) ti index v.elems st
    rcases hr : partitionAtIndex ti o index v.elems st with ⟨r, v', st'⟩
    rw [hr] at hends hby
    rcases r with (e | _ | _ | _) | parts
    · obtain ⟨rfl, hnone⟩ := hby e v' st' rfl
      exact ⟨_, v', st', rfl, hends.2, .inr ⟨rfl, hnone⟩⟩
    · exact hends.elim
    · exact hends.elim
    · exact hends.elim
    · exact ⟨_, v', st', rfl, hends.2.1, .inl ⟨parts, rfl, hends.1⟩⟩
  · intro f hf ho
    have hsat := partitionAtIndex_sat (L := True) (fun _ => ho) (fun _ => hf) ti hindex v.len_le
    obtain ⟨⟨left, pivot, right⟩, v', st', hr, ⟨hv', hlen⟩, hperm, haround⟩ :=
      hsat.returns trivial st
    dsimp only at hv' hlen haround
    subst hv'
    have hsel : SelectedAt f index (left++pivot::right) :=
      ⟨left, pivot, right, rfl, hlen, haround trivial⟩
    refine ⟨left, pivot, right, st', hr, hlen, hperm, (haround trivial).1, (haround trivial).2, ?_⟩
    intro w hw hsorted
    have hi : index < w.length := by rwa [hw.length_eq]
    refine ⟨w[index], List.getElem?_eq_getElem hi, ?_⟩
    exact SelectedAt.equiv hf (hw.trans hperm.symm) hsel (selectedAt_of_sorted hsorted hi)
      (by simp [← hlen]) (List.getElem?_eq_getElem hi)

/-- Twenty numbers in descending order. -/
theorem partitionAtIndex_correct_twenty :
    ∃ left right st',
      partitionAtIndex ⟨8, true, true, by simp⟩
        (fun st (a b : ℕ) => (some (decide (a < b)), st+1)) 7 (List.range 20).reverse 0 =
        (.ok (left, 7, right), left++7::right, st') ∧
      left.length = 7 ∧ (∀ x ∈ left, x ≤ 7) ∧ ∀ x ∈ right, 7 ≤ x := by
  have hf : IsStrictWeakOrder ℕ fun a b => decide (a < b) = true :=
    { irrefl := fun a => by simp
      trans := fun a b c hab hbc => by
        simp only [decide_eq_true_eq] at *
        omega
      incomp_trans := fun a b c hab hbc => by
        simp only [decide_eq_true_eq] at *
        omega }
  have h := partitionAtIndex_correct ⟨8, true, true, by simp⟩
    (fun st (a b : ℕ) => (some (decide (a < b)), st+1))
    ⟨(List.range 20).reverse, by decide⟩ (show 7 < (List.range 20).reverse.length by decide) 0
  obtain ⟨left, pivot, right, st', hr, hlen, -, hl, hg, hsort⟩ :=
    h.2 (fun a b => decide (a < b)) hf fun _ _ _ => rfl
  have hsorted : Sorted (fun a b => decide (a < b)) (List.range 20) :=
    List.pairwise_lt_range.imp fun h => by simpa using h.le
  obtain ⟨y, hy, he⟩ := hsort (List.range 20) (List.reverse_perm _).symm hsorted
  obtain rfl : y = 7 := by simpa using hy.symm
  obtain rfl : pivot = 7 := by
    simp only [equiv_iff, decide_eq_false_iff_not, not_lt] at he
    omega
  exact ⟨left, right, st', hr, hlen, fun x hx => by simpa using hl x hx,
    fun x hx => by simpa using hg x hx⟩

end Select

end RustStd.Sort
