import RustStd.Sort.SmallSort

/-!
# The cyclic partitions of the unstable quicksort

Both partitions move elements around a gap: one element is saved in a temporary,
and some cell of the slice holds a duplicate until the saved element is put there.
The slice with the gap filled is a permutation at every comparison, which is what
the drop guard relies on.
-/

set_option autoImplicit false

namespace RustStd.Sort
open RustStd.Unwind RustStd.WeakOrder

variable {σ T : Type}

namespace Unstable

def dropGap : Option (ℕ × T) → List T → List T
  | none, v => v
  | some (pos, value), v => v.set pos value

def scanLeft (o : Oracle σ T) (pivot : T) (gap : Option (ℕ × T)) (right : ℕ) :
    ℕ → ℕ → SortM σ (List T) ℕ
  | 0, _ => exit .outOfFuel
  | fuel+1, left =>
    if left < right then do
      let x ← read left
      if ← onUnwind (less o x pivot) (dropGap gap) then scanLeft o pivot gap right fuel (left+1)
      else pure left
    else pure left

/-- The loop that moves `right` down until it meets `left` or a smaller element. -/
def scanRight (o : Oracle σ T) (pivot : T) (gap : Option (ℕ × T)) (left : ℕ) :
    ℕ → SortM σ (List T) ℕ
  | 0 => exit .outOfBounds
  | right+1 =>
    if left ≥ right then pure right
    else do
      let y ← read right
      if ← onUnwind (less o y pivot) (dropGap gap) then pure right
      else scanRight o pivot gap left right

/-- The element from the left goes into the gap; the first one is saved instead. -/
def fillGap (gap : Option (ℕ × T)) (x : T) : SortM σ (List T) T :=
  match gap with
  | none => pure x
  | some (pos, value) => do
    write pos x
    return value

def hoareLoop (o : Oracle σ T) (pivot : T) (len : ℕ) :
    ℕ → ℕ → ℕ → Option (ℕ × T) → SortM σ (List T) ℕ
  | 0, _, _, _ => exit .outOfFuel
  | fuel+1, left, right, gap => do
    let left ← scanLeft o pivot gap right (len+1) left
    let right ← scanRight o pivot gap left right
    if left ≥ right then do
      put (dropGap gap (← get))
      return left
    else do
      let value ← fillGap gap (← read left)
      write left (← read right)
      hoareLoop o pivot len fuel (left+1) right (some (right, value))

def partitionHoareBranchyCyclic (o : Oracle σ T) (pivot : T) : SortM σ (List T) ℕ := do
  let len := (← get).length
  if len = 0 then pure 0 else hoareLoop o pivot len (len+1) 0 len none

structure PartitionState where
  right : ℕ
  numLt : ℕ
  gapPos : ℕ

/-- `loop_body`. In the last round `right` points to the saved value. -/
def loopBody (o : Oracle σ T) (pivot gapValue : T) (isDone : Bool) (s : PartitionState) :
    SortM σ (List T) PartitionState := do
  let x ← (if isDone then pure gapValue else read s.right : SortM σ (List T) T)
  let rightIsLt ← onUnwind (less o x pivot) fun v => v.set s.gapPos gapValue
  write s.gapPos (← read s.numLt)
  let x ← (if isDone then pure gapValue else read s.right : SortM σ (List T) T)
  write s.numLt x
  return ⟨s.right+1, s.numLt+rightIsLt.toNat, s.right⟩

def lomutoUnrolled (o : Oracle σ T) (pivot gapValue : T) (unrollLen unrollEnd : ℕ) :
    ℕ → PartitionState → SortM σ (List T) PartitionState
  | 0, _ => exit .outOfFuel
  | fuel+1, s =>
    if s.right < unrollEnd then
      if unrollLen = 2 then do
        let s ← loopBody o pivot gapValue false s
        let s ← loopBody o pivot gapValue false s
        lomutoUnrolled o pivot gapValue unrollLen unrollEnd fuel s
      else do
        let s ← loopBody o pivot gapValue false s
        lomutoUnrolled o pivot gapValue unrollLen unrollEnd fuel s
    else pure s

def lomutoCleanup (o : Oracle σ T) (pivot gapValue : T) (len : ℕ) :
    ℕ → PartitionState → SortM σ (List T) ℕ
  | 0, _ => exit .outOfFuel
  | fuel+1, s => do
    let isDone : Bool := s.right = len
    let s ← loopBody o pivot gapValue isDone s
    if isDone then pure s.numLt else lomutoCleanup o pivot gapValue len fuel s

def partitionLomutoBranchlessCyclic (ti : TypeInfo T) (o : Oracle σ T) (pivot : T) :
    SortM σ (List T) ℕ := do
  let len := (← get).length
  if len = 0 then pure 0
  else do
    let gapValue ← read 0
    let unrollLen := if ti.sizeOf ≤ 16 then 2 else 1
    let s ← lomutoUnrolled o pivot gapValue unrollLen (len-(unrollLen-1)) (len+1) ⟨1, 0, 0⟩
    lomutoCleanup o pivot gapValue len (len+1) s

def instPartition (ti : TypeInfo T) (o : Oracle σ T) (pivot : T) : SortM σ (List T) ℕ :=
  if ti.sizeOf ≤ 96 then partitionLomutoBranchlessCyclic ti o pivot
  else partitionHoareBranchyCyclic o pivot

def partition (ti : TypeInfo T) (o : Oracle σ T) (pivot : ℕ) : SortM σ (List T) ℕ := do
  let len := (← get).length
  if len = 0 then pure 0
  else if pivot ≥ len then exit .abort
  else do
    swap 0 pivot
    let p ← read 0
    let numLt ← onSlice 1 (len-1) (instPartition ti o p)
    if numLt ≥ len then exit .abort
    else do
      swap 0 numLt
      return numLt

def Parted (L : Prop) (p : T → Bool) (v : List T) (n : ℕ) (v' : List T) : Prop :=
  ∃ ls gs, v' = ls ++ gs ∧ n = ls.length ∧ v'.Perm v ∧
    (L → (∀ x ∈ ls, p x = true) ∧ ∀ x ∈ gs, p x = false)

section Lomuto

variable {L : Prop} {o : Oracle σ T} {g : T → T → Bool} (hL : L → Answers o g) {pivot x : T}

/-- The gap is behind the smaller elements `ls` and the others `gs`. -/
structure LomutoInv (L : Prop) (g : T → T → Bool) (pivot gapValue : T) (v₀ : List T)
    (s : PartitionState) (v rest : List T) : Prop where
  lists : ∃ ls gs hole, v = ls ++ gs ++ hole :: rest ∧ s.numLt = ls.length ∧
    s.gapPos = (ls ++ gs).length ∧ (ls ++ gs ++ gapValue :: rest).Perm v₀ ∧
    (L → (∀ y ∈ ls, g y pivot = true) ∧ ∀ y ∈ gs, g y pivot = false)
  right : s.right = s.gapPos+1

theorem exists_rotated (ls gs tail : List T) (hole : T) :
    ∃ y gs', (ls ++ gs ++ hole :: tail)[ls.length]? = some y ∧ gs'.Perm gs ∧
      (ls ++ gs ++ hole :: tail).set (ls ++ gs).length y = ls ++ y :: gs' ++ tail := by
  cases gs with
  | nil => exact ⟨hole, [], by simp, .refl _, by simp⟩
  | cons a gs =>
    refine ⟨a, gs ++ [a], by simp, List.perm_append_singleton a gs, ?_⟩
    rw [List.set_append_right _ _ le_rfl]
    simp

include hL

/-- One round takes the element `x`, which comes from the slice or is the saved one. -/
theorem loopBody_sat {gapValue : T} {isDone : Bool} {s : PartitionState} {v v₀ rest : List T}
    (h : LomutoInv L g pivot gapValue v₀ s v rest)
    (hx : isDone = false ∧ rest.head? = some x ∨ isDone = true ∧ rest = [] ∧ x = gapValue) :
    Sat L (loopBody o pivot gapValue isDone s) v
      (fun s' v' => s'.right = s.right+1 ∧
        (isDone = false → LomutoInv L g pivot gapValue v₀ s' v' rest.tail) ∧
        (isDone = true → Parted L (fun y => g y pivot) v₀ s'.numLt v')) fun v' => v'.Perm v₀ := by
  obtain ⟨ls, gs, hole, rfl, hnum, hgap, hperm, hlaw⟩ := h.lists
  have hright := h.right
  obtain ⟨y, gs', hy, hgs', hset⟩ := exists_rotated ls gs rest hole
  have hread {w : List T} {Q : T → List T → Prop} {E : List T → Prop} (hw : w.length = (ls ++ gs).length+1)
      (hQ : Q x (w ++ rest)) :
      Sat L (if isDone then pure gapValue else read s.right : SortM σ (List T) T) (w ++ rest) Q E := by
    rcases hx with ⟨rfl, hx⟩ | ⟨rfl, -, rfl⟩
    · rw [if_neg (by simp)]
      refine sat_read ?_ hQ
      rw [hright, hgap, ← hw, List.getElem?_append_right le_rfl, Nat.sub_self, ← List.head?_eq_getElem?, hx]
    · rw [if_pos rfl]
      exact sat_pure hQ
  have hsplit : ls ++ gs ++ hole :: rest = ls ++ gs ++ [hole] ++ rest := by simp
  unfold loopBody
  rw [hsplit]
  refine .bind (hread (by simp [Nat.add_assoc]) (.bind (.onUnwind (sat_less hL ?_ fun r hr => ?_))))
  · rw [← hsplit, hgap, List.set_append_right _ _ le_rfl]
    simpa using hperm
  rw [← hsplit, hnum, hgap]
  refine .bind (sat_read hy (.bind (sat_write (by simp) ?_)))
  rw [hset]
  refine .bind (hread (by simp [hgs'.length_eq, Nat.add_assoc]) (.bind (sat_write (by simp) (sat_pure ?_))))
  have hmem : (ls ++ y :: gs' ++ rest).set ls.length x = ls ++ x :: gs' ++ rest := by simp
  rw [hmem]
  obtain ⟨ls₂, gs₂, hcat, hlen, hlaw₂⟩ : ∃ ls₂ gs₂, ls ++ x :: gs' = ls₂ ++ gs₂ ∧
      ls.length+r.toNat = ls₂.length ∧
      (L → (∀ y ∈ ls₂, g y pivot = true) ∧ ∀ y ∈ gs₂, g y pivot = false) := by
    cases r with
    | true =>
      refine ⟨ls ++ [x], gs', by simp, by simp, fun hl => ⟨fun z hz => ?_, fun z hz => ?_⟩⟩
      · rcases List.mem_append.mp hz with hz | hz
        · exact (hlaw hl).1 z hz
        · obtain rfl : z = x := by simpa using hz
          exact (hr hl).symm
      · exact (hlaw hl).2 z (hgs'.subset hz)
    | false =>
      refine ⟨ls, x :: gs', rfl, by simp, fun hl => ⟨(hlaw hl).1, fun z hz => ?_⟩⟩
      rcases List.mem_cons.mp hz with rfl | hz
      · exact (hr hl).symm
      · exact (hlaw hl).2 z (hgs'.subset hz)
  have hperm₂ : (ls₂ ++ gs₂).Perm (ls ++ gs ++ [x]) := by
    rw [← hcat, List.append_assoc]
    refine List.Perm.append_left ls ?_
    exact (List.perm_append_singleton x gs').symm.trans (hgs'.append_right [x])
  rw [hcat]
  refine ⟨rfl, fun hd => ⟨?_, rfl⟩, fun hd => ?_⟩
  · -- the element is still in the slice, and its old place is the gap
    obtain ⟨rest', rfl⟩ : ∃ rest', rest = x :: rest' := by
      rcases hx with ⟨-, hx⟩ | ⟨hd', -⟩
      · exact List.head?_eq_some_iff.mp hx
      · rw [hd] at hd'
        simp at hd'
    refine ⟨ls₂, gs₂, x, rfl, hlen, ?_, ?_, hlaw₂⟩
    · rw [hperm₂.length_eq, hright, hgap, ← List.length_singleton, ← List.length_append]
    · refine List.Perm.trans ?_ hperm
      refine (hperm₂.append_right _).trans ?_
      rw [List.append_assoc (ls ++ gs)]
      exact (List.Perm.swap gapValue x rest').append_left (ls ++ gs)
  · obtain ⟨rfl, rfl⟩ : rest = [] ∧ x = gapValue := by
      rcases hx with ⟨hd', -⟩ | ⟨-, hx⟩
      · rw [hd] at hd'
        simp at hd'
      · exact hx
    rw [List.append_nil]
    exact ⟨ls₂, gs₂, rfl, hlen, hperm₂.trans hperm, hlaw₂⟩

theorem lomutoUnrolled_sat {gapValue : T} {unrollLen unrollEnd : ℕ} {v₀ : List T} (fuel : ℕ)
    {s : PartitionState} {v rest : List T} (h : LomutoInv L g pivot gapValue v₀ s v rest)
    (hlen : s.right+rest.length = v₀.length)
    (hunroll : unrollEnd+(if unrollLen = 2 then 1 else 0) ≤ v₀.length)
    (hfuel : rest.length < fuel) :
    Sat L (lomutoUnrolled o pivot gapValue unrollLen unrollEnd fuel s) v
      (fun s' v' => ∃ rest', LomutoInv L g pivot gapValue v₀ s' v' rest' ∧
        s'.right+rest'.length = v₀.length) fun v' => v'.Perm v₀ := by
  induction fuel generalizing s v rest with
  | zero => lia
  | succ fuel ih =>
    unfold lomutoUnrolled
    by_cases hlt : s.right < unrollEnd
    · rw [if_pos hlt]
      obtain ⟨x, rest, rfl⟩ := List.exists_cons_of_length_pos (show 0 < rest.length by
        split_ifs at hunroll <;> lia)
      rw [List.length_cons] at hlen hfuel
      by_cases h2 : unrollLen = 2
      · rw [if_pos h2] at hunroll ⊢
        obtain ⟨y, rest, rfl⟩ := List.exists_cons_of_length_pos (show 0 < rest.length by lia)
        rw [List.length_cons] at hlen hfuel
        refine (loopBody_sat hL h (.inl ⟨rfl, rfl⟩)).call ?_ fun v' _ h => h
        rintro s₁ v₁ ⟨hr₁, h₁, -⟩
        refine (loopBody_sat hL (h₁ rfl) (.inl ⟨rfl, rfl⟩)).call ?_ fun v' _ h => h
        rintro s₂ v₂ ⟨hr₂, h₂, -⟩
        refine ih (h₂ rfl) ?_ ?_
        · simp only [List.tail_cons]
          lia
        · simp only [List.tail_cons]
          lia
      · rw [if_neg h2] at hunroll ⊢
        refine (loopBody_sat hL h (.inl ⟨rfl, rfl⟩)).call ?_ fun v' _ h => h
        rintro s₁ v₁ ⟨hr₁, h₁, -⟩
        refine ih (h₁ rfl) ?_ ?_
        · simp only [List.tail_cons]
          lia
        · simp only [List.tail_cons]
          lia
    · rw [if_neg hlt]
      exact sat_pure ⟨rest, h, hlen⟩

theorem lomutoCleanup_sat {gapValue : T} {v₀ : List T} (fuel : ℕ) {s : PartitionState}
    {v rest : List T} (h : LomutoInv L g pivot gapValue v₀ s v rest)
    (hlen : s.right+rest.length = v₀.length) (hfuel : rest.length < fuel) :
    Sat L (lomutoCleanup o pivot gapValue v₀.length fuel s) v (Parted L (fun y => g y pivot) v₀)
      fun v' => v'.Perm v₀ := by
  induction fuel generalizing s v rest with
  | zero => lia
  | succ fuel ih =>
    unfold lomutoCleanup
    cases rest with
    | nil =>
      have hd : decide (s.right = v₀.length) = true := by simpa using hlen
      rw [hd]
      refine (loopBody_sat hL h (.inr ⟨rfl, rfl, rfl⟩)).call ?_ fun v' _ h => h
      rintro s' v' ⟨-, -, hparted⟩
      exact sat_pure (hparted rfl)
    | cons x rest =>
      rw [List.length_cons] at hlen hfuel
      have hd : decide (s.right = v₀.length) = false := by simp; lia
      rw [hd]
      refine (loopBody_sat hL h (.inl ⟨rfl, rfl⟩)).call ?_ fun v' _ h => h
      rintro s' v' ⟨hr, hinv, -⟩
      refine ih (hinv rfl) ?_ ?_
      · simp only [List.tail_cons]
        lia
      · simp only [List.tail_cons]
        lia

theorem partitionLomutoBranchlessCyclic_sat (ti : TypeInfo T) (v : List T) :
    Sat L (partitionLomutoBranchlessCyclic ti o pivot) v (Parted L (fun y => g y pivot) v)
      fun v' => v'.Perm v := by
  refine .bind (sat_get ?_)
  cases v with
  | nil => exact sat_pure ⟨[], [], rfl, rfl, .refl _, by simp⟩
  | cons a v =>
    rw [if_neg (by simp)]
    refine .bind (sat_read (x := a) rfl ?_)
    have hstart : LomutoInv L g pivot a (a :: v) ⟨1, 0, 0⟩ (a :: v) v :=
      ⟨⟨[], [], a, rfl, rfl, rfl, .refl _, by simp⟩, rfl⟩
    refine (lomutoUnrolled_sat hL _ hstart ?_ ?_ ?_).call ?_ fun v' _ h => h
    · simp
      lia
    · split_ifs <;> simp_all
    · simp
    · rintro s v' ⟨rest, hinv, hlen⟩
      exact lomutoCleanup_sat hL _ hinv hlen (by simp at hlen ⊢; lia)

end Lomuto

section Hoare

variable {L : Prop} {o : Oracle σ T} {g : T → T → Bool} (hL : L → Answers o g) {pivot : T}

/-- The part `rs` of the slice from `base` on becomes `rs'` when the gap is filled. -/
def Gap (base : ℕ) (gap : Option (ℕ × T)) (rs rs' : List T) : Prop :=
  gap = none ∧ rs = rs' ∨ ∃ a b hole value, gap = some (base+a.length, value) ∧
    rs = a ++ hole :: b ∧ rs' = a ++ value :: b

theorem Gap.drop {base : ℕ} {gap : Option (ℕ × T)} {rs rs' w : List T} (h : Gap base gap rs rs')
    (hw : w.length = base) : dropGap gap (w ++ rs) = w ++ rs' := by
  rcases h with ⟨rfl, rfl⟩ | ⟨a, b, hole, value, rfl, rfl, rfl⟩
  · rfl
  · rw [dropGap, List.set_append_right _ _ (by lia), ← hw, Nat.add_sub_cancel_left]
    simp

theorem Gap.append {base : ℕ} {gap : Option (ℕ × T)} {rs rs' : List T} (w : List T)
    (h : Gap (base+w.length) gap rs rs') : Gap base gap (w ++ rs) (w ++ rs') := by
  rcases h with ⟨rfl, rfl⟩ | ⟨a, b, hole, value, rfl, rfl, rfl⟩
  · exact .inl ⟨rfl, rfl⟩
  · exact .inr ⟨w ++ a, b, hole, value, by simp [Nat.add_assoc], by simp, by simp⟩

theorem fillGap_sat {base : ℕ} {gap : Option (ℕ × T)} {rs rs' w : List T} {x : T}
    {E : List T → Prop} (h : Gap base gap rs rs') (hw : w.length = base) :
    Sat L (fillGap gap x : SortM σ (List T) T) (w ++ rs)
      (fun value v => ∃ rs₂, v = w ++ rs₂ ∧ rs₂.length = rs.length ∧
        (value :: rs₂).Perm (x :: rs')) E := by
  rcases h with ⟨rfl, rfl⟩ | ⟨a, b, hole, value, rfl, rfl, rfl⟩
  · exact sat_pure ⟨rs, rfl, rfl, .refl _⟩
  · refine .bind (sat_write (by simp; lia) (sat_pure ⟨a ++ x :: b, ?_, by simp, ?_⟩))
    · rw [List.set_append_right _ _ (by lia), ← hw, Nat.add_sub_cancel_left]
      simp
    · have h1 : (a ++ x :: b).Perm (x :: (a ++ b)) := List.perm_middle
      have h2 : (a ++ value :: b).Perm (value :: (a ++ b)) := List.perm_middle
      exact ((h1.cons value).trans (.swap x value (a ++ b))).trans (h2.cons x).symm

include hL

theorem scanLeft_sat {gap : Option (ℕ × T)} {rs rs' : List T} (fuel : ℕ) {ls mid : List T}
    (hfuel : mid.length < fuel) (hgap : Gap (ls ++ mid).length gap rs rs')
    (hls : L → ∀ y ∈ ls, g y pivot = true) :
    Sat L (scanLeft o pivot gap (ls ++ mid).length fuel ls.length) (ls ++ mid ++ rs)
      (fun left v => v = ls ++ mid ++ rs ∧ ∃ ls₂ mid₂, ls ++ mid = ls₂ ++ mid₂ ∧
        left = ls₂.length ∧ ls.length ≤ ls₂.length ∧ (L → ∀ y ∈ ls₂, g y pivot = true) ∧
        (L → ∀ y, mid₂.head? = some y → g y pivot = false)) fun v => v = ls ++ mid ++ rs' := by
  induction fuel generalizing ls mid with
  | zero => lia
  | succ fuel ih =>
    unfold scanLeft
    cases mid with
    | nil =>
      rw [if_neg (by simp)]
      exact sat_pure ⟨rfl, ls, [], rfl, rfl, le_rfl, hls, by simp⟩
    | cons x mid =>
      rw [if_pos (by simp)]
      refine .bind (sat_read (x := x) (by simp) (.bind (.onUnwind (sat_less hL ?_ fun r hr => ?_))))
      · exact hgap.drop rfl
      cases r with
      | true =>
        have hcat : ls ++ x :: mid = ls ++ [x] ++ mid := by simp
        rw [hcat] at hgap ⊢
        have := ih (by simpa using hfuel) hgap fun hl y hy => by
          rcases List.mem_append.mp hy with hy | hy
          · exact hls hl y hy
          · obtain rfl : y = x := by simpa using hy
            exact (hr hl).symm
        rw [show (ls ++ [x]).length = ls.length+1 by simp] at this
        refine this.mono ?_ fun v _ h => h
        rintro left v ⟨hv, ls₂, mid₂, hcat₂, hleft, hle, h⟩
        exact ⟨hv, ls₂, mid₂, hcat₂, hleft, by lia, h⟩
      | false =>
        refine sat_pure ⟨rfl, ls, x :: mid, rfl, rfl, le_rfl, hls, fun hl y hy => ?_⟩
        obtain rfl : x = y := by simpa using hy
        exact (hr hl).symm

theorem scanRight_sat {gap : Option (ℕ × T)} {rs rs' ls : List T} {x : T} (mid : List T)
    (hgap : Gap (ls ++ x :: mid).length gap rs rs') :
    Sat L (scanRight o pivot gap ls.length (ls ++ x :: mid).length) (ls ++ x :: mid ++ rs)
      (fun right v => v = ls ++ x :: mid ++ rs ∧ ∃ b, (L → ∀ z ∈ b, g z pivot = false) ∧
        (mid = b ∧ right = ls.length ∨ ∃ a y, mid = a ++ y :: b ∧
          right = (ls ++ x :: a).length ∧ (L → g y pivot = true)))
      fun v => v = ls ++ x :: mid ++ rs' := by
  induction mid using List.reverseRecOn generalizing rs rs' with
  | nil =>
    rw [show (ls ++ [x]).length = ls.length+1 by simp]
    unfold scanRight
    rw [if_pos le_rfl]
    exact sat_pure ⟨rfl, [], by simp, .inl ⟨rfl, rfl⟩⟩
  | append_singleton mid y ih =>
    rw [show (ls ++ x :: (mid ++ [y])).length = (ls ++ x :: mid).length+1 by simp; lia]
    unfold scanRight
    rw [if_neg (by simp)]
    have hcat (w : List T) : ls ++ x :: (mid ++ [y]) ++ w = ls ++ x :: mid ++ ([y] ++ w) := by simp
    refine .bind (sat_read (x := y) ?_ (.bind (.onUnwind (sat_less hL ?_ fun r hr => ?_))))
    · rw [hcat, List.getElem?_append_right le_rfl]
      simp
    · exact hgap.drop rfl
    cases r with
    | true =>
      exact sat_pure ⟨rfl, [], by simp, .inr ⟨mid, y, by simp, rfl, fun hl => (hr hl).symm⟩⟩
    | false =>
      have hgap' : Gap (ls ++ x :: mid).length gap ([y] ++ rs) ([y] ++ rs') := by
        refine Gap.append [y] ?_
        rwa [show (ls ++ x :: mid).length+[y].length = (ls ++ x :: (mid ++ [y])).length by simp; lia]
      rw [hcat, hcat]
      refine (ih hgap').mono ?_ fun v _ h => h
      rintro right v ⟨rfl, b, hb, hcase⟩
      refine ⟨rfl, b ++ [y], fun hl z hz => ?_, ?_⟩
      · rcases List.mem_append.mp hz with hz | hz
        · exact hb hl z hz
        · obtain rfl : z = y := by simpa using hz
          exact (hr hl).symm
      · rcases hcase with ⟨rfl, rfl⟩ | ⟨a, z, rfl, rfl, hz⟩
        · exact .inl ⟨rfl, rfl⟩
        · exact .inr ⟨a, z, by simp, rfl, hz⟩

theorem hoareLoop_sat {v₀ : List T} (fuel : ℕ) (ls mid rs rs' : List T) (gap : Option (ℕ × T))
    (hfuel : mid.length < fuel) (hpos : 0 < (ls ++ mid).length)
    (hgap : Gap (ls ++ mid).length gap rs rs') (hperm : (ls ++ mid ++ rs').Perm v₀)
    (hls : L → ∀ y ∈ ls, g y pivot = true) (hrs : L → ∀ y ∈ rs', g y pivot = false) :
    Sat L (hoareLoop o pivot v₀.length fuel ls.length (ls ++ mid).length gap) (ls ++ mid ++ rs)
      (Parted L (fun y => g y pivot) v₀) fun v => v.Perm v₀ := by
  induction fuel generalizing ls mid rs rs' gap with
  | zero => lia
  | succ fuel ih =>
    have hlen := hperm.length_eq
    simp only [List.length_append] at hlen
    unfold hoareLoop
    refine (scanLeft_sat hL _ (by lia) hgap hls).call ?_ fun v _ h => h ▸ hperm
    rintro left _ ⟨rfl, ls₂, mid₂, hcat, rfl, hle, hls₂, hhead⟩
    have hmid : mid₂.length ≤ mid.length := by
      have := congrArg List.length hcat
      simp only [List.length_append] at this
      lia
    rw [hcat] at hgap hperm hpos ⊢
    cases mid₂ with
    | nil =>
      -- the whole slice is scanned
      rw [List.append_nil] at hgap hperm hpos ⊢
      obtain ⟨n, hn⟩ : ∃ n, ls₂.length = n+1 := ⟨ls₂.length-1, by lia⟩
      have hright : Sat L (scanRight o pivot gap ls₂.length ls₂.length) (ls₂ ++ rs)
          (fun right v => v = ls₂ ++ rs ∧ right ≤ ls₂.length) fun v => v.Perm v₀ := by
        rw [hn]
        unfold scanRight
        rw [if_pos (by lia)]
        exact sat_pure ⟨rfl, by lia⟩
      refine hright.call ?_ fun v _ h => h
      rintro right _ ⟨rfl, hle⟩
      rw [if_pos hle]
      refine .bind (sat_get (.bind (sat_put (sat_pure ?_))))
      rw [hgap.drop rfl]
      exact ⟨ls₂, rs', rfl, rfl, hperm, fun hl => ⟨hls₂ hl, hrs hl⟩⟩
    | cons x mid₂ =>
      refine (scanRight_sat hL mid₂ hgap).call ?_ fun v _ h => h ▸ hperm
      rintro right _ ⟨rfl, b, hb, ⟨rfl, rfl⟩ | ⟨a, y, rfl, rfl, hy⟩⟩
      · rw [if_pos le_rfl]
        refine .bind (sat_get (.bind (sat_put (sat_pure ?_))))
        rw [hgap.drop rfl]
        refine ⟨ls₂, x :: mid₂ ++ rs', by simp, rfl, hperm, fun hl => ⟨hls₂ hl, fun z hz => ?_⟩⟩
        rcases List.mem_append.mp hz with hz | hz
        · rcases List.mem_cons.mp hz with rfl | hz
          · exact hhead hl z rfl
          · exact hb hl z hz
        · exact hrs hl z hz
      · rw [if_neg (by simp)]
        refine .bind (sat_read (x := x) (by simp) ((fillGap_sat hgap rfl).call ?_ fun _ _ h => h))
        rintro value _ ⟨rs₂, rfl, hrl, hvr⟩
        refine .bind (sat_read (x := y) ?_ (.bind (sat_write (by simp) ?_)))
        · rw [show ls₂ ++ x :: (a ++ y :: b) ++ rs₂ = ls₂ ++ x :: a ++ y :: (b ++ rs₂) by simp,
            List.getElem?_append_right le_rfl]
          simp
        have hmem : (ls₂ ++ x :: (a ++ y :: b) ++ rs₂).set ls₂.length y =
            ls₂ ++ [y] ++ a ++ y :: (b ++ rs₂) := by simp
        have hbase : (ls₂ ++ x :: a).length = (ls₂ ++ [y] ++ a).length := by simp
        rw [hmem, hbase]
        have hperm₂ : (ls₂ ++ [y] ++ a ++ value :: (b ++ rs₂)).Perm v₀ := by
          refine List.Perm.trans (perm_of_count fun p => ?_) hperm
          have := hvr.countP_eq p
          simp only [List.countP_cons, List.countP_append, List.countP_nil] at this ⊢
          lia
        have hge (hl : L) (z : T) (hz : z ∈ value :: rs₂) : g z pivot = false := by
          rcases List.mem_cons.mp (hvr.subset hz) with rfl | hz
          · exact hhead hl z rfl
          · exact hrs hl z hz
        have := ih (ls₂ ++ [y]) a (y :: (b ++ rs₂)) (value :: (b ++ rs₂))
          (some ((ls₂ ++ [y] ++ a).length, value))
          (by simp at hmid; lia) (by simp) (.inr ⟨[], b ++ rs₂, y, value, rfl, rfl, rfl⟩) hperm₂
          (fun hl z hz => ?_) fun hl z hz => ?_
        · simpa using this
        · rcases List.mem_append.mp hz with hz | hz
          · exact hls₂ hl z hz
          · obtain rfl : z = y := by simpa using hz
            exact hy hl
        · rcases List.mem_cons.mp hz with rfl | hz
          · exact hge hl z (by simp)
          · rcases List.mem_append.mp hz with hz | hz
            · exact hb hl z hz
            · exact hge hl z (by simp [hz])

theorem partitionHoareBranchyCyclic_sat (v : List T) :
    Sat L (partitionHoareBranchyCyclic o pivot) v (Parted L (fun y => g y pivot) v)
      fun v' => v'.Perm v := by
  refine .bind (sat_get ?_)
  by_cases h0 : v.length = 0
  · rw [if_pos h0]
    obtain rfl := List.length_eq_zero_iff.mp h0
    exact sat_pure ⟨[], [], rfl, rfl, .refl _, by simp⟩
  · rw [if_neg h0]
    have hperm : ([] ++ v ++ []).Perm v := by simp
    have : Sat L (hoareLoop o pivot v.length (v.length+1) 0 v.length none) ([] ++ v ++ []) _ _ :=
      hoareLoop_sat hL (v.length+1) [] v [] [] none (by lia) (Nat.pos_of_ne_zero h0)
        (.inl ⟨rfl, rfl⟩) hperm (by simp) (by simp)
    rwa [List.nil_append, List.append_nil] at this

end Hoare

section Partition

variable {L : Prop} {o : Oracle σ T} {g : T → T → Bool} (hL : L → Answers o g)
include hL

theorem instPartition_sat (ti : TypeInfo T) (pivot : T) (v : List T) :
    Sat L (instPartition ti o pivot) v (Parted L (fun y => g y pivot) v) fun v' => v'.Perm v := by
  unfold instPartition
  by_cases h : ti.sizeOf ≤ 96
  · rw [if_pos h]
    exact partitionLomutoBranchlessCyclic_sat hL ti v
  · rw [if_neg h]
    exact partitionHoareBranchyCyclic_sat hL v

theorem partition_sat (ti : TypeInfo T) {v : List T} {pos : ℕ} {pivot : T}
    (hpivot : v[pos]? = some pivot) :
    Sat L (partition ti o pos) v
      (fun n v' => ∃ ls gs, v' = ls ++ pivot :: gs ∧ n = ls.length ∧ v'.Perm v ∧
        (L → (∀ x ∈ ls, g x pivot = true) ∧ ∀ x ∈ gs, g x pivot = false)) fun v' => v'.Perm v := by
  obtain ⟨hpos, -⟩ := List.getElem?_eq_some_iff.mp hpivot
  obtain ⟨x, hx⟩ : ∃ x, v[0]? = some x := ⟨_, List.getElem?_eq_getElem (by lia)⟩
  have hswap := perm_swap hx hpivot
  refine .bind (sat_get ?_)
  rw [if_neg (by lia), if_neg (by lia)]
  refine .bind (sat_swap hx hpivot ?_)
  -- the pivot is in front now
  obtain ⟨w, hw⟩ : ∃ w, (v.set 0 pivot).set pos x = pivot :: w := by
    obtain ⟨a, v, rfl⟩ := List.exists_cons_of_length_pos (show 0 < v.length by lia)
    obtain rfl : a = x := by simpa using hx
    cases pos with
    | zero =>
      obtain rfl : a = pivot := by simpa using hpivot
      exact ⟨v, rfl⟩
    | succ pos => exact ⟨v.set pos a, rfl⟩
  rw [hw] at hswap ⊢
  have hlen : w.length = v.length-1 := by
    have := hswap.length_eq
    rw [List.length_cons] at this
    lia
  refine .bind (sat_read (x := pivot) rfl ?_)
  refine (Sat.onSlice (p := [pivot]) (w := w) (r := []) (by simp) rfl hlen
    (instPartition_sat hL ti pivot w)).call ?_ ?_
  · rintro n _ ⟨_, rfl, ls, gs, rfl, rfl, hperm, hlaw⟩
    have hpl := hperm.length_eq
    rw [List.length_append] at hpl
    have hperm' : (pivot :: (ls ++ gs)).Perm v := (hperm.cons pivot).trans hswap
    rw [if_neg (by lia), List.append_nil, List.singleton_append]
    rcases List.eq_nil_or_concat ls with rfl | ⟨ls, y, rfl⟩
    · exact .bind (sat_swap (x := pivot) (y := pivot) rfl rfl
        (sat_pure ⟨[], gs, rfl, rfl, hperm', hlaw⟩))
    · rw [List.concat_eq_append] at hperm hperm' hlaw ⊢
      have hget : (pivot :: (ls ++ [y] ++ gs))[(ls ++ [y]).length]? = some y := by simp
      refine .bind (sat_swap (x := pivot) rfl hget (sat_pure ⟨y :: ls, gs, ?_, by simp, ?_, ?_⟩))
      · simp
      · exact (perm_swap rfl hget).trans hperm'
      · intro hl
        refine ⟨fun z hz => (hlaw hl).1 z ?_, (hlaw hl).2⟩
        rcases List.mem_cons.mp hz with rfl | hz
        · simp
        · simp [hz]
  · rintro _ - ⟨w', rfl, hw'⟩
    rw [List.append_nil]
    exact (hw'.cons pivot).trans hswap

end Partition

end Unstable

end RustStd.Sort
