import RustStd.Sort.Heapsort
import RustStd.Sort.Partition
import RustStd.Sort.SmallSortNetwork
import RustStd.Sort.StableSort

/-!
# The unstable sort

The small sort is chosen by the element type. As in the stable quicksort every
round uses up a part of `limit`, and at zero heapsort takes over. At the end both
sorts are compared with the same demand: whatever the callback does, the slice is
a permutation of what it was.
-/

set_option autoImplicit false

namespace RustStd.Sort
open RustStd.Unwind RustStd.WeakOrder

variable {σ T : Type}

namespace Unstable

def smallSortFallback (o : Oracle σ T) : SortM σ (List T) Unit := do
  if (← get).length ≥ 2 then insertionSortShiftLeft o 1

def smallSortGeneral (ti : TypeInfo T) (uninit : Uninit T) (o : Oracle σ T) :
    SortM σ (List T) Unit :=
  smallSortGeneralWithScratch ti o (uninit.cells 48)

inductive SmallSort
  | fallback
  | general
  | network
  deriving DecidableEq, Repr

/-- The specialised implementation for the type. -/
def smallSortImpl (ti : TypeInfo T) : SmallSort :=
  if ti.isFreeze then
    if ti.isCopy ∧ ti.sizeOf ≤ 8 ∧ ti.sizeOf*32 ≤ 4096 then .network
    else if ti.sizeOf*48 ≤ 4096 then .general
    else .fallback
  else .fallback

def smallSortThreshold (ti : TypeInfo T) : ℕ :=
  match smallSortImpl ti with
  | .fallback => 16
  | .general => 32
  | .network => 32

def smallSort (ti : TypeInfo T) (uninit : Uninit T) (o : Oracle σ T) : SortM σ (List T) Unit :=
  match smallSortImpl ti with
  | .fallback => smallSortFallback o
  | .general => smallSortGeneral ti uninit o
  | .network => smallSortNetwork uninit o

def quicksort (ti : TypeInfo T) (uninit : Uninit T) (o : Oracle σ T) :
    ℕ → Option T → SortM σ (List T) Unit
  | 0, _ => do
    if (← get).length ≤ smallSortThreshold ti then smallSort ti uninit o
    else heapsort o
  | limit+1, ancestorPivot => do
    let v ← get
    let len := v.length
    if len ≤ smallSortThreshold ti then smallSort ti uninit o
    else do
      let pivotPos ← choosePivot o v
      let pivot ← at? v pivotPos
      if ← equalsAncestor o ancestorPivot pivot then do
        let numLt ← partition ti (notGreater o) pivotPos
        onSlice (numLt+1) (len-(numLt+1)) (quicksort ti uninit o limit none)
      else do
        let numLt ← partition ti o pivotPos
        let pivot ← read numLt
        onSlice 0 numLt (quicksort ti uninit o limit ancestorPivot)
        onSlice (numLt+1) (len-(numLt+1)) (quicksort ti uninit o limit (some pivot))

def ipnsort (ti : TypeInfo T) (uninit : Uninit T) (o : Oracle σ T) : SortM σ (List T) Unit := do
  let v ← get
  let len := v.length
  let (runLen, wasReversed) ← findExistingRun o v
  if runLen = len then put (if wasReversed then v.reverse else v)
  else
    let limit := 2*(len ||| 1).log2
    quicksort ti uninit o limit none

def sort (ti : TypeInfo T) (uninit : Uninit T) (o : Oracle σ T) : SortM σ (List T) Unit :=
  if ti.sizeOf = 0 then pure ()
  else do
    let len := (← get).length
    if len < 2 then pure ()
    else if len ≤ 20 then insertionSortShiftLeft o 1
    else ipnsort ti uninit o

section Specs

variable {L : Prop} {o : Oracle σ T} {f : T → T → Bool} (hL : L → Answers o f) (hf : L → Weak f)
  (ti : TypeInfo T) (uninit : Uninit T)
include hL hf

theorem insertionSort_sat {v : List T} (hv : 2 ≤ v.length) :
    Sat L (insertionSortShiftLeft o 1) v (fun _ v' => SortedPerm L f v v') fun v' => v'.Perm v := by
  refine (insertionSortShiftLeft_sat hL hf (by omega) (by omega) fun _ => ?_).mono
    (fun _ _ h => h.sortedPerm) fun _ _ h => h
  obtain ⟨x, v, rfl⟩ := List.exists_cons_of_length_pos (show 0 < v.length by omega)
  exact List.pairwise_singleton _ _

theorem smallSort_sat {v : List T} (hv : v.length ≤ smallSortThreshold ti) :
    Sat L (smallSort ti uninit o) v (fun _ v' => SortedPerm L f v v') fun v' => v'.Perm v := by
  unfold smallSortThreshold at hv
  unfold smallSort
  cases himpl : smallSortImpl ti with
  | fallback =>
    refine .bind (sat_get ?_)
    by_cases h2 : v.length ≥ 2
    · rw [if_pos h2]
      exact insertionSort_sat hL hf h2
    · rw [if_neg h2]
      exact sat_pure (sortOf_short (by omega)).sortedPerm
  | general =>
    rw [himpl] at hv
    cases v with
    | nil =>
      refine .bind (sat_get ?_)
      exact sat_pure (sortOf_short (by simp)).sortedPerm
    | cons x v =>
      refine (smallSortGeneralWithScratch_sat hL hf ti ?_).mono (fun _ _ h => h.sortedPerm)
        fun _ _ h => h
      rw [uninit.length_cells ⟨x⟩]
      simp only at hv
      omega
  | network =>
    rw [himpl] at hv
    exact smallSortNetwork_sat hL hf uninit hv

omit hL in
theorem sortedPerm_parts {v ls gs ls' gs' : List T} {pivot : T}
    (hperm : (ls ++ pivot :: gs).Perm v)
    (hlaw : L → (∀ x ∈ ls, f pivot x = false) ∧ ∀ x ∈ gs, f x pivot = false)
    (hl : SortedPerm L f ls ls') (hg : SortedPerm L f gs gs') :
    SortedPerm L f v (ls' ++ pivot :: gs') := by
  refine ⟨(hl.1.append (hg.1.cons pivot)).trans hperm, fun hlw => ?_⟩
  have hle (x : T) (hx : x ∈ ls') : f pivot x = false := (hlaw hlw).1 x (hl.1.subset hx)
  have hge (x : T) (hx : x ∈ gs') : f x pivot = false := (hlaw hlw).2 x (hg.1.subset hx)
  refine sorted_append.mpr ⟨hl.2 hlw, sorted_cons.mpr ⟨hge, hg.2 hlw⟩, fun a ha b hb => ?_⟩
  rcases List.mem_cons.mp hb with rfl | hb
  · exact hle a ha
  · exact (hf hlw).le_trans (hle a ha) (hge b hb)

theorem quicksort_sat (limit : ℕ) (ancestor : Option T) {v : List T}
    (hanc : L → ∀ p, ancestor = some p → ∀ x ∈ v, f x p = false) :
    Sat L (quicksort ti uninit o limit ancestor) v (fun _ v' => SortedPerm L f v v')
      fun v' => v'.Perm v := by
  induction limit generalizing ancestor v with
  | zero =>
    refine .bind (sat_get ?_)
    by_cases hsmall : v.length ≤ smallSortThreshold ti
    · rw [if_pos hsmall]
      exact smallSort_sat hL hf ti uninit hsmall
    · rw [if_neg hsmall]
      exact heapsort_sat hL hf v
  | succ limit ih =>
    refine .bind (sat_get ?_)
    by_cases hsmall : v.length ≤ smallSortThreshold ti
    · rw [if_pos hsmall]
      exact smallSort_sat hL hf ti uninit hsmall
    rw [if_neg hsmall]
    have hlen : 8 ≤ v.length := by
      unfold smallSortThreshold at hsmall
      cases himpl : smallSortImpl ti <;> simp only [himpl] at hsmall <;> omega
    have hkeep (v' : List T) (_ : ¬ L) (h : v' = v) : v'.Perm v := h ▸ .refl v
    refine (choosePivot_sat hL hlen).call ?_ hkeep
    rintro pivotPos v ⟨rfl, hpos⟩
    obtain ⟨pivot, hpivot⟩ : ∃ p, v[pivotPos]? = some p := ⟨_, List.getElem?_eq_getElem hpos⟩
    refine .bind (sat_at hpivot ((equalsAncestor_sat hL).call ?_ hkeep))
    rintro equal v ⟨rfl, hequal⟩
    cases equal with
    | true =>
      -- the pivot is minimal, so the left part consists of elements equal to it
      rw [if_pos rfl]
      refine (partition_sat (fun hl => (hL hl).notGreater) ti hpivot).call ?_ fun _ _ h => h
      rintro n _ ⟨ls, gs, rfl, rfl, hperm, hlaw⟩
      have hlens := hperm.length_eq
      rw [List.length_append, List.length_cons] at hlens
      have hmin : L → ∀ x ∈ ls ++ pivot :: gs, f x pivot = false := by
        intro hl x hx
        obtain ⟨p, hp, hpp⟩ := hequal rfl hl
        exact (hf hl).le_trans hpp (hanc hl p hp x (hperm.subset hx))
      have hls : SortedPerm L f ls ls := by
        refine ⟨.refl ls, fun hl => List.pairwise_of_forall_mem_list fun a ha b hb => ?_⟩
        have hap : f pivot a = false := by simpa using (hlaw hl).1 a ha
        exact (hf hl).le_trans hap (hmin hl b (by simp [hb]))
      refine (Sat.onSlice (p := ls ++ [pivot]) (w := gs) (r := []) (by simp) (by simp) (by omega)
        (ih none (by simp))).mono ?_ ?_
      · rintro ⟨⟩ _ ⟨gs', rfl, hgs'⟩
        rw [List.append_nil, List.append_assoc, List.singleton_append]
        refine sortedPerm_parts hf hperm (fun hl => ⟨fun x hx => ?_, fun x hx => ?_⟩) hls hgs'
        · simpa using (hlaw hl).1 x hx
        · exact hmin hl x (by simp [hx])
      · rintro _ - ⟨gs', rfl, hgs'⟩
        rw [List.append_nil, List.append_assoc, List.singleton_append]
        exact ((hgs'.cons pivot).append_left ls).trans hperm
    | false =>
      rw [if_neg (by simp)]
      refine (partition_sat hL ti hpivot).call ?_ fun _ _ h => h
      rintro n _ ⟨ls, gs, rfl, rfl, hperm, hlaw⟩
      have hlens := hperm.length_eq
      rw [List.length_append, List.length_cons] at hlens
      refine .bind (sat_read (x := pivot) (by simp) ?_)
      refine (Sat.onSlice (p := []) (w := ls) (r := pivot :: gs) (by simp) rfl rfl
        (ih ancestor fun hl p hp x hx => hanc hl p hp x (hperm.subset (by simp [hx])))).call ?_ ?_
      · rintro ⟨⟩ _ ⟨ls', rfl, hls'⟩
        refine (Sat.onSlice (p := ls' ++ [pivot]) (w := gs) (r := []) (by simp)
          (by simp [hls'.length]) (by omega)
          (ih (some pivot) fun hl p hp x hx => ?_)).mono ?_ ?_
        · obtain rfl := Option.some.inj hp
          exact (hlaw hl).2 x hx
        · rintro ⟨⟩ _ ⟨gs', rfl, hgs'⟩
          rw [List.append_nil, List.append_assoc, List.singleton_append]
          refine sortedPerm_parts hf hperm (fun hl => ⟨fun x hx => ?_, (hlaw hl).2⟩) hls' hgs'
          exact (hf hl).asymm ((hlaw hl).1 x hx)
        · rintro _ - ⟨gs', rfl, hgs'⟩
          rw [List.append_nil, List.append_assoc, List.singleton_append]
          exact (hls'.1.append (hgs'.cons pivot)).trans hperm
      · rintro _ - ⟨ls', rfl, hls'⟩
        exact (hls'.append_right _).trans hperm

theorem ipnsort_sat (v : List T) :
    Sat L (ipnsort ti uninit o) v (fun _ v' => SortedPerm L f v v') fun v' => v'.Perm v := by
  refine .bind (sat_get ((findExistingRun_sat hL).call ?_ fun _ _ h => h ▸ .refl v))
  rintro ⟨n, rev⟩ v ⟨rfl, hn, -, hrun⟩
  dsimp only at hn hrun ⊢
  by_cases hall : n = v.length
  · rw [if_pos hall]
    have := hrun.sortOf hf
    rw [hall, List.take_length] at this
    exact sat_put this.sortedPerm
  · rw [if_neg hall]
    exact quicksort_sat hL hf ti uninit _ none (by simp)

theorem sort_sat (v : List T) :
    Sat L (sort ti uninit o) v (fun _ v' => SortedPerm L f v v') fun v' => v'.Perm v := by
  unfold sort
  by_cases hz : ti.sizeOf = 0
  · rw [if_pos hz]
    have := ti.subsingleton_of_zst hz
    refine sat_pure ⟨.refl v, fun hl => List.pairwise_of_forall fun a b => ?_⟩
    rw [Subsingleton.elim b a]
    exact (hf hl).irrefl a
  rw [if_neg hz]
  refine .bind (sat_get ?_)
  by_cases h2 : v.length < 2
  · rw [if_pos h2]
    exact sat_pure (sortOf_short h2).sortedPerm
  rw [if_neg h2]
  by_cases h20 : v.length ≤ 20
  · rw [if_pos h20]
    exact insertionSort_sat hL hf (by omega)
  · rw [if_neg h20]
    exact ipnsort_sat hL hf ti uninit v

end Specs

/-- With a strict weak order the sort returns, so it does not abort, and leaves a
sorted permutation of its input. -/
theorem unstableSort_correct (ti : TypeInfo T) (uninit : Uninit T) {f : T → T → Bool}
    (hf : IsStrictWeakOrder T fun a b => f a b = true) {o : Oracle σ T} (ho : Answers o f)
    (v : List T) (st : σ) :
    ∃ v' st', sort ti uninit o v st = (.ok (), v', st') ∧ Sorted f v' ∧ v'.Perm v := by
  have hsat : Sat True (sort ti uninit o) v (fun _ v' => SortedPerm True f v v')
      fun v' => v'.Perm v := sort_sat (fun _ => ho) (fun _ => hf) ti uninit v
  obtain ⟨⟨⟩, v', st', hrun, hperm, hlaw⟩ := hsat.returns trivial st
  exact ⟨v', st', hrun, hlaw trivial, hperm⟩

theorem unstableSort_correct_pairs :
    ∃ v' st', sort ⟨16, true, true, by simp⟩ ⟨fun n => .replicate n (0, 0), by simp⟩
        (fun st (a b : ℕ × ℕ) => (some (decide (a.1 < b.1)), st+1))
        [(2, 0), (1, 1), (2, 2), (1, 3)] 0 = (.ok (), v', st') ∧
      Sorted (fun a b : ℕ × ℕ => decide (a.1 < b.1)) v' ∧
      v'.Perm [(2, 0), (1, 1), (2, 2), (1, 3)] := by
  have hf : IsStrictWeakOrder (ℕ × ℕ) fun a b => decide (a.1 < b.1) = true :=
    { irrefl := fun a => by simp
      trans := fun a b c hab hbc => by
        simp only [decide_eq_true_eq] at *
        omega
      incomp_trans := fun a b c hab hbc => by
        simp only [decide_eq_true_eq] at *
        omega }
  exact unstableSort_correct _ _ hf (fun _ _ _ => rfl) _ _

end Unstable

/-- A computation on a slice that ends by a return or by one of the two panics,
with a permutation of the slice. -/
def PanicSafe (m : SortM σ (List T) Unit) : Prop :=
  ∀ v st, ∃ r v' st', m v st = (r, v', st') ∧ v'.Perm v ∧
    (r = .ok () ∨ r = .error (.unwind .isLess) ∨ r = .error (.unwind .ordViolation))

theorem panicSafe_of_sat {m : SortM σ (List T) Unit}
    (h : ∀ v, Sat False m v (fun _ v' => v'.Perm v) fun v' => v'.Perm v) : PanicSafe m := by
  intro v st
  obtain ⟨r, v', st', hrun, hr, hperm⟩ := (h v).ends st
  refine ⟨r, v', st', hrun, hperm, ?_⟩
  rcases hr with ⟨⟨⟩, rfl⟩ | ⟨e, rfl⟩
  · exact .inl rfl
  · cases e with
    | isLess => exact .inr (.inl rfl)
    | ordViolation => exact .inr (.inr rfl)

/-- No law is assumed of the callback. -/
theorem sorts_panicSafe (ti : TypeInfo T) (uninit : Uninit T) (buf : BufGuard T)
    (o : Oracle σ T) :
    PanicSafe (Stable.sort ti uninit buf o) ∧ PanicSafe (Unstable.sort ti uninit o) := by
  have hL : False → Answers o fun _ _ => false := False.elim
  have hf : False → Weak (fun _ _ : T => false) := False.elim
  constructor
  · refine panicSafe_of_sat fun v => ?_
    exact (Stable.sort_sat hL hf ti uninit buf v).mono (fun _ _ h => h.1) fun _ _ h => h
  · refine panicSafe_of_sat fun v => ?_
    exact (Unstable.sort_sat hL hf ti uninit v).mono (fun _ _ h => h.1) fun _ _ h => h

end RustStd.Sort
