import RustStd.Sort.StableQuicksort
import RustStd.Sort.Merge

/-!
# Driftsort

The slice is cut into runs, some of them sorted only logically, and the runs are
merged in the order that the powersort heuristic asks for. The stack of runs
has 66 places: above the first entry the depths grow strictly and are at most 64.
-/

set_option autoImplicit false

namespace RustStd.Sort
open RustStd.Unwind RustStd.WeakOrder

variable {σ T : Type}

structure DriftsortRun where
  bits : ℕ

namespace DriftsortRun

def newSorted (length : ℕ) : DriftsortRun := ⟨(length <<< 1) ||| 1⟩

def newUnsorted (length : ℕ) : DriftsortRun := ⟨length <<< 1⟩

def sorted (r : DriftsortRun) : Bool := r.bits &&& 1 == 1

def len (r : DriftsortRun) : ℕ := r.bits >>> 1

theorem newSorted_bits (n : ℕ) : (newSorted n).bits = 2*n+1 := by
  have := Nat.two_pow_add_eq_or_of_lt (i := 1) (b := 1) (by lia) n
  rw [newSorted, Nat.shiftLeft_eq, Nat.mul_comm, ← this]

@[simp] theorem sorted_newSorted (n : ℕ) : (newSorted n).sorted = true := by
  rw [sorted, newSorted_bits, Nat.and_one_is_mod, Nat.mul_add_mod]
  rfl

@[simp] theorem len_newSorted (n : ℕ) : (newSorted n).len = n := by
  rw [len, newSorted_bits, Nat.shiftRight_eq_div_pow]
  lia

@[simp] theorem sorted_newUnsorted (n : ℕ) : (newUnsorted n).sorted = false := by
  rw [sorted, newUnsorted, Nat.shiftLeft_eq, Nat.and_one_is_mod, Nat.pow_one, Nat.mul_mod_left]
  rfl

@[simp] theorem len_newUnsorted (n : ℕ) : (newUnsorted n).len = n := by
  rw [len, newUnsorted, Nat.shiftLeft_eq, Nat.shiftRight_eq_div_pow]
  exact Nat.mul_div_cancel n (by lia)

end DriftsortRun

namespace Drift

def mergeTreeScaleFactor (n : ℕ) : ℕ := (2^62+n-1)/n

/-- The products are taken in `u64`. -/
def mergeTreeDepth (left mid right scaleFactor : ℕ) : ℕ :=
  let x := left+mid
  let y := mid+right
  64-((scaleFactor*x)%2^64 ^^^ (scaleFactor*y)%2^64).size

def sqrtApprox (n : ℕ) : ℕ :=
  let ilog := (n ||| 1).log2
  let shift := (ilog+1)/2
  ((1 <<< shift)+(n >>> shift))/2

def minGoodRunLen (len : ℕ) : ℕ :=
  if len ≤ 64*64 then min (len-len/2) 64 else sqrtApprox len

section Code

variable (ti : TypeInfo T) (o : Oracle σ T) (scratch : List T) (fallback : SortM σ (List T) Unit)

def stableQuicksort : SortM σ (List T) Unit := do
  let limit := 2*((← get).length ||| 1).log2
  Stable.quicksort ti o scratch fallback limit none

def createRun (minGoodRunLen : ℕ) (eagerSort : Bool) : SortM σ (List T) DriftsortRun := do
  let v ← get
  let len := v.length
  let (runLen, wasReversed) ←
    (if len ≥ minGoodRunLen then findExistingRun o v else pure (0, false) :
      SortM σ (List T) (ℕ × Bool))
  if len ≥ minGoodRunLen ∧ runLen ≥ minGoodRunLen then do
    put (if wasReversed then (v.take runLen).reverse ++ v.drop runLen else v)
    return .newSorted runLen
  else if eagerSort then do
    let eagerRunLen := min (Stable.smallSortThreshold ti) len
    onSlice 0 eagerRunLen (Stable.quicksort ti o scratch fallback 0 none)
    return .newSorted eagerRunLen
  else return .newUnsorted (min minGoodRunLen len)

def sortRun (a : ℕ) (r : DriftsortRun) : SortM σ (List T) Unit :=
  if r.sorted then pure () else onSlice a r.len (stableQuicksort ti o scratch fallback)

def logicalMerge (left right : DriftsortRun) : SortM σ (List T) DriftsortRun := do
  let len := (← get).length
  let canFitInScratch : Bool := len ≤ scratch.length
  if !canFitInScratch || left.sorted || right.sorted then do
    sortRun ti o scratch fallback 0 left
    sortRun ti o scratch fallback left.len right
    merge o scratch.length left.len
    return .newSorted len
  else return .newUnsorted len

/-- The merge nodes that want to be at least as deep as the next one. The top
of the stack is the head of the list. -/
def collapse (scanIdx desiredDepth : ℕ) :
    List (DriftsortRun × ℕ) → DriftsortRun →
      SortM σ (List T) (List (DriftsortRun × ℕ) × DriftsortRun)
  | [], prev => pure ([], prev)
  | (left, depth) :: stack, prev =>
    if stack.length+1 > 1 ∧ depth ≥ desiredDepth then do
      let mergedLen := left.len+prev.len
      let prev ← onSlice (scanIdx-mergedLen) mergedLen
        (logicalMerge ti o scratch fallback left prev)
      collapse scanIdx desiredDepth stack prev
    else pure ((left, depth) :: stack, prev)

def nextRun (eagerSort : Bool) (scanIdx : ℕ) (prev : DriftsortRun) :
    SortM σ (List T) (DriftsortRun × ℕ) := do
  let len := (← get).length
  if scanIdx < len then do
    let next ← onSlice scanIdx (len-scanIdx)
      (createRun ti o scratch fallback (minGoodRunLen len) eagerSort)
    return (next, mergeTreeDepth (scanIdx-prev.len) scanIdx (scanIdx+next.len)
      (mergeTreeScaleFactor len))
  else return (.newSorted 0, 0)

/-- The main loop, which returns the last `prev_run`. -/
def sortLoop (eagerSort : Bool) :
    ℕ → ℕ → List (DriftsortRun × ℕ) → DriftsortRun → SortM σ (List T) DriftsortRun
  | 0, _, _, _ => exit .outOfFuel
  | fuel+1, scanIdx, stack, prev => do
    let (next, desiredDepth) ← nextRun ti o scratch fallback eagerSort scanIdx prev
    let (stack, prev) ← collapse ti o scratch fallback scanIdx desiredDepth stack prev
    if stack.length ≥ 66 then exit .outOfBounds
    else if scanIdx ≥ (← get).length then pure prev
    else sortLoop eagerSort fuel (scanIdx+next.len) ((prev, desiredDepth) :: stack) next

def sortWith (eagerSort : Bool) : SortM σ (List T) Unit := do
  let len := (← get).length
  if len < 2 then pure ()
  else do
    let prev ← sortLoop ti o scratch fallback eagerSort (len+1) 0 [] (.newSorted 0)
    if prev.sorted then pure () else stableQuicksort ti o scratch fallback

/-- `drift::sort` and `quicksort` call each other, to a depth of two. -/
def sort : ℕ → Bool → SortM σ (List T) Unit
  | 0, _ => exit .outOfFuel
  | depth+1, eagerSort => sortWith ti o scratch (sort depth true) eagerSort

end Code

theorem sqrtApprox_bounds {n : ℕ} (hn : 4096 < n) : 1 ≤ sqrtApprox n ∧ sqrtApprox n ≤ n-n/2 := by
  have hle : n ≤ n ||| 1 := Nat.left_le_or
  have hhalf : (n ||| 1)/2 = n/2 := by
    have : (n ||| 1) >>> 1 = n >>> 1 ||| 1 >>> 1 := Nat.shiftRight_or_distrib
    simpa [Nat.shiftRight_eq_div_pow] using this
  have hlog : 12 ≤ (n ||| 1).log2 := (Nat.le_log2 (by lia)).mpr (by lia)
  have hpow : 2^(n ||| 1).log2 ≤ n ||| 1 := Nat.log2_self_le (by lia)
  show 1 ≤ ((1 <<< (((n ||| 1).log2+1)/2))+(n >>> (((n ||| 1).log2+1)/2)))/2 ∧
    ((1 <<< (((n ||| 1).log2+1)/2))+(n >>> (((n ||| 1).log2+1)/2)))/2 ≤ n-n/2
  generalize (n ||| 1).log2 = k at hlog hpow ⊢
  have h6 : 2^6 ≤ 2^((k+1)/2) := Nat.pow_le_pow_right (by lia) (by lia)
  have h5 : 2^((k+1)/2)*2^5 ≤ 2^k := by
    rw [← Nat.pow_add]
    exact Nat.pow_le_pow_right (by lia) (by lia)
  have hshift : n >>> ((k+1)/2) ≤ n/2^6 := by
    rw [Nat.shiftRight_eq_div_pow]
    exact Nat.div_le_div_left h6 (by lia)
  rw [Nat.one_shiftLeft]
  generalize n >>> ((k+1)/2) = q at hshift ⊢
  generalize 2^((k+1)/2) = a at h5 h6 ⊢
  lia

theorem minGoodRunLen_bounds {len : ℕ} (h : 2 ≤ len) :
    1 ≤ minGoodRunLen len ∧ minGoodRunLen len ≤ len-len/2 := by
  unfold minGoodRunLen
  by_cases hle : len ≤ 64*64
  · rw [if_pos hle]
    lia
  · rw [if_neg hle]
    exact sqrtApprox_bounds (by lia)

theorem mergeTreeDepth_le (left mid right scaleFactor : ℕ) :
    mergeTreeDepth left mid right scaleFactor ≤ 64 :=
  Nat.sub_le _ _

/-- A run with the part of the slice it stands for. Only a sort that is not eager
has unsorted runs. -/
structure IsRun (L : Prop) (f : T → T → Bool) (scratchLen : ℕ) (eagerSort : Bool) (r : DriftsortRun)
    (w : List T) : Prop where
  length : w.length = r.len
  sorted : r.sorted = true → L → Sorted f w
  unsorted : r.sorted = false → w.length ≤ scratchLen ∧ eagerSort = false

def Moved (L : Prop) (f : T → T → Bool) (v v' : List T) : Prop :=
  v'.Perm v ∧ (L → Stable f v v')

theorem Moved.refl {L : Prop} {f : T → T → Bool} (v : List T) : Moved L f v v :=
  ⟨.refl v, fun _ => Stable.refl v⟩

theorem Moved.trans {L : Prop} {f : T → T → Bool} {v v' v'' : List T} (h : Moved L f v v')
    (h' : Moved L f v' v'') : Moved L f v v'' :=
  ⟨h'.1.trans h.1, fun hl => (h.2 hl).trans (h'.2 hl)⟩

theorem Moved.append {L : Prop} {f : T → T → Bool} {v v' w w' : List T} (h : Moved L f v v')
    (h' : Moved L f w w') : Moved L f (v ++ w) (v' ++ w') :=
  ⟨h.1.append h'.1, fun hl => (h.2 hl).append (h'.2 hl)⟩

theorem SortOf.moved {L : Prop} {f : T → T → Bool} {v v' : List T} (h : SortOf L f v v') :
    Moved L f v v' :=
  ⟨h.1, fun hl => (h.2 hl).2⟩

/-- The runs `l` of the stack, the top first, with their parts of the slice. -/
structure IsStack (L : Prop) (f : T → T → Bool) (scratchLen : ℕ) (eagerSort : Bool)
    (l : List (DriftsortRun × ℕ)) (ws : List (List T)) : Prop where
  runs : List.Forall₂ (fun e w => IsRun L f scratchLen eagerSort e.1 w) l ws
  deeper : l.Pairwise fun e e' => e'.2 < e.2

theorem depths_length {l : List (DriftsortRun × ℕ)} {n : ℕ} (h : l.Pairwise fun e e' => e'.2 < e.2)
    (hn : ∀ e ∈ l, e.2 < n) : l.length ≤ n := by
  induction l generalizing n with
  | nil => exact Nat.zero_le n
  | cons e l ih =>
    obtain ⟨he, hl⟩ := List.pairwise_cons.mp h
    have hlen := ih hl he
    have := hn e (by simp)
    simp only [List.length_cons]
    lia

section Specs

variable {L : Prop} {o : Oracle σ T} {f : T → T → Bool} (hL : L → Answers o f) (hf : L → Weak f)
  (ti : TypeInfo T) {scratch : List T} (hscr : 48 ≤ scratch.length)
  {fallback : SortM σ (List T) Unit} {eagerSort : Bool}
include hL hf hscr

theorem createRun_sat {v : List T} {minGood : ℕ} (hv : v ≠ []) (hmin : 1 ≤ minGood)
    (hfit : minGood ≤ scratch.length) :
    Sat L (createRun ti o scratch fallback minGood eagerSort) v
      (fun r v' => ∃ w rest, v' = w ++ rest ∧ w ≠ [] ∧ Moved L f v v' ∧
        IsRun L f scratch.length eagerSort r w) fun v' => v'.Perm v := by
  have hpos : 0 < v.length := List.length_pos_iff.mpr hv
  refine .bind (sat_get ?_)
  have hfind : Sat L (if v.length ≥ minGood then findExistingRun o v else pure (0, false)) v
      (fun r v' => v' = v ∧ r.1 ≤ v.length ∧ Run L f v r.1 r.2) fun v' => v' = v := by
    by_cases hge : v.length ≥ minGood
    · rw [if_pos hge]
      exact (findExistingRun_sat hL).mono (fun r v' h => ⟨h.1, h.2.1, h.2.2.2⟩) fun _ _ h => h
    · rw [if_neg hge]
      exact sat_pure ⟨rfl, by simp, fun _ i a b hi => by simp at hi⟩
  refine hfind.call ?_ fun v' _ h => h ▸ .refl v
  rintro ⟨n, rev⟩ v ⟨rfl, hn, hrun⟩
  dsimp only at hn hrun ⊢
  have hsplit : v.take n ++ v.drop n = v := List.take_append_drop n v
  by_cases hgood : v.length ≥ minGood ∧ n ≥ minGood
  · rw [if_pos hgood]
    have hsort := hrun.sortOf hf
    refine .bind (sat_put (sat_pure ⟨_, v.drop n, ?_, ?_, ?_, ?_, fun _ hl => (hsort.2 hl).1, by simp⟩))
    · split_ifs
      · rfl
      · exact hsplit.symm
    · intro h
      have := hsort.length
      rw [h, List.length_take, List.length_nil] at this
      lia
    · have := (SortOf.moved hsort).append (Moved.refl (v.drop n))
      rw [hsplit] at this
      split_ifs at this ⊢
      · exact this
      · rwa [hsplit] at this
    · rw [hsort.length, DriftsortRun.len_newSorted, List.length_take]
      lia
  rw [if_neg hgood]
  cases eagerSort with
  | true =>
    rw [if_pos rfl]
    have hthr : 1 ≤ Stable.smallSortThreshold ti := by
      unfold Stable.smallSortThreshold
      split_ifs <;> lia
    obtain ⟨a, b, rfl, ha⟩ := exists_split v (n := min (Stable.smallSortThreshold ti) v.length)
      (by lia)
    have hq : Sat L (Stable.quicksort ti o scratch fallback 0 none) a
        (fun _ a' => SortOf L f a a') fun a' => a'.Perm a :=
      quicksort_small_sat hL hf ti (by lia) hscr
    refine (Sat.onSlice (p := []) (w := a) (r := b) (by simp) rfl ha hq).call ?_ ?_
    · rintro ⟨⟩ _ ⟨a', rfl, ha'⟩
      refine sat_pure ⟨a', b, rfl, ?_, (SortOf.moved ha').append (Moved.refl b), ?_,
        fun _ hl => (ha'.2 hl).1, by simp⟩
      · rintro rfl
        have := ha'.length
        rw [List.length_nil] at this
        lia
      · rw [ha'.length, ha, DriftsortRun.len_newSorted]
    · rintro _ - ⟨a', rfl, ha'⟩
      exact ha'.append_right b
  | false =>
    rw [if_neg (by simp)]
    obtain ⟨a, b, rfl, ha⟩ := exists_split v (n := min minGood v.length) (by lia)
    refine sat_pure ⟨a, b, rfl, ?_, Moved.refl _,
      ha.trans (DriftsortRun.len_newUnsorted _).symm, by simp, fun _ => ⟨by lia, rfl⟩⟩
    rintro rfl
    rw [List.length_nil] at ha
    lia

end Specs

end Drift

end RustStd.Sort
