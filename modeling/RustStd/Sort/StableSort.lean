import RustStd.Sort.DriftSafe

/-!
# The stable sort

The entry points of `slice::sort`, with the choice of the scratch space. Its
contents are arbitrary, and so is what a buffer has beyond the capacity that was
asked for.
-/

set_option autoImplicit false

namespace RustStd.Sort
open RustStd.Unwind RustStd.WeakOrder

variable {σ T : Type}

/-- A heap buffer holds at least `capacity` elements. -/
structure BufGuard (T : Type) where
  withCapacity : ℕ → List T
  le_length : Nonempty T → ∀ capacity, capacity ≤ (withCapacity capacity).length

namespace Stable

def driftsortMain (ti : TypeInfo T) (uninit : Uninit T) (buf : BufGuard T) (o : Oracle σ T) :
    SortM σ (List T) Unit := do
  let maxFullAlloc := 8000000/ti.sizeOf
  let len := (← get).length
  let allocLen := max (max (len-len/2) (min len maxFullAlloc)) 48
  let stackScratch := uninit.cells (4096/ti.sizeOf)
  let scratch := if stackScratch.length ≥ allocLen then stackScratch else buf.withCapacity allocLen
  let eagerSort : Bool := len ≤ smallSortThreshold ti*2
  Drift.sort ti o scratch 2 eagerSort

def sort (ti : TypeInfo T) (uninit : Uninit T) (buf : BufGuard T) (o : Oracle σ T) :
    SortM σ (List T) Unit :=
  if ti.sizeOf = 0 then pure ()
  else do
    let len := (← get).length
    if len < 2 then pure ()
    else if len ≤ 20 then insertionSortShiftLeft o 1
    else driftsortMain ti uninit buf o

section Specs

variable {L : Prop} {o : Oracle σ T} {f : T → T → Bool} (hL : L → Answers o f) (hf : L → Weak f)
  (ti : TypeInfo T) (uninit : Uninit T) (buf : BufGuard T)
include hL hf

theorem driftsortMain_sat {v : List T} (hv : v ≠ []) :
    Sat L (driftsortMain ti uninit buf o) v (fun _ v' => SortOf L f v v') fun v' => v'.Perm v := by
  refine .bind (sat_get ?_)
  dsimp only
  have hT : Nonempty T := ⟨v.head hv⟩
  generalize hscratch : (if (uninit.cells (4096/ti.sizeOf)).length ≥
    max (max (v.length-v.length/2) (min v.length (8000000/ti.sizeOf))) 48 then
    uninit.cells (4096/ti.sizeOf) else buf.withCapacity
    (max (max (v.length-v.length/2) (min v.length (8000000/ti.sizeOf))) 48)) = scratch
  have hlen : max (max (v.length-v.length/2) (min v.length (8000000/ti.sizeOf))) 48 ≤
      scratch.length := by
    rw [← hscratch]
    split_ifs with h
    · exact h
    · exact buf.le_length hT _
  exact Drift.sort_sat hL hf ti (by omega) (by omega) _

theorem sort_sat (v : List T) :
    Sat L (sort ti uninit buf o) v (fun _ v' => SortOf L f v v') fun v' => v'.Perm v := by
  unfold sort
  by_cases hz : ti.sizeOf = 0
  · rw [if_pos hz]
    have := ti.subsingleton_of_zst hz
    refine sat_pure ⟨.refl v, fun hl => ⟨List.pairwise_of_forall fun a b => ?_, Stable.refl v⟩⟩
    rw [Subsingleton.elim b a]
    exact (hf hl).irrefl a
  rw [if_neg hz]
  refine .bind (sat_get ?_)
  by_cases h2 : v.length < 2
  · rw [if_pos h2]
    exact sat_pure (sortOf_short h2)
  rw [if_neg h2]
  by_cases h20 : v.length ≤ 20
  · rw [if_pos h20]
    refine insertionSortShiftLeft_sat hL hf (by omega) (by omega) fun _ => ?_
    obtain ⟨x, v, rfl⟩ := List.exists_cons_of_length_pos (show 0 < v.length by omega)
    exact List.pairwise_singleton _ _
  · rw [if_neg h20]
    exact driftsortMain_sat hL hf ti uninit buf (by rintro rfl; simp at h2)

end Specs

/-- With a strict weak order the sort returns and leaves the one stable sorted
permutation of its input. -/
theorem stableSort_correct (ti : TypeInfo T) (uninit : Uninit T) (buf : BufGuard T) {f : T → T → Bool}
    (hf : IsStrictWeakOrder T fun a b => f a b = true) {o : Oracle σ T} (ho : Answers o f)
    (v : List T) (st : σ) :
    ∃ v' st', sort ti uninit buf o v st = (.ok (), v', st') ∧ Sorted f v' ∧ v'.Perm v ∧
      WeakOrder.Stable f v v' ∧
      ∀ w, Sorted f w → WeakOrder.Stable f v w → w = v' := by
  have hsat : Sat True (sort ti uninit buf o) v (fun _ v' => SortOf True f v v')
      fun v' => v'.Perm v := sort_sat (fun _ => ho) (fun _ => hf) ti uninit buf v
  obtain ⟨⟨⟩, v', st', hrun, hperm, hlaw⟩ := hsat.returns trivial st
  obtain ⟨hsorted, hstable⟩ := hlaw trivial
  refine ⟨v', st', hrun, hsorted, hperm, hstable, fun w hw hvw => ?_⟩
  exact stable_sorted_unique hf (hstable.symm.trans hvw) hsorted hw

theorem stableSort_correct_pairs :
    ∃ v' st', sort ⟨16, true, true, by simp⟩ ⟨fun n => .replicate n (0, 0), by simp⟩
        ⟨fun n => .replicate n (0, 0), by simp⟩
        (fun st (a b : ℕ × ℕ) => (some (decide (a.1 < b.1)), st+1))
        [(2, 0), (1, 1), (2, 2), (1, 3)] 0 = (.ok (), v', st') ∧
      Sorted (fun a b : ℕ × ℕ => decide (a.1 < b.1)) v' ∧
      v'.Perm [(2, 0), (1, 1), (2, 2), (1, 3)] ∧
      WeakOrder.Stable (fun a b => decide (a.1 < b.1)) [(2, 0), (1, 1), (2, 2), (1, 3)] v' ∧
      ∀ w, Sorted (fun a b => decide (a.1 < b.1)) w →
        WeakOrder.Stable (fun a b => decide (a.1 < b.1)) [(2, 0), (1, 1), (2, 2), (1, 3)] w →
        w = v' := by
  have hf : IsStrictWeakOrder (ℕ × ℕ) fun a b => decide (a.1 < b.1) = true :=
    { irrefl := fun a => by simp
      trans := fun a b c hab hbc => by
        simp only [decide_eq_true_eq] at *
        omega
      incomp_trans := fun a b c hab hbc => by
        simp only [decide_eq_true_eq] at *
        omega }
  exact stableSort_correct _ _ _ hf (fun _ _ _ => rfl) _ _

end Stable

end RustStd.Sort

/-! ## The assertions in a whole driftsort

With the scratch space that `driftsort_main` chooses, no assertion fails, for
any callback and any length of a slice.
-/

namespace RustStd.Sort
open RustStd.Unwind RustStd.WeakOrder RustStd.Machine

variable {σ T : Type}

namespace Stable
open Drift

def driftsortMainWatched (ok : Event → Bool) (ti : TypeInfo T) (uninit : Uninit T)
    (buf : BufGuard T) (o : Oracle σ T) : SortM σ (List T) Unit := do
  let maxFullAlloc := 8000000/ti.sizeOf
  let len := (← get).length
  let allocLen := max (max (len-len/2) (min len maxFullAlloc)) 48
  let stackScratch := uninit.cells (4096/ti.sizeOf)
  let scratch := if stackScratch.length ≥ allocLen then stackScratch else buf.withCapacity allocLen
  let eagerSort : Bool := len ≤ smallSortThreshold ti*2
  sortWatched ok ti o scratch 2 eagerSort

theorem driftsortMain_guards (ok : Event → Bool) (ti : TypeInfo T) (uninit : Uninit T)
    (buf : BufGuard T) (o : Oracle σ T) :
    Guards (driftsortMainWatched ok ti uninit buf o) (driftsortMain ti uninit buf o) :=
  .bind (.refl _) fun _ => sort_guards 2 _

theorem driftsortMainWatched_sat (ti : TypeInfo T) (uninit : Uninit T) (buf : BufGuard T)
    (o : Oracle σ T) {v : List T} (hlen : v.length ≤ isizeMax/ti.sizeOf) :
    Sat False (driftsortMainWatched (fun e => decide e.Good) ti uninit buf o) v
      (fun _ v' => v'.Perm v) fun v' => v'.Perm v := by
  have hmax : v.length ≤ isizeMax := hlen.trans (Nat.div_le_self _ _)
  refine .bind (sat_get ?_)
  rcases List.eq_nil_or_concat v with rfl | ⟨w, x, rfl⟩
  · exact .bind (sat_get (sat_pure (.refl _)))
  rw [List.concat_eq_append] at hmax ⊢
  dsimp only
  generalize hscratch : (if (uninit.cells (4096/ti.sizeOf)).length ≥
    max (max ((w++[x]).length-(w++[x]).length/2) (min (w++[x]).length (8000000/ti.sizeOf))) 48 then
    uninit.cells (4096/ti.sizeOf) else buf.withCapacity
    (max (max ((w++[x]).length-(w++[x]).length/2) (min (w++[x]).length (8000000/ti.sizeOf))) 48)) =
    scratch
  have hroom : max (max ((w++[x]).length-(w++[x]).length/2)
      (min (w++[x]).length (8000000/ti.sizeOf))) 48 ≤ scratch.length := by
    rw [← hscratch]
    split_ifs with h
    · exact h
    · exact buf.le_length ⟨x⟩ _
  exact (sortWatched_sat (f := fun _ _ => false) False.elim False.elim ti (by omega) passes_good hmax
    (by omega) _).mono (fun _ _ h => h.1) fun _ _ h => h

/-- The products in the depths fit, no event of the run violates what the sort relies on,
and the run ends by a return or an unwind. -/
theorem driftsortMain_relies (ti : TypeInfo T) (uninit : Uninit T) (buf : BufGuard T)
    (o : Oracle σ T) {v : List T} (hlen : v.length ≤ isizeMax/ti.sizeOf) (st : σ) :
    (∀ a b, a ≤ v.length → b ≤ v.length → mergeTreeScaleFactor v.length*(a+b) < 2^64) ∧
      driftsortMainWatched (fun e => decide e.Good) ti uninit buf o v st =
        driftsortMain ti uninit buf o v st ∧
      ∃ r v' st', driftsortMain ti uninit buf o v st = (r, v', st') ∧ v'.Perm v ∧
        (r = .ok () ∨ ∃ e, r = .error (.unwind e)) := by
  have hmax : v.length ≤ isizeMax := hlen.trans (Nat.div_le_self _ _)
  have hsat := driftsortMainWatched_sat ti uninit buf o hlen
  have hsame := (driftsortMain_guards _ ti uninit buf o).eq_of_sat hsat st
  refine ⟨?_, hsame, ?_⟩
  · intro a b ha hb
    exact mergeTreeScaleFactor_mul_lt hmax (by omega)
  · obtain ⟨r, v', st', hr, hends, hperm⟩ := hsat.ends st
    refine ⟨r, v', st', hsame.symm.trans hr, hperm, ?_⟩
    rcases hends with ⟨⟨⟩, rfl⟩ | ⟨e, rfl⟩
    · exact .inl rfl
    · exact .inr ⟨e, rfl⟩

theorem driftsortMain_relies_zigzag :
    driftsortMainWatched (fun e => decide e.Good) ⟨8, true, true, by simp⟩
        ⟨fun n => .replicate n 0, by simp⟩ ⟨fun n => .replicate n 0, by simp⟩
        (fun st (a b : ℕ) => (some (decide (a < b)), st+1)) ((List.range 129).map (· % 2)) 0 =
      driftsortMain ⟨8, true, true, by simp⟩ ⟨fun n => .replicate n 0, by simp⟩
        ⟨fun n => .replicate n 0, by simp⟩
        (fun st (a b : ℕ) => (some (decide (a < b)), st+1)) ((List.range 129).map (· % 2)) 0 ∧
      mergeTreeScaleFactor 129*(128+129) < 2^64 := by
  have hlen : ((List.range 129).map (· % 2)).length ≤ isizeMax/8 := by
    rw [List.length_map, List.length_range]
    decide
  have h := driftsortMain_relies ⟨8, true, true, by simp⟩ ⟨fun n => .replicate n 0, by simp⟩
    ⟨fun n => .replicate n 0, by simp⟩ (fun st (a b : ℕ) => (some (decide (a < b)), st+1)) hlen 0
  exact ⟨h.2.1, by simpa using h.1 128 129 (by simp) (by simp)⟩

/-- On this run the entry of the dummy run lies at depth 3 and the one above it at
depth 1 when a third one is pushed, and the run in hand is not on the stack. -/
theorem driftsortMain_dummy_entry :
    (driftsortMainWatched (fun e => match e with
        | .stack _ entries _ => decide (entries.tail.Pairwise fun e e' => e'.2 < e.2)
        | _ => true) ⟨8, true, true, by simp⟩ ⟨fun n => .replicate n 0, by simp⟩
        ⟨fun n => .replicate n 0, by simp⟩ (fun st (a b : ℕ) => (some (decide (a < b)), st+1))
        ((List.range 129).map (· % 2)) 0).1 = .error .abort ∧
      (driftsortMainWatched (fun e => match e with
        | .stack scanIdx entries _ => decide ((entries.map fun e => e.1.len).sum = scanIdx)
        | _ => true) ⟨8, true, true, by simp⟩ ⟨fun n => .replicate n 0, by simp⟩
        ⟨fun n => .replicate n 0, by simp⟩ (fun st (a b : ℕ) => (some (decide (a < b)), st+1))
        ((List.range 129).map (· % 2)) 0).1 = .error .abort := by
  constructor
  · decide +kernel
  · decide +kernel

end Stable

end RustStd.Sort
