import RustStd.Sort.SmallSort
import RustStd.Lib.Network

/-!
# `small_sort_network`

The two optimal networks run in place, a comparison at a time, so the slice is
complete whenever the callback unwinds. Slices from 18 elements on are sorted in
two halves and merged into an array on the stack.
-/

set_option autoImplicit false

namespace RustStd.Sort
open RustStd.Unwind RustStd.WeakOrder RustStd.Network

variable {σ T : Type}

def swapIfLess (o : Oracle σ T) (aPos bPos : ℕ) : SortM σ (List T) Unit := do
  let vb ← read bPos
  let va ← read aPos
  let shouldSwap ← less o vb va
  write aPos (if shouldSwap then vb else va)
  write bPos (if shouldSwap then va else vb)

def swapAll (o : Oracle σ T) : List (ℕ × ℕ) → SortM σ (List T) Unit
  | [] => pure ()
  | (a, b) :: cs => do
    swapIfLess o a b
    swapAll o cs

def network9 : List (ℕ × ℕ) :=
  [(0, 3), (1, 7), (2, 5), (4, 8), (0, 7), (2, 4), (3, 8), (5, 6), (0, 2), (1, 3), (4, 5), (7, 8),
    (1, 4), (3, 6), (5, 7), (0, 1), (2, 4), (3, 5), (6, 8), (2, 3), (4, 5), (6, 7), (1, 2), (3, 4),
    (5, 6)]

def network13 : List (ℕ × ℕ) :=
  [(0, 12), (1, 10), (2, 9), (3, 7), (5, 11), (6, 8), (1, 6), (2, 3), (4, 11), (7, 9), (8, 10),
    (0, 4), (1, 2), (3, 6), (7, 8), (9, 10), (11, 12), (4, 6), (5, 9), (8, 11), (10, 12), (0, 5),
    (3, 8), (4, 7), (6, 11), (9, 10), (0, 1), (2, 5), (6, 9), (7, 8), (10, 11), (1, 3), (2, 4),
    (5, 6), (9, 10), (1, 2), (3, 4), (5, 7), (6, 8), (2, 3), (4, 5), (6, 7), (8, 9), (3, 4), (5, 6)]

def sort9Optimal (o : Oracle σ T) : SortM σ (List T) Unit := do
  if (← get).length < 9 then exit .abort else swapAll o network9

def sort13Optimal (o : Oracle σ T) : SortM σ (List T) Unit := do
  if (← get).length < 13 then exit .abort else swapAll o network13

/-- The body of the loop over the one or two regions. -/
def sortRegion (o : Oracle σ T) : SortM σ (List T) Unit := do
  let len := (← get).length
  if len ≥ 13 then do
    sort13Optimal o
    insertionSortShiftLeft o 13
  else if len ≥ 9 then do
    sort9Optimal o
    insertionSortShiftLeft o 9
  else insertionSortShiftLeft o 1

def smallSortNetwork (uninit : Uninit T) (o : Oracle σ T) : SortM σ (List T) Unit := do
  let len := (← get).length
  if len < 2 then pure ()
  else if len > 32 then exit .abort
  else
    let lenDiv2 := len/2
    if len < 18 then sortRegion o
    else do
      onSlice 0 lenDiv2 (sortRegion o)
      onSlice lenDiv2 (len-lenDiv2) (sortRegion o)
      let src ← get
      withScratch (uninit.cells 32) do
        onScratch (bidirectionalMerge o src)
        let scratch := (← get).2
        onSorted (writeAll 0 (scratch.take len))

theorem network9_sorts : Sorts 9 network9 := by
  unfold Sorts
  decide +kernel

theorem network13_sorts : Sorts 13 network13 := by
  unfold Sorts
  decide +kernel

section Specs

variable {L : Prop} {o : Oracle σ T} {f : T → T → Bool} (hL : L → Answers o f)
include hL

theorem swapIfLess_sat {v : List T} {a b : ℕ} (ha : a < v.length) (hb : b < v.length) :
    Sat L (swapIfLess o a b) v
      (fun _ v' => v'.Perm v ∧ (L → v' = exchange (lower f) (upper f) v (a, b)))
      fun v' => v' = v := by
  refine .bind (sat_read (List.getElem?_eq_getElem hb) (.bind
    (sat_read (List.getElem?_eq_getElem ha) (.bind (sat_less hL rfl fun r hr => ?_)))))
  refine .bind (sat_write ha (sat_write (by simpa using hb) ⟨?_, fun hl => ?_⟩))
  · cases r with
    | true => exact List.set_set_perm ha hb
    | false =>
      rw [if_neg (by simp), if_neg (by simp), List.set_getElem_self, List.set_getElem_self]
  · unfold exchange lower upper
    rw [List.getElem?_eq_getElem ha, List.getElem?_eq_getElem hb, hr hl]

theorem swapAll_sat {v : List T} {cs : List (ℕ × ℕ)}
    (h : ∀ c ∈ cs, c.1 < v.length ∧ c.2 < v.length) :
    Sat L (swapAll o cs) v
      (fun _ v' => v'.Perm v ∧ (L → v' = run (lower f) (upper f) cs v)) fun v' => v'.Perm v := by
  induction cs generalizing v with
  | nil => exact sat_pure ⟨.refl v, fun _ => rfl⟩
  | cons c cs ih =>
    obtain ⟨a, b⟩ := c
    obtain ⟨ha, hb⟩ := h (a, b) (by simp)
    refine (swapIfLess_sat hL ha hb).call ?_ fun v' _ h => h ▸ .refl v
    rintro ⟨⟩ v' ⟨hperm, hlaw⟩
    refine (ih fun c hc => ?_).mono ?_ fun v'' _ h => h.trans hperm
    · rw [hperm.length_eq]
      exact h c (by simp [hc])
    · rintro _ v'' ⟨hperm', hlaw'⟩
      refine ⟨hperm'.trans hperm, fun hl => ?_⟩
      rw [hlaw' hl, hlaw hl]
      rfl

variable (hf : L → Weak f)
include hf

theorem network_sat {v : List T} {n : ℕ} {cs : List (ℕ × ℕ)} (hn : n ≤ v.length)
    (hcs : ∀ c ∈ cs, c.1 < n ∧ c.2 < n) (h : Sorts n cs) :
    Sat L (swapAll o cs) v (fun _ v' => v'.Perm v ∧ (L → Sorted f (v'.take n)))
      fun v' => v'.Perm v := by
  obtain ⟨w, r, rfl, rfl⟩ := exists_split v hn
  refine (swapAll_sat hL fun c hc => ?_).mono ?_ fun v' _ h => h
  · obtain ⟨h1, h2⟩ := hcs c hc
    rw [List.length_append]
    omega
  · rintro _ v' ⟨hperm, hlaw⟩
    refine ⟨hperm, fun hl => ?_⟩
    rw [hlaw hl, run_append hcs]
    have := h.sorted (hf hl)
    rwa [← length_run (lower f) (upper f) cs w, List.take_left]

theorem sortRegion_sat {v : List T} (hv : v ≠ []) :
    Sat L (sortRegion o) v (fun _ v' => SortedPerm L f v v') fun v' => v'.Perm v := by
  have hpos := List.length_pos_iff.mpr hv
  have hinsert {w : List T} {n : ℕ} (hw : w.Perm v) (hn : 0 < n) (hle : n ≤ v.length)
      (hs : L → Sorted f (w.take n)) :
      Sat L (insertionSortShiftLeft o n) w (fun _ v' => SortedPerm L f v v')
        fun v' => v'.Perm v :=
    (insertionSortShiftLeft_sat hL hf hn (by rwa [hw.length_eq]) hs).mono
      (fun _ v' h => ⟨h.1.trans hw, fun hl => (h.2 hl).1⟩) fun v' _ h => h.trans hw
  refine .bind (sat_get ?_)
  by_cases h13 : v.length ≥ 13
  · rw [if_pos h13]
    have hnet : Sat L (sort13Optimal o) v (fun _ w => w.Perm v ∧ (L → Sorted f (w.take 13)))
        fun w => w.Perm v := by
      refine .bind (sat_get ?_)
      rw [if_neg (by omega)]
      exact network_sat hL hf h13 (by decide) network13_sorts
    exact hnet.call (fun _ w h => hinsert h.1 (by omega) h13 h.2) fun _ _ h => h
  rw [if_neg h13]
  by_cases h9 : v.length ≥ 9
  · rw [if_pos h9]
    have hnet : Sat L (sort9Optimal o) v (fun _ w => w.Perm v ∧ (L → Sorted f (w.take 9)))
        fun w => w.Perm v := by
      refine .bind (sat_get ?_)
      rw [if_neg (by omega)]
      exact network_sat hL hf h9 (by decide) network9_sorts
    exact hnet.call (fun _ w h => hinsert h.1 (by omega) h9 h.2) fun _ _ h => h
  · rw [if_neg h9]
    refine hinsert (.refl v) (by omega) hpos fun _ => ?_
    obtain ⟨x, v, rfl⟩ := List.exists_cons_of_ne_nil hv
    exact List.pairwise_singleton _ _

theorem smallSortNetwork_sat (uninit : Uninit T) {v : List T} (hv : v.length ≤ 32) :
    Sat L (smallSortNetwork uninit o) v (fun _ v' => SortedPerm L f v v') fun v' => v'.Perm v := by
  refine .bind (sat_get ?_)
  by_cases h2 : v.length < 2
  · rw [if_pos h2]
    exact sat_pure (sortOf_short h2).sortedPerm
  rw [if_neg h2, if_neg (by omega)]
  have hne : v ≠ [] := by
    rintro rfl
    simp at h2
  dsimp only
  by_cases h18 : v.length < 18
  · rw [if_pos h18]
    exact sortRegion_sat hL hf hne
  rw [if_neg h18]
  obtain ⟨a, b, rfl, ha⟩ := exists_split v (n := v.length/2) (by omega)
  have hlen : (a ++ b).length = a.length+b.length := List.length_append
  have hane : a ≠ [] := List.length_pos_iff.mp (by omega)
  have hbne : b ≠ [] := List.length_pos_iff.mp (by omega)
  refine (Sat.onSlice (p := []) (w := a) (r := b) (by simp) rfl ha
    (sortRegion_sat hL hf hane)).call ?_ ?_
  · rintro ⟨⟩ _ ⟨a', rfl, ha'⟩
    rw [List.nil_append]
    refine (Sat.onSlice (p := a') (w := b) (r := []) (by simp) (by rw [ha'.length, ha]) (by omega)
      (sortRegion_sat hL hf hbne)).call ?_ ?_
    · rintro ⟨⟩ _ ⟨b', rfl, hb'⟩
      rw [List.append_nil]
      have hperm := ha'.1.append hb'.1
      have hlen' : (a' ++ b').length = (a ++ b).length := hperm.length_eq
      refine .bind (sat_get (Sat.withScratch ?_))
      have hcells : (uninit.cells 32).length = 32 := uninit.length_cells ⟨(a ++ b).head hne⟩ 32
      refine (Sat.onScratch (bidirectionalMerge_sat hL hf (by omega) (by omega) ?_)).call ?_ ?_
      · rw [hlen', ← ha, ← ha'.length, List.take_left, List.drop_left]
        exact fun hl => ⟨ha'.2 hl, hb'.2 hl⟩
      · rintro ⟨⟩ _ ⟨_, rfl, out, rfl, hout⟩
        refine .bind (sat_get ?_)
        have hol : out.length = (a ++ b).length := hout.length.trans hlen'
        dsimp only
        rw [← hol, List.take_left]
        refine (Sat.onSorted (sat_writeAll (Q := fun _ w => w = out) (E := fun _ => False)
          (by omega) ?_)).mono ?_ (by simp)
        · rw [List.take_zero, List.nil_append, List.drop_eq_nil_of_le (by omega), List.append_nil]
        · rintro _ _ ⟨_, rfl, rfl⟩
          exact ⟨hout.1.trans hperm, fun hl => (hout.2 hl).1⟩
      · rintro _ - ⟨_, rfl, -⟩
        exact hperm
    · rintro _ - ⟨b', rfl, hb'⟩
      rw [List.append_nil]
      exact ha'.1.append hb'
  · rintro _ - ⟨a', rfl, ha'⟩
    exact ha'.append_right b

end Specs

end RustStd.Sort
