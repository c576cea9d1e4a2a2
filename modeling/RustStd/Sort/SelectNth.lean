import RustStd.Sort.SelectSpec

/-!
# The rounds of `select_nth_unstable`

A round leaves a pivot with the smaller elements before it, and the next one
works on the side with the index. What it puts there is right for the whole
slice.
-/

set_option autoImplicit false

namespace RustStd.Sort
open RustStd.Unwind RustStd.WeakOrder RustStd.Machine
open Unstable (partition partition_sat)

variable {σ S T : Type}

namespace Select

variable {L : Prop} {o : Oracle σ T} {f : T → T → Bool}

section Sides

variable {v ls gs : List T} {pivot : T} {m : SortM σ (List T) Unit} {k : ℕ}
  (hf : L → Weak f) (hperm : (ls++pivot::gs).Perm v) (haround : L → Around f ls pivot gs)
include hf hperm haround

theorem before_sat (h : Sat L m ls (fun _ ls' => Picked L f k ls ls') fun ls' => ls'.Perm ls) :
    Sat L (onSlice 0 ls.length m) (ls++pivot::gs) (fun _ v' => Picked L f k v v')
      fun v' => v'.Perm v := by
  refine (Sat.onSlice (p := []) (w := ls) (r := pivot::gs) rfl rfl rfl h).mono ?_ ?_
  · rintro ⟨⟩ _ ⟨ls', rfl, hls', hsel⟩
    refine ⟨(hls'.append_right _).trans hperm, fun hl => (hsel hl).left (hf hl) ⟨?_, ?_⟩⟩
    · exact fun y hy => (haround hl).1 y (hls'.subset hy)
    · exact (haround hl).2
  · rintro _ - ⟨ls', rfl, hls'⟩
    exact (hls'.append_right _).trans hperm

theorem behind_sat {n : ℕ} (hn : n = gs.length)
    (h : Sat L m gs (fun _ gs' => Picked L f k gs gs') fun gs' => gs'.Perm gs) :
    Sat L (onSlice (ls.length+1) n m) (ls++pivot::gs)
      (fun _ v' => Picked L f (ls.length+1+k) v v') fun v' => v'.Perm v := by
  have hcut : ls++pivot::gs = ls++[pivot]++gs++[] := by simp
  refine (Sat.onSlice hcut (by simp) hn.symm h).mono ?_ ?_
  · rintro ⟨⟩ _ ⟨gs', rfl, hgs', hsel⟩
    rw [List.append_nil, List.append_assoc, List.singleton_append]
    refine ⟨((hgs'.cons pivot).append_left ls).trans hperm,
      fun hl => (hsel hl).right (hf hl) ⟨(haround hl).1, ?_⟩⟩
    exact fun y hy => (haround hl).2 y (hgs'.subset hy)
  · rintro _ - ⟨gs', rfl, hgs'⟩
    rw [List.append_nil, List.append_assoc, List.singleton_append]
    exact ((hgs'.cons pivot).append_left ls).trans hperm

end Sides

variable (hL : L → Answers o f) (hf : L → Weak f) (ti : TypeInfo T)
include hL hf

theorem medianOfMediansLoop_sat (hti : ti.sizeOf ≠ 0) (fuel : ℕ) {k : ℕ} {v : List T}
    (hk : k < v.length) (hlen : v.length ≤ isizeMax) (hfuel : v.length < fuel) :
    Sat L (medianOfMediansLoop ti o fuel k) v (fun _ v' => Picked L f k v v')
      fun v' => v'.Perm v := by
  induction fuel generalizing k v with
  | zero => omega
  | succ fuel ih =>
    refine .bind (sat_get ?_)
    dsimp only
    by_cases hshort : v.length ≤ insertionSortThreshold
    · rw [if_pos hshort]
      exact sortShort_sat hL hf hk
    rw [if_neg hshort]
    by_cases hmax : k = v.length-1
    · rw [if_pos hmax]
      exact placeMax_sat hL hf (by omega)
    rw [if_neg hmax]
    by_cases hmin : k = 0
    · rw [if_pos hmin, hmin]
      exact placeMin_sat hL hf (by omega)
    rw [if_neg hmin]
    have hv : 16 < v.length := by simpa [insertionSortThreshold] using hshort
    -- the selection among the medians works on fewer elements
    have hselect : ∀ k w, k < w.length → w.length < v.length →
        Sat L (entered ti (medianOfMediansLoop ti o fuel) k) w (fun _ w' => w'.Perm w)
          fun w' => w'.Perm w := by
      intro k w hk hw
      refine .bind (sat_get ?_)
      rw [if_pos ⟨hk, hti⟩]
      exact (ih hk (by omega) (by omega)).mono (fun _ _ h => h.1) fun _ _ h => h
    refine (medianOfNinthers_sat hL ti hlen hv hselect).call ?_ fun _ _ h => h
    rintro p _ ⟨ls, pivot, gs, rfl, rfl, hperm, hlaw⟩
    have haround : L → Around f ls pivot gs :=
      fun hl => ⟨fun x hx => (hf hl).asymm ((hlaw hl).1 x hx), (hlaw hl).2⟩
    have hlens := hperm.length_eq
    rw [List.length_append, List.length_cons] at hlens
    rcases lt_trichotomy ls.length k with hlt | heq | hgt
    · rw [if_neg (by omega), if_neg (by omega)]
      refine .bind (sat_checked (sub_eq hlt) ?_)
      have := behind_sat hf hperm haround (n := v.length-(ls.length+1)) (by omega)
        (ih (k := k-(ls.length+1)) (by omega) (by omega) (by omega))
      rwa [Nat.add_sub_cancel' hlt] at this
    · rw [if_pos heq]
      exact sat_pure ⟨hperm, fun hl => ⟨ls, pivot, gs, rfl, heq, haround hl⟩⟩
    · rw [if_neg (by omega), if_pos hgt]
      exact before_sat hf hperm haround (ih hgt (by omega) (by omega))

theorem medianOfMedians_sat (hti : ti.sizeOf ≠ 0) {k : ℕ} {v : List T} (hk : k < v.length)
    (hlen : v.length ≤ isizeMax) :
    Sat L (medianOfMedians ti o k) v (fun _ v' => Picked L f k v v') fun v' => v'.Perm v := by
  refine .bind (sat_get (.bind (sat_get ?_)))
  rw [if_pos ⟨hk, hti⟩]
  exact medianOfMediansLoop_sat hL hf ti hti _ hk hlen (Nat.lt_succ_self _)

omit hL in
theorem picked_equal {v ls gs : List T} {pivot : T} {k : ℕ} (hperm : (ls++pivot::gs).Perm v)
    (hk : k ≤ ls.length) (hls : L → ∀ x ∈ ls, f pivot x = false)
    (hmin : L → ∀ x ∈ ls++pivot::gs, f x pivot = false) : Picked L f k v (ls++pivot::gs) := by
  refine ⟨hperm, fun hl => ?_⟩
  obtain ⟨x, hx⟩ : ∃ x, (ls++pivot::gs)[k]? = some x :=
    ⟨_, List.getElem?_eq_getElem (by rw [List.length_append, List.length_cons]; omega)⟩
  have hxp : f pivot x = false := by
    rcases Nat.lt_or_eq_of_le hk with hlt | rfl
    · rw [List.getElem?_append_left hlt] at hx
      exact hls hl x (List.mem_of_getElem? hx)
    · obtain rfl : pivot = x := by simpa using hx
      exact (hf hl).irrefl pivot
  have hxmin : f x pivot = false := hmin hl x (List.mem_of_getElem? hx)
  apply selectedAt_of_getElem hx
  · intro y hy
    rw [List.take_append_of_le_length hk] at hy
    exact (hf hl).le_trans (hls hl y (List.mem_of_mem_take hy)) hxmin
  · intro y hy
    exact (hf hl).le_trans hxp (hmin hl y (List.mem_of_mem_drop hy))

theorem partitionAtIndexRounds_sat (hti : ti.sizeOf ≠ 0) (limit : ℕ) {index : ℕ}
    {ancestor : Option T} {v : List T} (hindex : index < v.length) (hlen : v.length ≤ isizeMax)
    (hanc : L → ∀ p, ancestor = some p → ∀ x ∈ v, f x p = false) :
    Sat L (partitionAtIndexRounds ti o limit index ancestor) v (fun _ v' => Picked L f index v v')
      fun v' => v'.Perm v := by
  induction limit generalizing index ancestor v with
  | zero =>
    refine .bind (sat_get ?_)
    by_cases hshort : v.length ≤ insertionSortThreshold
    · rw [if_pos hshort]
      exact sortShort_sat hL hf hindex
    · rw [if_neg hshort]
      exact medianOfMedians_sat hL hf ti hti hindex hlen
  | succ limit ih =>
    refine .bind (sat_get ?_)
    dsimp only
    by_cases hshort : v.length ≤ insertionSortThreshold
    · rw [if_pos hshort]
      exact sortShort_sat hL hf hindex
    rw [if_neg hshort]
    have hv : 16 < v.length := by simpa [insertionSortThreshold] using hshort
    have hkeep (v' : List T) (_ : ¬ L) (h : v' = v) : v'.Perm v := h ▸ .refl v
    refine (choosePivot_sat hL (by omega)).call ?_ hkeep
    rintro pivotPos v ⟨rfl, hpos⟩
    obtain ⟨pivot, hpivot⟩ : ∃ p, v[pivotPos]? = some p := ⟨_, List.getElem?_eq_getElem hpos⟩
    refine .bind (sat_at hpivot ((equalsAncestor_sat hL).call ?_ hkeep))
    rintro equal v ⟨rfl, hequal⟩
    cases equal with
    | true =>
      rw [if_pos rfl]
      refine (partition_sat (fun hl => (hL hl).notGreater) ti hpivot).call ?_ fun _ _ h => h
      rintro n _ ⟨ls, gs, rfl, rfl, hperm, hlaw⟩
      have hlens := hperm.length_eq
      rw [List.length_append, List.length_cons] at hlens
      have hmin : L → ∀ x ∈ ls++pivot::gs, f x pivot = false := by
        intro hl x hx
        obtain ⟨p, hp, hpp⟩ := hequal rfl hl
        exact (hf hl).le_trans hpp (hanc hl p hp x (hperm.subset hx))
      have hls : L → ∀ x ∈ ls, f pivot x = false := by
        intro hl x hx
        simpa using (hlaw hl).1 x hx
      by_cases hpast : ls.length+1 > index
      · rw [if_pos hpast]
        exact sat_pure (picked_equal hf hperm (by omega) hls hmin)
      · rw [if_neg hpast]
        rw [not_lt] at hpast
        refine .bind (sat_checked (sub_eq hpast) ?_)
        have haround : L → Around f ls pivot gs :=
          fun hl => ⟨hls hl, fun x hx => hmin hl x (by simp [hx])⟩
        have hrest : Sat L (partitionAtIndexRounds ti o limit (index-(ls.length+1)) none) gs
            (fun _ gs' => Picked L f (index-(ls.length+1)) gs gs') fun gs' => gs'.Perm gs :=
          ih (by omega) (by omega) (by simp)
        have := behind_sat hf hperm haround (n := v.length-(ls.length+1)) (by omega) hrest
        rwa [Nat.add_sub_cancel' hpast] at this
    | false =>
      rw [if_neg (by simp)]
      refine (partition_sat hL ti hpivot).call ?_ fun _ _ h => h
      rintro n _ ⟨ls, gs, rfl, rfl, hperm, hlaw⟩
      have hlens := hperm.length_eq
      rw [List.length_append, List.length_cons] at hlens
      have haround : L → Around f ls pivot gs :=
        fun hl => ⟨fun x hx => (hf hl).asymm ((hlaw hl).1 x hx), (hlaw hl).2⟩
      refine .bind (sat_read (x := pivot) (by simp) ?_)
      rcases lt_trichotomy ls.length index with hlt | heq | hgt
      · rw [if_pos hlt]
        refine .bind (sat_checked (sub_eq hlt.le) (.bind (sat_checked (sub_eq (by omega)) ?_)))
        have habove : L → ∀ p, some pivot = some p → ∀ x ∈ gs, f x p = false := by
          rintro hl p ⟨⟩ x hx
          exact (hlaw hl).2 x hx
        have hrest : Sat L (partitionAtIndexRounds ti o limit (index-ls.length-1) (some pivot)) gs
            (fun _ gs' => Picked L f (index-ls.length-1) gs gs') fun gs' => gs'.Perm gs :=
          ih (by omega) (by omega) habove
        have := behind_sat hf hperm haround (n := v.length-(ls.length+1)) (by omega) hrest
        rwa [show ls.length+1+(index-ls.length-1) = index by omega] at this
      · rw [if_neg (by omega), if_neg (by omega)]
        exact sat_pure ⟨hperm, fun hl => ⟨ls, pivot, gs, rfl, heq, haround hl⟩⟩
      · rw [if_neg (by omega), if_pos hgt]
        refine before_sat hf hperm haround (ih hgt (by omega) ?_)
        intro hl p hp x hx
        exact hanc hl p hp x (hperm.subset (by simp [hx]))

/-- The returned parts make up the slice. -/
def Returned (index : ℕ) (r : List T × T × List T) (v' : List T) : Prop :=
  v' = r.1++r.2.1::r.2.2 ∧ r.1.length = index

theorem placeIndex_sat {index : ℕ} {v : List T} (hindex : index < v.length)
    (hlen : v.length ≤ isizeMax) :
    Sat L (placeIndex ti o v.length index) v (fun _ v' => Picked L f index v v')
      fun v' => v'.Perm v := by
  unfold placeIndex
  split_ifs with hz hmax hmin
  · have := ti.subsingleton_of_zst hz
    refine sat_pure ⟨.refl v, fun hl => selectedAt_of_sorted ?_ hindex⟩
    refine List.pairwise_of_forall fun a b => ?_
    rw [Subsingleton.elim b a]
    exact (hf hl).irrefl a
  · exact placeMax_sat hL hf (by omega)
  · rw [hmin]
    exact placeMin_sat hL hf (by omega)
  · exact partitionAtIndexRounds_sat hL hf ti hz 16 hindex hlen (by simp)

theorem partitionAtIndex_sat {index : ℕ} {v : List T} (hindex : index < v.length)
    (hlen : v.length ≤ isizeMax) :
    Sat L (partitionAtIndex ti o index) v
      (fun r v' => Returned index r v' ∧ v'.Perm v ∧ (L → Around f r.1 r.2.1 r.2.2))
      fun v' => v'.Perm v := by
  refine .bind (sat_get ?_)
  dsimp only
  rw [if_neg (by omega)]
  refine (placeIndex_sat hL hf ti hindex hlen).call ?_ fun _ _ h => h
  rintro ⟨⟩ v' ⟨hperm, hsel⟩
  have hi : index < v'.length := by rwa [hperm.length_eq]
  have hcut : v' = v'.take index++v'[index]::v'.drop (index+1) := by
    rw [← List.drop_eq_getElem_cons hi, List.take_append_drop]
  have htake : (v'.take index).length = index := List.length_take_of_le hi.le
  refine .bind (sat_read (List.getElem?_eq_getElem hi) (.bind (sat_get (sat_pure ?_))))
  refine ⟨⟨hcut, htake⟩, hperm, fun hl => ?_⟩
  obtain ⟨ls, x, gs, he, hls, haround⟩ := hsel hl
  have hsame := List.append_inj (hcut.symm.trans he) (htake.trans hls.symm)
  obtain ⟨hx, hgs⟩ := List.cons.inj hsame.2
  dsimp only
  rwa [hsame.1, hx, hgs]

end Select

end RustStd.Sort
