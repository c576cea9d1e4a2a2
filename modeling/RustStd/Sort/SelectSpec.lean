import RustStd.Lib.Selection
import RustStd.Sort.Select

/-!
# What a selection leaves

Whatever the callback says, every round permutes its part of the slice and goes
on with a shorter one. Of the pivots from the ninthers only the position
matters for that. With a strict weak order the index ends with its element.
-/

set_option autoImplicit false

namespace RustStd.Sort
open RustStd.Unwind RustStd.WeakOrder RustStd.Machine
open Unstable (partition partition_sat)

variable {σ S T : Type}

namespace Select

theorem sat_checked {L : Prop} {β : Type} {s : S} {Q : β → S → Prop} {E : S → Prop} {x : β}
    {r : Option β} (hr : r = some x) (h : Q x s) : Sat L (checked r : SortM σ S β) s Q E := by
  rw [hr]
  exact sat_pure h

theorem sub_eq {a b : ℕ} (h : b ≤ a) : Checked.sub a b = some (a-b) := if_pos h

theorem u64_eq {n : ℕ} (h : n ≤ usizeMax) : Checked.u64 n = some n := by
  unfold usizeMax at h
  exact if_pos (by lia)

/-- A rearrangement with the right element at `k` in the lawful case. -/
def Picked (L : Prop) (f : T → T → Bool) (k : ℕ) (v v' : List T) : Prop :=
  v'.Perm v ∧ (L → SelectedAt f k v')

theorem swapped_lt {n i j : ℕ} (swapped : Bool) (hi : i < n) (hj : j < n) :
    ∃ i' j', (if swapped then (j, i) else (i, j)) = (i', j') ∧ i' < n ∧ j' < n := by
  cases swapped with
  | true => exact ⟨j, i, rfl, hj, hi⟩
  | false => exact ⟨i, j, rfl, hi, hj⟩

section Specs

variable {L : Prop} {o : Oracle σ T} {f : T → T → Bool} (hL : L → Answers o f) {v : List T}
include hL

theorem lessAt_sat {i j : ℕ} (hi : i < v.length) (hj : j < v.length) {s : S} :
    Sat L (lessAt o v i j) s (fun _ s' => s' = s) fun s' => s' = s :=
  .bind (sat_at (List.getElem?_eq_getElem hi) (.bind (sat_at (List.getElem?_eq_getElem hj)
    (sat_less hL rfl fun _ _ => rfl))))

theorem medianIdx_sat {a b c : ℕ} (ha : a < v.length) (hb : b < v.length) (hc : c < v.length)
    {s : S} :
    Sat L (medianIdx o v a b c) s (fun i s' => s' = s ∧ i < v.length) fun s' => s' = s := by
  refine (lessAt_sat hL hc ha).call ?_ fun s' _ h => h
  rintro swapped s rfl
  obtain ⟨a', c', he, ha', hc'⟩ := swapped_lt swapped ha hc
  rw [he]
  refine (lessAt_sat hL hc' hb).call ?_ fun s' _ h => h
  rintro less₁ s rfl
  split_ifs
  · exact sat_pure ⟨rfl, hc'⟩
  refine (lessAt_sat hL hb ha').call ?_ fun s' _ h => h
  rintro less₂ s rfl
  split_ifs
  · exact sat_pure ⟨rfl, ha'⟩
  · exact sat_pure ⟨rfl, hb⟩

end Specs

theorem swap_perm_sat {L : Prop} {v : List T} {i j : ℕ} {E : List T → Prop} (hi : i < v.length) (hj : j < v.length) :
    Sat L (swap i j : SortM σ (List T) Unit) v (fun _ v' => v'.Perm v) E :=
  sat_swap (List.getElem?_eq_getElem hi) (List.getElem?_eq_getElem hj)
    (perm_swap (List.getElem?_eq_getElem hi) (List.getElem?_eq_getElem hj))

section Ninther

variable {L : Prop} {o : Oracle σ T} {f : T → T → Bool} (hL : L → Answers o f) {v : List T}
include hL

theorem nintherSwap_sat {b d e h : ℕ} (hb : b < v.length) (hd : d < v.length) (he : e < v.length)
    (hh : h < v.length) :
    Sat L (nintherSwap o b d e h) v (fun _ v' => v'.Perm v) fun v' => v'.Perm v := by
  have hkeep (v' : List T) (_ : ¬ L) (h : v' = v) : v'.Perm v := h ▸ .refl v
  refine .bind (sat_get (.bind ?_))
  refine (lessAt_sat hL hd hb).call ?_ hkeep
  rintro less₁ v rfl
  split_ifs
  · exact sat_pure (swap_perm_sat hb he)
  refine (lessAt_sat hL hh hd).call ?_ fun v' _ h => h ▸ .refl _
  rintro less₂ v rfl
  split_ifs
  · exact sat_pure (swap_perm_sat hh he)
  · exact sat_pure (swap_perm_sat hd he)

theorem ninther_sat {a b c d e g h i j : ℕ} (ha : a < v.length) (hb : b < v.length)
    (hc : c < v.length) (hd : d < v.length) (he : e < v.length) (hf : j < v.length)
    (hg : g < v.length) (hh : h < v.length) (hi : i < v.length) :
    Sat L (ninther o a b c d e j g h i) v (fun _ v' => v'.Perm v) fun v' => v'.Perm v := by
  have hkeep (v' : List T) (_ : ¬ L) (h : v' = v) : v'.Perm v := h ▸ .refl v
  refine .bind (sat_get ?_)
  refine (medianIdx_sat hL ha hb hc).call ?_ hkeep
  rintro b v ⟨rfl, hb⟩
  refine (medianIdx_sat hL hg hh hi).call ?_ hkeep
  rintro h v ⟨rfl, hh⟩
  refine (lessAt_sat hL hh hb).call ?_ hkeep
  rintro less₁ v rfl
  obtain ⟨b', h', hswap, hb', hh'⟩ := swapped_lt less₁ hb hh
  rw [hswap]
  refine (lessAt_sat hL hf hd).call ?_ hkeep
  rintro less₂ v rfl
  obtain ⟨d', j', hswap, hd', hj'⟩ := swapped_lt less₂ hd hf
  rw [hswap]
  refine (lessAt_sat hL he hd').call ?_ hkeep
  rintro less₃ v rfl
  split_ifs
  · exact nintherSwap_sat hL hb' hd' he hh'
  refine (lessAt_sat hL hj' he).call ?_ hkeep
  rintro less₄ v rfl
  split_ifs
  · exact nintherSwap_sat hL hb' hj' he hh'
  refine (lessAt_sat hL he hb').call ?_ hkeep
  rintro less₅ v rfl
  split_ifs
  · exact swap_perm_sat he hb'
  refine (lessAt_sat hL hh' he).call ?_ hkeep
  rintro less₆ v rfl
  split_ifs
  · exact swap_perm_sat he hh'
  · exact sat_pure (.refl v)

theorem ninthers_sat {frac : ℕ} (hlen : v.length ≤ isizeMax) (n : ℕ) {i a b : ℕ} (hi : frac ≤ i)
    (hn : i+n+frac ≤ v.length) (ha : a+3*n ≤ v.length) (hb : b+3*n ≤ v.length) :
    Sat L (ninthers o frac n i a b) v (fun _ v' => v'.Perm v) fun v' => v'.Perm v := by
  have hmax : isizeMax ≤ usizeMax := by decide
  induction n generalizing i a b v with
  | zero => exact sat_pure (.refl v)
  | succ n ih =>
    unfold ninthers
    refine .bind (sat_checked (sub_eq hi) (.bind (sat_checked (u64_eq (by lia)) ?_)))
    refine (ninther_sat hL (by lia) (by lia) (by lia) (by lia) (by lia) (by lia)
      (by lia) (by lia) (by lia)).call ?_ fun _ _ h => h
    rintro ⟨⟩ v' hperm
    have hl := hperm.length_eq
    refine .bind (sat_checked (u64_eq (by lia)) (.bind (sat_checked (u64_eq (by lia)) ?_)))
    refine (ih (by lia) (by lia) (by lia) (by lia) (by lia)).mono ?_ ?_
    · exact fun _ _ h => h.trans hperm
    · exact fun _ _ h => h.trans hperm

end Ninther

/-- The parts of the slice that the ninthers are taken from. -/
structure Layout (len frac : ℕ) : Prop where
  frac_pos : 0 < frac
  frac_le : 12*frac ≤ len

theorem exists_layout {len : ℕ} (h : 16 < len) :
    Layout len (if len ≤ 1024 then len/12
      else if len ≤ saturatingMul 128 1024 then len/64 else len/1024) := by
  constructor
  · split_ifs
    · lia
    · lia
    · lia
  · split_ifs
    · lia
    · lia
    · lia

theorem Layout.bounds {len frac : ℕ} (h : Layout len frac) :
    frac/2 ≤ len/2 ∧ 9*frac ≤ len ∧ 4*frac ≤ len/2-frac/2 ∧
      (len-9*frac)/4 ≤ len/2-frac/2-4*frac ∧
      frac+(len/2-frac/2)+(len-9*frac)/4+3*frac ≤ len ∧ len/2-frac/2+frac+frac ≤ len := by
  have := h.frac_le
  lia

section Medians

variable {L : Prop} {o : Oracle σ T} {f : T → T → Bool} (hL : L → Answers o f) {v : List T}
include hL

/-- A pivot is chosen, whatever the selection among the medians does. -/
theorem medianOfNinthers_sat (ti : TypeInfo T) {select : ℕ → SortM σ (List T) Unit}
    (hlen : v.length ≤ isizeMax) (hv : 16 < v.length)
    (hselect : ∀ k w, k < w.length → w.length < v.length →
      Sat L (select k) w (fun _ w' => w'.Perm w) fun w' => w'.Perm w) :
    Sat L (medianOfNinthers ti o select) v
      (fun p v' => ∃ ls pivot gs, v' = ls++pivot::gs ∧ p = ls.length ∧ v'.Perm v ∧
        (L → (∀ x ∈ ls, f x pivot = true) ∧ ∀ x ∈ gs, f x pivot = false)) fun v' => v'.Perm v := by
  have hmax : isizeMax ≤ usizeMax := by decide
  refine .bind (sat_get ?_)
  have hlayout := exists_layout hv
  dsimp only
  generalize (if v.length ≤ 1024 then v.length/12
    else if v.length ≤ saturatingMul 128 1024 then v.length/64 else v.length/1024) = frac at hlayout ⊢
  have hpos := hlayout.frac_pos
  obtain ⟨h1, h2, h3, h4, h5, h6⟩ := hlayout.bounds
  refine .bind (sat_checked (sub_eq h1) (.bind (sat_checked (u64_eq (by lia)) ?_)))
  refine .bind (sat_checked (u64_eq (by lia)) (.bind (sat_checked (sub_eq h2) ?_)))
  refine .bind (sat_checked (u64_eq (by lia)) (.bind (sat_checked (sub_eq h3) ?_)))
  refine .bind (sat_checked (sub_eq h4) (.bind (sat_checked (u64_eq (by lia)) ?_)))
  set lo := v.length/2-frac/2 with hlo
  rw [Nat.add_sub_cancel]
  refine (ninthers_sat hL hlen frac (by lia) (by lia) (by lia) (by lia)).call ?_
    fun _ _ h => h
  rintro ⟨⟩ v₁ hperm₁
  have hl₁ := hperm₁.length_eq
  have hcut : v₁ = v₁.take lo++(v₁.drop lo).take frac++v₁.drop (lo+frac) := by
    rw [List.append_assoc, ← List.drop_drop, List.take_append_drop, List.take_append_drop]
  have hmid : ((v₁.drop lo).take frac).length = frac := by
    rw [List.length_take, List.length_drop]
    lia
  refine (Sat.onSlice hcut (List.length_take_of_le (by lia)) hmid
    (hselect (frac/2) _ (by lia) (by lia))).call ?_ ?_
  · rintro ⟨⟩ _ ⟨w', rfl, hw'⟩
    have hperm₂ : (v₁.take lo++w'++v₁.drop (lo+frac)).Perm v := by
      refine List.Perm.trans ?_ hperm₁
      conv_rhs => rw [hcut]
      exact (hw'.append_left _).append_right _
    have hl₂ := hperm₂.length_eq
    obtain ⟨pivot, hpivot⟩ : ∃ p, (v₁.take lo++w'++v₁.drop (lo+frac))[lo+frac/2]? = some p :=
      ⟨_, List.getElem?_eq_getElem (by lia)⟩
    refine (partition_sat hL ti hpivot).mono ?_ fun _ _ h => h.trans hperm₂
    rintro p _ ⟨ls, gs, rfl, rfl, hperm, hlaw⟩
    exact ⟨ls, pivot, gs, rfl, rfl, hperm.trans hperm₂, hlaw⟩
  · rintro _ - ⟨w', rfl, hw'⟩
    refine List.Perm.trans ?_ hperm₁
    conv_rhs => rw [hcut]
    exact (hw'.append_left _).append_right _

end Medians

section Extremes

variable {L : Prop} {o : Oracle σ T} {f g : T → T → Bool} {v : List T} {s : S}

theorem reduceIndex_sat {replace : T → T → SortM σ S Bool}
    (hreplace : ∀ x y s, Sat L (replace x y) s (fun r s' => s' = s ∧ (L → r = g x y))
      fun s' => s' = s)
    (hstep : L → ∀ x y z, g x z = true → g x y = false → g z y = false)
    (hself : L → ∀ x, g x x = false) (ts : List T) {pre : List T} {j : ℕ} {x : T}
    (hv : v = pre++ts) (hj : v[j]? = some x) (hx : L → ∀ y ∈ pre, g x y = false) :
    Sat L (reduceIndex replace pre.length (j, x) ts) s
      (fun m s' => s' = s ∧ ∃ y, v[m]? = some y ∧ (L → ∀ z ∈ v, g y z = false))
      fun s' => s' = s := by
  induction ts generalizing pre j x s with
  | nil =>
    rw [List.append_nil] at hv
    exact sat_pure ⟨rfl, x, hj, by rwa [hv]⟩
  | cons t ts ih =>
    refine (hreplace x t s).call ?_ fun s' _ h => h
    rintro r s ⟨rfl, hr⟩
    have hnext : v = (pre++[t])++ts := by simp [hv]
    have hlen : pre.length+1 = (pre++[t]).length := by simp
    rw [hlen]
    cases r with
    | true =>
      refine ih hnext (by simp [hv]) ?_
      intro hl y hy
      rcases List.mem_append.mp hy with hy | hy
      · exact hstep hl x y t (hr hl).symm (hx hl y hy)
      · obtain rfl : y = t := by simpa using hy
        exact hself hl y
    | false =>
      refine ih hnext hj ?_
      intro hl y hy
      rcases List.mem_append.mp hy with hy | hy
      · exact hx hl y hy
      · obtain rfl : y = t := by simpa using hy
        exact (hr hl).symm

theorem reduceFirst_sat {replace : T → T → SortM σ S Bool}
    (hreplace : ∀ x y s, Sat L (replace x y) s (fun r s' => s' = s ∧ (L → r = g x y))
      fun s' => s' = s)
    (hstep : L → ∀ x y z, g x z = true → g x y = false → g z y = false)
    (hself : L → ∀ x, g x x = false) (hv : 0 < v.length) :
    Sat L (reduceFirst replace v) s
      (fun m s' => s' = s ∧ ∃ i y, m = some i ∧ v[i]? = some y ∧ (L → ∀ z ∈ v, g y z = false))
      fun s' => s' = s := by
  obtain ⟨t, ts, rfl⟩ := List.exists_cons_of_length_pos hv
  have hv : t::ts = [t]++ts := rfl
  refine (reduceIndex_sat hreplace hstep hself ts hv rfl ?_).call ?_ fun s' _ h => h
  · intro hl y hy
    obtain rfl : y = t := by simpa using hy
    exact hself hl y
  · rintro i s ⟨rfl, y, hy, hz⟩
    exact sat_pure ⟨rfl, i, y, rfl, hy, hz⟩

theorem swap_to_sat {i k : ℕ} {x : T} {E : List T → Prop} (hi : v[i]? = some x)
    (hk : k < v.length) :
    Sat L (swap i k : SortM σ (List T) Unit) v (fun _ v' => v'.Perm v ∧ v'[k]? = some x) E := by
  refine sat_swap hi (List.getElem?_eq_getElem hk)
    ⟨perm_swap hi (List.getElem?_eq_getElem hk), ?_⟩
  rw [List.getElem?_set_self]
  rwa [List.length_set]

variable (hL : L → Answers o f) (hf : L → Weak f)
include hL hf

theorem placeMax_sat {k : ℕ} (hk : k+1 = v.length) :
    Sat L (placeMax o k) v (fun _ v' => Picked L f k v v') fun v' => v'.Perm v := by
  have hreplace (x y : T) (v : List T) : Sat L (less o x y : SortM σ (List T) Bool) v
      (fun r v' => v' = v ∧ (L → r = f x y)) fun v' => v' = v :=
    sat_less hL rfl fun _ hr => ⟨rfl, hr⟩
  have hstep : L → ∀ x y z, f x z = true → f x y = false → f z y = false := by
    intro hl x y z hxz hxy
    exact (hf hl).asymm ((hf hl).lt_of_le_of_lt hxy hxz)
  refine .bind (sat_get ?_)
  refine (reduceFirst_sat hreplace hstep (fun hl => (hf hl).irrefl) (by lia)).call ?_
    fun v' _ h => h ▸ .refl _
  rintro m v ⟨rfl, i, y, rfl, hi, hy⟩
  refine .bind (sat_pure ((swap_to_sat hi (by lia)).mono ?_ fun _ _ h => h))
  rintro ⟨⟩ v' ⟨hperm, hk'⟩
  refine ⟨hperm, fun hl => selectedAt_of_getElem hk' ?_ ?_⟩
  · intro z hz
    exact hy hl z (hperm.subset (List.mem_of_mem_take hz))
  · have hnil : v'.drop (k+1) = [] := List.drop_eq_nil_of_le (by rw [hperm.length_eq]; lia)
    simp [hnil]

theorem placeMin_sat (hv : 0 < v.length) :
    Sat L (placeMin o 0) v (fun _ v' => Picked L f 0 v v') fun v' => v'.Perm v := by
  have hreplace (x y : T) (v : List T) : Sat L (less o y x : SortM σ (List T) Bool) v
      (fun r v' => v' = v ∧ (L → r = f y x)) fun v' => v' = v :=
    sat_less hL rfl fun _ hr => ⟨rfl, hr⟩
  have hstep : L → ∀ x y z, f z x = true → f y x = false → f y z = false := by
    intro hl x y z hzx hyx
    exact (hf hl).asymm ((hf hl).lt_of_lt_of_le hzx hyx)
  refine .bind (sat_get ?_)
  refine (reduceFirst_sat (g := fun x y => f y x) hreplace hstep (fun hl => (hf hl).irrefl) hv).call
    ?_ fun v' _ h => h ▸ .refl _
  rintro m v ⟨rfl, i, y, rfl, hi, hy⟩
  refine .bind (sat_pure ((swap_to_sat hi hv).mono ?_ fun _ _ h => h))
  rintro ⟨⟩ v' ⟨hperm, hk'⟩
  refine ⟨hperm, fun hl => selectedAt_of_getElem hk' (by simp) ?_⟩
  intro z hz
  exact hy hl z (hperm.subset (List.mem_of_mem_drop hz))

theorem sortShort_sat {k : ℕ} (hk : k < v.length) :
    Sat L (sortShort o) v (fun _ v' => Picked L f k v v') fun v' => v'.Perm v := by
  refine .bind (sat_get ?_)
  by_cases h2 : v.length ≥ 2
  · rw [if_pos h2]
    refine (insertionSortShiftLeft_sat hL hf (by lia) (by lia) ?_).mono ?_ fun _ _ h => h
    · intro _
      obtain ⟨x, v, rfl⟩ := List.exists_cons_of_length_pos (show 0 < v.length by lia)
      exact List.pairwise_singleton _ _
    · intro _ v' hsort
      refine ⟨hsort.1, fun hl => selectedAt_of_sorted (hsort.2 hl).1 ?_⟩
      rwa [hsort.length]
  · rw [if_neg h2]
    refine sat_pure ⟨.refl v, fun _ => ?_⟩
    obtain ⟨x, rfl⟩ := List.length_eq_one_iff.mp (show v.length = 1 by lia)
    obtain rfl : k = 0 := by
      rw [List.length_singleton] at hk
      lia
    exact ⟨[], x, [], rfl, rfl, by simp, by simp⟩

end Extremes

end Select

end RustStd.Sort
