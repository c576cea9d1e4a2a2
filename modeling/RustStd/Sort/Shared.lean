import RustStd.Sort.SmallSort

/-!
# `find_existing_run` and `choose_pivot`

Functions that only look at the slice. A run is found together with its
direction; the pivot is some position of the slice, whatever the callback says.
-/

set_option autoImplicit false

namespace RustStd.Sort
open RustStd.Unwind RustStd.WeakOrder

variable {σ S T : Type}

/-- The two loops of `find_existing_run`, with at most `n` more elements. -/
def extendRun (o : Oracle σ T) (v : List T) (descending : Bool) : ℕ → ℕ → SortM σ S ℕ
  | 0, runLen => pure runLen
  | n+1, runLen => do
    let b ← at? v runLen
    let a ← at? v (runLen-1)
    if (← less o b a) = descending then extendRun o v descending n (runLen+1)
    else pure runLen

def findExistingRun (o : Oracle σ T) (v : List T) : SortM σ S (ℕ × Bool) :=
  if v.length < 2 then pure (v.length, false)
  else do
    let b ← at? v 1
    let a ← at? v 0
    let strictlyDescending ← less o b a
    let runLen ← extendRun o v strictlyDescending (v.length-2) 2
    return (runLen, strictlyDescending)

def median3 (o : Oracle σ T) (v : List T) (a b c : ℕ) : SortM σ S ℕ := do
  let va ← at? v a
  let vb ← at? v b
  let vc ← at? v c
  let x ← less o va vb
  let y ← less o va vc
  if x = y then do
    let z ← less o vb vc
    return if z ^^ x then c else b
  else return a

/-- `median3_rec`; the recursion ends since `n` gets smaller. -/
def median3Rec (o : Oracle σ T) (v : List T) : ℕ → ℕ → ℕ → ℕ → ℕ → SortM σ S ℕ
  | 0, _, _, _, _ => exit .outOfFuel
  | fuel+1, a, b, c, n =>
    if n*8 ≥ 64 then do
      let n8 := n/8
      let a ← median3Rec o v fuel a (a+n8*4) (a+n8*7) n8
      let b ← median3Rec o v fuel b (b+n8*4) (b+n8*7) n8
      let c ← median3Rec o v fuel c (c+n8*4) (c+n8*7) n8
      median3 o v a b c
    else median3 o v a b c

def choosePivot (o : Oracle σ T) (v : List T) : SortM σ S ℕ :=
  let len := v.length
  if len < 8 then exit .abort
  else
    let lenDiv8 := len/8
    if len < 64 then median3 o v 0 (lenDiv8*4) (lenDiv8*7)
    else median3Rec o v len 0 (lenDiv8*4) (lenDiv8*7) lenDiv8

/-- Whether the pivot is not greater than the pivot to the left of the slice. -/
def equalsAncestor (o : Oracle σ T) (ancestor : Option T) (pivot : T) : SortM σ S Bool :=
  match ancestor with
  | none => pure false
  | some p => do return !(← less o p pivot)

/-- The first `n` elements go one way, according to a lawful callback. -/
def Run (L : Prop) (f : T → T → Bool) (v : List T) (n : ℕ) (descending : Bool) : Prop :=
  L → ∀ i a b, i+1 < n → v[i]? = some a → v[i+1]? = some b → f b a = descending

theorem Run.sortOf {L : Prop} {f : T → T → Bool} (hf : L → Weak f) {v : List T} {n : ℕ}
    {descending : Bool} (h : Run L f v n descending) :
    SortOf L f (v.take n) (if descending then (v.take n).reverse else v.take n) := by
  have hget {i : ℕ} {a : T} (hi : (v.take n)[i]? = some a) : i < n ∧ v[i]? = some a := by
    rw [List.getElem?_take] at hi
    split_ifs at hi with hin
    exact ⟨hin, hi⟩
  have hnext (hl : L) (i : ℕ) (a b : T) (ha : (v.take n)[i]? = some a)
      (hb : (v.take n)[i+1]? = some b) : f b a = descending :=
    h hl i a b (hget hb).1 (hget ha).2 (hget hb).2
  cases descending with
  | false => exact ⟨.refl _, fun hl => ⟨sorted_of_neighbours (hf hl) (hnext hl), Stable.refl _⟩⟩
  | true =>
    refine ⟨List.reverse_perm _, fun hl => ?_⟩
    have hdesc : (v.take n).Pairwise fun a b => f b a = true := by
      have htr : IsTrans T fun a b => f b a = true := ⟨fun a b c hab hbc => (hf hl).trans hbc hab⟩
      rw [← List.isChain_iff_pairwise, List.isChain_iff_getElem]
      intro i hi
      exact hnext hl i _ _ (List.getElem?_eq_getElem _) (List.getElem?_eq_getElem _)
    refine ⟨List.pairwise_reverse.mpr (hdesc.imp fun h => (hf hl).asymm h), ?_⟩
    exact stable_reverse (hf hl) (hdesc.imp fun h => not_equiv_of_gt h)

section Specs

variable {L : Prop} {o : Oracle σ T} {f : T → T → Bool} (hL : L → Answers o f) {v : List T} {s : S}
include hL

theorem extendRun_sat {descending : Bool} (n runLen : ℕ) (hn : runLen+n = v.length)
    (h2 : 2 ≤ runLen) (h : Run L f v runLen descending) :
    Sat L (extendRun o v descending n runLen) s
      (fun k s' => s' = s ∧ 2 ≤ k ∧ k ≤ v.length ∧ Run L f v k descending) fun s' => s' = s := by
  induction n generalizing runLen with
  | zero => exact sat_pure ⟨rfl, h2, by lia, h⟩
  | succ n ih =>
    obtain ⟨b, hb⟩ : ∃ b, v[runLen]? = some b := ⟨_, List.getElem?_eq_getElem (by lia)⟩
    obtain ⟨a, ha⟩ : ∃ a, v[runLen-1]? = some a := ⟨_, List.getElem?_eq_getElem (by lia)⟩
    refine .bind (sat_at hb (.bind (sat_at ha (.bind (sat_less hL rfl fun r hr => ?_)))))
    by_cases hd : r = descending
    · rw [if_pos hd]
      refine ih (runLen+1) (by lia) (by lia) fun hl i x y hi hx hy => ?_
      rcases Nat.lt_or_ge (i+1) runLen with hlt | hge
      · exact h hl i x y hlt hx hy
      · obtain rfl : i = runLen-1 := by lia
        rw [show runLen-1+1 = runLen by lia, hb] at hy
        rw [ha] at hx
        rw [← Option.some.inj hx, ← Option.some.inj hy, ← hd]
        exact (hr hl).symm
    · rw [if_neg hd]
      exact sat_pure ⟨rfl, h2, by lia, h⟩

theorem findExistingRun_sat :
    Sat L (findExistingRun o v) s
      (fun r s' => s' = s ∧ r.1 ≤ v.length ∧ (2 ≤ v.length → 2 ≤ r.1) ∧ Run L f v r.1 r.2)
      fun s' => s' = s := by
  unfold findExistingRun
  by_cases hlt : v.length < 2
  · rw [if_pos hlt]
    refine sat_pure ⟨rfl, le_rfl, fun h => h, fun _ i a b hi _ _ => ?_⟩
    simp only at hi
    lia
  rw [if_neg hlt]
  obtain ⟨b, hb⟩ : ∃ b, v[1]? = some b := ⟨_, List.getElem?_eq_getElem (by lia)⟩
  obtain ⟨a, ha⟩ : ∃ a, v[0]? = some a := ⟨_, List.getElem?_eq_getElem (by lia)⟩
  refine .bind (sat_at hb (.bind (sat_at ha (.bind (sat_less hL rfl fun r hr => ?_)))))
  refine (extendRun_sat hL (v.length-2) 2 (by lia) le_rfl fun hl i x y hi hx hy => ?_).call ?_
    fun s' _ h => h
  · obtain rfl : i = 0 := by lia
    rw [ha] at hx
    rw [Nat.zero_add, hb] at hy
    rw [← Option.some.inj hx, ← Option.some.inj hy]
    exact (hr hl).symm
  · rintro k s' ⟨rfl, h2, hk, hrun⟩
    exact sat_pure ⟨rfl, hk, fun _ => h2, hrun⟩

theorem median3_sat {a b c : ℕ} (ha : a < v.length) (hb : b < v.length) (hc : c < v.length) :
    Sat L (median3 o v a b c) s (fun i s' => s' = s ∧ i < v.length) fun s' => s' = s := by
  refine .bind (sat_at (List.getElem?_eq_getElem ha) (.bind (sat_at (List.getElem?_eq_getElem hb)
    (.bind (sat_at (List.getElem?_eq_getElem hc) ?_)))))
  refine .bind (sat_less hL rfl fun x _ => .bind (sat_less hL rfl fun y _ => ?_))
  by_cases hxy : x = y
  · rw [if_pos hxy]
    refine .bind (sat_less hL rfl fun z _ => sat_pure ⟨rfl, ?_⟩)
    split_ifs
    · exact hc
    · exact hb
  · rw [if_neg hxy]
    exact sat_pure ⟨rfl, ha⟩

theorem median3Rec_sat (fuel : ℕ) {a b c n : ℕ} (hn : 0 < n) (hfuel : n < fuel)
    (ha : a+n ≤ v.length) (hb : b+n ≤ v.length) (hc : c+n ≤ v.length) :
    Sat L (median3Rec o v fuel a b c n) s (fun i s' => s' = s ∧ i < v.length)
      fun s' => s' = s := by
  induction fuel generalizing a b c n s with
  | zero => lia
  | succ fuel ih =>
    unfold median3Rec
    by_cases h8 : n*8 ≥ 64
    · rw [if_pos h8]
      refine (ih (by lia) (by lia) (by lia) (by lia) (by lia)).call ?_ fun s' _ h => h
      rintro a' s' ⟨rfl, ha'⟩
      refine (ih (by lia) (by lia) (by lia) (by lia) (by lia)).call ?_ fun s' _ h => h
      rintro b' s' ⟨rfl, hb'⟩
      refine (ih (by lia) (by lia) (by lia) (by lia) (by lia)).call ?_ fun s' _ h => h
      rintro c' s' ⟨rfl, hc'⟩
      exact median3_sat hL ha' hb' hc'
    · rw [if_neg h8]
      exact median3_sat hL (by lia) (by lia) (by lia)

theorem choosePivot_sat (hv : 8 ≤ v.length) :
    Sat L (choosePivot o v) s (fun i s' => s' = s ∧ i < v.length) fun s' => s' = s := by
  unfold choosePivot
  rw [if_neg (by lia)]
  by_cases h64 : v.length < 64
  · rw [if_pos h64]
    exact median3_sat hL (by lia) (by lia) (by lia)
  · rw [if_neg h64]
    exact median3Rec_sat hL _ (by lia) (by lia) (by lia) (by lia) (by lia)

theorem equalsAncestor_sat {ancestor : Option T} {pivot : T} :
    Sat L (equalsAncestor o ancestor pivot) s
      (fun r s' => s' = s ∧ (r = true → L → ∃ p, ancestor = some p ∧ f p pivot = false))
      fun s' => s' = s := by
  cases ancestor with
  | none => exact sat_pure ⟨rfl, by simp⟩
  | some p =>
    refine .bind (sat_less hL rfl fun r hr => sat_pure ⟨rfl, fun h hl => ⟨p, rfl, ?_⟩⟩)
    rw [← hr hl]
    simpa using h

end Specs

end RustStd.Sort
