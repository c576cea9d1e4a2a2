import RustStd.Lib.HeapOrder
import RustStd.Sort.InsertionSort

/-!
# Heapsort

The fallback of the unstable quicksort. Both phases are one loop over the
indices from `len + len / 2` down; above `len` it builds the heap and below it
takes the greatest element out. Elements are only ever swapped.
-/

set_option autoImplicit false

namespace RustStd.Sort
open RustStd.Unwind RustStd.WeakOrder RustStd.HeapOrder

variable {σ T : Type}

/-- The greater of the two children that start at `child`. -/
def greaterChild (o : Oracle σ T) (child : ℕ) : SortM σ (List T) ℕ := do
  let len := (← get).length
  if child+1 < len then do
    let a ← read child
    let b ← read (child+1)
    return child+(← less o a b).toNat
  else return child

def siftDown (o : Oracle σ T) : ℕ → ℕ → SortM σ (List T) Unit
  | 0, _ => exit .outOfFuel
  | fuel+1, node => do
    let len := (← get).length
    if 2*node+1 ≥ len then pure ()
    else do
      let child ← greaterChild o (2*node+1)
      let x ← read node
      let y ← read child
      if ← less o x y then do
        swap node child
        siftDown o fuel child
      else pure ()

def heapsortLoop (o : Oracle σ T) (len : ℕ) : ℕ → SortM σ (List T) Unit
  | 0 => pure ()
  | i+1 =>
    if i ≥ len then do
      onSlice 0 len (siftDown o (len+1) (i-len))
      heapsortLoop o len i
    else do
      swap 0 i
      onSlice 0 i (siftDown o (i+1) 0)
      heapsortLoop o len i

def heapsort (o : Oracle σ T) : SortM σ (List T) Unit := do
  let len := (← get).length
  heapsortLoop o len (len+len/2)

section Specs

variable {L : Prop} {o : Oracle σ T} {f : T → T → Bool} (hL : L → Answers o f) (hf : L → Weak f)
include hL hf

theorem greaterChild_sat {v : List T} {node : ℕ} (hnode : 2*node+1 < v.length) :
    Sat L (greaterChild o (2*node+1)) v
      (fun c v' => v' = v ∧ IsChild c node ∧ ∃ y, v[c]? = some y ∧
        (L → ∀ j b, IsChild j node → v[j]? = some b → f y b = false)) fun v' => v' = v := by
  obtain ⟨a, ha⟩ : ∃ a, v[2*node+1]? = some a := ⟨_, List.getElem?_eq_getElem hnode⟩
  refine .bind (sat_get ?_)
  by_cases h2 : 2*node+1+1 < v.length
  · rw [if_pos h2]
    obtain ⟨b, hb⟩ : ∃ b, v[2*node+1+1]? = some b := ⟨_, List.getElem?_eq_getElem h2⟩
    refine .bind (sat_read ha (.bind (sat_read hb (.bind (sat_less hL rfl fun r hr => ?_)))))
    cases r with
    | true =>
      refine sat_pure ⟨rfl, isChild_iff.mpr (.inr rfl), b, hb, fun hl j d hj hd => ?_⟩
      rcases isChild_iff.mp hj with rfl | rfl
      · rw [ha] at hd
        rw [← Option.some.inj hd]
        exact (hf hl).asymm (hr hl).symm
      · rw [hb] at hd
        rw [← Option.some.inj hd]
        exact (hf hl).irrefl b
    | false =>
      refine sat_pure ⟨rfl, isChild_iff.mpr (.inl rfl), a, ha, fun hl j d hj hd => ?_⟩
      rcases isChild_iff.mp hj with rfl | rfl
      · rw [ha] at hd
        rw [← Option.some.inj hd]
        exact (hf hl).irrefl a
      · rw [hb] at hd
        rw [← Option.some.inj hd]
        exact (hr hl).symm
  · rw [if_neg h2]
    refine sat_pure ⟨rfl, isChild_iff.mpr (.inl rfl), a, ha, fun hl j d hj hd => ?_⟩
    have := (List.getElem?_eq_some_iff.mp hd).1
    obtain rfl : j = 2*node+1 := by
      have := isChild_iff.mp hj
      omega
    rw [ha] at hd
    rw [← Option.some.inj hd]
    exact (hf hl).irrefl a

theorem siftDown_sat (fuel : ℕ) {v : List T} {k node : ℕ} (hfuel : v.length-node < fuel)
    (hk : k ≤ node) (h : L → HeapBut f k node v) :
    Sat L (siftDown o fuel node) v (fun _ v' => v'.Perm v ∧ (L → Heap f k v'))
      fun v' => v'.Perm v := by
  induction fuel generalizing v node with
  | zero => omega
  | succ fuel ih =>
    refine .bind (sat_get ?_)
    by_cases hleaf : 2*node+1 ≥ v.length
    · rw [if_pos hleaf]
      exact sat_pure ⟨.refl v, fun hl => (h hl).of_leaf hleaf⟩
    rw [if_neg hleaf]
    refine (greaterChild_sat hL hf (by omega)).call ?_ fun v' _ h => h ▸ .refl v
    rintro c v ⟨rfl, hc, y, hy, hmax⟩
    obtain ⟨x, hx⟩ : ∃ x, v[node]? = some x := ⟨_, List.getElem?_eq_getElem (by omega)⟩
    have hlt := hc.lt
    refine .bind (sat_read hx (.bind (sat_read hy (.bind (sat_less hL (.refl v) fun r hr => ?_)))))
    cases r with
    | true =>
      refine .bind (sat_swap hx hy ?_)
      refine (ih (by simp; omega) (by omega) fun hl => (h hl).swap (hf hl) hk hc hy (hmax hl)
        (hr hl).symm).mono (fun _ v' h => ⟨h.1.trans (perm_swap hx hy), h.2⟩)
        fun v' _ h => h.trans (perm_swap hx hy)
    | false =>
      exact sat_pure ⟨.refl v, fun hl => (h hl).stop (hf hl) hx (hmax hl) (hr hl).symm⟩

/-- The greatest element of the heap `m` goes in front of the sorted part `s`. -/
theorem heapsortLoop_take_sat {len : ℕ} {v₀ : List T} (i : ℕ) {m s : List T} (hi : m.length = i)
    (hlen : i ≤ len) (hperm : (m ++ s).Perm v₀)
    (hlaw : L → Heap f 0 m ∧ Sorted f s ∧ ∀ a ∈ m, ∀ b ∈ s, f b a = false) :
    Sat L (heapsortLoop o len i) (m ++ s) (fun _ v' => SortedPerm L f v₀ v')
      fun v' => v'.Perm v₀ := by
  induction i generalizing m s with
  | zero =>
    obtain rfl := List.length_eq_zero_iff.mp hi
    exact sat_pure ⟨hperm, fun hl => (hlaw hl).2.1⟩
  | succ i ih =>
    unfold heapsortLoop
    rw [if_neg (by omega)]
    -- the root `x` and the last element change places
    obtain ⟨x, t, hx, htl, hswap, htx, hheap⟩ : ∃ x t, m[0]? = some x ∧ t.length = i ∧
        Sat L (swap 0 i : SortM σ (List T) Unit) (m ++ s) (fun _ v => v = t ++ x :: s)
          (fun _ => False) ∧ (t ++ [x]).Perm m ∧ (L → HeapBut f 0 0 t) := by
      obtain ⟨w, z, rfl⟩ : ∃ w z, m = w ++ [z] := by
        simpa using (List.eq_nil_or_concat m).resolve_left (by rintro rfl; simp at hi)
      have hw : w.length = i := by simpa using hi
      cases w with
      | nil =>
        obtain rfl : i = 0 := by simpa using hw.symm
        refine ⟨z, [], rfl, rfl, sat_swap (x := z) (y := z) rfl rfl rfl, .refl _, fun _ => ?_⟩
        exact (heap_leaves f (by simp)).root_but
      | cons x w =>
        have hget : (x :: w ++ [z] ++ s)[i]? = some z := by
          rw [← hw, List.append_assoc]
          simp
        refine ⟨x, z :: w, rfl, by simpa using hw, sat_swap (x := x) rfl hget ?_, ?_, fun hl => ?_⟩
        · rw [← hw]
          simp
        · exact (List.perm_append_singleton x (z :: w)).trans
            ((List.perm_append_singleton z w).symm.cons x)
        · exact (hlaw hl).1.root_but.last_to_root
    have hperm' : (t ++ x :: s).Perm v₀ := by
      rw [List.append_cons]
      exact (htx.append_right s).trans hperm
    refine hswap.call ?_ (by simp)
    rintro ⟨⟩ _ rfl
    refine (Sat.onSlice (p := []) (w := t) (r := x :: s) (by simp) rfl htl
      (siftDown_sat hL hf (i+1) (by omega) (le_refl 0) hheap)).call ?_ ?_
    · rintro ⟨⟩ _ ⟨t', rfl, ht', hh⟩
      refine ih (by simpa [htl] using ht'.length_eq) (by omega)
        ((ht'.append_right _).trans hperm') fun hl => ⟨hh hl, ?_, ?_⟩
      · refine sorted_cons.mpr ⟨fun b hb => ?_, (hlaw hl).2.1⟩
        exact (hlaw hl).2.2 x (List.mem_of_getElem? hx) b hb
      · intro a ha b hb
        have ham : a ∈ m := htx.subset (by simp [ht'.subset ha])
        rcases List.mem_cons.mp hb with rfl | hb
        · obtain ⟨n, hn⟩ := List.mem_iff_getElem?.mp ham
          exact (hlaw hl).1.root (hf hl) hx n hn
        · exact (hlaw hl).2.2 a ham b hb
    · rintro _ - ⟨t', rfl, ht'⟩
      exact (ht'.append_right _).trans hperm'

theorem heapsortLoop_build_sat {v₀ : List T} (n : ℕ) {v : List T} (hperm : v.Perm v₀)
    (hheap : L → Heap f n v) :
    Sat L (heapsortLoop o v.length (v.length+n)) v (fun _ v' => SortedPerm L f v₀ v')
      fun v' => v'.Perm v₀ := by
  induction n generalizing v with
  | zero =>
    have := heapsortLoop_take_sat hL hf v.length (m := v) (s := []) rfl le_rfl (by simpa) fun hl =>
      ⟨hheap hl, .nil, by simp⟩
    simpa using this
  | succ n ih =>
    rw [← Nat.add_assoc]
    unfold heapsortLoop
    rw [if_pos (by omega), Nat.add_sub_cancel_left]
    refine (Sat.onSlice (p := []) (w := v) (r := []) (by simp) rfl rfl
      (siftDown_sat hL hf _ (by omega) le_rfl fun hl => (hheap hl).heapBut)).call ?_ ?_
    · rintro ⟨⟩ _ ⟨v', rfl, hv', hh⟩
      rw [List.nil_append, List.append_nil, ← hv'.length_eq]
      exact ih (hv'.trans hperm) hh
    · rintro _ - ⟨v', rfl, hv'⟩
      rw [List.nil_append, List.append_nil]
      exact hv'.trans hperm

theorem heapsort_sat (v : List T) :
    Sat L (heapsort o) v (fun _ v' => SortedPerm L f v v') fun v' => v'.Perm v := by
  exact .bind (sat_get (heapsortLoop_build_sat hL hf _ (.refl v) fun _ => heap_leaves f (by omega)))

end Specs

end RustStd.Sort
