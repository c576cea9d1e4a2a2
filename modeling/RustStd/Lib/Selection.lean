import RustStd.Lib.WeakOrder

/-!
# Selection

A list has its place `k` right when nothing before it is greater and nothing
behind it is less than the element there. Up to equivalence this element is
determined by the elements of the list, and sorting puts it at the same place.
-/

set_option autoImplicit false

namespace RustStd.WeakOrder

variable {α : Type*} {f : α → α → Bool}

/-- Nothing in `ls` is greater and nothing in `gs` is less than `x`. -/
def Around (f : α → α → Bool) (ls : List α) (x : α) (gs : List α) : Prop :=
  (∀ y ∈ ls, f x y = false) ∧ ∀ y ∈ gs, f y x = false

def SelectedAt (f : α → α → Bool) (k : ℕ) (v : List α) : Prop :=
  ∃ ls x gs, v = ls++x::gs ∧ ls.length = k ∧ Around f ls x gs

theorem selectedAt_of_getElem {v : List α} {k : ℕ} {x : α} (hx : v[k]? = some x)
    (hl : ∀ y ∈ v.take k, f x y = false) (hg : ∀ y ∈ v.drop (k+1), f y x = false) :
    SelectedAt f k v := by
  obtain ⟨hk, rfl⟩ := List.getElem?_eq_some_iff.mp hx
  refine ⟨v.take k, v[k], v.drop (k+1), ?_, List.length_take_of_le hk.le, hl, hg⟩
  rw [← List.drop_eq_getElem_cons hk, List.take_append_drop]

theorem selectedAt_of_sorted {v : List α} {k : ℕ} (h : Sorted f v) (hk : k < v.length) :
    SelectedAt f k v := by
  have he : v = v.take k++v[k]::v.drop (k+1) := by
    rw [← List.drop_eq_getElem_cons hk, List.take_append_drop]
  rw [he] at h
  obtain ⟨-, hdrop, hle⟩ := sorted_append.mp h
  apply selectedAt_of_getElem (List.getElem?_eq_getElem hk)
  · intro y hy
    exact hle y hy _ (List.mem_cons_self ..)
  · exact (sorted_cons.mp hdrop).1

theorem SelectedAt.left (hf : Weak f) {k : ℕ} {ls gs : List α} {pivot : α} (h : SelectedAt f k ls)
    (hp : Around f ls pivot gs) : SelectedAt f k (ls++pivot::gs) := by
  obtain ⟨as, x, bs, rfl, hk, hx⟩ := h
  have hxp : f pivot x = false := hp.1 x (by simp)
  refine ⟨as, x, bs++pivot::gs, by simp, hk, hx.1, ?_⟩
  intro y hy
  rcases List.mem_append.mp hy with hy | hy
  · exact hx.2 y hy
  · rcases List.mem_cons.mp hy with rfl | hy
    · exact hxp
    · exact hf.le_trans hxp (hp.2 y hy)

theorem SelectedAt.right (hf : Weak f) {k : ℕ} {ls gs : List α} {pivot : α} (h : SelectedAt f k gs)
    (hp : Around f ls pivot gs) : SelectedAt f (ls.length+1+k) (ls++pivot::gs) := by
  obtain ⟨as, x, bs, rfl, hk, hx⟩ := h
  have hxp : f x pivot = false := hp.2 x (by simp)
  refine ⟨ls++pivot::as, x, bs, by simp, ?_, ?_, hx.2⟩
  · rw [List.length_append, List.length_cons, hk]
    omega
  intro y hy
  rcases List.mem_append.mp hy with hy | hy
  · exact hf.le_trans (hp.1 y hy) hxp
  · rcases List.mem_cons.mp hy with rfl | hy
    · exact hxp
    · exact hx.1 y hy

theorem Around.counts (hf : Weak f) {ls gs : List α} {x : α} (h : Around f ls x gs) :
    (ls++x::gs).countP (fun y => f y x) ≤ ls.length ∧
      ls.length < (ls++x::gs).countP fun y => !f x y := by
  rw [List.countP_append, List.countP_append]
  constructor
  · have hright : (x::gs).countP (fun y => f y x) = 0 := by
      apply List.countP_eq_zero.mpr
      intro y hy
      rcases List.mem_cons.mp hy with rfl | hy
      · simp [hf.irrefl y]
      · simp [h.2 y hy]
    rw [hright]
    exact List.countP_le_length
  · have hleft : ls.countP (fun y => !f x y) = ls.length := by
      apply List.countP_eq_length.mpr
      intro y hy
      simp [h.1 y hy]
    have hpos : 0 < (x::gs).countP fun y => !f x y :=
      List.countP_pos_iff.mpr ⟨x, by simp, by simp [hf.irrefl x]⟩
    omega

theorem Around.not_less (hf : Weak f) {ls gs ls' gs' : List α} {x y : α} (hx : Around f ls x gs)
    (hy : Around f ls' y gs') (hlen : ls.length = ls'.length)
    (hp : (ls'++y::gs').Perm (ls++x::gs)) : f x y = false := by
  by_contra hxy
  have hlt : f x y = true := by simpa using hxy
  have hmono : (ls'++y::gs').countP (fun a => !f x a) ≤ (ls'++y::gs').countP fun a => f a y := by
    apply List.countP_mono_left
    intro a _ ha
    exact hf.lt_of_le_of_lt (by simpa using ha) hlt
  have h₁ := (hx.counts hf).2
  have h₂ := (hy.counts hf).1
  rw [← hp.countP_eq] at h₁
  omega

theorem SelectedAt.equiv (hf : Weak f) {v w : List α} {k : ℕ} {x y : α} (hp : w.Perm v)
    (hv : SelectedAt f k v) (hw : SelectedAt f k w) (hx : v[k]? = some x) (hy : w[k]? = some y) :
    equiv f x y = true := by
  obtain ⟨ls, x', gs, rfl, hls, hax⟩ := hv
  obtain ⟨ls', y', gs', rfl, hls', hay⟩ := hw
  obtain rfl : x' = x := by simpa [← hls] using hx
  obtain rfl : y' = y := by simpa [← hls'] using hy
  have hlen := hls.trans hls'.symm
  exact (equiv_iff x' y').mpr
    ⟨hax.not_less hf hay hlen hp, hay.not_less hf hax hlen.symm hp.symm⟩

end RustStd.WeakOrder
