import RustStd.Lib.Loop
import RustStd.Lib.Machine

/-!
# Binary search

`binary_search_by` of `core::slice`. The loop halves the size without looking
for an early end, and an element that compared greater may stay in the range;
only the last comparison decides. The comparator may change a state of its own.
-/

set_option autoImplicit false

namespace RustStd.BinarySearch
open RustStd.Loop

variable {σ α : Type}

abbrev Comparator (σ α : Type) := σ → α → Ordering × σ

structure Searching (σ : Type) where
  base : ℕ
  size : ℕ
  captured : σ

def searchBody (f : Comparator σ α) (self : List α) (s : Searching σ) :
    Option (Searching σ ⊕ Searching σ) :=
  if s.size > 1 then do
    let half := s.size/2
    let mid := s.base+half
    let x ← self[mid]?
    let (cmp, captured) := f s.captured x
    let base := if cmp = .gt then s.base else mid
    return .inl { base, size := s.size-half, captured }
  else some (.inr s)

/-- The `assert_unchecked` at the end is undefined when it does not hold. -/
def assume (c : Prop) [Decidable c] : Option Unit := if c then some () else none

def binarySearchBy (f : Comparator σ α) (self : List α) (captured : σ) :
    Option (Except ℕ ℕ × σ) :=
  let size := self.length
  if size = 0 then some (.error 0, captured)
  else do
    let s ← loop (searchBody f self) (size+1) { base := 0, size, captured }
    let x ← self[s.base]?
    let (cmp, captured) := f s.captured x
    if cmp = .eq then
      assume (s.base < self.length)
      return (.ok s.base, captured)
    else
      let result := s.base+(decide (cmp = .lt)).toNat
      assume (result ≤ self.length)
      return (.error result, captured)

def Answers (f : Comparator σ α) (g : α → Ordering) : Prop := ∀ s x, (f s x).1 = g x

/-- First the elements that are less, then the equal ones, then the greater ones. -/
def OrderedBy (g : α → Ordering) (v : List α) : Prop :=
  ∃ less equal greater, v = less ++ equal ++ greater ∧ (∀ x ∈ less, g x = .lt) ∧
    (∀ x ∈ equal, g x = .eq) ∧ ∀ x ∈ greater, g x = .gt

def InBounds (v : List α) : Except ℕ ℕ → Prop
  | .ok i => i < v.length
  | .error i => i ≤ v.length

/-- What a search finds: an equal element if there is one, and otherwise the place
between the less and the greater ones. -/
def Finds (g : α → Ordering) (v : List α) : Except ℕ ℕ → Prop
  | .ok i => ∃ x, v[i]? = some x ∧ g x = .eq
  | .error i => (∀ x ∈ v, g x ≠ .eq) ∧ (∀ j x, j < i → v[j]? = some x → g x = .lt) ∧
      ∀ j x, i ≤ j → v[j]? = some x → g x = .gt

section Ordered

variable {g : α → Ordering} {v : List α} {i j : ℕ} {x y : α}

theorem OrderedBy.not_gt (h : OrderedBy g v) (hij : i ≤ j) (hx : v[i]? = some x)
    (hy : v[j]? = some y) (hg : g y ≠ .gt) : g x ≠ .gt := by
  obtain ⟨less, equal, greater, rfl, hl, he, hgt⟩ := h
  have hj : j < (less ++ equal).length := by
    by_contra hge
    rw [List.getElem?_append_right (by omega)] at hy
    exact hg (hgt y (List.mem_of_getElem? hy))
  rw [List.getElem?_append_left (by omega)] at hx
  rcases List.mem_append.mp (List.mem_of_getElem? hx) with hm | hm
  · rw [hl x hm]
    decide
  · rw [he x hm]
    decide

theorem OrderedBy.lt (h : OrderedBy g v) (hij : i ≤ j) (hx : v[i]? = some x)
    (hy : v[j]? = some y) (hg : g y = .lt) : g x = .lt := by
  obtain ⟨less, equal, greater, rfl, hl, he, hgt⟩ := h
  rw [List.append_assoc] at hx hy
  have hj : j < less.length := by
    by_contra hge
    rw [List.getElem?_append_right (by omega)] at hy
    rcases List.mem_append.mp (List.mem_of_getElem? hy) with hm | hm
    · rw [he y hm] at hg
      cases hg
    · rw [hgt y hm] at hg
      cases hg
  rw [List.getElem?_append_left (by omega)] at hx
  exact hl x (List.mem_of_getElem? hx)

end Ordered

/-- The range of the search: the first element of it is not greater unless it is
the first of all, and behind the range all are greater. -/
structure Narrowed (g : α → Ordering) (v : List α) (base size : ℕ) : Prop where
  first : base ≠ 0 → ∀ x, v[base]? = some x → g x ≠ .gt
  behind : ∀ j x, base+size ≤ j → v[j]? = some x → g x = .gt

theorem Narrowed.round {g : α → Ordering} {v : List α} {base size : ℕ} (h : Narrowed g v base size)
    (hv : OrderedBy g v) (hsize : 1 < size) {x : α} (hx : v[base+size/2]? = some x) :
    Narrowed g v (if g x = .gt then base else base+size/2) (size-size/2) := by
  by_cases hg : g x = .gt
  · rw [if_pos hg]
    refine ⟨h.first, fun j y hj hy => ?_⟩
    by_contra hne
    exact hv.not_gt (show base+size/2 ≤ j by omega) hx hy hne hg
  · rw [if_neg hg]
    constructor
    · intro _ y hy
      rw [hx] at hy
      rwa [← Option.some.inj hy]
    · intro j y hj hy
      exact h.behind j y (by omega) hy

theorem Narrowed.finds {g : α → Ordering} {v : List α} {base : ℕ} (h : Narrowed g v base 1)
    (hv : OrderedBy g v) {x : α} (hx : v[base]? = some x) (hne : g x ≠ .eq) :
    Finds g v (.error (base+(decide (g x = .lt)).toNat)) := by
  have hbehind {j : ℕ} {y : α} (hj : base < j) (hy : v[j]? = some y) : g y = .gt :=
    h.behind j y hj hy
  cases hg : g x with
  | eq => exact absurd hg hne
  | lt =>
    have hbefore {j : ℕ} {y : α} (hj : j ≤ base) (hy : v[j]? = some y) : g y = .lt :=
      hv.lt hj hy hx hg
    refine ⟨fun y hy => ?_, fun j y hj hy => hbefore (by simpa using Nat.le_of_lt_succ hj) hy,
      fun j y hj hy => hbehind (by simpa using hj) hy⟩
    obtain ⟨j, hj⟩ := List.mem_iff_getElem?.mp hy
    rcases Nat.lt_or_ge base j with hlt | hge
    · rw [hbehind hlt hj]
      decide
    · rw [hbefore hge hj]
      decide
  | gt =>
    have hzero : base = 0 := by
      by_contra h0
      exact h.first h0 x hx hg
    subst hzero
    have hall {j : ℕ} {y : α} (hy : v[j]? = some y) : g y = .gt := by
      rcases Nat.eq_zero_or_pos j with rfl | hj
      · rw [hx] at hy
        rwa [← Option.some.inj hy]
      · exact hbehind hj hy
    refine ⟨fun y hy => ?_, fun j y hj hy => absurd hj (by simp), fun j y _ hy => hall hy⟩
    obtain ⟨j, hj⟩ := List.mem_iff_getElem?.mp hy
    rw [hall hj]
    decide

def Invariant (f : Comparator σ α) (v : List α) (s : Searching σ) : Prop :=
  0 < s.size ∧ s.base+s.size ≤ v.length ∧
    ∀ g, Answers f g → OrderedBy g v → Narrowed g v s.base s.size

theorem searchBody_round (f : Comparator σ α) (v : List α) (s : Searching σ)
    (h : Invariant f v s) :
    ∃ r, searchBody f v s = some r ∧
      Round (Invariant f v) Searching.size (fun s => Invariant f v s ∧ s.size = 1) s r := by
  obtain ⟨hpos, hle, hn⟩ := h
  unfold searchBody
  by_cases hsize : s.size > 1
  · rw [if_pos hsize]
    obtain ⟨x, hx⟩ : ∃ x, v[s.base+s.size/2]? = some x := ⟨_, List.getElem?_eq_getElem (by omega)⟩
    simp only [hx, some_bind]
    refine ⟨_, rfl, ⟨?_, ?_, fun g hf hv => ?_⟩, ?_⟩
    · change 0 < s.size-s.size/2
      omega
    · change (if (f s.captured x).1 = .gt then s.base else s.base+s.size/2)+(s.size-s.size/2) ≤ _
      split_ifs <;> omega
    · have hround := (hn g hf hv).round hv hsize hx
      rw [← hf s.captured x] at hround
      exact hround
    · change s.size-s.size/2 < s.size
      omega
  · rw [if_neg hsize]
    exact ⟨_, rfl, ⟨hpos, hle, hn⟩, by omega⟩

/-- The search ends without a probe outside of the slice, for any comparator; with a
comparator for which the slice is ordered it returns an index of an equal element if
and only if there is one, and otherwise the place where one belongs. -/
theorem binarySearchBy_correct (f : Comparator σ α) (v : List α) (captured : σ) :
    ∃ r captured', binarySearchBy f v captured = some (r, captured') ∧ InBounds v r ∧
      ∀ g, Answers f g → OrderedBy g v →
        Finds g v r ∧ ((∃ i, r = .ok i) ↔ ∃ x ∈ v, g x = .eq) := by
  unfold binarySearchBy
  by_cases hz : v.length = 0
  · obtain rfl := List.length_eq_zero_iff.mp hz
    refine ⟨.error 0, captured, by simp, Nat.zero_le _, fun g _ _ => ⟨?_, ?_⟩⟩
    · simp [Finds]
    · simp
  · have hinit : Invariant f v { base := 0, size := v.length, captured } := by
      refine ⟨Nat.pos_of_ne_zero hz, by simp, fun g _ _ => ⟨fun h0 => absurd rfl h0, ?_⟩⟩
      intro j x hj hx
      rw [List.getElem?_eq_none (by simpa using hj)] at hx
      cases hx
    obtain ⟨s, hs, ⟨-, hle, hn⟩, hone⟩ := loop_total (Invariant f v) Searching.size
      (fun s => Invariant f v s ∧ s.size = 1) (searchBody_round f v) (v.length+1) _ hinit
      (Nat.lt_succ_self _)
    rw [hone] at hle hn
    obtain ⟨x, hx⟩ : ∃ x, v[s.base]? = some x := ⟨_, List.getElem?_eq_getElem (by omega)⟩
    simp only [if_neg hz, hs, hx, some_bind]
    by_cases hc : (f s.captured x).1 = .eq
    · rw [if_pos hc, assume, if_pos (by omega)]
      refine ⟨_, _, rfl, show s.base < v.length by omega, fun g hf _ => ?_⟩
      rw [hf] at hc
      exact ⟨⟨x, hx, hc⟩, fun _ => ⟨x, List.mem_of_getElem? hx, hc⟩, fun _ => ⟨_, rfl⟩⟩
    · have hbit : (decide ((f s.captured x).1 = .lt)).toNat ≤ 1 := Bool.toNat_le _
      rw [if_neg hc, assume, if_pos (by omega)]
      refine ⟨_, _, rfl, show s.base+_ ≤ v.length by omega, fun g hf hv => ?_⟩
      have hfinds := (hn g hf hv).finds hv hx (by rwa [hf] at hc)
      rw [← hf s.captured x] at hfinds
      refine ⟨hfinds, ⟨?_, ?_⟩⟩
      · rintro ⟨i, hi⟩
        cases hi
      · rintro ⟨y, hy, hg⟩
        exact absurd hg (hfinds.1 y hy)

theorem binarySearchBy_correct_counting :
    ∃ r n, binarySearchBy (fun (n : ℕ) x => (compare x 5, n+1)) [1, 3, 5, 5, 9] 0 = some (r, n) ∧
      Finds (compare · 5) [1, 3, 5, 5, 9] r ∧ ∃ i, r = .ok i := by
  obtain ⟨r, n, hr, -, hlawful⟩ :=
    binarySearchBy_correct (fun (n : ℕ) x => (compare x 5, n+1)) [1, 3, 5, 5, 9] 0
  have hordered : OrderedBy (compare · 5) [1, 3, 5, 5, 9] :=
    ⟨[1, 3], [5, 5], [9], rfl, by decide, by decide, by decide⟩
  obtain ⟨hfinds, hfound⟩ := hlawful (compare · 5) (fun _ _ => rfl) hordered
  exact ⟨r, n, hr, hfinds, hfound.mpr ⟨5, by decide, rfl⟩⟩

end RustStd.BinarySearch
