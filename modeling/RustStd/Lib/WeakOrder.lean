import Mathlib

/-!
# Stable sorting by a strict weak order

A comparison function is a strict weak order in the sense of Mathlib. Two
lists are stable rearrangements of each other when they agree on every class of
equivalent elements. This is a congruence, so it can be followed through the
steps of an algorithm, and a sorted stable rearrangement is unique.
-/

set_option autoImplicit false

namespace RustStd.WeakOrder

variable {α : Type*} {f : α → α → Bool}

def Weak (f : α → α → Bool) : Prop := IsStrictWeakOrder α fun a b => f a b = true

theorem Weak.irrefl (h : Weak f) (a : α) : f a a = false := by
  have := h.toIsStrictOrder
  simpa using irrefl_of (fun a b => f a b = true) a

theorem Weak.trans (h : Weak f) {a b c : α} (hab : f a b = true) (hbc : f b c = true) :
    f a c = true := by
  have := h.toIsStrictOrder
  exact trans_of (fun a b => f a b = true) hab hbc

theorem Weak.asymm (h : Weak f) {a b : α} (hab : f a b = true) : f b a = false := by
  by_contra hba
  have := h.trans hab (by simpa using hba)
  rw [h.irrefl] at this
  simp at this

theorem Weak.le_trans (h : Weak f) {a b c : α} (hab : f b a = false) (hbc : f c b = false) :
    f c a = false := by
  by_contra hca
  have hca : f c a = true := by simpa using hca
  by_cases hab' : f a b = true
  · rw [h.trans hca hab'] at hbc
    simp at hbc
  by_cases hbc' : f b c = true
  · rw [h.trans hbc' hca] at hab
    simp at hab
  have hincomp := h.incomp_trans a b c
  simp only [hab, hbc, hab', hbc', hca] at hincomp
  simp at hincomp

theorem Weak.lt_of_lt_of_le (h : Weak f) {a b c : α} (hab : f a b = true) (hbc : f c b = false) :
    f a c = true := by
  by_contra hac
  have := h.le_trans hbc (show f a c = false by simpa using hac)
  rw [hab] at this
  simp at this

theorem Weak.lt_of_le_of_lt (h : Weak f) {a b c : α} (hab : f b a = false) (hbc : f b c = true) :
    f a c = true := by
  by_contra hac
  have := h.le_trans (show f a c = false by simpa using hac) hab
  rw [hbc] at this
  simp at this

def Sorted (f : α → α → Bool) (l : List α) : Prop := l.Pairwise fun a b => f b a = false

def equiv (f : α → α → Bool) (a b : α) : Bool := !f a b && !f b a

theorem equiv_iff (a b : α) : equiv f a b = true ↔ f a b = false ∧ f b a = false := by
  simp [equiv]

theorem Weak.equiv_self (h : Weak f) (a : α) : equiv f a a = true := by
  simp [equiv_iff, h.irrefl]

theorem equiv_symm {a b : α} (hab : equiv f a b = true) : equiv f b a = true := by
  simp only [equiv_iff] at *
  exact ⟨hab.2, hab.1⟩

theorem Weak.equiv_trans (h : Weak f) {a b c : α} (hab : equiv f a b = true)
    (hbc : equiv f b c = true) : equiv f a c = true := by
  simp only [equiv_iff] at *
  exact ⟨h.le_trans hbc.1 hab.1, h.le_trans hab.2 hbc.2⟩

/-- The same elements, and equivalent ones in the same order. -/
def Stable (f : α → α → Bool) (l l' : List α) : Prop :=
  ∀ x, l'.filter (equiv f x) = l.filter (equiv f x)

theorem Stable.refl (l : List α) : Stable f l l := fun _ => rfl

theorem Stable.trans {l l' l'' : List α} (h : Stable f l l') (h' : Stable f l' l'') :
    Stable f l l'' :=
  fun x => (h' x).trans (h x)

theorem Stable.append {l l' r r' : List α} (hl : Stable f l l') (hr : Stable f r r') :
    Stable f (l ++ r) (l' ++ r') := by
  intro x
  rw [List.filter_append, List.filter_append, hl x, hr x]

theorem Stable.cons {l l' : List α} (x : α) (h : Stable f l l') : Stable f (x :: l) (x :: l') :=
  Stable.append (Stable.refl [x]) h

theorem Stable.perm (hf : Weak f) {l l' : List α} (h : Stable f l l') : l'.Perm l := by
  classical
  rw [List.perm_iff_count]
  intro a
  have hc (r : List α) : (r.filter (equiv f a)).count a = r.count a :=
    List.count_filter (hf.equiv_self a)
  rw [← hc l, ← hc l', h a]

theorem Stable.move (hf : Weak f) {x : α} {l : List α} (h : ∀ y ∈ l, equiv f x y = false) :
    Stable f (l ++ [x]) (x :: l) := by
  intro z
  rw [List.filter_append, List.filter_cons, List.filter_singleton]
  by_cases hz : equiv f z x = true
  · have hnil : l.filter (equiv f z) = [] := by
      rw [List.filter_eq_nil_iff]
      intro y hy hzy
      have := hf.equiv_trans (equiv_symm hz) hzy
      rw [h y hy] at this
      simp at this
    simp [hz, hnil]
  · simp [hz]

theorem Stable.swap (hf : Weak f) {x y : α} (h : equiv f y x = false) (l r : List α) :
    Stable f (l ++ x :: y :: r) (l ++ y :: x :: r) :=
  (Stable.refl l).append ((Stable.move hf (x := y) (l := [x]) (by simpa using h)).append
    (Stable.refl r))

theorem Stable.symm {l l' : List α} (h : Stable f l l') : Stable f l' l := fun x => (h x).symm

theorem not_equiv_of_lt {a b : α} (h : f a b = true) : equiv f a b = false := by
  simp [equiv, h]

theorem not_equiv_of_gt {a b : α} (h : f b a = true) : equiv f a b = false := by
  simp [equiv, h]

/-- A partition by a predicate that does not split classes. -/
theorem stable_partition {p : α → Bool} (hp : ∀ a b, equiv f a b = true → p a = p b)
    (l : List α) : Stable f l (l.filter p ++ l.filter fun a => !p a) := by
  intro x
  rw [List.filter_append, List.filter_filter, List.filter_filter]
  by_cases hx : p x = true
  · have h1 : l.filter (fun a => equiv f x a && p a) = l.filter (equiv f x) := by
      apply List.filter_congr
      intro a _
      by_cases ha : equiv f x a = true
      · simp [ha, ← hp x a ha, hx]
      · simp [ha]
    have h2 : l.filter (fun a => equiv f x a && !p a) = [] := by
      rw [List.filter_eq_nil_iff]
      intro a _ ha
      rw [Bool.and_eq_true] at ha
      simp [← hp x a ha.1, hx] at ha
    rw [h1, h2, List.append_nil]
  · have h1 : l.filter (fun a => equiv f x a && p a) = [] := by
      rw [List.filter_eq_nil_iff]
      intro a _ ha
      rw [Bool.and_eq_true] at ha
      rw [← hp x a ha.1] at ha
      exact hx ha.2
    have h2 : l.filter (fun a => equiv f x a && !p a) = l.filter (equiv f x) := by
      apply List.filter_congr
      intro a _
      by_cases ha : equiv f x a = true
      · simp [ha, ← hp x a ha, hx]
      · simp [ha]
    rw [h1, h2, List.nil_append]

theorem stable_reverse (hf : Weak f) {l : List α} (h : l.Pairwise fun a b => equiv f a b = false) :
    Stable f l l.reverse := by
  induction l with
  | nil => exact Stable.refl _
  | cons x l ih =>
    obtain ⟨hx, hl⟩ := List.pairwise_cons.mp h
    rw [List.reverse_cons]
    exact ((ih hl).cons x).trans
      (Stable.move hf fun y hy => hx y (List.mem_reverse.mp hy)).symm

theorem sorted_append {l r : List α} :
    Sorted f (l ++ r) ↔ Sorted f l ∧ Sorted f r ∧ ∀ a ∈ l, ∀ b ∈ r, f b a = false :=
  List.pairwise_append

theorem sorted_cons {x : α} {l : List α} :
    Sorted f (x :: l) ↔ (∀ b ∈ l, f b x = false) ∧ Sorted f l :=
  List.pairwise_cons

theorem sorted_pair {a b : α} : Sorted f [a, b] ↔ f b a = false :=
  List.pairwise_pair

theorem sorted_of_neighbours (hf : Weak f) {l : List α}
    (h : ∀ i a b, l[i]? = some a → l[i+1]? = some b → f b a = false) : Sorted f l := by
  have htr : IsTrans α fun a b => f b a = false := ⟨fun a b c hab hbc => hf.le_trans hab hbc⟩
  rw [Sorted, ← List.isChain_iff_pairwise]
  rw [List.isChain_iff_getElem]
  intro i hi
  exact h i _ _ (List.getElem?_eq_getElem _) (List.getElem?_eq_getElem _)

/-- A rearrangement, which is the stable sorting in the lawful case. -/
def SortOf (L : Prop) (f : α → α → Bool) (l l' : List α) : Prop :=
  l'.Perm l ∧ (L → Sorted f l' ∧ Stable f l l')

theorem SortOf.length {L : Prop} {l l' : List α} (h : SortOf L f l l') : l'.length = l.length :=
  h.1.length_eq

theorem SortOf.of_stable {L : Prop} {l l' l'' : List α} (h : SortOf L f l' l'') (hp : l'.Perm l)
    (hs : L → Stable f l l') : SortOf L f l l'' :=
  ⟨h.1.trans hp, fun hl => ⟨(h.2 hl).1, (hs hl).trans (h.2 hl).2⟩⟩

/-- A rearrangement, which is sorted in the lawful case. -/
def SortedPerm (L : Prop) (f : α → α → Bool) (l l' : List α) : Prop :=
  l'.Perm l ∧ (L → Sorted f l')

theorem SortOf.sortedPerm {L : Prop} {l l' : List α} (h : SortOf L f l l') :
    SortedPerm L f l l' :=
  ⟨h.1, fun hl => (h.2 hl).1⟩

theorem SortedPerm.length {L : Prop} {l l' : List α} (h : SortedPerm L f l l') :
    l'.length = l.length :=
  h.1.length_eq

/-- The order of the positions of a list in its stable sorting. -/
def Before (f : α → α → Bool) (g : ℕ → α) (i j : ℕ) : Prop :=
  f (g i) (g j) = true ∨ (f (g j) (g i) = false ∧ i < j)

theorem Before.le (hf : Weak f) {g : ℕ → α} {i j : ℕ} (h : Before f g i j) :
    f (g j) (g i) = false :=
  h.elim (fun h => hf.asymm h) fun h => h.1

theorem Before.trans (hf : Weak f) {g : ℕ → α} {i j k : ℕ} (h : Before f g i j)
    (h' : Before f g j k) : Before f g i k := by
  rcases h with h | ⟨h, hij⟩
  · exact .inl (hf.lt_of_lt_of_le h (h'.le hf))
  · rcases h' with h' | ⟨h', hjk⟩
    · exact .inl (hf.lt_of_le_of_lt h h')
    · exact .inr ⟨hf.le_trans h h', hij.trans hjk⟩

theorem Before.irrefl (hf : Weak f) {g : ℕ → α} (i : ℕ) : ¬ Before f g i i := by
  rintro (h | ⟨-, h⟩)
  · rw [hf.irrefl] at h
    simp at h
  · omega

/-- Positions that are sorted in this sense give a stable sorting. -/
theorem stable_of_before (hf : Weak f) {g : ℕ → α} {n : ℕ} {is : List ℕ}
    (hp : is.Perm (List.range n)) (hs : is.Pairwise (Before f g)) :
    Sorted f (is.map g) ∧ Stable f ((List.range n).map g) (is.map g) := by
  refine ⟨List.pairwise_map.mpr (hs.imp fun h => h.le hf), fun x => ?_⟩
  rw [List.filter_map, List.filter_map]
  congr 1
  have h1 : (is.filter (equiv f x ∘ g)).Pairwise (· < ·) := by
    refine (List.Pairwise.and_mem.mp (hs.filter _)).imp fun {i j} h => ?_
    obtain ⟨hi, hj, hb⟩ := h
    have hij := hf.equiv_trans (equiv_symm (List.mem_filter.mp hi).2) (List.mem_filter.mp hj).2
    rw [equiv_iff] at hij
    rcases hb with hb | ⟨-, hb⟩
    · rw [hij.1] at hb
      simp at hb
    · exact hb
  have h2 : ((List.range n).filter (equiv f x ∘ g)).Pairwise (· < ·) :=
    List.pairwise_lt_range.filter _
  exact (hp.filter _).eq_of_pairwise (fun a b _ _ hab hba => by omega) h1 h2

/-- A sorted list is determined by its classes. -/
theorem stable_sorted_unique (hf : Weak f) {l l' : List α} (h : Stable f l l') (hl : Sorted f l)
    (hl' : Sorted f l') : l' = l := by
  induction l generalizing l' with
  | nil =>
    have := h.perm hf
    exact List.perm_nil.mp this
  | cons x l ih =>
    have hperm := h.perm hf
    obtain ⟨y, r, rfl⟩ : ∃ y r, l' = y :: r := by
      cases l' with
      | nil => exact absurd hperm (List.not_perm_nil_cons x l)
      | cons y r => exact ⟨y, r, rfl⟩
    have hxy : equiv f x y = true := by
      rw [equiv_iff]
      constructor
      · have hx : x ∈ y :: r := hperm.symm.subset (by simp)
        rcases List.mem_cons.mp hx with rfl | hx
        · exact hf.irrefl x
        · exact (sorted_cons.mp hl').1 x hx
      · have hy : y ∈ x :: l := hperm.subset (by simp)
        rcases List.mem_cons.mp hy with rfl | hy
        · exact hf.irrefl y
        · exact (sorted_cons.mp hl).1 y hy
    have hxx := h x
    simp only [List.filter_cons, hxy, hf.equiv_self, if_true, List.cons.injEq] at hxx
    obtain ⟨rfl, -⟩ := hxx
    have htail : Stable f l r := by
      intro z
      have hz := h z
      simp only [List.filter_cons] at hz
      split_ifs at hz with hzy
      · exact (List.cons.inj hz).2
      · exact hz
    rw [ih htail (sorted_cons.mp hl).2 (sorted_cons.mp hl').2]

theorem sorted_merge (hf : Weak f) {l r : List α} (hl : Sorted f l) (hr : Sorted f r) :
    Sorted f (l.merge r fun a b => !f b a) := by
  have htrans (a b c : α) (hab : (!f b a) = true) (hbc : (!f c b) = true) : (!f c a) = true := by
    rw [Bool.not_eq_true'] at hab hbc ⊢
    exact hf.le_trans hab hbc
  have htotal (a b : α) : (!f b a || !f a b) = true := by
    cases h : f b a with
    | false => rfl
    | true => simp [hf.asymm h]
  have := List.pairwise_merge htrans htotal l r
    (hl.imp fun h => by simpa using h) (hr.imp fun h => by simpa using h)
  exact this.imp fun h => by simpa using h

/-- On ties the merge takes from the left, so it is stable. -/
theorem stable_merge (hf : Weak f) {l : List α} (hl : Sorted f l) (r : List α) :
    Stable f (l ++ r) (l.merge r fun a b => !f b a) := by
  induction l generalizing r with
  | nil => simpa using Stable.refl r
  | cons x l ihl =>
    induction r with
    | nil => simpa using Stable.refl (x :: l)
    | cons y r ihr =>
      rw [List.cons_merge_cons]
      cases hyx : f y x with
      | false => exact (ihl (sorted_cons.mp hl).2 (y :: r)).cons x
      | true =>
        have hmove : Stable f ((x :: l) ++ [y]) (y :: x :: l) := by
          apply Stable.move hf
          intro z hz
          rcases List.mem_cons.mp hz with rfl | hz
          · exact not_equiv_of_lt hyx
          · exact not_equiv_of_lt (hf.lt_of_lt_of_le hyx ((sorted_cons.mp hl).1 z hz))
        have hfront := hmove.append (Stable.refl r)
        rw [List.append_assoc, List.singleton_append] at hfront
        exact hfront.trans (ihr.cons y)

end RustStd.WeakOrder
