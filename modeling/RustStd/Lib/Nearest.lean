import Mathlib

/-!
# The nearest rung of a ladder

A ladder is a strictly increasing sequence with a top rung. A value is rounded
to the rung at the least distance, and half way between two rungs to the even
one. Nothing but the two neighbours of a rung decides whether it is nearest.
-/

set_option autoImplicit false

namespace RustStd.Nearest

section Order

variable {K : Type*} [LinearOrder K]

/-- `a` is below `b`, or they are equal and `c` holds. -/
def LtOr (c : Prop) (a b : K) : Prop := a < b ∨ a = b ∧ c

theorem LtOr.le {c : Prop} {a b : K} (h : LtOr c a b) : a ≤ b := by
  rcases h with h | ⟨h, -⟩
  · exact h.le
  · exact h.le

theorem LtOr.of_le {c : Prop} {a b d : K} (hab : a ≤ b) (h : LtOr c b d) : LtOr c a d := by
  rcases h with h | ⟨rfl, hc⟩
  · exact Or.inl (hab.trans_lt h)
  · exact hab.lt_or_eq.imp id fun h => ⟨h, hc⟩

theorem LtOr.trans_le {c : Prop} {a b d : K} (h : LtOr c a b) (hbd : b ≤ d) : LtOr c a d := by
  rcases h with h | ⟨rfl, hc⟩
  · exact Or.inl (h.trans_le hbd)
  · exact hbd.lt_or_eq.imp id fun h => ⟨h, hc⟩

end Order

variable {K : Type*} [Field K] [LinearOrder K] [IsStrictOrderedRing K]

def IsNearest (v : ℕ → K) (top : ℕ) (x : K) (n : ℕ) : Prop :=
  n ≤ top ∧ ∀ m ≤ top, m ≠ n → |x-v n| < |x-v m| ∨ |x-v n| = |x-v m| ∧ Even n

theorem dist_below {c : Prop} {a b x : K} (hab : a < b) (h : LtOr c (a+b) (2*x)) :
    |x-b| < |x-a| ∨ |x-b| = |x-a| ∧ c := by
  have hx := h.le
  rw [abs_of_nonneg (show 0 ≤ x-a by linarith)]
  rcases h with h | ⟨h, hc⟩
  · left
    rw [abs_lt]
    constructor <;> linarith
  · right
    constructor
    · rw [abs_of_nonpos (show x-b ≤ 0 by linarith)]
      linarith
    · exact hc

theorem dist_above {c : Prop} {a b x : K} (hab : a < b) (h : LtOr c (2*x) (a+b)) :
    |x-a| < |x-b| ∨ |x-a| = |x-b| ∧ c := by
  have hx := h.le
  rw [abs_of_nonpos (show x-b ≤ 0 by linarith)]
  rcases h with h | ⟨h, hc⟩
  · left
    rw [abs_lt]
    constructor <;> linarith
  · right
    constructor
    · rw [abs_of_nonneg (show 0 ≤ x-a by linarith)]
      linarith
    · exact hc

theorem ltOr_of_dist_below {c : Prop} {a b x : K} (hab : a < b)
    (h : |x-b| < |x-a| ∨ |x-b| = |x-a| ∧ c) : LtOr c (a+b) (2*x) := by
  rcases h with h | ⟨h, hc⟩
  · left
    by_contra hle
    have h1 : x-b ≤ 0 := by linarith
    rw [abs_of_nonpos h1, lt_abs] at h
    rcases h with h | h
    · linarith
    · linarith
  · right
    constructor
    · rcases abs_eq_abs.mp h with h | h
      · linarith
      · linarith
    · exact hc

theorem ltOr_of_dist_above {c : Prop} {a b x : K} (hab : a < b)
    (h : |x-a| < |x-b| ∨ |x-a| = |x-b| ∧ c) : LtOr c (2*x) (a+b) := by
  rcases h with h | ⟨h, hc⟩
  · left
    by_contra hle
    have h1 : 0 ≤ x-a := by linarith
    rw [abs_of_nonneg h1, lt_abs] at h
    rcases h with h | h
    · linarith
    · linarith
  · right
    constructor
    · rcases abs_eq_abs.mp h with h | h
      · linarith
      · linarith
    · exact hc

variable {v : ℕ → K} (hv : StrictMono v) {top n : ℕ} {x : K}
include hv

theorem isNearest_of_between (hn : n ≤ top)
    (hlo : n = 0 ∨ LtOr (Even n) (v (n-1)+v n) (2*x))
    (hhi : n = top ∨ LtOr (Even n) (2*x) (v n+v (n+1))) : IsNearest v top x n := by
  constructor
  · exact hn
  · intro m hm hne
    rcases Nat.lt_or_gt_of_ne hne with hlt | hlt
    · obtain hlo := hlo.resolve_left (by omega)
      have hle : v m ≤ v (n-1) := hv.monotone (by omega)
      exact dist_below (hv hlt) (hlo.of_le (by linarith))
    · obtain hhi := hhi.resolve_left (by omega)
      have hle : v (n+1) ≤ v m := hv.monotone (by omega)
      exact dist_above (hv hlt) (hhi.trans_le (by linarith))

theorem isNearest_down (hn : n < top) (hle : v n ≤ x)
    (h : LtOr (Even n) (2*x) (v n+v (n+1))) : IsNearest v top x n := by
  apply isNearest_of_between hv hn.le
  · by_cases h0 : n = 0
    · exact Or.inl h0
    · have := hv (show n-1 < n by omega)
      exact Or.inr (Or.inl (by linarith))
  · exact Or.inr h

theorem isNearest_up (hn : n < top) (hle : x ≤ v (n+1))
    (h : LtOr (Odd n) (v n+v (n+1)) (2*x)) : IsNearest v top x (n+1) := by
  apply isNearest_of_between hv (show n+1 ≤ top from hn)
  · rw [Nat.add_sub_cancel]
    exact Or.inr (h.imp id (And.imp id fun ho => ho.add_one))
  · have := hv (show n+1 < n+1+1 by omega)
    exact Or.inr (Or.inl (by linarith))

theorem isNearest_top (h : v top ≤ x) : IsNearest v top x top := by
  apply isNearest_of_between hv le_rfl
  · by_cases h0 : top = 0
    · exact Or.inl h0
    · have := hv (show top-1 < top by omega)
      exact Or.inr (Or.inl (by linarith))
  · exact Or.inl rfl

theorem IsNearest.between {y z : K} (h : IsNearest v top x n) (h' : IsNearest v top z n)
    (hxy : x ≤ y) (hyz : y ≤ z) : IsNearest v top y n := by
  refine ⟨h.1, fun m hm hne => ?_⟩
  rcases Nat.lt_or_gt_of_ne hne with hlt | hlt
  · have := ltOr_of_dist_below (hv hlt) (h.2 m hm hne)
    exact dist_below (hv hlt) (this.trans_le (by linarith))
  · have := ltOr_of_dist_above (hv hlt) (h'.2 m hm hne)
    exact dist_above (hv hlt) (this.of_le (by linarith))

theorem IsNearest.bounds (h : IsNearest v top x n) :
    (n ≠ 0 → v (n-1)+v n ≤ 2*x) ∧ (n ≠ top → 2*x ≤ v n+v (n+1)) := by
  constructor
  · intro h0
    exact (ltOr_of_dist_below (hv (show n-1 < n by omega))
      (h.2 (n-1) (by have := h.1; omega) (by omega))).le
  · intro ht
    exact (ltOr_of_dist_above (hv (show n < n+1 by omega))
      (h.2 (n+1) (by have := h.1; omega) (by omega))).le

theorem isNearest_iff (hn : n ≤ top) : IsNearest v top x n ↔
    (n = 0 ∨ LtOr (Even n) (v (n-1)+v n) (2*x)) ∧
      (n = top ∨ LtOr (Even n) (2*x) (v n+v (n+1))) := by
  constructor
  · intro h
    constructor
    · by_cases h0 : n = 0
      · exact Or.inl h0
      · exact Or.inr (ltOr_of_dist_below (hv (show n-1 < n by omega))
          (h.2 (n-1) (by omega) (by omega)))
    · by_cases ht : n = top
      · exact Or.inl ht
      · exact Or.inr (ltOr_of_dist_above (hv (show n < n+1 by omega))
          (h.2 (n+1) (by omega) (by omega)))
  · intro h
    exact isNearest_of_between hv hn h.1 h.2

theorem IsNearest.unique {m : ℕ} (h : IsNearest v top x n) (h' : IsNearest v top x m) :
    n = m := by
  by_contra hne
  wlog hlt : n < m generalizing n m
  · exact this h' h (Ne.symm hne) (by omega)
  have h₁ := h.2 m h'.1 (by omega)
  have h₂ := h'.2 n h.1 (by omega)
  obtain ⟨heq, hen⟩ := h₁.resolve_left fun h₁ => by
    rcases h₂ with h₂ | ⟨h₂, -⟩
    · exact lt_asymm h₁ h₂
    · exact h₁.ne' h₂
  obtain ⟨-, hem⟩ := h₂.resolve_left heq.le.not_gt
  -- two even rungs have a rung between them, which is nearer than both
  have hgap : n+1 < m := by
    obtain ⟨a, rfl⟩ := hen
    obtain ⟨b, rfl⟩ := hem
    omega
  have hn1 := hv (show n < n+1 by omega)
  have hm1 := hv hgap
  have hmid : 2*x = v n+v m := by
    rcases abs_eq_abs.mp heq with h | h
    · linarith
    · linarith
  have hle := h.2 (n+1) (hgap.le.trans h'.1) (by omega)
  have hcl : |x-v (n+1)| < |x-v n| := by
    rw [abs_of_nonneg (show 0 ≤ x-v n by linarith), abs_lt]
    constructor <;> linarith
  rcases hle with hle | ⟨hle, -⟩
  · exact lt_asymm hle hcl
  · exact hcl.ne' hle

end RustStd.Nearest
