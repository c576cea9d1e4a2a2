import Mathlib

/-!
# Square roots with remainder

The square root of a number whose upper half has a known root: one division gives
a candidate that is too large by at most one. Roots of numbers multiplied by a
power of four.
-/

set_option autoImplicit false

namespace RustStd.SquareRoot

/-- The root of `top` and what remains. -/
def Root (top s r : ℕ) : Prop := s*s+r = top ∧ r ≤ 2*s

theorem Root.le {top s r : ℕ} (h : Root top s r) : s*s ≤ top := by
  rw [← h.1]
  exact Nat.le_add_right _ _

theorem Root.lt {top s r : ℕ} (h : Root top s r) : top < (s+1)*(s+1) := by
  rw [← h.1]
  have := h.2
  calc s*s+r < s*s+(2*s+1) := by omega
    _ = (s+1)*(s+1) := by ring

theorem Root.eq_sqrt {top s r : ℕ} (h : Root top s r) : s = Nat.sqrt top :=
  (Nat.eq_sqrt.mpr ⟨h.le, h.lt⟩)

theorem Root.lt_pow {top s r k : ℕ} (h : Root top s r) (ht : top < 2^(2*k)) : s < 2^k := by
  by_contra hs
  have hsq : 2^k*2^k ≤ s*s := Nat.mul_le_mul (by omega) (by omega)
  have hle := h.le
  rw [two_mul, pow_add] at ht
  omega

theorem Root.pow_le {top s r k : ℕ} (h : Root top s r) (ht : 2^(2*k) ≤ top) : 2^k ≤ s := by
  by_contra hs
  have hsq : (s+1)*(s+1) ≤ 2^k*2^k := Nat.mul_le_mul (by omega) (by omega)
  have hlt := h.lt
  rw [two_mul, pow_add] at ht
  omega

section Karatsuba

variable {B hi lo s r q u : ℕ} (hroot : Root hi s r) (hs : B ≤ 2*s) (hlo : lo < B*B)
  (hq : (r*B+lo/B)/(2*s) = q) (hu : (r*B+lo/B)%(2*s) = u)
include hroot hs hlo hq hu

omit hu in
theorem quotient_le : q ≤ B := by
  have hB : 0 < B := Nat.pos_of_mul_pos_left (by omega : 0 < B*B)
  have ha : lo/B < B := Nat.div_lt_of_lt_mul hlo
  have hr : r*B ≤ 2*s*B := Nat.mul_le_mul_right B hroot.2
  rw [← hq]
  apply Nat.lt_succ_iff.mp
  rw [Nat.div_lt_iff_lt_mul (by omega)]
  calc r*B+lo/B < 2*s*B+2*s := by omega
    _ = B.succ*(2*s) := by rw [Nat.succ_eq_add_one]; ring

omit hs hlo in
theorem candidate_sq : hi*(B*B)+lo+q*q = (s*B+q)*(s*B+q)+(u*B+lo%B) := by
  have hdiv : r*B+lo/B = 2*s*q+u := by
    rw [← hq, ← hu]
    exact (Nat.div_add_mod _ _).symm
  have hsplit : lo = lo/B*B+lo%B := by
    rw [mul_comm]
    exact (Nat.div_add_mod _ _).symm
  have hhi := hroot.1
  calc hi*(B*B)+lo+q*q = s*s*(B*B)+(r*B+lo/B)*B+lo%B+q*q := by
        rw [← hhi]
        nth_rewrite 1 [hsplit]
        ring
    _ = (s*B+q)*(s*B+q)+(u*B+lo%B) := by
        rw [hdiv]
        ring

omit hroot hq in
theorem remainder_le : u*B+lo%B ≤ 2*(s*B+q) := by
  have hB : 0 < B := Nat.pos_of_mul_pos_left (by omega : 0 < B*B)
  have hu' : u+1 ≤ 2*s := by
    rw [← hu]
    exact Nat.mod_lt _ (by omega)
  have hmod : lo%B < B := Nat.mod_lt _ hB
  calc u*B+lo%B ≤ (u+1)*B := by
        rw [add_mul]
        omega
    _ ≤ 2*s*B := Nat.mul_le_mul_right B hu'
    _ ≤ 2*(s*B+q) := by
        rw [mul_add, mul_assoc]
        omega

omit hu in
theorem candidate_pred : q*q+1 ≤ u*B+lo%B+2*(s*B+q) := by
  have hqB := quotient_le hroot hs hlo hq
  have hB : 0 < B := Nat.pos_of_mul_pos_left (by omega : 0 < B*B)
  have hBB : B*B ≤ 2*s*B := Nat.mul_le_mul_right B hs
  have hsq : q*q+1 ≤ B*B+2*q := by
    rcases Nat.eq_zero_or_pos q with rfl | hpos
    · have : 0 < B*B := Nat.mul_pos hB hB
      omega
    · obtain ⟨k, rfl⟩ := Nat.exists_eq_add_of_le' hpos
      have : k*k ≤ B*B := Nat.mul_le_mul (by omega) (by omega)
      calc (k+1)*(k+1)+1 = k*k+2*(k+1) := by ring
        _ ≤ B*B+2*(k+1) := by omega
  have : 2*(s*B+q) = 2*s*B+2*q := by ring
  omega

theorem root_candidate (h : q*q ≤ u*B+lo%B) :
    Root (hi*(B*B)+lo) (s*B+q) (u*B+lo%B-q*q) := by
  have hsq := candidate_sq hroot hq hu
  have hle := remainder_le (q := q) hs hlo hu
  constructor
  · omega
  · omega

theorem root_corrected (h : u*B+lo%B < q*q) :
    Root (hi*(B*B)+lo) (s*B+q-1) (u*B+lo%B+(2*(s*B+q)-1)-q*q) := by
  have hsq := candidate_sq hroot hq hu
  have hpred := candidate_pred (u := u) hroot hs hlo hq
  obtain ⟨k, hk⟩ : ∃ k, s*B+q = k+1 := by
    apply Nat.exists_eq_add_of_le'
    rcases Nat.eq_zero_or_pos (s*B+q) with h0 | hpos
    · omega
    · exact hpos
  rw [hk] at hsq hpred ⊢
  have hexp : (k+1)*(k+1) = k*k+2*k+1 := by ring
  rw [Nat.add_sub_cancel]
  constructor
  · omega
  · omega

end Karatsuba

theorem sq_div {n s p : ℕ} (hle : s*s ≤ n*2^(2*p)) (hlt : n*2^(2*p) < (s+1)*(s+1)) :
    s/2^p*(s/2^p) ≤ n ∧ n < (s/2^p+1)*(s/2^p+1) := by
  have hpos : 0 < 2^p := by positivity
  have hpow : 2^(2*p) = 2^p*2^p := by rw [two_mul, pow_add]
  have hlo : s/2^p*2^p ≤ s := Nat.div_mul_le_self _ _
  have hhi : s+1 ≤ (s/2^p+1)*2^p := Nat.lt_mul_of_div_lt (Nat.lt_succ_self _) hpos
  rw [hpow] at hle hlt
  constructor
  · apply Nat.le_of_mul_le_mul_right _ (Nat.mul_pos hpos hpos)
    calc s/2^p*(s/2^p)*(2^p*2^p) = s/2^p*2^p*(s/2^p*2^p) := by ring
      _ ≤ s*s := Nat.mul_le_mul hlo hlo
      _ ≤ n*(2^p*2^p) := hle
  · apply Nat.lt_of_mul_lt_mul_right (a := 2^p*2^p)
    calc n*(2^p*2^p) < (s+1)*(s+1) := hlt
      _ ≤ (s/2^p+1)*2^p*((s/2^p+1)*2^p) := Nat.mul_le_mul hhi hhi
      _ = (s/2^p+1)*(s/2^p+1)*(2^p*2^p) := by ring

end RustStd.SquareRoot
