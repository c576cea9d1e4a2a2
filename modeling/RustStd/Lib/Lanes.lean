import Mathlib

/-!
# Lanes of a number

A number holds small numbers side by side, its digits in base `2^w`. Masks and
shifts act on each lane alone, and so does a sum as long as no lane overflows.
-/

set_option autoImplicit false

namespace RustStd.Lanes

/-- Lane `j` of width `w`. -/
def lane (w n j : ℕ) : ℕ := n/2^(w*j)%2^w

theorem lane_lt (w n j : ℕ) : lane w n j < 2^w := Nat.mod_lt _ (by positivity)

theorem lane_zero (w n : ℕ) : lane w n 0 = n%2^w := by
  rw [lane, Nat.mul_zero, Nat.pow_zero, Nat.div_one]

theorem lane_succ (w n j : ℕ) : lane w n (j+1) = lane w (n/2^w) j := by
  rw [lane, lane, Nat.div_div_eq_div_mul, ← Nat.pow_add, Nat.mul_succ, Nat.add_comm (w*j)]

theorem sum_lanes (w n k : ℕ) : ∑ j ∈ Finset.range k, lane w n j*2^(w*j) = n%2^(w*k) := by
  induction k generalizing n with
  | zero => simp [Nat.mod_one]
  | succ k ih =>
    have htail : ∑ j ∈ Finset.range k, lane w n (j+1)*2^(w*(j+1)) = 2^w*(n/2^w%2^(w*k)) := by
      rw [← ih, Finset.mul_sum]
      apply Finset.sum_congr rfl
      intro j _
      rw [lane_succ, Nat.mul_succ, Nat.pow_add]
      ring
    rw [Finset.sum_range_succ', htail, lane_zero, Nat.mul_zero, Nat.pow_zero, Nat.mul_one,
      Nat.mul_succ, Nat.add_comm (w*k), Nat.pow_add, Nat.mod_mul, Nat.add_comm]

theorem lane_and (w a b j : ℕ) : lane w (a &&& b) j = lane w a j &&& lane w b j := by
  rw [lane, Nat.and_div_two_pow, Nat.and_mod_two_pow]
  rfl

theorem lane_half (w n j : ℕ) : lane (2*w) n j%2^w = lane w n (2*j) := by
  rw [lane, lane, Nat.mod_mod_of_dvd _ (Nat.pow_dvd_pow 2 (by omega))]
  congr 3
  ring

theorem lane_add {w : ℕ} {a b j : ℕ} (h : ∀ i ≤ j, lane w a i+lane w b i < 2^w) :
    lane w (a+b) j = lane w a j+lane w b j := by
  induction j generalizing a b with
  | zero =>
    have h0 := h 0 le_rfl
    simp only [lane_zero] at h0 ⊢
    rw [Nat.add_mod, Nat.mod_eq_of_lt h0]
  | succ j ih =>
    have h0 := h 0 (Nat.zero_le _)
    simp only [lane_zero] at h0
    have hcarry : (a+b)/2^w = a/2^w+b/2^w := by
      rw [Nat.add_div (by positivity), if_neg (by omega), Nat.add_zero]
    rw [lane_succ, hcarry, ih, lane_succ, lane_succ]
    intro i hi
    rw [← lane_succ, ← lane_succ]
    exact h (i+1) (by omega)

end RustStd.Lanes
