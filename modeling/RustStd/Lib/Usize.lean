import RustStd.Lib.Checked
import RustStd.Lib.Machine

/-!
# Arithmetic of `usize`

`none` is an overflow or a division by zero. The quotient that is rounded up counts the blocks of
a given size that are needed to cover a length.
-/

set_option autoImplicit false

namespace RustStd.Usize
open RustStd.Machine

def add (a b : ℕ) : Option ℕ := Checked.unsigned 64 (a+b)

def mul (a b : ℕ) : Option ℕ := Checked.unsigned 64 (a*b)

def div (a b : ℕ) : Option ℕ := if b = 0 then none else some (a/b)

def rem (a b : ℕ) : Option ℕ := if b = 0 then none else some (a%b)

def overflowingMul (a b : ℕ) : ℕ × Bool := (a*b%2^64, decide (2^64 ≤ a*b))

def overflowingSub (a b : ℕ) : ℕ × Bool := (wrappingSub a b, decide (a < b))

def saturatingAdd (a b : ℕ) : ℕ := min (a+b) usizeMax

def saturatingMul (a b : ℕ) : ℕ := min (a*b) usizeMax

/-- The quotient rounded up. -/
def ceil (a b : ℕ) : ℕ := a/b + if a%b > 0 then 1 else 0

/-- `ExactSizeIterator::len` -/
def exactLen (hint : ℕ × Option ℕ) : Option ℕ := if hint.2 = some hint.1 then some hint.1 else none

theorem add_eq {a b : ℕ} (h : a+b < 2^64) : add a b = some (a+b) := by
  rw [add]
  exact if_pos h

theorem mul_eq {a b : ℕ} (h : a*b < 2^64) : mul a b = some (a*b) := by
  rw [mul]
  exact if_pos h

theorem div_eq {a b : ℕ} (h : 0 < b) : div a b = some (a/b) := if_neg h.ne'

theorem rem_eq {a b : ℕ} (h : 0 < b) : rem a b = some (a%b) := if_neg h.ne'

theorem sub_eq {a b : ℕ} (h : b ≤ a) : Checked.sub a b = some (a-b) := if_pos h

theorem wrappingSub_eq {a b : ℕ} (ha : a < 2^64) (h : b ≤ a) : wrappingSub a b = a-b := by
  rw [wrappingSub, Nat.mod_eq_of_lt (h.trans_lt ha)]
  omega

theorem overflowingMul_lt {a b : ℕ} (h : a*b < 2^64) : overflowingMul a b = (a*b, false) := by
  rw [overflowingMul, Nat.mod_eq_of_lt h, decide_eq_false (not_le.mpr h)]

theorem overflowingMul_ge {a b len : ℕ} (h : len ≤ a*b) :
    (overflowingMul a b).2 = true ∨ len ≤ (overflowingMul a b).1 := by
  by_cases hlt : a*b < 2^64
  · right
    rw [overflowingMul_lt hlt]
    exact h
  · left
    exact decide_eq_true (Nat.le_of_not_lt hlt)

theorem exactLen_eq (n : ℕ) : exactLen (n, some n) = some n := if_pos rfl

/-! ## Blocks -/

section Blocks

variable {len size i k : ℕ}

theorem lt_ceil_iff (hc : 0 < size) : i < ceil len size ↔ i*size < len := by
  have hdiv := Nat.div_add_mod len size
  have hlt := Nat.mod_lt len hc
  have hle : i < len/size+1 ↔ i*size ≤ len := by
    rw [Nat.lt_succ_iff, Nat.le_div_iff_mul_le hc]
  rw [ceil]
  split
  · -- the short chunk is not empty, so equality is impossible
    rw [hle, lt_iff_le_and_ne, and_iff_left]
    rintro rfl
    rw [Nat.mul_mod_left] at *
    omega
  · have hdvd : len = len/size*size := by
      rw [Nat.mul_comm]
      omega
    rw [Nat.add_zero]
    constructor
    · intro h
      rw [hdvd]
      exact Nat.mul_lt_mul_of_pos_right h hc
    · intro h
      rw [hdvd] at h
      exact Nat.lt_of_mul_lt_mul_right h

theorem ceil_zero (size : ℕ) : ceil 0 size = 0 := by
  rw [ceil, Nat.zero_div, Nat.zero_mod]
  rfl

theorem ceil_pos (hc : 0 < size) (h : 0 < len) : 0 < ceil len size := by
  rw [lt_ceil_iff hc, Nat.zero_mul]
  exact h

theorem ceil_le (hc : 0 < size) : ceil len size ≤ len := by
  by_contra h
  rw [not_le, lt_ceil_iff hc] at h
  exact absurd (Nat.le_mul_of_pos_right len hc) (not_le.mpr h)

theorem le_ceil_mul (hc : 0 < size) : len ≤ ceil len size*size := by
  by_contra h
  rw [not_le, ← lt_ceil_iff hc] at h
  exact lt_irrefl _ h

theorem ceil_sub (hc : 0 < size) (k : ℕ) :
    ceil (len-k*size) size = ceil len size-k := by
  apply eq_of_forall_lt_iff
  intro i
  rw [lt_ceil_iff hc, Nat.lt_sub_iff_add_lt, Nat.lt_sub_iff_add_lt, lt_ceil_iff hc,
    Nat.add_mul]

theorem ceil_min (hc : 0 < size) (hk : k ≤ ceil len size) :
    ceil (min (k*size) len) size = k := by
  apply eq_of_forall_lt_iff
  intro i
  rw [lt_ceil_iff hc, lt_min_iff, Nat.mul_lt_mul_right hc, ← lt_ceil_iff hc]
  omega

theorem ceil_pred (hc : 0 < size) (h : 0 < len) : (len-1)/size = ceil len size-1 := by
  apply eq_of_forall_le_iff
  intro i
  rw [Nat.le_div_iff_mul_le hc]
  have hpos := ceil_pos hc h
  have hlt : i < ceil len size ↔ i*size < len := lt_ceil_iff hc
  omega

end Blocks

end RustStd.Usize
