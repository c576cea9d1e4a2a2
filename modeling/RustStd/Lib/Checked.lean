import Mathlib

/-!
# Arithmetic that panics

The result of an operation on machine integers is computed without a bound and
then has to fit; shifts require an amount below the width. `none` is a panic.
-/

set_option autoImplicit false

namespace RustStd.Checked

/-- The result has to fit into `w` bits. -/
def unsigned (w n : ℕ) : Option ℕ := if n < 2^w then some n else none

def signed (w : ℕ) (z : ℤ) : Option ℤ := if -2^(w-1) ≤ z ∧ z < 2^(w-1) then some z else none

def u8 (n : ℕ) : Option ℕ := unsigned 8 n

def u64 (n : ℕ) : Option ℕ := unsigned 64 n

def i16 (z : ℤ) : Option ℤ := signed 16 z

def i32 (z : ℤ) : Option ℤ := signed 32 z

def i64 (z : ℤ) : Option ℤ := signed 64 z

def sub (a b : ℕ) : Option ℕ := if b ≤ a then some (a-b) else none

/-- `a << k` of a `u64`. -/
def shl (a : ℕ) (k : ℤ) : Option ℕ :=
  if 0 ≤ k ∧ k < 64 then some (a*2^k.toNat%2^64) else none

/-- `a >> k` of a `u64`. -/
def shr (a : ℕ) (k : ℤ) : Option ℕ := if 0 ≤ k ∧ k < 64 then some (a/2^k.toNat) else none

/-- `z as i32`, and what `i32` arithmetic gives where overflow is not checked. -/
def wrapI32 (z : ℤ) : ℤ := (z+2^31)%2^32-2^31

theorem u64_eq {n : ℕ} (h : n < 2^64) : u64 n = some n := if_pos h

theorem u8_eq {n : ℕ} (h : n < 2^8) : u8 n = some n := if_pos h

theorem sub_eq {a b : ℕ} (h : b ≤ a) : sub a b = some (a-b) := if_pos h

theorem i32_eq {z : ℤ} (h : -2^31 ≤ z) (h' : z < 2^31) : i32 z = some z := if_pos ⟨h, h'⟩

theorem i16_eq {z : ℤ} (h : -2^15 ≤ z) (h' : z < 2^15) : i16 z = some z := if_pos ⟨h, h'⟩

theorem i64_eq {z : ℤ} (h : -2^63 ≤ z) (h' : z < 2^63) : i64 z = some z := if_pos ⟨h, h'⟩

theorem shl_eq {a k : ℕ} (hk : k < 64) (h : a*2^k < 2^64) : shl a k = some (a*2^k) := by
  have hk' : (0:ℤ) ≤ k ∧ (k:ℤ) < 64 := by omega
  rw [shl, if_pos hk', Int.toNat_natCast, Nat.mod_eq_of_lt h]

theorem shr_eq {a k : ℕ} (hk : k < 64) : shr a k = some (a/2^k) := by
  have hk' : (0:ℤ) ≤ k ∧ (k:ℤ) < 64 := by omega
  rw [shr, if_pos hk', Int.toNat_natCast]

theorem wrapI32_eq {z : ℤ} (h : -2^31 ≤ z) (h' : z < 2^31) : wrapI32 z = z := by
  unfold wrapI32
  rw [Int.emod_eq_of_lt (by omega) (by omega)]
  omega

end RustStd.Checked
