import RustStd.Lib.Nearest
import RustStd.Lib.Checked

/-!
# The formats of `RawFloat`

The three implementors of the trait with their constants. A non-negative float
is its bit pattern, and the patterns up to the one of infinity are a ladder:
the pattern of infinity stands for the value at which rounding overflows, and a
pattern is even when its mantissa is. So rounding to the nearest float, ties to
even, overflow included, is rounding to the nearest pattern.
-/

set_option autoImplicit false

namespace RustStd

inductive RawFloat
  | f16
  | f32
  | f64
  deriving DecidableEq, Repr

namespace RawFloat
open RustStd.Nearest

def bits : RawFloat → ℕ
  | f16 => 16
  | f32 => 32
  | f64 => 64

/-- `SIG_TOTAL_BITS`, with the hidden bit. -/
def sigTotalBits : RawFloat → ℕ
  | f16 => 11
  | f32 => 24
  | f64 => 53

def sigBits (F : RawFloat) : ℕ := F.sigTotalBits-1

def expBits (F : RawFloat) : ℕ := F.bits-F.sigBits-1

def expSat (F : RawFloat) : ℕ := 2^F.expBits-1

def infinitePower (F : RawFloat) : ℤ := F.expSat

def expBias (F : RawFloat) : ℕ := F.expSat/2

def expMin (F : RawFloat) : ℤ := -((F.expBias:ℤ)-1)

def minExponentRoundToEven : RawFloat → ℤ
  | f16 => -22
  | f32 => -17
  | f64 => -4

def maxExponentRoundToEven : RawFloat → ℤ
  | f16 => 5
  | f32 => 10
  | f64 => 23

/-- The `b` with `10^b = 2^a`, rounded towards zero. -/
def pow2ToPow10 (a : ℕ) : ℕ := Nat.log 10 (2^a)

def largestPowerOfTen (F : RawFloat) : ℤ := pow2ToPow10 (F.expBias+1)

def smallestPowerOfTen : RawFloat → ℤ
  | f16 => -27
  | f32 => -65
  | f64 => -342

def maxExponentFastPath (F : RawFloat) : ℤ := Nat.log 5 (2^F.sigTotalBits)

def minExponentFastPath (F : RawFloat) : ℤ := -F.maxExponentFastPath

def maxExponentDisguisedFastPath (F : RawFloat) : ℤ :=
  F.maxExponentFastPath+Nat.log 10 (2^F.sigTotalBits)

def maxMantissaFastPath (F : RawFloat) : ℕ := 2^F.sigTotalBits

/-- The pattern of `INFINITY`. -/
def infBits (F : RawFloat) : ℕ := F.expSat*2^F.sigBits

/-- The pattern of `NAN`. -/
def nanBits (F : RawFloat) : ℕ := F.infBits+2^(F.sigBits-1)

/-- `from_u64_bits`. -/
def fromU64Bits (F : RawFloat) (v : ℕ) : ℕ := v%2^F.bits

/-- `-x`, which flips the sign bit. -/
def neg (F : RawFloat) (x : ℕ) : ℕ := x^^^2^(F.bits-1)

/-- The value of a pattern without a sign: subnormal when the exponent field is
zero, otherwise with the hidden bit. -/
def value (F : RawFloat) (n : ℕ) : ℚ :=
  if n/2^F.sigBits = 0 then (n%2^F.sigBits:ℕ)*2^(F.expMin-F.sigBits)
  else (2^F.sigBits+n%2^F.sigBits:ℕ)*2^((n/2^F.sigBits:ℕ)-1+F.expMin-F.sigBits)

/-- The pattern `n` is the value `x` rounded to nearest, ties to even. -/
def Nearest (F : RawFloat) (x : ℚ) (n : ℕ) : Prop := IsNearest F.value F.infBits x n

theorem pow10_308_le : 10^308 ≤ 2^1024 := by
  calc 10^308 = (10^77)^4 := by rw [← pow_mul]
    _ ≤ (2^256)^4 := Nat.pow_le_pow_left (by norm_num) 4
    _ = 2^1024 := by rw [← pow_mul]

theorem lt_pow10_309 : 2^1024 < 10^309 := by
  calc 2^1024 = (2^128)^8 := by rw [← pow_mul]
    _ < (34028236692094*10^25)^8 := Nat.pow_lt_pow_left (by norm_num) (by norm_num)
    _ ≤ 10^109*10^(25*8) := by
      rw [mul_pow, ← pow_mul]
      exact Nat.mul_le_mul_right _ (by norm_num)
    _ = 10^309 := by rw [← pow_add]

theorem largestPowerOfTen_eq (F : RawFloat) :
    F.largestPowerOfTen = match F with | f16 => 4 | f32 => 38 | f64 => 308 := by
  cases F
  · have h : Nat.log 10 (2^16) = 4 := by
      rw [Nat.log_eq_iff (by norm_num)]
      norm_num
    exact congrArg Nat.cast h
  · have h : Nat.log 10 (2^128) = 38 := by
      rw [Nat.log_eq_iff (by norm_num)]
      norm_num
    exact congrArg Nat.cast h
  · have h : Nat.log 10 (2^1024) = 308 := by
      rw [Nat.log_eq_iff (by norm_num)]
      constructor
      · exact pow10_308_le
      · exact lt_pow10_309
    exact congrArg Nat.cast h

theorem sigBits_pos (F : RawFloat) : 0 < F.sigBits := by cases F <;> decide

/-- The value of the least subnormal. -/
def ulp (F : RawFloat) : ℚ := 2^(F.expMin-F.sigBits)

theorem ulp_pos (F : RawFloat) : 0 < F.ulp := by
  unfold ulp
  positivity

theorem two_pow_mul_ulp (F : RawFloat) : (2:ℚ)^F.sigBits*F.ulp = 2^F.expMin := by
  rw [ulp, ← zpow_natCast, ← zpow_add₀ (by norm_num)]
  congr 1
  ring

theorem value_rung (F : RawFloat) {k m : ℕ} (hm : m ≤ 2^(F.sigBits+1))
    (hk : 2^F.sigBits ≤ m ∨ k = 0) :
    F.value (k*2^F.sigBits+m) = m*2^k*F.ulp := by
  have hpos : 0 < 2^F.sigBits := by positivity
  have hsplit : (2:ℚ)^(k:ℤ)*F.ulp = 2^((k:ℤ)+F.expMin-F.sigBits) := by
    rw [ulp, ← zpow_add₀ (by norm_num)]
    congr 1
    ring
  rw [pow_succ] at hm
  rw [← zpow_natCast, mul_assoc, hsplit]
  unfold value
  generalize hS : 2^F.sigBits = S at *
  rcases Nat.lt_or_ge m S with hlt | hge
  · obtain rfl : k = 0 := hk.resolve_left (by omega)
    rw [if_pos (by simp [hlt])]
    simp [Nat.mod_eq_of_lt hlt]
  · rcases Nat.lt_or_ge m (2*S) with hlt' | hge'
    · have hd : (k*S+m)/S = k+1 := by
        rw [Nat.div_eq_of_lt_le]
        · rw [Nat.add_mul]; omega
        · rw [Nat.add_mul, Nat.add_mul]; omega
      have hr : (k*S+m)%S = m-S := by
        have := Nat.div_add_mod (k*S+m) S
        rw [hd, Nat.mul_add, Nat.mul_comm S k] at this
        omega
      rw [if_neg (by omega), hd, hr, Nat.add_sub_cancel' hge]
      congr 2
      push_cast
      ring
    · obtain rfl : m = S*2 := by omega
      have hd : (k*S+S*2)/S = k+2 := by
        rw [show k*S+S*2 = S*(k+2) by ring, Nat.mul_div_cancel_left _ hpos]
      have hr : (k*S+S*2)%S = 0 := by
        rw [show k*S+S*2 = S*(k+2) by ring, Nat.mul_mod_right]
      rw [if_neg (by omega), hd, hr, Nat.add_zero]
      have : ((k+2:ℕ):ℤ)-1+F.expMin-F.sigBits = 1+((k:ℤ)+F.expMin-F.sigBits) := by
        push_cast
        ring
      rw [this, zpow_add₀ (by norm_num)]
      push_cast
      ring

theorem exists_rung (F : RawFloat) (n : ℕ) : ∃ k m, n = k*2^F.sigBits+m ∧
    m < 2^(F.sigBits+1) ∧ (2^F.sigBits ≤ m ∨ k = 0) := by
  have hpos : 0 < 2^F.sigBits := by positivity
  have hmod := Nat.mod_lt n hpos
  have hdm := Nat.div_add_mod n (2^F.sigBits)
  rw [pow_succ]
  generalize 2^F.sigBits = S at *
  rcases Nat.eq_zero_or_pos (n/S) with h0 | h0
  · rw [h0, Nat.mul_zero] at hdm
    exact ⟨0, n, by omega, by omega, Or.inr rfl⟩
  · obtain ⟨e, he⟩ : ∃ e, n/S = e+1 := ⟨n/S-1, by omega⟩
    rw [he, Nat.mul_add, Nat.mul_comm] at hdm
    exact ⟨e, S+n%S, by omega, by omega, Or.inl (by omega)⟩

theorem value_strictMono (F : RawFloat) : StrictMono F.value := by
  apply strictMono_nat_of_lt_succ
  intro n
  obtain ⟨k, m, rfl, hm, hk⟩ := F.exists_rung n
  rw [Nat.add_assoc, F.value_rung hm.le hk, F.value_rung hm (by omega)]
  have := F.ulp_pos
  push_cast
  gcongr
  linarith

theorem even_rung (F : RawFloat) (k m : ℕ) : Even (k*2^F.sigBits+m) ↔ Even m := by
  have : Even (k*2^F.sigBits) := by
    apply Even.mul_left
    exact Even.pow_of_ne_zero even_two (F.sigBits_pos).ne'
  rw [Nat.even_add]
  simp [this]

section Rounding

variable (F : RawFloat) {k m : ℕ} (hm : m < 2^(F.sigBits+1)) (hk : 2^F.sigBits ≤ m ∨ k = 0) {x : ℚ}
include hm hk

theorem nearest_down (hle : m*2^k*F.ulp ≤ x)
    (h : LtOr (Even m) (2*x) ((2*m+1)*2^k*F.ulp)) :
    F.Nearest x (min (k*2^F.sigBits+m) F.infBits) := by
  have hv := F.value_rung hm.le hk
  have hv' := F.value_rung (k := k) (m := m+1) hm (by omega)
  rcases Nat.lt_or_ge (k*2^F.sigBits+m) F.infBits with hlt | hge
  · rw [min_eq_left hlt.le]
    apply isNearest_down F.value_strictMono hlt
    · rw [hv]
      exact hle
    · rw [Nat.add_assoc, hv, hv', F.even_rung]
      push_cast
      convert h using 1
      ring
  · rw [min_eq_right hge]
    apply isNearest_top F.value_strictMono
    calc F.value F.infBits ≤ F.value (k*2^F.sigBits+m) := F.value_strictMono.monotone hge
      _ ≤ x := by rw [hv]; exact hle

theorem nearest_up (hle : m*2^k*F.ulp ≤ x) (hlt : x ≤ (m+1)*2^k*F.ulp)
    (h : LtOr (Odd m) ((2*m+1)*2^k*F.ulp) (2*x)) :
    F.Nearest x (min (k*2^F.sigBits+(m+1)) F.infBits) := by
  have hv := F.value_rung hm.le hk
  have hv' := F.value_rung (k := k) (m := m+1) hm (by omega)
  rcases Nat.lt_or_ge (k*2^F.sigBits+m) F.infBits with hn | hge
  · rw [← Nat.add_assoc, min_eq_left hn]
    apply isNearest_up F.value_strictMono hn
    · rw [Nat.add_assoc, hv']
      push_cast
      exact hlt
    · rw [Nat.add_assoc, hv, hv', ← Nat.not_even_iff_odd, F.even_rung, Nat.not_even_iff_odd]
      push_cast
      convert h using 1
      ring
  · rw [min_eq_right (by omega)]
    apply isNearest_top F.value_strictMono
    calc F.value F.infBits ≤ F.value (k*2^F.sigBits+m) := F.value_strictMono.monotone hge
      _ ≤ x := by rw [hv]; exact hle

end Rounding

theorem Nearest.unique {F : RawFloat} {x : ℚ} {n m : ℕ} (h : F.Nearest x n)
    (h' : F.Nearest x m) : n = m :=
  IsNearest.unique F.value_strictMono h h'

theorem infinitePower_le (F : RawFloat) : (0:ℤ) < F.infinitePower := by cases F <;> decide

theorem nearest_inf (F : RawFloat) {x : ℚ} (h : 2^(F.expBias+1) ≤ x) : F.Nearest x F.infBits := by
  apply isNearest_top F.value_strictMono
  have hinf : F.infBits = (F.expSat-1)*2^F.sigBits+2^F.sigBits := by
    cases F <;> decide
  rw [hinf, F.value_rung (Nat.pow_le_pow_right (by norm_num) (by omega)) (Or.inl le_rfl)]
  have hval : ((2^F.sigBits:ℕ):ℚ)*2^(F.expSat-1)*F.ulp = 2^(F.expBias+1) := by
    have he : (F.sigBits:ℤ)+(F.expSat-1:ℕ)+(F.expMin-F.sigBits) = (F.expBias+1:ℕ) := by
      cases F <;> decide
    rw [ulp, Nat.cast_pow, ← zpow_natCast, ← zpow_natCast, ← zpow_natCast, ← he]
    rw [zpow_add₀ (by norm_num), zpow_add₀ (by norm_num)]
    norm_num
  rw [hval]
  exact h

theorem nearest_zero (F : RawFloat) {x : ℚ} (h0 : 0 ≤ x) (h : 2*x ≤ F.ulp) : F.Nearest x 0 := by
  have := F.nearest_down (k := 0) (m := 0) (x := x) (by positivity) (Or.inr rfl) (by simpa using h0)
    (by
      rcases h.lt_or_eq with h | h
      · left
        simpa using h
      · right
        exact ⟨by simpa using h, by simp⟩)
  simpa using this

theorem value_subnormal (F : RawFloat) {m : ℕ} (hm : m ≤ 2^(F.sigBits+1)) :
    F.value m = m*F.ulp := by
  have := F.value_rung (k := 0) hm (Or.inr rfl)
  simpa using this

theorem nearest_half_up (F : RawFloat) {x : ℚ} {m : ℕ} (hm : m ≤ 2^F.sigBits)
    (hlo : (2*m-1)*F.ulp ≤ 2*x) (hhi : 2*x < (2*m+1)*F.ulp)
    (htie : 2*x = (2*m-1)*F.ulp → Even m) : F.Nearest x m := by
  have hm2 : m+1 ≤ 2^(F.sigBits+1) := by
    have : 1 ≤ 2^F.sigBits := Nat.one_le_two_pow
    rw [pow_succ]
    omega
  have hinf : m ≤ F.infBits := by
    calc m ≤ 1*2^F.sigBits := by omega
      _ ≤ F.expSat*2^F.sigBits := Nat.mul_le_mul_right _ (by cases F <;> decide)
  have hv := F.value_subnormal (show m ≤ 2^(F.sigBits+1) by omega)
  apply isNearest_of_between F.value_strictMono hinf
  · by_cases h0 : m = 0
    · exact Or.inl h0
    · right
      rw [hv, F.value_subnormal (show m-1 ≤ 2^(F.sigBits+1) by omega), Nat.cast_sub (by omega),
        Nat.cast_one, ← add_mul, show (m:ℚ)-1+m = 2*m-1 by ring]
      rcases hlo.lt_or_eq with hlt | heq
      · exact Or.inl hlt
      · exact Or.inr ⟨heq, htie heq.symm⟩
  · right
    left
    rw [hv, F.value_subnormal hm2, ← add_mul]
    push_cast
    rw [show (m:ℚ)+(m+1) = 2*m+1 by ring]
    exact hhi

theorem not_nearest_half_up (F : RawFloat) {x : ℚ} {m : ℕ} (hm : m ≤ 2^F.sigBits)
    (htie : 2*x = (2*m-1)*F.ulp) (hodd : Odd m) : ¬ F.Nearest x m := by
  intro h
  obtain ⟨a, rfl⟩ := hodd
  have hul := F.ulp_pos
  push_cast at htie
  have hlow := F.nearest_down (k := 0) (m := 2*a) (x := x) (by rw [pow_succ]; omega) (Or.inr rfl)
    (by push_cast; nlinarith) (Or.inr ⟨by rw [htie]; push_cast; ring, even_two_mul a⟩)
  have := hlow.unique h
  rw [Nat.zero_mul, Nat.zero_add] at this
  omega

end RawFloat

end RustStd
