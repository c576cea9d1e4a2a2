import RustStd.Num.Dec2Flt

/-!
# The fast path is correctly rounded

Both operands are exact floats, so the machine rounds once.
-/

set_option autoImplicit false

namespace RustStd.RawFloat

theorem maxExponentFastPath_eq (F : RawFloat) :
    F.maxExponentFastPath = match F with | f16 => 4 | f32 => 10 | f64 => 22 := by
  cases F
  · have h : Nat.log 5 (2^11) = 4 := by
      rw [Nat.log_eq_iff (by norm_num)]
      norm_num
    exact congrArg Nat.cast h
  · have h : Nat.log 5 (2^24) = 10 := by
      rw [Nat.log_eq_iff (by norm_num)]
      norm_num
    exact congrArg Nat.cast h
  · have h : Nat.log 5 (2^53) = 22 := by
      rw [Nat.log_eq_iff (by norm_num)]
      norm_num
    exact congrArg Nat.cast h

theorem maxExponentDisguisedFastPath_eq (F : RawFloat) :
    F.maxExponentDisguisedFastPath = match F with | f16 => 7 | f32 => 17 | f64 => 37 := by
  rw [maxExponentDisguisedFastPath, maxExponentFastPath_eq]
  cases F
  · have h : Nat.log 10 (2^11) = 3 := by
      rw [Nat.log_eq_iff (by norm_num)]
      norm_num
    rw [sigTotalBits, h]
    rfl
  · have h : Nat.log 10 (2^24) = 7 := by
      rw [Nat.log_eq_iff (by norm_num)]
      norm_num
    rw [sigTotalBits, h]
    rfl
  · have h : Nat.log 10 (2^53) = 15 := by
      rw [Nat.log_eq_iff (by norm_num)]
      norm_num
    rw [sigTotalBits, h]
    rfl

theorem fromU64_spec (F : RawFloat) {v : ℕ} (hv : v ≤ F.maxMantissaFastPath) :
    ∃ a, F.fromU64 v = some a ∧ F.value a = v := by
  refine ⟨F.round v, if_pos hv, ?_⟩
  have hm : v ≤ 2^(F.sigBits+1) := by
    cases F <;> exact hv
  have := F.value_round (m := v) (j := 0) hm (by cases F <;> decide)
  rwa [pow_zero, mul_one] at this

theorem pow10FastPath_spec (F : RawFloat) {i : ℕ} (hi : (i:ℤ) ≤ F.maxExponentFastPath) :
    ∃ a, F.pow10FastPath i = some a ∧ F.value a = 10^i := by
  rw [maxExponentFastPath_eq] at hi
  have htable : F.pow10Table[i%F.pow10Table.length]? = some (10^i) := by
    cases F
    · have : i ≤ 4 := Int.ofNat_le.mp hi
      interval_cases i <;> norm_num [pow10Table]
    · have : i ≤ 10 := Int.ofNat_le.mp hi
      interval_cases i <;> norm_num [pow10Table]
    · have : i ≤ 22 := Int.ofNat_le.mp hi
      interval_cases i <;> norm_num [pow10Table]
  refine ⟨F.round (10^i), by rw [pow10FastPath, htable]; rfl, ?_⟩
  have h5 : 5^i ≤ 2^(F.sigBits+1) := by
    have : i ≤ Nat.log 5 (2^F.sigTotalBits) := by
      rw [← maxExponentFastPath_eq] at hi
      exact Int.ofNat_le.mp hi
    calc 5^i ≤ 2^F.sigTotalBits := (Nat.le_log_iff_pow_le (by norm_num) (by positivity)).mp this
      _ = 2^(F.sigBits+1) := by cases F <;> rfl
  have hval := F.value_round (m := 5^i) (j := i) h5 (by
    cases F
    · have : (i:ℤ) ≤ 4 := hi
      have h : RawFloat.f16.expMin = -14 ∧ RawFloat.f16.sigBits = 10 ∧ RawFloat.f16.expSat = 31 := by
        decide
      omega
    · have : (i:ℤ) ≤ 10 := hi
      have h : RawFloat.f32.expMin = -126 ∧ RawFloat.f32.sigBits = 23 ∧
          RawFloat.f32.expSat = 255 := by decide
      omega
    · have : (i:ℤ) ≤ 22 := hi
      have h : RawFloat.f64.expMin = -1022 ∧ RawFloat.f64.sigBits = 52 ∧
          RawFloat.f64.expSat = 2047 := by decide
      omega)
  have h10 : ((5^i:ℕ):ℚ)*2^i = 10^i := by
    push_cast
    rw [← mul_pow]
    norm_num
  rwa [h10] at hval

theorem value_nonneg (F : RawFloat) (n : ℕ) : 0 ≤ F.value n := by
  unfold value
  split <;> positivity

end RustStd.RawFloat

namespace RustStd.Dec2Flt
open RustStd.Checked

namespace Decimal

theorem fastPathValue_spec (F : RawFloat) {num : Decimal} (h : num.canUseFastPath F = true) :
    ∃ r, num.fastPathValue F = some r ∧
      ∀ n, r = some n → F.Nearest ((num.mantissa:ℚ)*10^num.exponent) n := by
  simp only [canUseFastPath, Bool.and_eq_true, decide_eq_true_eq] at h
  obtain ⟨⟨⟨hmin, hmax⟩, hm⟩, -⟩ := h
  have hmax0 : 0 ≤ F.maxExponentFastPath := by
    rw [RawFloat.maxExponentFastPath_eq]
    cases F <;> simp
  rw [fastPathValue]
  by_cases hdis : num.exponent ≤ F.maxExponentFastPath
  · obtain ⟨a, ha, hav⟩ := F.fromU64_spec hm
    rw [if_pos hdis, ha, some_bind]
    by_cases hneg : num.exponent < 0
    · obtain ⟨b, hb, hbv⟩ := F.pow10FastPath_spec (i := (-num.exponent).toNat) (by
        have : F.minExponentFastPath = -F.maxExponentFastPath := rfl
        omega)
      refine ⟨some (F.div a b), by rw [if_pos hneg, hb]; rfl, fun n hn => ?_⟩
      obtain rfl : F.div a b = n := by simpa using hn
      have hx : (num.mantissa:ℚ)*10^num.exponent = F.value a/F.value b := by
        rw [hav, hbv, ← zpow_natCast, Int.toNat_of_nonneg (by omega), zpow_neg, div_inv_eq_mul]
      rw [hx]
      exact F.round_nearest (div_nonneg (F.value_nonneg a) (F.value_nonneg b))
    · obtain ⟨b, hb, hbv⟩ := F.pow10FastPath_spec (i := num.exponent.toNat) (by omega)
      refine ⟨some (F.mul a b), by rw [if_neg hneg, hb]; rfl, fun n hn => ?_⟩
      obtain rfl : F.mul a b = n := by simpa using hn
      have hx : (num.mantissa:ℚ)*10^num.exponent = F.value a*F.value b := by
        rw [hav, hbv, ← zpow_natCast, Int.toNat_of_nonneg (by omega)]
      rw [hx]
      exact F.round_nearest (mul_nonneg (F.value_nonneg a) (F.value_nonneg b))
  · rw [if_neg hdis]
    obtain ⟨i, hi⟩ := Int.eq_ofNat_of_zero_le (show 0 ≤ num.exponent-F.maxExponentFastPath by omega)
    have hi15 : i ≤ 15 := by
      have h1 := RawFloat.maxExponentDisguisedFastPath_eq F
      have h2 := RawFloat.maxExponentFastPath_eq F
      cases F <;> simp only at h1 h2 <;> omega
    have hpow : intPow10[i]? = some (10^i) := by
      interval_cases i <;> rfl
    simp only [hi, Int.toNat_natCast, hpow, some_bind]
    cases hu : u64 (num.mantissa*10^i) with
    | none => exact ⟨none, rfl, by simp⟩
    | some v =>
      obtain rfl : num.mantissa*10^i = v := by
        unfold u64 unsigned at hu
        split at hu
        · exact Option.some.inj hu
        · simp at hu
      simp only []
      by_cases hbig : num.mantissa*10^i > F.maxMantissaFastPath
      · rw [if_pos hbig]
        exact ⟨none, rfl, by simp⟩
      · obtain ⟨a, ha, hav⟩ := F.fromU64_spec (show num.mantissa*10^i ≤ _ by omega)
        obtain ⟨b, hb, hbv⟩ := F.pow10FastPath_spec (i := F.maxExponentFastPath.toNat) (by omega)
        rw [if_neg hbig, ha, some_bind, hb, some_bind]
        refine ⟨some (F.mul a b), rfl, fun n hn => ?_⟩
        obtain rfl : F.mul a b = n := by simpa using hn
        have hx : (num.mantissa:ℚ)*10^num.exponent = F.value a*F.value b := by
          rw [hav, hbv]
          push_cast
          rw [mul_assoc, ← zpow_natCast, ← zpow_natCast, ← zpow_add₀ (by norm_num)]
          congr 2
          omega
        rw [hx]
        exact F.round_nearest (mul_nonneg (F.value_nonneg a) (F.value_nonneg b))

theorem tryFastPath_spec (F : RawFloat) (num : Decimal) :
    ∃ r, num.tryFastPath F = some r ∧ ∀ b, r = some b → num.canUseFastPath F = true ∧
      ∃ n, F.Nearest ((num.mantissa:ℚ)*10^num.exponent) n ∧
        b = if num.negative then F.neg n else n := by
  rw [tryFastPath]
  by_cases h : num.canUseFastPath F = true
  · obtain ⟨r, hr, hn⟩ := fastPathValue_spec F h
    rw [if_pos h, hr]
    refine ⟨_, rfl, fun b hb => ⟨h, ?_⟩⟩
    obtain ⟨n, rfl, rfl⟩ := Option.map_eq_some_iff.mp hb
    exact ⟨n, hn n rfl, rfl⟩
  · rw [if_neg h]
    exact ⟨none, rfl, by simp⟩

end Decimal

end RustStd.Dec2Flt
