import RustStd.Num.Dec2FltGrammar

/-!
# `dec2flt` is correctly rounded

Whichever algorithm is taken, the float is the nearest one to the digits with
the exponent that was read. The exponent stops growing while it is read, so the
number that the text denotes can be a different one.
-/

set_option autoImplicit false

namespace RustStd.Dec2Flt
open RustStd.Checked RustStd.Lemire RustStd.Machine RustStd.Nearest

/-! ## The pattern of the fields -/

theorem biasedFpToFloat_eq (F : RawFloat) {m p : ℕ} (hm : m < 2^F.sigBits)
    (hp : p*2^F.sigBits+m ≤ F.infBits) : biasedFpToFloat F ⟨m, p⟩ = p*2^F.sigBits+m := by
  have hinf : F.infBits < 2^F.bits ∧ 2^F.bits ≤ 2^64 := by
    cases F <;> decide
  have hS : F.sigBits < 64 := by cases F <;> decide
  have hpos : 1 ≤ 2^F.sigBits := Nat.one_le_two_pow
  have hple : p ≤ p*2^F.sigBits := Nat.le_mul_of_pos_right p hpos
  have hcast : ((p:ℤ)%2^64).toNat = p := by lia
  have hor : m ||| p*2^F.sigBits = p*2^F.sigBits+m := by
    rw [Nat.or_comm, Nat.mul_comm, ← Nat.two_pow_add_eq_or_of_lt hm]
  simp only [biasedFpToFloat, RawFloat.fromU64Bits]
  rw [hcast, Nat.mod_eq_of_lt (a := p*2^F.sigBits) (by lia), hor, Nat.mod_eq_of_lt (by lia)]

theorem biasedFpToFloat_hidden (F : RawFloat) :
    biasedFpToFloat F ⟨2^F.sigBits, 1⟩ = 2^F.sigBits := by
  cases F <;> decide

theorem Rounded.nearest {F : RawFloat} {x : ℚ} {fp : BiasedFp} (h : Rounded F x fp) :
    F.Nearest x (biasedFpToFloat F fp) := by
  obtain ⟨m, p, rfl, hm, hn⟩ := h
  rwa [biasedFpToFloat_eq F hm hn.1]

theorem pattern_of_result {F : RawFloat} {x : ℚ} {fp : BiasedFp} (h : Result F x fp)
    (hp : 0 ≤ fp.pBiased) :
    F.Nearest x (biasedFpToFloat F fp) ∧ (2^F.sigBits*F.ulp ≤ x ∨ 2*x < F.ulp) ∨
      ∃ m, biasedFpToFloat F fp = m ∧ m ≤ 2^F.sigBits ∧ (2*m-1)*F.ulp ≤ 2*x ∧
        2*x < (2*m+1)*F.ulp ∧ x < 2^F.sigBits*F.ulp := by
  cases h with
  | error => exact absurd hp (by decide)
  | fields m p hm hn hx =>
    left
    rw [biasedFpToFloat_eq F hm hn.1]
    exact ⟨hn, hx⟩
  | halfUp m hm hlo hhi hx =>
    refine Or.inr ⟨m, ?_, hm, hlo, hhi, hx⟩
    rcases hm.lt_or_eq with hlt | heq
    · have hle : 0*2^F.sigBits+m ≤ F.infBits := by
        calc 0*2^F.sigBits+m ≤ 1*2^F.sigBits := by lia
          _ ≤ F.expSat*2^F.sigBits := Nat.mul_le_mul_right _ (by cases F <;> decide)
      rw [if_neg (by lia)]
      have := biasedFpToFloat_eq F hlt hle
      rwa [Nat.zero_mul, Nat.zero_add] at this
    · rw [if_pos heq.ge, heq]
      exact biasedFpToFloat_hidden F

theorem computeFloat_nearest {F : RawFloat} (hF : F ≠ .f16) {q : ℤ} {w : ℕ} (hw : w < 2^64)
    {fp : BiasedFp} (h : Result F ((w:ℚ)*10^q) fp) (hp : 0 ≤ fp.pBiased) :
    F.Nearest ((w:ℚ)*10^q) (biasedFpToFloat F fp) := by
  rcases pattern_of_result h hp with ⟨h, -⟩ | ⟨m, h, hm, hlo, hhi, hx⟩
  · exact h
  · rw [h]
    exact nearest_of_halfUp hF hw hm hlo hhi hx

theorem computeFloat_outside {F : RawFloat} {q : ℤ}
    (hq : ¬ (F.smallestPowerOfTen ≤ q ∧ q ≤ F.largestPowerOfTen)) {w : ℕ} (hw : w ≠ 0) :
    computeFloat F q w =
      some (.zeroPow2 (if q < F.smallestPowerOfTen then 0 else F.infinitePower)) := by
  rw [computeFloat]
  by_cases hs : q < F.smallestPowerOfTen
  · rw [if_pos (Or.inr hs), if_pos hs]
    rfl
  · rw [if_neg (by lia), if_pos (by lia), if_neg hs]
    rfl

/-! ## The slow path on what was read -/

namespace Numeral

/-- The number that is denoted by the digits with the exponent that is read. -/
def readValue (N : Numeral) : ℚ := N.digits*10^N.readExponent

theorem point_bounds {N : Numeral} {num : Decimal} (h : Reads N.digits N.readExponent num)
    (h0 : N.digits ≠ 0) :
    num.exponent ≤ N.significant.length+N.readExponent ∧
      N.significant.length+N.readExponent ≤ num.exponent+19 := by
  obtain ⟨hlo, hhi⟩ := significant_bounds (mt significant_eq_nil_iff.mp h0)
  have hpos := List.length_pos_iff.mpr (mt (significant_eq_nil_iff (N := N)).mp h0)
  generalize N.digits = D at *
  cases h with
  | exact hd =>
    have hL : N.significant.length-1 < 19 :=
      (Nat.pow_lt_pow_iff_right (by norm_num)).mp (hlo.trans_lt hd)
    simp only
    lia
  | leading m k hk hm hm' hle hlt =>
    have h1 : 10^(N.significant.length-1) < 10^(19+k) := by
      calc 10^(N.significant.length-1) ≤ D := hlo
        _ < (m+1)*10^k := hlt
        _ ≤ 10^19*10^k := Nat.mul_le_mul_right _ hm'
        _ = 10^(19+k) := by rw [pow_add]
    have h2 : 10^(18+k) < 10^N.significant.length := by
      calc 10^(18+k) = 10^18*10^k := by rw [pow_add]
        _ ≤ m*10^k := Nat.mul_le_mul_right _ hm
        _ ≤ D := hle
        _ < _ := hhi
    have h3 := (Nat.pow_lt_pow_iff_right (by norm_num)).mp h1
    have h4 := (Nat.pow_lt_pow_iff_right (by norm_num)).mp h2
    simp only
    lia

end Numeral

theorem parseLongMantissa_nearest (F : RawFloat) {N : Numeral} {num : Decimal}
    (h : Reads N.digits N.readExponent num) (hq : F.smallestPowerOfTen ≤ num.exponent)
    (hq' : num.exponent ≤ F.largestPowerOfTen) :
    ∃ fp, parseLongMantissa F N.bytes = some fp ∧ F.Nearest N.readValue (biasedFpToFloat F fp) := by
  obtain ⟨fp, hfp, hr⟩ := parseLongMantissa_spec F N
  refine ⟨fp, hfp, ?_⟩
  have hn := hr.nearest
  by_cases h0 : N.digits = 0
  · rw [h0, Nat.cast_zero, zero_mul] at hn
    rwa [Numeral.readValue, h0, Nat.cast_zero, zero_mul]
  · have hp := Numeral.point_bounds h h0
    have hs : -342 ≤ F.smallestPowerOfTen := by cases F <;> decide
    have hl : F.largestPowerOfTen ≤ 308 := by
      rw [RawFloat.largestPowerOfTen_eq]
      cases F <;> simp
    rw [wrapI32_eq (by lia) (by lia), add_sub_cancel_left] at hn
    exact hn

theorem range_of_error {F : RawFloat} {q : ℤ} {w : ℕ} {fp : BiasedFp}
    (h : computeFloat F q w = some fp) (hp : fp.pBiased < 0) :
    F.smallestPowerOfTen ≤ q ∧ q ≤ F.largestPowerOfTen := by
  by_contra hq
  by_cases hw : w = 0
  · rw [computeFloat, if_pos (Or.inl hw)] at h
    rw [← Option.some.inj h] at hp
    exact absurd hp (by decide)
  · rw [computeFloat_outside hq hw] at h
    rw [← Option.some.inj h] at hp
    have hinf := F.infinitePower_le
    simp only [BiasedFp.zeroPow2] at hp
    split at hp
    · lia
    · lia

/-- Whichever of the two algorithms decides, it finds the nearest float. -/
theorem computeOrSlow_nearest {F : RawFloat} (hF : F ≠ .f16) {N : Numeral} {num : Decimal}
    (negative : Bool) (h : Reads N.digits N.readExponent num) :
    ∃ fp, computeOrSlow F { num with negative } N.bytes = some fp ∧
      F.Nearest N.readValue (biasedFpToFloat F fp) := by
  have hw := h.mantissa_lt
  obtain ⟨fp, hfp, hres⟩ := computeFloat_result F num.exponent (show num.mantissa < 2^64 by lia)
  have hslow := parseLongMantissa_nearest F h
  rw [computeOrSlow]
  simp only
  rw [hfp, some_bind]
  cases h with
  | exact hd =>
    simp only [Bool.false_eq_true, false_and, if_false, some_bind]
    by_cases hp : fp.pBiased < 0
    · rw [if_pos hp]
      obtain ⟨hq, hq'⟩ := range_of_error hfp hp
      exact hslow hq hq'
    · rw [if_neg hp]
      exact ⟨fp, rfl, computeFloat_nearest hF (by lia) hres (by lia)⟩
  | leading m k hk hm hm' hle hlt =>
    simp only at hfp hres hslow hw ⊢
    obtain ⟨next, hnext, hres'⟩ := computeFloat_result F (N.readExponent+k)
      (show m+1 < 2^64 by lia)
    by_cases hp : fp.pBiased < 0
    · obtain ⟨hq, hq'⟩ := range_of_error hfp hp
      rw [if_neg (by lia), some_bind, if_pos hp]
      exact hslow hq hq'
    · rw [if_pos ⟨trivial, by lia⟩, u64_eq (by lia), some_bind, hnext, some_bind, Option.pure_def, some_bind]
      by_cases hne : fp = next
      · -- the digits that were cut off lie between two mantissas that are rounded alike
        subst hne
        rw [if_neg (show ¬ (fp ≠ fp) from not_not.mpr rfl), if_neg hp]
        refine ⟨fp, rfl, ?_⟩
        have h1 := computeFloat_nearest hF (show m < 2^64 by lia) hres (by lia)
        have h2 := computeFloat_nearest hF (show m+1 < 2^64 by lia) hres' (by lia)
        have hpow : (10:ℚ)^(N.readExponent+k) = 10^k*10^N.readExponent := by
          rw [zpow_add₀ (by norm_num), zpow_natCast, mul_comm]
        rw [hpow, ← mul_assoc] at h1 h2
        apply IsNearest.between F.value_strictMono h1 h2
        · have : ((m*10^k:ℕ):ℚ) ≤ N.digits := by exact_mod_cast hle
          push_cast at this
          rw [Numeral.readValue]
          gcongr
        · have : (N.digits:ℚ) ≤ ((m+1)*10^k:ℕ) := by exact_mod_cast hlt.le
          push_cast at this ⊢
          rw [Numeral.readValue]
          gcongr
      · rw [if_pos hne, if_pos (by simp)]
        by_cases hq : F.smallestPowerOfTen ≤ N.readExponent+k ∧
            N.readExponent+k ≤ F.largestPowerOfTen
        · exact hslow hq.1 hq.2
        · exfalso
          rw [computeFloat_outside hq (by lia)] at hfp hnext
          exact hne (Option.some.inj (hfp.symm.trans hnext))

theorem dec2fltUnsigned_nearest {F : RawFloat} (hF : F ≠ .f16) (opt negative : Bool) (N : Numeral)
    (hlen : N.bytes.length ≤ isizeMax) :
    ∃ n, F.Nearest N.readValue n ∧ dec2fltUnsigned F opt negative N.bytes =
      some (.ok (if negative then F.neg n else n)) := by
  obtain ⟨num, hnum, hr⟩ := N.parseNumber_bytes hlen
  obtain ⟨fp, hfp, hn⟩ := computeOrSlow_nearest hF negative hr
  have hfast : ∃ fast, (if !opt then Decimal.tryFastPath F { num with negative }
      else some none) = some fast ∧ ∀ b, fast = some b → ∃ n, F.Nearest N.readValue n ∧
        b = if negative then F.neg n else n := by
    cases opt with
    | true => exact ⟨none, rfl, by simp⟩
    | false =>
      obtain ⟨fast, hfast, h⟩ := Decimal.tryFastPath_spec F { num with negative }
      refine ⟨fast, hfast, fun b hb => ?_⟩
      obtain ⟨hcan, n, hn, hb'⟩ := h b hb
      cases hr with
      | exact hd => exact ⟨n, hn, hb'⟩
      | leading m k => simp [Decimal.canUseFastPath] at hcan
  obtain ⟨fast, hfast, h⟩ := hfast
  rw [dec2fltUnsigned, hnum, some_bind]
  simp only []
  rw [hfast, some_bind]
  cases fast with
  | some value =>
    obtain ⟨n, hn, rfl⟩ := h value rfl
    exact ⟨n, hn, rfl⟩
  | none =>
    simp only []
    rw [hfp]
    exact ⟨_, hn, rfl⟩

theorem dec2flt_sign (F : RawFloat) (opt : Bool) (sg : OptSign) (N : Numeral) :
    dec2flt F opt (sg.bytes ++ N.bytes) = dec2fltUnsigned F opt sg.isMinus N.bytes := by
  have hne := N.bytes_ne
  cases sg with
  | plus =>
    rw [dec2flt]
    simp [OptSign.bytes, hne]
    rfl
  | minus =>
    rw [dec2flt]
    simp [OptSign.bytes, hne]
    rfl
  | none =>
    obtain ⟨c, t, hct⟩ := List.exists_cons_of_ne_nil hne
    have hc := head_unsigned (Or.inr ⟨N, hct.symm⟩)
    have h45 : (c == 45) = false := by
      rw [beq_eq_false_iff_ne]
      exact fun h => hc (Or.inl h)
    rw [dec2flt]
    simp [OptSign.bytes, hct, hc, h45]
    rfl

end RustStd.Dec2Flt
