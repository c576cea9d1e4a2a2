import RustStd.Num.CorrectRounding

/-!
# Half precision

`compute_float` rounds half up below the normal range, because nineteen digits
cannot lie half way between two subnormals of `f32` or `f64`. For `f16` they
can, and half way above an even subnormal the float is not the nearest one.
-/

set_option autoImplicit false

namespace RustStd.RawFloat

/-- Half way above an even subnormal, or above zero. -/
def EvenTie (F : RawFloat) (x : ℚ) : Prop :=
  ∃ a : ℕ, Even a ∧ a < 2^F.sigBits ∧ 2*x = (2*a+1)*F.ulp

theorem nearest_half_up_iff (F : RawFloat) {x : ℚ} {m : ℕ} (hm : m ≤ 2^F.sigBits)
    (hlo : (2*m-1)*F.ulp ≤ 2*x) (hhi : 2*x < (2*m+1)*F.ulp) :
    F.Nearest x m ↔ ¬ F.EvenTie x := by
  have hul := F.ulp_pos
  constructor
  · rintro hn ⟨a, ha, -, htie⟩
    -- the tie above `a` is rounded up to `a+1`
    have h1 : (2*m-1:ℚ) ≤ 2*a+1 := le_of_mul_le_mul_right (hlo.trans htie.le) hul
    have h2 : (2*a+1:ℚ) < 2*m+1 := lt_of_mul_lt_mul_right (htie.ge.trans_lt hhi) hul.le
    have h3 : m ≤ a+1 := by
      have : (m:ℚ) ≤ a+1 := by linarith
      exact_mod_cast this
    have h4 : a < m := by
      have : (a:ℚ) < m := by linarith
      exact_mod_cast this
    obtain rfl : m = a+1 := by omega
    apply F.not_nearest_half_up hm _ ha.add_one hn
    rw [htie]
    push_cast
    ring
  · intro hnot
    apply F.nearest_half_up hm hlo hhi
    intro htie
    by_contra hodd
    rw [Nat.not_even_iff_odd] at hodd
    obtain ⟨b, rfl⟩ := hodd
    apply hnot
    refine ⟨2*b, even_two_mul b, by omega, ?_⟩
    rw [htie]
    push_cast
    ring

theorem not_evenTie_of (F : RawFloat) {x : ℚ} (h : 2^F.sigBits*F.ulp ≤ x ∨ 2*x < F.ulp) :
    ¬ F.EvenTie x := by
  rintro ⟨a, -, ha, htie⟩
  have hul := F.ulp_pos
  rcases h with h | h
  · have hle : (a:ℚ)+1 ≤ 2^F.sigBits := by exact_mod_cast ha
    have : ((a:ℚ)+1)*F.ulp ≤ 2^F.sigBits*F.ulp := by gcongr
    linarith
  · have : (0:ℚ) ≤ a*F.ulp := by positivity
    linarith

theorem EvenTie.not_nearest {F : RawFloat} {x y : ℚ} {m : ℕ} (h : F.EvenTie y)
    (hm : m ≤ 2^F.sigBits) (hlo : (2*m-1)*F.ulp ≤ 2*y) (hhi : 2*y < (2*m+1)*F.ulp)
    (hfar : 10*x ≤ y ∨ 10*y ≤ x) : ¬ F.Nearest x m := by
  intro hn
  obtain ⟨a, -, -, htie⟩ := h
  have hul := F.ulp_pos
  have ha : (0:ℚ) ≤ a*F.ulp := by positivity
  have hpow : 2^(F.sigBits+1) = 2*2^F.sigBits := pow_succ' 2 F.sigBits
  have hpos : 1 ≤ 2^F.sigBits := Nat.one_le_two_pow
  have hm0 : m ≠ 0 := by
    rintro rfl
    push_cast at hhi
    linarith
  have hinf : m ≠ F.infBits := by
    have : 2*2^F.sigBits ≤ F.infBits := Nat.mul_le_mul_right _ (by cases F <;> decide)
    omega
  have h1 := (hn.bounds F.value_strictMono).1 hm0
  have h2 := (hn.bounds F.value_strictMono).2 hinf
  rw [F.value_subnormal (by omega), F.value_subnormal (by omega), Nat.cast_sub (by omega)] at h1
  rw [F.value_subnormal (by omega), F.value_subnormal (by omega)] at h2
  push_cast at h1 h2
  have hmu : 1*F.ulp ≤ m*F.ulp := by
    have : (1:ℚ) ≤ m := by exact_mod_cast Nat.one_le_iff_ne_zero.mpr hm0
    gcongr
  rcases hfar with hfar | hfar
  · linarith
  · linarith

end RustStd.RawFloat

namespace RustStd.Dec2Flt
open RustStd.Lemire RustStd.Machine

theorem not_evenTie_of_exponent {q : ℤ} (hq : -4 ≤ q) (w : ℕ) :
    ¬ RawFloat.f16.EvenTie ((w:ℚ)*10^q) := by
  rintro ⟨a, -, -, htie⟩
  obtain ⟨j, hj⟩ := Int.eq_ofNat_of_zero_le (show 0 ≤ q+4 by omega)
  obtain rfl : q = j-4 := by omega
  have hulp : RawFloat.f16.ulp*2^24 = 1 := by
    rw [RawFloat.ulp, show RawFloat.f16.expMin-RawFloat.f16.sigBits = -24 from rfl]
    norm_num
  have h10 : (10:ℚ)^((j:ℤ)-4)*10^4 = 10^j := by
    rw [zpow_sub₀ (by norm_num), zpow_natCast]
    norm_num
  have hN : w*10^j*2^25 = (2*a+1)*10^4 := by
    have : (w:ℚ)*10^j*2^25 = (2*a+1)*10^4 := by
      rw [← h10]
      linear_combination 2^24*10^4*htie+(2*(a:ℚ)+1)*10^4*hulp
    exact_mod_cast this
  omega

theorem computeFloat_half {q : ℤ} {w : ℕ} (hw : w < 2^64) :
    ∃ fp, computeFloat .f16 q w = some fp ∧ 0 ≤ fp.pBiased ∧
      (RawFloat.f16.Nearest ((w:ℚ)*10^q) (biasedFpToFloat .f16 fp) ↔
        ¬ RawFloat.f16.EvenTie ((w:ℚ)*10^q)) ∧
      ∀ x, RawFloat.f16.EvenTie ((w:ℚ)*10^q) →
        (10*x ≤ (w:ℚ)*10^q ∨ 10*((w:ℚ)*10^q) ≤ x) →
        ¬ RawFloat.f16.Nearest x (biasedFpToFloat .f16 fp) := by
  obtain ⟨fp, hfp, hres⟩ := computeFloat_result .f16 q hw
  have hp : 0 ≤ fp.pBiased := by
    cases hres with
    | error hF => exact absurd rfl hF
    | fields m p => exact Int.natCast_nonneg p
    | halfUp m =>
      simp only
      split
      · decide
      · decide
  refine ⟨fp, hfp, hp, ?_⟩
  rcases pattern_of_result hres hp with ⟨hn, hx⟩ | ⟨m, hm, hle, hlo, hhi, -⟩
  · have hnot := RawFloat.f16.not_evenTie_of hx
    exact ⟨iff_of_true hn hnot, fun x htie => absurd htie hnot⟩
  · rw [hm]
    exact ⟨RawFloat.f16.nearest_half_up_iff hle hlo hhi,
      fun x htie hfar => htie.not_nearest hle hlo hhi hfar⟩

theorem dec2flt_half_reads (opt : Bool) (sg : OptSign) (N : Numeral)
    (hlen : N.bytes.length ≤ isizeMax) (hd : N.digits < 10^19) :
    ∃ n, dec2flt .f16 opt (sg.bytes ++ N.bytes) =
        some (.ok (if sg.isMinus then RawFloat.f16.neg n else n)) ∧
      (RawFloat.f16.Nearest N.readValue n ↔ ¬ RawFloat.f16.EvenTie N.readValue) ∧
      ∀ x, RawFloat.f16.EvenTie N.readValue → (10*x ≤ N.readValue ∨ 10*N.readValue ≤ x) →
        ¬ RawFloat.f16.Nearest x n := by
  rw [dec2flt_sign]
  generalize sg.isMinus = negative
  obtain ⟨num, hnum, hr⟩ := N.parseNumber_bytes hlen
  obtain rfl : num = ⟨N.readExponent, N.digits, false, false⟩ := by
    cases hr with
    | exact => rfl
    | leading m k hk hm hm' hle hlt =>
      have : 10^18*10 ≤ m*10^k := Nat.mul_le_mul hm (Nat.le_self_pow (by omega) 10)
      omega
  obtain ⟨fp, hfp, hp, hn, hfar⟩ := computeFloat_half (q := N.readExponent) (w := N.digits)
    (by omega)
  obtain ⟨fast, hfast, hspec⟩ := Decimal.tryFastPath_spec .f16
    ⟨N.readExponent, N.digits, negative, false⟩
  rw [dec2fltUnsigned, hnum, some_bind]
  simp only []
  have hslow : computeOrSlow .f16 ⟨N.readExponent, N.digits, negative, false⟩ N.bytes = some fp := by
    rw [computeOrSlow]
    simp only
    rw [hfp, some_bind]
    simp only [Bool.false_eq_true, false_and, if_false, some_bind]
    rw [if_neg (by omega)]
    rfl
  have hcomputed : ∃ n,
      (do
        let fp ← computeOrSlow .f16 ⟨N.readExponent, N.digits, negative, false⟩ N.bytes
        return .ok (if negative then RawFloat.f16.neg (biasedFpToFloat .f16 fp)
          else biasedFpToFloat .f16 fp) : Option (Except FloatErrorKind ℕ)) =
        some (.ok (if negative then RawFloat.f16.neg n else n)) ∧
      (RawFloat.f16.Nearest N.readValue n ↔ ¬ RawFloat.f16.EvenTie N.readValue) ∧
      ∀ x, RawFloat.f16.EvenTie N.readValue → (10*x ≤ N.readValue ∨ 10*N.readValue ≤ x) →
        ¬ RawFloat.f16.Nearest x n := by
    rw [hslow]
    exact ⟨_, rfl, hn, hfar⟩
  cases opt with
  | true => exact hcomputed
  | false =>
    simp only [Bool.not_false, if_true]
    rw [hfast]
    cases fast with
    | none => exact hcomputed
    | some b =>
      obtain ⟨hcan, n, hnear, rfl⟩ := hspec b rfl
      have hq : -4 ≤ N.readExponent := by
        simp only [Decimal.canUseFastPath, RawFloat.minExponentFastPath,
          RawFloat.maxExponentFastPath_eq, Bool.and_eq_true, decide_eq_true_eq] at hcan
        omega
      have hnot := not_evenTie_of_exponent hq N.digits
      exact ⟨n, rfl, iff_of_true hnear hnot, fun x htie => absurd htie hnot⟩

/-- Without cut digits, half precision is correctly rounded exactly for the texts
whose exponent is read so that it is rounded alike and that are not read as a
tie above an even subnormal. -/
theorem dec2flt_half_correct_iff (opt : Bool) (sg : OptSign) (N : Numeral)
    (hlen : N.bytes.length+655360 ≤ 2^63) (hd : N.digits < 10^19) :
    Correct .f16 sg N (dec2flt .f16 opt (sg.bytes ++ N.bytes)) ↔
      N.ReadAlike .f16 ∧ ¬ RawFloat.f16.EvenTie N.readValue := by
  obtain ⟨n, hr, hn, hfar⟩ := dec2flt_half_reads opt sg N (slice_of_i64 hlen) hd
  rw [correct_iff hr, Numeral.readAlike_iff]
  by_cases htie : RawFloat.f16.EvenTie N.readValue
  · apply iff_of_false
    · by_cases hread : N.ExponentRead
      · rw [← Numeral.readValue_eq (Or.inl hread), hn]
        exact not_not.mpr htie
      · exact hfar N.value htie (Numeral.readValue_far hread)
    · exact fun h => h.2 htie
  · have hnear := hn.mpr htie
    constructor
    · intro h
      exact ⟨⟨n, h, hnear⟩, htie⟩
    · rintro ⟨⟨m, hm, hm'⟩, -⟩
      rwa [hnear.unique hm']

theorem dec2flt_half_correct_iff_threeHalves :
    Correct .f16 .none threeHalves
      (dec2flt .f16 false (OptSign.none.bytes ++ threeHalves.bytes)) := by
  have hlen : threeHalves.bytes.length+655360 ≤ 2^63 := by
    simp [threeHalves, Numeral.bytes, Numeral.expBytes]
  have hread : threeHalves.readValue = (15:ℕ)*10^(-1:ℤ) := rfl
  apply (dec2flt_half_correct_iff false .none threeHalves hlen (by decide)).mpr
  constructor
  · exact Or.inl (by simp [Numeral.ExponentRead, threeHalves])
  · rw [hread]
    exact not_evenTie_of_exponent (by decide) 15

theorem lowercase_letter : (101:UInt8) = 101 ∨ (101:UInt8) = 69 := .inl rfl

theorem isDigit_nil : ∀ c ∈ ([] : List UInt8), isDigit c = true := List.forall_mem_nil _

/-- `298023223876953125e-25`, half of the least subnormal. -/
def halfLeast : Numeral where
  int := [50, 57, 56, 48, 50, 51, 50, 50, 51, 56, 55, 54, 57, 53, 51, 49, 50, 53]
  dot := false
  frac := []
  exp := some ⟨101, .minus, [50, 53], lowercase_letter, by simp [isDigit], by simp⟩
  isDigit_int := by simp [isDigit]
  isDigit_frac := isDigit_nil
  frac_eq := by simp
  digits_ne := by simp

/-- Half of the least subnormal is rounded up, and the even float would be zero. -/
theorem dec2flt_half_least :
    halfLeast.value = 2^(-25:ℤ) ∧ halfLeast.digits < 10^19 ∧ RawFloat.f16.Nearest halfLeast.value 0 ∧
      ¬ Correct .f16 .none halfLeast
        (dec2flt .f16 false (OptSign.none.bytes ++ halfLeast.bytes)) := by
  have hd : halfLeast.digits = 298023223876953125 := by decide
  have hval : halfLeast.value = 2^(-25:ℤ) := by
    rw [Numeral.value, hd, show halfLeast.exponent = -25 from rfl]
    norm_num
  have hread : halfLeast.readValue = halfLeast.value := by
    apply Numeral.readValue_eq
    left
    intro x hx
    obtain rfl : _ = x := Option.some.inj hx
    decide
  have hulp : RawFloat.f16.ulp = 2^(-24:ℤ) := rfl
  have htie : 2*halfLeast.value = RawFloat.f16.ulp := by
    rw [hval, hulp]
    norm_num
  have hlen : halfLeast.bytes.length ≤ isizeMax := by
    simp [halfLeast, Numeral.bytes, Numeral.expBytes, Exponent.bytes, OptSign.bytes, isizeMax]
  obtain ⟨n, hr, hn, -⟩ := dec2flt_half_reads false .none halfLeast hlen (by rw [hd]; norm_num)
  refine ⟨hval, by rw [hd]; norm_num, ?_, ?_⟩
  · exact RawFloat.f16.nearest_zero halfLeast.value_nonneg htie.le
  · rw [correct_iff hr, ← hread, hn, not_not, hread]
    refine ⟨0, by simp, by decide, ?_⟩
    rw [htie]
    simp

end RustStd.Dec2Flt
