import RustStd.Num.DecimalSeqParse

/-!
# The slow path on a decimal

`parse_long_mantissa` once the decimal is parsed. Its flag says that the decimal
was cut off after 768 digits, so what is missing is below the last place there is
room for.
-/

set_option autoImplicit false

namespace RustStd.Dec2Flt
open RustStd.Checked RustStd.Digits RustStd.Lemire DecimalSeq

/-- The decimal with `n` digits denotes `x`: without the flag it is `x`, and with it
something below the `n`-th digit is missing. -/
def Denotes (d : DecimalSeq) (n : ℕ) (x : ℚ) : Prop :=
  (d.truncated = false → x = d.value) ∧
    (d.truncated = true → d.value < x ∧ x < d.value+10^(d.decimalPoint-n))

section Denotes

variable {d : DecimalSeq} {x : ℚ}

theorem Denotes.le {n : ℕ} (h : Denotes d n x) : d.value ≤ x := by
  cases ht : d.truncated with
  | false => exact (h.1 ht).ge
  | true => exact (h.2 ht).1.le

theorem Denotes.truncated_iff {n : ℕ} (h : Denotes d n x) :
    d.truncated = true ↔ d.value < x := by
  cases ht : d.truncated with
  | false => simp [h.1 ht]
  | true => simp [(h.2 ht).1]

theorem Denotes.lt {n : ℕ} (h : Denotes d n x) : x < d.value+10^(d.decimalPoint-n) := by
  cases ht : d.truncated with
  | false =>
    have : (0:ℚ) < 10^(d.decimalPoint-n) := by positivity
    rw [h.1 ht]
    linarith
  | true => exact (h.2 ht).2

theorem Denotes.isCut (hd : d.WF) (h : Denotes d maxDigits x) :
    IsCut 10 maxDigits x d.value := by
  refine ⟨h.le, ?_⟩
  rintro u ⟨a, j, ha, rfl⟩ hle
  push_cast at hle ⊢
  rcases le_or_gt (d.decimalPoint-maxDigits) j with hj | hj
  · -- both are multiples of the last place there is room for
    obtain ⟨e, he⟩ := Int.eq_ofNat_of_zero_le (show 0 ≤ j-(d.decimalPoint-maxDigits) by omega)
    have hmax := hd.le
    have hsplit : (10:ℚ)^j = 10^e*10^(d.decimalPoint-maxDigits) := by
      rw [← zpow_natCast, ← zpow_add₀ (by norm_num)]
      congr 1
      omega
    have hvalue : d.value =
        (d.coeff*10^(maxDigits-d.numDigits):ℕ)*10^(d.decimalPoint-maxDigits) := by
      rw [value]
      push_cast
      rw [mul_assoc, ← zpow_natCast, ← zpow_add₀ (by norm_num)]
      congr 2
      push_cast [hmax]
      ring
    have hp : (0:ℚ) < 10^(d.decimalPoint-maxDigits) := by positivity
    have hlt : (a*10^e:ℕ)*(10:ℚ)^(d.decimalPoint-maxDigits) <
        ((d.coeff*10^(maxDigits-d.numDigits):ℕ)+1)*10^(d.decimalPoint-maxDigits) := by
      calc (a*10^e:ℕ)*(10:ℚ)^(d.decimalPoint-maxDigits) = a*10^j := by
            rw [hsplit]
            push_cast
            ring
        _ ≤ x := hle
        _ < d.value+10^(d.decimalPoint-maxDigits) := h.lt
        _ = _ := by
          rw [hvalue]
          ring
    have hlt' := lt_of_mul_lt_mul_right hlt hp.le
    have hN : a*10^e < d.coeff*10^(maxDigits-d.numDigits)+1 := by exact_mod_cast hlt'
    have hNQ : ((a*10^e:ℕ):ℚ) ≤ (d.coeff*10^(maxDigits-d.numDigits):ℕ) := by
      exact_mod_cast Nat.le_of_lt_succ hN
    calc (a:ℚ)*10^j = (a*10^e:ℕ)*10^(d.decimalPoint-maxDigits) := by
          rw [hsplit]
          push_cast
          ring
      _ ≤ (d.coeff*10^(maxDigits-d.numDigits):ℕ)*10^(d.decimalPoint-maxDigits) := by gcongr
      _ = d.value := hvalue.symm
  · -- too few digits to reach the first place
    have haQ : (a:ℚ) ≤ 10^maxDigits := by exact_mod_cast ha.le
    calc (a:ℚ)*10^j ≤ 10^maxDigits*10^j := by gcongr
      _ = 10^((maxDigits:ℤ)+j) := by rw [zpow_add₀ (by norm_num), zpow_natCast]
      _ ≤ 10^(d.decimalPoint-1) := zpow_le_zpow_right₀ (by norm_num) (by omega)
      _ ≤ d.value := hd.le_value

end Denotes

/-- The loops end, and the fields are those of the float nearest to the number behind
the decimal, if what the flag stands for is below the 768th digit. -/
theorem shiftAndRound_correct {d : DecimalSeq} (hd : d.WF) (hlo : -324 ≤ d.decimalPoint)
    (hhi : d.decimalPoint ≤ 309) {x : ℚ} (hx : Denotes d maxDigits x) :
    ∃ fp, shiftAndRound .f64 d = some fp ∧ Rounded .f64 x fp := by
  have hmax := hd.le
  have hlt : x < 10^310 := by
    calc x < d.value+10^(d.decimalPoint-maxDigits) := hx.lt
      _ ≤ 10^d.decimalPoint+10^d.decimalPoint := by
        apply add_le_add hd.value_lt.le
        exact zpow_le_zpow_right₀ (by norm_num) (by omega)
      _ ≤ 10^(309:ℤ)+10^(309:ℤ) := by
        have : (10:ℚ)^d.decimalPoint ≤ 10^(309:ℤ) := zpow_le_zpow_right₀ (by norm_num) hhi
        exact add_le_add this this
      _ ≤ 10^(309:ℤ)*10 := by
        rw [← mul_two]
        gcongr
        norm_num
      _ = 10^310 := by
        rw [show (309:ℤ) = ((309:ℕ):ℤ) by norm_num, zpow_natCast, ← pow_succ]
  exact shiftLoops_spec .f64 (Tracks.of_cut hd (hx.isCut hd) hx.truncated_iff hlt) hlo hlt

def oneAndMore : DecimalSeq := ⟨1, 1, true, fun _ => 1⟩

theorem oneAndMore_wf : oneAndMore.WF :=
  ⟨Nat.one_pos, show 1 ≤ 768 by decide, fun _ _ => show 1 < 10 by decide, Nat.one_ne_zero⟩

theorem oneAndMore_denotes {n : ℕ} {x : ℚ} (h1 : 1 < x) (h2 : x < 1+10^(1-(n:ℤ))) :
    Denotes oneAndMore n x := by
  have hval : oneAndMore.value = 1 := by simp [value, oneAndMore, coeff, ofFn]
  constructor
  · intro h
    cases h
  · intro _
    rw [hval]
    exact ⟨h1, h2⟩

theorem shiftAndRound_correct_oneAndMore :
    ∃ fp, shiftAndRound .f64 oneAndMore = some fp ∧
      Rounded .f64 (1+10^(-768:ℤ)) fp := by
  apply shiftAndRound_correct oneAndMore_wf (by decide) (by decide)
  apply oneAndMore_denotes
  · have : (0:ℚ) < 10^(-768:ℤ) := by positivity
    linarith
  · have : (10:ℚ)^(-768:ℤ) < 10^(1-(maxDigits:ℤ)) :=
      zpow_lt_zpow_right₀ (by norm_num) (by decide)
    linarith

/-- If the flag may stand for anything below the last digit, the digits do not decide. -/
theorem shiftAndRound_short_tail :
    ¬ ∀ d : DecimalSeq, d.WF → -324 ≤ d.decimalPoint → d.decimalPoint ≤ 309 →
      ∀ x, Denotes d d.numDigits x →
        ∃ fp, shiftAndRound .f64 d = some fp ∧ Rounded .f64 x fp := by
  intro h
  have hden : Denotes oneAndMore oneAndMore.numDigits (3/2) :=
    oneAndMore_denotes (by norm_num) (by norm_num [oneAndMore])
  obtain ⟨fp, hrun, m, p, rfl, hm, hnear⟩ :=
    h oneAndMore oneAndMore_wf (by decide) (by decide) _ hden
  have hone : shiftAndRound .f64 oneAndMore = some ⟨0, 1023⟩ := by decide +kernel
  have hfields := Option.some.inj (hone.symm.trans hrun)
  obtain ⟨rfl, hp⟩ : 0 = m ∧ (1023:ℤ) = p := by simpa using hfields
  obtain rfl : p = 1023 := by omega
  -- the middle between the pattern of one and the next pattern is below three halves
  have hbound := (hnear.bounds RawFloat.f64.value_strictMono).2 (by decide)
  have hv0 : RawFloat.f64.value (1023*2^RawFloat.f64.sigBits+0) = 1 := by
    norm_num [RawFloat.value, RawFloat.sigBits, RawFloat.sigTotalBits, RawFloat.expMin,
      RawFloat.expBias, RawFloat.expSat, RawFloat.expBits, RawFloat.bits]
  have hv1 : RawFloat.f64.value (1023*2^RawFloat.f64.sigBits+0+1) = 1+2^(-52:ℤ) := by
    norm_num [RawFloat.value, RawFloat.sigBits, RawFloat.sigTotalBits, RawFloat.expMin,
      RawFloat.expBias, RawFloat.expSat, RawFloat.expBits, RawFloat.bits]
  rw [hv0, hv1] at hbound
  norm_num at hbound

end RustStd.Dec2Flt
