import RustStd.Num.DecimalRightShift

/-!
# What the shifts of `DecimalSeq` compute

The shifts multiply and divide exactly as far as the digits have room, and the
write index of a shift to the left ends at the first digit.
-/

set_option autoImplicit false

namespace RustStd.Dec2Flt.DecimalSeq
open RustStd.Checked RustStd.Digits

def leftShiftCarryIndex : ℕ → DecimalSeq → ℕ → Option (ℕ × DecimalSeq)
  | writeIndex, d, 0 => some (writeIndex, d)
  | 0, _, _+1 => none
  | writeIndex+1, d, n+1 => do
    let quotient := (n+1)/10
    let remainder := (n+1)-10*quotient
    let d ← d.putDigit writeIndex remainder
    leftShiftCarryIndex writeIndex d quotient

theorem leftShiftCarry_eq (writeIndex : ℕ) (d : DecimalSeq) (n : ℕ) :
    leftShiftCarry writeIndex d n = (leftShiftCarryIndex writeIndex d n).map Prod.snd := by
  induction writeIndex generalizing d n with
  | zero => cases n <;> rfl
  | succ writeIndex ih =>
    cases n with
    | zero => rfl
    | succ n =>
      rw [leftShiftCarry, leftShiftCarryIndex]
      simp only [Option.bind_eq_bind]
      cases d.putDigit writeIndex (n+1-10*((n+1)/10)) with
      | none => rfl
      | some d => exact ih d _

theorem leftShiftCarryIndex_zero {writeIndex n : ℕ} {d d' : DecimalSeq} {i : ℕ}
    (hn : writeIndex = 0 ∨ 10^writeIndex ≤ 10*n)
    (h : leftShiftCarryIndex writeIndex d n = some (i, d')) : i = 0 := by
  induction writeIndex generalizing d n with
  | zero =>
    cases n with
    | zero =>
      cases h
      rfl
    | succ n => cases h
  | succ writeIndex ih =>
    rw [pow_succ] at hn
    have hpos : 0 < 10^writeIndex := by positivity
    cases n with
    | zero => omega
    | succ n =>
      rw [leftShiftCarryIndex] at h
      obtain ⟨d₁, -, h₁⟩ := Option.bind_eq_some_iff.mp h
      refine ih ?_ h₁
      rcases Nat.eq_zero_or_pos writeIndex with rfl | hw
      · exact Or.inl rfl
      · obtain ⟨k, rfl⟩ : ∃ k, writeIndex = k+1 := ⟨writeIndex-1, by omega⟩
        rw [pow_succ] at hn ⊢
        omega

/-- `d` holds the digits of `v`, all of them or the first ones, and its flag says
whether digits are missing, now or from before. -/
structure Holds (before : Bool) (v : ℚ) (d : DecimalSeq) : Prop where
  wf : d.WF
  exact : Short 10 maxDigits v → d.value = v ∧ d.truncated = before
  cut : IsCut 10 maxDigits v d.value
  truncated : d.truncated = true ↔ before = true ∨ d.value ≠ v

theorem Leads.holds {before : Bool} {v : ℚ} {d : DecimalSeq} (h : Leads before v d) :
    Holds before v d := by
  have htr : d.truncated = true ↔ before = true ∨ d.value ≠ v := by
    rw [h.truncated, lt_iff_le_and_ne, and_iff_right h.cut.le]
  refine ⟨h.wf, fun hs => ?_, h.cut, htr⟩
  have heq : d.value = v := le_antisymm h.cut.le (h.cut.greatest v hs le_rfl)
  refine ⟨heq, ?_⟩
  rw [heq] at htr
  simpa using htr

theorem FirstDigit.magnitude {d : DecimalSeq} (hd : d.WF) {shift r₀ : ℕ}
    (hf : FirstDigit d shift r₀) :
    10^(d.decimalPoint-(r₀-1)-1) ≤ d.value/2^shift ∧
      d.value/2^shift < 10^(d.decimalPoint-(r₀-1)) := by
  obtain ⟨hlo, hhi⟩ := quotientDigits_bounds hd hf
  have hle := hf.le_numDigits hd
  have hL : 1 ≤ d.quotientDigits shift r₀ := by
    unfold quotientDigits
    omega
  rw [← quotient_value d hle]
  generalize d.quotientDigits shift r₀ = L at *
  generalize d.decimalPoint-((r₀:ℤ)-1) = p
  have hloQ : (10:ℚ)^(L-1) ≤ (d.coeff*5^shift:ℕ) := by exact_mod_cast hlo
  have hhiQ : ((d.coeff*5^shift:ℕ):ℚ) < 10^L := by exact_mod_cast hhi
  constructor
  · calc (10:ℚ)^(p-1) = 10^(L-1)*10^(p-L) := by
          rw [← zpow_natCast, ← zpow_add₀ (by norm_num)]
          congr 1
          push_cast [hL]
          ring
      _ ≤ _ := by gcongr
  · calc _ < (10:ℚ)^L*10^(p-L) := by gcongr
      _ = 10^p := by
        rw [← zpow_natCast, ← zpow_add₀ (by norm_num)]
        congr 1
        ring

/-- Shifts of a decimal with digits up to nine, of which the first is not zero. To the
left the table gives the number of new digits, the write index ends at zero and the
decimal is multiplied. To the right the decimal is divided, or cleared when its
point gets below the range. No register overflows, and the values are exact as far
as there is room for the digits and the decimal point is an `i32`. -/
theorem decimalSeq_shifts_exact {d : DecimalSeq} (hd : d.WF) (hdp : -2^31 ≤ d.decimalPoint)
    (hdp' : d.decimalPoint < 2^31) {shift : ℕ} (h1 : 1 ≤ shift) (h60 : shift ≤ 60) :
    (∃ k d₁ n d₂ d', d.numberOfDigitsDecimalLeftShift shift = some k ∧
      10^(d.numDigits+k-1) ≤ d.coeff*2^shift ∧ d.coeff*2^shift < 10^(d.numDigits+k) ∧
      leftShiftDigits shift d.numDigits (d.numDigits+k) d 0 = some (k, d₁, n) ∧
      leftShiftCarryIndex k d₁ n = some (0, d₂) ∧ d.leftShift shift = some d' ∧
      (d.decimalPoint+k < 2^31 → Holds d.truncated (d.value*2^shift) d')) ∧
    ∃ p d', 10^(p-1) ≤ d.value/2^shift ∧ d.value/2^shift < 10^p ∧
      d.rightShift shift = some d' ∧ (-2^31 ≤ p →
        if p < -decimalPointRange then d' = cleared d
        else Holds d.truncated (d.value/2^shift) d') := by
  constructor
  · obtain ⟨k, d₁, d₂, d', hk, hks, hdigits, hcarry, hrun, hl⟩ := leftShift_run hd h1 h60
    obtain ⟨k', hk', -, hlo, hhi⟩ := numberOfDigits_spec hd h1 h60
    obtain rfl : k' = k := Option.some.inj (hk'.symm.trans hk)
    rw [leftShiftCarry_eq] at hcarry
    obtain ⟨⟨i, d₃⟩, hindex, -⟩ := Option.map_eq_some_iff.mp hcarry
    have hplaces : k' = 0 ∨ 10^k' ≤ 10*(d.coeff*2^shift/10^d.numDigits) := by
      rcases Nat.eq_zero_or_pos k' with h0 | hpos
      · exact Or.inl h0
      · right
        obtain ⟨j, rfl⟩ : ∃ j, k' = j+1 := ⟨k'-1, by omega⟩
        have hj : 10^j ≤ d.coeff*2^shift/10^d.numDigits := by
          rw [Nat.le_div_iff_mul_le (by positivity), ← pow_add, Nat.add_comm j]
          exact hlo
        rw [pow_succ]
        omega
    obtain rfl := leftShiftCarryIndex_zero hplaces hindex
    refine ⟨k', d₁, _, d₃, d', hk, hlo, hhi, hdigits, hindex, hrun, fun hfit => ?_⟩
    rw [wrapI32_eq (by omega) (by omega), product_value] at hl
    exact hl.holds
  · obtain ⟨r₀, d', hf, hrun, hd'⟩ := rightShift_run hd h60
    have hone := hf.pos
    obtain ⟨hlo, hhi⟩ := hf.magnitude hd
    refine ⟨_, d', hlo, hhi, hrun, fun hfit => ?_⟩
    rw [wrapI32_eq hfit (by omega), quotient_value d (hf.le_numDigits hd)] at hd'
    split_ifs at hd' ⊢ with hsmall
    · exact hd'
    · exact hd'.holds

def one (decimalPoint : ℤ) : DecimalSeq := ⟨1, decimalPoint, false, fun _ => 1⟩

theorem one_wf (decimalPoint : ℤ) : (one decimalPoint).WF :=
  ⟨Nat.one_pos, show 1 ≤ 768 by decide, fun _ _ => show 1 < 10 by decide, Nat.one_ne_zero⟩

theorem decimalSeq_shifts_exact_one :
    (∃ k d₁ n d₂ d', (one 1).numberOfDigitsDecimalLeftShift 60 = some k ∧
      10^(1+k-1) ≤ (one 1).coeff*2^60 ∧ (one 1).coeff*2^60 < 10^(1+k) ∧
      leftShiftDigits 60 1 (1+k) (one 1) 0 = some (k, d₁, n) ∧
      leftShiftCarryIndex k d₁ n = some (0, d₂) ∧ (one 1).leftShift 60 = some d' ∧
      ((1:ℤ)+k < 2^31 → Holds false ((one 1).value*2^60) d')) ∧
    ∃ p d', 10^(p-1) ≤ (one 1).value/2^60 ∧ (one 1).value/2^60 < 10^p ∧
      (one 1).rightShift 60 = some d' ∧ (-2^31 ≤ p →
        if p < -decimalPointRange then d' = cleared (one 1)
        else Holds false ((one 1).value/2^60) d') :=
  decimalSeq_shifts_exact (one_wf 1) (by decide) (by decide) (by decide) (by decide)

/-- A decimal whose point gets below the range is cleared, although its digits have
room. -/
theorem rightShift_clears_small :
    ¬ ∀ d : DecimalSeq, d.WF → ∀ shift, 1 ≤ shift → shift ≤ 60 →
      ∃ d', d.rightShift shift = some d' ∧
        (Short 10 maxDigits (d.value/2^shift) → d'.value = d.value/2^shift) := by
  intro h
  obtain ⟨d', hrun, hexact⟩ := h (one (-2047)) (one_wf _) 1 le_rfl (by norm_num)
  have hclear : (one (-2047)).rightShift 1 = some (cleared (one (-2047))) := by rfl
  obtain rfl : cleared (one (-2047)) = d' := Option.some.inj (hclear.symm.trans hrun)
  have hval : (one (-2047)).value = 10^(-2048:ℤ) := by
    simp [value, one, coeff, ofFn]
  have hzero : (cleared (one (-2047))).value = 0 := by
    simp [value, cleared, coeff, ofFn]
  have hshort : Short 10 maxDigits ((one (-2047)).value/2^1) := by
    refine ⟨5, -2049, lt_of_lt_of_le (by norm_num) (Nat.pow_le_pow_right (by norm_num)
      (show 1 ≤ maxDigits by decide)), ?_⟩
    rw [hval, show (-2048:ℤ) = -2049+1 by norm_num, zpow_add₀ (by norm_num)]
    push_cast
    ring
  have heq := hexact hshort
  rw [hzero, hval] at heq
  have hpos : (0:ℚ) < 10^(-2048:ℤ)/2^1 := by positivity
  exact hpos.ne heq

end RustStd.Dec2Flt.DecimalSeq
