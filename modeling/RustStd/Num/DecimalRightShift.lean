import RustStd.Num.DecimalShift

/-!
# Shifting decimal digit sequences to the right

Long division by a power of two: the register holds what the digits read so far
leave over, and the digits of the quotient are those of the product by the same
power of five.
-/

set_option autoImplicit false

namespace RustStd.Dec2Flt.DecimalSeq
open RustStd.Checked RustStd.Digits

/-- The number that the first `r` digits denote, with zeros after the last one. -/
def prefixValue (d : DecimalSeq) (r : ℕ) : ℕ := d.coeff*10^r/10^d.numDigits

theorem prefixValue_zero {d : DecimalSeq} (hd : d.WF) : d.prefixValue 0 = 0 := by
  rw [prefixValue, pow_zero, Nat.mul_one, Nat.div_eq_of_lt hd.coeff_lt]

theorem prefixValue_of_le {d : DecimalSeq} {r : ℕ} (hr : r ≤ d.numDigits) :
    d.prefixValue r = d.coeff/10^(d.numDigits-r) := by
  rw [prefixValue, ← Nat.mul_div_mul_right d.coeff _ (show 0 < 10^r by positivity),
    ← pow_add, Nat.sub_add_cancel hr]

theorem prefixValue_of_ge {d : DecimalSeq} {r : ℕ} (hr : d.numDigits ≤ r) :
    d.prefixValue r = d.coeff*10^(r-d.numDigits) := by
  rw [prefixValue, ← Nat.sub_add_cancel hr, pow_add, ← Nat.mul_assoc,
    Nat.mul_div_cancel _ (by positivity), Nat.add_sub_cancel]

theorem prefixValue_succ {d : DecimalSeq} (hd : d.WF) {r : ℕ} (hr : r < d.numDigits) :
    d.prefixValue (r+1) = 10*d.prefixValue r+d.digits r := by
  have hx := digit_eq hd.digit hr
  rw [prefixValue_of_le (show r+1 ≤ d.numDigits from hr), prefixValue_of_le hr.le,
    show d.numDigits-r = d.numDigits-(r+1)+1 by lia, pow_succ, ← Nat.div_div_eq_div_mul]
  rw [show d.numDigits-1-r = d.numDigits-(r+1) by lia] at hx
  have := Nat.div_add_mod (d.coeff/10^(d.numDigits-(r+1))) 10
  rw [← coeff] at hx
  lia

theorem prefixValue_succ_of_ge {d : DecimalSeq} {r : ℕ} (hr : d.numDigits ≤ r) :
    d.prefixValue (r+1) = 10*d.prefixValue r := by
  rw [prefixValue_of_ge hr, prefixValue_of_ge (by lia), Nat.sub_add_comm hr, pow_succ]
  ring

theorem prefixValue_succ_le {d : DecimalSeq} (hd : d.WF) (r : ℕ) :
    d.prefixValue (r+1) ≤ 10*d.prefixValue r+9 := by
  rcases Nat.lt_or_ge r d.numDigits with hr | hr
  · have := hd.digit r hr
    rw [prefixValue_succ hd hr]
    lia
  · rw [prefixValue_succ_of_ge hr]
    lia

theorem prefixValue_div {d : DecimalSeq} {r shift : ℕ} (hr : r ≤ d.numDigits+shift) :
    d.prefixValue r/2^shift = d.coeff*5^shift/10^(d.numDigits+shift-r) := by
  have h10 : (10:ℕ)^shift = 2^shift*5^shift := by rw [← Nat.mul_pow]
  rw [prefixValue, Nat.div_div_eq_div_mul,
    ← Nat.mul_div_mul_right (d.coeff*5^shift) _ (show 0 < 10^r by positivity), ← pow_add,
    Nat.sub_add_cancel hr, pow_add, h10, ← Nat.mul_assoc,
    ← Nat.mul_div_mul_right (d.coeff*10^r) _ (show 0 < 5^shift by positivity)]
  congr 1
  ring

/-- `r` is the first position with a quotient above zero. -/
structure FirstDigit (d : DecimalSeq) (shift r : ℕ) : Prop where
  pos : 1 ≤ r
  before : d.prefixValue (r-1) < 2^shift
  at_r : 2^shift ≤ d.prefixValue r

section RightShift

variable {d : DecimalSeq} (hd : d.WF) {shift : ℕ} (h60 : shift ≤ 60)
include hd h60

theorem scaleUp_spec (fuel : ℕ) {r : ℕ} (hr : d.numDigits ≤ r) (hlt : d.prefixValue (r-1) < 2^shift)
    (hfuel : 2^shift*10 ≤ d.prefixValue r*10^fuel) :
    ∃ r₀, scaleUp shift fuel (d.prefixValue r) r = some (d.prefixValue r₀, r₀) ∧
      FirstDigit d shift r₀ := by
  have hp60 : 2^shift ≤ 2^60 := Nat.pow_le_pow_right (by norm_num) h60
  have hpos := hd.pos
  induction fuel generalizing r with
  | zero =>
    have := prefixValue_succ_le hd (r-1)
    rw [Nat.sub_add_cancel (by lia)] at this
    rw [pow_zero, Nat.mul_one] at hfuel
    lia
  | succ fuel ih =>
    rw [scaleUp, shr_eq (by lia), some_bind]
    by_cases h : d.prefixValue r < 2^shift
    · rw [if_pos (Nat.div_eq_of_lt h), u64_eq (by lia), some_bind,
        Nat.mul_comm, ← prefixValue_succ_of_ge hr]
      apply ih (r := r+1) (by lia) h
      calc 2^shift*10 ≤ d.prefixValue r*10^(fuel+1) := hfuel
        _ = d.prefixValue (r+1)*10^fuel := by
          rw [prefixValue_succ_of_ge hr]
          ring
    · rw [if_neg (by rw [Nat.div_eq_zero_iff]; simp; lia)]
      exact ⟨r, rfl, by lia, hlt, by lia⟩

theorem firstDigits_spec (fuel : ℕ) {r : ℕ} (hr : r ≤ d.numDigits) (hfuel : d.numDigits < r+fuel)
    (hlt : r = 0 ∨ d.prefixValue (r-1) < 2^shift) :
    ∃ r₀, d.firstDigits shift fuel (d.prefixValue r) r = some (some (d.prefixValue r₀, r₀)) ∧
      FirstDigit d shift r₀ := by
  have hp60 : 2^shift ≤ 2^60 := Nat.pow_le_pow_right (by norm_num) h60
  have hpow : 0 < 2^shift := by positivity
  have hle := hd.le
  have hpos := hd.pos
  induction fuel generalizing r with
  | zero => lia
  | succ fuel ih =>
    rw [firstDigits, shr_eq (by lia), some_bind]
    by_cases h : d.prefixValue r < 2^shift
    · rw [if_pos (Nat.div_eq_of_lt h)]
      rcases Nat.lt_or_ge r d.numDigits with hr' | hr'
      · have hx := hd.digit r hr'
        rw [if_pos hr', get_eq (by lia), some_bind, u64_eq (by lia), some_bind,
          ← prefixValue_succ hd hr']
        exact ih hr' (by lia) (Or.inr h)
      · obtain rfl : r = d.numDigits := by lia
        have hcoeff : d.prefixValue d.numDigits = d.coeff := by
          rw [prefixValue_of_ge le_rfl, Nat.sub_self, pow_zero, Nat.mul_one]
        have hone : 1 ≤ d.coeff := Nat.one_le_iff_ne_zero.mpr fun h0 => by
          have := hd.le_coeff
          rw [h0] at this
          exact absurd this (by simp)
        obtain ⟨r₀, hs, hf⟩ := scaleUp_spec hd h60 64 le_rfl (hlt.resolve_left (by lia))
          (by
            rw [hcoeff]
            calc 2^shift*10 ≤ 2^60*10 := Nat.mul_le_mul_right _ hp60
              _ ≤ 1*10^64 := by norm_num
              _ ≤ d.coeff*10^64 := Nat.mul_le_mul_right _ hone)
        rw [if_neg (by lia), if_neg (by lia), hs]
        exact ⟨r₀, rfl, hf⟩
    · have hr0 : r ≠ 0 := by
        rintro rfl
        rw [prefixValue_zero hd] at h
        exact h hpow
      rw [if_neg (by rw [Nat.div_eq_zero_iff]; simp; lia)]
      exact ⟨r, rfl, by lia, hlt.resolve_left hr0, by lia⟩

end RightShift

/-! ## The digits of the quotient -/

theorem register_step {p x k : ℕ} (hx : x < 10) :
    10*(p%(10*2^k)%2^k)+x = (10*p+x)%(10*2^k) ∧ p%(10*2^k)/2^k = p/2^k%10 := by
  have hpos : 0 < 2^k := by positivity
  constructor
  · rw [Nat.mod_mul_left_mod]
    have hlt := Nat.mod_lt p hpos
    have hdm := Nat.div_add_mod p (2^k)
    have hsum : 10*p+x = 10*(p%2^k)+x+10*2^k*(p/2^k) := by
      generalize p/2^k = u at *
      generalize p%2^k = v at *
      rw [← hdm]
      ring
    have hreg : 10*(p%2^k)+x < 10*2^k := by lia
    rw [hsum, Nat.add_mul_mod_self_left, Nat.mod_eq_of_lt hreg]
  · rw [Nat.mul_comm, Nat.mod_mul_right_div_self]

/-- The number of digits of the quotient when its first digit is found at `r₀`. -/
def quotientDigits (d : DecimalSeq) (shift r₀ : ℕ) : ℕ := d.numDigits+shift+1-r₀

/-- The first `w` digits of the quotient are written, as far as there is room. -/
structure Quotient (d : DecimalSeq) (shift L w : ℕ) (d' : DecimalSeq) : Prop where
  digit : ∀ i < w, i < maxDigits → d'.digits i = d.coeff*5^shift/10^(L-1-i)%10
  unread : ∀ i, w ≤ i → d'.digits i = d.digits i
  truncated : d'.truncated = true ↔
    d.truncated = true ∨ d.coeff*5^shift/10^(L-w)%10^(w-maxDigits) ≠ 0

theorem Quotient.set {d d' : DecimalSeq} {shift L w : ℕ} (h : Quotient d shift L w d')
    (hw : w < maxDigits) :
    Quotient d shift L (w+1)
      { d' with digits := Function.update d'.digits w (d.coeff*5^shift/10^(L-1-w)%10) } := by
  refine ⟨fun i hi him => ?_, fun i hi => ?_, ?_⟩
  · rcases Nat.lt_or_ge i w with hlt | hge
    · exact (Function.update_of_ne (by lia) _ _).trans (h.digit i hlt him)
    · obtain rfl : i = w := by lia
      exact Function.update_self _ _ _
  · exact (Function.update_of_ne (by lia) _ _).trans (h.unread i (by lia))
  · have htr := h.truncated
    rw [show w-maxDigits = 0 by lia, pow_zero, Nat.mod_one] at htr
    rw [show w+1-maxDigits = 0 by lia, pow_zero, Nat.mod_one]
    exact htr

theorem Quotient.skip {d d' : DecimalSeq} {shift L w : ℕ} (h : Quotient d shift L w d')
    (hw : maxDigits ≤ w) (hL : w < L) :
    Quotient d shift L (w+1)
      (if 0 < d.coeff*5^shift/10^(L-1-w)%10 then { d' with truncated := true } else d') := by
  have hdiv : d.coeff*5^shift/10^(L-w) = d.coeff*5^shift/10^(L-1-w)/10 := by
    rw [Nat.div_div_eq_div_mul, ← pow_succ]
    congr 2
    lia
  have htr := h.truncated
  rw [hdiv] at htr
  have hstep : d.coeff*5^shift/10^(L-(w+1))%10^(w+1-maxDigits) ≠ 0 ↔
      0 < d.coeff*5^shift/10^(L-1-w)%10 ∨
        d.coeff*5^shift/10^(L-1-w)/10%10^(w-maxDigits) ≠ 0 := by
    rw [show L-(w+1) = L-1-w by lia, Nat.sub_add_comm hw, pow_succ', Nat.mod_mul]
    lia
  split
  · rename_i h0
    refine ⟨fun i hi him => h.digit i (by lia) him, fun i hi => h.unread i (by lia), ?_⟩
    rw [hstep]
    simp [h0]
  · rename_i h0
    refine ⟨fun i hi him => h.digit i (by lia) him, fun i hi => h.unread i (by lia), ?_⟩
    rw [hstep, htr]
    simp [h0]

section Loops

variable {d : DecimalSeq} (hd : d.WF) {shift : ℕ} (h60 : shift ≤ 60) {r₀ : ℕ}
include h60

omit h60 in
theorem register_digit {w : ℕ} (hw : w < d.quotientDigits shift r₀) :
    d.prefixValue (r₀+w)%(10*2^shift)/2^shift%2^8 =
      d.coeff*5^shift/10^(d.quotientDigits shift r₀-1-w)%10 := by
  unfold quotientDigits at *
  rw [(register_step (x := 0) (by norm_num)).2, prefixValue_div (by lia),
    show d.numDigits+shift+1-r₀-1-w = d.numDigits+shift-(r₀+w) by lia]
  apply Nat.mod_eq_of_lt
  have := Nat.mod_lt (d.coeff*5^shift/10^(d.numDigits+shift-(r₀+w))) (show 10 > 0 by norm_num)
  lia

include hd in
theorem rightShiftDigits_spec (left : ℕ) {w : ℕ} {d' : DecimalSeq}
    (hq : Quotient d shift (d.quotientDigits shift r₀) w d') (hr₀ : 1 ≤ r₀)
    (hleft : left = 0 ∨ r₀+w+left ≤ d.numDigits) :
    ∃ d'', rightShiftDigits shift left (r₀+w) w d' (d.prefixValue (r₀+w)%(10*2^shift)) =
        some (w+left, d'', d.prefixValue (r₀+w+left)%(10*2^shift)) ∧
      Quotient d shift (d.quotientDigits shift r₀) (w+left) d'' ∧
      d''.decimalPoint = d'.decimalPoint := by
  induction left generalizing w d' with
  | zero => exact ⟨d', rfl, hq, rfl⟩
  | succ left ih =>
    have hread : r₀+w < d.numDigits := by lia
    have hp60 : 2^shift ≤ 2^60 := Nat.pow_le_pow_right (by norm_num) h60
    have hle := hd.le
    have hx := hd.digit (r₀+w) hread
    have hreg := (register_step (p := d.prefixValue (r₀+w)) (k := shift) hx).1
    rw [← prefixValue_succ hd hread] at hreg
    have hlt := Nat.mod_lt (d.prefixValue (r₀+w+1)) (show 0 < 10*2^shift by positivity)
    obtain ⟨d'', heq, hq', hdp⟩ := ih (hq.set (by lia)) (Or.inr (by lia))
    refine ⟨d'', ?_, ?_, hdp⟩
    · rw [rightShiftDigits, register_digit (by unfold quotientDigits; lia), get_eq (by lia), some_bind, hq.unread _ (by lia), hreg, u64_eq (by lia), some_bind,
        set_eq (by lia), some_bind, ← Nat.add_assoc w,
        Nat.add_right_comm w left 1, show r₀+w+(left+1) = r₀+(w+1)+left by lia]
      exact heq
    · rwa [← Nat.add_assoc, Nat.add_right_comm w left 1]

omit h60 in
theorem register_zero {w : ℕ} (hr : d.numDigits ≤ r₀+w)
    (h : d.prefixValue (r₀+w)%(10*2^shift) = 0) :
    d.coeff*5^shift%10^(d.quotientDigits shift r₀-w) = 0 := by
  unfold quotientDigits at *
  rw [prefixValue_of_ge hr] at h
  have hdvd := Nat.mul_dvd_mul_right (Nat.dvd_of_mod_eq_zero h) (5^shift)
  have h1 : 10*2^shift*5^shift =
      10^(d.numDigits+shift+1-r₀-w)*10^(r₀+w-d.numDigits) ∨ d.numDigits+shift+1 < r₀+w := by
    rcases Nat.lt_or_ge (d.numDigits+shift+1) (r₀+w) with hlt | hge
    · exact Or.inr hlt
    · left
      rw [Nat.mul_assoc, ← Nat.mul_pow, ← pow_succ', ← pow_add]
      congr 1
      lia
  rcases h1 with h1 | h1
  · rw [h1, Nat.mul_right_comm] at hdvd
    exact Nat.mod_eq_zero_of_dvd (Nat.dvd_of_mul_dvd_mul_right (by positivity) hdvd)
  · rw [show d.numDigits+shift+1-r₀-w = 0 by lia, pow_zero, Nat.mod_one]

omit h60 in
theorem register_end {w : ℕ} (hr : d.numDigits+shift+1 ≤ r₀+w) :
    d.prefixValue (r₀+w)%(10*2^shift) = 0 := by
  rw [prefixValue_of_ge (by lia)]
  apply Nat.mod_eq_zero_of_dvd
  apply Dvd.dvd.mul_left
  calc 10*2^shift ∣ 10*10^shift := Nat.mul_dvd_mul_left _ (pow_dvd_pow_of_dvd (by norm_num) _)
    _ = 10^(shift+1) := (pow_succ' 10 shift).symm
    _ ∣ 10^(r₀+w-d.numDigits) := Nat.pow_dvd_pow 10 (by lia)

theorem rightShiftRest_spec (fuel : ℕ) {w : ℕ} {d' : DecimalSeq}
    (hq : Quotient d shift (d.quotientDigits shift r₀) w d') (hr : d.numDigits ≤ r₀+w)
    (hw : w ≤ d.quotientDigits shift r₀) (hfuel : d.quotientDigits shift r₀ ≤ w+fuel) :
    ∃ w' d'', rightShiftRest shift fuel (min w maxDigits) d'
          (d.prefixValue (r₀+w)%(10*2^shift)) = some (min w' maxDigits, d'') ∧
      w' ≤ d.quotientDigits shift r₀ ∧ Quotient d shift (d.quotientDigits shift r₀) w' d'' ∧
      d.coeff*5^shift%10^(d.quotientDigits shift r₀-w') = 0 ∧
      d''.decimalPoint = d'.decimalPoint := by
  have hp60 : 2^shift ≤ 2^60 := Nat.pow_le_pow_right (by norm_num) h60
  induction fuel generalizing w d' with
  | zero =>
    have h0 : d.prefixValue (r₀+w)%(10*2^shift) = 0 := by
      apply register_end
      unfold quotientDigits at *
      lia
    rw [h0, rightShiftRest]
    exact ⟨w, d', rfl, hw, hq, register_zero hr h0, rfl⟩
  | succ fuel ih =>
    by_cases h0 : d.prefixValue (r₀+w)%(10*2^shift) = 0
    · rw [h0, rightShiftRest]
      exact ⟨w, d', rfl, hw, hq, register_zero hr h0, rfl⟩
    · have hlt : w < d.quotientDigits shift r₀ := by
        by_contra hge
        apply h0
        apply register_end
        unfold quotientDigits at *
        lia
      obtain ⟨n, hn⟩ := Nat.exists_eq_succ_of_ne_zero h0
      have hdigit := register_digit hlt
      have hreg := (register_step (p := d.prefixValue (r₀+w)) (k := shift)
        (show 0 < 10 by norm_num)).1
      rw [Nat.add_zero, Nat.add_zero, ← prefixValue_succ_of_ge hr] at hreg
      have hmod := Nat.mod_lt (d.prefixValue (r₀+w+1)) (show 0 < 10*2^shift by positivity)
      rw [hn, Nat.succ_eq_add_one] at hdigit hreg ⊢
      rw [rightShiftRest, hdigit, hreg, u64_eq (by lia), some_bind]
      by_cases hmax : w < maxDigits
      · rw [min_eq_left hmax.le, if_pos hmax, set_eq hmax, some_bind]
        have := ih (hq.set hmax) (by lia) hlt (by lia)
        rwa [min_eq_left (show w+1 ≤ maxDigits from hmax), ← Nat.add_assoc] at this
      · rw [min_eq_right (by lia), if_neg (lt_irrefl _)]
        have := ih (hq.skip (by lia) hlt) (by lia) hlt (by lia)
        rw [min_eq_right (by lia), ← Nat.add_assoc] at this
        obtain ⟨w', d'', h₁, h₂, h₃, h₄, h₅⟩ := this
        refine ⟨w', d'', h₁, h₂, h₃, h₄, ?_⟩
        rw [h₅]
        split
        · rfl
        · rfl

end Loops

theorem le_prefixValue {d : DecimalSeq} (hd : d.WF) {r : ℕ} (hr : 1 ≤ r) :
    10^(r-1) ≤ d.prefixValue r := by
  have hpos := hd.pos
  rw [prefixValue, Nat.le_div_iff_mul_le (by positivity)]
  calc 10^(r-1)*10^d.numDigits = 10^(d.numDigits-1)*10^r := by
        rw [← pow_add, ← pow_add]
        congr 1
        lia
    _ ≤ d.coeff*10^r := Nat.mul_le_mul_right _ hd.le_coeff

theorem FirstDigit.le {d : DecimalSeq} (hd : d.WF) {shift r : ℕ} (h : FirstDigit d shift r)
    (h60 : shift ≤ 60) : r ≤ 20 := by
  by_contra hgt
  have hp60 : 2^shift ≤ 2^60 := Nat.pow_le_pow_right (by norm_num) h60
  have h1 := le_prefixValue hd (show 1 ≤ r-1 by lia)
  have h2 : 10^19 ≤ 10^(r-1-1) := Nat.pow_le_pow_right (by norm_num) (by lia)
  have h3 := h.before
  lia

theorem FirstDigit.le_numDigits {d : DecimalSeq} (hd : d.WF) {shift r : ℕ}
    (h : FirstDigit d shift r) : r ≤ d.numDigits+shift := by
  by_contra hgt
  have h1 := le_prefixValue hd (show 1 ≤ r-1 by have := hd.pos; lia)
  have h2 : 10^shift ≤ 10^(r-1-1) := Nat.pow_le_pow_right (by norm_num) (by have := hd.pos; lia)
  have h3 : 2^shift ≤ 10^shift := Nat.pow_le_pow_left (by norm_num) _
  have h4 := h.before
  lia

theorem Quotient.trim {d d' : DecimalSeq} {shift L w : ℕ} (h : Quotient d shift L w d')
    (hlo : 10^(L-1) ≤ d.coeff*5^shift) (hhi : d.coeff*5^shift < 10^L) (hw : w ≤ L)
    (hrest : d.coeff*5^shift%10^(L-w) = 0) :
    ∃ d'', ({ d' with numDigits := min w maxDigits } : DecimalSeq).trim = some d'' ∧
      Leads d.truncated ((d.coeff*5^shift:ℕ)*10^(d'.decimalPoint-L)) d'' := by
  have hmpos : 0 < d.coeff*5^shift := lt_of_lt_of_le (by positivity) hlo
  have hwpos : 0 < w := by
    by_contra h0
    rw [show w = 0 by lia, Nat.sub_zero, Nat.mod_eq_of_lt hhi] at hrest
    lia
  have htr := h.truncated
  rcases le_or_gt w maxDigits with hmax | hmax
  · rw [Nat.sub_eq_zero_of_le hmax, pow_zero, Nat.mod_one] at htr
    rw [min_eq_left hmax]
    obtain ⟨d'', ht, hl⟩ := trim_leads d.truncated
      (d := { d' with numDigits := w }) hlo hhi hwpos hw hmax
      (fun i hi => h.digit i hi (hi.trans_le hmax)) (Or.inr hrest) (by simpa [hrest] using htr)
    exact ⟨d'', ht, hl⟩
  · rw [min_eq_right hmax.le]
    have hsplit : d.coeff*5^shift%10^(L-maxDigits) ≠ 0 ↔
        d.coeff*5^shift/10^(L-w)%10^(w-maxDigits) ≠ 0 := by
      rw [show L-maxDigits = L-w+(w-maxDigits) by lia, pow_add, Nat.mod_mul, hrest, Nat.zero_add]
      simp
    obtain ⟨d'', ht, hl⟩ := trim_leads d.truncated
      (d := { d' with numDigits := maxDigits }) hlo hhi (show 0 < maxDigits by decide)
      (hmax.le.trans hw) le_rfl
      (fun i hi => h.digit i (hi.trans hmax) hi) (Or.inl rfl)
      (by
        rw [hsplit]
        exact htr)
    exact ⟨d'', ht, hl⟩

theorem quotientDigits_bounds {d : DecimalSeq} (hd : d.WF) {shift r₀ : ℕ}
    (hf : FirstDigit d shift r₀) : 10^(d.quotientDigits shift r₀-1) ≤ d.coeff*5^shift ∧
      d.coeff*5^shift < 10^d.quotientDigits shift r₀ := by
  have hrs := hf.le_numDigits hd
  have hone := hf.pos
  constructor
  · have hdiv : 1 ≤ d.prefixValue r₀/2^shift := (Nat.one_le_div_iff (by positivity)).mpr hf.at_r
    rw [prefixValue_div hrs, Nat.one_le_div_iff (by positivity)] at hdiv
    rwa [quotientDigits, show d.numDigits+shift+1-r₀-1 = d.numDigits+shift-r₀ by lia]
  · have hdiv : d.prefixValue (r₀-1)/2^shift = 0 := Nat.div_eq_of_lt hf.before
    rw [prefixValue_div (by lia), Nat.div_eq_zero_iff] at hdiv
    rw [quotientDigits, show d.numDigits+shift+1-r₀ = d.numDigits+shift-(r₀-1) by lia]
    exact hdiv.resolve_left (by positivity)

/-- What `self = Self::default()` leaves, apart from the digits. -/
def cleared (d : DecimalSeq) : DecimalSeq :=
  { d with numDigits := 0, decimalPoint := 0, truncated := false }

/-- A shift to the right, whatever the decimal point: no register overflows, and the
digits of the quotient are written unless the new decimal point is too small. -/
theorem rightShift_run {d : DecimalSeq} (hd : d.WF) {shift : ℕ} (h60 : shift ≤ 60) :
    ∃ r₀ d', FirstDigit d shift r₀ ∧ d.rightShift shift = some d' ∧
      (if wrapI32 (d.decimalPoint-(r₀-1)) < -decimalPointRange then
        d' = cleared d
      else Leads d.truncated ((d.coeff*5^shift:ℕ)*
        10^(wrapI32 (d.decimalPoint-(r₀-1))-d.quotientDigits shift r₀)) d') := by
  have hpos := hd.pos
  have hle := hd.le
  obtain ⟨r₀, hfirst, hf⟩ := firstDigits_spec hd h60 (d.numDigits+2) (r := 0)
    (Nat.zero_le _) (by lia) (Or.inl rfl)
  rw [prefixValue_zero hd] at hfirst
  have h20 := hf.le hd h60
  have hrs := hf.le_numDigits hd
  have hone := hf.pos
  obtain ⟨hlo, hhi⟩ := quotientDigits_bounds hd hf
  have hreg : d.prefixValue (r₀+0)%(10*2^shift) = d.prefixValue r₀ := by
    have := prefixValue_succ_le hd (r₀-1)
    rw [Nat.sub_add_cancel hone] at this
    have := hf.before
    exact Nat.mod_eq_of_lt (by rw [Nat.add_zero]; lia)
  refine ⟨r₀, ?_⟩
  have hr₀ : wrapI32 (r₀:ℤ) = r₀ := wrapI32_eq (by lia) (by lia)
  generalize hp : wrapI32 (d.decimalPoint-(r₀-1)) = p
  have hrun : d.rightShift shift = (if p < -decimalPointRange then
      some (cleared d)
    else do
      let read ← rightShiftDigits shift (d.numDigits-r₀) r₀ 0 { d with decimalPoint := p }
        (d.prefixValue r₀)
      let rest ← rightShiftRest shift 128 read.1 read.2.1 read.2.2
      DecimalSeq.trim { rest.2 with numDigits := rest.1 }) := by
    rw [rightShift, hfirst, some_bind]
    simp only [hr₀, hp]
    rfl
  by_cases hsmall : p < -decimalPointRange
  · rw [if_pos hsmall] at hrun
    exact ⟨_, hf, hrun, by rw [if_pos hsmall]⟩
  · have hq : Quotient d shift (d.quotientDigits shift r₀) 0 { d with decimalPoint := p } := by
      refine ⟨fun i hi => absurd hi (by lia), fun i _ => rfl, ?_⟩
      rw [Nat.zero_sub, pow_zero, Nat.mod_one]
      simp
    obtain ⟨d₁, hd₁, hq₁, hdp₁⟩ := rightShiftDigits_spec hd h60 (d.numDigits-r₀) hq hone
      (by lia)
    rw [hreg, Nat.add_zero, Nat.zero_add] at hd₁
    rw [Nat.zero_add] at hq₁
    obtain ⟨w, d₂, hd₂, hw, hq₂, hrest, hdp₂⟩ := rightShiftRest_spec h60 128 hq₁ (by lia)
      (by unfold quotientDigits; lia) (by unfold quotientDigits; lia)
    rw [min_eq_left (by lia)] at hd₂
    obtain ⟨d₃, htrim, hl⟩ := hq₂.trim hlo hhi hw hrest
    refine ⟨d₃, hf, ?_, ?_⟩
    · rw [hrun, if_neg hsmall, hd₁, some_bind]
      simp only []
      rw [hd₂, some_bind]
      exact htrim
    · rw [hdp₂, hdp₁] at hl
      rwa [if_neg hsmall]

theorem quotient_value (d : DecimalSeq) {shift r₀ : ℕ} (hr : r₀ ≤ d.numDigits+shift) :
    ((d.coeff*5^shift:ℕ):ℚ)*10^(d.decimalPoint-(r₀-1)-d.quotientDigits shift r₀) =
      d.value/2^shift := by
  have hexp : d.decimalPoint-((r₀:ℤ)-1)-(d.quotientDigits shift r₀:ℤ) =
      d.decimalPoint-d.numDigits-(shift:ℤ) := by
    unfold quotientDigits
    lia
  have h10 : (10:ℚ)^shift = 2^shift*5^shift := by rw [← mul_pow]; norm_num
  simp only [value]
  rw [hexp, zpow_sub₀ (by norm_num) _ (shift:ℤ), zpow_natCast, h10]
  push_cast
  field_simp

theorem rightShift_spec {d : DecimalSeq} (hd : d.WF) {shift : ℕ} (h60 : shift ≤ 60)
    (hdp : -2000 ≤ d.decimalPoint) (hdp' : d.decimalPoint < 2^31) :
    ∃ d', d.rightShift shift = some d' ∧ Leads d.truncated (d.value/2^shift) d' := by
  obtain ⟨r₀, d', hf, hrun, hd'⟩ := rightShift_run hd h60
  have h20 := hf.le hd h60
  have hone := hf.pos
  rw [wrapI32_eq (by lia) (by lia), if_neg (by unfold decimalPointRange; lia),
    quotient_value d (hf.le_numDigits hd)] at hd'
  exact ⟨d', hrun, hd'⟩

end RustStd.Dec2Flt.DecimalSeq
