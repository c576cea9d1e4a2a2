import RustStd.Num.Dec2Flt
import RustStd.Num.DecimalRightShift
import RustStd.Num.FloatOps

/-!
# Rounding on the slow path

The decimal is a cut of the value that is rounded, scaled by a power of two. It
is exact for the numbers that decide how the value is rounded: the multiples of
half a unit in the last place of a mantissa have fewer digits than are kept. The
flag says whether the value is above the decimal.
-/

set_option autoImplicit false

namespace RustStd.Dec2Flt
open RustStd.Checked RustStd.Lemire RustStd.Nearest RustStd.Digits RustStd.RawFloat

namespace DecimalSeq

/-! ## The digits around the decimal point -/

theorem prefixValue_lt {d : DecimalSeq} (hd : d.WF) (r : ℕ) : d.prefixValue r < 10^r := by
  rw [prefixValue, Nat.div_lt_iff_lt_mul (by positivity), Nat.mul_comm]
  exact Nat.mul_lt_mul_of_pos_left hd.coeff_lt (by positivity)

theorem intDigits_eq {d : DecimalSeq} (hd : d.WF) {r : ℕ} (hr : r < maxDigitsWithoutOverflow) :
    d.intDigits r = some (d.prefixValue r) := by
  unfold maxDigitsWithoutOverflow at hr
  have hle := hd.le
  induction r with
  | zero => rw [intDigits, prefixValue_zero hd]
  | succ r ih =>
    have hlt := prefixValue_lt hd r
    have h18 : 10^r ≤ 10^18 := Nat.pow_le_pow_right (by norm_num) (by lia)
    have hsucc := prefixValue_succ_le hd r
    rw [intDigits, ih (by lia), Option.bind_eq_bind, Option.bind_some, u64_eq (by lia),
      Option.bind_some]
    split
    · rename_i hn
      rw [get_eq (by lia), Option.bind_some, u64_eq (by rw [Nat.mul_comm, ← prefixValue_succ hd hn]; lia),
        prefixValue_succ hd hn, Nat.mul_comm]
    · rename_i hn
      rw [prefixValue_succ_of_ge (by lia), Nat.mul_comm]
      rfl

theorem WF.first_bounds {d : DecimalSeq} (hd : d.WF) :
    (d.digits 0:ℚ)*10^(d.decimalPoint-1) ≤ d.value ∧
      d.value < (d.digits 0+1)*10^(d.decimalPoint-1) := by
  have hpos := hd.pos
  have hfirst : d.coeff/10^(d.numDigits-1) = d.digits 0 := by
    have := ofFn_div hd.digit (show 1 ≤ d.numDigits from hpos)
    rw [coeff, this, ofFn, ofFn, Nat.zero_mul, Nat.zero_add]
  have hpow : (0:ℕ) < 10^(d.numDigits-1) := by positivity
  have hexp : (10:ℚ)^(d.decimalPoint-1) = 10^(d.numDigits-1)*10^(d.decimalPoint-d.numDigits) := by
    rw [← zpow_natCast, ← zpow_add₀ (by norm_num)]
    congr 1
    lia
  rw [value, hexp, ← mul_assoc, ← mul_assoc]
  constructor
  · have : d.digits 0*10^(d.numDigits-1) ≤ d.coeff := by
      rw [← hfirst]
      exact Nat.div_mul_le_self _ _
    have hQ : (d.digits 0:ℚ)*10^(d.numDigits-1) ≤ d.coeff := by exact_mod_cast this
    gcongr
  · have : d.coeff < (d.digits 0+1)*10^(d.numDigits-1) := by
      rw [← hfirst, Nat.mul_comm]
      exact Nat.lt_mul_div_succ _ hpow
    have hQ : (d.coeff:ℚ) < (d.digits 0+1)*10^(d.numDigits-1) := by exact_mod_cast this
    gcongr

theorem prefixValue_bounds (d : DecimalSeq) (r : ℕ) :
    (d.prefixValue r:ℚ) ≤ d.value*10^((r:ℤ)-d.decimalPoint) ∧
      d.value*10^((r:ℤ)-d.decimalPoint) < d.prefixValue r+1 := by
  have hval : d.value*10^((r:ℤ)-d.decimalPoint) = (d.coeff*10^r:ℕ)/(10^d.numDigits:ℕ) := by
    have hexp : d.decimalPoint-d.numDigits+((r:ℤ)-d.decimalPoint) = r-d.numDigits := by ring
    rw [value, mul_assoc, ← zpow_add₀ (by norm_num), hexp, zpow_sub₀ (by norm_num), zpow_natCast,
      zpow_natCast]
    push_cast
    ring
  rw [hval, prefixValue]
  constructor
  · exact Nat.cast_div_le
  · rw [div_lt_iff₀ (by positivity)]
    have := Nat.lt_mul_div_succ (d.coeff*10^r) (show 0 < 10^d.numDigits by positivity)
    rw [Nat.mul_comm (10^d.numDigits)] at this
    exact_mod_cast this

theorem prefixValue_exact {d : DecimalSeq} (hd : d.WF) (hlast : d.digits (d.numDigits-1) ≠ 0)
    {r : ℕ} : d.value*10^((r:ℤ)-d.decimalPoint) = d.prefixValue r ↔ d.numDigits ≤ r := by
  have hpos := hd.pos
  have hexp : (10:ℚ)^(d.decimalPoint-d.numDigits)*10^((r:ℤ)-d.decimalPoint) =
      10^((r:ℤ)-d.numDigits) := by
    rw [← zpow_add₀ (by norm_num)]
    congr 1
    ring
  rw [value, mul_assoc, hexp]
  constructor
  · intro h
    by_contra hlt
    apply hlast
    have hN : d.coeff = d.prefixValue r*10^(d.numDigits-r) := by
      have hcast : ((d.coeff:ℕ):ℚ) = (d.prefixValue r*10^(d.numDigits-r):ℕ) := by
        rw [Nat.cast_mul, ← h, mul_assoc]
        push_cast
        rw [← zpow_natCast, ← zpow_add₀ (by norm_num), show (r:ℤ)-d.numDigits+(d.numDigits-r:ℕ) = 0 by lia]
        ring
      exact_mod_cast hcast
    rw [digit_eq hd.digit (show d.numDigits-1 < d.numDigits by lia), Nat.sub_self, pow_zero,
      Nat.div_one, ← coeff, hN, show d.numDigits-r = d.numDigits-r-1+1 by lia, pow_succ,
      ← Nat.mul_assoc, Nat.mul_mod_left]
  · intro hge
    rw [prefixValue_of_ge hge]
    push_cast
    rw [← zpow_natCast]
    congr 2
    lia

/-! ## Rounding to an integer -/

/-- Whether the digits behind the first `r` round them up. -/
def roundsUp (d : DecimalSeq) (r : ℕ) : Bool :=
  if r < d.numDigits then
    if d.digits r = 5 ∧ r+1 = d.numDigits then d.truncated || d.prefixValue r%2 == 1
    else decide (d.digits r ≥ 5)
  else false

theorem prevOdd_eq {d : DecimalSeq} (hd : d.WF) {r : ℕ} (hr : r < d.numDigits) :
    (if r ≠ 0 then (d.get (r-1)).bind fun prev => some (prev%2 == 1) else some false) =
      some (d.prefixValue r%2 == 1) := by
  have hle := hd.le
  split
  · rename_i hr0
    have hs := prefixValue_succ hd (show r-1 < d.numDigits by lia)
    rw [Nat.sub_add_cancel (by lia)] at hs
    rw [get_eq (by lia), Option.bind_some, hs]
    congr 2
    lia
  · rename_i hr0
    rw [not_not.mp hr0, prefixValue_zero hd]
    rfl

theorem round_eq {d : DecimalSeq} (hd : d.WF) {r : ℕ} (hr : d.decimalPoint = r) (hr19 : r < 19)
    (hn : d.prefixValue r < 2^53) :
    d.round = some (if d.roundsUp r then d.prefixValue r+1 else d.prefixValue r) := by
  have hmax := hd.le
  have hpos := hd.pos
  have hup : u64 (d.prefixValue r+1) = some (d.prefixValue r+1) := u64_eq (by lia)
  rw [round, if_neg (by lia), if_neg (by unfold maxDigitsWithoutOverflow; lia), hr]
  simp only [Int.toNat_natCast]
  rw [intDigits_eq hd (by unfold maxDigitsWithoutOverflow; lia), Option.bind_eq_bind,
    Option.bind_some]
  unfold roundsUp
  by_cases hrn : r < d.numDigits
  · rw [if_pos hrn, if_pos hrn, get_eq (by lia)]
    simp only [Option.bind_eq_bind, Option.bind_some]
    by_cases htie : d.digits r = 5 ∧ r+1 = d.numDigits
    · rw [if_pos htie, if_pos htie]
      cases ht : d.truncated with
      | true => exact hup
      | false =>
        have hbind := congrArg (fun o : Option Bool => o.bind fun up =>
          if up = true then u64 (d.prefixValue r+1) else some (d.prefixValue r)) (prevOdd_eq hd hrn)
        refine hbind.trans ?_
        simp only [Option.bind_some, Bool.false_or, hup]
        split <;> rfl
    · rw [if_neg htie, if_neg htie]
      simp only [Option.pure_def, Option.bind_some, hup]
      split <;> rfl
  · rw [if_neg hrn, if_neg hrn]
    rfl

/-- The digits are exact for the halves of integers, so they decide how `y` is rounded. -/
theorem roundsTo_prefixValue {d : DecimalSeq} (hd : d.WF)
    (hlast : d.digits (d.numDigits-1) ≠ 0) {y : ℚ} (hle : d.value ≤ y)
    (htr : d.truncated = true ↔ d.value < y)
    (hgrid : ∀ h : ℕ, h ≤ 2^55 → (h:ℚ) ≤ 2*y → (h:ℚ) ≤ 2*d.value) {r : ℕ}
    (hr : d.decimalPoint = r) (hn : d.prefixValue r < 2^53) :
    RoundsTo y (if d.roundsUp r then d.prefixValue r+1 else d.prefixValue r) := by
  have hb := d.prefixValue_bounds r
  rw [hr, sub_self, zpow_zero, mul_one] at hb
  -- the value is not above an integer that its digits are below
  have hup : y < d.prefixValue r+1 := by
    by_contra hge
    have := hgrid (2*d.prefixValue r+2) (by lia) (by push_cast; linarith)
    push_cast at this
    linarith
  have hdown : 2*d.value < 2*d.prefixValue r+1 → RoundsTo y (d.prefixValue r) := by
    intro hv
    apply roundsTo_down (hb.1.trans hle)
    by_contra hge
    have := hgrid (2*d.prefixValue r+1) (by lia) (by push_cast; linarith)
    push_cast at this
    linarith
  unfold roundsUp
  by_cases hrn : r < d.numDigits
  · have hb' := d.prefixValue_bounds (r+1)
    have hex := prefixValue_exact hd hlast (r := r+1)
    rw [prefixValue_succ hd hrn, hr] at hb' hex
    push_cast at hb' hex
    rw [show (r:ℤ)+1-r = 1 by ring, zpow_one] at hb' hex
    rw [if_pos hrn]
    by_cases htie : d.digits r = 5 ∧ r+1 = d.numDigits
    · have hv : 2*d.value = 2*d.prefixValue r+1 := by
        have := hex.mpr htie.2.ge
        rw [htie.1] at this
        push_cast at this
        linarith
      rw [if_pos htie]
      cases ht : d.truncated with
      | true => exact roundsTo_up (by linarith [htr.mp ht]) hup
      | false =>
        have hy : d.value = y := by
          by_contra hne
          have := htr.mpr (lt_of_le_of_ne hle hne)
          simp [ht] at this
        have hround := roundsTo_tie (y := y) (n := d.prefixValue r) (by linarith)
        simpa using hround
    · rw [if_neg htie]
      by_cases h5 : d.digits r ≥ 5
      · have h5Q : (5:ℚ) ≤ d.digits r := by exact_mod_cast h5
        have hv : 2*(d.prefixValue r:ℚ)+1 < 2*d.value := by
          rcases hb'.1.lt_or_eq with hv | hv
          · linarith
          · have hend := hex.mp hv.symm
            have h6 : (6:ℚ) ≤ d.digits r := by
              have : 6 ≤ d.digits r := by lia
              exact_mod_cast this
            linarith
        rw [decide_eq_true h5]
        exact roundsTo_up (by linarith) hup
      · have h4 : (d.digits r:ℚ) ≤ 4 := by
          have : d.digits r ≤ 4 := by lia
          exact_mod_cast this
        rw [decide_eq_false h5]
        exact hdown (by linarith)
  · rw [if_neg hrn]
    have hex := (prefixValue_exact hd hlast (r := r)).mpr (by lia)
    rw [hr, sub_self, zpow_zero, mul_one] at hex
    exact hdown (by rw [hex]; linarith)

theorem roundsTo_zero {d : DecimalSeq} (hd : d.WF) {y : ℚ} (hle : d.value ≤ y)
    (hgrid : ∀ h : ℕ, h ≤ 2^55 → (h:ℚ) ≤ 2*y → (h:ℚ) ≤ 2*d.value)
    (hneg : d.decimalPoint < 0) : RoundsTo y 0 := by
  have h0 : 0 < d.value := lt_of_lt_of_le (by have := hd.pos; positivity) hd.le_value
  have h1 : (10:ℚ)^d.decimalPoint ≤ 10^(-1:ℤ) := zpow_le_zpow_right₀ (by norm_num) (by lia)
  have h2 : d.value < 1/10 := by
    calc d.value < 10^d.decimalPoint := hd.value_lt
      _ ≤ 10^(-1:ℤ) := h1
      _ = 1/10 := by norm_num
  apply roundsTo_down (by push_cast; linarith)
  by_contra hge
  have := hgrid 1 (by norm_num) (by push_cast at hge ⊢; linarith)
  push_cast at this
  linarith

/-- The value `y` is rounded by its leading digits when they are exact for the
halves of integers. -/
theorem round_spec {d : DecimalSeq} (hd : d.WF) (hlast : d.digits (d.numDigits-1) ≠ 0) {y : ℚ}
    (hle : d.value ≤ y) (htr : d.truncated = true ↔ d.value < y)
    (hgrid : ∀ h : ℕ, h ≤ 2^55 → (h:ℚ) ≤ 2*y → (h:ℚ) ≤ 2*d.value) (hlt : d.value < 2^53) :
    ∃ n, d.round = some n ∧ RoundsTo y n := by
  have hpoint : d.decimalPoint < 19 := by
    by_contra hge
    have h1 : (10:ℚ)^(18:ℤ) ≤ 10^(d.decimalPoint-1) := zpow_le_zpow_right₀ (by norm_num) (by lia)
    have h2 : (2:ℚ)^53 < 10^(18:ℤ) := by norm_num
    linarith [hd.le_value]
  by_cases hneg : d.decimalPoint < 0
  · exact ⟨0, by rw [round, if_pos (Or.inr hneg)]; rfl, roundsTo_zero hd hle hgrid hneg⟩
  · obtain ⟨r, hr⟩ := Int.eq_ofNat_of_zero_le (show 0 ≤ d.decimalPoint by lia)
    have hb := d.prefixValue_bounds r
    rw [hr, sub_self, zpow_zero, mul_one] at hb
    have hn : d.prefixValue r < 2^53 := by exact_mod_cast hb.1.trans_lt hlt
    exact ⟨_, round_eq hd hr (by lia) hn, roundsTo_prefixValue hd hlast hle htr hgrid hr hn⟩

/-! ## Numbers with few digits -/

theorem five_pow_1075_lt : 2^55*5^1075 < 10^maxDigits := by
  have h5 : (5:ℕ)^307 < 2^713 := by
    calc (5:ℕ)^307 = 5^153*5^154 := by rw [← pow_add]
      _ < 2^201*2^256*2^256 := by norm_num
      _ = 2^713 := by rw [← pow_add, ← pow_add]
  calc 2^55*5^1075 = 2^55*5^768*5^307 := by rw [Nat.mul_assoc, ← pow_add]
    _ < 2^55*5^768*2^713 := Nat.mul_lt_mul_of_pos_left h5 (by positivity)
    _ = 2^(55+713)*5^768 := by rw [pow_add]; ring
    _ = 10^maxDigits := by rw [← Nat.mul_pow]; rfl

theorem five_pow_1090_lt : 5^1090 < 10^maxDigits := by
  calc 5^1090 = 5^15*5^1075 := by rw [← pow_add]
    _ ≤ 2^55*5^1075 := Nat.mul_le_mul_right _ (by norm_num)
    _ < 10^maxDigits := five_pow_1075_lt

theorem two_pow_2000_lt : 2^2000 < 10^maxDigits := by
  calc 2^2000 = (2^3)^666*2^2 := by rw [← pow_mul, ← pow_add]
    _ < 10^666*10^102 :=
      Nat.mul_lt_mul_of_le_of_lt (Nat.pow_le_pow_left (by norm_num) _) (by norm_num) (by positivity)
    _ = 10^maxDigits := by rw [← pow_add]; rfl

theorem short_div_two_pow {h a : ℕ} (ha : h*5^a < 10^maxDigits) :
    Short 10 maxDigits ((h:ℚ)*2^(-(a:ℤ))) := by
  refine ⟨h*5^a, -(a:ℤ), ha, ?_⟩
  have h10 : (10:ℚ)^a = 2^a*5^a := by rw [← mul_pow]; norm_num
  push_cast
  rw [zpow_neg, zpow_neg, zpow_natCast, zpow_natCast, h10]
  field_simp

theorem short_nat {n : ℕ} (hn : n < 10^maxDigits) : Short 10 maxDigits (n:ℚ) := by
  refine ⟨n, 0, hn, ?_⟩
  rw [zpow_zero, mul_one]

theorem short_mul_two_zpow {h : ℕ} {j : ℤ} (hh : h ≤ 2^55) (hj : -1075 ≤ j)
    (hlt : (h:ℚ)*2^j < 10^maxDigits) : Short 10 maxDigits ((h:ℚ)*2^j) := by
  rcases le_total 0 j with h0 | h0
  · obtain ⟨a, rfl⟩ := Int.eq_ofNat_of_zero_le h0
    rw [zpow_natCast] at hlt ⊢
    have hN : h*2^a < 10^maxDigits := by exact_mod_cast hlt
    have := short_nat hN
    push_cast at this
    exact this
  · obtain ⟨a, ha⟩ := Int.eq_ofNat_of_zero_le (show 0 ≤ -j by lia)
    obtain rfl : j = -(a:ℤ) := by lia
    apply short_div_two_pow
    have h5 : 5^a ≤ 5^1075 := Nat.pow_le_pow_right (by norm_num) (by lia)
    exact (Nat.mul_le_mul hh h5).trans_lt five_pow_1075_lt

theorem short_two_zpow {j : ℤ} (hj : -1090 ≤ j) (hj' : j ≤ 2000) :
    Short 10 maxDigits ((2:ℚ)^j) := by
  rcases le_total 0 j with h0 | h0
  · obtain ⟨a, rfl⟩ := Int.eq_ofNat_of_zero_le h0
    have hN : 2^a < 10^maxDigits :=
      (Nat.pow_le_pow_right (by norm_num) (by lia)).trans_lt two_pow_2000_lt
    have := short_nat hN
    push_cast at this
    exact this
  · obtain ⟨a, ha⟩ := Int.eq_ofNat_of_zero_le (show 0 ≤ -j by lia)
    obtain rfl : j = -(a:ℤ) := by lia
    have := short_div_two_pow (h := 1) (a := a) (by
      rw [Nat.one_mul]
      exact (Nat.pow_le_pow_right (by norm_num) (by lia)).trans_lt five_pow_1090_lt)
    rwa [Nat.cast_one, one_mul] at this

end DecimalSeq

/-! ## The value behind the decimal -/

/-- The decimal is `x/2^e` cut off: the flag says whether something is missing, and
nothing is missing of the multiples of `2^(m-1075)`. -/
structure Tracks (x : ℚ) (m e : ℤ) (d : DecimalSeq) : Prop where
  wf : d.WF
  le : d.value ≤ x*2^(-e)
  truncated : d.truncated = true ↔ d.value < x*2^(-e)
  grid : ∀ (h : ℕ) (g : ℤ), h ≤ 2^55 → m-1075 ≤ g → h*2^g ≤ x → h*2^(g-e) ≤ d.value

namespace Tracks
open DecimalSeq

theorem mono {x : ℚ} {m m' e : ℤ} {d : DecimalSeq} (h : Tracks x m e d) (hm : m ≤ m') :
    Tracks x m' e d :=
  ⟨h.wf, h.le, h.truncated, fun a g ha hg => h.grid a g ha (by lia)⟩

theorem shift {x : ℚ} {m e s : ℤ} {d d' : DecimalSeq} (h : Tracks x m e d)
    (hl : Leads d.truncated (d.value*2^s) d') (hx : x < 10^310) (hm : e-s ≤ m)
    (he : -1200 ≤ e-s) : Tracks x m (e-s) d' := by
  have hpow : (0:ℚ) < 2^s := by positivity
  have hsplit : x*2^(-e)*2^s = x*2^(-(e-s)) := by
    rw [mul_assoc, ← zpow_add₀ (by norm_num)]
    congr 2
    ring
  have hle : d.value*2^s ≤ x*2^(-(e-s)) := by
    rw [← hsplit]
    exact mul_le_mul_of_nonneg_right h.le hpow.le
  refine ⟨hl.wf, hl.cut.le.trans hle, ?_, fun a g ha hg hag => ?_⟩
  · rw [hl.truncated, h.truncated, ← mul_lt_mul_iff_left₀ hpow, hsplit]
    constructor
    · rintro (hlt | hlt)
      · exact hl.cut.le.trans_lt hlt
      · exact hlt.trans_le hle
    · intro hlt
      rcases hle.lt_or_eq with hlt' | heq
      · exact Or.inl hlt'
      · right
        rwa [heq]
  · have hg' : (a:ℚ)*2^(g-e)*2^s = a*2^(g-(e-s)) := by
      rw [mul_assoc, ← zpow_add₀ (by norm_num)]
      congr 2
      ring
    have hv : (a:ℚ)*2^(g-(e-s)) ≤ d.value*2^s := by
      rw [← hg']
      exact mul_le_mul_of_nonneg_right (h.grid a g ha hg hag) hpow.le
    apply hl.cut.greatest _ _ hv
    apply short_mul_two_zpow ha (by lia)
    have h2 : (2:ℚ)^(-(e-s)) ≤ 2^(1200:ℤ) := zpow_le_zpow_right₀ (by norm_num) (by lia)
    have h3 : (2:ℚ)^(1200:ℤ) ≤ 10^400 := by
      rw [show (1200:ℤ) = ((3*400:ℕ):ℤ) by norm_num, zpow_natCast, pow_mul]
      exact pow_le_pow_left₀ (by norm_num) (by norm_num) _
    have h4 : (10:ℚ)^310*10^400 < 10^maxDigits := by
      rw [← pow_add]
      exact pow_lt_pow_right₀ (by norm_num) (by decide)
    calc (a:ℚ)*2^(g-(e-s)) ≤ x*2^(-(e-s)) := hv.trans hle
      _ ≤ 10^310*10^400 := by
        apply mul_le_mul hx.le (h2.trans h3) (by positivity) (by positivity)
      _ < 10^maxDigits := h4

end Tracks

end RustStd.Dec2Flt
