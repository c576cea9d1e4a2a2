import RustStd.Lib.Machine
import RustStd.Num.RawFloat

/-!
# Decoding a float for printing

`decode` gives the mantissa and the exponent of a float with the range of the
numbers that are rounded to it, and whether the ends of the range are as well.
The parity that decides this is taken from a mantissa that `integer_decode` has
doubled for subnormals.
-/

set_option autoImplicit false

namespace RustStd.Flt2Dec
open RustStd.Nearest RustStd.Checked

structure Decoded where
  mant : ℕ
  minus : ℕ
  plus : ℕ
  exp : ℤ
  inclusive : Bool
  deriving DecidableEq, Repr

inductive FullDecoded
  | nan
  | infinite
  | zero
  | finite (decoded : Decoded)
  deriving DecidableEq, Repr

inductive FpCategory
  | nan
  | infinite
  | zero
  | subnormal
  | normal
  deriving DecidableEq, Repr

def expMask (F : RawFloat) : ℕ := F.expSat <<< F.sigBits

def sigMask (F : RawFloat) : ℕ := 2^F.sigBits-1

def classify (F : RawFloat) (b : ℕ) : FpCategory :=
  let man := b &&& sigMask F
  let exp := b &&& expMask F
  if exp = expMask F then if man = 0 then .infinite else .nan
  else if exp = 0 then if man = 0 then .zero else .subnormal
  else .normal

def integerDecode (F : RawFloat) (bits : ℕ) : Option (ℕ × ℤ × ℤ) := do
  let sign := if bits >>> (F.bits-1) = 0 then 1 else -1
  let exponent ← i16 ((bits &&& expMask F) >>> F.sigBits : ℕ)
  let mantissa := if exponent = 0 then ((bits &&& sigMask F) <<< 1)%2^F.bits
    else bits &&& sigMask F ||| 1 <<< F.sigBits
  let exponent ← i16 (exponent-(F.expBias+F.sigBits : ℕ))
  return (mantissa, exponent, sign)

def minPosNormValue (F : RawFloat) : ℕ := 1 <<< F.sigBits

def decodeNormal (F : RawFloat) (mant : ℕ) (exp : ℤ) (even : Bool) : Option FullDecoded := do
  let minnorm ← integerDecode F (minPosNormValue F)
  if mant = minnorm.1 then
    let exp ← i16 (exp-2)
    return .finite ⟨(mant <<< 2)%2^64, 1, 2, exp, even⟩
  else
    let exp ← i16 (exp-1)
    return .finite ⟨(mant <<< 1)%2^64, 1, 1, exp, even⟩

/-- `decode`: whether the float is negative, and its parts. -/
def decode (F : RawFloat) (v : ℕ) : Option (Bool × FullDecoded) := do
  let (mant, exp, sign) ← integerDecode F v
  let even := mant &&& 1 == 0
  let decoded ← match classify F v with
    | .nan => some .nan
    | .infinite => some .infinite
    | .zero => some .zero
    | .subnormal => some (.finite ⟨mant, 1, 1, exp, even⟩)
    | .normal => decodeNormal F mant exp even
  return (decide (sign < 0), decoded)

/-! ## What a decoded float promises -/

def magnitude (F : RawFloat) (v : ℕ) : ℕ := v%2^(F.bits-1)

noncomputable def realValue (F : RawFloat) (n : ℕ) : ℝ := F.value n

/-- A real number is rounded to a pattern, to nearest with ties to even. -/
def RoundsTo (F : RawFloat) (x : ℝ) (n : ℕ) : Prop := IsNearest (realValue F) F.infBits x n

/-- The parts have the value of the pattern, what is within the range is rounded to it, and
the ends are if and only if the range is inclusive, the lower end where it is the middle to the
number below. -/
structure Sound (F : RawFloat) (n : ℕ) (d : Decoded) : Prop where
  value : realValue F n = d.mant*2^d.exp
  inside : ∀ x : ℝ, ((d.mant:ℝ)-d.minus)*2^d.exp < x → x < ((d.mant:ℝ)+d.plus)*2^d.exp →
    RoundsTo F x n
  upper : RoundsTo F (((d.mant:ℝ)+d.plus)*2^d.exp) n ↔ d.inclusive = true
  lower : 2*(((d.mant:ℝ)-d.minus)*2^d.exp) = realValue F (n-1)+realValue F n →
    (RoundsTo F (((d.mant:ℝ)-d.minus)*2^d.exp) n ↔ d.inclusive = true)

theorem realValue_strictMono (F : RawFloat) : StrictMono (realValue F) := fun _ _ h => by
  unfold realValue
  exact_mod_cast F.value_strictMono h

theorem sound_iff {F : RawFloat} {n : ℕ} {d : Decoded} (h0 : n ≠ 0) (hn : n < F.infBits)
    (hvalue : realValue F n = d.mant*2^d.exp)
    (hupper : 2*(((d.mant:ℝ)+d.plus)*2^d.exp) = realValue F n+realValue F (n+1))
    (hlower : realValue F (n-1)+realValue F n ≤ 2*(((d.mant:ℝ)-d.minus)*2^d.exp)) :
    Sound F n d ↔ (d.inclusive = true ↔ Even n) := by
  have hmono := realValue_strictMono F
  have hbelow := hmono (show n-1 < n by omega)
  have habove := hmono (show n < n+1 by omega)
  have hiff : ∀ x, RoundsTo F x n ↔ LtOr (Even n) (realValue F (n-1)+realValue F n) (2*x) ∧
      LtOr (Even n) (2*x) (realValue F n+realValue F (n+1)) := fun x => by
    rw [RoundsTo, isNearest_iff hmono hn.le]
    simp only [h0, hn.ne, false_or]
  have hupperEven : RoundsTo F (((d.mant:ℝ)+d.plus)*2^d.exp) n ↔ Even n := by
    rw [hiff, hupper]
    constructor
    · intro ⟨_, h⟩
      rcases h with h | h
      · exact absurd h (lt_irrefl _)
      · exact h.2
    · intro h
      exact ⟨Or.inl (by linarith), Or.inr ⟨rfl, h⟩⟩
  constructor
  · intro h
    rw [← h.upper, hupperEven]
  · intro h
    refine ⟨hvalue, fun x hlo hhi => ?_, ?_, fun hmid => ?_⟩
    · rw [hiff]
      exact ⟨Or.inl (by linarith), Or.inl (by linarith)⟩
    · rw [hupperEven, h]
    · rw [hiff, hmid, h]
      constructor
      · intro ⟨h, _⟩
        rcases h with h | h
        · exact absurd h (lt_irrefl _)
        · exact h.2
      · intro h
        exact ⟨Or.inr ⟨rfl, h⟩, Or.inl (by linarith)⟩

/-! ## The fields of a pattern -/

theorem bits_split (F : RawFloat) : F.bits-1 = F.sigBits+F.expBits := by cases F <;> decide

theorem sig_field (F : RawFloat) (v : ℕ) : v &&& sigMask F = magnitude F v%2^F.sigBits := by
  rw [sigMask, Nat.and_two_pow_sub_one_eq_mod, magnitude, bits_split,
    Nat.mod_mod_of_dvd _ (pow_dvd_pow 2 (Nat.le_add_right _ _))]

theorem exp_field (F : RawFloat) (v : ℕ) :
    v &&& expMask F = magnitude F v/2^F.sigBits*2^F.sigBits := by
  rw [magnitude, bits_split, pow_add, Nat.mod_mul_right_div_self, expMask, RawFloat.expSat,
    ← Nat.and_two_pow_sub_one_eq_mod, ← Nat.shiftRight_eq_div_pow, ← Nat.shiftLeft_eq]
  apply Nat.eq_of_testBit_eq
  intro i
  simp only [Nat.testBit_and, Nat.testBit_shiftLeft, Nat.testBit_shiftRight]
  by_cases h : F.sigBits ≤ i
  · simp [h]
  · simp [h]

section Fields

variable {F : RawFloat} {v : ℕ} (hn : magnitude F v < F.infBits)
include hn

theorem exp_lt : magnitude F v/2^F.sigBits < F.expSat := by
  rw [Nat.div_lt_iff_lt_mul (by positivity)]
  exact hn

theorem classify_subnormal (h0 : magnitude F v ≠ 0) (h : magnitude F v/2^F.sigBits = 0) :
    classify F v = .subnormal := by
  have hpos : 0 < 2^F.sigBits := by positivity
  have hlt : magnitude F v < 2^F.sigBits := (Nat.div_eq_zero_iff.mp h).resolve_left hpos.ne'
  have hsat : 0 < F.expSat := by cases F <;> decide
  have hmask : expMask F ≠ 0 := by
    rw [expMask, Nat.shiftLeft_eq]
    exact (Nat.mul_pos hsat hpos).ne'
  simp only [classify, exp_field, sig_field, h, Nat.zero_mul]
  rw [if_neg (Ne.symm hmask), if_pos trivial, Nat.mod_eq_of_lt hlt, if_neg h0]

theorem classify_normal (h : magnitude F v/2^F.sigBits ≠ 0) : classify F v = .normal := by
  have hpos : 0 < 2^F.sigBits := by positivity
  have hlt := exp_lt hn
  have hne : magnitude F v/2^F.sigBits*2^F.sigBits ≠ expMask F := by
    rw [expMask, Nat.shiftLeft_eq]
    intro heq
    have := Nat.eq_of_mul_eq_mul_right hpos heq
    omega
  have hne' : magnitude F v/2^F.sigBits*2^F.sigBits ≠ 0 := Nat.mul_ne_zero h hpos.ne'
  simp only [classify, exp_field, sig_field]
  rw [if_neg hne, if_neg hne']

theorem exp_bounds : magnitude F v/2^F.sigBits < 2^11 ∧ F.expBias+F.sigBits < 2^11 := by
  have hsat : F.expSat < 2^11 := by cases F <;> decide
  constructor
  · exact (exp_lt hn).trans hsat
  · cases F <;> decide

def mantissa (F : RawFloat) (n : ℕ) : ℕ :=
  if n/2^F.sigBits = 0 then 2*n else 2^F.sigBits+n%2^F.sigBits

def exponent (F : RawFloat) (n : ℕ) : ℤ := (n/2^F.sigBits : ℕ)-((F.expBias+F.sigBits : ℕ):ℤ)

theorem integerDecode_formula : ∃ sign : ℤ, integerDecode F v =
    some (mantissa F (magnitude F v), exponent F (magnitude F v), sign) := by
  have hpos : 0 < 2^F.sigBits := by positivity
  have hbits : F.sigBits+1 ≤ F.bits := by cases F <;> decide
  obtain ⟨hexp, hbias⟩ := exp_bounds hn
  have hfield : (v &&& expMask F) >>> F.sigBits = magnitude F v/2^F.sigBits := by
    rw [exp_field, Nat.shiftRight_eq_div_pow, Nat.mul_div_cancel _ hpos]
  have hmant : (if ((magnitude F v/2^F.sigBits : ℕ):ℤ) = 0 then
      ((magnitude F v%2^F.sigBits) <<< 1)%2^F.bits
      else magnitude F v%2^F.sigBits ||| 1 <<< F.sigBits) = mantissa F (magnitude F v) := by
    rw [mantissa]
    by_cases h : magnitude F v/2^F.sigBits = 0
    · have hlt : magnitude F v < 2^F.sigBits := (Nat.div_eq_zero_iff.mp h).resolve_left hpos.ne'
      have hwide : 2*magnitude F v < 2^F.bits := by
        calc 2*magnitude F v < 2*2^F.sigBits := by omega
          _ = 2^(F.sigBits+1) := (pow_succ' 2 _).symm
          _ ≤ 2^F.bits := Nat.pow_le_pow_right (by norm_num) hbits
      rw [if_pos (by exact_mod_cast h), if_pos h, Nat.mod_eq_of_lt hlt, Nat.shiftLeft_eq, pow_one,
        mul_comm, Nat.mod_eq_of_lt hwide]
    · have hmod : magnitude F v%2^F.sigBits < 2^F.sigBits := Nat.mod_lt _ hpos
      rw [if_neg (by exact_mod_cast h), if_neg h, Nat.lor_comm, ← Nat.shiftLeft_add_eq_or_of_lt hmod,
        Nat.shiftLeft_eq, one_mul]
  refine ⟨if v >>> (F.bits-1) = 0 then 1 else -1, ?_⟩
  simp only [integerDecode, hfield, sig_field, exponent]
  clear hfield
  generalize magnitude F v/2^F.sigBits = q at hexp hmant ⊢
  rw [i16_eq (by omega) (by omega)]
  simp only [some_bind]
  rw [i16_eq (by omega) (by omega), some_bind, hmant]
  rfl

end Fields

/-! ## Values -/

theorem realValue_rung (F : RawFloat) {k m : ℕ} (hm : m ≤ 2^(F.sigBits+1))
    (hk : 2^F.sigBits ≤ m ∨ k = 0) : realValue F (k*2^F.sigBits+m) = m*(2^k*F.ulp:ℚ) := by
  rw [realValue, F.value_rung hm hk]
  push_cast
  ring

theorem two_zpow_exponent (F : RawFloat) {n k : ℕ} (h : n/2^F.sigBits = k+1) :
    (2:ℝ)^exponent F n = (2^k*F.ulp:ℚ) := by
  rw [exponent, h, RawFloat.ulp, RawFloat.expMin]
  push_cast
  rw [← zpow_natCast, ← zpow_add₀ (by norm_num)]
  congr 1
  ring

theorem two_zpow_exponent_subnormal (F : RawFloat) {n : ℕ} (h : n/2^F.sigBits = 0) :
    2*(2:ℝ)^exponent F n = (F.ulp:ℚ) := by
  rw [exponent, h, RawFloat.ulp, RawFloat.expMin]
  push_cast
  rw [← zpow_one_add₀ (by norm_num)]
  congr 1
  ring

theorem and_one (m : ℕ) : ((m &&& 1 == 0) = true) ↔ Even m := by
  rw [Nat.and_one_is_mod, beq_iff_eq, Nat.even_iff]

theorem sound_subnormal {F : RawFloat} {n : ℕ} (h0 : n ≠ 0) (hn : n < F.infBits)
    (h : n/2^F.sigBits = 0) :
    Sound F n ⟨2*n, 1, 1, exponent F n, 2*n &&& 1 == 0⟩ ↔ Even n := by
  have hpos : 0 < 2^F.sigBits := by positivity
  have hlt : n < 2^F.sigBits := (Nat.div_eq_zero_iff.mp h).resolve_left hpos.ne'
  have hulp := two_zpow_exponent_subnormal F h
  have hval : ∀ m ≤ 2^F.sigBits, realValue F m = m*(F.ulp:ℚ) := by
    intro m hm
    have := realValue_rung F (k := 0) (m := m) (by rw [pow_succ]; omega) (Or.inr rfl)
    simpa using this
  have hprev : ((n-1:ℕ):ℝ) = n-1 := by
    rw [Nat.cast_sub (by omega), Nat.cast_one]
  have heven : ((2*n &&& 1 == 0) = true) = True := eq_true ((and_one _).mpr (even_two_mul n))
  rw [sound_iff h0 hn]
  · simp only [heven, true_iff]
  · rw [hval n hlt.le, ← hulp]
    push_cast
    ring
  · rw [hval n hlt.le, hval (n+1) hlt, ← hulp]
    push_cast
    ring
  · rw [hval n hlt.le, hval (n-1) (by omega), ← hulp, hprev]
    push_cast
    apply le_of_eq
    ring

section Normal

variable {F : RawFloat} {k m : ℕ} (hm : m < 2^(F.sigBits+1)) (hm' : 2^F.sigBits ≤ m)
include hm hm'

theorem rung_fields : (k*2^F.sigBits+m)/2^F.sigBits = k+1 ∧
    (k*2^F.sigBits+m)%2^F.sigBits = m-2^F.sigBits := by
  have hpos : 0 < 2^F.sigBits := by positivity
  obtain ⟨g, rfl⟩ := Nat.exists_eq_add_of_le hm'
  have hg : g < 2^F.sigBits := by
    rw [pow_succ] at hm
    omega
  have heq : k*2^F.sigBits+(2^F.sigBits+g) = 2^F.sigBits*(k+1)+g := by ring
  rw [heq, Nat.mul_add_div hpos, Nat.div_eq_of_lt hg, Nat.mul_add_mod, Nat.mod_eq_of_lt hg,
    Nat.add_sub_cancel_left]
  exact ⟨rfl, rfl⟩

theorem sound_inner (hne : m ≠ 2^F.sigBits) (hn : k*2^F.sigBits+m < F.infBits) :
    Sound F (k*2^F.sigBits+m) ⟨2*m, 1, 1, exponent F (k*2^F.sigBits+m)-1, m &&& 1 == 0⟩ := by
  have hpos : 0 < 2^F.sigBits := by positivity
  have hunit := two_zpow_exponent F (rung_fields (k := k) hm hm').1
  have hhalf : (2:ℝ)^(exponent F (k*2^F.sigBits+m)-1) = (2^k*F.ulp:ℚ)/2 := by
    rw [zpow_sub_one₀ (by norm_num), hunit]
    ring
  have hprev : k*2^F.sigBits+m-1 = k*2^F.sigBits+(m-1) := by omega
  have hcast : ((m-1:ℕ):ℝ) = m-1 := by
    rw [Nat.cast_sub (by omega), Nat.cast_one]
  rw [sound_iff (by omega) hn]
  · simp only [and_one, F.even_rung]
  · rw [realValue_rung F hm.le (Or.inl hm'), hhalf]
    push_cast
    ring
  · rw [realValue_rung F hm.le (Or.inl hm'), Nat.add_assoc, realValue_rung F hm (Or.inl (by omega)),
      hhalf]
    push_cast
    ring
  · rw [realValue_rung F hm.le (Or.inl hm'), hprev,
      realValue_rung F (m := m-1) (by omega) (Or.inl (by omega)), hhalf, hcast]
    apply le_of_eq
    push_cast
    ring

end Normal

theorem sound_power {F : RawFloat} {k : ℕ} (hn : k*2^F.sigBits+2^F.sigBits < F.infBits) :
    Sound F (k*2^F.sigBits+2^F.sigBits)
      ⟨4*2^F.sigBits, 1, 2, exponent F (k*2^F.sigBits+2^F.sigBits)-2, 2^F.sigBits &&& 1 == 0⟩ := by
  have hpos : 0 < 2^F.sigBits := by positivity
  have hm : 2^F.sigBits < 2^(F.sigBits+1) := by
    rw [pow_succ]
    omega
  have hunit := two_zpow_exponent F (rung_fields (k := k) hm le_rfl).1
  have hquarter : (2:ℝ)^(exponent F (k*2^F.sigBits+2^F.sigBits)-2) = (2^k*F.ulp:ℚ)/4 := by
    rw [zpow_sub₀ (by norm_num), hunit]
    norm_num
  have hulp : (0:ℝ) < (2^k*F.ulp:ℚ) := by
    have := F.ulp_pos
    exact_mod_cast (by positivity : (0:ℚ) < 2^k*F.ulp)
  have hself := realValue_rung F (k := k) hm.le (Or.inl le_rfl)
  -- below, the spacing is half as large, unless these are the subnormal numbers
  have hprev : realValue F (k*2^F.sigBits+2^F.sigBits-1) ≤ ((2^F.sigBits:ℕ)-1/2)*(2^k*F.ulp:ℚ) := by
    cases k with
    | zero =>
      have := realValue_rung F (k := 0) (m := 2^F.sigBits-1) (by omega) (Or.inr rfl)
      rw [Nat.zero_mul, Nat.zero_add] at this ⊢
      rw [this, Nat.cast_sub (by omega), Nat.cast_one]
      apply mul_le_mul_of_nonneg_right _ hulp.le
      linarith
    | succ k =>
      have hsplit : (k+1)*2^F.sigBits+2^F.sigBits-1 = k*2^F.sigBits+(2^(F.sigBits+1)-1) := by
        rw [pow_succ, add_mul]
        omega
      have hlong : 2^F.sigBits ≤ 2^(F.sigBits+1)-1 := by omega
      rw [hsplit, realValue_rung F (by omega) (Or.inl hlong), Nat.cast_sub (by omega), Nat.cast_one]
      apply le_of_eq
      push_cast
      ring
  rw [sound_iff (by omega) hn]
  · simp only [and_one, F.even_rung]
  · rw [hself, hquarter]
    push_cast
    ring
  · rw [hself, Nat.add_assoc, realValue_rung F hm (Or.inl (by omega)), hquarter]
    push_cast
    ring
  · rw [hself, hquarter]
    push_cast at hprev ⊢
    linarith

/-! ## All patterns -/

theorem minPosNormValue_decode (F : RawFloat) :
    ∃ sign exp : ℤ, integerDecode F (minPosNormValue F) = some (2^F.sigBits, exp, sign) := by
  have hmag : magnitude F (minPosNormValue F) = 2^F.sigBits := by
    have hlt : F.sigBits < F.bits-1 := by cases F <;> decide
    rw [magnitude, minPosNormValue, Nat.shiftLeft_eq, one_mul,
      Nat.mod_eq_of_lt (Nat.pow_lt_pow_right (by norm_num) hlt)]
  have hlt : magnitude F (minPosNormValue F) < F.infBits := by
    rw [hmag]
    cases F <;> decide
  obtain ⟨sign, h⟩ := integerDecode_formula hlt
  have hpos : 0 < 2^F.sigBits := by positivity
  have hmant : mantissa F (magnitude F (minPosNormValue F)) = 2^F.sigBits := by
    rw [hmag, mantissa, Nat.div_self hpos, if_neg one_ne_zero, Nat.mod_self, Nat.add_zero]
  rw [hmant] at h
  exact ⟨sign, _, h⟩

section Decode

variable {F : RawFloat} {v : ℕ} (hn : magnitude F v < F.infBits)
include hn

theorem decode_subnormal (h0 : magnitude F v ≠ 0) (h : magnitude F v/2^F.sigBits = 0) :
    ∃ negative, decode F v = some (negative, .finite
      ⟨2*magnitude F v, 1, 1, exponent F (magnitude F v), 2*magnitude F v &&& 1 == 0⟩) := by
  obtain ⟨sign, hdecode⟩ := integerDecode_formula hn
  have hmant : mantissa F (magnitude F v) = 2*magnitude F v := by rw [mantissa, if_pos h]
  rw [hmant] at hdecode
  refine ⟨decide (sign < 0), ?_⟩
  simp only [decode, hdecode, classify_subnormal hn h0 h, some_bind]
  rfl

theorem decode_normal {k m : ℕ} (hm : m < 2^(F.sigBits+1)) (hm' : 2^F.sigBits ≤ m)
    (hmag : magnitude F v = k*2^F.sigBits+m) :
    ∃ negative, decode F v = some (negative, .finite
      (if m = 2^F.sigBits then ⟨4*m, 1, 2, exponent F (magnitude F v)-2, m &&& 1 == 0⟩
        else ⟨2*m, 1, 1, exponent F (magnitude F v)-1, m &&& 1 == 0⟩)) := by
  obtain ⟨sign, hdecode⟩ := integerDecode_formula hn
  obtain ⟨sign', exp', hmin⟩ := minPosNormValue_decode F
  obtain ⟨hq, hr⟩ := rung_fields (k := k) hm hm'
  rw [← hmag] at hq hr
  have hmant : mantissa F (magnitude F v) = m := by
    rw [mantissa, if_neg (by omega), hr]
    omega
  obtain ⟨hexp, hbias⟩ := exp_bounds hn
  have hwide : 2^(F.sigBits+1) ≤ 2^53 := Nat.pow_le_pow_right (by norm_num) (by cases F <;> decide)
  have hbound : -2^14 ≤ exponent F (magnitude F v) ∧ exponent F (magnitude F v) < 2^14 := by
    rw [exponent]
    generalize magnitude F v/2^F.sigBits = q at hexp
    omega
  rw [hmant] at hdecode
  refine ⟨decide (sign < 0), ?_⟩
  simp only [decode, hdecode, classify_normal hn (by omega), decodeNormal, hmin, some_bind]
  have h4 : (m <<< 2)%2^64 = 4*m := by
    rw [Nat.shiftLeft_eq, Nat.mod_eq_of_lt (by omega)]
    ring
  have h2 : (m <<< 1)%2^64 = 2*m := by
    rw [Nat.shiftLeft_eq, Nat.mod_eq_of_lt (by omega)]
    ring
  split
  · rw [i16_eq (by omega) (by omega), h4]
    rfl
  · rw [i16_eq (by omega) (by omega), h2]
    rfl

end Decode

/-- For every finite float but zero, the decoded parts keep their promise if and only if it
is not a subnormal number with an odd significand. -/
theorem decode_sound_iff {F : RawFloat} {v : ℕ} (h0 : magnitude F v ≠ 0)
    (hn : magnitude F v < F.infBits) :
    ∃ negative d, decode F v = some (negative, .finite d) ∧
      (Sound F (magnitude F v) d ↔
        ¬ (magnitude F v < 2^F.sigBits ∧ Odd (magnitude F v))) := by
  have hpos : 0 < 2^F.sigBits := by positivity
  by_cases h : magnitude F v/2^F.sigBits = 0
  · have hlt : magnitude F v < 2^F.sigBits := (Nat.div_eq_zero_iff.mp h).resolve_left hpos.ne'
    obtain ⟨negative, hdecode⟩ := decode_subnormal hn h0 h
    refine ⟨negative, _, hdecode, ?_⟩
    rw [sound_subnormal h0 hn h, ← Nat.not_odd_iff_even]
    simp only [hlt, true_and]
  · obtain ⟨k, m, hmag, hm, hk⟩ := F.exists_rung (magnitude F v)
    have hm' : 2^F.sigBits ≤ m := by
      rcases hk with hk | rfl
      · exact hk
      · by_contra hlt
        rw [hmag, Nat.zero_mul, Nat.zero_add] at h
        exact h (Nat.div_eq_of_lt (by omega))
    obtain ⟨negative, hdecode⟩ := decode_normal hn hm hm' hmag
    have hge : ¬ magnitude F v < 2^F.sigBits := by
      intro hlt
      exact h (Nat.div_eq_of_lt hlt)
    refine ⟨negative, _, hdecode, iff_of_true ?_ (fun hodd => hge hodd.1)⟩
    rw [hmag] at hn ⊢
    split
    · next heq =>
      subst heq
      exact sound_power hn
    · next hne => exact sound_inner hm hm' hne hn

theorem decode_sound_iff_one : ∃ negative d, decode .f64 1 = some (negative, .finite d) ∧
    (Sound .f64 (magnitude .f64 1) d ↔
      ¬ (magnitude .f64 1 < 2^RawFloat.f64.sigBits ∧ Odd (magnitude .f64 1))) :=
  decode_sound_iff (by decide) (by decide)

/-- The least subnormal number, whose range counts as inclusive. -/
theorem decode_unsound : ¬ ∀ (F : RawFloat) (v : ℕ), v < 2^F.bits → magnitude F v ≠ 0 →
    magnitude F v < F.infBits → ∀ negative d, decode F v = some (negative, .finite d) →
      Sound F (magnitude F v) d := by
  intro h
  have hdecode : decode .f64 1 = some (false, .finite ⟨2, 1, 1, -1075, true⟩) := by decide
  have hsound := h .f64 1 (by decide) (by decide) (by decide) _ _ hdecode
  have heven := (sound_subnormal (F := .f64) (n := 1) (by decide) (by decide) (by decide)).mp hsound
  exact absurd heven (by decide)

end RustStd.Flt2Dec
