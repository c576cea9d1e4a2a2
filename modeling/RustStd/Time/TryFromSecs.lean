import RustStd.Time.Duration
import RustStd.Num.RawFloat

/-!
# Durations from floats

`try_from_secs_f32` and `try_from_secs_f64` compute on the bits of the float, in fixed
point with a scaling for each range of the exponent. A panic, and a shift or a product
that overflows its type, is the outer `none`.
-/

set_option autoImplicit false

namespace RustStd.Time
open RustStd.Checked

/-- The types that `try_from_secs!` is used with. -/
inductive SecsFloat
  | f32
  | f64
  deriving DecidableEq, Repr

inductive TryFromFloatSecsErrorKind
  | negative
  | overflowOrNan
  deriving DecidableEq, Repr

namespace SecsFloat
open Duration TryFromFloatSecsErrorKind

def format : SecsFloat → RawFloat
  | f32 => .f32
  | f64 => .f64

def mantissaBits : SecsFloat → ℕ
  | f32 => 23
  | f64 => 52

def exponentBits : SecsFloat → ℕ
  | f32 => 8
  | f64 => 11

def offset : SecsFloat → ℕ
  | f32 => 41
  | f64 => 44

def bitsTy : SecsFloat → ℕ
  | f32 => 32
  | f64 => 64

def doubleTy : SecsFloat → ℕ
  | f32 => 64
  | f64 => 128

def minExp (F : SecsFloat) : ℤ := 1-2^F.exponentBits/2

def mantMask (F : SecsFloat) : ℕ := 2^F.mantissaBits-1

def expMask (F : SecsFloat) : ℕ := 2^F.exponentBits-1

def shl (w a : ℕ) (k : ℤ) : Option ℕ :=
  if 0 ≤ k ∧ k < w then some (a*2^k.toNat%2^w) else none

def shr (w a : ℕ) (k : ℤ) : Option ℕ := if 0 ≤ k ∧ k < w then some (a/2^k.toNat) else none

/-- The rounding of `nanos_tmp`, with `nanos_offset` bits after the point, in a type with
`w` bits. -/
def roundNanos (w nanosTmp nanosOffset : ℕ) : Option ℕ := do
  let nanos ← shr w nanosTmp nanosOffset
  let nanos := nanos%2^32
  let one ← shl w 1 nanosOffset
  let remMask ← sub one 1
  let remMsbMask ← shl w 1 (nanosOffset-1)
  let rem := nanosTmp &&& remMask
  let isTie := rem == remMsbMask
  let isEven := nanos &&& 1 == 0
  let remMsb := nanosTmp &&& remMsbMask == 0
  let addNs := !(remMsb || (isEven && isTie))
  u32 (nanos+addNs.toNat)

/-- Only for `f64` the nanoseconds are compared with a second. -/
def carry (F : SecsFloat) (secs nanos : ℕ) : Option (ℕ × ℕ) :=
  if F.mantissaBits = 23 ∨ nanos ≠ nanosPerSec then some (secs, nanos)
  else do
    let secs ← u64 (secs+1)
    return (secs, 0)

def fraction (F : SecsFloat) (mant : ℕ) (exp : ℤ) : Option (ℕ × ℕ) := do
  let t ← shl F.doubleTy mant (F.offset+exp)
  let nanosTmp ← unsigned 128 (nanosPerSec*t)
  let nanos ← roundNanos 128 nanosTmp (F.mantissaBits+F.offset)
  carry F 0 nanos

def mixed (F : SecsFloat) (mant : ℕ) (exp : ℤ) : Option (ℕ × ℕ) := do
  let secs ← shr F.bitsTy mant (F.mantissaBits-exp)
  let t ← shl F.bitsTy mant exp
  let nanosTmp ← unsigned F.doubleTy (nanosPerSec*(t &&& F.mantMask))
  let nanos ← roundNanos F.doubleTy nanosTmp F.mantissaBits
  carry F secs nanos

def whole (F : SecsFloat) (mant : ℕ) (exp : ℤ) : Option (ℕ × ℕ) := do
  let secs ← shl 64 mant (exp-F.mantissaBits)
  return (secs, 0)

/-- `secs` and `nanos` of the result, `none` in the type of results being the error. -/
def parts (F : SecsFloat) (mant : ℕ) (exp : ℤ) : Option (Option (ℕ × ℕ)) :=
  if exp < -31 then some (some (0, 0))
  else if exp < 0 then (fraction F mant exp).map some
  else if exp < F.mantissaBits then (mixed F mant exp).map some
  else if exp < 64 then (whole F mant exp).map some
  else some none

/-! ## The value of a float -/

def magnitude (F : SecsFloat) (secs : BitVec F.bitsTy) : ℕ :=
  secs.toNat%2^(F.mantissaBits+F.exponentBits)

def isNegative (F : SecsFloat) (secs : BitVec F.bitsTy) : Prop :=
  2^(F.mantissaBits+F.exponentBits) ≤ secs.toNat

def isNan (F : SecsFloat) (secs : BitVec F.bitsTy) : Prop := F.format.infBits < F.magnitude secs

instance (F : SecsFloat) (secs : BitVec F.bitsTy) : Decidable (F.isNegative secs) :=
  inferInstanceAs (Decidable (_ ≤ _))

instance (F : SecsFloat) (secs : BitVec F.bitsTy) : Decidable (F.isNan secs) :=
  inferInstanceAs (Decidable (_ < _))

/-- The exact value. Infinity has the value at which rounding overflows, which is above all
that are compared with it. -/
def value (F : SecsFloat) (secs : BitVec F.bitsTy) : ℚ :=
  if F.isNegative secs then -F.format.value (F.magnitude secs)
  else F.format.value (F.magnitude secs)

def ltZero (F : SecsFloat) (secs : BitVec F.bitsTy) : Bool :=
  !decide (F.isNan secs) && decide (F.value secs < 0)

def split (F : SecsFloat) (bits : ℕ) : Option (Option (ℕ × ℕ)) := do
  let mant := bits &&& F.mantMask ||| (F.mantMask+1)
  let exp ← i16 (((bits >>> F.mantissaBits) &&& F.expMask : ℕ)+F.minExp)
  parts F mant exp

def tryFromSecs (F : SecsFloat) (secs : BitVec F.bitsTy) :
    Option (Except TryFromFloatSecsErrorKind Duration) :=
  if F.ltZero secs then some (.error negative)
  else do
    match ← F.split secs.toNat with
    | some (secs, nanos) => do
      let d ← new secs nanos
      return .ok d
    | none => return .error overflowOrNan

end SecsFloat

def tryFromSecsF32 (secs : BitVec 32) : Option (Except TryFromFloatSecsErrorKind Duration) :=
  SecsFloat.f32.tryFromSecs secs

def tryFromSecsF64 (secs : BitVec 64) : Option (Except TryFromFloatSecsErrorKind Duration) :=
  SecsFloat.f64.tryFromSecs secs

/-! ## Rounding -/

/-- `n` is the natural number nearest to `x`, and even if `x` is half way between two. -/
def RoundsTo (x : ℚ) (n : ℕ) : Prop := 2*|x-n| ≤ 1 ∧ (2*|x-n| = 1 → Even n)

namespace SecsFloat
open Duration TryFromFloatSecsErrorKind

theorem shl_eq {w a k : ℕ} (hk : k < w) (h : a*2^k < 2^w) : shl w a k = some (a*2^k) := by
  have hk' : (0:ℤ) ≤ k ∧ (k:ℤ) < w := by omega
  rw [shl, if_pos hk', Int.toNat_natCast, Nat.mod_eq_of_lt h]

theorem shr_eq {w a k : ℕ} (hk : k < w) : shr w a k = some (a/2^k) := by
  have hk' : (0:ℤ) ≤ k ∧ (k:ℤ) < w := by omega
  rw [shr, if_pos hk', Int.toNat_natCast]

theorem roundsTo_of_rem {h q r : ℕ} (hh : 0 < h) (hr : r < 2*h) :
    RoundsTo (((2*h*q+r:ℕ):ℚ)/(2*h:ℕ)) (q+if r < h ∨ Even q ∧ r = h then 0 else 1) := by
  have hpos : (0:ℚ) < h := by exact_mod_cast hh
  have hx : ((2*h*q+r:ℕ):ℚ)/(2*h:ℕ)-q = r/(2*h) := by
    push_cast
    field_simp
    ring
  have hrq : (r:ℚ) < 2*h := by exact_mod_cast hr
  unfold RoundsTo
  split
  · next hdown =>
    have hle : r ≤ h := by omega
    have hleq : (r:ℚ) ≤ h := by exact_mod_cast hle
    rw [Nat.add_zero, hx, abs_of_nonneg (by positivity)]
    constructor
    · rw [← mul_div_assoc, div_le_one (by positivity)]
      linarith
    · intro htie
      rw [← mul_div_assoc, div_eq_one_iff_eq (by positivity)] at htie
      have heq : r = h := by
        have : (r:ℚ) = h := by linarith
        exact_mod_cast this
      rcases hdown with hlt | ⟨heven, -⟩
      · omega
      · exact heven
  · next hup =>
    have hge : h ≤ r := by omega
    have hgeq : (h:ℚ) ≤ r := by exact_mod_cast hge
    have hsub : ((2*h*q+r:ℕ):ℚ)/(2*h:ℕ)-(q+1:ℕ) = -((2*h-r)/(2*h)) := by
      rw [Nat.cast_add q 1, Nat.cast_one, ← sub_sub, hx]
      field_simp
      ring
    have hnonneg : (0:ℚ) ≤ (2*h-r)/(2*h) := by
      apply div_nonneg
      · linarith
      · linarith
    rw [hsub, abs_neg, abs_of_nonneg hnonneg]
    constructor
    · rw [← mul_div_assoc, div_le_one (by positivity)]
      linarith
    · intro htie
      rw [← mul_div_assoc, div_eq_one_iff_eq (by positivity)] at htie
      have heq : r = h := by
        have : (r:ℚ) = h := by linarith
        exact_mod_cast this
      rw [Nat.even_add_one]
      intro heven
      exact hup (Or.inr ⟨heven, heq⟩)

theorem and_mask (n k : ℕ) : n &&& (2^k-1) = n%2^k := Nat.and_two_pow_sub_one_eq_mod n k

theorem and_msb_eq_zero (n k : ℕ) : n &&& 2^k = 0 ↔ n%2^(k+1) < 2^k := by
  have hpos : 0 < 2^k := by positivity
  have hlow := Nat.mod_lt n hpos
  rw [Nat.and_two_pow, Nat.testBit_eq_decide_div_mod_eq, pow_succ, Nat.mod_mul]
  rcases Nat.mod_two_eq_zero_or_one (n/2^k) with h | h
  · rw [h]
    simp [hlow]
  · rw [h]
    simp

theorem addNs_formula (q n j : ℕ) :
    (!((n &&& 2^j == 0) || ((q &&& 1 == 0) && (n%2^(j+1) == 2^j)))).toNat =
      if n%2^(j+1) < 2^j ∨ Even q ∧ n%2^(j+1) = 2^j then 0 else 1 := by
  have hiff : ((n &&& 2^j == 0) || ((q &&& 1 == 0) && (n%2^(j+1) == 2^j))) = true ↔
      n%2^(j+1) < 2^j ∨ Even q ∧ n%2^(j+1) = 2^j := by
    rw [Bool.or_eq_true, Bool.and_eq_true, beq_iff_eq, beq_iff_eq, beq_iff_eq, and_msb_eq_zero,
      Nat.and_one_is_mod, Nat.even_iff]
  split
  · next h =>
    rw [hiff.mpr h]
    rfl
  · next h =>
    rw [Bool.eq_false_iff.mpr (mt hiff.mp h)]
    rfl

theorem roundNanos_spec {w k n : ℕ} (hk : 0 < k) (hkw : k < w) (hn : n < nanosPerSec*2^k) :
    ∃ nanos, roundNanos w n k = some nanos ∧ RoundsTo ((n:ℚ)/(2^k:ℕ)) nanos ∧
      nanos ≤ n/2^k+1 := by
  obtain ⟨j, rfl⟩ : ∃ j, k = j+1 := ⟨k-1, by omega⟩
  have hpos : 0 < 2^j := by positivity
  have hquot : n/2^(j+1) < nanosPerSec := by
    rw [Nat.div_lt_iff_lt_mul (by positivity)]
    exact hn
  have hword : nanosPerSec < 2^32-1 := by decide
  have hshift : 1*2^(j+1) < 2^w := by
    rw [Nat.one_mul]
    exact Nat.pow_lt_pow_right (by norm_num) hkw
  have hshift' : 1*2^j < 2^w := by
    rw [Nat.one_mul]
    exact Nat.pow_lt_pow_right (by norm_num) (by omega)
  have hidx : ((j+1:ℕ):ℤ)-1 = (j:ℕ) := by omega
  have hpow : 2^(j+1) = 2*2^j := by ring
  have hmod : n%2^(j+1) < 2*2^j := hpow ▸ Nat.mod_lt n (show 0 < 2^(j+1) by positivity)
  have hround := roundsTo_of_rem (q := n/2^(j+1)) hpos hmod
  rw [← hpow, Nat.div_add_mod, ← addNs_formula] at hround
  rw [roundNanos]
  dsimp only [Option.bind_eq_bind]
  rw [shr_eq hkw, Option.bind_some, shl_eq hkw hshift, Option.bind_some,
    sub_eq (by rw [Nat.one_mul]; exact Nat.one_le_two_pow), Option.bind_some, hidx,
    shl_eq (by omega) hshift', Option.bind_some, Nat.one_mul, Nat.one_mul, and_mask,
    Nat.mod_eq_of_lt (show n/2^(j+1) < 2^32 by omega)]
  have hbit := Bool.toNat_le (!((n &&& 2^j == 0) ||
    ((n/2^(j+1) &&& 1 == 0) && (n%2^(j+1) == 2^j))))
  exact ⟨_, u32_eq (by omega), hround, by omega⟩

/-- Seconds and nanoseconds in their ranges, together `x` rounded. -/
def Fits (out : Option (ℕ × ℕ)) (x : ℚ) : Prop :=
  ∃ secs nanos, out = some (secs, nanos) ∧ secs < 2^64 ∧ nanos < nanosPerSec ∧
    RoundsTo x (secs*nanosPerSec+nanos)

theorem roundsTo_zero {x : ℚ} (h0 : 0 ≤ x) (h : 2*x < 1) : RoundsTo x 0 := by
  rw [RoundsTo, Nat.cast_zero, sub_zero, abs_of_nonneg h0]
  exact ⟨h.le, fun htie => absurd htie h.ne⟩

theorem roundsTo_add {x : ℚ} {n c : ℕ} (h : RoundsTo x n) (hc : Even c) :
    RoundsTo (c+x) (c+n) := by
  have hsub : (c:ℚ)+x-(c+n:ℕ) = x-n := by
    push_cast
    ring
  unfold RoundsTo
  rw [hsub]
  constructor
  · exact h.1
  · intro htie
    exact hc.add (h.2 htie)

theorem even_secs (secs : ℕ) : Even (secs*nanosPerSec) := by
  apply Even.mul_left
  decide

theorem carry_fits (F : SecsFloat) {secs nanos : ℕ} {y : ℚ} (hsecs : secs+1 < 2^64)
    (hround : RoundsTo y nanos) (hle : nanos ≤ nanosPerSec)
    (hlt : F.mantissaBits = 23 → nanos < nanosPerSec) :
    Fits (F.carry secs nanos) ((secs*nanosPerSec:ℕ)+y) := by
  have hsum := roundsTo_add hround (even_secs secs)
  rw [carry]
  split
  · next hno =>
    have hnanos : nanos < nanosPerSec := by
      rcases hno with hno | hno
      · exact hlt hno
      · omega
    exact ⟨secs, nanos, rfl, by omega, hnanos, hsum⟩
  · next hcarry =>
    have heq : nanos = nanosPerSec := not_not.mp (not_or.mp hcarry).2
    rw [u64_eq hsecs]
    refine ⟨secs+1, 0, rfl, hsecs, by decide, ?_⟩
    rw [Nat.add_zero, Nat.add_mul, Nat.one_mul]
    rw [heq] at hsum
    exact hsum

theorem mantissaBits_pos (F : SecsFloat) : 0 < F.mantissaBits := by cases F <;> decide

theorem rounded_le (F : SecsFloat) {nanos k t : ℕ}
    (ht : t*2^(F.mantissaBits+1)+2^k ≤ 2^(F.mantissaBits+1)*2^k)
    (h : nanos ≤ nanosPerSec*t/2^k+1) :
    nanosPerSec*t < nanosPerSec*2^k ∧ nanos ≤ nanosPerSec ∧
      (F.mantissaBits = 23 → nanos < nanosPerSec) := by
  have hk : 0 < 2^k := by positivity
  have hunit : 0 < nanosPerSec := by decide
  have htk : t < 2^k := by
    have hpos : 0 < 2^(F.mantissaBits+1) := by positivity
    apply Nat.lt_of_mul_lt_mul_left (a := 2^(F.mantissaBits+1))
    linarith only [ht, hk, mul_comm t (2^(F.mantissaBits+1))]
  have hprod := Nat.mul_lt_mul_of_pos_left htk hunit
  have hquot : nanosPerSec*t/2^k < nanosPerSec := by
    rw [Nat.div_lt_iff_lt_mul hk]
    exact hprod
  refine ⟨hprod, by omega, ?_⟩
  intro h23
  have hsmall : nanosPerSec*t/2^k < nanosPerSec-1 := by
    rw [Nat.div_lt_iff_lt_mul hk]
    rw [h23] at ht
    unfold nanosPerSec
    omega
  omega

theorem below_one {a m p : ℕ} (h : a ≤ m*p) : a*(m+1)+(m+1)*p ≤ (m+1)*((m+1)*p) := by
  calc a*(m+1)+(m+1)*p
      ≤ m*p*(m+1)+(m+1)*p := Nat.add_le_add_right (Nat.mul_le_mul_right _ h) _
    _ = (m+1)*((m+1)*p) := by ring

theorem fraction_fits (F : SecsFloat) {mant j : ℕ} {exp : ℤ}
    (hmant : mant < 2^(F.mantissaBits+1)) (hj : j < F.offset) (hexp : F.offset+exp = j) :
    Fits (F.fraction mant exp) ((nanosPerSec*(mant*2^j):ℕ)/(2^(F.mantissaBits+F.offset):ℕ)) := by
  have hwidth : F.mantissaBits+F.offset ≤ F.doubleTy := by cases F <;> decide
  have hwide : nanosPerSec*2^(F.mantissaBits+F.offset) < 2^128 := by cases F <;> decide
  have hidx : F.mantissaBits+F.offset < 128 := by cases F <;> decide
  have hm := F.mantissaBits_pos
  obtain ⟨m, hM⟩ : ∃ m, 2^(F.mantissaBits+1) = m+1 :=
    ⟨2^(F.mantissaBits+1)-1, by have := Nat.one_le_two_pow (n := F.mantissaBits+1); omega⟩
  have hsplit : 2^(F.mantissaBits+F.offset) = (m+1)*2^(F.offset-1) := by
    rw [← hM, ← pow_add]
    congr 1
    omega
  have hlt : mant*2^j ≤ m*2^(F.offset-1) := by
    apply Nat.mul_le_mul
    · omega
    · exact Nat.pow_le_pow_right (by norm_num) (by omega)
  have hbound : mant*2^j*2^(F.mantissaBits+1)+2^(F.mantissaBits+F.offset) ≤
      2^(F.mantissaBits+1)*2^(F.mantissaBits+F.offset) := by
    rw [hsplit, hM]
    exact below_one hlt
  have ht : mant*2^j < 2^F.doubleTy := by
    calc mant*2^j
        < (m+1)*2^(F.offset-1) := by
          rw [Nat.add_mul]
          have hpos : 0 < 2^(F.offset-1) := by positivity
          omega
      _ = 2^(F.mantissaBits+F.offset) := hsplit.symm
      _ ≤ 2^F.doubleTy := Nat.pow_le_pow_right (by norm_num) hwidth
  have hfit := (F.rounded_le hbound (Nat.zero_le _)).1
  obtain ⟨nanos, hrun, hround, hle⟩ := roundNanos_spec (w := 128) (by omega) hidx hfit
  obtain ⟨-, htop, h23⟩ := F.rounded_le hbound hle
  have hout := F.carry_fits (show 0+1 < 2^64 by norm_num) hround htop h23
  rw [Nat.zero_mul, Nat.cast_zero, zero_add] at hout
  rw [fraction]
  dsimp only [Option.bind_eq_bind]
  rw [hexp, shl_eq (by omega) ht, Option.bind_some, unsigned, if_pos (lt_trans hfit hwide),
    Option.bind_some, hrun, Option.bind_some]
  exact hout

theorem shl_and_mask (F : SecsFloat) (mant j : ℕ) :
    mant*2^j%2^F.bitsTy &&& F.mantMask = mant*2^j%2^F.mantissaBits := by
  rw [mantMask, and_mask]
  apply Nat.mod_mod_of_dvd
  apply Nat.pow_dvd_pow
  cases F <;> decide

theorem mixed_fits (F : SecsFloat) {mant j : ℕ} (hmant : mant < 2^(F.mantissaBits+1))
    (hj : j < F.mantissaBits) :
    Fits (F.mixed mant j) ((nanosPerSec*(mant*2^j):ℕ)/(2^F.mantissaBits:ℕ)) := by
  have hbits : F.mantissaBits < F.bitsTy := by cases F <;> decide
  have hdouble : F.mantissaBits < F.doubleTy := by cases F <;> decide
  have hwide : nanosPerSec*2^F.mantissaBits < 2^F.doubleTy := by cases F <;> decide
  have h64 : 2^(F.mantissaBits+1)+1 < 2^64 := by cases F <;> decide
  have hm := F.mantissaBits_pos
  have hpos : 0 < 2^F.mantissaBits := by positivity
  have hidx : (F.mantissaBits:ℤ)-j = (F.mantissaBits-j:ℕ) := by omega
  have hj' : (0:ℤ) ≤ j ∧ (j:ℤ) < F.bitsTy := by omega
  have hmod := Nat.mod_lt (mant*2^j) hpos
  have hsplit : 2^F.mantissaBits = 2^(F.mantissaBits-j)*2^j := by
    rw [← pow_add]
    congr 1
    omega
  have hquot : mant*2^j/2^F.mantissaBits = mant/2^(F.mantissaBits-j) := by
    rw [hsplit, Nat.mul_div_mul_right _ _ (by positivity)]
  have hdm := Nat.div_add_mod (mant*2^j) (2^F.mantissaBits)
  rw [hquot] at hdm
  have hbound : mant*2^j%2^F.mantissaBits*2^(F.mantissaBits+1)+2^F.mantissaBits ≤
      2^(F.mantissaBits+1)*2^F.mantissaBits := by
    calc mant*2^j%2^F.mantissaBits*2^(F.mantissaBits+1)+2^F.mantissaBits
        ≤ mant*2^j%2^F.mantissaBits*2^(F.mantissaBits+1)+2^(F.mantissaBits+1) := by
          rw [pow_succ]
          omega
      _ = (mant*2^j%2^F.mantissaBits+1)*2^(F.mantissaBits+1) := by ring
      _ ≤ 2^F.mantissaBits*2^(F.mantissaBits+1) := Nat.mul_le_mul_right _ hmod
      _ = 2^(F.mantissaBits+1)*2^F.mantissaBits := mul_comm _ _
  have hfit := (F.rounded_le hbound (Nat.zero_le _)).1
  obtain ⟨nanos, hrun, hround, hle⟩ := roundNanos_spec hm hdouble hfit
  obtain ⟨-, htop, h23⟩ := F.rounded_le hbound hle
  have hsecs : mant/2^(F.mantissaBits-j)+1 < 2^64 := by
    have := Nat.div_le_self mant (2^(F.mantissaBits-j))
    omega
  have hout := F.carry_fits hsecs hround htop h23
  have hx : (nanosPerSec*(mant*2^j):ℕ)/(2^F.mantissaBits:ℕ) =
      ((mant/2^(F.mantissaBits-j)*nanosPerSec:ℕ):ℚ)+
        (nanosPerSec*(mant*2^j%2^F.mantissaBits):ℕ)/(2^F.mantissaBits:ℕ) := by
    rw [div_eq_iff (by positivity), add_mul, div_mul_cancel₀ _ (by positivity)]
    rw [← Nat.cast_mul, ← Nat.cast_add, Nat.cast_inj]
    conv_lhs => rw [← hdm]
    ring
  rw [hx, mixed]
  dsimp only [Option.bind_eq_bind]
  rw [hidx, shr_eq (by omega), Option.bind_some, shl, if_pos hj', Option.bind_some,
    Int.toNat_natCast, shl_and_mask, unsigned, if_pos (lt_trans hfit hwide), Option.bind_some, hrun,
    Option.bind_some]
  exact hout

theorem whole_fits (F : SecsFloat) {mant j : ℕ} (hmant : mant < 2^(F.mantissaBits+1))
    (hj : F.mantissaBits+j < 64) :
    Fits (F.whole mant (F.mantissaBits+j)) (mant*2^j*nanosPerSec:ℕ) := by
  have hlt : mant*2^j < 2^64 := by
    calc mant*2^j
        < 2^(F.mantissaBits+1)*2^j := Nat.mul_lt_mul_of_pos_right hmant (by positivity)
      _ = 2^(F.mantissaBits+1+j) := (pow_add _ _ _).symm
      _ ≤ 2^64 := Nat.pow_le_pow_right (by norm_num) (by omega)
  rw [whole, add_sub_cancel_left, shl_eq (by omega) hlt]
  refine ⟨mant*2^j, 0, rfl, hlt, by decide, ?_⟩
  rw [Nat.add_zero]
  unfold RoundsTo
  simp [even_secs]

/-! ## The bits of the float -/

section Bits

variable (F : SecsFloat)

theorem sigBits_eq : F.format.sigBits = F.mantissaBits := by cases F <;> rfl

theorem expMin_eq : F.format.expMin = F.minExp+1 := by cases F <;> decide

theorem value_lt (n : ℕ) :
    F.format.value n < 2^((n/2^F.mantissaBits:ℕ)+F.minExp+1) := by
  have hmod := Nat.mod_lt n (show 0 < 2^F.mantissaBits by positivity)
  rw [RawFloat.value, sigBits_eq, expMin_eq]
  split
  · next hsub =>
    rw [hsub, Nat.cast_zero, zero_add, zpow_sub₀ (by norm_num), zpow_natCast, ← mul_div_assoc,
      div_lt_iff₀ (by positivity), mul_comm]
    have hq : ((n%2^F.mantissaBits:ℕ):ℚ) < 2^F.mantissaBits := by exact_mod_cast hmod
    have hpos : (0:ℚ) < 2^(F.minExp+1) := by positivity
    exact mul_lt_mul_of_pos_left hq hpos
  · have hq : ((2^F.mantissaBits+n%2^F.mantissaBits:ℕ):ℚ) < 2*2^F.mantissaBits := by
      have : 2^F.mantissaBits+n%2^F.mantissaBits < 2*2^F.mantissaBits := by omega
      exact_mod_cast this
    have hpos : (0:ℚ) < 2^((n/2^F.mantissaBits:ℕ)+F.minExp) := by positivity
    have hexp : ((n/2^F.mantissaBits:ℕ):ℤ)-1+(F.minExp+1)-F.mantissaBits =
        (n/2^F.mantissaBits:ℕ)+F.minExp-F.mantissaBits := by ring
    rw [hexp, zpow_sub₀ (by norm_num), zpow_natCast, zpow_add_one₀ (by norm_num), ← mul_div_assoc,
      div_lt_iff₀ (by positivity)]
    calc ((2^F.mantissaBits+n%2^F.mantissaBits:ℕ):ℚ)*2^((n/2^F.mantissaBits:ℕ)+F.minExp)
        < 2*2^F.mantissaBits*2^((n/2^F.mantissaBits:ℕ)+F.minExp) :=
          mul_lt_mul_of_pos_right hq hpos
      _ = _ := by ring

theorem value_eq {n k j : ℕ} (hn : n/2^F.mantissaBits ≠ 0)
    (h : (n/2^F.mantissaBits:ℕ)+F.minExp+k = F.mantissaBits+j) :
    F.format.value n = ((n%2^F.mantissaBits+2^F.mantissaBits)*2^j:ℕ)/(2^k:ℕ) := by
  have hexp : ((n/2^F.mantissaBits:ℕ):ℤ)-1+(F.minExp+1)-F.mantissaBits = j-k := by
    linarith
  rw [RawFloat.value, sigBits_eq, expMin_eq, if_neg hn, hexp, zpow_sub₀ (by norm_num),
    zpow_natCast, zpow_natCast, Nat.add_comm, ← mul_div_assoc]
  push_cast
  rfl

theorem value_nonneg (n : ℕ) : 0 ≤ F.format.value n := by
  unfold RawFloat.value
  split <;> positivity

theorem minExp_lt : F.minExp < -31 := by cases F <;> decide

theorem le_value {n : ℕ} (h : 64 ≤ ((n/2^F.mantissaBits:ℕ):ℤ)+F.minExp) :
    2^64 ≤ F.format.value n := by
  have hmin := F.minExp_lt
  have hbits : F.mantissaBits ≤ 64 := by cases F <;> decide
  obtain ⟨j, hj⟩ : ∃ j : ℕ, ((n/2^F.mantissaBits:ℕ):ℤ)+F.minExp = F.mantissaBits+j :=
    ⟨(((n/2^F.mantissaBits:ℕ):ℤ)+F.minExp-F.mantissaBits).toNat, by omega⟩
  have hnormal : n/2^F.mantissaBits ≠ 0 := by omega
  rw [F.value_eq (k := 0) (j := j) hnormal (by omega), pow_zero, Nat.cast_one, div_one]
  have hle : 2^64 ≤ (n%2^F.mantissaBits+2^F.mantissaBits)*2^j := by
    calc 2^64
        ≤ 2^(F.mantissaBits+j) := Nat.pow_le_pow_right (by norm_num) (by omega)
      _ = 2^F.mantissaBits*2^j := pow_add _ _ _
      _ ≤ _ := Nat.mul_le_mul_right _ (Nat.le_add_left _ _)
  exact_mod_cast hle

theorem parts_fits {n : ℕ} (h : ((n/2^F.mantissaBits:ℕ):ℤ)+F.minExp < 64) :
    ∃ out, F.parts (n%2^F.mantissaBits+2^F.mantissaBits) ((n/2^F.mantissaBits:ℕ)+F.minExp) =
      out.map some ∧ Fits out (F.format.value n*nanosPerSec) := by
  have hmin := F.minExp_lt
  have hmod := Nat.mod_lt n (show 0 < 2^F.mantissaBits by positivity)
  have hoff : 31 ≤ F.offset := by cases F <;> decide
  have hmant : n%2^F.mantissaBits+2^F.mantissaBits < 2^(F.mantissaBits+1) := by
    rw [pow_succ]
    omega
  have hunits {j k : ℕ} {v : ℚ}
      (hv : v = ((n%2^F.mantissaBits+2^F.mantissaBits)*2^j:ℕ)/(2^k:ℕ)) :
      v*nanosPerSec =
        (nanosPerSec*((n%2^F.mantissaBits+2^F.mantissaBits)*2^j):ℕ)/(2^k:ℕ) := by
    rw [hv, Nat.cast_mul nanosPerSec]
    ring
  have hlt := F.value_lt n
  have heq {j k : ℕ} := F.value_eq (n := n) (k := k) (j := j)
  rw [parts]
  generalize hexp : ((n/2^F.mantissaBits:ℕ):ℤ)+F.minExp = exp at *
  have hnormal : -31 ≤ exp → n/2^F.mantissaBits ≠ 0 := by
    intro hexp' h0
    rw [h0] at hexp
    omega
  split
  · next htiny =>
    refine ⟨some (0, 0), rfl, 0, 0, rfl, by norm_num, by decide, ?_⟩
    have hpow : (2:ℚ)^(exp+1) ≤ 2^(-31:ℤ) := zpow_le_zpow_right₀ (by norm_num) (by omega)
    have hsmall : 2^(-31:ℤ)*(nanosPerSec:ℚ)*2 < 1 := by
      rw [nanosPerSec]
      norm_num
    apply roundsTo_zero
    · exact mul_nonneg (F.value_nonneg n) (Nat.cast_nonneg _)
    · calc 2*(F.format.value n*nanosPerSec)
          = F.format.value n*nanosPerSec*2 := mul_comm _ _
        _ ≤ 2^(-31:ℤ)*nanosPerSec*2 := by gcongr; linarith
        _ < 1 := hsmall
  split
  · next hneg =>
    obtain ⟨j, hj⟩ : ∃ j : ℕ, (F.offset:ℤ)+exp = j := ⟨(F.offset+exp).toNat, by omega⟩
    have hvalue := heq (k := F.mantissaBits+F.offset) (j := j) (hnormal (by omega)) (by omega)
    rw [hunits hvalue]
    exact ⟨_, rfl, F.fraction_fits hmant (by omega) hj⟩
  split
  · next hmixed =>
    obtain ⟨j, rfl⟩ : ∃ j : ℕ, exp = j := ⟨exp.toNat, by omega⟩
    have hvalue := heq (k := F.mantissaBits) (j := j) (hnormal (by omega)) (by omega)
    rw [hunits hvalue]
    exact ⟨_, rfl, F.mixed_fits hmant (by omega)⟩
  · obtain ⟨j, rfl⟩ : ∃ j : ℕ, exp = F.mantissaBits+j := ⟨(exp-F.mantissaBits).toNat, by omega⟩
    have hvalue := heq (k := 0) (j := j) (hnormal (by omega)) (by omega)
    rw [hunits hvalue, pow_zero, Nat.cast_one, div_one, mul_comm]
    exact ⟨_, rfl, F.whole_fits hmant (by omega)⟩

end Bits

theorem magnitude_lt (F : SecsFloat) (secs : BitVec F.bitsTy) :
    F.magnitude secs/2^F.mantissaBits < 2^F.exponentBits := by
  rw [Nat.div_lt_iff_lt_mul (by positivity), mul_comm, ← pow_add]
  exact Nat.mod_lt _ (by positivity)

theorem split_formula (F : SecsFloat) (secs : BitVec F.bitsTy) :
    F.split secs.toNat = F.parts (F.magnitude secs%2^F.mantissaBits+2^F.mantissaBits)
      ((F.magnitude secs/2^F.mantissaBits:ℕ)+F.minExp) := by
  have hlt := Nat.mod_lt secs.toNat (show 0 < 2^F.mantissaBits by positivity)
  have hmask : F.mantMask+1 = 2^F.mantissaBits := Nat.sub_add_cancel Nat.one_le_two_pow
  have hmant : secs.toNat &&& F.mantMask ||| (F.mantMask+1) =
      F.magnitude secs%2^F.mantissaBits+2^F.mantissaBits := by
    have hor := Nat.two_pow_add_eq_or_of_lt hlt 1
    rw [Nat.mul_one] at hor
    rw [hmask, mantMask, and_mask, Nat.lor_comm, ← hor, magnitude,
      Nat.mod_mod_of_dvd _ (pow_dvd_pow 2 (Nat.le_add_right _ _)), Nat.add_comm]
  have hexp : secs.toNat >>> F.mantissaBits &&& F.expMask =
      F.magnitude secs/2^F.mantissaBits := by
    rw [expMask, and_mask, Nat.shiftRight_eq_div_pow, magnitude, pow_add, Nat.mod_mul_right_div_self]
  have hbound := F.magnitude_lt secs
  have hpow : 2^F.exponentBits ≤ 2^11 := by cases F <;> decide
  have hmin : -2^11 ≤ F.minExp ∧ F.minExp ≤ 0 := by cases F <;> decide
  rw [split, hmant, hexp]
  dsimp only [Option.bind_eq_bind]
  rw [i16_eq (by omega) (by omega), Option.bind_some]

theorem le_exp_of_isNan {F : SecsFloat} {secs : BitVec F.bitsTy} (h : F.isNan secs) :
    64 ≤ ((F.magnitude secs/2^F.mantissaBits:ℕ):ℤ)+F.minExp := by
  have hsat : F.format.expSat ≤ F.magnitude secs/2^F.mantissaBits := by
    rw [Nat.le_div_iff_mul_le (by positivity), ← F.sigBits_eq]
    exact le_of_lt h
  have hbig : 64 ≤ (F.format.expSat:ℤ)+F.minExp := by cases F <;> decide
  omega

theorem value_of_not_ltZero {F : SecsFloat} {secs : BitVec F.bitsTy}
    (h : ¬ (¬ F.isNan secs ∧ F.value secs < 0)) (hnan : ¬ F.isNan secs) :
    F.value secs = F.format.value (F.magnitude secs) := by
  have h0 := F.value_nonneg (F.magnitude secs)
  have hge : 0 ≤ F.value secs := not_lt.mp fun hneg => h ⟨hnan, hneg⟩
  rw [value] at hge ⊢
  split at hge
  · next hsign =>
    rw [if_pos hsign]
    linarith only [hge, h0]
  · next hsign => rw [if_neg hsign]

theorem split_cases (F : SecsFloat) (secs : BitVec F.bitsTy) :
    (64 ≤ ((F.magnitude secs/2^F.mantissaBits:ℕ):ℤ)+F.minExp ∧ F.split secs.toNat = some none) ∨
    ((F.magnitude secs/2^F.mantissaBits:ℕ):ℤ)+F.minExp < 64 ∧
      ∃ s n, F.split secs.toNat = some (some (s, n)) ∧ s < 2^64 ∧ n < nanosPerSec ∧
        RoundsTo (F.format.value (F.magnitude secs)*nanosPerSec) (s*nanosPerSec+n) := by
  rw [split_formula]
  rcases lt_or_ge (((F.magnitude secs/2^F.mantissaBits:ℕ):ℤ)+F.minExp) 64 with h | h
  · right
    obtain ⟨out, hrun, s, n, rfl, hfits⟩ := F.parts_fits h
    exact ⟨h, s, n, hrun, hfits⟩
  · left
    have hbits : (F.mantissaBits:ℤ) ≤ 64 := by cases F <;> decide
    rw [parts, if_neg (by omega), if_neg (by omega), if_neg (by omega), if_neg (by omega)]
    exact ⟨h, rfl⟩

theorem ltZero_iff {F : SecsFloat} {secs : BitVec F.bitsTy} :
    F.ltZero secs = true ↔ ¬ F.isNan secs ∧ F.value secs < 0 := by
  rw [ltZero, Bool.and_eq_true, Bool.not_eq_true', decide_eq_false_iff_not, decide_eq_true_iff]

/-- A float becomes the nearest duration, or the error says what it is. -/
theorem tryFromSecs_rounds (F : SecsFloat) (secs : BitVec F.bitsTy) :
    ∃ out, F.tryFromSecs secs = some out ∧
      (out = .error negative ↔ ¬ F.isNan secs ∧ F.value secs < 0) ∧
      (out = .error overflowOrNan ↔ F.isNan secs ∨ 2^64 ≤ F.value secs) ∧
      (∀ d, out = .ok d → RoundsTo (F.value secs*nanosPerSec) d.total) ∧
      ∀ s n, F.split secs.toNat = some (some (s, n)) → n < nanosPerSec := by
  have hcases := F.split_cases secs
  have hnanos : ∀ s n, F.split secs.toNat = some (some (s, n)) → n < nanosPerSec := by
    intro s n hsplit
    rcases hcases with ⟨-, hnone⟩ | ⟨-, s', n', hsome, -, hlt, -⟩
    · rw [hnone] at hsplit
      cases hsplit
    · rw [hsome] at hsplit
      cases hsplit
      exact hlt
  rw [tryFromSecs]
  by_cases hneg : ¬ F.isNan secs ∧ F.value secs < 0
  · rw [if_pos (ltZero_iff.mpr hneg)]
    have hnot : ¬ (F.isNan secs ∨ 2^64 ≤ F.value secs) := by
      rintro (hnan | hbig)
      · exact hneg.1 hnan
      · linarith [hneg.2]
    refine ⟨_, rfl, ⟨fun _ => hneg, fun _ => rfl⟩, ?_, ?_, hnanos⟩
    · constructor
      · intro h
        cases h
      · intro h
        exact absurd h hnot
    · intro d h
      cases h
  rw [if_neg (mt ltZero_iff.mp hneg)]
  rcases hcases with ⟨hexp, hsplit⟩ | ⟨hexp, s, n, hsplit, hs, hn, hround⟩
  · have hover : F.isNan secs ∨ 2^64 ≤ F.value secs := by
      by_cases hnan : F.isNan secs
      · exact Or.inl hnan
      · right
        rw [value_of_not_ltZero hneg hnan]
        exact F.le_value hexp
    rw [hsplit]
    refine ⟨_, rfl, ?_, ⟨fun _ => hover, fun _ => rfl⟩, ?_, hsplit ▸ hnanos⟩
    · constructor
      · intro h
        cases h
      · intro h
        exact absurd h hneg
    · intro d h
      cases h
  · have hnan : ¬ F.isNan secs := by
      intro hnan
      have := le_exp_of_isNan hnan
      omega
    have hvalue := value_of_not_ltZero hneg hnan
    have hsmall : F.value secs < 2^64 := by
      rw [hvalue]
      calc F.format.value (F.magnitude secs)
          < 2^(((F.magnitude secs/2^F.mantissaBits:ℕ):ℤ)+F.minExp+1) := F.value_lt _
        _ ≤ 2^(64:ℤ) := zpow_le_zpow_right₀ (by norm_num) (by omega)
        _ = 2^64 := by norm_num
    rw [hsplit]
    dsimp only [Option.bind_eq_bind, Option.bind_some]
    rw [new_eq hs hn]
    refine ⟨_, rfl, ?_, ?_, ?_, hsplit ▸ hnanos⟩
    · constructor
      · intro h
        cases h
      · intro h
        exact absurd h hneg
    · constructor
      · intro h
        cases h
      · intro h
        rcases h with h | h
        · exact absurd h hnan
        · exact absurd h hsmall.not_ge
    · intro d h
      cases h
      rw [hvalue]
      exact hround

end SecsFloat

-- halves of a nanosecond: `976562.5e-9` is rounded down and `2929687.5e-9` is rounded up
example : (tryFromSecsF32 0x3A800000#32).map (fun r => r.toOption.map Duration.total) =
    some (some 976562) := by decide +kernel

example : (tryFromSecsF64 0x3F68000000000000#64).map (fun r => r.toOption.map Duration.total) =
    some (some 2929688) := by decide +kernel

end RustStd.Time
