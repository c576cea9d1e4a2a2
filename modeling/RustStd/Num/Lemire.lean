import RustStd.Num.RawFloat
import RustStd.Num.PowerOfFive

/-!
# The Eisel-Lemire algorithm

`compute_float` of `core::num::dec2flt::lemire`, with every addition, shift and
table access checked. The product with the truncated power determines the
leading bits of the exact product except where the code gives up, and it
recognises exactly the products that lie half way between two floats.
-/

set_option autoImplicit false

namespace RustStd.Lemire
open RustStd.Checked RustStd.PowerOfFive RustStd.Nearest

structure BiasedFp where
  m : ℕ
  pBiased : ℤ
  deriving DecidableEq, Repr

def BiasedFp.zeroPow2 (pBiased : ℤ) : BiasedFp := ⟨0, pBiased⟩

def leadingZeros (w : ℕ) : ℕ := if w = 0 then 64 else 63-Nat.log2 w

/-- The base 2 exponent of a decimal exponent, an `i32`. -/
def power (q : ℤ) : Option ℤ := i32 (wrapI32 (q*(152170+65536))/2^16+63)

def fullMultiplication (a b : ℕ) : ℕ × ℕ := (a*b%2^64, a*b/2^64)

def computeProductApprox (q : ℤ) (w precision : ℕ) : Option (ℕ × ℕ) := do
  -- the two `debug_assert!`s, which also are what the index needs
  if ¬ (smallestPowerOfFive ≤ q ∧ q ≤ largestPowerOfFive ∧ precision ≤ 64) then none
  else
    let mask ← (if precision < 64 then shr 0xFFFFFFFFFFFFFFFF precision
      else some 0xFFFFFFFFFFFFFFFF : Option ℕ)
    let (lo5, hi5) ← powerOfFive128[(q-smallestPowerOfFive).toNat]?
    let (firstLo, firstHi) := fullMultiplication w lo5
    if firstHi &&& mask = mask then
      let (_, secondHi) := fullMultiplication w hi5
      let firstLo := (firstLo+secondHi)%2^64
      if secondHi > firstLo then
        let firstHi ← u64 (firstHi+1)
        return (firstLo, firstHi)
      else return (firstLo, firstHi)
    else return (firstLo, firstHi)

def roundNormal (F : RawFloat) (q : ℤ) (lo hi mantissa : ℕ) (shift power2 : ℤ) :
    Option BiasedFp := do
  let back ← shl mantissa shift
  let mantissa :=
    if lo ≤ 1 ∧ F.minExponentRoundToEven ≤ q ∧ q ≤ F.maxExponentRoundToEven ∧
      mantissa%4 = 1 ∧ back = hi then mantissa-mantissa%2 else mantissa
  let mantissa ← u64 (mantissa+mantissa%2)
  let mantissa := mantissa/2
  let carry ← shl 2 F.sigBits
  let hidden ← shl 1 F.sigBits
  let (mantissa, power2) ← (if carry ≤ mantissa then do
      let power2 ← i32 (power2+1)
      return (hidden, power2)
    else some (mantissa, power2) : Option (ℕ × ℤ))
  -- the hidden bit is cleared
  let mantissa := if mantissa.testBit F.sigBits then mantissa-hidden else mantissa
  if F.infinitePower ≤ power2 then return .zeroPow2 F.infinitePower
  else return ⟨mantissa, power2⟩

def roundSubnormal (F : RawFloat) (mantissa : ℕ) (power2 : ℤ) : Option BiasedFp := do
  let n ← i32 (-power2+1)
  if n ≥ 64 then return .zeroPow2 0
  else
    let mantissa ← shr mantissa n
    let mantissa ← u64 (mantissa+mantissa%2)
    let mantissa := mantissa/2
    let hidden ← shl 1 F.sigBits
    return ⟨mantissa, if hidden ≤ mantissa then 1 else 0⟩

def computeFloat (F : RawFloat) (q : ℤ) (w : ℕ) : Option BiasedFp := do
  let fpZero := BiasedFp.zeroPow2 0
  let fpInf := BiasedFp.zeroPow2 F.infinitePower
  let fpError := BiasedFp.zeroPow2 (-1)
  if w = 0 ∨ q < F.smallestPowerOfTen then return fpZero
  else if F.largestPowerOfTen < q then return fpInf
  else
    let lz := leadingZeros w
    let w ← shl w lz
    let (lo, hi) ← computeProductApprox q w (F.sigBits+3)
    if lo = 0xFFFFFFFFFFFFFFFF ∧ ¬ (-27 ≤ q ∧ q ≤ 55) then return fpError
    else
      let upperbit ← shr hi 63
      let shift ← i32 (upperbit+64-F.sigBits-3)
      let mantissa ← shr hi shift
      let p ← power q
      let power2 ← i32 (p+upperbit-lz-F.expMin+1)
      if power2 ≤ 0 then roundSubnormal F mantissa power2
      else roundNormal F q lo hi mantissa shift power2

theorem leadingZeros_spec {w : ℕ} (h0 : 0 < w) (h : w < 2^64) :
    leadingZeros w < 64 ∧ 2^63 ≤ w*2^leadingZeros w ∧ w*2^leadingZeros w < 2^64 := by
  have hlt : Nat.log2 w < 64 := (Nat.log2_lt h0.ne').mpr h
  have hle := Nat.log2_self_le h0.ne'
  have hub := Nat.lt_log2_self (n := w)
  unfold leadingZeros
  rw [if_neg h0.ne']
  generalize Nat.log2 w = l at *
  refine ⟨by lia, ?_, ?_⟩
  · calc 2^63 = 2^l*2^(63-l) := by rw [← pow_add]; congr 1; lia
      _ ≤ w*2^(63-l) := Nat.mul_le_mul_right _ hle
  · calc w*2^(63-l) < 2^(l+1)*2^(63-l) := by gcongr
      _ = 2^64 := by rw [← pow_add]; congr 1; lia

/-! ## The product -/

/-- What is known of the two words: either one multiplication was enough and no
carry can reach the leading bits, or they are the floor of the product with the
table entry. -/
structure Product (q : ℤ) (w precision lo hi : ℕ) : Prop where
  lo_lt : lo < 2^64
  hi_ge : 2^62 ≤ hi
  hi_lt : hi < 2^64
  cases : ∃ h l, Entry q h l ∧
    (hi*2^64+lo = w*h ∧ hi%2^(64-precision) ≠ 2^(64-precision)-1 ∨
      hi*2^64+lo = w*(h*2^64+l)/2^64)

theorem mask_eq {precision : ℕ} (h : precision < 64) :
    0xFFFFFFFFFFFFFFFF/2^precision = 2^(64-precision)-1 := by
  rw [show 0xFFFFFFFFFFFFFFFF = 2^64-1 by norm_num]
  have hp : 2^64 = 2^precision*2^(64-precision) := by
    rw [← pow_add]
    congr 1
    lia
  have h1 : 0 < 2^precision := by positivity
  have h2 : 0 < 2^(64-precision) := by positivity
  rw [hp]
  generalize 2^precision = a at *
  generalize 2^(64-precision) = b at *
  rw [Nat.div_eq_of_lt_le]
  · calc (b-1)*a = a*b-a := by rw [Nat.sub_mul, one_mul, Nat.mul_comm]
      _ ≤ a*b-1 := by lia
  · rw [Nat.sub_add_cancel h2, Nat.mul_comm]
    have : 0 < b*a := by positivity
    lia

theorem second_sum {w h l : ℕ} :
    w*(h*2^64+l)/2^64 = w*h+w*l/2^64 := by
  rw [Nat.mul_add, ← Nat.mul_assoc, Nat.mul_comm (w*h), Nat.mul_add_div (by norm_num)]

theorem computeProductApprox_spec {q : ℤ} {w precision : ℕ} (hq : smallestPowerOfFive ≤ q)
    (hq' : q ≤ largestPowerOfFive) (hw : 2^63 ≤ w) (hw' : w < 2^64) (hp : precision < 64) :
    ∃ lo hi, computeProductApprox q w precision = some (lo, hi) ∧
      Product q w precision lo hi := by
  obtain ⟨h, l, hget, he⟩ := powerOfFive128_get hq hq'
  have h1 := he.hi_lt
  have h2 := he.lo_lt
  have h3 := he.hi_ge
  have hwh : 2^126 ≤ w*h := by
    calc 2^126 = 2^63*2^63 := by norm_num
      _ ≤ w*h := Nat.mul_le_mul hw h3
  have hwh' : w*h ≤ (2^64-1)*(2^64-1) := Nat.mul_le_mul (by lia) (by lia)
  have hwl : w*l/2^64 < 2^64-1 := by
    rw [Nat.div_lt_iff_lt_mul (by norm_num)]
    have : w*l ≤ (2^64-1)*(2^64-1) := Nat.mul_le_mul (by lia) (by lia)
    lia
  have hsum := second_sum (w := w) (h := h) (l := l)
  rw [computeProductApprox, if_neg (not_not.mpr ⟨hq, hq', hp.le⟩), if_pos hp,
    shr_eq hp, mask_eq hp]
  simp only [hget, fullMultiplication, Option.bind_eq_bind, Option.bind_some, Option.pure_def,
    Nat.and_two_pow_sub_one_eq_mod]
  generalize hA : w*h = A at *
  generalize hB : w*l/2^64 = B at *
  split_ifs with hmask hcarry
  · have hhi : A/2^64+1 < 2^64 := by lia
    rw [u64_eq hhi]
    exact ⟨_, _, rfl, by lia, by lia, hhi, h, l, he, Or.inr (by lia)⟩
  · exact ⟨_, _, rfl, by lia, by lia, by lia, h, l, he, Or.inr (by lia)⟩
  · exact ⟨_, _, rfl, by lia, by lia, by lia, h, l, he, Or.inl ⟨by lia, hmask⟩⟩

theorem eq_of_close {p w n : ℕ} (hs : 128 ≤ scale (-p))
    (h1 : ((n:ℚ)*2^128-w*five (-p))*5^p < 2^128) (h2 : (w*five (-p)-(n:ℚ)*2^128)*5^p < 2^128) :
    w*five (-p) = (n:ℚ)*2^128 := by
  obtain ⟨c, hc⟩ := Int.eq_ofNat_of_zero_le (show 0 ≤ scale (-p)-128 by lia)
  have hb : scale (-p) = (128+c:ℕ) := by
    push_cast
    lia
  have hf := five_neg_ofNat hb
  push_cast at hf
  rw [pow_add] at hf
  have hz : (((n:ℤ)*5^p-w*2^c:ℤ):ℚ)*2^128 = ((n:ℚ)*2^128-w*five (-p))*5^p := by
    push_cast
    linear_combination (w:ℚ)*hf
  have hz' : (((n:ℤ)*5^p-w*2^c:ℤ):ℚ) < 1 := by nlinarith
  have hz'' : (-1:ℚ) < (((n:ℤ)*5^p-w*2^c:ℤ):ℚ) := by nlinarith
  have hz0 : (n:ℤ)*5^p-w*2^c = 0 := by
    have h1 : (n:ℤ)*5^p-w*2^c < 1 := by exact_mod_cast hz'
    have h2 : -1 < (n:ℤ)*5^p-w*2^c := by exact_mod_cast hz''
    lia
  rw [hz0, Int.cast_zero, zero_mul] at hz
  have hpos : (0:ℚ) < 5^p := by positivity
  have := (mul_eq_zero.mp hz.symm).resolve_right hpos.ne'
  linarith

theorem Entry.product_bounds {q : ℤ} {w h l : ℕ} (he : Entry q h l) :
    (w*h:ℕ)*(2:ℚ)^64 ≤ w*five q ∧ w*five q ≤ (w*h:ℕ)*(2:ℚ)^64+w*2^64 := by
  have hl : ((l:ℕ):ℚ) < 2^64 := by exact_mod_cast he.lo_lt
  have hl' : ((l:ℕ):ℚ)+1 ≤ 2^64 := by exact_mod_cast he.lo_lt
  have hw : (0:ℚ) ≤ w := by positivity
  have hl0 : (0:ℚ) ≤ l := by positivity
  have hb : (h:ℚ)*2^64 ≤ five q ∧ five q ≤ h*2^64+2^64 := by
    by_cases hq : -27 ≤ q ∧ q < 0
    · obtain ⟨h1, h2, h3⟩ := he.ceil hq.1 hq.2
      have : (1:ℚ) ≤ l := by exact_mod_cast h3
      push_cast at h1 h2
      constructor <;> linarith
    · obtain ⟨h1, h2⟩ := he.floor (by lia)
      push_cast at h1 h2
      constructor <;> linarith
  push_cast
  have hlo := mul_le_mul_of_nonneg_left hb.1 hw
  have hhi := mul_le_mul_of_nonneg_left hb.2 hw
  constructor
  · linarith only [hlo]
  · linarith only [hhi]

theorem five_pow_lt {p : ℕ} (hp : p ≤ 27) : (5:ℚ)^p < 2^63 := by
  calc (5:ℚ)^p ≤ 5^27 := pow_le_pow_right₀ (by norm_num) hp
    _ < 2^63 := by norm_num

theorem le_of_ceil {q : ℤ} {w h l n : ℕ} (he : Entry q h l) (hq : -27 ≤ q) (hq' : q < 0)
    (hw : w < 2^64) (hn : (n:ℚ)*2^128 ≤ w*(h*2^64+l:ℕ)) : (n:ℚ)*2^128 ≤ w*five q := by
  obtain ⟨p, hp⟩ := Int.eq_ofNat_of_zero_le (show 0 ≤ -q by lia)
  obtain rfl : q = -p := by lia
  obtain ⟨h1, h2, -⟩ := he.ceil hq hq'
  by_contra hlt
  rw [not_le] at hlt
  have hwQ : (w:ℚ) < 2^64 := by exact_mod_cast hw
  have hw0 : (0:ℚ) ≤ w := by positivity
  have h5 := five_pow_lt (p := p) (by lia)
  have h50 : (0:ℚ) < 5^p := by positivity
  have h1' := mul_le_mul_of_nonneg_left h1.le hw0
  have hd : (n:ℚ)*2^128-w*five (-p) ≤ 2^64 := by linarith only [h1', hn, hwQ]
  have hup : ((n:ℚ)*2^128-w*five (-p))*5^p < 2^128 := by
    calc ((n:ℚ)*2^128-w*five (-p))*5^p ≤ 2^64*5^p := mul_le_mul_of_nonneg_right hd h50.le
      _ < 2^64*2^63 := mul_lt_mul_of_pos_left h5 (by norm_num)
      _ < 2^128 := by norm_num
  have hdown : (w*five (-p)-(n:ℚ)*2^128)*5^p < 2^128 := by
    calc (w*five (-p)-(n:ℚ)*2^128)*5^p ≤ 0 :=
          mul_nonpos_of_nonpos_of_nonneg (by linarith only [hlt]) h50.le
      _ < 2^128 := by norm_num
  have := eq_of_close (w := w) (n := n) (he.scale_ge hq') hup hdown
  linarith only [this, hlt]

theorem cut_le (n s : ℕ) : (n/2^s:ℕ)*(2:ℚ)^s ≤ n := by
  exact_mod_cast Nat.div_mul_le_self n (2^s)

theorem le_cut (n s : ℕ) : (n:ℚ)+1 ≤ ((n/2^s:ℕ)+1)*(2:ℚ)^s := by
  have hdiv := Nat.div_add_mod n (2^s)
  have hmod := Nat.mod_lt n (show 0 < 2^s by positivity)
  have : n+1 ≤ (n/2^s+1)*2^s := by
    rw [Nat.add_mul, Nat.mul_comm (n/2^s)]
    lia
  exact_mod_cast this

theorem succ_le_cut {n k s : ℕ} (hk : k ≤ s) (h : n%2^k ≠ 2^k-1) :
    (n:ℚ)+2 ≤ ((n/2^s:ℕ)+1)*(2:ℚ)^s := by
  have hdiv := Nat.div_add_mod n (2^s)
  have hmod := Nat.mod_lt n (show 0 < 2^s by positivity)
  have hnot : n%2^s ≠ 2^s-1 := by
    intro hall
    apply h
    have hpos : 0 < 2^k := by positivity
    obtain ⟨c, hc⟩ := Nat.pow_dvd_pow 2 hk
    have hc0 : 0 < c := by
      apply Nat.pos_of_ne_zero
      rintro rfl
      rw [Nat.mul_zero] at hc
      lia
    rw [← Nat.mod_mod_of_dvd n (Nat.pow_dvd_pow 2 hk), hall, hc]
    obtain ⟨d, rfl⟩ : ∃ d, c = d+1 := ⟨c-1, by lia⟩
    rw [Nat.mul_add, Nat.mul_one, Nat.add_sub_assoc hpos, Nat.mul_add_mod, Nat.mod_eq_of_lt (by lia)]
  have : n+2 ≤ (n/2^s+1)*2^s := by
    rw [Nat.add_mul, Nat.mul_comm (n/2^s)]
    lia
  exact_mod_cast this

section Bracket

variable {q : ℤ} {w h l lo hi s : ℕ} (he : Entry q h l) (hw : w < 2^64)
include he hw

/-- After one multiplication at most one carry reaches the upper word. -/
theorem bracket_one (hlo : lo < 2^64) (hone : hi*2^64+lo = w*h)
    (hcut : (hi:ℚ)+2 ≤ ((hi/2^s:ℕ)+1)*(2:ℚ)^s) :
    (hi/2^s:ℕ)*(2:ℚ)^s*2^128 ≤ w*five q ∧ w*five q < ((hi/2^s:ℕ)+1)*(2:ℚ)^s*2^128 := by
  have hwQ : (w:ℚ) < 2^64 := by exact_mod_cast hw
  obtain ⟨hge, hle⟩ := Entry.product_bounds (w := w) he
  rw [← hone] at hge hle
  push_cast at hge hle
  have hloQ : ((lo:ℕ):ℚ) < 2^64 := by exact_mod_cast hlo
  have hlo0 : (0:ℚ) ≤ lo := by positivity
  have hM := cut_le hi s
  constructor
  · linarith only [hge, hM, hlo0]
  · linarith only [hle, hcut, hloQ, hwQ]

theorem bracket_ceil (hlo : lo < 2^64) (hq : -27 ≤ q) (hq' : q < 0)
    (hfl : ((hi:ℚ)*2^64+lo)*2^64 ≤ w*(h*2^64+l:ℕ))
    (hfu : w*((h*2^64+l:ℕ):ℚ) < ((hi:ℚ)*2^64+lo+1)*2^64) :
    (hi/2^s:ℕ)*(2:ℚ)^s*2^128 ≤ w*five q ∧ w*five q < ((hi/2^s:ℕ)+1)*(2:ℚ)^s*2^128 := by
  obtain ⟨-, h2, -⟩ := he.ceil hq hq'
  have hlo0 : (0:ℚ) ≤ lo := by positivity
  have hloQ : ((lo:ℕ):ℚ)+1 ≤ 2^64 := by exact_mod_cast hlo
  have hM' := le_cut hi s
  constructor
  · have hn : ((hi/2^s*2^s:ℕ):ℚ)*2^128 ≤ w*(h*2^64+l:ℕ) := by
      calc ((hi/2^s*2^s:ℕ):ℚ)*2^128 ≤ hi*2^128 := by
            gcongr
            exact Nat.div_mul_le_self hi (2^s)
        _ ≤ ((hi:ℚ)*2^64+lo)*2^64 := by linarith only [hlo0]
        _ ≤ w*(h*2^64+l:ℕ) := hfl
    have hceil := le_of_ceil (n := hi/2^s*2^s) he hq hq' hw hn
    rwa [Nat.cast_mul, Nat.cast_pow, Nat.cast_ofNat] at hceil
  · calc w*five q ≤ w*((h*2^64+l:ℕ):ℚ) := mul_le_mul_of_nonneg_left h2.le (by positivity)
      _ < ((hi:ℚ)*2^64+lo+1)*2^64 := hfu
      _ ≤ ((hi:ℚ)+1)*2^128 := by linarith only [hloQ]
      _ ≤ ((hi/2^s:ℕ)+1)*(2:ℚ)^s*2^128 := by gcongr

theorem bracket_floor (hlo : lo < 2^64) (hq : q < -27 ∨ 0 ≤ q)
    (herr : lo = 0xFFFFFFFFFFFFFFFF → -27 ≤ q ∧ q ≤ 55)
    (hfl : ((hi:ℚ)*2^64+lo)*2^64 ≤ w*(h*2^64+l:ℕ))
    (hfu : w*((h*2^64+l:ℕ):ℚ) < ((hi:ℚ)*2^64+lo+1)*2^64) :
    (hi/2^s:ℕ)*(2:ℚ)^s*2^128 ≤ w*five q ∧ w*five q < ((hi/2^s:ℕ)+1)*(2:ℚ)^s*2^128 := by
  have hwQ : (w:ℚ) < 2^64 := by exact_mod_cast hw
  have hw0 : (0:ℚ) ≤ w := by positivity
  have hlo0 : (0:ℚ) ≤ lo := by positivity
  have hloQ : ((lo:ℕ):ℚ)+1 ≤ 2^64 := by exact_mod_cast hlo
  have hM := cut_le hi s
  have hM' := le_cut hi s
  obtain ⟨h1, h2⟩ := he.floor hq
  have h1' := mul_le_mul_of_nonneg_left h1 hw0
  constructor
  · linarith only [h1', hfl, hM, hlo0]
  · by_cases hall : lo = 0xFFFFFFFFFFFFFFFF
    · have hex := he.exact (by have := herr hall; lia) (herr hall).2
      rw [hex]
      calc w*((h*2^64+l:ℕ):ℚ) < ((hi:ℚ)*2^64+lo+1)*2^64 := hfu
        _ ≤ ((hi:ℚ)+1)*2^128 := by linarith only [hloQ]
        _ ≤ ((hi/2^s:ℕ)+1)*(2:ℚ)^s*2^128 := by gcongr
    · have hloQ' : ((lo:ℕ):ℚ)+2 ≤ 2^64 := by
        have : lo+2 ≤ 2^64 := by lia
        exact_mod_cast this
      have h2' := mul_le_mul_of_nonneg_left h2.le hw0
      linarith only [h2', hfu, hloQ', hM', hwQ]

end Bracket

theorem Product.bracket {q : ℤ} {w precision lo hi s : ℕ} (hp : Product q w precision lo hi)
    (hw : w < 2^64) (hs : 64-precision ≤ s)
    (herr : lo = 0xFFFFFFFFFFFFFFFF → -27 ≤ q ∧ q ≤ 55) :
    (hi/2^s:ℕ)*(2:ℚ)^s*2^128 ≤ w*five q ∧ w*five q < ((hi/2^s:ℕ)+1)*(2:ℚ)^s*2^128 := by
  obtain ⟨h, l, he, hc⟩ := hp.cases
  rcases hc with ⟨hone, hmask⟩ | htwo
  · exact bracket_one he hw hp.lo_lt hone (succ_le_cut hs hmask)
  · have hfl : (hi*2^64+lo)*2^64 ≤ w*(h*2^64+l) := by
      rw [htwo]
      exact Nat.div_mul_le_self _ _
    have hfu : w*(h*2^64+l) < (hi*2^64+lo+1)*2^64 := by
      rw [htwo, Nat.add_mul, Nat.one_mul]
      exact Nat.lt_div_mul_add (by norm_num)
    have hflQ : ((hi:ℚ)*2^64+lo)*2^64 ≤ w*(h*2^64+l:ℕ) := by exact_mod_cast hfl
    have hfuQ : w*((h*2^64+l:ℕ):ℚ) < ((hi:ℚ)*2^64+lo+1)*2^64 := by exact_mod_cast hfu
    by_cases hq : -27 ≤ q ∧ q < 0
    · exact bracket_ceil he hw hp.lo_lt hq.1 hq.2 hflQ hfuQ
    · exact bracket_floor he hw hp.lo_lt (by lia) herr hflQ hfuQ

/-! ## Half-way products -/

theorem odd_dvd_of_mul_two_pow {a b n : ℕ} (ha : a%2 = 1) (h : a ∣ b*2^n) : a ∣ b := by
  apply Nat.Coprime.dvd_of_dvd_mul_right _ h
  apply Nat.Coprime.pow_right
  exact Nat.coprime_two_right.mpr (Nat.odd_iff.mpr ha)

theorem five_pow_odd (p : ℕ) : 5^p%2 = 1 := by
  rw [Nat.pow_mod]
  simp

theorem five_pow_le {p w m n : ℕ} (hm : 0 < m)
    (h : w*five p = (m:ℚ)*2^n) : 5^p ≤ m := by
  apply Nat.le_of_dvd hm
  rcases le_or_gt 0 (scale p) with hs | hs
  · obtain ⟨b, hb⟩ := Int.eq_ofNat_of_zero_le hs
    rw [five_ofNat hb] at h
    have hN : w*(5^p*2^b) = m*2^n := by exact_mod_cast h
    apply odd_dvd_of_mul_two_pow (five_pow_odd p) (n := n)
    rw [← hN]
    exact Dvd.intro_left (w*2^b) (by ring)
  · obtain ⟨b, hb⟩ := Int.eq_ofNat_of_zero_le (show 0 ≤ -scale p by lia)
    have hf := five_ofNat_neg (show scale p = -b by lia)
    have hN : w*5^p = m*2^(n+b) := by
      have : (w:ℚ)*(5^p:ℕ) = m*2^(n+b) := by
        rw [← hf, pow_add]
        push_cast
        linear_combination (2:ℚ)^b*h
      exact_mod_cast this
    apply odd_dvd_of_mul_two_pow (five_pow_odd p) (n := n+b)
    rw [← hN]
    exact Dvd.intro_left w rfl

theorem mul_five_pow_le {p w m n : ℕ} (hs : 0 ≤ scale (-p)) (hw : 0 < w) (hm : m%2 = 1)
    (h : w*five (-p) = (m:ℚ)*2^n) : m*5^p ≤ w := by
  apply Nat.le_of_dvd hw
  obtain ⟨b, hb⟩ := Int.eq_ofNat_of_zero_le hs
  have hf := five_neg_ofNat hb
  have hN : w*2^b = m*5^p*2^n := by
    have : (w:ℚ)*(2^b:ℕ) = m*5^p*2^n := by
      rw [← hf]
      push_cast
      linear_combination (5:ℚ)^p*h
    exact_mod_cast this
  apply odd_dvd_of_mul_two_pow (n := b)
  · rw [Nat.mul_mod, hm, five_pow_odd]
  · rw [hN]
    exact Dvd.intro _ rfl

theorem round_to_even_window (F : RawFloat) :
    -22 ≤ F.minExponentRoundToEven ∧ F.minExponentRoundToEven < 0 ∧
    0 ≤ F.maxExponentRoundToEven ∧ F.maxExponentRoundToEven ≤ 23 ∧
    2^(F.sigBits+2) ≤ 5^(F.maxExponentRoundToEven+1).toNat ∧
    2^64 ≤ 2^(F.sigBits+1)*5^(1-F.minExponentRoundToEven).toNat ∧ F.sigBits ≤ 52 := by
  cases F <;> decide

section Tie

variable {F : RawFloat} {q : ℤ} {w lo hi s : ℕ} (hp : Product q w (F.sigBits+3) lo hi)
  (hw : 2^63 ≤ w) (hw' : w < 2^64)
include hp hw hw'

theorem window_of_tie (hm : (hi/2^s)%2 = 1) (hge : 2^(F.sigBits+1) ≤ hi/2^s)
    (hlt : hi/2^s < 2^(F.sigBits+2)) (h : w*five q = (hi/2^s:ℕ)*(2:ℚ)^s*2^128) :
    F.minExponentRoundToEven ≤ q ∧ q ≤ F.maxExponentRoundToEven := by
  obtain ⟨-, hmin, hmax, -, hmax5, hmin5, -⟩ := round_to_even_window F
  obtain ⟨_, _, he, -⟩ := hp.cases
  rw [mul_assoc, ← pow_add] at h
  rcases le_or_gt 0 q with hq | hq
  · obtain ⟨p, rfl⟩ := Int.eq_ofNat_of_zero_le hq
    have hpos : 0 < 2^(F.sigBits+1) := by positivity
    have h5 := five_pow_le (by lia) h
    refine ⟨by lia, ?_⟩
    by_contra hgt
    have : 5^(F.maxExponentRoundToEven+1).toNat ≤ 5^p :=
      Nat.pow_le_pow_right (by norm_num) (by lia)
    lia
  · obtain ⟨p, hpq⟩ := Int.eq_ofNat_of_zero_le (show 0 ≤ -q by lia)
    obtain rfl : q = -p := by lia
    have hsc := he.scale_ge hq
    have h5 := mul_five_pow_le (by lia) (by lia) hm h
    refine ⟨?_, by lia⟩
    by_contra hgt
    have : 2^(F.sigBits+1)*5^(1-F.minExponentRoundToEven).toNat ≤ hi/2^s*5^p :=
      Nat.mul_le_mul hge (Nat.pow_le_pow_right (by norm_num) (by lia))
    lia

theorem words_of_tie (hq : q ≤ 27) (hq' : -27 ≤ q)
    (h : w*five q = (hi/2^s:ℕ)*(2:ℚ)^s*2^128) : lo = 0 ∧ hi/2^s*2^s = hi := by
  obtain ⟨a, b, he, hc⟩ := hp.cases
  have hle := Nat.div_mul_le_self hi (2^s)
  have hlo := hp.lo_lt
  have hwQ : (w:ℚ) < 2^64 := by exact_mod_cast hw'
  have hw0 : (0:ℚ) < w := by
    have : 0 < w := by lia
    exact_mod_cast this
  have hN : ((hi/2^s*2^s*2^64:ℕ):ℚ)*2^64 = w*five q := by
    rw [h]
    push_cast
    ring
  rcases le_or_gt 0 q with hpos | hneg
  · obtain ⟨rfl, -⟩ := he.lo_eq hpos hq
    have hex := he.exact hpos (by lia)
    have hwh : hi*2^64+lo = w*a := by
      rcases hc with ⟨hc, -⟩ | hc
      · exact hc
      · rw [hc, second_sum]
        simp
    have : hi/2^s*2^s*2^64*2^64 = w*a*2^64 := by
      rw [hex] at hN
      have hN' : ((hi/2^s*2^s*2^64:ℕ):ℚ)*2^64 = (w*(a*2^64+0):ℕ) := by
        push_cast at hN ⊢
        exact hN
      have : hi/2^s*2^s*2^64*2^64 = w*(a*2^64+0) := by exact_mod_cast hN'
      rw [this]
      ring
    lia
  · obtain ⟨h1, h2, h3⟩ := he.ceil hq' hneg
    rcases hc with ⟨hc, -⟩ | hc
    · -- a single product is too small to be half way
      exfalso
      have hlt : ((w*a:ℕ):ℚ)*2^64 < w*five q := by
        have h3' : (1:ℚ) ≤ b := by exact_mod_cast h3
        push_cast at h1 ⊢
        calc (w:ℚ)*a*2^64 = w*(a*2^64) := mul_assoc ..
          _ < w*five q := mul_lt_mul_of_pos_left (by linarith only [h1, h3']) hw0
      rw [← hN, ← hc] at hlt
      have : (hi*2^64+lo)*2^64 < hi/2^s*2^s*2^64*2^64 := by exact_mod_cast hlt
      lia
    · have hge : hi/2^s*2^s*2^64*2^64 ≤ w*(a*2^64+b) := by
        have : ((hi/2^s*2^s*2^64:ℕ):ℚ)*2^64 ≤ (w*(a*2^64+b):ℕ) := by
          rw [hN, Nat.cast_mul]
          exact mul_le_mul_of_nonneg_left h2.le hw0.le
        exact_mod_cast this
      have hlt : w*(a*2^64+b) < (hi/2^s*2^s*2^64+1)*2^64 := by
        have : ((w*(a*2^64+b):ℕ):ℚ) < ((hi/2^s*2^s*2^64:ℕ)+1)*2^64 := by
          have h1' := mul_lt_mul_of_pos_left h1 hw0
          rw [add_mul, hN, Nat.cast_mul]
          linarith only [h1', hwQ]
        exact_mod_cast this
      have : hi*2^64+lo = hi/2^s*2^s*2^64 := by
        rw [hc]
        exact Nat.div_eq_of_lt_le hge hlt
      lia

theorem tie_of_words (hs : 9 ≤ s) (hq : q ≤ 27) (hq' : -22 ≤ q) (hlo : lo ≤ 1)
    (hhi : hi/2^s*2^s = hi) : w*five q = (hi/2^s:ℕ)*(2:ℚ)^s*2^128 := by
  obtain ⟨a, b, he, hc⟩ := hp.cases
  have hgoal : ((hi/2^s:ℕ):ℚ)*2^s = hi := by exact_mod_cast hhi
  rw [hgoal]
  have hwQ : (w:ℚ) < 2^64 := by exact_mod_cast hw'
  have hw0 : (0:ℚ) ≤ w := by positivity
  rcases le_or_gt 0 q with hpos | hneg
  · obtain ⟨rfl, hev⟩ := he.lo_eq hpos hq
    have hex := he.exact hpos (by lia)
    have hwh : hi*2^64+lo = w*a := by
      rcases hc with ⟨hc, -⟩ | hc
      · exact hc
      · rw [hc, second_sum]
        simp
    have hlo0 : lo = 0 := by
      have : w*a%2 = 0 := by rw [Nat.mul_mod, hev]; simp
      lia
    have : (w:ℚ)*a = hi*2^64 := by
      rw [hlo0, Nat.add_zero] at hwh
      exact_mod_cast hwh.symm
    rw [hex]
    push_cast
    linear_combination (2:ℚ)^64*this
  · rcases hc with ⟨hc, -⟩ | hc
    · exfalso
      obtain ⟨c, rfl⟩ := Nat.exists_eq_add_of_le hs
      generalize hi/2^(9+c) = d at hhi
      have hk : d*2^c*2^73 = hi*2^64 := by
        rw [← hhi, pow_add]
        ring
      apply he.window hq' hneg w (d*2^c) lo (by lia) hw' hlo
      rw [hk]
      exact hc.symm
    · obtain ⟨p, hpq⟩ := Int.eq_ofNat_of_zero_le (show 0 ≤ -q by lia)
      obtain rfl : q = -p := by lia
      obtain ⟨h1, h2, -⟩ := he.ceil (by lia) hneg
      have hfl : (hi*2^64+lo)*2^64 ≤ w*(a*2^64+b) := by
        rw [hc]
        exact Nat.div_mul_le_self _ _
      have hfu : w*(a*2^64+b) < (hi*2^64+lo+1)*2^64 := by
        rw [hc, Nat.add_mul, Nat.one_mul]
        exact Nat.lt_div_mul_add (by norm_num)
      have hflQ : ((hi:ℚ)*2^64+lo)*2^64 ≤ w*(a*2^64+b:ℕ) := by exact_mod_cast hfl
      have hfuQ : w*((a*2^64+b:ℕ):ℚ) < ((hi:ℚ)*2^64+lo+1)*2^64 := by exact_mod_cast hfu
      have hlo0 : (0:ℚ) ≤ lo := by positivity
      have hloQ : (lo:ℚ) ≤ 1 := by exact_mod_cast hlo
      have h5 : (5:ℚ)^p ≤ 2^52 := by
        calc (5:ℚ)^p ≤ 5^22 := pow_le_pow_right₀ (by norm_num) (by lia)
          _ ≤ 2^52 := by norm_num
      have h50 : (0:ℚ) < 5^p := by positivity
      have h1' := mul_le_mul_of_nonneg_left h1.le hw0
      have h2' := mul_le_mul_of_nonneg_left h2.le hw0
      have hd1 : (hi:ℚ)*2^128-w*five (-p) ≤ 2^64 := by linarith only [h1', hflQ, hlo0, hwQ]
      have hd2 : w*five (-p)-(hi:ℚ)*2^128 ≤ 2^65 := by linarith only [h2', hfuQ, hloQ]
      apply eq_of_close (he.scale_ge hneg)
      · calc ((hi:ℚ)*2^128-w*five (-p))*5^p ≤ 2^64*5^p := mul_le_mul_of_nonneg_right hd1 h50.le
          _ ≤ 2^64*2^52 := by gcongr
          _ < 2^128 := by norm_num
      · calc (w*five (-p)-(hi:ℚ)*2^128)*5^p ≤ 2^65*5^p := mul_le_mul_of_nonneg_right hd2 h50.le
          _ ≤ 2^65*2^52 := by gcongr
          _ < 2^128 := by norm_num

end Tie

/-! ## Rounding -/

theorem decimal_eq (q : ℤ) (w l : ℕ) :
    (w:ℚ)*10^q = (w*2^l:ℕ)*five q*2^(PowerOfFive.power q-127-l) := by
  have h10 : (10:ℚ)^q = 5^q*2^q := by
    rw [← mul_zpow]
    norm_num
  have h2 : (2:ℚ)^(l:ℤ)*(2^(scale q)*2^(PowerOfFive.power q-127-l)) = 2^q := by
    rw [← zpow_add₀ (by norm_num), ← zpow_add₀ (by norm_num), scale]
    congr 1
    ring
  rw [zpow_natCast] at h2
  rw [h10, five, ← h2]
  push_cast
  ring

section Normal

variable {F : RawFloat} {x : ℚ} {k r : ℕ} (hr : 2^F.sigBits ≤ r) (hr' : r ≤ 2^(F.sigBits+1))
include hr hr'

/-- The carry, the hidden bit and the overflow turn a rounded mantissa into the
fields of the pattern. -/
theorem finish_spec (hn : F.Nearest x (min (k*2^F.sigBits+r) F.infBits)) (hk : k < 2^30) :
    ∃ m p : ℕ, m < 2^F.sigBits ∧ F.Nearest x (p*2^F.sigBits+m) ∧ 1 ≤ p ∧
    (do
      let carry ← shl 2 F.sigBits
      let hidden ← shl 1 F.sigBits
      let (mantissa, power2) ← (if carry ≤ r then do
          let power2 ← i32 ((k+1:ℕ)+1)
          return (hidden, power2)
        else some (r, ((k+1:ℕ):ℤ)) : Option (ℕ × ℤ))
      let mantissa := if mantissa.testBit F.sigBits then mantissa-hidden else mantissa
      if F.infinitePower ≤ power2 then return .zeroPow2 F.infinitePower
      else return ⟨mantissa, power2⟩) = some (⟨m, p⟩ : BiasedFp) := by
  obtain ⟨-, -, -, -, -, -, hS⟩ := round_to_even_window F
  have h2S : (2:ℕ)^F.sigBits ≤ 2^52 := Nat.pow_le_pow_right (by norm_num) hS
  have hinf : F.infBits = F.expSat*2^F.sigBits := rfl
  have hsat : 0 < F.expSat := by cases F <;> decide
  rw [shl_eq (by lia) (by lia), shl_eq (by lia) (by lia)]
  simp only [Option.bind_eq_bind, Option.bind_some, Option.pure_def, Nat.one_mul,
    RawFloat.infinitePower]
  have h0 : 0 < 2^F.sigBits := by positivity
  rw [pow_succ] at hr'
  generalize hb : 2^F.sigBits = b at *
  rcases Nat.lt_or_ge r (2*b) with hlt | hge
  · have hbit : r.testBit F.sigBits = true := by
      rw [Nat.testBit_eq_decide_div_mod_eq, hb, decide_eq_true_eq]
      have : r/b = 1 := Nat.div_eq_of_lt_le (by lia) (by lia)
      lia
    rw [if_neg (by lia)]
    simp only [Option.bind_some, hbit, if_true]
    have hn' : k*b+r = (k+1)*b+(r-b) := by
      rw [Nat.add_mul]
      lia
    rw [hn'] at hn
    by_cases hp : F.expSat ≤ k+1
    · have hle : F.expSat*b ≤ (k+1)*b := Nat.mul_le_mul_right b hp
      refine ⟨0, F.expSat, by lia, ?_, hsat, ?_⟩
      · rw [Nat.add_zero, ← hinf]
        rwa [min_eq_right (by lia)] at hn
      · rw [if_pos (by exact_mod_cast hp)]
        rfl
    · have hle : (k+1+1)*b ≤ F.expSat*b := Nat.mul_le_mul_right b (by lia)
      refine ⟨r-b, k+1, by lia, ?_, by lia, ?_⟩
      · rwa [min_eq_left (by rw [hinf]; rw [Nat.add_mul] at hle; lia)] at hn
      · rw [if_neg (by exact_mod_cast hp)]
  · obtain rfl : r = b*2 := by lia
    have hbit : b.testBit F.sigBits = true := by
      rw [← hb]
      exact Nat.testBit_two_pow_self
    rw [if_pos (by lia), i32_eq (by lia) (by lia)]
    simp only [Option.bind_some, hbit, if_true, Nat.sub_self]
    have hn' : k*b+b*2 = (k+2)*b := by
      rw [Nat.add_mul]
      lia
    rw [hn'] at hn
    have hcast : ((k+1:ℕ):ℤ)+1 = (k+2:ℕ) := by
      push_cast
      ring
    rw [hcast]
    by_cases hp : F.expSat ≤ k+2
    · refine ⟨0, F.expSat, by lia, ?_, hsat, ?_⟩
      · rw [Nat.add_zero, ← hinf]
        rwa [min_eq_right (by rw [hinf]; exact Nat.mul_le_mul_right b hp)] at hn
      · rw [if_pos (by exact_mod_cast hp)]
        rfl
    · refine ⟨0, k+2, by lia, ?_, by lia, ?_⟩
      · rwa [min_eq_left (by rw [hinf]; exact Nat.mul_le_mul_right b (by lia))] at hn
      · rw [if_neg (by exact_mod_cast hp)]

end Normal

theorem roundNormal_spec {F : RawFloat} {q : ℤ} {x : ℚ} {lo hi mantissa s k : ℕ}
    (hm : 2^(F.sigBits+1) ≤ mantissa) (hm' : mantissa < 2^(F.sigBits+2)) (hs : s < 64)
    (hfit : mantissa*2^s < 2^64) (hk : k < 2^30)
    (hlo : mantissa*2^k*F.ulp ≤ 2*x) (hhi : 2*x < (mantissa+1)*2^k*F.ulp)
    (htie : (2*x = mantissa*2^k*F.ulp ∧ mantissa%4 = 1) ↔ (lo ≤ 1 ∧
      F.minExponentRoundToEven ≤ q ∧ q ≤ F.maxExponentRoundToEven ∧ mantissa%4 = 1 ∧
      mantissa*2^s = hi)) :
    ∃ m p : ℕ, m < 2^F.sigBits ∧ F.Nearest x (p*2^F.sigBits+m) ∧ 1 ≤ p ∧
      roundNormal F q lo hi mantissa s (k+1:ℕ) = some ⟨m, p⟩ := by
  have hS : F.sigBits ≤ 52 := (round_to_even_window F).2.2.2.2.2.2
  have h2S : (2:ℕ)^F.sigBits ≤ 2^52 := Nat.pow_le_pow_right (by norm_num) hS
  have hpos : (0:ℚ) < 2^k*F.ulp := by
    have := F.ulp_pos
    positivity
  have hm2 : mantissa < 4*2^F.sigBits := by
    rw [pow_add] at hm'
    lia
  obtain ⟨a, ha⟩ : ∃ a, a = mantissa/2 := ⟨_, rfl⟩
  have haS : 2^F.sigBits ≤ a := by
    rw [pow_succ] at hm
    lia
  have haS' : a < 2^(F.sigBits+1) := by
    rw [pow_succ]
    lia
  have hdown : 2*x = (2*a+1)*2^k*F.ulp ∧ Even a ∨ 2*x < (2*a+1)*2^k*F.ulp →
      F.Nearest x (min (k*2^F.sigBits+a) F.infBits) := by
    intro h
    apply F.nearest_down haS' (Or.inl haS)
    · have hle : (2*a:ℚ) ≤ mantissa := by
        have : 2*a ≤ mantissa := by lia
        exact_mod_cast this
      have hscaled := mul_le_mul_of_nonneg_right hle hpos.le
      linarith only [hscaled, hlo, hpos]
    · exact h.symm
  unfold roundNormal
  rw [shl_eq hs hfit]
  simp only [Option.bind_eq_bind, Option.bind_some]
  by_cases hd : lo ≤ 1 ∧ F.minExponentRoundToEven ≤ q ∧ q ≤ F.maxExponentRoundToEven ∧
      mantissa%4 = 1 ∧ mantissa*2^s = hi
  · -- half way with an even lower neighbour: the rounding bit is cleared
    obtain ⟨heq, hmod⟩ := htie.mpr hd
    have hme : mantissa = 2*a+1 := by lia
    have hnear := hdown (Or.inl ⟨by rw [heq, hme]; push_cast; ring, Nat.even_iff.mpr (by lia)⟩)
    obtain ⟨m, p, h1, h2, h3, h4⟩ := finish_spec haS haS'.le hnear hk
    refine ⟨m, p, h1, h2, h3, ?_⟩
    rw [if_pos hd]
    have hev : (mantissa-mantissa%2)%2 = 0 := by lia
    rw [hev, Nat.add_zero, u64_eq (by lia)]
    have hhalf : (mantissa-mantissa%2)/2 = a := by lia
    simp only [Option.bind_some, hhalf]
    exact h4
  · rw [if_neg hd]
    rw [u64_eq (by lia)]
    simp only [Option.bind_some]
    rcases Nat.mod_two_eq_zero_or_one mantissa with h2 | h2
    · have hme : mantissa = 2*a := by lia
      have hnear := hdown (Or.inr (by rw [hme] at hhi; push_cast at hhi; exact hhi))
      obtain ⟨m, p, h1, h3, h4, h5⟩ := finish_spec haS haS'.le hnear hk
      refine ⟨m, p, h1, h3, h4, ?_⟩
      have hhalf : (mantissa+mantissa%2)/2 = a := by lia
      rw [hhalf]
      exact h5
    · have hme : mantissa = 2*a+1 := by lia
      have hnear : F.Nearest x (min (k*2^F.sigBits+(a+1)) F.infBits) := by
        rw [hme] at hlo hhi
        push_cast at hlo hhi
        apply F.nearest_up haS' (Or.inl haS)
        · linarith only [hlo, hpos]
        · linarith only [hhi]
        · rcases hlo.lt_or_eq with hlt | heq
          · exact Or.inl hlt
          · right
            refine ⟨heq, ?_⟩
            rw [Nat.odd_iff]
            by_contra hev
            apply hd
            apply htie.mp
            refine ⟨?_, by lia⟩
            rw [← heq, hme]
            push_cast
            ring
      obtain ⟨m, p, h1, h3, h4, h5⟩ := finish_spec (show 2^F.sigBits ≤ a+1 by lia) haS' hnear hk
      refine ⟨m, p, h1, h3, h4, ?_⟩
      have hhalf : (mantissa+mantissa%2)/2 = a+1 := by lia
      rw [hhalf]
      exact h5

/-- Below the normal range the mantissa is rounded half up. -/
theorem roundSubnormal_spec {F : RawFloat} {x : ℚ} {mantissa n : ℕ} (hn : 1 ≤ n) (hn' : n < 2^30)
    (hm' : mantissa < 2^(F.sigBits+2)) (hlo : mantissa*F.ulp ≤ 2*x*2^n)
    (hhi : 2*x*2^n < (mantissa+1)*F.ulp) :
    ∃ m : ℕ, m ≤ 2^F.sigBits ∧ (2*m-1)*F.ulp ≤ 2*x ∧ 2*x < (2*m+1)*F.ulp ∧
      roundSubnormal F mantissa (1-(n:ℤ)) = some ⟨m, if 2^F.sigBits ≤ m then 1 else 0⟩ := by
  have hS : F.sigBits ≤ 52 := (round_to_even_window F).2.2.2.2.2.2
  have h2S : (2:ℕ)^F.sigBits ≤ 2^52 := Nat.pow_le_pow_right (by norm_num) hS
  have h1S : 1 ≤ 2^F.sigBits := Nat.one_le_two_pow
  have hul := F.ulp_pos
  have hm2 : mantissa < 4*2^F.sigBits := by
    rw [pow_add] at hm'
    lia
  unfold roundSubnormal
  rw [show -(1-(n:ℤ))+1 = n by ring, i32_eq (by lia) (by lia)]
  simp only [Option.bind_eq_bind, Option.bind_some, Option.pure_def]
  have hp : (0:ℚ) < 2^n := by positivity
  by_cases hbig : n < 64
  · rw [if_neg (by lia), shr_eq hbig, Option.bind_some]
    have hz := Nat.div_mul_le_self mantissa (2^n)
    have hz' : mantissa < (mantissa/2^n+1)*2^n := by
      rw [Nat.add_mul, Nat.one_mul]
      exact Nat.lt_div_mul_add (by positivity)
    have hzs : mantissa/2^n < 2*2^F.sigBits := by
      have h2n : 2 ≤ 2^n := by
        calc 2 = 2^1 := by norm_num
          _ ≤ 2^n := Nat.pow_le_pow_right (by norm_num) hn
      rw [Nat.div_lt_iff_lt_mul (by positivity)]
      nlinarith
    have hzQ : ((mantissa/2^n:ℕ):ℚ)*2^n ≤ mantissa := by exact_mod_cast hz
    have hzQ' : (mantissa:ℚ)+1 ≤ ((mantissa/2^n:ℕ)+1)*2^n := by exact_mod_cast hz'
    generalize mantissa/2^n = z at *
    -- `z` is the floor of twice the value
    have hb1 : z*F.ulp ≤ 2*x := by
      have : z*F.ulp*2^n ≤ 2*x*2^n := by
        calc z*F.ulp*2^n = z*2^n*F.ulp := by ring
          _ ≤ mantissa*F.ulp := by gcongr
          _ ≤ 2*x*2^n := hlo
      exact le_of_mul_le_mul_right this hp
    have hb2 : 2*x < (z+1)*F.ulp := by
      have : 2*x*2^n < (z+1)*F.ulp*2^n := by
        calc 2*x*2^n < (mantissa+1)*F.ulp := hhi
          _ ≤ (z+1)*2^n*F.ulp := by gcongr
          _ = (z+1)*F.ulp*2^n := by ring
      exact lt_of_mul_lt_mul_right this hp.le
    refine ⟨(z+z%2)/2, by lia, ?_, ?_, ?_⟩
    · have : 2*(((z+z%2)/2:ℕ):ℚ)-1 ≤ z := by
        have : 2*((z+z%2)/2) ≤ z+1 := by lia
        have : 2*(((z+z%2)/2:ℕ):ℚ) ≤ z+1 := by exact_mod_cast this
        linarith
      nlinarith
    · have : (z:ℚ)+1 ≤ 2*(((z+z%2)/2:ℕ):ℚ)+1 := by
        have : z+1 ≤ 2*((z+z%2)/2)+1 := by lia
        exact_mod_cast this
      nlinarith
    · rw [u64_eq (by lia), shl_eq (by lia) (by lia)]
      simp only [Option.bind_some, Nat.one_mul]
  · rw [if_pos (by lia)]
    refine ⟨0, by lia, ?_, ?_, ?_⟩
    · have h0 : (0:ℚ) ≤ mantissa*F.ulp := by positivity
      have : 0 ≤ x := by nlinarith
      push_cast
      linarith
    · have h64 : (2:ℚ)^64 ≤ 2^n := pow_le_pow_right₀ (by norm_num) (by lia)
      have hmQ : (mantissa:ℚ)+1 ≤ 2^54 := by
        have : mantissa+1 ≤ 2^54 := by lia
        exact_mod_cast this
      have h3 : 2*x*2^n < 1*F.ulp*2^n := by
        calc 2*x*2^n < (mantissa+1)*F.ulp := hhi
          _ ≤ 2^64*F.ulp := by
            apply mul_le_mul_of_nonneg_right _ hul.le
            linarith only [hmQ]
          _ ≤ 2^n*F.ulp := by gcongr
          _ = 1*F.ulp*2^n := by ring
      have := lt_of_mul_lt_mul_right h3 hp.le
      push_cast
      linarith
    · rw [if_neg (by lia)]
      rfl

/-! ## The whole function -/

theorem range_facts (F : RawFloat) :
    smallestPowerOfFive ≤ F.smallestPowerOfTen ∧ F.largestPowerOfTen ≤ largestPowerOfFive ∧
    F.expMin ≤ 0 ∧ -1022 ≤ F.expMin := by
  rw [F.largestPowerOfTen_eq]
  cases F <;> decide

theorem power_bounds {q : ℤ} (hq : smallestPowerOfFive ≤ q) (hq' : q ≤ largestPowerOfFive) :
    power q = some (PowerOfFive.power q+63) ∧ -1140 ≤ PowerOfFive.power q ∧
    PowerOfFive.power q ≤ 1030 := by
  simp only [smallestPowerOfFive, largestPowerOfFive] at hq hq'
  unfold power PowerOfFive.power
  rw [show (152170+65536:ℤ) = 217706 by norm_num, wrapI32_eq (by lia) (by lia)]
  rw [i32_eq (by lia) (by lia)]
  exact ⟨rfl, by lia, by lia⟩

/-- What `compute_float` does after its early returns: give up, round below the
normal range, or round a mantissa that brackets the decimal. -/
inductive Middle (F : RawFloat) (q : ℤ) (w : ℕ) (x : ℚ) : Prop
  | error (hF : F ≠ .f16) (h : computeFloat F q w = some (.zeroPow2 (-1)))
  | subnormal (mantissa n : ℕ) (hn : 1 ≤ n) (hn' : n < 2^30) (hm : mantissa < 2^(F.sigBits+2))
    (hlo : mantissa*F.ulp ≤ 2*x*2^n) (hhi : 2*x*2^n < (mantissa+1)*F.ulp)
    (h : computeFloat F q w = roundSubnormal F mantissa (1-(n:ℤ)))
  | normal (lo hi mantissa s k : ℕ) (hm : 2^(F.sigBits+1) ≤ mantissa)
    (hm' : mantissa < 2^(F.sigBits+2)) (hs : s < 64) (hfit : mantissa*2^s < 2^64) (hk : k < 2^30)
    (hlo : mantissa*2^k*F.ulp ≤ 2*x) (hhi : 2*x < (mantissa+1)*2^k*F.ulp)
    (htie : (2*x = mantissa*2^k*F.ulp ∧ mantissa%4 = 1) ↔ (lo ≤ 1 ∧
      F.minExponentRoundToEven ≤ q ∧ q ≤ F.maxExponentRoundToEven ∧ mantissa%4 = 1 ∧
      mantissa*2^s = hi))
    (h : computeFloat F q w = roundNormal F q lo hi mantissa s (k+1:ℕ))

theorem mantissa_bounds {S hi : ℕ} (hS : S ≤ 52) (hlo : 2^62 ≤ hi) (hhi : hi < 2^64) :
    2^(S+1) ≤ hi/2^(hi/2^63+(61-S)) ∧ hi/2^(hi/2^63+(61-S)) < 2^(S+2) := by
  generalize hu : hi/2^63 = u
  have hu1 : u = 0 ∨ u = 1 := by lia
  have hwindow : 2^(62+u) ≤ hi ∧ hi < 2^(62+u)*2 := by
    rcases hu1 with rfl | rfl <;> lia
  have hpow : 2^(S+1)*2^(u+(61-S)) = 2^(62+u) := by
    rw [← pow_add]
    congr 1
    lia
  constructor
  · rw [Nat.le_div_iff_mul_le (by positivity), hpow]
    exact hwindow.1
  · rw [Nat.div_lt_iff_lt_mul (by positivity), pow_succ 2 (S+1), Nat.mul_right_comm, hpow]
    exact hwindow.2

theorem computeFloat_formula {F : RawFloat} {q : ℤ} {w lo hi : ℕ} (hw0 : 0 < w)
    (hq : F.smallestPowerOfTen ≤ q) (hq' : q ≤ F.largestPowerOfTen) (hlz : leadingZeros w < 64)
    (hW : w*2^leadingZeros w < 2^64) (hhi : hi < 2^64)
    (hprod : computeProductApprox q (w*2^leadingZeros w) (F.sigBits+3) = some (lo, hi)) :
    computeFloat F q w = if lo = 0xFFFFFFFFFFFFFFFF ∧ ¬ (-27 ≤ q ∧ q ≤ 55) then
      some (.zeroPow2 (-1)) else
      if PowerOfFive.power q+63+(hi/2^63:ℕ)-leadingZeros w-F.expMin+1 ≤ 0 then
        roundSubnormal F (hi/2^(hi/2^63+(61-F.sigBits)))
          (PowerOfFive.power q+63+(hi/2^63:ℕ)-leadingZeros w-F.expMin+1)
      else roundNormal F q lo hi (hi/2^(hi/2^63+(61-F.sigBits))) (hi/2^63+(61-F.sigBits):ℕ)
          (PowerOfFive.power q+63+(hi/2^63:ℕ)-leadingZeros w-F.expMin+1) := by
  obtain ⟨hsm, hla, hexp, hexp'⟩ := range_facts F
  obtain ⟨-, -, -, -, -, -, hS⟩ := round_to_even_window F
  obtain ⟨hpow, hpl, hpu⟩ := power_bounds (hsm.trans hq) (hq'.trans hla)
  have h63 : shr hi 63 = some (hi/2^63) := shr_eq (k := 63) (by norm_num)
  have hu1 : hi/2^63 ≤ 1 := by lia
  have hs64 : hi/2^63+(61-F.sigBits) < 64 := by lia
  have hshift : ((hi/2^63:ℕ):ℤ)+64-F.sigBits-3 = (hi/2^63+(61-F.sigBits):ℕ) := by lia
  unfold computeFloat
  simp only [Option.pure_def, Option.bind_eq_bind]
  rw [if_neg (by lia), if_neg (by lia)]
  generalize leadingZeros w = lz at *
  rw [shl_eq hlz hW, Option.bind_some, hprod, Option.bind_some]
  simp only [h63, Option.bind_some, hshift]
  generalize hi/2^63 = u at *
  rw [i32_eq (by lia) (by lia), Option.bind_some, shr_eq hs64, Option.bind_some, hpow,
    Option.bind_some, i32_eq (by lia) (by lia), Option.bind_some]

theorem scaled_bounds {F : RawFloat} {q power2 : ℤ} {w lz m s u : ℕ} (hs : s = u+(61-F.sigBits))
    (hS : F.sigBits ≤ 52) (hpower : PowerOfFive.power q+63+(u:ℤ)-lz-F.expMin+1 = power2)
    (hlo : m*(2:ℚ)^s*2^128 ≤ (w*2^lz:ℕ)*five q) (hhi : (w*2^lz:ℕ)*five q < (m+1)*(2:ℚ)^s*2^128) :
    m*(2^(power2-2)*F.ulp) ≤ (w:ℚ)*10^q ∧ (w:ℚ)*10^q < (m+1)*(2^(power2-2)*F.ulp) ∧
      ((w:ℚ)*10^q = m*(2^(power2-2)*F.ulp) ↔ (w*2^lz:ℕ)*five q = m*(2:ℚ)^s*2^128) := by
  have hc : (0:ℚ) < 2^(PowerOfFive.power q-127-lz) := by positivity
  have hunit : (2:ℚ)^s*2^128*2^(PowerOfFive.power q-127-lz) = 2^(power2-2)*F.ulp := by
    rw [RawFloat.ulp, ← zpow_natCast 2 s, ← zpow_natCast 2 128, ← zpow_add₀ (by norm_num),
      ← zpow_add₀ (by norm_num), ← zpow_add₀ (by norm_num)]
    congr 1
    push_cast
    lia
  have hscaled : ∀ x : ℚ, x*(2^(power2-2)*F.ulp) = x*(2:ℚ)^s*2^128*2^(PowerOfFive.power q-127-lz) := by
    intro x
    rw [← hunit]
    ring
  rw [hscaled, hscaled, decimal_eq q w lz]
  exact ⟨by gcongr, by gcongr, mul_left_inj' hc.ne'⟩

theorem computeFloat_middle (F : RawFloat) {q : ℤ} {w : ℕ} (hw0 : 0 < w) (hw : w < 2^64)
    (hq : F.smallestPowerOfTen ≤ q) (hq' : q ≤ F.largestPowerOfTen) :
    Middle F q w ((w:ℚ)*10^q) := by
  obtain ⟨hsm, hla, hexp, hexp'⟩ := range_facts F
  obtain ⟨hmin, hmin0, hmax0, hmax, -, -, hS⟩ := round_to_even_window F
  obtain ⟨-, hpl, hpu⟩ := power_bounds (hsm.trans hq) (hq'.trans hla)
  obtain ⟨hlz, hW, hW'⟩ := leadingZeros_spec hw0 hw
  obtain ⟨lo, hi, hprod, hp⟩ := computeProductApprox_spec (hsm.trans hq) (hq'.trans hla) hW hW'
    (show F.sigBits+3 < 64 by lia)
  have hcf := computeFloat_formula hw0 hq hq' hlz hW' hp.hi_lt hprod
  generalize leadingZeros w = lz at *
  by_cases herr : lo = 0xFFFFFFFFFFFFFFFF ∧ ¬ (-27 ≤ q ∧ q ≤ 55)
  · rw [if_pos herr] at hcf
    refine .error ?_ hcf
    rintro rfl
    have h4 := RawFloat.largestPowerOfTen_eq .f16
    simp only at h4
    have h27 : RawFloat.f16.smallestPowerOfTen = -27 := rfl
    lia
  rw [if_neg herr] at hcf
  have hwindow : lo = 0xFFFFFFFFFFFFFFFF → -27 ≤ q ∧ q ≤ 55 := by
    intro h
    by_contra hc
    exact herr ⟨h, hc⟩
  have hdiv := mantissa_bounds hS hp.hi_ge hp.hi_lt
  have hu1 : hi/2^63 ≤ 1 := by
    have hhi := hp.hi_lt
    lia
  generalize hi/2^63 = u at *
  generalize hs : u+(61-F.sigBits) = s at *
  generalize hpower : PowerOfFive.power q+63+(u:ℤ)-lz-F.expMin+1 = power2 at *
  have hs64 : s < 64 := by lia
  have hfit : hi/2^s*2^s < 2^64 := (Nat.div_mul_le_self hi (2^s)).trans_lt hp.hi_lt
  obtain ⟨hbl, hbu⟩ := hp.bracket hW' (s := s) (by lia) hwindow
  obtain ⟨hxl, hxu, hxe⟩ := scaled_bounds hs.symm hS hpower hbl hbu
  rcases le_or_gt power2 0 with hle | hgt
  · obtain ⟨n, hn⟩ := Int.eq_ofNat_of_zero_le (show 0 ≤ 1-power2 by lia)
    rw [if_pos hle, show power2 = 1-(n:ℤ) by lia] at hcf
    have hsc : (2:ℚ)*2^n*(2^(power2-2)*F.ulp) = F.ulp := by
      rw [← mul_assoc, ← zpow_natCast 2 n, show (2:ℚ) = 2^(1:ℤ) by norm_num, ← zpow_mul,
        ← zpow_mul, ← zpow_add₀ (by norm_num), ← zpow_add₀ (by norm_num),
        show 1+1*(n:ℤ)+1*(power2-2) = 0 by lia, zpow_zero, one_mul]
    refine .subnormal (hi/2^s) n (by lia) (by lia) hdiv.2 ?_ ?_ hcf
    · calc (hi/2^s:ℕ)*F.ulp = (hi/2^s:ℕ)*(2*2^n*(2^(power2-2)*F.ulp)) := by rw [hsc]
        _ = 2*2^n*((hi/2^s:ℕ)*(2^(power2-2)*F.ulp)) := by ring
        _ ≤ 2*2^n*((w:ℚ)*10^q) := by gcongr
        _ = 2*((w:ℚ)*10^q)*2^n := by ring
    · calc 2*((w:ℚ)*10^q)*2^n = 2*2^n*((w:ℚ)*10^q) := by ring
        _ < 2*2^n*(((hi/2^s:ℕ)+1)*(2^(power2-2)*F.ulp)) := by gcongr
        _ = ((hi/2^s:ℕ)+1)*(2*2^n*(2^(power2-2)*F.ulp)) := by ring
        _ = ((hi/2^s:ℕ)+1)*F.ulp := by rw [hsc]
  · obtain ⟨k, hk⟩ := Int.eq_ofNat_of_zero_le (show 0 ≤ power2-1 by lia)
    rw [if_neg (by lia), show power2 = (k+1:ℕ) by push_cast; lia] at hcf
    have hsc : 2*((2:ℚ)^(power2-2)*F.ulp) = 2^k*F.ulp := by
      rw [← mul_assoc, ← zpow_natCast 2 k, show (k:ℤ) = 1+(power2-2) by lia,
        zpow_add₀ (by norm_num), zpow_one]
    have hxe' : 2*((w:ℚ)*10^q) = (hi/2^s:ℕ)*2^k*F.ulp ↔
        (w*2^lz:ℕ)*five q = (hi/2^s:ℕ)*(2:ℚ)^s*2^128 := by
      rw [← hxe, mul_assoc, ← hsc, mul_left_comm ((hi/2^s:ℕ):ℚ)]
      exact mul_right_inj' two_ne_zero
    refine .normal lo hi (hi/2^s) s k hdiv.1 hdiv.2 hs64 hfit (by lia) ?_ ?_ ?_ hcf
    · rw [mul_assoc, ← hsc]
      linarith only [hxl]
    · rw [mul_assoc, ← hsc]
      linarith only [hxu]
    · rw [hxe']
      constructor
      · rintro ⟨htie, hmod⟩
        obtain ⟨hq1, hq2⟩ := window_of_tie hp hW hW' (by lia) hdiv.1 hdiv.2 htie
        obtain ⟨hlo, hwords⟩ := words_of_tie hp hW hW' (by lia) (by lia) htie
        exact ⟨by lia, hq1, hq2, hmod, hwords⟩
      · rintro ⟨hlo, hq1, hq2, hmod, hwords⟩
        exact ⟨tie_of_words hp hW hW' (by lia) (by lia) (by lia) hlo hwords, hmod⟩

theorem lt_of_small (F : RawFloat) {q : ℤ} {w : ℕ} (hw : w < 2^64)
    (hq : q < F.smallestPowerOfTen) : 2*((w:ℚ)*10^q) < F.ulp := by
  have hwQ : (w:ℚ) < 2^64 := by exact_mod_cast hw
  have h10 : (10:ℚ)^q ≤ 10^(F.smallestPowerOfTen-1) := zpow_le_zpow_right₀ (by norm_num) (by lia)
  have hnum : 2*((2:ℚ)^64*10^(F.smallestPowerOfTen-1)) ≤ F.ulp := by
    -- `2^65` times the power, over a common denominator
    obtain ⟨a, b, ha, hb, hab⟩ : ∃ a b : ℕ, F.smallestPowerOfTen-1 = -(a:ℤ) ∧
        F.expMin-F.sigBits = -(b:ℤ) ∧ 2^65*2^b ≤ 10^a := by
      cases F
      · exact ⟨28, 24, rfl, rfl, by norm_num⟩
      · exact ⟨66, 149, rfl, rfl, by norm_num⟩
      · refine ⟨343, 1074, rfl, rfl, ?_⟩
        calc 2^65*2^1074 = (2^67)^17 := by rw [← pow_mul, ← pow_add]
          _ ≤ (14758*10^16)^17 := Nat.pow_le_pow_left (by norm_num) 17
          _ ≤ 10^71*10^(16*17) := by
            rw [mul_pow, ← pow_mul]
            exact Nat.mul_le_mul_right _ (by norm_num)
          _ = 10^343 := by rw [← pow_add]
    rw [RawFloat.ulp, ha, hb, zpow_neg, zpow_neg, zpow_natCast, zpow_natCast]
    have hab' : (2:ℚ)^65*2^b ≤ 10^a := by exact_mod_cast hab
    rw [← one_div, ← one_div, ← mul_assoc, mul_one_div, div_le_div_iff₀ (by positivity)
      (by positivity), one_mul]
    calc 2*(2:ℚ)^64*2^b = 2^65*2^b := by ring
      _ ≤ 10^a := hab'
  calc 2*((w:ℚ)*10^q) < 2*(2^64*10^q) := by gcongr
    _ ≤ 2*(2^64*10^(F.smallestPowerOfTen-1)) := by gcongr
    _ ≤ F.ulp := hnum

theorem le_of_large (F : RawFloat) {q : ℤ} {w : ℕ} (hw0 : 0 < w)
    (hq : F.largestPowerOfTen < q) : (2:ℚ)^(F.expBias+1) ≤ w*10^q := by
  have hw1 : (1:ℚ) ≤ w := by exact_mod_cast hw0
  have hlog : 2^(F.expBias+1) < 10^(RawFloat.pow2ToPow10 (F.expBias+1)+1) :=
    Nat.lt_pow_succ_log_self (by norm_num) _
  have hle : (10:ℚ)^((RawFloat.pow2ToPow10 (F.expBias+1)+1:ℕ):ℤ) ≤ 10^q :=
    zpow_le_zpow_right₀ (by norm_num) (by
      push_cast
      exact hq)
  rw [zpow_natCast] at hle
  have hlogQ : (2:ℚ)^(F.expBias+1) ≤ 10^(RawFloat.pow2ToPow10 (F.expBias+1)+1) := by
    exact_mod_cast hlog.le
  have hpos : (0:ℚ) < 10^q := by positivity
  nlinarith

/-- The outcomes of `compute_float`: it gives up, which `f16` never needs, or the
fields are those of the nearest pattern, or below the normal range they are
rounded half up unless the nearest pattern is clearly zero. -/
inductive Result (F : RawFloat) (x : ℚ) : BiasedFp → Prop
  | error (hF : F ≠ .f16) : Result F x (.zeroPow2 (-1))
  | fields (m p : ℕ) (hm : m < 2^F.sigBits) (hn : F.Nearest x (p*2^F.sigBits+m))
    (hx : 2^F.sigBits*F.ulp ≤ x ∨ 2*x < F.ulp) :
    Result F x ⟨m, p⟩
  | halfUp (m : ℕ) (hm : m ≤ 2^F.sigBits) (hlo : (2*m-1)*F.ulp ≤ 2*x) (hhi : 2*x < (2*m+1)*F.ulp)
    (hx : x < 2^F.sigBits*F.ulp) :
    Result F x ⟨m, if 2^F.sigBits ≤ m then 1 else 0⟩

theorem computeFloat_result (F : RawFloat) (q : ℤ) {w : ℕ} (hw : w < 2^64) :
    ∃ fp, computeFloat F q w = some fp ∧ Result F ((w:ℚ)*10^q) fp := by
  have hpos : 0 < 2^F.sigBits := by positivity
  by_cases hz : w = 0 ∨ q < F.smallestPowerOfTen
  · have hlt : 2*((w:ℚ)*10^q) < F.ulp := by
      rcases hz with rfl | hq
      · simpa using F.ulp_pos
      · exact lt_of_small F hw hq
    have hn : F.Nearest ((w:ℚ)*10^q) 0 := F.nearest_zero (by positivity) hlt.le
    refine ⟨⟨0, (0:ℕ)⟩, ?_, .fields 0 0 hpos (by simpa using hn) (Or.inr hlt)⟩
    simp only [computeFloat, if_pos hz]
    rfl
  by_cases hl : F.largestPowerOfTen < q
  · have hge := le_of_large F (show 0 < w by lia) hl
    refine ⟨⟨0, F.expSat⟩, ?_, .fields 0 F.expSat hpos (F.nearest_inf hge) (Or.inl ?_)⟩
    · simp only [computeFloat, if_neg hz, if_pos hl]
      rfl
    · calc (2:ℚ)^F.sigBits*F.ulp = 2^F.expMin := F.two_pow_mul_ulp
        _ ≤ 2^((F.expBias+1:ℕ):ℤ) := zpow_le_zpow_right₀ (by norm_num) (by cases F <;> decide)
        _ = 2^(F.expBias+1) := zpow_natCast _ _
        _ ≤ w*10^q := hge
  have hm := computeFloat_middle F (show 0 < w by lia) hw (show _ ≤ q by lia)
    (show q ≤ _ by lia)
  generalize (w:ℚ)*10^q = x at *
  cases hm with
  | error hF h => exact ⟨_, h, .error hF⟩
  | subnormal mantissa n hn hn' hm hlo hhi h =>
    obtain ⟨m, h1, h2, h3, h4⟩ := roundSubnormal_spec hn hn' hm hlo hhi
    refine ⟨_, h.trans h4, .halfUp m h1 h2 h3 ?_⟩
    have h2n : (2:ℚ) ≤ 2^n := by
      calc (2:ℚ) = 2^1 := by norm_num
        _ ≤ 2^n := pow_le_pow_right₀ (by norm_num) hn
    have hmQ : (mantissa:ℚ)+1 ≤ 4*2^F.sigBits := by
      rw [pow_add] at hm
      have : mantissa+1 ≤ 4*2^F.sigBits := by lia
      exact_mod_cast this
    have hul := F.ulp_pos
    by_contra hc
    rw [not_lt] at hc
    have hx0 : 0 ≤ x := hc.trans' (by positivity)
    have h4 : 2*x*2 ≤ 2*x*2^n := by gcongr
    have h5 : (mantissa+1)*F.ulp ≤ 4*2^F.sigBits*F.ulp := by gcongr
    linarith
  | normal lo hi mantissa s k hm hm' hs hfit hk hlo hhi htie h =>
    obtain ⟨m, p, h1, h2, -, h4⟩ := roundNormal_spec hm hm' hs hfit hk hlo hhi htie
    refine ⟨_, h.trans h4, .fields m p h1 h2 (Or.inl ?_)⟩
    have hmQ : 2*(2:ℚ)^F.sigBits ≤ mantissa := by
      rw [pow_succ'] at hm
      exact_mod_cast hm
    have h1k : (1:ℚ) ≤ 2^k := one_le_pow₀ (by norm_num)
    have hul := F.ulp_pos
    have : 2*(2:ℚ)^F.sigBits*1*F.ulp ≤ mantissa*2^k*F.ulp := by gcongr
    linarith

theorem not_subnormal_tie {F : RawFloat} (hF : F ≠ .f16) {q : ℤ} {w m : ℕ} (hw0 : 0 < w)
    (hw : w < 2^64) (hx : (w:ℚ)*10^q < 2^F.sigBits*F.ulp) :
    2*((w:ℚ)*10^q) ≠ (2*m+1)*F.ulp := by
  intro htie
  have hw1 : (1:ℚ) ≤ w := by exact_mod_cast hw0
  have hsmall : (2:ℚ)^F.expMin ≤ 10^(-27:ℤ) := by
    calc (2:ℚ)^F.expMin ≤ 2^(-90:ℤ) := zpow_le_zpow_right₀ (by norm_num) (by
          cases F
          · exact absurd rfl hF
          · decide
          · decide)
      _ ≤ 10^(-27:ℤ) := by norm_num
  rw [F.two_pow_mul_ulp] at hx
  -- the decimal is below `10^-27`, so the power of five does not divide the digits
  have hq : q < -27 := by
    by_contra hge
    have : (10:ℚ)^(-27:ℤ) ≤ 10^q := zpow_le_zpow_right₀ (by norm_num) (by lia)
    have hpos : (0:ℚ) < 10^q := by positivity
    nlinarith
  obtain ⟨p, hp⟩ := Int.eq_ofNat_of_zero_le (show 0 ≤ -q by lia)
  obtain rfl : q = -p := by lia
  obtain ⟨b, hb⟩ := Int.eq_ofNat_of_zero_le (show 0 ≤ -(F.expMin-F.sigBits) by
    have := (range_facts F).2.2.1
    lia)
  have hulp : F.ulp*2^b = 1 := by
    rw [RawFloat.ulp, ← zpow_natCast, ← zpow_add₀ (by norm_num),
      show F.expMin-F.sigBits+(b:ℤ) = 0 by lia, zpow_zero]
  have h10 : (10:ℚ)^(-(p:ℤ))*10^p = 1 := by
    rw [← zpow_natCast, ← zpow_add₀ (by norm_num), neg_add_cancel, zpow_zero]
  have hN : w*2^(b+1) = (2*m+1)*10^p := by
    have : (w:ℚ)*2^(b+1) = (2*m+1)*10^p := by
      rw [pow_succ]
      calc (w:ℚ)*(2^b*2) = 2*(w*10^(-(p:ℤ)))*(2^b*10^p) := by
            linear_combination (-2*(w:ℚ)*2^b)*h10
        _ = (2*m+1)*10^p*(F.ulp*2^b) := by rw [htie]; ring
        _ = (2*m+1)*10^p := by rw [hulp, mul_one]
    exact_mod_cast this
  have hdvd : 5^p ∣ w := by
    apply odd_dvd_of_mul_two_pow (five_pow_odd p) (n := b+1)
    rw [hN, show (10:ℕ) = 5*2 by norm_num, mul_pow]
    exact Dvd.intro_left ((2*m+1)*2^p) (by ring)
  have hle := Nat.le_of_dvd hw0 hdvd
  have h28 : 5^28 ≤ 5^p := Nat.pow_le_pow_right (by norm_num) (by lia)
  have : (2:ℕ)^64 < 5^28 := by norm_num
  lia

theorem nearest_of_halfUp {F : RawFloat} (hF : F ≠ .f16) {q : ℤ} {w m : ℕ} (hw : w < 2^64)
    (hm : m ≤ 2^F.sigBits) (hlo : (2*m-1)*F.ulp ≤ 2*((w:ℚ)*10^q))
    (hhi : 2*((w:ℚ)*10^q) < (2*m+1)*F.ulp) (hx : (w:ℚ)*10^q < 2^F.sigBits*F.ulp) :
    F.Nearest ((w:ℚ)*10^q) m := by
  have hul := F.ulp_pos
  apply F.nearest_half_up hm hlo hhi
  intro htie
  have hm0 : m ≠ 0 := by
    rintro rfl
    have : 0 ≤ (w:ℚ)*10^q := by positivity
    push_cast at htie
    linarith
  obtain ⟨a, rfl⟩ := Nat.exists_eq_succ_of_ne_zero hm0
  exfalso
  apply not_subnormal_tie hF (m := a) _ hw hx
  · rw [htie]
    push_cast
    ring
  · apply Nat.pos_of_ne_zero
    rintro rfl
    push_cast at htie
    have h0 : (0:ℚ) ≤ a := by positivity
    nlinarith

/-- The fields that `compute_float` returns for `f32` and `f64` are those of the
nearest pattern. The least normal float keeps its hidden bit in the mantissa when
the decimal itself is below it. -/
theorem computeFloat_correct (F : RawFloat) (hF : F ≠ .f16) (q : ℤ) (w : ℕ) (hw : w < 2^64) :
    ∃ fp, computeFloat F q w = some fp ∧ (0 ≤ fp.pBiased →
      ∃ n, F.Nearest ((w:ℚ)*10^q) n ∧ fp.pBiased = (n/2^F.sigBits:ℕ) ∧
        fp.m = if n = 2^F.sigBits ∧ (w:ℚ)*10^q < 2^F.expMin then 2^F.sigBits
          else n%2^F.sigBits) := by
  have hpos : 0 < 2^F.sigBits := by positivity
  have hnorm := F.two_pow_mul_ulp
  obtain ⟨fp, h, hr⟩ := computeFloat_result F q hw
  refine ⟨fp, h, fun hp => ?_⟩
  cases hr with
  | error => exact absurd hp (by decide)
  | fields m p hm hn hx =>
    refine ⟨p*2^F.sigBits+m, hn, ?_, ?_⟩
    · rw [Nat.mul_comm, Nat.mul_add_div hpos, Nat.div_eq_of_lt hm, Nat.add_zero]
    · rw [if_neg]
      · rw [Nat.mul_add_mod', Nat.mod_eq_of_lt hm]
      · rintro ⟨hn', hlt⟩
        rw [← hnorm] at hlt
        rcases hx with hx | hx
        · exact hx.not_gt hlt
        · have := hn.unique (F.nearest_zero (by positivity) hx.le)
          lia
  | halfUp m hm hlo hhi hx =>
    have hnear := nearest_of_halfUp hF hw hm hlo hhi hx
    refine ⟨m, hnear, ?_, ?_⟩
    · rcases hm.lt_or_eq with hlt | heq
      · rw [if_neg (by lia), Nat.div_eq_of_lt hlt]
        rfl
      · rw [if_pos heq.ge, heq, Nat.div_self hpos]
        rfl
    · rw [hnorm] at hx
      change m = _
      rcases hm.lt_or_eq with hlt | heq
      · rw [if_neg (by lia), Nat.mod_eq_of_lt hlt]
      · rw [if_pos ⟨heq, hx⟩]
        exact heq

theorem computeFloat_correct_least_normal :
    ∃ fp, computeFloat .f64 (-326) 2225073858507201383 = some fp ∧ (0 ≤ fp.pBiased →
      ∃ n, RawFloat.f64.Nearest ((2225073858507201383:ℕ)*10^(-326:ℤ)) n ∧
        fp.pBiased = (n/2^RawFloat.f64.sigBits:ℕ) ∧
        fp.m = if n = 2^RawFloat.f64.sigBits ∧
            ((2225073858507201383:ℕ):ℚ)*10^(-326:ℤ) < 2^RawFloat.f64.expMin
          then 2^RawFloat.f64.sigBits else n%2^RawFloat.f64.sigBits) :=
  computeFloat_correct .f64 (by decide) (-326) 2225073858507201383 (by norm_num)

set_option maxRecDepth 20000 in
/-- The carry out of the subnormal range leaves the hidden bit in the mantissa,
which is then not the mantissa field of any pattern. -/
theorem computeFloat_keeps_hidden_bit :
    computeFloat .f64 (-326) 2225073858507201383 = some ⟨2^52, 1⟩ ∧
    ¬ ∃ n, RawFloat.f64.Nearest ((2225073858507201383:ℕ)*10^(-326:ℤ)) n ∧
      2^52 = n%2^RawFloat.f64.sigBits ∧ (1:ℤ) = (n/2^RawFloat.f64.sigBits:ℕ) := by
  constructor
  · decide
  · rintro ⟨n, -, hm, -⟩
    have : n%2^RawFloat.f64.sigBits < 2^52 := Nat.mod_lt n (by decide)
    lia

end RustStd.Lemire
