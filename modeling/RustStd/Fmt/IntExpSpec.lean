import RustStd.Fmt.IntExp

/-!
# The scientific notation is exact or rounded to even

The coefficient and the exponent have the value of the number, or of the nearest
number with as many digits as the precision asks for. The buffer then holds the
digits of the coefficient and of the exponent.
-/

set_option autoImplicit false

namespace RustStd.IntFmt
open RustStd.Checked RustStd.Radix

/-- `m` units are nearest to the number; half way between two it is the even one. -/
def HalfEven (n unit m : ℕ) : Prop :=
  2*n ≤ 2*(m*unit)+unit ∧ 2*(m*unit) ≤ 2*n+unit ∧
    (2*n = 2*(m*unit)+unit ∨ 2*(m*unit) = 2*n+unit → m%2 = 0)

/-- What is printed with the precision `p` in place of `n`. -/
def RoundedTo (n p r : ℕ) : Prop :=
  if p < ilog10 n then ∃ m, HalfEven n (10^(ilog10 n-p)) m ∧ r = m*10^(ilog10 n-p) else r = n

/-! ## The coefficient -/

theorem unsigned_eq {w n : ℕ} (h : n < 2^w) : unsigned w n = some n := if_pos h

theorem assertUnchecked_pos {c : Prop} [Decidable c] (h : c) : assertUnchecked c = some () := if_pos h

theorem pow_ilog10_le {n : ℕ} (h : n ≠ 0) : 10^ilog10 n ≤ n := Nat.pow_log_le_self 10 h

theorem lt_pow_ilog10 (n : ℕ) : n < 10^(ilog10 n+1) := Nat.lt_pow_succ_log_self (by norm_num) n

/-- The coefficient has a single digit before the point, which is zero only for zero. -/
structure Coefficient.Single (c : Coefficient) : Prop where
  lt : c.coef < 10^(c.coefPrec+1)
  le : c.coef = 0 ∨ 10^c.coefPrec ≤ c.coef

theorem omitZeroes_spec {coef k : ℕ} (hlt : coef < 10^(k+1)) (hle : coef = 0 ∨ 10^k ≤ coef) :
    ∃ coef' k', omitZeroes coef k = (coef', k') ∧ k' ≤ k ∧ coef'*10^k = coef*10^k' ∧
      coef' < 10^(k'+1) ∧ (coef' = 0 ∨ 10^k' ≤ coef') ∧ (coef' = 0 → coef = 0) ∧
      (k' = 0 ∨ coef'%10 ≠ 0) := by
  induction k generalizing coef with
  | zero => exact ⟨coef, 0, rfl, le_rfl, rfl, hlt, hle, id, .inl rfl⟩
  | succ k ih =>
    rw [omitZeroes]
    split
    · next h0 =>
      have hlt' : coef/10 < 10^(k+1) := by
        rw [Nat.div_lt_iff_lt_mul (by norm_num), ← pow_succ]
        exact hlt
      have hle' : coef/10 = 0 ∨ 10^k ≤ coef/10 := by
        rcases hle with rfl | hle
        · exact .inl rfl
        · right
          rw [Nat.le_div_iff_mul_le (by norm_num), ← pow_succ]
          exact hle
      obtain ⟨coef', k', heq, hk, hval, hlt'', hle'', hzero, hlast⟩ := ih hlt' hle'
      refine ⟨coef', k', heq, by lia, ?_, hlt'', hle'', fun h => ?_, hlast⟩
      · calc coef'*10^(k+1) = coef'*10^k*10 := by ring
          _ = coef/10*10*10^k' := by
            rw [hval]
            ring
          _ = coef*10^k' := by rw [Nat.div_mul_cancel (Nat.dvd_of_mod_eq_zero h0)]
      · have := hzero h
        lia
    · next h0 => exact ⟨coef, k+1, rfl, le_rfl, rfl, hlt, hle, id, .inr h0⟩

theorem roundUp_spec {n half : ℕ} (hpos : 0 < half) :
    HalfEven n (2*half) (n/(2*half)+roundUp (n/(2*half)) (n%(2*half)) half) ∧
      roundUp (n/(2*half)) (n%(2*half)) half ≤ 1 := by
  have hdiv := Nat.div_add_mod n (2*half)
  have hmod : n%(2*half) < 2*half := Nat.mod_lt _ (by lia)
  generalize n/(2*half) = floor at *
  generalize n%(2*half) = overScale at *
  have hcomm : 2*half*floor = floor*(2*half) := mul_comm _ _
  have hone : (floor+1)*(2*half) = floor*(2*half)+2*half := by ring
  have hand : floor &&& 1 = floor%2 := Nat.and_one_is_mod floor
  rw [roundUp]
  split
  · rw [Nat.add_zero]
    refine ⟨⟨by lia, by lia, by lia⟩, by lia⟩
  · split
    · rw [HalfEven, hone]
      refine ⟨⟨by lia, by lia, by lia⟩, le_rfl⟩
    · rw [hand]
      rcases Nat.mod_two_eq_zero_or_one floor with h | h
      · rw [h, Nat.add_zero]
        refine ⟨⟨by lia, by lia, fun _ => h⟩, by lia⟩
      · rw [h, HalfEven, hone]
        refine ⟨⟨by lia, by lia, by lia⟩, le_rfl⟩

/-- What a coefficient with its exponent stands for, for a precision. -/
structure Coefficient.Prints (c : Coefficient) (precision : Option ℕ) (n : ℕ) : Prop extends
    c.Single where
  zero : c.coef = 0 → n = 0
  prec : c.coefPrec ≤ ilog10 n
  exp : c.exp ≤ ilog10 n+1
  exact : precision = none → c.coef*10^c.exp = n*10^c.coefPrec ∧ c.morePrec = 0 ∧
    (c.coefPrec = 0 ∨ c.coef%10 ≠ 0)
  rounded : ∀ p, precision = some p → c.coefPrec+c.morePrec = p ∧
    ∃ r, RoundedTo n p r ∧ c.coef*10^c.exp = r*10^c.coefPrec

theorem lowerCoef_spec {bits r m p exp : ℕ} (hr : r = 0 → m < 10^(p+1)) (hm : m ≤ 10^(p+1))
    (hm' : 10^p ≤ m) (hbits : 10^(p+1) < 2^bits) :
    ∃ coef' exp', lowerCoef bits r m p exp = some (coef', exp') ∧ coef' < 10^(p+1) ∧
      10^p ≤ coef' ∧ exp' ≤ exp+1 ∧ coef'*10^exp' = m*10^exp := by
  have hpos : 0 < 10^p := by positivity
  rw [lowerCoef]
  split
  · next h =>
    have hge : 10^(p+1) ≤ m := (Nat.pow_le_pow_right (by norm_num) h.2).trans
      (pow_ilog10_le (by lia))
    obtain rfl : m = 10^(p+1) := by lia
    have hdiv : 10^(p+1)/10 = 10^p := by
      rw [pow_succ, Nat.mul_div_cancel _ (by norm_num)]
    refine ⟨10^p, exp+1, ?_, ?_, le_rfl, le_rfl, ?_⟩
    · simp only [unsigned_eq hbits, assertUnchecked_pos, Option.bind_eq_bind, Option.bind_some, hdiv]
      rfl
    · exact Nat.pow_lt_pow_right (by norm_num) (by lia)
    · ring
  · next h =>
    refine ⟨m, exp, rfl, ?_, hm', by lia, rfl⟩
    by_contra hge
    apply h
    constructor
    · intro h0
      exact hge (hr h0)
    · exact Nat.lt_of_lt_of_le (Nat.lt_succ_self p) (Nat.le_log_of_pow_le (by norm_num) (by lia))

theorem dropDigits_spec {bits n p : ℕ} (hn : n < 2^bits) (hp : p < ilog10 n) :
    ∃ c, dropDigits bits n (ilog10 n) (ilog10 n) p = some c ∧ c.Prints (some p) n := by
  have hn0 : n ≠ 0 := by
    rintro rfl
    simp [ilog10] at hp
  have hlo := pow_ilog10_le hn0
  have hhi := lt_pow_ilog10 n
  obtain ⟨k, hk⟩ : ∃ k, ilog10 n-p = k+1 := Nat.exists_eq_add_of_le' (by lia)
  have hscale : 10^(ilog10 n-p) = 2*(5*10^k) := by
    rw [hk]
    ring
  have hsplit : 10^ilog10 n = 10^p*10^(ilog10 n-p) := by
    rw [← pow_add]
    congr 1
    lia
  have hscaleLe : 10^(ilog10 n-p) ≤ 10^ilog10 n := Nat.pow_le_pow_right (by norm_num) (by lia)
  have hsucc : 10^(p+1) ≤ 10^ilog10 n := Nat.pow_le_pow_right (by norm_num) hp
  obtain ⟨hhalf, hone⟩ := roundUp_spec (n := n) (show 0 < 5*10^k by positivity)
  rw [← hscale] at hhalf hone
  have hfloor : 10^p ≤ n/10^(ilog10 n-p) := by
    rw [Nat.le_div_iff_mul_le (by positivity), ← hsplit]
    exact hlo
  have hfloor' : n/10^(ilog10 n-p) < 10^(p+1) := by
    rw [Nat.div_lt_iff_lt_mul (by positivity), ← pow_add]
    convert hhi using 2
    lia
  have hhalfEq : 10^(ilog10 n-p)/2 = 5*10^k := by
    rw [hscale, Nat.mul_div_cancel_left _ (by norm_num)]
  generalize hfloorEq : n/10^(ilog10 n-p) = floor at *
  generalize hr : roundUp floor (n%10^(ilog10 n-p)) (5*10^k) = r at *
  obtain ⟨coef', exp', hlower, hlt, hle, hexp, hval⟩ := @lowerCoef_spec bits r
    (floor+r) p (ilog10 n) (by lia) (by lia) (by lia) (by lia)
  refine ⟨⟨coef', p, exp', 0⟩, ?_, ⟨⟨hlt, .inr hle⟩, ?_, hp.le, hexp, ?_, ?_⟩⟩
  · simp only [dropDigits, sub_eq hp.le, assertUnchecked_pos (show ilog10 n-p > 0 by lia),
      unsigned_eq (show 10^(ilog10 n-p) < 2^bits by lia), hfloorEq, hhalfEq, hr,
      unsigned_eq (show floor+r < 2^bits by lia), hlower, Option.bind_eq_bind, Option.bind_some]
    rfl
  · intro h
    have : 0 < 10^p := by positivity
    simp only at h
    lia
  · intro h
    cases h
  · intro q hq
    obtain rfl : p = q := Option.some.inj hq
    refine ⟨rfl, (floor+r)*10^(ilog10 n-p), ?_, ?_⟩
    · rw [RoundedTo, if_pos hp]
      exact ⟨floor+r, hhalf, rfl⟩
    · simp only
      rw [hval, hsplit]
      ring

theorem coefficient_spec {bits n : ℕ} (hn : n < 2^bits) (hbits : 0 < bits) (precision : Option ℕ) :
    ∃ c, coefficient bits precision n = some c ∧ c.Prints precision n := by
  have hhi := lt_pow_ilog10 n
  have hpow : 10^ilog10 n < 2^bits := by
    by_cases h0 : n = 0
    · subst h0
      have : ilog10 0 = 0 := Nat.log_zero_right 10
      rw [this, pow_zero]
      exact Nat.one_lt_two_pow (by lia)
    · exact (pow_ilog10_le h0).trans_lt hn
  have hten : n/10^ilog10 n < 10 := by
    rw [Nat.div_lt_iff_lt_mul (by positivity), ← pow_succ']
    exact hhi
  have hle : n = 0 ∨ 10^ilog10 n ≤ n := by
    by_cases h0 : n = 0
    · exact .inl h0
    · exact .inr (pow_ilog10_le h0)
  simp only [coefficient, unsigned_eq hpow, assertUnchecked_pos hten, Option.bind_eq_bind,
    Option.bind_some]
  cases precision with
  | none =>
    obtain ⟨coef', k', heq, hk, hval, hlt', hle', hzero, hlast⟩ := omitZeroes_spec hhi hle
    refine ⟨⟨coef', k', ilog10 n, 0⟩, by rw [heq]; rfl, ⟨⟨hlt', hle'⟩, hzero, hk, by simp, ?_, ?_⟩⟩
    · exact fun _ => ⟨hval, rfl, hlast⟩
    · intro p hp
      cases hp
  | some p =>
    simp only
    split
    · next h =>
      refine ⟨⟨n, ilog10 n, ilog10 n, p-ilog10 n⟩, rfl, ⟨⟨hhi, hle⟩, id, le_rfl, by simp, ?_, ?_⟩⟩
      · intro hp
        cases hp
      · intro q hq
        obtain rfl : p = q := Option.some.inj hq
        refine ⟨by simp only; lia, n, ?_, rfl⟩
        rw [RoundedTo, if_neg (by lia)]
    · next h => exact dropDigits_spec hn (by lia)

/-! ## The buffer -/

theorem dec_eq (d : ℕ) : 48+UInt8.ofNat d = dec d := by rw [dec, UInt8.ofNat_add]; rfl

def written (text : List UInt8) : Buf := text.map some

theorem stepBy2_range (k : ℕ) : stepBy2 ((List.range' 2 (k+2)).drop 1).reverse =
    (k+3) :: stepBy2 ((List.range' 2 k).drop 1).reverse := by
  cases k with
  | zero => rfl
  | succ k =>
    have hlong : (List.range' 2 (k+1+2)).drop 1 = List.range' 3 k ++ [3+k, 4+k] := by
      rw [List.range'_succ, List.drop_one, List.tail_cons, show k+1+1 = k+2 by lia,
        ← List.range'_append_1]
      simp [List.range'_succ]
      lia
    have hshort : (List.range' 2 (k+1)).drop 1 = List.range' 3 k := by
      rw [List.range'_succ, List.drop_one, List.tail_cons]
    rw [hlong, hshort]
    simp [stepBy2]
    lia

theorem fractionPairs_spec (front gap tail : Buf) (remain : ℕ) (hfront : front.length = 2) :
    ∃ rest : Buf, rest.length = gap.length%2 ∧
      fractionPairs (stepBy2 ((List.range' 2 gap.length).drop 1).reverse) (front ++ gap ++ tail)
          remain =
        some (front ++ rest ++ (written ((lowDigits 10 (gap.length/2*2) remain).map dec) ++ tail),
          remain/10^(gap.length/2*2)) := by
  generalize hlen : gap.length = k
  induction k using Nat.twoStepInduction generalizing gap tail remain with
  | zero =>
    obtain rfl := List.length_eq_zero_iff.mp hlen
    exact ⟨[], rfl, by simp [fractionPairs, stepBy2, lowDigits, written]⟩
  | one => exact ⟨gap, hlen, by simp [fractionPairs, stepBy2, lowDigits, written]⟩
  | more k ih _ =>
    obtain ⟨gap, pair, rfl, hgap, hpair⟩ := exists_gap hlen
    obtain ⟨x, y, rfl⟩ := List.length_eq_two.mp hpair
    obtain ⟨rest, hrest, hrun⟩ :=
      ih gap (written ((lowDigits 10 2 remain).map dec) ++ tail) (remain/100) hgap
    have hwrite := writePair_append (remain%100) (Nat.mod_lt _ (by norm_num)) (front ++ gap) x y tail
    have hoffset : (front ++ gap).length = k+2 := by
      rw [List.length_append, hfront, hgap]
      lia
    rw [hoffset] at hwrite
    refine ⟨rest, by lia, ?_⟩
    have hbuf : front ++ (gap ++ [x, y]) ++ tail = front ++ gap ++ x :: y :: tail := by simp
    have hpairs : front ++ gap ++ (some (dec (remain%100/10)) :: some (dec (remain%100%10)) :: tail) =
        front ++ gap ++ (written ((lowDigits 10 2 remain).map dec) ++ tail) := by
      rw [lowDigits_two]
      rfl
    have hdigits : lowDigits 10 (k/2*2) (remain/100) ++ lowDigits 10 2 remain =
        lowDigits 10 ((k+2)/2*2) remain := by
      rw [show (k+2)/2*2 = k/2*2+2 by lia, lowDigits_add]
      norm_num
    rw [stepBy2_range, fractionPairs, hbuf]
    simp only [sub_eq (show 1 ≤ k+3 by lia), show k+3-1 = k+2 by lia, hwrite, hpairs, hrun,
      Option.bind_eq_bind, Option.bind_some]
    rw [← hdigits, show (k+2)/2*2 = 2+k/2*2 by lia, Nat.div_div_eq_div_mul, pow_add]
    simp [written]

theorem oddDigit_spec (front rest tail : Buf) (remain k : ℕ) (hfront : front.length = 2)
    (hrest : rest.length = k%2) :
    oddDigit (front ++ rest ++ tail) k remain =
      some (front ++ (written ((lowDigits 10 (k%2) remain).map dec) ++ tail), remain/10^(k%2)) := by
  rw [oddDigit, Nat.and_one_is_mod]
  rcases Nat.mod_two_eq_zero_or_one k with h | h
  · rw [h] at hrest ⊢
    obtain rfl := List.length_eq_zero_iff.mp hrest
    simp [lowDigits, written]
  · rw [h] at hrest ⊢
    obtain ⟨x, rfl⟩ := List.length_eq_one_iff.mp hrest
    have hwrite := writeAt_append front x tail (dec (remain%10))
    rw [hfront] at hwrite
    have hbuf : front ++ [x] ++ tail = front ++ x :: tail := by simp
    simp only [ne_eq, one_ne_zero, not_false_eq_true, if_true, hbuf, dec_eq, hwrite,
      Option.bind_eq_bind, Option.bind_some]
    simp [lowDigits, written]

theorem fractionDigits_spec (front gap tail : Buf) (remain : ℕ) (hfront : front.length = 2) :
    fractionDigits (List.range' 2 gap.length).reverse (front ++ gap ++ tail) remain =
      some (front ++ (written ((lowDigits 10 gap.length remain).map dec) ++ tail),
        remain/10^gap.length) := by
  generalize hlen : gap.length = k
  induction k generalizing gap tail remain with
  | zero =>
    obtain rfl := List.length_eq_zero_iff.mp hlen
    simp [fractionDigits, lowDigits, written]
  | succ k ih =>
    obtain ⟨gap, last, rfl, hgap, hlast⟩ := exists_gap hlen
    obtain ⟨x, rfl⟩ := List.length_eq_one_iff.mp hlast
    have hwrite := writeAt_append (front ++ gap) x tail (dec (remain%10))
    have hoffset : (front ++ gap).length = 2+k := by rw [List.length_append, hfront, hgap]
    rw [hoffset] at hwrite
    have hbuf : front ++ (gap ++ [x]) ++ tail = front ++ gap ++ x :: tail := by simp
    have hdigits : lowDigits 10 k (remain/10) ++ [remain%10] = lowDigits 10 (k+1) remain := by
      rw [lowDigits_add]
      simp [lowDigits]
    have hrange : (List.range' 2 (k+1)).reverse = (2+k) :: (List.range' 2 k).reverse := by
      rw [← List.range'_append_1, List.reverse_append]
      rfl
    rw [hrange, fractionDigits, hbuf]
    simp only [dec_eq, hwrite, ih gap (some (dec (remain%10)) :: tail) (remain/10) hgap,
      Option.bind_eq_bind, Option.bind_some]
    rw [← hdigits, Nat.div_div_eq_div_mul, pow_succ']
    simp [written]

theorem fraction_spec (small : Bool) (front gap tail : Buf) (coef : ℕ) (hfront : front.length = 2) :
    fraction small (front ++ gap ++ tail) gap.length coef =
      some (front ++ (written ((lowDigits 10 gap.length coef).map dec) ++ tail),
        coef/10^gap.length) := by
  rw [fraction]
  cases small with
  | true => exact fractionDigits_spec front gap tail coef hfront
  | false =>
    obtain ⟨rest, hrest, hrun⟩ := fractionPairs_spec front gap tail coef hfront
    have hodd := oddDigit_spec front rest
      (written ((lowDigits 10 (gap.length/2*2) coef).map dec) ++ tail) (coef/10^(gap.length/2*2))
      gap.length hfront hrest
    have hdigits : lowDigits 10 (gap.length%2) (coef/10^(gap.length/2*2)) ++
        lowDigits 10 (gap.length/2*2) coef = lowDigits 10 gap.length coef := by
      rw [← lowDigits_add]
      congr 1
      lia
    have hpow : 10^(gap.length/2*2)*10^(gap.length%2) = 10^gap.length := by
      rw [← pow_add]
      congr 1
      lia
    simp only [Bool.false_eq_true, if_false, hrun, hodd, Option.bind_eq_bind, Option.bind_some]
    rw [← hdigits, Nat.div_div_eq_div_mul, hpow]
    simp [written]

/-! ## The text -/

def Coefficient.lead (c : Coefficient) : ℕ := c.coef/10^c.coefPrec

/-- The point and the digits behind it, without the zeros that are added later. -/
def Coefficient.decimals (c : Coefficient) : List UInt8 :=
  if c.coefPrec = 0 ∧ c.morePrec = 0 then [] else 46 :: (lowDigits 10 c.coefPrec c.coef).map dec

theorem Coefficient.Single.lead_lt {c : Coefficient} (h : c.Single) : c.lead < 10 := by
  rw [Coefficient.lead, Nat.div_lt_iff_lt_mul (by positivity), ← pow_succ']
  exact h.lt

theorem Coefficient.Single.coef_eq_zero {c : Coefficient} (h : c.Single) (h0 : c.lead = 0) :
    c.coef = 0 := by
  rcases h.le with hzero | hpos
  · exact hzero
  · have := Nat.div_pos hpos (by positivity)
    rw [Coefficient.lead] at h0
    lia

theorem Coefficient.length_decimals (c : Coefficient) : c.decimals.length ≤ c.coefPrec+1 := by
  rw [decimals]
  split
  · simp
  · simp

theorem encodeFraction_spec (small : Bool) (c : Coefficient) {len : ℕ} (hlen : c.coefPrec+2 ≤ len) :
    ∃ (x : Option UInt8) (tail : Buf), tail.length+c.decimals.length+1 = len ∧
      encodeFraction small (uninit len) c =
        some (x :: (written c.decimals ++ tail), c.lead, c.decimals.length+1) := by
  obtain ⟨k, rfl⟩ := Nat.exists_eq_add_of_le hlen
  rw [encodeFraction, Coefficient.decimals]
  split
  · next h =>
    refine ⟨none, uninit (c.coefPrec+1+k), by simp [uninit]; lia, ?_⟩
    simp only [Coefficient.lead, h.1, pow_zero, Nat.div_one, written, List.map_nil, List.nil_append]
    rw [uninit, show 0+2+k = 0+1+k+1 by lia, List.replicate_succ]
    rfl
  · have hbuf : writeAt (uninit (c.coefPrec+2+k)) 1 46 =
        some ([none, some 46] ++ List.replicate c.coefPrec none ++ List.replicate k none) := by
      have hsplit : uninit (c.coefPrec+2+k) =
          [none] ++ none :: (List.replicate c.coefPrec none ++ List.replicate k none) := by
        rw [uninit, List.replicate_append_replicate, show c.coefPrec+2+k = c.coefPrec+k+1+1 by lia,
          List.replicate_succ, List.replicate_succ]
        rfl
      have := writeAt_append [none] none
        (List.replicate c.coefPrec none ++ List.replicate k none) 46
      rw [hsplit]
      exact this
    have hfraction := fraction_spec small [none, some 46] (List.replicate c.coefPrec none)
      (List.replicate k none) c.coef rfl
    rw [List.length_replicate] at hfraction
    refine ⟨none, List.replicate k none, by simp; lia, ?_⟩
    simp only [hbuf, hfraction, Option.bind_eq_bind, Option.bind_some, Coefficient.lead]
    simp [written]
    lia

theorem digits_of_lt {n : ℕ} (h : n < 10) : digits 10 n = [n] := by
  rw [digits, Nat.log_of_lt h]
  simp [lowDigits]
  lia

theorem digits_of_ge {n : ℕ} (h : 10 ≤ n) (h' : n < 100) : digits 10 n = [n/10, n%10] := by
  rw [digits_eq (k := 1) (by norm_num) (.inl (by lia)) (by lia)]
  simp [lowDigits]
  lia

theorem encodeExp_spec (small : Bool) (front rest : Buf) (y z : Option UInt8) (coefLen n : ℕ)
    (hfront : front.length = coefLen+1) (hn : n < 100) :
    ∃ rest', encodeExp small (front ++ y :: z :: rest) coefLen n =
      some (front ++ (written ((digits 10 n).map dec) ++ rest'),
        coefLen+1+(digits 10 n).length) := by
  rw [encodeExp]
  split
  · next h =>
    have hwrite := writeAt_append front y (z :: rest) (dec n)
    rw [hfront] at hwrite
    refine ⟨z :: rest, ?_⟩
    simp only [dec_eq, hwrite, digits_of_lt h, Option.bind_eq_bind, Option.bind_some]
    rfl
  · next h =>
    rw [digits_of_ge (by lia) hn]
    refine ⟨rest, ?_⟩
    cases small with
    | true =>
      have hfst := writeAt_append front y (z :: rest) (dec (n/10))
      have hsnd := writeAt_append (front ++ [some (dec (n/10))]) z rest (dec (n%10))
      rw [List.length_append, List.length_singleton, List.append_assoc, List.singleton_append,
        List.append_assoc, List.singleton_append, hfront] at hsnd
      rw [hfront] at hfst
      simp only [if_true, dec_eq, hfst, hsnd, Option.bind_eq_bind, Option.bind_some]
      rfl
    | false =>
      have hpair := writePair_append n hn front y z rest
      rw [hfront] at hpair
      simp only [Bool.false_eq_true, if_false, hpair, Option.bind_eq_bind, Option.bind_some]
      rfl

theorem maxDec_le {bits : ℕ} (h : bits ≤ 128) : maxDec bits ≤ 39 := by
  have hlt : 2^bits-1 < 10^39 := by
    calc 2^bits-1 < 2^bits := Nat.sub_lt (by positivity) (by norm_num)
      _ ≤ 2^128 := Nat.pow_le_pow_right (by norm_num) h
      _ < 10^39 := by norm_num
  have := Nat.log_lt_of_lt_pow' (by norm_num : 39 ≠ 0) hlt
  rw [maxDec, ilog10]
  lia

/-- The buffer has room for the text, all of which is written. -/
theorem encode_spec {bits n : ℕ} (small : Bool) (letterE : UInt8) {c : Coefficient}
    {precision : Option ℕ} (hc : c.Prints precision n) (hn : n < 2^bits) (hbits : bits ≤ 128) :
    encode bits small letterE c =
      some (dec c.lead :: (c.decimals ++ letterE :: (digits 10 c.exp).map dec),
        c.decimals.length+1) := by
  have hmax : ilog10 n+1 ≤ maxDec bits := by
    rw [maxDec]
    exact Nat.succ_le_succ (Nat.log_mono_right (by lia))
  have hprec := hc.prec
  have hexp := hc.exp
  have hdec := c.length_decimals
  have hle := maxDec_le hbits
  have hcoefLen : c.decimals.length+1 ≤ maxCoefLen bits := by
    rw [maxCoefLen]
    lia
  have hlead : c.lead < 10 := hc.lead_lt
  have hlead' : c.lead ≠ 0 ∨ c.coef = 0 := by
    by_cases h0 : c.lead = 0
    · exact .inr (hc.coef_eq_zero h0)
    · exact .inl h0
  obtain ⟨x, tail, htail, hfraction⟩ := encodeFraction_spec small c
    (show c.coefPrec+2 ≤ maxTextLen bits by rw [maxTextLen, maxCoefLen]; lia)
  obtain ⟨a, b, b', rest, rfl⟩ : ∃ a b b' rest, tail = a :: b :: b' :: rest := by
    have hthree : 3 ≤ tail.length := by
      rw [maxTextLen] at htail
      lia
    match tail, hthree with
    | a :: b :: b' :: rest, _ => exact ⟨a, b, b', rest, rfl⟩
  have hwrite0 := writeAt_append [] x (written c.decimals ++ a :: b :: b' :: rest) (dec c.lead)
  have hwriteE := writeAt_append (written (dec c.lead :: c.decimals)) a (b :: b' :: rest) letterE
  have hlen : (written (dec c.lead :: c.decimals)).length = c.decimals.length+1 := by simp [written]
  rw [hlen] at hwriteE
  obtain ⟨rest', hexpRun⟩ := encodeExp_spec small
    (written (dec c.lead :: (c.decimals ++ [letterE]))) rest b b'
    (c.decimals.length+1) c.exp (by simp [written]) (by lia)
  have hbuf0 : [] ++ some (dec c.lead) :: (written c.decimals ++ a :: b :: b' :: rest) =
      written (dec c.lead :: c.decimals) ++ a :: b :: b' :: rest := by simp [written]
  have hbufE : written (dec c.lead :: c.decimals) ++ some letterE :: b :: b' :: rest =
      written (dec c.lead :: (c.decimals ++ [letterE])) ++ b :: b' :: rest := by simp [written]
  rw [List.length_nil, List.nil_append, hbuf0] at hwrite0
  rw [hbufE] at hwriteE
  have hfinal : written (dec c.lead :: (c.decimals ++ [letterE])) ++
      (written ((digits 10 c.exp).map dec) ++ rest') =
      written (dec c.lead :: (c.decimals ++ letterE :: (digits 10 c.exp).map dec)) ++ rest' := by
    simp [written]
  have htextLen : c.decimals.length+1+1+(digits 10 c.exp).length =
      (written (dec c.lead :: (c.decimals ++ letterE :: (digits 10 c.exp).map dec))).length := by
    simp [written]
    lia
  rw [hfinal, htextLen] at hexpRun
  simp only [encode, hfraction, assertUnchecked_pos hlead, assertUnchecked_pos hlead', dec_eq, hwrite0,
    assertUnchecked_pos hcoefLen, hwriteE, hexpRun, Option.bind_eq_bind, Option.bind_some]
  rw [assertUnchecked_pos (by simp), Option.bind_some, List.take_left, written, mapM_some,
    Option.bind_some]
  rfl

theorem writeZeroes_eq {fuel nzeroes : ℕ} (h : nzeroes < fuel) :
    writeZeroes fuel nzeroes = some (List.replicate nzeroes 48) := by
  induction fuel generalizing nzeroes with
  | zero => lia
  | succ fuel ih =>
    simp only [writeZeroes, List.length_replicate]
    split
    · next hmany =>
      rw [ih (by lia), Option.bind_eq_bind, Option.bind_some]
      simp only [Option.pure_def, Option.some.injEq]
      rw [List.replicate_append_replicate, show 64+(nzeroes-64) = nzeroes by lia]
    · next hfew =>
      split
      · rw [List.take_replicate, Nat.min_eq_left (by lia)]
      · obtain rfl : nzeroes = 0 := by lia
        rfl

def Coefficient.frac (c : Coefficient) : List ℕ :=
  lowDigits 10 c.coefPrec c.coef ++ List.replicate c.morePrec 0

def valueOfDigits (ds : List ℕ) : ℕ := ds.foldl (fun r d => r*10+d) 0

theorem foldl_zeros (k r : ℕ) : (List.replicate k 0).foldl (fun r d => r*10+d) r = r*10^k := by
  induction k generalizing r with
  | zero => simp
  | succ k ih =>
    rw [List.replicate_succ, List.foldl_cons, ih]
    ring

namespace Coefficient

variable (c : Coefficient)

theorem value_frac : valueOfDigits (c.lead :: c.frac) = c.coef*10^c.morePrec := by
  have hlead : c.lead*10^c.coefPrec+c.coef%10^c.coefPrec = c.coef := by
    rw [lead]
    exact Nat.div_add_mod' _ _
  rw [valueOfDigits, frac, List.foldl_cons, Nat.zero_mul, Nat.zero_add, List.foldl_append,
    foldl_lowDigits, hlead, foldl_zeros]

@[simp] theorem length_frac : c.frac.length = c.coefPrec+c.morePrec := by simp [frac]

theorem lt_of_mem_frac {d : ℕ} (h : d ∈ c.frac) : d < 10 := by
  rcases List.mem_append.mp h with h | h
  · exact lt_of_mem_lowDigits (by norm_num) h
  · have := List.eq_of_mem_replicate h
    lia

theorem frac_eq_nil : c.frac = [] ↔ c.coefPrec = 0 ∧ c.morePrec = 0 := by
  rw [← List.length_eq_zero_iff, length_frac]
  lia

theorem decimals_zeros : c.decimals ++ List.replicate c.morePrec 48 =
    if c.frac = [] then [] else 46 :: c.frac.map dec := by
  rw [decimals]
  by_cases h : c.coefPrec = 0 ∧ c.morePrec = 0
  · rw [if_pos h, if_pos (c.frac_eq_nil.mpr h), h.2]
    rfl
  · rw [if_neg h, if_neg (fun h' => h (c.frac_eq_nil.mp h'))]
    have hdec : dec 0 = 48 := rfl
    simp [frac, hdec]

theorem getLast_frac (h : c.morePrec = 0) (h' : c.coefPrec = 0 ∨ c.coef%10 ≠ 0) :
    c.frac.getLast? ≠ some 0 := by
  rw [frac, h, List.replicate_zero, List.append_nil]
  rcases h' with h0 | hne
  · rw [h0]
    simp [lowDigits]
  · cases hk : c.coefPrec with
    | zero => simp [lowDigits]
    | succ k =>
      rw [lowDigits_add]
      simpa [lowDigits] using hne

end Coefficient

theorem expFmt_spec {bits n : ℕ} (small signPlus isNonnegative : Bool) (precision : Option ℕ)
    (letterE : UInt8) (hE : 65 ≤ letterE ∧ letterE ≤ 90 ∨ 97 ≤ letterE ∧ letterE ≤ 122)
    (hn : n < 2^bits) (h0 : 0 < bits) (hbits : bits ≤ 128) :
    ∃ c : Coefficient, c.Prints precision n ∧
      expFmt bits small signPlus precision n isNonnegative letterE =
        some ((if !isNonnegative then [45] else if signPlus then [43] else []) ++
          dec c.lead :: ((if c.frac = [] then [] else 46 :: c.frac.map dec) ++
            letterE :: (digits 10 c.exp).map dec)) := by
  obtain ⟨c, hc, hprints⟩ := coefficient_spec hn h0 precision
  refine ⟨c, hprints, ?_⟩
  rw [← c.decimals_zeros]
  simp only [expFmt, assertUnchecked_pos hE, hc, encode_spec small letterE hprints hn hbits,
    Option.bind_eq_bind, Option.bind_some]
  split
  · next h =>
    rw [h]
    simp
  · rw [writeZeroes_eq (Nat.lt_succ_self _), Option.bind_some, List.take_succ_cons, List.take_left,
      List.drop_succ_cons, List.drop_left]
    simp

/-- `LowerExp` of every integer: one digit that is zero only for zero, the fraction with as many
digits as the precision asks for or without a zero at the end, and the exponent. The value
is the number, or the number rounded half to even to one digit more than the precision. -/
theorem lowerExp_exact (T : IntTy) (small signPlus : Bool) (precision : Option ℕ) (n : ℤ)
    (hlo : T.min ≤ n) (hhi : n ≤ T.max) :
    ∃ d frac e, d < 10 ∧ (∀ x ∈ frac, x < 10) ∧ (d = 0 → n = 0) ∧
      lowerExp T small signPlus precision n =
        some ((if n < 0 then [45] else if signPlus then [43] else []) ++
          dec d :: ((if frac = [] then [] else 46 :: frac.map dec) ++
            101 :: (digits 10 e).map dec)) ∧
      (precision = none → frac.getLast? ≠ some 0 ∧
        valueOfDigits (d :: frac)*10^e = n.natAbs*10^frac.length) ∧
      ∀ p, precision = some p → frac.length = p ∧
        ∃ r, RoundedTo n.natAbs p r ∧ valueOfDigits (d :: frac)*10^e = r*10^frac.length := by
  have hn := natAbs_lt hlo hhi
  have hall : ∀ W : Width, W.bits ≤ (if W = .w128 then 128 else 64) := by
    intro W
    cases W <;> decide
  have hbits := hall T.width
  obtain ⟨c, hc, htext⟩ := expFmt_spec small signPlus (n ≥ 0) precision 101 (by decide)
    (hn.trans_le (Nat.pow_le_pow_right (by norm_num) hbits)) (by split <;> norm_num)
    (by split <;> norm_num)
  refine ⟨c.lead, c.frac, c.exp, hc.lead_lt, fun x hx => c.lt_of_mem_frac hx, fun h => ?_, ?_,
    fun hp => ?_, fun p hp => ?_⟩
  · have := hc.zero (hc.coef_eq_zero h)
    lia
  · rw [lowerExp, htext]
    by_cases hneg : n < 0
    · rw [if_pos hneg, decide_eq_false (by lia)]
      rfl
    · rw [if_neg hneg, decide_eq_true (by lia)]
      rfl
  · obtain ⟨hval, hmore, hlast⟩ := hc.exact hp
    refine ⟨c.getLast_frac hmore hlast, ?_⟩
    rw [c.value_frac, c.length_frac, hmore, pow_zero, Nat.mul_one, Nat.add_zero, hval]
  · obtain ⟨hlen, r, hr, hval⟩ := hc.rounded p hp
    refine ⟨by rw [c.length_frac, hlen], r, hr, ?_⟩
    rw [c.value_frac, c.length_frac, pow_add, ← mul_assoc, ← hval]
    ring

theorem lowerExp_exact_half :
    ∃ d frac e, d < 10 ∧ (∀ x ∈ frac, x < 10) ∧ (d = 0 → (25:ℤ) = 0) ∧
      lowerExp ⟨.w8, false⟩ false false (some 0) 25 =
        some ((if (25:ℤ) < 0 then [45] else if false then [43] else []) ++
          dec d :: ((if frac = [] then [] else 46 :: frac.map dec) ++
            101 :: (digits 10 e).map dec)) ∧
      ((some 0 : Option ℕ) = none → frac.getLast? ≠ some 0 ∧
        valueOfDigits (d :: frac)*10^e = (25:ℤ).natAbs*10^frac.length) ∧
      ∀ p, some 0 = some p → frac.length = p ∧
        ∃ r, RoundedTo (25:ℤ).natAbs p r ∧ valueOfDigits (d :: frac)*10^e = r*10^frac.length :=
  lowerExp_exact ⟨.w8, false⟩ false false (some 0) 25 (by decide) (by decide)

end RustStd.IntFmt
