import RustStd.Lib.Digits
import RustStd.Num.DecimalSeq

/-!
# Shifts of decimal digit sequences

A sequence of digits with its decimal point denotes a number, and the shifts
multiply or divide it by a power of two. The digits of the result are those of
one natural number, the product by a power of two or of five; what does not fit
is cut off, and the flag remembers whether a digit other than zero was.
-/

set_option autoImplicit false

namespace RustStd.Dec2Flt.DecimalSeq
open RustStd.Checked RustStd.Digits

/-- The number that the digits denote without the decimal point. -/
def coeff (d : DecimalSeq) : ℕ := ofFn 10 d.digits d.numDigits

def value (d : DecimalSeq) : ℚ := d.coeff*10^(d.decimalPoint-d.numDigits)

/-- There are digits, the first of which is not zero. -/
structure WF (d : DecimalSeq) : Prop where
  pos : 0 < d.numDigits
  le : d.numDigits ≤ maxDigits
  digit : ∀ i < d.numDigits, d.digits i < 10
  first : d.digits 0 ≠ 0

theorem WF.coeff_lt {d : DecimalSeq} (h : d.WF) : d.coeff < 10^d.numDigits := ofFn_lt h.digit

theorem WF.le_coeff {d : DecimalSeq} (h : d.WF) : 10^(d.numDigits-1) ≤ d.coeff := by
  have := ofFn_ge (b := 10) (n := d.numDigits-1) h.first
  rwa [Nat.sub_add_cancel h.pos] at this

theorem WF.value_lt {d : DecimalSeq} (h : d.WF) : d.value < 10^d.decimalPoint := by
  have hlt : (d.coeff:ℚ) < 10^d.numDigits := by exact_mod_cast h.coeff_lt
  calc d.value < 10^d.numDigits*10^(d.decimalPoint-d.numDigits) := by
        rw [value]
        gcongr
    _ = 10^d.decimalPoint := by
        rw [← zpow_natCast, ← zpow_add₀ (by norm_num)]
        congr 1
        ring

theorem WF.le_value {d : DecimalSeq} (h : d.WF) : 10^(d.decimalPoint-1) ≤ d.value := by
  have hpos := h.pos
  have hle : (10:ℚ)^(d.numDigits-1) ≤ d.coeff := by exact_mod_cast h.le_coeff
  calc (10:ℚ)^(d.decimalPoint-1) = 10^(d.numDigits-1)*10^(d.decimalPoint-d.numDigits) := by
        rw [← zpow_natCast, ← zpow_add₀ (by norm_num)]
        congr 1
        lia
    _ ≤ d.value := by
        rw [value]
        gcongr

theorem get_eq {d : DecimalSeq} {i : ℕ} (hi : i < maxDigits) : d.get i = some (d.digits i) :=
  if_pos hi

theorem set_eq {d : DecimalSeq} {i x : ℕ} (hi : i < maxDigits) :
    d.set i x = some { d with digits := Function.update d.digits i x } := if_pos hi

/-! ## The result of a shift -/

/-- `d` holds the leading digits of the value `v`, and its flag says whether there
is more: digits of `v`, or of what was cut off before. -/
structure Leads (before : Bool) (v : ℚ) (d : DecimalSeq) : Prop where
  wf : d.WF
  last : d.digits (d.numDigits-1) ≠ 0
  cut : IsCut 10 maxDigits v d.value
  truncated : d.truncated = true ↔ before = true ∨ d.value < v

theorem trimmed_spec (d : DecimalSeq) {n : ℕ} (hn : n ≤ maxDigits) :
    ∃ k, d.trimmed n = some k ∧ k ≤ n ∧ (∀ i, k ≤ i → i < n → d.digits i = 0) ∧
      (k = 0 ∨ d.digits (k-1) ≠ 0) := by
  induction n with
  | zero => exact ⟨0, rfl, le_rfl, fun i _ hi => absurd hi (by lia), Or.inl rfl⟩
  | succ n ih =>
    rw [trimmed, get_eq (by lia), Option.bind_eq_bind, Option.bind_some]
    split
    · rename_i h0
      obtain ⟨k, hk, hle, hz, hl⟩ := ih (by lia)
      refine ⟨k, hk, by lia, fun i hki hi => ?_, hl⟩
      rcases Nat.lt_or_ge i n with hlt | hge
      · exact hz i hki hlt
      · obtain rfl : i = n := by lia
        exact h0
    · rename_i h0
      exact ⟨n+1, rfl, le_rfl, fun i _ hi => absurd hi (by lia), Or.inr h0⟩

theorem trim_spec {d : DecimalSeq} (hd : d.WF) :
    ∃ d', d.trim = some d' ∧ d'.WF ∧ d'.digits (d'.numDigits-1) ≠ 0 ∧ d'.value = d.value ∧
      d'.truncated = d.truncated := by
  obtain ⟨k, hk, hkn, hz, hl⟩ := d.trimmed_spec hd.le
  have hkpos : 0 < k := by
    by_contra h0
    exact hd.first (hz 0 (by lia) hd.pos)
  refine ⟨{ d with numDigits := k }, by rw [trim, hk]; rfl,
    ⟨hkpos, hkn.trans hd.le, fun i hi => hd.digit i (hi.trans_le hkn), hd.first⟩,
    hl.resolve_left (by lia), ?_, rfl⟩
  have hz' := ofFn_zeros (b := 10) hkn hz
  rw [value, value, coeff, coeff, hz']
  push_cast
  rw [mul_assoc, ← zpow_natCast, ← zpow_add₀ (by norm_num)]
  congr 2
  lia

theorem cut_of_digits {d : DecimalSeq} {m L : ℕ} (hlo : 10^(L-1) ≤ m) (hhi : m < 10^L)
    (hpos : 0 < d.numDigits) (hK : d.numDigits ≤ L) (hle : d.numDigits ≤ maxDigits)
    (hdig : ∀ i < d.numDigits, d.digits i = m/10^(L-1-i)%10)
    (hrest : d.numDigits = maxDigits ∨ m%10^(L-d.numDigits) = 0) :
    d.WF ∧ IsCut 10 maxDigits (m*10^(d.decimalPoint-L)) d.value ∧
      (d.value < m*10^(d.decimalPoint-L) ↔ m%10^(L-d.numDigits) ≠ 0) := by
  have hfirst : d.digits 0 ≠ 0 := by
    have h1 : 1 ≤ m/10^(L-1) := (Nat.one_le_div_iff (by positivity)).mpr hlo
    have h10 : m/10^(L-1) < 10 := by
      rw [Nat.div_lt_iff_lt_mul (by positivity), ← pow_succ']
      rwa [show L-1+1 = L by lia]
    rw [hdig 0 hpos, Nat.sub_zero, Nat.mod_eq_of_lt h10]
    lia
  have hcoeff : ofFn 10 d.digits d.numDigits = m/10^(L-d.numDigits) := ofFn_of_div hK hhi hdig
  have hval : d.value =
      (m/10^(L-d.numDigits):ℕ)*10^((d.decimalPoint-L)+(L-d.numDigits:ℕ)) := by
    rw [value, coeff, hcoeff]
    congr 2
    lia
  have hv : (m:ℚ)*10^(d.decimalPoint-L) = d.value+
      (m%10^(L-d.numDigits):ℕ)*10^(d.decimalPoint-L) := by
    have hdm : ((10^(L-d.numDigits)*(m/10^(L-d.numDigits))+m%10^(L-d.numDigits):ℕ):ℚ) = m := by
      rw [Nat.div_add_mod]
    rw [hval, ← hdm, zpow_add₀ (by norm_num), zpow_natCast]
    push_cast
    ring
  have hpow : (0:ℚ) < 10^(d.decimalPoint-L) := by positivity
  refine ⟨⟨hpos, hle, fun i hi => ?_, hfirst⟩, ?_, ?_⟩
  · rw [hdig i hi]
    exact Nat.mod_lt _ (by norm_num)
  · rcases hrest with hfull | h0
    · rw [hval]
      exact isCut_div (by norm_num) (by lia) (by decide) hlo _
    · rw [hv, h0, Nat.cast_zero, zero_mul, add_zero]
      exact isCut_self _ _ _
  · rw [hv, lt_add_iff_pos_right, ← Nat.pos_iff_ne_zero]
    constructor
    · intro h
      exact_mod_cast (pos_iff_pos_of_mul_pos h).mpr hpow
    · intro h
      have : (0:ℚ) < (m%10^(L-d.numDigits):ℕ) := by exact_mod_cast h
      positivity

theorem trim_leads (before : Bool) {d : DecimalSeq} {m L : ℕ} (hlo : 10^(L-1) ≤ m) (hhi : m < 10^L)
    (hpos : 0 < d.numDigits) (hK : d.numDigits ≤ L) (hle : d.numDigits ≤ maxDigits)
    (hdig : ∀ i < d.numDigits, d.digits i = m/10^(L-1-i)%10)
    (hrest : d.numDigits = maxDigits ∨ m%10^(L-d.numDigits) = 0)
    (htr : d.truncated = true ↔ before = true ∨ m%10^(L-d.numDigits) ≠ 0) :
    ∃ d', d.trim = some d' ∧ Leads before (m*10^(d.decimalPoint-L)) d' := by
  obtain ⟨hwf, hcut, hlt⟩ := cut_of_digits hlo hhi hpos hK hle hdig hrest
  obtain ⟨d', hd', hwf', hlast, hval, htr'⟩ := trim_spec hwf
  refine ⟨d', hd', hwf', hlast, ?_, ?_⟩
  · rw [hval]
    exact hcut
  · rw [hval, htr', hlt]
    exact htr

/-! ## The number of new digits -/

/-- The digits of the table for a shift. -/
def pow5Digits (shift : ℕ) : List ℕ :=
  (leftShiftTablePow5.drop (leftShiftTable.getD shift 0%2^11)).take
    (leftShiftTable.getD (shift+1) 0%2^11-leftShiftTable.getD shift 0%2^11)

def listValue (l : List ℕ) : ℕ := l.foldl (fun n p => 10*n+p) 0

/-- An entry of the table holds the digits of the power of five, the last of them
a five, and the number of digits that a product by the power of two has more. -/
structure ShiftEntry (shift : ℕ) : Prop where
  digits : listValue (pow5Digits shift) = 5^shift
  digit : ∀ p ∈ pow5Digits shift, p < 10
  last : (pow5Digits shift).getLast? = some 5
  newDigits : leftShiftTable.getD shift 0/2^11+(pow5Digits shift).length = shift+1
  top : 10^((pow5Digits shift).length-1) ≤ 5^shift
  count : leftShiftTable.getD shift 0%2^11 ≤ leftShiftTable.getD (shift+1) 0%2^11

instance (shift : ℕ) : Decidable (ShiftEntry shift) :=
  decidable_of_iff
    (listValue (pow5Digits shift) = 5^shift ∧ (∀ p ∈ pow5Digits shift, p < 10) ∧
      (pow5Digits shift).getLast? = some 5 ∧
      leftShiftTable.getD shift 0/2^11+(pow5Digits shift).length = shift+1 ∧
      10^((pow5Digits shift).length-1) ≤ 5^shift ∧
      leftShiftTable.getD shift 0%2^11 ≤ leftShiftTable.getD (shift+1) 0%2^11)
    ⟨fun ⟨h₁, h₂, h₃, h₄, h₅, h₆⟩ => ⟨h₁, h₂, h₃, h₄, h₅, h₆⟩,
      fun ⟨h₁, h₂, h₃, h₄, h₅, h₆⟩ => ⟨h₁, h₂, h₃, h₄, h₅, h₆⟩⟩

set_option maxRecDepth 20000 in
theorem shiftEntry : ∀ shift < 61, 1 ≤ shift → ShiftEntry shift := by decide +kernel

theorem foldl_listValue (l : List ℕ) (n : ℕ) :
    l.foldl (fun n p => 10*n+p) n = n*10^l.length+listValue l := by
  induction l generalizing n with
  | nil => simp [listValue]
  | cons p l ih =>
    have h0 : listValue (p :: l) = (10*0+p)*10^l.length+listValue l := ih (10*0+p)
    rw [List.foldl_cons, ih, h0, List.length_cons, pow_succ]
    ring

theorem listValue_cons (p : ℕ) (l : List ℕ) :
    listValue (p :: l) = p*10^l.length+listValue l := by
  have : listValue (p :: l) = (10*0+p)*10^l.length+listValue l := foldl_listValue l (10*0+p)
  rwa [Nat.mul_zero, Nat.zero_add] at this

theorem listValue_lt {l : List ℕ} (h : ∀ p ∈ l, p < 10) : listValue l < 10^l.length := by
  induction l with
  | nil => simp [listValue]
  | cons p l ih =>
    have hp := h p (by simp)
    have hl := ih fun q hq => h q (by simp [hq])
    rw [listValue_cons, List.length_cons, pow_succ]
    nlinarith

theorem listValue_pos {l : List ℕ} (h : l.getLast? = some 5) : 0 < listValue l := by
  induction l with
  | nil => exact absurd h (by simp)
  | cons p l ih =>
    rw [listValue_cons]
    cases l with
    | nil =>
      have : p = 5 := by simpa using h
      subst this
      decide
    | cons q l =>
      have := ih (by simpa using h)
      lia

theorem digit_compare {p x A B P N : ℕ} (hP : P < A) (hN : N < B) :
    ((p*A+P)*(10*B) ≤ (x*B+N)*(10*A) ↔ p < x ∨ p = x ∧ P*B ≤ N*A) := by
  have hpos : 0 < A*B := Nat.mul_pos (by lia) (by lia)
  have hPB : P*B < A*B := Nat.mul_lt_mul_of_pos_right hP (by lia)
  have hNA : N*A < A*B := by
    rw [Nat.mul_comm A B]
    exact Nat.mul_lt_mul_of_pos_right hN (by lia)
  have hl : (p*A+P)*(10*B) = 10*(p*(A*B)+P*B) := by ring
  have hr : (x*B+N)*(10*A) = 10*(x*(A*B)+N*A) := by ring
  rw [hl, hr, Nat.mul_le_mul_left_iff (by norm_num)]
  generalize P*B = u at *
  generalize N*A = v at *
  generalize A*B = c at *
  rcases Nat.lt_trichotomy p x with h | h | h
  · have := Nat.mul_le_mul_right c (show p+1 ≤ x from h)
    rw [Nat.add_mul] at this
    constructor
    · exact fun _ => Or.inl h
    · intro _
      lia
  · subst h
    simp
  · have := Nat.mul_le_mul_right c (show x+1 ≤ p from h)
    rw [Nat.add_mul] at this
    constructor
    · intro _
      lia
    · rintro (h' | ⟨h', -⟩)
      · lia
      · lia

theorem comparePow5_eq {d : DecimalSeq} (hd : d.WF) (numNewDigits : ℕ) (hnew : 1 ≤ numNewDigits)
    {pow5 : List ℕ} (hp : ∀ p ∈ pow5, p < 10) (hlast : pow5 = [] ∨ pow5.getLast? = some 5) {i : ℕ}
    (hi : i ≤ d.numDigits) :
    d.comparePow5 numNewDigits pow5 i = some
      (if listValue pow5*10^(d.numDigits-i) ≤ d.coeff%10^(d.numDigits-i)*10^pow5.length
        then numNewDigits else numNewDigits-1) := by
  induction pow5 generalizing i with
  | nil => simp [comparePow5, listValue]
  | cons p pow5 ih =>
    rw [comparePow5]
    by_cases hend : i ≥ d.numDigits
    · have hpos := listValue_pos (hlast.resolve_left (by simp))
      obtain rfl : i = d.numDigits := by lia
      rw [if_pos hend, sub_eq hnew, if_neg]
      rw [Nat.sub_self, pow_zero, Nat.mod_one]
      lia
    · obtain ⟨j, hj⟩ : ∃ j, d.numDigits-i = j+1 := ⟨d.numDigits-i-1, by lia⟩
      have hle := hd.le
      have hx : d.digits i = d.coeff/10^j%10 := by
        have := digit_eq hd.digit (show i < d.numDigits by lia)
        rwa [show d.numDigits-1-i = j by lia] at this
      have hmod : d.coeff%10^(j+1) = d.digits i*10^j+d.coeff%10^j := by
        rw [hx, pow_succ, Nat.mod_mul]
        ring
      have hlt := listValue_lt (l := pow5) fun q hq => hp q (by simp [hq])
      have hN := Nat.mod_lt d.coeff (show 0 < 10^j by positivity)
      have hc := digit_compare (p := p) (x := d.digits i) hlt hN
      have hlast' : pow5 = [] ∨ pow5.getLast? = some 5 := by
        cases pow5 with
        | nil => exact Or.inl rfl
        | cons q pow5 => exact Or.inr (by simpa using hlast)
      have ih := ih (fun q hq => hp q (by simp [hq])) hlast' (i := i+1) (by lia)
      rw [show d.numDigits-(i+1) = j by lia] at ih
      rw [if_neg hend, get_eq (by lia), Option.bind_eq_bind, Option.bind_some, hj, hmod,
        listValue_cons, List.length_cons, pow_succ' 10 j, pow_succ' 10 pow5.length]
      rcases Nat.lt_trichotomy p (d.digits i) with h | h | h
      · rw [if_neg (by lia), if_neg (by lia), if_pos (hc.mpr (Or.inl h))]
        rfl
      · rw [if_pos h.symm, ih]
        congr 1
        apply if_congr _ rfl rfl
        rw [hc]
        simp [h]
      · rw [if_neg (by lia), if_pos h, sub_eq hnew, if_neg]
        rw [hc]
        lia

theorem mul_two_pow_digits {N n m shift : ℕ} (hlo : 10^n ≤ N) (hhi : N < 10^(n+1))
    (hm : m < shift) (htop : 10^m ≤ 5^shift) (hlt : 5^shift < 10^(m+1)) :
    10^(n+(shift-(m+1))) ≤ N*2^shift ∧ N*2^shift < 10^(n+1+(shift-m)) ∧
      (5^shift*10^(n+1) ≤ N*10^(m+1) ↔ 10^(n+1+(shift-(m+1))) ≤ N*2^shift) := by
  have hpow : (10:ℕ)^shift = 2^shift*5^shift := by rw [← Nat.mul_pow]
  refine ⟨?_, ?_, ?_⟩
  · have h2 : 10^(shift-(m+1)) ≤ 2^shift := by
      have : 10^(shift-(m+1))*5^shift ≤ 2^shift*5^shift := by
        calc 10^(shift-(m+1))*5^shift ≤ 10^(shift-(m+1))*10^(m+1) := Nat.mul_le_mul_left _ hlt.le
          _ = 2^shift*5^shift := by rw [← pow_add, ← hpow, Nat.sub_add_cancel hm]
      exact Nat.le_of_mul_le_mul_right this (by positivity)
    rw [pow_add]
    exact Nat.mul_le_mul hlo h2
  · have h2 : 2^shift ≤ 10^(shift-m) := by
      have : 2^shift*10^m ≤ 10^(shift-m)*10^m := by
        rw [← pow_add, show shift-m+m = shift by lia, hpow]
        exact Nat.mul_le_mul_left _ htop
      exact Nat.le_of_mul_le_mul_right this (by positivity)
    calc N*2^shift < 10^(n+1)*2^shift := Nat.mul_lt_mul_of_pos_right hhi (by positivity)
      _ ≤ 10^(n+1)*10^(shift-m) := Nat.mul_le_mul_left _ h2
      _ = 10^(n+1+(shift-m)) := (pow_add 10 (n+1) (shift-m)).symm
  · have e1 : 5^shift*10^(n+1)*2^shift = 10^(n+1+(shift-(m+1)))*10^(m+1) := by
      rw [← pow_add, show n+1+(shift-(m+1))+(m+1) = n+1+shift by lia, pow_add 10 (n+1),
        hpow]
      ring
    have e2 : N*10^(m+1)*2^shift = N*2^shift*10^(m+1) := by ring
    rw [← Nat.mul_le_mul_right_iff (show 0 < 2^shift by positivity), e1, e2]
    exact Nat.mul_le_mul_right_iff (by positivity)

theorem numberOfDigits_eq (d : DecimalSeq) {shift : ℕ} (h1 : 1 ≤ shift) (h60 : shift ≤ 60) :
    d.numberOfDigitsDecimalLeftShift shift =
      d.comparePow5 (leftShiftTable.getD shift 0/2^11) (pow5Digits shift) 0 := by
  have hcount := (shiftEntry shift (by lia) h1).count
  have hget : ∀ i < 65, leftShiftTable[i]? = some (leftShiftTable.getD i 0) := by
    intro i hi
    rw [List.getD_eq_getElem?_getD, List.getElem?_eq_getElem hi]
    rfl
  rw [numberOfDigitsDecimalLeftShift, Nat.mod_eq_of_lt (by lia), hget shift (by lia),
    hget (shift+1) (by lia)]
  simp only [Option.bind_eq_bind, Option.bind_some]
  rw [sub_eq hcount, Option.bind_some]
  rfl

theorem numberOfDigits_spec {d : DecimalSeq} (hd : d.WF) {shift : ℕ} (h1 : 1 ≤ shift)
    (h60 : shift ≤ 60) : ∃ k, d.numberOfDigitsDecimalLeftShift shift = some k ∧ k ≤ shift ∧
      10^(d.numDigits+k-1) ≤ d.coeff*2^shift ∧ d.coeff*2^shift < 10^(d.numDigits+k) := by
  have he := shiftEntry shift (by lia) h1
  have hpos := hd.pos
  have hnew := he.newDigits
  obtain ⟨n, hn⟩ : ∃ n, d.numDigits = n+1 := ⟨d.numDigits-1, by lia⟩
  obtain ⟨m, hm⟩ : ∃ m, (pow5Digits shift).length = m+1 := by
    apply Nat.exists_eq_succ_of_ne_zero
    intro h0
    have := he.last
    rw [List.eq_nil_of_length_eq_zero h0] at this
    exact absurd this (by simp)
  have hlt := listValue_lt he.digit
  have htop := he.top
  have hlo := hd.le_coeff
  have hhi := hd.coeff_lt
  rw [hm] at hlt htop hnew
  rw [he.digits] at hlt
  rw [hn] at hlo hhi
  rw [Nat.add_sub_cancel] at hlo htop
  have hms : m < shift := by
    have : 10^m < 10^shift :=
      htop.trans_lt (Nat.pow_lt_pow_left (by norm_num) (by lia))
    exact (Nat.pow_lt_pow_iff_right (by norm_num)).mp this
  have hcmp := comparePow5_eq hd (leftShiftTable.getD shift 0/2^11) (by lia)
    he.digit (Or.inr he.last) (i := 0) (Nat.zero_le _)
  rw [Nat.sub_zero, Nat.mod_eq_of_lt hd.coeff_lt, he.digits, hm, hn] at hcmp
  rw [numberOfDigits_eq d h1 h60, hcmp, hn]
  obtain ⟨hdown, hup, key⟩ := mul_two_pow_digits hlo hhi hms htop hlt
  by_cases hc : 5^shift*10^(n+1) ≤ d.coeff*10^(m+1)
  · refine ⟨shift-m, by rw [if_pos hc]; congr 1; lia, by lia, ?_, hup⟩
    rw [show n+1+(shift-m)-1 = n+1+(shift-(m+1)) by lia]
    exact key.mp hc
  · refine ⟨shift-(m+1), by rw [if_neg hc]; congr 1; lia, by lia, ?_, ?_⟩
    · rwa [show n+1+(shift-(m+1))-1 = n+(shift-(m+1)) by lia]
    · rw [key] at hc
      lia

/-! ## Shifting left -/

/-- The digits of `m` from position `w` on are written, as far as there is room. -/
structure Written (before : Bool) (m L w : ℕ) (d₀ d : DecimalSeq) : Prop where
  digit : ∀ i, w ≤ i → i < L → i < maxDigits → d.digits i = m/10^(L-1-i)%10
  truncated : d.truncated = true ↔ before = true ∨ m%10^(L-max w maxDigits) ≠ 0
  numDigits : d.numDigits = d₀.numDigits
  decimalPoint : d.decimalPoint = d₀.decimalPoint

theorem mod_pow_succ_ne_zero {m k : ℕ} :
    m%10^(k+1) ≠ 0 ↔ m%10^k ≠ 0 ∨ 0 < m/10^k%10 := by
  rw [pow_succ, Nat.mod_mul, Nat.pos_iff_ne_zero, ← not_and_or, not_iff_not, Nat.add_eq_zero_iff,
    Nat.mul_eq_zero]
  simp

theorem putDigit_spec {before : Bool} {m L w : ℕ} {d₀ d : DecimalSeq}
    (h : Written before m L (w+1) d₀ d) (hw : w < L) :
    ∃ d', d.putDigit w (m/10^(L-1-w)%10) = some d' ∧ Written before m L w d₀ d' ∧
      ∀ i < w, d'.digits i = d.digits i := by
  have hrem : m/10^(L-1-w)%10 < 10 := Nat.mod_lt _ (by norm_num)
  rw [putDigit]
  by_cases hmax : w < maxDigits
  · refine ⟨{ d with digits := Function.update d.digits w (m/10^(L-1-w)%10) }, ?_,
      ⟨fun i hwi hi him => ?_, ?_, h.numDigits, h.decimalPoint⟩, fun i hi => ?_⟩
    · rw [if_pos hmax, set_eq hmax, Nat.mod_eq_of_lt (by lia)]
    · rcases Nat.lt_or_ge w i with hlt | hge
      · exact (Function.update_of_ne (by lia) _ _).trans (h.digit i hlt hi him)
      · obtain rfl : i = w := by lia
        exact Function.update_self _ _ _
    · have := h.truncated
      rwa [max_eq_right (by lia)] at this ⊢
    · exact Function.update_of_ne (by lia) _ _
  · have htr := h.truncated
    rw [max_eq_left (by lia), show L-(w+1) = L-1-w by lia] at htr
    have hstep : m%10^(L-max w maxDigits) ≠ 0 ↔ m%10^(L-1-w) ≠ 0 ∨ 0 < m/10^(L-1-w)%10 := by
      rw [max_eq_left (by lia), show L-w = L-1-w+1 by lia]
      exact mod_pow_succ_ne_zero
    rw [if_neg hmax]
    by_cases h0 : 0 < m/10^(L-1-w)%10
    · refine ⟨{ d with truncated := true }, by rw [if_pos h0],
        ⟨fun i hwi hi him => ?_, ?_, h.numDigits, h.decimalPoint⟩, fun _ _ => rfl⟩
      · lia
      · rw [hstep]
        simp [h0]
    · refine ⟨d, by rw [if_neg h0],
        ⟨fun i hwi hi him => ?_, ?_, h.numDigits, h.decimalPoint⟩, fun _ _ => rfl⟩
      · lia
      · rw [hstep, htr]
        simp [h0]

section LeftShift

variable {d : DecimalSeq} (hd : d.WF) {shift k : ℕ}
include hd

/-- The loop over the digits is long multiplication: the carry is what the product
has more than the digits not yet read. -/
theorem leftShiftDigits_spec (h60 : shift ≤ 60) {r c : ℕ} {d' : DecimalSeq} (hr : r ≤ d.numDigits)
    (hw : Written d.truncated (d.coeff*2^shift) (d.numDigits+k) (r+k) d d')
    (hread : ∀ i < r, d'.digits i = d.digits i) (hc : c < 2^shift)
    (hcarry : c+d.coeff/10^(d.numDigits-r)*2^shift = d.coeff*2^shift/10^(d.numDigits-r)) :
    ∃ d'', leftShiftDigits shift r (r+k) d' c =
        some (k, d'', d.coeff*2^shift/10^d.numDigits) ∧
      Written d.truncated (d.coeff*2^shift) (d.numDigits+k) k d d'' := by
  induction r generalizing c d' with
  | zero =>
    rw [Nat.sub_zero, Nat.div_eq_of_lt hd.coeff_lt, Nat.zero_mul, Nat.add_zero] at hcarry
    rw [leftShiftDigits, Nat.zero_add, hcarry]
    rw [Nat.zero_add] at hw
    exact ⟨d', rfl, hw⟩
  | succ r ih =>
    have hmax := hd.le
    have hx9 := hd.digit r (by lia)
    have hx : d.digits r = d.coeff/10^(d.numDigits-(r+1))%10 := by
      have := digit_eq hd.digit (show r < d.numDigits by lia)
      rwa [show d.numDigits-1-r = d.numDigits-(r+1) by lia] at this
    have hdiv : ∀ m : ℕ, m/10^(d.numDigits-r) = m/10^(d.numDigits-(r+1))/10 := by
      intro m
      rw [Nat.div_div_eq_div_mul, ← pow_succ]
      congr 2
      lia
    have hp60 : 2^shift ≤ 2^60 := Nat.pow_le_pow_right (by norm_num) h60
    have hmul : d.digits r*2^shift ≤ 9*2^shift := Nat.mul_le_mul_right _ (by lia)
    -- the next digit of the product and what is carried on
    have hsplit : d.coeff*2^shift/10^(d.numDigits-(r+1)) =
        c+d.digits r*2^shift+10*(d.coeff/10^(d.numDigits-r)*2^shift) := by
      have hdm := Nat.div_add_mod (d.coeff/10^(d.numDigits-(r+1))) 10
      rw [← hx, ← hdiv] at hdm
      rw [← hcarry, ← hdm]
      ring
    have hrem : c+d.digits r*2^shift-10*((c+d.digits r*2^shift)/10) =
        d.coeff*2^shift/10^(d.numDigits+k-1-(r+k))%10 := by
      rw [show d.numDigits+k-1-(r+k) = d.numDigits-(r+1) by lia, hsplit,
        Nat.add_mul_mod_self_left]
      lia
    rw [show r+1+k = r+k+1 by lia] at hw ⊢
    obtain ⟨d₁, hput, hw₁, hsame⟩ := putDigit_spec hw (by lia)
    rw [leftShiftDigits, sub_eq (by lia), Option.bind_eq_bind, Option.bind_some,
      get_eq (by lia), Option.bind_some, hread r (by lia), shl_eq (by lia) (by lia),
      Option.bind_some, u64_eq (by lia), Option.bind_some, Nat.add_sub_cancel]
    simp only []
    rw [hrem, hput, Option.bind_eq_bind, Option.bind_some]
    apply ih (by lia) hw₁
    · intro i hi
      rw [hsame i (by lia), hread i (by lia)]
    · lia
    · rw [hdiv (d.coeff*2^shift), hsplit]
      lia

theorem leftShiftCarry_spec {w : ℕ} {d' : DecimalSeq} (hwL : w ≤ d.numDigits+k)
    (hlo : 10^(d.numDigits+k-1) ≤ d.coeff*2^shift) (hhi : d.coeff*2^shift < 10^(d.numDigits+k))
    (hw : Written d.truncated (d.coeff*2^shift) (d.numDigits+k) w d d') :
    ∃ d'', leftShiftCarry w d' (d.coeff*2^shift/10^(d.numDigits+k-w)) = some d'' ∧
      Written d.truncated (d.coeff*2^shift) (d.numDigits+k) 0 d d'' := by
  have hpos := hd.pos
  induction w generalizing d' with
  | zero =>
    rw [Nat.sub_zero, Nat.div_eq_of_lt hhi, leftShiftCarry]
    exact ⟨d', rfl, hw⟩
  | succ w ih =>
    have hne : d.coeff*2^shift/10^(d.numDigits+k-(w+1)) ≠ 0 := by
      rw [Nat.div_ne_zero_iff]
      constructor
      · positivity
      · exact (Nat.pow_le_pow_right (by norm_num) (by lia)).trans hlo
    obtain ⟨c, hc⟩ := Nat.exists_eq_succ_of_ne_zero hne
    have hdiv : (c+1)/10 = d.coeff*2^shift/10^(d.numDigits+k-w) := by
      rw [← Nat.succ_eq_add_one, ← hc, Nat.div_div_eq_div_mul, ← pow_succ]
      congr 2
      lia
    have hrem : c+1-10*((c+1)/10) = d.coeff*2^shift/10^(d.numDigits+k-1-w)%10 := by
      rw [show d.numDigits+k-1-w = d.numDigits+k-(w+1) by lia, hc]
      lia
    obtain ⟨d₁, hput, hw₁, -⟩ := putDigit_spec hw (by lia)
    rw [hc, Nat.succ_eq_add_one, leftShiftCarry]
    simp only [Option.bind_eq_bind]
    rw [hrem, hput, Option.bind_some, hdiv]
    exact ih (by lia) hw₁

end LeftShift

/-- A shift to the left, whatever the decimal point: no index is out of range and no
register overflows. -/
theorem leftShift_run {d : DecimalSeq} (hd : d.WF) {shift : ℕ} (h1 : 1 ≤ shift)
    (h60 : shift ≤ 60) :
    ∃ k d₁ d₂ d', d.numberOfDigitsDecimalLeftShift shift = some k ∧ k ≤ shift ∧
      leftShiftDigits shift d.numDigits (d.numDigits+k) d 0 =
        some (k, d₁, d.coeff*2^shift/10^d.numDigits) ∧
      leftShiftCarry k d₁ (d.coeff*2^shift/10^d.numDigits) = some d₂ ∧
      d.leftShift shift = some d' ∧ Leads d.truncated ((d.coeff*2^shift:ℕ)*
        10^(wrapI32 (d.decimalPoint+k)-((d.numDigits+k:ℕ):ℤ))) d' := by
  obtain ⟨k, hk, hks, hlo, hhi⟩ := numberOfDigits_spec hd h1 h60
  have hpos := hd.pos
  have hle := hd.le
  have hwr : Written d.truncated (d.coeff*2^shift) (d.numDigits+k) (d.numDigits+k) d d := by
    refine ⟨fun i hi hi' _ => absurd hi' (by lia), ?_, rfl, rfl⟩
    rw [Nat.sub_eq_zero_of_le (le_max_left _ _), pow_zero, Nat.mod_one]
    simp
  obtain ⟨d₁, hd₁, hw₁⟩ := leftShiftDigits_spec hd h60 (c := 0) le_rfl hwr (fun _ _ => rfl)
    (by positivity) (by simp)
  obtain ⟨d₂, hd₂, hw₂⟩ := leftShiftCarry_spec hd (w := k) (by lia) hlo hhi hw₁
  rw [Nat.add_sub_cancel] at hd₂
  obtain ⟨d₃, htrim, hleads⟩ := trim_leads d.truncated
    (d := { d₂ with
      numDigits := min (d.numDigits+k) maxDigits, decimalPoint := wrapI32 (d.decimalPoint+k) })
    hlo hhi (by simp only [lt_min_iff]; exact ⟨by lia, by decide⟩)
    (min_le_left _ _) (min_le_right _ _)
    (fun i hi => hw₂.digit i (by lia) (by simp only [lt_min_iff] at hi; exact hi.1)
      (by simp only [lt_min_iff] at hi; exact hi.2))
    (by
      rcases le_total (d.numDigits+k) maxDigits with h | h
      · right
        simp [min_eq_left h, Nat.mod_one]
      · left
        exact min_eq_right h)
    (by
      have := hw₂.truncated
      rcases le_total (d.numDigits+k) maxDigits with h | h
      · rw [max_eq_right (Nat.zero_le _), Nat.sub_eq_zero_of_le h] at this
        simpa [min_eq_left h] using this
      · rw [max_eq_right (Nat.zero_le _)] at this
        simpa [min_eq_right h] using this)
  refine ⟨k, d₁, d₂, d₃, hk, hks, hd₁, hd₂, ?_, hleads⟩
  rw [leftShift, if_neg (by lia), hk, Option.bind_eq_bind, Option.bind_some, hd₁,
    Option.bind_eq_bind, Option.bind_some]
  simp only []
  rw [hd₂, Option.bind_eq_bind, Option.bind_some, hw₂.numDigits, hw₂.decimalPoint,
    wrapI32_eq (z := (k:ℤ)) (by lia) (by lia)]
  exact htrim

theorem product_value (d : DecimalSeq) (shift k : ℕ) :
    ((d.coeff*2^shift:ℕ):ℚ)*10^(d.decimalPoint+k-((d.numDigits+k:ℕ):ℤ)) = d.value*2^shift := by
  simp only [value]
  push_cast
  rw [show d.decimalPoint+(k:ℤ)-((d.numDigits:ℤ)+k) = d.decimalPoint-d.numDigits by ring]
  ring

theorem leftShift_spec {d : DecimalSeq} (hd : d.WF) {shift : ℕ} (h1 : 1 ≤ shift)
    (h60 : shift ≤ 60) (hdp : -2^31 ≤ d.decimalPoint) (hdp' : d.decimalPoint < 2^31-60) :
    ∃ d', d.leftShift shift = some d' ∧ Leads d.truncated (d.value*2^shift) d' := by
  obtain ⟨k, -, -, d', -, hks, -, -, hrun, hl⟩ := leftShift_run hd h1 h60
  rw [wrapI32_eq (by lia) (by lia), product_value] at hl
  exact ⟨d', hrun, hl⟩

end RustStd.Dec2Flt.DecimalSeq
