import RustStd.Num.Parse

/-!
# Runs of digits

What the digit loops of `parse` read, the one that takes eight bytes at a time
included: the longest run of digits, and its value modulo `2^64`.
-/

set_option autoImplicit false

namespace RustStd.Dec2Flt
open RustStd.Checked

def isDigit (c : UInt8) : Bool := 48 ≤ c && c ≤ 57

def digitVal (c : UInt8) : ℕ := c.toNat-48

/-- The number that a run of digits denotes. -/
def ofDigits (ds : List UInt8) : ℕ := ds.foldl (fun x c => x*10+digitVal c) 0

set_option maxRecDepth 8000 in
theorem isDigit_cases : ∀ c : UInt8, ((c-48 < 10) ↔ isDigit c = true) ∧
    (isDigit c = true ↔ 48 ≤ c.toNat ∧ c.toNat ≤ 57) ∧
    (isDigit c = true → (c-48).toNat = digitVal c) := by
  decide

theorem sub_lt_iff (c : UInt8) : c-48 < 10 ↔ isDigit c = true := (isDigit_cases c).1

theorem isDigit_iff (c : UInt8) : isDigit c = true ↔ 48 ≤ c.toNat ∧ c.toNat ≤ 57 :=
  (isDigit_cases c).2.1

theorem sub_toNat {c : UInt8} (h : isDigit c = true) : (c-48).toNat = digitVal c :=
  (isDigit_cases c).2.2 h

theorem digitVal_lt {c : UInt8} (h : isDigit c = true) : digitVal c < 10 := by
  rw [isDigit_iff] at h
  unfold digitVal
  omega

theorem foldl_digits (ds : List UInt8) (x : ℕ) :
    ds.foldl (fun x c => x*10+digitVal c) x = x*10^ds.length+ofDigits ds := by
  unfold ofDigits
  induction ds generalizing x with
  | nil => simp
  | cons c ds ih =>
    rw [List.foldl_cons, ih, List.foldl_cons, ih (0*10+digitVal c), List.length_cons, pow_succ]
    ring

@[simp] theorem ofDigits_nil : ofDigits [] = 0 := rfl

theorem ofDigits_cons (c : UInt8) (ds : List UInt8) :
    ofDigits (c :: ds) = digitVal c*10^ds.length+ofDigits ds := by
  rw [ofDigits, List.foldl_cons, foldl_digits, Nat.zero_mul, Nat.zero_add]

theorem ofDigits_append (a b : List UInt8) :
    ofDigits (a ++ b) = ofDigits a*10^b.length+ofDigits b := by
  rw [← foldl_digits b, ofDigits, List.foldl_append]
  rfl

theorem ofDigits_lt {ds : List UInt8} (h : ∀ c ∈ ds, isDigit c = true) :
    ofDigits ds < 10^ds.length := by
  induction ds with
  | nil => simp
  | cons c ds ih =>
    have h1 := digitVal_lt (h c (by simp))
    have h2 := ih fun c hc => h c (by simp [hc])
    rw [ofDigits_cons, List.length_cons, pow_succ]
    nlinarith

theorem parseDigits_eq {σ : Type} (f : σ → ℕ → σ) (s : List UInt8) (x : σ) :
    parseDigits f s x = (s.dropWhile isDigit,
      (s.takeWhile isDigit).foldl (fun x c => f x (digitVal c)) x) := by
  induction s generalizing x with
  | nil => rfl
  | cons c s ih =>
    unfold parseDigits
    by_cases hc : isDigit c = true
    · rw [if_pos ((sub_lt_iff c).mpr hc), ih, sub_toNat hc, List.dropWhile_cons_of_pos hc,
        List.takeWhile_cons_of_pos hc, List.foldl_cons]
    · rw [if_neg (mt (sub_lt_iff c).mp hc), List.dropWhile_cons_of_neg hc,
        List.takeWhile_cons_of_neg hc]
      rfl

/-! ## Eight bytes at a time -/

/-- `n` copies of a byte. -/
def repeatByte (b : ℕ) : ℕ → ℕ
  | 0 => 0
  | n+1 => b+256*repeatByte b n

theorem repeatByte_lt {b : ℕ} (hb : b < 256) (n : ℕ) : repeatByte b n < 256^n := by
  induction n with
  | zero => simp [repeatByte]
  | succ n ih =>
    rw [repeatByte, pow_succ]
    omega

theorem upper_bits_iff (l : List UInt8) :
    (∀ i < l.length, (fromLeBytes l+repeatByte 0x46 l.length)/(128*256^i)%2 = 0 ∧
      (fromLeBytes l+256^l.length-repeatByte 0x30 l.length)/(128*256^i)%2 = 0) ↔
    ∀ c ∈ l, isDigit c = true := by
  induction l with
  | nil => simp
  | cons c l ih =>
    have hc := c.toNat_lt
    have h30 := repeatByte_lt (show 0x30 < 256 by norm_num) l.length
    simp only [fromLeBytes, repeatByte, List.length_cons, List.forall_mem_cons, isDigit_iff] at *
    rw [← ih]
    generalize hA : fromLeBytes l+repeatByte 0x46 l.length = a
    generalize hB : fromLeBytes l+256^l.length-repeatByte 0x30 l.length = b
    have ha : c.toNat+256*fromLeBytes l+(0x46+256*repeatByte 0x46 l.length) =
        c.toNat+0x46+256*a := by omega
    have hb : c.toNat+256*fromLeBytes l+256^(l.length+1)-(0x30+256*repeatByte 0x30 l.length) =
        c.toNat+256*b-0x30 := by
      rw [pow_succ]
      omega
    have hb1 : 1 ≤ b := by omega
    rw [ha, hb]
    -- the higher bytes, once the lowest one is a digit
    have hshift : 48 ≤ c.toNat → c.toNat ≤ 57 → ∀ i,
        (c.toNat+0x46+256*a)/(128*256^(i+1)) = a/(128*256^i) ∧
        (c.toNat+256*b-0x30)/(128*256^(i+1)) = b/(128*256^i) := by
      intro h1 h2 i
      rw [show 128*256^(i+1) = 256*(128*256^i) by rw [pow_succ]; ring,
        ← Nat.div_div_eq_div_mul _ 256, ← Nat.div_div_eq_div_mul _ 256]
      constructor
      · congr 1
        omega
      · congr 1
        omega
    constructor
    · intro h
      have h0 := h 0 (by omega)
      simp only [pow_zero, Nat.mul_one] at h0
      have hd : 48 ≤ c.toNat ∧ c.toNat ≤ 57 := by omega
      refine ⟨hd, fun i hi => ?_⟩
      have hs := hshift hd.1 hd.2 i
      rw [← hs.1, ← hs.2]
      exact h (i+1) (by omega)
    · rintro ⟨hd, h⟩ i hi
      cases i with
      | zero =>
        simp only [pow_zero, Nat.mul_one]
        omega
      | succ i =>
        have hs := hshift hd.1 hd.2 i
        rw [hs.1, hs.2]
        exact h i (by omega)

set_option maxRecDepth 4000 in
theorem upper_mask_testBit (j : ℕ) :
    (0x8080808080808080).testBit j = decide (j < 64 ∧ j%8 = 7) := by
  rcases Nat.lt_or_ge j 64 with hj | hj
  · interval_cases j <;> decide
  · rw [Nat.testBit_lt_two_pow (calc 0x8080808080808080 < 2^64 := by norm_num
      _ ≤ 2^j := Nat.pow_le_pow_right (by norm_num) hj)]
    simp
    omega

theorem and_upper_mask (v : ℕ) : v &&& 0x8080808080808080 = 0 ↔
    ∀ i < 8, v/(128*256^i)%2 = 0 := by
  have hpow : ∀ i, 128*256^i = 2^(8*i+7) := by
    intro i
    rw [pow_add, pow_mul]
    ring
  constructor
  · intro h i hi
    have := congrArg (fun x => Nat.testBit x (8*i+7)) h
    simp only [Nat.testBit_and, upper_mask_testBit, Nat.zero_testBit] at this
    rw [decide_eq_true (by omega), Bool.and_true, Nat.testBit_eq_decide_div_mod_eq,
      decide_eq_false_iff_not] at this
    rw [hpow]
    omega
  · intro h
    apply Nat.eq_of_testBit_eq
    intro j
    rw [Nat.testBit_and, upper_mask_testBit, Nat.zero_testBit, Bool.and_eq_false_iff]
    by_cases hj : j < 64 ∧ j%8 = 7
    · left
      have := h (j/8) (by omega)
      rw [hpow, show 8*(j/8)+7 = j by omega] at this
      rw [Nat.testBit_eq_decide_div_mod_eq, decide_eq_false_iff_not]
      omega
    · right
      exact decide_eq_false hj

theorem or_upper_bit (a b i : ℕ) : (a ||| b)/(128*256^i)%2 = 0 ↔
    a/(128*256^i)%2 = 0 ∧ b/(128*256^i)%2 = 0 := by
  have hpow : 128*256^i = 2^(8*i+7) := by
    rw [pow_add, pow_mul]
    ring
  have h := Nat.testBit_or a b (8*i+7)
  simp only [Nat.testBit_eq_decide_div_mod_eq, ← hpow] at h
  generalize (a ||| b)/(128*256^i) = x at *
  generalize a/(128*256^i) = y at *
  generalize b/(128*256^i) = z at *
  rw [← Bool.decide_or, decide_eq_decide] at h
  omega

theorem mod_upper_bit {i : ℕ} (hi : i < 8) (a : ℕ) :
    a%2^64/(128*256^i)%2 = a/(128*256^i)%2 := by
  have hpow : 128*256^i = 2^(8*i+7) := by
    rw [pow_add, pow_mul]
    ring
  have h := Nat.testBit_mod_two_pow a 64 (8*i+7)
  rw [decide_eq_true (by omega), Bool.true_and] at h
  simp only [Nat.testBit_eq_decide_div_mod_eq, ← hpow] at h
  rw [decide_eq_decide] at h
  omega

theorem is8Digits_iff {l : List UInt8} (hl : l.length = 8) :
    is8Digits (fromLeBytes l) = true ↔ ∀ c ∈ l, isDigit c = true := by
  rw [← upper_bits_iff l, hl]
  have h46 : repeatByte 0x46 8 = 0x4646464646464646 := rfl
  have h30 : repeatByte 0x30 8 = 0x3030303030303030 := rfl
  rw [h46, h30]
  simp only [is8Digits, beq_iff_eq, and_upper_mask, or_upper_bit]
  constructor
  · intro h i hi
    have := h i hi
    rw [mod_upper_bit hi, mod_upper_bit hi] at this
    exact this
  · intro h i hi
    rw [mod_upper_bit hi, mod_upper_bit hi]
    exact h i hi

theorem and_bytes_mask (v : ℕ) :
    v &&& 0x000000FF000000FF = v%2^8+v/2^32%2^8*2^32 := by
  have hmask : 0x000000FF000000FF = 2^32*(2^8-1) ||| (2^8-1) := by decide
  have hlow : v%2^8 < 2^32 := by omega
  rw [hmask, Nat.and_or_distrib_left, Nat.and_two_pow_sub_one_eq_mod, Nat.add_comm,
    Nat.mul_comm _ (2^32), Nat.two_pow_add_eq_or_of_lt hlow]
  congr 1
  apply Nat.eq_of_testBit_eq
  intro j
  rw [Nat.testBit_and, Nat.testBit_two_pow_mul, Nat.testBit_two_pow_mul, Nat.testBit_mod_two_pow,
    Nat.testBit_two_pow_sub_one, Nat.testBit_div_two_pow]
  by_cases hj : 32 ≤ j
  · simp [hj, Bool.and_comm]
  · simp [hj]

theorem byte_at {n a p y : ℕ} (ha : a < 2^n) (hp : p < 2^8) : (a+2^n*(p+2^8*y))/2^n%2^8 = p := by
  rw [Nat.add_mul_div_left _ _ (by positivity), Nat.div_eq_of_lt ha, Nat.zero_add,
    Nat.add_mul_mod_self_left, Nat.mod_eq_of_lt hp]

theorem bytes_lt {a b n : ℕ} (ha : a < 256) (hb : b < 2^n) : a+256*b < 2^(n+8) := by
  rw [pow_add]
  omega

theorem even_bytes {p0 p1 p2 p3 p4 p5 p6 p7 v : ℕ} (h0 : p0 < 256) (h1 : p1 < 256) (h2 : p2 < 256)
    (h3 : p3 < 256) (h4 : p4 < 256) (h5 : p5 < 256) (h6 : p6 < 256)
    (hv : v = p0+256*(p1+256*(p2+256*(p3+256*(p4+256*(p5+256*(p6+256*p7))))))) :
    v%2^8 = p0 ∧ v/2^16%2^8 = p2 ∧ v/2^32%2^8 = p4 ∧ v/2^16/2^32%2^8 = p6 := by
  have hlow2 : p0+256*p1 < 2^16 := bytes_lt h0 h1
  have hlow4 : p0+256*(p1+256*(p2+256*p3)) < 2^32 := bytes_lt h0 (bytes_lt h1 (bytes_lt h2 h3))
  have hlow6 : p0+256*(p1+256*(p2+256*(p3+256*(p4+256*p5)))) < 2^48 :=
    bytes_lt h0 (bytes_lt h1 (bytes_lt h2 (bytes_lt h3 (bytes_lt h4 h5))))
  refine ⟨?_, ?_, ?_, ?_⟩
  · rw [hv, show 2^8 = 256 by norm_num, Nat.add_mul_mod_self_left, Nat.mod_eq_of_lt h0]
  · rw [hv, show p0+256*(p1+256*(p2+256*(p3+256*(p4+256*(p5+256*(p6+256*p7)))))) =
      (p0+256*p1)+2^16*(p2+2^8*(p3+256*(p4+256*(p5+256*(p6+256*p7))))) by ring,
      byte_at hlow2 h2]
  · rw [hv, show p0+256*(p1+256*(p2+256*(p3+256*(p4+256*(p5+256*(p6+256*p7)))))) =
      (p0+256*(p1+256*(p2+256*p3)))+2^32*(p4+2^8*(p5+256*(p6+256*p7))) by ring,
      byte_at hlow4 h4]
  · rw [Nat.div_div_eq_div_mul, ← pow_add, hv,
      show p0+256*(p1+256*(p2+256*(p3+256*(p4+256*(p5+256*(p6+256*p7)))))) =
      (p0+256*(p1+256*(p2+256*(p3+256*(p4+256*p5)))))+2^48*(p6+2^8*p7) by ring,
      byte_at hlow6 h6]

theorem pairs_eq {p0 p2 p4 p6 : ℕ} (h0 : p0 < 100) (h2 : p2 < 100) (h4 : p4 < 100) (h6 : p6 < 100) :
    ((p0+p4*2^32)*0x000F424000000064%2^64+(p2+p6*2^32)*0x0000271000000001%2^64)%2^64/2^32%2^32 =
      p0*1000000+p2*10000+p4*100+p6 := by
  have e1 : (p0+p4*2^32)*0x000F424000000064%2^64 = 100*p0+(1000000*p0+100*p4)*2^32 := by
    rw [show (p0+p4*2^32)*0x000F424000000064 =
      100*p0+(1000000*p0+100*p4)*2^32+2^64*(1000000*p4) by ring, Nat.add_mul_mod_self_left,
      Nat.mod_eq_of_lt (by omega)]
  have e2 : (p2+p6*2^32)*0x0000271000000001%2^64 = p2+(10000*p2+p6)*2^32 := by
    rw [show (p2+p6*2^32)*0x0000271000000001 =
      p2+(10000*p2+p6)*2^32+2^64*(10000*p6) by ring, Nat.add_mul_mod_self_left,
      Nat.mod_eq_of_lt (by omega)]
  have hlow : 100*p0+p2 < 2^32 := by omega
  have hhigh : p0*1000000+p2*10000+p4*100+p6 < 2^32 := by omega
  have hlt : 100*p0+p2+2^32*(p0*1000000+p2*10000+p4*100+p6) < 2^64 := by omega
  rw [e1, e2, show 100*p0+(1000000*p0+100*p4)*2^32+(p2+(10000*p2+p6)*2^32) =
    (100*p0+p2)+2^32*(p0*1000000+p2*10000+p4*100+p6) by ring, Nat.mod_eq_of_lt hlt,
    Nat.add_mul_div_left _ _ (by norm_num), Nat.div_eq_of_lt hlow, Nat.zero_add,
    Nat.mod_eq_of_lt hhigh]

theorem exists_digit {c : UInt8} (hc : isDigit c = true) :
    ∃ d, d < 10 ∧ c.toNat = 48+d ∧ digitVal c = d := by
  refine ⟨digitVal c, digitVal_lt hc, ?_, rfl⟩
  rw [isDigit_iff] at hc
  unfold digitVal
  omega

theorem parse8Digits_word {d0 d1 d2 d3 d4 d5 d6 d7 : ℕ} (h0 : d0 < 10) (h1 : d1 < 10) (h2 : d2 < 10)
    (h3 : d3 < 10) (h4 : d4 < 10) (h5 : d5 < 10) (h6 : d6 < 10) (h7 : d7 < 10) :
    parse8Digits (0x3030303030303030+(d0+256*(d1+256*(d2+256*(d3+256*(d4+256*(d5+256*(d6+
      256*d7)))))))) =
      some ((10*d0+d1)*1000000+(10*d2+d3)*10000+(10*d4+d5)*100+(10*d6+d7)) := by
  obtain ⟨r, hr⟩ : ∃ r, r = d1+256*(d2+256*(d3+256*(d4+256*(d5+256*(d6+256*d7))))) := ⟨_, rfl⟩
  have hrlt : r < 2^52 := by
    rw [hr]
    exact bytes_lt (by omega) (bytes_lt (by omega) (bytes_lt (by omega) (bytes_lt (by omega)
      (bytes_lt (by omega) (bytes_lt (n := 4) (by omega) (by omega))))))
  have hfit : (d0+256*r)*10+r < 2^64 := by
    clear hr
    omega
  have p0 : 10*d0+d1 < 100 := by omega
  have p1 : 10*d1+d2 < 100 := by omega
  have p2 : 10*d2+d3 < 100 := by omega
  have p3 : 10*d3+d4 < 100 := by omega
  have p4 : 10*d4+d5 < 100 := by omega
  have p5 : 10*d5+d6 < 100 := by omega
  have p6 : 10*d6+d7 < 100 := by omega
  have hshift : (d0+256*r)/2^8 = r := by
    rw [show 2^8 = 256 by norm_num, Nat.add_mul_div_left _ _ (by norm_num),
      Nat.div_eq_of_lt (h0.trans (by norm_num)), Nat.zero_add]
  -- every byte of the sum holds two neighbouring digits
  have hv : (d0+256*r)*10+r = (10*d0+d1)+256*((10*d1+d2)+256*((10*d2+d3)+256*((10*d3+d4)+
      256*((10*d4+d5)+256*((10*d5+d6)+256*((10*d6+d7)+256*(10*d7))))))) := by
    rw [hr]
    ring
  obtain ⟨e0, e2, e4, e6⟩ := even_bytes (p0.trans (by norm_num)) (p1.trans (by norm_num))
    (p2.trans (by norm_num)) (p3.trans (by norm_num)) (p4.trans (by norm_num))
    (p5.trans (by norm_num)) (p6.trans (by norm_num)) hv
  rw [← hr]
  unfold parse8Digits
  rw [sub_eq (Nat.le_add_right _ _), Nat.add_sub_cancel_left]
  simp only [some_bind, Option.pure_def, hshift]
  rw [u64_eq hfit]
  simp only [some_bind, and_bytes_mask, e0, e2, e4, e6]
  rw [pairs_eq p0 p2 p4 p6]

theorem parse8Digits_eq {c0 c1 c2 c3 c4 c5 c6 c7 : UInt8}
    (h : ∀ c ∈ [c0, c1, c2, c3, c4, c5, c6, c7], isDigit c = true) :
    parse8Digits (fromLeBytes [c0, c1, c2, c3, c4, c5, c6, c7]) =
      some (ofDigits [c0, c1, c2, c3, c4, c5, c6, c7]) := by
  simp only [List.forall_mem_cons, List.not_mem_nil, IsEmpty.forall_iff, implies_true,
    and_true] at h
  obtain ⟨h0, h1, h2, h3, h4, h5, h6, h7⟩ := h
  obtain ⟨d0, h0, t0, v0⟩ := exists_digit h0
  obtain ⟨d1, h1, t1, v1⟩ := exists_digit h1
  obtain ⟨d2, h2, t2, v2⟩ := exists_digit h2
  obtain ⟨d3, h3, t3, v3⟩ := exists_digit h3
  obtain ⟨d4, h4, t4, v4⟩ := exists_digit h4
  obtain ⟨d5, h5, t5, v5⟩ := exists_digit h5
  obtain ⟨d6, h6, t6, v6⟩ := exists_digit h6
  obtain ⟨d7, h7, t7, v7⟩ := exists_digit h7
  simp only [fromLeBytes, ofDigits, List.foldl_cons, List.foldl_nil, t0, t1, t2, t3, t4, t5, t6,
    t7, v0, v1, v2, v3, v4, v5, v6, v7]
  have hword : 48+d0+256*(48+d1+256*(48+d2+256*(48+d3+256*(48+d4+256*(48+d5+256*(48+d6+256*(48+d7+
      256*0))))))) = 0x3030303030303030+(d0+256*(d1+256*(d2+256*(d3+256*(d4+256*(d5+256*(d6+
      256*d7))))))) := by ring
  rw [hword, parse8Digits_word h0 h1 h2 h3 h4 h5 h6 h7]
  congr 1
  ring

/-! ## The digit loops -/

theorem mod_mul_add_mod (y k t n : ℕ) : (y%n*k+t)%n = (y*k+t)%n := by
  rw [Nat.add_mod, Nat.mul_mod, Nat.mod_mod, ← Nat.mul_mod, ← Nat.add_mod]

theorem foldl_digits_mod (ds : List UInt8) {x : ℕ} (hx : x < 2^64) :
    ds.foldl (fun x c => (x*10%2^64+digitVal c)%2^64) x =
      (x*10^ds.length+ofDigits ds)%2^64 := by
  induction ds generalizing x with
  | nil =>
    rw [List.foldl_nil, List.length_nil, pow_zero, ofDigits_nil, Nat.mul_one, Nat.add_zero,
      Nat.mod_eq_of_lt hx]
  | cons c ds ih =>
    rw [List.foldl_cons, ih (Nat.mod_lt _ (by norm_num)), ofDigits_cons, List.length_cons,
      Nat.mod_add_mod, mod_mul_add_mod]
    have : (x*10+digitVal c)*10^ds.length+ofDigits ds =
        x*10^(ds.length+1)+(digitVal c*10^ds.length+ofDigits ds) := by ring
    rw [this]

theorem readU64_cons (b0 b1 b2 b3 b4 b5 b6 b7 : UInt8) (rest : List UInt8) :
    readU64 (b0 :: b1 :: b2 :: b3 :: b4 :: b5 :: b6 :: b7 :: rest) =
      some (fromLeBytes [b0, b1, b2, b3, b4, b5, b6, b7]) := by
  rw [readU64, if_pos (by simp only [List.length_cons]; omega)]
  rfl

theorem parseEights_eq (s : List UInt8) {x : ℕ} (hx : x < 2^64) :
    ∃ a b, s = a ++ b ∧ (∀ c ∈ a, isDigit c = true) ∧
      parseEights s x = some (b, (x*10^a.length+ofDigits a)%2^64) := by
  induction s, x using parseEights.induct with
  | case1 b0 b1 b2 b3 b4 b5 b6 b7 rest x ih =>
    obtain ⟨eight, height⟩ : ∃ l, l = [b0, b1, b2, b3, b4, b5, b6, b7] := ⟨_, rfl⟩
    have hread : readU64 (b0 :: b1 :: b2 :: b3 :: b4 :: b5 :: b6 :: b7 :: rest) =
        some (fromLeBytes eight) := by
      rw [height]
      exact readU64_cons b0 b1 b2 b3 b4 b5 b6 b7 rest
    have hlen : eight.length = 8 := by rw [height]; rfl
    rw [parseEights.eq_1, hread, some_bind]
    by_cases hd : is8Digits (fromLeBytes eight) = true
    · have hall := (is8Digits_iff hlen).mp hd
      have hval : parse8Digits (fromLeBytes eight) = some (ofDigits eight) := by
        rw [height] at hall ⊢
        exact parse8Digits_eq hall
      obtain ⟨a, b, rfl, ha, hp⟩ := ih (ofDigits eight) (Nat.mod_lt _ (by norm_num))
      rw [if_pos hd, hval, some_bind, hp]
      refine ⟨eight ++ a, b, by rw [height]; rfl, ?_, ?_⟩
      · intro c hc
        rcases List.mem_append.mp hc with hc | hc
        · exact hall c hc
        · exact ha c hc
      · have : (x*100000000+ofDigits eight)*10^a.length+ofDigits a =
            x*10^(8+a.length)+(ofDigits eight*10^a.length+ofDigits a) := by ring
        rw [Nat.mod_add_mod, mod_mul_add_mod, List.length_append, hlen, ofDigits_append, this]
    · rw [if_neg hd]
      refine ⟨[], _, rfl, by simp, ?_⟩
      rw [Option.pure_def, List.length_nil, pow_zero, ofDigits_nil, Nat.mul_one, Nat.add_zero, Nat.mod_eq_of_lt hx]
  | case2 s x h =>
    refine ⟨[], s, rfl, by simp, ?_⟩
    rw [parseEights.eq_2 _ _ h, List.length_nil, pow_zero, ofDigits_nil, Nat.mul_one, Nat.add_zero,
      Nat.mod_eq_of_lt hx]

theorem tryParseDigits_eq (s : List UInt8) {x : ℕ} (hx : x < 2^64) :
    tryParseDigits s x = some (s.dropWhile isDigit,
      (x*10^(s.takeWhile isDigit).length+ofDigits (s.takeWhile isDigit))%2^64) := by
  obtain ⟨a, b, rfl, ha, hp⟩ := parseEights_eq s hx
  rw [tryParseDigits, hp, some_bind]
  simp only [parseDigits_eq, Option.pure_def]
  rw [foldl_digits_mod _ (Nat.mod_lt _ (by norm_num)), List.dropWhile_append_of_pos ha,
    List.takeWhile_append_of_pos ha, List.length_append, ofDigits_append, mod_mul_add_mod]
  generalize b.takeWhile isDigit = t
  have : (x*10^a.length+ofDigits a)*10^t.length+ofDigits t =
      x*10^(a.length+t.length)+(ofDigits a*10^t.length+ofDigits t) := by ring
  rw [this]

end RustStd.Dec2Flt
