import RustStd.Num.Digits

/-!
# `parse_partial_number`

The parts into which a text is scanned, and what the parsed decimal has to do
with the digits: it is exact, or the first nineteen significant digits are its
mantissa. No step panics, whatever the text is.
-/

set_option autoImplicit false

namespace RustStd.Dec2Flt
open RustStd.Checked RustStd.Machine

/-! ## The parts of a text -/

def intPart (s : List UInt8) : List UInt8 := s.takeWhile isDigit

def afterInt (s : List UInt8) : List UInt8 := s.dropWhile isDigit

def fracPart (s : List UInt8) : List UInt8 :=
  match afterInt s with
  | 46 :: r => r.takeWhile isDigit
  | _ => []

def afterFrac (s : List UInt8) : List UInt8 :=
  match afterInt s with
  | 46 :: r => r.dropWhile isDigit
  | r => r

theorem intPart_append (s : List UInt8) : intPart s ++ afterInt s = s :=
  List.takeWhile_append_dropWhile

theorem isDigit_intPart (s : List UInt8) : ∀ c ∈ intPart s, isDigit c = true :=
  fun _ hc => List.mem_takeWhile_imp hc

theorem isDigit_fracPart (s : List UInt8) : ∀ c ∈ fracPart s, isDigit c = true := by
  intro c hc
  unfold fracPart at hc
  split at hc
  · exact List.mem_takeWhile_imp hc
  · simp at hc

theorem isDigit_digits (s : List UInt8) : ∀ c ∈ intPart s ++ fracPart s, isDigit c = true := by
  intro c hc
  rcases List.mem_append.mp hc with hc | hc
  · exact isDigit_intPart s c hc
  · exact isDigit_fracPart s c hc

theorem afterInt_cases (s : List UInt8) :
    (∃ r, afterInt s = 46 :: r ∧ fracPart s = r.takeWhile isDigit ∧
      afterFrac s = r.dropWhile isDigit) ∨
    (fracPart s = [] ∧ afterFrac s = afterInt s ∧ ∀ r, afterInt s ≠ 46 :: r) := by
  unfold fracPart afterFrac
  split
  · rename_i r h
    exact Or.inl ⟨r, h, rfl, rfl⟩
  · rename_i h
    refine Or.inr ⟨rfl, rfl, fun r hr => h r hr⟩

/-! ## Nineteen digits -/

theorem tryParse19Digits_eq (s : List UInt8) {x : ℕ} (hx : x < 10^19) :
    ∃ a b, s = a ++ b ∧ (∀ c ∈ a, isDigit c = true) ∧
      tryParse19Digits s x = some (b, x*10^a.length+ofDigits a) ∧
      x*10^a.length+ofDigits a < 10^19 ∧
      (10^18 ≤ x*10^a.length+ofDigits a ∨ a = s.takeWhile isDigit ∧ b = s.dropWhile isDigit) := by
  induction s generalizing x with
  | nil => exact ⟨[], [], rfl, by simp, by simp [tryParse19Digits], by simpa using hx, by simp⟩
  | cons c s ih =>
    have hmin : min19DigitInt = 10^18 := rfl
    unfold tryParse19Digits
    rw [hmin]
    by_cases hlt : x < 10^18
    · rw [if_pos hlt]
      by_cases hc : isDigit c = true
      · have hd := digitVal_lt hc
        have hfit : x*10+digitVal c < 10^19 := by omega
        obtain ⟨a, b, rfl, ha, hp, hb, hstop⟩ := ih hfit
        have hval : (x*10+digitVal c)*10^a.length+ofDigits a =
            x*10^(c :: a).length+ofDigits (c :: a) := by
          rw [ofDigits_cons, List.length_cons, pow_succ]
          ring
        rw [hval] at hp hb hstop
        refine ⟨c :: a, b, rfl, ?_, ?_, hb, ?_⟩
        · intro d hd
          rcases List.mem_cons.mp hd with rfl | hd
          · exact hc
          · exact ha d hd
        · rw [if_pos ((sub_lt_iff c).mpr hc), sub_toNat hc, u64_eq (by omega),
            Option.bind_eq_bind, Option.bind_some]
          exact hp
        · rw [List.takeWhile_cons_of_pos hc, List.dropWhile_cons_of_pos hc]
          exact hstop.imp id fun h => ⟨congrArg _ h.1, h.2⟩
      · refine ⟨[], c :: s, rfl, by simp, ?_, by simpa using hx, Or.inr ?_⟩
        · rw [if_neg (mt (sub_lt_iff c).mp hc)]
          simp
        · rw [List.takeWhile_cons_of_neg hc, List.dropWhile_cons_of_neg hc]
          exact ⟨rfl, rfl⟩
    · refine ⟨[], c :: s, rfl, by simp, ?_, by simpa using hx, Or.inl ?_⟩
      · rw [if_neg hlt]
        simp
      · simp only [List.length_nil, pow_zero, ofDigits_nil]
        omega

/-! ## Leading zeros -/

theorem skipZeros_total (s : List UInt8) {n : ℤ} (h : -2^63+s.length ≤ n) (h' : n < 2^63) :
    ∃ m, skipZeros s n = some m ∧ m ≤ n := by
  induction s generalizing n with
  | nil => exact ⟨n, rfl, le_rfl⟩
  | cons c s ih =>
    rw [List.length_cons] at h
    push_cast at h
    unfold skipZeros
    by_cases hc : c = 46 ∨ c = 48
    · have hd : (c.toNat-47:ℕ) ≤ 1 := by
        rcases hc with rfl | rfl <;> decide
      obtain ⟨m, hm, hle⟩ := ih (n := n-(c.toNat-47:ℕ)) (by omega) (by omega)
      rw [if_pos hc, i64_eq (by omega) (by omega), Option.bind_eq_bind, Option.bind_some]
      exact ⟨m, hm, by omega⟩
    · rw [if_neg hc]
      exact ⟨n, rfl, le_rfl⟩

/-- Stepping over a run of digits stops at its first nonzero digit. -/
theorem skipZeros_digits (ds r : List UInt8) (hd : ∀ c ∈ ds, isDigit c = true) {n m : ℤ}
    (h : skipZeros (ds ++ r) n = some m) :
    (ofDigits ds = 0 ∧ skipZeros r (n-ds.length) = some m) ∨
    (∃ z : ℕ, m = n-z ∧ z < ds.length ∧ 10^(ds.length-z-1) ≤ ofDigits ds ∧
      ofDigits ds < 10^(ds.length-z)) := by
  induction ds generalizing n with
  | nil => exact Or.inl ⟨rfl, by simpa using h⟩
  | cons c ds ih =>
    have hc := hd c (by simp)
    have hds : ∀ c ∈ ds, isDigit c = true := fun c hc => hd c (by simp [hc])
    have hlt := ofDigits_lt hds
    rw [List.cons_append] at h
    unfold skipZeros at h
    by_cases h0 : c = 48
    · subst h0
      rw [if_pos (Or.inr rfl)] at h
      have h47 : (((48:UInt8).toNat-47:ℕ):ℤ) = 1 := rfl
      rw [h47] at h
      obtain ⟨n', hn', h⟩ := Option.bind_eq_some_iff.mp h
      have hn1 : n' = n-1 := by
        unfold i64 signed at hn'
        split at hn'
        · exact (Option.some.inj hn').symm
        · simp at hn'
      subst hn1
      have hz : ofDigits (48 :: ds) = ofDigits ds := by
        rw [ofDigits_cons, show digitVal 48 = 0 from rfl, Nat.zero_mul, Nat.zero_add]
      rw [hz, List.length_cons]
      rcases ih hds h with ⟨h1, h2⟩ | ⟨z, h1, h2, h3, h4⟩
      · refine Or.inl ⟨h1, ?_⟩
        rw [← h2]
        congr 1
        push_cast
        ring
      · refine Or.inr ⟨z+1, by omega, by omega, ?_, ?_⟩
        · rwa [show ds.length+1-(z+1)-1 = ds.length-z-1 by omega]
        · rwa [show ds.length+1-(z+1) = ds.length-z by omega]
    · have hne : ¬ (c = 46 ∨ c = 48) := by
        rintro (rfl | h)
        · exact absurd hc (by decide)
        · exact h0 h
      rw [if_neg hne] at h
      obtain rfl := Option.some.inj h
      obtain ⟨d, hd10, hd48, hdv⟩ := exists_digit hc
      have hdpos : 1 ≤ digitVal c := by
        rcases Nat.eq_zero_or_pos d with rfl | hpos
        · exact absurd (UInt8.toNat_inj.mp (by simpa using hd48)) h0
        · omega
      have hd9 := digitVal_lt hc
      refine Or.inr ⟨0, by simp, by simp, ?_, ?_⟩
      · rw [ofDigits_cons, List.length_cons, Nat.sub_zero, Nat.add_sub_cancel]
        nlinarith [Nat.zero_le (ofDigits ds), Nat.one_le_pow ds.length 10 (by norm_num)]
      · rw [ofDigits_cons, List.length_cons, Nat.sub_zero, pow_succ]
        nlinarith

theorem skipZeros_le {s : List UInt8} {n m : ℤ} (h : skipZeros s n = some m) : m ≤ n := by
  induction s generalizing n with
  | nil => exact (Option.some.inj h).ge
  | cons c s ih =>
    unfold skipZeros at h
    split at h
    · obtain ⟨n', hn', h⟩ := Option.bind_eq_some_iff.mp h
      have := ih h
      unfold i64 signed at hn'
      split at hn'
      · have := Option.some.inj hn'
        omega
      · simp at hn'
    · exact (Option.some.inj h).ge

/-- What is left of the number of digits counts the significant ones. -/
theorem skipZeros_start (s : List UInt8) {n m : ℤ} (h : skipZeros s n = some m) :
    (ofDigits (intPart s ++ fracPart s) = 0 ∧ m ≤ n-(intPart s ++ fracPart s).length) ∨
    (∃ z : ℕ, m = n-z ∧ z < (intPart s ++ fracPart s).length ∧
      10^((intPart s ++ fracPart s).length-z-1) ≤ ofDigits (intPart s ++ fracPart s) ∧
      ofDigits (intPart s ++ fracPart s) < 10^((intPart s ++ fracPart s).length-z)) := by
  have hint := isDigit_intPart s
  have hfrac := isDigit_fracPart s
  have hflt := ofDigits_lt hfrac
  have hpos : 0 < 10^(fracPart s).length := by positivity
  rw [← intPart_append s] at h
  rw [ofDigits_append, List.length_append]
  rcases skipZeros_digits _ _ hint h with ⟨h0, h1⟩ | ⟨z, h1, h2, h3, h4⟩
  · rw [h0, Nat.zero_mul, Nat.zero_add]
    rcases afterInt_cases s with ⟨r, hr, hf, -⟩ | ⟨hf, -, -⟩
    · rw [hr] at h1
      unfold skipZeros at h1
      rw [if_pos (Or.inl rfl)] at h1
      have h46 : (((46:UInt8).toNat-47:ℕ):ℤ) = 0 := rfl
      rw [h46, sub_zero] at h1
      obtain ⟨n', hn', h1⟩ := Option.bind_eq_some_iff.mp h1
      have hn1 : n' = n-(intPart s).length := by
        unfold i64 signed at hn'
        split at hn'
        · exact (Option.some.inj hn').symm
        · simp at hn'
      rw [hn1, ← List.takeWhile_append_dropWhile (p := isDigit) (l := r), ← hf] at h1
      rcases skipZeros_digits _ _ hfrac h1 with ⟨h2, h3⟩ | ⟨z, h2, h3, h4, h5⟩
      · have := skipZeros_le h3
        exact Or.inl ⟨h2, by push_cast; omega⟩
      · refine Or.inr ⟨(intPart s).length+z, by push_cast; omega, by omega, ?_, ?_⟩
        · rwa [show (intPart s).length+(fracPart s).length-((intPart s).length+z)-1 =
            (fracPart s).length-z-1 by omega]
        · rwa [show (intPart s).length+(fracPart s).length-((intPart s).length+z) =
            (fracPart s).length-z by omega]
    · have := skipZeros_le h1
      rw [hf]
      exact Or.inl ⟨rfl, by simpa using this⟩
  · refine Or.inr ⟨z, h1, by omega, ?_, ?_⟩
    · calc 10^((intPart s).length+(fracPart s).length-z-1) =
          10^((intPart s).length-z-1)*10^(fracPart s).length := by
            rw [← pow_add]
            congr 1
            omega
        _ ≤ ofDigits (intPart s)*10^(fracPart s).length := Nat.mul_le_mul_right _ h3
        _ ≤ _ := Nat.le_add_right _ _
    · calc ofDigits (intPart s)*10^(fracPart s).length+ofDigits (fracPart s) <
          (ofDigits (intPart s)+1)*10^(fracPart s).length := by
            rw [Nat.add_mul, Nat.one_mul]
            omega
        _ ≤ 10^((intPart s).length-z)*10^(fracPart s).length := Nat.mul_le_mul_right _ h4
        _ = _ := by
            rw [← pow_add]
            congr 1
            omega

/-! ## The parsed decimal -/

/-- The decimal `m*10^q` stands for `digits*10^e`: it is equal to it, or its
mantissa are the leading nineteen significant digits. -/
inductive Reads (digits : ℕ) (e : ℤ) : Decimal → Prop
  | exact (hd : digits < 10^19) : Reads digits e ⟨e, digits, false, false⟩
  | leading (m k : ℕ) (hk : 1 ≤ k) (hm : 10^18 ≤ m) (hm' : m < 10^19) (hle : m*10^k ≤ digits)
    (hlt : digits < (m+1)*10^k) : Reads digits e ⟨e+k, m, false, true⟩

theorem reparse19_of_int {start intEnd s : List UInt8} {m : ℕ}
    (h : tryParse19Digits start 0 = some (s, m)) (hm : min19DigitInt ≤ m) :
    reparse19 start intEnd = some (offsetFrom intEnd s, m) := by
  simp only [reparse19, h, Option.bind_eq_bind, Option.bind_some, if_pos hm, Option.pure_def]

theorem reparse19_of_frac {start intEnd s s' : List UInt8} {c : UInt8} {m m' : ℕ}
    (h : tryParse19Digits start 0 = some (c :: s, m)) (hm : ¬ min19DigitInt ≤ m)
    (h' : tryParse19Digits s m = some (s', m')) :
    reparse19 start intEnd = some (-offsetFrom s' s, m') := by
  simp only [reparse19, h, Option.bind_eq_bind, Option.bind_some, if_neg hm, h', Option.pure_def]

theorem reparse19_eq (s : List UInt8) (hbig : 10^19 ≤ ofDigits (intPart s ++ fracPart s)) :
    ∃ m k : ℕ, reparse19 s (afterInt s) = some ((k:ℤ)-(fracPart s).length, m) ∧ 1 ≤ k ∧ 10^18 ≤ m ∧
      m < 10^19 ∧ m*10^k ≤ ofDigits (intPart s ++ fracPart s) ∧
      ofDigits (intPart s ++ fracPart s) < (m+1)*10^k := by
  have hmin : min19DigitInt = 10^18 := rfl
  have hfrac := isDigit_fracPart s
  have hint := isDigit_intPart s
  -- what follows a prefix of the digits lies below one unit of it
  have hbracket : ∀ a b : List UInt8, (∀ c ∈ b, isDigit c = true) → a ++ b = intPart s ++ fracPart s →
      ofDigits a < 10^19 → 1 ≤ b.length ∧ ofDigits a*10^b.length ≤ ofDigits (intPart s ++ fracPart s) ∧
      ofDigits (intPart s ++ fracPart s) < (ofDigits a+1)*10^b.length := by
    intro a b hb hab ha
    have hlt := ofDigits_lt hb
    rw [← hab, ofDigits_append] at hbig ⊢
    refine ⟨?_, by omega, by rw [Nat.add_mul]; omega⟩
    by_contra hlen
    have : b = [] := List.eq_nil_of_length_eq_zero (by omega)
    subst this
    simp at hbig
    omega
  obtain ⟨a, b, hab, ha, hp, hlt, hstop⟩ := tryParse19Digits_eq s (show 0 < 10^19 by norm_num)
  rw [Nat.zero_mul, Nat.zero_add] at hp hlt hstop
  by_cases hfull : 10^18 ≤ ofDigits a
  · -- the digits before the dot were enough
    obtain ⟨c, hc⟩ : ∃ c, intPart s = a ++ c := by
      have : a <+: intPart s := by
        unfold intPart
        rw [hab, List.takeWhile_append_of_pos ha]
        exact List.prefix_append _ _
      obtain ⟨c, hc⟩ := this
      exact ⟨c, hc.symm⟩
    have hbc : b = c ++ afterInt s := by
      have : a ++ b = a ++ (c ++ afterInt s) := by
        rw [← List.append_assoc, ← hc, intPart_append, hab]
      exact List.append_cancel_left this
    obtain ⟨h1, h2, h3⟩ := hbracket a (c ++ fracPart s) (by
      intro d hd
      rcases List.mem_append.mp hd with hd | hd
      · exact hint d (by rw [hc]; simp [hd])
      · exact hfrac d hd) (by rw [hc]; simp) hlt
    refine ⟨ofDigits a, (c ++ fracPart s).length, ?_, h1, hfull, hlt, h2, h3⟩
    rw [reparse19_of_int hp hfull, offsetFrom, hbc]
    simp
  · obtain ⟨ha, hb⟩ := hstop.resolve_left hfull
    change a = intPart s at ha
    change b = afterInt s at hb
    subst ha hb
    rcases afterInt_cases s with ⟨r, hr, hf, -⟩ | ⟨hf, -, -⟩
    · obtain ⟨a, b, hab', ha', hp', hlt', hstop'⟩ := tryParse19Digits_eq r hlt
      rw [← ofDigits_append] at hp' hlt' hstop'
      obtain ⟨c, hc⟩ : ∃ c, fracPart s = a ++ c := by
        have : a <+: fracPart s := by
          rw [hf, hab', List.takeWhile_append_of_pos ha']
          exact List.prefix_append _ _
        obtain ⟨c, hc⟩ := this
        exact ⟨c, hc.symm⟩
      obtain ⟨h1, h2, h3⟩ := hbracket (intPart s ++ a) c
        (fun d hd => hfrac d (by rw [hc]; simp [hd])) (by rw [hc]; simp) hlt'
      have hge : 10^18 ≤ ofDigits (intPart s ++ a) := by
        -- otherwise the digits after the dot are used up
        by_contra hsmall
        obtain ⟨he, -⟩ := hstop'.resolve_left hsmall
        rw [← hf, hc] at he
        have : c = [] := by simpa using he
        simp [this] at h1
      rw [hr] at hp
      refine ⟨ofDigits (intPart s ++ a), c.length, ?_, h1, hge, hlt', h2, h3⟩
      rw [reparse19_of_frac hp (by rw [hmin]; exact hfull) hp', offsetFrom, hc, hab']
      simp
    · -- without a dot all digits were read
      rw [hf, List.append_nil] at hbig
      omega

theorem parseManyDigits_eq (s : List UInt8) (hlen : s.length ≤ isizeMax) (e : ℤ)
    (hmany : 19 < (intPart s ++ fracPart s).length) :
    ∃ d, parseManyDigits s (afterInt s) (intPart s ++ fracPart s).length
        (-(fracPart s).length+e) e (ofDigits (intPart s ++ fracPart s)%2^64) = some d ∧
      Reads (ofDigits (intPart s ++ fracPart s)) (e-(fracPart s).length) d := by
  have hds : (intPart s ++ fracPart s).length ≤ s.length := by
    rw [List.length_append]
    have h1 := congrArg List.length (intPart_append s)
    rw [List.length_append] at h1
    rcases afterInt_cases s with ⟨r, hr, hf, -⟩ | ⟨hf, -, -⟩
    · have h2 := (List.takeWhile_prefix isDigit (l := r)).length_le
      rw [hr, List.length_cons] at h1
      rw [hf]
      omega
    · rw [hf]
      simp
      omega
  unfold isizeMax at hlen
  unfold parseManyDigits
  rw [i64_eq (by omega) (by omega), Option.bind_eq_bind, Option.bind_some]
  obtain ⟨m, hm, -⟩ := skipZeros_total s (n := (intPart s ++ fracPart s).length-19)
    (by omega) (by omega)
  rw [hm, Option.bind_some]
  have hexact (many : Option Decimal) : ofDigits (intPart s ++ fracPart s) < 10^19 → ¬ 0 < m →
      ∃ d, (if 0 < m then many
      else return ⟨-(fracPart s).length+e, ofDigits (intPart s ++ fracPart s)%2^64, false, false⟩ :
        Option Decimal) = some d ∧
      Reads (ofDigits (intPart s ++ fracPart s)) (e-(fracPart s).length) d := by
    intro hlt hm0
    rw [if_neg hm0, Nat.mod_eq_of_lt (by omega),
      show -((fracPart s).length:ℤ)+e = e-(fracPart s).length by ring]
    exact ⟨_, rfl, .exact hlt⟩
  rcases skipZeros_start s hm with ⟨h0, hle⟩ | ⟨z, hz, hzl, hge, hlt⟩
  · apply hexact
    · rw [h0]
      norm_num
    · omega
  · by_cases hpos : 0 < m
    · -- at least twenty significant digits
      have hbig : 10^19 ≤ ofDigits (intPart s ++ fracPart s) :=
        (Nat.pow_le_pow_right (by norm_num) (by omega)).trans hge
      obtain ⟨m', k, hr, h1, h2, h3, h4, h5⟩ := reparse19_eq s hbig
      rw [if_pos hpos, hr, Option.bind_eq_bind, Option.bind_some]
      refine ⟨_, rfl, ?_⟩
      rw [show (k:ℤ)-(fracPart s).length+e = e-(fracPart s).length+k by ring]
      exact .leading m' k h1 h2 h3 h4 h5
    · apply hexact _ _ hpos
      exact hlt.trans_le (Nat.pow_le_pow_right (by norm_num) (by omega))

theorem parseFraction_eq (s : List UInt8) {m : ℕ} (hm : m < 2^64) :
    parseFraction (afterInt s) m = some (afterFrac s,
      (m*10^(fracPart s).length+ofDigits (fracPart s))%2^64, ((fracPart s).length:ℤ)) := by
  rcases afterInt_cases s with ⟨r, hr, hf, ha⟩ | ⟨hf, ha, hne⟩
  · have hoff : offsetFrom (r.dropWhile isDigit) r = ((r.takeWhile isDigit).length:ℤ) := by
      have := congrArg List.length (List.takeWhile_append_dropWhile (p := isDigit) (l := r))
      rw [List.length_append] at this
      unfold offsetFrom
      omega
    rw [hr, parseFraction, tryParseDigits_eq r hm, Option.bind_eq_bind, Option.bind_some, hf, ha,
      ← hoff, Option.pure_def]
  · unfold parseFraction
    split
    · rename_i r hr
      exact absurd hr (hne r)
    · rw [hf, ha, List.length_nil, pow_zero, ofDigits_nil, Nat.mul_one, Nat.add_zero,
        Nat.mod_eq_of_lt hm]
      rfl

/-- The text is rejected without digits or with an incomplete exponent; otherwise
the decimal reads its digits. -/
theorem parsePartialNumber_eq {s : List UInt8} (hne : s ≠ []) (hlen : s.length ≤ isizeMax) :
    (intPart s ++ fracPart s = [] → parsePartialNumber s = some none) ∧
    (intPart s ++ fracPart s ≠ [] → (parseExponent (afterFrac s)).2 = none →
      parsePartialNumber s = some none) ∧
    ∀ e, intPart s ++ fracPart s ≠ [] → (parseExponent (afterFrac s)).2 = some e →
      ∃ d, parsePartialNumber s =
        some (some (d, (s.length:ℤ)-(parseExponent (afterFrac s)).1.length)) ∧
        Reads (ofDigits (intPart s ++ fracPart s)) (e-(fracPart s).length) d := by
  have hint : tryParseDigits s 0 = some (afterInt s, ofDigits (intPart s)%2^64) := by
    rw [tryParseDigits_eq s (by norm_num), Nat.zero_mul, Nat.zero_add]
    rfl
  have hfrac := parseFraction_eq s (Nat.mod_lt (ofDigits (intPart s)) (show 0 < 2^64 by norm_num))
  rw [mod_mul_add_mod, ← ofDigits_append] at hfrac
  have hoff : offsetFrom (afterInt s) s+(fracPart s).length =
      ((intPart s ++ fracPart s).length:ℤ) := by
    have := congrArg List.length (intPart_append s)
    rw [List.length_append] at this ⊢
    unfold offsetFrom
    push_cast
    omega
  have hmod := Nat.mod_eq_of_lt (a := ofDigits (intPart s ++ fracPart s)) (b := 2^64)
  have hmany := parseManyDigits_eq s hlen
  generalize ofDigits (intPart s)%2^64 = m1 at hint hfrac
  generalize ofDigits (intPart s ++ fracPart s)%2^64 = m2 at hfrac hmod hmany
  have hlen0 : ((intPart s ++ fracPart s).length:ℤ) = 0 ↔ intPart s ++ fracPart s = [] := by
    rw [← List.length_eq_zero_iff]
    omega
  simp only [parsePartialNumber, if_neg hne, hint, Option.bind_eq_bind, Option.bind_some, hfrac,
    hoff, hlen0, Option.pure_def]
  refine ⟨fun h => by rw [if_pos h], fun h he => ?_, fun e h he => ?_⟩
  · rw [if_neg h]
    generalize parseExponent (afterFrac s) = sci at he
    obtain ⟨r, e⟩ := sci
    simp only at he
    rw [he]
  · rw [if_neg h]
    generalize parseExponent (afterFrac s) = sci at he
    obtain ⟨r, e'⟩ := sci
    simp only at he
    subst he
    simp only
    by_cases h19 : ((intPart s ++ fracPart s).length:ℤ) ≤ 19
    · have hlt : ofDigits (intPart s ++ fracPart s) < 10^19 :=
        (ofDigits_lt (isDigit_digits s)).trans_le (Nat.pow_le_pow_right (by norm_num) (by omega))
      have hm2 := hmod (by omega)
      rw [if_pos h19, hm2, show -((fracPart s).length:ℤ)+e = e-(fracPart s).length by ring]
      exact ⟨_, rfl, .exact hlt⟩
    · obtain ⟨d, hd, hr⟩ := hmany e (by omega)
      rw [if_neg h19, hd]
      exact ⟨d, rfl, hr⟩

/-! ## The counters -/

/-- `parse_scientific`, where an overflow of the exponent is a panic. -/
def parseScientificChecked (s : List UInt8) : Option (List UInt8 × Option ℤ) :=
  let negative := s.head? == some 45
  let s := if s.head? = some 45 ∨ s.head? = some 43 then s.tail else s
  if s.head?.any (fun x => 48 ≤ x && x ≤ 57) then do
    let (s, exponent) := parseDigits (fun (e : Option ℤ) d =>
      e.bind fun e => if e < 0x10000 then i64 (10*e+d) else some e) s (some 0)
    let exponent ← exponent
    let exponent ← if negative then i64 (-exponent) else some exponent
    return (s, some exponent)
  else some (s, none)

def parseExponentChecked (s : List UInt8) : Option (List UInt8 × Option ℤ) :=
  match s with
  | c :: next => if c = 101 ∨ c = 69 then parseScientificChecked next else some (c :: next, some 0)
  | [] => some ([], some 0)

def parseManyDigitsChecked (start intEnd : List UInt8) (nDigits exponent expNumber : ℤ)
    (mantissa : ℕ) : Option Decimal := do
  let nDigits ← i64 (nDigits-19)
  let nDigits ← skipZeros start nDigits
  if 0 < nDigits then
    let (exponent, mantissa) ← reparse19 start intEnd
    let exponent ← i64 exponent
    let exponent ← i64 (exponent+expNumber)
    return ⟨exponent, mantissa, false, true⟩
  else return ⟨exponent, mantissa, false, false⟩

/-- `parse_partial_number`, where an overflow of any counter is a panic. -/
def parsePartialNumberChecked (start : List UInt8) : Option (Option (Decimal × ℤ)) := do
  if start = [] then none
  else
    let (intEnd, mantissa) ← tryParseDigits start 0
    let nDigits ← i64 (offsetFrom intEnd start)
    let (s, mantissa, nAfterDot) ← parseFraction intEnd mantissa
    let exponent ← i64 (-nAfterDot)
    let nDigits ← i64 (nDigits+nAfterDot)
    if nDigits = 0 then return none
    else
      match ← parseExponentChecked s with
      | (_, none) => return none
      | (s, some expNumber) =>
        let exponent ← i64 (exponent+expNumber)
        let len ← i64 (offsetFrom s start)
        if nDigits ≤ 19 then return some (⟨exponent, mantissa, false, false⟩, len)
        else
          let decimal ← parseManyDigitsChecked start intEnd nDigits exponent expNumber mantissa
          return some (decimal, len)

theorem foldl_exponent (ds : List UInt8) (hd : ∀ c ∈ ds, isDigit c = true) {e : ℤ} (h0 : 0 ≤ e)
    (h : e ≤ 655359) :
    ∃ e' : ℤ, 0 ≤ e' ∧ e' ≤ 655359 ∧
      ds.foldl (fun (e : ℤ) c => if e < 0x10000 then 10*e+digitVal c else e) e = e' ∧
      ds.foldl (fun (e : Option ℤ) c => e.bind fun e =>
        if e < 0x10000 then i64 (10*e+digitVal c) else some e) (some e) = some e' := by
  induction ds generalizing e with
  | nil => exact ⟨e, h0, h, rfl, rfl⟩
  | cons c ds ih =>
    have hc := digitVal_lt (hd c (by simp))
    simp only [List.foldl_cons, Option.bind_some]
    by_cases hlt : e < 0x10000
    · rw [if_pos hlt, if_pos hlt, i64_eq (by omega) (by omega)]
      exact ih (fun c hc => hd c (by simp [hc])) (by omega) (by omega)
    · rw [if_neg hlt, if_neg hlt]
      exact ih (fun c hc => hd c (by simp [hc])) h0 h

theorem parseScientificChecked_eq (s : List UInt8) :
    ∃ r e, parseScientific s = (r, e) ∧ parseScientificChecked s = some (r, e) ∧
      r.length ≤ s.length ∧ ∀ x, e = some x → -655359 ≤ x ∧ x ≤ 655359 := by
  unfold parseScientific parseScientificChecked
  have htail : (if s.head? = some 45 ∨ s.head? = some 43 then s.tail else s).length ≤ s.length := by
    split
    · rw [List.length_tail]
      omega
    · exact le_rfl
  generalize (if s.head? = some 45 ∨ s.head? = some 43 then s.tail else s) = t at htail
  simp only [parseDigits_eq]
  split
  · obtain ⟨e, h0, h, h1, h2⟩ := foldl_exponent (t.takeWhile isDigit)
      (fun c hc => List.mem_takeWhile_imp hc) (le_refl 0) (by norm_num)
    have hdrop := (List.dropWhile_suffix isDigit (l := t)).length_le
    rw [h1, h2]
    refine ⟨_, _, rfl, ?_, hdrop.trans htail, ?_⟩
    · simp only [Option.bind_eq_bind, Option.bind_some]
      split
      · rw [i64_eq (by omega) (by omega)]
        rfl
      · rfl
    · rintro x ⟨⟩
      split <;> omega
  · exact ⟨_, _, rfl, rfl, htail, nofun⟩

theorem parseExponentChecked_eq (s : List UInt8) :
    ∃ r e, parseExponent s = (r, e) ∧ parseExponentChecked s = some (r, e) ∧
      r.length ≤ s.length ∧ ∀ x, e = some x → -655359 ≤ x ∧ x ≤ 655359 := by
  cases s with
  | nil => exact ⟨_, _, rfl, rfl, le_rfl, by rintro x ⟨⟩; norm_num⟩
  | cons c next =>
    simp only [parseExponent, parseExponentChecked]
    by_cases hc : c = 101 ∨ c = 69
    · rw [if_pos hc, if_pos hc]
      obtain ⟨r, e, h, h', hle, hb⟩ := parseScientificChecked_eq next
      exact ⟨r, e, h, h', hle.trans (Nat.le_succ _), hb⟩
    · rw [if_neg hc, if_neg hc]
      exact ⟨_, _, rfl, rfl, le_rfl, by rintro x ⟨⟩; norm_num⟩

theorem tryParse19Digits_length {s r : List UInt8} {x m : ℕ} (hx : x < 10^19)
    (h : tryParse19Digits s x = some (r, m)) : r.length ≤ s.length ∧ m < 10^19 := by
  obtain ⟨a, b, rfl, -, hp, hlt, -⟩ := tryParse19Digits_eq s hx
  rw [hp] at h
  obtain ⟨rfl, rfl⟩ := Prod.mk.inj (Option.some.inj h)
  exact ⟨by simp, hlt⟩

theorem reparse19_bounds {start intEnd : List UInt8} (hle : intEnd.length ≤ start.length) {x : ℤ}
    {m : ℕ} (h : reparse19 start intEnd = some (x, m)) : -start.length ≤ x ∧ x ≤ start.length := by
  obtain ⟨⟨s, m₁⟩, h₁, h⟩ := Option.bind_eq_some_iff.mp h
  obtain ⟨hs, hm₁⟩ := tryParse19Digits_length (by norm_num) h₁
  by_cases hfull : min19DigitInt ≤ m₁
  · simp only [if_pos hfull] at h
    obtain ⟨rfl, rfl⟩ := Prod.mk.inj (Option.some.inj h)
    unfold offsetFrom
    omega
  · simp only [if_neg hfull] at h
    cases s with
    | nil => simp at h
    | cons c s =>
      simp only [Option.bind_eq_bind, Option.bind_some] at h
      obtain ⟨⟨s', m₂⟩, h₂, h⟩ := Option.bind_eq_some_iff.mp h
      obtain ⟨hs', -⟩ := tryParse19Digits_length hm₁ h₂
      obtain ⟨rfl, rfl⟩ := Prod.mk.inj (Option.some.inj h)
      rw [List.length_cons] at hs
      simp only [offsetFrom]
      omega

theorem parseManyDigitsChecked_eq {start intEnd : List UInt8} (hle : intEnd.length ≤ start.length)
    (hlen : start.length+655360 ≤ 2^63) {expNumber : ℤ} (h : -655359 ≤ expNumber)
    (h' : expNumber ≤ 655359) (nDigits exponent : ℤ) (mantissa : ℕ) :
    parseManyDigitsChecked start intEnd nDigits exponent expNumber mantissa =
      parseManyDigits start intEnd nDigits exponent expNumber mantissa := by
  unfold parseManyDigitsChecked parseManyDigits
  congr 1
  funext n
  congr 1
  funext n
  by_cases hpos : 0 < n
  · rw [if_pos hpos, if_pos hpos]
    cases hr : reparse19 start intEnd with
    | none => rfl
    | some p =>
      obtain ⟨hlo, hhi⟩ := reparse19_bounds hle (show reparse19 start intEnd = some (p.1, p.2) from hr)
      simp only [Option.bind_eq_bind, Option.bind_some]
      rw [i64_eq (by omega) (by omega), Option.bind_some, i64_eq (by omega) (by omega)]
      rfl
  · rw [if_neg hpos, if_neg hpos]

theorem slice_of_i64 {n : ℕ} (h : n+655360 ≤ 2^63) : n ≤ isizeMax := by
  unfold isizeMax
  omega

theorem parsePartialNumberChecked_eq {s : List UInt8} (hlen : s.length+655360 ≤ 2^63) :
    parsePartialNumberChecked s = parsePartialNumber s := by
  have hint := congrArg List.length (intPart_append s)
  have hafter : (afterFrac s).length+(fracPart s).length ≤ (afterInt s).length := by
    rcases afterInt_cases s with ⟨r, hr, hf, ha⟩ | ⟨hf, ha, -⟩
    · have := congrArg List.length (List.takeWhile_append_dropWhile (p := isDigit) (l := r))
      rw [List.length_append, ← hf, ← ha] at this
      rw [hr, List.length_cons]
      omega
    · rw [hf, ha]
      simp
  rw [List.length_append] at hint
  have htry : tryParseDigits s 0 = some (afterInt s, (0*10^(intPart s).length+ofDigits (intPart s))%2^64) :=
    tryParseDigits_eq s (by norm_num)
  have hfrac := parseFraction_eq s
    (Nat.mod_lt (0*10^(intPart s).length+ofDigits (intPart s)) (show 0 < 2^64 by norm_num))
  obtain ⟨r, e, h, h', hr, hb⟩ := parseExponentChecked_eq (afterFrac s)
  unfold parsePartialNumberChecked parsePartialNumber
  generalize (0*10^(intPart s).length+ofDigits (intPart s))%2^64 = m₁ at htry hfrac
  generalize (m₁*10^(fracPart s).length+ofDigits (fracPart s))%2^64 = m₂ at hfrac
  have hoff : offsetFrom (afterInt s) s = (intPart s).length := by
    unfold offsetFrom
    omega
  by_cases hne : s = []
  · rw [if_pos hne, if_pos hne]
  rw [if_neg hne, if_neg hne, htry]
  simp only [Option.bind_eq_bind, Option.bind_some, hfrac, h, h', hoff]
  rw [i64_eq (by omega) (by omega), Option.bind_some, i64_eq (by omega) (by omega),
    Option.bind_some, i64_eq (by omega) (by omega), Option.bind_some]
  cases e with
  | none => rfl
  | some e =>
    obtain ⟨hlo, hhi⟩ := hb e rfl
    have hlen' : offsetFrom r s = (s.length:ℤ)-r.length := rfl
    simp only
    rw [i64_eq (by omega) (by omega), Option.bind_some, hlen', i64_eq (by omega) (by omega),
      Option.bind_some, parseManyDigitsChecked_eq (by omega) hlen hlo hhi]

/-! ## What a decimal is worth -/

def denoted (s : List UInt8) (e : ℤ) : ℚ :=
  ofDigits (intPart s ++ fracPart s)*10^(e-(fracPart s).length)

theorem Reads.exact_or_bracket {digits : ℕ} {e : ℤ} {d : Decimal} (h : Reads digits e d) :
    (d.manyDigits = false → (d.mantissa*10^d.exponent : ℚ) = digits*10^e) ∧
    (d.manyDigits = true → 10^18 ≤ d.mantissa ∧ d.mantissa < 10^19 ∧
      (d.mantissa*10^d.exponent : ℚ) ≤ digits*10^e ∧
      (digits*10^e : ℚ) < (d.mantissa+1)*10^d.exponent) := by
  cases h with
  | exact hd => exact ⟨fun _ => rfl, nofun⟩
  | leading m k hk hm hm' hle hlt =>
    refine ⟨nofun, fun _ => ⟨hm, hm', ?_, ?_⟩⟩
    all_goals
      simp only
      rw [zpow_add₀ (by norm_num), zpow_natCast, mul_comm ((10:ℚ)^e), ← mul_assoc]
    · gcongr
      exact_mod_cast hle
    · gcongr
      exact_mod_cast hlt

/-- No step panics and no counter overflows. Without `many_digits` the decimal is the
number, otherwise it has nineteen digits of it. -/
theorem parsePartialNumber_faithful (s : List UInt8) (hne : s ≠ [])
    (hlen : s.length+655360 ≤ 2^63) :
    parsePartialNumber s ≠ none ∧ parsePartialNumberChecked s = parsePartialNumber s ∧
    ∀ d len, parsePartialNumber s = some (some (d, len)) →
      ∃ e, (parseExponent (afterFrac s)).2 = some e ∧
        (d.manyDigits = false → d.mantissa*10^d.exponent = denoted s e) ∧
        (d.manyDigits = true → 10^18 ≤ d.mantissa ∧ d.mantissa < 10^19 ∧
          d.mantissa*10^d.exponent ≤ denoted s e ∧
          denoted s e < (d.mantissa+1)*10^d.exponent) := by
  obtain ⟨hempty, hnone, hsome⟩ := parsePartialNumber_eq hne (slice_of_i64 hlen)
  rw [parsePartialNumberChecked_eq hlen]
  by_cases hdigits : intPart s ++ fracPart s = []
  · rw [hempty hdigits]
    exact ⟨nofun, rfl, nofun⟩
  cases he : (parseExponent (afterFrac s)).2 with
  | none =>
    rw [hnone hdigits he]
    exact ⟨nofun, rfl, nofun⟩
  | some e =>
    obtain ⟨d, hd, hreads⟩ := hsome e hdigits he
    refine ⟨by rw [hd]; exact nofun, rfl, fun d' len hd' => ?_⟩
    rw [hd] at hd'
    obtain ⟨rfl, -⟩ := Prod.mk.inj (Option.some.inj (Option.some.inj hd'))
    exact ⟨e, rfl, hreads.exact_or_bracket⟩

theorem parsePartialNumber_faithful_cut :
    ∃ e, (parseExponent (afterFrac [57, 46, 57, 48, 48, 48, 48, 48, 48, 48, 48, 48, 48, 48, 48, 48,
        48, 48, 48, 48, 49, 101, 50])).2 = some e ∧
      (9900000000000000000*10^(-16:ℤ) : ℚ) ≤ denoted [57, 46, 57, 48, 48, 48, 48, 48, 48, 48, 48, 48,
        48, 48, 48, 48, 48, 48, 48, 48, 49, 101, 50] e := by
  have h := parsePartialNumber_faithful [57, 46, 57, 48, 48, 48, 48, 48, 48, 48, 48, 48, 48, 48, 48,
    48, 48, 48, 48, 48, 49, 101, 50] (by decide) (by decide)
  obtain ⟨e, he, -, hmany⟩ := h.2.2 ⟨-16, 9900000000000000000, false, true⟩ 23 (by decide)
  exact ⟨e, he, (hmany rfl).2.2.1⟩

def longText (n : ℕ) : List UInt8 := 46 :: (.replicate n 48 ++ [101, 45, 54, 53, 53, 51, 53, 57])

theorem longText_parts (n : ℕ) : intPart (longText n) = [] ∧ afterInt (longText n) = longText n ∧
    fracPart (longText n) = .replicate n 48 ∧
    afterFrac (longText n) = [101, 45, 54, 53, 53, 51, 53, 57] := by
  have hzero : ∀ c ∈ List.replicate n (48:UInt8), isDigit c = true := by
    intro c hc
    obtain rfl := List.eq_of_mem_replicate hc
    decide
  have hafter : afterInt (longText n) = longText n := List.dropWhile_cons_of_neg (by decide)
  refine ⟨List.takeWhile_cons_of_neg (by decide), hafter, ?_, ?_⟩
  · rw [fracPart, hafter, longText]
    simp only
    rw [List.takeWhile_append_of_pos hzero, List.takeWhile_cons_of_neg (by decide), List.append_nil]
  · rw [afterFrac, hafter, longText]
    simp only
    rw [List.dropWhile_append_of_pos hzero, List.dropWhile_cons_of_neg (by decide)]

theorem parsePartialNumberChecked_longText {n : ℕ} (h : 2^63 < n+655359) (h' : n < 2^63) :
    parsePartialNumberChecked (longText n) = none := by
  obtain ⟨hint, hafter, hfrac, hrest⟩ := longText_parts n
  obtain ⟨m, hm, htry⟩ : ∃ m < 2^64, tryParseDigits (longText n) 0 = some (afterInt (longText n), m) :=
    ⟨_, Nat.mod_lt _ (by norm_num), tryParseDigits_eq (longText n) (by norm_num)⟩
  have hparse := parseFraction_eq (longText n) hm
  have hexp : parseExponentChecked [101, 45, 54, 53, 53, 51, 53, 57] = some ([], some (-655359)) := by
    decide
  rw [hrest, hfrac, hafter, List.length_replicate] at hparse
  rw [hafter] at htry
  have hoff : offsetFrom (longText n) (longText n) = 0 := Int.sub_self _
  unfold parsePartialNumberChecked
  rw [if_neg (show longText n ≠ [] from List.cons_ne_nil _ _), htry]
  simp only [Option.bind_eq_bind, Option.bind_some, hoff]
  rw [i64_eq (by norm_num) (by norm_num), Option.bind_some, hparse]
  simp only [Option.bind_some]
  rw [i64_eq (by omega) (by omega), Option.bind_some, i64_eq (by omega) (by omega),
    Option.bind_some, if_neg (by omega), hexp, Option.bind_some]
  simp only
  rw [show i64 (-(n:ℤ)+-655359) = none from if_neg (by omega)]
  rfl

/-- Digits beyond the nineteenth may be zeros, and then the decimal is exact with
`many_digits`. The exponent of a text of zeros can fall below an `i64`. -/
theorem parsePartialNumber_many_exact :
    (∃ d len, parsePartialNumber (49 :: .replicate 20 48) = some (some (d, len)) ∧
      d.manyDigits = true ∧ d.mantissa*10^d.exponent = denoted (49 :: .replicate 20 48) 0) ∧
    (longText (2^63-10)).length ≤ isizeMax ∧
    parsePartialNumberChecked (longText (2^63-10)) = none := by
  refine ⟨⟨⟨2, 1000000000000000000, false, true⟩, 21, by decide, rfl, ?_⟩, ?_,
    parsePartialNumberChecked_longText (by norm_num) (by norm_num)⟩
  · have hdigits : ofDigits (intPart (49 :: .replicate 20 48) ++ fracPart (49 :: .replicate 20 48)) =
        10^20 := by decide
    have hfrac : (fracPart (49 :: .replicate 20 48)).length = 0 := by decide
    rw [denoted, hdigits, hfrac]
    norm_num
  · rw [longText, List.length_cons, List.length_append, List.length_replicate]
    unfold isizeMax
    decide

end RustStd.Dec2Flt
