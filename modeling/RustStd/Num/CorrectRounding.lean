import RustStd.Num.Dec2FltRounding

/-!
# When `dec2flt` rounds the number of its text

The float is the nearest one to the digits with the exponent that is read, and
`parse_scientific` stops reading an exponent that has reached `0x10000`. Two
numbers that differ by a factor of ten are rounded alike only where both
overflow or both vanish, and this decides for which texts the float is the
nearest one to the number that the text denotes.
-/

set_option autoImplicit false

namespace RustStd.RawFloat
open RustStd.Nearest

/-- At least half way from the largest finite float to the next power of two. -/
def Overflows (F : RawFloat) (x : ℚ) : Prop := F.value (F.infBits-1)+F.value F.infBits ≤ 2*x

/-- At most half of the least subnormal. -/
def Underflows (F : RawFloat) (x : ℚ) : Prop := 2*x ≤ F.ulp

theorem infBits_pos (F : RawFloat) : 0 < F.infBits := by cases F <;> decide

theorem even_infBits (F : RawFloat) : Even F.infBits := by cases F <;> decide

theorem nearest_infBits_iff (F : RawFloat) (x : ℚ) : F.Nearest x F.infBits ↔ F.Overflows x := by
  constructor
  · intro h
    exact (h.bounds F.value_strictMono).1 F.infBits_pos.ne'
  · intro h
    apply isNearest_of_between F.value_strictMono le_rfl
    · right
      rcases h.lt_or_eq with h | h
      · exact Or.inl h
      · exact Or.inr ⟨h, F.even_infBits⟩
    · exact Or.inl rfl

theorem nearest_zero_iff (F : RawFloat) {x : ℚ} (hx : 0 ≤ x) :
    F.Nearest x 0 ↔ F.Underflows x := by
  constructor
  · intro h
    have := (h.bounds F.value_strictMono).2 F.infBits_pos.ne
    rw [F.value_subnormal (Nat.zero_le _), F.value_subnormal Nat.one_le_two_pow] at this
    simpa [Underflows] using this
  · intro h
    exact F.nearest_zero hx h

theorem value_succ_le (F : RawFloat) {n : ℕ} (hn : n ≠ 0) : F.value (n+1) ≤ 2*F.value n := by
  obtain ⟨k, m, rfl, hm, hk⟩ := F.exists_rung n
  have hpos : 1 ≤ 2^F.sigBits := Nat.one_le_two_pow
  have hm0 : 1 ≤ m := by
    rcases hk with hk | rfl
    · omega
    · omega
  have hmQ : (1:ℚ) ≤ m := by exact_mod_cast hm0
  rw [Nat.add_assoc, F.value_rung hm.le hk, F.value_rung (show m+1 ≤ 2^(F.sigBits+1) from hm)
    (by omega)]
  have hul := F.ulp_pos
  have : ((m+1:ℕ):ℚ) ≤ 2*m := by
    push_cast
    linarith
  calc ((m+1:ℕ):ℚ)*2^k*F.ulp ≤ 2*m*2^k*F.ulp := by gcongr
    _ = 2*(m*2^k*F.ulp) := by ring

theorem Nearest.lt_ten {F : RawFloat} {x y : ℚ} {n : ℕ} (hx : F.Nearest x n) (hy : F.Nearest y n)
    (h0 : n ≠ 0) (hinf : n ≠ F.infBits) : y < 10*x := by
  have hlo := (hx.bounds F.value_strictMono).1 h0
  have hhi := (hy.bounds F.value_strictMono).2 hinf
  have hprev : 0 ≤ F.value (n-1) := F.value_nonneg _
  have hn : 0 < F.value n := hprev.trans_lt (F.value_strictMono (by omega))
  have hnext := F.value_succ_le h0
  linarith

theorem same_rounding_iff (F : RawFloat) {x y : ℚ} (hx : 0 ≤ x) (hy : 0 ≤ y)
    (h : 10*x ≤ y ∨ 10*y ≤ x) :
    (∃ n, F.Nearest x n ∧ F.Nearest y n) ↔
      F.Overflows x ∧ F.Overflows y ∨ F.Underflows x ∧ F.Underflows y := by
  constructor
  · rintro ⟨n, hxn, hyn⟩
    by_cases h0 : n = 0
    · rw [h0, F.nearest_zero_iff hx] at hxn
      rw [h0, F.nearest_zero_iff hy] at hyn
      exact Or.inr ⟨hxn, hyn⟩
    by_cases hinf : n = F.infBits
    · rw [hinf, F.nearest_infBits_iff] at hxn hyn
      exact Or.inl ⟨hxn, hyn⟩
    exfalso
    rcases h with h | h
    · exact (hxn.lt_ten hyn h0 hinf).not_ge h
    · exact (hyn.lt_ten hxn h0 hinf).not_ge h
  · rintro (⟨hxo, hyo⟩ | ⟨hxu, hyu⟩)
    · exact ⟨_, (F.nearest_infBits_iff x).mpr hxo, (F.nearest_infBits_iff y).mpr hyo⟩
    · exact ⟨0, (F.nearest_zero_iff hx).mpr hxu, (F.nearest_zero_iff hy).mpr hyu⟩

theorem neg_injective (F : RawFloat) : Function.Injective F.neg := by
  intro a b h
  simpa [neg] using h

end RustStd.RawFloat

namespace RustStd.Dec2Flt
open RustStd.Machine

/-! ## The exponent that is read -/

theorem satDigits_append (ds : List UInt8) (c : UInt8) :
    satDigits (ds ++ [c]) =
      if satDigits ds < 0x10000 then 10*satDigits ds+digitVal c else satDigits ds := by
  rw [satDigits, List.foldl_append]
  rfl

theorem satDigits_cases {ds : List UInt8} (hd : ∀ c ∈ ds, isDigit c = true) :
    ofDigits ds < 655360 ∧ satDigits ds = ofDigits ds ∨
      655360 ≤ ofDigits ds ∧ 65536 ≤ satDigits ds ∧ satDigits ds < 655360 := by
  induction ds using List.reverseRecOn with
  | nil => exact Or.inl ⟨by decide, rfl⟩
  | append_singleton ds c ih =>
    have hc := digitVal_lt (hd c (by simp))
    have ih := ih fun c hc => hd c (by simp [hc])
    have ho : ofDigits (ds ++ [c]) = ofDigits ds*10+digitVal c := by
      simp [ofDigits]
    rw [satDigits_append, ho]
    split
    · omega
    · omega

namespace Numeral

/-- The exponent is below the number at which the reading of it stops short. -/
def ExponentRead (N : Numeral) : Prop := ∀ x ∈ N.exp, ofDigits x.digits < 655360

theorem value_nonneg (N : Numeral) : 0 ≤ N.value := by
  unfold value
  positivity

theorem readValue_nonneg (N : Numeral) : 0 ≤ N.readValue := by
  unfold readValue
  positivity

theorem readValue_eq {N : Numeral} (h : N.ExponentRead ∨ N.digits = 0) : N.readValue = N.value := by
  rcases h with h | h
  · have : N.readExponent = N.exponent := by
      unfold readExponent exponent
      cases hx : N.exp with
      | none => rfl
      | some x =>
        have hlt := h x hx
        rcases satDigits_cases x.isDigit_digits with ⟨-, heq⟩ | ⟨hge, -, -⟩
        · simp only [Option.map_some, Option.getD_some, Exponent.saturated, Exponent.value, heq]
        · omega
    rw [readValue, value, this]
  · rw [readValue, value, h, Nat.cast_zero, zero_mul, zero_mul]

theorem ten_mul_le {D : ℕ} {a b : ℤ} (h : a < b) : 10*((D:ℚ)*10^a) ≤ D*10^b := by
  have hpow : (10:ℚ)^(a+1) ≤ 10^b := zpow_le_zpow_right₀ (by norm_num) (by omega)
  rw [zpow_add_one₀ (by norm_num)] at hpow
  calc 10*((D:ℚ)*10^a) = D*(10^a*10) := by ring
    _ ≤ D*10^b := by gcongr

theorem readValue_far {N : Numeral} (h : ¬ N.ExponentRead) :
    10*N.value ≤ N.readValue ∨ 10*N.readValue ≤ N.value := by
  simp only [ExponentRead, not_forall] at h
  obtain ⟨x, hx, hge⟩ := h
  have hx : N.exp = some x := hx
  rcases satDigits_cases x.isDigit_digits with ⟨hlt, -⟩ | ⟨-, -, hlt⟩
  · exact absurd hlt hge
  · cases hs : x.sign.isMinus with
    | true =>
      left
      apply ten_mul_le
      simp only [exponent, readExponent, hx, Option.map_some, Option.getD_some, Exponent.value,
        Exponent.saturated, OptSign.apply, hs, if_true]
      omega
    | false =>
      right
      apply ten_mul_le
      simp only [exponent, readExponent, hx, Option.map_some, Option.getD_some, Exponent.value,
        Exponent.saturated, OptSign.apply, hs, Bool.false_eq_true, if_false]
      omega

/-- The number that is read is rounded like the number that is denoted. -/
def ReadAlike (F : RawFloat) (N : Numeral) : Prop :=
  N.ExponentRead ∨ N.digits = 0 ∨ F.Overflows N.value ∧ F.Overflows N.readValue ∨
    F.Underflows N.value ∧ F.Underflows N.readValue

theorem readAlike_iff (F : RawFloat) (N : Numeral) :
    N.ReadAlike F ↔ ∃ n, F.Nearest N.value n ∧ F.Nearest N.readValue n := by
  by_cases h : N.ExponentRead ∨ N.digits = 0
  · have hn := F.round_nearest N.value_nonneg
    rw [readValue_eq h]
    exact iff_of_true (by unfold ReadAlike; tauto) ⟨_, hn, hn⟩
  · rw [not_or] at h
    rw [F.same_rounding_iff N.value_nonneg N.readValue_nonneg (readValue_far h.1)]
    unfold ReadAlike
    tauto

end Numeral

def Correct (F : RawFloat) (sg : OptSign) (N : Numeral)
    (r : Option (Except FloatErrorKind ℕ)) : Prop :=
  ∃ n, F.Nearest N.value n ∧ r = some (.ok (if sg.isMinus then F.neg n else n))

theorem correct_iff {F : RawFloat} {sg : OptSign} {N : Numeral} {n : ℕ}
    {r : Option (Except FloatErrorKind ℕ)}
    (h : r = some (.ok (if sg.isMinus then F.neg n else n))) :
    Correct F sg N r ↔ F.Nearest N.value n := by
  constructor
  · rintro ⟨m, hm, hr⟩
    have heq := Except.ok.inj (Option.some.inj (h.symm.trans hr))
    have : n = m := by
      split at heq
      · exact F.neg_injective heq
      · exact heq
    rwa [this]
  · intro hn
    exact ⟨n, hn, h⟩

theorem dec2flt_reads {F : RawFloat} (hF : F ≠ .f16) (opt : Bool) (sg : OptSign) (N : Numeral)
    (hlen : N.bytes.length ≤ isizeMax) :
    ∃ n, F.Nearest N.readValue n ∧ dec2flt F opt (sg.bytes ++ N.bytes) =
      some (.ok (if sg.isMinus then F.neg n else n)) := by
  rw [dec2flt_sign]
  exact dec2fltUnsigned_nearest hF opt sg.isMinus N hlen

/-- `f32` and `f64` are correctly rounded exactly for the texts whose exponent is
read so that it is rounded alike. No counter overflows for a text of this length. -/
theorem dec2flt_correct_iff (F : RawFloat) (hF : F ≠ .f16) (opt : Bool) (sg : OptSign)
    (N : Numeral) (hlen : N.bytes.length+655360 ≤ 2^63) :
    Correct F sg N (dec2flt F opt (sg.bytes ++ N.bytes)) ↔ N.ReadAlike F := by
  obtain ⟨n, hn, hr⟩ := dec2flt_reads hF opt sg N (slice_of_i64 hlen)
  rw [correct_iff hr, Numeral.readAlike_iff]
  constructor
  · intro h
    exact ⟨n, h, hn⟩
  · rintro ⟨m, hm, hm'⟩
    rwa [hn.unique hm']

def threeHalves : Numeral where
  int := [49]
  dot := true
  frac := [53]
  exp := none
  isDigit_int := by simp [isDigit]
  isDigit_frac := by simp [isDigit]
  frac_eq := by simp
  digits_ne := by simp

theorem dec2flt_correct_iff_threeHalves :
    threeHalves.ReadAlike .f64 ∧
      Correct .f64 .none threeHalves
        (dec2flt .f64 false (OptSign.none.bytes ++ threeHalves.bytes)) := by
  have h : threeHalves.ReadAlike .f64 := Or.inl (by simp [Numeral.ExponentRead, threeHalves])
  have hlen : threeHalves.bytes.length+655360 ≤ 2^63 := by
    simp [threeHalves, Numeral.bytes, Numeral.expBytes]
  exact ⟨h, (dec2flt_correct_iff .f64 (by decide) false .none threeHalves hlen).mpr h⟩

/-- A one after the dot and some zeros, with an exponent that is cut to `65536`. -/
def lateDigit (zeros : ℕ) : Numeral where
  int := []
  dot := true
  frac := List.replicate zeros 48 ++ [49]
  exp := some ⟨101, .none, [54, 53, 53, 51, 54, 49], by decide, by simp [isDigit], by simp⟩
  isDigit_int := by simp
  isDigit_frac := by
    intro c hc
    rw [List.mem_append, List.mem_replicate, List.mem_singleton] at hc
    rcases hc with ⟨-, rfl⟩ | rfl
    · simp [isDigit]
    · simp [isDigit]
  frac_eq := by simp
  digits_ne := by simp

theorem ofDigits_replicate (n : ℕ) (ds : List UInt8) :
    ofDigits (List.replicate n 48 ++ ds) = ofDigits ds := by
  induction n with
  | zero => simp
  | succ n ih =>
    rw [List.replicate_succ, List.cons_append, ofDigits_cons, ih]
    simp [digitVal]

theorem lateDigit_digits (zeros : ℕ) : (lateDigit zeros).digits = 1 := by
  rw [Numeral.digits, lateDigit, List.nil_append, ofDigits_replicate]
  rfl

theorem lateDigit_exponent (zeros : ℕ) : (lateDigit zeros).exponent = 655361-(zeros+1:ℕ) ∧
    (lateDigit zeros).readExponent = 65536-(zeros+1:ℕ) := by
  have hlen : (lateDigit zeros).frac.length = zeros+1 := by simp [lateDigit]
  have hsat : satDigits [54, 53, 53, 51, 54, 49] = 65536 := by
    simp [satDigits, digitVal]
  have hread : (lateDigit zeros).readExponent =
      satDigits [54, 53, 53, 51, 54, 49]-(lateDigit zeros).frac.length := by
    simp [Numeral.readExponent, lateDigit, Exponent.saturated, OptSign.apply, OptSign.isMinus]
  rw [Numeral.exponent, hread, hlen, hsat]
  exact ⟨rfl, rfl⟩

theorem dec2flt_late_digit :
    (lateDigit 655360).value = 1 ∧
      dec2flt .f64 false (OptSign.none.bytes ++ (lateDigit 655360).bytes) = some (.ok 0) ∧
      ¬ Correct .f64 .none (lateDigit 655360)
        (dec2flt .f64 false (OptSign.none.bytes ++ (lateDigit 655360).bytes)) := by
  have hlen : ∀ zeros, (lateDigit zeros).bytes.length = zeros+9 := by
    intro zeros
    simp [Numeral.bytes, lateDigit, Numeral.expBytes, Exponent.bytes, OptSign.bytes]
  generalize hN : lateDigit 655360 = N
  have hval : N.value = 1 := by
    rw [Numeral.value, ← hN, lateDigit_digits, (lateDigit_exponent _).1]
    norm_num
  have hread : N.readValue = (1:ℕ)*10^(-589825:ℤ) := by
    rw [Numeral.readValue, ← hN, lateDigit_digits, (lateDigit_exponent _).2]
    norm_num
  obtain ⟨n, hn, hr⟩ := dec2flt_reads (F := .f64) (by decide) false .none N (by
    rw [← hN, hlen]
    decide)
  have hsmall : 2*N.readValue < RawFloat.f64.ulp := by
    rw [hread]
    exact Lemire.lt_of_small .f64 (by norm_num) (by decide)
  obtain rfl := hn.unique (RawFloat.f64.nearest_zero N.readValue_nonneg hsmall.le)
  refine ⟨hval, hr, ?_⟩
  rw [correct_iff hr, RawFloat.f64.nearest_zero_iff N.value_nonneg, hval, RawFloat.Underflows,
    not_le]
  calc RawFloat.f64.ulp ≤ 2^(0:ℤ) := zpow_le_zpow_right₀ (by norm_num) (by decide)
    _ < 2*1 := by norm_num

end RustStd.Dec2Flt
