import RustStd.Num.RawFloat

/-!
# Arithmetic on floats

What the machine computes with floats that are not negative: the exact result,
rounded to nearest, ties to even. `from_u64` and the table of powers of ten of
`RawFloat` are rounded in the same way.
-/

set_option autoImplicit false

namespace RustStd.RawFloat
open RustStd.Nearest

/-- `n` is `y` rounded to an integer, ties to even. -/
def RoundsTo (y : ℚ) (n : ℕ) : Prop :=
  LtOr (Even n) (2*n-1:ℚ) (2*y) ∧ LtOr (Even n) (2*y) (2*n+1:ℚ)

/-- The nearest integer of a number that is not negative, ties to even. -/
def roundNat (y : ℚ) : ℕ :=
  let n := y.floor.toNat
  if 2*n+1 < 2*y ∨ 2*n+1 = 2*y ∧ n%2 = 1 then n+1 else n

/-- The pattern of the float that is nearest to a number that is not negative. -/
def round (F : RawFloat) (x : ℚ) : ℕ :=
  let y := x/F.ulp
  let k := Nat.log2 y.floor.toNat-F.sigBits
  min (k*2^F.sigBits+roundNat (y/2^k)) F.infBits

def mul (F : RawFloat) (a b : ℕ) : ℕ := F.round (F.value a*F.value b)

def div (F : RawFloat) (a b : ℕ) : ℕ := F.round (F.value a/F.value b)

def fromU64 (F : RawFloat) (v : ℕ) : Option ℕ :=
  if v ≤ F.maxMantissaFastPath then some (F.round v) else none

def pow10Table : RawFloat → List ℚ
  | f16 => [1, 10, 100, 1000, 10000, 0, 0, 0]
  | f32 => [1, 10, 100, 1000, 10000, 10^5, 10^6, 10^7, 10^8, 10^9, 10^10, 0, 0, 0, 0, 0]
  | f64 => [1, 10, 100, 1000, 10000, 10^5, 10^6, 10^7, 10^8, 10^9, 10^10, 10^11, 10^12, 10^13,
      10^14, 10^15, 10^16, 10^17, 10^18, 10^19, 10^20, 10^21, 10^22, 0, 0, 0, 0, 0, 0, 0, 0, 0]

def pow10FastPath (F : RawFloat) (exponent : ℕ) : Option ℕ :=
  (F.pow10Table[exponent%F.pow10Table.length]?).map F.round

/-! ## Rounding to an integer -/

theorem roundsTo_up {y : ℚ} {n : ℕ} (hlo : 2*(n:ℚ)+1 < 2*y) (hhi : y < n+1) :
    RoundsTo y (n+1) := by
  constructor
  · left
    push_cast
    linarith
  · left
    push_cast
    linarith

theorem roundsTo_down {y : ℚ} {n : ℕ} (hlo : (n:ℚ) ≤ y) (hhi : 2*y < 2*(n:ℚ)+1) :
    RoundsTo y n := by
  constructor
  · left
    linarith
  · left
    exact hhi

theorem roundsTo_tie {y : ℚ} {n : ℕ} (h : 2*y = 2*(n:ℚ)+1) :
    RoundsTo y (if n%2 = 1 then n+1 else n) := by
  split
  · rename_i hodd
    constructor
    · right
      constructor
      · rw [h]
        push_cast
        ring
      · exact (Nat.odd_iff.mpr hodd).add_one
    · left
      rw [h]
      push_cast
      linarith
  · rename_i heven
    constructor
    · left
      linarith
    · right
      exact ⟨h, Nat.even_iff.mpr (by omega)⟩

/-- A mantissa that is rounded to an integer is rounded to a float. -/
theorem nearest_of_roundsTo (F : RawFloat) {x y : ℚ} {k n : ℕ} (hx : x = y*2^k*F.ulp)
    (hn : RoundsTo y n) (hy0 : 0 ≤ y) (hy : y < 2^(F.sigBits+1)) (hk : 2^F.sigBits ≤ y ∨ k = 0) :
    F.Nearest x (min (k*2^F.sigBits+n) F.infBits) := by
  have hul := F.ulp_pos
  have hunit : 0 < 2^k*F.ulp := by positivity
  have hscale : ∀ {c : Prop} {a b : ℚ}, LtOr c a b → LtOr c (a*2^k*F.ulp) (b*2^k*F.ulp) := by
    intro c a b h
    rw [mul_assoc, mul_assoc]
    rcases h with h | ⟨rfl, hc⟩
    · exact Or.inl (mul_lt_mul_of_pos_right h hunit)
    · exact Or.inr ⟨rfl, hc⟩
  have h2x : 2*x = 2*y*2^k*F.ulp := by rw [hx]; ring
  rcases le_or_gt (n:ℚ) y with hle | hgt
  · have hnlt : n < 2^(F.sigBits+1) := by
      have : (n:ℚ) < 2^(F.sigBits+1) := hle.trans_lt hy
      exact_mod_cast this
    apply F.nearest_down hnlt
    · rcases hk with hk | hk
      · left
        -- an integer that is nearest to `y` is not below an integer that `y` is above
        have h1 : (2^F.sigBits:ℚ) < n+1 := by linarith [hn.2.le]
        have h2 : 2^F.sigBits < n+1 := by exact_mod_cast h1
        omega
      · exact Or.inr hk
    · rw [hx, mul_assoc, mul_assoc]
      exact mul_le_mul_of_nonneg_right hle hunit.le
    · rw [h2x]
      exact hscale hn.2
  · obtain ⟨a, rfl⟩ : ∃ a, n = a+1 := by
      apply Nat.exists_eq_succ_of_ne_zero
      rintro rfl
      push_cast at hgt
      linarith
    have hlo := hn.1
    push_cast at hlo hgt
    have hay : (a:ℚ) ≤ y := by linarith [hlo.le]
    apply F.nearest_up
    · have : (a:ℚ) < 2^(F.sigBits+1) := hay.trans_lt hy
      exact_mod_cast this
    · rcases hk with hk | hk
      · left
        have h1 : (2^F.sigBits:ℚ) < a+1 := hk.trans_lt hgt
        have h2 : 2^F.sigBits < a+1 := by exact_mod_cast h1
        omega
      · exact Or.inr hk
    · rw [hx, mul_assoc, mul_assoc]
      exact mul_le_mul_of_nonneg_right hay hunit.le
    · rw [hx, mul_assoc, mul_assoc]
      exact mul_le_mul_of_nonneg_right hgt.le hunit.le
    · rw [h2x]
      apply hscale
      rw [show (2*(a:ℚ)+1) = 2*(a+1)-1 by ring]
      rcases hlo with hlo | ⟨hlo, he⟩
      · exact Or.inl hlo
      · right
        refine ⟨hlo, ?_⟩
        rw [Nat.even_add_one, Nat.not_even_iff_odd] at he
        exact he

theorem exists_floor {y : ℚ} (hy : 0 ≤ y) : ∃ n : ℕ, y.floor = n ∧ (n:ℚ) ≤ y ∧ y < n+1 := by
  have hfl : (0:ℤ) ≤ y.floor := Rat.le_floor_iff.mpr (by simpa using hy)
  obtain ⟨n, hn⟩ := Int.eq_ofNat_of_zero_le hfl
  have hle : (n:ℚ) ≤ y := by
    have := Rat.le_floor_iff.mp (show (n:ℤ) ≤ y.floor by omega)
    exact_mod_cast this
  have hlt : y < n+1 := by
    by_contra hge
    have : ((n+1:ℕ):ℤ) ≤ y.floor := Rat.le_floor_iff.mpr (by push_cast; linarith)
    omega
  exact ⟨n, hn, hle, hlt⟩

theorem roundNat_spec {y : ℚ} (hy : 0 ≤ y) : RoundsTo y (roundNat y) := by
  obtain ⟨n, hn, hle, hlt⟩ := exists_floor hy
  unfold roundNat
  rw [hn]
  simp only [Int.toNat_natCast]
  rcases lt_trichotomy (2*(n:ℚ)+1) (2*y) with h | h | h
  · rw [if_pos (Or.inl h)]
    exact roundsTo_up h hlt
  · have htie := roundsTo_tie (y := y) h.symm
    by_cases hodd : n%2 = 1
    · rw [if_pos hodd] at htie
      rwa [if_pos (Or.inr ⟨h, hodd⟩)]
    · rw [if_neg hodd] at htie
      rw [if_neg]
      · exact htie
      · rintro (h' | ⟨-, h'⟩)
        · exact h.not_lt h'
        · exact hodd h'
  · rw [if_neg]
    · exact roundsTo_down hle h
    · rintro (h' | ⟨h', -⟩)
      · exact lt_asymm h h'
      · exact h.ne' h'

/-! ## Rounding to a float -/

theorem round_nearest (F : RawFloat) {x : ℚ} (hx : 0 ≤ x) : F.Nearest x (F.round x) := by
  have hul := F.ulp_pos
  have hy : 0 ≤ x/F.ulp := by positivity
  obtain ⟨t, ht, hle, hlt⟩ := exists_floor hy
  unfold round
  simp only [ht, Int.toNat_natCast]
  obtain ⟨k, hk⟩ : ∃ k, Nat.log2 t-F.sigBits = k := ⟨_, rfl⟩
  have hpow : (0:ℚ) < 2^k := by positivity
  rw [hk]
  apply F.nearest_of_roundsTo (y := x/F.ulp/2^k)
  · field_simp
  · exact roundNat_spec (by positivity)
  · positivity
  · rw [div_lt_iff₀ hpow, ← pow_add]
    have h1 : t < 2^(F.sigBits+1+k) :=
      Nat.lt_log2_self.trans_le (Nat.pow_le_pow_right (by norm_num) (by omega))
    have h2 : (t:ℚ)+1 ≤ 2^(F.sigBits+1+k) := by exact_mod_cast h1
    linarith
  · by_cases h0 : k = 0
    · exact Or.inr h0
    · left
      rw [le_div_iff₀ hpow, ← pow_add]
      have h1 : 2^(F.sigBits+k) ≤ t := by
        rw [show F.sigBits+k = Nat.log2 t by omega]
        apply Nat.log2_self_le
        rintro rfl
        simp at hk
        omega
      have h2 : (2:ℚ)^(F.sigBits+k) ≤ t := by exact_mod_cast h1
      linarith

theorem nearest_value (F : RawFloat) {n : ℕ} (hn : n ≤ F.infBits) : F.Nearest (F.value n) n := by
  refine ⟨hn, fun m _ hne => ?_⟩
  left
  rw [sub_self, abs_zero, abs_pos, sub_ne_zero]
  exact fun h => hne (F.value_strictMono.injective h).symm

theorem exists_value (F : RawFloat) {m : ℕ} (k : ℕ) (hm : m ≤ 2^(F.sigBits+1)) :
    ∃ n, F.value n = m*2^k*F.ulp ∧ n ≤ (k+2)*2^F.sigBits := by
  induction k generalizing m with
  | zero =>
    refine ⟨m, ?_, ?_⟩
    · rw [F.value_subnormal hm, pow_zero, mul_one]
    · rw [pow_succ] at hm
      omega
  | succ k ih =>
    by_cases h : 2^F.sigBits ≤ m
    · refine ⟨(k+1)*2^F.sigBits+m, F.value_rung hm (Or.inl h), ?_⟩
      rw [pow_succ] at hm
      calc (k+1)*2^F.sigBits+m ≤ (k+1)*2^F.sigBits+2*2^F.sigBits := by omega
        _ = (k+1+2)*2^F.sigBits := by ring
    · obtain ⟨n, hn, hle⟩ := ih (m := 2*m) (by rw [pow_succ]; omega)
      refine ⟨n, ?_, hle.trans (Nat.mul_le_mul_right _ (by omega))⟩
      rw [hn, pow_succ]
      push_cast
      ring

theorem value_round (F : RawFloat) {m j : ℕ} (hm : m ≤ 2^(F.sigBits+1))
    (hj : (j:ℤ)-F.expMin+F.sigBits+2 ≤ F.expSat) : F.value (F.round (m*2^j)) = m*2^j := by
  have hmin : F.expMin ≤ 0 := by cases F <;> decide
  obtain ⟨k, hk⟩ := Int.eq_ofNat_of_zero_le (show 0 ≤ (j:ℤ)-F.expMin+F.sigBits by omega)
  obtain ⟨n, hn, hle⟩ := F.exists_value k hm
  have hval : (m:ℚ)*2^k*F.ulp = m*2^j := by
    rw [ulp, mul_assoc, ← zpow_natCast, ← zpow_add₀ (by norm_num), ← zpow_natCast]
    congr 2
    omega
  have hinf : n ≤ F.infBits := hle.trans (Nat.mul_le_mul_right _ (by omega))
  have hnear := F.nearest_value hinf
  rw [hn, hval] at hnear
  rw [(F.round_nearest (by positivity)).unique hnear, hn, hval]

end RustStd.RawFloat
