import RustStd.Num.SlowRounding

/-!
# The slow path is correctly rounded

The loops of `parse_long_mantissa` bring the decimal into `[1/2, 1)`, or below it
when the value is subnormal, and keep track of the value behind it. Then its
product by a power of two is rounded to the mantissa.
-/

set_option autoImplicit false

namespace RustStd.Dec2Flt
open RustStd.Checked RustStd.Lemire RustStd.Nearest RustStd.Digits RustStd.RawFloat DecimalSeq

theorem DecimalSeq.WF.zpow_le_iff {d : DecimalSeq} (hd : d.WF) {k : ℤ} :
    10^k ≤ d.value ↔ k < d.decimalPoint := by
  constructor
  · intro h
    by_contra hge
    have h1 : (10:ℚ)^d.decimalPoint ≤ 10^k := zpow_le_zpow_right₀ (by norm_num) (by lia)
    linarith [hd.value_lt]
  · intro h
    have h1 : (10:ℚ)^k ≤ 10^(d.decimalPoint-1) := zpow_le_zpow_right₀ (by norm_num) (by lia)
    linarith [hd.le_value]

theorem DecimalSeq.WF.value_lt_one_iff {d : DecimalSeq} (hd : d.WF) :
    d.value < 1 ↔ d.decimalPoint ≤ 0 := by
  have := hd.zpow_le_iff (k := 0)
  rw [zpow_zero] at this
  rw [← not_le, this, not_lt]

theorem getShift_spec {n : ℕ} (hn : 1 ≤ n) :
    ∃ s, getShift n = some s ∧ 3 ≤ s ∧ s ≤ 60 ∧ 2^s ≤ 10^n := by
  by_cases h : n < numPowers
  · have htable : ∀ n < 19, 1 ≤ n → ∃ s ≤ 60, powers[n]? = some s ∧ 3 ≤ s ∧ 2^s ≤ 10^n := by
      intro n hn
      interval_cases n <;> decide
    obtain ⟨s, h60, hs, h3, hle⟩ := htable n h hn
    exact ⟨s, by rw [getShift, if_pos h, hs], h3, h60, hle⟩
  · refine ⟨60, by rw [getShift, if_neg h]; rfl, by norm_num, le_rfl, ?_⟩
    calc 2^60 ≤ 10^19 := by norm_num
      _ ≤ 10^n := Nat.pow_le_pow_right (by norm_num) (by unfold numPowers at h; lia)

theorem shift_right {d d' : DecimalSeq} {s : ℕ}
    (h : Leads d.truncated (d.value/2^s) d') : Leads d.truncated (d.value*2^(-(s:ℤ))) d' := by
  rwa [zpow_neg, zpow_natCast, ← div_eq_mul_inv]

theorem shift_left {d d' : DecimalSeq} {s : ℕ}
    (h : Leads d.truncated (d.value*2^s) d') : Leads d.truncated (d.value*2^(s:ℤ)) d' := by
  rwa [zpow_natCast]

theorem two_pow_1100 : (10:ℚ)^310*10 < 2^(1100:ℤ) := by
  calc (10:ℚ)^310*10 = 10^311 := (pow_succ _ _).symm
    _ < 10^330 := pow_lt_pow_right₀ (by norm_num) (by norm_num)
    _ = (10^3)^110 := by rw [← pow_mul]
    _ ≤ (2^10)^110 := pow_le_pow_left₀ (by norm_num) (by norm_num) _
    _ = 2^(1100:ℤ) := by rw [← pow_mul, ← zpow_natCast]; norm_num

theorem Tracks.exp_lt {x : ℚ} {m e : ℤ} {d : DecimalSeq} (h : Tracks x m e d) (hx : x < 10^310)
    (hv : 1/10 ≤ d.value) : e < 1100 := by
  by_contra hge
  have h1 : (2:ℚ)^(-e) ≤ 2^(-1100:ℤ) := zpow_le_zpow_right₀ (by norm_num) (by lia)
  have h2 : x*2^(-e) < 1/10 := by
    calc x*2^(-e) ≤ 10^310*2^(-1100:ℤ) :=
          mul_le_mul hx.le h1 (by positivity) (by positivity)
      _ < 1/10 := by
        have := two_pow_1100
        rw [zpow_neg, ← div_eq_mul_inv, div_lt_iff₀ (by positivity)]
        generalize (10:ℚ)^310 = B at *
        linarith
  linarith [h.le]

theorem Tracks.pos {x : ℚ} {m e : ℤ} {d : DecimalSeq} (h : Tracks x m e d) : 0 < x := by
  have hv : 0 < d.value := lt_of_lt_of_le (by positivity) h.wf.le_value
  have hp : (0:ℚ) < 2^(-e) := by positivity
  exact (pos_iff_pos_of_mul_pos (hv.trans_le h.le)).mpr hp

theorem Tracks.decimalPoint_lt {x : ℚ} {m e : ℤ} {d : DecimalSeq} (h : Tracks x m e d)
    (hx : x < 10^310) (he : 0 ≤ e) : d.decimalPoint < 311 := by
  by_contra hge
  have h1 := h.wf.zpow_le_iff.mpr (show (310:ℤ) < d.decimalPoint by lia)
  have h2 : (2:ℚ)^(-e) ≤ 1 := zpow_le_one_of_nonpos₀ (by norm_num) (by lia)
  have h3 : (10:ℚ)^(310:ℤ) < 10^310 := by
    calc (10:ℚ)^(310:ℤ) ≤ x*2^(-e) := h1.trans h.le
      _ ≤ x*1 := mul_le_mul_of_nonneg_left h2 h.pos.le
      _ < 10^310 := by rwa [mul_one]
  exact absurd h3 (by rw [show (310:ℤ) = ((310:ℕ):ℤ) by norm_num, zpow_natCast]; exact lt_irrefl _)

theorem shiftRightLoop_spec {x : ℚ} (hx : x < 10^310) {fuel f : ℕ} {e : ℤ} {d : DecimalSeq}
    (h : Tracks x e e d) (he : 0 ≤ e) (hf : d.value < 8^f) (hfuel : f < fuel) :
    ∃ d' e', shiftRightLoop fuel d e = some (.inl (d', e')) ∧ 0 ≤ e' ∧ Tracks x e' e' d' ∧
      d'.value < 1 ∧ (d' = d ∧ e' = e ∨ 1/10 ≤ d'.value) := by
  induction fuel generalizing f e d with
  | zero => lia
  | succ fuel ih =>
    rw [shiftRightLoop]
    by_cases hdp : d.decimalPoint > 0
    · have hwf := h.wf
      have hdp310 := h.decimalPoint_lt hx he
      obtain ⟨s, hs, h3, h60, hpow⟩ := getShift_spec (n := d.decimalPoint.toNat) (by lia)
      obtain ⟨d', hd', hl⟩ := rightShift_spec hwf h60 (by lia) (by lia)
      have hpowQ : (2:ℚ)^s ≤ 10^d.decimalPoint := by
        rw [← Int.toNat_of_nonneg hdp.le, zpow_natCast]
        exact_mod_cast hpow
      have htenth : (1:ℚ)/10 ≤ d'.value := by
        apply hl.cut.greatest
        · exact ⟨1, -1, Nat.one_lt_pow (by decide) (by norm_num), by norm_num⟩
        · rw [le_div_iff₀ (by positivity)]
          have := hwf.le_value
          rw [zpow_sub_one₀ (by norm_num)] at this
          linarith
      have htr := (h.mono (show e ≤ e+s by lia)).shift (shift_right hl) hx (by lia) (by lia)
      rw [sub_neg_eq_add] at htr
      have he' := htr.exp_lt hx htenth
      have hdp' : -1 < d'.decimalPoint := hl.wf.zpow_le_iff.mp (by
        rw [zpow_neg, zpow_one]
        linarith)
      have h8 : (8:ℚ) ≤ 2^s := by
        calc (8:ℚ) = 2^3 := by norm_num
          _ ≤ 2^s := pow_le_pow_right₀ (by norm_num) h3
      have hf1 : f ≠ 0 := by
        rintro rfl
        rw [pow_zero, hwf.value_lt_one_iff] at hf
        lia
      obtain ⟨f, rfl⟩ := Nat.exists_eq_succ_of_ne_zero hf1
      have hf' : d'.value < 8^f := by
        calc d'.value ≤ d.value/2^s := hl.cut.le
          _ < 8^f := by
            rw [div_lt_iff₀ (by positivity)]
            calc d.value < 8^(f+1) := hf
              _ = 8^f*8 := pow_succ _ _
              _ ≤ 8^f*2^s := by gcongr
      obtain ⟨d'', e'', heq, h0, ht, hv, hor⟩ := ih htr (by lia) hf' (by lia)
      refine ⟨d'', e'', ?_, h0, ht, hv, Or.inr ?_⟩
      · rw [if_pos hdp, hs, Option.bind_eq_bind, Option.bind_some, hd']
        simp only [Option.bind_eq_bind, Option.bind_some]
        rw [if_neg (by unfold decimalPointRange; lia), i32_eq (by lia) (by lia),
          Option.bind_some]
        exact heq
      · rcases hor with ⟨rfl, -⟩ | hor
        · exact htenth
        · exact hor
    · rw [if_neg hdp]
      exact ⟨d, e, rfl, he, h, h.wf.value_lt_one_iff.mpr (by lia), Or.inl ⟨rfl, rfl⟩⟩

theorem leftShift_amount {d : DecimalSeq} (hd : d.WF) (hv : d.value < 1)
    (hgo : ¬ (d.decimalPoint = 0 ∧ d.digits 0 ≥ 5)) :
    ∃ s, (if d.decimalPoint = 0 then some (if d.digits 0 ≤ 1 then 2 else 1)
        else getShift (-d.decimalPoint).toNat) = some s ∧ 1 ≤ s ∧ s ≤ 60 ∧ d.value*2^s < 1 := by
  have hdp := hd.value_lt_one_iff.mp hv
  by_cases h0 : d.decimalPoint = 0
  · have hb := hd.first_bounds.2
    rw [h0, zero_sub, zpow_neg, zpow_one] at hb
    rw [if_pos h0]
    by_cases h1 : d.digits 0 ≤ 1
    · have hq : (d.digits 0:ℚ) ≤ 1 := by exact_mod_cast h1
      refine ⟨2, by rw [if_pos h1], by norm_num, by norm_num, ?_⟩
      linarith
    · have hq : (d.digits 0:ℚ) ≤ 4 := by
        have : d.digits 0 ≤ 4 := by lia
        exact_mod_cast this
      refine ⟨1, by rw [if_neg h1], le_rfl, by norm_num, ?_⟩
      linarith
  · obtain ⟨s, hs, h3, h60, hpow⟩ := getShift_spec (n := (-d.decimalPoint).toNat) (by lia)
    refine ⟨s, by rw [if_neg h0, hs], by lia, h60, ?_⟩
    have hpowQ : (2:ℚ)^s ≤ 10^(-d.decimalPoint) := by
      rw [← Int.toNat_of_nonneg (show 0 ≤ -d.decimalPoint by lia), zpow_natCast]
      exact_mod_cast hpow
    calc d.value*2^s < 10^d.decimalPoint*2^s := by
          have := hd.value_lt
          gcongr
      _ ≤ 10^d.decimalPoint*10^(-d.decimalPoint) := by gcongr
      _ = 1 := by rw [← zpow_add₀ (by norm_num), add_neg_cancel, zpow_zero]

theorem decimalPoint_ge {d : DecimalSeq} (hd : d.WF) {f : ℕ} (hf : f ≤ 1090)
    (hv : (2:ℚ)^(-(f:ℤ)) ≤ d.value) : -1090 ≤ d.decimalPoint := by
  have h1 : (10:ℚ)^(-1091:ℤ) ≤ 2^(-(f:ℤ)) := by
    calc (10:ℚ)^(-1091:ℤ) ≤ 10^(-(f:ℤ)) := zpow_le_zpow_right₀ (by norm_num) (by lia)
      _ ≤ 2^(-(f:ℤ)) := by
        rw [zpow_neg, zpow_neg, zpow_natCast, zpow_natCast]
        gcongr
        norm_num
  have := hd.zpow_le_iff.mp (h1.trans hv)
  lia

theorem shiftLeftLoop_spec (F : RawFloat) {x : ℚ} (hx : x < 10^310) {m : ℤ} {fuel f : ℕ} {e : ℤ}
    {d : DecimalSeq} (h : Tracks x m e d) (hem : e ≤ m) (he : e ≤ 1100) (hv : d.value < 1)
    (hf : (2:ℚ)^(-(f:ℤ)) ≤ d.value) (hf' : f ≤ 1090) (hef : -1100 ≤ e-f) (hfuel : f < fuel) :
    ∃ d' e', shiftLeftLoop F fuel d e = some (.inl (d', e')) ∧ e-f ≤ e' ∧ e' ≤ e ∧
      Tracks x m e' d' ∧ 1/2 ≤ d'.value ∧ d'.value < 1 := by
  induction fuel generalizing f e d with
  | zero => lia
  | succ fuel ih =>
    have hwf := h.wf
    have hdp := hwf.value_lt_one_iff.mp hv
    have hdp' := decimalPoint_ge hwf hf' hf
    rw [shiftLeftLoop, if_pos hdp, get_eq (by decide), Option.bind_eq_bind, Option.bind_some]
    by_cases hexit : d.decimalPoint = 0 ∧ d.digits 0 ≥ 5
    · rw [if_pos hexit]
      refine ⟨d, e, rfl, by lia, le_rfl, h, ?_, hv⟩
      have hb := hwf.first_bounds.1
      have hq : (5:ℚ) ≤ d.digits 0 := by exact_mod_cast hexit.2
      rw [hexit.1, zero_sub, zpow_neg, zpow_one] at hb
      linarith
    · obtain ⟨s, hs, h1, h60, hlt⟩ := leftShift_amount hwf hv hexit
      obtain ⟨d', hd', hl⟩ := leftShift_spec hwf h1 h60 (by lia) (by lia)
      have hv' : d'.value < 1 := hl.cut.le.trans_lt hlt
      have hsf : s < f := by
        by_contra hge
        have h2 : (1:ℚ) ≤ 2^(-(f:ℤ))*2^s := by
          rw [← zpow_natCast, ← zpow_add₀ (by norm_num)]
          exact one_le_zpow₀ (by norm_num) (by lia)
        have h3 : (2:ℚ)^(-(f:ℤ))*2^s ≤ d.value*2^s := by gcongr
        linarith
      have hf₁ : (2:ℚ)^(-((f-s:ℕ):ℤ)) ≤ d'.value := by
        apply hl.cut.greatest
        · exact short_two_zpow (by lia) (by lia)
        · calc (2:ℚ)^(-((f-s:ℕ):ℤ)) = 2^(-(f:ℤ))*2^s := by
                rw [← zpow_natCast, ← zpow_add₀ (by norm_num)]
                congr 1
                lia
            _ ≤ d.value*2^s := by gcongr
      have htr := h.shift (shift_left hl) hx (by lia) (by lia)
      have hdp₁ := hl.wf.value_lt_one_iff.mp hv'
      obtain ⟨d'', e'', heq, hlo, hhi, ht, hhalf, hone⟩ :=
        ih htr (by lia) (by lia) hv' hf₁ (by lia) (by lia) (by lia)
      refine ⟨d'', e'', ?_, by lia, by lia, ht, hhalf, hone⟩
      rw [if_neg hexit, hs]
      simp only [Option.bind_eq_bind, Option.bind_some]
      rw [hd', Option.bind_some, if_neg (by unfold decimalPointRange; lia),
        i32_eq (by lia) (by lia), Option.bind_some]
      exact heq

theorem subnormalLoop_spec (F : RawFloat) {x : ℚ} (hx : x < 10^310) {m : ℤ} (hm : F.expMin < m)
    (fuel : ℕ) {f : ℕ} {e : ℤ} {d : DecimalSeq} (h : Tracks x m (e+1) d) (hv : d.value < 1)
    (hf : (2:ℚ)^(-(f:ℤ)) ≤ d.value) (hf' : f ≤ 1090) (hef : (f:ℤ)+(F.expMin-e) ≤ 1090)
    (he : -1100 ≤ e) (he' : e ≤ 1100) (hfuel : F.expMin-e ≤ 60*fuel) :
    ∃ d' e', subnormalLoop F (fuel+1) d e = some (d', e') ∧ F.expMin ≤ e' ∧ e ≤ e' ∧
      Tracks x m (e'+1) d' ∧ d'.value < 1 ∧ (e' = e ∧ d' = d ∨ e' = F.expMin) ∧
      -1090 ≤ d'.decimalPoint := by
  have hmin : F.expMin ≤ 0 := by cases F <;> decide
  have hdp' := decimalPoint_ge h.wf hf' hf
  induction fuel generalizing f e d with
  | zero =>
    rw [subnormalLoop, if_neg (by lia)]
    exact ⟨d, e, rfl, by lia, le_rfl, h, hv, Or.inl ⟨rfl, rfl⟩, hdp'⟩
  | succ fuel ih =>
    have hwf := h.wf
    have hdp := hwf.value_lt_one_iff.mp hv
    rw [subnormalLoop]
    by_cases hgo : F.expMin > e
    · obtain ⟨n, hn⟩ : ∃ n, min (F.expMin-e).toNat maxShift = n := ⟨_, rfl⟩
      have hcase : (n:ℤ) = F.expMin-e ∧ n ≤ 60 ∨ n = 60 ∧ 60 ≤ F.expMin-e := by
        unfold maxShift at hn
        lia
      obtain ⟨d', hd', hl⟩ := rightShift_spec hwf (show n ≤ 60 by lia) (by lia) (by lia)
      have hv' : d'.value < 1 := by
        have h2 : (1:ℚ) ≤ 2^n := one_le_pow₀ (by norm_num)
        have h0 : 0 < d.value := lt_of_lt_of_le (by positivity) hwf.le_value
        calc d'.value ≤ d.value/2^n := hl.cut.le
          _ ≤ d.value := div_le_self h0.le h2
          _ < 1 := hv
      have hf₁ : (2:ℚ)^(-((f+n:ℕ):ℤ)) ≤ d'.value := by
        apply hl.cut.greatest
        · exact short_two_zpow (by lia) (by lia)
        · calc (2:ℚ)^(-((f+n:ℕ):ℤ)) = 2^(-(f:ℤ))/2^n := by
                rw [← zpow_natCast, ← zpow_sub₀ (by norm_num)]
                congr 1
                push_cast
                ring
            _ ≤ d.value/2^n := by gcongr
      have htr := h.shift (shift_right hl) hx (by lia) (by lia)
      rw [sub_neg_eq_add, add_right_comm] at htr
      obtain ⟨d'', e'', heq, hlo, hhi, ht, hone, hor, hpt⟩ :=
        ih htr hv' hf₁ (by lia) (by push_cast; lia) (by lia) (by lia)
          (by push_cast at hfuel; lia)
          (decimalPoint_ge hl.wf (by lia) hf₁)
      refine ⟨d'', e'', ?_, hlo, by lia, ht, hone, Or.inr ?_, hpt⟩
      · rw [if_pos hgo]
        simp only [hn]
        rw [hd', Option.bind_eq_bind, Option.bind_some, i32_eq (by lia) (by lia)]
        exact heq
      · rcases hor with ⟨rfl, -⟩ | hor
        · lia
        · exact hor
    · rw [if_neg hgo]
      exact ⟨d, e, rfl, by lia, le_rfl, h, hv, Or.inl ⟨rfl, rfl⟩, hdp'⟩

/-! ## The fields of the mantissa -/

/-- The fields are those of `x` rounded to nearest, ties to even. -/
def Rounded (F : RawFloat) (x : ℚ) (fp : BiasedFp) : Prop :=
  ∃ m p : ℕ, fp = ⟨m, p⟩ ∧ m < 2^F.sigBits ∧ F.Nearest x (p*2^F.sigBits+m)

theorem rounded_inf (F : RawFloat) {x : ℚ} (h : F.Nearest x F.infBits) :
    Rounded F x (.zeroPow2 F.infinitePower) :=
  ⟨0, F.expSat, rfl, by positivity, by rwa [Nat.add_zero]⟩

theorem seqFields_eq (F : RawFloat) {n k : ℕ} {e : ℤ} (he : e = F.expMin+k) (hk : k < 2^20) :
    seqFields F n e = some ⟨n%2^F.sigBits, if n < 2^F.sigBits then (k:ℤ) else k+1⟩ := by
  have hS : F.sigBits < 64 := by cases F <;> decide
  have hmin : -2000 ≤ F.expMin ∧ F.expMin ≤ 0 := by cases F <;> decide
  have hsh : shl 1 F.sigBits = some (2^F.sigBits) := by
    rw [shl_eq hS, Nat.one_mul]
    rw [Nat.one_mul]
    exact Nat.pow_lt_pow_right (by norm_num) hS
  rw [seqFields, hsh, Option.bind_eq_bind, Option.bind_some, i32_eq (by lia) (by lia),
    Option.bind_eq_bind, Option.bind_some, he]
  simp only [Option.pure_def]
  congr 2
  split
  · ring
  · ring

theorem rounded_fields (F : RawFloat) {x y : ℚ} {k n : ℕ} (hx : x = y*2^k*F.ulp)
    (hn : RoundsTo y n) (hy0 : 0 ≤ y) (hy : y < 2^(F.sigBits+1)) (hk : 2^F.sigBits ≤ y ∨ k = 0)
    (hlt : n < 2^(F.sigBits+1)) (hinf : k+1 < F.expSat) :
    Rounded F x ⟨n%2^F.sigBits, if n < 2^F.sigBits then (k:ℤ) else k+1⟩ := by
  have hnear := F.nearest_of_roundsTo hx hn hy0 hy hk
  have hpos : 0 < 2^F.sigBits := by positivity
  have hle : k*2^F.sigBits+n ≤ F.infBits := by
    calc k*2^F.sigBits+n ≤ k*2^F.sigBits+2^F.sigBits*2 := by
          rw [pow_succ] at hlt
          lia
      _ = (k+2)*2^F.sigBits := by ring
      _ ≤ F.expSat*2^F.sigBits := Nat.mul_le_mul_right _ (by lia)
  rw [min_eq_left hle] at hnear
  split
  · rename_i hsmall
    exact ⟨n%2^F.sigBits, k, rfl, Nat.mod_lt _ hpos, by rwa [Nat.mod_eq_of_lt hsmall]⟩
  · rename_i hbig
    refine ⟨n%2^F.sigBits, k+1, rfl, Nat.mod_lt _ hpos, ?_⟩
    have hmod : n%2^F.sigBits = n-2^F.sigBits := by
      rw [pow_succ] at hlt
      rw [Nat.mod_eq_sub_mod (by lia), Nat.mod_eq_of_lt (by lia)]
    rw [hmod, Nat.add_mul]
    convert hnear using 1
    lia

theorem nearest_inf_of_scaled (F : RawFloat) {x y : ℚ} {k : ℕ} (hx : x = y*2^k*F.ulp)
    (hy : 2^F.sigBits ≤ y) (hinf : F.expSat ≤ k+1) : F.Nearest x F.infBits := by
  have hul := F.ulp_pos
  have hy0 : 0 ≤ y := le_trans (by positivity) hy
  have hbits : F.infBits = (F.expSat-1)*2^F.sigBits+2^F.sigBits := by cases F <;> decide
  apply isNearest_top F.value_strictMono
  rw [hbits, F.value_rung (Nat.pow_le_pow_right (by norm_num) (by lia)) (Or.inl le_rfl), hx]
  have h2 : (2:ℚ)^(F.expSat-1) ≤ 2^k := pow_le_pow_right₀ (by norm_num) (by lia)
  push_cast
  gcongr

theorem Tracks.half_grid {x : ℚ} {m e : ℤ} {d : DecimalSeq} (h : Tracks x m e d)
    (hg : m-1075 ≤ e-1) (a : ℕ) (ha : a ≤ 2^55) (hle : (a:ℚ) ≤ 2*(x*2^(-e))) :
    (a:ℚ) ≤ 2*d.value := by
  have hx : (a:ℚ)*2^(e-1) ≤ x := by
    have hp : (0:ℚ) < 2^(e-1) := by positivity
    calc (a:ℚ)*2^(e-1) ≤ 2*(x*2^(-e))*2^(e-1) := mul_le_mul_of_nonneg_right hle hp.le
      _ = x*(2^(-e)*2^(e-1)*2) := by ring
      _ = x := by
        rw [← zpow_add₀ (by norm_num), show -e+(e-1) = -1 by ring, zpow_neg, zpow_one]
        norm_num
  have := h.grid a (e-1) ha hg hx
  rw [show e-1-e = -1 by ring, zpow_neg, zpow_one] at this
  linarith

theorem mantissa_spec {x : ℚ} (hx : x < 10^310) {m e : ℤ} {d : DecimalSeq} {s : ℕ}
    (h : Tracks x m e d) (hs : 1 ≤ s) (hs' : s ≤ 53) (hem : e ≤ m) (hg : m-1075 ≤ e-s-1)
    (he : -1100 ≤ e) (hone : d.value < 1) (hdp : -1090 ≤ d.decimalPoint) :
    ∃ d' n, d.leftShift s = some d' ∧ d'.round = some n ∧ RoundsTo (x*2^(-(e-s))) n ∧
      x*2^(-(e-s)) < 2^s ∧ Tracks x m (e-s) d' := by
  have hdp' := h.wf.value_lt_one_iff.mp hone
  obtain ⟨d', hd', hl⟩ := leftShift_spec h.wf hs (by lia) (by lia) (by lia)
  have ht := h.shift (shift_left hl) hx (by lia) (by lia)
  have hlt : d'.value < 2^s := by
    calc d'.value ≤ d.value*2^s := hl.cut.le
      _ < 1*2^s := by gcongr
      _ = 2^s := one_mul _
  have h53 : (2:ℚ)^s ≤ 2^53 := pow_le_pow_right₀ (by norm_num) hs'
  have hgrid := ht.half_grid hg
  obtain ⟨n, hn, hr⟩ := round_spec ht.wf hl.last ht.le ht.truncated hgrid (hlt.trans_le h53)
  refine ⟨d', n, hd', hn, hr, ?_, ht⟩
  by_contra hge
  have := hgrid (2*2^s) (by
    calc 2*2^s ≤ 2*2^53 := Nat.mul_le_mul_left _ (Nat.pow_le_pow_right (by norm_num) hs')
      _ ≤ 2^55 := by norm_num) (by push_cast; linarith)
  push_cast at this
  linarith

theorem reround_spec {x : ℚ} (hx : x < 10^310) {m e : ℤ} {d : DecimalSeq} {s : ℕ}
    (h : Tracks x m e d) (hs : s ≤ 52) (hem : e+1 ≤ m) (hg : m-1075 ≤ e-1) (he : -1200 ≤ e)
    (hr : RoundsTo (x*2^(-e)) (2^(s+1))) (hlt : x*2^(-e) < 2^(s+1)) :
    ∃ d', d.rightShift 1 = some d' ∧ d'.round = some (2^s) := by
  have hlo := hr.1.le
  have hp1 : (1:ℚ) ≤ 2^s := one_le_pow₀ (by norm_num)
  rw [pow_succ] at hlt
  push_cast at hlo
  rw [pow_succ] at hlo
  have h52 : (2:ℚ)^s ≤ 2^52 := pow_le_pow_right₀ (by norm_num) hs
  have hvlt : d.value < 2^s*2 := h.le.trans_lt hlt
  have hv1 : 1 ≤ d.value := by
    have := h.half_grid hg 2 (by norm_num) (by push_cast; linarith)
    push_cast at this
    linarith
  have hdp : 0 < d.decimalPoint := h.wf.zpow_le_iff.mp (by rwa [zpow_zero])
  have hdp' : d.decimalPoint < 20 := by
    by_contra hge
    have h1 := h.wf.zpow_le_iff.mpr (show (19:ℤ) < d.decimalPoint by lia)
    norm_num at h1
    linarith
  obtain ⟨d', hd', hl⟩ := rightShift_spec h.wf (show 1 ≤ 60 by norm_num) (by lia) (by lia)
  have ht := h.shift (shift_right hl) hx (by push_cast; lia) (by push_cast; lia)
  have hle := hl.cut.le
  obtain ⟨n, hn, hr'⟩ := round_spec ht.wf hl.last ht.le ht.truncated
    (ht.half_grid (by push_cast; lia)) (by rw [pow_one] at hle; linarith)
  refine ⟨d', hd', ?_⟩
  have hy : x*2^(-(e-(-((1:ℕ):ℤ)))) = x*2^(-e)/2 := by
    rw [show -(e-(-((1:ℕ):ℤ))) = -e-1 by push_cast; ring, zpow_sub_one₀ (by norm_num)]
    ring
  rw [hy] at hr'
  obtain ⟨h1, h2⟩ := hr'
  have hnlo : (2^s:ℚ) < n+1 := by linarith [h2.le]
  have hnhi : (n:ℚ) < 2^s+1 := by linarith [h1.le]
  have hnlo' : 2^s < n+1 := by exact_mod_cast hnlo
  have hnhi' : n < 2^s+1 := by exact_mod_cast hnhi
  rw [hn]
  congr 1
  lia

/-- The end of the slow path on a decimal in `[1/2, 1)`. -/
theorem roundSeq_spec (F : RawFloat) {x : ℚ} (hx : x < 10^310) {m e : ℤ} {d : DecimalSeq}
    (h : Tracks x m e d) (hm : 0 ≤ m) (hem : e ≤ m) (hm' : m = 0 ∨ m ≤ e+4) (he : -1085 ≤ e)
    (he' : e ≤ 1100) (hhalf : 1/2 ≤ d.value) (hone : d.value < 1) :
    ∃ fp, roundSeq F d e = some fp ∧ Rounded F x fp := by
  have hS : F.sigBits+1 ≤ 53 ∧ 1 ≤ F.sigBits := by cases F <;> decide
  have hmin : F.expMin < 0 ∧ -1022 ≤ F.expMin-F.sigBits+52 := by cases F <;> decide
  have hsat : F.infinitePower = (F.expSat:ℤ) ∧ F.expSat ≤ 2047 := ⟨rfl, by cases F <;> decide⟩
  obtain ⟨d₁, e₂, hloop, hmin₂, hle₂, h₁, hone₁, hor, hdp₁⟩ := subnormalLoop_spec F hx (m := m)
    (by lia) 63 (f := 1) (e := e-1) (by rwa [sub_add_cancel]) hone
    (by rw [Nat.cast_one, zpow_neg, zpow_one]; linarith) (by norm_num)
    (by have : F.expMin ≤ -14 := by cases F <;> decide
        lia) (by lia) (by lia) (by lia)
  obtain ⟨k, hk⟩ := Int.eq_ofNat_of_zero_le (show 0 ≤ e₂-F.expMin by lia)
  have hbound : e₂ ≤ 1100 := by lia
  have hdp₁' := h₁.wf.value_lt_one_iff.mp hone₁
  -- the mantissa as a real number
  obtain ⟨y, hy⟩ : ∃ y, y = x*2^(-(e₂-F.sigBits)) := ⟨_, rfl⟩
  have hxy : x = y*2^k*F.ulp := by
    rw [hy, RawFloat.ulp, mul_assoc, mul_assoc, ← zpow_natCast, ← zpow_add₀ (by norm_num),
      ← zpow_add₀ (by norm_num), show -(e₂-(F.sigBits:ℤ))+((k:ℤ)+(F.expMin-F.sigBits)) = 0 by lia]
    ring
  have hy0 : 0 ≤ y := by
    rw [hy]
    have := h.pos
    positivity
  have hnormal : 2^F.sigBits ≤ y ∨ k = 0 := by
    rcases hor with ⟨rfl, rfl⟩ | hor
    · left
      have := h₁.le
      rw [sub_add_cancel] at this
      rw [hy, show -(e-1-(F.sigBits:ℤ)) = -e+1+F.sigBits by ring, zpow_add₀ (by norm_num),
        zpow_add₀ (by norm_num), zpow_natCast, zpow_one, ← mul_assoc]
      have hp : (0:ℚ) < 2^F.sigBits := by positivity
      nlinarith
    · right
      lia
  rw [roundSeq, i32_eq (by lia) (by lia), Option.bind_eq_bind, Option.bind_some, hloop,
    Option.bind_eq_bind, Option.bind_some]
  simp only []
  by_cases hinf : e₂-F.expMin+1 ≥ F.infinitePower
  · rw [if_pos hinf]
    refine ⟨_, rfl, rounded_inf F (nearest_inf_of_scaled F hxy (hnormal.resolve_right ?_) ?_)⟩
    · have : 2 < F.expSat := by cases F <;> decide
      lia
    · lia
  · rw [if_neg hinf]
    obtain ⟨d₂, n, hd₂, hn, hr, hylt, h₂⟩ := mantissa_spec hx h₁ (s := F.sigBits+1) (by lia) hS.1
      (by lia) (by push_cast; lia) (by lia) hone₁ hdp₁
    have hexp : e₂+1-((F.sigBits+1:ℕ):ℤ) = e₂-F.sigBits := by
      push_cast
      ring
    rw [hexp] at hr hylt h₂
    rw [← hy] at hr hylt
    have hsh : shl 1 (F.sigBits+1:ℕ) = some (2^(F.sigBits+1)) := by
      rw [shl_eq (by lia), Nat.one_mul]
      rw [Nat.one_mul]
      exact Nat.pow_lt_pow_right (by norm_num) (by lia)
    have hn' : n ≤ 2^(F.sigBits+1) := by
      have h1 := hr.1.le
      have h2 : (n:ℚ) < 2^(F.sigBits+1)+1 := by linarith
      have h3 : n < 2^(F.sigBits+1)+1 := by exact_mod_cast h2
      lia
    simp only [Option.bind_eq_bind]
    rw [hd₂, Option.bind_some, hn, Option.bind_some, hsh, Option.bind_some]
    by_cases hover : n ≥ 2^(F.sigBits+1)
    · obtain rfl : n = 2^(F.sigBits+1) := by lia
      obtain ⟨d₃, hd₃, hn₃⟩ := reround_spec hx h₂ (s := F.sigBits) (by lia) (by lia) (by lia)
        (by lia) (by rwa [← hy]) (by rwa [← hy])
      have hnear := F.nearest_of_roundsTo hxy hr hy0 hylt hnormal
      rw [if_pos hover, hd₃, Option.bind_some, i32_eq (by lia) (by lia), Option.bind_some, hn₃,
        Option.bind_some]
      have hrung : k*2^F.sigBits+2^(F.sigBits+1) = (k+2)*2^F.sigBits := by ring
      rw [hrung, RawFloat.infBits] at hnear
      by_cases hinf' : e₂+1-F.expMin+1 ≥ F.infinitePower
      · rw [if_pos hinf']
        refine ⟨_, rfl, rounded_inf F ?_⟩
        rw [min_eq_right (Nat.mul_le_mul_right _ (by lia))] at hnear
        exact hnear
      · rw [min_eq_left (Nat.mul_le_mul_right _ (by lia))] at hnear
        rw [if_neg hinf', seqFields_eq F (k := k+1) (by push_cast; lia) (by lia)]
        refine ⟨_, rfl, 0, k+2, ?_, by positivity, by rwa [Nat.add_zero]⟩
        rw [Nat.mod_self, if_neg (lt_irrefl _)]
        push_cast
        congr 1
    · rw [if_neg hover, seqFields_eq F (k := k) (by lia) (by lia)]
      exact ⟨_, rfl, rounded_fields F hxy hr hy0 hylt hnormal (by lia) (by lia)⟩

theorem ten_pow_310_le : (10:ℚ)^310 ≤ 8^620 := by
  calc (10:ℚ)^310 ≤ (8^2)^310 := pow_le_pow_left₀ (by norm_num) (by norm_num) _
    _ = 8^620 := by rw [← pow_mul]

theorem two_pow_le_ten_pow_325 : (2:ℚ)^(-((1080:ℕ):ℤ)) ≤ 10^(-325:ℤ) := by
  have h : (10:ℚ)^325 ≤ 2^1080 := by
    calc (10:ℚ)^325 = (10^65)^5 := by rw [← pow_mul]
      _ ≤ (2^216)^5 := pow_le_pow_left₀ (by norm_num) (by norm_num) _
      _ = 2^1080 := by rw [← pow_mul]
  rw [show (-325:ℤ) = -((325:ℕ):ℤ) by norm_num, zpow_neg, zpow_neg, zpow_natCast, zpow_natCast]
  exact inv_anti₀ (by positivity) h

theorem shiftLoops_spec (F : RawFloat) {x : ℚ} {d : DecimalSeq} (h : Tracks x 0 0 d)
    (hlo : -324 ≤ d.decimalPoint) (hx : x < 10^310) :
    ∃ fp, shiftAndRound F d = some fp ∧ Rounded F x fp := by
  have hle := h.le
  rw [neg_zero, zpow_zero, mul_one] at hle
  obtain ⟨d₁, e₁, hr, h0, h₁, hone, hor⟩ := shiftRightLoop_spec hx h le_rfl
    ((hle.trans_lt hx).trans_le ten_pow_310_le) (show 620 < 2048 by norm_num)
  rw [shiftAndRound, hr, Option.bind_eq_bind, Option.bind_some]
  simp only []
  -- from one tenth on few rounds are left, otherwise nothing was shifted yet
  obtain ⟨f, hf, hf', hef, hm⟩ : ∃ f : ℕ, (2:ℚ)^(-(f:ℤ)) ≤ d₁.value ∧ f ≤ 1080 ∧
      -1080 ≤ e₁-f ∧ (e₁ = 0 ∨ f = 4) := by
    rcases hor with ⟨rfl, rfl⟩ | hor
    · refine ⟨1080, two_pow_le_ten_pow_325.trans ?_, le_rfl, by norm_num, Or.inl rfl⟩
      exact h.wf.zpow_le_iff.mpr (by lia)
    · refine ⟨4, ?_, by norm_num, by push_cast; lia, Or.inr rfl⟩
      norm_num
      linarith
  have he : e₁ ≤ 1100 := by
    rcases hor with ⟨-, rfl⟩ | hor
    · norm_num
    · exact (h₁.exp_lt hx hor).le
  obtain ⟨d₂, e₂, hl, hlo₂, hhi₂, h₂, hhalf, hone₂⟩ := shiftLeftLoop_spec F hx h₁ le_rfl he hone hf
    (by lia) (by lia) (show f < 2048 by lia)
  rw [hl, Option.bind_some]
  exact roundSeq_spec F hx h₂ h0 hhi₂ (by lia) (by lia) (by lia) hhalf hone₂

end RustStd.Dec2Flt
