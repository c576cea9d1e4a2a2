import Mathlib

/-!
# Digit sequences

A sequence of digits in some base, most significant first, and the number it
denotes. Cutting a number off after some digits gives the largest number with
that many digits below it.
-/

set_option autoImplicit false

namespace RustStd.Digits

/-- The number that the first `n` digits denote. -/
def ofFn (b : ℕ) (f : ℕ → ℕ) : ℕ → ℕ
  | 0 => 0
  | n+1 => ofFn b f n*b+f n

theorem ofFn_lt {b n : ℕ} {f : ℕ → ℕ} (h : ∀ i < n, f i < b) : ofFn b f n < b^n := by
  induction n with
  | zero => simp [ofFn]
  | succ n ih =>
    have h1 := ih fun i hi => h i (by lia)
    have h2 := h n (by lia)
    rw [ofFn, pow_succ]
    nlinarith

theorem ofFn_ge {b n : ℕ} {f : ℕ → ℕ} (h : f 0 ≠ 0) : b^n ≤ ofFn b f (n+1) := by
  induction n with
  | zero =>
    rw [pow_zero, ofFn, ofFn]
    lia
  | succ n ih =>
    rw [ofFn, pow_succ]
    exact (Nat.mul_le_mul_right b ih).trans (Nat.le_add_right _ _)

theorem ofFn_of_div {b L m n : ℕ} {f : ℕ → ℕ} (hn : n ≤ L) (hm : m < b^L)
    (h : ∀ i < n, f i = m/b^(L-1-i)%b) : ofFn b f n = m/b^(L-n) := by
  induction n with
  | zero => rw [ofFn, Nat.sub_zero, Nat.div_eq_of_lt hm]
  | succ n ih =>
    rw [ofFn, ih (by lia) fun i hi => h i (by lia), h n (by lia)]
    have hd : m/b^(L-n) = m/b^(L-1-n)/b := by
      rw [Nat.div_div_eq_div_mul, ← pow_succ]
      congr 2
      lia
    rw [hd, show L-(n+1) = L-1-n by lia]
    exact Nat.div_add_mod' _ _

theorem ofFn_div {b n k : ℕ} {f : ℕ → ℕ} (h : ∀ i < n, f i < b) (hk : k ≤ n) :
    ofFn b f n/b^(n-k) = ofFn b f k := by
  induction n with
  | zero =>
    obtain rfl : k = 0 := by lia
    simp
  | succ n ih =>
    rcases Nat.lt_or_ge k (n+1) with hlt | hge
    · have hf := h n (by lia)
      have hb : 0 < b := by lia
      rw [show n+1-k = n-k+1 by lia, pow_succ', ← Nat.div_div_eq_div_mul, ofFn, Nat.mul_comm,
        Nat.mul_add_div hb, Nat.div_eq_of_lt hf, Nat.add_zero]
      exact ih (fun i hi => h i (by lia)) (by lia)
    · obtain rfl : k = n+1 := by lia
      simp

theorem digit_eq {b n i : ℕ} {f : ℕ → ℕ} (h : ∀ i < n, f i < b) (hi : i < n) :
    f i = ofFn b f n/b^(n-1-i)%b := by
  have hk := ofFn_div h (show i+1 ≤ n by lia)
  rw [show n-(i+1) = n-1-i by lia] at hk
  rw [hk, ofFn, Nat.mul_comm, Nat.mul_add_mod, Nat.mod_eq_of_lt (h i hi)]

theorem ofFn_zeros {b n k : ℕ} {f : ℕ → ℕ} (hk : k ≤ n) (h : ∀ i, k ≤ i → i < n → f i = 0) :
    ofFn b f n = ofFn b f k*b^(n-k) := by
  induction n with
  | zero =>
    obtain rfl : k = 0 := by lia
    simp
  | succ n ih =>
    rcases Nat.lt_or_ge k (n+1) with hlt | hge
    · rw [ofFn, ih (by lia) fun i hi hin => h i hi (by lia), h n (by lia) (by lia),
        Nat.add_zero, show n+1-k = n-k+1 by lia, pow_succ, Nat.mul_assoc]
    · obtain rfl : k = n+1 := by lia
      simp

/-! ## Cutting off -/

/-- Numbers with at most `n` significant digits. -/
def Short (b n : ℕ) (t : ℚ) : Prop := ∃ (m : ℕ) (j : ℤ), m < b^n ∧ t = m*(b:ℚ)^j

/-- `t` is the largest number with at most `n` significant digits up to `v`. -/
structure IsCut (b n : ℕ) (v t : ℚ) : Prop where
  le : t ≤ v
  greatest : ∀ u, Short b n u → u ≤ v → u ≤ t

theorem isCut_self (b n : ℕ) (v : ℚ) : IsCut b n v v := ⟨le_rfl, fun _ _ h => h⟩

theorem isCut_div {b n L m c : ℕ} (hb : 1 < b) (hc : c+n = L) (hn : 0 < n) (hm : b^(L-1) ≤ m)
    (j : ℤ) : IsCut b n (m*(b:ℚ)^j) ((m/b^c:ℕ)*(b:ℚ)^(j+c)) := by
  have hbQ : (1:ℚ) < b := by exact_mod_cast hb
  have hb0 : (0:ℚ) < b := by linarith
  have hpow : (b:ℚ)^(j+c) = (b:ℚ)^c*(b:ℚ)^j := by
    rw [zpow_add₀ hb0.ne', zpow_natCast, mul_comm]
  constructor
  · have hle : m/b^c*b^c ≤ m := Nat.div_mul_le_self m (b^c)
    have hleQ : ((m/b^c:ℕ):ℚ)*(b:ℚ)^c ≤ m := by exact_mod_cast hle
    rw [hpow, ← mul_assoc]
    gcongr
  · rintro u ⟨a, i, ha, rfl⟩ hle
    rcases le_or_gt (j+c) i with hi | hi
    · -- an integer multiple of the last kept place
      obtain ⟨e, he⟩ := Int.eq_ofNat_of_zero_le (show 0 ≤ i-(j+c) by lia)
      have hi' : (b:ℚ)^i = (b:ℚ)^e*(b:ℚ)^(j+c) := by
        rw [← zpow_natCast, ← zpow_add₀ hb0.ne']
        congr 1
        lia
      have hN : a*b^e*b^c ≤ m := by
        have h1 : (a:ℚ)*(b:ℚ)^e*(b:ℚ)^c*(b:ℚ)^j ≤ m*(b:ℚ)^j := by
          calc (a:ℚ)*(b:ℚ)^e*(b:ℚ)^c*(b:ℚ)^j = a*(b:ℚ)^i := by rw [hi', hpow]; ring
            _ ≤ m*(b:ℚ)^j := hle
        have h2 := le_of_mul_le_mul_right h1 (by positivity)
        exact_mod_cast h2
      have hdiv : a*b^e ≤ m/b^c := (Nat.le_div_iff_mul_le (by positivity)).mpr hN
      have hdivQ : (a:ℚ)*(b:ℚ)^e ≤ ((m/b^c:ℕ):ℚ) := by exact_mod_cast hdiv
      rw [hi', ← mul_assoc]
      gcongr
    · -- too few digits to reach the first kept place
      have hge : b^(n-1) ≤ m/b^c := by
        rw [Nat.le_div_iff_mul_le (by positivity), ← pow_add]
        rwa [show n-1+c = L-1 by lia]
      have hgeQ : (b:ℚ)^(n-1) ≤ ((m/b^c:ℕ):ℚ) := by exact_mod_cast hge
      have haQ : (a:ℚ) ≤ (b:ℚ)^n := by exact_mod_cast ha.le
      calc (a:ℚ)*(b:ℚ)^i ≤ (b:ℚ)^n*(b:ℚ)^i := by gcongr
        _ = (b:ℚ)^((n:ℤ)+i) := by rw [zpow_add₀ hb0.ne', zpow_natCast]
        _ ≤ (b:ℚ)^(((n-1:ℕ):ℤ)+(j+c)) := zpow_le_zpow_right₀ hbQ.le (by lia)
        _ = (b:ℚ)^(n-1)*(b:ℚ)^(j+c) := by rw [zpow_add₀ hb0.ne', zpow_natCast]
        _ ≤ ((m/b^c:ℕ):ℚ)*(b:ℚ)^(j+c) := by gcongr

end RustStd.Digits

/-! ## The digits of a number

The lowest `k` digits of a number, the most significant one first, with leading
zeros. Taking digits in groups or one at a time gives the same list, and reading
the list gives the number back.
-/

namespace RustStd.Radix

def lowDigits (b : ℕ) : ℕ → ℕ → List ℕ
  | 0, _ => []
  | k+1, n => n/b^k%b :: lowDigits b k n

/-- All digits, without a leading zero unless the number is zero. -/
def digits (b n : ℕ) : List ℕ := lowDigits b (Nat.log b n+1) n

@[simp] theorem length_lowDigits (b k n : ℕ) : (lowDigits b k n).length = k := by
  induction k with
  | zero => rfl
  | succ k ih => simp [lowDigits, ih]

theorem lt_of_mem_lowDigits {b k n d : ℕ} (hb : 0 < b) (h : d ∈ lowDigits b k n) : d < b := by
  induction k with
  | zero => simp [lowDigits] at h
  | succ k ih =>
    rcases List.mem_cons.mp h with rfl | h
    · exact Nat.mod_lt _ hb
    · exact ih h

theorem lowDigits_add (b j k n : ℕ) :
    lowDigits b (j+k) n = lowDigits b j (n/b^k) ++ lowDigits b k n := by
  induction j with
  | zero => simp [lowDigits]
  | succ j ih =>
    rw [Nat.add_right_comm, lowDigits, lowDigits, ih, Nat.div_div_eq_div_mul, ← pow_add,
      Nat.add_comm k j]
    rfl

theorem lowDigits_mod {b k K : ℕ} (n : ℕ) (h : k ≤ K) :
    lowDigits b k (n%b^K) = lowDigits b k n := by
  induction k with
  | zero => rfl
  | succ k ih =>
    have hsplit : b^K = b^k*b^(K-k) := by
      rw [← pow_add]
      congr 1
      lia
    have hdvd : b ∣ b^(K-k) := dvd_pow_self b (by lia)
    rw [lowDigits, lowDigits, ih (by lia), hsplit, Nat.mod_mul_right_div_self,
      Nat.mod_mod_of_dvd _ hdvd]

theorem foldl_lowDigits (b k n r : ℕ) :
    (lowDigits b k n).foldl (fun r d => r*b+d) r = r*b^k+n%b^k := by
  induction k generalizing r with
  | zero => simp [lowDigits, Nat.mod_one]
  | succ k ih =>
    rw [lowDigits, List.foldl_cons, ih, Nat.mod_pow_succ]
    ring

theorem digits_eq {b n k : ℕ} (hb : 1 < b) (hlo : b^k ≤ n ∨ n = 0 ∧ k = 0) (hhi : n < b^(k+1)) :
    digits b n = lowDigits b (k+1) n := by
  rw [digits]
  rcases hlo with hlo | ⟨rfl, rfl⟩
  · rw [(Nat.log_eq_iff (Or.inr ⟨hb, (show n ≠ 0 from by
      have : 0 < b^k := by positivity
      lia)⟩)).mpr ⟨hlo, hhi⟩]
  · rw [Nat.log_zero_right]

theorem foldl_digits {b n : ℕ} (hb : 1 < b) : (digits b n).foldl (fun r d => r*b+d) 0 = n := by
  rw [digits, foldl_lowDigits, Nat.zero_mul, Nat.zero_add,
    Nat.mod_eq_of_lt (Nat.lt_pow_succ_log_self hb n)]

theorem head_digits {b n : ℕ} (hb : 1 < b) (hn : n ≠ 0) : ∃ d ds, digits b n = d :: ds ∧ d ≠ 0 := by
  refine ⟨_, _, rfl, ?_⟩
  have hlo := Nat.pow_log_le_self b hn
  have hhi := Nat.lt_pow_succ_log_self hb n
  have hlt : n/b^Nat.log b n < b := by
    rw [Nat.div_lt_iff_lt_mul (by positivity), ← pow_succ']
    exact hhi
  have hpos : 0 < n/b^Nat.log b n := Nat.div_pos hlo (by positivity)
  rw [Nat.mod_eq_of_lt hlt]
  lia

end RustStd.Radix
