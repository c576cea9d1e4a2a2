import Mathlib

/-!
# Multiples of a power of two

The least multiple of `a` that is not below `n`, and how a machine word is
rounded with a mask.
-/

set_option autoImplicit false

namespace RustStd.RoundUp

def roundUp (n a : ℕ) : ℕ := (n+a-1)/a*a

theorem le_roundUp (n : ℕ) {a : ℕ} (ha : 0 < a) : n ≤ roundUp n a := by
  have h := Nat.div_add_mod (n+a-1) a
  have hlt := Nat.mod_lt (n+a-1) ha
  rw [Nat.mul_comm] at h
  unfold roundUp
  omega

theorem dvd_roundUp (n a : ℕ) : a ∣ roundUp n a := Dvd.intro_left _ rfl

theorem roundUp_le {n a m : ℕ} (ha : 0 < a) (hn : n ≤ m) (hm : a ∣ m) : roundUp n a ≤ m := by
  obtain ⟨c, rfl⟩ := hm
  have hdiv : (n+a-1)/a < c+1 := by
    rw [Nat.div_lt_iff_lt_mul ha, Nat.add_mul, Nat.mul_comm c]
    omega
  calc (n+a-1)/a*a ≤ c*a := Nat.mul_le_mul_right a (by omega)
    _ = a*c := Nat.mul_comm c a

theorem roundUp_le_iff {n a m : ℕ} (ha : 0 < a) (hm : a ∣ m) : roundUp n a ≤ m ↔ n ≤ m := by
  constructor
  · exact (le_roundUp n ha).trans
  · intro h
    exact roundUp_le ha h hm

theorem roundUp_mono {n n' a a' : ℕ} (ha : 0 < a) (ha' : 0 < a') (hn : n ≤ n') (h : a ∣ a') :
    roundUp n a ≤ roundUp n' a' :=
  roundUp_le ha (hn.trans (le_roundUp n' ha')) (h.trans (dvd_roundUp n' a'))

theorem roundUp_lt_iff {n a m : ℕ} (ha : 0 < a) (hm : a ∣ m) (hpos : 0 < m) :
    roundUp n a < m ↔ n ≤ m-a := by
  have hle := Nat.le_of_dvd hpos hm
  have hsub : a ∣ m-a := Nat.dvd_sub hm dvd_rfl
  rw [← roundUp_le_iff ha hsub]
  constructor
  · intro h
    obtain ⟨c, hc⟩ := dvd_roundUp n a
    obtain ⟨d, rfl⟩ := hm
    rw [hc] at h ⊢
    have hcd : c < d := Nat.lt_of_mul_lt_mul_left h
    calc a*c ≤ a*(d-1) := Nat.mul_le_mul_left a (by omega)
      _ = a*d-a := by rw [Nat.mul_sub, Nat.mul_one]
  · intro h
    omega

theorem and_not_mask {w k x : ℕ} (hx : x < 2^w) (hk : k ≤ w) :
    x &&& (2^w-1-(2^k-1)) = x/2^k*2^k := by
  have hle : 2^k ≤ 2^w := Nat.pow_le_pow_right (by norm_num) hk
  have hmask : 2^w-1-(2^k-1) = (2^(w-k)-1)*2^k := by
    rw [Nat.sub_mul, ← pow_add, Nat.sub_add_cancel hk]
    have : 1 ≤ 2^k := Nat.one_le_two_pow
    omega
  rw [hmask]
  apply Nat.eq_of_testBit_eq
  intro i
  rw [Nat.testBit_and, Nat.testBit_mul_two_pow, Nat.testBit_mul_two_pow,
    Nat.testBit_two_pow_sub_one, Nat.testBit_div_two_pow]
  by_cases hi : k ≤ i
  · rw [Nat.sub_add_cancel hi]
    by_cases hw : i < w
    · simp [hi, show i-k < w-k by omega]
    · have : x.testBit i = false := Nat.testBit_lt_two_pow (hx.trans_le
        (Nat.pow_le_pow_right (by norm_num) (by omega)))
      simp [this]
  · simp [hi]

end RustStd.RoundUp
