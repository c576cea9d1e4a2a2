import Mathlib

/-!
# Linear congruences

A step that doubles the precision of an inverse, and the least `o` for which `a` divides
`p+o*s`.
-/

set_option autoImplicit false

namespace RustStd.LinearCongruence

theorem newton {x y n : ℤ} (h : x*y ≡ 1 [ZMOD n]) : x*(y*(2-x*y)) ≡ 1 [ZMOD n*n] := by
  obtain ⟨c, hc⟩ := Int.modEq_iff_dvd.mp h
  apply Int.modEq_iff_dvd.mpr
  refine ⟨c*c, ?_⟩
  calc 1-x*(y*(2-x*y)) = (1-x*y)*(1-x*y) := by ring
    _ = n*n*(c*c) := by rw [hc]; ring

section Least

variable {a d g m o p s : ℕ}

theorem dvd_start (h : a ∣ p+o*s) (ha : g ∣ a) (hs : g ∣ s) : g ∣ p := by
  have hsum : g ∣ p+o*s := ha.trans h
  exact (Nat.dvd_add_left (hs.mul_left o)).mp hsum

theorem isLeast_of_lt (ho : a ∣ p+o*s) (hlt : o < m) (hm : ∀ d, a ∣ d*s → m ∣ d) :
    IsLeast {o | a ∣ p+o*s} o := by
  constructor
  · exact ho
  · intro o' ho'
    by_contra hle
    have hsub : (o-o')*s = (p+o*s)-(p+o'*s) := by
      rw [Nat.sub_mul, Nat.add_sub_add_left]
    have hdvd : a ∣ (o-o')*s := by
      rw [hsub]
      exact Nat.dvd_sub ho ho'
    have := Nat.le_of_dvd (by omega) (hm _ hdvd)
    omega

theorem dvd_mul_iff (hg : 0 < g) : g*m ∣ g*p+o*(g*s) ↔ m ∣ p+o*s := by
  rw [show g*p+o*(g*s) = g*(p+o*s) by ring]
  exact Nat.mul_dvd_mul_iff_left hg

theorem dvd_of_coprime (hg : 0 < g) (hms : Nat.Coprime m s) (h : g*m ∣ d*(g*s)) : m ∣ d := by
  rw [show d*(g*s) = g*(d*s) by ring] at h
  exact hms.dvd_of_dvd_mul_right ((Nat.mul_dvd_mul_iff_left hg).mp h)

theorem dvd_of_inverse {y n : ℕ} (hn : (n:ℤ) ≡ -p [ZMOD m]) (hy : (s:ℤ)*y ≡ 1 [ZMOD m])
    (ho : (o:ℤ) ≡ n*y [ZMOD m]) : m ∣ p+o*s := by
  have hos : (o:ℤ)*s ≡ -p [ZMOD m] := by
    calc (o:ℤ)*s ≡ n*y*s [ZMOD m] := ho.mul_right _
      _ = n*(s*y) := by ring
      _ ≡ n*1 [ZMOD m] := hy.mul_left _
      _ = n := mul_one _
      _ ≡ -p [ZMOD m] := hn
  have hsum : (p:ℤ)+o*s ≡ p+(-p) [ZMOD m] := hos.add_left _
  rw [add_neg_cancel] at hsum
  have hdvd : (m:ℤ) ∣ ((p+o*s : ℕ) : ℤ) := by
    push_cast
    exact Int.modEq_zero_iff_dvd.mp hsum
  exact Int.natCast_dvd_natCast.mp hdvd

end Least

end RustStd.LinearCongruence
