import Mathlib

/-!
# Steps around a ring

Steps of size `r` on a ring of `n` places, from a place below `gcd n r`. They
come back after `n/gcd n r` steps and not earlier, and until then they meet
each place of their class modulo the gcd once.
-/

set_option autoImplicit false

namespace RustStd.RingSteps

/-- The place after `t` steps from `s`. -/
def place (n r s t : ℕ) : ℕ := (s+t*r)%n

variable {n r s t u : ℕ}

theorem place_lt (hn : 0 < n) : place n r s t < n := Nat.mod_lt _ hn

theorem place_zero (h : s < n) : place n r s 0 = s := by
  rw [place, Nat.zero_mul, Nat.add_zero, Nat.mod_eq_of_lt h]

theorem place_succ : place n r s (t+1) = (place n r s t+r)%n := by
  rw [place, place, Nat.mod_add_mod]
  congr 1
  ring

theorem place_mod_gcd : place n r s t%Nat.gcd n r = s%Nat.gcd n r := by
  rw [place, Nat.mod_mod_of_dvd _ (Nat.gcd_dvd_left n r)]
  have hr : t*r%Nat.gcd n r = 0 := Nat.mod_eq_zero_of_dvd ((Nat.gcd_dvd_right n r).mul_left t)
  rw [Nat.add_mod, hr, Nat.add_zero, Nat.mod_mod]

theorem period_pos (hn : 0 < n) : 0 < n/Nat.gcd n r :=
  Nat.div_pos (Nat.gcd_le_left r hn) (Nat.gcd_pos_of_pos_left r hn)

theorem dvd_steps_iff (hn : 0 < n) : n ∣ t*r ↔ n/Nat.gcd n r ∣ t := by
  have hg : 0 < Nat.gcd n r := Nat.gcd_pos_of_pos_left r hn
  have hcop : Nat.Coprime (n/Nat.gcd n r) (r/Nat.gcd n r) := Nat.coprime_div_gcd_div_gcd hg
  have hN : n/Nat.gcd n r*Nat.gcd n r = n := Nat.div_mul_cancel (Nat.gcd_dvd_left n r)
  have hR : t*r = t*(r/Nat.gcd n r)*Nat.gcd n r := by
    rw [Nat.mul_assoc, Nat.div_mul_cancel (Nat.gcd_dvd_right n r)]
  calc n ∣ t*r ↔ n/Nat.gcd n r*Nat.gcd n r ∣ t*(r/Nat.gcd n r)*Nat.gcd n r := by rw [hN, ← hR]
    _ ↔ n/Nat.gcd n r ∣ t*(r/Nat.gcd n r) := Nat.mul_dvd_mul_iff_right hg
    _ ↔ n/Nat.gcd n r ∣ t := hcop.dvd_mul_right

theorem place_eq_iff (hn : 0 < n) (h : u ≤ t) :
    place n r s u = place n r s t ↔ n/Nat.gcd n r ∣ t-u := by
  have hle : s+u*r ≤ s+t*r := Nat.add_le_add_left (Nat.mul_le_mul_right r h) s
  have hsub : s+t*r-(s+u*r) = (t-u)*r := by rw [Nat.add_sub_add_left, Nat.sub_mul]
  calc place n r s u = place n r s t ↔ n ∣ s+t*r-(s+u*r) := Nat.modEq_iff_dvd' hle
    _ ↔ n ∣ (t-u)*r := by rw [hsub]
    _ ↔ n/Nat.gcd n r ∣ t-u := dvd_steps_iff hn

theorem place_eq_start_iff (h : s < n) : place n r s t = s ↔ n/Nat.gcd n r ∣ t := by
  have hz := place_eq_iff (r := r) (s := s) (show 0 < n by omega) (Nat.zero_le t)
  rw [place_zero h, Nat.sub_zero] at hz
  exact eq_comm.trans hz

theorem place_inj (hn : 0 < n) (h : u ≤ t) (hu : 0 < u) (ht : t ≤ n/Nat.gcd n r)
    (he : place n r s u = place n r s t) : u = t := by
  have hd : n/Nat.gcd n r ∣ t-u := (place_eq_iff hn h).mp he
  have hz : t-u = 0 := Nat.eq_zero_of_dvd_of_lt hd (by omega)
  omega

/-- Every place of the class of `s` is met within a period. -/
theorem exists_place {j : ℕ} (hj : j < n) (h : j%Nat.gcd n r = s%Nat.gcd n r) (hs : s ≤ j) :
    ∃ t, 0 < t ∧ t ≤ n/Nat.gcd n r ∧ place n r s t = j := by
  have hn : 0 < n := by omega
  have hg : 0 < Nat.gcd n r := Nat.gcd_pos_of_pos_left r hn
  have hcop : Nat.Coprime (r/Nat.gcd n r) (n/Nat.gcd n r) :=
    (Nat.coprime_div_gcd_div_gcd hg).symm
  have hm := period_pos (r := r) hn
  obtain ⟨c, hc⟩ : Nat.gcd n r ∣ j-s := (Nat.modEq_iff_dvd' hs).mp h.symm
  obtain ⟨t, ht, htc⟩ := Nat.exists_mul_mod_eq_of_coprime c hcop hm.ne'
  have hsteps : t*r ≡ Nat.gcd n r*c [MOD n] := by
    have hmod := Nat.ModEq.mul_left' (Nat.gcd n r) (show r/Nat.gcd n r*t ≡ c [MOD _] from htc)
    rw [Nat.mul_div_cancel' (Nat.gcd_dvd_left n r), ← Nat.mul_assoc,
      Nat.mul_div_cancel' (Nat.gcd_dvd_right n r), Nat.mul_comm r t] at hmod
    exact hmod
  have hplace : place n r s t = j := by
    have hj' : s+Nat.gcd n r*c = j := by omega
    calc place n r s t = (s+Nat.gcd n r*c)%n := hsteps.add_left s
      _ = j := by rw [hj', Nat.mod_eq_of_lt hj]
  rcases Nat.eq_zero_or_pos t with rfl | hpos
  · have hback : place n r s 0 = place n r s (n/Nat.gcd n r) :=
      (place_eq_iff hn (Nat.zero_le _)).mpr (dvd_refl _)
    exact ⟨n/Nat.gcd n r, hm, le_rfl, hback.symm.trans hplace⟩
  · exact ⟨t, hpos, ht.le, hplace⟩

end RustStd.RingSteps
