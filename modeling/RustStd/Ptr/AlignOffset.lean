import RustStd.Alloc.Layout
import RustStd.Lib.LinearCongruence
import RustStd.Lib.Loop

/-!
# `ptr::align_offset`

The number of elements of a given stride from an address to the next aligned one. `none` is
undefined behaviour of an unchecked operation.
-/

set_option autoImplicit false

namespace RustStd.Ptr
open RustStd.Machine RustStd.Checked RustStd.Loop RustStd.LinearCongruence

def wrappingAdd (a b : ℕ) : ℕ := (a+b)%2^64

def wrappingMul (a b : ℕ) : ℕ := a*b%2^64

/-- The wrapped product, and whether it wrapped. -/
def mulWithOverflow (a b : ℕ) : ℕ × Bool := (a*b%2^64, decide (2^64 ≤ a*b))

def invTableMod16 : List ℕ := [1, 11, 13, 7, 9, 3, 5, 15]

def invTableMod : ℕ := 16

/-- One round of the loop, with the inverse and `mod_gate`. -/
def modInvBody (x m : ℕ) (s : ℕ × ℕ) : Option (ℕ × ℕ ⊕ ℕ) :=
  let (inverse, modGate) := s
  if modGate ≥ m then some (.inr inverse)
  else
    let inverse := wrappingMul inverse (wrappingSub 2 (wrappingMul x inverse))
    let (newGate, overflow) := mulWithOverflow modGate modGate
    if overflow then some (.inr inverse) else some (.inl (inverse, newGate))

/-- At most four rounds, as the comment in the source says. -/
def modInv (x m : ℕ) : Option ℕ := do
  let mMinusOne ← sub m 1
  let inverse ← invTableMod16[(x &&& (invTableMod-1)) >>> 1]?
  let inverse ← loop (modInvBody x m) 4 (inverse, invTableMod)
  return inverse &&& mMinusOne

/-- The number of trailing zeros of a number with at most `w` bits. -/
def cttz : ℕ → ℕ → ℕ
  | 0, _ => 0
  | w+1, x => if x%2 = 1 then 0 else cttz w (x/2)+1

def cttzNonzero (x : ℕ) : Option ℕ := if x = 0 then none else some (cttz 64 x)

def exactDiv (x y : ℕ) : Option ℕ := if y ≠ 0 ∧ x%y = 0 then some (x/y) else none

section Offset

variable (addr stride a aMinusOne : ℕ)

/-- `stride` divides `a`. -/
def offsetDividing : Option ℕ :=
  let alignedAddress := wrappingAdd addr aMinusOne &&& wrappingSub 0 a
  let byteOffset := wrappingSub alignedAddress addr
  if byteOffset < a then
    if addr%stride = 0 then exactDiv byteOffset stride else some usizeMax
  else none

def offsetGeneral : Option ℕ := do
  let x ← cttzNonzero stride
  let y ← cttzNonzero a
  let gcdpow := if x < y then x else y
  let gcd ← shl 1 gcdpow
  let gcdMinusOne ← sub gcd 1
  if addr &&& gcdMinusOne = 0 then
    let a2 ← shr a gcdpow
    let a2minus1 ← sub a2 1
    let s2 ← shr (stride &&& aMinusOne) gcdpow
    let p2 ← shr (addr &&& aMinusOne) gcdpow
    let minusp2 ← sub a2 p2
    let inverse ← modInv s2 a2
    return wrappingMul minusp2 inverse &&& a2minus1
  else return usizeMax

def alignOffset : Option ℕ := do
  let aMinusOne ← sub a 1
  if stride = 0 then return if addr &&& aMinusOne = 0 then 0 else usizeMax
  else if a%stride = 0 then offsetDividing addr stride a aMinusOne
  else offsetGeneral addr stride a aMinusOne

end Offset

/-! ## Wrapping arithmetic is exact modulo `2^64` -/

section Wrapping

theorem wrappingMul_modEq (a b : ℕ) : (wrappingMul a b : ℤ) ≡ a*b [ZMOD 2^64] := by
  rw [wrappingMul]
  push_cast
  exact Int.mod_modEq _ _

theorem wrappingSub_modEq (a b : ℕ) : (wrappingSub a b : ℤ) ≡ a-b [ZMOD 2^64] := by
  have hlt : b%2^64 < 2^64 := Nat.mod_lt _ (by norm_num)
  have hcast : ((a+2^64-b%2^64 : ℕ) : ℤ) = a-(b:ℤ)%2^64+2^64 := by
    rw [Nat.cast_sub (by omega)]
    push_cast
    ring
  rw [wrappingSub, Int.natCast_mod, hcast]
  calc (((a:ℤ)-(b:ℤ)%2^64+2^64)%((2^64 : ℕ) : ℤ)) ≡ a-(b:ℤ)%2^64+2^64 [ZMOD 2^64] := by
        exact_mod_cast Int.mod_modEq _ _
    _ ≡ a-(b:ℤ)%2^64 [ZMOD 2^64] := Int.add_modEq_right
    _ ≡ a-b [ZMOD 2^64] := (Int.ModEq.refl _).sub (Int.mod_modEq _ _)

theorem update_modEq {x y j : ℕ} (hj : 2*j ≤ 64) (h : (x:ℤ)*y ≡ 1 [ZMOD 2^j]) :
    (x:ℤ)*(wrappingMul y (wrappingSub 2 (wrappingMul x y)) : ℕ) ≡ 1 [ZMOD 2^(2*j)] := by
  have hdvd : (2:ℤ)^(2*j) ∣ 2^64 := pow_dvd_pow 2 hj
  have hsub : ((wrappingSub 2 (wrappingMul x y) : ℕ) : ℤ) ≡ 2-x*y [ZMOD 2^64] :=
    (wrappingSub_modEq _ _).trans ((Int.ModEq.refl _).sub (wrappingMul_modEq x y))
  have hmul : ((wrappingMul y (wrappingSub 2 (wrappingMul x y)) : ℕ) : ℤ) ≡ y*(2-x*y) [ZMOD 2^64] :=
    (wrappingMul_modEq _ _).trans (hsub.mul_left _)
  have hstep := newton h
  rw [← pow_add, ← two_mul] at hstep
  exact ((hmul.of_dvd hdvd).mul_left _).trans hstep

end Wrapping

/-! ## The inverse -/

section Inverse

variable {x y j k fuel : ℕ}

theorem table_inverse (x : ℕ) :
    ∃ y, invTableMod16[(x &&& (invTableMod-1)) >>> 1]? = some y ∧
      (x%2 = 1 → (x:ℤ)*y ≡ 1 [ZMOD 2^4]) := by
  have hall : ∀ r < 16, ∃ y, invTableMod16[r >>> 1]? = some y ∧ (r%2 = 1 → r*y%16 = 1) := by
    intro r hr
    interval_cases r <;> exact ⟨_, rfl, by decide⟩
  have hmask : x &&& (invTableMod-1) = x%16 := Nat.and_two_pow_sub_one_eq_mod x 4
  obtain ⟨y, hy, hinv⟩ := hall (x%16) (Nat.mod_lt _ (by norm_num))
  rw [hmask]
  refine ⟨y, hy, fun hodd => ?_⟩
  have hmod := hinv (by omega)
  rw [Nat.mod_mul_mod] at hmod
  have hcast : ((x*y : ℕ) : ℤ)%((16 : ℕ) : ℤ) = 1 := by
    exact_mod_cast hmod
  push_cast at hcast
  exact hcast

def update (x y : ℕ) : ℕ := wrappingMul y (wrappingSub 2 (wrappingMul x y))

theorem modInvBody_stop (h : k ≤ j) : modInvBody x (2^k) (y, 2^j) = some (.inr y) := by
  rw [modInvBody]
  exact if_pos (Nat.pow_le_pow_right (by norm_num) h)

theorem modInvBody_overflow (h : j < k) (hj : 64 ≤ 2*j) :
    modInvBody x (2^k) (y, 2^j) = some (.inr (update x y)) := by
  have hgate : ¬ 2^j ≥ 2^k := not_le.mpr (Nat.pow_lt_pow_right (by norm_num) h)
  have hover : (mulWithOverflow (2^j) (2^j)).2 = true := by
    rw [mulWithOverflow, ← pow_add, ← two_mul]
    exact decide_eq_true (Nat.pow_le_pow_right (by norm_num) hj)
  rw [modInvBody]
  apply (if_neg hgate).trans
  exact if_pos hover

theorem modInvBody_next (h : j < k) (hj : 2*j < 64) :
    modInvBody x (2^k) (y, 2^j) = some (.inl (update x y, 2^(2*j))) := by
  have hgate : ¬ 2^j ≥ 2^k := not_le.mpr (Nat.pow_lt_pow_right (by norm_num) h)
  have hlt : 2^(2*j) < 2^64 := Nat.pow_lt_pow_right (by norm_num) hj
  have hmul : mulWithOverflow (2^j) (2^j) = (2^(2*j), false) := by
    rw [mulWithOverflow, ← pow_add, ← two_mul, Nat.mod_eq_of_lt hlt, decide_eq_false (by omega)]
  rw [modInvBody]
  apply (if_neg hgate).trans
  rw [hmul]
  rfl

theorem update_inverse (hj : 2*j ≤ 64) (hy : x%2 = 1 → (x:ℤ)*y ≡ 1 [ZMOD 2^j]) :
    x%2 = 1 → (x:ℤ)*update x y ≡ 1 [ZMOD 2^(2*j)] :=
  fun hodd => update_modEq hj (hy hodd)

theorem modInvLoop_last (hk : k < 64) (hj : 2*j ≤ 64) (hlast : k ≤ j ∨ 64 ≤ 2*j)
    (hy : x%2 = 1 → (x:ℤ)*y ≡ 1 [ZMOD 2^j]) :
    ∃ z, loop (modInvBody x (2^k)) (fuel+1) (y, 2^j) = some z ∧
      (x%2 = 1 → (x:ℤ)*z ≡ 1 [ZMOD 2^k]) := by
  by_cases hstop : k ≤ j
  · refine ⟨y, ?_, fun hodd => (hy hodd).of_dvd (pow_dvd_pow 2 hstop)⟩
    rw [loop, modInvBody_stop hstop]
  · have hover : 64 ≤ 2*j := hlast.resolve_left hstop
    have hz := update_inverse hj hy
    refine ⟨update x y, ?_, fun hodd => (hz hodd).of_dvd (pow_dvd_pow 2 (by omega))⟩
    rw [loop, modInvBody_overflow (by omega) hover]

theorem modInvLoop_spec (hk : k < 64) (hj : j*2^fuel = 32)
    (hy : x%2 = 1 → (x:ℤ)*y ≡ 1 [ZMOD 2^j]) :
    ∃ z, loop (modInvBody x (2^k)) (fuel+1) (y, 2^j) = some z ∧
      (x%2 = 1 → (x:ℤ)*z ≡ 1 [ZMOD 2^k]) := by
  induction fuel generalizing j y with
  | zero =>
    rw [pow_zero, mul_one] at hj
    exact modInvLoop_last hk (by omega) (.inr (by omega)) hy
  | succ fuel ih =>
    have hdouble : 2*j*2^fuel = 32 := by
      rw [← hj, pow_succ]
      ring
    have hle : 2*j ≤ 32 := by
      rw [← hdouble]
      exact Nat.le_mul_of_pos_right _ (by positivity)
    by_cases hlast : k ≤ j ∨ 64 ≤ 2*j
    · exact modInvLoop_last hk (by omega) hlast hy
    · obtain ⟨z, hloop, hz⟩ := ih hdouble (update_inverse (by omega) hy)
      refine ⟨z, ?_, hz⟩
      rw [loop, modInvBody_next (by omega) (by omega)]
      exact hloop

theorem modInv_spec (x : ℕ) (hk : k < 64) :
    ∃ z, modInv x (2^k) = some z ∧ z < 2^k ∧ (x%2 = 1 → (x:ℤ)*z ≡ 1 [ZMOD 2^k]) := by
  obtain ⟨y, htable, hy⟩ := table_inverse x
  have hrounds : 4*2^3 = 32 := by norm_num
  obtain ⟨z, hloop, hz⟩ := modInvLoop_spec hk hrounds hy
  have hloop' : loop (modInvBody x (2^k)) 4 (y, invTableMod) = some z := hloop
  refine ⟨z%2^k, ?_, Nat.mod_lt _ (by positivity), fun hodd => ?_⟩
  · rw [modInv, sub_eq Nat.one_le_two_pow, htable]
    simp only [some_bind, hloop', Nat.and_two_pow_sub_one_eq_mod]
    rfl
  · have hmod : ((z%2^k : ℕ) : ℤ) ≡ z [ZMOD 2^k] := by
      push_cast
      exact Int.mod_modEq _ _
    exact (hmod.mul_left _).trans (hz hodd)

end Inverse

/-! ## The offset -/

section Offset

variable {addr stride a g k m o p s : ℕ}

/-- A result is exact: it is the least solution, or `usize::MAX` and there is none. -/
def Exact (addr stride a o : ℕ) : Prop :=
  IsLeast {n | (addr+n*stride)%2^64%a = 0} o ∧ o ≠ usizeMax ∨
    o = usizeMax ∧ ∀ n, (addr+n*stride)%2^64%a ≠ 0

theorem solution_iff (hk : k < 64) (n : ℕ) :
    (addr+n*stride)%2^64%2^k = 0 ↔ 2^k ∣ addr+n*stride := by
  have hdvd : 2^k ∣ 2^64 := Nat.pow_dvd_pow 2 hk.le
  rw [Nat.mod_mod_of_dvd _ hdvd, Nat.dvd_iff_mod_eq_zero]

theorem exact_of_least (hk : k < 64) (hlt : o < 2^63) (h : IsLeast {n | 2^k ∣ addr+n*stride} o) :
    Exact addr stride (2^k) o := by
  have hset : {n | (addr+n*stride)%2^64%2^k = 0} = {n | 2^k ∣ addr+n*stride} := by
    ext n
    exact solution_iff hk n
  rw [Exact, hset]
  refine .inl ⟨h, ?_⟩
  rw [usizeMax]
  omega

theorem exact_of_none (hk : k < 64) (h : ∀ n, ¬ 2^k ∣ addr+n*stride) :
    Exact addr stride (2^k) usizeMax :=
  .inr ⟨rfl, fun n hn => h n ((solution_iff hk n).mp hn)⟩

theorem exact_zero (hk : k < 64) :
    Exact addr 0 (2^k) (if addr%2^k = 0 then 0 else usizeMax) := by
  by_cases h : addr%2^k = 0
  · rw [if_pos h]
    apply exact_of_least hk (by norm_num)
    constructor
    · exact Nat.dvd_of_mod_eq_zero h
    · intro n hn
      exact Nat.zero_le n
  · rw [if_neg h]
    apply exact_of_none hk
    intro n hn
    exact h (Nat.mod_eq_zero_of_dvd hn)

theorem byteOffset_eq (hk : k < 64) (haddr : addr < 2^64) :
    wrappingSub (wrappingAdd addr (2^k-1) &&& wrappingSub 0 (2^k)) addr =
      2^k-1-(addr+(2^k-1))%2^k := by
  have hpos : 0 < 2^k := by positivity
  have hlt : 2^k < 2^64 := Nat.pow_lt_pow_right (by norm_num) hk
  have hdvd : 2^k ∣ 2^64 := Nat.pow_dvd_pow 2 hk.le
  have hmask : wrappingSub 0 (2^k) = 2^64-1-(2^k-1) := by
    rw [wrappingSub, Nat.mod_eq_of_lt hlt, Nat.mod_eq_of_lt (by omega)]
    omega
  have hmod : (addr+(2^k-1))%2^64%2^k = (addr+(2^k-1))%2^k := Nat.mod_mod_of_dvd _ hdvd
  have hand : wrappingAdd addr (2^k-1) &&& wrappingSub 0 (2^k) =
      (addr+(2^k-1))%2^64-(addr+(2^k-1))%2^k := by
    rw [hmask, wrappingAdd, RoundUp.and_not_mask (Nat.mod_lt _ (by norm_num)) hk.le,
      Nat.div_mul_self_eq_mod_sub_self, hmod]
  have hle : (addr+(2^k-1))%2^k ≤ (addr+(2^k-1))%2^64 := by
    rw [← hmod]
    exact Nat.mod_le _ _
  have hrest : (addr+(2^k-1))%2^k < 2^k := Nat.mod_lt _ hpos
  rw [hand, wrappingSub, Nat.mod_eq_of_lt haddr]
  by_cases hwrap : addr+(2^k-1) < 2^64
  · rw [Nat.mod_eq_of_lt hwrap] at hle ⊢
    rw [show addr+(2^k-1)-(addr+(2^k-1))%2^k+2^64-addr =
      2^k-1-(addr+(2^k-1))%2^k+2^64 by omega, Nat.add_mod_right, Nat.mod_eq_of_lt (by omega)]
  · have hsub : (addr+(2^k-1))%2^64 = addr+(2^k-1)-2^64 := by
      rw [Nat.mod_eq_sub_mod (by omega), Nat.mod_eq_of_lt (by omega)]
    rw [hsub] at hle ⊢
    rw [Nat.mod_eq_of_lt (by omega)]
    omega

theorem dvd_add_byteOffset : 2^k ∣ addr+(2^k-1-(addr+(2^k-1))%2^k) := by
  have hrest : (addr+(2^k-1))%2^k < 2^k := Nat.mod_lt _ (by positivity)
  rw [show addr+(2^k-1-(addr+(2^k-1))%2^k) = addr+(2^k-1)-(addr+(2^k-1))%2^k by omega]
  exact Nat.dvd_sub_mod _

theorem offsetDividing_exact (hk : k < 64) (haddr : addr < 2^64) (hpos : 0 < stride)
    (hdvd : stride ∣ 2^k) :
    ∃ o, offsetDividing addr stride (2^k) (2^k-1) = some o ∧ Exact addr stride (2^k) o := by
  have hrest : (addr+(2^k-1))%2^k < 2^k := Nat.mod_lt _ (by positivity)
  have hlt : 2^k-1-(addr+(2^k-1))%2^k < 2^k := by omega
  rw [offsetDividing]
  simp only [byteOffset_eq hk haddr, if_pos hlt]
  generalize hoffset : 2^k-1-(addr+(2^k-1))%2^k = offset at hlt
  by_cases haligned : addr%stride = 0
  · have hsum : 2^k ∣ addr+offset := by
      rw [← hoffset]
      exact dvd_add_byteOffset
    have hoff : stride ∣ offset :=
      (Nat.dvd_add_right (Nat.dvd_of_mod_eq_zero haligned)).mp (hdvd.trans hsum)
    have hdiv : exactDiv offset stride = some (offset/stride) :=
      if_pos ⟨hpos.ne', Nat.mod_eq_zero_of_dvd hoff⟩
    obtain ⟨m, hm⟩ := hdvd
    have hbound : offset/stride < 2^63 := by
      have hpow : 2^k ≤ 2^63 := Nat.pow_le_pow_right (by norm_num) (by omega)
      have := Nat.div_le_self offset stride
      omega
    rw [if_pos haligned]
    refine ⟨offset/stride, hdiv, exact_of_least hk hbound (isLeast_of_lt (m := m) ?_ ?_ ?_)⟩
    · rw [Nat.div_mul_cancel hoff]
      exact hsum
    · rw [Nat.div_lt_iff_lt_mul hpos, Nat.mul_comm, ← hm]
      exact hlt
    · intro d hd
      rw [hm, Nat.mul_comm d] at hd
      exact (Nat.mul_dvd_mul_iff_left hpos).mp hd
  · rw [if_neg haligned]
    refine ⟨usizeMax, rfl, exact_of_none hk fun n hn => haligned ?_⟩
    exact Nat.mod_eq_zero_of_dvd (dvd_start hn hdvd dvd_rfl)

theorem alignOffset_one (hk : k < 64) (haddr : addr < 2^64) :
    alignOffset addr 1 (2^k) = some (2^k-1-(addr+(2^k-1))%2^k) := by
  have hrest : (addr+(2^k-1))%2^k < 2^k := Nat.mod_lt _ (by positivity)
  have hlt : 2^k-1-(addr+(2^k-1))%2^k < 2^k := by omega
  rw [alignOffset, sub_eq Nat.one_le_two_pow]
  dsimp only [some_bind]
  rw [if_neg one_ne_zero, if_pos (Nat.mod_one _), offsetDividing]
  simp only [byteOffset_eq hk haddr, if_pos hlt, if_pos (Nat.mod_one _)]
  rw [exactDiv, if_pos ⟨one_ne_zero, Nat.mod_one _⟩, Nat.div_one]

/-! ### Strides that do not divide the alignment -/

theorem cttz_spec {w x : ℕ} (hpos : 0 < x) (hlt : x < 2^w) :
    ∃ u, u%2 = 1 ∧ x = 2^cttz w x*u := by
  induction w generalizing x with
  | zero => omega
  | succ w ih =>
    rw [cttz]
    by_cases hodd : x%2 = 1
    · rw [if_pos hodd, pow_zero]
      exact ⟨x, hodd, (one_mul x).symm⟩
    · rw [if_neg hodd]
      obtain ⟨u, hu, hx⟩ := ih (show 0 < x/2 by omega) (by rw [pow_succ] at hlt; omega)
      refine ⟨u, hu, ?_⟩
      rw [pow_succ, mul_right_comm, ← hx]
      omega

theorem cttz_pow {w k : ℕ} (hk : k < w) : cttz w (2^k) = k := by
  induction w generalizing k with
  | zero => omega
  | succ w ih =>
    cases k with
    | zero => rfl
    | succ k =>
      have heven : ¬ 2^(k+1)%2 = 1 := by
        rw [pow_succ]
        omega
      have hhalf : 2^(k+1)/2 = 2^k := by
        rw [pow_succ]
        omega
      rw [cttz, if_neg heven, hhalf, ih (by omega)]

theorem shr_mask {x e : ℕ} (he : e ≤ k) (hk : k < 64) :
    shr (x &&& (2^k-1)) e = some (x/2^e%2^(k-e)) := by
  have hpow : 2^k = 2^e*2^(k-e) := by
    rw [← pow_add, Nat.add_sub_cancel' he]
  rw [shr_eq (by omega), Nat.and_two_pow_sub_one_eq_mod, hpow, Nat.mod_mul_right_div_self]

theorem offsetGeneral_run (addr : ℕ) {e : ℕ} (hk : k < 64) (he : min (cttz 64 stride) k = e)
    (hstride : stride ≠ 0) :
    ∃ z, offsetGeneral addr stride (2^k) (2^k-1) =
        some (if addr%2^e = 0 then (2^(k-e)-addr/2^e%2^(k-e))*z%2^(k-e) else usizeMax) ∧
      (stride/2^e%2^(k-e)%2 = 1 →
        ((stride/2^e%2^(k-e) : ℕ) : ℤ)*z ≡ 1 [ZMOD 2^(k-e)]) := by
  have hek : e ≤ k := by omega
  have hx : cttzNonzero stride = some (cttz 64 stride) := if_neg hstride
  have hy : cttzNonzero (2^k) = some k := by
    rw [cttzNonzero, if_neg (by positivity), cttz_pow hk]
  have hmin : (if cttz 64 stride < k then cttz 64 stride else k) = e := by
    split_ifs <;> omega
  have hgcd : shl 1 e = some (2^e) := by
    rw [shl_eq (by omega), one_mul]
    rw [one_mul]
    exact Nat.pow_lt_pow_right (by norm_num) (by omega)
  have ha2 : shr (2^k) e = some (2^(k-e)) := by
    rw [shr_eq (by omega), Nat.pow_div hek (by norm_num)]
  have hp2 : addr/2^e%2^(k-e) < 2^(k-e) := Nat.mod_lt _ (by positivity)
  have hdvd : 2^(k-e) ∣ 2^64 := Nat.pow_dvd_pow 2 (by omega)
  obtain ⟨z, hz, -, hinv⟩ := modInv_spec (stride/2^e%2^(k-e)) (show k-e < 64 by omega)
  refine ⟨z, ?_, hinv⟩
  rw [offsetGeneral, hx, hy]
  simp only [some_bind, hmin, hgcd, sub_eq Nat.one_le_two_pow,
    Nat.and_two_pow_sub_one_eq_mod, ha2]
  by_cases haddr : addr%2^e = 0
  · rw [if_pos haddr, if_pos haddr, ← Nat.and_two_pow_sub_one_eq_mod stride,
      ← Nat.and_two_pow_sub_one_eq_mod addr k, shr_mask hek hk, shr_mask hek hk]
    simp only [some_bind, sub_eq hp2.le, hz, wrappingMul, Nat.mod_mod_of_dvd _ hdvd]
    rfl
  · rw [if_neg haddr, if_neg haddr]
    rfl

theorem isLeast_divided {g m p s y : ℕ} (hg : 0 < g) (hm : 0 < m) (hms : Nat.Coprime m s)
    (hy : ((s%m : ℕ) : ℤ)*y ≡ 1 [ZMOD m]) :
    IsLeast {n | g*m ∣ g*p+n*(g*s)} ((m-p%m)*y%m) := by
  have hp : ((m-p%m : ℕ) : ℤ) ≡ -p [ZMOD m] := by
    have hle : p%m ≤ m := (Nat.mod_lt p hm).le
    rw [Nat.cast_sub hle, Int.natCast_mod]
    calc (m:ℤ)-(p:ℤ)%m ≡ 0-p [ZMOD m] :=
          (Int.modEq_zero_iff_dvd.mpr dvd_rfl).sub (Int.mod_modEq _ _)
      _ = -p := zero_sub _
  have hs : (s:ℤ)*y ≡ 1 [ZMOD m] := by
    have hmod : ((s%m : ℕ) : ℤ) ≡ s [ZMOD m] := by
      rw [Int.natCast_mod]
      exact Int.mod_modEq _ _
    exact (hmod.symm.mul_right _).trans hy
  have ho : (((m-p%m)*y%m : ℕ) : ℤ) ≡ ((m-p%m : ℕ) : ℤ)*y [ZMOD m] := by
    rw [Int.natCast_mod, Nat.cast_mul]
    exact Int.mod_modEq _ _
  apply isLeast_of_lt ((dvd_mul_iff hg).mpr (dvd_of_inverse hp hs ho)) (Nat.mod_lt _ hm)
  intro d hd
  exact dvd_of_coprime hg hms hd

theorem offsetGeneral_exact (hk : k < 64) (hpos : 0 < stride) (hstride : stride < 2^64) :
    ∃ o, offsetGeneral addr stride (2^k) (2^k-1) = some o ∧ Exact addr stride (2^k) o := by
  obtain ⟨u, hu, hspec⟩ := cttz_spec hpos hstride
  generalize he : min (cttz 64 stride) k = e
  have hek : e ≤ k := by omega
  have hpow : 2^e*2^(k-e) = 2^k := by
    rw [← pow_add, Nat.add_sub_cancel' hek]
  have hdvd : 2^e ∣ stride := by
    rw [hspec]
    exact (Nat.pow_dvd_pow 2 (by omega)).mul_right u
  obtain ⟨z, hrun, hinv⟩ := offsetGeneral_run addr hk he hpos.ne'
  refine ⟨_, hrun, ?_⟩
  by_cases haddr : addr%2^e = 0
  · have hp : 2^e*(addr/2^e) = addr := Nat.mul_div_cancel' (Nat.dvd_of_mod_eq_zero haddr)
    have hs : 2^e*(stride/2^e) = stride := Nat.mul_div_cancel' hdvd
    have hm : 0 < 2^(k-e) := by positivity
    -- Below the exponent of the alignment, the divided stride is odd.
    have hcases : k = e ∨ stride/2^e%2 = 1 := by
      by_cases hlt : e < k
      · have hcttz : cttz 64 stride = e := by omega
        rw [hcttz] at hspec
        rw [hspec, Nat.mul_div_cancel_left u (by positivity)]
        exact .inr hu
      · exact .inl (by omega)
    have hcoprime : Nat.Coprime (2^(k-e)) (stride/2^e) := by
      obtain rfl | hodd := hcases
      · rw [Nat.sub_self, pow_zero]
        exact Nat.coprime_one_left _
      · exact (Nat.coprime_two_left.mpr (Nat.odd_iff.mpr hodd)).pow_left _
    have hz : ((stride/2^e%2^(k-e) : ℕ) : ℤ)*z ≡ 1 [ZMOD ((2^(k-e) : ℕ) : ℤ)] := by
      rw [Nat.cast_pow]
      by_cases hlt : e < k
      · have heven : 2 ∣ 2^(k-e) := dvd_pow_self 2 (by omega)
        have hodd := hcases.resolve_left (by omega)
        apply hinv
        rw [Nat.mod_mod_of_dvd _ heven]
        exact hodd
      · rw [show k-e = 0 by omega, pow_zero]
        exact Int.modEq_one
    have hg : 0 < 2^e := by positivity
    have hleast := isLeast_divided (p := addr/2^e) hg hm hcoprime hz
    rw [hp, hs, hpow] at hleast
    have hbound : (2^(k-e)-addr/2^e%2^(k-e))*z%2^(k-e) < 2^63 :=
      (Nat.mod_lt _ hm).trans_le (Nat.pow_le_pow_right (by norm_num) (by omega))
    rw [if_pos haddr]
    exact exact_of_least hk hbound hleast
  · rw [if_neg haddr]
    apply exact_of_none hk
    intro n hn
    exact haddr (Nat.mod_eq_zero_of_dvd (dvd_start hn (Nat.pow_dvd_pow 2 hek) hdvd))

end Offset

/-- Every address, every stride and every alignment; and the inverse of every odd number. -/
theorem alignOffset_exact :
    (∀ (addr stride : UInt64) (a : Alloc.Alignment), ∃ o,
      alignOffset addr.toNat stride.toNat a.asUsize = some o ∧
        Exact addr.toNat stride.toNat a.asUsize o) ∧
    ∀ (x : UInt64) (m : Alloc.Alignment), x.toNat%2 = 1 → ∃ y,
      modInv x.toNat m.asUsize = some y ∧ y < m.asUsize ∧
        x.toNat*y%m.asUsize = 1%m.asUsize := by
  constructor
  · intro addr stride a
    obtain ⟨k, hk, ha⟩ := a.isPowerOfTwo
    have haddr := addr.toNat_lt
    have hstride := stride.toNat_lt
    rw [ha, alignOffset, sub_eq Nat.one_le_two_pow]
    dsimp only [some_bind]
    by_cases hzero : stride.toNat = 0
    · rw [if_pos hzero, hzero, Nat.and_two_pow_sub_one_eq_mod]
      exact ⟨_, rfl, exact_zero hk⟩
    · have hpos : 0 < stride.toNat := Nat.pos_of_ne_zero hzero
      rw [if_neg hzero]
      by_cases hdvd : 2^k%stride.toNat = 0
      · rw [if_pos hdvd]
        exact offsetDividing_exact hk haddr hpos (Nat.dvd_of_mod_eq_zero hdvd)
      · rw [if_neg hdvd]
        exact offsetGeneral_exact hk hpos hstride
  · intro x m hodd
    obtain ⟨k, hk, hm⟩ := m.isPowerOfTwo
    obtain ⟨y, hy, hlt, hinv⟩ := modInv_spec x.toNat hk
    rw [hm]
    refine ⟨y, hy, hlt, ?_⟩
    have hcast : ((x.toNat*y : ℕ) : ℤ) ≡ ((1 : ℕ) : ℤ) [ZMOD ((2^k : ℕ) : ℤ)] := by
      push_cast
      exact hinv hodd
    exact Int.natCast_modEq_iff.mp hcast

end RustStd.Ptr
