import Mathlib

/-!
# Numbers as limbs, and loops over ranges

The number that a sequence of limbs stands for, the least significant one first.
Loops that run through a range of indices upwards or downwards may stop without
a result; an invariant that depends on the index is kept by the whole loop.
-/

set_option autoImplicit false

namespace RustStd.Limbs

/-! ## Limbs -/

/-- The number that the first `k` limbs stand for. -/
def value (B : ℕ) (f : ℕ → ℕ) (k : ℕ) : ℕ := ∑ i ∈ Finset.range k, f i*B^i

section Value

variable {B : ℕ} {f g : ℕ → ℕ} {j k m : ℕ}

@[simp] theorem value_zero (B : ℕ) (f : ℕ → ℕ) : value B f 0 = 0 := rfl

theorem value_succ (B : ℕ) (f : ℕ → ℕ) (k : ℕ) : value B f (k+1) = value B f k+f k*B^k :=
  Finset.sum_range_succ _ _

theorem value_congr (h : ∀ i < k, f i = g i) : value B f k = value B g k := by
  apply Finset.sum_congr rfl
  intro i hi
  rw [h i (Finset.mem_range.mp hi)]

theorem value_lt (h : ∀ i < k, f i < B) : value B f k < B^k := by
  induction k with
  | zero => simp
  | succ k ih =>
    have h1 := ih fun i hi => h i (by omega)
    have h2 := h k (by omega)
    calc value B f (k+1) = value B f k+f k*B^k := value_succ B f k
      _ < B^k+f k*B^k := Nat.add_lt_add_right h1 _
      _ = (f k+1)*B^k := by ring
      _ ≤ B*B^k := Nat.mul_le_mul_right _ h2
      _ = B^(k+1) := (pow_succ' B k).symm

theorem value_add (B : ℕ) (f : ℕ → ℕ) (j k : ℕ) :
    value B f (j+k) = value B f j+B^j*value B (fun i => f (j+i)) k := by
  induction k with
  | zero => simp
  | succ k ih =>
    rw [← Nat.add_assoc, value_succ, ih, value_succ, pow_add]
    ring

theorem value_of_zero (h : ∀ i < k, f i = 0) : value B f k = 0 := by
  apply Finset.sum_eq_zero
  intro i hi
  rw [h i (Finset.mem_range.mp hi), Nat.zero_mul]

theorem value_extend (hkm : k ≤ m) (h : ∀ i, k ≤ i → i < m → f i = 0) : value B f m = value B f k := by
  obtain ⟨d, rfl⟩ := Nat.exists_eq_add_of_le hkm
  rw [value_add, value_of_zero (fun i hi => h (k+i) (by omega) (by omega)), Nat.mul_zero,
    Nat.add_zero]

theorem value_shift (h : ∀ i < j, f i = 0) : value B f (j+k) = B^j*value B (fun i => f (j+i)) k := by
  rw [value_add, value_of_zero h, Nat.zero_add]

theorem value_update (hj : j < k) (h : ∀ i, i ≠ j → g i = f i) :
    value B g k+f j*B^j = value B f k+g j*B^j := by
  obtain ⟨d, rfl⟩ := Nat.exists_eq_add_of_le (Nat.succ_le_of_lt hj)
  rw [value_add, value_add B f, value_succ, value_succ, value_congr fun i hi => h i (by omega),
    value_congr (f := fun i => g (j.succ+i)) fun i _ => h (j.succ+i) (by omega)]
  ring

/-- The more significant part decides first. -/
theorem compare_add_mul {x y h l P : ℕ} (hx : x < P) (hy : y < P) :
    compare (x+h*P) (y+l*P) = (compare h l).then (compare x y) := by
  rcases Nat.lt_trichotomy h l with hlt | rfl | hgt
  · have hle : (h+1)*P ≤ l*P := Nat.mul_le_mul_right P hlt
    have hsplit : (h+1)*P = h*P+P := by ring
    rw [Nat.compare_eq_lt.mpr (show x+h*P < y+l*P by omega), Nat.compare_eq_lt.mpr hlt]
    rfl
  · rw [Nat.compare_eq_eq.mpr (show h = h from rfl)]
    rcases Nat.lt_trichotomy x y with hxy | rfl | hxy
    · rw [Nat.compare_eq_lt.mpr (show x+h*P < y+h*P by omega), Nat.compare_eq_lt.mpr hxy]
      rfl
    · rw [Nat.compare_eq_eq.mpr (show x+h*P = x+h*P from rfl), Nat.compare_eq_eq.mpr (show x = x from rfl)]
      rfl
    · rw [Nat.compare_eq_gt.mpr (show y+h*P < x+h*P by omega), Nat.compare_eq_gt.mpr hxy]
      rfl
  · have hle : (l+1)*P ≤ h*P := Nat.mul_le_mul_right P hgt
    have hsplit : (l+1)*P = l*P+P := by ring
    rw [Nat.compare_eq_gt.mpr (show y+l*P < x+h*P by omega), Nat.compare_eq_gt.mpr hgt]
    rfl

end Value

/-! ## Loops -/

section Loops

variable {σ : Type*}

def forRange (body : ℕ → σ → Option σ) : ℕ → σ → Option σ
  | 0, s => some s
  | k+1, s => (forRange body k s).bind (body k)

def forRangeRev (body : ℕ → σ → Option σ) : ℕ → σ → Option σ
  | 0, s => some s
  | k+1, s => (body k s).bind (forRangeRev body k)

theorem forRange_keeps {body : ℕ → σ → Option σ} (I : ℕ → σ → Prop) {k : ℕ} {s s' : σ} (h0 : I 0 s)
    (hstep : ∀ i < k, ∀ t t', I i t → body i t = some t' → I (i+1) t')
    (hrun : forRange body k s = some s') : I k s' := by
  induction k generalizing s' with
  | zero =>
    obtain rfl := Option.some.inj hrun
    exact h0
  | succ k ih =>
    obtain ⟨t, ht, hbody⟩ := Option.bind_eq_some_iff.mp hrun
    exact hstep k (Nat.lt_succ_self k) t s' (ih (fun i hi => hstep i (by omega)) ht) hbody

theorem forRangeRev_keeps {body : ℕ → σ → Option σ} (I : ℕ → σ → Prop) {k : ℕ} {s s' : σ} (h0 : I k s)
    (hstep : ∀ i < k, ∀ t t', I (i+1) t → body i t = some t' → I i t')
    (hrun : forRangeRev body k s = some s') : I 0 s' := by
  induction k generalizing s with
  | zero =>
    obtain rfl := Option.some.inj hrun
    exact h0
  | succ k ih =>
    obtain ⟨t, hbody, ht⟩ := Option.bind_eq_some_iff.mp hrun
    exact ih (hstep k (Nat.lt_succ_self k) s t h0 hbody) (fun i hi => hstep i (by omega)) ht

end Loops

end RustStd.Limbs
