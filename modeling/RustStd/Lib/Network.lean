import RustStd.Lib.WeakOrder

/-!
# Comparator networks

A network is run with any two operations for the lower and the upper output of a
comparator. Monotone maps commute with a run, so a network that sorts all lists
of truth values sorts by every strict weak order. All lists of truth values are
run at once: wire `i` carries the truth table of the `i`-th variable, as the bits
of one number.
-/

set_option autoImplicit false

namespace RustStd.Network
open RustStd.WeakOrder

variable {α β : Type*}

def exchange (lo hi : α → α → α) (l : List α) (c : ℕ × ℕ) : List α :=
  match l[c.1]?, l[c.2]? with
  | some x, some y => (l.set c.1 (lo x y)).set c.2 (hi x y)
  | _, _ => l

def run (lo hi : α → α → α) (cs : List (ℕ × ℕ)) (l : List α) : List α := cs.foldl (exchange lo hi) l

def lower (f : α → α → Bool) (x y : α) : α := if f y x then y else x

def upper (f : α → α → Bool) (x y : α) : α := if f y x then x else y

theorem map_exchange {lo hi : α → α → α} {lo' hi' : β → β → β} {h : α → β}
    (hlo : ∀ x y, h (lo x y) = lo' (h x) (h y)) (hhi : ∀ x y, h (hi x y) = hi' (h x) (h y))
    (l : List α) (c : ℕ × ℕ) : (exchange lo hi l c).map h = exchange lo' hi' (l.map h) c := by
  unfold exchange
  rw [List.getElem?_map, List.getElem?_map]
  cases l[c.1]? with
  | none => rfl
  | some x =>
    cases l[c.2]? with
    | none => rfl
    | some y => simp only [Option.map_some, List.map_set, hlo, hhi]

theorem map_run {lo hi : α → α → α} {lo' hi' : β → β → β} {h : α → β}
    (hlo : ∀ x y, h (lo x y) = lo' (h x) (h y)) (hhi : ∀ x y, h (hi x y) = hi' (h x) (h y))
    (cs : List (ℕ × ℕ)) (l : List α) : (run lo hi cs l).map h = run lo' hi' cs (l.map h) := by
  induction cs generalizing l with
  | nil => rfl
  | cons c cs ih =>
    rw [run, List.foldl_cons, ← run, ih, map_exchange hlo hhi]
    rfl

theorem exchange_append {lo hi : α → α → α} {l : List α} {c : ℕ × ℕ} (h1 : c.1 < l.length)
    (h2 : c.2 < l.length) (r : List α) :
    exchange lo hi (l ++ r) c = exchange lo hi l c ++ r := by
  unfold exchange
  rw [List.getElem?_append_left h1, List.getElem?_append_left h2, List.getElem?_eq_getElem h1,
    List.getElem?_eq_getElem h2]
  simp only
  rw [List.set_append_left _ _ h1, List.set_append_left _ _ (by simpa using h2)]

theorem length_exchange (lo hi : α → α → α) (l : List α) (c : ℕ × ℕ) :
    (exchange lo hi l c).length = l.length := by
  unfold exchange
  cases l[c.1]? with
  | none => rfl
  | some x =>
    cases l[c.2]? with
    | none => rfl
    | some y => simp only [List.length_set]

theorem run_append {lo hi : α → α → α} {cs : List (ℕ × ℕ)} {l : List α}
    (h : ∀ c ∈ cs, c.1 < l.length ∧ c.2 < l.length) (r : List α) :
    run lo hi cs (l ++ r) = run lo hi cs l ++ r := by
  induction cs generalizing l with
  | nil => rfl
  | cons c cs ih =>
    obtain ⟨h1, h2⟩ := h c (by simp)
    rw [run, run, List.foldl_cons, List.foldl_cons, exchange_append h1 h2, ← run, ← run]
    refine ih fun d hd => ?_
    rw [length_exchange]
    exact h d (by simp [hd])

theorem length_run (lo hi : α → α → α) (cs : List (ℕ × ℕ)) (l : List α) :
    (run lo hi cs l).length = l.length := by
  induction cs generalizing l with
  | nil => rfl
  | cons c cs ih =>
    rw [run, List.foldl_cons, ← run, ih, length_exchange]

/-- The truth tables of `n` variables. -/
def tables : ℕ → List ℕ
  | 0 => []
  | n+1 => (tables n).map (fun w => w ||| w <<< 2^n) ++ [(2^2^n-1) <<< 2^n]

theorem tables_lt (n : ℕ) : ∀ w ∈ tables n, w < 2^2^n := by
  induction n with
  | zero => simp [tables]
  | succ n ih =>
    have hpow : 2^2^(n+1) = 2^2^n*2^2^n := by rw [← Nat.pow_add, Nat.pow_succ, Nat.mul_two]
    have hshift {w : ℕ} (hw : w < 2^2^n) : w <<< 2^n < 2^2^(n+1) := by
      rw [Nat.shiftLeft_eq, hpow]
      exact Nat.mul_lt_mul_of_pos_right hw (by positivity)
    intro w hw
    simp only [tables, List.mem_append, List.mem_map, List.mem_singleton] at hw
    rcases hw with ⟨u, hu, rfl⟩ | rfl
    · have hle : 2^2^n ≤ 2^2^(n+1) := Nat.pow_le_pow_right (by omega)
        (Nat.pow_le_pow_right (by omega) (by omega))
      exact Nat.or_lt_two_pow ((ih u hu).trans_le hle) (hshift (ih u hu))
    · exact hshift (by have := Nat.two_pow_pos (2^n); omega)

/-- Every assignment is a column of the tables. -/
theorem exists_column (n : ℕ) (b : List Bool) (hb : b.length = n) :
    ∃ k < 2^n, (tables n).map (fun w => w.testBit k) = b := by
  induction n generalizing b with
  | zero =>
    obtain rfl := List.length_eq_zero_iff.mp hb
    exact ⟨0, by simp, rfl⟩
  | succ n ih =>
    obtain ⟨b, c, rfl⟩ : ∃ b' c, b = b' ++ [c] := by
      simpa using (List.eq_nil_or_concat b).resolve_left (by rintro rfl; simp at hb)
    obtain ⟨k, hk, hcol⟩ := ih b (by simpa using hb)
    have hpow : 2^(n+1) = 2^n+2^n := by rw [Nat.pow_succ, Nat.mul_two]
    cases c with
    | false =>
      refine ⟨k, by omega, ?_⟩
      rw [tables, List.map_append, List.map_map, ← hcol, List.map_singleton]
      congr 1
      · apply List.map_congr_left
        intro w _
        simp [Nat.testBit_shiftLeft, hk]
      · simp [Nat.testBit_shiftLeft, hk]
    | true =>
      refine ⟨k+2^n, by omega, ?_⟩
      rw [tables, List.map_append, List.map_map, ← hcol, List.map_singleton]
      congr 1
      · apply List.map_congr_left
        intro w hw
        have hhigh : w.testBit (k+2^n) = false := by
          refine Nat.testBit_lt_two_pow ((tables_lt n w hw).trans_le ?_)
          exact Nat.pow_le_pow_right (by omega) (by omega)
        simp [Nat.testBit_shiftLeft, hhigh]
      · simp [Nat.testBit_shiftLeft, hk]

/-- Each table implies the next one. -/
def ascending : List ℕ → Bool
  | a :: b :: l => a ||| b == b && ascending (b :: l)
  | _ => true

theorem ascending_get {l : List ℕ} (h : ascending l = true) {i a b : ℕ} (ha : l[i]? = some a)
    (hb : l[i+1]? = some b) : a ||| b = b := by
  induction l generalizing i with
  | nil => simp at ha
  | cons x l ih =>
    cases l with
    | nil => simp at hb
    | cons y l =>
      simp only [ascending, Bool.and_eq_true, beq_iff_eq] at h
      cases i with
      | zero =>
        simp only [List.getElem?_cons_zero, Option.some.injEq, List.getElem?_cons_succ] at ha hb
        rw [← ha, ← hb]
        exact h.1
      | succ i => exact ih h.2 (by simpa using ha) (by simpa using hb)

def Sorts (n : ℕ) (cs : List (ℕ × ℕ)) : Prop :=
  ascending (run (· &&& ·) (· ||| ·) cs (tables n)) = true

/-- The zero-one principle. -/
theorem Sorts.sorted {f : α → α → Bool} (hf : Weak f) {cs : List (ℕ × ℕ)} {l : List α}
    (h : Sorts l.length cs) : Sorted f (run (lower f) (upper f) cs l) := by
  refine sorted_of_neighbours hf fun i a b ha hb => ?_
  by_contra hba
  have hba : f b a = true := Bool.eq_true_of_not_eq_false hba
  -- the elements that are not below `a`
  let p : α → Bool := fun x => !f x a
  have hmono {x y : α} (hxy : f y x = false) (hx : p x = true) : p y = true := by
    simp only [p, Bool.not_eq_true'] at hx ⊢
    exact hf.le_trans hx hxy
  have hlo (x y : α) : p (lower f x y) = (p x && p y) := by
    unfold lower
    split_ifs with hyx
    · have := hmono (hf.asymm hyx)
      cases hx : p x <;> cases hy : p y <;> simp_all
    · have := hmono (Bool.eq_false_of_not_eq_true hyx)
      cases hx : p x <;> cases hy : p y <;> simp_all
  have hhi (x y : α) : p (upper f x y) = (p x || p y) := by
    unfold upper
    split_ifs with hyx
    · have := hmono (hf.asymm hyx)
      cases hx : p x <;> cases hy : p y <;> simp_all
    · have := hmono (Bool.eq_false_of_not_eq_true hyx)
      cases hx : p x <;> cases hy : p y <;> simp_all
  obtain ⟨k, -, hk⟩ := exists_column l.length (l.map p) (by simp)
  have hrun : (run (lower f) (upper f) cs l).map p =
      (run (· &&& ·) (· ||| ·) cs (tables l.length)).map fun w => w.testBit k := by
    rw [map_run hlo hhi, ← hk]
    exact (map_run (fun x y => Nat.testBit_and x y k) (fun x y => Nat.testBit_or x y k) cs _).symm
  have hat (j : ℕ) : ((run (lower f) (upper f) cs l)[j]?).map p =
      ((run (· &&& ·) (· ||| ·) cs (tables l.length))[j]?).map fun w => w.testBit k := by
    rw [← List.getElem?_map, ← List.getElem?_map, hrun]
  have h1 := hat i
  have h2 := hat (i+1)
  rw [ha, Option.map_some] at h1
  rw [hb, Option.map_some] at h2
  obtain ⟨u, hu, hpu⟩ := Option.map_eq_some_iff.mp h1.symm
  obtain ⟨w, hw, hpw⟩ := Option.map_eq_some_iff.mp h2.symm
  have huw := ascending_get h hu hw
  have hbit : (u ||| w).testBit k = w.testBit k := by rw [huw]
  rw [Nat.testBit_or, hpu, hpw] at hbit
  simp [p, hba, hf.irrefl] at hbit

end RustStd.Network
