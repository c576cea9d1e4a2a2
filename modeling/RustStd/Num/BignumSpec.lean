import RustStd.Num.Bignum

/-!
# Bignums are exact

Every operation that returns leaves the limbs beyond the size zero and the exact
result in the others, so an operation whose result has no room does not return.
Each loop has an invariant that weighs its carry with the power of its index.
-/

set_option autoImplicit false

namespace RustStd.Bignum
open RustStd.Limbs

section Limb

variable {W n : ℕ}

def limb (base : Vector (BitVec W) n) (i : ℕ) : ℕ := (base[i]?.getD 0).toNat

theorem limb_lt (base : Vector (BitVec W) n) (i : ℕ) : limb base i < 2^W := BitVec.isLt _

theorem limb_beyond (base : Vector (BitVec W) n) {i : ℕ} (h : n ≤ i) : limb base i = 0 := by
  rw [limb, Vector.getElem?_eq_none h]
  rfl

theorem limb_of_get {base : Vector (BitVec W) n} {i : ℕ} {v : BitVec W} (h : base[i]? = some v) :
    limb base i = v.toNat := by
  rw [limb, h, Option.getD_some]

theorem store_spec {base base' : Vector (BitVec W) n} {i : ℕ} {v : BitVec W}
    (h : store base i v = some base') :
    i < n ∧ limb base' i = v.toNat ∧ ∀ j, j ≠ i → limb base' j = limb base j := by
  rw [store] at h
  split at h
  · next hi =>
    obtain rfl := Option.some.inj h
    refine ⟨hi, by simp [limb], fun j hj => ?_⟩
    rw [limb, limb, Vector.getElem?_set_ne]
    lia
  · cases h

/-! ## Digits -/

theorem carryingAdd_spec (a b : BitVec W) (carry : Bool) :
    (carryingAdd a b carry).1.toNat+2^W*(carryingAdd a b carry).2.toNat =
      a.toNat+b.toNat+carry.toNat := by
  have ha := a.isLt
  have hb := b.isLt
  have hcarry : carry.toNat ≤ 1 := Bool.toNat_le carry
  simp only [carryingAdd, BitVec.toNat_add, BitVec.toNat_ofNat, Nat.add_mod_mod, Nat.mod_add_mod]
  by_cases h : 2^W ≤ a.toNat+b.toNat
  · rw [decide_eq_true h, Bool.true_or, Bool.toNat_true, Nat.mul_one]
    obtain ⟨k, hk⟩ := Nat.exists_eq_add_of_le' h
    rw [hk, show k+2^W+carry.toNat = k+carry.toNat+2^W by lia, Nat.add_mod_right,
      Nat.mod_eq_of_lt (by lia)]
  · have hmod : (a.toNat+b.toNat)%2^W = a.toNat+b.toNat := Nat.mod_eq_of_lt (by lia)
    simp only [hmod, decide_eq_false h, Bool.false_or]
    by_cases h' : 2^W ≤ a.toNat+b.toNat+carry.toNat
    · rw [decide_eq_true h', Bool.toNat_true, Nat.mul_one]
      obtain ⟨k, hk⟩ := Nat.exists_eq_add_of_le' h'
      rw [hk, Nat.add_mod_right, Nat.mod_eq_of_lt (by lia)]
    · rw [decide_eq_false h', Bool.toNat_false, Nat.mul_zero, Nat.mod_eq_of_lt (by lia), Nat.add_zero]

theorem split_wide {v : ℕ} (h : v < 2^W*2^W) :
    (BitVec.ofNat W v).toNat+2^W*(BitVec.ofNat W (v >>> W)).toNat = v := by
  rw [BitVec.toNat_ofNat, BitVec.toNat_ofNat, Nat.shiftRight_eq_div_pow,
    Nat.mod_eq_of_lt (Nat.div_lt_of_lt_mul h)]
  exact Nat.mod_add_div v (2^W)

theorem mul_add_lt (a b c d : BitVec W) : a.toNat*b.toNat+c.toNat+d.toNat < 2^W*2^W := by
  have ha := a.isLt
  have hb := b.isLt
  have hc := c.isLt
  have hd := d.isLt
  obtain ⟨k, hk⟩ := Nat.exists_eq_add_of_le' (show 1 ≤ 2^W from Nat.one_le_two_pow)
  rw [hk] at ha hb hc hd ⊢
  calc a.toNat*b.toNat+c.toNat+d.toNat ≤ k*k+k+k := by
        have : a.toNat*b.toNat ≤ k*k := Nat.mul_le_mul (by lia) (by lia)
        lia
    _ < (k+1)*(k+1) := by
        have : (k+1)*(k+1) = k*k+2*k+1 := by ring
        lia

theorem carryingMul_spec (a b carry : BitVec W) :
    (carryingMul a b carry).1.toNat+2^W*(carryingMul a b carry).2.toNat =
      a.toNat*b.toNat+carry.toNat :=
  split_wide ((Nat.le_add_right _ _).trans_lt (mul_add_lt a b carry 0))

theorem fullMulAdd_spec (a b other2 carry : BitVec W) :
    (fullMulAdd a b other2 carry).2.toNat+2^W*(fullMulAdd a b other2 carry).1.toNat =
      a.toNat*b.toNat+other2.toNat+carry.toNat :=
  split_wide (mul_add_lt a b other2 carry)

theorem fullDivRem_spec {debug : Bool} {a other borrow q r : BitVec W}
    (hlt : borrow.toNat < other.toNat) (h : fullDivRem debug a other borrow = some (q, r)) :
    borrow.toNat*2^W+a.toNat = q.toNat*other.toNat+r.toNat ∧ r.toNat < other.toNat := by
  have ha := a.isLt
  have hother := other.isLt
  have hlhs : borrow.toNat <<< W ||| a.toNat = borrow.toNat*2^W+a.toNat := by
    rw [← Nat.shiftLeft_add_eq_or_of_lt ha, Nat.shiftLeft_eq]
  have hquot : (borrow.toNat*2^W+a.toNat)/other.toNat < 2^W := by
    rw [Nat.div_lt_iff_lt_mul (by lia)]
    calc borrow.toNat*2^W+a.toNat < (borrow.toNat+1)*2^W := by
          rw [add_mul]
          lia
      _ ≤ other.toNat*2^W := Nat.mul_le_mul_right _ hlt
      _ = 2^W*other.toNat := mul_comm _ _
  have hrem : (borrow.toNat*2^W+a.toNat)%other.toNat < other.toNat := Nat.mod_lt _ (by lia)
  simp only [fullDivRem, hlhs] at h
  split at h
  · cases h
  · rw [if_neg (by lia)] at h
    obtain ⟨rfl, rfl⟩ := Prod.mk.inj (Option.some.inj h)
    rw [BitVec.toNat_ofNat, BitVec.toNat_ofNat, Nat.mod_eq_of_lt hquot,
      Nat.mod_eq_of_lt (hrem.trans hother)]
    exact ⟨(Nat.div_add_mod' _ _).symm, hrem⟩

end Limb

namespace Big

variable {W n : ℕ}

/-- `base[size..]` is zero. -/
def Clean (x : Big W n) : Prop := ∀ i, x.size ≤ i → limb x.base i = 0

def val (x : Big W n) : ℕ := value (2^W) (limb x.base) n

/-- What a number and its size have to be. -/
def Holds (x : Big W n) (v : ℕ) : Prop := x.Clean ∧ x.val = v

theorem value_eq_val (x : Big W n) {k : ℕ} (h : ∀ i, k ≤ i → limb x.base i = 0) :
    value (2^W) (limb x.base) k = x.val := by
  rcases Nat.le_total k n with hk | hk
  · exact (value_extend hk fun i hi _ => h i hi).symm
  · exact value_extend hk fun i hi _ => limb_beyond _ hi

theorem Clean.value_eq {x : Big W n} (hx : x.Clean) {k : ℕ} (hk : x.size ≤ k) :
    value (2^W) (limb x.base) k = x.val :=
  x.value_eq_val fun i hi => hx i (by lia)

theorem val_lt (x : Big W n) : x.val < 2^(W*n) := by
  rw [pow_mul]
  exact value_lt fun i _ => limb_lt _ i

theorem sliceTo_eq {k : ℕ} {u : Unit} (h : sliceTo n k = some u) : k ≤ n := by
  rw [sliceTo] at h
  split at h
  · assumption
  · cases h

theorem assert_eq {c : Prop} [Decidable c] {u : Unit} (h : assert c = some u) : c := by
  rw [assert] at h
  split at h
  · assumption
  · cases h

/-! ## Sums -/

/-- The limbs below `i` and the carry are the sum of the limbs below `i`; the others are as
they were. -/
def AddInv (a b : Vector (BitVec W) n) (i : ℕ) (s : Vector (BitVec W) n × Bool) : Prop :=
  value (2^W) (limb s.1) i+s.2.toNat*(2^W)^i = value (2^W) (limb a) i+value (2^W) (limb b) i ∧
    ∀ j, i ≤ j → limb s.1 j = limb a j

theorem value_store {base base' : Vector (BitVec W) n} {i : ℕ}
    (h : ∀ j, j ≠ i → limb base' j = limb base j) :
    value (2^W) (limb base') i = value (2^W) (limb base) i :=
  value_congr fun j hj => h j (by lia)

theorem addDigit_keeps {a b : Vector (BitVec W) n} {i : ℕ} {s s' : Vector (BitVec W) n × Bool}
    (h : AddInv a b i s) (hrun : addDigit b i s = some s') : AddInv a b (i+1) s' := by
  obtain ⟨base, carry⟩ := s
  obtain ⟨hval, hrest⟩ := h
  simp only [addDigit, Option.bind_eq_bind, Option.bind_eq_some_iff] at hrun
  obtain ⟨x, hx, y, hy, base', hstore, hs'⟩ := hrun
  obtain rfl := Option.some.inj hs'
  obtain ⟨-, hnew, hother⟩ := store_spec hstore
  have hdigit := carryingAdd_spec x y carry
  simp only at hval hrest
  have hxa : limb a i = x.toNat := by rw [← hrest i le_rfl, limb_of_get hx]
  constructor
  · simp only
    rw [value_succ, value_succ, value_succ, value_store hother, hnew, hxa, limb_of_get hy, pow_succ]
    calc value (2^W) (limb base) i+(carryingAdd x y carry).1.toNat*(2^W)^i+
          (carryingAdd x y carry).2.toNat*((2^W)^i*2^W)
        = value (2^W) (limb base) i+((carryingAdd x y carry).1.toNat+
          2^W*(carryingAdd x y carry).2.toNat)*(2^W)^i := by ring
      _ = value (2^W) (limb base) i+carry.toNat*(2^W)^i+(x.toNat+y.toNat)*(2^W)^i := by
        rw [hdigit]
        ring
      _ = value (2^W) (limb a) i+x.toNat*(2^W)^i+(value (2^W) (limb b) i+y.toNat*(2^W)^i) := by
        rw [hval]
        ring
  · intro j hj
    rw [hother j (by lia), hrest j (by lia)]

theorem holds_of_le {base : Vector (BitVec W) n} {size k v : ℕ}
    (hclean : ∀ j, size ≤ j → limb base j = 0) (hk : size ≤ k)
    (hval : value (2^W) (limb base) k = v) : Holds ⟨size, base⟩ v :=
  ⟨hclean, by rw [← Clean.value_eq (x := ⟨size, base⟩) hclean hk, hval]⟩

theorem storeCarry_spec {base base' : Vector (BitVec W) n} {k sz : ℕ} {c : BitVec W}
    (hzero : limb base k = 0) (h : storeCarry base k c = some (sz, base')) :
    limb base' k = c.toNat ∧ (∀ j, j ≠ k → limb base' j = limb base j) ∧
      (sz = k+1 ∨ sz = k ∧ c.toNat = 0) := by
  rw [storeCarry] at h
  split at h
  · obtain ⟨base₁, hstore, heq⟩ := Option.map_eq_some_iff.mp h
    obtain ⟨rfl, rfl⟩ := Prod.mk.inj heq
    obtain ⟨-, hnew, hother⟩ := store_spec hstore
    exact ⟨hnew, hother, .inl rfl⟩
  · next hnot =>
    obtain ⟨rfl, rfl⟩ := Prod.mk.inj (Option.some.inj h)
    have hc : c.toNat = 0 := by
      by_contra hne
      exact hnot (BitVec.lt_def.mpr (by simpa using Nat.pos_of_ne_zero hne))
    exact ⟨by rw [hzero, hc], fun _ _ => rfl, .inr ⟨rfl, hc⟩⟩

theorem value_carry {base base' : Vector (BitVec W) n} {k c : ℕ} (hzero : limb base k = 0)
    (hnew : limb base' k = c) (hother : ∀ j, j ≠ k → limb base' j = limb base j) :
    value (2^W) (limb base') n = value (2^W) (limb base) n+c*(2^W)^k := by
  by_cases hk : k < n
  · have := value_update (B := 2^W) hk hother
    rwa [hzero, hnew, Nat.zero_mul, Nat.add_zero] at this
  · obtain rfl : 0 = c := by rw [← hnew, limb_beyond _ (by lia)]
    rw [Nat.zero_mul, Nat.add_zero]
    exact value_congr fun j hj => hother j (by lia)

theorem holds_of_carry {base base' : Vector (BitVec W) n} {k v : ℕ} {c : BitVec W}
    (hzero : ∀ j, k ≤ j → limb base j = 0) (hval : value (2^W) (limb base) k+c.toNat*(2^W)^k = v)
    (hstore : store base k c = some base') : Holds ⟨k+1, base'⟩ v := by
  obtain ⟨-, hnew, hother⟩ := store_spec hstore
  have hclean : ∀ j, k+1 ≤ j → limb base' j = 0 := fun j hj => by
    rw [hother j (by lia), hzero j (by lia)]
  refine ⟨hclean, ?_⟩
  rw [← value_eq_val ⟨k+1, base'⟩ hclean, value_succ]
  simp only
  rw [value_store hother, hnew, hval]

theorem holds_of_value {base : Vector (BitVec W) n} {k v : ℕ}
    (hzero : ∀ j, k ≤ j → limb base j = 0) (hval : value (2^W) (limb base) k = v) :
    Holds ⟨k, base⟩ v :=
  ⟨hzero, by rw [← value_eq_val ⟨k, base⟩ hzero, hval]⟩

theorem add_holds {x y r : Big W n} (hx : x.Clean) (hy : y.Clean) (hW : 0 < W) (h : x.add y = some r) :
    Holds r (x.val+y.val) := by
  simp only [add, Option.bind_eq_bind, Option.bind_eq_some_iff] at h
  obtain ⟨_, -, ⟨base, carry⟩, hrun, h⟩ := h
  obtain ⟨hval, hrest⟩ := forRange_keeps (AddInv x.base y.base) (by simp [AddInv])
    (fun i _ t t' hinv hbody => addDigit_keeps hinv hbody) hrun
  simp only at hval hrest
  rw [hx.value_eq (le_max_left _ _), hy.value_eq (le_max_right _ _)] at hval
  have hzero : ∀ j, max x.size y.size ≤ j → limb base j = 0 := fun j hj => by
    rw [hrest j hj, hx j (by lia)]
  cases carry with
  | true =>
    simp only [if_true, Option.bind_eq_some_iff] at h
    obtain ⟨base', hstore, h⟩ := h
    obtain rfl := Option.some.inj h
    apply holds_of_carry hzero _ hstore
    have hone : (1:BitVec W).toNat = 1 := BitVec.toNat_one hW
    rw [← hval, hone]
    rfl
  | false =>
    simp only [Bool.false_eq_true, if_false] at h
    obtain rfl := Option.some.inj h
    apply holds_of_value hzero
    simpa using hval

theorem addSmallLoop_keeps {a base base' : Vector (BitVec W) n} {rounds i i' v : ℕ} {carry : Bool}
    (hval : value (2^W) (limb base) i+carry.toNat*(2^W)^i = value (2^W) (limb a) i+v)
    (hrest : ∀ j, i ≤ j → limb base j = limb a j)
    (hrun : addSmallLoop rounds base i carry = some (base', i')) :
    value (2^W) (limb base') i' = value (2^W) (limb a) i'+v ∧
      ∀ j, i' ≤ j → limb base' j = limb a j := by
  induction rounds generalizing base i carry with
  | zero =>
    cases carry with
    | false =>
      obtain ⟨rfl, rfl⟩ := Prod.mk.inj (Option.some.inj hrun)
      exact ⟨by simpa using hval, hrest⟩
    | true => cases hrun
  | succ rounds ih =>
    cases carry with
    | false =>
      obtain ⟨rfl, rfl⟩ := Prod.mk.inj (Option.some.inj hrun)
      exact ⟨by simpa using hval, hrest⟩
    | true =>
      simp only [addSmallLoop, Option.bind_eq_bind, Option.bind_eq_some_iff] at hrun
      obtain ⟨x, hx, base₁, hstore, hrun⟩ := hrun
      obtain ⟨-, hnew, hother⟩ := store_spec hstore
      have hdigit := carryingAdd_spec x 0 true
      have hzero : (0:BitVec W).toNat = 0 := BitVec.toNat_zero
      have hxa : limb a i = x.toNat := by rw [← hrest i le_rfl, limb_of_get hx]
      refine ih ?_ (fun j hj => by rw [hother j (by lia), hrest j (by lia)]) hrun
      rw [value_succ, value_succ, value_store hother, hnew, hxa, pow_succ]
      rw [hzero, Nat.add_zero] at hdigit
      calc value (2^W) (limb base) i+(carryingAdd x 0 true).1.toNat*(2^W)^i+
            (carryingAdd x 0 true).2.toNat*((2^W)^i*2^W)
          = value (2^W) (limb base) i+((carryingAdd x 0 true).1.toNat+
            2^W*(carryingAdd x 0 true).2.toNat)*(2^W)^i := by ring
        _ = value (2^W) (limb base) i+true.toNat*(2^W)^i+x.toNat*(2^W)^i := by
          rw [hdigit]
          ring
        _ = value (2^W) (limb a) i+x.toNat*(2^W)^i+v := by
          rw [hval]
          ring

theorem value_above {a b : Vector (BitVec W) n} {i k : ℕ} (hik : i ≤ k)
    (h : ∀ j, i ≤ j → limb a j = limb b j) :
    value (2^W) (limb a) k+value (2^W) (limb b) i =
      value (2^W) (limb b) k+value (2^W) (limb a) i := by
  obtain ⟨d, rfl⟩ := Nat.exists_eq_add_of_le hik
  rw [value_add, value_add _ (limb b), value_congr (g := fun j => limb b (i+j))
    (fun j _ => h (i+j) (Nat.le_add_right _ _))]
  ring

theorem addSmall_holds {x r : Big W n} (hx : x.Clean) {other : BitVec W}
    (h : x.addSmall other = some r) : Holds r (x.val+other.toNat) := by
  simp only [addSmall, Option.bind_eq_bind, Option.bind_eq_some_iff] at h
  obtain ⟨a, ha, base, hstore, ⟨base', i⟩, hrun, h⟩ := h
  obtain rfl := Option.some.inj h
  obtain ⟨-, hnew, hother⟩ := store_spec hstore
  have hdigit := carryingAdd_spec a other false
  obtain ⟨hval, hrest⟩ := addSmallLoop_keeps (a := x.base) (v := other.toNat)
    (by
      rw [value_succ, value_succ, hnew, limb_of_get ha]
      simpa [mul_comm] using hdigit)
    (fun j hj => hother j (by lia)) hrun
  have hzero : ∀ j, (if i > x.size then i else x.size) ≤ j → limb base' j = 0 := fun j hj => by
    rw [hrest j (by split at hj <;> lia), hx j (by split at hj <;> lia)]
  apply holds_of_value hzero
  have habove := value_above (k := if i > x.size then i else x.size) (by split <;> lia) hrest
  have hxval := hx.value_eq (k := if i > x.size then i else x.size) (by split <;> lia)
  lia

/-- With the carry for what is not borrowed. -/
def SubInv (a b : Vector (BitVec W) n) (i : ℕ) (s : Vector (BitVec W) n × Bool) : Prop :=
  value (2^W) (limb s.1) i+value (2^W) (limb b) i+s.2.toNat*(2^W)^i =
      value (2^W) (limb a) i+(2^W)^i ∧
    ∀ j, i ≤ j → limb s.1 j = limb a j

theorem subDigit_keeps {a b : Vector (BitVec W) n} {i : ℕ} {s s' : Vector (BitVec W) n × Bool}
    (h : SubInv a b i s) (hrun : subDigit b i s = some s') : SubInv a b (i+1) s' := by
  obtain ⟨base, carry⟩ := s
  obtain ⟨hval, hrest⟩ := h
  simp only [subDigit, Option.bind_eq_bind, Option.bind_eq_some_iff] at hrun
  obtain ⟨x, hx, y, hy, base', hstore, hs'⟩ := hrun
  obtain rfl := Option.some.inj hs'
  obtain ⟨-, hnew, hother⟩ := store_spec hstore
  have hdigit := carryingAdd_spec x (~~~y) carry
  have hnot : (~~~y).toNat+y.toNat+1 = 2^W := by
    have := y.isLt
    rw [BitVec.toNat_not]
    lia
  simp only at hval hrest
  have hxa : limb a i = x.toNat := by rw [← hrest i le_rfl, limb_of_get hx]
  constructor
  · simp only
    rw [value_succ, value_succ, value_succ, value_store hother, hnew, hxa, limb_of_get hy, pow_succ]
    have hsum : (carryingAdd x (~~~y) carry).1.toNat+y.toNat+1+
        2^W*(carryingAdd x (~~~y) carry).2.toNat = x.toNat+2^W+carry.toNat := by lia
    apply Nat.add_right_cancel (m := (2^W)^i)
    calc value (2^W) (limb base) i+(carryingAdd x (~~~y) carry).1.toNat*(2^W)^i+
          (value (2^W) (limb b) i+y.toNat*(2^W)^i)+
          (carryingAdd x (~~~y) carry).2.toNat*((2^W)^i*2^W)+(2^W)^i
        = value (2^W) (limb base) i+value (2^W) (limb b) i+
          ((carryingAdd x (~~~y) carry).1.toNat+y.toNat+1+
            2^W*(carryingAdd x (~~~y) carry).2.toNat)*(2^W)^i := by ring
      _ = value (2^W) (limb base) i+value (2^W) (limb b) i+carry.toNat*(2^W)^i+
          (x.toNat+2^W)*(2^W)^i := by
        rw [hsum]
        ring
      _ = value (2^W) (limb a) i+x.toNat*(2^W)^i+(2^W)^i*2^W+(2^W)^i := by
        rw [hval]
        ring
  · intro j hj
    rw [hother j (by lia), hrest j (by lia)]

theorem sub_holds {x y r : Big W n} (hx : x.Clean) (hy : y.Clean) (h : x.sub y = some r) :
    Holds r (x.val-y.val) ∧ y.val ≤ x.val := by
  simp only [sub, Option.bind_eq_bind, Option.bind_eq_some_iff] at h
  obtain ⟨_, -, ⟨base, noborrow⟩, hrun, _, hassert, h⟩ := h
  obtain rfl := Option.some.inj h
  obtain ⟨hval, hrest⟩ := forRange_keeps (SubInv x.base y.base) (by simp [SubInv])
    (fun i _ t t' hinv hbody => subDigit_keeps hinv hbody) hrun
  obtain rfl : noborrow = true := assert_eq hassert
  simp only at hval hrest
  rw [hx.value_eq (le_max_left _ _), hy.value_eq (le_max_right _ _), Bool.toNat_true,
    Nat.one_mul] at hval
  refine ⟨?_, by lia⟩
  apply holds_of_value
  · intro j hj
    rw [hrest j hj, hx j (by lia)]
  · simp only
    lia

/-! ## Products -/

def MulInv (a : Vector (BitVec W) n) (other : ℕ) (i : ℕ) (s : Vector (BitVec W) n × BitVec W) : Prop :=
  value (2^W) (limb s.1) i+s.2.toNat*(2^W)^i = value (2^W) (limb a) i*other ∧
    ∀ j, i ≤ j → limb s.1 j = limb a j

theorem mulSmallDigit_keeps {a : Vector (BitVec W) n} {other : BitVec W} {i : ℕ}
    {s s' : Vector (BitVec W) n × BitVec W} (h : MulInv a other.toNat i s)
    (hrun : mulSmallDigit other i s = some s') : MulInv a other.toNat (i+1) s' := by
  obtain ⟨base, carry⟩ := s
  obtain ⟨hval, hrest⟩ := h
  simp only [mulSmallDigit, Option.bind_eq_bind, Option.bind_eq_some_iff] at hrun
  obtain ⟨x, hx, base', hstore, hs'⟩ := hrun
  obtain rfl := Option.some.inj hs'
  obtain ⟨-, hnew, hother⟩ := store_spec hstore
  have hdigit := carryingMul_spec x other carry
  simp only at hval hrest
  have hxa : limb a i = x.toNat := by rw [← hrest i le_rfl, limb_of_get hx]
  constructor
  · simp only
    rw [value_succ, value_succ, value_store hother, hnew, hxa, pow_succ]
    calc value (2^W) (limb base) i+(carryingMul x other carry).1.toNat*(2^W)^i+
          (carryingMul x other carry).2.toNat*((2^W)^i*2^W)
        = value (2^W) (limb base) i+((carryingMul x other carry).1.toNat+
          2^W*(carryingMul x other carry).2.toNat)*(2^W)^i := by ring
      _ = value (2^W) (limb base) i+carry.toNat*(2^W)^i+x.toNat*other.toNat*(2^W)^i := by
        rw [hdigit]
        ring
      _ = (value (2^W) (limb a) i+x.toNat*(2^W)^i)*other.toNat := by
        rw [hval]
        ring
  · intro j hj
    rw [hother j (by lia), hrest j (by lia)]

theorem mulSmall_holds {x r : Big W n} (hx : x.Clean) {other : BitVec W}
    (h : x.mulSmall other = some r) : Holds r (x.val*other.toNat) := by
  simp only [mulSmall, Option.bind_eq_bind, Option.bind_eq_some_iff] at h
  obtain ⟨_, -, ⟨base, carry⟩, hrun, h⟩ := h
  have hinit : MulInv x.base other.toNat 0 (x.base, 0) := by simp [MulInv]
  obtain ⟨hval, hrest⟩ := forRange_keeps (MulInv x.base other.toNat) hinit
    (fun i _ t t' hinv hbody => mulSmallDigit_keeps hinv hbody) hrun
  simp only at hval hrest
  rw [hx.value_eq le_rfl] at hval
  have hzero : ∀ j, x.size ≤ j → limb base j = 0 := fun j hj => by rw [hrest j hj, hx j hj]
  obtain ⟨⟨sz, base'⟩, hcarry, h⟩ := h
  obtain rfl := Option.some.inj h
  obtain ⟨hnew, hother, hsz⟩ := storeCarry_spec (hzero _ le_rfl) hcarry
  apply holds_of_le (k := x.size+1)
  · intro j hj
    by_cases hjk : j = x.size
    · rw [hjk, hnew]
      lia
    · rw [hother j hjk, hzero j (by lia)]
  · lia
  · rw [value_succ, value_store hother, hnew, hval]

/-! ## Shifts -/

/-- The limbs from `i+digits` up to `size+digits` have been moved up. -/
def MoveInv (a : Vector (BitVec W) n) (digits size : ℕ) (i : ℕ) (base : Vector (BitVec W) n) : Prop :=
  ∀ j, limb base j = if i+digits ≤ j ∧ j < size+digits then limb a (j-digits) else limb a j

theorem moveDigit_keeps {a : Vector (BitVec W) n} {digits size i : ℕ} (hi : i < size)
    {base base' : Vector (BitVec W) n} (h : MoveInv a digits size (i+1) base)
    (hrun : moveDigit digits i base = some base') : MoveInv a digits size i base' := by
  simp only [moveDigit, Option.bind_eq_bind, Option.bind_eq_some_iff] at hrun
  obtain ⟨v, hv, hstore⟩ := hrun
  obtain ⟨-, hnew, hother⟩ := store_spec hstore
  intro j
  by_cases hj : j = i+digits
  · subst hj
    have hread : limb base i = limb a i := by rw [h i, if_neg (by lia)]
    rw [if_pos (by lia), Nat.add_sub_cancel, hnew, ← limb_of_get hv, hread]
  · rw [hother j hj, h j]
    by_cases hlt : i+1+digits ≤ j ∧ j < size+digits
    · rw [if_pos hlt, if_pos (by lia)]
    · rw [if_neg hlt, if_neg (by lia)]

theorem shiftDigits_spec {x : Big W n} (hx : x.Clean) {digits : ℕ} {base base' : Vector (BitVec W) n}
    (hmove : forRangeRev (moveDigit digits) x.size x.base = some base)
    (hclear : forRange clearDigit digits base = some base') (j : ℕ) :
    limb base' j = if j < digits then 0 else limb x.base (j-digits) := by
  have hmoved := forRangeRev_keeps (MoveInv x.base digits x.size) (fun j => by rw [if_neg (by lia)])
    (fun i hi t t' hinv hbody => moveDigit_keeps hi hinv hbody) hmove
  have hcleared := forRange_keeps
    (fun i (t : Vector (BitVec W) n) => ∀ j, limb t j = if j < i then 0 else limb base j)
    (fun j => by rw [if_neg (by lia)])
    (fun i _ t t' hinv hbody j => by
      obtain ⟨-, hnew, hother⟩ := store_spec hbody
      by_cases hj : j = i
      · subst hj
        rw [if_pos (by lia), hnew]
        rfl
      · rw [hother j hj, hinv j]
        by_cases hlt : j < i
        · rw [if_pos hlt, if_pos (by lia)]
        · rw [if_neg hlt, if_neg (by lia)]) hclear
  rw [hcleared j]
  split
  · rfl
  · rw [hmoved j]
    split
    · rfl
    · rw [hx j (by lia), hx (j-digits) (by lia)]

/-- What a limb becomes by a shift of all limbs by bits. -/
def shifted (W bits : ℕ) (f : ℕ → ℕ) (j : ℕ) : ℕ :=
  f j*2^bits%2^W+(if j = 0 then 0 else f (j-1)/2^(W-bits))

theorem shifted_value {bits : ℕ} (hbits : bits ≤ W) (f : ℕ → ℕ) (k : ℕ) :
    value (2^W) (shifted W bits f) k+(if k = 0 then 0 else f (k-1)/2^(W-bits))*(2^W)^k =
      value (2^W) f k*2^bits := by
  induction k with
  | zero => simp
  | succ k ih =>
    have hpow : 2^W = 2^(W-bits)*2^bits := by
      rw [← pow_add]
      congr 1
      lia
    have hhigh : f k/2^(W-bits) = f k*2^bits/2^W := by
      rw [hpow, Nat.mul_div_mul_right _ _ (by positivity)]
    have hsplit := Nat.mod_add_div (f k*2^bits) (2^W)
    rw [value_succ, value_succ, if_neg (by lia), Nat.add_sub_cancel, hhigh, pow_succ]
    conv_lhs => rw [shifted]
    calc value (2^W) (shifted W bits f) k+(f k*2^bits%2^W+
          (if k = 0 then 0 else f (k-1)/2^(W-bits)))*(2^W)^k+f k*2^bits/2^W*((2^W)^k*2^W)
        = value (2^W) (shifted W bits f) k+(if k = 0 then 0 else f (k-1)/2^(W-bits))*(2^W)^k+
          (f k*2^bits%2^W+2^W*(f k*2^bits/2^W))*(2^W)^k := by ring
      _ = (value (2^W) f k+f k*(2^W)^k)*2^bits := by
        rw [ih, hsplit]
        ring

theorem shiftDigit_toNat {bits : ℕ} (hbits : bits ≤ W) (high low : BitVec W) :
    (high <<< bits ||| low >>> (W-bits)).toNat =
      high.toNat*2^bits%2^W+low.toNat/2^(W-bits) := by
  have hpow : 2^W = 2^bits*2^(W-bits) := by
    rw [← pow_add]
    congr 1
    lia
  have hlow : low.toNat/2^(W-bits) < 2^bits := by
    apply Nat.div_lt_of_lt_mul
    rw [mul_comm, ← hpow]
    exact low.isLt
  rw [BitVec.toNat_or, BitVec.toNat_shiftLeft, BitVec.toNat_ushiftRight, Nat.shiftLeft_eq,
    Nat.shiftRight_eq_div_pow]
  have hmul : high.toNat*2^bits%2^W = 2^bits*(high.toNat%2^(W-bits)) := by
    rw [hpow, mul_comm high.toNat, Nat.mul_mod_mul_left]
  rw [hmul, Nat.two_pow_add_eq_or_of_lt hlow]

section ShiftBits

variable {digits bits sz : ℕ} {base : Vector (BitVec W) n} (hb : bits ≤ W) (hsz : digits ≤ sz)
  (hlow : ∀ j, j < digits → limb base j = 0) (hhigh : ∀ j, sz ≤ j → limb base j = 0)
include hb hsz hlow hhigh

omit hlow hhigh in
theorem shiftDigits_keeps {base₁ base₂ : Vector (BitVec W) n}
    (h₁ : ∀ j, j ≠ sz → limb base₁ j = limb base j)
    (hrun : forRangeRev (shiftDigit digits bits) (sz-(digits+1)) base₁ = some base₂) (j : ℕ) :
    limb base₂ j = if digits+1 ≤ j ∧ j < sz then shifted W bits (limb base) j else limb base₁ j := by
  have hkeep := forRangeRev_keeps
    (fun i (t : Vector (BitVec W) n) => ∀ j, limb t j =
      if digits+1+i ≤ j ∧ j < sz then shifted W bits (limb base) j else limb base₁ j)
    (fun j => by rw [if_neg (by lia)])
    (fun i hi t t' hinv hbody j => by
      simp only [shiftDigit, Option.bind_eq_bind, Option.bind_eq_some_iff] at hbody
      obtain ⟨high, hhigh', low, hlow', hstore⟩ := hbody
      obtain ⟨-, hnew, hother⟩ := store_spec hstore
      by_cases hj : j = digits+1+i
      · subst hj
        rw [if_pos (by lia), hnew, shiftDigit_toNat hb, shifted, if_neg (by lia),
          ← limb_of_get hhigh', ← limb_of_get hlow', hinv, hinv, if_neg (by lia),
          if_neg (by lia), h₁ _ (by lia), h₁ _ (by lia)]
      · rw [hother j hj, hinv j]
        by_cases hlt : digits+1+(i+1) ≤ j ∧ j < sz
        · rw [if_pos hlt, if_pos (by lia)]
        · rw [if_neg hlt, if_neg (by lia)]) hrun
  exact hkeep j

theorem shiftBits_spec {sz' : ℕ} {base' : Vector (BitVec W) n}
    (hrun : shiftBits digits bits sz base = some (sz', base')) :
    sz' ≤ sz+1 ∧ (∀ j, sz' ≤ j → limb base' j = 0) ∧
      ∀ j, limb base' j = shifted W bits (limb base) j := by
  simp only [shiftBits, Option.bind_eq_bind, Option.bind_eq_some_iff] at hrun
  obtain ⟨top, htop, ⟨sz₁, base₁⟩, hoverflow, base₂, hloop, low, hget, base₃, hstore, heq⟩ := hrun
  obtain ⟨rfl, rfl⟩ := Prod.mk.inj (Option.some.inj heq)
  obtain ⟨hsz0, htop⟩ : 1 ≤ sz ∧ base[sz-1]? = some top := by
    rw [lastDigit] at htop
    split at htop
    · next h => exact ⟨h, htop⟩
    · cases htop
  have hover : (top >>> (W-bits)).toNat = limb base (sz-1)/2^(W-bits) := by
    rw [BitVec.toNat_ushiftRight, Nat.shiftRight_eq_div_pow, limb_of_get htop]
  -- the digit above the others, which stays zero if nothing is shifted out
  obtain ⟨hnew₁, h₁, hsz₁⟩ := storeCarry_spec (hhigh sz le_rfl) hoverflow
  rw [hover] at hnew₁ hsz₁
  have hloop' := shiftDigits_keeps hb hsz h₁ hloop
  obtain ⟨-, hnew, hother⟩ := store_spec hstore
  have hall : ∀ j, limb base₃ j = shifted W bits (limb base) j := by
    intro j
    by_cases hj : j = digits
    · subst hj
      rw [hnew, BitVec.toNat_shiftLeft, Nat.shiftLeft_eq, ← limb_of_get hget, hloop',
        if_neg (by lia), shifted]
      have hbelow : (if j = 0 then 0 else limb base (j-1)/2^(W-bits)) = 0 := by
        split
        · rfl
        · rw [hlow (j-1) (by lia), Nat.zero_div]
      rw [hbelow, Nat.add_zero]
      by_cases hjsz : j = sz
      · subst hjsz
        rw [hnew₁, hhigh j le_rfl, hlow (j-1) (by lia), Nat.zero_div]
      · rw [h₁ j hjsz]
    · rw [hother j hj, hloop' j]
      split
      · rfl
      · by_cases hjsz : j = sz
        · subst hjsz
          rw [hnew₁, shifted, hhigh j le_rfl, if_neg (by lia)]
          simp
        · rw [h₁ j hjsz, shifted]
          by_cases hlt : j < digits
          · rw [hlow j hlt]
            split
            · simp
            · rw [hlow (j-1) (by lia)]
              simp
          · rw [hhigh j (by lia), if_neg (by lia), hhigh (j-1) (by lia)]
            simp
  refine ⟨by lia, fun j hj => ?_, hall⟩
  rw [hall j, shifted, hhigh j (by lia), if_neg (by lia)]
  rcases hsz₁ with hsz₁ | ⟨hsz₁, hzero⟩
  · rw [hhigh (j-1) (by lia)]
    simp
  · by_cases hjsz : j = sz
    · rw [hjsz, hzero]
      simp
    · rw [hhigh (j-1) (by lia)]
      simp

end ShiftBits

theorem mulPow2_holds {x r : Big W n} (hx : x.Clean) {debug : Bool} {bits : ℕ} (hW : 0 < W)
    (h : x.mulPow2 debug bits = some r) : Holds r (x.val*2^bits) := by
  simp only [mulPow2, Option.bind_eq_bind, Option.bind_eq_some_iff] at h
  obtain ⟨_, -, _, -, _, -, base, hmove, base₁, hclear, ⟨sz, base'⟩, hshift, h⟩ := h
  obtain rfl := Option.some.inj h
  have hmoved := shiftDigits_spec hx hmove hclear
  have hlow : ∀ j, j < bits/W → limb base₁ j = 0 := fun j hj => by rw [hmoved j, if_pos hj]
  have hhigh : ∀ j, x.size+bits/W ≤ j → limb base₁ j = 0 := fun j hj => by
    rw [hmoved j, if_neg (by lia), hx (j-bits/W) (by lia)]
  have hval : value (2^W) (limb base₁) (bits/W+x.size) = x.val*2^(W*(bits/W)) := by
    rw [value_shift hlow, value_congr (g := limb x.base), hx.value_eq le_rfl, pow_mul, mul_comm]
    intro i _
    rw [hmoved (bits/W+i), if_neg (by lia), Nat.add_sub_cancel_left]
  have hbits : 2^bits = 2^(W*(bits/W))*2^(bits%W) := by
    rw [← pow_add, Nat.div_add_mod]
  rw [shiftRest] at hshift
  split at hshift
  · obtain ⟨hsz, hclean, hall⟩ := shiftBits_spec (Nat.mod_lt bits hW).le (Nat.le_add_left _ _) hlow hhigh
      hshift
    have hshifted := shifted_value (Nat.mod_lt bits hW).le (limb base₁) (x.size+bits/W+1)
    rw [if_neg (Nat.succ_ne_zero _), Nat.add_sub_cancel, hhigh _ le_rfl, Nat.zero_div, Nat.zero_mul,
      Nat.add_zero] at hshifted
    apply holds_of_le hclean hsz
    rw [value_congr (fun j _ => hall j), hshifted,
      value_extend (Nat.le_succ _) (fun j hj _ => hhigh j hj), Nat.add_comm x.size, hval, hbits]
    ring
  · next hzero =>
    obtain ⟨rfl, rfl⟩ := Prod.mk.inj (Option.some.inj hshift)
    apply holds_of_value hhigh
    rw [Nat.add_comm x.size, hval, hbits, show bits%W = 0 by lia]
    ring

/-! ## Long multiplication -/

def listLimb (l : List (BitVec W)) (i : ℕ) : ℕ := (l[i]?.getD 0).toNat

def listVal (l : List (BitVec W)) : ℕ := value (2^W) (listLimb l) l.length

theorem digits_spec {x : Big W n} (hx : x.Clean) {ds : List (BitVec W)} (h : x.digits = some ds) :
    ds.length = x.size ∧ listVal ds = x.val := by
  simp only [digits, Option.bind_eq_bind, Option.bind_eq_some_iff] at h
  obtain ⟨_, hslice, h⟩ := h
  obtain rfl := Option.some.inj h
  have hle := sliceTo_eq hslice
  have hlen : (x.base.toList.take x.size).length = x.size := by simpa using hle
  refine ⟨hlen, ?_⟩
  rw [listVal, hlen, ← hx.value_eq le_rfl]
  apply value_congr
  intro i hi
  rw [listLimb, limb, List.getElem?_take_of_lt hi, Vector.getElem?_toList]

/-- The digits of the second factor up to `j` have been multiplied and added. -/
def RowInv (ret : Vector (BitVec W) n) (a : ℕ) (bb : List (BitVec W)) (i j : ℕ)
    (s : Vector (BitVec W) n × BitVec W) : Prop :=
  value (2^W) (limb s.1) n+s.2.toNat*(2^W)^(i+j) =
      value (2^W) (limb ret) n+a*(2^W)^i*value (2^W) (listLimb bb) j ∧
    ∀ t, i+j ≤ t → limb s.1 t = limb ret t

theorem mulInnerDigit_keeps {ret : Vector (BitVec W) n} {a : BitVec W} {bb : List (BitVec W)}
    {i j : ℕ} {s s' : Vector (BitVec W) n × BitVec W} (h : RowInv ret a.toNat bb i j s)
    (hrun : mulInnerDigit a bb i j s = some s') : RowInv ret a.toNat bb i (j+1) s' := by
  obtain ⟨base, carry⟩ := s
  obtain ⟨hval, hrest⟩ := h
  simp only [mulInnerDigit, Option.bind_eq_bind, Option.bind_eq_some_iff] at hrun
  obtain ⟨b, hb, other2, hother2, base', hstore, hs'⟩ := hrun
  obtain rfl := Option.some.inj hs'
  obtain ⟨hlt, hnew, hother⟩ := store_spec hstore
  have hdigit := fullMulAdd_spec a b other2 carry
  have hupdate := value_update (B := 2^W) hlt hother
  have hbj : listLimb bb j = b.toNat := by rw [listLimb, hb, Option.getD_some]
  simp only at hval hrest
  rw [hnew, limb_of_get hother2] at hupdate
  constructor
  · simp only
    rw [value_succ, hbj, ← Nat.add_assoc i j 1, pow_succ]
    apply Nat.add_right_cancel (m := other2.toNat*(2^W)^(i+j))
    calc value (2^W) (limb base') n+(fullMulAdd a b other2 carry).1.toNat*((2^W)^(i+j)*2^W)+
          other2.toNat*(2^W)^(i+j)
        = value (2^W) (limb base') n+other2.toNat*(2^W)^(i+j)+
          (fullMulAdd a b other2 carry).1.toNat*((2^W)^(i+j)*2^W) := by ring
      _ = value (2^W) (limb base) n+((fullMulAdd a b other2 carry).2.toNat+
          2^W*(fullMulAdd a b other2 carry).1.toNat)*(2^W)^(i+j) := by
        rw [hupdate]
        ring
      _ = value (2^W) (limb base) n+carry.toNat*(2^W)^(i+j)+
          (a.toNat*b.toNat+other2.toNat)*(2^W)^(i+j) := by
        rw [hdigit]
        ring
      _ = value (2^W) (limb ret) n+a.toNat*(2^W)^i*(value (2^W) (listLimb bb) j+b.toNat*(2^W)^j)+
          other2.toNat*(2^W)^(i+j) := by
        rw [hval, pow_add]
        ring
  · intro t ht
    rw [hother t (by lia), hrest t (by lia)]

/-- The digits of the first factor up to `i` have been multiplied by the second factor. -/
def ProductInv (aa bb : List (BitVec W)) (i : ℕ) (s : Vector (BitVec W) n × ℕ) : Prop :=
  value (2^W) (limb s.1) n = value (2^W) (listLimb aa) i*listVal bb ∧
    (∀ j, s.2 ≤ j → limb s.1 j = 0) ∧ s.2 ≤ i+bb.length

theorem mulInnerRow_keeps {aa bb : List (BitVec W)} {i : ℕ} {s s' : Vector (BitVec W) n × ℕ}
    (h : ProductInv aa bb i s) (hrun : mulInnerRow aa bb i s = some s') :
    ProductInv aa bb (i+1) s' := by
  obtain ⟨ret, retsz⟩ := s
  obtain ⟨hval, hzero, hsz⟩ := h
  simp only [mulInnerRow, Option.bind_eq_bind, Option.bind_eq_some_iff] at hrun
  obtain ⟨a, ha, hrun⟩ := hrun
  have hai : listLimb aa i = a.toNat := by rw [listLimb, ha, Option.getD_some]
  simp only at hval hzero hsz
  split at hrun
  · next ha0 =>
    obtain rfl := Option.some.inj hrun
    refine ⟨?_, hzero, by simp only; lia⟩
    rw [value_succ, hai, ha0, hval]
    simp
  · simp only [Option.bind_eq_some_iff] at hrun
    obtain ⟨⟨ret₁, carry⟩, hrow, ⟨sz, ret₂⟩, hcarry, hs'⟩ := hrun
    obtain rfl := Option.some.inj hs'
    obtain ⟨hrowval, hrest⟩ := forRange_keeps (RowInv ret a.toNat bb i) (by simp [RowInv])
      (fun j _ t t' hinv hbody => mulInnerDigit_keeps hinv hbody) hrow
    simp only at hrowval hrest hcarry
    have hfree : limb ret₁ (i+bb.length) = 0 := by rw [hrest _ le_rfl, hzero _ hsz]
    obtain ⟨hnew, hother, hsz'⟩ := storeCarry_spec hfree hcarry
    refine ⟨?_, fun j hj => ?_, ?_⟩
    · simp only
      rw [value_carry hfree hnew hother, hrowval, hval, value_succ, hai, listVal]
      ring
    · have hj' : sz ≤ j ∧ retsz ≤ j := by
        simp only at hj
        split at hj <;> lia
      by_cases hjk : j = i+bb.length
      · subst hjk
        rw [hnew]
        lia
      · rw [hother j hjk, hrest j (by lia), hzero j (by lia)]
    · simp only
      split <;> lia

theorem mulDigits_holds {x r : Big W n} (hx : x.Clean) {other : List (BitVec W)}
    (h : x.mulDigits other = some r) : Holds r (x.val*listVal other) := by
  simp only [mulDigits, Option.bind_eq_bind, Option.bind_eq_some_iff] at h
  obtain ⟨ds, hds, ⟨ret, retsz⟩, hrun, h⟩ := h
  obtain rfl := Option.some.inj h
  obtain ⟨-, hval⟩ := digits_spec hx hds
  have hempty : ∀ j, limb (Vector.replicate n (0:BitVec W)) j = 0 := fun j => by
    rw [limb, Vector.getElem?_replicate]
    split
    · rfl
    · rfl
  have hproduct : ∀ aa bb : List (BitVec W),
      mulInner (Vector.replicate n 0) aa bb = some (ret, retsz) →
        Holds ⟨retsz, ret⟩ (listVal aa*listVal bb) := by
    intro aa bb hinner
    obtain ⟨hvalue, hclean, -⟩ := forRange_keeps (ProductInv aa bb)
      ⟨by rw [value_of_zero fun i _ => hempty i, value_zero, Nat.zero_mul], fun j _ => hempty j,
        Nat.zero_le _⟩
      (fun i _ t t' hinv hbody => mulInnerRow_keeps hinv hbody) hinner
    exact ⟨hclean, hvalue⟩
  rw [← hval]
  split at hrun
  · exact hproduct _ _ hrun
  · rw [mul_comm]
    exact hproduct _ _ hrun

/-! ## Powers of five -/

theorem mulPow5Loop_holds {smallPower : BitVec W} {smallE : ℕ} (hsmall : smallPower.toNat = 5^smallE)
    (hpos : 0 < smallE) {x r : Big W n} {e e' : ℕ} (hx : x.Clean)
    (h : mulPow5Loop smallPower smallE x e = some (r, e')) :
    r.Clean ∧ r.val*5^e' = x.val*5^e ∧ e' < smallE := by
  induction e using Nat.strong_induction_on generalizing x with
  | h e ih =>
    rw [mulPow5Loop] at h
    split at h
    · next hge =>
      obtain ⟨y, hy, h⟩ := Option.bind_eq_some_iff.mp h
      obtain ⟨hclean, hval⟩ := mulSmall_holds hx hy
      obtain ⟨hclean', hval', hlt⟩ := ih (e-smallE) (by lia) hclean h
      refine ⟨hclean', ?_, hlt⟩
      have hpow : 5^e = 5^smallE*5^(e-smallE) := by
        rw [← pow_add]
        congr 1
        lia
      rw [hval', hval, hsmall, hpow]
      ring
    · next hlt =>
      obtain ⟨rfl, rfl⟩ := Prod.mk.inj (Option.some.inj h)
      exact ⟨hx, rfl, by lia⟩

theorem restPower_eq {e : ℕ} (h : 5^e < 2^W) : restPower W e = some (5^e) := by
  induction e with
  | zero => rfl
  | succ e ih =>
    have hlt : 5^e < 2^W := (Nat.pow_lt_pow_right (by norm_num) (Nat.lt_succ_self e)).trans h
    rw [pow_succ] at h
    have := ih hlt
    rw [restPower] at this ⊢
    rw [forRange, this, Option.bind_some, if_pos h, pow_succ]

theorem smallPow5_spec (T : Digit) : ∃ smallE, smallPow5[Nat.log2 T.bytes]? = some (5^smallE, smallE) ∧
    0 < smallE ∧ 5^smallE < 2^T.bits := by
  cases T with
  | u8 => exact ⟨3, by decide, by decide, by decide⟩
  | u16 => exact ⟨6, by decide, by decide, by decide⟩
  | u32 => exact ⟨13, by decide, by decide, by decide⟩

theorem mulPow5_holds {T : Digit} {x r : Big T.bits n} (hx : x.Clean) {e : ℕ}
    (h : x.mulPow5 e = some r) : Holds r (x.val*5^e) := by
  obtain ⟨smallE, htable, hpos, hlt⟩ := smallPow5_spec T
  simp only [mulPow5, htable, Option.bind_eq_bind, Option.bind_some, Option.bind_eq_some_iff] at h
  obtain ⟨⟨y, e'⟩, hloop, p, hrest, hmul⟩ := h
  have hsmall : (BitVec.ofNat T.bits (5^smallE)).toNat = 5^smallE := by
    rw [BitVec.toNat_ofNat, Nat.mod_eq_of_lt hlt]
  obtain ⟨hclean, hval, he'⟩ := mulPow5Loop_holds hsmall hpos hx hloop
  have hpow : 5^e' < 2^T.bits := (Nat.pow_lt_pow_right (by norm_num) he').trans hlt
  rw [restPower_eq hpow] at hrest
  obtain rfl := Option.some.inj hrest
  have := mulSmall_holds hclean hmul
  rwa [BitVec.toNat_ofNat, Nat.mod_eq_of_lt hpow, hval] at this

/-! ## Quotients -/

/-- The limbs from `i` on have been divided. -/
def DivInv (a : Vector (BitVec W) n) (other sz i : ℕ) (s : Vector (BitVec W) n × BitVec W) : Prop :=
  value (2^W) (limb a) sz+other*value (2^W) (limb a) i =
      other*value (2^W) (limb s.1) sz+s.2.toNat*(2^W)^i+value (2^W) (limb a) i ∧
    s.2.toNat < other ∧ ∀ j, j < i ∨ sz ≤ j → limb s.1 j = limb a j

theorem divDigit_keeps {a : Vector (BitVec W) n} {other : BitVec W} {debug : Bool} {sz i : ℕ}
    (hi : i < sz) {s s' : Vector (BitVec W) n × BitVec W} (h : DivInv a other.toNat sz (i+1) s)
    (hrun : divDigit debug other i s = some s') : DivInv a other.toNat sz i s' := by
  obtain ⟨base, borrow⟩ := s
  obtain ⟨hval, hlt, hrest⟩ := h
  simp only [divDigit, Option.bind_eq_bind, Option.bind_eq_some_iff] at hrun
  obtain ⟨x, hx, ⟨q, r⟩, hdiv, base', hstore, hs'⟩ := hrun
  obtain rfl := Option.some.inj hs'
  obtain ⟨-, hnew, hother⟩ := store_spec hstore
  simp only at hval hlt hrest hdiv
  obtain ⟨hdigit, hr⟩ := fullDivRem_spec hlt hdiv
  have hxa : limb a i = x.toNat := by rw [← hrest i (.inl (Nat.lt_succ_self i)), limb_of_get hx]
  have hupdate := value_update (B := 2^W) hi hother
  rw [hnew, limb_of_get hx] at hupdate
  rw [value_succ, hxa, pow_succ] at hval
  refine ⟨?_, hr, fun j hj => ?_⟩
  · simp only
    have hmul : other.toNat*value (2^W) (limb base') sz+other.toNat*(x.toNat*(2^W)^i) =
        other.toNat*value (2^W) (limb base) sz+q.toNat*other.toNat*(2^W)^i := by
      rw [← mul_add, hupdate]
      ring
    have hstep : q.toNat*other.toNat*(2^W)^i+r.toNat*(2^W)^i =
        borrow.toNat*((2^W)^i*2^W)+x.toNat*(2^W)^i := by
      rw [← add_mul, ← hdigit]
      ring
    have hsplit : other.toNat*(value (2^W) (limb a) i+x.toNat*(2^W)^i) =
        other.toNat*value (2^W) (limb a) i+other.toNat*(x.toNat*(2^W)^i) := mul_add _ _ _
    lia
  · rw [hother j (by lia), hrest j (by lia)]

theorem divRemSmall_holds {x r : Big W n} (hx : x.Clean) {debug : Bool} {other rem : BitVec W}
    (h : x.divRemSmall debug other = some (r, rem)) :
    Holds r (x.val/other.toNat) ∧ rem.toNat = x.val%other.toNat := by
  simp only [divRemSmall, Option.bind_eq_bind, Option.bind_eq_some_iff] at h
  obtain ⟨_, hassert, _, -, ⟨base, borrow⟩, hrun, h⟩ := h
  obtain ⟨rfl, rfl⟩ := Prod.mk.inj (Option.some.inj h)
  have hpos : 0 < other.toNat := by
    have := BitVec.lt_def.mp (assert_eq hassert)
    simpa using this
  obtain ⟨hval, hlt, hrest⟩ := forRangeRev_keeps (DivInv x.base other.toNat x.size)
    ⟨by simp; ring, by simpa using hpos, fun _ _ => rfl⟩
    (fun i hi t t' hinv hbody => divDigit_keeps hi hinv hbody) hrun
  simp only [value_zero, Nat.mul_zero, Nat.add_zero, pow_zero, Nat.mul_one] at hval hlt hrest
  rw [hx.value_eq le_rfl] at hval
  have hdiv : x.val/other.toNat = value (2^W) (limb base) x.size := by
    rw [hval, Nat.mul_add_div hpos, Nat.div_eq_of_lt hlt, Nat.add_zero]
  refine ⟨?_, ?_⟩
  · rw [hdiv]
    apply holds_of_value
    · intro j hj
      rw [hrest j (.inr hj), hx j hj]
    · rfl
  · simp only
    rw [hval, Nat.mul_add_mod, Nat.mod_eq_of_lt hlt]

/-! ## The order -/

theorem cmpDigits_eq (a b : Vector (BitVec W) n) {k : ℕ} (hk : k ≤ n) :
    cmpDigits (a.toList.take k).reverse (b.toList.take k).reverse =
      compare (value (2^W) (limb a) k) (value (2^W) (limb b) k) := by
  induction k with
  | zero => simp [cmpDigits]
  | succ k ih =>
    have hstep : ∀ v : Vector (BitVec W) n,
        (v.toList.take (k+1)).reverse = v[k] :: (v.toList.take k).reverse := by
      intro v
      have hget : v.toList[k]? = some v[k] := by
        rw [Vector.getElem?_toList, Vector.getElem?_eq_getElem (by lia)]
      rw [List.take_add_one, hget, List.reverse_append]
      rfl
    have hlimb : ∀ v : Vector (BitVec W) n, v[k].toNat = limb v k := by
      intro v
      rw [limb, Vector.getElem?_eq_getElem (by lia), Option.getD_some]
    rw [hstep, hstep, cmpDigits, ih (by lia), hlimb, hlimb, value_succ, value_succ,
      compare_add_mul (value_lt fun i _ => limb_lt a i) (value_lt fun i _ => limb_lt b i)]

theorem cmp_eq {x y : Big W n} (hx : x.Clean) (hy : y.Clean) {o : Ordering} (h : x.cmp y = some o) :
    o = compare x.val y.val := by
  simp only [cmp, Option.bind_eq_bind, Option.bind_eq_some_iff] at h
  obtain ⟨_, hslice, h⟩ := h
  obtain rfl := Option.some.inj h
  rw [cmpDigits_eq _ _ (sliceTo_eq hslice), hx.value_eq (le_max_left _ _),
    hy.value_eq (le_max_right _ _)]

/-! ## All operations -/

/-- An operation that returns leaves the number `v`, and none returns without room for it. -/
def Exact (result : Option (Big W n)) (v : ℕ) : Prop :=
  (∀ r, result = some r → r.Holds v) ∧ (2^(W*n) ≤ v → result = none)

theorem exact_of_holds {result : Option (Big W n)} {v : ℕ} (h : ∀ r, result = some r → r.Holds v) :
    Exact result v := by
  refine ⟨h, fun hv => ?_⟩
  cases result with
  | none => rfl
  | some r =>
    have := r.val_lt
    have := (h r rfl).2
    lia

theorem bits_pos (T : Digit) : 0 < T.bits := by cases T <;> decide

/-- For every digit type and number of digits, with the debug assertions or without: each
operation that returns leaves the exact result with zeros beyond its size, and panics if the
result has no room, is negative or is a quotient by zero. -/
theorem bignum_exact {T : Digit} (debug : Bool) {x y : Big T.bits n} (hx : x.Clean) (hy : y.Clean) :
    Exact (x.add y) (x.val+y.val) ∧
    (∀ d, Exact (x.addSmall d) (x.val+d.toNat)) ∧
    (∀ r, x.sub y = some r → r.Holds (x.val-y.val)) ∧ (x.val < y.val → x.sub y = none) ∧
    (∀ d, Exact (x.mulSmall d) (x.val*d.toNat)) ∧
    (∀ bits, Exact (x.mulPow2 debug bits) (x.val*2^bits)) ∧
    (∀ e, Exact (x.mulPow5 e) (x.val*5^e)) ∧
    (∀ ds, Exact (x.mulDigits ds) (x.val*listVal ds)) ∧
    (∀ d r rem, x.divRemSmall debug d = some (r, rem) →
      r.Holds (x.val/d.toNat) ∧ rem.toNat = x.val%d.toNat) ∧
    x.divRemSmall debug 0 = none ∧
    ∀ o, x.cmp y = some o → o = compare x.val y.val := by
  have hW := bits_pos T
  refine ⟨?_, fun d => ?_, fun r hr => (sub_holds hx hy hr).1, fun hlt => ?_, fun d => ?_,
    fun bits => ?_, fun e => ?_, fun ds => ?_, fun d r rem hr => divRemSmall_holds hx hr, ?_,
    fun o ho => cmp_eq hx hy ho⟩
  · exact exact_of_holds fun r hr => add_holds hx hy hW hr
  · exact exact_of_holds fun r hr => addSmall_holds hx hr
  · cases hsub : x.sub y with
    | none => rfl
    | some r =>
      have := (sub_holds hx hy hsub).2
      lia
  · exact exact_of_holds fun r hr => mulSmall_holds hx hr
  · exact exact_of_holds fun r hr => mulPow2_holds hx hW hr
  · exact exact_of_holds fun r hr => mulPow5_holds hx hr
  · exact exact_of_holds fun r hr => mulDigits_holds hx hr
  · simp [divRemSmall, assert]

def large : Big Digit.u8.bits 3 := ⟨2, #v[200, 0, 0]⟩

theorem clean_large : large.Clean := by
  intro i hi
  by_cases h : i < 3
  · obtain rfl : i = 2 := by
      have : 2 ≤ i := hi
      lia
    rfl
  · exact limb_beyond _ (by lia)

theorem bignum_exact_large : Exact (large.mulPow2 true 7) (large.val*2^7) :=
  (bignum_exact true clean_large clean_large).2.2.2.2.2.1 7

example : (⟨2, #v[200, 0, 0]⟩ : Big Digit.u8.bits 3).mulPow2 true 7 = some ⟨2, #v[0, 100, 0]⟩ := by
  decide

end Big

end RustStd.Bignum
