import RustStd.Iter.Step

/-!
# The laws of `Step`

The values of a type are counted from the smallest one. A step moves to the value whose number is
larger or smaller by the count, if there is one, and never leaves the type.
-/

set_option autoImplicit false

namespace RustStd.Ranges

variable {A : Type}

/-- The methods move along the numbers of the values. -/
structure Step.Lawful (step : Step A) (rank : A → ℕ) : Prop where
  key_lt : ∀ a b, step.key a < step.key b ↔ rank a < rank b
  injective : Function.Injective rank
  dense : ∀ a k, k ≤ rank a → ∃ b, rank b = k
  stepsBetween : ∀ a b, step.stepsBetween a b =
    if rank a ≤ rank b then tryUsize (rank b-rank a) else (0, none)
  forwardChecked : ∀ a n, n < 2^64 →
    ∃ r, step.forwardChecked a n = some r ∧ ∀ b, r = some b ↔ rank b = rank a+n
  backwardChecked : ∀ a n, n < 2^64 →
    ∃ r, step.backwardChecked a n = some r ∧ ∀ b, r = some b ↔ rank a = rank b+n
  forward : ∀ a b n, n < 2^64 → rank b = rank a+n → step.forward a n = some b
  backward : ∀ a b n, n < 2^64 → rank a = rank b+n → step.backward a n = some b
  forwardUnchecked : ∀ a b n, n < 2^64 → rank b = rank a+n → step.forwardUnchecked a n = some b
  backwardUnchecked : ∀ a b n, n < 2^64 → rank a = rank b+n → step.backwardUnchecked a n = some b

theorem tryUsize_eq {n : ℕ} (h : n < 2^64) : tryUsize n = (n, some n) := if_pos h

section Integers

variable {w : ℕ}

theorem toNat_ofNat_eq {n : ℕ} (h : n < 2^w) : (BitVec.ofNat w n).toNat = n := by
  rw [BitVec.toNat_ofNat, Nat.mod_eq_of_lt h]

theorem wrappingUnless_some {checks : Bool} {checked : Option (BitVec w)} {b wrapped : BitVec w}
    (h : checked = some b) : wrappingUnless checks checked wrapped = some wrapped := by
  rw [wrappingUnless, h, Option.isNone_some, Bool.and_false]
  rfl

namespace Unsigned

variable {a b : BitVec w} {n : ℕ}

theorem checkedAdd_eq (hn : n < 2^w) :
    checkedAdd a (BitVec.ofNat w n) = some b ↔ b.toNat = a.toNat+n := by
  have hofNat : (BitVec.ofNat w n).toNat = n := toNat_ofNat_eq hn
  have hb := b.isLt
  rw [checkedAdd, BitVec.uaddOverflow, hofNat]
  by_cases h : a.toNat+n ≥ 2^w
  · rw [decide_eq_true h, if_pos rfl]
    exact iff_of_false nofun (by lia)
  · rw [decide_eq_false h, if_neg Bool.false_ne_true, Option.some_inj, BitVec.toNat_eq,
      BitVec.toNat_add, hofNat, Nat.mod_eq_of_lt (Nat.lt_of_not_le h), eq_comm]

theorem checkedSub_eq (hn : n < 2^w) :
    checkedSub a (BitVec.ofNat w n) = some b ↔ a.toNat = b.toNat+n := by
  have hofNat : (BitVec.ofNat w n).toNat = n := toNat_ofNat_eq hn
  rw [checkedSub, BitVec.usubOverflow, hofNat]
  by_cases h : a.toNat < n
  · rw [decide_eq_true h, if_pos rfl]
    exact iff_of_false nofun (by lia)
  · have hle : BitVec.ofNat w n ≤ a := by
      rw [BitVec.le_def, hofNat]
      exact Nat.le_of_not_lt h
    rw [decide_eq_false h, if_neg Bool.false_ne_true, Option.some_inj, BitVec.toNat_eq,
      BitVec.toNat_sub_of_le hle, hofNat]
    lia

theorem narrowAdd_eq : narrow checkedAdd a n = some b ↔ b.toNat = a.toNat+n := by
  rw [narrow]
  by_cases hn : n < 2^w
  · rw [if_pos hn, checkedAdd_eq hn]
  · rw [if_neg hn]
    have hb := b.isLt
    exact iff_of_false nofun (by lia)

theorem narrowSub_eq : narrow checkedSub a n = some b ↔ a.toNat = b.toNat+n := by
  rw [narrow]
  by_cases hn : n < 2^w
  · rw [if_pos hn, checkedSub_eq hn]
  · rw [if_neg hn]
    have ha := a.isLt
    exact iff_of_false nofun (by lia)

theorem stepsNarrow_eq (hw : w ≤ 64) (a b : BitVec w) : stepsNarrow a b =
    if a.toNat ≤ b.toNat then tryUsize (b.toNat-a.toNat) else (0, none) := by
  rw [stepsNarrow]
  by_cases h : a.toNat ≤ b.toNat
  · have hlt : b.toNat-a.toNat < 2^64 :=
      (Nat.sub_le _ _).trans_lt (b.isLt.trans_le (Nat.pow_le_pow_right two_pos hw))
    rw [if_pos h, if_pos (BitVec.le_def.mpr h), tryUsize_eq hlt, BitVec.toNat_setWidth,
      BitVec.toNat_sub_of_le (BitVec.le_def.mpr h), Nat.mod_eq_of_lt hlt]
  · rw [if_neg h, if_neg (mt BitVec.le_def.mp h)]

theorem stepsWide_eq (a b : BitVec w) : stepsWide a b =
    if a.toNat ≤ b.toNat then tryUsize (b.toNat-a.toNat) else (0, none) := by
  rw [stepsWide]
  by_cases h : a.toNat ≤ b.toNat
  · rw [if_pos h, if_pos (BitVec.le_def.mpr h), BitVec.toNat_sub_of_le (BitVec.le_def.mpr h)]
  · rw [if_neg h, if_neg (mt BitVec.le_def.mp h)]

theorem lawful (checks : Bool) {stepsBetween : BitVec w → BitVec w → ℕ × Option ℕ}
    {forward backward : BitVec w → ℕ → Option (BitVec w)}
    (hsteps : ∀ a b, stepsBetween a b =
      if a.toNat ≤ b.toNat then tryUsize (b.toNat-a.toNat) else (0, none))
    (hforward : ∀ a b n, n < 2^64 → (forward a n = some b ↔ b.toNat = a.toNat+n))
    (hbackward : ∀ a b n, n < 2^64 → (backward a n = some b ↔ a.toNat = b.toNat+n)) :
    (step checks stepsBetween forward backward).Lawful BitVec.toNat := by
  have hadd : ∀ (a b : BitVec w) (n : ℕ), b.toNat = a.toNat+n → a+BitVec.ofNat w n = b ∧ n < 2^w := by
    intro a b n h
    have hb := b.isLt
    have hn : n < 2^w := by lia
    refine ⟨?_, hn⟩
    rw [BitVec.toNat_eq, BitVec.toNat_add, toNat_ofNat_eq hn, Nat.mod_eq_of_lt (by lia), h]
  have hsub : ∀ (a b : BitVec w) (n : ℕ), a.toNat = b.toNat+n → a-BitVec.ofNat w n = b ∧ n < 2^w := by
    intro a b n h
    have ha := a.isLt
    have hn : n < 2^w := by lia
    have hle : BitVec.ofNat w n ≤ a := by
      rw [BitVec.le_def, toNat_ofNat_eq hn]
      lia
    refine ⟨?_, hn⟩
    rw [BitVec.toNat_eq, BitVec.toNat_sub_of_le hle, toNat_ofNat_eq hn]
    lia
  constructor
  · exact fun a b => Int.ofNat_lt
  · exact fun a b h => BitVec.eq_of_toNat_eq h
  · intro a k hk
    exact ⟨BitVec.ofNat w k, toNat_ofNat_eq (hk.trans_lt a.isLt)⟩
  · exact hsteps
  · exact fun a n hn => ⟨forward a n, rfl, fun b => hforward a b n hn⟩
  · exact fun a n hn => ⟨backward a n, rfl, fun b => hbackward a b n hn⟩
  · intro a b n hn h
    rw [← (hadd a b n h).1]
    exact wrappingUnless_some ((hforward a b n hn).mpr h)
  · intro a b n hn h
    rw [← (hsub a b n h).1]
    exact wrappingUnless_some ((hbackward a b n hn).mpr h)
  · exact fun a b n _ h => (checkedAdd_eq (hadd a b n h).2).mpr h
  · exact fun a b n _ h => (checkedSub_eq (hsub a b n h).2).mpr h

end Unsigned

namespace Signed

variable {a b : BitVec w} {n : ℕ}

/-- The number of a value, from the smallest one. -/
def rank (a : BitVec w) : ℕ := (a.toInt+2^(w-1)).toNat

theorem rank_eq (a : BitVec w) : (rank a : ℤ) = a.toInt+2^(w-1) := by
  have h := a.le_toInt
  exact Int.toNat_of_nonneg (by lia)

theorem two_pow_eq (hw : 0 < w) : (2:ℤ)^w = 2*2^(w-1) := by
  obtain ⟨k, rfl⟩ := Nat.exists_eq_succ_of_ne_zero hw.ne'
  rw [Nat.succ_sub_one, pow_succ, mul_comm]

theorem bmod_eq (hw : 0 < w) {z : ℤ} (hlo : -2^(w-1) ≤ z) (hhi : z < 2^(w-1)) :
    z.bmod (2^w) = z := by
  have hpow := two_pow_eq hw
  apply Int.bmod_eq_of_le_mul_two
  · push_cast
    lia
  · push_cast
    lia

theorem bmod_above (hw : 0 < w) {z : ℤ} (hlo : 2^(w-1) ≤ z) (hhi : z < 2^(w-1)+2^w) :
    z.bmod (2^w) = z-2^w := by
  have hpow := two_pow_eq hw
  have hshift : (z-2^w).bmod (2^w) = z.bmod (2^w) := by
    have h := Int.add_neg_bmod_self z (2^w)
    push_cast at h
    exact h
  rw [← hshift]
  exact bmod_eq hw (by lia) (by lia)

theorem bmod_below (hw : 0 < w) {z : ℤ} (hlo : -2^(w-1)-2^w ≤ z) (hhi : z < -2^(w-1)) :
    z.bmod (2^w) = z+2^w := by
  have hpow := two_pow_eq hw
  have hshift : (z+2^w).bmod (2^w) = z.bmod (2^w) := by
    have h := Int.add_neg_bmod_self (z+2^w) (2^w)
    push_cast at h
    rw [add_neg_cancel_right] at h
    exact h.symm
  rw [← hshift]
  exact bmod_eq hw (by lia) (by lia)

theorem toInt_add_ofNat (a : BitVec w) (n : ℕ) :
    (a+BitVec.ofNat w n).toInt = (a.toInt+n).bmod (2^w) := by
  rw [BitVec.toInt_add, BitVec.toInt_ofNat', Int.add_bmod_bmod]

theorem toInt_sub_ofNat (a : BitVec w) (n : ℕ) :
    (a-BitVec.ofNat w n).toInt = (a.toInt-n).bmod (2^w) := by
  rw [BitVec.toInt_sub, BitVec.toInt_ofNat', Int.sub_bmod_bmod]

theorem add_eq (hw : 0 < w) (h : b.toInt = a.toInt+n) : a+BitVec.ofNat w n = b := by
  rw [← BitVec.toInt_inj, toInt_add_ofNat, ← h]
  exact bmod_eq hw b.le_toInt b.toInt_lt

theorem sub_eq (hw : 0 < w) (h : a.toInt = b.toInt+n) : a-BitVec.ofNat w n = b := by
  have hsub : a.toInt-n = b.toInt := by lia
  rw [← BitVec.toInt_inj, toInt_sub_ofNat, hsub]
  exact bmod_eq hw b.le_toInt b.toInt_lt

theorem lt_of_eq (hw : 0 < w) (h : b.toInt = a.toInt+n) : n < 2^w := by
  have hpow := two_pow_eq hw
  have ha := a.le_toInt
  have hb := b.toInt_lt
  have hlt : (n:ℤ) < 2^w := by lia
  exact_mod_cast hlt

theorem forwardNarrow_eq (hw : 0 < w) : forwardNarrow a n = some b ↔ b.toInt = a.toInt+n := by
  constructor
  · intro h
    rw [forwardNarrow] at h
    by_cases hn : n < 2^w
    · have hpow := two_pow_eq hw
      have hlt : (n:ℤ) < 2^w := by exact_mod_cast hn
      have hhi := a.toInt_lt
      have hlo := a.le_toInt
      rw [if_pos hn] at h
      dsimp only at h
      by_cases hz : a.toInt+n < 2^(w-1)
      · have hwrap : (a+BitVec.ofNat w n).toInt = a.toInt+n := by
          rw [toInt_add_ofNat]
          exact bmod_eq hw (by lia) hz
        rw [if_pos (by rw [hwrap]; lia), Option.some_inj] at h
        rw [← h, hwrap]
      · have hwrap : (a+BitVec.ofNat w n).toInt = a.toInt+n-2^w := by
          rw [toInt_add_ofNat]
          exact bmod_above hw (by lia) (by lia)
        rw [if_neg (by rw [hwrap]; lia)] at h
        cases h
    · rw [if_neg hn] at h
      cases h
  · intro h
    rw [forwardNarrow, if_pos (lt_of_eq hw h)]
    dsimp only
    rw [add_eq hw h, if_pos (by lia)]

theorem backwardNarrow_eq (hw : 0 < w) : backwardNarrow a n = some b ↔ a.toInt = b.toInt+n := by
  constructor
  · intro h
    rw [backwardNarrow] at h
    by_cases hn : n < 2^w
    · have hpow := two_pow_eq hw
      have hlt : (n:ℤ) < 2^w := by exact_mod_cast hn
      have hhi := a.toInt_lt
      have hlo := a.le_toInt
      rw [if_pos hn] at h
      dsimp only at h
      by_cases hz : a.toInt-n < -2^(w-1)
      · have hwrap : (a-BitVec.ofNat w n).toInt = a.toInt-n+2^w := by
          rw [toInt_sub_ofNat]
          exact bmod_below hw (by lia) hz
        rw [if_neg (by rw [hwrap]; lia)] at h
        cases h
      · have hwrap : (a-BitVec.ofNat w n).toInt = a.toInt-n := by
          rw [toInt_sub_ofNat]
          exact bmod_eq hw (by lia) (by lia)
        rw [if_pos (by rw [hwrap]; lia), Option.some_inj] at h
        rw [← h, hwrap]
        lia
    · rw [if_neg hn] at h
      cases h
  · intro h
    rw [backwardNarrow, if_pos (lt_of_eq hw h)]
    dsimp only
    rw [sub_eq hw h, if_pos (by lia)]

theorem toInt_ofNat_eq (hw : 64 < w) (hn : n < 2^64) : (BitVec.ofNat w n).toInt = n := by
  have hle : (2:ℕ)^64 ≤ 2^(w-1) := Nat.pow_le_pow_right two_pos (by lia)
  have hlt : (n:ℤ) < 2^(w-1) := by exact_mod_cast hn.trans_le hle
  rw [BitVec.toInt_ofNat']
  exact bmod_eq (by lia) (by lia) hlt

theorem forwardWide_eq (hw : 64 < w) (hn : n < 2^64) :
    forwardWide a n = some b ↔ b.toInt = a.toInt+n := by
  have hlo := a.le_toInt
  have hhi := b.toInt_lt
  rw [forwardWide, checkedAdd, BitVec.saddOverflow, toInt_ofNat_eq hw hn]
  by_cases h : a.toInt+n ≥ 2^(w-1)
  · rw [decide_eq_true h, Bool.true_or, if_pos rfl]
    exact iff_of_false nofun (by lia)
  · rw [decide_eq_false h, Bool.false_or, decide_eq_false (by lia), if_neg Bool.false_ne_true,
      Option.some_inj, ← BitVec.toInt_inj, toInt_add_ofNat, bmod_eq (by lia) (by lia) (by lia),
      eq_comm]

theorem backwardWide_eq (hw : 64 < w) (hn : n < 2^64) :
    backwardWide a n = some b ↔ a.toInt = b.toInt+n := by
  have hlo := b.le_toInt
  have hhi := a.toInt_lt
  rw [backwardWide, checkedSub, BitVec.ssubOverflow, toInt_ofNat_eq hw hn]
  by_cases h : a.toInt-n < -2^(w-1)
  · rw [decide_eq_true h, Bool.or_true, if_pos rfl]
    exact iff_of_false nofun (by lia)
  · rw [decide_eq_false h, Bool.or_false, decide_eq_false (by lia), if_neg Bool.false_ne_true,
      Option.some_inj, ← BitVec.toInt_inj, toInt_sub_ofNat, bmod_eq (by lia) (by lia) (by lia)]
    lia

theorem rank_sub (h : a.toInt ≤ b.toInt) : ((rank b-rank a : ℕ) : ℤ) = b.toInt-a.toInt := by
  have ha := rank_eq a
  have hb := rank_eq b
  lia

theorem rank_le : rank a ≤ rank b ↔ a.toInt ≤ b.toInt := by
  have ha := rank_eq a
  have hb := rank_eq b
  lia

theorem stepsNarrow_eq (hw : 0 < w) (hw' : w ≤ 64) (a b : BitVec w) : stepsNarrow a b =
    if rank a ≤ rank b then tryUsize (rank b-rank a) else (0, none) := by
  rw [stepsNarrow]
  by_cases h : a.toInt ≤ b.toInt
  · have hsub := rank_sub h
    have hlt : rank b-rank a < 2^64 :=
      (lt_of_eq hw (a := a) (b := b) (by lia)).trans_le (Nat.pow_le_pow_right two_pos hw')
    have hdiff : b.signExtend 64-a.signExtend 64 = BitVec.ofNat 64 (rank b-rank a) := by
      have hadd : a.signExtend 64+BitVec.ofNat 64 (rank b-rank a) = b.signExtend 64 := by
        apply add_eq (by lia)
        rw [BitVec.toInt_signExtend_of_le hw', BitVec.toInt_signExtend_of_le hw']
        lia
      rw [← hadd, BitVec.add_comm, BitVec.add_sub_cancel]
    rw [if_pos h, if_pos (rank_le.mpr h), tryUsize_eq hlt, hdiff, toNat_ofNat_eq hlt]
  · rw [if_neg h, if_neg (mt rank_le.mp h)]

theorem stepsWide_eq (hw : 64 < w) (a b : BitVec w) : stepsWide a b =
    if rank a ≤ rank b then tryUsize (rank b-rank a) else (0, none) := by
  rw [stepsWide]
  by_cases h : a.toInt ≤ b.toInt
  · have hsub := rank_sub h
    have hlo := a.le_toInt
    have hhi := b.toInt_lt
    rw [if_pos h, if_pos (rank_le.mpr h), checkedSub, BitVec.ssubOverflow]
    by_cases hover : b.toInt-a.toInt ≥ 2^(w-1)
    · have hle : (2:ℕ)^64 ≤ 2^(w-1) := Nat.pow_le_pow_right two_pos (by lia)
      have hge : 2^(w-1) ≤ rank b-rank a := by
        have hge' : (2:ℤ)^(w-1) ≤ (rank b-rank a : ℕ) := by lia
        exact_mod_cast hge'
      rw [decide_eq_true hover, Bool.true_or, if_pos rfl, tryUsize,
        if_neg (Nat.not_lt_of_le (hle.trans hge))]
    · have hresult : (b-a).toInt = b.toInt-a.toInt := by
        rw [BitVec.toInt_sub]
        exact bmod_eq (by lia) (by lia) (by lia)
      rw [decide_eq_false hover, Bool.false_or, decide_eq_false (by lia),
        if_neg Bool.false_ne_true]
      dsimp only
      rw [hresult, if_pos (by lia), ← hsub, Int.toNat_natCast]
  · rw [if_neg h, if_neg (mt rank_le.mp h)]

theorem rank_eq_add : rank b = rank a+n ↔ b.toInt = a.toInt+n := by
  have ha := rank_eq a
  have hb := rank_eq b
  lia

theorem lawful (hw : 0 < w) (checks : Bool) {stepsBetween : BitVec w → BitVec w → ℕ × Option ℕ}
    {forward backward : BitVec w → ℕ → Option (BitVec w)}
    (hsteps : ∀ a b, stepsBetween a b =
      if rank a ≤ rank b then tryUsize (rank b-rank a) else (0, none))
    (hforward : ∀ a b n, n < 2^64 → (forward a n = some b ↔ b.toInt = a.toInt+n))
    (hbackward : ∀ a b n, n < 2^64 → (backward a n = some b ↔ a.toInt = b.toInt+n)) :
    (step checks stepsBetween forward backward).Lawful rank := by
  constructor
  · intro a b
    show a.toInt < b.toInt ↔ _
    rw [← not_le, ← not_le, rank_le]
  · intro a b h
    rw [← BitVec.toInt_inj]
    have ha := rank_eq a
    have hb := rank_eq b
    lia
  · intro a k hk
    have ha := rank_eq a
    have hhi := a.toInt_lt
    refine ⟨BitVec.ofInt w (k-2^(w-1)), ?_⟩
    rw [rank, BitVec.toInt_ofInt, bmod_eq hw (by lia) (by lia), sub_add_cancel, Int.toNat_natCast]
  · exact hsteps
  · exact fun a n hn => ⟨forward a n, rfl, fun b => (hforward a b n hn).trans rank_eq_add.symm⟩
  · exact fun a n hn => ⟨backward a n, rfl, fun b => (hbackward a b n hn).trans rank_eq_add.symm⟩
  · intro a b n hn h
    rw [← add_eq hw (rank_eq_add.mp h)]
    exact wrappingUnless_some ((hforward a b n hn).mpr (rank_eq_add.mp h))
  · intro a b n hn h
    rw [← sub_eq hw (rank_eq_add.mp h)]
    exact wrappingUnless_some ((hbackward a b n hn).mpr (rank_eq_add.mp h))
  · intro a b n _ h
    have heq := rank_eq_add.mp h
    have hb := b.toInt_lt
    show checkedAddUnsigned a (BitVec.ofNat w n) = some b
    rw [checkedAddUnsigned, toNat_ofNat_eq (lt_of_eq hw heq), if_neg (by lia), add_eq hw heq]
  · intro a b n _ h
    have heq := rank_eq_add.mp h
    have hb := b.le_toInt
    show checkedSubUnsigned a (BitVec.ofNat w n) = some b
    rw [checkedSubUnsigned, toNat_ofNat_eq (lt_of_eq hw heq), if_neg (by lia), sub_eq hw heq]

end Signed

end Integers

namespace CharStep

/-- The number of a scalar value. -/
def rank (c : Char) : ℕ := if c.toNat < 0xD800 then c.toNat else c.toNat-0x800

/-- The scalar value with a number. -/
def scalar (k : ℕ) : ℕ := if k < 0xD800 then k else k+0x800

theorem valid (c : Char) : c.toNat < 0xD800 ∨ 0xE000 ≤ c.toNat ∧ c.toNat ≤ 0x10FFFF := by
  have h := c.valid
  have heq : c.toNat = c.val.toNat := rfl
  rcases h with h | h
  · left
    exact h
  · right
    exact ⟨h.1, Nat.le_of_lt_succ h.2⟩

theorem rank_eq_iff {c : Char} {k : ℕ} : rank c = k ↔ c.toNat = scalar k := by
  rw [rank, scalar]
  rcases valid c with h | h
  · rw [if_pos h]
    split_ifs
    · rfl
    · lia
  · rw [if_neg (by lia)]
    split_ifs
    · lia
    · lia

theorem scalar_lt {k m : ℕ} : scalar k < scalar m ↔ k < m := by
  rw [scalar, scalar]
  split_ifs
  · rfl
  · lia
  · lia
  · lia

theorem toNat_eq (c : Char) : c.toNat = scalar (rank c) := rank_eq_iff.mp rfl

theorem rank_le (c : Char) : rank c ≤ 0x10F7FF := by
  rw [rank]
  have h := valid c
  split_ifs
  · lia
  · lia

theorem fromU32Unchecked_eq {res : BitVec 32} {k : ℕ} (hres : res.toNat = scalar k)
    (hk : k ≤ 0x10F7FF) : ∃ c, fromU32Unchecked res = some c ∧ rank c = k := by
  have hvalid : (UInt32.ofBitVec res).isValidChar := by
    rw [scalar] at hres
    split_ifs at hres with h
    · left
      show res.toNat < 0xd800
      lia
    · right
      constructor
      · show 0xdfff < res.toNat
        lia
      · show res.toNat < 0x110000
        lia
  refine ⟨⟨UInt32.ofBitVec res, hvalid⟩, dif_pos hvalid, ?_⟩
  exact rank_eq_iff.mpr hres

theorem lt_iff {x : BitVec 32} {y : ℕ} (hy : y < 2^32) : x < BitVec.ofNat 32 y ↔ x.toNat < y := by
  rw [BitVec.lt_def, toNat_ofNat_eq hy]

theorem le_iff {x : BitVec 32} {y : ℕ} (hy : y < 2^32) : BitVec.ofNat 32 y ≤ x ↔ y ≤ x.toNat := by
  rw [BitVec.le_def, toNat_ofNat_eq hy]

/-- The steps of `u32` that a method uses. -/
def Adds (add : BitVec 32 → ℕ → Option (BitVec 32)) : Prop :=
  ∀ a b n, n < 2^32 → (add a n = some b ↔ b.toNat = a.toNat+n)

def Subs (sub : BitVec 32 → ℕ → Option (BitVec 32)) : Prop :=
  ∀ a b n, n < 2^32 → (sub a n = some b ↔ a.toNat = b.toNat+n)

theorem skipUp_iff {add : BitVec 32 → ℕ → Option (BitVec 32)} (hadd : Adds add)
    {start mid res : BitVec 32} : skipUp add start mid = some res ↔ res.toNat =
      if start.toNat < 0xD800 ∧ 0xD800 ≤ mid.toNat then mid.toNat+0x800 else mid.toNat := by
  have hcond : start < 0xD800#32 ∧ 0xD800#32 ≤ mid ↔ start.toNat < 0xD800 ∧ 0xD800 ≤ mid.toNat :=
    and_congr (lt_iff (by norm_num)) (le_iff (by norm_num))
  rw [skipUp]
  by_cases h : start < 0xD800#32 ∧ 0xD800#32 ≤ mid
  · rw [if_pos h, if_pos (hcond.mp h), hadd _ _ _ (by norm_num)]
  · rw [if_neg h, if_neg (mt hcond.mpr h), Option.some_inj, BitVec.toNat_eq, eq_comm]

theorem skipDown_iff {sub : BitVec 32 → ℕ → Option (BitVec 32)} (hsub : Subs sub)
    {start mid res : BitVec 32} : skipDown sub start mid = some res ↔ mid.toNat =
      if 0xE000 ≤ start.toNat ∧ mid.toNat < 0xE000 then res.toNat+0x800 else res.toNat := by
  have hcond : start ≥ 0xE000#32 ∧ 0xE000#32 > mid ↔ 0xE000 ≤ start.toNat ∧ mid.toNat < 0xE000 :=
    and_congr (le_iff (by norm_num)) (lt_iff (by norm_num))
  rw [skipDown]
  by_cases h : start ≥ 0xE000#32 ∧ 0xE000#32 > mid
  · rw [if_pos h, if_pos (hcond.mp h), hsub _ _ _ (by norm_num)]
  · rw [if_neg h, if_neg (mt hcond.mpr h), Option.some_inj, BitVec.toNat_eq]

theorem scalar_add (k n : ℕ) : scalar (k+n) =
    if scalar k < 0xD800 ∧ 0xD800 ≤ scalar k+n then scalar k+n+0x800 else scalar k+n := by
  rw [scalar, scalar]
  split_ifs
  all_goals lia

theorem forward_eq {add : BitVec 32 → ℕ → Option (BitVec 32)} (hadd : Adds add) {c : Char} {n : ℕ}
    (hn : n < 2^32) {r : BitVec 32} :
    add (code c) n >>= skipUp add (code c) = some r ↔ r.toNat = scalar (rank c+n) := by
  have hc : (code c).toNat = scalar (rank c) := toNat_eq c
  have hres := r.isLt
  rw [Option.bind_eq_bind, Option.bind_eq_some_iff, scalar_add, ← hc]
  constructor
  · intro h
    obtain ⟨mid, hmid, hskip⟩ := h
    have hsum := (hadd _ _ _ hn).mp hmid
    rw [skipUp_iff hadd, hsum] at hskip
    exact hskip
  · intro h
    have hle : (code c).toNat+n ≤ r.toNat := by
      rw [h]
      split_ifs
      · lia
      · exact le_rfl
    have hsum := toNat_ofNat_eq (hle.trans_lt hres)
    refine ⟨BitVec.ofNat 32 ((code c).toNat+n), (hadd _ _ _ hn).mpr hsum, ?_⟩
    rw [skipUp_iff hadd, hsum]
    exact h

theorem backward_eq {sub : BitVec 32 → ℕ → Option (BitVec 32)} (hsub : Subs sub) {c : Char} {n : ℕ}
    (hn : n < 2^32) {r : BitVec 32} :
    sub (code c) n >>= skipDown sub (code c) = some r ↔
      ∃ k, rank c = k+n ∧ r.toNat = scalar k := by
  have hc : (code c).toNat = scalar (rank c) := toNat_eq c
  have hlt := (code c).isLt
  have hle : ∀ k, k ≤ scalar k := by
    intro k
    rw [scalar]
    split_ifs
    · exact le_rfl
    · lia
  rw [Option.bind_eq_bind, Option.bind_eq_some_iff]
  constructor
  · intro h
    obtain ⟨mid, hmid, hskip⟩ := h
    have hsum := (hsub _ _ _ hn).mp hmid
    rw [skipDown_iff hsub] at hskip
    have hn' : n ≤ rank c := by
      rw [scalar] at hc
      split_ifs at hc hskip
      all_goals lia
    refine ⟨rank c-n, (Nat.sub_add_cancel hn').symm, ?_⟩
    rw [scalar] at hc ⊢
    split_ifs at hc hskip ⊢
    all_goals lia
  · intro h
    obtain ⟨k, hk, hres⟩ := h
    have hmid : (code c).toNat-n < 2^32 := by lia
    have hsub' : n ≤ (code c).toNat := by
      rw [hc, hk]
      exact (Nat.le_add_left n k).trans (hle _)
    have hofNat := toNat_ofNat_eq hmid
    refine ⟨BitVec.ofNat 32 ((code c).toNat-n), ?_, ?_⟩
    · rw [hsub _ _ _ hn, hofNat, Nat.sub_add_cancel hsub']
    · rw [skipDown_iff hsub, hofNat]
      rw [hk, scalar] at hc
      rw [scalar] at hres
      split_ifs at hc hres ⊢
      all_goals lia

theorem adds_u32 : Adds addU32 := fun _ _ _ _ => Unsigned.narrowAdd_eq

theorem subs_u32 : Subs subU32 := fun _ _ _ _ => Unsigned.narrowSub_eq

theorem adds_unchecked : Adds fun a n => Unsigned.checkedAdd a (BitVec.ofNat 32 n) :=
  fun _ _ _ hn => Unsigned.checkedAdd_eq hn

theorem subs_unchecked : Subs fun a n => Unsigned.checkedSub a (BitVec.ofNat 32 n) :=
  fun _ _ _ hn => Unsigned.checkedSub_eq hn

theorem scalar_le {k : ℕ} : scalar k ≤ 0x10FFFF ↔ k ≤ 0x10F7FF := by
  rw [scalar]
  split_ifs
  all_goals lia

theorem injective : Function.Injective rank := by
  intro a b h
  apply Char.ext
  apply UInt32.toNat_inj.mp
  exact (toNat_eq a).trans ((congrArg scalar h).trans (toNat_eq b).symm)

theorem forwardChecked_eq (a : Char) (n : ℕ) :
    ∃ r, forwardChecked a n = some r ∧ ∀ b, r = some b ↔ rank b = rank a+n := by
  rw [forwardChecked]
  have hcode : ∀ {res : BitVec 32}, addU32 (code a) n >>= skipUp addU32 (code a) = some res ↔
      n < 2^32 ∧ res.toNat = scalar (rank a+n) := by
    intro res
    by_cases hn : n < 2^32
    · rw [forward_eq adds_u32 hn, and_iff_right hn]
    · have hnone : addU32 (code a) n = none := if_neg hn
      rw [hnone]
      exact iff_of_false nofun fun h => hn h.1
  rcases hres : addU32 (code a) n >>= skipUp addU32 (code a) with _ | res
  · refine ⟨none, rfl, fun b => iff_of_false nofun fun hb => ?_⟩
    have hb' := rank_le b
    have hsome := hcode.mpr ⟨by lia, (toNat_eq b).trans (congrArg scalar hb)⟩
    rw [hres] at hsome
    cases hsome
  · obtain ⟨-, hnat⟩ := hcode.mp hres
    have hle : res ≤ 0x10FFFF#32 ↔ rank a+n ≤ 0x10F7FF := by
      rw [BitVec.le_def, hnat]
      exact scalar_le
    dsimp only
    by_cases h : rank a+n ≤ 0x10F7FF
    · obtain ⟨c, hc, hrank⟩ := fromU32Unchecked_eq hnat h
      refine ⟨some c, ?_, fun b => ?_⟩
      · rw [if_pos (hle.mpr h), hc]
        rfl
      · rw [Option.some_inj, ← injective.eq_iff, hrank, eq_comm]
    · refine ⟨none, by rw [if_neg (mt hle.mp h)], fun b => iff_of_false nofun fun hb => ?_⟩
      have hb' := rank_le b
      lia

theorem backwardChecked_eq (a : Char) (n : ℕ) :
    ∃ r, backwardChecked a n = some r ∧ ∀ b, r = some b ↔ rank a = rank b+n := by
  rw [backwardChecked]
  have ha := rank_le a
  have hcode : ∀ {res : BitVec 32}, subU32 (code a) n >>= skipDown subU32 (code a) = some res ↔
      ∃ k, rank a = k+n ∧ res.toNat = scalar k := by
    intro res
    by_cases hn : n < 2^32
    · exact backward_eq subs_u32 hn
    · have hnone : subU32 (code a) n = none := if_neg hn
      rw [hnone]
      refine iff_of_false nofun fun h => ?_
      obtain ⟨k, hk, -⟩ := h
      lia
  rcases hres : subU32 (code a) n >>= skipDown subU32 (code a) with _ | res
  · refine ⟨none, rfl, fun b => iff_of_false nofun fun hb => ?_⟩
    have hsome := hcode.mpr ⟨rank b, hb, toNat_eq b⟩
    rw [hres] at hsome
    cases hsome
  · obtain ⟨k, hk, hnat⟩ := hcode.mp hres
    obtain ⟨c, hc, hrank⟩ := fromU32Unchecked_eq hnat (by lia)
    dsimp only
    rw [hc]
    refine ⟨some c, rfl, fun b => ?_⟩
    rw [Option.some_inj, ← injective.eq_iff]
    lia

theorem code_lt {a b : Char} : (code a).toNat < (code b).toNat ↔ rank a < rank b := by
  have hlt := scalar_lt (k := rank a) (m := rank b)
  rw [← toNat_eq, ← toNat_eq] at hlt
  exact hlt

theorem fromU32Unchecked_code (c : Char) : fromU32Unchecked (code c) = some c := dif_pos c.valid

theorem stepsBetween_eq (a b : Char) : stepsBetween a b =
    if rank a ≤ rank b then tryUsize (rank b-rank a) else (0, none) := by
  have hrank : code a ≤ code b ↔ rank a ≤ rank b := by
    rw [BitVec.le_def, ← not_lt, code_lt, not_lt]
  rw [stepsBetween]
  dsimp only
  by_cases h : rank a ≤ rank b
  · have hle := hrank.mpr h
    have ha : (code a).toNat = scalar (rank a) := toNat_eq a
    have hb : (code b).toNat = scalar (rank b) := toNat_eq b
    have hcount : (code b-code a).toNat = scalar (rank b)-scalar (rank a) := by
      rw [BitVec.toNat_sub_of_le hle, ha, hb]
    have hcond : code a < 0xD800#32 ∧ 0xE000#32 ≤ code b ↔
        scalar (rank a) < 0xD800 ∧ 0xE000 ≤ scalar (rank b) := by
      rw [← ha, ← hb]
      exact and_congr (lt_iff (by norm_num)) (le_iff (by norm_num))
    rw [if_pos h, if_pos hle]
    by_cases hgap : scalar (rank a) < 0xD800 ∧ 0xE000 ≤ scalar (rank b)
    · have hge : 0x800#32 ≤ code b-code a := by
        rw [le_iff (by norm_num), hcount]
        lia
      have hsteps : scalar (rank b)-scalar (rank a)-0x800 = rank b-rank a := by
        rw [scalar, scalar] at hgap ⊢
        split_ifs at hgap ⊢
        all_goals lia
      rw [if_pos (hcond.mpr hgap), BitVec.toNat_sub_of_le hge, hcount, toNat_ofNat_eq (by norm_num),
        hsteps]
    · have hsteps : scalar (rank b)-scalar (rank a) = rank b-rank a := by
        rw [scalar, scalar] at hgap ⊢
        split_ifs at hgap ⊢
        all_goals lia
      rw [if_neg (mt hcond.mp hgap), hcount, hsteps]
  · rw [if_neg h, if_neg (mt hrank.mp h)]

theorem lawful : CharStep.step.Lawful rank := by
  constructor
  · intro a b
    show ((code a).toNat : ℤ) < (code b).toNat ↔ _
    rw [Int.ofNat_lt, code_lt]
  · exact injective
  · intro a k hk
    have hk' := hk.trans (rank_le a)
    have hlt : scalar k < 2^32 := (scalar_le.mpr hk').trans_lt (by norm_num)
    obtain ⟨c, -, hc⟩ := fromU32Unchecked_eq (toNat_ofNat_eq hlt) hk'
    exact ⟨c, hc⟩
  · exact stepsBetween_eq
  · exact fun a n _ => forwardChecked_eq a n
  · exact fun a n _ => backwardChecked_eq a n
  · intro a b n _ h
    obtain ⟨r, hr, hiff⟩ := forwardChecked_eq a n
    show (forwardChecked a n).join = some b
    rw [hr, (hiff b).mpr h]
    rfl
  · intro a b n _ h
    obtain ⟨r, hr, hiff⟩ := backwardChecked_eq a n
    show (backwardChecked a n).join = some b
    rw [hr, (hiff b).mpr h]
    rfl
  · intro a b n _ h
    have hb := rank_le b
    have hcode := (forward_eq adds_unchecked (c := a) (n := n) (r := code b) (by lia)).mpr
      ((toNat_eq b).trans (congrArg scalar h))
    obtain ⟨mid, hmid, hskip⟩ := Option.bind_eq_some_iff.mp hcode
    show forwardUnchecked a n = some b
    simp only [forwardUnchecked, Option.bind_eq_bind, hmid, Option.bind_some, hskip]
    exact fromU32Unchecked_code b
  · intro a b n _ h
    have ha := rank_le a
    have hcode := (backward_eq subs_unchecked (c := a) (n := n) (r := code b) (by lia)).mpr
      ⟨rank b, h, toNat_eq b⟩
    obtain ⟨mid, hmid, hskip⟩ := Option.bind_eq_some_iff.mp hcode
    show backwardUnchecked a n = some b
    simp only [backwardUnchecked, Option.bind_eq_bind, hmid, Option.bind_some, hskip]
    exact fromU32Unchecked_code b

end CharStep

section Lawful

variable {w : ℕ} (checks : Bool)

theorem unsignedNarrow_lawful (hw : w ≤ 64) : (unsignedNarrow w checks).Lawful BitVec.toNat :=
  Unsigned.lawful checks (Unsigned.stepsNarrow_eq hw) (fun _ _ _ _ => Unsigned.narrowAdd_eq)
    fun _ _ _ _ => Unsigned.narrowSub_eq

theorem unsignedWide_lawful (hw : 64 ≤ w) : (unsignedWide w checks).Lawful BitVec.toNat := by
  have hle : (2:ℕ)^64 ≤ 2^w := Nat.pow_le_pow_right two_pos hw
  exact Unsigned.lawful checks Unsigned.stepsWide_eq
    (fun _ _ _ hn => Unsigned.checkedAdd_eq (hn.trans_le hle))
    fun _ _ _ hn => Unsigned.checkedSub_eq (hn.trans_le hle)

theorem signedNarrow_lawful (hw : 0 < w) (hw' : w ≤ 64) :
    (signedNarrow w checks).Lawful Signed.rank :=
  Signed.lawful hw checks (Signed.stepsNarrow_eq hw hw') (fun _ _ _ _ => Signed.forwardNarrow_eq hw)
    fun _ _ _ _ => Signed.backwardNarrow_eq hw

theorem signedWide_lawful (hw : 64 < w) : (signedWide w checks).Lawful Signed.rank :=
  Signed.lawful (by lia) checks (Signed.stepsWide_eq hw) (fun _ _ _ => Signed.forwardWide_eq hw)
    fun _ _ _ => Signed.backwardWide_eq hw

end Lawful

namespace Ty

/-- The number of a value of a type. -/
def rank : (t : Ty) → t.Value → ℕ
  | u8 | u16 | u32 | u64 | u128 | usize => BitVec.toNat
  | i8 | i16 | i32 | i64 | i128 | isize => Signed.rank
  | char => CharStep.rank

theorem lawful (checks : Bool) (t : Ty) : (t.step checks).Lawful t.rank := by
  cases t with
  | u8 => exact unsignedNarrow_lawful checks (by norm_num)
  | u16 => exact unsignedNarrow_lawful checks (by norm_num)
  | u32 => exact unsignedNarrow_lawful checks (by norm_num)
  | u64 => exact unsignedNarrow_lawful checks le_rfl
  | usize => exact unsignedNarrow_lawful checks le_rfl
  | u128 => exact unsignedWide_lawful checks (by norm_num)
  | i8 => exact signedNarrow_lawful checks (by norm_num) (by norm_num)
  | i16 => exact signedNarrow_lawful checks (by norm_num) (by norm_num)
  | i32 => exact signedNarrow_lawful checks (by norm_num) (by norm_num)
  | i64 => exact signedNarrow_lawful checks (by norm_num) le_rfl
  | isize => exact signedNarrow_lawful checks (by norm_num) le_rfl
  | i128 => exact signedWide_lawful checks (by norm_num)
  | char => exact CharStep.lawful

end Ty

end RustStd.Ranges
