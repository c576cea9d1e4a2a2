import RustStd.Fmt.Num
import RustStd.Lib.SquareRoot

/-!
# Integer square roots

`core::num::int_sqrt`: a table for eight bits, and stages that each double the
width of a root with its remainder. `none` is a panic, undefined behaviour or, if
asked for, a shift or a cast that loses bits.
-/

set_option autoImplicit false

namespace RustStd.IntSqrt
open RustStd.Checked RustStd.SquareRoot
open RustStd.IntFmt (Width assertUnchecked)

/-- What a shift or a cast does with the bits that have no place. -/
inductive Excess
  | dropped
  | refused
  deriving DecidableEq, Repr

def Excess.fit (e : Excess) (w x : ℕ) : Option ℕ :=
  match e with
  | dropped => some (x%2^w)
  | refused => unsigned w x

def shl (e : Excess) (w x k : ℕ) : Option ℕ := if k < w then e.fit w (x <<< k) else none

/-! ## The table -/

def tableLoop : ℕ → ℕ → ℕ → Option (List (ℕ × ℕ))
  | 0, _, _ => some []
  | rounds+1, n, isqrtN => do
    let rem ← sub n (isqrtN^2)
    let entry := (isqrtN%2^8, rem%2^8)
    let n := n+1
    let rest ← tableLoop rounds n (if n = (isqrtN+1)^2 then isqrtN+1 else isqrtN)
    return entry :: rest

def u8IsqrtWithRemainder : Option (List (ℕ × ℕ)) := tableLoop 256 0 0

def tableEntry (n : ℕ) : Option (ℕ × ℕ) := u8IsqrtWithRemainder.bind (·[n]?)

def u8 (n : ℕ) : Option ℕ := (tableEntry n).map (·.1)

/-! ## The stages -/

def firstStage (originalBits n : ℕ) : Option (ℕ × ℕ) := do
  assertUnchecked (n ≠ 0)
  let nShift := originalBits-8
  let n := n >>> nShift
  let (s, r) ← tableEntry n
  assertUnchecked (s ≠ 0)
  return (s, r)

/-- The numerator and the denominator of a stage, of the lower half of its number. -/
def fraction (e : Excess) (w lo s r : ℕ) : Option (ℕ × ℕ) := do
  let quarterBits := w >>> 2
  let high ← shl e w r quarterBits
  let numerator := high ||| lo >>> quarterBits
  let denominator ← shl e w s 1
  if denominator = 0 then none else return (numerator, denominator)

def candidate (e : Excess) (w s q : ℕ) : Option ℕ := do
  let high ← shl e (w >>> 1) s (w >>> 2)
  unsigned w (high+q)

/-- What a middle stage does when its subtraction overflows. -/
def correct (w s r : ℕ) : Option (ℕ × ℕ) := do
  let twice ← unsigned w (2*s)
  let correction ← sub twice 1
  let r := (r+correction)%2^w
  let s ← sub s 1
  return (s, r)

def middleStage (e : Excess) (originalBits w n s r : ℕ) : Option (ℕ × ℕ) := do
  assertUnchecked (s ≠ 0)
  let nShift := originalBits-w
  let n ← e.fit w (n >>> nShift)
  let halfBits := w >>> 1
  let quarterBits := w >>> 2
  let lo := n &&& 2^halfBits-1
  let (numerator, denominator) ← fraction e w lo s r
  let q := numerator/denominator
  let u := numerator%denominator
  let s ← candidate e w s q
  let high ← shl e w u quarterBits
  let minuend := high ||| (lo &&& 2^quarterBits-1)
  let square ← unsigned w (q*q)
  let r := (minuend+2^w-square)%2^w
  let overflow := minuend < square
  let (s, r) ← if overflow then correct w s r else some (s, r)
  assertUnchecked (s ≠ 0)
  return (s, r)

def lastStage (e : Excess) (w n s r : ℕ) : Option ℕ := do
  assertUnchecked (s ≠ 0)
  let halfBits := w >>> 1
  let lo := n &&& 2^halfBits-1
  let (numerator, denominator) ← fraction e w lo s r
  let q := numerator/denominator
  let s ← candidate e w s q
  let sSquared := s*s%2^w
  let overflow := 2^w ≤ s*s
  if overflow ∨ sSquared > n then sub s 1 else return s

def middleStages (e : Excess) (originalBits n : ℕ) : List ℕ → ℕ × ℕ → Option (ℕ × ℕ)
  | [], sr => some sr
  | w :: widths, (s, r) => do
    let sr ← middleStage e originalBits w n s r
    middleStages e originalBits n widths sr

def middleWidths : Width → List ℕ
  | .w128 => [16, 32, 64]
  | .w64 => [16, 32]
  | .w32 => [16]
  | _ => []

def stages (e : Excess) (W : Width) (n : ℕ) : Option ℕ := do
  let sr ← firstStage W.bits n
  let (s, r) ← middleStages e W.bits n (middleWidths W) sr
  lastStage e W.bits n s r

/-! ## The types -/

def leadingZeros (w n : ℕ) : ℕ := w-Nat.size n

def normalizationShift (w n : ℕ) : ℕ := leadingZeros w n &&& 2^32-1-1

def unsignedFn (e : Excess) (W : Width) (half : ℕ → Option ℕ) (n : ℕ) : Option ℕ :=
  if n ≤ 2^(W.bits/2)-1 then (e.fit (W.bits/2) n).bind half
  else do
    let normalizationShift := normalizationShift W.bits n
    let n ← shl e W.bits n normalizationShift
    let s ← stages e W n
    let denormalizationShift := normalizationShift >>> 1
    return s >>> denormalizationShift

def u16 (e : Excess) : ℕ → Option ℕ := unsignedFn e .w16 u8

def u32 (e : Excess) : ℕ → Option ℕ := unsignedFn e .w32 (u16 e)

def u64 (e : Excess) : ℕ → Option ℕ := unsignedFn e .w64 (u32 e)

def u128 (e : Excess) : ℕ → Option ℕ := unsignedFn e .w128 (u64 e)

def intSqrt (e : Excess) : Width → ℕ → Option ℕ
  | .w8 => u8
  | .w16 => u16 e
  | .w32 => u32 e
  | .w64 => u64 e
  | .w128 => u128 e

/-- `isqrt` of the unsigned types, with what the optimizer is told. -/
def isqrt (e : Excess) (W : Width) (n : ℕ) : Option ℕ := do
  let result ← intSqrt e W n
  let maxResult ← intSqrt e W (2^W.bits-1)
  assertUnchecked (result ≤ maxResult)
  return result

def signedFn (e : Excess) (W : Width) (n : ℤ) : Option ℤ := do
  assertUnchecked (n ≥ 0)
  let s ← intSqrt e W (n%2^W.bits).toNat
  return Int.bmod s (2^W.bits)

def checkedIsqrt (e : Excess) (W : Width) (n : ℤ) : Option (Option ℤ) :=
  if n < 0 then some none
  else do
    let result ← signedFn e W n
    let maxResult ← signedFn e W (2^(W.bits-1)-1)
    assertUnchecked (result ≥ 0)
    assertUnchecked (result ≤ maxResult)
    return some result

/-- `isqrt` of the signed types, which panics for a negative number. -/
def isqrtSigned (e : Excess) (W : Width) (n : ℤ) : Option ℤ := do
  match ← checkedIsqrt e W n with
  | some sqrt => return sqrt
  | none => none

/-! ## Nothing is lost -/

section Bits

variable {e : Excess} {w x k : ℕ}

theorem fit_eq (h : x < 2^w) : e.fit w x = some x := by
  cases e with
  | dropped => rw [Excess.fit, Nat.mod_eq_of_lt h]
  | refused => exact if_pos h

theorem shl_eq (hk : k < w) (h : x*2^k < 2^w) : shl e w x k = some (x*2^k) := by
  rw [shl, if_pos hk, Nat.shiftLeft_eq, fit_eq h]

theorem assertUnchecked_eq {c : Prop} [Decidable c] (h : c) : assertUnchecked c = some () := if_pos h

theorem mul_or {a b : ℕ} (h : b < 2^k) : a*2^k ||| b = a*2^k+b := by
  rw [mul_comm, ← Nat.two_pow_add_eq_or_of_lt h]

end Bits

theorem tableEntry_formula : ∀ n < 256, (match tableEntry n with
    | some (s, r) => decide (s*s+r = n ∧ r ≤ 2*s)
    | none => false) = true := by
  decide +kernel

theorem tableEntry_spec {n : ℕ} (h : n < 256) : ∃ s r, tableEntry n = some (s, r) ∧ Root n s r := by
  have hentry := tableEntry_formula n h
  cases heq : tableEntry n with
  | none =>
    rw [heq] at hentry
    cases hentry
  | some sr =>
    obtain ⟨s, r⟩ := sr
    rw [heq] at hentry
    exact ⟨s, r, rfl, (of_decide_eq_true hentry : s*s+r = n ∧ r ≤ 2*s)⟩

/-! ## The stages -/

section Stage

variable {e : Excess} {Q lo s r q : ℕ} (hQ : 0 < Q) (hs0 : 0 < s) (hs : s < 2^Q)
include hQ hs

include hs0 in
theorem fraction_eq (hr : r ≤ 2*s) (hlo : lo < 2^(2*Q)) :
    fraction e (4*Q) lo s r = some (r*2^Q+lo/2^Q, 2*s) := by
  have hquarter : (4*Q) >>> 2 = Q := by
    rw [Nat.shiftRight_eq_div_pow]
    lia
  have hpow : 2^(4*Q) = 2^Q*2^Q*2^(2*Q) := by
    rw [← pow_add, ← pow_add]
    congr 1
    lia
  have h2 : 2 ≤ 2^(2*Q) := by
    calc 2 = 2^1 := rfl
      _ ≤ 2^(2*Q) := Nat.pow_le_pow_right (by norm_num) (by lia)
  have hlt : s*2^Q < 2^Q*2^Q := Nat.mul_lt_mul_of_pos_right hs (by positivity)
  have hnum : r*2^Q < 2^(4*Q) := by
    calc r*2^Q ≤ 2*s*2^Q := Nat.mul_le_mul_right _ hr
      _ = s*2^Q*2 := by ring
      _ < 2^Q*2^Q*2 := Nat.mul_lt_mul_of_pos_right hlt (by norm_num)
      _ ≤ 2^Q*2^Q*2^(2*Q) := Nat.mul_le_mul_left _ h2
      _ = 2^(4*Q) := hpow.symm
  have hden : s*2^1 < 2^(4*Q) := by
    calc s*2^1 < 2^Q*2^1 := Nat.mul_lt_mul_of_pos_right hs (by norm_num)
      _ = 2^(Q+1) := (pow_add _ _ _).symm
      _ ≤ 2^(4*Q) := Nat.pow_le_pow_right (by norm_num) (by lia)
  have hhigh : lo/2^Q < 2^Q := by
    apply Nat.div_lt_of_lt_mul
    rwa [← pow_add, ← two_mul]
  simp only [fraction, hquarter, shl_eq (show Q < 4*Q by lia) hnum,
    shl_eq (show 1 < 4*Q by lia) hden, Option.bind_eq_bind, Option.bind_some,
    Nat.shiftRight_eq_div_pow, mul_or hhigh]
  rw [if_neg (by lia)]
  congr 2
  lia

theorem candidate_eq (hq : q ≤ 2^Q) : candidate e (4*Q) s q = some (s*2^Q+q) := by
  have hquarter : (4*Q) >>> 2 = Q := by
    rw [Nat.shiftRight_eq_div_pow]
    lia
  have hhalf : (4*Q) >>> 1 = 2*Q := by
    rw [Nat.shiftRight_eq_div_pow]
    lia
  have hlt : (s+1)*2^Q ≤ 2^Q*2^Q := Nat.mul_le_mul_right _ hs
  have hpow : 2^(2*Q) = 2^Q*2^Q := by rw [two_mul, pow_add]
  have hpos : 0 < 2^Q := by positivity
  have hwide : 2^(2*Q) < 2^(4*Q) := Nat.pow_lt_pow_right (by norm_num) (by lia)
  have hsplit : (s+1)*2^Q = s*2^Q+2^Q := by ring
  simp only [candidate, hquarter, hhalf]
  rw [shl_eq (show Q < 2*Q by lia) (by lia), Option.bind_eq_bind, Option.bind_some]
  exact if_pos (by lia)

end Stage

theorem wrap_sub {M m x : ℕ} (hle : x ≤ m) (hm : m < M) : (m+M-x)%M = m-x := by
  rw [show m+M-x = m-x+M by lia, Nat.add_mod_right, Nat.mod_eq_of_lt (by lia)]

theorem wrap_correct {M m x c : ℕ} (hlt : m < x) (hx : x ≤ M) (hle : x ≤ m+c) (hM : m+c-x < M) :
    ((m+M-x)%M+c)%M = m+c-x := by
  rw [Nat.mod_eq_of_lt (show m+M-x < M by lia), show m+M-x+c = m+c-x+M by lia,
    Nat.add_mod_right, Nat.mod_eq_of_lt hM]

theorem correct_eq {Q S r : ℕ} (hQ : 0 < Q) (hS : 0 < S) (hle : S ≤ 2^(2*Q)) :
    correct (4*Q) S r = some (S-1, (r+(2*S-1))%2^(4*Q)) := by
  have hlt : 2*S < 2^(4*Q) := by
    calc 2*S ≤ 2^1*2^(2*Q) := Nat.mul_le_mul_left 2 hle
      _ = 2^(1+2*Q) := (pow_add _ _ _).symm
      _ < 2^(4*Q) := Nat.pow_lt_pow_right (by norm_num) (by lia)
  simp only [correct, unsigned, if_pos hlt, sub_eq (show 1 ≤ 2*S by lia), sub_eq hS,
    Option.bind_eq_bind, Option.bind_some]
  rfl

section MiddleStage

variable {e : Excess} {bits Q n s r : ℕ} (hQ : 0 < Q) (hbits : 4*Q ≤ bits) (hn : n < 2^bits)
  (hnorm : 2^(bits-2) ≤ n) (hroot : Root (n/2^(bits-2*Q)) s r)

include hbits in
theorem top_eq : n/2^(bits-2*Q)*(2^Q*2^Q)+n/2^(bits-4*Q)%2^(2*Q) = n/2^(bits-4*Q) := by
  have hsplit : 2^(bits-2*Q) = 2^(bits-4*Q)*2^(2*Q) := by
    rw [← pow_add]
    congr 1
    lia
  rw [hsplit, ← Nat.div_div_eq_div_mul, ← pow_add, ← two_mul]
  exact Nat.div_add_mod' _ _

include hbits hn hroot in
theorem root_lt : s < 2^Q := by
  apply hroot.lt_pow
  apply Nat.div_lt_of_lt_mul
  rw [← pow_add]
  convert hn using 2
  lia

include hQ hbits hnorm hroot in
theorem pow_le_root : 2^Q ≤ 2*s := by
  obtain ⟨k, rfl⟩ := Nat.exists_eq_add_of_le' hQ
  have hle : 2^k ≤ s := by
    apply hroot.pow_le
    rw [Nat.le_div_iff_mul_le (by positivity), ← pow_add]
    convert hnorm using 2
    lia
  rw [pow_succ]
  lia

include hQ hbits hn hnorm hroot

theorem stage_candidate {lo q u : ℕ} (hlo : lo < 2^(2*Q)) (hq : (r*2^Q+lo/2^Q)/(2*s) = q)
    (hu : (r*2^Q+lo/2^Q)%(2*s) = u) :
    fraction e (4*Q) lo s r = some (r*2^Q+lo/2^Q, 2*s) ∧
      candidate e (4*Q) s q = some (s*2^Q+q) ∧ shl e (4*Q) u Q = some (u*2^Q) ∧
      q ≤ 2^Q ∧ s*2^Q+q ≤ 2^(2*Q) ∧ u*2^Q+2^Q ≤ 2*2^(2*Q) := by
  have hs := root_lt hbits hn hroot
  have hs' := pow_le_root hQ hbits hnorm hroot
  have hpos : 0 < 2^Q := by positivity
  have hpow : 2^(2*Q) = 2^Q*2^Q := by rw [two_mul, pow_add]
  have hqB : q ≤ 2^Q := quotient_le hroot hs' (by rwa [← hpow]) hq
  have hu' : u+1 ≤ 2*s := by
    rw [← hu]
    exact Nat.mod_lt _ (by lia)
  have husum : u*2^Q+2^Q ≤ 2*2^(2*Q) := by
    calc u*2^Q+2^Q = (u+1)*2^Q := by ring
      _ ≤ 2*2^Q*2^Q := Nat.mul_le_mul_right _ (by lia)
      _ = 2*2^(2*Q) := by rw [hpow]; ring
  have hwide : 2*2^(2*Q) < 2^(4*Q) := by
    rw [← pow_succ']
    exact Nat.pow_lt_pow_right (by norm_num) (by lia)
  have hsum : s*2^Q+q ≤ 2^(2*Q) := by
    calc s*2^Q+q ≤ s*2^Q+2^Q := Nat.add_le_add_left hqB _
      _ = (s+1)*2^Q := by ring
      _ ≤ 2^Q*2^Q := Nat.mul_le_mul_right _ hs
      _ = 2^(2*Q) := hpow.symm
  exact ⟨fraction_eq hQ (by lia) hs hroot.2 hlo, candidate_eq hQ hs hqB,
    shl_eq (by lia) (by lia), hqB, hsum, husum⟩

/-- After a middle stage, the pair is the root of twice as many bits. -/
theorem middleStage_spec : ∃ s' r', middleStage e bits (4*Q) n s r = some (s', r') ∧
    Root (n/2^(bits-4*Q)) s' r' := by
  have hs' := pow_le_root hQ hbits hnorm hroot
  have hpos : 0 < 2^Q := by positivity
  have hpow : 2^(2*Q) = 2^Q*2^Q := by rw [two_mul, pow_add]
  have htop : n/2^(bits-4*Q) < 2^(4*Q) := by
    apply Nat.div_lt_of_lt_mul
    rw [← pow_add]
    convert hn using 2
    lia
  have hquarter : (4*Q) >>> 2 = Q := by
    rw [Nat.shiftRight_eq_div_pow]
    lia
  have hhalf : (4*Q) >>> 1 = 2*Q := by
    rw [Nat.shiftRight_eq_div_pow]
    lia
  have heq := top_eq (n := n) hbits
  have hlo : n/2^(bits-4*Q)%2^(2*Q) < 2^(2*Q) := Nat.mod_lt _ (by positivity)
  generalize hgen : n/2^(bits-4*Q)%2^(2*Q) = lo at heq hlo
  generalize hq : (r*2^Q+lo/2^Q)/(2*s) = q
  generalize hu : (r*2^Q+lo/2^Q)%(2*s) = u
  obtain ⟨hfraction, hcandidate, hshift, hqB, hS, husum⟩ :=
    stage_candidate (e := e) hQ hbits hn hnorm hroot hlo hq hu
  have hlo' : lo < 2^Q*2^Q := by rwa [← hpow]
  have hmod : lo%2^Q < 2^Q := Nat.mod_lt _ hpos
  have hwide : 2*2^(2*Q) < 2^(4*Q) := by
    rw [← pow_succ']
    exact Nat.pow_lt_pow_right (by norm_num) (by lia)
  have hsquare : q*q ≤ 2^(2*Q) := by
    rw [hpow]
    exact Nat.mul_le_mul hqB hqB
  have hS0 : 2 ≤ s*2^Q+q := by
    calc 2 ≤ 1*2^Q := by
          rw [one_mul]
          exact Nat.le_self_pow (by lia) 2
      _ ≤ s*2^Q := Nat.mul_le_mul_right _ (by lia)
      _ ≤ s*2^Q+q := Nat.le_add_right _ _
  have hpred := candidate_pred (u := u) hroot hs' hlo' hq
  rw [middleStage]
  simp only [assertUnchecked_eq (show s ≠ 0 by lia), Nat.shiftRight_eq_div_pow, fit_eq htop,
    hquarter, hhalf, Nat.and_two_pow_sub_one_eq_mod, hgen,
    hfraction, hq, hu, hcandidate, hshift, mul_or hmod, unsigned,
    if_pos (show q*q < 2^(4*Q) by lia), Option.bind_eq_bind, Option.bind_some]
  by_cases hover : u*2^Q+lo%2^Q < q*q
  · have hroot' := root_corrected hroot hs' hlo' hq hu hover
    have hwrap := wrap_correct (M := 2^(4*Q)) (c := 2*(s*2^Q+q)-1) hover (by lia) (by lia)
      (by lia)
    rw [if_pos hover, correct_eq hQ (by lia) hS, hwrap, Option.bind_some,
      assertUnchecked_eq (show s*2^Q+q-1 ≠ 0 by lia)]
    exact ⟨_, _, rfl, by rwa [← heq]⟩
  · have hroot' := root_candidate hroot hs' hlo' hq hu (by lia)
    have hwrap := wrap_sub (M := 2^(4*Q)) (show q*q ≤ u*2^Q+lo%2^Q by lia) (by lia)
    rw [if_neg hover, hwrap]
    simp only [assertUnchecked_eq (show s*2^Q+q ≠ 0 by lia), Option.bind_some]
    exact ⟨_, _, rfl, by rwa [← heq]⟩

end MiddleStage

theorem lastStage_spec {e : Excess} {Q n s r : ℕ} (hQ : 0 < Q) (hn : n < 2^(4*Q))
    (hnorm : 2^(4*Q-2) ≤ n) (hroot : Root (n/2^(2*Q)) s r) :
    ∃ s', lastStage e (4*Q) n s r = some s' ∧ s'*s' ≤ n ∧ n < (s'+1)*(s'+1) := by
  have hroot' : Root (n/2^(4*Q-2*Q)) s r := by
    convert hroot using 3
    lia
  have hs' := pow_le_root hQ le_rfl hnorm hroot'
  have hpos : 0 < 2^Q := by positivity
  have hpow : 2^(2*Q) = 2^Q*2^Q := by rw [two_mul, pow_add]
  have hhalf : (4*Q) >>> 1 = 2*Q := by
    rw [Nat.shiftRight_eq_div_pow]
    lia
  have heq : n/2^(2*Q)*(2^Q*2^Q)+n%2^(2*Q) = n := by
    rw [← hpow]
    exact Nat.div_add_mod' _ _
  have hlo : n%2^(2*Q) < 2^(2*Q) := Nat.mod_lt _ (by positivity)
  generalize hgen : n%2^(2*Q) = lo at heq hlo
  generalize hq : (r*2^Q+lo/2^Q)/(2*s) = q
  generalize hu : (r*2^Q+lo/2^Q)%(2*s) = u
  obtain ⟨hfraction, hcandidate, -, -, -, -⟩ :=
    stage_candidate (e := e) hQ le_rfl hn hnorm hroot' hlo hq hu
  have hlo' : lo < 2^Q*2^Q := by rwa [← hpow]
  have hsq := candidate_sq hroot hq hu
  rw [heq] at hsq
  rw [lastStage]
  simp only [assertUnchecked_eq (show s ≠ 0 by lia), hhalf, Nat.and_two_pow_sub_one_eq_mod, hgen,
    hfraction, hq, hcandidate, Option.bind_eq_bind, Option.bind_some]
  by_cases hover : u*2^Q+lo%2^Q < q*q
  · have hS := root_corrected hroot hs' hlo' hq hu hover
    rw [heq] at hS
    have hlarge : 2^(4*Q) ≤ (s*2^Q+q)*(s*2^Q+q) ∨
        (s*2^Q+q)*(s*2^Q+q)%2^(4*Q) > n := by
      rcases Nat.lt_or_ge ((s*2^Q+q)*(s*2^Q+q)) (2^(4*Q)) with hlt | hge
      · right
        rw [Nat.mod_eq_of_lt hlt]
        lia
      · exact .inl hge
    have hS0 : 1 ≤ s*2^Q+q := by
      have := Nat.mul_pos (show 0 < s by lia) hpos
      lia
    rw [if_pos hlarge, sub_eq hS0]
    exact ⟨_, rfl, hS.le, hS.lt⟩
  · have hS := root_candidate hroot hs' hlo' hq hu (by lia)
    rw [heq] at hS
    have hle := hS.le
    have hsmall : ¬ (2^(4*Q) ≤ (s*2^Q+q)*(s*2^Q+q) ∨
        (s*2^Q+q)*(s*2^Q+q)%2^(4*Q) > n) := by
      rw [Nat.mod_eq_of_lt (show (s*2^Q+q)*(s*2^Q+q) < 2^(4*Q) by lia)]
      lia
    rw [if_neg hsmall]
    exact ⟨_, rfl, hS.le, hS.lt⟩

/-! ## All stages of a type -/

/-- Each width is double the one before, and none is larger than the number. -/
def Doubling (bits : ℕ) : ℕ → List ℕ → Prop
  | _, [] => True
  | w, w' :: widths => w' = 2*w ∧ w' ≤ bits ∧ Doubling bits w' widths

theorem Doubling.of_append {bits w : ℕ} {ws rest : List ℕ} (h : Doubling bits w (ws ++ rest)) :
    Doubling bits w ws := by
  induction ws generalizing w with
  | nil => trivial
  | cons w' ws ih => exact ⟨h.1, h.2.1, ih h.2.2⟩

theorem firstStage_spec {bits n : ℕ} (hbits : 8 ≤ bits) (hn : n < 2^bits) (hnorm : 2^(bits-2) ≤ n) :
    ∃ s r, firstStage bits n = some (s, r) ∧ Root (n/2^(bits-8)) s r := by
  have hlt : n/2^(bits-8) < 256 := by
    apply Nat.div_lt_of_lt_mul
    rw [show 256 = 2^8 by norm_num, ← pow_add]
    convert hn using 2
    lia
  have hge : 1 ≤ n/2^(bits-8) := by
    rw [Nat.le_div_iff_mul_le (by positivity), one_mul]
    exact (Nat.pow_le_pow_right (by norm_num) (by lia)).trans hnorm
  have hn0 : n ≠ 0 := by
    rintro rfl
    simp at hge
  obtain ⟨s, r, hentry, hroot⟩ := tableEntry_spec hlt
  have hs0 : s ≠ 0 := by
    rintro rfl
    have := hroot.lt
    lia
  refine ⟨s, r, ?_, hroot⟩
  simp only [firstStage, assertUnchecked_eq hn0, Nat.shiftRight_eq_div_pow, hentry,
    assertUnchecked_eq hs0, Option.bind_eq_bind, Option.bind_some]
  rfl

theorem middleStages_spec {e : Excess} {bits n Q s r : ℕ} {widths : List ℕ} (hQ : 0 < Q)
    (hn : n < 2^bits) (hnorm : 2^(bits-2) ≤ n) (hwidths : Doubling bits (2*Q) widths)
    (hroot : Root (n/2^(bits-2*Q)) s r) :
    ∃ s' r', middleStages e bits n widths (s, r) = some (s', r') ∧
      Root (n/2^(bits-widths.getLastD (2*Q))) s' r' := by
  induction widths generalizing Q s r with
  | nil => exact ⟨s, r, rfl, hroot⟩
  | cons w widths ih =>
    obtain ⟨hw, hbits, hrest⟩ := hwidths
    obtain rfl : w = 4*Q := by lia
    obtain ⟨s', r', hstage, hroot'⟩ := middleStage_spec (e := e) hQ hbits hn hnorm hroot
    have heq : 4*Q = 2*(2*Q) := by ring
    rw [heq] at hrest hroot'
    obtain ⟨s'', r'', hrun, hroot''⟩ := ih (Q := 2*Q) (by lia) hrest hroot'
    refine ⟨s'', r'', ?_, ?_⟩
    · rw [middleStages, hstage, Option.bind_eq_bind, Option.bind_some, hrun]
    · rw [List.getLastD_cons, heq]
      exact hroot''

theorem doubling_middleWidths (W : Width) : Doubling W.bits 8 (middleWidths W) := by
  cases W <;> simp [middleWidths, Doubling, Width.bits]

theorem stages_spec {e : Excess} {W : Width} (hW : W ≠ .w8) {n : ℕ} (hn : n < 2^W.bits)
    (hnorm : 2^(W.bits-2) ≤ n) :
    ∃ s, stages e W n = some s ∧ s*s ≤ n ∧ n < (s+1)*(s+1) := by
  obtain ⟨Q, hQ, hbits, hlast⟩ : ∃ Q, 0 < Q ∧ W.bits = 4*Q ∧ (middleWidths W).getLastD 8 = 2*Q := by
    cases W with
    | w8 => exact absurd rfl hW
    | w16 => exact ⟨4, by decide, rfl, rfl⟩
    | w32 => exact ⟨8, by decide, rfl, rfl⟩
    | w64 => exact ⟨16, by decide, rfl, rfl⟩
    | w128 => exact ⟨32, by decide, rfl, rfl⟩
  obtain ⟨s, r, hfirst, hroot⟩ := firstStage_spec (by cases W <;> decide) hn hnorm
  obtain ⟨s', r', hmiddle, hroot'⟩ := middleStages_spec (e := e) (Q := 4) (by norm_num) hn hnorm
    (doubling_middleWidths W) hroot
  have hroot'' : Root (n/2^(2*Q)) s' r' := by
    rw [show 2*4 = 8 by norm_num, hlast, hbits] at hroot'
    convert hroot' using 3
    lia
  rw [stages, hfirst, Option.bind_eq_bind, Option.bind_some, hmiddle]
  rw [hbits] at hn hnorm ⊢
  exact lastStage_spec hQ hn hnorm hroot''

/-! ## Normalization -/

theorem even_formula : ∀ x ≤ 128, x &&& 2^32-1-1 = 2*(x/2) := by decide

theorem normalizationShift_spec {W : Width} {n : ℕ} (hn : n < 2^W.bits) (h0 : n ≠ 0) :
    ∃ p, normalizationShift W.bits n = 2*p ∧ 2*p < W.bits ∧ n*2^(2*p) < 2^W.bits ∧
      2^(W.bits-2) ≤ n*2^(2*p) := by
  have hbits : W.bits ≤ 128 := by cases W <;> decide
  have hsize : Nat.size n ≤ W.bits := Nat.size_le.mpr hn
  have hpos : 0 < Nat.size n := Nat.size_pos.mpr (by lia)
  have hlt := Nat.lt_size_self n
  have hle : 2^(Nat.size n-1) ≤ n := Nat.lt_size.mp (by lia)
  refine ⟨(W.bits-Nat.size n)/2, ?_, by lia, ?_, ?_⟩
  · rw [normalizationShift, leadingZeros, even_formula _ (by lia)]
  · calc n*2^(2*((W.bits-Nat.size n)/2))
        < 2^Nat.size n*2^(2*((W.bits-Nat.size n)/2)) :=
          Nat.mul_lt_mul_of_pos_right hlt (by positivity)
      _ = 2^(Nat.size n+2*((W.bits-Nat.size n)/2)) := (pow_add _ _ _).symm
      _ ≤ 2^W.bits := Nat.pow_le_pow_right (by norm_num) (by lia)
  · calc 2^(W.bits-2) ≤ 2^(Nat.size n-1+2*((W.bits-Nat.size n)/2)) :=
          Nat.pow_le_pow_right (by norm_num) (by lia)
      _ = 2^(Nat.size n-1)*2^(2*((W.bits-Nat.size n)/2)) := pow_add _ _ _
      _ ≤ n*2^(2*((W.bits-Nat.size n)/2)) := Nat.mul_le_mul_right _ hle

theorem unsignedFn_spec {e : Excess} {W : Width} (hW : W ≠ .w8) {half : ℕ → Option ℕ}
    (hhalf : ∀ n < 2^(W.bits/2), half n = some (Nat.sqrt n)) {n : ℕ} (hn : n < 2^W.bits) :
    unsignedFn e W half n = some (Nat.sqrt n) := by
  have hpos : 0 < 2^(W.bits/2) := by positivity
  rw [unsignedFn]
  split
  · next h =>
    rw [fit_eq (by lia), Option.bind_some, hhalf n (by lia)]
  · next h =>
    obtain ⟨p, hp, hlt, hshl, hnorm⟩ := normalizationShift_spec hn (show n ≠ 0 by lia)
    obtain ⟨s, hs, hle, hlt'⟩ := stages_spec (e := e) hW hshl hnorm
    have hdiv := sq_div hle hlt'
    have hhalf' : 2*p/2 = p := by lia
    simp only [hp, shl_eq hlt hshl, hs, Option.bind_eq_bind, Option.bind_some,
      Nat.shiftRight_eq_div_pow, pow_one, hhalf']
    rw [Nat.eq_sqrt.mpr hdiv]
    rfl

theorem u8_formula {n : ℕ} (h : n < 2^8) : u8 n = some (Nat.sqrt n) := by
  obtain ⟨s, r, hentry, hroot⟩ := tableEntry_spec h
  rw [u8, hentry, Option.map_some, hroot.eq_sqrt]

theorem intSqrt_formula (e : Excess) (W : Width) {n : ℕ} (hn : n < 2^W.bits) :
    intSqrt e W n = some (Nat.sqrt n) := by
  have h16 : ∀ n < 2^16, u16 e n = some (Nat.sqrt n) := fun n hn =>
    unsignedFn_spec (W := .w16) (by decide) (fun n hn => u8_formula hn) hn
  have h32 : ∀ n < 2^32, u32 e n = some (Nat.sqrt n) := fun n hn =>
    unsignedFn_spec (W := .w32) (by decide) h16 hn
  have h64 : ∀ n < 2^64, u64 e n = some (Nat.sqrt n) := fun n hn =>
    unsignedFn_spec (W := .w64) (by decide) h32 hn
  cases W with
  | w8 => exact u8_formula hn
  | w16 => exact h16 n hn
  | w32 => exact h32 n hn
  | w64 => exact h64 n hn
  | w128 => exact unsignedFn_spec (W := .w128) (by decide) h64 hn

theorem isqrt_formula (e : Excess) (W : Width) {n : ℕ} (hn : n < 2^W.bits) :
    isqrt e W n = some (Nat.sqrt n) := by
  have hpos : 0 < 2^W.bits := by positivity
  have hmax : Nat.sqrt n ≤ Nat.sqrt (2^W.bits-1) := Nat.sqrt_le_sqrt (by lia)
  simp only [isqrt, intSqrt_formula e W hn, intSqrt_formula e W (show 2^W.bits-1 < 2^W.bits by lia),
    assertUnchecked_eq hmax, Option.bind_eq_bind, Option.bind_some]
  rfl

theorem signedFn_formula (e : Excess) (W : Width) {n : ℕ} (hn : n < 2^(W.bits-1)) :
    signedFn e W n = some (Nat.sqrt n : ℤ) := by
  have hW : 0 < W.bits := by cases W <;> decide
  have hpow : 2^W.bits = 2*2^(W.bits-1) := by
    rw [← pow_succ']
    congr 1
    lia
  have hmod : ((n:ℤ)%2^W.bits).toNat = n := by
    have : ((n:ℤ)%2^W.bits) = n := Int.emod_eq_of_lt (by lia) (by exact_mod_cast (by lia : n < 2^W.bits))
    rw [this, Int.toNat_natCast]
  have hle : Nat.sqrt n ≤ n := Nat.sqrt_le_self n
  have hbmod : Int.bmod (Nat.sqrt n) (2^W.bits) = Nat.sqrt n := by
    apply Int.bmod_eq_of_le
    · have : (0:ℤ) ≤ Nat.sqrt n := Int.natCast_nonneg _
      lia
    · rw [hpow]
      push_cast
      have : (Nat.sqrt n:ℤ) < 2^(W.bits-1) := by exact_mod_cast (by lia : Nat.sqrt n < 2^(W.bits-1))
      lia
  simp only [signedFn, assertUnchecked_eq (show (n:ℤ) ≥ 0 by lia), hmod,
    intSqrt_formula e W (show n < 2^W.bits by lia), Option.bind_eq_bind, Option.bind_some, hbmod]
  rfl

theorem isqrtSigned_formula (e : Excess) (W : Width) {n : ℕ} (hn : n < 2^(W.bits-1)) :
    isqrtSigned e W n = some (Nat.sqrt n : ℤ) := by
  have hpos : 0 < 2^(W.bits-1) := by positivity
  have hmaxArg : (2:ℤ)^(W.bits-1)-1 = ((2^(W.bits-1)-1 : ℕ):ℤ) := by
    push_cast [Nat.cast_sub hpos]
    ring
  have hmax : (Nat.sqrt n:ℤ) ≤ Nat.sqrt (2^(W.bits-1)-1) := by
    exact_mod_cast Nat.sqrt_le_sqrt (by lia)
  simp only [isqrtSigned, checkedIsqrt, if_neg (show ¬ (n:ℤ) < 0 by lia), signedFn_formula e W hn,
    hmaxArg, signedFn_formula e W (show 2^(W.bits-1)-1 < 2^(W.bits-1) by lia),
    assertUnchecked_eq (show (Nat.sqrt n:ℤ) ≥ 0 by lia), assertUnchecked_eq hmax,
    Option.bind_eq_bind, Option.bind_some]
  rfl

/-- For every type and every number that is not negative, `isqrt` is the square root
rounded down, also if no bit may be lost; and after the first and every middle stage of
the normalized number, the pair is the root and the remainder of the bits read so far. -/
theorem isqrt_exact :
    (∀ W n, n < 2^W.bits → ∃ s, (∀ e, isqrt e W n = some s) ∧ s*s ≤ n ∧ n < (s+1)*(s+1)) ∧
    (∀ (W : Width) (n : ℤ), 0 ≤ n → n < 2^(W.bits-1) → ∃ s : ℤ, (∀ e, isqrtSigned e W n = some s) ∧
      0 ≤ s ∧ s*s ≤ n ∧ n < (s+1)*(s+1)) ∧
    ∀ (W : Width) (n : ℕ), 2^(W.bits/2)-1 < n → n < 2^W.bits →
      ∃ m, (∀ e, shl e W.bits n (normalizationShift W.bits n) = some m) ∧
        ∀ ws rest, middleWidths W = ws ++ rest → ∃ s r,
          (∀ e, (firstStage W.bits m >>= middleStages e W.bits m ws) = some (s, r)) ∧
          s = Nat.sqrt (m/2^(W.bits-ws.getLastD 8)) ∧
          s*s+r = m/2^(W.bits-ws.getLastD 8) ∧ r ≤ 2*s := by
  refine ⟨?_, ?_, ?_⟩
  · intro W n hn
    exact ⟨Nat.sqrt n, fun e => isqrt_formula e W hn, Nat.sqrt_le n, Nat.lt_succ_sqrt n⟩
  · intro W n h0 hn
    obtain ⟨m, rfl⟩ := Int.eq_ofNat_of_zero_le h0
    have hm : m < 2^(W.bits-1) := by exact_mod_cast hn
    refine ⟨Nat.sqrt m, fun e => isqrtSigned_formula e W hm, Int.natCast_nonneg _, ?_, ?_⟩
    · exact_mod_cast Nat.sqrt_le m
    · exact_mod_cast Nat.lt_succ_sqrt m
  · intro W n hlo hn
    obtain ⟨p, hp, hlt, hshl, hnorm⟩ := normalizationShift_spec hn (by lia)
    refine ⟨n*2^(2*p), fun e => by rw [hp, shl_eq hlt hshl], fun ws rest hws => ?_⟩
    have hdoubling := doubling_middleWidths W
    rw [hws] at hdoubling
    obtain ⟨s, r, hfirst, hroot⟩ := firstStage_spec (by cases W <;> decide) hshl hnorm
    obtain ⟨s', r', hrun, hroot'⟩ := middleStages_spec (e := .refused) (Q := 4) (by norm_num) hshl hnorm
      hdoubling.of_append hroot
    refine ⟨s', r', fun e => ?_, hroot'.eq_sqrt, hroot'⟩
    obtain ⟨s'', r'', hrun', hroot''⟩ := middleStages_spec (e := e) (Q := 4) (by norm_num) hshl hnorm
      hdoubling.of_append hroot
    obtain rfl : s'' = s' := hroot''.eq_sqrt.trans hroot'.eq_sqrt.symm
    obtain rfl : r'' = r' := by
      have h1 := hroot''.1
      have h2 := hroot'.1
      lia
    rw [hfirst]
    exact hrun'

end RustStd.IntSqrt
