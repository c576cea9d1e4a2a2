import RustStd.Fmt.NumSpec

/-!
# Parsing of integers

`from_ascii_radix` for every integer type, with its loop that checks and the one
that does not when the text is short. The text of an integer is parsed to the
integer again. `none` is a panic, also of arithmetic that overflows without being
checked.
-/

set_option autoImplicit false

namespace RustStd.IntFmt
open RustStd.Checked RustStd.Radix

inductive IntErrorKind
  | empty
  | invalidDigit
  | posOverflow
  | negOverflow
  deriving DecidableEq, Repr

def toDigit (c : UInt8) (radix : ℕ) : Option ℕ :=
  let value := if c > 57 ∧ radix > 10 then ((c.toNat+2^32-65)%2^32 &&& (2^32-1-32))+10
    else (c.toNat+2^32-48)%2^32
  if value < radix then some value else none

namespace IntTy

/-- An operation that panics when its result is not in the type. -/
def fit (T : IntTy) (z : ℤ) : Option ℤ := if T.min ≤ z ∧ z ≤ T.max then some z else none

def canNotOverflow (T : IntTy) (radix : ℕ) (digits : List UInt8) : Bool :=
  radix ≤ 16 && digits.length ≤ T.width.bits/8*2-(if T.signed then 1 else 0)

/-- `run_unchecked_loop!`, which adds or subtracts the digits. -/
def uncheckedLoop (T : IntTy) (positive : Bool) (radix : ℕ) :
    List UInt8 → ℤ → Option (Except IntErrorKind ℤ)
  | [], result => some (.ok result)
  | c :: rest, result => do
    let result ← T.fit (result*radix)
    match toDigit c radix with
    | none => return .error .invalidDigit
    | some x =>
      let result ← T.fit (if positive then result+x else result-x)
      uncheckedLoop T positive radix rest result

/-- `run_checked_loop!`, where the error of the digit comes before that of the product. -/
def checkedLoop (T : IntTy) (positive : Bool) (radix : ℕ) :
    List UInt8 → ℤ → Except IntErrorKind ℤ
  | [], result => .ok result
  | c :: rest, result =>
    let overflow : IntErrorKind := if positive then .posOverflow else .negOverflow
    let mul := T.fit (result*radix)
    match toDigit c radix with
    | none => .error .invalidDigit
    | some x =>
      match mul with
      | none => .error overflow
      | some result =>
        match T.fit (if positive then result+x else result-x) with
        | none => .error overflow
        | some result => checkedLoop T positive radix rest result

def parseDigits (T : IntTy) (radix : ℕ) (positive : Bool) (digits : List UInt8) :
    Option (Except IntErrorKind ℤ) :=
  if T.canNotOverflow radix digits then T.uncheckedLoop positive radix digits 0
  else some (T.checkedLoop positive radix digits 0)

def fromAsciiRadix (T : IntTy) (src : List UInt8) (radix : ℕ) : Option (Except IntErrorKind ℤ) :=
  if 2 > radix ∨ radix > 36 then none
  else match src with
    | [] => some (.error .empty)
    | [c] => if c = 43 ∨ c = 45 then some (.error .invalidDigit) else T.parseDigits radix true [c]
    | c :: rest =>
      if c = 43 then T.parseDigits radix true rest
      else if c = 45 ∧ T.signed then T.parseDigits radix false rest
      else T.parseDigits radix true (c :: rest)

def fromStrRadix (T : IntTy) (src : List UInt8) (radix : ℕ) : Option (Except IntErrorKind ℤ) :=
  T.fromAsciiRadix src radix

end IntTy

/-! ## Reading digits -/

theorem fit_eq {T : IntTy} {z : ℤ} (hlo : T.min ≤ z) (hhi : z ≤ T.max) : T.fit z = some z :=
  if_pos ⟨hlo, hhi⟩

def signedOf (positive : Bool) (r : ℕ) : ℤ := if positive then r else -r

theorem signedOf_mul (positive : Bool) (r b : ℕ) :
    signedOf positive r*b = signedOf positive (r*b) := by
  cases positive with
  | true => simp [signedOf]
  | false => simp [signedOf]

theorem signedOf_add (positive : Bool) (r d : ℕ) :
    (if positive then signedOf positive r+d else signedOf positive r-d) =
      signedOf positive (r+d) := by
  cases positive with
  | true => simp [signedOf]
  | false =>
    simp only [signedOf, Bool.false_eq_true, if_false]
    push_cast
    ring

section Loops

variable {T : IntTy} {positive : Bool} {b m : ℕ} {byte : ℕ → UInt8}
  (hfit : ∀ r ≤ m, T.fit (signedOf positive r) = some (signedOf positive r))
  (hbyte : ∀ d < b, toDigit (byte d) b = some d)
include hfit hbyte

theorem loops_eq (k : ℕ) {n r : ℕ} (hb : 0 < b) (hm : r*b^k+n%b^k = m) :
    T.uncheckedLoop positive b ((lowDigits b k n).map byte) (signedOf positive r) =
        some (.ok (signedOf positive m)) ∧
      T.checkedLoop positive b ((lowDigits b k n).map byte) (signedOf positive r) =
        .ok (signedOf positive m) := by
  induction k generalizing r with
  | zero =>
    obtain rfl : r = m := by simpa [Nat.mod_one] using hm
    exact ⟨rfl, rfl⟩
  | succ k ih =>
    have hd : n/b^k%b < b := Nat.mod_lt _ hb
    have hm' : (r*b+n/b^k%b)*b^k+n%b^k = m := by
      rw [← hm, Nat.mod_pow_succ]
      ring
    have hle : r*b+n/b^k%b ≤ m := by
      calc r*b+n/b^k%b ≤ (r*b+n/b^k%b)*b^k := Nat.le_mul_of_pos_right _ (by positivity)
        _ ≤ (r*b+n/b^k%b)*b^k+n%b^k := Nat.le_add_right _ _
        _ = m := hm'
    obtain ⟨h1, h2⟩ := ih hm'
    simp only [lowDigits, List.map_cons]
    constructor
    · rw [IntTy.uncheckedLoop, signedOf_mul, hfit _ (by omega), Option.bind_eq_bind,
        Option.bind_some, hbyte _ hd]
      simp only
      rw [signedOf_add, hfit _ hle, Option.bind_some, h1]
    · rw [IntTy.checkedLoop]
      simp only [signedOf_mul, hfit _ (show r*b ≤ m by omega), hbyte _ hd, signedOf_add,
        hfit _ hle, h2]

theorem parseDigits_eq (hb : 1 < b) :
    T.parseDigits b positive ((digits b m).map byte) = some (.ok (signedOf positive m)) := by
  have hm : 0*b^(Nat.log b m+1)+m%b^(Nat.log b m+1) = m := by
    rw [Nat.zero_mul, Nat.zero_add, Nat.mod_eq_of_lt (Nat.lt_pow_succ_log_self hb m)]
  obtain ⟨h1, h2⟩ := loops_eq hfit hbyte (Nat.log b m+1) (by omega) hm
  have h0 : signedOf positive 0 = 0 := by
    cases positive with
    | true => rfl
    | false => rfl
  rw [h0] at h1 h2
  rw [IntTy.parseDigits, digits]
  split
  · exact h1
  · rw [h2]

end Loops

theorem fromAsciiRadix_digits {T : IntTy} {b : ℕ} (hb : 2 ≤ b) (hb' : b ≤ 36) {c : UInt8}
    {rest : List UInt8} (h43 : c ≠ 43) (h45 : c ≠ 45) :
    T.fromAsciiRadix (c :: rest) b = T.parseDigits b true (c :: rest) := by
  have hr : ¬ (2 > b ∨ b > 36) := by omega
  cases rest with
  | nil =>
    simp only [IntTy.fromAsciiRadix, if_neg hr, h43, h45, or_self, if_false]
  | cons c' rest =>
    simp only [IntTy.fromAsciiRadix, if_neg hr, h43, h45, false_and, if_false]

theorem fromAsciiRadix_minus {T : IntTy} {b : ℕ} (hb : 2 ≤ b) (hb' : b ≤ 36)
    (hsigned : T.signed = true) {ds : List UInt8} (hne : ds ≠ []) :
    T.fromAsciiRadix (45 :: ds) b = T.parseDigits b false ds := by
  have hr : ¬ (2 > b ∨ b > 36) := by omega
  cases ds with
  | nil => exact absurd rfl hne
  | cons c rest =>
    simp only [IntTy.fromAsciiRadix, if_neg hr, hsigned, show ¬ (45:UInt8) = 43 by decide, if_false,
      and_self, if_true]

theorem toDigit_dec : ∀ d < 10, toDigit (dec d) 10 = some d ∧ dec d ≠ 43 ∧ dec d ≠ 45 := by decide

theorem toDigit_digTab (f : Format) : ∀ d < f.base, toDigit (f.digTab.getD d 0) f.base = some d ∧
    f.digTab.getD d 0 ≠ 43 ∧ f.digTab.getD d 0 ≠ 45 := by
  cases f <;> decide

theorem exists_head {b : ℕ} (hb : 1 < b) (byte : ℕ → UInt8) (m : ℕ) :
    ∃ d < b, ∃ rest, (digits b m).map byte = byte d :: rest :=
  ⟨_, Nat.mod_lt _ (by omega), _, rfl⟩

theorem fit_of_le {T : IntTy} {n : ℤ} (hlo : T.min ≤ n) (hhi : n ≤ T.max) :
    ∀ r ≤ n.natAbs, T.fit (signedOf (!decide (n < 0)) r) = some (signedOf (!decide (n < 0)) r) := by
  intro r hr
  have hmin : T.min ≤ 0 := by
    unfold IntTy.min
    split
    · have : (0:ℤ) < 2^(T.width.bits-1) := by positivity
      omega
    · exact le_rfl
  have hmax : 0 ≤ T.max := by
    unfold IntTy.max
    split
    · have : (0:ℤ) < 2^(T.width.bits-1) := by positivity
      omega
    · have : (0:ℤ) < 2^T.width.bits := by positivity
      omega
  by_cases hneg : n < 0
  · simp only [hneg, decide_true, Bool.not_true, signedOf, Bool.false_eq_true, if_false]
    exact fit_eq (by omega) (by omega)
  · simp only [hneg, decide_false, Bool.not_false, signedOf, if_true]
    exact fit_eq (by omega) (by omega)

theorem fromStrRadix_decimal {T : IntTy} {n : ℤ} (hlo : T.min ≤ n) (hhi : n ≤ T.max) :
    T.fromStrRadix (decimalText n) 10 = some (.ok n) := by
  have hp := parseDigits_eq (fit_of_le hlo hhi) (fun d hd => (toDigit_dec d hd).1) (by norm_num)
  obtain ⟨d, hd, rest, heq⟩ := exists_head (show 1 < 10 by norm_num) dec n.natAbs
  obtain ⟨-, h43, h45⟩ := toDigit_dec d hd
  rw [IntTy.fromStrRadix, decimalText]
  by_cases hneg : n < 0
  · have hsigned : T.signed = true := by
      by_contra hs
      rw [IntTy.min, if_neg hs] at hlo
      omega
    simp only [hneg, decide_true, Bool.not_true] at hp
    rw [if_pos hneg, fromAsciiRadix_minus (by norm_num) (by norm_num) hsigned (by rw [heq]; simp), hp]
    simp only [signedOf, Bool.false_eq_true, if_false]
    congr 2
    omega
  · simp only [hneg, decide_false, Bool.not_false] at hp
    rw [if_neg hneg, heq, fromAsciiRadix_digits (by norm_num) (by norm_num) h43 h45, ← heq, hp]
    simp only [signedOf, if_true]
    congr 2
    omega

theorem fromStrRadix_radix (f : Format) {W : Width} {n : ℕ} (hn : n < 2^W.bits) :
    IntTy.fromStrRadix ⟨W, false⟩ ((digits f.base n).map fun d => f.digTab.getD d 0) f.base =
      some (.ok n) := by
  have hb : 2 ≤ f.base ∧ f.base ≤ 36 := by cases f <;> decide
  have hfit : ∀ r ≤ n, IntTy.fit ⟨W, false⟩ (signedOf true r) = some (signedOf true r) := by
    intro r hr
    have : (n:ℤ) < 2^W.bits := by exact_mod_cast hn
    simp only [signedOf, if_true]
    apply fit_eq
    · simp [IntTy.min]
    · simp only [IntTy.max, Bool.false_eq_true, if_false]
      omega
  have hp := parseDigits_eq hfit (fun d hd => (toDigit_digTab f d hd).1) hb.1
  obtain ⟨d, hd, rest, heq⟩ := exists_head hb.1 (fun d => f.digTab.getD d 0) n
  obtain ⟨-, h43, h45⟩ := toDigit_digTab f d hd
  rw [IntTy.fromStrRadix, heq, fromAsciiRadix_digits hb.1 hb.2 h43 h45, ← heq, hp]
  rfl

theorem head_decimal {n : ℕ} (h : ((digits 10 n).map dec).head? = some 48) : n = 0 := by
  by_contra h0
  obtain ⟨d, ds, hds, hd⟩ := head_digits (show 1 < 10 by norm_num) h0
  rw [hds, List.map_cons, List.head?_cons, Option.some.injEq] at h
  have hlt : d < 10 := by
    apply lt_of_mem_lowDigits (b := 10) (k := Nat.log 10 n+1) (n := n) (by norm_num)
    rw [← digits, hds]
    exact List.mem_cons_self
  have : ∀ d < 10, dec d = 48 → d = 0 := by decide
  exact hd (this d hlt h)

/-- Every integer of every type is printed without a leading zero, the same in all
ways, and parsed back. -/
theorem int_round_trip (T : IntTy) (small : Bool) (n : ℤ) (hlo : T.min ≤ n) (hhi : n ≤ T.max) :
    (∃ ds text, text = (if n < 0 then 45 :: ds else ds) ∧ (ds.head? = some 48 → n = 0) ∧
      display T small n = some text ∧ T.fromStrRadix text 10 = some (.ok n) ∧
      ∀ numBuffer : Buf, numBuffer.length = 40 → formatInto T small n numBuffer = some text) ∧
    (T.signed = false → ∀ f : Format, ∃ text, fmtRadix f T.width.bits n.toNat = some text ∧
      T.fromStrRadix text f.base = some (.ok n)) ∧
    ∀ m < 2^128, divRem1e16 m = some (m/10^16, m%10^16) := by
  refine ⟨?_, ?_, fun m hm => divRem1e16_eq hm⟩
  · refine ⟨(digits 10 n.natAbs).map dec, decimalText n, rfl, ?_, display_eq small hlo hhi,
      fromStrRadix_decimal hlo hhi, fun numBuffer hlen => formatInto_eq small hlo hhi hlen⟩
    intro h
    have := head_decimal h
    omega
  · intro hs f
    obtain ⟨W, signed⟩ := T
    obtain rfl : signed = false := hs
    have h0 : 0 ≤ n := by simpa [IntTy.min] using hlo
    obtain ⟨m, rfl⟩ := Int.eq_ofNat_of_zero_le h0
    have hm : m < 2^W.bits := by
      have := natAbs_lt hlo hhi
      simpa using this
    exact ⟨_, fmtRadix_eq f hm, fromStrRadix_radix f hm⟩

theorem int_round_trip_min :
    (∃ ds text, text = (if (-128:ℤ) < 0 then 45 :: ds else ds) ∧
      (ds.head? = some 48 → (-128:ℤ) = 0) ∧ display ⟨.w8, true⟩ false (-128) = some text ∧
      IntTy.fromStrRadix ⟨.w8, true⟩ text 10 = some (.ok (-128)) ∧
      ∀ numBuffer : Buf, numBuffer.length = 40 →
        formatInto ⟨.w8, true⟩ false (-128) numBuffer = some text) ∧
    (IntTy.signed ⟨.w8, true⟩ = false → ∀ f : Format, ∃ text,
      fmtRadix f Width.w8.bits (-128:ℤ).toNat = some text ∧
      IntTy.fromStrRadix ⟨.w8, true⟩ text f.base = some (.ok (-128))) ∧
    ∀ m < 2^128, divRem1e16 m = some (m/10^16, m%10^16) :=
  int_round_trip ⟨.w8, true⟩ false (-128) (by decide) (by decide)

end RustStd.IntFmt
