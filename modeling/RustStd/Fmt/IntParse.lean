import RustStd.Lib.Machine
import RustStd.Fmt.IntRoundTrip

/-!
# Which texts are integers

What `from_ascii_radix` answers for every text: the number that the text is, or
the first thing that is wrong with it. The loop that does not check is only taken
where nothing can overflow, and answers the same.
-/

set_option autoImplicit false

namespace RustStd.IntFmt

/-- The digits, which go on with the letters of either case. -/
def digitValue (c : UInt8) : Option ℕ :=
  if 48 ≤ c ∧ c ≤ 57 then some (c.toNat-48)
  else if 65 ≤ c ∧ c ≤ 90 then some (c.toNat-65+10)
  else if 97 ≤ c ∧ c ≤ 122 then some (c.toNat-97+10)
  else none

/-- The digits of a radix. -/
def digitOf (radix : ℕ) (c : UInt8) : Option ℕ := (digitValue c).filter (· < radix)

/-- The value of a text that consists of digits. -/
def valueOf (radix : ℕ) (text : List UInt8) : Option ℕ :=
  (text.mapM (digitOf radix)).map fun ds => Nat.ofDigits radix ds.reverse

/-- Whether a number, with its sign, is in the type. -/
def IntTy.Holds (T : IntTy) (positive : Bool) (r : ℕ) : Prop :=
  T.min ≤ signedOf positive r ∧ signedOf positive r ≤ T.max

/-- The sign and the bytes behind it. A sign with nothing behind it is none. -/
def IntTy.splitSign (T : IntTy) (src : List UInt8) : Bool × List UInt8 :=
  match src with
  | [] => (true, [])
  | [c] => (true, [c])
  | c :: rest =>
    if c = 43 then (true, rest) else if c = 45 ∧ T.signed then (false, rest) else (true, c :: rest)

/-! ## Digits -/

theorem digitValue_formula : ∀ i < 256,
    (57 < i → digitValue (UInt8.ofNat i) = some (((i+2^32-65)%2^32 &&& (2^32-1-32))+10) ∨
      digitValue (UInt8.ofNat i) = none ∧ 36 ≤ ((i+2^32-65)%2^32 &&& (2^32-1-32))+10) ∧
    (i ≤ 57 → digitValue (UInt8.ofNat i) = some ((i+2^32-48)%2^32) ∨
      digitValue (UInt8.ofNat i) = none ∧ 36 ≤ (i+2^32-48)%2^32) ∧
    (57 < i → 10 ≤ (i+2^32-48)%2^32 ∧ ∀ d ∈ digitValue (UInt8.ofNat i), 10 ≤ d) := by
  decide +kernel

theorem filter_of_value {o : Option ℕ} {v radix : ℕ} (hr : radix ≤ 36)
    (h : o = some v ∨ o = none ∧ 36 ≤ v) :
    (if v < radix then some v else none) = o.filter (· < radix) := by
  rcases h with rfl | ⟨rfl, h⟩
  · simp [Option.filter]
  · rw [if_neg (by omega), Option.filter_none]

theorem toDigit_eq {radix : ℕ} (hr : radix ≤ 36) (c : UInt8) : toDigit c radix = digitOf radix c := by
  obtain ⟨hletter, hdigit, hlarge⟩ := digitValue_formula c.toNat c.toNat_lt
  rw [UInt8.ofNat_toNat] at hletter hdigit hlarge
  have hgt : c > 57 ↔ 57 < c.toNat := UInt8.lt_iff_toNat_lt
  rw [toDigit, digitOf]
  by_cases h : c > 57 ∧ radix > 10
  · rw [if_pos h]
    exact filter_of_value hr (hletter (hgt.mp h.1))
  rw [if_neg h]
  by_cases hc : 57 < c.toNat
  · -- a letter, in a radix without letters
    obtain ⟨hten, hall⟩ := hlarge hc
    have hradix : radix ≤ 10 := by
      by_contra hlt
      exact h ⟨hgt.mpr hc, by omega⟩
    have hnone : (digitValue c).filter (· < radix) = none := by
      rw [Option.filter_eq_none_iff]
      intro d hd
      have hge := hall d hd
      rw [decide_eq_true_eq]
      omega
    rw [if_neg (by omega), hnone]
  · exact filter_of_value hr (hdigit (by omega))

theorem digitOf_lt {radix d : ℕ} {c : UInt8} (h : digitOf radix c = some d) : d < radix := by
  simp only [digitOf, Option.filter_eq_some_iff, decide_eq_true_eq] at h
  exact h.2

theorem valueOf_nil (radix : ℕ) : valueOf radix [] = some 0 := rfl

theorem valueOf_snoc (radix : ℕ) (text : List UInt8) (c : UInt8) :
    valueOf radix (text ++ [c]) =
      (valueOf radix text).bind fun r => (digitOf radix c).map fun d => r*radix+d := by
  simp only [valueOf, List.mapM_append]
  cases htext : text.mapM (digitOf radix) with
  | none => simp
  | some ds =>
    cases hc : digitOf radix c with
    | none => simp [hc]
    | some d =>
      simp [hc, Nat.ofDigits_cons]
      ring

theorem exists_of_valueOf_snoc {radix r' : ℕ} {text : List UInt8} {c : UInt8}
    (h : valueOf radix (text ++ [c]) = some r') :
    ∃ r d, valueOf radix text = some r ∧ digitOf radix c = some d ∧ r*radix+d = r' := by
  rw [valueOf_snoc, Option.bind_eq_some_iff] at h
  obtain ⟨r, hr, h⟩ := h
  obtain ⟨d, hd, h⟩ := Option.map_eq_some_iff.mp h
  exact ⟨r, d, hr, hd, h⟩

/-! ## The range -/

theorem min_le_zero (T : IntTy) : T.min ≤ 0 := by
  rw [IntTy.min]
  split
  · have : (0:ℤ) < 2^(T.width.bits-1) := by positivity
    omega
  · exact le_rfl

theorem zero_le_max (T : IntTy) : 0 ≤ T.max := by
  rw [IntTy.max]
  split
  · have : (0:ℤ) < 2^(T.width.bits-1) := by positivity
    omega
  · have : (0:ℤ) < 2^T.width.bits := by positivity
    omega

namespace IntTy

theorem holds_zero (T : IntTy) (positive : Bool) : T.Holds positive 0 := by
  have hlo := min_le_zero T
  have hhi := zero_le_max T
  cases positive with
  | true => exact ⟨by simpa [signedOf] using hlo, by simpa [signedOf] using hhi⟩
  | false => exact ⟨by simpa [signedOf] using hlo, by simpa [signedOf] using hhi⟩

theorem Holds.mono {T : IntTy} {positive : Bool} {r r' : ℕ} (h : T.Holds positive r') (hle : r ≤ r') :
    T.Holds positive r := by
  have hlo := min_le_zero T
  have hhi := zero_le_max T
  obtain ⟨h1, h2⟩ := h
  cases positive with
  | true =>
    simp only [signedOf, if_true] at h1 h2
    constructor
    · simp only [signedOf, if_true]
      omega
    · simp only [signedOf, if_true]
      omega
  | false =>
    simp only [signedOf, Bool.false_eq_true, if_false] at h1 h2
    constructor
    · simp only [signedOf, Bool.false_eq_true, if_false]
      omega
    · simp only [signedOf, Bool.false_eq_true, if_false]
      omega

theorem fit_signedOf {T : IntTy} {positive : Bool} {r : ℕ} (h : T.Holds positive r) :
    T.fit (signedOf positive r) = some (signedOf positive r) := if_pos h

theorem fit_signedOf_none {T : IntTy} {positive : Bool} {r : ℕ} (h : ¬ T.Holds positive r) :
    T.fit (signedOf positive r) = none := if_neg h

/-! ## The loops -/

/-- The error when the value leaves the range. -/
def overflow (positive : Bool) : IntErrorKind := if positive then .posOverflow else .negOverflow

/-- How the bytes behind the sign come out. -/
inductive Reads (T : IntTy) (positive : Bool) (radix : ℕ) (text : List UInt8) :
    Except IntErrorKind ℤ → Prop
  | ok {r : ℕ} : valueOf radix text = some r → T.Holds positive r →
      Reads T positive radix text (.ok (signedOf positive r))
  | invalid {pre post : List UInt8} {c : UInt8} {r : ℕ} : text = pre ++ c :: post →
      valueOf radix pre = some r → T.Holds positive r → digitOf radix c = none →
      Reads T positive radix text (.error .invalidDigit)
  | overflow {pre post : List UInt8} {c : UInt8} {r r' : ℕ} : text = pre ++ c :: post →
      valueOf radix pre = some r → T.Holds positive r → valueOf radix (pre ++ [c]) = some r' →
      ¬ T.Holds positive r' → Reads T positive radix text (.error (overflow positive))

section Steps

variable {T : IntTy} {positive : Bool} {radix r d : ℕ} {c : UInt8}

theorem checkedLoop_invalid (hr : radix ≤ 36) (hc : digitOf radix c = none) (rest : List UInt8) :
    T.checkedLoop positive radix (c :: rest) (signedOf positive r) = .error .invalidDigit := by
  rw [checkedLoop]
  simp only [toDigit_eq hr, hc]

theorem checkedLoop_step (hr : radix ≤ 36) (hc : digitOf radix c = some d)
    (h : T.Holds positive (r*radix+d)) (rest : List UInt8) :
    T.checkedLoop positive radix (c :: rest) (signedOf positive r) =
      T.checkedLoop positive radix rest (signedOf positive (r*radix+d)) := by
  have hmul : T.Holds positive (r*radix) := h.mono (Nat.le_add_right _ _)
  rw [checkedLoop]
  simp only [toDigit_eq hr, hc, signedOf_mul, fit_signedOf hmul, signedOf_add, fit_signedOf h]

theorem checkedLoop_overflow (hr : radix ≤ 36) (hc : digitOf radix c = some d)
    (h : ¬ T.Holds positive (r*radix+d)) (rest : List UInt8) :
    T.checkedLoop positive radix (c :: rest) (signedOf positive r) = .error (overflow positive) := by
  rw [checkedLoop]
  by_cases hmul : T.Holds positive (r*radix)
  · simp only [toDigit_eq hr, hc, signedOf_mul, fit_signedOf hmul, signedOf_add, fit_signedOf_none h,
      overflow]
  · simp only [toDigit_eq hr, hc, signedOf_mul, fit_signedOf_none hmul, overflow]

theorem uncheckedLoop_step (hr : radix ≤ 36) (hc : digitOf radix c = some d)
    (h : T.Holds positive (r*radix+d)) (rest : List UInt8) :
    T.uncheckedLoop positive radix (c :: rest) (signedOf positive r) =
      T.uncheckedLoop positive radix rest (signedOf positive (r*radix+d)) := by
  have hmul : T.Holds positive (r*radix) := h.mono (Nat.le_add_right _ _)
  rw [uncheckedLoop, signedOf_mul, fit_signedOf hmul, some_bind,
    toDigit_eq hr, hc]
  simp only
  rw [signedOf_add, fit_signedOf h, some_bind]

theorem uncheckedLoop_invalid (hr : radix ≤ 36) (hc : digitOf radix c = none)
    (hmul : T.Holds positive (r*radix)) (rest : List UInt8) :
    T.uncheckedLoop positive radix (c :: rest) (signedOf positive r) =
      some (.error .invalidDigit) := by
  rw [uncheckedLoop, signedOf_mul, fit_signedOf hmul, some_bind,
    toDigit_eq hr, hc]
  rfl

theorem checkedLoop_append (hr : radix ≤ 36) (hr0 : 0 < radix) (pre rest : List UInt8)
    (hv : valueOf radix pre = some r) (h : T.Holds positive r) :
    T.checkedLoop positive radix (pre ++ rest) 0 =
      T.checkedLoop positive radix rest (signedOf positive r) := by
  induction pre using List.reverseRecOn generalizing rest r with
  | nil =>
    obtain rfl : 0 = r := by simpa [valueOf_nil] using hv
    cases positive with
    | true => rfl
    | false => rfl
  | append_singleton pre c ih =>
    obtain ⟨r₀, d, hv₀, hc, rfl⟩ := exists_of_valueOf_snoc hv
    have h₀ : T.Holds positive r₀ :=
      h.mono ((Nat.le_mul_of_pos_right r₀ hr0).trans (Nat.le_add_right _ _))
    rw [List.append_assoc, List.singleton_append, ih (c :: rest) hv₀ h₀, checkedLoop_step hr hc h]

theorem reads_checkedLoop (hr : radix ≤ 36) (pre rest : List UInt8)
    (hv : valueOf radix pre = some r) (h : T.Holds positive r) :
    T.Reads positive radix (pre ++ rest) (T.checkedLoop positive radix rest (signedOf positive r)) := by
  induction rest generalizing pre r with
  | nil =>
    rw [checkedLoop, List.append_nil]
    exact .ok hv h
  | cons c rest ih =>
    cases hc : digitOf radix c with
    | none =>
      rw [checkedLoop_invalid hr hc]
      exact .invalid rfl hv h hc
    | some d =>
      have hv' : valueOf radix (pre ++ [c]) = some (r*radix+d) := by
        rw [valueOf_snoc, hv, hc]
        rfl
      by_cases h' : T.Holds positive (r*radix+d)
      · rw [checkedLoop_step hr hc h']
        have := ih (pre ++ [c]) hv' h'
        rwa [List.append_assoc, List.singleton_append] at this
      · rw [checkedLoop_overflow hr hc h']
        exact .overflow rfl hv h hv' h'

theorem checkedLoop_eq_iff (hr : radix ≤ 36) (hr0 : 0 < radix) (text : List UInt8)
    (out : Except IntErrorKind ℤ) :
    T.checkedLoop positive radix text 0 = out ↔ T.Reads positive radix text out := by
  have h0 : signedOf positive 0 = 0 := by
    cases positive with
    | true => rfl
    | false => rfl
  constructor
  · intro h
    have hnil := T.holds_zero positive
    have := reads_checkedLoop hr [] text (valueOf_nil radix) hnil
    rwa [h0, List.nil_append, h] at this
  · intro h
    cases h with
    | ok hv h =>
      have := checkedLoop_append hr hr0 text [] hv h
      rwa [List.append_nil] at this
    | invalid htext hv h hc =>
      rw [htext, checkedLoop_append hr hr0 _ _ hv h, checkedLoop_invalid hr hc]
    | overflow htext hv h hv' h' =>
      obtain ⟨r₀, d, hv₀, hc, rfl⟩ := exists_of_valueOf_snoc hv'
      obtain rfl : _ = r₀ := Option.some.inj (hv.symm.trans hv₀)
      rw [htext, checkedLoop_append hr hr0 _ _ hv h, checkedLoop_overflow hr hc h']

theorem uncheckedLoop_eq (hr : radix ≤ 36) (hr0 : 0 < radix) {bound : ℕ}
    (hbound : ∀ x < bound, T.Holds positive x) (rest : List UInt8)
    (h : (r+1)*radix^rest.length ≤ bound) :
    T.uncheckedLoop positive radix rest (signedOf positive r) =
      some (T.checkedLoop positive radix rest (signedOf positive r)) := by
  induction rest generalizing r with
  | nil => rfl
  | cons c rest ih =>
    rw [List.length_cons, pow_succ'] at h
    have hpow : 1 ≤ radix^rest.length := Nat.one_le_pow _ _ hr0
    have hall : r*radix+radix ≤ bound := by
      calc r*radix+radix = (r+1)*radix*1 := by ring
        _ ≤ (r+1)*radix*radix^rest.length := Nat.mul_le_mul_left _ hpow
        _ ≤ bound := by rwa [mul_assoc]
    cases hc : digitOf radix c with
    | none => rw [checkedLoop_invalid hr hc, uncheckedLoop_invalid hr hc (hbound _ (by omega))]
    | some d =>
      have hd : d < radix := digitOf_lt hc
      have hin : T.Holds positive (r*radix+d) := hbound _ (by omega)
      rw [checkedLoop_step hr hc hin, uncheckedLoop_step hr hc hin]
      apply ih
      calc (r*radix+d+1)*radix^rest.length ≤ (r*radix+radix)*radix^rest.length :=
            Nat.mul_le_mul_right _ (by omega)
        _ = (r+1)*(radix*radix^rest.length) := by ring
        _ ≤ bound := h

end Steps

/-- The absolute values below this one are in the type with either sign it has. -/
def magnitude (T : IntTy) : ℕ := if T.signed then 2^(T.width.bits-1) else 2^T.width.bits

theorem holds_of_lt {T : IntTy} {positive : Bool} (hs : positive = false → T.signed = true) {x : ℕ}
    (hx : x < T.magnitude) : T.Holds positive x := by
  have hlo := min_le_zero T
  have hhi := zero_le_max T
  have hmax : (T.magnitude:ℤ) = T.max+1 := by
    rw [magnitude, max]
    split
    · push_cast
      ring
    · push_cast
      ring
  cases positive with
  | true =>
    constructor
    · simp only [signedOf, if_true]
      omega
    · simp only [signedOf, if_true]
      omega
  | false =>
    have hmin : (T.magnitude:ℤ) = -T.min := by
      rw [magnitude, min, if_pos (hs rfl), if_pos (hs rfl)]
      push_cast
      ring
    constructor
    · simp only [signedOf, Bool.false_eq_true, if_false]
      omega
    · simp only [signedOf, Bool.false_eq_true, if_false]
      omega

theorem pow_length_le {T : IntTy} {radix : ℕ} (hr0 : 0 < radix) {text : List UInt8}
    (h : T.canNotOverflow radix text = true) : radix^text.length ≤ T.magnitude := by
  simp only [canNotOverflow, Bool.and_eq_true, decide_eq_true_eq] at h
  obtain ⟨hr, hlen⟩ := h
  calc radix^text.length
      ≤ radix^(T.width.bits/8*2-(if T.signed then 1 else 0)) := Nat.pow_le_pow_right hr0 hlen
    _ ≤ 16^(T.width.bits/8*2-(if T.signed then 1 else 0)) := Nat.pow_le_pow_left hr _
    _ ≤ T.magnitude := by
      obtain ⟨width, signed⟩ := T
      cases width <;> cases signed <;> norm_num [magnitude, Width.bits]

theorem uncheckedLoop_eq_checkedLoop {T : IntTy} {positive : Bool} {radix : ℕ} (hr : radix ≤ 36)
    (hr0 : 0 < radix) (hs : positive = false → T.signed = true) {text : List UInt8}
    (h : T.canNotOverflow radix text = true) :
    T.uncheckedLoop positive radix text 0 = some (T.checkedLoop positive radix text 0) := by
  have h0 : signedOf positive 0 = 0 := by
    cases positive with
    | true => rfl
    | false => rfl
  have := uncheckedLoop_eq hr hr0 (fun x hx => holds_of_lt hs hx) text (r := 0)
    (by simpa using pow_length_le hr0 h)
  rwa [h0] at this

theorem parseDigits_formula {T : IntTy} {positive : Bool} {radix : ℕ} (hr : radix ≤ 36)
    (hr0 : 0 < radix) (hs : positive = false → T.signed = true) (text : List UInt8) :
    T.parseDigits radix positive text = some (T.checkedLoop positive radix text 0) := by
  rw [parseDigits]
  split
  · next h => exact uncheckedLoop_eq_checkedLoop hr hr0 hs h
  · rfl

/-! ## The sign -/

theorem signed_of_splitSign {T : IntTy} {src : List UInt8} (h : (T.splitSign src).1 = false) :
    T.signed = true := by
  unfold splitSign at h
  split at h
  · cases h
  · cases h
  · split at h
    · cases h
    · split at h
      · next hc => exact hc.2
      · cases h

theorem digitOf_sign (radix : ℕ) {c : UInt8} (h : c = 43 ∨ c = 45) : digitOf radix c = none := by
  rcases h with rfl | rfl
  · rfl
  · rfl

theorem fromAsciiRadix_formula {T : IntTy} {radix : ℕ} (hlo : 2 ≤ radix) (hhi : radix ≤ 36)
    {src : List UInt8} (hne : src ≠ []) :
    T.fromAsciiRadix src radix =
      some (T.checkedLoop (T.splitSign src).1 radix (T.splitSign src).2 0) := by
  have hradix : ¬ (2 > radix ∨ radix > 36) := by omega
  have hparse := parseDigits_formula hhi (show 0 < radix by omega)
    (@signed_of_splitSign T src) (T.splitSign src).2
  rw [← hparse]
  cases src with
  | nil => exact absurd rfl hne
  | cons c rest =>
    cases rest with
    | nil =>
      simp only [fromAsciiRadix, if_neg hradix, splitSign]
      split
      · next hc =>
        rw [parseDigits_formula hhi (by omega) (by simp), checkedLoop]
        simp only [toDigit_eq hhi, digitOf_sign radix hc]
      · rfl
    | cons c' rest =>
      simp only [fromAsciiRadix, if_neg hradix, splitSign]
      split
      · rfl
      · split
        · rfl
        · rfl

theorem exists_sign (T : IntTy) {src : List UInt8} (hne : src ≠ []) :
    ∃ sign, src = sign ++ (T.splitSign src).2 ∧ (T.splitSign src).2 ≠ [] ∧
      ((sign = [] ∨ sign = [43]) ∧ (T.splitSign src).1 = true ∨
        sign = [45] ∧ T.signed = true ∧ (T.splitSign src).1 = false) := by
  cases src with
  | nil => exact absurd rfl hne
  | cons c rest =>
    cases rest with
    | nil => exact ⟨[], rfl, by simp [splitSign], .inl ⟨.inl rfl, rfl⟩⟩
    | cons c' rest =>
      by_cases h43 : c = 43
      · have hsplit : T.splitSign (c :: c' :: rest) = (true, c' :: rest) := by
          simp only [splitSign, if_pos h43]
        rw [hsplit, h43]
        exact ⟨[43], rfl, by simp, .inl ⟨.inr rfl, rfl⟩⟩
      · by_cases h45 : c = 45 ∧ T.signed = true
        · have hsplit : T.splitSign (c :: c' :: rest) = (false, c' :: rest) := by
            simp only [splitSign, if_neg h43, if_pos h45]
          rw [hsplit, h45.1]
          exact ⟨[45], rfl, by simp, .inr ⟨rfl, h45.2, rfl⟩⟩
        · have hsplit : T.splitSign (c :: c' :: rest) = (true, c :: c' :: rest) := by
            simp only [splitSign, if_neg h43, if_neg h45]
          rw [hsplit]
          exact ⟨[], rfl, by simp, .inl ⟨.inl rfl, rfl⟩⟩

theorem head_not_sign {radix r : ℕ} {c : UInt8} {rest : List UInt8}
    (h : valueOf radix (c :: rest) = some r) : ¬ (c = 43 ∨ c = 45) := by
  intro hc
  rw [valueOf, List.mapM_cons, digitOf_sign radix hc] at h
  simp at h

theorem splitSign_positive (T : IntTy) {radix r : ℕ} {sign ds : List UInt8} (hne : ds ≠ [])
    (hv : valueOf radix ds = some r) (hsign : sign = [] ∨ sign = [43]) :
    T.splitSign (sign ++ ds) = (true, ds) := by
  cases ds with
  | nil => exact absurd rfl hne
  | cons c rest =>
    have hc := head_not_sign hv
    rcases hsign with rfl | rfl
    · cases rest with
      | nil => rfl
      | cons c' rest =>
        simp only [List.nil_append, splitSign]
        rw [if_neg (fun h => hc (.inl h)), if_neg (fun h => hc (.inr h.1))]
    · rfl

theorem splitSign_negative {T : IntTy} (hs : T.signed = true) {ds : List UInt8} (hne : ds ≠ []) :
    T.splitSign ([45] ++ ds) = (false, ds) := by
  cases ds with
  | nil => exact absurd rfl hne
  | cons c rest =>
    simp only [List.singleton_append, splitSign]
    rw [if_neg (by decide), if_pos ⟨trivial, hs⟩]

/-! ## The answer -/

section Answer

variable {T : IntTy} {radix : ℕ} {src : List UInt8}

theorem reads_ok_iff (hne : src ≠ []) (v : ℤ) :
    T.Reads (T.splitSign src).1 radix (T.splitSign src).2 (.ok v) ↔
      ∃ sign ds r, src = sign ++ ds ∧ ds ≠ [] ∧ valueOf radix ds = some r ∧
        ((sign = [] ∨ sign = [43]) ∧ v = r ∨ sign = [45] ∧ T.signed = true ∧ v = -r) ∧
        T.min ≤ v ∧ v ≤ T.max := by
  constructor
  · intro h
    obtain ⟨sign, hsrc, hne', hsign⟩ := T.exists_sign hne
    generalize T.splitSign src = split at h hsrc hne' hsign
    obtain ⟨positive, ds⟩ := split
    cases h with
    | ok hv hin =>
      refine ⟨sign, ds, _, hsrc, hne', hv, ?_, hin⟩
      rcases hsign with ⟨hsign, rfl⟩ | ⟨hsign, hs, rfl⟩
      · exact .inl ⟨hsign, rfl⟩
      · exact .inr ⟨hsign, hs, rfl⟩
  · intro ⟨sign, ds, r, hsrc, hne', hv, hsign, hin⟩
    rw [hsrc]
    rcases hsign with ⟨hsign, rfl⟩ | ⟨rfl, hs, rfl⟩
    · rw [T.splitSign_positive hne' hv hsign]
      exact @Reads.ok T true radix ds r hv hin
    · rw [splitSign_negative hs hne']
      exact @Reads.ok T false radix ds r hv hin

theorem reads_invalid_iff {positive : Bool} {text : List UInt8} :
    T.Reads positive radix text (.error .invalidDigit) ↔
      ∃ pre c post r, text = pre ++ c :: post ∧ digitOf radix c = none ∧
        valueOf radix pre = some r ∧ T.Holds positive r := by
  constructor
  · intro h
    generalize hout : (.error .invalidDigit : Except IntErrorKind ℤ) = out at h
    cases h with
    | ok => cases hout
    | invalid htext hv hin hc => exact ⟨_, _, _, _, htext, hc, hv, hin⟩
    | overflow => cases positive <;> cases hout
  · intro ⟨pre, c, post, r, htext, hc, hv, hin⟩
    exact .invalid htext hv hin hc

theorem reads_overflow_iff {positive positive' : Bool} {text : List UInt8} :
    T.Reads positive radix text (.error (overflow positive')) ↔
      positive = positive' ∧ ∃ pre c post r r', text = pre ++ c :: post ∧
        valueOf radix pre = some r ∧ T.Holds positive r ∧ valueOf radix (pre ++ [c]) = some r' ∧
        ¬ T.Holds positive r' := by
  constructor
  · intro h
    generalize hout : (.error (overflow positive') : Except IntErrorKind ℤ) = out at h
    cases h with
    | ok => cases hout
    | invalid => cases positive' <;> cases hout
    | overflow htext hv hin hv' hout' =>
      refine ⟨?_, _, _, _, _, _, htext, hv, hin, hv', hout'⟩
      cases positive <;> cases positive' <;> first | rfl | cases hout
  · intro ⟨heq, pre, c, post, r, r', htext, hv, hin, hv', hout'⟩
    subst heq
    exact .overflow htext hv hin hv' hout'

theorem reads_ne_empty {positive : Bool} {text : List UInt8} :
    ¬ T.Reads positive radix text (.error .empty) := by
  intro h
  generalize hout : (.error .empty : Except IntErrorKind ℤ) = out at h
  cases h with
  | ok => cases hout
  | invalid => cases hout
  | overflow => cases positive <;> cases hout

end Answer

/-- For every text, radix and type: a number is answered exactly when the text is a sign
and digits whose value is in the type; no text is empty; a byte that is no digit is
reported unless the value has left the type before; and the type is left otherwise. The
loop without checks, where it is taken, does not overflow and answers what the other
loop does. -/
theorem fromAsciiRadix_exact (T : IntTy) (src : List UInt8) (radix : ℕ) (hlo : 2 ≤ radix)
    (hhi : radix ≤ 36) :
    ∃ out, T.fromAsciiRadix src radix = some out ∧
      (∀ v, out = .ok v ↔ ∃ sign ds r, src = sign ++ ds ∧ ds ≠ [] ∧ valueOf radix ds = some r ∧
        ((sign = [] ∨ sign = [43]) ∧ v = r ∨ sign = [45] ∧ T.signed = true ∧ v = -r) ∧
        T.min ≤ v ∧ v ≤ T.max) ∧
      (out = .error .empty ↔ src = []) ∧
      (out = .error .invalidDigit ↔
        ∃ pre c post r, (T.splitSign src).2 = pre ++ c :: post ∧ digitOf radix c = none ∧
          valueOf radix pre = some r ∧ T.Holds (T.splitSign src).1 r) ∧
      (∀ positive, out = .error (overflow positive) ↔ (T.splitSign src).1 = positive ∧
        ∃ pre c post r r', (T.splitSign src).2 = pre ++ c :: post ∧ valueOf radix pre = some r ∧
          T.Holds (T.splitSign src).1 r ∧ valueOf radix (pre ++ [c]) = some r' ∧
          ¬ T.Holds (T.splitSign src).1 r') ∧
      (T.canNotOverflow radix (T.splitSign src).2 = true →
        T.uncheckedLoop (T.splitSign src).1 radix (T.splitSign src).2 0 =
          some (T.checkedLoop (T.splitSign src).1 radix (T.splitSign src).2 0)) := by
  have hr0 : 0 < radix := by omega
  by_cases hne : src = []
  · subst hne
    refine ⟨.error .empty, ?_, ?_, by simp, by simp [splitSign], ?_, fun h => ?_⟩
    · simp only [fromAsciiRadix, if_neg (show ¬ (2 > radix ∨ radix > 36) by omega)]
    · intro v
      constructor
      · intro h
        cases h
      · rintro ⟨sign, ds, r, hsrc, hds, -⟩
        exact absurd (List.append_eq_nil_iff.mp hsrc.symm).2 hds
    · intro positive
      cases positive <;> simp [splitSign, overflow]
    · exact uncheckedLoop_eq_checkedLoop hhi hr0 signed_of_splitSign h
  · refine ⟨_, fromAsciiRadix_formula hlo hhi hne, ?_, ?_, ?_, ?_, fun h => ?_⟩
    · intro v
      rw [checkedLoop_eq_iff hhi hr0, reads_ok_iff hne]
    · rw [checkedLoop_eq_iff hhi hr0]
      exact iff_of_false reads_ne_empty hne
    · rw [checkedLoop_eq_iff hhi hr0, reads_invalid_iff]
    · intro positive
      rw [checkedLoop_eq_iff hhi hr0, reads_overflow_iff]
    · exact uncheckedLoop_eq_checkedLoop hhi hr0 signed_of_splitSign h

theorem fromAsciiRadix_exact_min :
    fromAsciiRadix ⟨.w8, true⟩ [45, 49, 50, 56] 10 = some (.ok (-128)) := by
  obtain ⟨out, h, hok, _⟩ :=
    fromAsciiRadix_exact ⟨.w8, true⟩ [45, 49, 50, 56] 10 (by decide) (by decide)
  rw [h, (hok (-128)).mpr ⟨[45], [49, 50, 56], 128, rfl, by simp, by decide, ?_, by decide, by decide⟩]
  exact .inr ⟨rfl, rfl, rfl⟩

end IntTy

end RustStd.IntFmt
