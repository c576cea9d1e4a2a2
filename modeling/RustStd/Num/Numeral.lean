import RustStd.Num.PartialNumber

/-!
# The grammar of decimal floats

The documented grammar as a type: a numeral has digits, perhaps a dot, and
perhaps an exponent, and cannot be built otherwise. A numeral denotes a
rational number. `parse_number` accepts exactly the texts of numerals.
-/

set_option autoImplicit false

namespace RustStd.Dec2Flt
open RustStd.Machine

/-- `Sign?` -/
inductive OptSign
  | none
  | plus
  | minus
  deriving DecidableEq, Repr

def OptSign.bytes : OptSign → List UInt8
  | none => []
  | plus => [43]
  | minus => [45]

def OptSign.isMinus (sg : OptSign) : Bool := sg == minus

def OptSign.apply (sg : OptSign) (n : ℤ) : ℤ := if sg.isMinus then -n else n

/-- `Exp ::= 'e' Sign? Digit+`, in either case -/
structure Exponent where
  letter : UInt8
  sign : OptSign
  digits : List UInt8
  letter_eq : letter = 101 ∨ letter = 69
  isDigit_digits : ∀ c ∈ digits, isDigit c = true
  digits_ne : digits ≠ []

/-- `Number ::= ( Digit+ | Digit+ '.' Digit* | Digit* '.' Digit+ ) Exp?` -/
structure Numeral where
  int : List UInt8
  dot : Bool
  frac : List UInt8
  exp : Option Exponent
  isDigit_int : ∀ c ∈ int, isDigit c = true
  isDigit_frac : ∀ c ∈ frac, isDigit c = true
  frac_eq : dot = false → frac = []
  digits_ne : int ++ frac ≠ []

/-- `'inf' | 'infinity' | 'nan'`, in any case -/
def SpecialText (s : List UInt8) : Prop :=
  let lower := s.map fun c => if 65 ≤ c ∧ c ≤ 90 then c+32 else c
  lower = [105, 110, 102] ∨ lower = [105, 110, 102, 105, 110, 105, 116, 121] ∨
    lower = [110, 97, 110]

instance (s : List UInt8) : Decidable (SpecialText s) := by
  unfold SpecialText
  infer_instance

def Exponent.bytes (x : Exponent) : List UInt8 := x.letter :: (x.sign.bytes ++ x.digits)

def Exponent.value (x : Exponent) : ℤ := x.sign.apply (ofDigits x.digits)

/-- The number that `parse_scientific` reads, which stops growing. -/
def satDigits (ds : List UInt8) : ℤ :=
  ds.foldl (fun (e : ℤ) c => if e < 0x10000 then 10*e+digitVal c else e) 0

def Exponent.saturated (x : Exponent) : ℤ := x.sign.apply (satDigits x.digits)

namespace Numeral

def expBytes (N : Numeral) : List UInt8 := (N.exp.map Exponent.bytes).getD []

def bytes (N : Numeral) : List UInt8 :=
  N.int ++ (if N.dot then 46 :: N.frac else []) ++ N.expBytes

def digits (N : Numeral) : ℕ := ofDigits (N.int ++ N.frac)

def exponent (N : Numeral) : ℤ := (N.exp.map Exponent.value).getD 0-N.frac.length

/-- The same with the exponent as it is read. -/
def readExponent (N : Numeral) : ℤ := (N.exp.map Exponent.saturated).getD 0-N.frac.length

def value (N : Numeral) : ℚ := N.digits*10^N.exponent

end Numeral

/-! ## The exponent -/

theorem parseScientific_of {sg : OptSign} {ds : List UInt8} (hne : ds ≠ [])
    (hd : ∀ c ∈ ds, isDigit c = true) :
    parseScientific (sg.bytes ++ ds) = ([], some (sg.apply (satDigits ds))) := by
  obtain ⟨c, ds', rfl⟩ := List.exists_cons_of_ne_nil hne
  have hc := hd c (by simp)
  have hrange := (isDigit_iff c).mp hc
  have h45 : c ≠ 45 := by
    rintro rfl
    exact absurd hc (by decide)
  have h43 : c ≠ 43 := by
    rintro rfl
    exact absurd hc (by decide)
  have htake : (c :: ds').takeWhile isDigit = c :: ds' :=
    List.takeWhile_eq_self_iff.mpr hd
  have hdrop : (c :: ds').dropWhile isDigit = [] :=
    List.dropWhile_eq_nil_iff.mpr hd
  have hc' : (48 ≤ c && c ≤ 57) = true := hc
  cases sg with
  | none =>
    simp [parseScientific, OptSign.bytes, OptSign.apply, OptSign.isMinus, satDigits, h45, h43, hc',
      parseDigits_eq, htake, hdrop]
  | plus =>
    simp [parseScientific, OptSign.bytes, OptSign.apply, OptSign.isMinus, satDigits, hc',
      parseDigits_eq, htake, hdrop]
  | minus =>
    simp [parseScientific, OptSign.bytes, OptSign.apply, OptSign.isMinus, satDigits, hc',
      parseDigits_eq, htake, hdrop]

theorem of_parseScientific {s : List UInt8} {e : ℤ} (h : parseScientific s = ([], some e)) :
    ∃ (sg : OptSign) (ds : List UInt8), s = sg.bytes ++ ds ∧ ds ≠ [] ∧ (∀ c ∈ ds, isDigit c = true) ∧
      e = sg.apply (satDigits ds) := by
  -- the text after the sign
  have key : ∀ (sg : OptSign) (t : List UInt8), s = sg.bytes ++ t →
      (if t.head?.any (fun x => 48 ≤ x && x ≤ 57) then
        ((parseDigits (fun (e : ℤ) d => if e < 0x10000 then 10*e+d else e) t 0).1,
          some (sg.apply (parseDigits (fun (e : ℤ) d => if e < 0x10000 then 10*e+d else e) t 0).2))
        else (t, Option.none)) = ([], some e) →
      ∃ (sg : OptSign) (ds : List UInt8), s = sg.bytes ++ ds ∧ ds ≠ [] ∧
        (∀ c ∈ ds, isDigit c = true) ∧ e = sg.apply (satDigits ds) := by
    intro sg t hs ht
    split at ht
    · rename_i hany
      rw [parseDigits_eq] at ht
      simp only [Prod.mk.injEq, Option.some.injEq] at ht
      have hall := List.dropWhile_eq_nil_iff.mp ht.1
      rw [List.takeWhile_eq_self_iff.mpr hall] at ht
      refine ⟨sg, t, hs, ?_, hall, ht.2.symm⟩
      rintro rfl
      simp at hany
    · simp at ht
  by_cases h45 : s.head? = some 45
  · obtain ⟨t, rfl⟩ : ∃ t, s = 45 :: t := by
      cases s with
      | nil => simp at h45
      | cons c t => exact ⟨t, by simpa using h45⟩
    apply key .minus t rfl
    simpa [parseScientific, OptSign.apply, OptSign.isMinus] using h
  · by_cases h43 : s.head? = some 43
    · obtain ⟨t, rfl⟩ : ∃ t, s = 43 :: t := by
        cases s with
        | nil => simp at h43
        | cons c t => exact ⟨t, by simpa using h43⟩
      apply key .plus t rfl
      simpa [parseScientific, OptSign.apply, OptSign.isMinus] using h
    · apply key .none s rfl
      simpa [parseScientific, OptSign.apply, OptSign.isMinus, h45, h43] using h

/-! ## The parts of a numeral -/

theorem takeWhile_digits {ds r : List UInt8} (hd : ∀ c ∈ ds, isDigit c = true)
    (hr : ∀ c, r.head? = some c → isDigit c = false) :
    (ds ++ r).takeWhile isDigit = ds ∧ (ds ++ r).dropWhile isDigit = r := by
  rw [List.takeWhile_append_of_pos hd, List.dropWhile_append_of_pos hd]
  cases r with
  | nil => simp
  | cons c r =>
    have hc := hr c rfl
    rw [List.takeWhile_cons_of_neg (by simp [hc]), List.dropWhile_cons_of_neg (by simp [hc])]
    simp

namespace Numeral

theorem head_expBytes (N : Numeral) {c : UInt8} (h : N.expBytes.head? = some c) :
    c = 101 ∨ c = 69 := by
  unfold expBytes at h
  cases hx : N.exp with
  | none => simp [hx] at h
  | some x =>
    rw [hx] at h
    simp only [Option.map_some, Option.getD_some, Exponent.bytes, List.head?_cons,
      Option.some.injEq] at h
    rw [← h]
    exact x.letter_eq

theorem parts (N : Numeral) : intPart N.bytes = N.int ∧ fracPart N.bytes = N.frac ∧
    afterFrac N.bytes = N.expBytes := by
  have hexp : ∀ c, N.expBytes.head? = some c → isDigit c = false := by
    intro c hc
    rcases N.head_expBytes hc with rfl | rfl <;> decide
  have hdot : ∀ r, N.expBytes ≠ 46 :: r := by
    intro r hr
    have := N.head_expBytes (c := 46) (by rw [hr]; rfl)
    exact absurd this (by decide)
  unfold bytes
  cases hd : N.dot with
  | false =>
    have hf := N.frac_eq hd
    obtain ⟨h1, h2⟩ := takeWhile_digits N.isDigit_int hexp
    simp only [Bool.false_eq_true, if_false, List.append_nil, hf]
    refine ⟨h1, ?_⟩
    rcases afterInt_cases (N.int ++ N.expBytes) with ⟨r, hr, -, -⟩ | ⟨hf', ha, -⟩
    · exact absurd (h2.symm.trans hr) (hdot r)
    · exact ⟨hf', ha.trans h2⟩
  | true =>
    obtain ⟨h1, h2⟩ := takeWhile_digits N.isDigit_int (r := 46 :: (N.frac ++ N.expBytes)) (by
      intro c hc
      obtain rfl : (46:UInt8) = c := by simpa using hc
      decide)
    obtain ⟨h3, h4⟩ := takeWhile_digits N.isDigit_frac hexp
    have happ : N.int ++ (if true = true then 46 :: N.frac else []) ++ N.expBytes =
        N.int ++ 46 :: (N.frac ++ N.expBytes) := by simp
    rw [happ]
    refine ⟨h1, ?_⟩
    rcases afterInt_cases (N.int ++ 46 :: (N.frac ++ N.expBytes)) with ⟨r, hr, hf, ha⟩ | ⟨-, -, hne⟩
    · obtain rfl : N.frac ++ N.expBytes = r := by
        have := h2.symm.trans hr
        simpa using this
      exact ⟨hf.trans h3, ha.trans h4⟩
    · exact absurd h2 (hne _)

theorem parseExponent_expBytes (N : Numeral) :
    parseExponent N.expBytes = ([], some ((N.exp.map Exponent.saturated).getD 0)) := by
  unfold expBytes
  cases hx : N.exp with
  | none => rfl
  | some x =>
    simp only [Option.map_some, Option.getD_some, Exponent.bytes, parseExponent]
    rw [if_pos x.letter_eq, parseScientific_of x.digits_ne x.isDigit_digits]
    rfl

theorem bytes_ne (N : Numeral) : N.bytes ≠ [] := by
  intro h
  apply N.digits_ne
  obtain ⟨h1, h2, -⟩ := N.parts
  rw [← h1, ← h2, h]
  rfl

theorem parseNumber_bytes (N : Numeral) (hlen : N.bytes.length ≤ isizeMax) :
    ∃ d, parseNumber N.bytes = some (some d) ∧ Reads N.digits N.readExponent d := by
  obtain ⟨h1, h2, h3⟩ := N.parts
  obtain ⟨-, -, h⟩ := parsePartialNumber_eq N.bytes_ne hlen
  rw [h1, h2, h3, N.parseExponent_expBytes] at h
  obtain ⟨d, hd, hr⟩ := h _ N.digits_ne rfl
  refine ⟨d, ?_, hr⟩
  rw [parseNumber, hd]
  simp

end Numeral

theorem exists_numeral {s : List UInt8} {e : ℤ} (hne : intPart s ++ fracPart s ≠ [])
    (he : parseExponent (afterFrac s) = ([], some e)) : ∃ N : Numeral, s = N.bytes := by
  -- the exponent is absent, or it is one of the grammar
  obtain ⟨x, hx⟩ : ∃ x : Option Exponent, afterFrac s = (x.map Exponent.bytes).getD [] := by
    unfold parseExponent at he
    split at he
    · rename_i c r hcr
      split at he
      · rename_i hc
        obtain ⟨sg, ds, rfl, h1, h2, -⟩ := of_parseScientific he
        exact ⟨some ⟨c, sg, ds, hc, h2, h1⟩, hcr⟩
      · simp at he
    · rename_i h
      exact ⟨none, h⟩
  have hs := intPart_append s
  rcases afterInt_cases s with ⟨r, hr, hf, ha⟩ | ⟨hf, ha, -⟩
  · refine ⟨⟨intPart s, true, fracPart s, x, isDigit_intPart s, isDigit_fracPart s, by simp, hne⟩,
      ?_⟩
    have hr' := List.takeWhile_append_dropWhile (p := isDigit) (l := r)
    rw [← hf, ← ha, hx] at hr'
    simp only [Numeral.bytes, Numeral.expBytes, if_true]
    rw [List.append_assoc, List.cons_append, hr', ← hr, hs]
  · refine ⟨⟨intPart s, false, [], x, isDigit_intPart s, by simp, by simp, by rwa [hf] at hne⟩, ?_⟩
    simp only [Numeral.bytes, Numeral.expBytes, Bool.false_eq_true, if_false, List.append_nil]
    rw [← hx, ha, hs]

theorem parseNumber_total {s : List UInt8} (hne : s ≠ []) (hlen : s.length ≤ isizeMax) :
    ∃ r, parseNumber s = some r ∧ (r.isSome ↔ ∃ N : Numeral, s = N.bytes) := by
  by_cases hN : ∃ N : Numeral, s = N.bytes
  · obtain ⟨N, rfl⟩ := hN
    obtain ⟨d, hd, -⟩ := N.parseNumber_bytes hlen
    exact ⟨_, hd, by simp⟩
  · refine ⟨none, ?_, by simpa using fun N hs => hN ⟨N, hs⟩⟩
    obtain ⟨h1, h2, h3⟩ := parsePartialNumber_eq hne hlen
    unfold parseNumber
    by_cases hd : intPart s ++ fracPart s = []
    · rw [h1 hd]
      rfl
    · cases he : (parseExponent (afterFrac s)).2 with
      | none =>
        rw [h2 hd he]
        rfl
      | some e =>
        obtain ⟨d, hp, -⟩ := h3 e hd he
        rw [hp]
        have hrest : (parseExponent (afterFrac s)).1 ≠ [] := by
          intro hnil
          exact hN (exists_numeral hd (Prod.ext hnil he))
        have hpos := List.length_pos_iff.mpr hrest
        simp only [some_bind, Option.pure_def]
        rw [if_neg (by omega)]

end RustStd.Dec2Flt
