import RustStd.Num.DecimalSeqParse
import RustStd.Num.FastPath

/-!
# What `dec2flt` accepts

The documented grammar with its sign. Nothing that is accepted makes any step
panic, and nothing else is accepted.
-/

set_option autoImplicit false

namespace RustStd.Dec2Flt
open RustStd.Checked RustStd.Lemire RustStd.Machine

/-- `Float ::= Sign? ( 'inf' | 'infinity' | 'nan' | Number )` -/
def FloatText (s : List UInt8) : Prop :=
  ∃ (sg : OptSign) (t : List UInt8), s = sg.bytes ++ t ∧
    (SpecialText t ∨ ∃ N : Numeral, t = N.bytes)

/-! ## Infinity and NaN -/

theorem fromLeBytes_injective {l l' : List UInt8} (hlen : l.length = l'.length)
    (h : fromLeBytes l = fromLeBytes l') : l = l' := by
  induction l generalizing l' with
  | nil => exact (List.eq_nil_of_length_eq_zero hlen.symm).symm
  | cons b l ih =>
    cases l' with
    | nil => simp at hlen
    | cons b' l' =>
      rw [fromLeBytes, fromLeBytes] at h
      have hb := b.toNat_lt
      have hb' := b'.toNat_lt
      rw [UInt8.toNat_inj.mp (show b.toNat = b'.toNat by omega),
        ih (by simpa using hlen) (by omega)]

theorem and_mask (l : List UInt8) {n : ℕ} (hn : l.length ≤ n) :
    fromLeBytes l &&& repeatByte 0xDF n = fromLeBytes (l.map (· &&& 0xDF)) := by
  induction l generalizing n with
  | nil => simp [fromLeBytes]
  | cons b l ih =>
    obtain ⟨n, rfl⟩ : ∃ k, n = k+1 := ⟨n-1, by simp at hn; omega⟩
    have hb := b.toNat_lt
    have ih := ih (n := n) (by simpa using hn)
    rw [fromLeBytes, repeatByte, List.map_cons, fromLeBytes, ← ih, UInt8.toNat_and]
    have hdm := Nat.div_add_mod ((b.toNat+256*fromLeBytes l) &&& (0xDF+256*repeatByte 0xDF n)) (2^8)
    rw [Nat.and_mod_two_pow, Nat.and_div_two_pow] at hdm
    rw [← hdm, show (b.toNat+256*fromLeBytes l)/2^8 = fromLeBytes l by omega,
      show (0xDF+256*repeatByte 0xDF n)/2^8 = repeatByte 0xDF n by omega,
      show (b.toNat+256*fromLeBytes l)%2^8 = b.toNat by omega,
      show (0xDF+256*repeatByte 0xDF n)%2^8 = 0xDF by omega, Nat.add_comm]
    rfl

/-- The byte in lower case. -/
def lowerByte (c : UInt8) : UInt8 := if 65 ≤ c ∧ c ≤ 90 then c+32 else c

set_option maxRecDepth 8000 in
theorem and_letter : ∀ c : UInt8, (c &&& 0xDF = 73 ↔ lowerByte c = 105) ∧
    (c &&& 0xDF = 78 ↔ lowerByte c = 110) ∧ (c &&& 0xDF = 70 ↔ lowerByte c = 102) ∧
    (c &&& 0xDF = 84 ↔ lowerByte c = 116) ∧ (c &&& 0xDF = 89 ↔ lowerByte c = 121) ∧
    (c &&& 0xDF = 65 ↔ lowerByte c = 97) := by
  decide

theorem register_iff {s w : List UInt8} (hs : s.length ≤ 8) (hlen : s.length = w.length) :
    fromLeBytes s &&& 0xDFDFDFDFDFDFDFDF = fromLeBytes w ↔ s.map (· &&& 0xDF) = w := by
  have hmask : 0xDFDFDFDFDFDFDFDF = repeatByte 0xDF 8 := rfl
  rw [hmask, and_mask s hs]
  constructor
  · exact fromLeBytes_injective (by rw [List.length_map, hlen])
  · intro h
    rw [h]

theorem map_inf_iff (s : List UInt8) :
    s.map (· &&& 0xDF) = [73, 78, 70] ↔ s.map lowerByte = [105, 110, 102] := by
  simp only [List.map_eq_cons_iff, List.map_eq_nil_iff, (and_letter _).1, (and_letter _).2.1,
    (and_letter _).2.2.1]

theorem map_nan_iff (s : List UInt8) :
    s.map (· &&& 0xDF) = [78, 65, 78] ↔ s.map lowerByte = [110, 97, 110] := by
  simp only [List.map_eq_cons_iff, List.map_eq_nil_iff, (and_letter _).2.1,
    (and_letter _).2.2.2.2.2]

theorem map_infinity_iff (s : List UInt8) :
    s.map (· &&& 0xDF) = [73, 78, 70, 73, 78, 73, 84, 89] ↔
      s.map lowerByte = [105, 110, 102, 105, 110, 105, 116, 121] := by
  simp only [List.map_eq_cons_iff, List.map_eq_nil_iff, (and_letter _).1, (and_letter _).2.1,
    (and_letter _).2.2.1, (and_letter _).2.2.2.1, (and_letter _).2.2.2.2.1]

theorem parseInfNan_iff (s : List UInt8) : (parseInfNan s).isSome ↔ SpecialText s := by
  change _ ↔ s.map lowerByte = [105, 110, 102] ∨
    s.map lowerByte = [105, 110, 102, 105, 110, 105, 116, 121] ∨ s.map lowerByte = [110, 97, 110]
  rw [← map_inf_iff, ← map_nan_iff, ← map_infinity_iff]
  have hl : ∀ w : List UInt8, s.map (· &&& 0xDF) = w → s.length = w.length := by
    rintro w rfl
    rw [List.length_map]
  unfold parseInfNan
  by_cases h8 : s.length = 8
  · have hreg := register_iff (w := [73, 78, 70, 73, 78, 73, 84, 89]) h8.le h8
    have hw : fromLeBytes [73, 78, 70, 73, 78, 73, 84, 89] = 0x5954494E49464E49 := by decide
    have h3 : ∀ a b c : UInt8, s.map (· &&& 0xDF) ≠ [a, b, c] := by
      intro a b c h
      have := hl _ h
      simp [h8] at this
    rw [hw] at hreg
    simp only [h8, if_true, hreg, h3, false_or, or_false]
    split
    · rename_i h
      simp [h]
    · rename_i h
      simp [h]
  · have hno : s.map (· &&& 0xDF) ≠ [73, 78, 70, 73, 78, 73, 84, 89] := fun h => h8 (hl _ h)
    by_cases h3 : s.length = 3
    · have hreg := register_iff (w := [73, 78, 70]) (by omega) h3
      have hreg' := register_iff (w := [78, 65, 78]) (by omega) h3
      have hw : fromLeBytes [73, 78, 70] = 0x464E49 := by decide
      have hw' : fromLeBytes [78, 65, 78] = 0x4E414E := by decide
      rw [hw] at hreg
      rw [hw'] at hreg'
      rw [if_neg h8, if_pos h3]
      simp only [hreg, hreg', hno, false_or]
      split
      · rename_i h
        simp [h]
      · rename_i h
        split
        · rename_i h'
          simp [h']
        · rename_i h'
          simp [h, h']
    · have h3' : ∀ a b c : UInt8, s.map (· &&& 0xDF) ≠ [a, b, c] := fun a b c h => h3 (hl _ h)
      simp [h8, h3, h3', hno]

/-! ## Totality -/

theorem computeOrSlow_total (F : RawFloat) (N : Numeral) (num : Decimal)
    (hm : num.mantissa < 10^19) : ∃ fp, computeOrSlow F num N.bytes = some fp := by
  obtain ⟨slow, hslow, -⟩ := parseLongMantissa_spec F N
  obtain ⟨fp, hfp, -⟩ := computeFloat_result F num.exponent (show num.mantissa < 2^64 by omega)
  obtain ⟨next, hnext, -⟩ := computeFloat_result F num.exponent
    (show num.mantissa+1 < 2^64 by omega)
  have hend : ∀ fp : BiasedFp,
      ∃ fp', (if fp.pBiased < 0 then parseLongMantissa F N.bytes else some fp) = some fp' := by
    intro fp
    split
    · exact ⟨slow, hslow⟩
    · exact ⟨fp, rfl⟩
  rw [computeOrSlow, hfp, some_bind]
  split
  · rw [u64_eq (by omega), some_bind, hnext]
    exact hend _
  · exact hend _

theorem Reads.mantissa_lt {digits : ℕ} {e : ℤ} {num : Decimal} (h : Reads digits e num) :
    num.mantissa < 10^19 := by
  cases h with
  | exact hd => exact hd
  | leading m k hk hm hm' => exact hm'

theorem dec2fltUnsigned_numeral (F : RawFloat) (opt negative : Bool) (N : Numeral)
    (hlen : N.bytes.length ≤ isizeMax) :
    ∃ b, dec2fltUnsigned F opt negative N.bytes = some (.ok b) := by
  obtain ⟨num, hnum, hr⟩ := N.parseNumber_bytes hlen
  obtain ⟨fp, hfp⟩ := computeOrSlow_total F N { num with negative } hr.mantissa_lt
  obtain ⟨fast, hfast, -⟩ := Decimal.tryFastPath_spec F { num with negative }
  have hopt : ∃ fast, (if !opt then Decimal.tryFastPath F { num with negative }
      else some none) = some fast := by
    cases opt with
    | false => exact ⟨fast, hfast⟩
    | true => exact ⟨none, rfl⟩
  obtain ⟨fast, hfast⟩ := hopt
  rw [dec2fltUnsigned, hnum, some_bind]
  simp only []
  rw [hfast, some_bind]
  cases fast with
  | some value => exact ⟨value, rfl⟩
  | none =>
    simp only []
    rw [hfp]
    exact ⟨_, rfl⟩

theorem dec2fltUnsigned_total (F : RawFloat) (opt negative : Bool) {t : List UInt8} (hne : t ≠ [])
    (hlen : t.length ≤ isizeMax) :
    (∃ b, dec2fltUnsigned F opt negative t = some (.ok b)) ∧
        (SpecialText t ∨ ∃ N : Numeral, t = N.bytes) ∨
      dec2fltUnsigned F opt negative t = some (.error .invalid) ∧
        ¬ (SpecialText t ∨ ∃ N : Numeral, t = N.bytes) := by
  by_cases hN : ∃ N : Numeral, t = N.bytes
  · obtain ⟨N, rfl⟩ := hN
    exact Or.inl ⟨dec2fltUnsigned_numeral F opt negative N hlen, Or.inr ⟨N, rfl⟩⟩
  · obtain ⟨r, hr, hiff⟩ := parseNumber_total hne hlen
    have hnone : r = none := by
      cases r with
      | none => rfl
      | some num => exact absurd (hiff.mp rfl) hN
    have hspecial := parseInfNan_iff t
    rw [dec2fltUnsigned, hr, hnone, some_bind]
    simp only []
    cases hp : parseInfNan t with
    | some v =>
      rw [hp] at hspecial
      exact Or.inl ⟨⟨_, rfl⟩, Or.inl (hspecial.mp rfl)⟩
    | none =>
      rw [hp] at hspecial
      refine Or.inr ⟨rfl, ?_⟩
      rintro (h | h)
      · exact absurd (hspecial.mpr h) (by simp)
      · exact hN h

theorem Numeral.head_bytes (N : Numeral) {c : UInt8} (hc : N.bytes.head? = some c) :
    isDigit c = true ∨ c = 46 := by
  unfold Numeral.bytes at hc
  cases hi : N.int with
  | cons d ds =>
    rw [hi] at hc
    obtain rfl : d = c := by simpa using hc
    exact Or.inl (N.isDigit_int d (by rw [hi]; simp))
  | nil =>
    have hdot : N.dot = true := by
      by_contra h
      have hf := N.frac_eq (by simpa using h)
      exact N.digits_ne (by rw [hi, hf]; rfl)
    right
    simpa [hi, hdot] using hc.symm

theorem head_unsigned {c : UInt8} {t : List UInt8}
    (h : SpecialText (c :: t) ∨ ∃ N : Numeral, c :: t = N.bytes) : ¬ (c = 45 ∨ c = 43) := by
  rcases h with h | ⟨N, hN⟩
  · change (lowerByte c :: t.map lowerByte) = _ ∨ (lowerByte c :: t.map lowerByte) = _ ∨
      (lowerByte c :: t.map lowerByte) = _ at h
    simp only [List.cons.injEq] at h
    rintro (rfl | rfl)
    · rcases h with ⟨h, -⟩ | ⟨h, -⟩ | ⟨h, -⟩ <;> exact absurd h (by decide)
    · rcases h with ⟨h, -⟩ | ⟨h, -⟩ | ⟨h, -⟩ <;> exact absurd h (by decide)
  · have hc := N.head_bytes (c := c) (by rw [← hN]; rfl)
    rintro (rfl | rfl)
    · exact absurd hc (by decide)
    · exact absurd hc (by decide)

theorem floatText_cons_iff {c : UInt8} {t u : List UInt8}
    (hu : u = if c = 45 ∨ c = 43 then t else c :: t) :
    FloatText (c :: t) ↔ SpecialText u ∨ ∃ N : Numeral, u = N.bytes := by
  constructor
  · rintro ⟨sg, t', hs, h⟩
    cases sg with
    | none =>
      obtain rfl : c :: t = t' := hs
      rw [hu, if_neg (head_unsigned h)]
      exact h
    | plus =>
      obtain ⟨rfl, rfl⟩ := List.cons.inj hs
      rw [hu, if_pos (Or.inr rfl)]
      exact h
    | minus =>
      obtain ⟨rfl, rfl⟩ := List.cons.inj hs
      rw [hu, if_pos (Or.inl rfl)]
      exact h
  · intro h
    by_cases hc : c = 45 ∨ c = 43
    · rw [if_pos hc] at hu
      subst hu
      rcases hc with rfl | rfl
      · exact ⟨.minus, u, rfl, h⟩
      · exact ⟨.plus, u, rfl, h⟩
    · rw [if_neg hc] at hu
      exact ⟨.none, u, hu.symm, h⟩

theorem not_floatText_nil : ¬ (SpecialText [] ∨ ∃ N : Numeral, [] = N.bytes) := by
  rintro (h | ⟨N, hN⟩)
  · exact absurd h (by decide)
  · exact N.bytes_ne hN.symm

/-- `dec2flt` returns for every text, and it returns a float exactly for the texts
of its grammar. -/
theorem dec2flt_accepts (F : RawFloat) (optimizeForSize : Bool) (s : Slice UInt8) :
    ∃ r, dec2flt F optimizeForSize s.elems = some r ∧ (r.isOk = true ↔ FloatText s.elems) ∧
      (r = .error .empty ↔ s.elems = []) ∧
      (r = .error .invalid ↔ s.elems ≠ [] ∧ ¬ FloatText s.elems) := by
  obtain ⟨l, hlen⟩ := s
  cases l with
  | nil =>
    refine ⟨.error .empty, rfl, ?_, by simp, by simp⟩
    constructor
    · intro h
      simp [Except.isOk, Except.toBool] at h
    · rintro ⟨sg, t, hs, h⟩
      have ht : t = [] := by
        cases sg
        · exact hs.symm
        · simp [OptSign.bytes] at hs
        · simp [OptSign.bytes] at hs
      rw [ht] at h
      exact absurd h not_floatText_nil
  | cons c t =>
    simp only
    obtain ⟨u, hu⟩ : ∃ u, u = if c = 45 ∨ c = 43 then t else c :: t := ⟨_, rfl⟩
    rw [floatText_cons_iff hu]
    have hrun : dec2flt F optimizeForSize (c :: t) = if u = [] then some (.error .invalid)
        else dec2fltUnsigned F optimizeForSize (c == 45) u := by
      rw [hu]
      rfl
    by_cases hnil : u = []
    · rw [hrun, if_pos hnil, hnil]
      refine ⟨_, rfl, ?_, by simp, ?_⟩
      · exact ⟨fun h => absurd h (by simp [Except.isOk, Except.toBool]),
          fun h => absurd h not_floatText_nil⟩
      · exact ⟨fun _ => ⟨by simp, not_floatText_nil⟩, fun _ => rfl⟩
    · have hulen : u.length ≤ isizeMax := by
        rw [hu]
        split
        · simp only [List.length_cons] at hlen
          omega
        · exact hlen
      rw [hrun, if_neg hnil]
      rcases dec2fltUnsigned_total F optimizeForSize (c == 45) hnil hulen with
        ⟨⟨b, hb⟩, h⟩ | ⟨he, h⟩
      · refine ⟨.ok b, hb, ?_, by simp, ?_⟩
        · simp [Except.isOk, Except.toBool, h]
        · simp [h]
      · refine ⟨.error .invalid, he, ?_, by simp, ?_⟩
        · simp [Except.isOk, Except.toBool, h]
        · simp [h]

end RustStd.Dec2Flt
