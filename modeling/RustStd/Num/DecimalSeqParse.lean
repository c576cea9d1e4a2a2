import RustStd.Num.Numeral
import RustStd.Num.SlowPath

/-!
# Parsing a numeral into a digit sequence

`parse_decimal_seq` on the text of a numeral: the digits without leading zeros,
without trailing zeros, and as many as there is room for. The decimal point is
computed modulo `2^32`.
-/

set_option autoImplicit false

namespace RustStd.Dec2Flt
open RustStd.Checked RustStd.Digits DecimalSeq

/-! ## Digits of a text -/

theorem ofDigits_eq_ofFn (ds : List UInt8) (f : ℕ → ℕ)
    (hf : ∀ i c, ds[i]? = some c → f i = digitVal c) : ofDigits ds = ofFn 10 f ds.length := by
  induction ds using List.reverseRecOn with
  | nil => rfl
  | append_singleton ds c ih =>
    have hlast := hf ds.length c (by simp)
    have ih := ih fun i c' hi => hf i c' (by
      have hlt := (List.getElem?_eq_some_iff.mp hi).1
      rw [List.getElem?_append_left hlt]
      exact hi)
    rw [ofDigits_append, ih, List.length_append, List.length_singleton, ofFn, hlast]
    simp [ofDigits]

theorem digitVal_eq {ds : List UInt8} (hd : ∀ c ∈ ds, isDigit c = true) {i : ℕ} {c : UInt8}
    (hi : ds[i]? = some c) : digitVal c = ofDigits ds/10^(ds.length-1-i)%10 := by
  obtain ⟨f, hf⟩ : ∃ f : ℕ → ℕ, ∀ i c, ds[i]? = some c → f i = digitVal c :=
    ⟨fun i => digitVal (ds[i]?.getD 48), fun i c h => by simp [h]⟩
  have hlt := (List.getElem?_eq_some_iff.mp hi).1
  rw [ofDigits_eq_ofFn ds f hf, ← hf i c hi]
  apply digit_eq _ hlt
  intro j hj
  have hget := List.getElem?_eq_getElem hj
  rw [hf j _ hget]
  exact digitVal_lt (hd _ (List.getElem_mem hj))

theorem digitVal_eq_zero {c : UInt8} (hc : isDigit c = true) : digitVal c = 0 ↔ c = 48 := by
  rw [isDigit_iff] at hc
  unfold digitVal
  constructor
  · intro h
    apply UInt8.toNat_inj.mp
    change c.toNat = 48
    lia
  · rintro rfl
    rfl

theorem ofDigits_dropWhile (ds : List UInt8) :
    ofDigits (ds.dropWhile (· == 48)) = ofDigits ds := by
  induction ds with
  | nil => rfl
  | cons c ds ih =>
    rw [List.dropWhile_cons]
    split
    · rename_i h
      obtain rfl : c = 48 := by simpa using h
      rw [ih, ofDigits_cons]
      simp [digitVal]
    · rfl

theorem le_ofDigits {ds : List UInt8} (hd : ∀ c ∈ ds, isDigit c = true) {c : UInt8}
    (hc : ds.head? = some c) (h48 : c ≠ 48) : 10^(ds.length-1) ≤ ofDigits ds := by
  cases ds with
  | nil => simp at hc
  | cons c' ds =>
    obtain rfl : c' = c := by simpa using hc
    have h0 := mt (digitVal_eq_zero (hd c' (by simp))).mp h48
    rw [ofDigits_cons, List.length_cons, Nat.add_sub_cancel]
    calc 10^ds.length = 1*10^ds.length := (Nat.one_mul _).symm
      _ ≤ digitVal c'*10^ds.length := Nat.mul_le_mul_right _ (by lia)
      _ ≤ _ := Nat.le_add_right _ _

theorem trailingZeros_filter (l : List UInt8) :
    trailingZeros (l.filter (· ≠ 46)) = trailingZeros l := by
  induction l with
  | nil => rfl
  | cons c l ih =>
    by_cases h : c = 46
    · subst h
      simpa [trailingZeros] using ih
    · rw [List.filter_cons_of_pos (by simpa using h), trailingZeros, trailingZeros, ih]

theorem trailingZeros_spec {ds : List UInt8} (hd : ∀ c ∈ ds, isDigit c = true)
    (h0 : ofDigits ds ≠ 0) :
    ofDigits ds%10^trailingZeros ds.reverse = 0 ∧
      ofDigits ds%10^(trailingZeros ds.reverse+1) ≠ 0 := by
  induction ds using List.reverseRecOn with
  | nil => exact absurd rfl h0
  | append_singleton ds c ih =>
    have hc := hd c (by simp)
    have hsum : ofDigits (ds ++ [c]) = ofDigits ds*10+digitVal c := by
      rw [ofDigits_append]
      simp [ofDigits]
    rw [hsum] at h0 ⊢
    rw [List.reverse_append, List.reverse_singleton, List.singleton_append, trailingZeros]
    by_cases h48 : c = 48
    · have hz := (digitVal_eq_zero hc).mpr h48
      rw [hz, Nat.add_zero] at h0 ⊢
      obtain ⟨h1, h2⟩ := ih (fun c hc => hd c (by simp [hc])) (by lia)
      rw [if_pos h48]
      constructor
      · rw [pow_succ, Nat.mul_mod_mul_right, h1, Nat.zero_mul]
      · rw [pow_succ, Nat.mul_mod_mul_right]
        lia
    · have h46 : c ≠ 46 := by
        rintro rfl
        exact absurd hc (by decide)
      have hz := mt (digitVal_eq_zero hc).mp h48
      have hlt := digitVal_lt hc
      rw [if_neg h48, if_pos h46, pow_zero, Nat.zero_add, pow_one]
      lia

/-! ## The digits that are held -/

/-- The digits that were added so far. -/
structure Holds (ds : List UInt8) (d : DecimalSeq) : Prop where
  num : d.numDigits = ds.length
  digit : ∀ i c, ds[i]? = some c → i < maxDigits → d.digits i = digitVal c
  truncated : d.truncated = false
  point : d.decimalPoint = 0

theorem holds_default : Holds [] DecimalSeq.default := ⟨rfl, by simp, rfl, rfl⟩

theorem Holds.tryAddDigit {ds : List UInt8} {d : DecimalSeq} (h : Holds ds d) (c : UInt8) :
    Holds (ds ++ [c]) (d.tryAddDigit (digitVal c)) := by
  refine ⟨?_, fun i c' hi him => ?_, h.truncated, h.point⟩
  · simp [DecimalSeq.tryAddDigit, h.num]
  · simp only [DecimalSeq.tryAddDigit, h.num]
    rcases Nat.lt_or_ge i ds.length with hlt | hge
    · rw [List.getElem?_append_left hlt] at hi
      have := h.digit i c' hi him
      split
      · rw [Function.update_of_ne (by lia), this]
      · exact this
    · obtain rfl : i = ds.length := by
        have := (List.getElem?_eq_some_iff.mp hi).1
        simp at this
        lia
      obtain rfl : c = c' := by simpa using hi
      rw [if_pos him, Function.update_self]

theorem Holds.foldl {ds : List UInt8} {d : DecimalSeq} (h : Holds ds d) (cs : List UInt8) :
    Holds (ds ++ cs) (cs.foldl (fun d c => d.tryAddDigit (digitVal c)) d) := by
  induction cs generalizing ds d with
  | nil => simpa using h
  | cons c cs ih =>
    have := ih (h.tryAddDigit c)
    rwa [List.append_assoc, List.singleton_append] at this

theorem word_byte {cs : List UInt8} (hd : ∀ c ∈ cs, isDigit c = true) {i : ℕ} {c : UInt8}
    (hi : cs[i]? = some c) :
    repeatByte 48 cs.length ≤ fromLeBytes cs ∧
      (fromLeBytes cs-repeatByte 48 cs.length)/256^i%256 = digitVal c := by
  induction cs generalizing i c with
  | nil => simp at hi
  | cons a cs ih =>
    have ha := (isDigit_iff a).mp (hd a (by simp))
    have hle : repeatByte 48 cs.length ≤ fromLeBytes cs := by
      cases cs with
      | nil => exact le_rfl
      | cons b cs => exact (ih (fun c hc => hd c (by simp [hc])) (i := 0) (c := b) rfl).1
    rw [List.length_cons, repeatByte, fromLeBytes]
    have hsub : a.toNat+256*fromLeBytes cs-(48+256*repeatByte 48 cs.length) =
        digitVal a+256*(fromLeBytes cs-repeatByte 48 cs.length) := by
      unfold digitVal
      lia
    have hv : digitVal a < 256 := by
      unfold digitVal
      lia
    constructor
    · lia
    · rw [hsub]
      cases i with
      | zero =>
        obtain rfl : a = c := by simpa using hi
        rw [pow_zero, Nat.div_one, Nat.add_mul_mod_self_left, Nat.mod_eq_of_lt hv]
      | succ i =>
        rw [List.getElem?_cons_succ] at hi
        rw [pow_succ', ← Nat.div_div_eq_div_mul, Nat.add_mul_div_left _ _ (by norm_num),
          Nat.div_eq_of_lt hv, Nat.zero_add]
        exact (ih (fun c hc => hd c (by simp [hc])) hi).2

theorem Holds.writeU64 {ds cs : List UInt8} {d : DecimalSeq} (h : Holds ds d) (h8 : cs.length = 8)
    (hd : ∀ c ∈ cs, isDigit c = true) (hroom : d.numDigits+8 < maxDigits) :
    ∃ d', d.writeU64 (fromLeBytes cs-0x3030303030303030) = some d' ∧ Holds (ds ++ cs) d' := by
  rw [DecimalSeq.writeU64, if_pos hroom.le]
  refine ⟨_, rfl, ?_, fun i c hi him => ?_, h.truncated, h.point⟩
  · simp [h.num, h8]
  · rw [h.num]
    rcases Nat.lt_or_ge i ds.length with hlt | hge
    · rw [List.getElem?_append_left hlt] at hi
      simp only
      rw [if_neg (by lia)]
      exact h.digit i c hi him
    · rw [List.getElem?_append_right hge] at hi
      have hlt := (List.getElem?_eq_some_iff.mp hi).1
      have hb := (word_byte hd hi).2
      rw [h8, show repeatByte 48 8 = 0x3030303030303030 from rfl] at hb
      simp only
      rw [if_pos (by lia)]
      exact hb

theorem addEights_spec (s : List UInt8) {ds : List UInt8} {d : DecimalSeq} (h : Holds ds d) :
    ∃ a b d', s = a ++ b ∧ (∀ c ∈ a, isDigit c = true) ∧ addEights s d = some (b, d') ∧
      Holds (ds ++ a) d' := by
  induction s, d using addEights.induct generalizing ds with
  | case1 b0 b1 b2 b3 b4 b5 b6 b7 rest d hroom ih =>
    obtain ⟨eight, height⟩ : ∃ l, l = [b0, b1, b2, b3, b4, b5, b6, b7] := ⟨_, rfl⟩
    have hlen : eight.length = 8 := by rw [height]; rfl
    rw [addEights, if_pos hroom, readU64_cons, ← height, some_bind]
    by_cases h8 : is8Digits (fromLeBytes eight) = true
    · have hall := (is8Digits_iff hlen).mp h8
      have hle : 0x3030303030303030 ≤ fromLeBytes eight := by
        have := (word_byte hall (i := 0) (c := b0) (by rw [height]; rfl)).1
        rwa [hlen] at this
      obtain ⟨d', hd', hh'⟩ := h.writeU64 hlen hall hroom
      obtain ⟨a, b, d'', rfl, ha, hp, hh''⟩ := ih d' hh'
      rw [if_pos h8, sub_eq hle, some_bind, hd', some_bind, hp]
      refine ⟨eight ++ a, b, d'', by rw [height]; rfl, ?_, rfl, by rwa [← List.append_assoc]⟩
      intro c hc
      rcases List.mem_append.mp hc with hc | hc
      · exact hall c hc
      · exact ha c hc
    · rw [if_neg h8]
      exact ⟨[], _, d, rfl, by simp, rfl, by rwa [List.append_nil]⟩
  | case2 b0 b1 b2 b3 b4 b5 b6 b7 rest d hroom =>
    rw [addEights, if_neg hroom]
    exact ⟨[], _, d, rfl, by simp, rfl, by rwa [List.append_nil]⟩
  | case3 s d hs =>
    rw [addEights.eq_2 _ _ hs]
    exact ⟨[], s, d, rfl, by simp, rfl, by rwa [List.append_nil]⟩

/-- The digits of a numeral after the leading zeros. -/
def Numeral.significant (N : Numeral) : List UInt8 := (N.int ++ N.frac).dropWhile (· == 48)

theorem dropWhile_zeros_append {ds r : List UInt8} (hr : r.head? ≠ some 48) :
    (ds ++ r).dropWhile (· == 48) = ds.dropWhile (· == 48) ++ r := by
  rw [List.dropWhile_append]
  split
  · rename_i h
    rw [List.isEmpty_iff] at h
    rw [h, List.nil_append]
    cases r with
    | nil => rfl
    | cons c r => rw [List.dropWhile_cons_of_neg (by simpa using hr)]
  · rfl

theorem isDigit_dropWhile {ds : List UInt8} (hd : ∀ c ∈ ds, isDigit c = true) :
    ∀ c ∈ ds.dropWhile (· == 48), isDigit c = true :=
  fun c hc => hd c ((List.dropWhile_suffix _).subset hc)

theorem parseSeqDigits_bytes (N : Numeral) :
    ∃ d, parseSeqDigits N.bytes =
        some (N.expBytes, { d with decimalPoint := wrapI32 (-N.frac.length) }) ∧
      Holds N.significant d := by
  have hexp : ∀ c, N.expBytes.head? = some c → isDigit c = false := by
    intro c hc
    rcases N.head_expBytes hc with rfl | rfl <;> decide
  have hexp48 : N.expBytes.head? ≠ some 48 := fun h => absurd (hexp 48 h) (by decide)
  have hdot : ∀ r, N.expBytes ≠ 46 :: r := by
    intro r hr
    have := N.head_expBytes (c := 46) (by rw [hr]; rfl)
    exact absurd this (by decide)
  have hint := isDigit_dropWhile N.isDigit_int
  have hh := holds_default.foldl (N.int.dropWhile (· == 48))
  rw [List.nil_append] at hh
  unfold Numeral.significant
  rw [parseSeqDigits]
  cases hd : N.dot with
  | false =>
    have hf := N.frac_eq hd
    have hbytes : N.bytes = N.int ++ N.expBytes := by simp [Numeral.bytes, hd]
    obtain ⟨h1, h2⟩ := takeWhile_digits hint hexp
    rw [hf, List.append_nil, hbytes, dropWhile_zeros_append hexp48, parseDigits_eq, h1, h2]
    generalize List.foldl (fun d c => DecimalSeq.tryAddDigit d (digitVal c)) DecimalSeq.default
      (N.int.dropWhile (· == 48)) = d at hh ⊢
    refine ⟨d, ?_, hh⟩
    split
    · rename_i heq
      exact absurd (Prod.mk.inj heq).1 (hdot _)
    · rename_i heq
      rw [← (Prod.mk.inj heq).1, ← (Prod.mk.inj heq).2, List.length_nil, Nat.cast_zero, neg_zero,
        wrapI32_eq (by norm_num) (by norm_num), ← hh.point]
  | true =>
    have hbytes : N.bytes = N.int ++ 46 :: (N.frac ++ N.expBytes) := by
      simp [Numeral.bytes, hd]
    obtain ⟨h1, h2⟩ := takeWhile_digits hint (r := 46 :: (N.frac ++ N.expBytes)) (by
      intro c hc
      obtain rfl : (46:UInt8) = c := by simpa using hc
      decide)
    rw [hbytes, dropWhile_zeros_append (by simp), parseDigits_eq, h1, h2]
    generalize List.foldl (fun d c => DecimalSeq.tryAddDigit d (digitVal c)) DecimalSeq.default
      (N.int.dropWhile (· == 48)) = d at hh ⊢
    simp only []
    -- the zeros after the dot are skipped when there are no digits before it
    obtain ⟨frac, hfrac, hdig, hsig⟩ : ∃ frac,
        (if d.numDigits = 0 then (N.frac ++ N.expBytes).dropWhile (· == 48)
          else N.frac ++ N.expBytes) = frac ++ N.expBytes ∧ (∀ c ∈ frac, isDigit c = true) ∧
        (N.int ++ N.frac).dropWhile (· == 48) = N.int.dropWhile (· == 48) ++ frac := by
      rw [hh.num, dropWhile_zeros_append hexp48, List.dropWhile_append]
      by_cases h0 : N.int.dropWhile (· == 48) = []
      · refine ⟨_, if_pos (by rw [h0]; rfl), isDigit_dropWhile N.isDigit_frac, ?_⟩
        rw [h0]
        rfl
      · refine ⟨_, if_neg (by simpa using h0), N.isDigit_frac, ?_⟩
        rw [if_neg (by simpa using h0)]
    rw [hfrac, hsig]
    obtain ⟨a, b, d', hab, ha, hadd, hh'⟩ := addEights_spec (frac ++ N.expBytes) hh
    obtain ⟨h3, h4⟩ := takeWhile_digits hdig hexp
    rw [hab, List.takeWhile_append_of_pos ha] at h3
    rw [hab, List.dropWhile_append_of_pos ha] at h4
    refine ⟨_, ?_, h3 ▸ List.append_assoc _ a _ ▸ hh'.foldl (b.takeWhile isDigit)⟩
    rw [hadd, some_bind]
    simp only []
    rw [parseDigits_eq, h4]
    simp only [List.length_append, Option.pure_def]
    have hw : wrapI32 (wrapI32 (N.expBytes.length:ℤ)-wrapI32 ((N.frac.length+N.expBytes.length:ℕ):ℤ))
        = wrapI32 (-(N.frac.length:ℤ)) := by
      unfold wrapI32
      push_cast
      lia
    rw [hw]

theorem Numeral.isDigit_all (N : Numeral) : ∀ c ∈ N.int ++ N.frac, isDigit c = true := by
  intro c hc
  rcases List.mem_append.mp hc with hc | hc
  · exact N.isDigit_int c hc
  · exact N.isDigit_frac c hc

theorem Numeral.ofDigits_significant (N : Numeral) : ofDigits N.significant = N.digits :=
  ofDigits_dropWhile _

theorem Numeral.isDigit_significant (N : Numeral) : ∀ c ∈ N.significant, isDigit c = true :=
  isDigit_dropWhile N.isDigit_all

theorem Numeral.significant_bounds {N : Numeral} (h : N.significant ≠ []) :
    10^(N.significant.length-1) ≤ N.digits ∧ N.digits < 10^N.significant.length := by
  rw [← N.ofDigits_significant]
  cases hs : N.significant with
  | nil => exact absurd hs h
  | cons c ds =>
    have h48 : c ≠ 48 := by
      have := List.head?_dropWhile_not (fun x : UInt8 => x == 48) (N.int ++ N.frac)
      rw [show (N.int ++ N.frac).dropWhile (· == 48) = c :: ds from hs] at this
      simpa using this
    have hd := N.isDigit_significant
    rw [hs] at hd
    exact ⟨le_ofDigits hd rfl h48, ofDigits_lt hd⟩

theorem Numeral.significant_eq_nil_iff {N : Numeral} : N.significant = [] ↔ N.digits = 0 := by
  constructor
  · intro h
    rw [← N.ofDigits_significant, h]
    rfl
  · intro h
    by_contra hne
    have := (Numeral.significant_bounds hne).1
    rw [h] at this
    exact absurd this (by simp)

theorem Numeral.consumed_trailingZeros (N : Numeral) :
    trailingZeros (N.bytes.take (N.bytes.length-N.expBytes.length)).reverse =
      trailingZeros (N.int ++ N.frac).reverse := by
  have hfilter : ∀ ds : List UInt8, (∀ c ∈ ds, isDigit c = true) → ds.filter (· ≠ 46) = ds := by
    intro ds hd
    apply List.filter_eq_self.mpr
    intro c hc
    simp only [decide_eq_true_eq, ne_eq]
    rintro rfl
    exact absurd (hd 46 hc) (by decide)
  have htake : N.bytes.take (N.bytes.length-N.expBytes.length) =
      N.int ++ if N.dot then 46 :: N.frac else [] := by
    rw [Numeral.bytes, List.length_append, Nat.add_sub_cancel, List.take_left]
  rw [htake, ← trailingZeros_filter, List.filter_reverse, List.filter_append,
    hfilter _ N.isDigit_int]
  congr 3
  cases hd : N.dot with
  | false => simp [N.frac_eq hd]
  | true =>
    have := hfilter _ N.isDigit_frac
    simpa using this

theorem wrapI32_add (a b : ℤ) : wrapI32 (wrapI32 a+b) = wrapI32 (a+b) := by
  unfold wrapI32
  lia

theorem addExponent_expBytes (N : Numeral) {d : DecimalSeq} {z : ℤ}
    (hz : d.decimalPoint = wrapI32 z) :
    d.addExponent N.expBytes =
      { d with decimalPoint := wrapI32 (z+(N.exp.map Exponent.saturated).getD 0) } := by
  unfold Numeral.expBytes
  cases hx : N.exp with
  | none =>
    simp only [Option.map_none, Option.getD_none, add_zero, ← hz]
    rfl
  | some x =>
    simp only [Option.map_some, Option.getD_some, Exponent.bytes, addExponent]
    rw [if_pos x.letter_eq, ← wrapI32_add z, ← hz]
    -- the sign and the digits, as `parse_scientific` reads them
    obtain ⟨c, ds, hds⟩ := List.exists_cons_of_ne_nil x.digits_ne
    have hc := x.isDigit_digits c (by rw [hds]; simp)
    have h45 : c ≠ 45 := by
      rintro rfl
      exact absurd hc (by decide)
    have h43 : c ≠ 43 := by
      rintro rfl
      exact absurd hc (by decide)
    have htake := List.takeWhile_eq_self_iff.mpr x.isDigit_digits
    rw [hds] at htake
    cases hsg : x.sign with
    | none =>
      simp [OptSign.bytes, OptSign.apply, OptSign.isMinus, Exponent.saturated, satDigits, hsg, hds,
        h45, h43, parseDigits_eq, htake]
    | plus =>
      simp [OptSign.bytes, OptSign.apply, OptSign.isMinus, Exponent.saturated, satDigits, hsg, hds,
        parseDigits_eq, htake]
    | minus =>
      simp [OptSign.bytes, OptSign.apply, OptSign.isMinus, Exponent.saturated, satDigits, hsg, hds,
        parseDigits_eq, htake]

theorem parseDecimalSeq_zero {N : Numeral} (h : N.digits = 0) :
    ∃ d, parseDecimalSeq N.bytes = some d ∧ d.numDigits = 0 := by
  obtain ⟨d, hd, hh⟩ := parseSeqDigits_bytes N
  have h0 : d.numDigits = 0 := by
    rw [hh.num, Numeral.significant_eq_nil_iff.mpr h]
    rfl
  rw [parseDecimalSeq, hd, some_bind]
  simp only [DecimalSeq.normalize]
  rw [if_neg (by simpa using h0)]
  refine ⟨_, rfl, ?_⟩
  rw [addExponent_expBytes N (z := -N.frac.length) rfl]
  exact h0

theorem normalize_eq {d : DecimalSeq} {f z : ℕ} {consumed : List UInt8} (hz : z < d.numDigits)
    (hzeros : trailingZeros consumed.reverse = z) (hp : d.decimalPoint = wrapI32 (-f))
    (htr : d.truncated = false) :
    d.normalize consumed = some { d with
      decimalPoint := wrapI32 ((d.numDigits:ℤ)-f)
      truncated := decide (maxDigits < d.numDigits-z)
      numDigits := min (d.numDigits-z) maxDigits } := by
  have hw : wrapI32 (wrapI32 (wrapI32 (-f)+wrapI32 z)+wrapI32 ((d.numDigits-z:ℕ):ℤ)) =
      wrapI32 ((d.numDigits:ℤ)-f) := by
    unfold wrapI32
    push_cast
    lia
  rw [DecimalSeq.normalize, if_pos (by lia), hzeros]
  simp only []
  rw [sub_eq hz.le, some_bind, hp]
  simp only [hw]
  by_cases hmax : maxDigits < d.numDigits-z
  · rw [if_pos hmax, decide_eq_true hmax, min_eq_right hmax.le]
    rfl
  · rw [if_neg hmax, decide_eq_false hmax, min_eq_left (by lia), ← htr]
    rfl

/-- The digits of a numeral other than zero, as many as there is room for. -/
theorem parseDecimalSeq_spec {N : Numeral} (h : N.digits ≠ 0) :
    ∃ d, parseDecimalSeq N.bytes = some d ∧
      d.decimalPoint = wrapI32 (N.significant.length+N.readExponent) ∧ d.WF ∧
      IsCut 10 maxDigits (N.digits*10^(d.decimalPoint-N.significant.length)) d.value ∧
      (d.truncated = true ↔ d.value < N.digits*10^(d.decimalPoint-N.significant.length)) := by
  obtain ⟨d, hd, hh⟩ := parseSeqDigits_bytes N
  have hne := mt Numeral.significant_eq_nil_iff.mp h
  have hpos := List.length_pos_iff.mpr hne
  obtain ⟨hlo, hhi⟩ := Numeral.significant_bounds hne
  obtain ⟨h1, h2⟩ := trailingZeros_spec N.isDigit_all h
  rw [← N.consumed_trailingZeros] at h1 h2
  change N.digits%_ = 0 at h1
  change N.digits%_ ≠ 0 at h2
  generalize hz : trailingZeros (N.bytes.take (N.bytes.length-N.expBytes.length)).reverse = z at h1 h2
  have hzL : z < N.significant.length := by
    by_contra hge
    rw [Nat.mod_eq_of_lt (hhi.trans_le (Nat.pow_le_pow_right (by norm_num) (by lia)))] at h1
    exact h h1
  have hdigits : ∀ i < N.significant.length, i < maxDigits →
      d.digits i = N.digits/10^(N.significant.length-1-i)%10 := by
    intro i hi him
    have hget := List.getElem?_eq_getElem hi
    rw [hh.digit i _ hget him, digitVal_eq N.isDigit_significant hget, N.ofDigits_significant]
  have hnum := hh.num
  rw [← hnum] at hlo hhi hzL hdigits hpos ⊢
  have hnorm := normalize_eq (d := { d with decimalPoint := wrapI32 (-N.frac.length) }) hzL hz rfl
    hh.truncated
  have hexp := addExponent_expBytes N (z := (d.numDigits:ℤ)-N.frac.length)
    (d := { d with
      decimalPoint := wrapI32 ((d.numDigits:ℤ)-N.frac.length)
      truncated := decide (maxDigits < d.numDigits-z)
      numDigits := min (d.numDigits-z) maxDigits }) rfl
  have hpoint : (d.numDigits:ℤ)-N.frac.length+(N.exp.map Exponent.saturated).getD 0 =
      d.numDigits+N.readExponent := by
    rw [Numeral.readExponent]
    ring
  rw [hpoint] at hexp
  rw [parseDecimalSeq, hd, some_bind]
  simp only []
  rw [hnorm, some_bind, hexp]
  have hKpos : 0 < min (d.numDigits-z) maxDigits := lt_min (by lia) (by decide)
  have hrest : min (d.numDigits-z) maxDigits = maxDigits ∨
      N.digits%10^(d.numDigits-min (d.numDigits-z) maxDigits) = 0 := by
    rcases le_total (d.numDigits-z) maxDigits with hle | hle
    · right
      rw [min_eq_left hle, Nat.sub_sub_self hzL.le]
      exact h1
    · exact Or.inl (min_eq_right hle)
  obtain ⟨hwf, hcut, hlt⟩ := cut_of_digits (d := ⟨min (d.numDigits-z) maxDigits,
      wrapI32 ((d.numDigits:ℤ)+N.readExponent), decide (maxDigits < d.numDigits-z),
      fun i => if min (d.numDigits-z) maxDigits ≤ i ∧ i < maxDigitsWithoutOverflow then 0
        else d.digits i⟩) hlo hhi hKpos ((min_le_left _ _).trans (Nat.sub_le _ _))
    (min_le_right _ _)
    (fun i hi => by
      have h3 := lt_min_iff.mp hi
      have h4 : ¬ (min (d.numDigits-z) maxDigits ≤ i ∧ i < maxDigitsWithoutOverflow) := by lia
      exact (if_neg h4).trans (hdigits i (by lia) h3.2)) hrest
  refine ⟨_, rfl, rfl, hwf, hcut, ?_⟩
  rw [hlt]
  simp only [decide_eq_true_eq]
  -- a digit other than zero is among those without room
  constructor
  · intro hmax h0
    rw [min_eq_right hmax.le] at h0
    apply h2
    exact Nat.mod_eq_zero_of_dvd ((Nat.pow_dvd_pow 10 (by lia)).trans (Nat.dvd_of_mod_eq_zero h0))
  · intro h0
    by_contra hmax
    rw [min_eq_left (by lia), Nat.sub_sub_self hzL.le] at h0
    exact h0 h1

/-! ## The slow path on a numeral -/

theorem Tracks.of_cut {x : ℚ} {d : DecimalSeq} (hwf : d.WF) (hcut : IsCut 10 maxDigits x d.value)
    (htr : d.truncated = true ↔ d.value < x) (hx : x < 10^310) : Tracks x 0 0 d := by
  have hpow : x*2^(-(0:ℤ)) = x := by rw [neg_zero, zpow_zero, mul_one]
  refine ⟨hwf, ?_, ?_, fun h g hh hg hle => ?_⟩
  · rw [hpow]
    exact hcut.le
  · rw [hpow]
    exact htr
  · rw [sub_zero]
    apply hcut.greatest _ _ hle
    apply short_mul_two_zpow hh (by lia)
    calc (h:ℚ)*2^g ≤ x := hle
      _ < 10^310 := hx
      _ < 10^maxDigits := pow_lt_pow_right₀ (by norm_num) (by decide)

theorem rounded_zero (F : RawFloat) {x : ℚ} (h0 : 0 ≤ x) (h : 2*x ≤ F.ulp) :
    Rounded F x (Lemire.BiasedFp.zeroPow2 0) :=
  ⟨0, 0, rfl, by positivity, by simpa using F.nearest_zero h0 h⟩

theorem ulp_ge (F : RawFloat) : 2*(10:ℚ)^(-325:ℤ) ≤ F.ulp := by
  have hulp : (2:ℚ)^(-1074:ℤ) ≤ F.ulp := by
    rw [RawFloat.ulp]
    apply zpow_le_zpow_right₀ (by norm_num)
    cases F <;> decide
  have h : (2:ℚ)^1075 ≤ 10^325 := by
    calc (2:ℚ)^1075 = (2^43)^25 := by rw [← pow_mul]
      _ ≤ (10^13)^25 := pow_le_pow_left₀ (by norm_num) (by norm_num) _
      _ = 10^325 := by rw [← pow_mul]
  have h2 : (10:ℚ)^(-325:ℤ) ≤ 2^(-1075:ℤ) := by
    rw [show (-325:ℤ) = -((325:ℕ):ℤ) by norm_num, show (-1075:ℤ) = -((1075:ℕ):ℤ) by norm_num,
      zpow_neg, zpow_neg, zpow_natCast, zpow_natCast]
    exact inv_anti₀ (by positivity) h
  have h3 : 2*(2:ℚ)^(-1075:ℤ) = 2^(-1074:ℤ) := by
    rw [← zpow_one_add₀ (by norm_num)]
    norm_num
  calc 2*(10:ℚ)^(-325:ℤ) ≤ 2*2^(-1075:ℤ) := mul_le_mul_of_nonneg_left h2 (by norm_num)
    _ = 2^(-1074:ℤ) := h3
    _ ≤ F.ulp := hulp

/-- The slow path never panics, and it gives the float nearest to the digits with
the decimal point that was computed. -/
theorem parseLongMantissa_spec (F : RawFloat) (N : Numeral) :
    ∃ fp, parseLongMantissa F N.bytes = some fp ∧
      Rounded F (N.digits*10^(wrapI32 (N.significant.length+N.readExponent)-
        N.significant.length)) fp := by
  by_cases h0 : N.digits = 0
  · obtain ⟨d, hd, hn⟩ := parseDecimalSeq_zero h0
    have hul := F.ulp_pos
    refine ⟨.zeroPow2 0, ?_, ?_⟩
    · rw [parseLongMantissa, hd, some_bind, if_pos (Or.inl hn)]
      rfl
    · rw [h0, Nat.cast_zero, zero_mul]
      exact rounded_zero F le_rfl (by linarith)
  · obtain ⟨d, hd, hp, hwf, hcut, htr⟩ := parseDecimalSeq_spec h0
    have hhi := (Numeral.significant_bounds (mt Numeral.significant_eq_nil_iff.mp h0)).2
    have hlo := (Numeral.significant_bounds (mt Numeral.significant_eq_nil_iff.mp h0)).1
    have hpos := List.length_pos_iff.mpr (mt Numeral.significant_eq_nil_iff.mp h0)
    rw [← hp]
    generalize N.significant.length = L at *
    have hxlt : (N.digits:ℚ)*10^(d.decimalPoint-L) < 10^d.decimalPoint := by
      have hQ : (N.digits:ℚ) < 10^L := by exact_mod_cast hhi
      calc (N.digits:ℚ)*10^(d.decimalPoint-L) < 10^L*10^(d.decimalPoint-L) := by gcongr
        _ = 10^d.decimalPoint := by
          rw [← zpow_natCast, ← zpow_add₀ (by norm_num)]
          congr 1
          ring
    have hxge : 10^(d.decimalPoint-1) ≤ (N.digits:ℚ)*10^(d.decimalPoint-L) := by
      have hQ : (10:ℚ)^(L-1) ≤ N.digits := by exact_mod_cast hlo
      calc (10:ℚ)^(d.decimalPoint-1) = 10^(L-1)*10^(d.decimalPoint-L) := by
            rw [← zpow_natCast, ← zpow_add₀ (by norm_num)]
            congr 1
            lia
        _ ≤ _ := by gcongr
    generalize (N.digits:ℚ)*10^(d.decimalPoint-L) = x at *
    rw [parseLongMantissa, hd, some_bind]
    by_cases hsmall : d.numDigits = 0 ∨ d.decimalPoint < -324
    · rw [if_pos hsmall]
      have hdp := hsmall.resolve_left hwf.pos.ne'
      refine ⟨_, rfl, rounded_zero F (le_trans (by positivity) hxge) ?_⟩
      have h1 : (10:ℚ)^d.decimalPoint ≤ 10^(-325:ℤ) :=
        zpow_le_zpow_right₀ (by norm_num) (by lia)
      linarith [ulp_ge F]
    · rw [if_neg hsmall]
      by_cases hbig : d.decimalPoint ≥ 310
      · rw [if_pos hbig]
        refine ⟨_, rfl, rounded_inf F (F.nearest_inf ?_)⟩
        have h1 : (10:ℚ)^(309:ℤ) ≤ 10^(d.decimalPoint-1) :=
          zpow_le_zpow_right₀ (by norm_num) (by lia)
        have h2 : (2:ℚ)^1024 ≤ 10^309 := by exact_mod_cast RawFloat.lt_pow10_309.le
        have h3 : (2:ℚ)^(F.expBias+1) ≤ 2^1024 :=
          pow_le_pow_right₀ (by norm_num) (by cases F <;> decide)
        calc (2:ℚ)^(F.expBias+1) ≤ 10^309 := h3.trans h2
          _ = 10^(309:ℤ) := (zpow_natCast 10 309).symm
          _ ≤ x := h1.trans hxge
      · rw [if_neg hbig]
        have hx : x < 10^310 := by
          calc x < 10^d.decimalPoint := hxlt
            _ ≤ 10^(310:ℤ) := zpow_le_zpow_right₀ (by norm_num) (by lia)
            _ = 10^310 := zpow_natCast 10 310
        exact shiftLoops_spec F (Tracks.of_cut hwf hcut htr hx) (by lia) hx

end RustStd.Dec2Flt
