import RustStd.Fmt.Num

/-!
# Formatting gives the digits

The buffer always ends with the lowest digits of the number, and the number
without them remains. Every step adds the digits that it takes from what
remains, so at the end the digits of the number stand in the buffer, with no
zero in front.
-/

set_option autoImplicit false

namespace RustStd.IntFmt
open RustStd.Checked RustStd.Radix

/-- The byte of a decimal digit. -/
def dec (d : ℕ) : UInt8 := UInt8.ofNat (48+d)

/-- The buffer from `offset` on. -/
def Ends (buf : Buf) (offset : ℕ) (text : List UInt8) : Prop :=
  ∃ front : Buf, front.length = offset ∧ buf = front ++ text.map some

theorem Ends.length {buf : Buf} {offset : ℕ} {text : List UInt8} (h : Ends buf offset text) :
    buf.length = offset+text.length := by
  obtain ⟨front, rfl, rfl⟩ := h
  simp

theorem ends_nil (buf : Buf) : Ends buf buf.length [] := ⟨buf, rfl, by simp⟩

theorem mapM_some (text : List UInt8) : (text.map some).mapM id = some text := by
  induction text with
  | nil => rfl
  | cons c text ih => simp [ih]

theorem Ends.sliceBufferToStr {buf : Buf} {offset : ℕ} {text : List UInt8}
    (h : Ends buf offset text) : sliceBufferToStr buf offset = some text := by
  have hlen := h.length
  obtain ⟨front, rfl, rfl⟩ := h
  rw [IntFmt.sliceBufferToStr, if_pos (by omega), List.drop_left, mapM_some]

theorem assertUnchecked_of {c : Prop} [Decidable c] (h : c) : assertUnchecked c = some () := if_pos h

/-! ## Writing -/

theorem writeAt_append (front : Buf) (x : Option UInt8) (rest : Buf) (c : UInt8) :
    writeAt (front ++ x :: rest) front.length c = some (front ++ some c :: rest) := by
  rw [writeAt, if_pos (by simp)]
  simp

theorem Ends.writeAt {buf : Buf} {offset : ℕ} {text : List UInt8} (h : Ends buf (offset+1) text)
    (c : UInt8) : ∃ buf', writeAt buf offset c = some buf' ∧ Ends buf' offset (c :: text) := by
  obtain ⟨front, hlen, rfl⟩ := h
  obtain ⟨front, x, rfl⟩ : ∃ front' x, front = front' ++ [x] := by
    rcases List.eq_nil_or_concat front with rfl | ⟨front', x, rfl⟩
    · simp at hlen
    · exact ⟨front', x, by simp⟩
  obtain rfl : front.length = offset := by simpa using hlen
  refine ⟨_, ?_, front, rfl, rfl⟩
  rw [List.append_assoc, List.singleton_append, writeAt_append]
  rfl

set_option maxRecDepth 4000 in
theorem decimalPairs_get : ∀ p < 100, decimalPairs[p*2+0]? = some (dec (p/10)) ∧
    decimalPairs[p*2+1]? = some (dec (p%10)) := by decide

theorem writePair_append (pair : ℕ) (h : pair < 100) (front : Buf) (x y : Option UInt8) (rest : Buf) :
    writePair (front ++ x :: y :: rest) front.length pair =
      some (front ++ some (dec (pair/10)) :: some (dec (pair%10)) :: rest) := by
  obtain ⟨h0, h1⟩ := decimalPairs_get pair h
  have hsnd := writeAt_append (front ++ [some (dec (pair/10))]) y rest (dec (pair%10))
  rw [List.length_append, List.length_singleton, List.append_assoc, List.singleton_append,
    List.append_assoc, List.singleton_append] at hsnd
  rw [writePair, h0, Option.bind_eq_bind, Option.bind_some, Nat.add_zero, writeAt_append,
    Option.bind_eq_bind, Option.bind_some, h1, Option.bind_some, hsnd]

theorem lowDigits_two (n : ℕ) : lowDigits 10 2 n = [n%100/10, n%100%10] := by
  simp only [lowDigits]
  congr 1
  · omega
  · congr 1
    omega

theorem lowDigits_four (n : ℕ) : lowDigits 10 4 n =
    [n%10000/100/10, n%10000/100%10, n%10000%100/10, n%10000%100%10] := by
  simp only [lowDigits]
  congr 1
  · omega
  · congr 1
    · omega
    · congr 1
      · omega
      · congr 1
        omega

theorem writeQuad_append (n : ℕ) (front gap rest : Buf) (hgap : gap.length = 4) :
    writeQuad (front ++ gap ++ rest) front.length (n%10000) =
      some (front ++ ((lowDigits 10 4 n).map dec).map some ++ rest) := by
  obtain ⟨x, y, z, w, rfl⟩ := List.length_eq_four.mp hgap
  have hfst := writePair_append (n%10000/100) (by omega) front x y (z :: w :: rest)
  have hsnd := writePair_append (n%10000%100) (by omega)
    (front ++ [some (dec (n%10000/100/10)), some (dec (n%10000/100%10))]) z w rest
  simp only [List.length_append, List.length_cons, List.length_nil, List.append_assoc,
    List.cons_append, List.nil_append] at hsnd
  simp only [List.append_assoc, List.cons_append, List.nil_append]
  rw [writeQuad, hfst, Option.bind_eq_bind, Option.bind_some, hsnd, lowDigits_four]
  rfl

theorem exists_gap {front : Buf} {offset k : ℕ} (h : front.length = offset+k) :
    ∃ front' gap : Buf, front = front' ++ gap ∧ front'.length = offset ∧ gap.length = k := by
  refine ⟨front.take offset, front.drop offset, (List.take_append_drop _ _).symm, ?_, ?_⟩
  · rw [List.length_take]
    omega
  · rw [List.length_drop]
    omega

theorem Ends.writeQuad {buf : Buf} {offset : ℕ} {text : List UInt8} (h : Ends buf (offset+4) text)
    (n : ℕ) : ∃ buf', writeQuad buf offset (n%10000) = some buf' ∧
      Ends buf' offset ((lowDigits 10 4 n).map dec ++ text) := by
  obtain ⟨front, hlen, rfl⟩ := h
  obtain ⟨front, gap, rfl, rfl, hgap⟩ := exists_gap hlen
  refine ⟨_, writeQuad_append n front gap _ hgap, front, rfl, ?_⟩
  rw [List.map_append, List.append_assoc]

theorem Ends.writePair {buf : Buf} {offset : ℕ} {text : List UInt8} (h : Ends buf (offset+2) text)
    (n : ℕ) : ∃ buf', writePair buf offset (n%100) = some buf' ∧
      Ends buf' offset ((lowDigits 10 2 n).map dec ++ text) := by
  obtain ⟨front, hlen, rfl⟩ := h
  obtain ⟨front, gap, rfl, rfl, hgap⟩ := exists_gap hlen
  obtain ⟨x, y, rfl⟩ := List.length_eq_two.mp hgap
  refine ⟨front ++ ((lowDigits 10 2 n).map dec ++ text).map some, ?_, front, rfl, rfl⟩
  rw [List.append_assoc, List.cons_append, List.singleton_append,
    writePair_append _ (Nat.mod_lt _ (by norm_num)), lowDigits_two]
  rfl

/-! ## Digits so far -/

/-- The `k` lowest digits of `n` stand in the buffer, and none of them is too many. -/
structure Partial (b : ℕ) (byte : ℕ → UInt8) (n k : ℕ) (buf : Buf) (offset remain : ℕ) : Prop where
  ends : Ends buf offset ((lowDigits b k n).map byte)
  remain : remain = n/b^k
  le : k = 0 ∨ b^(k-1) ≤ n

section Partial

variable {b : ℕ} {byte : ℕ → UInt8} {n k offset remain : ℕ} {buf : Buf}

theorem partial_zero (n : ℕ) (buf : Buf) : Partial b byte n 0 buf buf.length n :=
  ⟨ends_nil buf, by simp, Or.inl rfl⟩

theorem Partial.length (h : Partial b byte n k buf offset remain) : buf.length = offset+k := by
  simpa using h.ends.length

variable (hb : 1 < b)
include hb

theorem Partial.room (h : Partial b byte n k buf offset remain) (hn : n < b^buf.length) {j : ℕ}
    (hj : b^j ≤ remain) : j+1 ≤ offset := by
  have hle : b^(k+j) ≤ n := by
    rw [pow_add, Nat.mul_comm, ← Nat.le_div_iff_mul_le (by positivity), ← h.remain]
    exact hj
  have hlt := (Nat.pow_lt_pow_iff_right hb).mp (hle.trans_lt hn)
  rw [h.length] at hlt
  omega

theorem Partial.more {j : ℕ} {buf' : Buf} (h : Partial b byte n k buf (offset+j) remain)
    (hj : 0 < j) (hle : b^(j-1) ≤ remain)
    (he : Ends buf' offset ((lowDigits b j remain).map byte ++ (lowDigits b k n).map byte)) :
    Partial b byte n (j+k) buf' offset (remain/b^j) := by
  refine ⟨?_, ?_, Or.inr ?_⟩
  · rwa [lowDigits_add, List.map_append, ← h.remain]
  · rw [h.remain, Nat.div_div_eq_div_mul, ← pow_add, Nat.add_comm]
  · rw [show j+k-1 = j-1+k by omega, pow_add, ← Nat.le_div_iff_mul_le (by positivity), ← h.remain]
    exact hle

theorem Partial.done (h : Partial b byte n (k+1) buf offset 0) :
    Ends buf offset ((digits b n).map byte) := by
  have hlt : n < b^(k+1) := by
    rcases Nat.div_eq_zero_iff.mp h.remain.symm with h0 | h0
    · exact absurd h0 (by positivity)
    · exact h0
  rw [digits_eq hb (Or.inl (h.le.resolve_left (by omega))) hlt]
  exact h.ends

theorem Partial.digit (h : Partial b byte n k buf offset remain) (hn : n < b^buf.length)
    (hlen : 0 < buf.length) (hk : k = 0 ∨ remain ≠ 0) :
    ∃ offset' buf', offset = offset'+1 ∧ writeAt buf offset' (byte (remain%b)) = some buf' ∧
      buf'.length = buf.length ∧
      (remain/b = 0 ∧ Ends buf' offset' ((digits b n).map byte) ∨
        remain/b ≠ 0 ∧ Partial b byte n (1+k) buf' offset' (remain/b)) := by
  have hroom : 1 ≤ offset := by
    rcases hk with rfl | hk
    · have := h.length
      omega
    · exact h.room hb hn (j := 0) (by rw [pow_zero]; omega)
  obtain ⟨offset, rfl⟩ : ∃ o, offset = o+1 := ⟨offset-1, by omega⟩
  obtain ⟨buf', hw, he⟩ := h.ends.writeAt (byte (remain%b))
  have hl : buf'.length = buf.length := by
    rw [he.length, h.ends.length, List.length_cons]
    omega
  refine ⟨offset, buf', rfl, hw, hl, ?_⟩
  by_cases h0 : remain = 0
  · -- zero has a digit too
    obtain rfl := hk.resolve_right (not_not.mpr h0)
    have hn0 : n = 0 := by
      have := h.remain
      rw [pow_zero, Nat.div_one] at this
      omega
    subst h0
    subst hn0
    left
    rw [Nat.zero_div]
    exact ⟨rfl, by simpa [digits, lowDigits] using he⟩
  · have he' : Ends buf' offset ((lowDigits b 1 remain).map byte ++ (lowDigits b k n).map byte) := by
      simpa [lowDigits] using he
    have hp := h.more hb (by norm_num) (by
      rw [Nat.sub_self, pow_zero]
      omega) he'
    rw [pow_one] at hp
    by_cases hz : remain/b = 0
    · rw [hz, Nat.add_comm] at hp
      exact Or.inl ⟨hz, hp.done hb⟩
    · exact Or.inr ⟨hz, hp⟩

end Partial

/-! ## Digit by digit -/

theorem radixLoop_spec {tab : List UInt8} (hb : 1 < tab.length) {n : ℕ} (fuel : ℕ)
    {k offset remain : ℕ} {buf : Buf}
    (h : Partial tab.length (fun d => tab.getD d 0) n k buf offset remain)
    (hn : n < tab.length^buf.length) (hlen : 0 < buf.length) (hk : k = 0 ∨ remain ≠ 0)
    (hfuel : offset < fuel) :
    ∃ buf' offset', radixLoop tab fuel buf offset remain = some (buf', offset') ∧
      Ends buf' offset' ((digits tab.length n).map fun d => tab.getD d 0) := by
  induction fuel generalizing k offset remain buf with
  | zero => omega
  | succ fuel ih =>
    obtain ⟨offset, buf', rfl, hw, hl, hcase⟩ := h.digit hb hn hlen hk
    have hmod : remain%tab.length < tab.length := Nat.mod_lt _ (by omega)
    have hget : tab[remain%tab.length]? = some (tab.getD (remain%tab.length) 0) := by
      rw [List.getD_eq_getElem?_getD, List.getElem?_eq_getElem hmod, Option.getD_some]
    rw [radixLoop, sub_eq (by omega), Option.bind_eq_bind, Option.bind_some, Nat.add_sub_cancel,
      assertUnchecked_of (by rw [h.length]; omega)]
    simp only [Option.bind_eq_bind, Option.bind_some]
    rw [hget, Option.bind_some, hw, Option.bind_some]
    rcases hcase with ⟨h0, he⟩ | ⟨h0, hp⟩
    · rw [if_pos h0]
      exact ⟨_, _, rfl, he⟩
    · rw [if_neg h0]
      exact ih hp (by rwa [hl]) (by rwa [hl]) (Or.inr h0) (by omega)

theorem inBufSmall_spec {n : ℕ} (fuel : ℕ) {k offset remain : ℕ} {buf : Buf}
    (h : Partial 10 dec n k buf offset remain) (hn : n < 10^buf.length) (hlen : 0 < buf.length)
    (hk : k = 0 ∨ remain ≠ 0) (hfuel : offset < fuel) :
    ∃ buf' offset', inBufSmall fuel buf offset remain = some (buf', offset') ∧
      buf'.length = buf.length ∧ Ends buf' offset' ((digits 10 n).map dec) := by
  induction fuel generalizing k offset remain buf with
  | zero => omega
  | succ fuel ih =>
    obtain ⟨offset, buf', rfl, hw, hl, hcase⟩ := h.digit (by norm_num) hn hlen hk
    have hdec : UInt8.ofNat (remain%10)+48 = dec (remain%10) := by
      have : ∀ d < 10, UInt8.ofNat d+48 = dec d := by decide
      exact this _ (Nat.mod_lt _ (by norm_num))
    rw [inBufSmall, sub_eq (by omega), Option.bind_eq_bind, Option.bind_some, Nat.add_sub_cancel,
      hdec, hw, Option.bind_eq_bind, Option.bind_some, ← hl]
    rcases hcase with ⟨h0, he⟩ | ⟨h0, hp⟩
    · rw [if_pos h0]
      exact ⟨_, _, rfl, rfl, he⟩
    · rw [if_neg h0]
      exact ih hp (by rwa [hl]) (by rwa [hl]) (Or.inr h0) (by omega)

theorem fmtRadix_eq (f : Format) {bits n : ℕ} (hn : n < 2^bits) :
    fmtRadix f bits n = some ((digits f.base n).map fun d => f.digTab.getD d 0) := by
  have hb : 1 < f.digTab.length := by cases f <;> decide
  have hlt : n < f.digTab.length^(Nat.log f.base (2^bits-1)+1) := by
    have := Nat.lt_pow_succ_log_self hb (2^bits-1)
    have hpos : 0 < 2^bits := by positivity
    exact lt_of_le_of_lt (by omega) this
  generalize hN : Nat.log f.base (2^bits-1)+1 = N at *
  obtain ⟨buf, offset, hrun, he⟩ := radixLoop_spec hb (N+1) (partial_zero n (uninit N))
    (by rwa [uninit, List.length_replicate]) (by rw [uninit, List.length_replicate]; omega)
    (Or.inl rfl) (by rw [uninit, List.length_replicate]; omega)
  rw [fmtRadix]
  simp only [hN]
  rw [hrun, Option.bind_eq_bind, Option.bind_some]
  exact he.sliceBufferToStr

/-! ## Decimals, in groups -/

theorem quadLoop_spec (wide : Bool) {n : ℕ} (fuel : ℕ) {k offset remain : ℕ} {buf : Buf}
    (h : Partial 10 dec n k buf offset remain) (hn : n < 10^buf.length) (hfuel : offset < fuel)
    (hnarrow : wide = false → n ≤ 999) :
    ∃ k' buf' offset' remain', quadLoop wide fuel buf offset remain =
        some (buf', offset', remain') ∧
      Partial 10 dec n k' buf' offset' remain' ∧ buf'.length = buf.length ∧ remain' ≤ 999 := by
  induction fuel generalizing k offset remain buf with
  | zero => omega
  | succ fuel ih =>
    rw [quadLoop]
    by_cases hc : wide ∧ remain > 999
    · have hroom := h.room (by norm_num) hn (j := 3) (by omega)
      obtain ⟨offset, rfl⟩ : ∃ o, offset = o+4 := ⟨offset-4, by omega⟩
      obtain ⟨buf', hw, he⟩ := h.ends.writeQuad remain
      have hp := h.more (by norm_num) (by norm_num) (by omega) he
      have hlen : buf'.length = buf.length := by
        rw [hp.length, h.length]
        omega
      rw [if_pos hc, assertUnchecked_of (by omega), assertUnchecked_of (by rw [h.length]; omega)]
      simp only [Option.bind_eq_bind, Option.bind_some, Nat.add_sub_cancel]
      rw [hw, Option.bind_some]
      obtain ⟨k', b, o, r, hrun, hp', hl, hr⟩ := ih hp (by rwa [hlen]) (by omega)
      exact ⟨k', b, o, r, hrun, hp', hl.trans hlen, hr⟩
    · rw [if_neg hc]
      refine ⟨k, buf, offset, remain, rfl, h, rfl, ?_⟩
      cases wide with
      | true => simpa using hc
      | false =>
        rw [h.remain]
        exact (Nat.div_le_self _ _).trans (hnarrow rfl)

theorem lastDigits_spec {n k offset remain : ℕ} {buf : Buf} (h : Partial 10 dec n k buf offset remain)
    (hn : n < 10^buf.length) (hlen : 0 < buf.length) (hr : remain ≤ 999) {zero : Bool}
    (hz : zero = true ↔ n = 0) (hk : n = 0 → k = 0) :
    ∃ buf' offset', lastDigits buf offset remain zero = some (buf', offset') ∧
      buf'.length = buf.length ∧ Ends buf' offset' ((digits 10 n).map dec) := by
  -- the pair
  have hpair : ∃ k' buf' offset' remain', (if remain > 9 then do
        assertUnchecked (offset ≥ 2)
        assertUnchecked (offset ≤ buf.length)
        let buf ← writePair buf (offset-2) (remain%100)
        return (buf, offset-2, remain/100)
      else some (buf, offset, remain) : Option (Buf × ℕ × ℕ)) = some (buf', offset', remain') ∧
      Partial 10 dec n k' buf' offset' remain' ∧ buf'.length = buf.length ∧ remain' ≤ 9 ∧
        (n = 0 → k' = 0) := by
    by_cases hc : remain > 9
    · have hroom := h.room (by norm_num) hn (j := 1) (by omega)
      obtain ⟨offset, rfl⟩ : ∃ o, offset = o+2 := ⟨offset-2, by omega⟩
      obtain ⟨buf', hw, he⟩ := h.ends.writePair remain
      have hp := h.more (by norm_num) (by norm_num) (by omega) he
      rw [if_pos hc, assertUnchecked_of (by omega), assertUnchecked_of (by rw [h.length]; omega)]
      simp only [Option.bind_eq_bind, Option.bind_some, Nat.add_sub_cancel]
      rw [hw, Option.bind_some]
      refine ⟨_, _, _, _, rfl, hp, ?_, by omega, fun h0 => ?_⟩
      · rw [hp.length, h.length]
        omega
      · have := h.remain
        rw [h0, Nat.zero_div] at this
        omega
    · rw [if_neg hc]
      exact ⟨k, buf, offset, remain, rfl, h, rfl, by omega, hk⟩
  obtain ⟨k, buf', offset', remain', hrun, h, hlen', hr, hk⟩ := hpair
  rw [lastDigits]
  simp only [Option.bind_eq_bind, Option.pure_def] at hrun ⊢
  rw [hrun, Option.bind_some]
  simp only
  by_cases hc : remain' ≠ 0 ∨ zero = true
  · -- the last digit
    have hroom : 1 ≤ offset' := by
      rcases hc with hc | hc
      · exact h.room (by norm_num) (by rwa [hlen']) (j := 0) (by omega)
      · have hl := h.length
        rw [hk (hz.mp hc)] at hl
        omega
    have hand : remain' &&& 15 = remain' := by
      rw [show 15 = 2^4-1 by norm_num, Nat.and_two_pow_sub_one_eq_mod]
      omega
    have hget := (decimalPairs_get remain' (by omega)).2
    obtain ⟨offset, rfl⟩ : ∃ o, offset' = o+1 := ⟨offset'-1, by omega⟩
    obtain ⟨buf'', hw, he⟩ := h.ends.writeAt (dec (remain'%10))
    rw [if_pos hc, assertUnchecked_of (by omega), assertUnchecked_of (by rw [h.length]; omega)]
    simp only [Option.bind_some, Nat.add_sub_cancel]
    rw [hand, hget, Option.bind_some, hw, Option.bind_some]
    have hl : buf''.length = buf.length := by
      rw [← hlen', he.length, h.ends.length, List.length_cons]
      omega
    refine ⟨_, _, rfl, hl, ?_⟩
    by_cases h0 : n = 0
    · obtain rfl := hk h0
      have hrem := h.remain
      subst h0
      rw [Nat.zero_div] at hrem
      rw [hrem] at he
      simpa [digits, lowDigits] using he
    · have he' : Ends buf'' offset ((lowDigits 10 1 remain').map dec ++
          (lowDigits 10 k n).map dec) := by
        simpa [lowDigits] using he
      have hp := h.more (by norm_num) (by norm_num) (by
        rcases hc with hc | hc
        · simp only [Nat.sub_self, pow_zero]
          omega
        · exact absurd (hz.mp hc) h0) he'
      rw [Nat.add_comm, show remain'/10^1 = 0 by omega] at hp
      exact hp.done (by norm_num)
  · rw [not_or, not_not] at hc
    obtain ⟨rfl, hc⟩ := hc
    rw [if_neg (by simp [hc])]
    refine ⟨_, _, rfl, hlen', ?_⟩
    cases k with
    | zero =>
      have := h.remain
      rw [pow_zero, Nat.div_one] at this
      exact absurd (hz.mpr this.symm) hc
    | succ k => exact h.done (by norm_num)

theorem fmtInner_spec {bits n : ℕ} {buf : Buf} (h8 : 8 ≤ bits) (hn : n < 2^bits)
    (hbuf : n < 10^buf.length) (hlen : 0 < buf.length) :
    ∃ buf' offset, fmtInner bits n buf = some (buf', offset) ∧ buf'.length = buf.length ∧
      Ends buf' offset ((digits 10 n).map dec) := by
  obtain ⟨k, buf', offset, remain, hrun, hp, hl, hr⟩ := quadLoop_spec (bits > 8) (buf.length+1)
    (partial_zero n buf) hbuf (by omega) (by
      intro hf
      obtain rfl : bits = 8 := by
        have := of_decide_eq_false hf
        omega
      omega)
  rw [fmtInner, hrun, Option.bind_eq_bind, Option.bind_some, ← hl]
  apply lastDigits_spec hp (by rwa [hl]) (by omega) hr (by simp)
  rintro rfl
  have hle := hp.le
  rcases hle with h | h
  · exact h
  · have : 0 < 10^(k-1) := by positivity
    omega

/-! ## 128 bits -/

theorem divRem1e16_eq {n : ℕ} (hn : n < 2^128) :
    divRem1e16 n = some (n/10^16, n%10^16) := by
  rw [divRem1e16]
  by_cases hlt : n < 10000000000000000
  · have hlt' : n < 10^16 := hlt
    rw [if_pos hlt, Nat.div_eq_of_lt hlt', Nat.mod_eq_of_lt hlt', Nat.mod_eq_of_lt (by omega)]
  · have hdm := Nat.div_add_mod n (10^16)
    have hmod := Nat.mod_lt n (show 0 < 10^16 by norm_num)
    have hq : n*76624777043294442917917351357515459181/2^128/2^51 = n/10^16 := by
      rw [Nat.div_div_eq_div_mul]
      generalize n/10^16 = q at *
      generalize n%10^16 = r at *
      apply Nat.div_eq_of_lt_le
      · omega
      · omega
    rw [if_neg hlt]
    simp only [hq]
    have hle : n/10^16*10000000000000000 ≤ n := by omega
    have hfit : unsigned 128 (n/10^16*10000000000000000) = some (n/10^16*10000000000000000) :=
      if_pos (hle.trans_lt hn)
    rw [hfit, Option.bind_eq_bind, Option.bind_some, sub_eq hle, Option.bind_some]
    simp only [Option.pure_def, Option.some.injEq, Prod.mk.injEq, true_and]
    omega

theorem encQuads_append (front rest : Buf) (j : ℕ) (gap : Buf) (m : ℕ) (hgap : gap.length = 4*j) :
    encQuads front.length j (front ++ gap ++ rest) m =
      some (front ++ ((lowDigits 10 (4*j) m).map dec).map some ++ rest) := by
  induction j generalizing gap rest m with
  | zero =>
    obtain rfl := List.eq_nil_of_length_eq_zero hgap
    rfl
  | succ j ih =>
    obtain ⟨gap, quad, rfl, hlen, hquad⟩ := exists_gap (show gap.length = 4*j+4 by omega)
    have hw := writeQuad_append m (front ++ gap) quad rest hquad
    rw [List.length_append, hlen] at hw
    rw [encQuads, show j*4+front.length = front.length+4*j by ring, ← List.append_assoc front gap quad, hw,
      Option.bind_eq_bind, Option.bind_some, List.append_assoc, ih _ gap _ hlen,
      show 4*(j+1) = 4*j+4 by ring, lowDigits_add]
    simp

theorem Partial.enc16lsd {n k remain : ℕ} {buf : Buf} (offset : ℕ)
    (h : Partial 10 dec n k buf (offset+16) remain) (hr : 10^16 ≤ remain) :
    ∃ buf', enc16lsd offset buf (remain%10^16) = some buf' ∧
      Partial 10 dec n (16+k) buf' offset (remain/10^16) := by
  have hends := h.ends
  obtain ⟨front, hlen, rfl⟩ := hends
  obtain ⟨front, gap, rfl, rfl, hgap⟩ := exists_gap hlen
  refine ⟨_, encQuads_append front _ 4 gap _ hgap, ?_⟩
  apply h.more (by norm_num) (by norm_num) ((Nat.pow_le_pow_right (by norm_num) (by norm_num)).trans hr)
  refine ⟨front, rfl, ?_⟩
  rw [lowDigits_mod remain (show 4*4 ≤ 16 by norm_num), List.map_append, List.append_assoc]

theorem u128MaxDecN_eq : u128MaxDecN = 39 := by
  rw [u128MaxDecN, (Nat.log_eq_iff (Or.inr ⟨by norm_num, by norm_num⟩)).mpr ⟨_, _⟩]
  · norm_num
  · norm_num

theorem splitGroups_spec {n : ℕ} {buf : Buf} (hn : n < 2^128) (hlen : buf.length = 39) :
    ∃ k buf' offset remain, splitGroups n buf = some (buf', offset, remain) ∧
      Partial 10 dec n k buf' offset remain ∧ buf'.length = 39 := by
  have h0 : Partial 10 dec n 0 buf 39 n := by
    rw [← hlen]
    exact partial_zero n buf
  rw [splitGroups, divRem1e16_eq hn, u128MaxDecN_eq, Option.bind_eq_bind, Option.bind_some]
  simp only
  by_cases hq : n/10^16 = 0
  · rw [if_pos hq]
    have hmod : n%10^16 = n := Nat.mod_eq_of_lt (by omega)
    exact ⟨0, buf, 39, n%10^16, rfl, by rwa [hmod], hlen⟩
  · rw [if_neg hq]
    obtain ⟨buf₁, hw₁, h₁⟩ := h0.enc16lsd 23 (by omega)
    have hlen₁ : buf₁.length = 39 := h₁.length
    rw [show 39-16 = 23 by norm_num, hw₁, Option.bind_eq_bind, Option.bind_some,
      divRem1e16_eq (by omega), Option.bind_some]
    simp only
    by_cases hq2 : n/10^16/10^16 = 0
    · rw [if_pos hq2]
      have hmod : n/10^16%10^16 = n/10^16 := Nat.mod_eq_of_lt (by omega)
      exact ⟨16, buf₁, 23, _, rfl, by rwa [hmod], hlen₁⟩
    · rw [if_neg hq2]
      obtain ⟨buf₂, hw₂, h₂⟩ := h₁.enc16lsd 7 (by omega)
      rw [show 39-32 = 7 by norm_num, hw₂, Option.bind_some]
      have hmod : n/10^16/10^16%2^64 = n/10^16/10^16 := Nat.mod_eq_of_lt (by omega)
      exact ⟨32, buf₂, 7, _, rfl, by rwa [hmod], h₂.length⟩

theorem fmtInner128_spec {n : ℕ} {buf : Buf} (hn : n < 2^128) (hlen : buf.length = 39) :
    ∃ buf' offset, fmtInner128 n buf = some (buf', offset) ∧ buf'.length = buf.length ∧
      Ends buf' offset ((digits 10 n).map dec) := by
  have hlt : n < 10^39 := hn.trans (by norm_num)
  rw [fmtInner128]
  by_cases h0 : n = 0
  · have hnil : Ends buf (38+1) [] := by
      have := ends_nil buf
      rwa [hlen] at this
    obtain ⟨buf', hw, he⟩ := hnil.writeAt 48
    rw [if_pos h0, hlen, sub_eq (by norm_num), Option.bind_eq_bind, Option.bind_some,
      show 39-1 = 38 by norm_num, hw]
    subst h0
    exact ⟨buf', 38, rfl, he.length, by simpa [digits, lowDigits, dec] using he⟩
  · obtain ⟨k, buf₁, offset₁, remain₁, hs, hp₁, hl₁⟩ := splitGroups_spec hn hlen
    obtain ⟨k₂, buf₂, offset₂, remain₂, hq, hp₂, hl₂, hr₂⟩ := quadLoop_spec true (buf₁.length+1) hp₁
      (by rwa [hl₁]) (by rw [hp₁.length]; omega) (by simp)
    rw [if_neg h0, hs, Option.bind_eq_bind, Option.bind_some]
    simp only
    rw [hq, Option.bind_some, hlen, ← hl₁, ← hl₂]
    exact lastDigits_spec hp₂ (by rwa [hl₂, hl₁]) (by omega) hr₂ (by simp [h0]) (by simp [h0])

/-! ## All types -/

theorem lt_pow_maxDecN {W : Width} {n : ℕ} (hn : n < 2^W.bits) : n < 10^maxDecN W := by
  have := Nat.lt_pow_succ_log_self (show 1 < 10 by norm_num) (2^W.bits-1)
  have hpos : 0 < 2^W.bits := by positivity
  exact lt_of_le_of_lt (by omega) this

theorem fmtAbs_spec (W : Width) (small : Bool) {n : ℕ} {buf : Buf} (hn : n < 2^W.bits)
    (hlen : maxDecN W ≤ buf.length) :
    ∃ buf' offset, fmtAbs W small n buf = some (buf', offset) ∧ buf'.length = buf.length ∧
      Ends buf' offset ((digits 10 n).map dec) := by
  have hlt : n < 10^buf.length :=
    (lt_pow_maxDecN hn).trans_le (Nat.pow_le_pow_right (by norm_num) hlen)
  have hpos : 0 < buf.length := by
    unfold maxDecN at hlen
    omega
  have hnarrow : 8 ≤ W.bits := by cases W <;> decide
  -- the types up to 64 bits
  have key : ∃ buf' offset, (if small then inBufSmall (buf.length+1) buf buf.length n
      else fmtInner W.bits n buf) = some (buf', offset) ∧ buf'.length = buf.length ∧
      Ends buf' offset ((digits 10 n).map dec) := by
    cases small with
    | true =>
      exact inBufSmall_spec (buf.length+1) (partial_zero n buf) hlt hpos (Or.inl rfl) (by omega)
    | false => exact fmtInner_spec hnarrow hn hlt hpos
  cases W with
  | w8 => exact key
  | w16 => exact key
  | w32 => exact key
  | w64 => exact key
  | w128 =>
    have h39 : u128MaxDecN ≤ buf.length := hlen
    have hinner : (buf.drop (buf.length-u128MaxDecN)).length = 39 := by
      rw [List.length_drop, ← u128MaxDecN_eq]
      omega
    obtain ⟨inner, offset, hrun, hl, front, hfront, he⟩ := fmtInner128_spec hn hinner
    refine ⟨buf.take (buf.length-u128MaxDecN) ++ inner, offset+(buf.length-u128MaxDecN), ?_, ?_,
      buf.take (buf.length-u128MaxDecN) ++ front, ?_, ?_⟩
    · rw [fmtAbs, sub_eq h39, Option.bind_eq_bind, Option.bind_some, hrun]
      rfl
    · rw [List.length_append, hl, List.length_take, List.length_drop]
      omega
    · rw [List.length_append, List.length_take, hfront]
      omega
    · rw [he, List.append_assoc]

/-- The decimal text of an integer. -/
def decimalText (n : ℤ) : List UInt8 :=
  if n < 0 then 45 :: (digits 10 n.natAbs).map dec else (digits 10 n.natAbs).map dec

theorem natAbs_lt {T : IntTy} {n : ℤ} (hlo : T.min ≤ n) (hhi : n ≤ T.max) :
    n.natAbs < 2^T.width.bits := by
  obtain ⟨W, signed⟩ := T
  have hpow : (2:ℤ)^W.bits = 2*2^(W.bits-1) := by
    rw [← pow_succ']
    congr 1
    cases W <;> rfl
  have hpos : (0:ℤ) < 2^(W.bits-1) := by positivity
  zify
  cases signed with
  | true =>
    simp only [IntTy.min, IntTy.max, if_true] at hlo hhi
    rw [abs_lt]
    constructor
    · linarith
    · linarith
  | false =>
    simp only [IntTy.min, IntTy.max, Bool.false_eq_true, if_false] at hlo hhi
    rw [abs_of_nonneg hlo]
    linarith

theorem maxDecN_le (W : Width) : maxDecN W ≤ 39 := by
  have hle : 2^W.bits-1 ≤ 2^128-1 := by
    apply Nat.sub_le_sub_right
    exact Nat.pow_le_pow_right (by norm_num) (by cases W <;> decide)
  have := Nat.log_mono_right (b := 10) hle
  have h39 := u128MaxDecN_eq
  unfold u128MaxDecN at h39
  unfold maxDecN
  omega

theorem display_eq {T : IntTy} (small : Bool) {n : ℤ} (hlo : T.min ≤ n) (hhi : n ≤ T.max) :
    display T small n = some (decimalText n) := by
  have hlen : maxDecN T.width ≤
      (uninit (if small ∧ T.width ≠ .w128 then maxDecN .w64 else maxDecN T.width)).length := by
    rw [uninit, List.length_replicate]
    split
    · rename_i h
      apply Nat.add_le_add_right
      apply Nat.log_mono_right
      apply Nat.sub_le_sub_right
      apply Nat.pow_le_pow_right (by norm_num)
      cases hW : T.width with
      | w128 => exact absurd hW h.2
      | _ => decide
    · exact le_rfl
  obtain ⟨buf, offset, hrun, -, he⟩ := fmtAbs_spec T.width small (natAbs_lt hlo hhi) hlen
  rw [display]
  simp only
  rw [hrun, Option.bind_eq_bind, Option.bind_some, he.sliceBufferToStr, decimalText]
  rfl

theorem formatInto_eq {T : IntTy} (small : Bool) {n : ℤ} (hlo : T.min ≤ n) (hhi : n ≤ T.max)
    {numBuffer : Buf} (hlen : numBuffer.length = 40) :
    formatInto T small n numBuffer = some (decimalText n) := by
  have hW := maxDecN_le T.width
  have habs := natAbs_lt hlo hhi
  obtain ⟨buf, offset, hrun, hl, he⟩ := fmtAbs_spec T.width small habs
    (show maxDecN T.width ≤ numBuffer.length by omega)
  rw [formatInto, hrun, Option.bind_eq_bind, Option.bind_some, decimalText]
  simp only
  by_cases hneg : n < 0
  · have hdig : (digits 10 n.natAbs).length ≤ 39 := by
      rw [digits, length_lowDigits]
      have hlt : n.natAbs ≤ 2^T.width.bits-1 := by omega
      have := Nat.log_mono_right (b := 10) hlt
      unfold maxDecN at hW
      omega
    have hoff := he.length
    rw [hl, hlen, List.length_map] at hoff
    obtain ⟨offset, rfl⟩ : ∃ o, offset = o+1 := ⟨offset-1, by omega⟩
    obtain ⟨buf', hw, he'⟩ := he.writeAt 45
    rw [if_pos hneg, if_pos hneg, sub_eq (by omega), Option.bind_eq_bind, Option.bind_some,
      Nat.add_sub_cancel, hw, Option.bind_eq_bind, Option.bind_some, he'.sliceBufferToStr]
  · rw [if_neg hneg, if_neg hneg, he.sliceBufferToStr]

end RustStd.IntFmt
