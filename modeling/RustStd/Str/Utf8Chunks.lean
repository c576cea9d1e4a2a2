import RustStd.Str.Utf8Validation

/-!
# `Utf8Chunks`

The lossy decoder of `core::str::lossy`. It pads reads behind the end with
zero bytes and tracks the inspected and the valid length separately. It is
compared with the validator through the one grammar both of them decide.
-/

set_option autoImplicit false

namespace RustStd.Utf8Chunks
open RustStd.Utf8Grammar RustStd.Utf8Validation

structure Utf8Chunk where
  valid : List UInt8
  invalid : List UInt8
  deriving DecidableEq, Repr

def tagContU8 : UInt8 := 128

def safeGet (xs : List UInt8) (i : ℕ) : UInt8 := xs.getD i 0

def notCont (b : UInt8) : Bool := b &&& 192 != tagContU8

/-- The body of the loop after `byte` was read. The flag tells whether it
breaks; the index is where it stands then. -/
def body (source : List UInt8) (i : ℕ) (byte : UInt8) : ℕ × Bool :=
  let i := i+1
  if byte < 128 then (i, false)
  else match utf8CharWidth byte with
    | 2 =>
      if notCont (safeGet source i) then (i, true) else
      (i+1, false)
    | 3 =>
      if !second3 byte (safeGet source i) then (i, true) else
      let i := i+1
      if notCont (safeGet source i) then (i, true) else
      (i+1, false)
    | 4 =>
      if !second4 byte (safeGet source i) then (i, true) else
      let i := i+1
      if notCont (safeGet source i) then (i, true) else
      let i := i+1
      if notCont (safeGet source i) then (i, true) else
      (i+1, false)
    | _ => (i, true)

def chunkLoop (source : List UInt8) : ℕ → ℕ → ℕ → Option (ℕ × ℕ)
  | 0, _, _ => none
  | fuel+1, i, validUpTo =>
    match source[i]? with
    | none => some (i, validUpTo)
    | some byte =>
      match body source i byte with
      | (i, true) => some (i, validUpTo)
      | (i, false) => chunkLoop source fuel i i

/-- `split_at_unchecked` is only defined inside the slice. -/
def splitAtUnchecked (xs : List UInt8) (mid : ℕ) : Option (List UInt8 × List UInt8) :=
  if mid ≤ xs.length then some (xs.take mid, xs.drop mid) else none

/-- One call of `Iterator::next`: the chunk, if any, and the new source. -/
def next (source : List UInt8) : Option (Option Utf8Chunk × List UInt8) :=
  if source.isEmpty then some (none, source) else do
    let (i, validUpTo) ← chunkLoop source (source.length+1) 0 0
    let (inspected, remaining) ← splitAtUnchecked source i
    let (valid, invalid) ← splitAtUnchecked inspected validUpTo
    return (some ⟨valid, invalid⟩, remaining)

def collect : ℕ → List UInt8 → Option (List Utf8Chunk)
  | 0, _ => none
  | fuel+1, source => do
    match ← next source with
    | (none, _) => return []
    | (some c, source) =>
      let cs ← collect fuel source
      return c :: cs

def utf8Chunks (source : List UInt8) : Option (List Utf8Chunk) :=
  collect (source.length+1) source

set_option maxRecDepth 8000 in
theorem notCont_iff : ∀ b : UInt8, notCont b = true ↔ ¬ Tail b := by
  decide

def ofScan (i len : ℕ) : Scan → ℕ × Bool
  | .char n => (i+n, false)
  | .bad k => (i+k, true)
  | .cut => (len, true)

theorem safeGet_eq {v l : List UInt8} {i : ℕ} {a : UInt8} (h : v.drop i = a :: l) :
    safeGet v (i+1) = l.headD 0 := by
  have h0 : v[i+1]? = l[0]? := by
    rw [← List.getElem?_drop, h, List.getElem?_cons_succ]
  cases l <;> simp [safeGet, List.getD_eq_getElem?_getD, h0]

theorem length_of_drop {v l : List UInt8} {i : ℕ} {a : UInt8} (h : v.drop i = a :: l) :
    v.length = i+1+l.length := by
  have := congrArg List.length h
  simp at this
  omega

theorem body_eq_scan {v l : List UInt8} {i : ℕ} {first : UInt8}
    (hv : v.drop i = first :: l) :
    body v i first = ofScan i v.length (scan (first :: l)) := by
  have hlen := length_of_drop hv
  have h3 (b : UInt8) : (!second3 first b) = true ↔ ¬ Lead3 first b := by
    rw [← second3_iff, Bool.not_eq_true', Bool.not_eq_true]
  have h4 (b : UInt8) : (!second4 first b) = true ↔ ¬ Lead4 first b := by
    rw [← second4_iff, Bool.not_eq_true', Bool.not_eq_true]
  have ht0 : ¬ Tail 0 := by decide
  have h30 : ¬ Lead3 first 0 := fun h => ht0 (lead3_range h).2.2
  have h40 : ¬ Lead4 first 0 := fun h => ht0 (lead4_range h).2.2
  unfold body scan
  by_cases hf : first ≤ 0x7F
  · simp [hf, show first < 128 by grind, ofScan]
  simp only [show ¬ first < 128 by grind, hf, if_false, utf8CharWidth_eq, safeGet_eq hv,
    notCont_iff, h3, h4]
  by_cases hbad : first < 0xC2 ∨ 0xF4 < first
  · simp [hbad, ofScan]
  by_cases hw2 : first ≤ 0xDF
  · rcases l with _ | ⟨b, l⟩
    · simp [hbad, hw2, ht0, ofScan, hlen]
    · by_cases hb : Tail b <;> simp [hbad, hw2, hb, ofScan]
  by_cases hw3 : first ≤ 0xEF
  · simp only [hbad, hw2, hw3, if_true, if_false]
    rcases l with _ | ⟨b, l⟩
    · simp [h30, ofScan, hlen]
    by_cases hab : Lead3 first b
    · simp only [List.headD_cons, hab, not_true, if_false, if_true, safeGet_eq (drop_succ_eq hv)]
      rcases l with _ | ⟨c, l⟩
      · simp [ht0, ofScan, hlen]
      · by_cases hc : Tail c <;> simp [hc, ofScan]
    · simp [hab, ofScan]
  · simp only [hbad, hw2, hw3, if_false]
    rcases l with _ | ⟨b, l⟩
    · simp [h40, ofScan, hlen]
    by_cases hab : Lead4 first b
    · simp only [List.headD_cons, hab, not_true, if_false, if_true, safeGet_eq (drop_succ_eq hv)]
      rcases l with _ | ⟨c, l⟩
      · simp [ht0, ofScan, hlen]
      by_cases hc : Tail c
      · simp only [List.headD_cons, hc, not_true, if_false, if_true,
          safeGet_eq (drop_succ_eq (drop_succ_eq hv))]
        rcases l with _ | ⟨d, l⟩
        · simp [ht0, ofScan, hlen]
        · by_cases hd : Tail d <;> simp [hd, ofScan]
      · simp [hc, ofScan]
    · simp [hab, ofScan]

/-- The two lengths a call leaves behind, in terms of what the validator reports. -/
def Splits (source : List UInt8) (i validUpTo : ℕ) : Prop :=
  (validUpTo = source.length ∧ i = source.length ∧ Reports source (.ok ())) ∨
  ∃ e, Reports source (.error ⟨validUpTo, e⟩) ∧
    i = validUpTo+e.getD (source.length-validUpTo) ∧ i ≤ source.length ∧
    i-validUpTo ≤ 3 ∧ validUpTo < i

theorem chunkLoop_spec (source : List UInt8) (fuel i : ℕ) (hi : i ≤ source.length)
    (hf : source.length < i+fuel) (hw : WellFormed (source.take i)) :
    ∃ j n, chunkLoop source fuel i i = some (j, n) ∧ Splits source j n := by
  induction fuel generalizing i with
  | zero => omega
  | succ fuel ih =>
    unfold chunkLoop
    cases hv : source[i]? with
    | none =>
      have hl := List.getElem?_eq_none_iff.mp hv
      have he : i = source.length := by omega
      rw [List.take_of_length_le hl] at hw
      exact ⟨i, i, rfl, .inl ⟨he, he, hw⟩⟩
    | some first =>
      obtain ⟨hlt, hget⟩ := List.getElem?_eq_some_iff.mp hv
      have hd : source.drop i = first :: source.drop (i+1) := by
        rw [List.drop_eq_getElem_cons hlt, hget]
      have hs := scan_correct (source.drop i) (by simp [hd])
      simp only [body_eq_scan hd, ← hd]
      cases hsc : scan (source.drop i) with
      | char n =>
        rw [hsc] at hs
        have hn := hs.2.2
        rw [List.length_drop] at hn
        refine ih (i+n) (by omega) (by have := hs.2.1; omega) ?_
        rw [List.take_add]
        exact hw.append hs.1.wellFormed
      | bad k =>
        rw [hsc] at hs
        obtain ⟨h1, h3, m, hm, hk⟩ := hs.some_len k rfl
        have hm' := hm.1.1
        rw [List.length_drop] at hm'
        exact ⟨_, _, rfl, .inr ⟨some k, ⟨hlt, hw, hs⟩, rfl, by omega, by omega, by omega⟩⟩
      | cut =>
        rw [hsc] at hs
        refine ⟨_, _, rfl, .inr ⟨none, ⟨hlt, hw, hs⟩, ?_, le_rfl, ?_, hlt⟩⟩
        · simp; omega
        · obtain ⟨c, hc, hp, hne⟩ := hs.none_iff.mp rfl
          have h1 := hc.length_le
          have h2 := hp.length_le
          have h3 : (source.drop i).length ≠ c.length := fun h => hne (hp.eq_of_length h)
          rw [List.length_drop] at h2 h3
          omega

/-- What one call of `next` yields on a non-empty source. -/
structure Yields (source : List UInt8) (c : Utf8Chunk) (rest : List UInt8) : Prop where
  bytes : c.valid ++ c.invalid ++ rest = source
  wellFormed : WellFormed c.valid
  invalid_length : c.invalid.length ≤ 3
  rest_lt : rest.length < source.length
  last : c.invalid = [] → rest = []
  reports : ∃ r, Reports source r ∧ (r = .ok () ↔ c.invalid = []) ∧
    ∀ e, r = .error e → c.valid.length = e.validUpTo ∧
      c.invalid.length = e.errorLen.getD (source.length-e.validUpTo)

theorem next_nil : next [] = some (none, []) := rfl

theorem next_spec (source : List UInt8) (hne : source ≠ []) :
    ∃ c rest, next source = some (some c, rest) ∧ Yields source c rest := by
  obtain ⟨i, n, hl, hs⟩ := chunkLoop_spec source (source.length+1) 0 (by omega) (by omega) .nil
  have hpos : 0 < source.length := List.length_pos_iff.mpr hne
  have hni : n ≤ i ∧ i ≤ source.length := by
    rcases hs with ⟨rfl, rfl, -⟩ | ⟨e, -, -, h1, -, h2⟩ <;> omega
  refine ⟨⟨(source.take i).take n, (source.take i).drop n⟩, source.drop i, ?_, ?_⟩
  · have h1 : splitAtUnchecked source i = some (source.take i, source.drop i) := if_pos hni.2
    have h2 : splitAtUnchecked (source.take i) n =
        some ((source.take i).take n, (source.take i).drop n) :=
      if_pos (by simp; omega)
    simp [next, hne, hl, h1, h2]
  · have hb : (source.take i).take n ++ (source.take i).drop n ++ source.drop i = source := by
      rw [List.take_append_drop, List.take_append_drop]
    have htake : (source.take i).take n = source.take n := by
      rw [List.take_take, Nat.min_eq_left hni.1]
    rcases hs with ⟨rfl, rfl, hr⟩ | ⟨e, hr, hi, h1, h2, h3⟩
    · exact ⟨hb, by simpa using (show WellFormed source from hr), by simp, by simpa using hpos,
        by simp, ⟨_, hr, by simp, by simp⟩⟩
    · have hlen : ((source.take i).drop n).length = i-n := by
        simp [Nat.min_eq_left h1]
      refine ⟨hb, by rw [htake]; exact hr.2.1, by rw [hlen]; omega, by simp; omega, ?_,
        ⟨_, hr, ?_, ?_⟩⟩
      · intro h0
        have := congrArg List.length h0
        rw [hlen, List.length_nil] at this
        omega
      · simp only [reduceCtorEq, false_iff]
        intro h0
        have := congrArg List.length h0
        rw [hlen, List.length_nil] at this
        omega
      · rintro e' he
        obtain rfl := Except.error.inj he
        exact ⟨by simp; omega, hlen.trans (show i-n = e.getD (source.length-n) by omega)⟩

def Utf8Chunk.bytes (c : Utf8Chunk) : List UInt8 := c.valid ++ c.invalid

inductive Run : List UInt8 → List Utf8Chunk → Prop
  | nil : Run [] []
  | cons {s rest : List UInt8} {c : Utf8Chunk} {cs : List Utf8Chunk} (hs : s ≠ [])
      (hy : Yields s c rest) (hr : Run rest cs) : Run s (c :: cs)

theorem collect_run (fuel : ℕ) (source : List UInt8) (hf : source.length < fuel) :
    ∃ cs, collect fuel source = some cs ∧ Run source cs := by
  induction fuel generalizing source with
  | zero => omega
  | succ fuel ih =>
    by_cases hne : source = []
    · subst hne
      exact ⟨[], by simp [collect, next_nil], .nil⟩
    · obtain ⟨c, rest, hn, hy⟩ := next_spec source hne
      obtain ⟨cs, hcs, hr⟩ := ih rest (by have := hy.rest_lt; omega)
      exact ⟨c :: cs, by simp [collect, hn, hcs], .cons hne hy hr⟩

theorem Run.flatMap_bytes {s : List UInt8} {cs : List Utf8Chunk} (h : Run s cs) :
    cs.flatMap Utf8Chunk.bytes = s := by
  induction h with
  | nil => rfl
  | cons hs hy hr ih => rw [List.flatMap_cons, ih, Utf8Chunk.bytes, hy.bytes]

theorem Run.head {s : List UInt8} {c : Utf8Chunk} {cs : List Utf8Chunk} (h : Run s (c :: cs)) :
    ∃ rest, Yields s c rest ∧ Run rest cs := by
  cases h with
  | cons hs hy hr => exact ⟨_, hy, hr⟩

theorem Run.suffix {s : List UInt8} {pre cs : List Utf8Chunk} (h : Run s (pre ++ cs)) :
    Run (cs.flatMap Utf8Chunk.bytes) cs := by
  induction pre generalizing s with
  | nil =>
    rw [List.nil_append] at h
    rwa [h.flatMap_bytes]
  | cons p pre ih =>
    cases h with
    | cons hs hy hr => exact ih hr

/-- The two decoders agree. `s` is the source that is left when a chunk is
taken, and the validator is run on it at any address. -/
theorem utf8Chunks_agree (source : List UInt8) :
    ∃ cs, utf8Chunks source = some cs ∧ cs.flatMap Utf8Chunk.bytes = source ∧
      (∀ c ∈ cs, WellFormed c.valid ∧ c.invalid.length ≤ 3) ∧
      (∀ c ∈ cs.dropLast, c.invalid ≠ []) ∧
      ∀ pre c post, cs = pre ++ c :: post →
        ∀ s, s = source.drop (pre.flatMap Utf8Chunk.bytes).length → ∀ isConst addr,
          ∃ r, runUtf8Validation isConst addr s = some r ∧ (r = .ok () ↔ c.invalid = []) ∧
            ∀ e, r = .error e → c.valid.length = e.validUpTo ∧
              c.invalid.length = e.errorLen.getD (s.length-e.validUpTo) := by
  obtain ⟨cs, hcs, hrun⟩ := collect_run (source.length+1) source (by omega)
  refine ⟨cs, hcs, hrun.flatMap_bytes, ?_, ?_, ?_⟩
  · intro c hc
    obtain ⟨pre, post, rfl⟩ := List.append_of_mem hc
    obtain ⟨rest, hy, -⟩ := hrun.suffix.head
    exact ⟨hy.wellFormed, hy.invalid_length⟩
  · intro c hc h0
    obtain ⟨pre, post, hsplit⟩ := List.append_of_mem hc
    have hne : cs ≠ [] := by rintro rfl; simp at hc
    have hlast := List.dropLast_append_getLast hne
    rw [hsplit, List.append_assoc, List.cons_append] at hlast
    rw [← hlast] at hrun
    obtain ⟨rest, hy, hr⟩ := hrun.suffix.head
    rw [hy.last h0] at hr
    generalize hp : post ++ [cs.getLast hne] = qs at hr
    cases hr with
    | nil => simp at hp
    | cons hs _ _ => exact hs rfl
  · rintro pre c post rfl s rfl isConst addr
    rw [← hrun.flatMap_bytes, List.flatMap_append, List.drop_left]
    obtain ⟨r, hr, hrep⟩ :=
      runUtf8Validation_reports isConst addr ((c :: post).flatMap Utf8Chunk.bytes)
    refine ⟨r, hr, ?_⟩
    obtain ⟨rest, hy, -⟩ := hrun.suffix.head
    obtain ⟨r', hrep', h⟩ := hy.reports
    rwa [reports_unique hrep hrep']

end RustStd.Utf8Chunks
