import RustStd.Lib.Machine
import RustStd.Str.Utf8Grammar

/-!
# `run_utf8_validation`

The validator of `core::str::validations`, byte by byte, with its two-word
skip over ASCII blocks. The slice has an address, words are read only where
they are aligned and inside the slice, and every loop has an explicit number
of rounds. `none` is a run that read out of place or did not stop.
-/

set_option autoImplicit false

namespace RustStd.Utf8Validation
open RustStd.Machine RustStd.Utf8Grammar

structure Utf8Error where
  validUpTo : ℕ
  errorLen : Option ℕ
  deriving DecidableEq, Repr

def utf8CharWidthTable : List ℕ := [
    1, 1, 1, 1, 1, 1, 1, 1, 1, 1, 1, 1, 1, 1, 1, 1, -- 0
    1, 1, 1, 1, 1, 1, 1, 1, 1, 1, 1, 1, 1, 1, 1, 1, -- 1
    1, 1, 1, 1, 1, 1, 1, 1, 1, 1, 1, 1, 1, 1, 1, 1, -- 2
    1, 1, 1, 1, 1, 1, 1, 1, 1, 1, 1, 1, 1, 1, 1, 1, -- 3
    1, 1, 1, 1, 1, 1, 1, 1, 1, 1, 1, 1, 1, 1, 1, 1, -- 4
    1, 1, 1, 1, 1, 1, 1, 1, 1, 1, 1, 1, 1, 1, 1, 1, -- 5
    1, 1, 1, 1, 1, 1, 1, 1, 1, 1, 1, 1, 1, 1, 1, 1, -- 6
    1, 1, 1, 1, 1, 1, 1, 1, 1, 1, 1, 1, 1, 1, 1, 1, -- 7
    0, 0, 0, 0, 0, 0, 0, 0, 0, 0, 0, 0, 0, 0, 0, 0, -- 8
    0, 0, 0, 0, 0, 0, 0, 0, 0, 0, 0, 0, 0, 0, 0, 0, -- 9
    0, 0, 0, 0, 0, 0, 0, 0, 0, 0, 0, 0, 0, 0, 0, 0, -- A
    0, 0, 0, 0, 0, 0, 0, 0, 0, 0, 0, 0, 0, 0, 0, 0, -- B
    0, 0, 2, 2, 2, 2, 2, 2, 2, 2, 2, 2, 2, 2, 2, 2, -- C
    2, 2, 2, 2, 2, 2, 2, 2, 2, 2, 2, 2, 2, 2, 2, 2, -- D
    3, 3, 3, 3, 3, 3, 3, 3, 3, 3, 3, 3, 3, 3, 3, 3, -- E
    4, 4, 4, 4, 4, 0, 0, 0, 0, 0, 0, 0, 0, 0, 0, 0] -- F

def utf8CharWidth (b : UInt8) : ℕ := utf8CharWidthTable.getD b.toNat 0

theorem utf8CharWidth_eq : ∀ b : UInt8, utf8CharWidth b =
    if b ≤ 0x7F then 1 else if b < 0xC2 ∨ 0xF4 < b then 0
    else if b ≤ 0xDF then 2 else if b ≤ 0xEF then 3 else 4 := by
  decide +kernel

/-- The second-byte patterns of both decoders, arm by arm. -/
def second3 (first b : UInt8) : Bool :=
  (first == 0xE0 && (0xA0 ≤ b && b ≤ 0xBF)) ||
  ((0xE1 ≤ first && first ≤ 0xEC) && (0x80 ≤ b && b ≤ 0xBF)) ||
  (first == 0xED && (0x80 ≤ b && b ≤ 0x9F)) ||
  ((0xEE ≤ first && first ≤ 0xEF) && (0x80 ≤ b && b ≤ 0xBF))

def second4 (first b : UInt8) : Bool :=
  (first == 0xF0 && (0x90 ≤ b && b ≤ 0xBF)) ||
  ((0xF1 ≤ first && first ≤ 0xF3) && (0x80 ≤ b && b ≤ 0xBF)) ||
  (first == 0xF4 && (0x80 ≤ b && b ≤ 0x8F))

theorem second3_iff (a b : UInt8) : second3 a b = true ↔ Lead3 a b := by
  simp only [second3, Lead3, Tail, Bool.or_eq_true, Bool.and_eq_true, beq_iff_eq,
    decide_eq_true_eq]
  tauto

theorem second4_iff (a b : UInt8) : second4 a b = true ↔ Lead4 a b := by
  simp only [second4, Lead4, Tail, Bool.or_eq_true, Bool.and_eq_true, beq_iff_eq,
    decide_eq_true_eq]
  tauto

set_option maxRecDepth 8000 in
theorem toInt8_ge_iff : ∀ b : UInt8, b.toInt8 ≥ -64 ↔ ¬ Tail b := by
  decide

/-- The macro `next!`: advance and read, or report a truncated input. -/
def nextByte (v : List UInt8) (index : ℕ) : Except (Option ℕ) (ℕ × UInt8) :=
  match v[index+1]? with
  | none => .error none
  | some b => .ok (index+1, b)

/-- The branch of the loop for a first byte that is not ASCII. The error is
the value of `error_len`, the result the index after the sequence. -/
def multibyte (v : List UInt8) (index : ℕ) (first : UInt8) : Except (Option ℕ) ℕ :=
  match utf8CharWidth first with
  | 2 => do
    let (index, b) ← nextByte v index
    if b.toInt8 ≥ -64 then throw (some 1)
    return index+1
  | 3 => do
    let (index, b) ← nextByte v index
    if !second3 first b then throw (some 1)
    let (index, c) ← nextByte v index
    if c.toInt8 ≥ -64 then throw (some 2)
    return index+1
  | 4 => do
    let (index, b) ← nextByte v index
    if !second4 first b then throw (some 1)
    let (index, c) ← nextByte v index
    if c.toInt8 ≥ -64 then throw (some 2)
    let (index, d) ← nextByte v index
    if d.toInt8 ≥ -64 then throw (some 3)
    return index+1
  | _ => throw (some 1)

def usizeBytes : ℕ := 8

/-- `align_offset` of a byte pointer: the distance to the next multiple. -/
def alignOffset (addr : ℕ) : ℕ := (usizeBytes-addr%usizeBytes)%usizeBytes

/-- A word in memory order, the first byte least significant. -/
def wordOf : List UInt8 → ℕ
  | [] => 0
  | b :: bs => b.toNat+256*wordOf bs

def repeatU8 (x : ℕ) : ℕ → ℕ
  | 0 => 0
  | n+1 => x+256*repeatU8 x n

def nonasciiMask : ℕ := repeatU8 0x80 usizeBytes

def containsNonascii (x : ℕ) : Bool := x &&& nonasciiMask ≠ 0

def readWord (v : List UInt8) (addr index : ℕ) : Option ℕ :=
  if (addr+index)%usizeBytes = 0 ∧ index+usizeBytes ≤ v.length then
    some (wordOf ((v.drop index).take usizeBytes)) else none

def asciiBlockSize : ℕ := 2*usizeBytes

def blockLoop (v : List UInt8) (addr blocksEnd : ℕ) : ℕ → ℕ → Option ℕ
  | 0, _ => none
  | fuel+1, index =>
    if index < blocksEnd then do
      let zu ← readWord v addr index
      let zv ← readWord v addr (index+usizeBytes)
      if containsNonascii zu || containsNonascii zv then return index
      blockLoop v addr blocksEnd fuel (index+asciiBlockSize)
    else some index

def stepLoop (v : List UInt8) : ℕ → ℕ → Option ℕ
  | 0, _ => none
  | fuel+1, index =>
    match v[index]? with
    | none => some index
    | some b => if b < 128 then stepLoop v fuel (index+1) else some index

/-- `align` is `usize::MAX` in const evaluation, where there is no address. -/
def alignOf (isConst : Bool) (addr : ℕ) : ℕ :=
  if isConst then usizeMax else alignOffset addr

def validationLoop (v : List UInt8) (addr align blocksEnd : ℕ) :
    ℕ → ℕ → Option (Except Utf8Error Unit)
  | 0, _ => none
  | fuel+1, index =>
    match v[index]? with
    | none => some (.ok ())
    | some first =>
      if first ≥ 128 then
        match multibyte v index first with
        | .error e => some (.error ⟨index, e⟩)
        | .ok next => validationLoop v addr align blocksEnd fuel next
      else if align ≠ usizeMax ∧ wrappingSub align index % usizeBytes = 0 then do
        let next ← blockLoop v addr blocksEnd (v.length+1) index
        let next ← stepLoop v (v.length+1) next
        validationLoop v addr align blocksEnd fuel next
      else validationLoop v addr align blocksEnd fuel (index+1)

def runUtf8Validation (isConst : Bool) (addr : ℕ) (v : List UInt8) :
    Option (Except Utf8Error Unit) :=
  let blocksEnd := if v.length ≥ asciiBlockSize then v.length-asciiBlockSize+1 else 0
  validationLoop v addr (alignOf isConst addr) blocksEnd (v.length+1) 0

def ofScan (index : ℕ) : Scan → Except (Option ℕ) ℕ
  | .char n => .ok (index+n)
  | .bad k => .error (some k)
  | .cut => .error none

theorem nextByte_eq {v l : List UInt8} {index : ℕ} {a : UInt8} (h : v.drop index = a :: l) :
    nextByte v index = match l with
      | [] => .error none
      | b :: _ => .ok (index+1, b) := by
  have h0 : v[index+1]? = l[0]? := by
    rw [← List.getElem?_drop, h, List.getElem?_cons_succ]
  cases l <;> simp [nextByte, h0]

theorem drop_succ_eq {v l : List UInt8} {index : ℕ} {a : UInt8} (h : v.drop index = a :: l) :
    v.drop (index+1) = l := by
  rw [← List.drop_drop, h, List.drop_one, List.tail_cons]

theorem multibyte_eq_scan {v l : List UInt8} {index : ℕ} {first : UInt8}
    (hv : v.drop index = first :: l) (hf : ¬ first ≤ 0x7F) :
    multibyte v index first = ofScan index (scan (first :: l)) := by
  unfold multibyte scan
  simp only [utf8CharWidth_eq, hf, if_false]
  have h3 (b : UInt8) : (!second3 first b) = true ↔ ¬ Lead3 first b := by
    rw [← second3_iff, Bool.not_eq_true', Bool.not_eq_true]
  have h4 (b : UInt8) : (!second4 first b) = true ↔ ¬ Lead4 first b := by
    rw [← second4_iff, Bool.not_eq_true', Bool.not_eq_true]
  split_ifs with hbad hw2 hw3
  · rfl
  · simp only [nextByte_eq hv]
    rcases l with _ | ⟨b, l⟩
    · rfl
    · by_cases hb : Tail b <;> simp [toInt8_ge_iff, hb, bind, Except.bind, ofScan] <;> rfl
  · simp only [nextByte_eq hv]
    rcases l with _ | ⟨b, l⟩
    · rfl
    by_cases hab : Lead3 first b
    · simp only [bind, Except.bind, h3, hab, nextByte_eq (drop_succ_eq hv)]
      rcases l with _ | ⟨c, l⟩
      · rfl
      · by_cases hc : Tail c <;> simp [toInt8_ge_iff, hc, ofScan] <;> rfl
    · simp only [bind, Except.bind, h3, hab]; rfl
  · simp only [nextByte_eq hv]
    rcases l with _ | ⟨b, l⟩
    · rfl
    by_cases hab : Lead4 first b
    · simp only [bind, Except.bind, h4, hab, nextByte_eq (drop_succ_eq hv)]
      rcases l with _ | ⟨c, l⟩
      · rfl
      by_cases hc : Tail c
      · simp only [toInt8_ge_iff, hc, nextByte_eq (drop_succ_eq (drop_succ_eq hv))]
        rcases l with _ | ⟨d, l⟩
        · rfl
        · by_cases hd : Tail d <;> simp [hd, ofScan] <;> rfl
      · simp [toInt8_ge_iff, hc, ofScan]; rfl
    · simp only [bind, Except.bind, h4, hab]; rfl

theorem land_byte (b w x m : ℕ) (hb : b < 256) (hx : x < 256) :
    (b+256*w) &&& (x+256*m) = 0 ↔ b &&& x = 0 ∧ w &&& m = 0 := by
  have hmod := Nat.and_mod_two_pow (a := b+256*w) (b := x+256*m) (n := 8)
  have hdiv := Nat.and_div_two_pow (a := b+256*w) (b := x+256*m) (n := 8)
  rw [show (b+256*w)%2^8 = b by lia, show (x+256*m)%2^8 = x by lia] at hmod
  rw [show (b+256*w)/2^8 = w by lia, show (x+256*m)/2^8 = m by lia] at hdiv
  rw [← hmod, ← hdiv]
  lia

set_option maxRecDepth 8000 in
theorem land_high_bit : ∀ b : UInt8, b.toNat &&& 0x80 = 0 ↔ b < 128 := by
  decide

theorem wordOf_land_mask (bs : List UInt8) :
    wordOf bs &&& repeatU8 0x80 bs.length = 0 ↔ ∀ b ∈ bs, b < 128 := by
  induction bs with
  | nil => simp [wordOf]
  | cons b bs ih =>
    simp only [wordOf, repeatU8, List.length_cons, List.forall_mem_cons]
    rw [land_byte _ _ _ _ b.toNat_lt (by decide), ih, land_high_bit]

theorem containsNonascii_eq_false {bs : List UInt8} (hl : bs.length = usizeBytes)
    (h : containsNonascii (wordOf bs) = false) : ∀ b ∈ bs, b < 128 := by
  rw [← wordOf_land_mask, hl]
  exact not_not.mp (of_decide_eq_false h)

/-- Every byte between the two positions is ASCII. -/
def AsciiBetween (v : List UInt8) (i j : ℕ) : Prop :=
  i ≤ j ∧ j ≤ v.length ∧ ∀ b ∈ (v.drop i).take (j-i), b < 128

theorem AsciiBetween.refl {v : List UInt8} {i : ℕ} (hi : i ≤ v.length) : AsciiBetween v i i :=
  ⟨le_rfl, hi, by simp⟩

theorem AsciiBetween.trans {v : List UInt8} {i j k : ℕ} (h : AsciiBetween v i j)
    (h' : AsciiBetween v j k) : AsciiBetween v i k := by
  refine ⟨h.1.trans h'.1, h'.2.1, ?_⟩
  have hs : (v.drop i).take (k-i) = (v.drop i).take (j-i) ++ (v.drop j).take (k-j) := by
    have h1 := h.1
    have h2 := h'.1
    rw [show k-i = (j-i)+(k-j) by lia, List.take_add, List.drop_drop,
      show i+(j-i) = j by lia]
  rw [hs]
  intro b hb
  rcases List.mem_append.mp hb with hb | hb
  · exact h.2.2 b hb
  · exact h'.2.2 b hb

theorem readWord_ascii {v : List UInt8} {addr index w : ℕ} (h : readWord v addr index = some w)
    (hw : containsNonascii w = false) : AsciiBetween v index (index+usizeBytes) := by
  unfold readWord at h
  split_ifs at h with hc
  obtain rfl := Option.some.inj h
  refine ⟨by lia, hc.2, ?_⟩
  rw [Nat.add_sub_cancel_left]
  exact containsNonascii_eq_false (by simp; lia) hw

theorem readWord_isSome (v : List UInt8) (addr index : ℕ) (ha : (addr+index)%usizeBytes = 0)
    (hi : index+usizeBytes ≤ v.length) : ∃ w, readWord v addr index = some w :=
  ⟨_, if_pos ⟨ha, hi⟩⟩

theorem blockLoop_spec (v : List UInt8) (addr blocksEnd fuel index : ℕ)
    (hb : blocksEnd+asciiBlockSize ≤ v.length+1 ∨ blocksEnd = 0) (ha : (addr+index)%usizeBytes = 0) (hi : index ≤ v.length)
    (hf : v.length < index+fuel) :
    ∃ j, blockLoop v addr blocksEnd fuel index = some j ∧ AsciiBetween v index j := by
  induction fuel generalizing index with
  | zero => lia
  | succ fuel ih =>
    unfold blockLoop
    split_ifs with hlt
    · simp only [asciiBlockSize, usizeBytes] at *
      obtain ⟨zu, hu⟩ := readWord_isSome v addr index ha (by simp [usizeBytes]; lia)
      obtain ⟨zv, hv⟩ := readWord_isSome v addr (index+8)
        (by simp [usizeBytes]; lia) (by simp [usizeBytes]; lia)
      simp only [hu, hv, some_bind]
      split_ifs with hz
      · exact ⟨index, rfl, .refl hi⟩
      · simp only [Bool.or_eq_true, not_or, Bool.not_eq_true] at hz
        obtain ⟨j, hj, hA⟩ := ih (index+16) (by lia) (by lia) (by lia)
        exact ⟨j, by simpa using hj, ((readWord_ascii hu hz.1).trans (readWord_ascii hv hz.2)).trans hA⟩
    · exact ⟨index, rfl, .refl hi⟩

theorem stepLoop_spec (v : List UInt8) (fuel index : ℕ) (hi : index ≤ v.length)
    (hf : v.length < index+fuel) :
    ∃ j, stepLoop v fuel index = some j ∧ AsciiBetween v index j ∧
      ∀ b, v[j]? = some b → ¬ b < 128 := by
  induction fuel generalizing index with
  | zero => lia
  | succ fuel ih =>
    unfold stepLoop
    cases hb : v[index]? with
    | none => exact ⟨index, rfl, .refl hi, by simp [hb]⟩
    | some b =>
      have hlt := (List.getElem?_eq_some_iff.mp hb).1
      by_cases ha : b < 128
      · obtain ⟨j, hj, hA, hn⟩ := ih (index+1) (by lia) (by lia)
        refine ⟨j, by simpa [ha] using hj, AsciiBetween.trans ⟨by lia, by lia, ?_⟩ hA, hn⟩
        have hd : v.drop index = b :: v.drop (index+1) := by
          rw [List.drop_eq_getElem_cons hlt, (List.getElem?_eq_some_iff.mp hb).2]
        simpa [hd] using ha
      · exact ⟨index, by simp [ha], .refl hi, by simpa [hb] using ha⟩

/-- What a run may report. The position and the kind of an error depend on the
bytes alone. -/
def Reports (v : List UInt8) : Except Utf8Error Unit → Prop
  | .ok _ => WellFormed v
  | .error e => e.validUpTo < v.length ∧ WellFormed (v.take e.validUpTo) ∧
      Stuck (v.drop e.validUpTo) e.errorLen

theorem wellFormed_take_ascii {v : List UInt8} {i j : ℕ} (hw : WellFormed (v.take i))
    (h : AsciiBetween v i j) : WellFormed (v.take j) := by
  have h1 := h.1
  rw [show j = i+(j-i) by lia, List.take_add]
  refine hw.append (wellFormed_ascii fun b hb => ?_)
  have := h.2.2 b hb
  grind

/-- One round of the main loop: an error at the current position, or a longer
valid prefix. -/
theorem validationLoop_spec (v : List UInt8) (isConst : Bool) (addr blocksEnd fuel index : ℕ)
    (hb : blocksEnd+asciiBlockSize ≤ v.length+1 ∨ blocksEnd = 0)
    (hi : index ≤ v.length) (hf : v.length < index+fuel) (hw : WellFormed (v.take index)) :
    ∃ r, validationLoop v addr (alignOf isConst addr) blocksEnd fuel index = some r ∧
      Reports v r := by
  induction fuel generalizing index with
  | zero => lia
  | succ fuel ih =>
    unfold validationLoop
    cases hv : v[index]? with
    | none =>
      have hl := List.getElem?_eq_none_iff.mp hv
      rw [List.take_of_length_le hl] at hw
      exact ⟨.ok (), rfl, hw⟩
    | some first =>
      obtain ⟨hlt, hget⟩ := List.getElem?_eq_some_iff.mp hv
      have hd : v.drop index = first :: v.drop (index+1) := by
        rw [List.drop_eq_getElem_cons hlt, hget]
      by_cases hge : first ≥ 128
      · have hs := scan_correct (v.drop index) (by simp [hd])
        simp only [hge, if_true, multibyte_eq_scan hd (show ¬ first ≤ 0x7F by grind), ← hd]
        cases hsc : scan (v.drop index) with
        | char n =>
          rw [hsc] at hs
          have hn := hs.2.2
          rw [List.length_drop] at hn
          refine ih (index+n) (by lia) (by have := hs.2.1; lia) ?_
          rw [List.take_add]
          exact hw.append hs.1.wellFormed
        | bad k =>
          rw [hsc] at hs
          exact ⟨_, rfl, hlt, hw, hs⟩
        | cut =>
          rw [hsc] at hs
          exact ⟨_, rfl, hlt, hw, hs⟩
      · simp only [hge, if_false]
        split_ifs with hal
        · have halign : (addr+index)%usizeBytes = 0 := by
            cases isConst
            · simp [alignOf, alignOffset, wrappingSub, usizeBytes] at hal ⊢
              lia
            · simp [alignOf] at hal
          obtain ⟨j, hj, hA⟩ :=
            blockLoop_spec v addr blocksEnd (v.length+1) index hb halign hi (by lia)
          obtain ⟨k, hk, hB, hn⟩ := stepLoop_spec v (v.length+1) j hA.2.1 (by lia)
          have hAB := hA.trans hB
          have hne : index ≠ k := by
            rintro rfl
            exact hn first hv (by grind)
          simp only [hj, hk, some_bind]
          exact ih k hAB.2.1 (by have := hAB.1; lia) (wellFormed_take_ascii hw hAB)
        · refine ih (index+1) (by lia) (by lia) (wellFormed_take_ascii hw ⟨by lia, by lia, ?_⟩)
          rw [hd]
          simpa using hge

theorem reports_longest {v : List UInt8} {e : Utf8Error} (h : Reports v (.error e)) :
    IsGreatest {n | n ≤ v.length ∧ WellFormed (v.take n)} e.validUpTo :=
  longest_prefix h.1.le h.2.1 h.2.2.no_sequence

theorem reports_error_not_wellFormed {v : List UInt8} {e : Utf8Error}
    (h : Reports v (.error e)) : ¬ WellFormed v := by
  intro hw
  have := (reports_longest h).2 ⟨le_rfl, by simpa using hw⟩
  exact absurd h.1 (not_lt.mpr this)

theorem stuck_unique {l : List UInt8} {r s : Option ℕ} (hr : Stuck l r) (hs : Stuck l s) :
    r = s := by
  cases r with
  | none => exact (hs.none_iff.mpr (hr.none_iff.mp rfl)).symm
  | some k =>
    cases s with
    | none => exact hr.none_iff.mpr (hs.none_iff.mp rfl)
    | some j =>
      obtain ⟨-, -, m, hm, rfl⟩ := hr.some_len k rfl
      obtain ⟨-, -, n, hn, rfl⟩ := hs.some_len j rfl
      rw [hm.unique hn]

theorem reports_unique {v : List UInt8} {r s : Except Utf8Error Unit} (hr : Reports v r)
    (hs : Reports v s) : r = s := by
  cases r with
  | ok _ =>
    cases s with
    | ok _ => rfl
    | error e => exact absurd hr (reports_error_not_wellFormed hs)
  | error d =>
    cases s with
    | ok _ => exact absurd hs (reports_error_not_wellFormed hr)
    | error e =>
      obtain ⟨i, x⟩ := d
      obtain ⟨j, y⟩ := e
      obtain rfl : i = j := (reports_longest hr).unique (reports_longest hs)
      obtain rfl : x = y := stuck_unique hr.2.2 hs.2.2
      rfl

theorem runUtf8Validation_reports (isConst : Bool) (addr : ℕ) (v : List UInt8) :
    ∃ r, runUtf8Validation isConst addr v = some r ∧ Reports v r := by
  apply validationLoop_spec v isConst addr _ _ 0 _ (by lia) (by lia) .nil
  split_ifs with h
  · exact .inl (by lia)
  · exact .inr rfl

/-- The validator decides the syntax, finds the longest valid prefix and
classifies what follows it, at every address and also without one. -/
theorem runUtf8Validation_exact (isConst : Bool) (addr : ℕ) (v : List UInt8) :
    ∃ r, runUtf8Validation isConst addr v = some r ∧ (r = .ok () ↔ WellFormed v) ∧
      (∀ e, r = .error e →
        IsGreatest {n | n ≤ v.length ∧ WellFormed (v.take n)} e.validUpTo ∧
        (e.errorLen = none ↔ Incomplete (v.drop e.validUpTo)) ∧
        ∀ k, e.errorLen = some k → 1 ≤ k ∧ k ≤ 3 ∧
          ∃ m, IsGreatest {n | n ≤ (v.drop e.validUpTo).length ∧
            Incomplete ((v.drop e.validUpTo).take n)} m ∧ k = max m 1) ∧
      ∀ isConst' addr', runUtf8Validation isConst' addr' v = some r := by
  obtain ⟨r, hr, hrep⟩ := runUtf8Validation_reports isConst addr v
  refine ⟨r, hr, ?_, ?_, ?_⟩
  · cases r with
    | ok _ => exact ⟨fun _ => hrep, fun _ => rfl⟩
    | error e => simpa using reports_error_not_wellFormed hrep
  · rintro e rfl
    exact ⟨reports_longest hrep, hrep.2.2.none_iff, hrep.2.2.some_len⟩
  · intro isConst' addr'
    obtain ⟨s, hs, hsrep⟩ := runUtf8Validation_reports isConst' addr' v
    rw [hs, reports_unique hsrep hrep]

end RustStd.Utf8Validation
