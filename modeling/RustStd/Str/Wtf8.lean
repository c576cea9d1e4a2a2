import RustStd.Str.Decode

/-!
# WTF-8

A text is the encoding of code points, surrogates among them, in which no lead
surrogate stands directly before a trail surrogate. The bytes that begin a code
point are no tail bytes, so the text splits at its code point boundaries, and
the searches for a surrogate at an end look at one whole code point.
-/

set_option autoImplicit false

namespace RustStd.Wtf8Encoding
open RustStd.Loop RustStd.Utf8Grammar RustStd.Chars RustStd.CharMethods

structure CodePoint where
  value : ℕ
  le : value ≤ 0x10FFFF
  deriving DecidableEq, Repr

namespace CodePoint

/-- `from_u32_unchecked`, undefined above the code points. -/
def fromU32Unchecked (value : ℕ) : Option CodePoint :=
  if h : value ≤ 0x10FFFF then some ⟨value, h⟩ else none

def fromChar (value : Char) : CodePoint :=
  ⟨value.toNat, Nat.le_of_lt_succ (toNat_lt_limit value).1⟩

def toLeadSurrogate (self : CodePoint) : Option UInt16 :=
  if 0xD800 ≤ self.value ∧ self.value ≤ 0xDBFF then some (UInt16.ofNat self.value) else none

def toTrailSurrogate (self : CodePoint) : Option UInt16 :=
  if 0xDC00 ≤ self.value ∧ self.value ≤ 0xDFFF then some (UInt16.ofNat self.value) else none

end CodePoint

/-- The first byte is assumed to be 0xED. -/
def decodeSurrogate (secondByte thirdByte : UInt8) : UInt16 :=
  (0xD800 : UInt16) ||| (secondByte.toUInt16 &&& 0x3F) <<< 6 ||| thirdByte.toUInt16 &&& 0x3F

/-- The loop of `next_surrogate` over the bytes from `pos` on. -/
def surrogateFrom (pos : ℕ) : List UInt8 → Option (ℕ × UInt16)
  | [] => none
  | b :: iter =>
    if b < 0x80 then surrogateFrom (pos+1) iter
    else if b < 0xE0 then surrogateFrom (pos+2) (iter.drop 1)
    else if b = 0xED then
      match iter with
      | b2 :: b3 :: iter =>
        if b2 ≥ 0xA0 then some (pos, decodeSurrogate b2 b3) else surrogateFrom (pos+3) iter
      | _ => surrogateFrom (pos+3) []
    else if b < 0xF0 then surrogateFrom (pos+3) (iter.drop 2)
    else surrogateFrom (pos+4) (iter.drop 3)
  termination_by l => l.length
  decreasing_by all_goals simp_wf; try omega

def nextSurrogate (bytes : List UInt8) (pos : ℕ) : Option (Option (ℕ × UInt16)) :=
  if pos ≤ bytes.length then some (surrogateFrom pos (bytes.drop pos)) else none

def finalLeadSurrogate (bytes : List UInt8) : Option UInt16 :=
  match bytes.reverse with
  | b3 :: b2 :: b1 :: _ =>
    if b1 = 0xED ∧ 0xA0 ≤ b2 ∧ b2 ≤ 0xAF then some (decodeSurrogate b2 b3) else none
  | _ => none

def initialTrailSurrogate (bytes : List UInt8) : Option UInt16 :=
  match bytes with
  | b1 :: b2 :: b3 :: _ =>
    if b1 = 0xED ∧ 0xB0 ≤ b2 ∧ b2 ≤ 0xBF then some (decodeSurrogate b2 b3) else none
  | _ => none

/-- Copied from `str::is_char_boundary`. -/
def isCodePointBoundary (bytes : List UInt8) (index : ℕ) : Bool := isCharBoundary bytes index

/-- `Wtf8CodePoints::next`. -/
def codePointsNext (bytes : List UInt8) : Option (Option CodePoint × List UInt8) := do
  match ← nextCodePoint bytes with
  | (none, bytes) => return (none, bytes)
  | (some c, bytes) =>
    let codePoint ← CodePoint.fromU32Unchecked c
    return (some codePoint, bytes)

structure EncodeWide where
  codePoints : List UInt8
  extra : UInt16
  deriving DecidableEq, Repr

def EncodeWide.next (self : EncodeWide) : Option (Option UInt16 × EncodeWide) :=
  if self.extra ≠ 0 then some (some self.extra, { self with extra := 0 })
  else do
    match ← codePointsNext self.codePoints with
    | (none, codePoints) => return (none, { self with codePoints })
    | (some codePoint, codePoints) =>
      let (units, buf) ← encodeUtf16Raw codePoint.value [0, 0]
      let unit ← buf[0]?
      if units.length = 2 then
        let extra ← buf[1]?
        return (some unit, { codePoints, extra })
      else return (some unit, { self with codePoints })

/-- The units that `encode_wide` gives. -/
def encodeWide (bytes : List UInt8) : Option (List UInt16) :=
  collect EncodeWide.next (bytes.length+1) { codePoints := bytes, extra := 0 }

/-- What the surrogates of a text may not do. -/
def CodePoint.Lead (c : CodePoint) : Prop := 0xD800 ≤ c.value ∧ c.value ≤ 0xDBFF

def CodePoint.Trail (c : CodePoint) : Prop := 0xDC00 ≤ c.value ∧ c.value ≤ 0xDFFF

def Unpaired (c d : CodePoint) : Prop := ¬ (c.Lead ∧ d.Trail)

def encode (cs : List CodePoint) : List UInt8 := cs.flatMap fun c => utf8Bytes c.value

def wide (cs : List CodePoint) : List UInt16 := cs.flatMap fun c => utf16Units c.value

/-- Generalised UTF-8 without surrogate pairs. -/
def WellFormed (bytes : List UInt8) : Prop := ∃ cs, cs.IsChain Unpaired ∧ bytes = encode cs

@[simp] theorem encode_nil : encode [] = [] := rfl

@[simp] theorem encode_cons (c : CodePoint) (cs : List CodePoint) :
    encode (c :: cs) = utf8Bytes c.value ++ encode cs := rfl

@[simp] theorem encode_append (cs ds : List CodePoint) :
    encode (cs ++ ds) = encode cs ++ encode ds := List.flatMap_append

@[simp] theorem wide_nil : wide [] = [] := rfl

@[simp] theorem wide_cons (c : CodePoint) (cs : List CodePoint) :
    wide (c :: cs) = utf16Units c.value ++ wide cs := rfl

@[simp] theorem wide_append (cs ds : List CodePoint) : wide (cs ++ ds) = wide cs ++ wide ds :=
  List.flatMap_append

theorem CodePoint.lt (c : CodePoint) : c.value < 0x110000 := Nat.lt_succ_of_le c.le

theorem CodePoint.cases (c : CodePoint) :
    (0xD800 ≤ c.value ∧ c.value ≤ 0xDFFF) ∨ ∃ d : Char, c = fromChar d := by
  by_cases h : 0xD800 ≤ c.value ∧ c.value ≤ 0xDFFF
  · exact Or.inl h
  · right
    have hv : c.value.isValidChar := by
      have := c.lt
      unfold Nat.isValidChar
      omega
    refine ⟨Char.ofNat c.value, ?_⟩
    have hval : (fromChar (Char.ofNat c.value)).value = c.value := Decode.toNat_ofNat hv
    cases c
    simpa [fromChar] using hval.symm

theorem utf8Bytes_surrogate {code : ℕ} (h : 0xD800 ≤ code ∧ code ≤ 0xDFFF) :
    utf8Bytes code = [0xED, UInt8.ofNat (0x80+code/64%64), UInt8.ofNat (0x80+code%64)] := by
  have h13 : code/4096 = 13 := by omega
  rw [utf8Bytes, utf8Units, if_neg (by omega), if_neg (by omega), if_pos (by omega), h13]
  rfl

theorem tail_ofNat {x : ℕ} (h : x < 64) : Tail (UInt8.ofNat (0x80+x)) := by
  revert x
  unfold Tail
  decide

theorem utf8Bytes_shape (c : CodePoint) :
    ∃ a r, utf8Bytes c.value = a :: r ∧ ¬ Tail a ∧ ∀ b ∈ r, Tail b := by
  rcases c.cases with h | ⟨d, rfl⟩
  · refine ⟨_, _, utf8Bytes_surrogate h, by unfold Tail; decide, ?_⟩
    simp only [List.mem_cons, List.not_mem_nil, or_false, forall_eq_or_imp, forall_eq]
    exact ⟨tail_ofNat (Nat.mod_lt _ (by decide)), tail_ofNat (Nat.mod_lt _ (by decide))⟩
  · exact sequence_shape (utf8Bytes_sequence d).1

theorem nextCodePoint_utf8Bytes (c : CodePoint) (r : List UInt8) :
    nextCodePoint (utf8Bytes c.value ++ r) = some (some c.value, r) := by
  rcases c.cases with h | ⟨d, rfl⟩
  · have h1 : (UInt8.ofNat (128+c.value%64)).toNat = 128+c.value%64 := toNat_unit (by omega)
    have h2 : (UInt8.ofNat (128+c.value/64%64)).toNat = 128+c.value/64%64 := toNat_unit (by omega)
    rw [utf8Bytes_surrogate h]
    simp only [List.cons_append, List.nil_append]
    rw [nextCodePoint_three (by decide) (by decide), codePoint, h1, h2]
    simp
    omega
  · obtain ⟨hseq, hcode⟩ := utf8Bytes_sequence d
    rw [CodePoint.fromChar, nextCodePoint_sequence hseq, hcode]

/-- The text splits at its boundaries. -/
theorem boundary_iff (cs : List CodePoint) (i : ℕ) :
    isCodePointBoundary (encode cs) i = true ↔
      ∃ xs ys, cs = xs ++ ys ∧ i = (encode xs).length := by
  unfold isCodePointBoundary
  induction cs generalizing i with
  | nil =>
    constructor
    · intro h
      refine ⟨[], [], rfl, ?_⟩
      cases i <;> simp_all [isCharBoundary]
    · rintro ⟨xs, ys, he, rfl⟩
      obtain ⟨rfl, -⟩ := List.append_eq_nil_iff.mp he.symm
      rfl
  | cons c cs ih =>
    obtain ⟨a, t, hc, ha, ht⟩ := utf8Bytes_shape c
    rw [encode_cons]
    rcases Nat.eq_zero_or_pos i with rfl | hi
    · exact ⟨fun _ => ⟨[], c :: cs, rfl, rfl⟩, fun _ => rfl⟩
    rcases Nat.lt_or_ge i (utf8Bytes c.value).length with hlt | hge
    · -- inside the first code point: a tail byte, and no prefix of code points ends there
      constructor
      · intro h
        exfalso
        rw [hc] at h hlt
        obtain ⟨b, hb⟩ : ∃ b, t[i-1]? = some b :=
          ⟨_, List.getElem?_eq_getElem (by rw [List.length_cons] at hlt; omega)⟩
        have hget : (a :: t ++ encode cs)[i]? = some b := by
          rw [List.getElem?_append_left hlt, List.getElem?_cons, if_neg (by omega), hb]
        simp only [isCharBoundary, show i ≠ 0 by omega, if_false, hget,
          isUtf8CharBoundary_iff] at h
        exact h (ht b (List.mem_of_getElem? hb))
      · rintro ⟨xs, ys, he, rfl⟩
        exfalso
        cases xs with
        | nil => simp at hi
        | cons x xs =>
          obtain ⟨rfl, -⟩ := List.cons.inj he
          rw [encode_cons, List.length_append] at hlt
          omega
    · obtain ⟨j, rfl⟩ : ∃ j, i = (utf8Bytes c.value).length+j :=
        ⟨i-(utf8Bytes c.value).length, by omega⟩
      have hbound : isCharBoundary (utf8Bytes c.value ++ encode cs) ((utf8Bytes c.value).length+j) =
          isCharBoundary (encode cs) j := by
        unfold isCharBoundary
        rw [if_neg (by omega), List.getElem?_append_right (by omega), Nat.add_sub_cancel_left]
        rcases Nat.eq_zero_or_pos j with rfl | hj
        · cases cs with
          | nil => simp
          | cons d ds =>
            obtain ⟨a', t', hd, ha', -⟩ := utf8Bytes_shape d
            simpa [hd] using (isUtf8CharBoundary_iff a').mpr ha'
        · rw [if_neg (by omega), List.length_append]
          cases (encode cs)[j]? with
          | none => simp
          | some b => rfl
      rw [hbound, ih]
      constructor
      · rintro ⟨xs, ys, rfl, rfl⟩
        exact ⟨c :: xs, ys, rfl, by simp⟩
      · rintro ⟨xs, ys, he, hlen⟩
        cases xs with
        | nil =>
          rw [encode_nil, List.length_nil] at hlen
          omega
        | cons x xs =>
          obtain ⟨rfl, rfl⟩ := List.cons.inj he
          refine ⟨xs, ys, rfl, ?_⟩
          rw [encode_cons, List.length_append] at hlen
          omega

theorem exists_split {cs : List CodePoint} {x y : List UInt8} {a : UInt8}
    (h : encode cs = x ++ a :: y) (ha : ¬ Tail a) :
    ∃ xs ys, cs = xs ++ ys ∧ x = encode xs ∧ a :: y = encode ys := by
  have hb : isCodePointBoundary (encode cs) x.length = true := by
    unfold isCodePointBoundary isCharBoundary
    rw [h]
    split_ifs
    · rfl
    · simpa using (isUtf8CharBoundary_iff a).mpr ha
  obtain ⟨xs, ys, rfl, hlen⟩ := (boundary_iff cs _).mp hb
  rw [encode_append] at h
  obtain ⟨hx, hy⟩ := List.append_inj h.symm hlen
  exact ⟨xs, ys, rfl, hx, hy⟩

theorem exists_of_ed {cs : List CodePoint} {b2 b3 : UInt8} {r : List UInt8}
    (h : 0xED :: b2 :: b3 :: r = encode cs) :
    ∃ c ds, cs = c :: ds ∧ 0xD000 ≤ c.value ∧ c.value ≤ 0xDFFF ∧
      b2.toNat = 0x80+c.value/64%64 ∧ b3.toNat = 0x80+c.value%64 ∧ r = encode ds := by
  cases cs with
  | nil => simp at h
  | cons c ds =>
    have hlt := c.lt
    rw [encode_cons, utf8Bytes, utf8Units] at h
    have hfirst {x : ℕ} {l l' : List UInt8} (hx : x < 256)
        (he : (0xED : UInt8) :: l = UInt8.ofNat x :: l') : x = 0xED := by
      rw [← toNat_unit hx, ← (List.cons.inj he).1]
      rfl
    split_ifs at h with h1 h2 h3
    · have := hfirst (by omega) h
      omega
    · have := hfirst (by omega) h
      omega
    · have hlead := hfirst (by omega) h
      simp only [List.map_cons, List.map_nil, List.cons_append, List.nil_append, List.cons.injEq] at h
      obtain ⟨-, h2, h3, hr⟩ := h
      refine ⟨c, ds, rfl, by omega, by omega, ?_, ?_, hr⟩
      · rw [h2, toNat_unit (by omega)]
      · rw [h3, toNat_unit (by omega)]
    · have := hfirst (by omega) h
      omega

theorem decodeSurrogate_eq {b2 b3 : UInt8} {code : ℕ} (h : 0xD800 ≤ code ∧ code ≤ 0xDFFF)
    (h2 : b2.toNat = 0x80+code/64%64) (h3 : b3.toNat = 0x80+code%64) :
    decodeSurrogate b2 b3 = UInt16.ofNat code := by
  have hand2 : (b2.toUInt16 &&& 0x3F).toNat = code/64%64 := by
    rw [UInt16.toNat_and, UInt8.toNat_toUInt16, h2]
    exact (Nat.and_two_pow_sub_one_eq_mod _ 6).trans (by omega)
  have hand3 : (b3.toUInt16 &&& 0x3F).toNat = code%64 := by
    rw [UInt16.toNat_and, UInt8.toNat_toUInt16, h3]
    exact (Nat.and_two_pow_sub_one_eq_mod _ 6).trans (by omega)
  have hshift : ((b2.toUInt16 &&& 0x3F) <<< 6).toNat = code/64%64*64 := by
    rw [UInt16.toNat_shiftLeft, hand2, Nat.shiftLeft_eq]
    exact Nat.mod_eq_of_lt (by simp; omega)
  have hlow : code/64%64*64 ||| code%64 = 2^11*1 ||| (code-0xD800) := by
    rw [← Nat.two_pow_add_eq_or_of_lt (show code-0xD800 < 2^11 by omega), Nat.mul_comm,
      ← Nat.two_pow_add_eq_or_of_lt (show code%64 < 2^6 by omega)]
    omega
  have hhigh : (0xD800 : ℕ) ||| 2^11*1 = 2^11*27 := by decide
  rw [← UInt16.toNat_inj, decodeSurrogate, UInt16.toNat_or, UInt16.toNat_or, hshift, hand3]
  change 0xD800 ||| _ ||| _ = _
  rw [Nat.or_assoc, hlow, ← Nat.or_assoc, hhigh,
    ← Nat.two_pow_add_eq_or_of_lt (show code-0xD800 < 2^11 by omega), UInt16.toNat_ofNat_of_lt']
  · omega
  · exact Nat.lt_of_le_of_lt h.2 (by decide)

theorem encode_eq_nil_iff {cs : List CodePoint} : encode cs = [] ↔ cs = [] := by
  cases cs with
  | nil => simp
  | cons c cs =>
    obtain ⟨a, r, hc, -⟩ := utf8Bytes_shape c
    simp [hc]

theorem surrogate_second {c : CodePoint} {b2 : UInt8} (h2 : b2.toNat = 0x80+c.value/64%64)
    (h : 0xD000 ≤ c.value ∧ c.value ≤ 0xDFFF) :
    ((0xA0 ≤ b2 ∧ b2 ≤ 0xAF) ↔ c.Lead) ∧ ((0xB0 ≤ b2 ∧ b2 ≤ 0xBF) ↔ c.Trail) ∧
      (0xA0 ≤ b2 ↔ 0xD800 ≤ c.value) := by
  simp only [UInt8.le_iff_toNat_le, h2, CodePoint.Lead, CodePoint.Trail]
  refine ⟨?_, ?_, ?_⟩ <;> simp <;> omega

theorem finalLeadSurrogate_append (r : List UInt8) (b1 b2 b3 : UInt8) :
    finalLeadSurrogate (r ++ [b1, b2, b3]) =
      if b1 = 0xED ∧ 0xA0 ≤ b2 ∧ b2 ≤ 0xAF then some (decodeSurrogate b2 b3) else none := by
  simp [finalLeadSurrogate]

theorem finalLeadSurrogate_encode (cs : List CodePoint) :
    finalLeadSurrogate (encode cs) = cs.getLast?.bind CodePoint.toLeadSurrogate := by
  rcases List.eq_nil_or_concat cs with rfl | ⟨cs, c, rfl⟩
  · rfl
  rw [List.concat_eq_append, List.getLast?_concat, Option.bind_some]
  by_cases hc : 0xD800 ≤ c.value ∧ c.value ≤ 0xDFFF
  · have hb := utf8Bytes_surrogate hc
    have h2 : (UInt8.ofNat (0x80+c.value/64%64)).toNat = 0x80+c.value/64%64 :=
      toNat_unit (by omega)
    have h3 : (UInt8.ofNat (0x80+c.value%64)).toNat = 0x80+c.value%64 := toNat_unit (by omega)
    have hlead := (surrogate_second h2 ⟨by omega, by omega⟩).1
    rw [encode_append, encode_cons, encode_nil, List.append_nil, hb, finalLeadSurrogate_append,
      decodeSurrogate_eq hc h2 h3, CodePoint.toLeadSurrogate]
    exact if_congr ((and_iff_right rfl).trans hlead) rfl rfl
  · have hnone : c.toLeadSurrogate = none := by
      rw [CodePoint.toLeadSurrogate, if_neg (by omega)]
    rw [hnone, finalLeadSurrogate]
    split
    · next b3 b2 b1 r hrev =>
      rw [if_neg]
      rintro ⟨rfl, hrange⟩
      have henc : encode (cs ++ [c]) = r.reverse ++ 0xED :: [b2, b3] := by
        rw [← List.reverse_reverse (encode (cs ++ [c])), hrev]
        simp
      obtain ⟨xs, ys, hcs, -, hys⟩ := exists_split henc (by unfold Tail; decide)
      obtain ⟨d, ds, rfl, hd1, hd2, hb2, -, hds⟩ := exists_of_ed hys
      obtain rfl := encode_eq_nil_iff.mp hds.symm
      obtain rfl : c = d := by
        have := (List.append_inj' hcs rfl).2
        simpa using this
      have hlead := (surrogate_second hb2 ⟨hd1, hd2⟩).1.mp hrange
      unfold CodePoint.Lead at hlead
      omega
    · rfl

theorem initialTrailSurrogate_encode (cs : List CodePoint) :
    initialTrailSurrogate (encode cs) = cs.head?.bind CodePoint.toTrailSurrogate := by
  cases cs with
  | nil => rfl
  | cons c cs =>
    rw [List.head?_cons, Option.bind_some]
    by_cases hc : 0xD800 ≤ c.value ∧ c.value ≤ 0xDFFF
    · have hb := utf8Bytes_surrogate hc
      have h2 : (UInt8.ofNat (0x80+c.value/64%64)).toNat = 0x80+c.value/64%64 :=
        toNat_unit (by omega)
      have h3 : (UInt8.ofNat (0x80+c.value%64)).toNat = 0x80+c.value%64 := toNat_unit (by omega)
      have htrail := (surrogate_second h2 ⟨by omega, by omega⟩).2.1
      rw [encode_cons, hb]
      change (if _ then some (decodeSurrogate _ _) else none) = _
      rw [decodeSurrogate_eq hc h2 h3, CodePoint.toTrailSurrogate]
      exact if_congr ((and_iff_right rfl).trans htrail) rfl rfl
    · have hnone : c.toTrailSurrogate = none := by
        rw [CodePoint.toTrailSurrogate, if_neg (by omega)]
      rw [hnone]
      unfold initialTrailSurrogate
      split
      · next b1 b2 b3 r henc =>
        rw [if_neg]
        rintro ⟨rfl, hrange⟩
        obtain ⟨d, ds, hcs, hd1, hd2, hb2, -, -⟩ := exists_of_ed henc.symm
        obtain rfl : c = d := (List.cons.inj hcs).1
        have htrail := (surrogate_second hb2 ⟨hd1, hd2⟩).2.1.mp hrange
        unfold CodePoint.Trail at htrail
        omega
      · rfl

theorem encode_wellFormed {cs : List CodePoint}
    (h : ∀ c ∈ cs, ¬ (0xD800 ≤ c.value ∧ c.value ≤ 0xDFFF)) : Utf8Grammar.WellFormed (encode cs) := by
  induction cs with
  | nil => exact .nil
  | cons c cs ih =>
    rw [encode_cons]
    rcases c.cases with hc | ⟨d, rfl⟩
    · exact absurd hc (h c (by simp))
    · exact .cons (utf8Bytes_sequence d).1 (ih fun e he => h e (by simp [he]))

theorem lt_ofNat_iff {b : UInt8} {y : ℕ} (hy : y < 256) : b < UInt8.ofNat y ↔ b.toNat < y := by
  rw [UInt8.lt_iff_toNat_lt, toNat_unit hy]

theorem surrogateFrom_one {b : UInt8} (h : b < 0x80) (pos : ℕ) (iter : List UInt8) :
    surrogateFrom pos (b :: iter) = surrogateFrom (pos+1) iter := by
  rw [surrogateFrom.eq_def]
  simp [h]

theorem surrogateFrom_two {b : UInt8} (h : ¬ b < 0x80) (h2 : b < 0xE0) (pos : ℕ)
    (iter : List UInt8) :
    surrogateFrom pos (b :: iter) = surrogateFrom (pos+2) (iter.drop 1) := by
  rw [surrogateFrom.eq_def]
  simp [h, h2]

/-- The search moves over one code point a round. -/
theorem surrogateFrom_cons (pos : ℕ) (c : CodePoint) (r : List UInt8) :
    surrogateFrom pos (utf8Bytes c.value ++ r) =
      if 0xD800 ≤ c.value ∧ c.value ≤ 0xDFFF then some (pos, UInt16.ofNat c.value)
      else surrogateFrom (pos+(utf8Bytes c.value).length) r := by
  have hlt := c.lt
  have hlead {x : ℕ} (hx : x < 256) (y : ℕ) (hy : y < 256) :
      UInt8.ofNat x < UInt8.ofNat y ↔ x < y := by rw [lt_ofNat_iff hy, toNat_unit hx]
  have h80 {x : ℕ} (hx : x < 256) : UInt8.ofNat x < 0x80 ↔ x < 0x80 := hlead hx 0x80 (by decide)
  have hE0 {x : ℕ} (hx : x < 256) : UInt8.ofNat x < 0xE0 ↔ x < 0xE0 := hlead hx 0xE0 (by decide)
  have hF0 {x : ℕ} (hx : x < 256) : UInt8.ofNat x < 0xF0 ↔ x < 0xF0 := hlead hx 0xF0 (by decide)
  have hED {x : ℕ} (hx : x < 256) : UInt8.ofNat x = 0xED ↔ x = 0xED := by
    rw [← UInt8.toNat_inj, toNat_unit hx]
    rfl
  by_cases hs : 0xD800 ≤ c.value ∧ c.value ≤ 0xDFFF
  · have h2 : (UInt8.ofNat (0x80+c.value/64%64)).toNat = 0x80+c.value/64%64 :=
      toNat_unit (by omega)
    have h3 : (UInt8.ofNat (0x80+c.value%64)).toNat = 0x80+c.value%64 := toNat_unit (by omega)
    have hsur := (surrogate_second h2 ⟨by omega, by omega⟩).2.2.mpr hs.1
    rw [utf8Bytes_surrogate hs, if_pos hs, List.cons_append, List.cons_append, List.cons_append,
      surrogateFrom, if_neg (by decide), if_neg (by decide), if_pos rfl, if_pos hsur,
      decodeSurrogate_eq hs h2 h3]
  · rw [if_neg hs]
    unfold utf8Bytes utf8Units
    split_ifs with h1 h2 h3
    · exact surrogateFrom_one ((h80 (by omega)).mpr h1) pos r
    · exact surrogateFrom_two (mt (h80 (by omega)).mp (by omega)) ((hE0 (by omega)).mpr (by omega))
        pos _
    · rw [List.map_cons, List.map_cons, List.map_cons, List.map_nil, List.cons_append,
        List.cons_append, List.cons_append, List.nil_append, surrogateFrom,
        if_neg (mt (h80 (by omega)).mp (by omega)), if_neg (mt (hE0 (by omega)).mp (by omega))]
      by_cases hed : 0xE0+c.value/4096 = 0xED
      · have h2' : (UInt8.ofNat (0x80+c.value/64%64)).toNat = 0x80+c.value/64%64 :=
          toNat_unit (by omega)
        have hsur := mt (surrogate_second h2' ⟨by omega, by omega⟩).2.2.mp (by omega)
        rw [if_pos ((hED (by omega)).mpr hed), if_neg hsur]
        rfl
      · rw [if_neg (mt (hED (by omega)).mp hed), if_pos ((hF0 (by omega)).mpr (by omega))]
        rfl
    · rw [List.map_cons, List.map_cons, List.map_cons, List.map_cons, List.map_nil,
        List.cons_append, List.cons_append, List.cons_append, List.cons_append, List.nil_append,
        surrogateFrom, if_neg (mt (h80 (by omega)).mp (by omega)),
        if_neg (mt (hE0 (by omega)).mp (by omega)), if_neg (mt (hED (by omega)).mp (by omega)),
        if_neg (mt (hF0 (by omega)).mp (by omega))]
      rfl

theorem surrogateFrom_none {cs : List CodePoint} {pos : ℕ}
    (h : surrogateFrom pos (encode cs) = none) :
    ∀ c ∈ cs, ¬ (0xD800 ≤ c.value ∧ c.value ≤ 0xDFFF) := by
  induction cs generalizing pos with
  | nil => simp
  | cons c cs ih =>
    rw [encode_cons, surrogateFrom_cons] at h
    split_ifs at h with hc
    intro d hd
    rcases List.mem_cons.mp hd with rfl | hd
    · exact hc
    · exact ih h d hd

theorem codePointsNext_cons (c : CodePoint) (r : List UInt8) :
    codePointsNext (utf8Bytes c.value ++ r) = some (some c, r) := by
  have hle : CodePoint.fromU32Unchecked c.value = some c := by
    rw [CodePoint.fromU32Unchecked, dif_pos c.le]
  simp [codePointsNext, nextCodePoint_utf8Bytes, hle]

theorem low_ne_zero (x : ℕ) : UInt16.ofNat (0xDC00+x%1024) ≠ 0 := by
  have hlt : 0xDC00+x%1024 < UInt16.size := by
    unfold UInt16.size
    omega
  intro h
  have h' := congrArg UInt16.toNat h
  rw [UInt16.toNat_ofNat_of_lt' hlt, UInt16.toNat_zero] at h'
  omega

theorem utf16Units_cases (code : ℕ) :
    (∃ u, utf16Units code = [u]) ∨ ∃ u v, utf16Units code = [u, v] ∧ v ≠ 0 := by
  unfold utf16Units
  split_ifs
  · exact Or.inl ⟨_, rfl⟩
  · exact Or.inr ⟨_, _, rfl, low_ne_zero code⟩

theorem encodeUtf16Raw_units (c : CodePoint) :
    encodeUtf16Raw c.value [0, 0] =
      some (utf16Units c.value, utf16Units c.value ++ [0, 0].drop (lenUtf16 c.value)) := by
  refine encodeUtf16Raw_eq c.value [0, 0] c.lt ?_
  rw [lenUtf16_eq c.lt]
  split_ifs <;> simp

theorem next_encodeWide (c : CodePoint) (r : List UInt8) :
    (∃ u, utf16Units c.value = [u] ∧
      EncodeWide.next ⟨utf8Bytes c.value ++ r, 0⟩ = some (some u, ⟨r, 0⟩)) ∨
    ∃ u v, utf16Units c.value = [u, v] ∧
      EncodeWide.next ⟨utf8Bytes c.value ++ r, 0⟩ = some (some u, ⟨r, v⟩) ∧
      EncodeWide.next ⟨r, v⟩ = some (some v, ⟨r, 0⟩) := by
  have hraw := encodeUtf16Raw_units c
  have hnext := codePointsNext_cons c r
  rcases utf16Units_cases c.value with ⟨u, hu⟩ | ⟨u, v, hu, hv⟩
  · rw [hu] at hraw
    refine Or.inl ⟨u, hu, ?_⟩
    simp [EncodeWide.next, hnext, hraw]
  · rw [hu] at hraw
    refine Or.inr ⟨u, v, hu, ?_, ?_⟩
    · simp [EncodeWide.next, hnext, hraw]
    · rw [EncodeWide.next, if_pos hv]

theorem collect_encodeWide (cs : List CodePoint) (fuel : ℕ) (hf : (wide cs).length < fuel) :
    collect EncodeWide.next fuel ⟨encode cs, 0⟩ = some (wide cs) := by
  induction cs generalizing fuel with
  | nil =>
    obtain ⟨k, rfl⟩ : ∃ k, fuel = k+1 := ⟨fuel-1, by omega⟩
    exact collect_of_none rfl k
  | cons c cs ih =>
    rw [wide_cons, List.length_append] at hf
    rw [wide_cons, encode_cons]
    rcases next_encodeWide c (encode cs) with ⟨u, hu, hn⟩ | ⟨u, v, hu, hn, hn'⟩
    · rw [hu] at hf ⊢
      obtain ⟨k, rfl⟩ : ∃ k, fuel = k+1 := ⟨fuel-1, by omega⟩
      exact collect_of_some hn (ih k (by simp at hf; omega))
    · rw [hu] at hf ⊢
      simp only [List.length_cons, List.length_nil] at hf
      obtain ⟨k, rfl⟩ : ∃ k, fuel = k+1+1 := ⟨fuel-2, by omega⟩
      exact collect_of_some hn (collect_of_some hn' (ih k (by omega)))

theorem wide_length_le (cs : List CodePoint) : (wide cs).length ≤ (encode cs).length := by
  induction cs with
  | nil => rfl
  | cons c cs ih =>
    rw [wide_cons, encode_cons, List.length_append, List.length_append, utf8Bytes_length]
    have hu : (utf16Units c.value).length ≤ lenUtf8 c.value := by
      unfold utf16Units lenUtf8
      split_ifs <;> simp
      all_goals omega
    omega

theorem encodeWide_encode (cs : List CodePoint) : encodeWide (encode cs) = some (wide cs) :=
  collect_encodeWide cs _ (Nat.lt_succ_of_le (wide_length_le cs))

end RustStd.Wtf8Encoding
