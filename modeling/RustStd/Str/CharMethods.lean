import RustStd.Str.Chars

/-!
# Encoding a `char`

The encoders of `char/methods.rs` write into a buffer and return the part that
was written. A write past the buffer is undefined behaviour in
`encode_utf8_raw_unchecked` and a panic elsewhere; both are `none`.
-/

set_option autoImplicit false

namespace RustStd.CharMethods
open RustStd.Utf8Grammar RustStd.Chars

def tagCont : UInt8 := 0x80

def tagTwoB : UInt8 := 0xC0

def tagThreeB : UInt8 := 0xE0

def tagFourB : UInt8 := 0xF0

/-- `*dst.add(i) = b`. -/
def store {α : Type} (dst : List α) (i : ℕ) (b : α) : Option (List α) :=
  if i < dst.length then some (dst.set i b) else none

def encodeUtf8RawUnchecked (code : ℕ) (dst : List UInt8) : Option (List UInt8) :=
  let len := lenUtf8 code
  if len = 1 then store dst 0 (UInt8.ofNat code)
  else
    let last1 := UInt8.ofNat (code >>> 0 &&& 0x3F) ||| tagCont
    let last2 := UInt8.ofNat (code >>> 6 &&& 0x3F) ||| tagCont
    let last3 := UInt8.ofNat (code >>> 12 &&& 0x3F) ||| tagCont
    let last4 := UInt8.ofNat (code >>> 18 &&& 0x3F) ||| tagFourB
    if len = 2 then do
      let dst ← store dst 0 (last2 ||| tagTwoB)
      store dst 1 last1
    else if len = 3 then do
      let dst ← store dst 0 (last3 ||| tagThreeB)
      let dst ← store dst 1 last2
      store dst 2 last1
    else do
      let dst ← store dst 0 last4
      let dst ← store dst 1 last3
      let dst ← store dst 2 last2
      store dst 3 last1

/-- The part of the buffer that was written, and the buffer. -/
def encodeUtf8Raw (code : ℕ) (dst : List UInt8) : Option (List UInt8 × List UInt8) :=
  let len := lenUtf8 code
  if dst.length < len then none
  else (encodeUtf8RawUnchecked code dst).map fun dst => (dst.take len, dst)

/-- `char::encode_utf8`. -/
def encodeUtf8 (c : Char) (dst : List UInt8) : Option (List UInt8 × List UInt8) :=
  encodeUtf8Raw c.toNat dst

def lenUtf16 (code : ℕ) : ℕ := if code &&& 0xFFFF = code then 1 else 2

def encodeUtf16Raw (code : ℕ) (dst : List UInt16) : Option (List UInt16 × List UInt16) :=
  let len := lenUtf16 code
  match len, dst with
  | 1, _ :: r =>
    let dst := UInt16.ofNat code :: r
    some (dst.take len, dst)
  | 2, _ :: _ :: r =>
    let code := code-0x10000
    let dst := (UInt16.ofNat (code >>> 10) ||| 0xD800) ::
      (UInt16.ofNat (code &&& 0x3FF) ||| 0xDC00) :: r
    some (dst.take len, dst)
  | _, _ => none

/-- `char::encode_utf16`. -/
def encodeUtf16 (c : Char) (dst : List UInt16) : Option (List UInt16 × List UInt16) :=
  encodeUtf16Raw c.toNat dst

/-- `char::from_u32_unchecked`, undefined outside the scalar values. -/
def fromU32Unchecked (i : ℕ) : Option Char :=
  if h : i.isValidChar then some (Char.ofNatAux i h) else none

theorem fromU32Unchecked_toNat (c : Char) : fromU32Unchecked c.toNat = some c := by
  have h : c.toNat.isValidChar := c.valid
  rw [fromU32Unchecked, dif_pos h]
  rfl

/-- The bytes of the encoding, as numbers. -/
def utf8Units (code : ℕ) : List ℕ :=
  if code < 0x80 then [code]
  else if code < 0x800 then [0xC0+code/64, 0x80+code%64]
  else if code < 0x10000 then [0xE0+code/4096, 0x80+code/64%64, 0x80+code%64]
  else [0xF0+code/262144, 0x80+code/4096%64, 0x80+code/64%64, 0x80+code%64]

def utf8Bytes (code : ℕ) : List UInt8 := (utf8Units code).map UInt8.ofNat

theorem cont_byte {x : ℕ} (h : x < 64) : UInt8.ofNat x ||| tagCont = UInt8.ofNat (0x80+x) := by
  revert x
  decide

theorem two_byte {x : ℕ} (h : x < 32) :
    UInt8.ofNat x ||| tagCont ||| tagTwoB = UInt8.ofNat (0xC0+x) := by
  revert x
  decide

theorem three_byte {x : ℕ} (h : x < 16) :
    UInt8.ofNat x ||| tagCont ||| tagThreeB = UInt8.ofNat (0xE0+x) := by
  revert x
  decide

theorem four_byte {x : ℕ} (h : x < 8) : UInt8.ofNat x ||| tagFourB = UInt8.ofNat (0xF0+x) := by
  revert x
  decide

theorem six_bits (code k : ℕ) : code >>> k &&& 0x3F = code/2^k%64 := by
  rw [Nat.shiftRight_eq_div_pow]
  exact Nat.and_two_pow_sub_one_eq_mod _ 6

theorem last_byte (code k : ℕ) :
    UInt8.ofNat (code >>> k &&& 0x3F) ||| tagCont = UInt8.ofNat (0x80+code/2^k%64) := by
  rw [six_bits]
  exact cont_byte (Nat.mod_lt _ (by decide))

theorem lead_bits {code k n : ℕ} (h : code < n*2^k) (hn : n ≤ 64) :
    code >>> k &&& 0x3F = code/2^k ∧ code/2^k < n := by
  have hlt : code/2^k < n := Nat.div_lt_of_lt_mul (by rwa [Nat.mul_comm])
  rw [six_bits]
  exact ⟨Nat.mod_eq_of_lt (by omega), hlt⟩

theorem utf8Bytes_length (code : ℕ) : (utf8Bytes code).length = lenUtf8 code := by
  unfold utf8Bytes utf8Units lenUtf8
  split_ifs <;> rfl

theorem encodeUtf8RawUnchecked_eq (code : ℕ) (dst : List UInt8) (hc : code < 0x110000)
    (hd : lenUtf8 code ≤ dst.length) :
    encodeUtf8RawUnchecked code dst = some (utf8Bytes code ++ dst.drop (lenUtf8 code)) := by
  rcases Nat.lt_or_ge code 0x80 with h1 | h1
  · have hl : lenUtf8 code = 1 := lenUtf8_eq (.inl ⟨h1, rfl⟩)
    obtain ⟨a, r, rfl⟩ := List.exists_cons_of_length_pos (by omega : 0 < dst.length)
    simp [encodeUtf8RawUnchecked, hl, store, utf8Bytes, utf8Units, h1]
  have h1' : ¬ code < 0x80 := by omega
  rcases Nat.lt_or_ge code 0x800 with h2 | h2
  · have hl : lenUtf8 code = 2 := lenUtf8_eq (.inr (.inl ⟨h1, h2, rfl⟩))
    obtain ⟨hbits, hlt⟩ := lead_bits (show code < 32*2^6 by omega) (by decide)
    rw [hl] at hd ⊢
    match dst, hd with
    | a :: b :: r, _ =>
      simp only [encodeUtf8RawUnchecked, hl, hbits, two_byte hlt, last_byte code 0]
      simp [store, utf8Bytes, utf8Units, h1', h2]
  have h2' : ¬ code < 0x800 := by omega
  rcases Nat.lt_or_ge code 0x10000 with h3 | h3
  · have hl : lenUtf8 code = 3 := lenUtf8_eq (.inr (.inr (.inl ⟨h2, h3, rfl⟩)))
    obtain ⟨hbits, hlt⟩ := lead_bits (show code < 16*2^12 by omega) (by decide)
    rw [hl] at hd ⊢
    match dst, hd with
    | a :: b :: d :: r, _ =>
      simp only [encodeUtf8RawUnchecked, hl, hbits, three_byte hlt, last_byte code 0,
        last_byte code 6]
      simp [store, utf8Bytes, utf8Units, h1', h2', h3]
  · have hl : lenUtf8 code = 4 := lenUtf8_eq (.inr (.inr (.inr ⟨h3, rfl⟩)))
    obtain ⟨hbits, hlt⟩ := lead_bits (show code < 8*2^18 by omega) (by decide)
    rw [hl] at hd ⊢
    match dst, hd with
    | a :: b :: d :: e :: r, _ =>
      simp only [encodeUtf8RawUnchecked, hl, hbits, four_byte hlt, last_byte code 0,
        last_byte code 6, last_byte code 12]
      simp [store, utf8Bytes, utf8Units, h1', h2', show ¬ code < 0x10000 by omega]

theorem toNat_lt_limit (c : Char) : c.toNat < 0x110000 ∧ ¬ (0xD800 ≤ c.toNat ∧ c.toNat ≤ 0xDFFF) := by
  have h : c.toNat.isValidChar := c.valid
  unfold Nat.isValidChar at h
  omega

theorem encodeUtf8Raw_eq (code : ℕ) (dst : List UInt8) (hc : code < 0x110000)
    (hd : lenUtf8 code ≤ dst.length) :
    encodeUtf8Raw code dst =
      some (utf8Bytes code, utf8Bytes code ++ dst.drop (lenUtf8 code)) := by
  unfold encodeUtf8Raw
  rw [encodeUtf8RawUnchecked_eq _ dst hc hd, if_neg (by omega)]
  simp [← utf8Bytes_length]

theorem encodeUtf8_eq (c : Char) (dst : List UInt8) (hd : lenUtf8 c.toNat ≤ dst.length) :
    encodeUtf8 c dst =
      some (utf8Bytes c.toNat, utf8Bytes c.toNat ++ dst.drop (lenUtf8 c.toNat)) :=
  encodeUtf8Raw_eq c.toNat dst (toNat_lt_limit c).1 hd

theorem toNat_unit {x : ℕ} (h : x < 256) : (UInt8.ofNat x).toNat = x := by
  simpa using h

theorem utf8Bytes_sequence (c : Char) :
    Sequence (utf8Bytes c.toNat) ∧ codePoint (utf8Bytes c.toNat) = c.toNat := by
  obtain ⟨hlt, hsur⟩ := toNat_lt_limit c
  generalize c.toNat = code at hlt hsur ⊢
  have h1 : (UInt8.ofNat (128+code%64)).toNat = 128+code%64 := toNat_unit (by omega)
  have h2 : (UInt8.ofNat (128+code/64%64)).toNat = 128+code/64%64 := toNat_unit (by omega)
  have h3 : (UInt8.ofNat (128+code/4096%64)).toNat = 128+code/4096%64 := toNat_unit (by omega)
  unfold utf8Bytes utf8Units
  split_ifs with ha hb hc
  · have hn : (UInt8.ofNat code).toNat = code := toNat_unit (by omega)
    refine ⟨(sequence_one _).mpr ?_, hn⟩
    rw [UInt8.le_iff_toNat_le, hn]
    exact Nat.le_of_lt_succ ha
  · have hn : (UInt8.ofNat (192+code/64)).toNat = 192+code/64 := toNat_unit (by omega)
    constructor
    · refine (sequence_two _ _).mpr ?_
      simp only [Tail, UInt8.le_iff_toNat_le, hn, h1]
      simp
      omega
    · simp only [List.map_cons, List.map_nil, codePoint, hn, h1]
      omega
  · have hn : (UInt8.ofNat (224+code/4096)).toNat = 224+code/4096 := toNat_unit (by omega)
    constructor
    · refine (sequence_three _ _ _).mpr ?_
      simp only [Lead3, Tail, UInt8.le_iff_toNat_le, ← UInt8.toNat_inj, hn, h1, h2]
      simp
      omega
    · simp only [List.map_cons, List.map_nil, codePoint, hn, h1, h2]
      omega
  · have hn : (UInt8.ofNat (240+code/262144)).toNat = 240+code/262144 := toNat_unit (by omega)
    constructor
    · refine (sequence_four _ _ _ _).mpr ?_
      simp only [Lead4, Tail, UInt8.le_iff_toNat_le, ← UInt8.toNat_inj, hn, h1, h2, h3]
      simp
      omega
    · simp only [List.map_cons, List.map_nil, codePoint, hn, h1, h2, h3]
      omega

theorem ofNat_eq_of_toNat {x : ℕ} {b : UInt8} (h : x = b.toNat) : UInt8.ofNat x = b := by
  rw [h, UInt8.ofNat_toNat]

theorem sequence_utf8Bytes {l : List UInt8} (h : Sequence l) :
    (codePoint l).isValidChar ∧ utf8Bytes (codePoint l) = l := by
  unfold Nat.isValidChar
  cases h with
  | @one a ha =>
    have ha' : a.toNat ≤ 127 := UInt8.le_iff_toNat_le.mp ha
    refine ⟨by simp only [codePoint]; omega, ?_⟩
    rw [codePoint, utf8Bytes, utf8Units, if_pos (by omega), List.map_cons, List.map_nil,
      ofNat_eq_of_toNat (b := a) rfl]
  | @two a b ha hb =>
    simp only [Tail, UInt8.le_iff_toNat_le] at ha hb
    simp at ha hb
    have hcode : codePoint [a, b] = (a.toNat-192)*64+(b.toNat-128) := by
      simp only [codePoint]
      omega
    rw [hcode]
    refine ⟨by omega, ?_⟩
    rw [utf8Bytes, utf8Units, if_neg (by omega), if_pos (by omega), List.map_cons, List.map_cons,
      List.map_nil, ofNat_eq_of_toNat (b := a) (by omega), ofNat_eq_of_toNat (b := b) (by omega)]
  | @three a b c hab hc =>
    simp only [Lead3, Tail, UInt8.le_iff_toNat_le, ← UInt8.toNat_inj] at hab hc
    simp at hab hc
    have hcode : codePoint [a, b, c] = (a.toNat-224)*4096+(b.toNat-128)*64+(c.toNat-128) := by
      simp only [codePoint]
      omega
    rw [hcode]
    refine ⟨by omega, ?_⟩
    rw [utf8Bytes, utf8Units, if_neg (by omega), if_neg (by omega), if_pos (by omega),
      List.map_cons, List.map_cons, List.map_cons, List.map_nil,
      ofNat_eq_of_toNat (b := a) (by omega), ofNat_eq_of_toNat (b := b) (by omega),
      ofNat_eq_of_toNat (b := c) (by omega)]
  | @four a b c d hab hc hd =>
    simp only [Lead4, Tail, UInt8.le_iff_toNat_le, ← UInt8.toNat_inj] at hab hc hd
    simp at hab hc hd
    have hcode : codePoint [a, b, c, d] =
        (a.toNat-240)*262144+(b.toNat-128)*4096+(c.toNat-128)*64+(d.toNat-128) := by
      simp only [codePoint]
      omega
    rw [hcode]
    refine ⟨by omega, ?_⟩
    rw [utf8Bytes, utf8Units, if_neg (by omega), if_neg (by omega), if_neg (by omega),
      List.map_cons, List.map_cons, List.map_cons, List.map_cons, List.map_nil,
      ofNat_eq_of_toNat (b := a) (by omega), ofNat_eq_of_toNat (b := b) (by omega),
      ofNat_eq_of_toNat (b := c) (by omega), ofNat_eq_of_toNat (b := d) (by omega)]

theorem exists_char_of_sequence {l : List UInt8} (h : Sequence l) :
    ∃ c : Char, utf8Bytes c.toNat = l := by
  obtain ⟨hv, hb⟩ := sequence_utf8Bytes h
  refine ⟨Char.ofNat (codePoint l), ?_⟩
  rw [Char.ofNat, dif_pos hv]
  simpa [Char.ofNatAux, Char.toNat] using hb

def utf16Units (code : ℕ) : List UInt16 :=
  if code < 0x10000 then [UInt16.ofNat code]
  else [UInt16.ofNat (0xD800+(code-0x10000)/1024), UInt16.ofNat (0xDC00+code%1024)]

theorem tag_unit {x : ℕ} (h : x < 1024) (t : ℕ) :
    UInt16.ofNat x ||| UInt16.ofNat (2^10*t) = UInt16.ofNat (2^10*t+x) := by
  rw [← UInt16.ofNat_or, Nat.lor_comm, ← Nat.two_pow_add_eq_or_of_lt h]

theorem high_unit {x : ℕ} (h : x < 1024) :
    UInt16.ofNat x ||| 0xD800 = UInt16.ofNat (0xD800+x) := tag_unit h 54

theorem low_unit {x : ℕ} (h : x < 1024) :
    UInt16.ofNat x ||| 0xDC00 = UInt16.ofNat (0xDC00+x) := tag_unit h 55

theorem lenUtf16_eq {code : ℕ} (h : code < 0x110000) :
    lenUtf16 code = if code < 0x10000 then 1 else 2 := by
  have hand : code &&& 0xFFFF = code%65536 := Nat.and_two_pow_sub_one_eq_mod _ 16
  unfold lenUtf16
  rw [hand]
  split_ifs <;> omega

theorem encodeUtf16Raw_eq (code : ℕ) (dst : List UInt16) (hlt : code < 0x110000)
    (hd : lenUtf16 code ≤ dst.length) :
    encodeUtf16Raw code dst =
      some (utf16Units code, utf16Units code ++ dst.drop (lenUtf16 code)) := by
  unfold encodeUtf16Raw
  rcases Nat.lt_or_ge code 0x10000 with h | h
  · have hl : lenUtf16 code = 1 := by rw [lenUtf16_eq hlt, if_pos h]
    rw [hl] at hd ⊢
    match dst, hd with
    | a :: r, _ => simp [utf16Units, h]
  · have h' : ¬ code < 0x10000 := by omega
    have hl : lenUtf16 code = 2 := by rw [lenUtf16_eq hlt, if_neg h']
    have hhigh : (code-0x10000) >>> 10 = (code-0x10000)/1024 := Nat.shiftRight_eq_div_pow _ 10
    have hlow : (code-0x10000) &&& 0x3FF = code%1024 := by
      rw [show (0x3FF : ℕ) = 2^10-1 from rfl, Nat.and_two_pow_sub_one_eq_mod]
      omega
    rw [hl] at hd ⊢
    match dst, hd with
    | a :: b :: r, _ =>
      simp only [hhigh, hlow, high_unit (show (code-0x10000)/1024 < 1024 by omega),
        low_unit (show code%1024 < 1024 by omega), utf16Units, if_neg h']
      rfl

theorem encodeUtf16_eq (c : Char) (dst : List UInt16) (hd : lenUtf16 c.toNat ≤ dst.length) :
    encodeUtf16 c dst =
      some (utf16Units c.toNat, utf16Units c.toNat ++ dst.drop (lenUtf16 c.toNat)) :=
  encodeUtf16Raw_eq c.toNat dst (toNat_lt_limit c).1 hd

end RustStd.CharMethods
