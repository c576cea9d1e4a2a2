import RustStd.Lib.Machine
import RustStd.Str.Utf8Grammar

/-!
# Strings, char boundaries and the decoders of `validations.rs`

A `str` is a slice of well-formed UTF-8. The decoders read bytes with
`unwrap_unchecked`, so a read past the end is undefined behaviour; it is the
outer `none` of their results. On well-formed input both of them take exactly
one sequence and agree on its code point.
-/

set_option autoImplicit false

namespace RustStd.Chars
open RustStd.Machine RustStd.Utf8Grammar

structure Str where
  bytes : List UInt8
  wellFormed : WellFormed bytes
  len_le : bytes.length ≤ isizeMax

/-- `u8::is_utf8_char_boundary`. -/
def isUtf8CharBoundary (b : UInt8) : Bool := b.toInt8 ≥ -0x40

def isCharBoundary (s : List UInt8) (index : ℕ) : Bool :=
  if index = 0 then true
  else match s[index]? with
    | none => index == s.length
    | some b => isUtf8CharBoundary b

/-- `&s[pos..]` and `&s[..pos]`, which panic inside a char. -/
def strFrom (s : List UInt8) (pos : ℕ) : Option (List UInt8) :=
  if isCharBoundary s pos then some (s.drop pos) else none

def strTo (s : List UInt8) (pos : ℕ) : Option (List UInt8) :=
  if isCharBoundary s pos then some (s.take pos) else none

def utf8FirstByte (byte width : UInt8) : ℕ := (byte &&& (0x7F >>> width)).toNat

def utf8AccContByte (ch : ℕ) (byte : UInt8) : ℕ := (ch <<< 6) ||| (byte &&& 0x3F).toNat

def utf8IsContByte (byte : UInt8) : Bool := byte.toInt8 < -64

/-- `bytes.next()` and `bytes.next_back()` on a slice iterator. -/
def nextByte : List UInt8 → Option (UInt8 × List UInt8)
  | [] => none
  | b :: bytes => some (b, bytes)

def nextByteBack (bytes : List UInt8) : Option (UInt8 × List UInt8) :=
  bytes.getLast?.map fun b => (b, bytes.dropLast)

def nextCodePoint (bytes : List UInt8) : Option (Option ℕ × List UInt8) :=
  match nextByte bytes with
  | none => some (none, bytes)
  | some (x, bytes) =>
    if x < 128 then some (some x.toNat, bytes)
    else do
      let init := utf8FirstByte x 2
      let (y, bytes) ← nextByte bytes
      if x ≥ 0xE0 then do
        let (z, bytes) ← nextByte bytes
        let y_z := utf8AccContByte (y &&& 0x3F).toNat z
        if x ≥ 0xF0 then do
          let (w, bytes) ← nextByte bytes
          return (some ((init &&& 7) <<< 18 ||| utf8AccContByte y_z w), bytes)
        else return (some (init <<< 12 ||| y_z), bytes)
      else return (some (utf8AccContByte init y), bytes)

def nextCodePointReverse (bytes : List UInt8) : Option (Option ℕ × List UInt8) :=
  match nextByteBack bytes with
  | none => some (none, bytes)
  | some (w, bytes) =>
    if w < 128 then some (some w.toNat, bytes)
    else do
      let (z, bytes) ← nextByteBack bytes
      if utf8IsContByte z then do
        let (y, bytes) ← nextByteBack bytes
        if utf8IsContByte y then do
          let (x, bytes) ← nextByteBack bytes
          let ch := utf8AccContByte (utf8FirstByte x 4) y
          return (some (utf8AccContByte (utf8AccContByte ch z) w), bytes)
        else return (some (utf8AccContByte (utf8AccContByte (utf8FirstByte y 3) z) w), bytes)
      else return (some (utf8AccContByte (utf8FirstByte z 2) w), bytes)

def lenUtf8 (code : ℕ) : ℕ :=
  if code < 0x80 then 1 else if code < 0x800 then 2 else if code < 0x10000 then 3 else 4

set_option maxRecDepth 8000 in
theorem isUtf8CharBoundary_iff (b : UInt8) : isUtf8CharBoundary b = true ↔ ¬ Tail b := by
  revert b
  unfold isUtf8CharBoundary Tail
  decide

set_option maxRecDepth 8000 in
theorem utf8IsContByte_iff (b : UInt8) : utf8IsContByte b = true ↔ Tail b := by
  revert b
  unfold utf8IsContByte Tail
  decide

theorem not_tail_of_lead {a : UInt8} (h : a ≤ 0x7F ∨ 0xC2 ≤ a) : ¬ Tail a := by
  unfold Tail
  grind

theorem sequence_shape {l : List UInt8} (h : Sequence l) :
    ∃ a r, l = a :: r ∧ ¬ Tail a ∧ ∀ b ∈ r, Tail b := by
  cases h with
  | one ha => exact ⟨_, [], rfl, not_tail_of_lead (.inl ha), by simp⟩
  | two ha hb => exact ⟨_, _, rfl, not_tail_of_lead (.inr ha.1), by simpa using hb⟩
  | three hab hc =>
    obtain ⟨h1, -, h2⟩ := lead3_range hab
    exact ⟨_, _, rfl, not_tail_of_lead (.inr (by grind)), by simpa using ⟨h2, hc⟩⟩
  | four hab hc hd =>
    obtain ⟨h1, -, h2⟩ := lead4_range hab
    exact ⟨_, _, rfl, not_tail_of_lead (.inr (by grind)), by simpa using ⟨h2, hc, hd⟩⟩

theorem wellFormed_head {a : UInt8} {l : List UInt8} (h : WellFormed (a :: l)) : ¬ Tail a := by
  generalize hv : a :: l = v at h
  cases h with
  | nil => simp at hv
  | cons hc hr =>
    obtain ⟨b, r, rfl, hb, -⟩ := sequence_shape hc
    obtain ⟨rfl, -⟩ : a = b ∧ _ := by simpa using hv
    exact hb

theorem not_wellFormed_incomplete {l : List UInt8} (h : Incomplete l) (hl : l ≠ []) :
    ¬ WellFormed l := by
  intro hw
  obtain ⟨s, hs, hp⟩ := hw.exists_sequence hl
  exact not_prefix_incomplete hs h hp

/-- A boundary is a position where the text splits into two texts. -/
theorem isCharBoundary_iff {s : List UInt8} (hs : WellFormed s) (i : ℕ) :
    isCharBoundary s i = true ↔ i ≤ s.length ∧ WellFormed (s.take i) := by
  induction hs generalizing i with
  | nil => cases i <;> simp [isCharBoundary, WellFormed.nil]
  | @cons d r hd hr ih =>
    rcases Nat.eq_zero_or_pos i with rfl | hi
    · simp [isCharBoundary, WellFormed.nil]
    rcases Nat.lt_or_ge i d.length with hlt | hge
    · -- inside the first sequence: a tail byte, and a prefix that is cut off
      obtain ⟨a, t, rfl, -, ht⟩ := sequence_shape hd
      obtain ⟨b, hb⟩ : ∃ b, t[i-1]? = some b :=
        ⟨_, List.getElem?_eq_getElem (by rw [List.length_cons] at hlt; lia)⟩
      have hget : (a :: t ++ r)[i]? = some b := by
        rw [List.getElem?_append_left hlt, List.getElem?_cons, if_neg (by lia), hb]
      have hinc : Incomplete ((a :: t ++ r).take i) := by
        rw [List.take_append_of_le_length hlt.le]
        refine ⟨a :: t, hd, List.take_prefix _ _, fun he => ?_⟩
        have := congrArg List.length he
        rw [List.length_take] at this
        lia
      have hne : (a :: t ++ r).take i ≠ [] := by
        intro he
        simp at he
        lia
      simp only [isCharBoundary, show i ≠ 0 by lia, if_false, hget, isUtf8CharBoundary_iff,
        ht b (List.mem_of_getElem? hb), not_wellFormed_incomplete hinc hne]
      simp
    · obtain ⟨j, rfl⟩ : ∃ j, i = d.length+j := ⟨i-d.length, by lia⟩
      have htake : (d ++ r).take (d.length+j) = d ++ r.take j :=
        List.take_length_add_append j
      have hbound : isCharBoundary (d ++ r) (d.length+j) = isCharBoundary r j := by
        unfold isCharBoundary
        rw [if_neg (by lia), List.getElem?_append_right (by lia), Nat.add_sub_cancel_left]
        rcases Nat.eq_zero_or_pos j with rfl | hj
        · cases r with
          | nil => simp
          | cons b r => simpa using (isUtf8CharBoundary_iff b).mpr (wellFormed_head hr)
        · rw [if_neg (by lia), List.length_append]
          cases r[j]? with
          | none => simp
          | some b => rfl
      rw [hbound, ih, htake]
      simp only [List.length_append, Nat.add_le_add_iff_left]
      exact and_congr_right fun _ => ⟨fun h => .cons hd h, fun h => hd.wellFormed.cancel_left h⟩

theorem utf8FirstByte_two (x : UInt8) : utf8FirstByte x 2 = x.toNat%32 := by
  rw [utf8FirstByte, UInt8.toNat_and]
  exact Nat.and_two_pow_sub_one_eq_mod x.toNat 5

theorem utf8FirstByte_three (x : UInt8) : utf8FirstByte x 3 = x.toNat%16 := by
  rw [utf8FirstByte, UInt8.toNat_and]
  exact Nat.and_two_pow_sub_one_eq_mod x.toNat 4

theorem utf8FirstByte_four (x : UInt8) : utf8FirstByte x 4 = x.toNat%8 := by
  rw [utf8FirstByte, UInt8.toNat_and]
  exact Nat.and_two_pow_sub_one_eq_mod x.toNat 3

theorem toNat_cont (x : UInt8) : (x &&& 0x3F).toNat = x.toNat%64 := by
  rw [UInt8.toNat_and]
  exact Nat.and_two_pow_sub_one_eq_mod x.toNat 6

theorem utf8AccContByte_eq (ch : ℕ) (x : UInt8) :
    utf8AccContByte ch x = ch*64+x.toNat%64 := by
  have hx : x.toNat%64 < 2^6 := Nat.mod_lt _ (by decide)
  rw [utf8AccContByte, toNat_cont, ← Nat.shiftLeft_add_eq_or_of_lt hx, Nat.shiftLeft_eq]

/-- The code point of a sequence. -/
def codePoint : List UInt8 → ℕ
  | [a] => a.toNat
  | [a, b] => a.toNat%32*64+b.toNat%64
  | [a, b, c] => a.toNat%16*4096+b.toNat%64*64+c.toNat%64
  | [a, b, c, d] => a.toNat%8*262144+b.toNat%64*4096+c.toNat%64*64+d.toNat%64
  | _ => 0

@[simp] theorem nextByte_cons (b : UInt8) (bytes : List UInt8) :
    nextByte (b :: bytes) = some (b, bytes) := rfl

@[simp] theorem nextByteBack_concat (bytes : List UInt8) (b : UInt8) :
    nextByteBack (bytes ++ [b]) = some (b, bytes) := by
  simp [nextByteBack]

theorem nextCodePoint_three {a : UInt8} (h1 : 0xE0 ≤ a) (h2 : a ≤ 0xEF) (b d : UInt8)
    (r : List UInt8) :
    nextCodePoint (a :: b :: d :: r) = some (some (codePoint [a, b, d]), r) := by
  have hyz : b.toNat%64*64+d.toNat%64 < 2^12 := by lia
  have h1' : 224 ≤ a.toNat := UInt8.le_iff_toNat_le.mp h1
  have h2' : a.toNat ≤ 239 := UInt8.le_iff_toNat_le.mp h2
  simp [nextCodePoint, codePoint, show ¬ a < 128 by grind, h1, show ¬ 0xF0 ≤ a by grind,
    utf8AccContByte_eq, utf8FirstByte_two]
  rw [Nat.and_two_pow_sub_one_eq_mod _ 6, ← Nat.shiftLeft_add_eq_or_of_lt hyz, Nat.shiftLeft_eq]
  lia

theorem nextCodePoint_sequence {l : List UInt8} (h : Sequence l) (r : List UInt8) :
    nextCodePoint (l ++ r) = some (some (codePoint l), r) := by
  cases h with
  | @one a ha => simp [nextCodePoint, codePoint, show a < 128 by grind]
  | @two a b ha hb =>
    simp [nextCodePoint, codePoint, show ¬ a < 128 by grind, show ¬ 0xE0 ≤ a by grind,
      utf8AccContByte_eq, utf8FirstByte_two]
  | @three a b d hab hd =>
    obtain ⟨h1, h2, -⟩ := lead3_range hab
    exact nextCodePoint_three h1 h2 b d r
  | @four a b d e hab hd he =>
    obtain ⟨h1, h2, -⟩ := lead4_range hab
    have hyz : (b.toNat%64*64+d.toNat%64)*64+e.toNat%64 < 2^18 := by lia
    have h1' : 240 ≤ a.toNat := UInt8.le_iff_toNat_le.mp h1
    have h2' : a.toNat ≤ 244 := UInt8.le_iff_toNat_le.mp h2
    simp [nextCodePoint, codePoint, show ¬ a < 128 by grind, show 0xE0 ≤ a by grind, h1,
      utf8AccContByte_eq, utf8FirstByte_two]
    rw [Nat.and_two_pow_sub_one_eq_mod _ 6, ← Nat.shiftLeft_add_eq_or_of_lt hyz, Nat.shiftLeft_eq,
      Nat.and_two_pow_sub_one_eq_mod _ 3]
    lia

theorem nextCodePointReverse_sequence {l : List UInt8} (h : Sequence l) (r : List UInt8) :
    nextCodePointReverse (r ++ l) = some (some (codePoint l), r) := by
  have hcont {b : UInt8} (hb : Tail b) : utf8IsContByte b = true := (utf8IsContByte_iff b).mpr hb
  have hlead {b : UInt8} (hb : 0xC2 ≤ b) : utf8IsContByte b = false := by
    rw [← Bool.not_eq_true, utf8IsContByte_iff]
    exact not_tail_of_lead (.inr hb)
  have htail {b : UInt8} (hb : Tail b) : ¬ b < 128 := by
    unfold Tail at hb
    grind
  cases h with
  | @one a ha => simp [nextCodePointReverse, codePoint, show a < 128 by grind]
  | @two a b ha hb =>
    rw [show r ++ [a, b] = r ++ [a] ++ [b] by simp]
    simp only [nextCodePointReverse, nextByteBack_concat, if_neg (htail hb), hlead ha.1,
      some_bind, utf8AccContByte_eq, utf8FirstByte_two]
    rfl
  | @three a b d hab hd =>
    obtain ⟨h1, h2, hb⟩ := lead3_range hab
    rw [show r ++ [a, b, d] = r ++ [a] ++ [b] ++ [d] by simp]
    simp only [nextCodePointReverse, nextByteBack_concat, if_neg (htail hd), hcont hb,
      hlead (show 0xC2 ≤ a by grind), some_bind, utf8AccContByte_eq,
      utf8FirstByte_three, codePoint, if_true, Bool.false_eq_true, if_false, pure]
    simp
    lia
  | @four a b d e hab hd he =>
    obtain ⟨h1, h2, hb⟩ := lead4_range hab
    rw [show r ++ [a, b, d, e] = r ++ [a] ++ [b] ++ [d] ++ [e] by simp]
    simp only [nextCodePointReverse, nextByteBack_concat, if_neg (htail he), hcont hb, hcont hd,
      some_bind, utf8AccContByte_eq,
      utf8FirstByte_four, codePoint, if_true, pure]
    simp
    lia

theorem lenUtf8_eq {code n : ℕ} (h : (code < 0x80 ∧ n = 1) ∨ (0x80 ≤ code ∧ code < 0x800 ∧ n = 2) ∨
    (0x800 ≤ code ∧ code < 0x10000 ∧ n = 3) ∨ (0x10000 ≤ code ∧ n = 4)) : lenUtf8 code = n := by
  unfold lenUtf8
  split_ifs <;> lia

theorem lenUtf8_codePoint {l : List UInt8} (h : Sequence l) : lenUtf8 (codePoint l) = l.length := by
  apply lenUtf8_eq
  cases h with
  | @one a ha =>
    have : a.toNat ≤ 127 := UInt8.le_iff_toNat_le.mp ha
    exact .inl ⟨by simp only [codePoint]; lia, rfl⟩
  | @two a b ha hb =>
    have h1 : 194 ≤ a.toNat := UInt8.le_iff_toNat_le.mp ha.1
    have h2 : a.toNat ≤ 223 := UInt8.le_iff_toNat_le.mp ha.2
    exact .inr (.inl ⟨by simp only [codePoint]; lia, by simp only [codePoint]; lia, rfl⟩)
  | @three a b d hab hd =>
    have h3 : a.toNat%16*64+b.toNat%64 ≥ 32 := by
      unfold Lead3 Tail at hab
      simp only [UInt8.le_iff_toNat_le, ← UInt8.toNat_inj] at hab
      simp at hab
      lia
    exact .inr (.inr (.inl ⟨by simp only [codePoint]; lia, by simp only [codePoint]; lia, rfl⟩))
  | @four a b d e hab hd he =>
    have h3 : a.toNat%8*64+b.toNat%64 ≥ 16 := by
      unfold Lead4 Tail at hab
      simp only [UInt8.le_iff_toNat_le, ← UInt8.toNat_inj] at hab
      simp at hab
      lia
    exact .inr (.inr (.inr ⟨by simp only [codePoint]; lia, rfl⟩))

end RustStd.Chars
