import RustStd.Lib.DoubleEnded
import RustStd.Str.CharMethods
import RustStd.Str.Utf8Validation

/-!
# `Chars` and `CharIndices`

Both iterators decode at either end of the remaining bytes. Over the
encodings of a list of chars each call takes one whole encoding, so the calls
at both ends, in any order, give the list back.
-/

set_option autoImplicit false

namespace RustStd.StrIter
open RustStd.DoubleEnded RustStd.Utf8Grammar RustStd.Chars RustStd.CharMethods

structure Chars where
  iter : List UInt8
  deriving DecidableEq, Repr

/-- `next_code_point(..).map(|ch| char::from_u32_unchecked(ch))`. -/
def Chars.ofCodePoint : Option ℕ × List UInt8 → Option (Option Char × Chars)
  | (none, iter) => some (none, ⟨iter⟩)
  | (some ch, iter) => do
    let c ← fromU32Unchecked ch
    return (some c, ⟨iter⟩)

def Chars.next (self : Chars) : Option (Option Char × Chars) := do
  let r ← nextCodePoint self.iter
  ofCodePoint r

def Chars.nextBack (self : Chars) : Option (Option Char × Chars) := do
  let r ← nextCodePointReverse self.iter
  ofCodePoint r

structure CharIndices where
  frontOffset : ℕ
  iter : Chars
  deriving DecidableEq, Repr

def CharIndices.next (self : CharIndices) : Option (Option (ℕ × Char) × CharIndices) := do
  let preLen := self.iter.iter.length
  match ← self.iter.next with
  | (none, iter) => return (none, { self with iter })
  | (some ch, iter) =>
    let index := self.frontOffset
    let len := iter.iter.length
    return (some (index, ch), { frontOffset := self.frontOffset+(preLen-len), iter })

def CharIndices.nextBack (self : CharIndices) : Option (Option (ℕ × Char) × CharIndices) := do
  match ← self.iter.nextBack with
  | (none, iter) => return (none, { self with iter })
  | (some ch, iter) =>
    let index := self.frontOffset+iter.iter.length
    return (some (index, ch), { self with iter })

/-- `str::chars` and `str::char_indices`. -/
def chars (s : List UInt8) : Chars := ⟨s⟩

def charIndices (s : List UInt8) : CharIndices := { frontOffset := 0, iter := chars s }

def encoded (cs : List Char) : List UInt8 := cs.flatMap fun c => utf8Bytes c.toNat

theorem encoded_cons (c : Char) (cs : List Char) :
    encoded (c :: cs) = utf8Bytes c.toNat ++ encoded cs := rfl

theorem encoded_concat (cs : List Char) (c : Char) :
    encoded (cs ++ [c]) = encoded cs ++ utf8Bytes c.toNat := by
  simp [encoded]

theorem encoded_wellFormed (cs : List Char) : WellFormed (encoded cs) := by
  induction cs with
  | nil => exact .nil
  | cons c cs ih => exact .cons (utf8Bytes_sequence c).1 ih

theorem encoded_append (cs ds : List Char) : encoded (cs ++ ds) = encoded cs ++ encoded ds :=
  List.flatMap_append

theorem exists_encoded {s : List UInt8} (h : WellFormed s) : ∃ cs, encoded cs = s := by
  induction h with
  | nil => exact ⟨[], rfl⟩
  | @cons l r hl hr ih =>
    obtain ⟨c, hc⟩ := exists_char_of_sequence hl
    obtain ⟨cs, hcs⟩ := ih
    exact ⟨c :: cs, by rw [encoded_cons, hc, hcs]⟩

theorem utf8Bytes_injective {c d : Char} (h : utf8Bytes c.toNat = utf8Bytes d.toNat) : c = d := by
  have hcd : c.toNat = d.toNat := by
    rw [← (utf8Bytes_sequence c).2, h, (utf8Bytes_sequence d).2]
  exact Char.toNat_inj.mp hcd

theorem encoded_injective {cs ds : List Char} (h : encoded cs = encoded ds) : cs = ds := by
  induction cs generalizing ds with
  | nil =>
    cases ds with
    | nil => rfl
    | cons d ds =>
      have hne := (utf8Bytes_sequence d).1.ne_nil
      rw [encoded_cons] at h
      exact absurd (List.append_eq_nil_iff.mp h.symm).1 hne
  | cons c cs ih =>
    cases ds with
    | nil =>
      have hne := (utf8Bytes_sequence c).1.ne_nil
      rw [encoded_cons] at h
      exact absurd (List.append_eq_nil_iff.mp h).1 hne
    | cons d ds =>
      rw [encoded_cons, encoded_cons] at h
      have hcd := (utf8Bytes_sequence c).1.prefix_free (utf8Bytes_sequence d).1 h
      obtain rfl := utf8Bytes_injective hcd.1
      rw [ih hcd.2]

theorem Chars.next_encoded (c : Char) (r : List UInt8) :
    Chars.next ⟨utf8Bytes c.toNat ++ r⟩ = some (some c, ⟨r⟩) := by
  obtain ⟨hseq, hcode⟩ := utf8Bytes_sequence c
  simp [Chars.next, nextCodePoint_sequence hseq, Chars.ofCodePoint, hcode, fromU32Unchecked_toNat]

theorem Chars.nextBack_encoded (c : Char) (r : List UInt8) :
    Chars.nextBack ⟨r ++ utf8Bytes c.toNat⟩ = some (some c, ⟨r⟩) := by
  obtain ⟨hseq, hcode⟩ := utf8Bytes_sequence c
  simp [Chars.nextBack, nextCodePointReverse_sequence hseq, Chars.ofCodePoint, hcode,
    fromU32Unchecked_toNat]

theorem chars_holds :
    Holds Chars.next Chars.nextBack fun s cs => s = chars (encoded cs) where
  next_nil := by
    rintro s rfl
    exact ⟨_, rfl, rfl⟩
  next_cons := by
    rintro s c cs rfl
    exact ⟨_, Chars.next_encoded c (encoded cs), rfl⟩
  back_nil := by
    rintro s rfl
    exact ⟨_, rfl, rfl⟩
  back_concat := by
    rintro s c cs rfl
    rw [encoded_concat]
    exact ⟨_, Chars.nextBack_encoded c (encoded cs), rfl⟩

theorem CharIndices.next_encoded (offset : ℕ) (c : Char) (cs : List Char) :
    CharIndices.next ⟨offset, chars (encoded (c :: cs))⟩ =
      some (some (offset, c), ⟨offset+(utf8Bytes c.toNat).length, chars (encoded cs)⟩) := by
  have hn := Chars.next_encoded c (encoded cs)
  rw [← encoded_cons] at hn
  simp [CharIndices.next, chars, hn]
  simp [encoded_cons]

theorem CharIndices.nextBack_encoded (offset : ℕ) (c : Char) (cs : List Char) :
    CharIndices.nextBack ⟨offset, chars (encoded (cs ++ [c]))⟩ =
      some (some (offset+(encoded cs).length, c), ⟨offset, chars (encoded cs)⟩) := by
  have hn := Chars.nextBack_encoded c (encoded cs)
  simp [CharIndices.nextBack, chars, encoded_concat, hn]

/-- Every char with the number of bytes before it. -/
def withOffsets (base : ℕ) : List (Char × List UInt8) → List (ℕ × Char)
  | [] => []
  | (c, out) :: cs => (base, c) :: withOffsets (base+out.length) cs

def withBytes (cs : List Char) : List (Char × List UInt8) :=
  cs.map fun c => (c, utf8Bytes c.toNat)

theorem withOffsets_concat (base : ℕ) (cs : List Char) (c : Char) :
    withOffsets base (withBytes (cs ++ [c])) =
      withOffsets base (withBytes cs) ++ [(base+(encoded cs).length, c)] := by
  induction cs generalizing base with
  | nil => simp [withBytes, withOffsets, encoded]
  | cons d cs ih =>
    simp only [withBytes, List.cons_append, List.map_cons, withOffsets] at ih ⊢
    rw [ih, encoded_cons, List.length_append]
    simp [Nat.add_assoc]

theorem withOffsets_length (base : ℕ) (cs : List Char) :
    (withOffsets base (withBytes cs)).length = cs.length := by
  induction cs generalizing base with
  | nil => rfl
  | cons c cs ih =>
    simp only [withBytes, List.map_cons, withOffsets, List.length_cons] at ih ⊢
    rw [ih]

/-- The chars that are left, their offsets counted from the front offset. -/
def CharIndices.Left (s : CharIndices) (l : List (ℕ × Char)) : Prop :=
  ∃ cs, s.iter = chars (encoded cs) ∧ l = withOffsets s.frontOffset (withBytes cs)

theorem charIndices_holds : Holds CharIndices.next CharIndices.nextBack CharIndices.Left where
  next_nil := by
    rintro ⟨offset, iter⟩ ⟨cs, rfl, hl⟩
    cases cs with
    | nil => exact ⟨_, rfl, [], rfl, rfl⟩
    | cons c cs => simp [withBytes, withOffsets] at hl
  next_cons := by
    rintro ⟨offset, iter⟩ a l ⟨cs, rfl, hl⟩
    cases cs with
    | nil => simp [withBytes, withOffsets] at hl
    | cons c cs =>
      simp only [withBytes, List.map_cons, withOffsets, List.cons.injEq] at hl
      obtain ⟨rfl, rfl⟩ := hl
      exact ⟨_, CharIndices.next_encoded offset c cs, cs, rfl, rfl⟩
  back_nil := by
    rintro ⟨offset, iter⟩ ⟨cs, rfl, hl⟩
    cases cs with
    | nil => exact ⟨_, rfl, [], rfl, rfl⟩
    | cons c cs => simp [withBytes, withOffsets] at hl
  back_concat := by
    rintro ⟨offset, iter⟩ a l ⟨cs, rfl, hl⟩
    rcases List.eq_nil_or_concat cs with rfl | ⟨cs, c, rfl⟩
    · simp [withBytes, withOffsets] at hl
    · rw [List.concat_eq_append] at hl ⊢
      rw [withOffsets_concat] at hl
      obtain ⟨rfl, ha⟩ := List.append_inj' hl rfl
      obtain rfl : a = _ := by simpa using ha
      exact ⟨_, CharIndices.nextBack_encoded offset c cs, cs, rfl, rfl⟩

/-- The chars are written with `encode_utf8` into buffers of their own. -/
def encodeAll (cs : List (Char × List UInt8)) : Option (List (List UInt8)) :=
  cs.mapM fun (c, dst) => (encodeUtf8 c dst).map Prod.fst

theorem encodeAll_eq (cs : List (Char × List UInt8))
    (hdst : ∀ p ∈ cs, lenUtf8 p.1.toNat ≤ p.2.length) :
    encodeAll cs = some (cs.map fun p => utf8Bytes p.1.toNat) := by
  induction cs with
  | nil => rfl
  | cons p cs ih =>
    have hp := encodeUtf8_eq p.1 p.2 (hdst p (by simp))
    have hr := ih fun q hq => hdst q (by simp [hq])
    unfold encodeAll at hr ⊢
    simp [List.mapM_cons, hp, hr]

/-- Encoding chars and decoding them from both ends is the identity: the text is
valid, and `chars` and `char_indices` give the chars back, with the offset of
each, for every order of the calls. -/
theorem utf8_roundTrip (cs : List (Char × List UInt8))
    (hdst : ∀ p ∈ cs, lenUtf8 p.1.toNat ≤ p.2.length) :
    ∃ outs, encodeAll cs = some outs ∧ outs.length = cs.length ∧
      (∀ isConst addr,
        Utf8Validation.runUtf8Validation isConst addr outs.flatten = some (.ok ())) ∧
      (∀ ds, ∃ fs bs s,
        drive Chars.next Chars.nextBack ds (chars outs.flatten) = some (fs, bs, s) ∧
        Splits (cs.map Prod.fst) ds.length fs bs ∧
        (cs.length ≤ ds.length → fs ++ bs.reverse = cs.map Prod.fst)) ∧
      ∀ ds, ∃ fs bs s,
        drive CharIndices.next CharIndices.nextBack ds (charIndices outs.flatten) =
          some (fs, bs, s) ∧
        Splits (withOffsets 0 ((cs.map Prod.fst).zip outs)) ds.length fs bs ∧
        (cs.length ≤ ds.length →
          fs ++ bs.reverse = withOffsets 0 ((cs.map Prod.fst).zip outs)) := by
  have hflat : (cs.map fun p => utf8Bytes p.1.toNat).flatten = encoded (cs.map Prod.fst) := by
    simp [encoded, List.flatMap, Function.comp_def]
  have hzip : (cs.map Prod.fst).zip (cs.map fun p => utf8Bytes p.1.toNat) =
      withBytes (cs.map Prod.fst) := by
    simp [withBytes, List.zip_map', Function.comp_def]
  refine ⟨_, encodeAll_eq cs hdst, by simp, ?_⟩
  rw [hflat, hzip]
  refine ⟨fun isConst addr => ?_, fun ds => ?_, fun ds => ?_⟩
  · obtain ⟨r, hr, hrep⟩ := Utf8Validation.runUtf8Validation_reports isConst addr
      (encoded (cs.map Prod.fst))
    cases r with
    | ok u => exact hr
    | error e =>
      exact absurd (encoded_wellFormed _) (Utf8Validation.reports_error_not_wellFormed hrep)
  · obtain ⟨fs, bs, s, hd, hs⟩ := drive_splits chars_holds ds _ (cs.map Prod.fst) rfl
    exact ⟨fs, bs, s, hd, hs, fun hl => hs.all (by simpa using hl)⟩
  · obtain ⟨fs, bs, s, hd, hs⟩ := drive_splits charIndices_holds ds
      (charIndices (encoded (cs.map Prod.fst))) _ ⟨_, rfl, rfl⟩
    exact ⟨fs, bs, s, hd, hs, fun hl => hs.all (by rwa [withOffsets_length, List.length_map])⟩

/-- One char of every length, in the shortest buffer that holds it. -/
def mixed : List (Char × List UInt8) :=
  [('a', [7]), ('é', [0, 0]), ('€', [0, 0, 0]), ('😀', [0, 0, 0, 0])]

theorem utf8_roundTrip_mixed :
    (∀ p ∈ mixed, lenUtf8 p.1.toNat ≤ p.2.length) ∧
    ∃ outs, encodeAll mixed = some outs ∧
      ∃ fs bs s, drive CharIndices.next CharIndices.nextBack [.front, .back, .front, .back]
          (charIndices outs.flatten) = some (fs, bs, s) ∧
        fs ++ bs.reverse = withOffsets 0 (['a', 'é', '€', '😀'].zip outs) := by
  have hdst : ∀ p ∈ mixed, lenUtf8 p.1.toNat ≤ p.2.length := by decide
  obtain ⟨outs, hout, -, -, -, hdrive⟩ := utf8_roundTrip mixed hdst
  obtain ⟨fs, bs, s, hd, -, hall⟩ := hdrive [.front, .back, .front, .back]
  exact ⟨hdst, outs, hout, fs, bs, s, hd, hall (by decide)⟩

end RustStd.StrIter
