import RustStd.Fmt.FormatterSpec
import RustStd.Str.Wtf8Boundary
import RustStd.Str.Wtf8BufCompare

/-!
# Lossy conversions of WTF-8

Each conversion moves from one surrogate to the next and puts U+FFFD, which has three bytes as well,
in its place. Between two surrogates the bytes are those of chars. The results become strings
without a validation.
-/

set_option autoImplicit false

namespace RustStd.Wtf8Encoding
open RustStd.Loop RustStd.Chars RustStd.CharMethods RustStd.Fallible RustStd.Machine
open RustStd.Formatting (Formatter Write FormattingOptions Piece Passes Writes textOf)
open RustStd.Utf8Grammar (Tail)

/-! ## The conversions -/

/-- The bytes of U+FFFD. -/
def replacement : List UInt8 := [0xEF, 0xBF, 0xBD]

def replacementCharacter : Char := Char.ofNat 0xFFFD

def copyFromSlice (bytes : List UInt8) (a b : ℕ) (src : List UInt8) : Option (List UInt8) :=
  if a ≤ b ∧ b ≤ bytes.length ∧ b-a = src.length then some (bytes.take a ++ src ++ bytes.drop b)
  else none

def lossyLoop : ℕ → List UInt8 → ℕ → Option (List UInt8)
  | 0, _, _ => none
  | fuel+1, bytes, pos => do
    match ← nextSurrogate bytes pos with
    | some (surrogatePos, _) =>
      let pos := surrogatePos+3
      let bytes ← copyFromSlice bytes surrogatePos pos replacement
      lossyLoop fuel bytes pos
    | none => return bytes

def appendLoop (bytes : List UInt8) : ℕ → ℕ → List UInt8 → Option (List UInt8)
  | 0, _, _ => none
  | fuel+1, pos, utf8Bytes => do
    match ← nextSurrogate bytes pos with
    | some (surrogatePos, _) =>
      let piece ← slice bytes pos surrogatePos
      appendLoop bytes fuel (surrogatePos+3) (utf8Bytes ++ piece ++ replacement)
    | none =>
      let piece ← slice bytes pos bytes.length
      return utf8Bytes ++ piece

inductive Cow
  | borrowed (bytes : List UInt8)
  | owned (bytes : List UInt8)
  deriving DecidableEq, Repr

def Cow.bytes : Cow → List UInt8
  | .borrowed bytes => bytes
  | .owned bytes => bytes

def Wtf8.toStringLossy (w : Wtf8) : Option Cow := do
  match ← nextSurrogate w.bytes 0 with
  | none => return .borrowed w.bytes
  | some (surrogatePos, _) =>
    let piece ← slice w.bytes 0 surrogatePos
    let bytes ← appendLoop w.bytes (w.bytes.length+1) (surrogatePos+3) (piece ++ replacement)
    return .owned bytes

namespace Wtf8Buf

def intoString (w : Wtf8Buf) : Option (Except Wtf8Buf (List UInt8)) :=
  if w.isKnownUtf8 then some (.ok w.bytes)
  else do
    let surrogate ← nextSurrogate w.bytes 0
    return if surrogate.isNone then .ok w.bytes else .error w

def intoStringLossy (w : Wtf8Buf) : Option (List UInt8) :=
  if !w.isKnownUtf8 then lossyLoop (w.bytes.length+1) w.bytes 0 else some w.bytes

end Wtf8Buf

section Display

variable {σ : Type}

/-- The chars of a `str` that was not validated. -/
def strChars (bytes : List UInt8) : Option (List Char) :=
  collect StrIter.Chars.next (bytes.length+1) (StrIter.chars bytes)

/-- The loop of `Display`; only a text without a surrogate is padded. -/
def displayLoop (f : Write σ) (bytes : List UInt8) : ℕ → ℕ → M Unit (Formatter σ) Unit
  | 0, _ => fault .outOfFuel
  | fuel+1, pos => do
    match ← ofOption (nextSurrogate bytes pos) with
    | some (surrogatePos, _) =>
      let s ← ofOption (slice bytes pos surrogatePos >>= strChars)
      Formatter.writeStr f s
      Formatter.writeChar f replacementCharacter
      displayLoop f bytes fuel (surrogatePos+3)
    | none =>
      let s ← ofOption (slice bytes pos bytes.length >>= strChars)
      if pos = 0 then Formatting.pad f s else Formatter.writeStr f s

def displayBytes (f : Write σ) (bytes : List UInt8) : M Unit (Formatter σ) Unit :=
  displayLoop f bytes (bytes.length+1) 0

def Wtf8.display (f : Write σ) (w : Wtf8) : M Unit (Formatter σ) Unit := displayBytes f w.bytes

def Wtf8Buf.display (f : Write σ) (w : Wtf8Buf) : M Unit (Formatter σ) Unit :=
  if w.isKnownUtf8 then do
    let s ← ofOption (strChars w.bytes)
    Formatting.pad f s
  else displayBytes f w.bytes

end Display

/-! ## The first surrogate -/

/-- What the search over the code points `ys`, which begin at `pos`, has to find. -/
def FirstSurrogate (pos : ℕ) (ys : List CodePoint) : Option (ℕ × UInt16) → Prop
  | none => ∀ c ∈ ys, ¬ Surrogate c
  | some (p, u) => ∃ xs s zs, ys = xs ++ s :: zs ∧ (∀ c ∈ xs, ¬ Surrogate c) ∧ Surrogate s ∧
      p = pos+(encode xs).length ∧ u.toNat = s.value

theorem surrogateFrom_first (pos : ℕ) (ys : List CodePoint) :
    FirstSurrogate pos ys (surrogateFrom pos (encode ys)) := by
  induction ys generalizing pos with
  | nil =>
    rw [encode_nil, surrogateFrom]
    exact fun c hc => absurd hc List.not_mem_nil
  | cons c ys ih =>
    rw [encode_cons, surrogateFrom_cons]
    split_ifs with hc
    · exact ⟨[], c, ys, rfl, fun d hd => absurd hd List.not_mem_nil, hc, rfl, toNat_surrogate hc⟩
    · have hrest := ih (pos+(utf8Bytes c.value).length)
      generalize surrogateFrom _ (encode ys) = r at hrest ⊢
      rcases r with _ | ⟨p, u⟩
      · exact List.forall_mem_cons.mpr ⟨hc, hrest⟩
      · obtain ⟨xs, s, zs, hys, hxs, hs, hp, hu⟩ := hrest
        refine ⟨c :: xs, s, zs, by rw [hys]; rfl, List.forall_mem_cons.mpr ⟨hc, hxs⟩, hs, ?_, hu⟩
        rw [hp, encode_cons, List.length_append, Nat.add_assoc]

theorem nextSurrogate_first {bytes : List UInt8} {x : List UInt8} {ys : List CodePoint}
    (h : bytes = x ++ encode ys) :
    ∃ r, nextSurrogate bytes x.length = some r ∧ FirstSurrogate x.length ys r := by
  have hle : x.length ≤ bytes.length := by
    rw [h, List.length_append]
    exact Nat.le_add_right _ _
  have hdrop : bytes.drop x.length = encode ys := by rw [h, List.drop_left]
  rw [nextSurrogate, if_pos hle, hdrop]
  exact ⟨_, rfl, surrogateFrom_first _ ys⟩

/-! ## The text -/

/-- The char of a code point, U+FFFD for a surrogate. -/
def lossyChar (c : CodePoint) : Char :=
  if Surrogate c then replacementCharacter else Char.ofNat c.value

def lossy (cs : List CodePoint) : List Char := cs.map lossyChar

theorem lossyChar_surrogate {c : CodePoint} (h : Surrogate c) :
    lossyChar c = replacementCharacter := if_pos h

theorem fromChar_lossyChar {c : CodePoint} (h : ¬ Surrogate c) :
    CodePoint.fromChar (lossyChar c) = c := by
  have hchar : lossyChar c = Char.ofNat c.value := if_neg h
  rcases c.cases with hc | ⟨d, rfl⟩
  · exact absurd hc h
  · rw [hchar]
    exact congrArg CodePoint.fromChar (Char.ofNat_toNat d)

theorem encoded_lossy {cs : List CodePoint} (h : ∀ c ∈ cs, ¬ Surrogate c) :
    StrIter.encoded (lossy cs) = encode cs := by
  rw [encoded_eq, lossy, List.map_map]
  congr 1
  exact (List.map_congr_left fun c hc => fromChar_lossyChar (h c hc)).trans (List.map_id cs)

theorem encoded_replacement (cs : List Char) :
    StrIter.encoded (replacementCharacter :: cs) = replacement ++ StrIter.encoded cs := by
  rw [StrIter.encoded_cons]
  rfl

theorem encoded_lossy_split {xs zs : List CodePoint} {s : CodePoint}
    (hxs : ∀ c ∈ xs, ¬ Surrogate c) (hs : Surrogate s) :
    StrIter.encoded (lossy (xs ++ s :: zs)) =
      encode xs ++ replacement ++ StrIter.encoded (lossy zs) := by
  rw [lossy, List.map_append, List.map_cons, lossyChar_surrogate hs, StrIter.encoded_append,
    encoded_replacement, ← lossy, ← lossy, encoded_lossy hxs, List.append_assoc]

/-! ## The loops -/

theorem encode_split (xs zs : List CodePoint) (s : CodePoint) :
    encode (xs ++ s :: zs) = encode xs ++ (utf8Bytes s.value ++ encode zs) := by
  rw [encode_append, encode_cons]

theorem copyFromSlice_surrogate {s : CodePoint} (hs : Surrogate s) (x r : List UInt8) :
    copyFromSlice (x ++ (utf8Bytes s.value ++ r)) x.length (x.length+3) replacement =
      some (x ++ replacement ++ r) := by
  have hlen := length_surrogate hs
  have hdrop : (x ++ (utf8Bytes s.value ++ r)).drop (x.length+3) = r := by
    rw [← List.append_assoc]
    exact List.drop_left' (by rw [List.length_append, hlen])
  rw [copyFromSlice, if_pos, List.take_left, hdrop]
  refine ⟨by omega, ?_, ?_⟩
  · rw [List.length_append, List.length_append, hlen]
    omega
  · rw [Nat.add_sub_cancel_left]
    rfl

theorem lossyLoop_eq (fuel : ℕ) (x : List UInt8) (ys : List CodePoint) (hf : ys.length < fuel) :
    lossyLoop fuel (x ++ encode ys) x.length = some (x ++ StrIter.encoded (lossy ys)) := by
  induction fuel generalizing x ys with
  | zero => exact absurd hf (Nat.not_lt_zero _)
  | succ fuel ih =>
    obtain ⟨r, hr, hfirst⟩ := nextSurrogate_first (rfl : x ++ encode ys = _)
    rw [lossyLoop, hr]
    cases r with
    | none => rw [encoded_lossy hfirst]; rfl
    | some r =>
      obtain ⟨xs, s, zs, rfl, hxs, hs, hp, -⟩ := hfirst
      have hcopy := copyFromSlice_surrogate hs (x ++ encode xs) (encode zs)
      rw [List.length_append, ← hp, List.append_assoc, ← encode_split] at hcopy
      have hrest := ih (x ++ encode xs ++ replacement) zs (by
        rw [List.length_append, List.length_cons] at hf
        omega)
      have hlen : (x ++ encode xs ++ replacement).length = r.1+3 := by
        rw [hp, List.length_append, List.length_append]
        rfl
      rw [hlen] at hrest
      simp only [some_bind, hcopy]
      rw [hrest, encoded_lossy_split hxs hs]
      simp only [List.append_assoc]

theorem slice_middle (x y z : List UInt8) :
    slice (x ++ (y ++ z)) x.length (x.length+y.length) = some y := by
  rw [slice_eq _ (Nat.le_add_right _ _) (by simp), List.drop_left, Nat.add_sub_cancel_left,
    List.take_left]

theorem slice_rest (x y : List UInt8) :
    slice (x ++ y) x.length (x ++ y).length = some y := by
  have h := slice_middle x y []
  rw [List.append_nil] at h
  rw [List.length_append]
  exact h

theorem appendLoop_eq {bytes : List UInt8} (fuel : ℕ) (x acc : List UInt8) (ys : List CodePoint)
    (hbytes : bytes = x ++ encode ys) (hf : ys.length < fuel) :
    appendLoop bytes fuel x.length acc = some (acc ++ StrIter.encoded (lossy ys)) := by
  induction fuel generalizing x acc ys with
  | zero => exact absurd hf (Nat.not_lt_zero _)
  | succ fuel ih =>
    obtain ⟨r, hr, hfirst⟩ := nextSurrogate_first hbytes
    rw [appendLoop, hr]
    cases r with
    | none =>
      have hslice := slice_rest x (encode ys)
      rw [← hbytes] at hslice
      rw [encoded_lossy hfirst]
      simp only [some_bind, hslice]
      rfl
    | some r =>
      obtain ⟨xs, s, zs, rfl, hxs, hs, hp, -⟩ := hfirst
      rw [encode_split] at hbytes
      have hslice := slice_middle x (encode xs) (utf8Bytes s.value ++ encode zs)
      rw [← hbytes, ← hp] at hslice
      have hlen : (x ++ encode xs ++ utf8Bytes s.value).length = r.1+3 := by
        rw [hp, List.length_append, List.length_append, length_surrogate hs]
      have hrest := ih (x ++ encode xs ++ utf8Bytes s.value) (acc ++ encode xs ++ replacement) zs
        (by rw [hbytes]; simp only [List.append_assoc]) (by
          rw [List.length_append, List.length_cons] at hf
          omega)
      rw [hlen] at hrest
      simp only [some_bind, hslice]
      rw [hrest, encoded_lossy_split hxs hs]
      simp only [List.append_assoc]

theorem length_le_encode (cs : List CodePoint) : cs.length ≤ (encode cs).length := by
  induction cs with
  | nil => exact le_refl _
  | cons c cs ih =>
    obtain ⟨a, r, hc, -⟩ := utf8Bytes_shape c
    rw [encode_cons, hc, List.length_append, List.length_cons, List.length_cons]
    omega

theorem toStringLossy_eq {w : Wtf8} {cs : List CodePoint} (h : w.bytes = encode cs) :
    ∃ s, w.toStringLossy = some s ∧ s.bytes = StrIter.encoded (lossy cs) := by
  obtain ⟨r, hr, hfirst⟩ := nextSurrogate_first (x := []) h
  rw [List.length_nil] at hr hfirst
  rw [Wtf8.toStringLossy, hr]
  cases r with
  | none =>
    refine ⟨_, rfl, ?_⟩
    rw [encoded_lossy hfirst]
    exact h
  | some r =>
    obtain ⟨xs, s, zs, rfl, hxs, hs, hp, -⟩ := hfirst
    have hle := length_le_encode (xs ++ s :: zs)
    rw [← h, List.length_append, List.length_cons] at hle
    rw [encode_split] at h
    have hslice := slice_middle [] (encode xs) (utf8Bytes s.value ++ encode zs)
    rw [List.nil_append, ← h, List.length_nil, ← hp] at hslice
    have hlen : (encode xs ++ utf8Bytes s.value).length = r.1+3 := by
      rw [hp, List.length_append, length_surrogate hs, Nat.zero_add]
    have hbytes : w.bytes = encode xs ++ utf8Bytes s.value ++ encode zs := by
      rw [List.append_assoc]
      exact h
    have hrest := appendLoop_eq (w.bytes.length+1) (encode xs ++ utf8Bytes s.value)
      (encode xs ++ replacement) zs hbytes (by omega)
    rw [hlen] at hrest
    simp only [some_bind, hslice, hrest]
    exact ⟨_, rfl, (encoded_lossy_split hxs hs).symm⟩

theorem intoStringLossy_eq {w : Wtf8Buf} {cs : List CodePoint} (h : Holds w cs) :
    w.intoStringLossy = some (StrIter.encoded (lossy cs)) := by
  unfold Wtf8Buf.intoStringLossy
  cases hk : w.isKnownUtf8 with
  | true =>
    rw [encoded_lossy (h.known hk), ← h.bytes]
    rfl
  | false =>
    have hloop := lossyLoop_eq (w.bytes.length+1) [] cs (by
      rw [h.bytes]
      exact Nat.lt_succ_of_le (length_le_encode cs))
    rw [List.nil_append, ← h.bytes] at hloop
    exact hloop

theorem intoString_eq {w : Wtf8Buf} {cs : List CodePoint} (h : Holds w cs) :
    w.intoString = some (if ∀ c ∈ cs, ¬ Surrogate c then .ok (encode cs) else .error w) := by
  unfold Wtf8Buf.intoString
  cases hk : w.isKnownUtf8 with
  | true =>
    rw [if_pos (h.known hk), h.bytes]
    rfl
  | false =>
    obtain ⟨r, hr, hfirst⟩ := nextSurrogate_first (x := []) h.bytes
    rw [List.length_nil] at hr hfirst
    rw [if_neg Bool.false_ne_true, hr, h.bytes]
    cases r with
    | none =>
      have hno : ∀ c ∈ cs, ¬ Surrogate c := hfirst
      rw [if_pos hno]
      rfl
    | some r =>
      obtain ⟨xs, s, zs, rfl, -, hs, -, -⟩ := hfirst
      have hsurrogate : ¬ ∀ c ∈ xs ++ s :: zs, ¬ Surrogate c := fun hall =>
        hall s (by simp) hs
      rw [if_neg hsurrogate]
      rfl

/-! ## `Display` -/

section Display

variable {σ : Type} {f : Write σ} {o : FormattingOptions}

theorem strChars_encoded (cs : List Char) : strChars (StrIter.encoded cs) = some cs := by
  apply DoubleEnded.collect_of_holds StrIter.chars_holds rfl
  have hle := length_le_encode (cs.map CodePoint.fromChar)
  rw [← encoded_eq, List.length_map] at hle
  exact Nat.lt_succ_of_le hle

/-- A text without a surrogate is padded as the string that it is. -/
def displayText (o : FormattingOptions) (pos : ℕ) (ys : List CodePoint) : List Char :=
  if pos = 0 ∧ ∀ c ∈ ys, ¬ Surrogate c then Formatting.padText o (lossy ys) else lossy ys

theorem displayLoop_passes {bytes : List UInt8} (fuel : ℕ) (x : List UInt8) (ys : List CodePoint)
    (hbytes : bytes = x ++ encode ys) (hf : ys.length < fuel) :
    ∃ ps, Passes f (displayLoop f bytes fuel x.length) o ps () o o ∧
      textOf ps = displayText o x.length ys := by
  induction fuel generalizing x ys with
  | zero => exact absurd hf (Nat.not_lt_zero _)
  | succ fuel ih =>
    obtain ⟨r, hr, hfirst⟩ := nextSurrogate_first hbytes
    cases r with
    | none =>
      have hslice : (slice bytes x.length bytes.length >>= strChars) = some (lossy ys) := by
        rw [hbytes, slice_rest, ← encoded_lossy hfirst]
        exact strChars_encoded _
      by_cases hpos : x.length = 0
      · refine ⟨Formatting.padPieces o (lossy ys), ?_, ?_⟩
        · apply (Formatting.passes_ofOption hr).step
          apply (Formatting.passes_ofOption hslice).step
          rw [if_pos hpos]
          exact Formatting.passes_pad _
        · rw [displayText, if_pos ⟨hpos, hfirst⟩, Formatting.textOf_padPieces]
      · refine ⟨[.str (lossy ys)], ?_, ?_⟩
        · apply (Formatting.passes_ofOption hr).step
          apply (Formatting.passes_ofOption hslice).step
          rw [if_neg hpos]
          exact Formatting.passes_writeStr _
        · rw [displayText, if_neg fun h => hpos h.1, Formatting.textOf_str]
    | some r =>
      obtain ⟨xs, s, zs, rfl, hxs, hs, hp, -⟩ := hfirst
      rw [encode_split] at hbytes
      have hslice : (slice bytes x.length r.1 >>= strChars) = some (lossy xs) := by
        rw [hbytes, hp, slice_middle, ← encoded_lossy hxs]
        exact strChars_encoded _
      have hlen : (x ++ encode xs ++ utf8Bytes s.value).length = r.1+3 := by
        rw [hp, List.length_append, List.length_append, length_surrogate hs]
      obtain ⟨ps, hps, htext⟩ := ih (x ++ encode xs ++ utf8Bytes s.value) zs
        (by rw [hbytes]; simp only [List.append_assoc]) (by
          rw [List.length_append, List.length_cons] at hf
          omega)
      rw [hlen] at hps htext
      refine ⟨[.str (lossy xs)] ++ ([.char replacementCharacter] ++ ps), ?_, ?_⟩
      · apply (Formatting.passes_ofOption hr).step
        apply (Formatting.passes_ofOption hslice).step
        apply (Formatting.passes_writeStr _).bind
        exact (Formatting.passes_writeChar _).bind hps
      · have hsurrogate : ¬ ∀ c ∈ xs ++ s :: zs, ¬ Surrogate c := fun hall =>
          hall s (by simp) hs
        rw [displayText, if_neg fun h => hsurrogate h.2, Formatting.textOf_append,
          Formatting.textOf_append, htext, displayText, if_neg fun h => by omega,
          Formatting.textOf_str]
        simp only [lossy, List.map_append, List.map_cons, lossyChar_surrogate hs]
        rfl

theorem displayBytes_writes (cs : List CodePoint) :
    Writes f (displayBytes f (encode cs)) o (displayText o 0 cs) := by
  obtain ⟨ps, hps, htext⟩ := displayLoop_passes (f := f) (o := o) ((encode cs).length+1) [] cs rfl
    (Nat.lt_succ_of_le (length_le_encode cs))
  rw [List.length_nil] at htext
  rw [← htext]
  exact hps.writes

theorem display_writes {w : Wtf8Buf} {cs : List CodePoint} (h : Holds w cs) :
    Writes f (w.display f) o (displayText o 0 cs) := by
  unfold Wtf8Buf.display
  split_ifs with hk
  · have hno := h.known hk
    have hchars : strChars w.bytes = some (lossy cs) := by
      rw [h.bytes, ← encoded_lossy hno]
      exact strChars_encoded _
    rw [displayText, if_pos ⟨rfl, hno⟩, ← Formatting.textOf_padPieces]
    exact ((Formatting.passes_ofOption hchars).step (Formatting.passes_pad _)).writes
  · rw [h.bytes]
    exact displayBytes_writes cs

theorem displayText_plain (cs : List CodePoint)
    (h : o.flags &&& (Formatting.widthFlag ||| Formatting.precisionFlag) = 0#32) :
    displayText o 0 cs = lossy cs := by
  obtain ⟨hw, hp⟩ := Formatting.width_precision_of_flags h
  have hpad : Formatting.padText o (lossy cs) = lossy cs := by
    rw [Formatting.padText, hw, Nat.zero_sub, Formatting.aligned_zero, Formatting.shownChars, hp]
  rw [displayText, hpad, ite_self]

end Display

/-! ## All conversions -/

structure Converts (w : Wtf8) (cs : List CodePoint) : Prop where
  toStringLossy : ∃ s, w.toStringLossy = some s ∧ s.bytes = StrIter.encoded (lossy cs)
  display : ∀ {σ : Type} (f : Write σ) (o : FormattingOptions),
    Writes f (w.display f) o (displayText o 0 cs)
  nextSurrogate : ∀ pos, isCodePointBoundary w.bytes pos = true →
    ∃ xs ys, cs = xs ++ ys ∧ pos = (encode xs).length ∧
      ∃ r, nextSurrogate w.bytes pos = some r ∧ FirstSurrogate pos ys r
  boundary : ∀ index, Decides (checkUtf8Boundary w.bytes index)
    (isCodePointBoundary w.bytes index = true ∧ ¬ BetweenSurrogates cs index)

structure BufConverts (w : Wtf8Buf) (cs : List CodePoint) : Prop where
  intoString : w.intoString =
    some (if ∀ c ∈ cs, ¬ Surrogate c then .ok (encode cs) else .error w)
  intoStringLossy : w.intoStringLossy = some (StrIter.encoded (lossy cs))
  display : ∀ {σ : Type} (f : Write σ) (o : FormattingOptions),
    Writes f (w.display f) o (displayText o 0 cs)

theorem converts {w : Wtf8} {cs : List CodePoint} (h : w.bytes = encode cs) : Converts w cs where
  toStringLossy := toStringLossy_eq h
  display f o := by
    rw [Wtf8.display, h]
    exact displayBytes_writes cs
  nextSurrogate pos hpos := by
    rw [h] at hpos ⊢
    obtain ⟨xs, ys, rfl, rfl⟩ := (boundary_iff cs pos).mp hpos
    exact ⟨xs, ys, rfl, rfl, nextSurrogate_first (encode_append xs ys)⟩
  boundary index := by
    rw [h]
    exact checkUtf8Boundary_decides cs index

theorem bufConverts {w : Wtf8Buf} {cs : List CodePoint} (h : Holds w cs) : BufConverts w cs where
  intoString := intoString_eq h
  intoStringLossy := intoStringLossy_eq h
  display _ _ := display_writes h

/-- The lossy conversions of slices and of buffers give the same text, which is UTF-8, and `{}` writes
it; the searches and checks at boundaries see the surrogates. -/
theorem lossy_agrees :
    (∀ w : Wtf8, ∃ cs, cs.IsChain Unpaired ∧ w.bytes = encode cs ∧ Converts w cs) ∧
    (∀ w, Built w → ∃ cs, cs.IsChain Unpaired ∧ w.bytes = encode cs ∧ BufConverts w cs) ∧
    ∀ cs, Utf8Grammar.WellFormed (StrIter.encoded (lossy cs)) ∧
      ∀ o : FormattingOptions,
        o.flags &&& (Formatting.widthFlag ||| Formatting.precisionFlag) = 0#32 →
        displayText o 0 cs = lossy cs := by
  refine ⟨fun w => ?_, fun w h => ?_, fun cs => ?_⟩
  · obtain ⟨cs, hchain, hbytes⟩ := w.wellFormed
    exact ⟨cs, hchain, hbytes, converts hbytes⟩
  · obtain ⟨cs, hcs⟩ := built_holds h
    exact ⟨cs, hcs.chain, hcs.bytes, bufConverts hcs⟩
  · exact ⟨StrIter.encoded_wellFormed _, fun o h => displayText_plain cs h⟩

def leadLetter : Wtf8 :=
  ⟨[0xED, 0xA0, 0xBD, 0x61], [⟨0xD83D, by decide⟩, ⟨0x61, by decide⟩],
    List.isChain_pair.mpr fun h => absurd h.2.1 (by decide), by decide⟩

theorem lossy_agrees_letter :
    leadLetter.toOwned.intoStringLossy = some [0xEF, 0xBF, 0xBD, 0x61] ∧
      displayText FormattingOptions.new 0 [⟨0xD83D, by decide⟩, ⟨0x61, by decide⟩] =
        [replacementCharacter, 'a'] := by
  obtain ⟨cs, -, hbytes, hcs⟩ := lossy_agrees.2.1 _ (.toOwned leadLetter)
  have hplain := (lossy_agrees.2.2 [⟨0xD83D, by decide⟩, ⟨0x61, by decide⟩]).2
    FormattingOptions.new (by decide)
  obtain rfl : [⟨0xD83D, by decide⟩, ⟨0x61, by decide⟩] = cs :=
    encode_injective (hbytes.symm.trans (by decide)).symm
  rw [hcs.intoStringLossy, hplain]
  exact ⟨by decide, by decide⟩

end RustStd.Wtf8Encoding
