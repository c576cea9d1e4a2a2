import RustStd.Fmt.PaddingParts

/-!
# What the padding routines write and what they leave behind

The text of a call depends on the options and the arguments only; the writer decides how far it is
written. An error of the writer during the zero padding leaves the changed fill char and alignment
behind.
-/

set_option autoImplicit false

namespace RustStd.Formatting
open RustStd.Fallible RustStd.Machine Formatter FormattingOptions

variable {σ : Type} {w : Write σ} {o : FormattingOptions}

/-! ## The text -/

/-- `m` hands over the text in pieces and returns an error when one of them is refused. -/
def Writes (w : Write σ) (m : M Unit (Formatter σ) Unit) (o : FormattingOptions)
    (text : List Char) : Prop :=
  ∃ ps, textOf ps = text ∧ ∀ b,
    (m ⟨o, b⟩).1 = .ok (if (w.acceptAll ps b).1 then .ok () else .error ()) ∧
      (m ⟨o, b⟩).2.buf = (w.acceptAll ps b).2

theorem Passes.writes {m : M Unit (Formatter σ) Unit} {ps : List Piece}
    {o₁ e : FormattingOptions} (h : Passes w m o ps () o₁ e) : Writes w m o (textOf ps) := by
  refine ⟨ps, rfl, fun b => ?_⟩
  rw [h b]
  exact ⟨rfl, rfl⟩

theorem Writes.congr {m m' : M Unit (Formatter σ) Unit} {text : List Char}
    (h : Writes w m o text) (hm : ∀ b, m' ⟨o, b⟩ = m ⟨o, b⟩) : Writes w m' o text := by
  obtain ⟨ps, htext, hps⟩ := h
  exact ⟨ps, htext, fun b => by rw [hm]; exact hps b⟩

/-- Content with `n` fill chars; in the centre an odd one goes to the right. -/
def aligned (fill : Char) (n : ℕ) (content : List Char) : Alignment → List Char
  | .left => content ++ List.replicate n fill
  | .right => List.replicate n fill ++ content
  | .center => List.replicate (n/2) fill ++ content ++ List.replicate (n-n/2) fill

theorem length_aligned (fill : Char) (n : ℕ) (content : List Char) (align : Alignment) :
    (aligned fill n content align).length = n+content.length := by
  cases align with
  | left => rw [aligned, List.length_append, List.length_replicate, Nat.add_comm]
  | right => rw [aligned, List.length_append, List.length_replicate]
  | center =>
    simp only [aligned, List.length_append, List.length_replicate]
    omega

theorem aligned_zero (fill : Char) (content : List Char) (align : Alignment) :
    aligned fill 0 content align = content := by
  cases align with
  | left => exact List.append_nil content
  | right => rfl
  | center => exact List.append_nil content

theorem textOf_str (s : List Char) : textOf [.str s] = s := List.append_nil s

theorem textOf_paddedPieces (default : Alignment) (n : ℕ) (content : List Piece) :
    textOf (paddedPieces o default n content) =
      aligned o.getFill n (textOf content) (o.getAlign.getD default) := by
  rw [paddedPieces, textOf_append, textOf_append, textOf_fillPieces, textOf_fillPieces, leftOf]
  cases o.getAlign.getD default with
  | left => rfl
  | right => rw [paddingLeft, Nat.sub_self, List.replicate_zero, List.append_nil, aligned]
  | center => rw [paddingLeft, aligned, List.append_assoc]

def padText (o : FormattingOptions) (s : List Char) : List Char :=
  aligned o.getFill (o.width-(shownChars o s).length) (shownChars o s) (o.getAlign.getD .left)

/-- Zeros behind the sign and the prefix, or fill chars around the whole. -/
def integralText (o : FormattingOptions) (isNonnegative : Bool) (pre buf : Str) : List Char :=
  if o.signAwareZeroPad then
    headChars o isNonnegative pre ++
      List.replicate (o.width-integralWidth o isNonnegative pre buf) '0' ++ buf.chars
  else
    aligned o.getFill (o.width-integralWidth o isNonnegative pre buf)
      (headChars o isNonnegative pre ++ buf.chars) (o.getAlign.getD .right)

def partsText (o : FormattingOptions) (formatted : Formatted) : List Char :=
  if o.signAwareZeroPad then
    formatted.sign.chars ++ List.replicate (o.width-formatted.total) '0' ++
      formatted.parts.flatMap Part.chars
  else aligned o.getFill (o.width-formatted.total) formatted.chars (o.getAlign.getD .right)

theorem textOf_padPieces (s : List Char) : textOf (padPieces o s) = padText o s := by
  rw [padPieces, textOf_paddedPieces, textOf_str, padText]

theorem pad_writes (s : List Char) : Writes w (pad w s) o (padText o s) := by
  rw [← textOf_padPieces]
  exact (passes_pad s).writes

theorem padIntegral_writes (isNonnegative : Bool) (pre buf : Str) :
    Writes w (padIntegral w isNonnegative pre buf) o (integralText o isNonnegative pre buf) := by
  have h := (passes_padIntegral (w := w) (o := o) isNonnegative pre buf).writes
  have htext : textOf (integralPieces o isNonnegative pre buf) =
      integralText o isNonnegative pre buf := by
    unfold integralPieces integralText
    have hhead := textOf_headPieces (signChar o isNonnegative) (shownPrefix o pre)
    rw [← headChars] at hhead
    by_cases hz : ZeroPads o (integralWidth o isNonnegative pre buf)
    · rw [if_pos hz, if_pos hz.1, textOf_append, textOf_append, hhead, textOf_fillPieces,
        textOf_str]
    · rw [if_neg hz, textOf_paddedPieces, textOf_append, hhead, textOf_str]
      split_ifs with hzero
      · -- without missing chars the two layouts agree
        have hle := Nat.le_of_not_lt fun hlt => hz ⟨hzero, hlt⟩
        rw [Nat.sub_eq_zero_of_le hle, aligned_zero]
        exact congrArg (· ++ buf.chars) (List.append_nil _).symm
      · rfl
  rw [← htext]
  exact h

theorem chars_unsigned (formatted : Formatted) :
    formatted.unsigned.chars = formatted.parts.flatMap Part.chars := rfl

theorem padFormattedParts_writes_zero {formatted : Formatted} (hfit : formatted.total < 2^64)
    (hw : o.width ≠ 0) (hzero : o.signAwareZeroPad = true) :
    Writes w (padFormattedParts w formatted) o (formatted.sign.chars ++
      List.replicate (o.width-formatted.total) '0' ++ formatted.parts.flatMap Part.chars) := by
  have htotal := formatted.total_unsigned
  have hrest := passes_zeroRest (w := w) (o := o) formatted.unsigned formatted.sign.len (by omega)
  rw [Nat.sub_sub, ← htotal] at hrest
  refine ⟨.str formatted.sign.chars :: (fillPieces '0' (o.width-formatted.total) ++
    formatted.unsigned.pieces), ?_, fun b => ?_⟩
  · rw [List.append_assoc, ← chars_unsigned, ← Formatted.textOf_pieces, ← textOf_fillPieces,
      ← textOf_append]
    rfl
  · rw [padFormattedParts_zero hzero hw, Write.acceptAll, Write.accept]
    rcases w.writeStr formatted.sign.chars b with ⟨_ | _, b'⟩
    · exact ⟨rfl, rfl⟩
    · rw [if_pos rfl, if_pos rfl, hrest]
      exact ⟨rfl, rfl⟩

theorem padFormattedParts_writes (formatted : Formatted) (hfit : formatted.total < 2^64) :
    Writes w (padFormattedParts w formatted) o (partsText o formatted) := by
  unfold partsText
  by_cases hw : o.width = 0
  · have h := (Formatted.passes_writeFormattedParts (w := w) (o := o) formatted).writes
    rw [hw, Nat.zero_sub, aligned_zero, List.replicate_zero, List.append_nil, ← Formatted.chars,
      ite_self, ← Formatted.textOf_pieces]
    exact h.congr (padFormattedParts_narrow hw)
  by_cases hzero : o.signAwareZeroPad = true
  · rw [if_pos hzero]
    exact padFormattedParts_writes_zero hfit hw hzero
  · have h := (passes_plainRest (w := w) (o := o) formatted hfit).writes
    rw [textOf_paddedPieces, Formatted.textOf_pieces] at h
    rw [if_neg hzero]
    exact h.congr (padFormattedParts_plain (Bool.eq_false_of_not_eq_true hzero) hw)

/-! ## The number of chars -/

def Ascii (cs : List Char) : Prop := ∀ c ∈ cs, c.val ≤ 127

instance (cs : List Char) : Decidable (Ascii cs) := inferInstanceAs (Decidable (∀ c ∈ cs, _))

theorem byteLen_of_ascii {cs : List Char} (h : Ascii cs) : byteLen cs = cs.length := by
  induction cs with
  | nil => rfl
  | cons c cs ih =>
    have hc : c.utf8Size = 1 := Char.utf8Size_eq_one_iff.mpr (h c List.mem_cons_self)
    rw [byteLen_cons, hc, ih fun d hd => h d (List.mem_cons_of_mem c hd), List.length_cons,
      Nat.add_comm]

theorem length_padText (s : List Char) :
    (padText o s).length = max o.width (shownChars o s).length := by
  rw [padText, length_aligned]
  omega

theorem length_integralText (isNonnegative : Bool) (pre : Str) {buf : Str}
    (h : Ascii buf.chars) : (integralText o isNonnegative pre buf).length =
      max o.width ((headChars o isNonnegative pre).length+buf.chars.length) := by
  have hlen : buf.len = buf.chars.length := byteLen_of_ascii h
  unfold integralText integralWidth
  rw [hlen]
  split_ifs
  · simp only [List.length_append, List.length_replicate]
    omega
  · rw [length_aligned, List.length_append]
    omega

def Part.AsciiCopy : Part → Prop
  | .copy buf => Ascii buf.chars
  | _ => True

theorem length_chars {part : Part} (h : part.AsciiCopy) : part.chars.length = part.len := by
  cases part with
  | zero nzeroes => exact List.length_replicate
  | num v => exact (numText_eq v).2
  | copy buf => exact (byteLen_of_ascii h).symm

theorem length_flatMap_chars {parts : List Part} (h : ∀ part ∈ parts, part.AsciiCopy) :
    (parts.flatMap Part.chars).length = (parts.map Part.len).sum := by
  rw [List.length_flatMap]
  exact congrArg List.sum (List.map_congr_left fun part hpart => length_chars (h part hpart))

theorem length_partsText {formatted : Formatted}
    (h : ∀ part ∈ formatted.parts, part.AsciiCopy) :
    (partsText o formatted).length = max o.width formatted.chars.length := by
  have hparts := length_flatMap_chars h
  have hsign := formatted.sign_len.1
  unfold partsText Formatted.chars Formatted.total
  split_ifs
  · simp only [List.length_append, List.length_replicate]
    omega
  · rw [length_aligned, List.length_append]
    omega

/-- The three routines write their text, and its chars are as many as the width asks for where a byte
is a char. -/
theorem padding_exact (w : Write σ) (o : FormattingOptions) :
    (∀ s, Writes w (pad w s) o (padText o s) ∧
      (padText o s).length = max o.width (shownChars o s).length) ∧
    (∀ isNonnegative pre buf,
      Writes w (padIntegral w isNonnegative pre buf) o (integralText o isNonnegative pre buf) ∧
      (Ascii buf.chars → (integralText o isNonnegative pre buf).length =
        max o.width ((headChars o isNonnegative pre).length+buf.chars.length))) ∧
    ∀ formatted : Formatted, formatted.total < 2^64 →
      Writes w (padFormattedParts w formatted) o (partsText o formatted) ∧
      ((∀ part ∈ formatted.parts, part.AsciiCopy) →
        (partsText o formatted).length = max o.width formatted.chars.length) :=
  ⟨fun s => ⟨pad_writes s, length_padText s⟩,
    fun isNonnegative pre _ =>
      ⟨padIntegral_writes isNonnegative pre _, length_integralText isNonnegative pre⟩,
    fun formatted hfit => ⟨padFormattedParts_writes formatted hfit, length_partsText⟩⟩

def collect : Write (List Char) where
  writeStr s b := (true, b ++ s)
  writeChar c b := (true, b ++ [c])

theorem acceptAll_collect (ps : List Piece) (b : List Char) :
    collect.acceptAll ps b = (true, b ++ textOf ps) := by
  induction ps generalizing b with
  | nil => exact congrArg (true, ·) (List.append_nil b).symm
  | cons p ps ih =>
    have hp : collect.accept p b = (true, b ++ p.text) := by cases p <;> rfl
    rw [Write.acceptAll, hp, if_pos rfl, ih, List.append_assoc]
    rfl

theorem Writes.collected {m : M Unit (Formatter (List Char)) Unit} {text : List Char}
    (h : Writes collect m o text) : (m ⟨o, []⟩).1 = .ok (.ok ()) ∧ (m ⟨o, []⟩).2.buf = text := by
  obtain ⟨ps, htext, hps⟩ := h
  have := hps []
  rw [acceptAll_collect, htext] at this
  exact this

/-- `{:06}` of `-42`. -/
theorem padding_exact_zeros :
    let o := (new.setWidth (some 6#16)).setSignAwareZeroPad true
    let formatted : Formatted := ⟨⟨['-'], by decide⟩, [.num 42#16], .inr (.inl rfl)⟩
    Writes collect (padFormattedParts collect formatted) o ['-', '0', '0', '0', '4', '2'] := by
  intro o formatted
  have htext : partsText o formatted = ['-', '0', '0', '0', '4', '2'] := by decide
  rw [← htext]
  exact ((padding_exact collect o).2.2 formatted (by decide)).1

/-- The call writes as many chars as the width and the content ask for. -/
def WritesTotal (m : M Unit (Formatter (List Char)) Unit) (o : FormattingOptions)
    (content : List Char) : Prop :=
  ∃ text, Writes collect m o text ∧ text.length = max o.width content.length

theorem WritesTotal.length_eq {m : M Unit (Formatter (List Char)) Unit} {content text : List Char}
    (h : WritesTotal m o content) (hm : Writes collect m o text) :
    text.length = max o.width content.length := by
  obtain ⟨total, htotal, hlen⟩ := h
  rw [← hm.collected.2, htotal.collected.2]
  exact hlen

/-- A text that is not ASCII has more bytes than chars, so a fill char is missing. -/
theorem padding_short :
    (¬ ∀ (o : FormattingOptions) (isNonnegative : Bool) (pre buf : Str),
      WritesTotal (padIntegral collect isNonnegative pre buf) o
        (headChars o isNonnegative pre ++ buf.chars)) ∧
    (¬ ∀ (o : FormattingOptions) (formatted : Formatted), formatted.total < 2^64 →
      WritesTotal (padFormattedParts collect formatted) o formatted.chars) ∧
    ¬ ∀ (o : FormattingOptions) (formatted : Formatted),
      ∃ text, Writes collect (padFormattedParts collect formatted) o text := by
  let buf : Str := ⟨[Char.ofNat 0xE9], by decide⟩
  refine ⟨fun h => ?_, fun h => ?_, fun h => ?_⟩
  · have hlen := (h (new.setWidth (some 3#16)) true Str.empty buf).length_eq
      (padIntegral_writes true Str.empty buf)
    exact absurd hlen (by decide)
  · let formatted : Formatted := ⟨Str.empty, [.copy buf], .inl rfl⟩
    have hfit : formatted.total < 2^64 := by decide
    have hlen := (h (new.setWidth (some 3#16)) formatted hfit).length_eq
      (padFormattedParts_writes formatted hfit)
    exact absurd hlen (by decide)
  -- the sum of the lengths exceeds a `usize`, so nothing is returned at all
  · let formatted : Formatted := ⟨Str.empty, [.zero (2^64-1), .zero 1], .inl rfl⟩
    obtain ⟨text, hwrites⟩ := h (new.setWidth (some 3#16)) formatted
    have hret := hwrites.collected.1
    rw [padFormattedParts_plain (by decide) (by decide), writeRest_overflow (by decide)] at hret
    cases hret

/-! ## The options -/

inductive Call
  | pad (s : List Char)
  | padIntegral (isNonnegative : Bool) (pre buf : Str)
  | padFormattedParts (formatted : Formatted)

def perform (w : Write σ) : Call → M Unit (Formatter σ) Unit
  | .pad s => Formatting.pad w s
  | .padIntegral isNonnegative pre buf => Formatting.padIntegral w isNonnegative pre buf
  | .padFormattedParts formatted => Formatting.padFormattedParts w formatted

def KeepsOptions (w : Write σ) (call : Call) (f : Formatter σ) : Prop :=
  ∀ r, (perform w call f).1 = .ok r → (perform w call f).2.options = f.options

/-- The zero padding changes nothing because zeros on the left are asked for anyway. -/
def ZeroesAskedFor (o : FormattingOptions) : Prop := o.getFill = '0' ∧ o.getAlign = some .right

/-- Between the change of the options and their restoration the writer refuses nothing. -/
def Undisturbed (w : Write σ) (f : Formatter σ) : Call → Prop
  | .pad _ => True
  | .padIntegral isNonnegative pre buf =>
    ¬ ZeroPads f.options (integralWidth f.options isNonnegative pre buf) ∨
      ZeroesAskedFor f.options ∨
      (w.acceptAll (integralPieces f.options isNonnegative pre buf) f.buf).1 = true
  | .padFormattedParts formatted =>
    ¬ ZeroPads f.options formatted.total ∨ ZeroesAskedFor f.options ∨
      (w.writeStr formatted.sign.chars f.buf).1 = false ∨
      (w.acceptAll (fillPieces '0' (f.options.width-formatted.total) ++ formatted.unsigned.pieces)
        (w.writeStr formatted.sign.chars f.buf).2).1 = true

theorem Passes.keeps_iff {m : M Unit (Formatter σ) Unit} {ps : List Piece}
    {o₁ o₂ e : FormattingOptions} (h : Passes w m o₁ ps () o₂ e) (b : σ) :
    (∀ r, (m ⟨o₁, b⟩).1 = .ok r → (m ⟨o₁, b⟩).2.options = o₂) ↔
      e = o₂ ∨ (w.acceptAll ps b).1 = true := by
  rw [h b]
  constructor
  · intro hkeep
    have hopt := hkeep _ rfl
    by_cases hacc : (w.acceptAll ps b).1 = true
    · exact .inr hacc
    · left
      rw [← hopt]
      exact (if_neg hacc).symm
  · rintro (rfl | hacc) r -
    · exact ite_self _
    · exact if_pos hacc

theorem keeps_padIntegral_iff (isNonnegative : Bool) (pre buf : Str) (b : σ) :
    KeepsOptions w (.padIntegral isNonnegative pre buf) ⟨o, b⟩ ↔
      Undisturbed w ⟨o, b⟩ (.padIntegral isNonnegative pre buf) := by
  have h := (passes_padIntegral (w := w) (o := o) isNonnegative pre buf).keeps_iff b
  unfold Undisturbed
  apply h.trans
  by_cases hz : ZeroPads o (integralWidth o isNonnegative pre buf)
  · rw [if_pos hz, zeroPadded_eq_self_iff, ← ZeroesAskedFor]
    exact (or_iff_right (not_not.mpr hz)).symm
  · rw [if_neg hz]
    exact iff_of_true (.inl rfl) (.inl hz)

theorem keeps_padFormattedParts_zero {formatted : Formatted} (hw : o.width ≠ 0)
    (hzero : o.signAwareZeroPad = true) (b : σ) :
    KeepsOptions w (.padFormattedParts formatted) ⟨o, b⟩ ↔
      Undisturbed w ⟨o, b⟩ (.padFormattedParts formatted) := by
  have htotal := formatted.total_unsigned
  have hlen := formatted.sign_len.2
  dsimp only [KeepsOptions, Undisturbed, perform]
  rw [padFormattedParts_zero hzero hw]
  rcases hsign : w.writeStr formatted.sign.chars b with ⟨_ | _, b'⟩
  · exact iff_of_true (fun _ _ => rfl) (.inr (.inr (.inl rfl)))
  · rw [if_pos rfl]
    by_cases hfit : formatted.unsigned.total < 2^64
    · have hrest := passes_zeroRest (w := w) (o := o) formatted.unsigned formatted.sign.len hfit
      rw [Nat.sub_sub, ← htotal] at hrest
      apply (hrest.keeps_iff b').trans
      by_cases hz : ZeroPads o formatted.total
      · have hlt := hz.2
        rw [if_neg (by omega), zeroPadded_eq_self_iff, ← ZeroesAskedFor]
        apply (or_iff_right (not_not.mpr hz)).trans _ |>.symm
        exact or_congr_right (or_iff_right Bool.noConfusion)
      · have hle : o.width ≤ formatted.total := Nat.le_of_not_lt fun h => hz ⟨hzero, h⟩
        rw [if_pos (by omega)]
        exact iff_of_true (.inl rfl) (.inl hz)
    · rw [writeRest_overflow hfit]
      apply iff_of_true
      · intro r hr
        cases hr
      · have := o.width_lt
        exact .inl fun hz => by have := hz.2; omega

theorem keeps_padFormattedParts_iff (formatted : Formatted) (b : σ) :
    KeepsOptions w (.padFormattedParts formatted) ⟨o, b⟩ ↔
      Undisturbed w ⟨o, b⟩ (.padFormattedParts formatted) := by
  by_cases hw : o.width = 0
  · have h := ((Formatted.passes_writeFormattedParts (w := w) (o := o) formatted).keeps_iff b)
    have hz : ¬ ZeroPads o formatted.total := fun hz => by have := hz.2; omega
    unfold KeepsOptions
    rw [perform, padFormattedParts_narrow hw]
    exact h.trans (iff_of_true (.inl rfl) (.inl hz))
  by_cases hzero : o.signAwareZeroPad = true
  · exact keeps_padFormattedParts_zero hw hzero b
  · have hz : ¬ ZeroPads o formatted.total := fun hz => hzero hz.1
    unfold KeepsOptions
    rw [perform, padFormattedParts_plain (Bool.eq_false_of_not_eq_true hzero) hw]
    apply iff_of_true _ (.inl hz)
    by_cases hfit : formatted.total < 2^64
    · have h := passes_plainRest (w := w) (o := o) formatted hfit
      exact (h.keeps_iff b).mpr (.inl rfl)
    · rw [writeRest_overflow hfit]
      intro r hr
      cases hr

/-- Every call returns with the old options exactly when no refusal falls into the zero padding. -/
theorem keepsOptions_iff (w : Write σ) (call : Call) (f : Formatter σ) :
    KeepsOptions w call f ↔ Undisturbed w f call := by
  cases call with
  | pad s => exact iff_of_true ((passes_pad s).keeps_iff f.buf |>.mpr (.inl rfl)) trivial
  | padIntegral isNonnegative pre buf => exact keeps_padIntegral_iff isNonnegative pre buf f.buf
  | padFormattedParts formatted => exact keeps_padFormattedParts_iff formatted f.buf

def refuse : Write Unit where
  writeStr _ _ := (false, ())
  writeChar _ _ := (false, ())

theorem padIntegral_forgets :
    ¬ ∀ (w : Write Unit) (call : Call) (f : Formatter Unit), KeepsOptions w call f := by
  intro h
  let o := (new.setWidth (some 3#16)).setSignAwareZeroPad true
  have hkeep := (keeps_padIntegral_iff true Str.empty ⟨['5'], by decide⟩ ()).mp (h refuse _ ⟨o, ()⟩)
  rcases hkeep with hz | hz | hz
  · exact hz (by decide)
  · exact absurd hz.1 (by decide)
  · exact absurd hz (by decide)

end RustStd.Formatting
