import RustStd.Fmt.Padding

/-!
# Padding of formatted parts

The length of a part is the number of bytes that are written for it. With the zero padding the sign
is written before the options are changed, and the other parts afterwards.
-/

set_option autoImplicit false

namespace RustStd.Formatting
open RustStd.Fallible RustStd.Machine Formatter FormattingOptions

variable {σ : Type} {w : Write σ} {o : FormattingOptions}

/-! ## Numbers -/

theorem shift_formula {v c t q : ℕ} (hc : c+t = (q+1)*2^17) (ht : t ≤ 2^17) (hv : v < 2^17) :
    (v+c)/2^17 = if v < t then q else q+1 := by
  split_ifs with h
  · rw [Nat.div_eq_iff (by decide)]
    omega
  · rw [Nat.div_eq_iff (by decide)]
    omega

theorem lessThan5_formula {v : ℕ} (hv : v < 100000) :
    lessThan5 v = if v < 10 then 0 else if v < 100 then 1 else if v < 1000 then 2
      else if v < 10000 then 3 else 4 := by
  unfold lessThan5
  rw [Nat.shiftRight_xor_distrib, Nat.shiftRight_and_distrib, Nat.shiftRight_and_distrib]
  simp only [Nat.shiftRight_eq_div_pow]
  rw [shift_formula (t := 10) (q := 2) (by decide) (by decide) (by omega),
    shift_formula (t := 100) (q := 3) (by decide) (by decide) (by omega),
    shift_formula (t := 1000) (q := 6) (by decide) (by decide) (by omega),
    shift_formula (t := 10000) (q := 3) (by decide) (by decide) (by omega)]
  split_ifs
  all_goals first | rfl | omega

theorem digitChar_formula {d : ℕ} (hd : d < 10) : Char.ofNat ('0'.toNat+d) = Nat.digitChar d := by
  interval_cases d <;> rfl

theorem lastDigits_eq {k v : ℕ} (hv : v < 10^(k+1)) (hk : k = 0 ∨ 10^k ≤ v) :
    lastDigits (k+1) v = Nat.toDigits 10 v := by
  induction k generalizing v with
  | zero =>
    rw [zero_add, pow_one] at hv
    rw [Nat.toDigits_of_lt_base hv, ← digitChar_formula hv, lastDigits, lastDigits,
      Nat.mod_eq_of_lt hv]
    rfl
  | succ k ih =>
    have hpow : 10^(k+1) = 10^k*10 := pow_succ 10 k
    have hle : 10^(k+1) ≤ v := hk.resolve_left (Nat.succ_ne_zero k)
    have hpos : 0 < 10^k := Nat.pow_pos (by decide)
    have hrest : lastDigits (k+1) (v/10) = Nat.toDigits 10 (v/10) := by
      apply ih
      · rw [pow_succ] at hv
        exact Nat.div_lt_of_lt_mul (by omega)
      · right
        exact (Nat.le_div_iff_mul_le (by decide)).mpr (by omega)
    have hmod : v%10 < 10 := Nat.mod_lt v (by decide)
    rw [lastDigits, hrest, digitChar_formula hmod, ← Nat.toDigits_of_lt_base hmod,
      Nat.toDigits_append_toDigits (by decide) (by omega) hmod, Nat.div_add_mod]

theorem num_len (v : BitVec 16) :
    ∃ k, (Part.num v).len = k+1 ∧ k ≤ 4 ∧ v.toNat < 10^(k+1) ∧ (k = 0 ∨ 10^k ≤ v.toNat) := by
  have hv := v.isLt
  have hlen : (Part.num v).len = (checkedIlog10 v).getD 0+1 := rfl
  rw [hlen, checkedIlog10]
  by_cases hz : v = 0#16
  · refine ⟨0, ?_, by decide, ?_, .inl rfl⟩
    · rw [if_pos hz]
      rfl
    · rw [hz]
      decide
  · rw [if_neg hz, Option.getD_some, lessThan5_formula (by omega)]
    generalize v.toNat = n at hv
    split_ifs
    · exact ⟨0, rfl, by decide, by omega, .inl rfl⟩
    · exact ⟨1, rfl, by decide, by omega, .inr (by omega)⟩
    · exact ⟨2, rfl, by decide, by omega, .inr (by omega)⟩
    · exact ⟨3, rfl, by decide, by omega, .inr (by omega)⟩
    · exact ⟨4, rfl, by decide, by omega, .inr (by omega)⟩

theorem length_lastDigits (len v : ℕ) : (lastDigits len v).length = len := by
  induction len generalizing v with
  | zero => rfl
  | succ len ih => rw [lastDigits, List.length_append, ih, List.length_singleton]

theorem numText_eq (v : BitVec 16) : numText v = some (Nat.toDigits 10 v.toNat) ∧
    (Nat.toDigits 10 v.toNat).length = (Part.num v).len := by
  obtain ⟨k, hlen, hk, hv, hlow⟩ := num_len v
  have hdigits := lastDigits_eq hv hlow
  rw [← hdigits, length_lastDigits, hlen]
  refine ⟨?_, rfl⟩
  rw [numText, hlen]
  exact if_pos (by omega)

/-! ## Parts -/

/-- The text of a part. -/
def Part.chars : Part → List Char
  | .zero nzeroes => List.replicate nzeroes '0'
  | .num v => Nat.toDigits 10 v.toNat
  | .copy buf => buf.chars

def zeroPieces (nzeroes : ℕ) : List Piece :=
  if 64 < nzeroes then .str zeroes :: zeroPieces (nzeroes-64)
  else if 0 < nzeroes then [.str (zeroes.take nzeroes)]
  else []
  termination_by nzeroes

def Part.pieces : Part → List Piece
  | .zero nzeroes => zeroPieces nzeroes
  | .num v => [.str (Nat.toDigits 10 v.toNat)]
  | .copy buf => [.str buf.chars]

theorem textOf_zeroPieces (n : ℕ) : textOf (zeroPieces n) = List.replicate n '0' := by
  induction n using Nat.strong_induction_on with
  | _ n ih =>
    rw [zeroPieces]
    split_ifs with h h'
    · have hsum : n = 64+(n-64) := by omega
      change zeroes ++ textOf (zeroPieces (n-64)) = _
      rw [ih (n-64) (by omega), zeroes, ← List.replicate_add, ← hsum]
    · change zeroes.take n ++ [] = _
      rw [zeroes, List.take_replicate, Nat.min_eq_left (by omega), List.append_nil]
    · rw [Nat.eq_zero_of_not_pos h']
      rfl

theorem textOf_pieces (part : Part) : textOf part.pieces = part.chars := by
  cases part with
  | zero nzeroes => exact textOf_zeroPieces nzeroes
  | num v => exact List.append_nil _
  | copy buf => exact List.append_nil _

theorem passes_writeZeroes (n : ℕ) : Passes w (writeZeroes w n) o (zeroPieces n) () o o := by
  induction n using Nat.strong_induction_on with
  | _ n ih =>
    rw [writeZeroes, zeroPieces]
    split_ifs with h h'
    · exact (passes_writeStr zeroes).bind (ih (n-64) (by omega))
    · exact passes_writeStr _
    · exact passes_pure ()

theorem passes_writePart (part : Part) : Passes w (writePart w part) o part.pieces () o o := by
  cases part with
  | zero nzeroes => exact passes_writeZeroes nzeroes
  | num v => exact (passes_ofOption (numText_eq v).1).step (passes_writeStr _)
  | copy buf => exact passes_writeStr buf.chars

theorem passes_writeParts (parts : List Part) :
    Passes w (writeParts w parts) o (parts.flatMap Part.pieces) () o o := by
  induction parts with
  | nil => exact passes_pure ()
  | cons part parts ih => exact (passes_writePart part).bind ih

namespace Formatted

/-- The pieces without padding. -/
def pieces (formatted : Formatted) : List Piece :=
  (if formatted.sign.chars ≠ [] then [.str formatted.sign.chars] else []) ++
    formatted.parts.flatMap Part.pieces

/-- The text without padding. -/
def chars (formatted : Formatted) : List Char :=
  formatted.sign.chars ++ formatted.parts.flatMap Part.chars

/-- The length without a bound. -/
def total (formatted : Formatted) : ℕ :=
  formatted.sign.len+(formatted.parts.map Part.len).sum

theorem textOf_pieces (formatted : Formatted) : textOf formatted.pieces = formatted.chars := by
  have hparts (parts : List Part) :
      textOf (parts.flatMap Part.pieces) = parts.flatMap Part.chars := by
    induction parts with
    | nil => rfl
    | cons part parts ih =>
      rw [List.flatMap_cons, textOf_append, Formatting.textOf_pieces, ih, List.flatMap_cons]
  rw [pieces, chars, textOf_append, hparts]
  congr 1
  split_ifs with h
  · exact List.append_nil _
  · exact (not_not.mp h).symm

theorem passes_writeFormattedParts (formatted : Formatted) :
    Passes w (writeFormattedParts w formatted) o formatted.pieces () o o := by
  have hsign : Passes w (runIf (formatted.sign.chars ≠ []) (writeStr w formatted.sign.chars)) o
      (if formatted.sign.chars ≠ [] then [.str formatted.sign.chars] else []) () o o := by
    unfold runIf
    split_ifs
    · exact passes_writeStr _
    · exact passes_pure ()
  exact hsign.bind (passes_writeParts formatted.parts)

theorem add_formula (a b : ℕ) : Usize.add a b = if a+b < 2^64 then some (a+b) else none := rfl

theorem sumLen_formula {acc : ℕ} (hacc : acc < 2^64) (parts : List Part) :
    sumLen acc parts = if acc+(parts.map Part.len).sum < 2^64
      then some (acc+(parts.map Part.len).sum) else none := by
  induction parts generalizing acc with
  | nil => exact (if_pos hacc).symm
  | cons part parts ih =>
    rw [List.map_cons, List.sum_cons, ← Nat.add_assoc, sumLen, add_formula]
    by_cases h : acc+part.len < 2^64
    · rw [if_pos h]
      exact ih h
    · rw [if_neg h, if_neg (by omega)]
      rfl

theorem len_formula (formatted : Formatted) :
    formatted.len = if formatted.total < 2^64 then some formatted.total else none := by
  unfold total
  rw [len, sumLen_formula (by decide), Nat.zero_add]
  by_cases h : (formatted.parts.map Part.len).sum < 2^64
  · rw [if_pos h]
    exact add_formula _ _
  · rw [if_neg h, if_neg (by omega)]
    rfl

theorem sign_len (formatted : Formatted) :
    formatted.sign.len = formatted.sign.chars.length ∧ formatted.sign.len ≤ 1 := by
  unfold Str.len
  rcases formatted.sign_eq with h | h | h
  · rw [h]
    exact ⟨rfl, Nat.zero_le 1⟩
  · rw [h]
    exact ⟨rfl, le_refl 1⟩
  · rw [h]
    exact ⟨rfl, le_refl 1⟩

theorem total_unsigned (formatted : Formatted) :
    formatted.total = formatted.sign.len+formatted.unsigned.total := by
  rw [total, total]
  exact congrArg (formatted.sign.len + ·) (Nat.zero_add _).symm

end Formatted

/-! ## `pad_formatted_parts` -/

/-- What is done behind the sign. -/
def writeRest (w : Write σ) (oldOptions : FormattingOptions) (formatted : Formatted) (width : ℕ) :
    M Unit (Formatter σ) Unit := do
  let len ← ofOption formatted.len
  let ret ← writeOrPad w formatted width len
  setOptions oldOptions
  ofExcept ret

theorem passes_writeRest {old : FormattingOptions} {formatted : Formatted} {width : ℕ}
    (hfit : formatted.total < 2^64) (hwidth : width < 2^16) (ho : o = old ∨ o = old.zeroPadded) :
    Passes w (writeRest w old formatted width) o
      (paddedPieces o .right (width-formatted.total) formatted.pieces) () old
      (if width ≤ formatted.total then old else o) := by
  have hlen : formatted.len = some formatted.total := by
    rw [Formatted.len_formula, if_pos hfit]
  apply (passes_ofOption hlen).step
  unfold writeOrPad
  by_cases hle : width ≤ formatted.total
  · rw [if_pos hle, if_pos hle, Nat.sub_eq_zero_of_le hle, paddedPieces_zero]
    exact (Formatted.passes_writeFormattedParts formatted).restore
  · have hlt : formatted.total < width := Nat.lt_of_not_le hle
    rw [if_neg hle, if_neg hle, Nat.mod_eq_of_lt (hlt.trans hwidth), M.bind_assoc]
    apply (passes_ofOption (Checked.sub_eq hlt.le)).step
    rw [M.bind_assoc]
    apply Passes.padded
    rw [M.bind_assoc]
    apply (Formatted.passes_writeFormattedParts formatted).bind
    have hpost (n : ℕ) := passes_writeFill (w := w) (o := o) o.getFill n
    rcases ho with rfl | rfl
    · exact (hpost _).restore
    · -- all fill chars are in front, so nothing is written behind the parts
      rw [leftOf_zeroPadded, Nat.sub_self]
      exact (hpost 0).restore.of_nil

theorem passes_plainRest (formatted : Formatted) (hfit : formatted.total < 2^64) :
    Passes w (writeRest w o formatted o.width) o
      (paddedPieces o .right (o.width-formatted.total) formatted.pieces) () o o := by
  have h := passes_writeRest (w := w) hfit o.width_lt (.inl (Eq.refl o))
  rwa [ite_self] at h

theorem passes_zeroRest (formatted : Formatted) (n : ℕ) (hfit : formatted.total < 2^64) :
    Passes w (writeRest w o formatted (o.width-n)) o.zeroPadded
      (fillPieces '0' (o.width-n-formatted.total) ++ formatted.pieces) () o
      (if o.width-n ≤ formatted.total then o else o.zeroPadded) := by
  rw [← paddedPieces_zeroPadded]
  exact passes_writeRest hfit (lt_of_le_of_lt (Nat.sub_le _ _) o.width_lt) (.inr rfl)

theorem writeRest_overflow {old : FormattingOptions} {formatted : Formatted} {width : ℕ}
    (hfit : ¬ formatted.total < 2^64) (f : Formatter σ) :
    writeRest w old formatted width f = (.error .failed, f) := by
  unfold writeRest
  rw [Formatted.len_formula, if_neg hfit]
  rfl

section Branches

variable {formatted : Formatted}

theorem padFormattedParts_narrow (hw : o.width = 0) (b : σ) :
    padFormattedParts w formatted ⟨o, b⟩ = writeFormattedParts w formatted ⟨o, b⟩ := by
  change (if o.width = 0 then writeFormattedParts w formatted else _ >>= _ :
    M Unit (Formatter σ) Unit) ⟨o, b⟩ = _
  rw [if_pos hw]

theorem padFormattedParts_plain (h : o.signAwareZeroPad = false) (hw : o.width ≠ 0) (b : σ) :
    padFormattedParts w formatted ⟨o, b⟩ = writeRest w o formatted o.width ⟨o, b⟩ := by
  have htake : takeSign w o formatted = pure (formatted, o.width) := by
    rw [takeSign, h]
    rfl
  change (if o.width = 0 then writeFormattedParts w formatted else _ >>= _ :
    M Unit (Formatter σ) Unit) ⟨o, b⟩ = _
  rw [if_neg hw, htake]
  rfl

theorem padFormattedParts_zero (h : o.signAwareZeroPad = true) (hw : o.width ≠ 0) (b : σ) :
    padFormattedParts w formatted ⟨o, b⟩ =
      if (w.writeStr formatted.sign.chars b).1 then
        writeRest w o formatted.unsigned (o.width-formatted.sign.len)
          ⟨o.zeroPadded, (w.writeStr formatted.sign.chars b).2⟩
      else (.ok (.error ()), ⟨o, (w.writeStr formatted.sign.chars b).2⟩) := by
  have hmod : formatted.sign.len%2^16 = formatted.sign.len := by
    have := formatted.sign_len.2
    exact Nat.mod_eq_of_lt (by omega)
  have htake (f : Formatter σ) : takeSign w o formatted f = M.bind (writeStr w formatted.sign.chars)
      (fun _ => M.bind (setOptions o.zeroPadded)
        fun _ => pure (formatted.unsigned, o.width-formatted.sign.len)) f := by
    rw [takeSign, if_pos h, hmod]
    rfl
  change (if o.width = 0 then writeFormattedParts w formatted else
    M.bind (takeSign w o formatted) _ : M Unit (Formatter σ) Unit) ⟨o, b⟩ = _
  rw [if_neg hw, M.bind, htake]
  simp only [M.bind, writeStr, send]
  split_ifs
  · rfl
  · rfl

end Branches

end RustStd.Formatting
