import RustStd.Fmt.Formatter

/-!
# What padding writes

A routine hands pieces of text to the writer, one after the other, until one of them is refused.
The pieces do not depend on the writer, so they say what the routine writes.
-/

set_option autoImplicit false

namespace RustStd.Formatting
open RustStd.Fallible RustStd.Machine Formatter FormattingOptions

variable {σ α β : Type} {w : Write σ} {o o₁ o₂ e : FormattingOptions}

/-! ## Pieces -/

inductive Piece
  | str (s : List Char)
  | char (c : Char)

def Piece.text : Piece → List Char
  | .str s => s
  | .char c => [c]

def textOf (ps : List Piece) : List Char := ps.flatMap Piece.text

namespace Write

def accept (w : Write σ) : Piece → σ → Bool × σ
  | .str s => w.writeStr s
  | .char c => w.writeChar c

/-- The pieces in turn, up to the first that is refused. -/
def acceptAll (w : Write σ) : List Piece → σ → Bool × σ
  | [], b => (true, b)
  | p::ps, b => if (w.accept p b).1 then w.acceptAll ps (w.accept p b).2 else w.accept p b

theorem acceptAll_singleton (w : Write σ) (p : Piece) (b : σ) :
    w.acceptAll [p] b = w.accept p b := by
  rw [acceptAll, acceptAll]
  rcases w.accept p b with ⟨_ | _, _⟩
  · rfl
  · rfl

theorem acceptAll_append (w : Write σ) (ps qs : List Piece) (b : σ) :
    w.acceptAll (ps++qs) b =
      if (w.acceptAll ps b).1 then w.acceptAll qs (w.acceptAll ps b).2 else w.acceptAll ps b := by
  induction ps generalizing b with
  | nil => rfl
  | cons p ps ih =>
    rw [List.cons_append, acceptAll, acceptAll]
    split_ifs with h
    · rw [ih, if_pos (by assumption)]
    · rw [ih, if_neg (by assumption)]
    · rfl

end Write

/-- From the options `o`, `m` hands over the pieces. If all are accepted it returns `a` and leaves the
options `o₁`; otherwise it returns an error and leaves the options `e`. -/
def Passes (w : Write σ) (m : M Unit (Formatter σ) α) (o : FormattingOptions) (ps : List Piece)
    (a : α) (o₁ e : FormattingOptions) : Prop :=
  ∀ b, m ⟨o, b⟩ = (.ok (if (w.acceptAll ps b).1 then .ok a else .error ()),
    ⟨if (w.acceptAll ps b).1 then o₁ else e, (w.acceptAll ps b).2⟩)

theorem passes_pure (a : α) : Passes w (pure a) o [] a o e := fun _ => rfl

theorem passes_setOptions : Passes w (setOptions o₁) o [] () o₁ e := fun _ => rfl

theorem Passes.bind {m : M Unit (Formatter σ) α} {k : α → M Unit (Formatter σ) β} {a : α} {c : β}
    {ps qs : List Piece} (hm : Passes w m o ps a o₁ e) (hk : Passes w (k a) o₁ qs c o₂ e) :
    Passes w (m >>= k) o (ps++qs) c o₂ e := by
  intro b
  change M.bind m k ⟨o, b⟩ = _
  rw [M.bind, hm b, Write.acceptAll_append]
  by_cases h : (w.acceptAll ps b).1 = true
  · simp only [if_pos h]
    exact hk _
  · simp only [if_neg h]

theorem Passes.step {m : M Unit (Formatter σ) α} {k : α → M Unit (Formatter σ) β} {a : α} {c : β}
    {qs : List Piece} (hm : Passes w m o [] a o₁ e) (hk : Passes w (k a) o₁ qs c o₂ e) :
    Passes w (m >>= k) o qs c o₂ e :=
  hm.bind hk

theorem passes_getOptions : Passes w getOptions o [] o o e := fun _ => rfl

theorem passes_ofOption {x : Option α} {a : α} (h : x = some a) :
    Passes w (ofOption x) o [] a o e := by
  rw [h]
  exact passes_pure a

theorem Passes.of_nil {m : M Unit (Formatter σ) α} {a : α} {e' : FormattingOptions}
    (h : Passes w m o [] a o₁ e) : Passes w m o [] a o₁ e' := fun b => h b

theorem passes_send (p : Piece) : Passes w (send (w.accept p)) o [p] () o o := by
  intro b
  rw [w.acceptAll_singleton, ite_self]
  rfl

theorem passes_writeStr (s : List Char) : Passes w (writeStr w s) o [.str s] () o o :=
  passes_send (.str s)

theorem passes_writeChar (c : Char) : Passes w (writeChar w c) o [.char c] () o o :=
  passes_send (.char c)

theorem Passes.restore {m : M Unit (Formatter σ) α} {a : α} {ps : List Piece}
    (h : Passes w m o ps a o₁ e) :
    Passes w (attempt m >>= fun ret => do setOptions o₂; ofExcept ret) o ps a o₂ o₂ := by
  intro b
  change M.bind (attempt m) _ ⟨o, b⟩ = _
  rw [M.bind, attempt, h b, ite_self]
  split_ifs
  · rfl
  · rfl

/-! ## Fill chars -/

def fillPieces (fill : Char) (n : ℕ) : List Piece := List.replicate n (.char fill)

theorem textOf_append (ps qs : List Piece) : textOf (ps++qs) = textOf ps ++ textOf qs :=
  List.flatMap_append

theorem textOf_fillPieces (fill : Char) (n : ℕ) :
    textOf (fillPieces fill n) = List.replicate n fill := by
  induction n with
  | zero => rfl
  | succ n ih => exact congrArg (fill :: ·) ih

theorem passes_writeFill (fill : Char) (n : ℕ) :
    Passes w (writeFill w fill n) o (fillPieces fill n) () o o := by
  induction n with
  | zero => exact passes_pure ()
  | succ n ih => exact (passes_writeChar fill).bind ih

theorem paddingLeft_le (n : ℕ) (align : Alignment) : paddingLeft n align ≤ n := by
  cases align with
  | left => exact Nat.zero_le n
  | right => exact le_refl n
  | center => exact Nat.div_le_self n 2

/-- The fill chars in front. -/
def leftOf (o : FormattingOptions) (default : Alignment) (n : ℕ) : ℕ :=
  paddingLeft n (o.getAlign.getD default)

theorem passes_padding (n : ℕ) (default : Alignment) :
    Passes w (padding w n default) o (fillPieces o.getFill (leftOf o default n))
      ⟨o.getFill, n-leftOf o default n⟩ o o := by
  apply passes_getOptions.step
  rw [← List.append_nil (fillPieces _ _)]
  apply (passes_writeFill _ _).bind
  apply (passes_ofOption (Checked.sub_eq (paddingLeft_le n _))).step
  exact passes_pure _

/-- Content with fill chars around it. -/
def paddedPieces (o : FormattingOptions) (default : Alignment) (n : ℕ) (content : List Piece) :
    List Piece :=
  fillPieces o.getFill (leftOf o default n) ++
    (content ++ fillPieces o.getFill (n-leftOf o default n))

theorem paddedPieces_zero (default : Alignment) (content : List Piece) :
    paddedPieces o default 0 content = content := by
  have h : leftOf o default 0 = 0 := Nat.le_zero.mp (paddingLeft_le 0 _)
  rw [paddedPieces, h]
  exact List.append_nil content

theorem Passes.padded {n : ℕ} {default : Alignment} {k : PostPadding → M Unit (Formatter σ) β}
    {c : β} {content : List Piece}
    (h : Passes w (k ⟨o.getFill, n-leftOf o default n⟩) o
      (content ++ fillPieces o.getFill (n-leftOf o default n)) c o₁ o) :
    Passes w (padding w n default >>= k) o (paddedPieces o default n content) c o₁ o :=
  (passes_padding n default).bind h

/-! ## `pad` -/

/-- The chars up to the precision. -/
def shownChars (o : FormattingOptions) (s : List Char) : List Char :=
  match o.getPrecision with
  | some max => s.take max
  | none => s

theorem byteLen_cons (c : Char) (cs : List Char) : byteLen (c::cs) = c.utf8Size+byteLen cs :=
  List.sum_cons

theorem length_le_byteLen (cs : List Char) : cs.length ≤ byteLen cs := by
  induction cs with
  | nil => exact Nat.zero_le _
  | cons c cs ih =>
    have := c.utf8Size_pos
    rw [byteLen_cons, List.length_cons]
    omega

theorem advanceBy_formula (n : ℕ) (cs : List Char) (offset : ℕ) :
    advanceBy n cs offset = (n-cs.length, offset+byteLen (cs.take n)) := by
  induction n generalizing cs offset with
  | zero => rw [advanceBy, Nat.zero_sub, List.take_zero]; rfl
  | succ n ih =>
    cases cs with
    | nil => rfl
    | cons c cs =>
      rw [advanceBy, ih, List.take_succ_cons, byteLen_cons, List.length_cons,
        Nat.add_sub_add_right, Nat.add_assoc]

theorem getTo_byteLen (cs cs' : List Char) : getTo (cs++cs') (byteLen cs) = some cs := by
  induction cs with
  | nil => cases cs' <;> rfl
  | cons c cs ih =>
    obtain ⟨k, hk⟩ := Nat.exists_eq_succ_of_ne_zero (by
      have := c.utf8Size_pos
      rw [byteLen_cons]
      omega : byteLen (c::cs) ≠ 0)
    have hsum := byteLen_cons c cs
    have hsub : k+1-c.utf8Size = byteLen cs := by omega
    rw [hk, List.cons_append, getTo, if_pos (by omega), hsub, ih]
    rfl

theorem truncated_eq (s : List Char) :
    truncated o s = some (shownChars o s, (shownChars o s).length) := by
  unfold truncated shownChars
  rcases o.getPrecision with _ | max
  · rfl
  · have hget := getTo_byteLen (s.take max) (s.drop max)
    rw [List.take_append_drop] at hget
    simp only [advanceBy_formula, Nat.zero_add, hget, some_bind]
    rw [Checked.sub_eq (Nat.sub_le _ _), List.length_take]
    simp only [some_bind]
    rw [Nat.sub_sub_eq_min]
    rfl

theorem width_precision_of_flags (h : o.flags &&& (widthFlag ||| precisionFlag) = 0#32) :
    o.width = 0 ∧ o.getPrecision = none := by
  rw [BitVec.and_or_distrib_left, BitVec.or_eq_zero_iff] at h
  refine ⟨o.width_unset h.1, ?_⟩
  rw [getPrecision, if_neg (not_not.mpr h.2)]

def padPieces (o : FormattingOptions) (s : List Char) : List Piece :=
  paddedPieces o .left (o.width-(shownChars o s).length) [.str (shownChars o s)]

theorem passes_pad (s : List Char) : Passes w (pad w s) o (padPieces o s) () o o := by
  unfold pad padPieces
  apply passes_getOptions.step
  split_ifs with hflags
  · obtain ⟨hw, hp⟩ := width_precision_of_flags hflags
    rw [hw, Nat.zero_sub, paddedPieces_zero, shownChars, hp]
    exact passes_writeStr s
  · apply (passes_ofOption (truncated_eq s)).step
    dsimp only
    split_ifs with hlt
    · have hmod : (shownChars o s).length%2^16 = (shownChars o s).length :=
        Nat.mod_eq_of_lt (hlt.trans o.width_lt)
      rw [hmod]
      apply (passes_ofOption (Checked.sub_eq hlt.le)).step
      apply Passes.padded
      exact (passes_writeStr _).bind (passes_writeFill _ _)
    · rw [Nat.sub_eq_zero_of_le (Nat.le_of_not_lt hlt), paddedPieces_zero]
      exact passes_writeStr _

/-! ## `pad_integral` -/

def signChar (o : FormattingOptions) (isNonnegative : Bool) : Option Char :=
  if !isNonnegative then some '-' else if o.signPlus then some '+' else none

def shownPrefix (o : FormattingOptions) (pre : Str) : Option Str :=
  if o.alternate then some pre else none

def prefixChars (pre : Option Str) : List Char := (pre.map Str.chars).getD []

/-- The sign and the prefix. -/
def headChars (o : FormattingOptions) (isNonnegative : Bool) (pre : Str) : List Char :=
  (signChar o isNonnegative).toList ++ prefixChars (shownPrefix o pre)

/-- The width that `pad_integral` computes: `buf` counts with its bytes. -/
def integralWidth (o : FormattingOptions) (isNonnegative : Bool) (pre buf : Str) : ℕ :=
  buf.len+(headChars o isNonnegative pre).length

theorem signOf_eq {isNonnegative : Bool} {width : ℕ} (h : width+1 < 2^64) :
    signOf o isNonnegative width = some (signChar o isNonnegative,
      width+(signChar o isNonnegative).toList.length) := by
  unfold signOf signChar
  rw [Usize.add_eq h]
  split_ifs
  · rfl
  · rfl
  · rfl

theorem prefixOf_eq {pre : Str} {width : ℕ} (h : width+pre.chars.length < 2^64) :
    prefixOf o pre width = some (shownPrefix o pre,
      width+(prefixChars (shownPrefix o pre)).length) := by
  unfold prefixOf shownPrefix
  rw [Usize.add_eq h]
  split_ifs
  · rfl
  · rfl

def headPieces (sign : Option Char) (pre : Option Str) : List Piece :=
  sign.toList.map .char ++ pre.toList.map fun pre => .str pre.chars

theorem textOf_headPieces (sign : Option Char) (pre : Option Str) :
    textOf (headPieces sign pre) = sign.toList ++ prefixChars pre := by
  rcases sign with _ | c <;> rcases pre with _ | pre
  · rfl
  · exact List.append_nil _
  · rfl
  · exact congrArg (c :: ·) (List.append_nil _)

theorem passes_ifSome {x : Option α} {m : α → M Unit (Formatter σ) Unit} {p : α → Piece}
    (h : ∀ a, Passes w (m a) o [p a] () o o) : Passes w (ifSome x m) o (x.toList.map p) () o o := by
  cases x with
  | none => exact passes_pure ()
  | some a => exact h a

theorem passes_writePrefix (sign : Option Char) (pre : Option Str) :
    Passes w (writePrefix w sign pre) o (headPieces sign pre) () o o :=
  (passes_ifSome passes_writeChar).bind (passes_ifSome fun pre => passes_writeStr pre.chars)

/-- The branch in which the options are overwritten. -/
def ZeroPads (o : FormattingOptions) (natural : ℕ) : Prop :=
  o.signAwareZeroPad = true ∧ natural < o.width

instance (natural : ℕ) : Decidable (ZeroPads o natural) := inferInstanceAs (Decidable (_ ∧ _))

def integralPieces (o : FormattingOptions) (isNonnegative : Bool) (pre buf : Str) : List Piece :=
  let missing := o.width-integralWidth o isNonnegative pre buf
  let head := headPieces (signChar o isNonnegative) (shownPrefix o pre)
  if ZeroPads o (integralWidth o isNonnegative pre buf) then
    head ++ fillPieces '0' missing ++ [.str buf.chars]
  else paddedPieces o .right missing (head ++ [.str buf.chars])

theorem leftOf_zeroPadded (default : Alignment) (n : ℕ) : leftOf o.zeroPadded default n = n := by
  rw [leftOf, getAlign_zeroPadded]
  rfl

theorem paddedPieces_zeroPadded (default : Alignment) (n : ℕ) (content : List Piece) :
    paddedPieces o.zeroPadded default n content = fillPieces '0' n ++ content := by
  rw [paddedPieces, leftOf_zeroPadded, getFill_zeroPadded, Nat.sub_self]
  exact congrArg (_ ++ ·) (List.append_nil content)

theorem passes_zeroPadded {n : ℕ} {buf : List Char} :
    Passes w (do
      let postPadding ← padding w n .right
      writeStr w buf
      postPadding.write w
      setOptions o₁) o.zeroPadded (fillPieces '0' n ++ [.str buf]) () o₁ o.zeroPadded := by
  have hpad := passes_padding (w := w) (o := o.zeroPadded) n .right
  rw [leftOf_zeroPadded, getFill_zeroPadded, Nat.sub_self] at hpad
  apply hpad.bind
  rw [← List.append_nil [_]]
  apply (passes_writeStr buf).bind
  exact (passes_pure ()).step passes_setOptions

theorem passes_padIntegral (isNonnegative : Bool) (pre buf : Str) :
    Passes w (padIntegral w isNonnegative pre buf) o (integralPieces o isNonnegative pre buf) () o
      (if ZeroPads o (integralWidth o isNonnegative pre buf) then o.zeroPadded else o) := by
  have hbuf := buf.len_le
  have hpre := (length_le_byteLen pre.chars).trans pre.len_le
  have hsign : (signChar o isNonnegative).toList.length ≤ 1 := by
    cases signChar o isNonnegative
    · exact Nat.zero_le 1
    · exact le_refl 1
  unfold isizeMax at hbuf hpre
  have hnatural : buf.len+(signChar o isNonnegative).toList.length+
      (prefixChars (shownPrefix o pre)).length = integralWidth o isNonnegative pre buf := by
    rw [integralWidth, headChars, List.length_append, Nat.add_assoc]
  unfold padIntegral integralPieces
  apply passes_getOptions.step
  apply (passes_ofOption (signOf_eq (by unfold Str.len; omega))).step
  dsimp only
  apply (passes_ofOption (prefixOf_eq (by unfold Str.len; omega))).step
  dsimp only
  rw [hnatural]
  generalize integralWidth o isNonnegative pre buf = natural
  have hmod (hlt : natural < o.width) : Checked.sub o.width (natural%2^16) =
      some (o.width-natural) := by
    rw [Nat.mod_eq_of_lt (hlt.trans o.width_lt), Checked.sub_eq hlt.le]
  by_cases hge : natural ≥ o.width
  · have hz : ¬ ZeroPads o natural := fun h => absurd h.2 (not_lt.mpr hge)
    rw [if_pos hge, if_neg hz, if_neg hz, Nat.sub_eq_zero_of_le hge, paddedPieces_zero]
    exact (passes_writePrefix _ _).bind (passes_writeStr _)
  · have hlt : natural < o.width := Nat.lt_of_not_le hge
    rw [if_neg hge]
    by_cases hzero : o.signAwareZeroPad = true
    · have hz : ZeroPads o natural := ⟨hzero, hlt⟩
      rw [if_pos hzero, if_pos hz, if_pos hz, List.append_assoc]
      have hset : Passes w (setOptions o.zeroPadded) o [] () o.zeroPadded o.zeroPadded :=
        passes_setOptions
      apply hset.step
      apply (passes_writePrefix _ _).bind
      apply (passes_ofOption (hmod hlt)).step
      exact passes_zeroPadded
    · have hz : ¬ ZeroPads o natural := fun h => absurd h.1 hzero
      rw [if_neg hzero, if_neg hz, if_neg hz]
      apply (passes_ofOption (hmod hlt)).step
      apply Passes.padded
      rw [List.append_assoc]
      apply (passes_writePrefix _ _).bind
      exact (passes_writeStr _).bind (passes_writeFill _ _)

end RustStd.Formatting
