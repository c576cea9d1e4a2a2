import RustStd.Lib.Machine

/-!
# Formatting options

The flags of the options are one word: the fill char in the low 21 bits, then the flags, whether a
width and a precision are set, and the alignment.
-/

set_option autoImplicit false

namespace RustStd.Formatting

inductive Alignment
  | left
  | right
  | center
  deriving DecidableEq, Repr

/-- The low 21 bits of the flags, `0x1FFFFF`. -/
def fillBits : BitVec 32 := 0x1FFFFF#32

def signPlusFlag : BitVec 32 := 1#32 <<< 21

def alternateFlag : BitVec 32 := 1#32 <<< 23

def signAwareZeroPadFlag : BitVec 32 := 1#32 <<< 24

def widthFlag : BitVec 32 := 1#32 <<< 27

def precisionFlag : BitVec 32 := 1#32 <<< 28

def alignBits : BitVec 32 := 0b11#32 <<< 29

def alignLeft : BitVec 32 := 0#32 <<< 29

def alignRight : BitVec 32 := 1#32 <<< 29

def alignCenter : BitVec 32 := 2#32 <<< 29

def alignUnknown : BitVec 32 := 3#32 <<< 29

def alwaysSet : BitVec 32 := 1#32 <<< 31

/-- The word with the bits of a mask replaced. -/
def replaceBits (x mask bits : BitVec 32) : BitVec 32 := x &&& ~~~mask ||| bits

theorem replaceBits_and_keep {mask bits k : BitVec 32} (x : BitVec 32) (hm : ~~~mask &&& k = k)
    (hb : bits &&& k = 0#32) : replaceBits x mask bits &&& k = x &&& k := by
  rw [replaceBits, BitVec.and_or_distrib_right, BitVec.and_assoc, hm, hb, BitVec.or_zero]

theorem replaceBits_and_mask {mask bits : BitVec 32} (x : BitVec 32) (hb : bits &&& mask = bits) :
    replaceBits x mask bits &&& mask = bits := by
  rw [replaceBits, BitVec.and_or_distrib_right, BitVec.and_assoc, BitVec.not_and_self, hb,
    BitVec.ofNat_eq_ofNat, BitVec.and_zero, BitVec.zero_or]

theorem replaceBits_self {x mask bits : BitVec 32} (h : x &&& mask = bits) :
    replaceBits x mask bits = x := by
  rw [← h]
  ext i hi
  simp only [replaceBits, BitVec.getElem_or, BitVec.getElem_and, BitVec.getElem_not]
  cases x[i] <;> cases mask[i] <;> rfl

theorem and_fillBits_toNat (x : BitVec 32) : (x &&& fillBits).toNat = x.toNat%2^21 := by
  rw [BitVec.toNat_and]
  exact Nat.and_two_pow_sub_one_eq_mod x.toNat 21

theorem allOnes_shl : BitVec.allOnes 32 <<< 21 = ~~~fillBits := by decide

theorem or_eq_replaceBits (x bits : BitVec 32) : x ||| bits = replaceBits x bits bits := by
  ext i hi
  simp only [replaceBits, BitVec.getElem_or, BitVec.getElem_and, BitVec.getElem_not]
  cases x[i] <;> cases bits[i] <;> rfl

theorem and_not_eq_replaceBits (x mask : BitVec 32) : x &&& ~~~mask = replaceBits x mask 0#32 := by
  rw [replaceBits, BitVec.or_zero]

/-- `fill as u32` -/
def fillWord (fill : Char) : BitVec 32 := fill.val.toBitVec

theorem fillWord_lt (fill : Char) : (fillWord fill).toNat < 2^21 := by
  have h := fill.valid
  change fill.val.toNat < 2^21
  rcases h with h | h
  · omega
  · omega

theorem fillWord_and_fillBits (fill : Char) : fillWord fill &&& fillBits = fillWord fill := by
  apply BitVec.eq_of_toNat_eq
  rw [and_fillBits_toNat, Nat.mod_eq_of_lt (fillWord_lt fill)]

theorem fillWord_and_eq_zero {k : BitVec 32} (fill : Char) (hk : fillBits &&& k = 0#32) :
    fillWord fill &&& k = 0#32 := by
  rw [← fillWord_and_fillBits, BitVec.and_assoc, hk, BitVec.and_zero]

@[ext]
structure FormattingOptions where
  flags : BitVec 32
  width : ℕ
  precision : ℕ
  width_lt : width < 2^16
  precision_lt : precision < 2^16
  fill_valid : (flags &&& fillBits).toNat.isValidChar
  width_unset : flags &&& widthFlag = 0#32 → width = 0
  precision_unset : flags &&& precisionFlag = 0#32 → precision = 0

namespace FormattingOptions

/-- `FormattingOptions::new` -/
def new : FormattingOptions where
  flags := fillWord ' ' ||| alignUnknown ||| alwaysSet
  width := 0
  precision := 0
  width_lt := by decide
  precision_lt := by decide
  fill_valid := by decide
  width_unset _ := rfl
  precision_unset _ := rfl

def fill (o : FormattingOptions) (fill : Char) : FormattingOptions where
  flags := o.flags &&& (BitVec.allOnes 32 <<< 21) ||| fillWord fill
  width := o.width
  precision := o.precision
  width_lt := o.width_lt
  precision_lt := o.precision_lt
  fill_valid := by
    rw [allOnes_shl, ← replaceBits, replaceBits_and_mask _ (fillWord_and_fillBits fill)]
    exact fill.valid
  width_unset := by
    rw [allOnes_shl, ← replaceBits, replaceBits_and_keep _ (by decide)
      (fillWord_and_eq_zero fill (by decide))]
    exact o.width_unset
  precision_unset := by
    rw [allOnes_shl, ← replaceBits, replaceBits_and_keep _ (by decide)
      (fillWord_and_eq_zero fill (by decide))]
    exact o.precision_unset

def alignWord : Option Alignment → BitVec 32
  | some .left => alignLeft
  | some .right => alignRight
  | some .center => alignCenter
  | none => alignUnknown

theorem alignWord_and_alignBits (align : Option Alignment) :
    alignWord align &&& alignBits = alignWord align := by
  rcases align with _ | _ | _ | _
  · decide
  · decide
  · decide
  · decide

theorem alignWord_and_eq_zero (align : Option Alignment) {k : BitVec 32}
    (hk : alignBits &&& k = 0#32) : alignWord align &&& k = 0#32 := by
  rw [← alignWord_and_alignBits, BitVec.and_assoc, hk, BitVec.and_zero]

def align (o : FormattingOptions) (align : Option Alignment) : FormattingOptions where
  flags := replaceBits o.flags alignBits (alignWord align)
  width := o.width
  precision := o.precision
  width_lt := o.width_lt
  precision_lt := o.precision_lt
  fill_valid := by
    rw [replaceBits_and_keep _ (by decide) (alignWord_and_eq_zero align (by decide))]
    exact o.fill_valid
  width_unset := by
    rw [replaceBits_and_keep _ (by decide) (alignWord_and_eq_zero align (by decide))]
    exact o.width_unset
  precision_unset := by
    rw [replaceBits_and_keep _ (by decide) (alignWord_and_eq_zero align (by decide))]
    exact o.precision_unset

/-- `FormattingOptions::width` -/
def setWidth (o : FormattingOptions) : Option (BitVec 16) → FormattingOptions
  | some width =>
    { o with
      flags := o.flags ||| widthFlag
      width := width.toNat
      width_lt := width.isLt
      fill_valid := by
        rw [or_eq_replaceBits, replaceBits_and_keep _ (by decide) (by decide)]
        exact o.fill_valid
      width_unset := by
        rw [or_eq_replaceBits, replaceBits_and_mask _ (by decide)]
        exact fun h => absurd h (by decide)
      precision_unset := by
        rw [or_eq_replaceBits, replaceBits_and_keep _ (by decide) (by decide)]
        exact o.precision_unset }
  | none =>
    { o with
      flags := o.flags &&& ~~~widthFlag
      width := 0
      width_lt := Nat.two_pow_pos 16
      fill_valid := by
        rw [and_not_eq_replaceBits, replaceBits_and_keep _ (by decide) (by decide)]
        exact o.fill_valid
      width_unset := fun _ => rfl
      precision_unset := by
        rw [and_not_eq_replaceBits, replaceBits_and_keep _ (by decide) (by decide)]
        exact o.precision_unset }

/-- `FormattingOptions::sign_aware_zero_pad` -/
def setSignAwareZeroPad (o : FormattingOptions) (signAwareZeroPad : Bool) : FormattingOptions where
  flags :=
    if signAwareZeroPad then o.flags ||| signAwareZeroPadFlag
    else o.flags &&& ~~~signAwareZeroPadFlag
  width := o.width
  precision := o.precision
  width_lt := o.width_lt
  precision_lt := o.precision_lt
  fill_valid := by
    rw [or_eq_replaceBits, and_not_eq_replaceBits, apply_ite (· &&& fillBits),
      replaceBits_and_keep _ (by decide) (by decide),
      replaceBits_and_keep _ (by decide) (by decide), ite_self]
    exact o.fill_valid
  width_unset := by
    rw [or_eq_replaceBits, and_not_eq_replaceBits, apply_ite (· &&& widthFlag),
      replaceBits_and_keep _ (by decide) (by decide),
      replaceBits_and_keep _ (by decide) (by decide), ite_self]
    exact o.width_unset
  precision_unset := by
    rw [or_eq_replaceBits, and_not_eq_replaceBits, apply_ite (· &&& precisionFlag),
      replaceBits_and_keep _ (by decide) (by decide),
      replaceBits_and_keep _ (by decide) (by decide), ite_self]
    exact o.precision_unset

def signPlus (o : FormattingOptions) : Bool := o.flags &&& signPlusFlag != 0#32

def alternate (o : FormattingOptions) : Bool := o.flags &&& alternateFlag != 0#32

def signAwareZeroPad (o : FormattingOptions) : Bool := o.flags &&& signAwareZeroPadFlag != 0#32

/-- `char::from_u32_unchecked` of the low bits. -/
def getFill (o : FormattingOptions) : Char := ⟨⟨o.flags &&& fillBits⟩, o.fill_valid⟩

def getAlign (o : FormattingOptions) : Option Alignment :=
  if o.flags &&& alignBits = alignLeft then some .left
  else if o.flags &&& alignBits = alignRight then some .right
  else if o.flags &&& alignBits = alignCenter then some .center
  else none

def getPrecision (o : FormattingOptions) : Option ℕ :=
  if o.flags &&& precisionFlag ≠ 0#32 then some o.precision else none

theorem fill_flags (o : FormattingOptions) (c : Char) :
    (o.fill c).flags = replaceBits o.flags fillBits (fillWord c) :=
  congrArg (fun mask => o.flags &&& mask ||| fillWord c) allOnes_shl

theorem getFill_fill (o : FormattingOptions) (c : Char) : (o.fill c).getFill = c := by
  apply Char.ext
  apply UInt32.toBitVec_inj.mp
  change (o.fill c).flags &&& fillBits = fillWord c
  rw [fill_flags, replaceBits_and_mask _ (fillWord_and_fillBits c)]

theorem getFill_align (o : FormattingOptions) (a : Option Alignment) :
    (o.align a).getFill = o.getFill := by
  apply Char.ext
  apply UInt32.toBitVec_inj.mp
  change replaceBits o.flags alignBits (alignWord a) &&& fillBits = o.flags &&& fillBits
  rw [replaceBits_and_keep _ (by decide) (alignWord_and_eq_zero a (by decide))]

theorem getAlign_align (o : FormattingOptions) (a : Option Alignment) :
    (o.align a).getAlign = a := by
  have h : (o.align a).flags &&& alignBits = alignWord a :=
    replaceBits_and_mask _ (alignWord_and_alignBits a)
  rw [getAlign, h]
  rcases a with _ | _ | _ | _
  · decide
  · decide
  · decide
  · decide

/-- The options under which zeros are written for padding. -/
def zeroPadded (o : FormattingOptions) : FormattingOptions := (o.fill '0').align (some .right)

theorem getFill_zeroPadded (o : FormattingOptions) : o.zeroPadded.getFill = '0' := by
  rw [zeroPadded, getFill_align, getFill_fill]

theorem getAlign_zeroPadded (o : FormattingOptions) : o.zeroPadded.getAlign = some .right :=
  getAlign_align _ _

theorem alignBits_of_getAlign {o : FormattingOptions} (h : o.getAlign = some .right) :
    o.flags &&& alignBits = alignRight := by
  by_contra hne
  unfold getAlign at h
  rw [if_neg hne] at h
  split_ifs at h
  · cases h
  · cases h

theorem zeroPadded_eq_self_iff (o : FormattingOptions) :
    o.zeroPadded = o ↔ o.getFill = '0' ∧ o.getAlign = some .right := by
  constructor
  · intro h
    rw [← h]
    exact ⟨getFill_zeroPadded o, getAlign_zeroPadded o⟩
  · rintro ⟨hf, ha⟩
    have hfill : o.flags &&& fillBits = fillWord '0' := congrArg fillWord hf
    have hflags : (o.fill '0').flags = o.flags := by
      rw [fill_flags, replaceBits_self hfill]
    apply FormattingOptions.ext
    · change replaceBits (o.fill '0').flags alignBits (alignWord (some .right)) = o.flags
      rw [hflags]
      exact replaceBits_self (alignBits_of_getAlign ha)
    · rfl
    · rfl

end FormattingOptions

end RustStd.Formatting
