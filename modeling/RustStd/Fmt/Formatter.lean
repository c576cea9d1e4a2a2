import RustStd.Fmt.Options
import RustStd.Lib.Fallible
import RustStd.Lib.Usize

/-!
# `Formatter`

A formatter has options and a writer, and each call of the writer may fail. The routines that pad
are `pad`, `pad_integral` and `pad_formatted_parts`. The panics are sums that overflow a `usize`,
and subtractions.
-/

set_option autoImplicit false

namespace RustStd.Formatting
open RustStd.Fallible RustStd.Machine

/-! ## Text -/

def byteLen (cs : List Char) : ℕ := (cs.map Char.utf8Size).sum

structure Str where
  chars : List Char
  len_le : byteLen chars ≤ isizeMax

def Str.len (s : Str) : ℕ := byteLen s.chars

def Str.empty : Str := ⟨[], Nat.zero_le _⟩

/-! ## The writer -/

structure Write (σ : Type) where
  writeStr : List Char → σ → Bool × σ
  writeChar : Char → σ → Bool × σ

structure Formatter (σ : Type) where
  options : FormattingOptions
  buf : σ

variable {σ : Type}

namespace Formatter

def send (call : σ → Bool × σ) : M Unit (Formatter σ) Unit := fun f =>
  (.ok (if (call f.buf).1 then .ok () else .error ()), ⟨f.options, (call f.buf).2⟩)

def writeStr (w : Write σ) (s : List Char) : M Unit (Formatter σ) Unit := send (w.writeStr s)

def writeChar (w : Write σ) (c : Char) : M Unit (Formatter σ) Unit := send (w.writeChar c)

def getOptions : M Unit (Formatter σ) FormattingOptions := do return (← get).options

def setOptions (o : FormattingOptions) : M Unit (Formatter σ) Unit :=
  modify fun f => { f with options := o }

end Formatter
open Formatter

/-! ## Padding -/

def writeFill (w : Write σ) (fill : Char) : ℕ → M Unit (Formatter σ) Unit
  | 0 => pure ()
  | n+1 => do
    writeChar w fill
    writeFill w fill n

structure PostPadding where
  fill : Char
  padding : ℕ

def PostPadding.write (w : Write σ) (post : PostPadding) : M Unit (Formatter σ) Unit :=
  writeFill w post.fill post.padding

def paddingLeft (padding : ℕ) : Alignment → ℕ
  | .left => 0
  | .right => padding
  | .center => padding/2

def padding (w : Write σ) (padding : ℕ) (default : Alignment) :
    M Unit (Formatter σ) PostPadding := do
  let options ← getOptions
  let align := options.getAlign.getD default
  let fill := options.getFill
  let left := paddingLeft padding align
  writeFill w fill left
  let right ← ofOption (Checked.sub padding left)
  return ⟨fill, right⟩

/-! ## `pad_integral` -/

def signOf (options : FormattingOptions) (isNonnegative : Bool) (width : ℕ) :
    Option (Option Char × ℕ) :=
  if !isNonnegative then do return (some '-', ← Usize.add width 1)
  else if options.signPlus then do return (some '+', ← Usize.add width 1)
  else some (none, width)

def prefixOf (options : FormattingOptions) (pre : Str) (width : ℕ) : Option (Option Str × ℕ) :=
  if options.alternate then do return (some pre, ← Usize.add width pre.chars.length)
  else some (none, width)

def ifSome {α : Type} : Option α → (α → M Unit (Formatter σ) Unit) → M Unit (Formatter σ) Unit
  | some a, m => m a
  | none, _ => pure ()

def writePrefix (w : Write σ) (sign : Option Char) (pre : Option Str) :
    M Unit (Formatter σ) Unit := do
  ifSome sign (writeChar w)
  ifSome pre fun pre => writeStr w pre.chars

def padIntegral (w : Write σ) (isNonnegative : Bool) (pre buf : Str) :
    M Unit (Formatter σ) Unit := do
  let oldOptions ← getOptions
  let (sign, width) ← ofOption (signOf oldOptions isNonnegative buf.len)
  let (pre, width) ← ofOption (prefixOf oldOptions pre width)
  let min := oldOptions.width
  if width ≥ min then do
    writePrefix w sign pre
    writeStr w buf.chars
  else if oldOptions.signAwareZeroPad then do
    setOptions ((oldOptions.fill '0').align (some .right))
    writePrefix w sign pre
    let rest ← ofOption (Checked.sub min (width%2^16))
    let postPadding ← padding w rest .right
    writeStr w buf.chars
    postPadding.write w
    setOptions oldOptions
  else do
    let rest ← ofOption (Checked.sub min (width%2^16))
    let postPadding ← padding w rest .right
    writePrefix w sign pre
    writeStr w buf.chars
    postPadding.write w

/-! ## `pad` -/

/-- `advance_by` of `char_indices`: what is left of the count, and the offset. -/
def advanceBy : ℕ → List Char → ℕ → ℕ × ℕ
  | 0, _, offset => (0, offset)
  | n+1, [], offset => (n+1, offset)
  | n+1, c::cs, offset => advanceBy n cs (offset+c.utf8Size)

/-- `s.get_unchecked(..offset)`, where the offset has to be between two chars. -/
def getTo : List Char → ℕ → Option (List Char)
  | _, 0 => some []
  | [], _+1 => none
  | c::cs, n+1 =>
    if c.utf8Size ≤ n+1 then (getTo cs (n+1-c.utf8Size)).map (c :: ·) else none

def truncated (options : FormattingOptions) (s : List Char) : Option (List Char × ℕ) :=
  match options.getPrecision with
  | some maxCharCount => do
    let (remaining, offset) := advanceBy maxCharCount s 0
    let text ← getTo s offset
    return (text, ← Checked.sub maxCharCount remaining)
  | none => some (s, s.length)

def pad (w : Write σ) (s : List Char) : M Unit (Formatter σ) Unit := do
  let options ← getOptions
  if options.flags &&& (widthFlag ||| precisionFlag) = 0#32 then writeStr w s
  else do
    let (text, charCount) ← ofOption (truncated options s)
    if charCount < options.width then do
      let rest ← ofOption (Checked.sub options.width (charCount%2^16))
      let postPadding ← padding w rest .left
      writeStr w text
      postPadding.write w
    else writeStr w text

/-! ## Formatted parts -/

inductive Part
  | zero (nzeroes : ℕ)
  | num (v : BitVec 16)
  | copy (buf : Str)

def lessThan5 (val : ℕ) : ℕ :=
  (((val+393206) &&& (val+524188)) ^^^ ((val+916504) &&& (val+514288))) >>> 17

def checkedIlog10 (v : BitVec 16) : Option ℕ :=
  if v = 0#16 then none else some (lessThan5 v.toNat)

def Part.len : Part → ℕ
  | .zero nzeroes => nzeroes
  | .num v => (checkedIlog10 v).getD 0+1
  | .copy buf => buf.len

structure Formatted where
  sign : Str
  parts : List Part
  sign_eq : sign.chars = [] ∨ sign.chars = ['-'] ∨ sign.chars = ['+']

def sumLen (acc : ℕ) : List Part → Option ℕ
  | [] => some acc
  | part::parts => do
    let acc ← Usize.add acc part.len
    sumLen acc parts

def Formatted.len (formatted : Formatted) : Option ℕ := do
  let sum ← sumLen 0 formatted.parts
  Usize.add formatted.sign.len sum

def lastDigits : ℕ → ℕ → List Char
  | 0, _ => []
  | len+1, v => lastDigits len (v/10) ++ [Char.ofNat ('0'.toNat+v%10)]

def numText (v : BitVec 16) : Option (List Char) :=
  let len := (Part.num v).len
  if len ≤ 5 then some (lastDigits len v.toNat) else none

def zeroes : List Char := List.replicate 64 '0'

def writeZeroes (w : Write σ) (nzeroes : ℕ) : M Unit (Formatter σ) Unit :=
  if 64 < nzeroes then do
    writeStr w zeroes
    writeZeroes w (nzeroes-64)
  else if 0 < nzeroes then writeStr w (zeroes.take nzeroes)
  else pure ()
  termination_by nzeroes

def writePart (w : Write σ) : Part → M Unit (Formatter σ) Unit
  | .zero nzeroes => writeZeroes w nzeroes
  | .num v => do writeStr w (← ofOption (numText v))
  | .copy buf => writeStr w buf.chars

def writeParts (w : Write σ) : List Part → M Unit (Formatter σ) Unit
  | [] => pure ()
  | part::parts => do
    writePart w part
    writeParts w parts

def writeFormattedParts (w : Write σ) (formatted : Formatted) : M Unit (Formatter σ) Unit := do
  runIf (formatted.sign.chars ≠ []) (writeStr w formatted.sign.chars)
  writeParts w formatted.parts

def Formatted.unsigned (formatted : Formatted) : Formatted := ⟨Str.empty, formatted.parts, .inl rfl⟩

/-- For the zero padding the sign goes first, and what is left has none. -/
def takeSign (w : Write σ) (options : FormattingOptions) (formatted : Formatted) :
    M Unit (Formatter σ) (Formatted × ℕ) :=
  if options.signAwareZeroPad then do
    writeStr w formatted.sign.chars
    setOptions ((options.fill '0').align (some .right))
    return (formatted.unsigned, options.width-formatted.sign.len%2^16)
  else return (formatted, options.width)

/-- What is in `ret`; the other errors return at once. -/
def writeOrPad (w : Write σ) (formatted : Formatted) (width len : ℕ) :
    M Unit (Formatter σ) (Except Unit Unit) :=
  if width ≤ len then attempt (writeFormattedParts w formatted)
  else do
    let rest ← ofOption (Checked.sub width (len%2^16))
    let postPadding ← padding w rest .right
    writeFormattedParts w formatted
    attempt (postPadding.write w)

def padFormattedParts (w : Write σ) (formatted : Formatted) : M Unit (Formatter σ) Unit := do
  let oldOptions ← getOptions
  if oldOptions.width = 0 then writeFormattedParts w formatted
  else do
    let (formatted, width) ← takeSign w oldOptions formatted
    let len ← ofOption formatted.len
    let ret ← writeOrPad w formatted width len
    setOptions oldOptions
    ofExcept ret

end RustStd.Formatting
