import RustStd.Lib.Checked
import RustStd.Lib.Digits

/-!
# Formatting of integers

`core::fmt::num`: digits are written from the right into a buffer of bytes that
are not initialised, four or two at a time from a table in the decimal case, and
in batches of sixteen for `u128`. `none` is a panic or undefined behaviour: an
index out of the buffer, an assumption that fails, or a byte that is read and
was never written.
-/

set_option autoImplicit false

namespace RustStd.IntFmt
open RustStd.Checked RustStd.Radix

abbrev Buf := List (Option UInt8)

def uninit (len : ℕ) : Buf := List.replicate len none

def writeAt (buf : Buf) (i : ℕ) (c : UInt8) : Option Buf :=
  if i < buf.length then some (buf.set i (some c)) else none

def sliceBufferToStr (buf : Buf) (offset : ℕ) : Option (List UInt8) :=
  if offset ≤ buf.length then (buf.drop offset).mapM id else none

def assertUnchecked (c : Prop) [Decidable c] : Option Unit := if c then some () else none

/-! ## Other radices than ten -/

inductive Format
  | binary
  | octal
  | lowerHex
  | upperHex
  deriving DecidableEq, Repr

def Format.digTab : Format → List UInt8
  | binary => [48, 49]
  | octal => [48, 49, 50, 51, 52, 53, 54, 55]
  | lowerHex => [48, 49, 50, 51, 52, 53, 54, 55, 56, 57, 97, 98, 99, 100, 101, 102]
  | upperHex => [48, 49, 50, 51, 52, 53, 54, 55, 56, 57, 65, 66, 67, 68, 69, 70]

def Format.base (f : Format) : ℕ := f.digTab.length

def radixLoop (tab : List UInt8) : ℕ → Buf → ℕ → ℕ → Option (Buf × ℕ)
  | 0, _, _, _ => none
  | fuel+1, buf, offset, remain => do
    let digit := remain%tab.length
    let remain := remain/tab.length
    let offset ← sub offset 1
    assertUnchecked (offset < buf.length)
    let c ← tab[digit]?
    let buf ← writeAt buf offset c
    if remain = 0 then return (buf, offset) else radixLoop tab fuel buf offset remain

def fmtRadix (f : Format) (bits n : ℕ) : Option (List UInt8) := do
  let maxDigN := Nat.log f.base (2^bits-1)+1
  let buf := uninit maxDigN
  let (buf, offset) ← radixLoop f.digTab (maxDigN+1) buf buf.length n
  sliceBufferToStr buf offset

/-! ## Decimals -/

def decimalPairs : List UInt8 := [
  48, 48, 48, 49, 48, 50, 48, 51, 48, 52, 48, 53, 48, 54, 48, 55, 48, 56, 48, 57,
  49, 48, 49, 49, 49, 50, 49, 51, 49, 52, 49, 53, 49, 54, 49, 55, 49, 56, 49, 57,
  50, 48, 50, 49, 50, 50, 50, 51, 50, 52, 50, 53, 50, 54, 50, 55, 50, 56, 50, 57,
  51, 48, 51, 49, 51, 50, 51, 51, 51, 52, 51, 53, 51, 54, 51, 55, 51, 56, 51, 57,
  52, 48, 52, 49, 52, 50, 52, 51, 52, 52, 52, 53, 52, 54, 52, 55, 52, 56, 52, 57,
  53, 48, 53, 49, 53, 50, 53, 51, 53, 52, 53, 53, 53, 54, 53, 55, 53, 56, 53, 57,
  54, 48, 54, 49, 54, 50, 54, 51, 54, 52, 54, 53, 54, 54, 54, 55, 54, 56, 54, 57,
  55, 48, 55, 49, 55, 50, 55, 51, 55, 52, 55, 53, 55, 54, 55, 55, 55, 56, 55, 57,
  56, 48, 56, 49, 56, 50, 56, 51, 56, 52, 56, 53, 56, 54, 56, 55, 56, 56, 56, 57,
  57, 48, 57, 49, 57, 50, 57, 51, 57, 52, 57, 53, 57, 54, 57, 55, 57, 56, 57, 57]

def writePair (buf : Buf) (offset pair : ℕ) : Option Buf := do
  let c ← decimalPairs[pair*2+0]?
  let buf ← writeAt buf (offset+0) c
  let c ← decimalPairs[pair*2+1]?
  writeAt buf (offset+1) c

def writeQuad (buf : Buf) (offset quad : ℕ) : Option Buf := do
  let pair1 := quad/100
  let pair2 := quad%100
  let buf ← writePair buf offset pair1
  writePair buf (offset+2) pair2

def quadLoop (wide : Bool) : ℕ → Buf → ℕ → ℕ → Option (Buf × ℕ × ℕ)
  | 0, _, _, _ => none
  | fuel+1, buf, offset, remain =>
    if wide ∧ remain > 999 then do
      assertUnchecked (offset ≥ 4)
      assertUnchecked (offset ≤ buf.length)
      let offset := offset-4
      let quad := remain%10000
      let remain := remain/10000
      let buf ← writeQuad buf offset quad
      quadLoop wide fuel buf offset remain
    else some (buf, offset, remain)

/-- The last two digits and the last digit, if any. `zero` asks for a digit of zero. -/
def lastDigits (buf : Buf) (offset remain : ℕ) (zero : Bool) : Option (Buf × ℕ) := do
  let (buf, offset, remain) ← (if remain > 9 then do
      assertUnchecked (offset ≥ 2)
      assertUnchecked (offset ≤ buf.length)
      let offset := offset-2
      let pair := remain%100
      let remain := remain/100
      let buf ← writePair buf offset pair
      return (buf, offset, remain)
    else some (buf, offset, remain) : Option (Buf × ℕ × ℕ))
  if remain ≠ 0 ∨ zero then
    assertUnchecked (offset ≥ 1)
    assertUnchecked (offset ≤ buf.length)
    let offset := offset-1
    let last := remain &&& 15
    let c ← decimalPairs[last*2+1]?
    let buf ← writeAt buf offset c
    return (buf, offset)
  else return (buf, offset)

def fmtInner (bits : ℕ) (n : ℕ) (buf : Buf) : Option (Buf × ℕ) := do
  let (buf, offset, remain) ← quadLoop (bits > 8) (buf.length+1) buf buf.length n
  lastDigits buf offset remain (n == 0)

def inBufSmall : ℕ → Buf → ℕ → ℕ → Option (Buf × ℕ)
  | 0, _, _, _ => none
  | fuel+1, buf, curr, n => do
    let curr ← sub curr 1
    let buf ← writeAt buf curr (UInt8.ofNat (n%10)+48)
    let n := n/10
    if n = 0 then return (buf, curr) else inBufSmall fuel buf curr n

/-! ## 128 bits -/

def u128MaxDecN : ℕ := Nat.log 10 (2^128-1)+1

/-- Division by `1e16`, with the high half of a product of 256 bits. -/
def divRem1e16 (n : ℕ) : Option (ℕ × ℕ) :=
  let d := 10000000000000000
  if n < d then some (0, n%2^64)
  else do
    let mHigh := 76624777043294442917917351357515459181
    let quot := n*mHigh/2^128/2^51
    let product ← unsigned 128 (quot*d)
    let rem ← sub n product
    return (quot, rem%2^64)

def encQuads (offset : ℕ) : ℕ → Buf → ℕ → Option Buf
  | 0, buf, _ => some buf
  | quadIndex+1, buf, remain => do
    let quad := remain%10000
    let remain := remain/10000
    let buf ← writeQuad buf (quadIndex*4+offset) quad
    encQuads offset quadIndex buf remain

def enc16lsd (offset : ℕ) (buf : Buf) (n : ℕ) : Option Buf := encQuads offset 4 buf n

def splitGroups (n : ℕ) (buf : Buf) : Option (Buf × ℕ × ℕ) := do
  let (quot1e16, mod1e16) ← divRem1e16 n
  if quot1e16 = 0 then return (buf, u128MaxDecN, mod1e16)
  else
    let buf ← enc16lsd (u128MaxDecN-16) buf mod1e16
    let (quot2, mod2) ← divRem1e16 quot1e16
    if quot2 = 0 then return (buf, u128MaxDecN-16, mod2)
    else
      let buf ← enc16lsd (u128MaxDecN-32) buf mod2
      return (buf, u128MaxDecN-32, quot2%2^64)

def fmtInner128 (n : ℕ) (buf : Buf) : Option (Buf × ℕ) := do
  if n = 0 then
    let offset ← sub buf.length 1
    let buf ← writeAt buf offset 48
    return (buf, offset)
  else
    let (buf, offset, remain) ← splitGroups n buf
    let (buf, offset, remain) ← quadLoop true (buf.length+1) buf offset remain
    lastDigits buf offset remain false

/-! ## The types -/

/-- The widths of the integer types; `isize` and `usize` have 64 bits. -/
inductive Width
  | w8
  | w16
  | w32
  | w64
  | w128
  deriving DecidableEq, Repr

def Width.bits : Width → ℕ
  | w8 => 8
  | w16 => 16
  | w32 => 32
  | w64 => 64
  | w128 => 128

structure IntTy where
  width : Width
  signed : Bool
  deriving DecidableEq, Repr

namespace IntTy

def min (T : IntTy) : ℤ := if T.signed then -2^(T.width.bits-1) else 0

def max (T : IntTy) : ℤ := if T.signed then 2^(T.width.bits-1)-1 else 2^T.width.bits-1

end IntTy

def maxDecN (W : Width) : ℕ := Nat.log 10 (2^W.bits-1)+1

def fmtAbs (W : Width) (small : Bool) (n : ℕ) (buf : Buf) : Option (Buf × ℕ) :=
  match W with
  | .w128 => do
    -- the slice that ends with the buffer and has the length that `_fmt_inner` expects
    let diff ← sub buf.length u128MaxDecN
    let (inner, offset) ← fmtInner128 n (buf.drop diff)
    return (buf.take diff ++ inner, offset+diff)
  | W => if small then inBufSmall (buf.length+1) buf buf.length n else fmtInner W.bits n buf

/-- The text of `Display` with the default options of the formatter. `small` is the
feature `optimize_for_size`, whose buffer is that of `u64`. -/
def display (T : IntTy) (small : Bool) (n : ℤ) : Option (List UInt8) := do
  let len := if small ∧ T.width ≠ .w128 then maxDecN .w64 else maxDecN T.width
  let (buf, offset) ← fmtAbs T.width small n.natAbs (uninit len)
  let digits ← sliceBufferToStr buf offset
  return if n < 0 then 45 :: digits else digits

/-- `format_into` with a `NumBuffer`, which has room for forty bytes and may hold anything. -/
def formatInto (T : IntTy) (small : Bool) (n : ℤ) (numBuffer : Buf) : Option (List UInt8) := do
  let (buf, offset) ← fmtAbs T.width small n.natAbs numBuffer
  if n < 0 then
    let offset ← sub offset 1
    let buf ← writeAt buf offset 45
    sliceBufferToStr buf offset
  else sliceBufferToStr buf offset

end RustStd.IntFmt
