import RustStd.Lib.Checked
import RustStd.Lib.Machine

/-!
# Reading the decimal text of a float

The functions of `core::num::dec2flt::parse` and `common` on byte slices. `none`
is a panic: an index out of range or an arithmetic overflow. Exponents and
differences of slice lengths are integers, as they are far from the limits of
their types.
-/

set_option autoImplicit false

namespace RustStd.Dec2Flt
open RustStd.Checked

structure Decimal where
  exponent : ℤ
  mantissa : ℕ
  negative : Bool
  manyDigits : Bool
  deriving DecidableEq, Repr

def min19DigitInt : ℕ := 1000000000000000000

def fromLeBytes : List UInt8 → ℕ
  | [] => 0
  | b :: bs => b.toNat+256*fromLeBytes bs

def readU64 (s : List UInt8) : Option ℕ :=
  if 8 ≤ s.length then some (fromLeBytes (s.take 8)) else none

def is8Digits (v : ℕ) : Bool :=
  let a := (v+0x4646464646464646)%2^64
  let b := (v+2^64-0x3030303030303030)%2^64
  (a ||| b) &&& 0x8080808080808080 == 0

def parse8Digits (v : ℕ) : Option ℕ := do
  let mask := 0x000000FF000000FF
  let mul1 := 0x000F424000000064
  let mul2 := 0x0000271000000001
  let v ← sub v 0x3030303030303030
  let v ← u64 (v*10+v/2^8)
  let v1 := (v &&& mask)*mul1%2^64
  let v2 := (v/2^16 &&& mask)*mul2%2^64
  return (v1+v2)%2^64/2^32%2^32

/-- `ByteSlice::parse_digits`, with the state of its closure. -/
def parseDigits {σ : Type} (f : σ → ℕ → σ) : List UInt8 → σ → List UInt8 × σ
  | [], x => ([], x)
  | c :: rest, x =>
    let d := c-48
    if d < 10 then parseDigits f rest (f x d.toNat) else (c :: rest, x)

def parseEights : List UInt8 → ℕ → Option (List UInt8 × ℕ)
  | b0 :: b1 :: b2 :: b3 :: b4 :: b5 :: b6 :: b7 :: rest, x => do
    let num ← readU64 (b0 :: b1 :: b2 :: b3 :: b4 :: b5 :: b6 :: b7 :: rest)
    if is8Digits num then
      let d ← parse8Digits num
      parseEights rest ((x*100000000%2^64+d)%2^64)
    else return (b0 :: b1 :: b2 :: b3 :: b4 :: b5 :: b6 :: b7 :: rest, x)
  | s, x => some (s, x)

def tryParseDigits (s : List UInt8) (x : ℕ) : Option (List UInt8 × ℕ) := do
  let (s, x) ← parseEights s x
  return parseDigits (fun x d => (x*10%2^64+d)%2^64) s x

def tryParse19Digits : List UInt8 → ℕ → Option (List UInt8 × ℕ)
  | [], x => some ([], x)
  | c :: rest, x =>
    if x < min19DigitInt then
      let d := c-48
      if d < 10 then do
        let x ← u64 (x*10+d.toNat)
        tryParse19Digits rest x
      else some (c :: rest, x)
    else some (c :: rest, x)

def parseScientific (s : List UInt8) : List UInt8 × Option ℤ :=
  let negative := s.head? == some 45
  let s := if s.head? = some 45 ∨ s.head? = some 43 then s.tail else s
  if s.head?.any (fun x => 48 ≤ x && x ≤ 57) then
    let (s, exponent) := parseDigits (fun (e : ℤ) d => if e < 0x10000 then 10*e+d else e) s 0
    (s, some (if negative then -exponent else exponent))
  else (s, none)

/-- The loop that takes the leading zeros off the number of digits. -/
def skipZeros : List UInt8 → ℤ → Option ℤ
  | [], n => some n
  | c :: rest, n =>
    if c = 46 ∨ c = 48 then do
      let n ← i64 (n-(c.toNat-47:ℕ))
      skipZeros rest n
    else some n

def offsetFrom (s other : List UInt8) : ℤ := other.length-s.length

def reparse19 (start intEnd : List UInt8) : Option (ℤ × ℕ) := do
  let (s, mantissa) ← tryParse19Digits start 0
  if min19DigitInt ≤ mantissa then return (offsetFrom intEnd s, mantissa)
  else
    -- `&s[1..]` steps over the dot
    let s ← (match s with | [] => none | _ :: s => some s : Option (List UInt8))
    let before := s
    let (s, mantissa) ← tryParse19Digits s mantissa
    return (-offsetFrom s before, mantissa)

def parseFraction (s : List UInt8) (mantissa : ℕ) : Option (List UInt8 × ℕ × ℤ) :=
  match s with
  | 46 :: before => do
    let (s, mantissa) ← tryParseDigits before mantissa
    return (s, mantissa, offsetFrom s before)
  | s => some (s, mantissa, 0)

def parseExponent (s : List UInt8) : List UInt8 × Option ℤ :=
  match s with
  | c :: next => if c = 101 ∨ c = 69 then parseScientific next else (c :: next, some 0)
  | [] => ([], some 0)

def parseManyDigits (start intEnd : List UInt8) (nDigits exponent expNumber : ℤ) (mantissa : ℕ) :
    Option Decimal := do
  let nDigits ← i64 (nDigits-19)
  let nDigits ← skipZeros start nDigits
  if 0 < nDigits then
    let (exponent, mantissa) ← reparse19 start intEnd
    return ⟨exponent+expNumber, mantissa, false, true⟩
  else return ⟨exponent, mantissa, false, false⟩

/-- A decimal and the number of bytes it was read from. -/
def parsePartialNumber (start : List UInt8) : Option (Option (Decimal × ℤ)) := do
  if start = [] then none
  else
    let (intEnd, mantissa) ← tryParseDigits start 0
    let (s, mantissa, nAfterDot) ← parseFraction intEnd mantissa
    let nDigits := offsetFrom intEnd start+nAfterDot
    if nDigits = 0 then return none
    else
      match parseExponent s with
      | (_, none) => return none
      | (s, some expNumber) =>
        let exponent := -nAfterDot+expNumber
        let len := offsetFrom s start
        if nDigits ≤ 19 then return some (⟨exponent, mantissa, false, false⟩, len)
        else
          let decimal ← parseManyDigits start intEnd nDigits exponent expNumber mantissa
          return some (decimal, len)

def parseNumber (s : List UInt8) : Option (Option Decimal) := do
  match ← parsePartialNumber s with
  | some (float, rest) => return if rest = s.length then some float else none
  | none => return none

/-- The special values, as what `F::INFINITY` and `F::NAN` are negated from. -/
inductive Special
  | infinity
  | nan
  deriving DecidableEq, Repr

def parseInfNan (s : List UInt8) : Option Special :=
  let masked := fun register => register &&& 0xDFDFDFDFDFDFDFDF
  if s.length = 8 then
    if masked (fromLeBytes s) = 0x5954494E49464E49 then some .infinity else none
  else if s.length = 3 then
    let register := masked (fromLeBytes s)
    if register = 0x464E49 then some .infinity
    else if register = 0x4E414E then some .nan
    else none
  else none

end RustStd.Dec2Flt
