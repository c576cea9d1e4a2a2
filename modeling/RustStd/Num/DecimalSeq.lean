import RustStd.Num.Parse

/-!
# Decimal digit sequences

`DecimalSeq` of `core::num::dec2flt::decimal_seq`. The array of digits is a
function of the index, and an access outside of the array is a panic, as is an
index or a 64-bit accumulator that overflows. `i32` arithmetic on the decimal
point wraps, as in a build without overflow checks: texts longer than `i32::MAX`
rely on it.
-/

set_option autoImplicit false

namespace RustStd.Dec2Flt
open RustStd.Checked

structure DecimalSeq where
  numDigits : ℕ
  decimalPoint : ℤ
  truncated : Bool
  digits : ℕ → ℕ

namespace DecimalSeq

def maxDigits : ℕ := 768

def maxDigitsWithoutOverflow : ℕ := 19

def decimalPointRange : ℤ := 2047

def default : DecimalSeq := ⟨0, 0, false, fun _ => 0⟩

def get (d : DecimalSeq) (i : ℕ) : Option ℕ := if i < maxDigits then some (d.digits i) else none

def set (d : DecimalSeq) (i digit : ℕ) : Option DecimalSeq :=
  if i < maxDigits then some { d with digits := Function.update d.digits i digit } else none

def tryAddDigit (d : DecimalSeq) (digit : ℕ) : DecimalSeq :=
  { d with
    digits := if d.numDigits < maxDigits then Function.update d.digits d.numDigits digit
      else d.digits
    numDigits := d.numDigits+1 }

def trimmed (d : DecimalSeq) : ℕ → Option ℕ
  | 0 => some 0
  | n+1 => do
    let digit ← d.get n
    if digit = 0 then trimmed d n else return n+1

def trim (d : DecimalSeq) : Option DecimalSeq := do
  let n ← d.trimmed d.numDigits
  return { d with numDigits := n }

/-- The integer part: the loop over `0..dp`, from its last round backwards. -/
def intDigits (d : DecimalSeq) : ℕ → Option ℕ
  | 0 => some 0
  | i+1 => do
    let n ← intDigits d i
    let n ← u64 (n*10)
    if i < d.numDigits then
      let digit ← d.get i
      u64 (n+digit)
    else return n

def round (d : DecimalSeq) : Option ℕ := do
  if d.numDigits = 0 ∨ d.decimalPoint < 0 then return 0
  else if d.decimalPoint ≥ maxDigitsWithoutOverflow then return 0xFFFFFFFFFFFFFFFF
  else
    let dp := d.decimalPoint.toNat
    let n ← d.intDigits dp
    let roundUp ← (if dp < d.numDigits then do
        let digit ← d.get dp
        if digit = 5 ∧ dp+1 = d.numDigits then
          if d.truncated then return true
          else if dp ≠ 0 then
            let prev ← d.get (dp-1)
            return prev%2 == 1
          else return false
        else return decide (digit ≥ 5)
      else some false : Option Bool)
    if roundUp then u64 (n+1) else return n

def leftShiftTable : List ℕ := [
  0x0000, 0x0800, 0x0801, 0x0803, 0x1006, 0x1009, 0x100D, 0x1812, 0x1817, 0x181D, 0x2024,
  0x202B, 0x2033, 0x203C, 0x2846, 0x2850, 0x285B, 0x3067, 0x3073, 0x3080, 0x388E, 0x389C,
  0x38AB, 0x38BB, 0x40CC, 0x40DD, 0x40EF, 0x4902, 0x4915, 0x4929, 0x513E, 0x5153, 0x5169,
  0x5180, 0x5998, 0x59B0, 0x59C9, 0x61E3, 0x61FD, 0x6218, 0x6A34, 0x6A50, 0x6A6D, 0x6A8B,
  0x72AA, 0x72C9, 0x72E9, 0x7B0A, 0x7B2B, 0x7B4D, 0x8370, 0x8393, 0x83B7, 0x83DC, 0x8C02,
  0x8C28, 0x8C4F, 0x9477, 0x949F, 0x94C8, 0x9CF2, 0x051C, 0x051C, 0x051C, 0x051C]

set_option maxRecDepth 8000 in
def leftShiftTablePow5 : List ℕ := [
  5, 2, 5, 1, 2, 5, 6, 2, 5, 3, 1, 2, 5, 1, 5, 6, 2, 5, 7, 8, 1, 2, 5, 3, 9, 0, 6, 2, 5, 1,
  9, 5, 3, 1, 2, 5, 9, 7, 6, 5, 6, 2, 5, 4, 8, 8, 2, 8, 1, 2, 5, 2, 4, 4, 1, 4, 0, 6, 2, 5,
  1, 2, 2, 0, 7, 0, 3, 1, 2, 5, 6, 1, 0, 3, 5, 1, 5, 6, 2, 5, 3, 0, 5, 1, 7, 5, 7, 8, 1, 2,
  5, 1, 5, 2, 5, 8, 7, 8, 9, 0, 6, 2, 5, 7, 6, 2, 9, 3, 9, 4, 5, 3, 1, 2, 5, 3, 8, 1, 4, 6,
  9, 7, 2, 6, 5, 6, 2, 5, 1, 9, 0, 7, 3, 4, 8, 6, 3, 2, 8, 1, 2, 5, 9, 5, 3, 6, 7, 4, 3, 1,
  6, 4, 0, 6, 2, 5, 4, 7, 6, 8, 3, 7, 1, 5, 8, 2, 0, 3, 1, 2, 5, 2, 3, 8, 4, 1, 8, 5, 7, 9,
  1, 0, 1, 5, 6, 2, 5, 1, 1, 9, 2, 0, 9, 2, 8, 9, 5, 5, 0, 7, 8, 1, 2, 5, 5, 9, 6, 0, 4, 6,
  4, 4, 7, 7, 5, 3, 9, 0, 6, 2, 5, 2, 9, 8, 0, 2, 3, 2, 2, 3, 8, 7, 6, 9, 5, 3, 1, 2, 5, 1,
  4, 9, 0, 1, 1, 6, 1, 1, 9, 3, 8, 4, 7, 6, 5, 6, 2, 5, 7, 4, 5, 0, 5, 8, 0, 5, 9, 6, 9, 2,
  3, 8, 2, 8, 1, 2, 5, 3, 7, 2, 5, 2, 9, 0, 2, 9, 8, 4, 6, 1, 9, 1, 4, 0, 6, 2, 5, 1, 8, 6,
  2, 6, 4, 5, 1, 4, 9, 2, 3, 0, 9, 5, 7, 0, 3, 1, 2, 5, 9, 3, 1, 3, 2, 2, 5, 7, 4, 6, 1, 5,
  4, 7, 8, 5, 1, 5, 6, 2, 5, 4, 6, 5, 6, 6, 1, 2, 8, 7, 3, 0, 7, 7, 3, 9, 2, 5, 7, 8, 1, 2,
  5, 2, 3, 2, 8, 3, 0, 6, 4, 3, 6, 5, 3, 8, 6, 9, 6, 2, 8, 9, 0, 6, 2, 5, 1, 1, 6, 4, 1, 5,
  3, 2, 1, 8, 2, 6, 9, 3, 4, 8, 1, 4, 4, 5, 3, 1, 2, 5, 5, 8, 2, 0, 7, 6, 6, 0, 9, 1, 3, 4,
  6, 7, 4, 0, 7, 2, 2, 6, 5, 6, 2, 5, 2, 9, 1, 0, 3, 8, 3, 0, 4, 5, 6, 7, 3, 3, 7, 0, 3, 6,
  1, 3, 2, 8, 1, 2, 5, 1, 4, 5, 5, 1, 9, 1, 5, 2, 2, 8, 3, 6, 6, 8, 5, 1, 8, 0, 6, 6, 4, 0,
  6, 2, 5, 7, 2, 7, 5, 9, 5, 7, 6, 1, 4, 1, 8, 3, 4, 2, 5, 9, 0, 3, 3, 2, 0, 3, 1, 2, 5, 3,
  6, 3, 7, 9, 7, 8, 8, 0, 7, 0, 9, 1, 7, 1, 2, 9, 5, 1, 6, 6, 0, 1, 5, 6, 2, 5, 1, 8, 1, 8,
  9, 8, 9, 4, 0, 3, 5, 4, 5, 8, 5, 6, 4, 7, 5, 8, 3, 0, 0, 7, 8, 1, 2, 5, 9, 0, 9, 4, 9, 4,
  7, 0, 1, 7, 7, 2, 9, 2, 8, 2, 3, 7, 9, 1, 5, 0, 3, 9, 0, 6, 2, 5, 4, 5, 4, 7, 4, 7, 3, 5,
  0, 8, 8, 6, 4, 6, 4, 1, 1, 8, 9, 5, 7, 5, 1, 9, 5, 3, 1, 2, 5, 2, 2, 7, 3, 7, 3, 6, 7, 5,
  4, 4, 3, 2, 3, 2, 0, 5, 9, 4, 7, 8, 7, 5, 9, 7, 6, 5, 6, 2, 5, 1, 1, 3, 6, 8, 6, 8, 3, 7,
  7, 2, 1, 6, 1, 6, 0, 2, 9, 7, 3, 9, 3, 7, 9, 8, 8, 2, 8, 1, 2, 5, 5, 6, 8, 4, 3, 4, 1, 8,
  8, 6, 0, 8, 0, 8, 0, 1, 4, 8, 6, 9, 6, 8, 9, 9, 4, 1, 4, 0, 6, 2, 5, 2, 8, 4, 2, 1, 7, 0,
  9, 4, 3, 0, 4, 0, 4, 0, 0, 7, 4, 3, 4, 8, 4, 4, 9, 7, 0, 7, 0, 3, 1, 2, 5, 1, 4, 2, 1, 0,
  8, 5, 4, 7, 1, 5, 2, 0, 2, 0, 0, 3, 7, 1, 7, 4, 2, 2, 4, 8, 5, 3, 5, 1, 5, 6, 2, 5, 7, 1,
  0, 5, 4, 2, 7, 3, 5, 7, 6, 0, 1, 0, 0, 1, 8, 5, 8, 7, 1, 1, 2, 4, 2, 6, 7, 5, 7, 8, 1, 2,
  5, 3, 5, 5, 2, 7, 1, 3, 6, 7, 8, 8, 0, 0, 5, 0, 0, 9, 2, 9, 3, 5, 5, 6, 2, 1, 3, 3, 7, 8,
  9, 0, 6, 2, 5, 1, 7, 7, 6, 3, 5, 6, 8, 3, 9, 4, 0, 0, 2, 5, 0, 4, 6, 4, 6, 7, 7, 8, 1, 0,
  6, 6, 8, 9, 4, 5, 3, 1, 2, 5, 8, 8, 8, 1, 7, 8, 4, 1, 9, 7, 0, 0, 1, 2, 5, 2, 3, 2, 3, 3,
  8, 9, 0, 5, 3, 3, 4, 4, 7, 2, 6, 5, 6, 2, 5, 4, 4, 4, 0, 8, 9, 2, 0, 9, 8, 5, 0, 0, 6, 2,
  6, 1, 6, 1, 6, 9, 4, 5, 2, 6, 6, 7, 2, 3, 6, 3, 2, 8, 1, 2, 5, 2, 2, 2, 0, 4, 4, 6, 0, 4,
  9, 2, 5, 0, 3, 1, 3, 0, 8, 0, 8, 4, 7, 2, 6, 3, 3, 3, 6, 1, 8, 1, 6, 4, 0, 6, 2, 5, 1, 1,
  1, 0, 2, 2, 3, 0, 2, 4, 6, 2, 5, 1, 5, 6, 5, 4, 0, 4, 2, 3, 6, 3, 1, 6, 6, 8, 0, 9, 0, 8,
  2, 0, 3, 1, 2, 5, 5, 5, 5, 1, 1, 1, 5, 1, 2, 3, 1, 2, 5, 7, 8, 2, 7, 0, 2, 1, 1, 8, 1, 5,
  8, 3, 4, 0, 4, 5, 4, 1, 0, 1, 5, 6, 2, 5, 2, 7, 7, 5, 5, 5, 7, 5, 6, 1, 5, 6, 2, 8, 9, 1,
  3, 5, 1, 0, 5, 9, 0, 7, 9, 1, 7, 0, 2, 2, 7, 0, 5, 0, 7, 8, 1, 2, 5, 1, 3, 8, 7, 7, 7, 8,
  7, 8, 0, 7, 8, 1, 4, 4, 5, 6, 7, 5, 5, 2, 9, 5, 3, 9, 5, 8, 5, 1, 1, 3, 5, 2, 5, 3, 9, 0,
  6, 2, 5, 6, 9, 3, 8, 8, 9, 3, 9, 0, 3, 9, 0, 7, 2, 2, 8, 3, 7, 7, 6, 4, 7, 6, 9, 7, 9, 2,
  5, 5, 6, 7, 6, 2, 6, 9, 5, 3, 1, 2, 5, 3, 4, 6, 9, 4, 4, 6, 9, 5, 1, 9, 5, 3, 6, 1, 4, 1,
  8, 8, 8, 2, 3, 8, 4, 8, 9, 6, 2, 7, 8, 3, 8, 1, 3, 4, 7, 6, 5, 6, 2, 5, 1, 7, 3, 4, 7, 2,
  3, 4, 7, 5, 9, 7, 6, 8, 0, 7, 0, 9, 4, 4, 1, 1, 9, 2, 4, 4, 8, 1, 3, 9, 1, 9, 0, 6, 7, 3,
  8, 2, 8, 1, 2, 5, 8, 6, 7, 3, 6, 1, 7, 3, 7, 9, 8, 8, 4, 0, 3, 5, 4, 7, 2, 0, 5, 9, 6, 2,
  2, 4, 0, 6, 9, 5, 9, 5, 3, 3, 6, 9, 1, 4, 0, 6, 2, 5]

def comparePow5 (d : DecimalSeq) (numNewDigits : ℕ) : List ℕ → ℕ → Option ℕ
  | [], _ => some numNewDigits
  | p5 :: pow5, i =>
    if i ≥ d.numDigits then sub numNewDigits 1
    else do
      let digit ← d.get i
      if digit = p5 then comparePow5 d numNewDigits pow5 (i+1)
      else if digit < p5 then sub numNewDigits 1
      else return numNewDigits

def numberOfDigitsDecimalLeftShift (d : DecimalSeq) (shift : ℕ) : Option ℕ := do
  let shift := shift%64
  let xA ← leftShiftTable[shift]?
  let xB ← leftShiftTable[shift+1]?
  let numNewDigits := xA/2^11
  let pow5A := xA%2^11
  let pow5B := xB%2^11
  let count ← sub pow5B pow5A
  comparePow5 d numNewDigits ((leftShiftTablePow5.drop pow5A).take count) 0

def putDigit (d : DecimalSeq) (writeIndex remainder : ℕ) : Option DecimalSeq :=
  if writeIndex < maxDigits then d.set writeIndex (remainder%2^8)
  else some (if 0 < remainder then { d with truncated := true } else d)

def leftShiftDigits (shift : ℕ) : ℕ → ℕ → DecimalSeq → ℕ → Option (ℕ × DecimalSeq × ℕ)
  | 0, writeIndex, d, n => some (writeIndex, d, n)
  | readIndex+1, writeIndex, d, n => do
    let writeIndex ← sub writeIndex 1
    let digit ← d.get readIndex
    let digit ← shl digit shift
    let n ← u64 (n+digit)
    let quotient := n/10
    let remainder := n-10*quotient
    let d ← d.putDigit writeIndex remainder
    leftShiftDigits shift readIndex writeIndex d quotient

def leftShiftCarry : ℕ → DecimalSeq → ℕ → Option DecimalSeq
  | _, d, 0 => some d
  | 0, _, _+1 => none
  | writeIndex+1, d, n+1 => do
    let quotient := (n+1)/10
    let remainder := (n+1)-10*quotient
    let d ← d.putDigit writeIndex remainder
    leftShiftCarry writeIndex d quotient

def leftShift (d : DecimalSeq) (shift : ℕ) : Option DecimalSeq := do
  if d.numDigits = 0 then return d
  else
    let numNewDigits ← d.numberOfDigitsDecimalLeftShift shift
    let (writeIndex, d, n) ← leftShiftDigits shift d.numDigits (d.numDigits+numNewDigits) d 0
    let d ← leftShiftCarry writeIndex d n
    let d := { d with
      numDigits := min (d.numDigits+numNewDigits) maxDigits
      decimalPoint := wrapI32 (d.decimalPoint+wrapI32 numNewDigits) }
    d.trim

def scaleUp (shift : ℕ) : ℕ → ℕ → ℕ → Option (ℕ × ℕ)
  | 0, _, _ => none
  | fuel+1, n, readIndex => do
    let top ← shr n shift
    if top = 0 then
      let n ← u64 (n*10)
      scaleUp shift fuel n (readIndex+1)
    else return (n, readIndex)

/-- The loop of `right_shift` up to the first digit of the quotient; nothing is
returned when there is none. -/
def firstDigits (d : DecimalSeq) (shift : ℕ) : ℕ → ℕ → ℕ → Option (Option (ℕ × ℕ))
  | 0, _, _ => none
  | fuel+1, n, readIndex => do
    let top ← shr n shift
    if top = 0 then
      if readIndex < d.numDigits then
        let digit ← d.get readIndex
        let n ← u64 (10*n+digit)
        firstDigits d shift fuel n (readIndex+1)
      else if n = 0 then return none
      else
        let r ← scaleUp shift 64 n readIndex
        return some r
    else return some (n, readIndex)

def rightShiftDigits (shift : ℕ) : ℕ → ℕ → ℕ → DecimalSeq → ℕ → Option (ℕ × DecimalSeq × ℕ)
  | 0, _, writeIndex, d, n => some (writeIndex, d, n)
  | left+1, readIndex, writeIndex, d, n => do
    let newDigit := n/2^shift%2^8
    let digit ← d.get readIndex
    let n ← u64 (10*(n%2^shift)+digit)
    let d ← d.set writeIndex newDigit
    rightShiftDigits shift left (readIndex+1) (writeIndex+1) d n

def rightShiftRest (shift : ℕ) : ℕ → ℕ → DecimalSeq → ℕ → Option (ℕ × DecimalSeq)
  | _, writeIndex, d, 0 => some (writeIndex, d)
  | 0, _, _, _+1 => none
  | fuel+1, writeIndex, d, n+1 => do
    let newDigit := (n+1)/2^shift%2^8
    let rest ← u64 (10*((n+1)%2^shift))
    if writeIndex < maxDigits then
      let d ← d.set writeIndex newDigit
      rightShiftRest shift fuel (writeIndex+1) d rest
    else
      rightShiftRest shift fuel writeIndex (if 0 < newDigit then { d with truncated := true } else d)
        rest

def rightShift (d : DecimalSeq) (shift : ℕ) : Option DecimalSeq := do
  match ← d.firstDigits shift (d.numDigits+2) 0 0 with
  | none => return d
  | some (n, readIndex) =>
    let d := { d with decimalPoint := wrapI32 (d.decimalPoint-(wrapI32 readIndex-1)) }
    if d.decimalPoint < -decimalPointRange then
      return { d with numDigits := 0, decimalPoint := 0, truncated := false }
    else
      let (writeIndex, d, n) ← rightShiftDigits shift (d.numDigits-readIndex) readIndex 0 d n
      let (writeIndex, d) ← rightShiftRest shift 128 writeIndex d n
      trim { d with numDigits := writeIndex }

def writeU64 (d : DecimalSeq) (v : ℕ) : Option DecimalSeq :=
  if d.numDigits+8 ≤ maxDigits then
    some { d with
      digits := fun i => if d.numDigits ≤ i ∧ i < d.numDigits+8 then v/256^(i-d.numDigits)%256
        else d.digits i
      numDigits := d.numDigits+8 }
  else none

def addEights : List UInt8 → DecimalSeq → Option (List UInt8 × DecimalSeq)
  | b0 :: b1 :: b2 :: b3 :: b4 :: b5 :: b6 :: b7 :: rest, d => do
    if d.numDigits+8 < maxDigits then
      let v ← readU64 (b0 :: b1 :: b2 :: b3 :: b4 :: b5 :: b6 :: b7 :: rest)
      if is8Digits v then
        let w ← sub v 0x3030303030303030
        let d ← d.writeU64 w
        addEights rest d
      else return (b0 :: b1 :: b2 :: b3 :: b4 :: b5 :: b6 :: b7 :: rest, d)
    else return (b0 :: b1 :: b2 :: b3 :: b4 :: b5 :: b6 :: b7 :: rest, d)
  | s, d => some (s, d)

/-- The number of zeros at the end of the digits; a dot does not end them. -/
def trailingZeros : List UInt8 → ℕ
  | [] => 0
  | c :: rest => if c = 48 then trailingZeros rest+1 else if c ≠ 46 then 0 else trailingZeros rest

def parseSeqDigits (s : List UInt8) : Option (List UInt8 × DecimalSeq) :=
  let s := s.dropWhile (· == 48)
  match parseDigits tryAddDigit s default with
  | (46 :: first, d) => do
    let s := if d.numDigits = 0 then first.dropWhile (· == 48) else first
    let (s, d) ← addEights s d
    let (s, d) := parseDigits tryAddDigit s d
    return (s, { d with decimalPoint := wrapI32 (wrapI32 s.length-wrapI32 first.length) })
  | (s, d) => some (s, d)

/-- The trailing zeros are ignored and the point is put before the first digit. -/
def normalize (d : DecimalSeq) (consumed : List UInt8) : Option DecimalSeq := do
  if d.numDigits ≠ 0 then
    let nTrailingZeros := trailingZeros consumed.reverse
    let decimalPoint := wrapI32 (d.decimalPoint+wrapI32 nTrailingZeros)
    let numDigits ← sub d.numDigits nTrailingZeros
    let decimalPoint := wrapI32 (decimalPoint+wrapI32 numDigits)
    if maxDigits < numDigits then
      return { d with decimalPoint, truncated := true, numDigits := maxDigits }
    else return { d with decimalPoint, numDigits }
  else return d

def addExponent (d : DecimalSeq) (s : List UInt8) : DecimalSeq :=
  match s with
  | c :: s =>
    if c = 101 ∨ c = 69 then
      let negExp := s.head? == some 45
      let s := if s.head? = some 45 ∨ s.head? = some 43 then s.tail else s
      let (_, expNum) := parseDigits (fun (e : ℤ) k => if e < 0x10000 then 10*e+k else e) s 0
      { d with decimalPoint := wrapI32 (d.decimalPoint+if negExp then -expNum else expNum) }
    else d
  | [] => d

def parseDecimalSeq (start : List UInt8) : Option DecimalSeq := do
  let (s, d) ← parseSeqDigits start
  let d ← d.normalize (start.take (start.length-s.length))
  let d := d.addExponent s
  return { d with
    digits := fun i => if d.numDigits ≤ i ∧ i < maxDigitsWithoutOverflow then 0 else d.digits i }

end DecimalSeq

end RustStd.Dec2Flt
