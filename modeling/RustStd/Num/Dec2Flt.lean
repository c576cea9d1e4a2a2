import RustStd.Num.DecimalSeq
import RustStd.Num.FloatOps
import RustStd.Num.Lemire

/-!
# The slow path

`parse_long_mantissa` of `core::num::dec2flt::slow`: the decimal is shifted into
the range of the mantissa, digit by digit, and then rounded. The three loops
have an explicit number of rounds.
-/

set_option autoImplicit false

namespace RustStd.Dec2Flt
open RustStd.Checked RustStd.Lemire

def maxShift : ℕ := 60

def numPowers : ℕ := 19

def powers : List ℕ := [0, 3, 6, 9, 13, 16, 19, 23, 26, 29, 33, 36, 39, 43, 46, 49, 53, 56, 59]

def getShift (n : ℕ) : Option ℕ := if n < numPowers then powers[n]? else some maxShift

/-- A loop of `parse_long_mantissa`: the decimal and the exponent after it, or a
result that is already known. -/
abbrev Shifted := (DecimalSeq × ℤ) ⊕ BiasedFp

def shiftRightLoop : ℕ → DecimalSeq → ℤ → Option Shifted
  | 0, _, _ => none
  | fuel+1, d, exp2 => do
    if d.decimalPoint > 0 then
      let shift ← getShift d.decimalPoint.toNat
      let d ← d.rightShift shift
      if d.decimalPoint < -DecimalSeq.decimalPointRange then return .inr (.zeroPow2 0)
      else
        let exp2 ← i32 (exp2+shift)
        shiftRightLoop fuel d exp2
    else return .inl (d, exp2)

def shiftLeftLoop (F : RawFloat) : ℕ → DecimalSeq → ℤ → Option Shifted
  | 0, _, _ => none
  | fuel+1, d, exp2 => do
    if d.decimalPoint ≤ 0 then
      let first ← d.get 0
      if d.decimalPoint = 0 ∧ first ≥ 5 then return .inl (d, exp2)
      else
        let shift ← (if d.decimalPoint = 0 then some (if first ≤ 1 then 2 else 1)
          else getShift (-d.decimalPoint).toNat : Option ℕ)
        let d ← d.leftShift shift
        if d.decimalPoint > DecimalSeq.decimalPointRange then
          return .inr (.zeroPow2 F.infinitePower)
        else
          let exp2 ← i32 (exp2-shift)
          shiftLeftLoop F fuel d exp2
    else return .inl (d, exp2)

def subnormalLoop (F : RawFloat) : ℕ → DecimalSeq → ℤ → Option (DecimalSeq × ℤ)
  | 0, _, _ => none
  | fuel+1, d, exp2 => do
    if F.expMin > exp2 then
      let n := min (F.expMin-exp2).toNat maxShift
      let d ← d.rightShift n
      let exp2 ← i32 (exp2+n)
      subnormalLoop F fuel d exp2
    else return (d, exp2)

def seqFields (F : RawFloat) (mantissa : ℕ) (exp2 : ℤ) : Option BiasedFp := do
  let hidden ← shl 1 F.sigBits
  let power2 ← i32 (exp2-F.expMin+1)
  let power2 := if mantissa < hidden then power2-1 else power2
  return ⟨mantissa%hidden, power2⟩

/-- The end of `parse_long_mantissa`, from the decimal in `[1/2 ... 1]` on. -/
def roundSeq (F : RawFloat) (d : DecimalSeq) (exp2 : ℤ) : Option BiasedFp := do
  let fpInf := BiasedFp.zeroPow2 F.infinitePower
  let exp2 ← i32 (exp2-1)
  let (d, exp2) ← subnormalLoop F 64 d exp2
  if exp2-F.expMin+1 ≥ F.infinitePower then return fpInf
  else
    let d ← d.leftShift (F.sigBits+1)
    let mantissa ← d.round
    let overflow ← shl 1 (F.sigBits+1:ℕ)
    if mantissa ≥ overflow then
      let d ← d.rightShift 1
      let exp2 ← i32 (exp2+1)
      let mantissa ← d.round
      if exp2-F.expMin+1 ≥ F.infinitePower then return fpInf
      else seqFields F mantissa exp2
    else seqFields F mantissa exp2

def shiftAndRound (F : RawFloat) (d : DecimalSeq) : Option BiasedFp := do
  match ← shiftRightLoop 2048 d 0 with
  | .inr fp => return fp
  | .inl (d, exp2) =>
    match ← shiftLeftLoop F 2048 d exp2 with
    | .inr fp => return fp
    | .inl (d, exp2) => roundSeq F d exp2

def parseLongMantissa (F : RawFloat) (s : List UInt8) : Option BiasedFp := do
  let fpZero := BiasedFp.zeroPow2 0
  let fpInf := BiasedFp.zeroPow2 F.infinitePower
  let d ← DecimalSeq.parseDecimalSeq s
  if d.numDigits = 0 ∨ d.decimalPoint < -324 then return fpZero
  else if d.decimalPoint ≥ 310 then return fpInf
  else shiftAndRound F d

end RustStd.Dec2Flt

/-! ## `dec2flt`

The fast path of `Decimal` and the function that puts the algorithms together.
Floats are bit patterns. `none` is a panic; the feature `optimize_for_size`,
which leaves the fast path out, is a parameter.
-/

namespace RustStd.Dec2Flt
open RustStd.Checked RustStd.Lemire

def intPow10 : List ℕ := [
  1, 10, 100, 1000, 10000, 100000, 1000000, 10000000, 100000000, 1000000000, 10000000000,
  100000000000, 1000000000000, 10000000000000, 100000000000000, 1000000000000000]

namespace Decimal

def canUseFastPath (F : RawFloat) (num : Decimal) : Bool :=
  F.minExponentFastPath ≤ num.exponent && num.exponent ≤ F.maxExponentDisguisedFastPath &&
    num.mantissa ≤ F.maxMantissaFastPath && !num.manyDigits

def fastPathValue (F : RawFloat) (num : Decimal) : Option (Option ℕ) := do
  if num.exponent ≤ F.maxExponentFastPath then
    let value ← F.fromU64 num.mantissa
    if num.exponent < 0 then
      let power ← F.pow10FastPath (-num.exponent).toNat
      return some (F.div value power)
    else
      let power ← F.pow10FastPath num.exponent.toNat
      return some (F.mul value power)
  else
    -- powers of ten are shifted from the exponent to the digits
    let shift := num.exponent-F.maxExponentFastPath
    let factor ← intPow10[shift.toNat]?
    match u64 (num.mantissa*factor) with
    | none => return none
    | some mantissa =>
      if mantissa > F.maxMantissaFastPath then return none
      else
        let value ← F.fromU64 mantissa
        let power ← F.pow10FastPath F.maxExponentFastPath.toNat
        return some (F.mul value power)

def tryFastPath (F : RawFloat) (num : Decimal) : Option (Option ℕ) := do
  if num.canUseFastPath F then
    let value ← num.fastPathValue F
    return value.map fun value => if num.negative then F.neg value else value
  else return none

end Decimal

inductive FloatErrorKind
  | empty
  | invalid
  deriving DecidableEq, Repr

def biasedFpToFloat (F : RawFloat) (x : BiasedFp) : ℕ :=
  F.fromU64Bits (x.m ||| (x.pBiased%2^64).toNat*2^F.sigBits%2^64)

def Special.toFloat (F : RawFloat) (negative : Bool) : Special → ℕ
  | .infinity => if negative then F.neg F.infBits else F.infBits
  | .nan => if negative then F.neg F.nanBits else F.nanBits

/-- The Eisel-Lemire algorithm with the check for truncated digits, and the slow
path when they do not decide. -/
def computeOrSlow (F : RawFloat) (num : Decimal) (s : List UInt8) : Option BiasedFp := do
  let fp ← computeFloat F num.exponent num.mantissa
  let fp ← (if num.manyDigits ∧ fp.pBiased ≥ 0 then do
      let mantissa ← u64 (num.mantissa+1)
      let next ← computeFloat F num.exponent mantissa
      return if fp ≠ next then { fp with pBiased := -1 } else fp
    else some fp : Option BiasedFp)
  if fp.pBiased < 0 then parseLongMantissa F s else return fp

def dec2fltUnsigned (F : RawFloat) (optimizeForSize negative : Bool) (s : List UInt8) :
    Option (Except FloatErrorKind ℕ) := do
  match ← parseNumber s with
  | none =>
    match parseInfNan s with
    | some value => return .ok (value.toFloat F negative)
    | none => return .error .invalid
  | some num =>
    let num := { num with negative }
    let fast ← (if !optimizeForSize then num.tryFastPath F else some none : Option (Option ℕ))
    match fast with
    | some value => return .ok value
    | none =>
      let fp ← computeOrSlow F num s
      let float := biasedFpToFloat F fp
      return .ok (if num.negative then F.neg float else float)

def dec2flt (F : RawFloat) (optimizeForSize : Bool) (s : List UInt8) :
    Option (Except FloatErrorKind ℕ) :=
  match s.head? with
  | none => some (.error .empty)
  | some c =>
    let negative := c == 45
    let s := if c = 45 ∨ c = 43 then s.tail else s
    if s = [] then some (.error .invalid) else dec2fltUnsigned F optimizeForSize negative s

end RustStd.Dec2Flt
