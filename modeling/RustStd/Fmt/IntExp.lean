import RustStd.Fmt.NumSpec

/-!
# Integers in scientific notation

`impl_Exp!` of `core::fmt::num`, for `u64` and for `u128`: the digits are cut to
the precision, rounded half to even, and written in pairs from the right into a
buffer that is not initialised. More zeros than there are digits are written by
the formatter. `none` is a panic or undefined behaviour.
-/

set_option autoImplicit false

namespace RustStd.IntFmt
open RustStd.Checked RustStd.Radix

/-- The digits of the number as they are printed: the coefficient with the count of its
decimals, the exponent, and the count of the zeros that follow. -/
structure Coefficient where
  coef : ℕ
  coefPrec : ℕ
  exp : ℕ
  morePrec : ℕ
  deriving DecidableEq, Repr

def ilog10 (n : ℕ) : ℕ := Nat.log 10 n

def omitZeroes (coef : ℕ) : ℕ → ℕ × ℕ
  | 0 => (coef, 0)
  | coefPrec+1 => if coef%10 = 0 then omitZeroes (coef/10) coefPrec else (coef, coefPrec+1)

def roundUp (floor overScale half : ℕ) : ℕ :=
  if overScale < half then 0 else if overScale > half then 1 else floor &&& 1

def lowerCoef (bits round_up coef coefPrec exp : ℕ) : Option (ℕ × ℕ) :=
  if round_up ≠ 0 ∧ ilog10 coef > coefPrec then do
    let pow ← unsigned bits (10^(coefPrec+1))
    assertUnchecked (coef = pow)
    return (coef/10, exp+1)
  else some (coef, exp)

def dropDigits (bits coef coefPrec exp fmtPrec : ℕ) : Option Coefficient := do
  let lessPrec ← sub coefPrec fmtPrec
  assertUnchecked (lessPrec > 0)
  -- the `checked_pow` that is unwrapped without a check
  let scale ← unsigned bits (10^lessPrec)
  let floor := coef/scale
  let overScale := coef%scale
  let half := scale/2
  let round_up := roundUp floor overScale half
  let coef ← unsigned bits (floor+round_up)
  let coefPrec := fmtPrec
  let (coef, exp) ← lowerCoef bits round_up coef coefPrec exp
  return ⟨coef, coefPrec, exp, 0⟩

def coefficient (bits : ℕ) (precision : Option ℕ) (n : ℕ) : Option Coefficient := do
  let exp := ilog10 n
  let pow ← unsigned bits (10^exp)
  assertUnchecked (n/pow < 10)
  match precision with
  | none =>
    let (coef, coefPrec) := omitZeroes n exp
    return ⟨coef, coefPrec, exp, 0⟩
  | some fmtPrec =>
    if fmtPrec ≥ exp then return ⟨n, exp, exp, fmtPrec-exp⟩ else dropDigits bits n exp exp fmtPrec

/-! ## The buffer -/

def maxDec (bits : ℕ) : ℕ := ilog10 (2^bits-1)+1

def maxCoefLen (bits : ℕ) : ℕ := maxDec bits+1

def maxTextLen (bits : ℕ) : ℕ := maxCoefLen bits+3

def stepBy2 : List ℕ → List ℕ
  | [] => []
  | [i] => [i]
  | i :: _ :: rest => i :: stepBy2 rest

/-- The pairs of the fraction, at the last index of each. -/
def fractionPairs : List ℕ → Buf → ℕ → Option (Buf × ℕ)
  | [], buf, remain => some (buf, remain)
  | i :: rest, buf, remain => do
    let pair := remain%100
    let remain := remain/100
    let offset ← sub i 1
    let buf ← writePair buf offset pair
    fractionPairs rest buf remain

def fractionDigits : List ℕ → Buf → ℕ → Option (Buf × ℕ)
  | [], buf, remain => some (buf, remain)
  | i :: rest, buf, remain => do
    let digit := remain%10
    let remain := remain/10
    let buf ← writeAt buf i (48+UInt8.ofNat digit)
    fractionDigits rest buf remain

def oddDigit (buf : Buf) (coefPrec remain : ℕ) : Option (Buf × ℕ) :=
  if coefPrec &&& 1 ≠ 0 then do
    let digit := remain%10
    let remain := remain/10
    let buf ← writeAt buf 2 (48+UInt8.ofNat digit)
    return (buf, remain)
  else some (buf, remain)

/-- The fraction in `buf[2..2+coef_prec]`, and the digits before it. -/
def fraction (small : Bool) (buf : Buf) (coefPrec coef : ℕ) : Option (Buf × ℕ) :=
  let fractionRange := List.range' 2 coefPrec
  if small then fractionDigits fractionRange.reverse buf coef
  else do
    let (buf, remain) ← fractionPairs (stepBy2 (fractionRange.drop 1).reverse) buf coef
    oddDigit buf coefPrec remain

def encodeFraction (small : Bool) (buf : Buf) (c : Coefficient) : Option (Buf × ℕ × ℕ) :=
  if c.coefPrec = 0 ∧ c.morePrec = 0 then some (buf, c.coef, 1)
  else do
    let buf ← writeAt buf 1 46
    let (buf, remain) ← fraction small buf c.coefPrec c.coef
    return (buf, remain, 2+c.coefPrec)

def encodeExp (small : Bool) (buf : Buf) (coefLen exp : ℕ) : Option (Buf × ℕ) :=
  if exp < 10 then do
    let buf ← writeAt buf (coefLen+1) (48+UInt8.ofNat exp)
    return (buf, coefLen+2)
  else if exp < 100 then do
    if small then
      let buf ← writeAt buf (coefLen+1) (48+UInt8.ofNat (exp/10))
      let buf ← writeAt buf (coefLen+2) (48+UInt8.ofNat (exp%10))
      return (buf, coefLen+3)
    else
      let buf ← writePair buf (coefLen+1) exp
      return (buf, coefLen+3)
  else none

def encode (bits : ℕ) (small : Bool) (letterE : UInt8) (c : Coefficient) :
    Option (List UInt8 × ℕ) := do
  let buf := uninit (maxTextLen bits)
  let (buf, leadDec, coefLen) ← encodeFraction small buf c
  assertUnchecked (leadDec < 10)
  assertUnchecked (leadDec ≠ 0 ∨ c.coef = 0)
  let buf ← writeAt buf 0 (48+UInt8.ofNat leadDec)
  assertUnchecked (coefLen ≤ maxCoefLen bits)
  let buf ← writeAt buf coefLen letterE
  let (buf, textLen) ← encodeExp small buf coefLen c.exp
  assertUnchecked (textLen ≤ buf.length)
  let text ← (buf.take textLen).mapM id
  return (text, coefLen)

/-! ## The formatter -/

def writeZeroes : ℕ → ℕ → Option (List UInt8)
  | 0, _ => none
  | fuel+1, nzeroes =>
    let zeroes := List.replicate 64 48
    if nzeroes > zeroes.length then do
      let rest ← writeZeroes fuel (nzeroes-zeroes.length)
      return zeroes ++ rest
    else if nzeroes > 0 then some (zeroes.take nzeroes)
    else some []

def expFmt (bits : ℕ) (small signPlus : Bool) (precision : Option ℕ) (n : ℕ) (isNonnegative : Bool)
    (letterE : UInt8) : Option (List UInt8) := do
  assertUnchecked (65 ≤ letterE ∧ letterE ≤ 90 ∨ 97 ≤ letterE ∧ letterE ≤ 122)
  let c ← coefficient bits precision n
  let (text, coefLen) ← encode bits small letterE c
  let sign : List UInt8 := if !isNonnegative then [45] else if signPlus then [43] else []
  if c.morePrec = 0 then return sign ++ text
  else
    let zeroes ← writeZeroes (c.morePrec+1) c.morePrec
    return sign ++ (text.take coefLen ++ zeroes ++ text.drop coefLen)

/-- `LowerExp` of every integer type; `u128` is the type of the digits of 128 bits only. -/
def lowerExp (T : IntTy) (small signPlus : Bool) (precision : Option ℕ) (n : ℤ) :
    Option (List UInt8) :=
  expFmt (if T.width = .w128 then 128 else 64) small signPlus precision n.natAbs (n ≥ 0) 101

end RustStd.IntFmt
