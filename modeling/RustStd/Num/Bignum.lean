import RustStd.Lib.Limbs

/-!
# Bignums

`define_bignum!` of `core::num::bignum` for every digit type and every number of
digits. `none` is a panic: an index out of the array or an assertion that fails.
Assertions that are only there for debugging may be switched off.
-/

set_option autoImplicit false

namespace RustStd.Bignum
open RustStd.Limbs

inductive Digit
  | u8
  | u16
  | u32
  deriving DecidableEq, Repr

def Digit.bytes : Digit → ℕ
  | u8 => 1
  | u16 => 2
  | u32 => 4

def Digit.bits (T : Digit) : ℕ := 8*T.bytes

section Digits

variable {W : ℕ}

/-- `carrying_add`, with two additions of which at most one overflows. -/
def carryingAdd (self rhs : BitVec W) (carry : Bool) : BitVec W × Bool :=
  let a := self+rhs
  let c1 : Bool := 2^W ≤ self.toNat+rhs.toNat
  let b := a+BitVec.ofNat W carry.toNat
  let c2 : Bool := 2^W ≤ a.toNat+carry.toNat
  (b, c1 || c2)

/-- `carrying_mul`, in the type of the double width. -/
def carryingMul (self rhs carry : BitVec W) : BitVec W × BitVec W :=
  let wide := self.toNat*rhs.toNat+carry.toNat
  (BitVec.ofNat W wide, BitVec.ofNat W (wide >>> W))

def fullMulAdd (self other other2 carry : BitVec W) : BitVec W × BitVec W :=
  let v := self.toNat*other.toNat+other2.toNat+carry.toNat
  (BitVec.ofNat W (v >>> W), BitVec.ofNat W v)

def fullDivRem (debug : Bool) (self other borrow : BitVec W) : Option (BitVec W × BitVec W) :=
  if debug ∧ ¬ borrow < other then none
  else
    let lhs := borrow.toNat <<< W ||| self.toNat
    let rhs := other.toNat
    if rhs = 0 then none else some (BitVec.ofNat W (lhs/rhs), BitVec.ofNat W (lhs%rhs))

end Digits

structure Big (W n : ℕ) where
  size : ℕ
  base : Vector (BitVec W) n
  deriving DecidableEq, Repr

section Array

variable {W n : ℕ}

def store (base : Vector (BitVec W) n) (i : ℕ) (v : BitVec W) : Option (Vector (BitVec W) n) :=
  if h : i < n then some (base.set i v h) else none

/-- A last carry goes into the digit `sz`, which is then in use. -/
def storeCarry (base : Vector (BitVec W) n) (sz : ℕ) (carry : BitVec W) :
    Option (ℕ × Vector (BitVec W) n) :=
  if carry > 0 then (store base sz carry).map fun base => (sz+1, base) else some (sz, base)

def sliceTo (n k : ℕ) : Option Unit := if k ≤ n then some () else none

def assert (c : Prop) [Decidable c] : Option Unit := if c then some () else none

def debugAssert (debug : Bool) (c : Prop) [Decidable c] : Option Unit :=
  if debug then assert c else some ()

end Array

namespace Big

variable {W n : ℕ}

def digits (self : Big W n) : Option (List (BitVec W)) := do
  sliceTo n self.size
  return self.base.toList.take self.size

/-! ## Sums -/

def addDigit (other : Vector (BitVec W) n) (i : ℕ) (s : Vector (BitVec W) n × Bool) :
    Option (Vector (BitVec W) n × Bool) := do
  let a ← s.1[i]?
  let b ← other[i]?
  let (v, c) := carryingAdd a b s.2
  let base ← store s.1 i v
  return (base, c)

def add (self other : Big W n) : Option (Big W n) := do
  let sz := max self.size other.size
  sliceTo n sz
  let (base, carry) ← forRange (addDigit other.base) sz (self.base, false)
  if carry then
    let base ← store base sz 1
    return ⟨sz+1, base⟩
  else return ⟨sz, base⟩

/-- The loop of `add_small` from `i` on, which ends at the latest at the end of the array. -/
def addSmallLoop : ℕ → Vector (BitVec W) n → ℕ → Bool → Option (Vector (BitVec W) n × ℕ)
  | _, base, i, false => some (base, i)
  | 0, _, _, true => none
  | rounds+1, base, i, true => do
    let a ← base[i]?
    let (v, c) := carryingAdd a 0 true
    let base ← store base i v
    addSmallLoop rounds base (i+1) c

def addSmall (self : Big W n) (other : BitVec W) : Option (Big W n) := do
  let a ← self.base[0]?
  let (v, carry) := carryingAdd a other false
  let base ← store self.base 0 v
  let (base, i) ← addSmallLoop n base 1 carry
  return ⟨if i > self.size then i else self.size, base⟩

def subDigit (other : Vector (BitVec W) n) (i : ℕ) (s : Vector (BitVec W) n × Bool) :
    Option (Vector (BitVec W) n × Bool) := do
  let a ← s.1[i]?
  let b ← other[i]?
  let (v, c) := carryingAdd a (~~~b) s.2
  let base ← store s.1 i v
  return (base, c)

def sub (self other : Big W n) : Option (Big W n) := do
  let sz := max self.size other.size
  sliceTo n sz
  let (base, noborrow) ← forRange (subDigit other.base) sz (self.base, true)
  assert (noborrow = true)
  return ⟨sz, base⟩

/-! ## Products -/

def mulSmallDigit (other : BitVec W) (i : ℕ) (s : Vector (BitVec W) n × BitVec W) :
    Option (Vector (BitVec W) n × BitVec W) := do
  let a ← s.1[i]?
  let (v, c) := carryingMul a other s.2
  let base ← store s.1 i v
  return (base, c)

def mulSmall (self : Big W n) (other : BitVec W) : Option (Big W n) := do
  let sz := self.size
  sliceTo n sz
  let (base, carry) ← forRange (mulSmallDigit other) sz (self.base, 0)
  let (sz, base) ← storeCarry base sz carry
  return ⟨sz, base⟩

def moveDigit (digits i : ℕ) (base : Vector (BitVec W) n) : Option (Vector (BitVec W) n) := do
  let v ← base[i]?
  store base (i+digits) v

def clearDigit (i : ℕ) (base : Vector (BitVec W) n) : Option (Vector (BitVec W) n) := store base i 0

def shiftDigit (digits bits i : ℕ) (base : Vector (BitVec W) n) : Option (Vector (BitVec W) n) := do
  let high ← base[digits+1+i]?
  let low ← base[digits+1+i-1]?
  store base (digits+1+i) (high <<< bits ||| low >>> (W-bits))

def lastDigit (base : Vector (BitVec W) n) (last : ℕ) : Option (BitVec W) :=
  if last ≥ 1 then base[last-1]? else none

def shiftBits (digits bits sz : ℕ) (base : Vector (BitVec W) n) : Option (ℕ × Vector (BitVec W) n) := do
  let last := sz
  let top ← lastDigit base last
  let overflow := top >>> (W-bits)
  let (sz, base) ← storeCarry base last overflow
  let base ← forRangeRev (shiftDigit digits bits) (last-(digits+1)) base
  let low ← base[digits]?
  let base ← store base digits (low <<< bits)
  return (sz, base)

def shiftRest (digits bits sz : ℕ) (base : Vector (BitVec W) n) :
    Option (ℕ × Vector (BitVec W) n) :=
  if bits > 0 then shiftBits digits bits sz base else some (sz, base)

def mulPow2 (debug : Bool) (self : Big W n) (bits : ℕ) : Option (Big W n) := do
  let digits := bits/W
  let bits := bits%W
  assert (digits < n)
  debugAssert debug (∀ v ∈ self.base.toList.drop (n-digits), v = 0)
  debugAssert debug (bits = 0 ∨ ∀ v ∈ self.base[n-digits-1]?, v >>> (W-bits) = 0)
  let base ← forRangeRev (moveDigit digits) self.size self.base
  let base ← forRange clearDigit digits base
  let sz := self.size+digits
  let (sz, base) ← shiftRest digits bits sz base
  return ⟨sz, base⟩

/-- The round of `mul_inner` for the digit `j` of the second factor. -/
def mulInnerDigit (a : BitVec W) (bb : List (BitVec W)) (i j : ℕ)
    (s : Vector (BitVec W) n × BitVec W) : Option (Vector (BitVec W) n × BitVec W) := do
  let b ← bb[j]?
  let other2 ← s.1[i+j]?
  let (c, v) := fullMulAdd a b other2 s.2
  let ret ← store s.1 (i+j) v
  return (ret, c)

def mulInnerRow (aa bb : List (BitVec W)) (i : ℕ) (s : Vector (BitVec W) n × ℕ) :
    Option (Vector (BitVec W) n × ℕ) := do
  let a ← aa[i]?
  if a = 0 then return s
  else
    let (ret, carry) ← forRange (mulInnerDigit a bb i) bb.length (s.1, 0)
    let (sz, ret) ← storeCarry ret (i+bb.length) carry
    return (ret, if s.2 < sz then sz else s.2)

def mulInner (ret : Vector (BitVec W) n) (aa bb : List (BitVec W)) :
    Option (Vector (BitVec W) n × ℕ) :=
  forRange (mulInnerRow aa bb) aa.length (ret, 0)

def mulDigits (self : Big W n) (other : List (BitVec W)) : Option (Big W n) := do
  let ret := Vector.replicate n 0
  let digits ← self.digits
  -- the routine works best when the first factor is the shorter one
  let (aa, bb) := if self.size < other.length then (digits, other) else (other, digits)
  let (ret, retsz) ← mulInner ret aa bb
  return ⟨retsz, ret⟩

/-! ## Powers of five -/

def smallPow5 : List (ℕ × ℕ) := [(125, 3), (15625, 6), (1220703125, 13)]

/-- The loop with the largest power that is a digit. -/
def mulPow5Loop (smallPower : BitVec W) (smallE : ℕ) (big : Big W n) (e : ℕ) :
    Option (Big W n × ℕ) :=
  if smallE > 0 ∧ e ≥ smallE then do
    let big ← big.mulSmall smallPower
    mulPow5Loop smallPower smallE big (e-smallE)
  else some (big, e)
termination_by e

def restPower (W e : ℕ) : Option ℕ :=
  forRange (fun _ restPower => if restPower*5 < 2^W then some (restPower*5) else none) e 1

def mulPow5 {T : Digit} (self : Big T.bits n) (e : ℕ) : Option (Big T.bits n) := do
  -- `trailing_zeros` of a power of two
  let tableIndex := Nat.log2 T.bytes
  let (smallPower, smallE) ← smallPow5[tableIndex]?
  let smallPower := BitVec.ofNat T.bits smallPower
  let (big, e) ← mulPow5Loop smallPower smallE self e
  let restPower ← restPower T.bits e
  big.mulSmall (BitVec.ofNat T.bits restPower)

/-! ## Quotients and the order -/

def divDigit (debug : Bool) (other : BitVec W) (i : ℕ) (s : Vector (BitVec W) n × BitVec W) :
    Option (Vector (BitVec W) n × BitVec W) := do
  let a ← s.1[i]?
  let (q, r) ← fullDivRem debug a other s.2
  let base ← store s.1 i q
  return (base, r)

def divRemSmall (debug : Bool) (self : Big W n) (other : BitVec W) : Option (Big W n × BitVec W) := do
  assert (other > 0)
  let sz := self.size
  sliceTo n sz
  let (base, borrow) ← forRangeRev (divDigit debug other) sz (self.base, 0)
  return (⟨self.size, base⟩, borrow)

def cmpDigits : List (BitVec W) → List (BitVec W) → Ordering
  | [], [] => .eq
  | [], _ :: _ => .lt
  | _ :: _, [] => .gt
  | a :: as, b :: bs => (compare a.toNat b.toNat).then (cmpDigits as bs)

def cmp (self other : Big W n) : Option Ordering := do
  let sz := max self.size other.size
  sliceTo n sz
  let lhs := (self.base.toList.take sz).reverse
  let rhs := (other.base.toList.take sz).reverse
  return cmpDigits lhs rhs

end Big

end RustStd.Bignum
