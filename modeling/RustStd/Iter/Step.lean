import Mathlib

/-!
# `Step`

`core::iter::range` for the integers and for `char`. An integer type as wide as `usize` or narrower
takes the number of steps by a cast of the difference, a wider one by a conversion that may fail.
The steps of `char` are those of `u32` and jump over the surrogates.
-/

set_option autoImplicit false

namespace RustStd.Ranges

/-- The methods of `Step`; `key` is what the type is compared by. `none` is a panic of `forward` and
`backward`, and undefined behaviour in the other methods. -/
structure Step (A : Type) where
  key : A → ℤ
  stepsBetween : A → A → ℕ × Option ℕ
  forwardChecked : A → ℕ → Option (Option A)
  backwardChecked : A → ℕ → Option (Option A)
  forward : A → ℕ → Option A
  backward : A → ℕ → Option A
  forwardUnchecked : A → ℕ → Option A
  backwardUnchecked : A → ℕ → Option A

def tryUsize (steps : ℕ) : ℕ × Option ℕ := if steps < 2^64 then (steps, some steps) else (2^64-1, none)

section Integers

variable {w : ℕ}

/-- `step_identical_methods!`: the check is left out without `overflow-checks`. -/
def wrappingUnless (checks : Bool) (checked : Option (BitVec w)) (wrapped : BitVec w) :
    Option (BitVec w) :=
  if checks && checked.isNone then none else some wrapped

namespace Unsigned

def checkedAdd (a b : BitVec w) : Option (BitVec w) := if a.uaddOverflow b then none else some (a+b)

def checkedSub (a b : BitVec w) : Option (BitVec w) := if a.usubOverflow b then none else some (a-b)

def stepsNarrow (start last : BitVec w) : ℕ × Option ℕ :=
  if start ≤ last then
    let steps := ((last-start).setWidth 64).toNat
    (steps, some steps)
  else (0, none)

def stepsWide (start last : BitVec w) : ℕ × Option ℕ :=
  if start ≤ last then tryUsize (last-start).toNat else (0, none)

def narrow (checked : BitVec w → BitVec w → Option (BitVec w)) (start : BitVec w) (n : ℕ) :
    Option (BitVec w) :=
  if n < 2^w then checked start (BitVec.ofNat w n) else none

/-- With `n as Self`. -/
def wide (checked : BitVec w → BitVec w → Option (BitVec w)) (start : BitVec w) (n : ℕ) :
    Option (BitVec w) :=
  checked start (BitVec.ofNat w n)

def step (checks : Bool) (stepsBetween : BitVec w → BitVec w → ℕ × Option ℕ)
    (forward backward : BitVec w → ℕ → Option (BitVec w)) : Step (BitVec w) where
  key a := a.toNat
  stepsBetween
  forwardChecked start n := some (forward start n)
  backwardChecked start n := some (backward start n)
  forward start n := wrappingUnless checks (forward start n) (start+BitVec.ofNat w n)
  backward start n := wrappingUnless checks (backward start n) (start-BitVec.ofNat w n)
  forwardUnchecked start n := checkedAdd start (BitVec.ofNat w n)
  backwardUnchecked start n := checkedSub start (BitVec.ofNat w n)

end Unsigned

namespace Signed

def checkedAdd (a b : BitVec w) : Option (BitVec w) := if a.saddOverflow b then none else some (a+b)

def checkedSub (a b : BitVec w) : Option (BitVec w) := if a.ssubOverflow b then none else some (a-b)

def checkedAddUnsigned (a b : BitVec w) : Option (BitVec w) :=
  if 2^(w-1) ≤ a.toInt+b.toNat then none else some (a+b)

def checkedSubUnsigned (a b : BitVec w) : Option (BitVec w) :=
  if a.toInt-b.toNat < -2^(w-1) then none else some (a-b)

/-- The difference is taken in `isize`. -/
def stepsNarrow (start last : BitVec w) : ℕ × Option ℕ :=
  if start.toInt ≤ last.toInt then
    let steps := (last.signExtend 64-start.signExtend 64).toNat
    (steps, some steps)
  else (0, none)

def stepsWide (start last : BitVec w) : ℕ × Option ℕ :=
  if start.toInt ≤ last.toInt then
    match checkedSub last start with
    | some result => if 0 ≤ result.toInt then tryUsize result.toInt.toNat else (2^64-1, none)
    | none => (2^64-1, none)
  else (0, none)

def forwardNarrow (start : BitVec w) (n : ℕ) : Option (BitVec w) :=
  if n < 2^w then
    let wrapped := start+BitVec.ofNat w n
    if wrapped.toInt ≥ start.toInt then some wrapped else none
  else none

def backwardNarrow (start : BitVec w) (n : ℕ) : Option (BitVec w) :=
  if n < 2^w then
    let wrapped := start-BitVec.ofNat w n
    if wrapped.toInt ≤ start.toInt then some wrapped else none
  else none

def forwardWide (start : BitVec w) (n : ℕ) : Option (BitVec w) := checkedAdd start (BitVec.ofNat w n)

def backwardWide (start : BitVec w) (n : ℕ) : Option (BitVec w) :=
  checkedSub start (BitVec.ofNat w n)

def step (checks : Bool) (stepsBetween : BitVec w → BitVec w → ℕ × Option ℕ)
    (forward backward : BitVec w → ℕ → Option (BitVec w)) : Step (BitVec w) where
  key a := a.toInt
  stepsBetween
  forwardChecked start n := some (forward start n)
  backwardChecked start n := some (backward start n)
  forward start n := wrappingUnless checks (forward start n) (start+BitVec.ofNat w n)
  backward start n := wrappingUnless checks (backward start n) (start-BitVec.ofNat w n)
  forwardUnchecked start n := checkedAddUnsigned start (BitVec.ofNat w n)
  backwardUnchecked start n := checkedSubUnsigned start (BitVec.ofNat w n)

end Signed

end Integers

open Unsigned in
def unsignedNarrow (w : ℕ) (checks : Bool) : Step (BitVec w) :=
  step checks stepsNarrow (narrow checkedAdd) (narrow checkedSub)

open Unsigned in
def unsignedWide (w : ℕ) (checks : Bool) : Step (BitVec w) :=
  step checks stepsWide (wide checkedAdd) (wide checkedSub)

open Signed in
def signedNarrow (w : ℕ) (checks : Bool) : Step (BitVec w) :=
  step checks stepsNarrow forwardNarrow backwardNarrow

open Signed in
def signedWide (w : ℕ) (checks : Bool) : Step (BitVec w) :=
  step checks stepsWide forwardWide backwardWide

namespace CharStep

def code (c : Char) : BitVec 32 := c.val.toBitVec

def fromU32Unchecked (n : BitVec 32) : Option Char :=
  if h : (UInt32.ofBitVec n).isValidChar then some ⟨UInt32.ofBitVec n, h⟩ else none

def stepsBetween (start last : Char) : ℕ × Option ℕ :=
  let start := code start
  let last := code last
  if start ≤ last then
    let count := last-start
    if start < 0xD800#32 ∧ 0xE000#32 ≤ last then tryUsize (count-0x800#32).toNat
    else tryUsize count.toNat
  else (0, none)

def addU32 (start : BitVec 32) (n : ℕ) : Option (BitVec 32) :=
  Unsigned.narrow Unsigned.checkedAdd start n

def subU32 (start : BitVec 32) (n : ℕ) : Option (BitVec 32) :=
  Unsigned.narrow Unsigned.checkedSub start n

def skipUp (add : BitVec 32 → ℕ → Option (BitVec 32)) (start res : BitVec 32) :
    Option (BitVec 32) :=
  if start < 0xD800#32 ∧ 0xD800#32 ≤ res then add res 0x800 else some res

def skipDown (sub : BitVec 32 → ℕ → Option (BitVec 32)) (start res : BitVec 32) :
    Option (BitVec 32) :=
  if start ≥ 0xE000#32 ∧ 0xE000#32 > res then sub res 0x800 else some res

def forwardChecked (start : Char) (count : ℕ) : Option (Option Char) :=
  match addU32 (code start) count >>= skipUp addU32 (code start) with
  | none => some none
  | some res => if res ≤ 0x10FFFF#32 then (fromU32Unchecked res).map some else some none

def backwardChecked (start : Char) (count : ℕ) : Option (Option Char) :=
  match subU32 (code start) count >>= skipDown subU32 (code start) with
  | none => some none
  | some res => (fromU32Unchecked res).map some

def forwardUnchecked (start : Char) (count : ℕ) : Option Char := do
  let add := fun a n => Unsigned.checkedAdd a (BitVec.ofNat 32 n)
  let res ← add (code start) count
  let res ← skipUp add (code start) res
  fromU32Unchecked res

def backwardUnchecked (start : Char) (count : ℕ) : Option Char := do
  let sub := fun a n => Unsigned.checkedSub a (BitVec.ofNat 32 n)
  let res ← sub (code start) count
  let res ← skipDown sub (code start) res
  fromU32Unchecked res

/-- `forward` and `backward` are the default methods. -/
def step : Step Char where
  key c := (code c).toNat
  stepsBetween
  forwardChecked
  backwardChecked
  forward start n := (forwardChecked start n).join
  backward start n := (backwardChecked start n).join
  forwardUnchecked
  backwardUnchecked

end CharStep

inductive Ty
  | u8 | u16 | u32 | u64 | u128 | usize | i8 | i16 | i32 | i64 | i128 | isize | char
  deriving DecidableEq, Repr

namespace Ty

def Value : Ty → Type
  | u8 | i8 => BitVec 8
  | u16 | i16 => BitVec 16
  | u32 | i32 => BitVec 32
  | u64 | i64 => BitVec 64
  | u128 | i128 => BitVec 128
  | usize | isize => BitVec 64
  | char => Char

instance (t : Ty) : DecidableEq t.Value :=
  match t with
  | u8 | i8 => inferInstanceAs (DecidableEq (BitVec 8))
  | u16 | i16 => inferInstanceAs (DecidableEq (BitVec 16))
  | u32 | i32 => inferInstanceAs (DecidableEq (BitVec 32))
  | u64 | i64 => inferInstanceAs (DecidableEq (BitVec 64))
  | u128 | i128 => inferInstanceAs (DecidableEq (BitVec 128))
  | usize | isize => inferInstanceAs (DecidableEq (BitVec 64))
  | char => inferInstanceAs (DecidableEq Char)

def step (checks : Bool) : (t : Ty) → Step t.Value
  | u8 => unsignedNarrow 8 checks
  | u16 => unsignedNarrow 16 checks
  | u32 => unsignedNarrow 32 checks
  | u64 => unsignedNarrow 64 checks
  | usize => unsignedNarrow 64 checks
  | u128 => unsignedWide 128 checks
  | i8 => signedNarrow 8 checks
  | i16 => signedNarrow 16 checks
  | i32 => signedNarrow 32 checks
  | i64 => signedNarrow 64 checks
  | isize => signedNarrow 64 checks
  | i128 => signedWide 128 checks
  | char => CharStep.step

end Ty

end RustStd.Ranges
