import Mathlib

/-!
# Machine integers and slices

Sizes are natural numbers below `usize::MAX`; only operations that wrap are
written out. A slice is a list that is not longer than `isize::MAX`.
-/

set_option autoImplicit false

namespace RustStd

universe u

theorem some_bind {α β : Type u} (a : α) (f : α → Option β) : (some a >>= f) = f a := rfl

namespace Machine

variable {α : Type*}

def usizeMax : ℕ := 2^64-1

def isizeMax : ℕ := 2^63-1

/-- `usize::wrapping_sub`. -/
def wrappingSub (a b : ℕ) : ℕ := (a+2^64-b%2^64)%2^64

structure Slice (α : Type*) where
  elems : List α
  len_le : elems.length ≤ isizeMax

/-- `v[a..b]`, which panics when the range does not fit. -/
def slice (v : List α) (a b : ℕ) : Option (List α) :=
  if a ≤ b ∧ b ≤ v.length then some ((v.drop a).take (b-a)) else none

theorem slice_eq (v : List α) {a b : ℕ} (hab : a ≤ b) (hb : b ≤ v.length) :
    slice v a b = some ((v.drop a).take (b-a)) :=
  if_pos ⟨hab, hb⟩

end Machine

end RustStd
