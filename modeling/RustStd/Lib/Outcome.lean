import Mathlib

/-!
# Outcomes of code that may panic

A computation returns, panics and leaves a state behind, or is undefined. An
assertion panics when it fails; a precondition of unsafe code is undefined when
it fails.
-/

set_option autoImplicit false

namespace RustStd

universe u v

inductive Outcome (S : Type u) (α : Type v)
  | ok (a : α)
  | panic (s : S)
  | undefined

namespace Outcome

variable {S : Type u} {α β : Type v}

protected def bind (m : Outcome S α) (f : α → Outcome S β) : Outcome S β :=
  match m with
  | .ok a => f a
  | .panic s => .panic s
  | .undefined => .undefined

instance : Monad (Outcome S) where
  pure := .ok
  bind := Outcome.bind

@[simp] theorem pure_eq (a : α) : (pure a : Outcome S α) = .ok a := rfl

@[simp] theorem ok_bind (a : α) (f : α → Outcome S β) : (Outcome.ok a >>= f) = f a := rfl

@[simp] theorem panic_bind (s : S) (f : α → Outcome S β) : (Outcome.panic s >>= f) = .panic s := rfl

/-- `assert!(c)` in the state `s`. -/
def ensure (s : S) (c : Prop) [Decidable c] : Outcome S Unit := if c then .ok () else .panic s

/-- What the caller of unsafe code has to guarantee. -/
def require (c : Prop) [Decidable c] : Outcome S Unit := if c then .ok () else .undefined

def ofOption : Option α → Outcome S α
  | some a => .ok a
  | none => .undefined

theorem ensure_of {c : Prop} [Decidable c] (s : S) (h : c) : ensure s c = .ok () := if_pos h

theorem ensure_of_not {c : Prop} [Decidable c] (s : S) (h : ¬ c) : ensure s c = .panic s := if_neg h

theorem require_of {c : Prop} [Decidable c] (h : c) : (require c : Outcome S Unit) = .ok () :=
  if_pos h

def toOption : Outcome S α → Option α
  | .ok a => some a
  | _ => none

@[simp] theorem toOption_ok (a : α) : (ok a : Outcome S α).toOption = some a := rfl

@[simp] theorem ofOption_some (a : α) : (ofOption (some a) : Outcome S α) = .ok a := rfl

end Outcome

end RustStd
