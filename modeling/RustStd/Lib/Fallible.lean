import Mathlib

/-!
# Computations that return errors

A computation works on a state and returns a value or an error, which `?` hands
on to the caller; the state keeps what was done before the error. Apart from
that it may fail, by a panic or by undefined behaviour, and a loop may use up
its fuel. A specification says what holds of the state after each of these ends.
Fuel may only run out in an environment that is not patient.
-/

set_option autoImplicit false

namespace RustStd.Fallible

variable {ε S α β A : Type}

inductive Fault
  | failed
  | outOfFuel
  deriving DecidableEq, Repr

def M (ε S α : Type) : Type := S → Except Fault (Except ε α) × S

namespace M

protected def pure (a : α) : M ε S α := fun s => (.ok (.ok a), s)

protected def bind (m : M ε S α) (k : α → M ε S β) : M ε S β := fun s =>
  match m s with
  | (.ok (.ok a), s) => k a s
  | (.ok (.error e), s) => (.ok (.error e), s)
  | (.error f, s) => (.error f, s)

instance : Monad (M ε S) where
  pure := M.pure
  bind := M.bind

protected theorem bind_assoc {γ : Type} (m : M ε S α) (k : α → M ε S β) (l : β → M ε S γ) :
    m >>= k >>= l = m >>= fun a => k a >>= l := by
  funext s
  change M.bind (M.bind m k) l s = M.bind m (fun a => M.bind (k a) l) s
  simp only [M.bind]
  rcases m s with ⟨_ | _ | _, s⟩
  · rfl
  · rfl
  · rfl

end M

def fault (f : Fault) : M ε S α := fun s => (.error f, s)

/-- `return Err(e)`. -/
def throw (e : ε) : M ε S α := fun s => (.ok (.error e), s)

def get : M ε S S := fun s => (.ok (.ok s), s)

def modify (f : S → S) : M ε S Unit := fun s => (.ok (.ok ()), f s)

/-- An assertion, or what the caller of unsafe code has to guarantee. -/
def require (c : Prop) [Decidable c] : M ε S Unit := if c then pure () else fault .failed

/-- `if c { m }` in front of the rest. -/
def runIf (c : Prop) [Decidable c] (m : M ε S Unit) : M ε S Unit := if c then m else pure ()

/-- The result of `m` as a value, for a `match` on it. -/
def attempt (m : M ε S α) : M ε S (Except ε α) := fun s =>
  match m s with
  | (.ok r, s) => (.ok (.ok r), s)
  | (.error f, s) => (.error f, s)

def ofExcept : Except ε α → M ε S α
  | .ok a => pure a
  | .error e => throw e

/-- `none` is a panic. -/
def ofOption : Option α → M ε S α
  | some a => pure a
  | none => fault .failed

/-- A loop whose body hands over the next state of its variables or stops with
a result. -/
def loop (body : A → M ε S (A ⊕ β)) : ℕ → A → M ε S β
  | 0, _ => fault .outOfFuel
  | fuel+1, a => do
    match ← body a with
    | .inl a => loop body fuel a
    | .inr b => pure b

def Ends (L : Prop) (Q : α → S → Prop) (R : ε → S → Prop) (E : S → Prop) :
    Except Fault (Except ε α) × S → Prop
  | (.ok (.ok a), s) => Q a s
  | (.ok (.error e), s) => R e s
  | (.error .failed, s) => E s
  | (.error .outOfFuel, _) => ¬ L

/-- From `s` the computation returns a value with `Q`, returns an error with `R`
or fails with `E`. In a patient environment its fuel suffices. -/
def Sat (L : Prop) (m : M ε S α) (s : S) (Q : α → S → Prop) (R : ε → S → Prop) (E : S → Prop) :
    Prop :=
  Ends L Q R E (m s)

variable {L : Prop} {s : S} {Q : α → S → Prop} {R : ε → S → Prop} {E : S → Prop}

theorem sat_pure {a : α} (h : Q a s) : Sat L (pure a : M ε S α) s Q R E := h

theorem sat_throw {e : ε} (h : R e s) : Sat L (throw e : M ε S α) s Q R E := h

theorem Sat.bind {m : M ε S β} {k : β → M ε S α}
    (h : Sat L m s (fun b s' => Sat L (k b) s' Q R E) R E) : Sat L (m >>= k) s Q R E := by
  unfold Sat at h
  show Ends L Q R E (M.bind m k s)
  unfold M.bind
  rcases hm : m s with ⟨(_ | _) | (e | b), s'⟩
  · rw [hm] at h
    exact h
  · rw [hm] at h
    exact h
  · rw [hm] at h
    exact h
  · rw [hm] at h
    exact h

theorem Sat.mono {m : M ε S α} {Q' : α → S → Prop} {R' : ε → S → Prop} {E' : S → Prop}
    (h : Sat L m s Q' R' E') (hQ : ∀ a s', Q' a s' → Q a s') (hR : ∀ e s', R' e s' → R e s')
    (hE : ∀ s', E' s' → E s') : Sat L m s Q R E := by
  unfold Sat at h ⊢
  rcases hm : m s with ⟨(_ | _) | (e | a), s'⟩
  · rw [hm] at h
    exact hE s' h
  · rw [hm] at h
    exact h
  · rw [hm] at h
    exact hR e s' h
  · rw [hm] at h
    exact hQ a s' h

theorem Sat.of_ok {m : M ε S α} {a : α} {s' : S} (h : Sat L m s Q R E)
    (hm : m s = (.ok (.ok a), s')) : Q a s' := by
  unfold Sat at h
  rw [hm] at h
  exact h

theorem sat_of_ok {m : M ε S α} {a : α} {s' : S} (hm : m s = (.ok (.ok a), s')) (h : Q a s') :
    Sat L m s Q R E := by
  unfold Sat
  rw [hm]
  exact h

/-- The specification together with the run that it speaks of. -/
theorem Sat.run {m : M ε S α} (h : Sat L m s Q R E) :
    Sat L m s (fun a s' => m s = (.ok (.ok a), s') ∧ Q a s') R E := by
  unfold Sat at h ⊢
  rcases hm : m s with ⟨(_ | _) | (e | a), s'⟩
  · rw [hm] at h
    exact h
  · rw [hm] at h
    exact h
  · rw [hm] at h
    exact h
  · rw [hm] at h
    exact ⟨rfl, h⟩

theorem Sat.call {m : M ε S β} {k : β → M ε S α} {Q' : β → S → Prop} {R' : ε → S → Prop}
    (h : Sat L m s Q' R' E) (hk : ∀ b s', Q' b s' → Sat L (k b) s' Q R E)
    (hR : ∀ e s', R' e s' → R e s') : Sat L (m >>= k) s Q R E :=
  Sat.bind (h.mono hk hR fun _ h => h)

def Fails (m : M ε S α) (s : S) : Prop :=
  Sat True m s (fun _ _ => False) (fun _ _ => False) fun _ => True

theorem Fails.not_sat {m : M ε S α} (h : Fails m s) : ¬ Sat L m s Q R fun _ => False := by
  intro h'
  unfold Fails Sat at h
  unfold Sat at h'
  rcases hm : m s with ⟨(_ | _) | (e | a), s'⟩ <;> rw [hm] at h h'
  · exact h'
  · exact h trivial
  · exact h
  · exact h

theorem Fails.bind {m : M ε S β} {k : β → M ε S α} (h : Fails m s) : Fails (m >>= k) s :=
  Sat.bind (h.mono (fun _ _ h => h.elim) (fun _ _ h => h) fun _ h => h)

theorem sat_get {Q : S → S → Prop} (h : Q s s) : Sat L (get : M ε S S) s Q R E := h

theorem sat_modify {Q : Unit → S → Prop} {f : S → S} (h : Q () (f s)) :
    Sat L (modify f : M ε S Unit) s Q R E := h

theorem sat_require {Q : Unit → S → Prop} {c : Prop} [Decidable c] (hc : c) (h : Q () s) :
    Sat L (require c : M ε S Unit) s Q R E := by
  rw [require, if_pos hc]
  exact h

theorem sat_require_of_not {Q : Unit → S → Prop} {c : Prop} [Decidable c] (hc : ¬ c) (h : E s) :
    Sat L (require c : M ε S Unit) s Q R E := by
  rw [require, if_neg hc]
  exact h

theorem sat_runIf {Q : Unit → S → Prop} {c : Prop} [Decidable c] {m : M ε S Unit}
    (h : c → Sat L m s Q R E) (h' : ¬ c → Q () s) : Sat L (runIf c m) s Q R E := by
  unfold runIf
  split_ifs with hc
  · exact h hc
  · exact sat_pure (h' hc)

theorem sat_ofExcept {r : Except ε α} (hQ : ∀ a, r = .ok a → Q a s)
    (hR : ∀ e, r = .error e → R e s) : Sat L (ofExcept r : M ε S α) s Q R E := by
  cases r with
  | ok a => exact sat_pure (hQ a rfl)
  | error e => exact sat_throw (hR e rfl)

theorem Sat.attempt {m : M ε S α} {Q : Except ε α → S → Prop}
    (h : Sat L m s (fun a => Q (.ok a)) (fun e => Q (.error e)) E) :
    Sat L (attempt m) s Q R E := by
  unfold Sat at h ⊢
  unfold Fallible.attempt
  rcases hm : m s with ⟨(_ | _) | (e | a), s'⟩
  · rw [hm] at h
    exact h
  · rw [hm] at h
    exact h
  · rw [hm] at h
    exact h
  · rw [hm] at h
    exact h

theorem Fails.attempt {m : M ε S α} (h : Fails m s) : Fails (attempt m) s :=
  Sat.attempt (h.mono (fun _ _ h => h) (fun _ _ h => h) fun _ h => h)

theorem sat_loop {body : A → M ε S (A ⊕ β)} {Q : β → S → Prop} (I : A → S → Prop)
    (μ : A → S → ℕ)
    (h : ∀ a s, I a s → Sat L (body a) s
      (fun r s' => match r with
        | .inl a' => I a' s' ∧ (L → μ a' s' < μ a s)
        | .inr b => Q b s') R E)
    {fuel : ℕ} {a : A} (hs : I a s) (hf : L → μ a s < fuel) : Sat L (loop body fuel a) s Q R E := by
  induction fuel generalizing a s with
  | zero => exact fun hL => Nat.not_lt_zero _ (hf hL)
  | succ fuel ih =>
    apply Sat.bind
    apply (h a s hs).mono
    · intro r s' hr
      cases r with
      | inl a' => exact ih hr.1 fun hL => by have := hr.2 hL; have := hf hL; omega
      | inr b => exact sat_pure hr
    · exact fun _ _ h => h
    · exact fun _ h => h

end RustStd.Fallible
