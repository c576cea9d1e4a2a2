import Mathlib

/-!
# Bounded loops

A loop body either stops with a result or hands over the next state, and a
body may fail. The loop runs for an explicit number of rounds. An invariant
together with a measure that every round decreases shows that the rounds
suffice and that no round fails.
-/

set_option autoImplicit false

namespace RustStd.Loop

variable {σ β : Type*}

def loop (body : σ → Option (σ ⊕ β)) : ℕ → σ → Option β
  | 0, _ => none
  | fuel+1, s =>
    match body s with
    | none => none
    | some (.inl s') => loop body fuel s'
    | some (.inr b) => some b

/-- A round either keeps the invariant and decreases the measure, or stops with
a result as required. -/
def Round (I : σ → Prop) (μ : σ → ℕ) (Q : β → Prop) (s : σ) : σ ⊕ β → Prop
  | .inl s' => I s' ∧ μ s' < μ s
  | .inr b => Q b

theorem loop_total {body : σ → Option (σ ⊕ β)} (I : σ → Prop) (μ : σ → ℕ) (Q : β → Prop)
    (h : ∀ s, I s → ∃ r, body s = some r ∧ Round I μ Q s r) (fuel : ℕ) (s : σ)
    (hs : I s) (hf : μ s < fuel) : ∃ b, loop body fuel s = some b ∧ Q b := by
  induction fuel generalizing s with
  | zero => omega
  | succ fuel ih =>
    obtain ⟨r, hr, hround⟩ := h s hs
    unfold loop
    rw [hr]
    cases r with
    | inl s' => exact ih s' hround.1 (by have := hround.2; omega)
    | inr b => exact ⟨b, rfl, hround⟩

theorem loop_mono {body : σ → Option (σ ⊕ β)} {fuel fuel' : ℕ} {s : σ} {b : β}
    (h : loop body fuel s = some b) (hf : fuel ≤ fuel') : loop body fuel' s = some b := by
  induction fuel generalizing s fuel' with
  | zero => simp [loop] at h
  | succ fuel ih =>
    obtain ⟨k, rfl⟩ : ∃ k, fuel' = k+1 := ⟨fuel'-1, by omega⟩
    unfold loop at h ⊢
    generalize body s = r at h ⊢
    rcases r with _ | s' | b'
    · exact h
    · exact ih h (by omega)
    · exact h

theorem loop_wrap {τ γ : Type*} {body : σ → Option (σ ⊕ β)} {body' : τ → Option (τ ⊕ γ)}
    (f : σ → τ) (g : β → γ) (h : ∀ s, body' (f s) = (body s).map (Sum.map f g)) (fuel : ℕ)
    (s : σ) : loop body' fuel (f s) = (loop body fuel s).map g := by
  induction fuel generalizing s with
  | zero => rfl
  | succ fuel ih =>
    rw [loop, loop, h]
    rcases body s with _ | s' | b
    · rfl
    · exact ih s'
    · rfl

/-- Calls of `next` until it returns `None`. -/
def collect (next : σ → Option (Option β × σ)) : ℕ → σ → Option (List β)
  | 0, _ => none
  | fuel+1, s =>
    match next s with
    | none => none
    | some (none, _) => some []
    | some (some b, s') => (collect next fuel s').map (b :: ·)

theorem collect_of_none {next : σ → Option (Option β × σ)} {s s' : σ} (h : next s = some (none, s'))
    (fuel : ℕ) : collect next (fuel+1) s = some [] := by
  simp only [collect, h]

theorem collect_of_some {next : σ → Option (Option β × σ)} {s s' : σ} {b : β}
    (h : next s = some (some b, s')) {fuel : ℕ} {bs : List β}
    (hc : collect next fuel s' = some bs) : collect next (fuel+1) s = some (b :: bs) := by
  simp only [collect, h, hc, Option.map_some]

theorem collect_mono {next : σ → Option (Option β × σ)} {fuel fuel' : ℕ} {s : σ} {bs : List β}
    (h : collect next fuel s = some bs) (hf : fuel ≤ fuel') : collect next fuel' s = some bs := by
  induction fuel generalizing s fuel' bs with
  | zero => simp [collect] at h
  | succ fuel ih =>
    obtain ⟨k, rfl⟩ : ∃ k, fuel' = k+1 := ⟨fuel'-1, by omega⟩
    unfold collect at h ⊢
    generalize next s = r at h ⊢
    rcases r with _ | ⟨_ | b, s'⟩
    · exact h
    · exact h
    · obtain ⟨cs, hcs, rfl⟩ := Option.map_eq_some_iff.mp h
      simp only [ih hcs (show fuel ≤ k by omega), Option.map_some]

theorem collect_wrap {τ : Type*} {next : σ → Option (Option β × σ)}
    {next' : τ → Option (Option β × τ)} (f : σ → τ)
    (h : ∀ s, next' (f s) = (next s).map fun r => (r.1, f r.2)) (fuel : ℕ) (s : σ) :
    collect next' fuel (f s) = collect next fuel s := by
  induction fuel generalizing s with
  | zero => rfl
  | succ fuel ih =>
    rw [collect, collect, h]
    rcases next s with _ | ⟨_ | b, s'⟩
    · rfl
    · rfl
    · simp only [Option.map_some, ih]

end RustStd.Loop
