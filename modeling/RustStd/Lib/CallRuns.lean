import Mathlib
import RustStd.Lib.Machine

/-!
# Runs of calls

An object is called again and again, and what it should do is a function of an abstract value. If
each call answers as the function and keeps the relation to the abstract value, then so does every
run of calls.
-/

set_option autoImplicit false

namespace RustStd.CallRuns

variable {κ ρ σ τ : Type*}

def run (op : κ → σ → Option (ρ × σ)) : List κ → σ → Option (List ρ × σ)
  | [], s => some ([], s)
  | c :: calls, s => do
    let (x, s) ← op c s
    let (xs, s) ← run op calls s
    return (x :: xs, s)

def answers (spec : κ → τ → ρ × τ) : List κ → τ → List ρ × τ
  | [], t => ([], t)
  | c :: calls, t =>
    let (x, t) := spec c t
    let (xs, t) := answers spec calls t
    (x :: xs, t)

def Takes (op : κ → σ → Option (ρ × σ)) (spec : κ → τ → ρ × τ) (R : σ → τ → Prop) (c : κ) (s : σ)
    (t : τ) : Prop :=
  ∃ s', op c s = some ((spec c t).1, s') ∧ R s' (spec c t).2

/-- Every run of calls that fit answers as the abstract value, and `P` holds at its end. -/
def Follows (op : κ → σ → Option (ρ × σ)) (spec : κ → τ → ρ × τ) (Fits : κ → Prop)
    (P : σ → τ → Prop) (s : σ) (t : τ) : Prop :=
  ∀ calls, (∀ c ∈ calls, Fits c) →
    ∃ s', run op calls s = some ((answers spec calls t).1, s') ∧ P s' (answers spec calls t).2

variable {op : κ → σ → Option (ρ × σ)} {spec : κ → τ → ρ × τ} {Fits : κ → Prop}
  {R P : σ → τ → Prop}

theorem takes_of_spec {c : κ} {s s' : σ} {t t' : τ} {x : ρ} (hspec : spec c t = (x, t'))
    (hop : op c s = some (x, s')) (hR : R s' t') : Takes op spec R c s t := by
  rw [Takes, hspec]
  exact ⟨s', hop, hR⟩

theorem follows_of_takes (htakes : ∀ c s t, Fits c → R s t → Takes op spec R c s t)
    (hP : ∀ s t, R s t → P s t) {s : σ} {t : τ} (hs : R s t) : Follows op spec Fits P s t := by
  intro calls
  induction calls generalizing s t with
  | nil =>
    intro _
    exact ⟨s, rfl, hP s t hs⟩
  | cons c calls ih =>
    intro hfits
    obtain ⟨s₁, hcall, hs₁⟩ := htakes c s t (hfits c List.mem_cons_self) hs
    obtain ⟨s₂, hrun, hend⟩ := ih hs₁ fun c' hc' => hfits c' (List.mem_cons_of_mem c hc')
    refine ⟨s₂, ?_, hend⟩
    rw [run, hcall]
    simp only [some_bind, hrun]
    rfl

/-! ## Specifications that leave a choice -/

inductive Allowed (allows : κ → τ → ρ → τ → Prop) : List κ → τ → List ρ → Prop
  | nil (t : τ) : Allowed allows [] t []
  | cons {c : κ} {t t' : τ} {x : ρ} {calls : List κ} {xs : List ρ} :
    allows c t x t' → Allowed allows calls t' xs → Allowed allows (c :: calls) t (x :: xs)

/-- Every call gives an allowed answer, and `p` holds of no more answers than a potential that only
calls with `p` use up. -/
theorem run_allowed {ω : Type*} {allows : κ → τ → ρ → τ → Prop} {op : κ → σ → Option ((ρ × ω) × σ)}
    (p : ω → Bool) (φ : σ → ℕ)
    (h : ∀ c s t, R s t → ∃ x w s' t', op c s = some ((x, w), s') ∧ allows c t x t' ∧ R s' t' ∧
      (if p w then 1 else 0)+φ s' ≤ φ s) (calls : List κ) {s : σ} {t : τ} (hs : R s t) :
    ∃ xs s', run op calls s = some (xs, s') ∧ Allowed allows calls t (xs.map Prod.fst) ∧
      xs.countP (fun x => p x.2) ≤ φ s := by
  induction calls generalizing s t with
  | nil => exact ⟨[], s, rfl, .nil t, Nat.zero_le _⟩
  | cons c calls ih =>
    obtain ⟨x, w, s₁, t₁, hcall, hallows, hs₁, hφ⟩ := h c s t hs
    obtain ⟨xs, s₂, hrun, hallowed, hcount⟩ := ih hs₁
    refine ⟨(x, w) :: xs, s₂, ?_, .cons hallows hallowed, ?_⟩
    · rw [run, hcall]
      simp only [some_bind, hrun]
      rfl
    · rw [List.countP_cons]
      dsimp only
      omega

end RustStd.CallRuns
