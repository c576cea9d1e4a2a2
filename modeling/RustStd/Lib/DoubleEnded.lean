import Mathlib
import RustStd.Lib.Loop

/-!
# Double-ended iterators

An iterator state holds a list when `next` takes the head off and `next_back`
the last element. Whatever the order of the calls, the results from the front,
what is left, and the reversed results from the back make up the list.
-/

set_option autoImplicit false

namespace RustStd.DoubleEnded

variable {σ α : Type*}

inductive End
  | front
  | back
  deriving DecidableEq, Repr

/-- Calls at the given ends, with the elements that came from the front and from
the back; a call may fail. -/
def drive (next nextBack : σ → Option (Option α × σ)) :
    List End → σ → Option (List α × List α × σ)
  | [], s => some ([], [], s)
  | .front :: ds, s => do
    let (x, s) ← next s
    let (fs, bs, s) ← drive next nextBack ds s
    return (x.toList ++ fs, bs, s)
  | .back :: ds, s => do
    let (x, s) ← nextBack s
    let (fs, bs, s) ← drive next nextBack ds s
    return (fs, x.toList ++ bs, s)

/-- The relation between a state and the list it holds is kept by both calls. -/
structure Holds (next nextBack : σ → Option (Option α × σ)) (R : σ → List α → Prop) : Prop where
  next_nil : ∀ s, R s [] → ∃ s', next s = some (none, s') ∧ R s' []
  next_cons : ∀ s a l, R s (a :: l) → ∃ s', next s = some (some a, s') ∧ R s' l
  back_nil : ∀ s, R s [] → ∃ s', nextBack s = some (none, s') ∧ R s' []
  back_concat : ∀ s a l, R s (l ++ [a]) → ∃ s', nextBack s = some (some a, s') ∧ R s' l

variable {next nextBack : σ → Option (Option α × σ)} {R : σ → List α → Prop}

/-- The calls split the list; as many elements are left as there were too few calls. -/
def Splits (l : List α) (calls : ℕ) (fs bs : List α) : Prop :=
  ∃ rest, l = fs ++ rest ++ bs.reverse ∧ rest.length = l.length-calls

theorem Splits.all {l fs bs : List α} {calls : ℕ} (h : Splits l calls fs bs)
    (hl : l.length ≤ calls) : fs ++ bs.reverse = l := by
  obtain ⟨rest, he, hr⟩ := h
  have hnil : rest = [] := List.eq_nil_of_length_eq_zero (by omega)
  simp [he, hnil]

theorem drive_front {s s' s'' : σ} {x : Option α} {ds : List End} {fs bs : List α}
    (h : next s = some (x, s')) (hd : drive next nextBack ds s' = some (fs, bs, s'')) :
    drive next nextBack (.front :: ds) s = some (x.toList ++ fs, bs, s'') := by
  simp [drive, h, hd]

theorem drive_back {s s' s'' : σ} {x : Option α} {ds : List End} {fs bs : List α}
    (h : nextBack s = some (x, s')) (hd : drive next nextBack ds s' = some (fs, bs, s'')) :
    drive next nextBack (.back :: ds) s = some (fs, x.toList ++ bs, s'') := by
  simp [drive, h, hd]

theorem drive_rest (h : Holds next nextBack R) (ds : List End) (s : σ) (l : List α) (hs : R s l) :
    ∃ fs bs s' rest, drive next nextBack ds s = some (fs, bs, s') ∧ R s' rest ∧
      l = fs ++ rest ++ bs.reverse ∧ rest.length = l.length-ds.length := by
  induction ds generalizing s l with
  | nil => exact ⟨[], [], s, l, rfl, hs, by simp, by simp⟩
  | cons d ds ih =>
    cases d with
    | front =>
      cases l with
      | nil =>
        obtain ⟨s₁, h₁, hs₁⟩ := h.next_nil s hs
        obtain ⟨fs, bs, s₂, rest, hd, hs₂, he, hr⟩ := ih s₁ [] hs₁
        exact ⟨_, _, s₂, rest, drive_front h₁ hd, hs₂, by simpa using he, by simpa using hr⟩
      | cons a l =>
        obtain ⟨s₁, h₁, hs₁⟩ := h.next_cons s a l hs
        obtain ⟨fs, bs, s₂, rest, hd, hs₂, he, hr⟩ := ih s₁ l hs₁
        exact ⟨_, _, s₂, rest, drive_front h₁ hd, hs₂, by simp [he], by simpa using hr⟩
    | back =>
      rcases List.eq_nil_or_concat l with rfl | ⟨l, a, rfl⟩
      · obtain ⟨s₁, h₁, hs₁⟩ := h.back_nil s hs
        obtain ⟨fs, bs, s₂, rest, hd, hs₂, he, hr⟩ := ih s₁ [] hs₁
        exact ⟨_, _, s₂, rest, drive_back h₁ hd, hs₂, by simpa using he, by simpa using hr⟩
      · rw [List.concat_eq_append] at hs ⊢
        obtain ⟨s₁, h₁, hs₁⟩ := h.back_concat s a l hs
        obtain ⟨fs, bs, s₂, rest, hd, hs₂, he, hr⟩ := ih s₁ l hs₁
        exact ⟨_, _, s₂, rest, drive_back h₁ hd, hs₂, by simp [he], by simpa using hr⟩

theorem drive_splits (h : Holds next nextBack R) (ds : List End) (s : σ) (l : List α)
    (hs : R s l) :
    ∃ fs bs s', drive next nextBack ds s = some (fs, bs, s') ∧ Splits l ds.length fs bs := by
  obtain ⟨fs, bs, s', rest, hd, -, he, hr⟩ := drive_rest h ds s l hs
  exact ⟨fs, bs, s', hd, rest, he, hr⟩

theorem collect_of_holds (h : Holds next nextBack R) {fuel : ℕ} {s : σ} {l : List α} (hs : R s l)
    (hf : l.length < fuel) : Loop.collect next fuel s = some l := by
  induction l generalizing s fuel with
  | nil =>
    obtain ⟨k, rfl⟩ : ∃ k, fuel = k+1 := ⟨fuel-1, by simp only [List.length_nil] at hf; omega⟩
    obtain ⟨s', h', -⟩ := h.next_nil s hs
    exact Loop.collect_of_none h' k
  | cons a l ih =>
    obtain ⟨k, rfl⟩ : ∃ k, fuel = k+1 := ⟨fuel-1, by simp only [List.length_cons] at hf; omega⟩
    obtain ⟨s', h', hs'⟩ := h.next_cons s a l hs
    exact Loop.collect_of_some h' (ih hs' (by simpa using hf))

theorem Holds.rev (h : Holds next nextBack R) : Holds nextBack next fun s l => R s l.reverse where
  next_nil := fun s hs => h.back_nil s hs
  next_cons := fun s a l hs => h.back_concat s a l.reverse (by simpa using hs)
  back_nil := fun s hs => h.next_nil s hs
  back_concat := fun s a l hs => h.next_cons s a l.reverse (by simpa using hs)

end RustStd.DoubleEnded
