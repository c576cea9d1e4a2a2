import Mathlib

/-!
# Splitting a list at its separators

The elements of a list that satisfy a predicate separate its pieces. What a
separator leaves at the end of the piece before it is a parameter, so the same
pieces serve splitting with and without the separators. The first and the last
separator each split one piece off.
-/

set_option autoImplicit false

namespace RustStd.Pieces

variable {α : Type*} (p : α → Bool) (sep : α → List α)

/-- The pieces of a list; `tail` ends the last one. -/
def pieces (tail : List α) : List α → List (List α)
  | [] => [tail]
  | c :: ds => if p c then sep c :: pieces tail ds else (pieces tail ds).modifyHead (c :: ·)

/-- Drop the last piece when it is empty, unless an empty one may trail. -/
def trim (allow : Bool) (l : List (List α)) : List (List α) :=
  if allow = false ∧ l.getLast?.any List.isEmpty then l.dropLast else l

/-- The pieces with the separators put back between them. -/
def weave : List (List α) → List (List α) → List α
  | x :: xs, y :: ys => x ++ y ++ weave xs ys
  | xs, _ => xs.flatten

variable {p sep} {tail us vs ds : List α} {c : α}

theorem pieces_ne_nil (p : α → Bool) (sep : α → List α) (tail ds : List α) :
    pieces p sep tail ds ≠ [] := by
  induction ds with
  | nil => simp [pieces]
  | cons c ds ih =>
    unfold pieces
    split_ifs
    · simp
    · simpa [List.modifyHead_eq_nil_iff] using ih

theorem pieces_free_append (hus : ∀ u ∈ us, p u = false) :
    pieces p sep tail (us ++ ds) = (pieces p sep tail ds).modifyHead (us ++ ·) := by
  induction us with
  | nil =>
    rw [List.nil_append]
    cases pieces p sep tail ds <;> rfl
  | cons c us ih =>
    rw [List.cons_append, pieces, hus c (by simp), ih fun u hu => hus u (by simp [hu])]
    cases pieces p sep tail ds <;> simp

theorem pieces_none (hds : ∀ u ∈ ds, p u = false) : pieces p sep tail ds = [ds ++ tail] := by
  have h : pieces p sep tail (ds ++ []) = _ := pieces_free_append hds
  rwa [List.append_nil] at h

theorem pieces_first (hus : ∀ u ∈ us, p u = false) (hc : p c = true) :
    pieces p sep tail (us ++ c :: vs) = (us ++ sep c) :: pieces p sep tail vs := by
  rw [pieces_free_append hus, pieces, if_pos hc, List.modifyHead_cons]

theorem pieces_last (hvs : ∀ v ∈ vs, p v = false) (hc : p c = true) :
    pieces p sep tail (us ++ c :: vs) = pieces p sep (sep c) us ++ [vs ++ tail] := by
  induction us with
  | nil =>
    rw [List.nil_append, pieces.eq_2, if_pos hc, pieces_none hvs]
    rfl
  | cons d us ih =>
    rw [List.cons_append, pieces, pieces, ih]
    obtain ⟨x, xs, hx⟩ := List.exists_cons_of_ne_nil (pieces_ne_nil p sep (sep c) us)
    rw [hx]
    split_ifs <;> rfl

theorem length_pieces (tail ds : List α) :
    (pieces p sep tail ds).length = (ds.filter p).length+1 := by
  induction ds with
  | nil => rfl
  | cons c ds ih =>
    unfold pieces
    split_ifs with hc <;> simp [hc, ih]

theorem length_pieces_le (p : α → Bool) (sep : α → List α) (tail ds : List α) :
    (pieces p sep tail ds).length ≤ ds.length+1 := by
  rw [length_pieces]
  have := List.length_filter_le p ds
  omega

theorem length_trim_le (allow : Bool) (l : List (List α)) : (trim allow l).length ≤ l.length := by
  unfold trim
  split_ifs
  · rw [List.length_dropLast]
    omega
  · exact le_rfl

theorem exists_first (p : α → Bool) (ds : List α) :
    (∀ u ∈ ds, p u = false) ∨
    ∃ us c vs, ds = us ++ c :: vs ∧ (∀ u ∈ us, p u = false) ∧ p c = true := by
  cases h : ds.find? p with
  | none =>
    left
    simpa using h
  | some c =>
    right
    obtain ⟨hc, us, vs, rfl, hus⟩ := List.find?_eq_some_iff_append.mp h
    exact ⟨us, c, vs, rfl, by simpa using hus, hc⟩

theorem exists_last (p : α → Bool) (ds : List α) :
    (∀ u ∈ ds, p u = false) ∨
    ∃ us c vs, ds = us ++ c :: vs ∧ (∀ v ∈ vs, p v = false) ∧ p c = true := by
  rcases exists_first p ds.reverse with h | ⟨us, c, vs, he, hus, hc⟩
  · left
    simpa using h
  · right
    refine ⟨vs.reverse, c, us.reverse, ?_, by simpa using hus, hc⟩
    simpa using congrArg List.reverse he

@[simp] theorem trim_true (l : List (List α)) : trim true l = l := by simp [trim]

theorem trim_cons (allow : Bool) (x : List α) {l : List (List α)} (hl : l ≠ []) :
    trim allow (x :: l) = x :: trim allow l := by
  unfold trim
  rw [List.getLast?_cons_of_ne_nil hl, List.dropLast_cons_of_ne_nil hl]
  split_ifs <;> rfl

theorem trim_false_concat (l : List (List α)) (x : List α) :
    trim false (l ++ [x]) = if x.isEmpty then l else l ++ [x] := by
  simp [trim]

theorem trim_singleton (allow : Bool) (x : List α) :
    trim allow [x] = if allow = true ∨ ¬ x.isEmpty = true then [x] else [] := by
  cases allow <;> cases x <;> simp [trim]

theorem flatten_pieces (tail ds : List α) :
    (pieces p (fun c => [c]) tail ds).flatten = ds ++ tail := by
  induction ds with
  | nil => simp [pieces]
  | cons c ds ih =>
    obtain ⟨x, xs, hx⟩ :=
      List.exists_cons_of_ne_nil (pieces_ne_nil p (fun c => [c]) tail ds)
    rw [hx] at ih
    unfold pieces
    rw [hx]
    split_ifs <;> simpa using ih

theorem flatten_trim (allow : Bool) (l : List (List α)) : (trim allow l).flatten = l.flatten := by
  rcases List.eq_nil_or_concat l with rfl | ⟨l, x, rfl⟩
  · simp [trim]
  · rw [List.concat_eq_append]
    cases allow with
    | true => rw [trim_true]
    | false =>
      rw [trim_false_concat]
      split_ifs with hx
      · simp [List.isEmpty_iff.mp hx]
      · rfl

theorem weave_pieces (tail ds : List α) :
    weave (pieces p (fun _ => []) tail ds) ((ds.filter p).map fun c => [c]) = ds ++ tail := by
  induction ds with
  | nil => simp [pieces, weave]
  | cons c ds ih =>
    unfold pieces
    split_ifs with hc
    · simp [hc, weave, ih]
    · obtain ⟨x, xs, hx⟩ :=
        List.exists_cons_of_ne_nil (pieces_ne_nil p (fun _ => []) tail ds)
      rw [hx] at ih ⊢
      rw [List.filter_cons_of_neg hc, List.modifyHead_cons, List.cons_append, ← ih]
      cases (ds.filter p).map fun c => [c] <;> simp [weave]

end RustStd.Pieces
