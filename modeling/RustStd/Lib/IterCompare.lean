import RustStd.Lib.DoubleEnded

/-!
# Comparing two iterators

`iter_compare` of `library/core/src/iter/traits/iterator.rs` draws from both
iterators in turn. Over iterators that hold lists it is a function of the
lists, with `eq` and `cmp` as its two uses.
-/

set_option autoImplicit false

namespace RustStd.IterCompare
open RustStd.DoubleEnded

variable {σ α β : Type}

/-- `iter_compare`; `f` gives what it breaks with, and the left of the result is
that value. -/
def iterCompare (next : σ → Option (Option α × σ)) (f : α → α → Option β) :
    ℕ → σ → σ → Option (β ⊕ Ordering)
  | 0, _, _ => none
  | fuel+1, a, b => do
    let (x, a) ← next a
    let (y, b) ← next b
    match x, y with
    | none, none => return .inr .eq
    | none, some _ => return .inr .lt
    | some _, none => return .inr .gt
    | some x, some y =>
      match f x y with
      | some t => return .inl t
      | none => iterCompare next f fuel a b

def listCompare (f : α → α → Option β) : List α → List α → β ⊕ Ordering
  | [], [] => .inr .eq
  | [], _ :: _ => .inr .lt
  | _ :: _, [] => .inr .gt
  | x :: l, y :: l' =>
    match f x y with
    | some t => .inl t
    | none => listCompare f l l'

def iterEq [DecidableEq α] (next : σ → Option (Option α × σ)) (fuel : ℕ) (a b : σ) : Option Bool :=
  (iterCompare next (fun x y => if x = y then none else some ()) fuel a b).map fun
    | .inr ord => ord == .eq
    | .inl _ => false

def iterCmp (cmp : α → α → Ordering) (next : σ → Option (Option α × σ)) (fuel : ℕ) (a b : σ) :
    Option Ordering :=
  (iterCompare next (fun x y => if cmp x y = .eq then none else some (cmp x y)) fuel a b).map fun
    | .inr ord => ord
    | .inl ord => ord

section Lists
variable {next nextBack : σ → Option (Option α × σ)} {R : σ → List α → Prop}

theorem iterCompare_eq (h : Holds next nextBack R) (f : α → α → Option β) {fuel : ℕ} {a b : σ}
    {l l' : List α} (ha : R a l) (hb : R b l') (hf : l.length < fuel) :
    iterCompare next f fuel a b = some (listCompare f l l') := by
  induction l generalizing a b l' fuel with
  | nil =>
    obtain ⟨k, rfl⟩ : ∃ k, fuel = k+1 := ⟨fuel-1, by simp only [List.length_nil] at hf; omega⟩
    obtain ⟨a', ha', -⟩ := h.next_nil a ha
    cases l' with
    | nil =>
      obtain ⟨b', hb', -⟩ := h.next_nil b hb
      simp [iterCompare, ha', hb', listCompare]
    | cons y l' =>
      obtain ⟨b', hb', -⟩ := h.next_cons b y l' hb
      simp [iterCompare, ha', hb', listCompare]
  | cons x l ih =>
    obtain ⟨k, rfl⟩ : ∃ k, fuel = k+1 := ⟨fuel-1, by simp only [List.length_cons] at hf; omega⟩
    obtain ⟨a', ha', hal⟩ := h.next_cons a x l ha
    cases l' with
    | nil =>
      obtain ⟨b', hb', -⟩ := h.next_nil b hb
      simp [iterCompare, ha', hb', listCompare]
    | cons y l' =>
      obtain ⟨b', hb', hbl⟩ := h.next_cons b y l' hb
      have hrec := ih hal hbl (by simpa using hf)
      cases hxy : f x y with
      | none => simp [iterCompare, ha', hb', listCompare, hxy, hrec]
      | some t => simp [iterCompare, ha', hb', listCompare, hxy]

theorem iterEq_eq [DecidableEq α] (h : Holds next nextBack R) {fuel : ℕ} {a b : σ} {l l' : List α}
    (ha : R a l) (hb : R b l') (hf : l.length < fuel) :
    iterEq next fuel a b = some (decide (l = l')) := by
  rw [iterEq, iterCompare_eq h _ ha hb hf, Option.map_some]
  congr 1
  clear ha hb hf
  induction l generalizing l' with
  | nil => cases l' <;> simp [listCompare]
  | cons x l ih =>
    cases l' with
    | nil => simp [listCompare]
    | cons y l' =>
      by_cases hxy : x = y
      · simpa [listCompare, hxy] using ih
      · simp [listCompare, hxy]

theorem iterCmp_eq (cmp : α → α → Ordering) (h : Holds next nextBack R) {fuel : ℕ} {a b : σ}
    {l l' : List α} (ha : R a l) (hb : R b l') (hf : l.length < fuel) :
    iterCmp cmp next fuel a b = some (List.compareLex cmp l l') := by
  rw [iterCmp, iterCompare_eq h _ ha hb hf, Option.map_some]
  congr 1
  clear ha hb hf
  induction l generalizing l' with
  | nil => cases l' <;> simp [listCompare, List.compareLex]
  | cons x l ih =>
    cases l' with
    | nil => simp [listCompare, List.compareLex]
    | cons y l' =>
      rw [List.compareLex_cons_cons]
      cases hxy : cmp x y with
      | lt => simp [listCompare, hxy]
      | eq => simpa [listCompare, hxy] using ih
      | gt => simp [listCompare, hxy]

end Lists

theorem compareLex_append (cmp : α → α → Ordering) [Std.ReflCmp cmp] (l a b : List α) :
    List.compareLex cmp (l ++ a) (l ++ b) = List.compareLex cmp a b := by
  induction l with
  | nil => rfl
  | cons x l ih =>
    have hx : cmp x x = .eq := Std.ReflCmp.compare_self
    rw [List.cons_append, List.cons_append, List.compareLex_cons_cons, hx, ih, Ordering.eq_then]

end RustStd.IterCompare
