import RustStd.Lib.CallRuns
import RustStd.Lib.Machine

/-!
# Iterators that skip from both ends

A call takes an element off either end of a list, or skips some elements first. An iterator
refines the list it holds when one call does, and then every run of calls gives the answers of
the list, with the right observations in every state between them. Arguments are below `2^64`.
-/

set_option autoImplicit false

namespace RustStd.ListIter

variable {σ α : Type*}

inductive Call
  | next
  | nth (n : ℕ)
  | nextBack
  | nthBack (n : ℕ)
  deriving DecidableEq, Repr

/-- The answer of a list, and what is left of it. -/
def answer : Call → List α → Option α × List α
  | .next, l => (l.head?, l.tail)
  | .nth n, l => (l[n]?, l.drop (n+1))
  | .nextBack, l => (l.getLast?, l.dropLast)
  | .nthBack n, l => (l.reverse[n]?, l.take (l.length-(n+1)))

def Call.Fits : Call → Prop
  | .next => True
  | .nth n => n < 2^64
  | .nextBack => True
  | .nthBack n => n < 2^64

/-- The operations of an iterator; `none` is a panic or an access out of bounds. -/
structure Iter (σ α : Type*) where
  next : σ → Option (Option α × σ)
  nth : ℕ → σ → Option (Option α × σ)
  nextBack : σ → Option (Option α × σ)
  nthBack : ℕ → σ → Option (Option α × σ)
  sizeHint : σ → Option (ℕ × Option ℕ)

namespace Iter

variable (it : Iter σ α)

def call : Call → σ → Option (Option α × σ)
  | .next => it.next
  | .nth n => it.nth n
  | .nextBack => it.nextBack
  | .nthBack n => it.nthBack n

abbrev Takes (R : σ → List α → Prop) (c : Call) (s : σ) (l : List α) : Prop :=
  CallRuns.Takes it.call answer R c s l

/-- The size hint is exact. -/
def Sized (s : σ) (l : List α) : Prop := it.sizeHint s = some (l.length, some l.length)

/-- A call of the iterator is a call of the list it holds. -/
structure Refines (R : σ → List α → Prop) : Prop where
  takes : ∀ c s l, c.Fits → R s l → it.Takes R c s l
  sized : ∀ s l, R s l → it.Sized s l

/-- In every order of calls the iterator answers as the list, and its size hint stays exact. -/
def Follows (s : σ) (l : List α) : Prop := CallRuns.Follows it.call answer Call.Fits it.Sized s l

variable {it} {R : σ → List α → Prop}

theorem takes_of_answer {c : Call} {s s' : σ} {l l' : List α} {x : Option α}
    (ha : answer c l = (x, l')) (hc : it.call c s = some (x, s')) (hR : R s' l') :
    it.Takes R c s l :=
  CallRuns.takes_of_spec ha hc hR

theorem Refines.follows (h : it.Refines R) {s : σ} {l : List α} (hs : R s l) : it.Follows s l :=
  CallRuns.follows_of_takes h.takes h.sized hs

end Iter

def ofList (α : Type*) : Iter (List α) α where
  next l := some (answer .next l)
  nth n l := some (answer (.nth n) l)
  nextBack l := some (answer .nextBack l)
  nthBack n l := some (answer (.nthBack n) l)
  sizeHint l := some (l.length, some l.length)

theorem length_answer_le (c : Call) (l : List α) : (answer c l).2.length ≤ l.length := by
  cases c <;> simp [answer]

theorem ofList_refines (n : ℕ) : (ofList α).Refines fun s l => s = l ∧ l.length < n where
  takes c s l _ h := by
    obtain ⟨rfl, hlt⟩ := h
    refine ⟨(answer c s).2, ?_, rfl, (length_answer_le c s).trans_lt hlt⟩
    cases c <;> rfl
  sized s l h := by
    rw [h.1]
    rfl

/-- An iterator whose elements can be accessed by their positions. -/
structure Ops (σ α : Type*) extends Iter σ α where
  last : σ → Option (Option α)
  getUnchecked : σ → ℕ → Option α

namespace Ops

variable (it : Ops σ α)

structure Agrees (s : σ) (l : List α) : Prop where
  sizeHint : it.sizeHint s = some (l.length, some l.length)
  last : it.last s = some l.getLast?
  getUnchecked : ∀ i (h : i < l.length), it.getUnchecked s i = some (l.get ⟨i, h⟩)

/-- In every order of calls the iterator answers as the list, with the same observations. -/
def Follows (s : σ) (l : List α) : Prop := CallRuns.Follows it.call answer Call.Fits it.Agrees s l

variable {it} {R : σ → List α → Prop}

theorem follows_of_takes (htakes : ∀ c s l, R s l → it.Takes R c s l)
    (hagrees : ∀ s l, R s l → it.Agrees s l) {s : σ} {l : List α} (hs : R s l) : it.Follows s l :=
  CallRuns.follows_of_takes (fun c s l _ => htakes c s l) hagrees hs

end Ops

/-! ## Skipping by repeated calls -/

section Skip

variable {σ α : Type}

/-- The default `advance_by` over `next`, with the number of elements that are missing. -/
def advanceBy (next : σ → Option (Option α × σ)) : ℕ → σ → Option (Except ℕ Unit × σ)
  | 0, s => some (.ok (), s)
  | n+1, s => do
    let (x, s) ← next s
    match x with
    | none => return (.error (n+1), s)
    | some _ => advanceBy next n s

def nthByNext (next : σ → Option (Option α × σ)) (n : ℕ) (s : σ) : Option (Option α × σ) := do
  let (r, s) ← advanceBy next n s
  match r with
  | .error _ => return (none, s)
  | .ok _ => next s

variable {next : σ → Option (Option α × σ)} {R : σ → List α → Prop}

theorem advanceBy_spec (h : ∀ s l, R s l → ∃ s', next s = some (l.head?, s') ∧ R s' l.tail) (n : ℕ)
    {s : σ} {l : List α} (hs : R s l) :
    ∃ s', advanceBy next n s =
        some (if n ≤ l.length then .ok () else .error (n-l.length), s') ∧ R s' (l.drop n) := by
  induction n generalizing s l with
  | zero => exact ⟨s, rfl, hs⟩
  | succ n ih =>
    obtain ⟨s₁, hnext, hs₁⟩ := h s l hs
    rw [advanceBy, hnext, some_bind]
    cases l with
    | nil => exact ⟨s₁, rfl, hs₁⟩
    | cons x l =>
      obtain ⟨s₂, hadvance, hs₂⟩ := ih hs₁
      refine ⟨s₂, ?_, hs₂⟩
      rw [List.tail_cons] at hadvance
      rw [List.length_cons, Nat.add_sub_add_right]
      simpa using hadvance

theorem nthByNext_spec (h : ∀ s l, R s l → ∃ s', next s = some (l.head?, s') ∧ R s' l.tail) (n : ℕ)
    {s : σ} {l : List α} (hs : R s l) :
    ∃ s', nthByNext next n s = some (l[n]?, s') ∧ R s' (l.drop (n+1)) := by
  obtain ⟨s₁, hadvance, hs₁⟩ := advanceBy_spec h n hs
  rw [nthByNext, hadvance, some_bind]
  by_cases hn : n ≤ l.length
  · obtain ⟨s₂, hnext, hs₂⟩ := h s₁ _ hs₁
    refine ⟨s₂, ?_, ?_⟩
    · rw [List.head?_drop] at hnext
      simp only [if_pos hn, hnext]
    · rwa [List.tail_drop] at hs₂
  · have hle : l.length ≤ n := Nat.le_of_not_le hn
    refine ⟨s₁, ?_, ?_⟩
    · rw [List.getElem?_eq_none hle]
      simp only [if_neg hn]
      rfl
    · rw [List.drop_eq_nil_of_le hle] at hs₁
      rwa [List.drop_eq_nil_of_le (Nat.le_succ_of_le hle)]

theorem nthByNextBack_spec
    (h : ∀ s l, R s l → ∃ s', next s = some (l.getLast?, s') ∧ R s' l.dropLast) (n : ℕ) {s : σ}
    {l : List α} (hs : R s l) : ∃ s', nthByNext next n s = some (l.reverse[n]?, s') ∧
      R s' (l.take (l.length-(n+1))) := by
  have hrev : ∀ (s : σ) (l : List α), R s l.reverse →
      ∃ s', next s = some (l.head?, s') ∧ R s' l.tail.reverse := by
    intro s l hs
    obtain ⟨s', hnext, hs'⟩ := h s _ hs
    rw [List.getLast?_reverse] at hnext
    rw [List.dropLast_reverse] at hs'
    exact ⟨s', hnext, hs'⟩
  have hs' : R s l.reverse.reverse := by rwa [List.reverse_reverse]
  obtain ⟨s', hnth, hs'⟩ := nthByNext_spec (R := fun s l => R s l.reverse) hrev n hs'
  refine ⟨s', hnth, ?_⟩
  rwa [List.reverse_drop, List.reverse_reverse, List.length_reverse] at hs'

end Skip

/-! ## Lists by their positions -/

section Positions

variable {n m : ℕ} {f g : ℕ → α}

def tabulate (n : ℕ) (f : ℕ → α) : List α := (List.range n).map f

@[simp] theorem length_tabulate (n : ℕ) (f : ℕ → α) : (tabulate n f).length = n := by
  simp [tabulate]

theorem tabulate_zero (f : ℕ → α) : tabulate 0 f = [] := rfl

theorem getElem?_tabulate (n : ℕ) (f : ℕ → α) (i : ℕ) :
    (tabulate n f)[i]? = if i < n then some (f i) else none := by
  rw [tabulate, List.getElem?_map]
  split
  · rw [List.getElem?_range ‹_›]
    rfl
  · rw [List.getElem?_eq_none (by rw [List.length_range]; omega)]
    rfl

theorem get_tabulate (f : ℕ → α) {i : ℕ} (h : i < (tabulate n f).length) :
    (tabulate n f).get ⟨i, h⟩ = f i := by
  simp [tabulate]

theorem tabulate_congr (h : ∀ i < n, f i = g i) : tabulate n f = tabulate n g := by
  apply List.map_congr_left
  intro i hi
  exact h i (List.mem_range.mp hi)

theorem drop_tabulate (n k : ℕ) (f : ℕ → α) :
    (tabulate n f).drop k = tabulate (n-k) fun i => f (i+k) := by
  ext1 i
  rw [List.getElem?_drop, getElem?_tabulate, getElem?_tabulate, Nat.add_comm k i]
  simp only [Nat.lt_sub_iff_add_lt]

theorem take_tabulate (n k : ℕ) (f : ℕ → α) : (tabulate n f).take k = tabulate (min k n) f := by
  ext1 i
  rw [List.getElem?_take, getElem?_tabulate, getElem?_tabulate]
  simp only [lt_min_iff]
  by_cases h : i < k
  · simp [h]
  · simp [h]

theorem answer_next (l : List α) : answer .next l = answer (.nth 0) l := by
  cases l <;> rfl

theorem answer_nextBack (l : List α) : answer .nextBack l = answer (.nthBack 0) l := by
  have hlast : l.getLast? = l.reverse[0]? := by
    rw [← List.head?_eq_getElem?, List.head?_reverse]
  rw [answer, answer, hlast, List.dropLast_eq_take]

theorem answer_nil (c : Call) : answer c ([] : List α) = (none, []) := by
  cases c <;> simp [answer]

theorem answer_nth_lt {k : ℕ} (h : k < n) : answer (.nth k) (tabulate n f) =
    (some (f k), tabulate (n-(k+1)) fun i => f (i+(k+1))) := by
  rw [answer, getElem?_tabulate, if_pos h, drop_tabulate]

theorem answer_nth_ge {k : ℕ} (h : n ≤ k) : answer (.nth k) (tabulate n f) = (none, []) := by
  rw [answer, getElem?_tabulate, if_neg (by omega), List.drop_eq_nil_of_le]
  rw [length_tabulate]
  omega

theorem answer_nthBack_lt {k : ℕ} (h : k < n) : answer (.nthBack k) (tabulate n f) =
    (some (f (n-1-k)), tabulate (n-1-k) f) := by
  have hlt : k < (tabulate n f).length := by rwa [length_tabulate]
  rw [answer, List.getElem?_reverse hlt, length_tabulate, getElem?_tabulate, if_pos (by omega),
    take_tabulate, Nat.min_eq_left (Nat.sub_le ..), Nat.sub_add_eq, Nat.sub_right_comm]

theorem answer_nthBack_ge {k : ℕ} (h : n ≤ k) : answer (.nthBack k) (tabulate n f) = (none, []) := by
  have hlen : (tabulate n f).reverse.length ≤ k := by simpa using h
  rw [answer, List.getElem?_eq_none hlen, length_tabulate, Nat.sub_eq_zero_of_le (by omega),
    List.take_zero]

theorem getLast?_tabulate (h : 0 < n) : (tabulate n f).getLast? = some (f (n-1)) :=
  congrArg Prod.fst ((answer_nextBack (tabulate n f)).trans (answer_nthBack_lt h))

end Positions

end RustStd.ListIter
