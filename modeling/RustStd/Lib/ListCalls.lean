import RustStd.Lib.CallRuns

/-!
# Lists as iterators from both ends

A closure folds the elements until it breaks, and what is left of the list stays. What a closure
captures is part of its accumulator and of what it breaks with. A fold follows a specification when
every element moves the accumulator to one for the rest of the list.
-/

set_option autoImplicit false

namespace RustStd.ListCalls

variable {α β γ : Type}

def next (l : List α) : Option α × List α := (l.head?, l.tail)

def nextBack (l : List α) : Option α × List α := (l.getLast?, l.dropLast)

def nth (n : ℕ) (l : List α) : Option α × List α := (l[n]?, l.drop (n+1))

def nthBack (n : ℕ) (l : List α) : Option α × List α :=
  (l.reverse[n]?, l.take (l.length-(n+1)))

/-- How many elements are missing. -/
def advanced (n len : ℕ) : Except ℕ Unit := if n ≤ len then .ok () else .error (n-len)

def advanceBy (n : ℕ) (l : List α) : Except ℕ Unit × List α := (advanced n l.length, l.drop n)

def advanceBackBy (n : ℕ) (l : List α) : Except ℕ Unit × List α :=
  (advanced n l.length, l.take (l.length-n))

def tryFold (f : γ → α → Except β γ) : γ → List α → Except β γ × List α
  | acc, [] => (.ok acc, [])
  | acc, x :: l =>
    match f acc x with
    | .ok acc => tryFold f acc l
    | .error b => (.error b, l)

def tryRfold (f : γ → α → Except β γ) (acc : γ) (l : List α) : Except β γ × List α :=
  ((tryFold f acc l.reverse).1, (tryFold f acc l.reverse).2.reverse)

inductive Call (α β γ : Type)
  | next
  | nextBack
  | nth (n : ℕ)
  | nthBack (n : ℕ)
  | advanceBy (n : ℕ)
  | advanceBackBy (n : ℕ)
  | tryFold (init : γ) (fold : γ → α → Except β γ)
  | tryRfold (init : γ) (fold : γ → α → Except β γ)

inductive Answer (α β γ : Type)
  | item (x : Option α)
  | advanced (r : Except ℕ Unit)
  | folded (r : Except β γ)

def perform : Call α β γ → List α → Answer α β γ × List α
  | .next, l => (next l).map .item id
  | .nextBack, l => (nextBack l).map .item id
  | .nth n, l => (nth n l).map .item id
  | .nthBack n, l => (nthBack n l).map .item id
  | .advanceBy n, l => (advanceBy n l).map .advanced id
  | .advanceBackBy n, l => (advanceBackBy n l).map .advanced id
  | .tryFold init f, l => (tryFold f init l).map .folded id
  | .tryRfold init f, l => (tryRfold f init l).map .folded id

/-- A `usize` is not larger. -/
def Call.Fits : Call α β γ → Prop
  | .nth n => n < 2^64
  | .nthBack n => n < 2^64
  | .advanceBy n => n < 2^64
  | .advanceBackBy n => n < 2^64
  | _ => True

/-- The operations of an iterator; `none` is a panic, or a loop that does not end. -/
structure Iter (σ α : Type) where
  next : σ → Option (Option α × σ)
  nextBack : σ → Option (Option α × σ)
  nth : ℕ → σ → Option (Option α × σ)
  nthBack : ℕ → σ → Option (Option α × σ)
  advanceBy : ℕ → σ → Option (Except ℕ Unit × σ)
  advanceBackBy : ℕ → σ → Option (Except ℕ Unit × σ)
  tryFold : {β γ : Type} → (γ → α → Except β γ) → γ → σ → Option (Except β γ × σ)
  tryRfold : {β γ : Type} → (γ → α → Except β γ) → γ → σ → Option (Except β γ × σ)

namespace Iter

variable {σ ρ : Type} (it : Iter σ α)

def call : Call α β γ → σ → Option (Answer α β γ × σ)
  | .next, s => (it.next s).map (Prod.map .item id)
  | .nextBack, s => (it.nextBack s).map (Prod.map .item id)
  | .nth n, s => (it.nth n s).map (Prod.map .item id)
  | .nthBack n, s => (it.nthBack n s).map (Prod.map .item id)
  | .advanceBy n, s => (it.advanceBy n s).map (Prod.map .advanced id)
  | .advanceBackBy n, s => (it.advanceBackBy n s).map (Prod.map .advanced id)
  | .tryFold init f, s => (it.tryFold f init s).map (Prod.map .folded id)
  | .tryRfold init f, s => (it.tryRfold f init s).map (Prod.map .folded id)

/-- The result of an operation is that of the list, and so is what is left. -/
def Does (R : σ → List α → Prop) (result : Option (ρ × σ)) (t : ρ × List α) : Prop :=
  ∃ s', result = some (t.1, s') ∧ R s' t.2

structure Refines (R : σ → List α → Prop) : Prop where
  next : ∀ s l, R s l → Does R (it.next s) (ListCalls.next l)
  nextBack : ∀ s l, R s l → Does R (it.nextBack s) (ListCalls.nextBack l)
  nth : ∀ n s l, n < 2^64 → R s l → Does R (it.nth n s) (ListCalls.nth n l)
  nthBack : ∀ n s l, n < 2^64 → R s l → Does R (it.nthBack n s) (ListCalls.nthBack n l)
  advanceBy : ∀ n s l, n < 2^64 → R s l → Does R (it.advanceBy n s) (ListCalls.advanceBy n l)
  advanceBackBy : ∀ n s l, n < 2^64 → R s l →
    Does R (it.advanceBackBy n s) (ListCalls.advanceBackBy n l)
  tryFold : ∀ {β γ : Type} (f : γ → α → Except β γ) init s l, R s l →
    Does R (it.tryFold f init s) (ListCalls.tryFold f init l)
  tryRfold : ∀ {β γ : Type} (f : γ → α → Except β γ) init s l, R s l →
    Does R (it.tryRfold f init s) (ListCalls.tryRfold f init l)

/-- In every order of calls the iterator answers as the list, and `P` holds at the end. -/
def Follows (P : σ → List α → Prop) (s : σ) (l : List α) : Prop :=
  ∀ {β γ : Type}, CallRuns.Follows (it.call : Call α β γ → _) perform Call.Fits P s l

variable {it} {R P : σ → List α → Prop}

theorem Does.map {result : Option (ρ × σ)} {t : ρ × List α} (h : Does R result t) {ρ' : Type}
    (g : ρ → ρ') : Does R (result.map (Prod.map g id)) (t.map g id) := by
  obtain ⟨s', heq, hs'⟩ := h
  refine ⟨s', ?_, hs'⟩
  rw [heq]
  rfl

theorem Refines.takes (h : it.Refines R) (c : Call α β γ) (s : σ) (l : List α) (hfits : c.Fits)
    (hs : R s l) : Does R (it.call c s) (perform c l) := by
  cases c with
  | next => exact (h.next s l hs).map _
  | nextBack => exact (h.nextBack s l hs).map _
  | nth n => exact (h.nth n s l hfits hs).map _
  | nthBack n => exact (h.nthBack n s l hfits hs).map _
  | advanceBy n => exact (h.advanceBy n s l hfits hs).map _
  | advanceBackBy n => exact (h.advanceBackBy n s l hfits hs).map _
  | tryFold init f => exact (h.tryFold f init s l hs).map _
  | tryRfold init f => exact (h.tryRfold f init s l hs).map _

theorem Refines.follows (h : it.Refines R) (hP : ∀ s l, R s l → P s l) {s : σ} {l : List α}
    (hs : R s l) : it.Follows P s l :=
  CallRuns.follows_of_takes h.takes hP hs

end Iter

def skipThen {σ : Type} (take : σ → Option (Option α × σ)) :
    Except ℕ Unit × σ → Option (Option α × σ)
  | (.error _, s) => some (none, s)
  | (.ok _, s) => take s

/-- One element less to skip; the fold breaks at the last one. -/
def countdown (n : ℕ) (_ : α) : Except Unit ℕ := if n-1 = 0 then .error () else .ok (n-1)

def counted : Except Unit ℕ → Except ℕ Unit
  | .ok n => .error n
  | .error () => .ok ()

def advanceByFold {σ : Type}
    (tryFold : (ℕ → α → Except Unit ℕ) → ℕ → σ → Option (Except Unit ℕ × σ)) (n : ℕ) (s : σ) :
    Option (Except ℕ Unit × σ) :=
  if n = 0 then some (.ok (), s) else (tryFold countdown n s).map (Prod.map counted id)

def advanceBackByNext {σ : Type} (nextBack : σ → Option (Option α × σ)) :
    ℕ → σ → Option (Except ℕ Unit × σ)
  | 0, s => some (.ok (), s)
  | n+1, s =>
    match nextBack s with
    | none => none
    | some (none, s) => some (.error (n+1), s)
    | some (some _, s) => advanceBackByNext nextBack n s

/-! ## Folds that may break -/

section Folds

variable {f : γ → α → Except β γ}

/-- What holds at the end of a fold, or when it breaks. -/
def Ends {σ : Type} (P : γ → σ → Prop) (Q : β → σ → Prop) : Except β γ × σ → Prop
  | (.ok acc, s) => P acc s
  | (.error b, s) => Q b s

theorem Ends.imp {σ : Type} {P P' : γ → σ → Prop} {Q Q' : β → σ → Prop} {r : Except β γ × σ}
    (h : Ends P Q r) (hP : ∀ acc s, P acc s → P' acc s) (hQ : ∀ b s, Q b s → Q' b s) :
    Ends P' Q' r := by
  rcases r with ⟨_ | _, s⟩
  · exact hQ _ s h
  · exact hP _ s h

/-- One element of a fold. -/
def Steps (f : γ → α → Except β γ) (P : γ → List α → Prop) (Q : β → List α → Prop) : Prop :=
  ∀ acc x l, P acc (x :: l) → Ends (fun acc _ => P acc l) (fun b _ => Q b l) (f acc x, ())

theorem tryFold_ends {P : γ → List α → Prop} {Q : β → List α → Prop} (h : Steps f P Q) {acc : γ}
    {l : List α} (hP : P acc l) :
    Ends (fun acc rest => rest = [] ∧ P acc []) Q (tryFold f acc l) := by
  induction l generalizing acc with
  | nil => exact ⟨rfl, hP⟩
  | cons x l ih =>
    have hstep := h acc x l hP
    rw [tryFold]
    generalize f acc x = r at hstep ⊢
    rcases r with _ | _
    · exact hstep
    · exact ih hstep

theorem tryFold_length_le (f : γ → α → Except β γ) (acc : γ) (l : List α) :
    (tryFold f acc l).2.length ≤ l.length := by
  induction l generalizing acc with
  | nil => exact le_rfl
  | cons x l ih =>
    rw [tryFold]
    cases f acc x with
    | ok acc => exact (ih acc).trans (Nat.le_succ _)
    | error b => exact Nat.le_succ _

theorem tryFold_append (f : γ → α → Except β γ) (acc : γ) (l m : List α) :
    tryFold f acc (l ++ m) =
      match tryFold f acc l with
      | (.ok acc, _) => tryFold f acc m
      | (.error b, rest) => (.error b, rest ++ m) := by
  induction l generalizing acc with
  | nil => rfl
  | cons x l ih =>
    rw [List.cons_append, tryFold, tryFold]
    cases f acc x with
    | ok acc => exact ih acc
    | error b => rfl

theorem advanced_ok {n len : ℕ} (h : n ≤ len) : advanced n len = .ok () := if_pos h

theorem advanced_error {n len : ℕ} (h : len < n) : advanced n len = .error (n-len) :=
  if_neg (Nat.not_le_of_lt h)

end Folds

/-! ## Parts of a list -/

theorem advanced_sub {n k : ℕ} (h : k < n) (m : ℕ) : advanced (n-k) m = advanced n (k+m) := by
  have hle : n-k ≤ m ↔ n ≤ k+m := by omega
  rw [advanced, advanced, Nat.sub_sub]
  simp only [hle]

theorem advanceBy_cons {n : ℕ} (hn : 0 < n) (x : α) (m : List α) :
    advanceBy n (x :: m) = advanceBy (n-1) m := by
  obtain ⟨k, rfl⟩ := Nat.exists_eq_succ_of_ne_zero hn.ne'
  rw [advanceBy, advanceBy, List.length_cons, Nat.succ_sub_one,
    List.drop_succ_cons, advanced, advanced, Nat.succ_sub_succ]
  simp only [Nat.succ_le_succ_iff]

theorem nextBack_concat (l : List α) (x : α) : nextBack (l ++ [x]) = (some x, l) := by
  rw [nextBack, List.getLast?_concat, List.dropLast_concat]

/-! ## The reversed list -/

theorem nextBack_reverse (l : List α) : nextBack l.reverse = (next l).map id List.reverse := by
  rw [nextBack, List.getLast?_reverse, List.dropLast_reverse]
  rfl

theorem advanceBackBy_reverse (n : ℕ) (l : List α) :
    advanceBackBy n l.reverse = (advanceBy n l).map id List.reverse := by
  rw [advanceBackBy, List.length_reverse, List.take_reverse, advanceBy]
  by_cases hn : n ≤ l.length
  · rw [Nat.sub_sub_self hn]
    rfl
  · have hzero : l.length-n = 0 := by omega
    rw [hzero, Nat.sub_zero, List.drop_length, List.drop_eq_nil_of_le (by omega)]
    rfl

theorem tryRfold_reverse (f : γ → α → Except β γ) (acc : γ) (l : List α) :
    tryRfold f acc l.reverse = (tryFold f acc l).map id List.reverse := by
  rw [tryRfold, List.reverse_reverse]
  rfl

/-! ## `nth` by skipping -/

theorem nth_eq (n : ℕ) (l : List α) :
    nth n l = match advanceBy n l with
      | (.error _, l) => (none, l)
      | (.ok _, l) => next l := by
  rw [nth, advanceBy]
  by_cases hn : n ≤ l.length
  · rw [advanced_ok hn]
    simp only [next, List.head?_drop, List.tail_drop]
  · have hlt : l.length < n := Nat.lt_of_not_le hn
    rw [advanced_error hlt, List.getElem?_eq_none hlt.le, List.drop_eq_nil_of_le hlt.le,
      List.drop_eq_nil_of_le (Nat.le_succ_of_le hlt.le)]

theorem nthBack_eq (n : ℕ) (l : List α) :
    nthBack n l = match advanceBackBy n l with
      | (.error _, l) => (none, l)
      | (.ok _, l) => nextBack l := by
  rw [nthBack, advanceBackBy]
  by_cases hn : n ≤ l.length
  · rw [advanced_ok hn]
    have htake : l.length-(n+1) = l.length-n-1 := by omega
    have hlast : (l.take (l.length-n)).getLast? = l.reverse[n]? := by
      rw [← List.head?_reverse, List.reverse_take, List.head?_drop]
      congr 1
      omega
    simp only [nextBack, hlast, List.dropLast_eq_take, List.length_take, List.take_take, htake]
    congr 2
    omega
  · have hlt : l.length < n := Nat.lt_of_not_le hn
    rw [advanced_error hlt, List.getElem?_eq_none (by rw [List.length_reverse]; exact hlt.le),
      Nat.sub_eq_zero_of_le hlt.le, Nat.sub_eq_zero_of_le (Nat.le_succ_of_le hlt.le)]

/-! ## Skipping by other methods -/

theorem advanceBy_countdown {n : ℕ} (hn : n ≠ 0) (l : List α) :
    advanceBy n l = (tryFold countdown n l).map counted id := by
  induction l generalizing n with
  | nil =>
    rw [advanceBy, List.length_nil, advanced_error (by omega), List.drop_nil]
    rfl
  | cons x l ih =>
    obtain ⟨k, rfl⟩ := Nat.exists_eq_succ_of_ne_zero hn
    rw [advanceBy_cons (by omega), Nat.succ_sub_one, tryFold, countdown]
    by_cases hk : k = 0
    · subst hk
      rfl
    · rw [if_neg (by rwa [Nat.succ_sub_one]), ih hk]
      rfl

theorem advanceBackBy_succ (n : ℕ) (l : List α) (x : α) :
    advanceBackBy (n+1) (l ++ [x]) = advanceBackBy n l := by
  have hle : n+1 ≤ l.length+1 ↔ n ≤ l.length := by omega
  rw [advanceBackBy, advanceBackBy, List.length_append, List.length_singleton, advanced, advanced,
    Nat.add_sub_add_right, Nat.add_sub_add_right, List.take_append_of_le_length (Nat.sub_le _ _)]
  simp only [hle]

namespace Iter

variable {σ : Type} {R : σ → List α → Prop} {n : ℕ} {l : List α} {r : Except ℕ Unit × σ}

theorem does_advanceBy
    {tryFold : (ℕ → α → Except Unit ℕ) → ℕ → σ → Option (Except Unit ℕ × σ)}
    (h : ∀ f acc s l, R s l → Does R (tryFold f acc s) (ListCalls.tryFold f acc l)) {s : σ}
    (hs : R s l) : Does R (advanceByFold tryFold n s) (ListCalls.advanceBy n l) := by
  rw [advanceByFold]
  by_cases hn : n = 0
  · rw [if_pos hn, hn]
    refine ⟨s, ?_, hs⟩
    rw [ListCalls.advanceBy, advanced_ok (Nat.zero_le _)]
  · rw [if_neg hn, advanceBy_countdown hn]
    exact (h _ _ _ _ hs).map _

theorem does_advanceBackBy {nextBack : σ → Option (Option α × σ)}
    (h : ∀ s l, R s l → Does R (nextBack s) (ListCalls.nextBack l)) {s : σ} (hs : R s l) :
    Does R (advanceBackByNext nextBack n s) (ListCalls.advanceBackBy n l) := by
  induction n generalizing s l with
  | zero =>
    refine ⟨s, ?_, ?_⟩
    · rw [advanceBackByNext, ListCalls.advanceBackBy, advanced_ok (Nat.zero_le _)]
    · rw [ListCalls.advanceBackBy, Nat.sub_zero, List.take_length]
      exact hs
  | succ n ih =>
    obtain ⟨s', hback, hs'⟩ := h s l hs
    rw [advanceBackByNext, hback]
    rcases List.eq_nil_or_concat l with rfl | ⟨m, x, rfl⟩
    · refine ⟨s', ?_, ?_⟩
      · rw [ListCalls.advanceBackBy, List.length_nil, advanced_error (Nat.succ_pos n)]
        rfl
      · rw [ListCalls.advanceBackBy, List.take_nil]
        exact hs'
    · rw [List.concat_eq_append] at hs' ⊢
      rw [nextBack_concat] at hs' ⊢
      rw [advanceBackBy_succ]
      exact ih hs'

theorem Does.nth {take : σ → Option (Option α × σ)} (h : Does R (some r) (ListCalls.advanceBy n l))
    (htake : ∀ s l, R s l → Does R (take s) (ListCalls.next l)) :
    Does R (skipThen take r) (ListCalls.nth n l) := by
  obtain ⟨s, hr, hs⟩ := h
  obtain rfl := Option.some_inj.mp hr
  rw [nth_eq]
  generalize ListCalls.advanceBy n l = t at hs ⊢
  rcases t with ⟨_ | _, l'⟩
  · exact ⟨s, rfl, hs⟩
  · exact htake s l' hs

theorem Does.nthBack {take : σ → Option (Option α × σ)}
    (h : Does R (some r) (ListCalls.advanceBackBy n l))
    (htake : ∀ s l, R s l → Does R (take s) (ListCalls.nextBack l)) :
    Does R (skipThen take r) (ListCalls.nthBack n l) := by
  obtain ⟨s, hr, hs⟩ := h
  obtain rfl := Option.some_inj.mp hr
  rw [nthBack_eq]
  generalize ListCalls.advanceBackBy n l = t at hs ⊢
  rcases t with ⟨_ | _, l'⟩
  · exact ⟨s, rfl, hs⟩
  · exact htake s l' hs

end Iter

end RustStd.ListCalls
