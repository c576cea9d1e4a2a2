import RustStd.Iter.FlattenSpec

/-!
# `Flatten` over inner iterators of at most one element

Nothing is ever left of an inner iterator that was taken, so all that remains is in the outer one.
Exchanging its ends reverses the concatenation, and the backward methods follow from the forward
ones. Together with the general implementation this is what the adapter does.
-/

set_option autoImplicit false

namespace RustStd.Flattening
open RustStd.Loop RustStd.ListCalls RustStd.Usize

variable {α β γ κ ρ : Type}

/-! ## Inner iterators of at most one element -/

namespace OneShot
open FlattenCompat

variable {fused : Bool} {self : FlattenCompat α} {C : List α → Prop} {l : List α}

/-- What is left is in the outer iterator, whose inner ones have at most one element. -/
structure Holds (C : List α → Prop) (s : FlattenCompat α) (l : List α) : Prop where
  rest_eq : (s.iter.getD []).flatten = l
  outer : ∀ b ∈ s.iter.getD [], b.length ≤ 1 ∧ C b

/-- A block of at most one element in a fold. -/
def SplitsOne (fold : γ → List α → Except β γ) (I : γ → Prop) (F : γ → List α → ρ × List α)
    (brk : β → ρ) : Prop :=
  ∀ acc l m, I acc → l.length ≤ 1 → Ends (fun acc' _ => I acc' ∧ F acc' m = F acc (l ++ m))
    (fun b _ => (brk b, m) = F acc (l ++ m)) (fold acc l, ())

theorem Holds.fold_does {fold : γ → List α → Except β γ} {I : γ → Prop}
    {F : γ → List α → ρ × List α} {brk : β → ρ} (done : γ → ρ) (fused : Bool) (h : Holds C self l)
    (hfold : SplitsOne fold I F brk) (hnil : ∀ acc, I acc → F acc [] = (done acc, []))
    (acc : γ) (hI : I acc) :
    Iter.Does (Holds C) (some (match Fuse.tryFold fused fold acc self.iter with
      | (.ok acc, iter) => (done acc, { self with iter })
      | (.error b, iter) => (brk b, { self with iter }))) (F acc l) := by
  have hsteps : Steps fold
      (fun acc' ls => (I acc' ∧ F acc' ls.flatten = F acc l) ∧ ∀ b ∈ ls, b.length ≤ 1 ∧ C b)
      (fun b ls => (brk b, ls.flatten) = F acc l ∧ ∀ b ∈ ls, b.length ≤ 1 ∧ C b) := by
    intro acc' b ls hP
    obtain ⟨⟨hI, hF⟩, hones⟩ := hP
    have hstep := hfold acc' b ls.flatten hI (hones b List.mem_cons_self).1
    have hrest : ∀ b' ∈ ls, b'.length ≤ 1 ∧ C b' := fun b' hb' =>
      hones b' (List.mem_cons_of_mem b hb')
    rw [List.flatten_cons] at hF
    rw [hF] at hstep
    exact hstep.imp (fun _ _ h => ⟨h, hrest⟩) fun _ _ h => ⟨h, hrest⟩
  have hstart : (I acc ∧ F acc (self.iter.getD []).flatten = F acc l) ∧
      ∀ b ∈ self.iter.getD [], b.length ≤ 1 ∧ C b := by
    rw [h.rest_eq]
    exact ⟨⟨hI, rfl⟩, h.outer⟩
  have hends : Ends _ _ (Fuse.tryFold fused fold acc self.iter) :=
    Fuse.tryCall_ends rfl (tryFold_ends hsteps hstart)
  generalize Fuse.tryFold fused fold acc self.iter = r at hends ⊢
  rcases r with ⟨b | acc', iter⟩
  · rw [← hends.1]
    exact ⟨_, rfl, rfl, hends.2⟩
  · obtain ⟨hiter, ⟨hI', hF⟩, -⟩ := hends
    rw [List.flatten_nil, hnil acc' hI'] at hF
    rw [← hF]
    refine ⟨_, rfl, ?_, ?_⟩
    · rw [hiter]
      rfl
    · rw [hiter]
      exact fun b hb => absurd hb List.not_mem_nil

theorem tryFlattenOne_splits (f : γ → α → Except β γ) :
    SplitsOne (tryFlattenOne f) (fun _ => True) (ListCalls.tryFold f) Except.error := by
  intro acc l m _ hl
  rcases l with _ | ⟨x, _ | _⟩
  · exact ⟨trivial, rfl⟩
  · change Ends _ _ (f acc x, ())
    rw [List.singleton_append, ListCalls.tryFold]
    rcases f acc x with _ | _
    · rfl
    · exact ⟨trivial, rfl⟩
  · simp at hl

theorem advanceByOne_splits :
    SplitsOne (advanceByOne : ℕ → List α → _) (fun n => 0 < n) ListCalls.advanceBy Except.ok := by
  intro n l m hn hl
  rcases l with _ | ⟨x, _ | _⟩
  · exact ⟨hn, rfl⟩
  · rw [List.singleton_append, advanceBy_cons hn]
    change Ends _ _ (if n-1 = 0 then Except.error () else Except.ok (n-1), ())
    split
    · rename_i hlast
      rw [hlast]
      rfl
    · exact ⟨Nat.pos_of_ne_zero ‹_›, rfl⟩
  · simp at hl

theorem tryFold_does (f : γ → α → Except β γ) (init : γ) (fused : Bool) (h : Holds C self l) :
    Iter.Does (Holds C) (some (tryFold fused self f init)) (ListCalls.tryFold f init l) := by
  have hdoes := h.fold_does .ok fused (tryFlattenOne_splits f) (fun _ _ => rfl) init trivial
  rw [tryFold]
  generalize Fuse.tryFold fused (tryFlattenOne f) init self.iter = r at hdoes ⊢
  rcases r with ⟨_ | _, _⟩ <;> exact hdoes

theorem advanceBy_does (n : ℕ) (fused : Bool) (h : Holds C self l) :
    Iter.Does (Holds C) (some (advanceBy fused self n)) (ListCalls.advanceBy n l) := by
  rw [advanceBy]
  split
  · rename_i hn
    have hnil : ∀ n, 0 < n → ListCalls.advanceBy n ([] : List α) = (.error n, []) := by
      intro n hn
      rw [ListCalls.advanceBy, List.drop_nil]
      rw [List.length_nil, advanced_error hn, Nat.sub_zero]
    have hdoes := h.fold_does .error fused advanceByOne_splits hnil n (Nat.pos_of_ne_zero hn)
    generalize Fuse.tryFold fused advanceByOne n self.iter = r at hdoes ⊢
    rcases r with ⟨_ | _, _⟩ <;> exact hdoes
  · rename_i hn
    obtain rfl := of_not_not hn
    exact ⟨_, rfl, h⟩

/-! ### The loop -/

theorem loop_does (fused : Bool) (h : Holds C self l) :
    Iter.Does (Holds C) (next fused self) (ListCalls.next l) := by
  rw [next, rounds]
  induction hls : self.iter.getD [] generalizing self l with
  | nil =>
    obtain ⟨iter, hnext, hiter, -⟩ := Fuse.next_nil hls fused
    have hl : l = [] := by
      rw [← h.rest_eq, hls]
      rfl
    have hstep : nextStep (Fuse.next fused) self = some (.inr (none, { self with iter })) := by
      rw [nextStep, hnext]
    rw [List.length_nil, loop, hstep, hl]
    refine ⟨_, rfl, ?_, ?_⟩
    · rw [hiter]
      rfl
    · rw [hiter]
      exact fun b hb => absurd hb List.not_mem_nil
  | cons b ls ih =>
    obtain ⟨hiter, hnext⟩ := Fuse.next_cons hls fused
    have hones := h.outer
    rw [hls] at hones
    have hrest : l = b ++ ls.flatten := by
      rw [← h.rest_eq, hls, List.flatten_cons]
    have hholds : Holds C { self with iter := some ls } ls.flatten :=
      ⟨rfl, fun b' hb' => hones b' (List.mem_cons_of_mem b hb')⟩
    have hone := (hones b List.mem_cons_self).1
    rw [loop, nextStep, hnext]
    rcases b with _ | ⟨x, _ | _⟩
    · rw [hrest]
      have hls' : ({ self with iter := some ls } : FlattenCompat α).iter.getD [] = ls := rfl
      exact ih hholds hls'
    · rw [hrest]
      exact ⟨_, rfl, hholds⟩
    · simp at hone

/-! ### The ends exchanged -/

theorem Holds.swap (h : Holds C self l) : Holds C self.swap l.reverse := by
  have hones : ∀ ls : List (List α), (∀ b ∈ ls, b.length ≤ 1) →
      ls.reverse.flatten = ls.flatten.reverse := by
    intro ls
    induction ls with
    | nil => exact fun _ => rfl
    | cons b ls ih =>
      intro h
      have hb : b.reverse = b := by
        have hlen := h b List.mem_cons_self
        rcases b with _ | ⟨x, _ | _⟩
        · rfl
        · rfl
        · simp at hlen
      rw [List.reverse_cons, List.flatten_concat, List.flatten_cons, List.reverse_append, hb,
        ih fun b' hb' => h b' (List.mem_cons_of_mem b hb')]
  refine ⟨?_, ?_⟩
  · rw [FlattenCompat.swap, getD_map_reverse, hones _ fun b hb => (h.outer b hb).1, h.rest_eq]
  · rw [FlattenCompat.swap, getD_map_reverse]
    exact fun b hb => h.outer b (List.mem_reverse.mp hb)

theorem does_swap {r : Option (ρ × FlattenCompat α)} {t : ρ × List α}
    (h : Iter.Does (Holds C) r t) :
    Iter.Does (Holds C) (r.map (Prod.map id FlattenCompat.swap)) (t.map id List.reverse) := by
  obtain ⟨self', rfl, hself⟩ := h
  exact ⟨self'.swap, rfl, hself.swap⟩

theorem nextStep_swap (fused : Bool) (self : FlattenCompat α) :
    nextStep (Fuse.nextBack fused) self.swap =
      (nextStep (Fuse.next fused) self).map
        (Sum.map FlattenCompat.swap (Prod.map id FlattenCompat.swap)) := by
  rw [nextStep, nextStep]
  simp only [FlattenCompat.swap, fuse_nextBack]
  generalize Fuse.next fused self.iter = r
  rcases r with ⟨_ | b, _⟩
  · rfl
  · simp only [Prod.map, id]
    cases intoItem b <;> rfl

theorem nextBack_does (fused : Bool) (h : Holds C self l) :
    Iter.Does (Holds C) (nextBack fused self) (ListCalls.nextBack l) := by
  have hwrap := loop_wrap FlattenCompat.swap (Prod.map id FlattenCompat.swap)
    (nextStep_swap fused) self.rounds self.swap
  rw [swap_swap] at hwrap
  have hdoes := does_swap (loop_does fused h.swap)
  rw [← nextBack_reverse, List.reverse_reverse, next, rounds_swap, ← hwrap] at hdoes
  exact hdoes

theorem tryRfold_swap (f : γ → α → Except β γ) (init : γ) (fused : Bool) (self : FlattenCompat α) :
    some (tryRfold fused self f init) =
      (some (tryFold fused self.swap f init)).map (Prod.map id FlattenCompat.swap) := by
  rw [tryRfold, tryFold, Fuse.tryRfold_eq]
  rfl

theorem tryRfold_does (f : γ → α → Except β γ) (init : γ) (fused : Bool) (h : Holds C self l) :
    Iter.Does (Holds C) (some (tryRfold fused self f init)) (ListCalls.tryRfold f init l) := by
  have hdoes := does_swap (tryFold_does f init fused h.swap)
  rw [← tryRfold_reverse, List.reverse_reverse, ← tryRfold_swap] at hdoes
  exact hdoes

theorem advanceBackBy_swap (n : ℕ) (fused : Bool) (self : FlattenCompat α) :
    some (advanceBackBy fused self n) =
      (some (advanceBy fused self.swap n)).map (Prod.map id FlattenCompat.swap) := by
  rw [advanceBackBy, advanceBy]
  split
  · rw [Fuse.tryRfold_eq]
    rfl
  · rw [Option.map_some]
    change _ = some (_, self.swap.swap)
    rw [swap_swap]
    rfl

theorem advanceBackBy_does (n : ℕ) (fused : Bool) (h : Holds C self l) :
    Iter.Does (Holds C) (some (advanceBackBy fused self n)) (ListCalls.advanceBackBy n l) := by
  have hdoes := does_swap (advanceBy_does n fused h.swap)
  rw [← advanceBackBy_reverse, List.reverse_reverse, ← advanceBackBy_swap] at hdoes
  exact hdoes

theorem special_refines (fused : Bool) (C : List α → Prop) : (special fused).Refines (Holds C) where
  next _ _ h := loop_does fused h
  nextBack _ _ h := nextBack_does fused h
  nth n _ _ _ h := (advanceBy_does n fused h).nth fun _ _ h => loop_does fused h
  nthBack n _ _ _ h := (advanceBackBy_does n fused h).nthBack fun _ _ h => nextBack_does fused h
  advanceBy n _ _ _ h := advanceBy_does n fused h
  advanceBackBy n _ _ _ h := advanceBackBy_does n fused h
  tryFold f init _ _ h := tryFold_does f init fused h
  tryRfold f init _ _ h := tryRfold_does f init fused h

/-! ### Folds that take everything -/

theorem items_eq (h : Holds C self l) : items self = l := by
  have hones : ∀ ls : List (List α), (∀ b ∈ ls, b.length ≤ 1) →
      ls.filterMap intoItem = ls.flatten := by
    intro ls
    induction ls with
    | nil => exact fun _ => rfl
    | cons b ls ih =>
      intro h
      have hb := h b List.mem_cons_self
      rw [List.flatten_cons, ← ih fun b' hb' => h b' (List.mem_cons_of_mem b hb')]
      rcases b with _ | ⟨x, _ | _⟩
      · rfl
      · rfl
      · simp at hb
  rw [items, hones _ fun b hb => (h.outer b hb).1, h.rest_eq]

theorem foldl_flattenOne (f : γ → α → γ) (ls : List (List α)) (acc : γ) :
    ls.foldl (flattenOne f) acc = (ls.filterMap intoItem).foldl f acc := by
  induction ls generalizing acc with
  | nil => rfl
  | cons b ls ih =>
    rw [List.foldl_cons, ih]
    rcases b with _ | ⟨x, _⟩ <;> rfl

theorem fold_eq (f : γ → α → γ) (init : γ) (h : Holds C self l) :
    fold self f init = l.foldl f init := by
  rw [← items_eq h, items, ← foldl_flattenOne, fold]
  cases self.iter <;> rfl

theorem rfold_eq (f : γ → α → γ) (init : γ) (h : Holds C self l) :
    rfold self f init = l.reverse.foldl f init := by
  rw [← items_eq h, items, ← List.filterMap_reverse, ← foldl_flattenOne, rfold]
  cases self.iter <;> rfl

theorem sizeHint_brackets {hints : Hints α} (hv : hints.Valid) (h : Holds hints.Sized self l) :
    Brackets (sizeHint self hints) l.length := by
  have houter := fuseHint_brackets hv self.iter
  rw [← h.rest_eq]
  have hone : ∀ ls : List (List α), (∀ b ∈ ls, b.length ≤ 1) → ls.flatten.length ≤ ls.length := by
    intro ls
    induction ls with
    | nil => exact fun _ => le_rfl
    | cons b ls ih =>
      intro h
      have hb := h b List.mem_cons_self
      have hls := ih fun b' hb' => h b' (List.mem_cons_of_mem b hb')
      rw [List.flatten_cons, List.length_append, List.length_cons]
      omega
  have hle := hone _ fun b hb => (h.outer b hb).1
  have hsized : ∀ k ∈ hints.fixedSize, (self.iter.getD []).flatten.length =
      (self.iter.getD []).length*k := fun k hk =>
    length_flatten_of_sized fun b hb => (h.outer b hb).2 k hk
  rw [sizeHint]
  generalize Fuse.sizeHint hints.outer self.iter = o at houter ⊢
  simp only
  split
  · rename_i hk
    rw [hsized 0 hk, Nat.mul_zero]
    exact ⟨le_rfl, fun u _ => Nat.zero_le u⟩
  · rename_i hk
    rw [hsized 1 hk, Nat.mul_one]
    exact houter
  · exact ⟨Nat.zero_le _, fun u hu => hle.trans (houter.2 u hu)⟩

end OneShot

/-! ## Both implementations -/

/-- What takes an iterator with all its elements, and its size hint. -/
structure Totals (α : Type) where
  fold : {γ : Type} → (γ → α → γ) → γ → FlattenCompat α → γ
  rfold : {γ : Type} → (γ → α → γ) → γ → FlattenCompat α → γ
  count : FlattenCompat α → Option ℕ
  last : FlattenCompat α → Option α
  sizeHint : FlattenCompat α → ℕ × Option ℕ

/-- They are those of a list; the length may overflow. -/
structure Totals.Agree (t : Totals α) (s : FlattenCompat α) (l : List α) : Prop where
  fold : ∀ {γ : Type} (f : γ → α → γ) init, t.fold f init s = l.foldl f init
  rfold : ∀ {γ : Type} (f : γ → α → γ) init, t.rfold f init s = l.reverse.foldl f init
  count : t.count s = Checked.unsigned 64 l.length
  last : t.last s = l.getLast?
  sizeHint : FlattenCompat.Brackets (t.sizeHint s) l.length

def generalTotals (hints : FlattenCompat.Hints α) : Totals α :=
  { fold := fun f init s => s.fold f init, rfold := fun f init s => s.rfold f init
    count := FlattenCompat.count, last := FlattenCompat.last, sizeHint := fun s => s.sizeHint hints }

def specialTotals (hints : FlattenCompat.Hints α) : Totals α :=
  { fold := fun f init s => OneShot.fold s f init, rfold := fun f init s => OneShot.rfold s f init
    count := OneShot.count, last := OneShot.last, sizeHint := fun s => OneShot.sizeHint s hints }

/-- In every order of calls the adapter answers as the concatenation, and so does the
implementation for inner iterators of at most one element. -/
theorem flatten_follows {hints : FlattenCompat.Hints α} (hv : hints.Valid) (fused : Bool)
    {iter : List (List α)} (hsized : ∀ b ∈ iter, hints.Sized b) :
    (FlattenCompat.general fused).Follows (generalTotals hints).Agree (new iter) iter.flatten ∧
      ((∀ b ∈ iter, b.length ≤ 1) →
        (OneShot.special fused).Follows (specialTotals hints).Agree (new iter) iter.flatten) := by
  constructor
  · apply (FlattenCompat.general_refines fused hints.Sized).follows
    · intro s l h
      exact ⟨fun f init => by rw [← h.rest_eq]; exact FlattenCompat.fold_eq f init,
        fun f init => by rw [← h.rest_eq]; exact FlattenCompat.rfold_eq f init,
        by rw [← h.rest_eq]; exact FlattenCompat.count_eq,
        by rw [← h.rest_eq]; exact FlattenCompat.last_eq, FlattenCompat.sizeHint_brackets hv h⟩
    · refine ⟨?_, hsized⟩
      rw [FlattenCompat.rest, FlattenCompat.blocks]
      exact congrArg List.flatten (List.append_nil iter)
  · intro hones
    apply (OneShot.special_refines fused hints.Sized).follows
    · intro s l h
      exact ⟨fun f init => OneShot.fold_eq f init h, fun f init => OneShot.rfold_eq f init h,
        congrArg FlattenCompat.countList (OneShot.items_eq h),
        congrArg List.getLast? (OneShot.items_eq h), OneShot.sizeHint_brackets hv h⟩
    · exact ⟨rfl, fun b hb => ⟨hones b hb, hsized b hb⟩⟩

def exactHints (α : Type) : FlattenCompat.Hints α :=
  { inner := fun l => (l.length, some l.length), outer := fun ls => (ls.length, some ls.length)
    fixedSize := none }

theorem exactHints_valid (α : Type) : (exactHints α).Valid := by
  have hexact : ∀ n, FlattenCompat.Brackets (n, some n) n := fun n =>
    ⟨le_rfl, fun u hu => (Option.some_inj.mp hu).le⟩
  exact ⟨fun l => hexact l.length, fun ls => hexact ls.length⟩

theorem flatten_follows_ones :
    (FlattenCompat.general false).Follows (generalTotals (exactHints ℕ)).Agree
        (new [[1], [], [2]]) [1, 2] ∧
      (OneShot.special false).Follows (specialTotals (exactHints ℕ)).Agree
        (new [[1], [], [2]]) [1, 2] := by
  have hsized : ∀ b ∈ [[1], [], [2]], (exactHints ℕ).Sized b := fun _ _ _ hk => by cases hk
  have h := flatten_follows (exactHints_valid ℕ) false hsized
  exact ⟨h.1, h.2 (by decide)⟩

end RustStd.Flattening
