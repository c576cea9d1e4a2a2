import RustStd.Iter.Flatten

/-!
# The blocks of a flattened iterator

The blocks of a state are the inner iterator at the front, the outer list and the inner iterator at
the back. Every forward method is a fold over the blocks that may break, also `next`; backwards the
same holds of the state with its ends exchanged. A fold over a block that agrees with a function of
the whole concatenation computes that function.
-/

set_option autoImplicit false

namespace RustStd.Flattening
open RustStd.Loop RustStd.ListCalls RustStd.Usize

variable {α β γ κ ρ : Type}

theorem Fuse.next_nil {iter : Option (List κ)} (h : iter.getD [] = []) (fused : Bool) :
    ∃ iter', Fuse.next fused iter = (none, iter') ∧ iter'.getD [] = [] ∧
      ∀ {β γ : Type} (f : γ → κ → Except β γ) acc,
        Fuse.tryFold fused f acc iter = (.ok acc, iter') := by
  rcases iter with _ | ls
  · exact ⟨none, by cases fused <;> rfl, rfl, fun _ _ => rfl⟩
  · rw [Option.getD_some] at h
    subst h
    cases fused
    · exact ⟨none, rfl, rfl, fun _ _ => rfl⟩
    · exact ⟨some [], rfl, rfl, fun _ _ => rfl⟩

theorem Fuse.next_cons {iter : Option (List κ)} {x : κ} {ls : List κ} (h : iter.getD [] = x :: ls)
    (fused : Bool) : iter = some (x :: ls) ∧ Fuse.next fused iter = (some x, some ls) := by
  rcases iter with _ | ls
  · cases h
  · rw [Option.getD_some] at h
    subst h
    cases fused <;> exact ⟨rfl, rfl⟩

theorem Fuse.tryCall_ends {fused : Bool} {op : γ → List κ → Except β γ × List κ} {acc : γ}
    {iter : Option (List κ)} {P : γ → Prop} {Q : β → List κ → Prop} (hnil : op acc [] = (.ok acc, []))
    (h : Ends (fun acc rest => rest = [] ∧ P acc) Q (op acc (iter.getD []))) :
    Ends (fun acc iter' => iter'.getD [] = [] ∧ P acc) (fun b iter' => Q b (iter'.getD []))
      (tryCall fused op acc iter) := by
  cases iter with
  | none =>
    rw [Option.getD_none, hnil] at h
    exact h
  | some l =>
    rw [Option.getD_some] at h
    rw [tryCall]
    generalize op acc l = r at h ⊢
    rcases r with ⟨_ | _, rest⟩
    · exact h
    · obtain ⟨rfl, hP⟩ := h
      cases fused <;> exact ⟨rfl, hP⟩

namespace FlattenCompat

variable {fused : Bool} {self : FlattenCompat α}

/-! ## Blocks -/

def blocks (self : FlattenCompat α) : List (List α) :=
  self.frontiter.toList ++ self.iter.getD [] ++ self.backiter.toList

/-- What is left of the concatenation. -/
def rest (self : FlattenCompat α) : List α := self.blocks.flatten

/-- One block of a fold. -/
def BlockSteps (fold : γ → List α → Except β γ × List α) (P : γ → List (List α) → Prop)
    (Q : β → List (List α) → Prop) : Prop :=
  ∀ acc l ls, P acc (l :: ls) →
    Ends (fun acc _ => P acc ls) (fun b rest => Q b (rest :: ls)) (fold acc l)

section Folds

variable {fold : γ → List α → Except β γ × List α} {P : γ → List (List α) → Prop}
  {Q : β → List (List α) → Prop}

theorem trySlot_ends (h : BlockSteps fold P Q) {acc : γ} {slot : Option (List α)}
    {ls : List (List α)} (hP : P acc (slot.toList ++ ls)) :
    Ends (fun acc slot' => slot' = none ∧ P acc ls) (fun b slot' => Q b (slot'.toList ++ ls))
      (trySlot fold acc slot) := by
  cases slot with
  | none => exact ⟨rfl, hP⟩
  | some l =>
    have hstep := h acc l ls hP
    rw [trySlot]
    generalize fold acc l = r at hstep ⊢
    rcases r with ⟨_ | _, _⟩
    · exact hstep
    · exact ⟨rfl, hstep⟩

theorem flatten_ends (h : BlockSteps fold P Q) {acc : γ} (slot : Option (List α))
    {ls ms : List (List α)} (hP : P acc (ls ++ ms)) :
    Ends (fun acc rest => rest = [] ∧ P acc.1 ms)
      (fun b rest => Q b.1 (b.2.toList ++ (rest ++ ms)) ∧ rest ⊆ ls)
      (ListCalls.tryFold (flatten fold) (acc, slot) ls) := by
  induction ls generalizing acc slot with
  | nil => exact ⟨rfl, hP⟩
  | cons l ls ih =>
    have hstep := h acc l (ls ++ ms) hP
    rw [ListCalls.tryFold, flatten]
    generalize fold acc l = r at hstep ⊢
    rcases r with ⟨_ | _, rest⟩
    · exact ⟨hstep, List.subset_cons_self l ls⟩
    · refine (ih (some rest) hstep).imp (fun _ _ h => h) fun _ _ h => ⟨h.1, ?_⟩
      exact List.subset_cons_of_subset l h.2

theorem trySlot_ok {acc acc' : γ} {slot slot' : Option (List α)}
    (h : trySlot fold acc slot = (.ok acc', slot')) : slot' = none := by
  cases slot with
  | none => exact (congrArg Prod.snd h).symm
  | some l =>
    rw [trySlot] at h
    generalize fold acc l = r at h
    rcases r with ⟨_ | _, _⟩
    · cases congrArg Prod.fst h
    · exact (congrArg Prod.snd h).symm

/-- Outer iterators stay those of the state. -/
def Shrinks (self self' : FlattenCompat α) : Prop := self'.iter.getD [] ⊆ self.iter.getD []

theorem outer_ends (h : BlockSteps fold P Q) {acc : γ} (slot : Option (List α))
    {iter : Option (List (List α))} {ms : List (List α)} (hP : P acc (iter.getD [] ++ ms)) :
    Ends (fun acc iter' => iter'.getD [] = [] ∧ P acc.1 ms)
      (fun b iter' => Q b.1 (b.2.toList ++ (iter'.getD [] ++ ms)) ∧ iter'.getD [] ⊆ iter.getD [])
      (Fuse.tryFold fused (flatten fold) (acc, slot) iter) :=
  Fuse.tryCall_ends rfl (flatten_ends h slot hP)

theorem iterTryFold_ends (h : BlockSteps fold P Q) {acc : γ} (hP : P acc self.blocks) :
    Ends (fun acc self' => self'.blocks = [] ∧ P acc [] ∧ Shrinks self self')
      (fun b self' => Q b self'.blocks ∧ Shrinks self self') (iterTryFold self fused fold acc) := by
  rw [blocks, List.append_assoc] at hP
  have hfront := trySlot_ends h hP
  rw [iterTryFold]
  generalize trySlot fold acc self.frontiter = r at hfront ⊢
  rcases r with ⟨b | acc, frontiter⟩
  · refine ⟨?_, List.Subset.refl _⟩
    rw [blocks, List.append_assoc]
    exact hfront
  · have houter : Ends _ _ (Fuse.tryFold fused (flatten fold) (acc, frontiter) self.iter) :=
      outer_ends h frontiter hfront.2
    simp only
    generalize Fuse.tryFold fused (flatten fold) (acc, frontiter) self.iter = r at houter ⊢
    rcases r with ⟨b | acc, iter⟩
    · refine ⟨?_, houter.2⟩
      rw [blocks, List.append_assoc]
      exact houter.1
    · obtain ⟨hiter, hP⟩ := houter
      rw [← List.append_nil self.backiter.toList] at hP
      have hback := trySlot_ends h hP
      have hshrinks : iter.getD [] ⊆ self.iter.getD [] := by
        rw [hiter]
        exact List.nil_subset _
      simp only
      generalize trySlot fold acc.1 self.backiter = r at hback ⊢
      rcases r with ⟨b | acc, backiter⟩
      · refine ⟨?_, hshrinks⟩
        change Q b (backiter.toList ++ []) at hback
        rw [List.append_nil] at hback
        rw [blocks, hiter]
        exact hback
      · obtain ⟨hnone, hP⟩ := hback
        refine ⟨?_, hP, hshrinks⟩
        rw [blocks, hiter, hnone]
        rfl

end Folds

/-! ## The ends exchanged -/

def swap (self : FlattenCompat α) : FlattenCompat α :=
  { iter := self.iter.map List.reverse, frontiter := self.backiter, backiter := self.frontiter }

theorem swap_swap (self : FlattenCompat α) : self.swap.swap = self := by
  rcases self with ⟨_ | l, frontiter, backiter⟩
  · rfl
  · simp [swap]

theorem getD_map_reverse (iter : Option (List κ)) :
    (iter.map List.reverse).getD [] = (iter.getD []).reverse := by
  cases iter <;> rfl

theorem toList_reverse (slot : Option κ) : slot.toList.reverse = slot.toList := by
  cases slot <;> rfl

theorem blocks_swap (self : FlattenCompat α) : self.swap.blocks = self.blocks.reverse := by
  rw [blocks, blocks, swap, getD_map_reverse, List.reverse_append, List.reverse_append,
    toList_reverse, toList_reverse, List.append_assoc]

theorem shrinks_swap {self' : FlattenCompat α} (h : Shrinks self.swap self') :
    Shrinks self self'.swap := by
  rw [Shrinks, swap, getD_map_reverse] at h ⊢
  intro l hl
  rw [List.mem_reverse] at hl
  exact List.mem_reverse.mp (h hl)

theorem Fuse.tryRfold_eq (fused : Bool) (f : γ → κ → Except β γ) (acc : γ)
    (iter : Option (List κ)) : Fuse.tryRfold fused f acc iter =
      (Fuse.tryFold fused f acc (iter.map List.reverse)).map id (Option.map List.reverse) := by
  cases iter with
  | none => rfl
  | some l =>
    rw [Fuse.tryRfold, Fuse.tryFold, Fuse.tryCall, ListCalls.tryRfold, Option.map_some,
      Fuse.tryCall]
    rcases ListCalls.tryFold f acc l.reverse with ⟨_ | _, rest⟩
    · rfl
    · cases fused <;> rfl

theorem iterTryRfold_eq (fold : γ → List α → Except β γ × List α) (acc : γ) :
    iterTryRfold self fused fold acc = (iterTryFold self.swap fused fold acc).map id swap := by
  rw [iterTryRfold, iterTryFold]
  simp only [swap, Fuse.tryRfold_eq]
  rcases trySlot fold acc self.backiter with ⟨b | acc, slot⟩
  · cases self.iter <;> simp [swap]
  · simp only
    generalize Fuse.tryFold fused (flatten fold) (acc, slot) (self.iter.map List.reverse) = r
    rcases r with ⟨⟨b, _⟩ | ⟨acc, _⟩, iter⟩
    · rfl
    · dsimp only [Prod.map, id]
      generalize trySlot fold acc self.frontiter = r
      rcases r with ⟨_ | _, _⟩ <;> rfl

/-! ## Folds over the concatenation -/

section Splits

variable {fold : γ → List α → Except β γ × List α} {F : γ → List α → ρ × List α} {brk : β → ρ}

/-- A fold over the first block is the beginning of a function of the concatenation. -/
def Splits (fold : γ → List α → Except β γ × List α) (F : γ → List α → ρ × List α)
    (brk : β → ρ) : Prop :=
  ∀ acc l m, Ends (fun acc' _ => F acc' m = F acc (l ++ m))
    (fun b rest => (brk b, rest ++ m) = F acc (l ++ m)) (fold acc l)

/-- The same for the last block. -/
def SplitsBack (fold : γ → List α → Except β γ × List α) (F : γ → List α → ρ × List α)
    (brk : β → ρ) : Prop :=
  ∀ acc l m, Ends (fun acc' _ => F acc' m = F acc (m ++ l))
    (fun b rest => (brk b, m ++ rest) = F acc (m ++ l)) (fold acc l)

theorem iterTryFold_spec (h : Splits fold F brk) (acc : γ) :
    Ends (fun acc' self' => F acc' [] = F acc self.rest ∧ self'.rest = [] ∧ Shrinks self self')
      (fun b self' => (brk b, self'.rest) = F acc self.rest ∧ Shrinks self self')
      (iterTryFold self fused fold acc) := by
  have hsteps : BlockSteps fold (fun acc' ls => F acc' ls.flatten = F acc self.rest)
      (fun b ls => (brk b, ls.flatten) = F acc self.rest) := by
    intro acc' l ls hP
    rw [← hP]
    exact h acc' l ls.flatten
  refine (iterTryFold_ends hsteps rfl).imp ?_ fun _ _ h => h
  intro acc' self' hend
  refine ⟨hend.2.1, ?_, hend.2.2⟩
  rw [rest, hend.1]
  rfl

theorem iterTryRfold_spec (h : SplitsBack fold F brk) (acc : γ) :
    Ends (fun acc' self' => F acc' [] = F acc self.rest ∧ self'.rest = [] ∧ Shrinks self self')
      (fun b self' => (brk b, self'.rest) = F acc self.rest ∧ Shrinks self self')
      (iterTryRfold self fused fold acc) := by
  have hsteps : BlockSteps fold (fun acc' ls => F acc' ls.reverse.flatten = F acc self.rest)
      (fun b ls => (brk b, ls.reverse.flatten) = F acc self.rest) := by
    intro acc' l ls hP
    rw [List.reverse_cons, List.flatten_concat] at hP
    rw [← hP]
    refine (h acc' l ls.reverse.flatten).imp (fun _ _ h => h) ?_
    intro b rest hbreak
    change (brk b, (rest :: ls).reverse.flatten) = F acc' (ls.reverse.flatten ++ l)
    rw [List.reverse_cons, List.flatten_concat]
    exact hbreak
  have hstart : F acc self.swap.blocks.reverse.flatten = F acc self.rest := by
    rw [blocks_swap, List.reverse_reverse, rest]
  have hends : Ends _ _ (iterTryFold self.swap fused fold acc) := iterTryFold_ends hsteps hstart
  rw [iterTryRfold_eq]
  generalize iterTryFold self.swap fused fold acc = r at hends ⊢
  have hrest : ∀ self' : FlattenCompat α, self'.swap.rest = self'.blocks.reverse.flatten := by
    intro self'
    rw [rest, blocks_swap]
  rcases r with ⟨b | acc', self'⟩
  · refine ⟨?_, shrinks_swap hends.2⟩
    rw [hrest]
    exact hends.1
  · refine ⟨hends.2.1, ?_, shrinks_swap hends.2.2⟩
    rw [hrest, hends.1]
    rfl

end Splits

/-! ## The folds of the methods -/

theorem tryFold_splits (f : γ → α → Except β γ) :
    Splits (ListCalls.tryFold f) (ListCalls.tryFold f) Except.error := by
  intro acc l m
  rw [tryFold_append]
  generalize ListCalls.tryFold f acc l = r
  rcases r with ⟨_ | _, _⟩ <;> rfl

theorem tryRfold_splits (f : γ → α → Except β γ) :
    SplitsBack (ListCalls.tryRfold f) (ListCalls.tryRfold f) Except.error := by
  intro acc l m
  simp only [ListCalls.tryRfold, List.reverse_append, tryFold_append]
  generalize ListCalls.tryFold f acc l.reverse = r
  rcases r with ⟨_ | _, rest⟩
  · simp [Ends]
  · rfl

theorem advance_splits :
    Splits (advance ListCalls.advanceBy : ℕ → List α → _) ListCalls.advanceBy Except.ok := by
  intro n l m
  rw [advance, ListCalls.advanceBy, ListCalls.advanceBy, List.length_append]
  by_cases hn : n ≤ l.length
  · rw [advanced_ok hn, advanced_ok (by omega), List.drop_append_of_le_length hn]
    rfl
  · have hlt : l.length < n := Nat.lt_of_not_le hn
    rw [advanced_error hlt, ← advanced_sub hlt, List.drop_append, List.drop_eq_nil_of_le hlt.le]
    rfl

theorem advanceBack_splits :
    SplitsBack (advance ListCalls.advanceBackBy : ℕ → List α → _) ListCalls.advanceBackBy
      Except.ok := by
  intro n l m
  rw [advance, ListCalls.advanceBackBy, ListCalls.advanceBackBy, List.length_append,
    Nat.add_comm m.length]
  by_cases hn : n ≤ l.length
  · have htake : l.length+m.length-n-m.length = l.length-n := by omega
    rw [advanced_ok hn, advanced_ok (by omega), List.take_append, htake,
      List.take_of_length_le (by omega)]
    rfl
  · have hlt : l.length < n := Nat.lt_of_not_le hn
    have htake : l.length+m.length-n = m.length-(n-l.length) := by omega
    rw [advanced_error hlt, ← advanced_sub hlt, htake, List.take_append_of_le_length (by omega)]
    rfl

/-- The first element of a block breaks the fold. -/
def takeOne (take : List α → Option α × List α) (_ : Unit) (l : List α) : Except α Unit × List α :=
  match take l with
  | (some x, l) => (.error x, l)
  | (none, l) => (.ok (), l)

theorem next_splits :
    Splits (takeOne ListCalls.next : Unit → List α → _) (fun _ => ListCalls.next) some := by
  intro _ l m
  cases l <;> rfl

theorem nextBack_splits :
    SplitsBack (takeOne ListCalls.nextBack : Unit → List α → _) (fun _ => ListCalls.nextBack)
      some := by
  intro _ l m
  induction l using List.reverseRecOn with
  | nil =>
    rw [List.append_nil]
    rfl
  | append_singleton l x =>
    rw [takeOne, nextBack_concat, ← List.append_assoc]
    exact (nextBack_concat (m ++ l) x).symm

/-! ## The loops -/

theorem andThenOrClear_eq (take : List α → Option α × List α) (slot : Option (List α)) :
    andThenOrClear take slot =
      match trySlot (takeOne take) () slot with
      | (.error x, slot) => (some x, slot)
      | (.ok _, slot) => (none, slot) := by
  cases slot with
  | none => rfl
  | some l =>
    rw [andThenOrClear, trySlot, takeOne]
    rcases take l with ⟨_ | _, _⟩ <;> rfl

/-- What is found by a fold. -/
def found : Except α Unit × FlattenCompat α → Option α × FlattenCompat α
  | (.error x, self) => (some x, self)
  | (.ok _, self) => (none, self)

/-- A round of `next` with another way to take an element of a block. -/
def takeStep (fused : Bool) (take : List α → Option α × List α) (self : FlattenCompat α) :
    Option (FlattenCompat α ⊕ (Option α × FlattenCompat α)) :=
  match andThenOrClear take self.frontiter with
  | (some x, frontiter) => some (.inr (some x, { self with frontiter }))
  | (none, frontiter) =>
    match Fuse.next fused self.iter with
    | (none, iter) =>
      let (x, backiter) := andThenOrClear take self.backiter
      some (.inr (x, { iter, frontiter, backiter }))
    | (some inner, iter) => some (.inl { self with iter, frontiter := some inner })

section Slot

variable {fold : γ → List α → Except β γ × List α} {acc : γ}

/-- The slot at the end of a fold over the outer iterator is not looked at. -/
def forget : Except (β × Option (List α)) (γ × Option (List α)) × κ →
    Except (β × Option (List α)) γ × κ
  | (.ok (acc, _), rest) => (.ok acc, rest)
  | (.error b, rest) => (.error b, rest)

/-- What follows the fold over the outer iterator. -/
def finish (self : FlattenCompat α) (fold : γ → List α → Except β γ × List α) :
    Except (β × Option (List α)) γ × Option (List (List α)) → Except β γ × FlattenCompat α
  | (.error (b, frontiter), iter) => (.error b, { self with iter, frontiter })
  | (.ok acc, iter) =>
    match trySlot fold acc self.backiter with
    | (.error b, backiter) => (.error b, { iter, frontiter := none, backiter })
    | (.ok acc, backiter) => (.ok acc, { iter, frontiter := none, backiter })

theorem iterTryFold_eq : iterTryFold self fused fold acc =
    match trySlot fold acc self.frontiter with
    | (.error b, frontiter) => (.error b, { self with frontiter })
    | (.ok acc, frontiter) =>
      finish self fold (forget (Fuse.tryFold fused (flatten fold) (acc, frontiter) self.iter)) := by
  rw [iterTryFold]
  rcases trySlot fold acc self.frontiter with ⟨_ | acc, slot⟩
  · rfl
  · simp only
    generalize Fuse.tryFold fused (flatten fold) (acc, slot) self.iter = r
    rcases r with ⟨_ | _, _⟩ <;> rfl

theorem forget_slot (slot slot' : Option (List α)) (iter : Option (List (List α))) :
    forget (Fuse.tryFold fused (flatten fold) (acc, slot) iter) =
      forget (Fuse.tryFold fused (flatten fold) (acc, slot') iter) := by
  rcases iter with _ | _ | ⟨l, ls⟩
  · rfl
  · cases fused <;> rfl
  · rfl

theorem iterTryFold_cons {acc' : γ} {slot : Option (List α)}
    (h : trySlot fold acc self.frontiter = (.ok acc', slot)) {l : List α} {ls : List (List α)}
    (hiter : self.iter = some (l :: ls)) :
    iterTryFold self fused fold acc =
      iterTryFold { self with iter := some ls, frontiter := some l } fused fold acc' := by
  rw [iterTryFold_eq, iterTryFold_eq, h, hiter]
  simp only [Fuse.tryFold, Fuse.tryCall, ListCalls.tryFold, flatten, trySlot]
  rcases fold acc' l with ⟨_ | acc, rest⟩
  · rfl
  · exact congrArg (finish self fold) (forget_slot (some rest) none (some ls))

end Slot

theorem takeStep_last (take : List α → Option α × List α) (hiter : self.iter.getD [] = []) :
    takeStep fused take self = some (.inr (found (iterTryFold self fused (takeOne take) ()))) := by
  obtain ⟨iter, hnext, -, hfold⟩ := Fuse.next_nil hiter fused
  rw [takeStep, iterTryFold_eq, andThenOrClear_eq]
  cases hslot : trySlot (takeOne take) () self.frontiter with
  | mk r frontiter =>
    cases r with
    | error x => rfl
    | ok acc =>
      have hnone : frontiter = none := trySlot_ok hslot
      subst hnone
      simp only [hnext, hfold, forget, finish, andThenOrClear_eq]
      generalize trySlot (takeOne take) () self.backiter = r
      rcases r with ⟨_ | _, _⟩ <;> rfl

theorem takeStep_cons (fused : Bool) (take : List α → Option α × List α) {l : List α} {ls : List (List α)}
    (hiter : self.iter = some (l :: ls)) :
    takeStep fused take self =
        some (.inl { self with iter := some ls, frontiter := some l }) ∧
      iterTryFold self fused (takeOne take) () =
        iterTryFold { self with iter := some ls, frontiter := some l } fused (takeOne take) () ∨
    takeStep fused take self = some (.inr (found (iterTryFold self fused (takeOne take) ()))) := by
  rw [takeStep, andThenOrClear_eq]
  cases hslot : trySlot (takeOne take) () self.frontiter with
  | mk r frontiter =>
    cases r with
    | error x =>
      right
      rw [iterTryFold_eq, hslot]
      rfl
    | ok acc =>
      left
      refine ⟨?_, iterTryFold_cons hslot hiter⟩
      have hnext : Fuse.next fused self.iter = (some l, some ls) := by
        rw [hiter]
        cases fused <;> rfl
      simp only [hnext]

theorem loop_takeStep (take : List α → Option α × List α) (self : FlattenCompat α) :
    loop (takeStep fused take) self.rounds self =
      some (found (iterTryFold self fused (takeOne take) ())) := by
  rw [rounds]
  induction hls : self.iter.getD [] generalizing self with
  | nil =>
    rw [List.length_nil, loop, takeStep_last take hls]
  | cons l ls ih =>
    obtain ⟨hiter, -⟩ := Fuse.next_cons hls fused
    rw [loop]
    rcases takeStep_cons fused take hiter with ⟨hstep, heq⟩ | hstep
    · rw [hstep, heq]
      exact ih { self with iter := some ls, frontiter := some l } rfl
    · rw [hstep]

theorem next_eq (self : FlattenCompat α) :
    self.next fused = some (found (iterTryFold self fused (takeOne ListCalls.next) ())) :=
  loop_takeStep ListCalls.next self

theorem fuse_nextBack (fused : Bool) (iter : Option (List κ)) :
    Fuse.nextBack fused (iter.map List.reverse) =
      (Fuse.next fused iter).map id (Option.map List.reverse) := by
  rcases iter with _ | _ | ⟨l, ls⟩
  · cases fused <;> rfl
  · cases fused <;> rfl
  · rw [Option.map_some, List.reverse_cons]
    cases fused <;>
      simp [Fuse.nextBack, Fuse.next, Fuse.call, andThenOrClear, nextBack_concat, ListCalls.next]

theorem nextBackStep_swap (fused : Bool) (self : FlattenCompat α) :
    nextBackStep fused self.swap =
      (takeStep fused ListCalls.nextBack self).map (Sum.map swap (Prod.map id swap)) := by
  rw [nextBackStep, takeStep]
  simp only [swap, fuse_nextBack]
  rcases andThenOrClear ListCalls.nextBack self.frontiter with ⟨_ | _, _⟩
  · simp only
    generalize Fuse.next fused self.iter = r
    rcases r with ⟨_ | _, _⟩ <;> rfl
  · rfl

theorem rounds_swap (self : FlattenCompat α) : self.swap.rounds = self.rounds := by
  rw [rounds, rounds, swap, getD_map_reverse, List.length_reverse]

theorem nextBack_eq (self : FlattenCompat α) :
    self.nextBack fused =
      some (found (iterTryRfold self fused (takeOne ListCalls.nextBack) ())) := by
  have hwrap := loop_wrap swap (Prod.map id swap) (nextBackStep_swap fused)
    self.rounds self.swap
  rw [swap_swap, ← rounds_swap, loop_takeStep, Option.map_some] at hwrap
  rw [nextBack, ← rounds_swap, hwrap, iterTryRfold_eq]
  generalize iterTryFold self.swap fused (takeOne ListCalls.nextBack) () = r
  rcases r with ⟨_ | _, _⟩ <;> rfl

end FlattenCompat

end RustStd.Flattening
