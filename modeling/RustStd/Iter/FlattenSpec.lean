import RustStd.Iter.FlattenBlocks

/-!
# `Flatten` is the concatenation

Each method is a fold over the blocks, so it answers as the concatenation and leaves what the list
operation leaves. The size hint adds up hints for the blocks; a fixed size of the inner iterators
holds of those that are still in the outer one.
-/

set_option autoImplicit false

namespace RustStd.Flattening
open RustStd.Loop RustStd.ListCalls RustStd.Usize

variable {α β γ κ ρ : Type}

namespace FlattenCompat

variable {fused : Bool} {self : FlattenCompat α}

/-! ## The methods -/

/-- What is left, and a property of the inner iterators that are still in the outer one. -/
structure Holds (C : List α → Prop) (s : FlattenCompat α) (l : List α) : Prop where
  rest_eq : s.rest = l
  outer : ∀ b ∈ s.iter.getD [], C b

section Refine

variable {C : List α → Prop} {l : List α}

theorem Holds.shrinks {l' : List α} {self' : FlattenCompat α} (h : Holds C self l)
    (hs : Shrinks self self') (hrest : self'.rest = l') : Holds C self' l' :=
  ⟨hrest, fun b hb => h.outer b (hs hb)⟩

/-- A fold over the concatenation that takes all of it, or leaves what follows its end. -/
def answerOf (brk : β → ρ) (done : γ → ρ) : Except β γ × FlattenCompat α → ρ × FlattenCompat α
  | (.ok acc, self) => (done acc, self)
  | (.error b, self) => (brk b, self)

theorem Holds.fold_does {F : γ → List α → ρ × List α} {brk : β → ρ} {done : γ → ρ}
    (h : Holds C self l) (acc : γ) {r : Except β γ × FlattenCompat α}
    (hnil : ∀ acc, F acc [] = (done acc, []))
    (hr : Ends (fun acc' self' => F acc' [] = F acc self.rest ∧ self'.rest = [] ∧
        Shrinks self self')
      (fun b self' => (brk b, self'.rest) = F acc self.rest ∧ Shrinks self self') r) :
    Iter.Does (Holds C) (some (answerOf brk done r)) (F acc l) := by
  rw [h.rest_eq] at hr
  rcases r with ⟨b | acc', self'⟩
  · obtain ⟨hF, hs⟩ := hr
    rw [← hF]
    exact ⟨self', rfl, h.shrinks hs rfl⟩
  · obtain ⟨hF, hrest, hs⟩ := hr
    rw [← hF, hnil]
    exact ⟨self', rfl, h.shrinks hs hrest⟩

theorem found_eq (r : Except α Unit × FlattenCompat α) :
    found r = answerOf some (fun _ => none) r := by
  rcases r with ⟨_ | _, _⟩ <;> rfl

theorem advancedBy_eq (r : Except Unit ℕ × FlattenCompat α) :
    advancedBy r = answerOf Except.ok (fun n => advanced n 0) r := by
  rcases r with ⟨_ | n, self'⟩
  · rfl
  · rw [advancedBy, answerOf, advanced]
    simp only [Nat.le_zero, Nat.sub_zero]

theorem answerOf_folded (r : Except β γ × FlattenCompat α) : answerOf .error .ok r = r := by
  rcases r with ⟨_ | _, _⟩ <;> rfl

theorem next_does (fused : Bool) (h : Holds C self l) :
    Iter.Does (Holds C) (self.next fused) (ListCalls.next l) := by
  rw [next_eq, found_eq]
  exact h.fold_does (F := fun _ => ListCalls.next) () (fun _ => rfl) (iterTryFold_spec next_splits ())

theorem nextBack_does (fused : Bool) (h : Holds C self l) :
    Iter.Does (Holds C) (self.nextBack fused) (ListCalls.nextBack l) := by
  rw [nextBack_eq, found_eq]
  exact h.fold_does (F := fun _ => ListCalls.nextBack) () (fun _ => rfl)
    (iterTryRfold_spec nextBack_splits ())

theorem advanceBy_does (fused : Bool) (n : ℕ) (h : Holds C self l) :
    Iter.Does (Holds C) (some (self.advanceBy fused n)) (ListCalls.advanceBy n l) := by
  rw [advanceBy, advancedBy_eq]
  refine h.fold_does n (fun n => ?_) (iterTryFold_spec advance_splits n)
  rw [ListCalls.advanceBy, List.drop_nil]
  rfl

theorem advanceBackBy_does (fused : Bool) (n : ℕ) (h : Holds C self l) :
    Iter.Does (Holds C) (some (self.advanceBackBy fused n)) (ListCalls.advanceBackBy n l) := by
  rw [advanceBackBy, advancedBy_eq]
  refine h.fold_does n (fun n => ?_) (iterTryRfold_spec advanceBack_splits n)
  rw [ListCalls.advanceBackBy, List.take_nil]
  rfl

theorem tryFold_does (fused : Bool) (f : γ → α → Except β γ) (init : γ) (h : Holds C self l) :
    Iter.Does (Holds C) (some (self.tryFold fused f init)) (ListCalls.tryFold f init l) := by
  rw [tryFold, ← answerOf_folded (iterTryFold _ _ _ _)]
  exact h.fold_does init (fun _ => rfl) (iterTryFold_spec (tryFold_splits f) init)

theorem tryRfold_does (fused : Bool) (f : γ → α → Except β γ) (init : γ) (h : Holds C self l) :
    Iter.Does (Holds C) (some (self.tryRfold fused f init)) (ListCalls.tryRfold f init l) := by
  rw [tryRfold, ← answerOf_folded (iterTryRfold _ _ _ _)]
  exact h.fold_does init (fun _ => rfl) (iterTryRfold_spec (tryRfold_splits f) init)

theorem general_refines (fused : Bool) (C : List α → Prop) : (general fused).Refines (Holds C) where
  next _ _ h := next_does fused h
  nextBack _ _ h := nextBack_does fused h
  nth n _ _ _ h := (advanceBy_does fused n h).nth fun _ _ h => next_does fused h
  nthBack n _ _ _ h := (advanceBackBy_does fused n h).nthBack fun _ _ h => nextBack_does fused h
  advanceBy n _ _ _ h := advanceBy_does fused n h
  advanceBackBy n _ _ _ h := advanceBackBy_does fused n h
  tryFold f init _ _ h := tryFold_does fused f init h
  tryRfold f init _ _ h := tryRfold_does fused f init h

end Refine

/-! ## Folds that take everything -/

theorem foldSlot_eq (fold : γ → List α → γ) (acc : γ) (slot : Option (List α)) :
    foldSlot fold acc slot = slot.toList.foldl fold acc := by
  cases slot <;> rfl

theorem iterFold_eq (fold : γ → List α → γ) (acc : γ) :
    iterFold self fold acc = self.blocks.foldl fold acc := by
  have hfuse : ∀ acc, Fuse.fold fold acc self.iter = (self.iter.getD []).foldl fold acc := by
    intro acc
    cases self.iter <;> rfl
  rw [iterFold, blocks, List.foldl_append, List.foldl_append, ← foldSlot_eq, ← foldSlot_eq,
    ← hfuse]

theorem iterRfold_eq (fold : γ → List α → γ) (acc : γ) :
    iterRfold self fold acc = self.blocks.reverse.foldl fold acc := by
  have hfuse : ∀ acc, Fuse.rfold fold acc self.iter =
      (self.iter.getD []).reverse.foldl fold acc := by
    intro acc
    cases self.iter <;> rfl
  rw [iterRfold, blocks, List.reverse_append, List.reverse_append, toList_reverse, toList_reverse,
    List.foldl_append, List.foldl_append, ← foldSlot_eq, ← foldSlot_eq, ← hfuse]

theorem fold_eq (f : γ → α → γ) (init : γ) : self.fold f init = self.rest.foldl f init := by
  rw [fold, iterFold_eq, rest, List.foldl_flatten]

theorem rfold_eq (f : γ → α → γ) (init : γ) :
    self.rfold f init = self.rest.reverse.foldl f init := by
  rw [rfold, iterRfold_eq, rest, List.reverse_flatten, List.foldl_flatten, ← List.map_reverse,
    List.foldl_map]

theorem last_eq : self.last = self.rest.getLast? := by
  have hlist : ∀ (ls : List (List α)) (last : Option α),
      ls.foldl (fun last l => l.getLast?.or last) last = ls.flatten.getLast?.or last := by
    intro ls
    induction ls with
    | nil => exact fun _ => rfl
    | cons l ls ih =>
      intro last
      rw [List.foldl_cons, ih, List.flatten_cons, List.getLast?_append, Option.or_assoc]
  rw [last, iterFold_eq, hlist, rest, Option.or_none]

theorem count_eq : self.count = countList self.rest := by
  have hnone : ∀ ls : List (List α),
      ls.foldl (fun acc l => do add (← acc) (← countList l)) none = none := by
    intro ls
    induction ls with
    | nil => rfl
    | cons l ls ih => exact ih
  have hlist : ∀ (ls : List (List α)) (n : ℕ), n < 2^64 →
      ls.foldl (fun acc l => do add (← acc) (← countList l)) (some n) =
        Checked.unsigned 64 (n+ls.flatten.length) := by
    intro ls
    induction ls with
    | nil => exact fun n hn => (if_pos hn).symm
    | cons l ls ih =>
      intro n hn
      rw [List.foldl_cons, List.flatten_cons, List.length_append, ← Nat.add_assoc]
      by_cases hlen : n+l.length < 2^64
      · have hadd : (do add (← some n) (← countList l)) = some (n+l.length) := by
          have hcount : countList l = some l.length := if_pos (by omega)
          rw [hcount]
          exact add_eq hlen
        rw [hadd, ih _ hlen]
      · have hadd : (do add (← some n) (← countList l)) = none := by
          by_cases hl : l.length < 2^64
          · have hcount : countList l = some l.length := if_pos hl
            rw [hcount]
            exact if_neg hlen
          · have hcount : countList l = none := if_neg hl
            rw [hcount]
            rfl
        rw [hadd, hnone, Checked.unsigned, if_neg (by omega)]
  rw [count, iterFold_eq, hlist _ 0 (by decide), Nat.zero_add]
  rfl

/-! ## Size hints -/

def Brackets (hint : ℕ × Option ℕ) (n : ℕ) : Prop := hint.1 ≤ n ∧ ∀ u ∈ hint.2, n ≤ u

/-- The hints are right about the lists, and a fixed size is that of every inner list. -/
structure Hints.Valid (hints : Hints α) : Prop where
  inner : ∀ l, Brackets (hints.inner l) l.length
  outer : ∀ ls, Brackets (hints.outer ls) ls.length

def Hints.Sized (hints : Hints α) (b : List α) : Prop := ∀ k ∈ hints.fixedSize, b.length = k

section SizeHint

variable {hints : Hints α}

theorem slotHint_brackets (hv : hints.Valid) (slot : Option (List α)) :
    Brackets (slotHint hints.inner slot) (slot.getD []).length := by
  cases slot with
  | none => exact ⟨le_rfl, fun u hu => by cases hu; exact le_rfl⟩
  | some l => exact hv.inner l

theorem fuseHint_brackets (hv : hints.Valid) (iter : Option (List (List α))) :
    Brackets (Fuse.sizeHint hints.outer iter) (iter.getD []).length := by
  cases iter with
  | none => exact ⟨le_rfl, fun u hu => by cases hu; exact le_rfl⟩
  | some ls => exact hv.outer ls

theorem length_rest (self : FlattenCompat α) : self.rest.length =
    (self.frontiter.getD []).length+(self.iter.getD []).flatten.length+
      (self.backiter.getD []).length := by
  have hslot : ∀ slot : Option (List α), slot.toList.flatten.length = (slot.getD []).length := by
    intro slot
    cases slot <;> simp
  rw [rest, blocks, List.flatten_append, List.flatten_append, List.length_append,
    List.length_append, hslot, hslot]

theorem length_flatten_of_sized {k : ℕ} {ls : List (List α)} (h : ∀ b ∈ ls, b.length = k) :
    ls.flatten.length = ls.length*k := by
  induction ls with
  | nil => simp
  | cons b ls ih =>
    rw [List.flatten_cons, List.length_append, List.length_cons, h b List.mem_cons_self,
      ih fun b' hb' => h b' (List.mem_cons_of_mem b hb'), Nat.succ_mul, Nat.add_comm]

theorem saturatingAdd_le (a b : ℕ) : saturatingAdd a b ≤ a+b := Nat.min_le_left _ _

theorem saturatingMul_le (a b : ℕ) : saturatingMul a b ≤ a*b := Nat.min_le_left _ _

theorem le_of_unsigned {n m : ℕ} (h : m ∈ Checked.unsigned 64 n) : m = n := by
  rw [Checked.unsigned] at h
  split at h
  · exact (Option.some_inj.mp h).symm
  · cases h

theorem upper_eq {a b c k u : ℕ} (h : u ∈ do add (← add a b) (← mul k c)) : u = a+b+k*c := by
  obtain ⟨m, hm, h⟩ := Option.bind_eq_some_iff.mp h
  obtain ⟨p, hp, h⟩ := Option.bind_eq_some_iff.mp h
  rw [le_of_unsigned h, le_of_unsigned hm, le_of_unsigned hp]

theorem fixed_brackets {k front outer back : ℕ} {f o b : ℕ × Option ℕ} (hf : Brackets f front)
    (ho : Brackets o outer) (hb : Brackets b back) :
    Brackets (saturatingAdd (saturatingMul o.1 k) (saturatingAdd f.1 b.1), do
      add (← add (← f.2) (← b.2)) (← mul k (← o.2))) (front+outer*k+back) := by
  constructor
  · have hlo := saturatingAdd_le f.1 b.1
    have hmul := saturatingMul_le o.1 k
    have hsum := saturatingAdd_le (saturatingMul o.1 k) (saturatingAdd f.1 b.1)
    have hle := Nat.mul_le_mul_right k ho.1
    have hfront := hf.1
    have hback := hb.1
    simp only
    omega
  · intro u hu
    rcases f with ⟨flo, _ | fhi⟩
    · cases hu
    rcases b with ⟨blo, _ | bhi⟩
    · cases hu
    rcases o with ⟨olo, _ | ohi⟩
    · obtain ⟨_, _, hu⟩ := Option.bind_eq_some_iff.mp hu
      cases hu
    have hfront := hf.2 fhi rfl
    have hback := hb.2 bhi rfl
    have hle := Nat.mul_le_mul_left k (ho.2 ohi rfl)
    rw [upper_eq hu, Nat.mul_comm outer k]
    omega

theorem sizeHint_brackets (hv : hints.Valid) {l : List α} (h : Holds hints.Sized self l) :
    Brackets (self.sizeHint hints) l.length := by
  have hfront := slotHint_brackets hv self.frontiter
  have hback := slotHint_brackets hv self.backiter
  have houter := fuseHint_brackets hv self.iter
  have hlen := length_rest self
  rw [h.rest_eq] at hlen
  rw [sizeHint, hlen]
  cases hfixed : hints.fixedSize with
  | some k =>
    have hsized : ∀ b ∈ self.iter.getD [], b.length = k := fun b hb => h.outer b hb k hfixed
    rw [length_flatten_of_sized hsized]
    exact fixed_brackets hfront houter hback
  | none =>
    generalize slotHint hints.inner self.frontiter = f at hfront ⊢
    generalize slotHint hints.inner self.backiter = b at hback ⊢
    rcases f with ⟨flo, fhi⟩
    rcases b with ⟨blo, bhi⟩
    have hlo := saturatingAdd_le flo blo
    have hflo : flo ≤ _ := hfront.1
    have hblo : blo ≤ _ := hback.1
    simp only
    split
    · rename_i a b hzero
      rw [hzero] at houter
      have hempty : self.iter.getD [] = [] :=
        List.length_eq_zero_iff.mp (Nat.le_zero.mp (houter.2 0 rfl))
      rw [hempty]
      refine ⟨?_, ?_⟩
      · simp only [List.flatten_nil, List.length_nil]
        omega
      · intro u hu
        have hfhi := hfront.2 a rfl
        have hbhi := hback.2 b rfl
        rw [le_of_unsigned hu]
        simp only [List.flatten_nil, List.length_nil]
        omega
    · refine ⟨?_, fun u hu => by cases hu⟩
      simp only
      omega

end SizeHint

end FlattenCompat

end RustStd.Flattening
