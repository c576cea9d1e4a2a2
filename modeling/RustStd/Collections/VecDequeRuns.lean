import RustStd.Collections.VecDequeOps

/-!
# Runs of a `VecDeque`

An operation may panic, by its contract or because no allocation has the capacity
wanted; the deque can be used on. Every run is followed by a run on lists, where
the deque holds the list after each operation.
-/

set_option autoImplicit false

namespace RustStd.VecDeque
open RustStd.Outcome

variable {σ T : Type}

structure Owned (e : Elem T) where
  deque : Deque T
  items : List T
  rep : Rep e deque items

inductive Op (σ : Type) {T : Type} (e : Elem T)
  | pushFront (value : T) (chosen : ℕ)
  | pushBack (value : T) (chosen : ℕ)
  | popFront
  | popBack
  | insert (index : ℕ) (value : T) (chosen : ℕ)
  | remove (index : ℕ)
  | swapRemoveFront (index : ℕ)
  | swapRemoveBack (index : ℕ)
  | rotateLeft (n : ℕ)
  | rotateRight (n : ℕ)
  | truncate (len : ℕ)
  | truncateFront (len : ℕ)
  | retainMut (f : σ → T → Bool × T × σ) (s : σ)
  | splitOff (at' : ℕ)
  | append (other : Owned e) (chosen : ℕ)
  | resizeWith (newLen : ℕ) (g : σ → T × σ) (s : σ) (chosen : ℕ)
  | makeContiguous
  | reserve (additional chosen : ℕ)
  | shrinkTo (minCapacity : ℕ) (fails : Bool)

inductive Result (T D : Type)
  | unit
  | elem (x : Option T)
  | slice (xs : List T)
  | deque (d : D)
  | panicked

def exec (e : Elem T) (d : Deque T) : Op σ e → M T (Result T (Deque T) × Deque T)
  | .pushFront value chosen => do
    let d ← pushFront e d value chosen
    return (.unit, d)
  | .pushBack value chosen => do
    let d ← pushBack e d value chosen
    return (.unit, d)
  | .popFront => do
    let (x, d) ← popFront e d
    return (.elem x, d)
  | .popBack => do
    let (x, d) ← popBack e d
    return (.elem x, d)
  | .insert index value chosen => do
    let d ← insert e d index value chosen
    return (.unit, d)
  | .remove index => do
    let (x, d) ← remove e d index
    return (.elem x, d)
  | .swapRemoveFront index => do
    let (x, d) ← swapRemoveFront e d index
    return (.elem x, d)
  | .swapRemoveBack index => do
    let (x, d) ← swapRemoveBack e d index
    return (.elem x, d)
  | .rotateLeft n => do
    let d ← rotateLeft e d n
    return (.unit, d)
  | .rotateRight n => do
    let d ← rotateRight e d n
    return (.unit, d)
  | .truncate len => do
    let (_, d) ← truncate e d len
    return (.unit, d)
  | .truncateFront len => do
    let (_, d) ← truncateFront e d len
    return (.unit, d)
  | .retainMut f s => do
    let (_, d) ← retainMut e d f s
    return (.unit, d)
  | .splitOff at' => do
    let (other, d) ← splitOff e d at'
    return (.deque other, d)
  | .append other chosen => do
    let (other, d) ← append e d other.deque chosen
    return (.deque other, d)
  | .resizeWith newLen g s chosen => do
    let (_, d) ← resizeWith e d newLen g s chosen
    return (.unit, d)
  | .makeContiguous => do
    let (xs, d) ← makeContiguous e d
    return (.slice xs, d)
  | .reserve additional chosen => do
    let d ← reserve e d additional chosen
    return (.unit, d)
  | .shrinkTo minCapacity fails => do
    let d ← shrinkTo e d minCapacity fails
    return (.unit, d)

def settle {α : Type} : M T (Result T α × Deque T) → Option (Result T α × Deque T)
  | .ok p => some p
  | .panic d => some (.panicked, d)
  | .undefined => none

def run (e : Elem T) : List (Op σ e) → Deque T → Option (List (Result T (Deque T) × Deque T))
  | [], _ => some []
  | op :: ops, d => do
    let (r, d) ← settle (exec e d op)
    let rest ← run e ops d
    return (r, d) :: rest

def onList {e : Elem T} (l : List T) : Op σ e → Result T (List T) × List T
  | .pushFront value _ => (.unit, value :: l)
  | .pushBack value _ => (.unit, l ++ [value])
  | .popFront => (.elem l.head?, l.tail)
  | .popBack => (.elem l.getLast?, l.dropLast)
  | .insert index value _ =>
    if index ≤ l.length then (.unit, l.insertIdx index value) else (.panicked, l)
  | .remove index => (.elem l[index]?, l.eraseIdx index)
  | .swapRemoveFront index =>
    (.elem (listSwapRemoveFront l index).1, (listSwapRemoveFront l index).2)
  | .swapRemoveBack index =>
    (.elem (listSwapRemoveBack l index).1, (listSwapRemoveBack l index).2)
  | .rotateLeft n => if n ≤ l.length then (.unit, l.drop n ++ l.take n) else (.panicked, l)
  | .rotateRight n =>
    if n ≤ l.length then (.unit, l.drop (l.length-n) ++ l.take (l.length-n)) else (.panicked, l)
  | .truncate len => (.unit, l.take len)
  | .truncateFront len => (.unit, l.drop (l.length-len))
  | .retainMut f s => (.unit, listRetain f s l)
  | .splitOff at' =>
    if at' ≤ l.length then (.deque (l.drop at'), l.take at') else (.panicked, l)
  | .append other _ => (.deque [], l ++ other.items)
  | .resizeWith newLen g s _ => (.unit, l.take newLen ++ generate g (newLen-l.length) s)
  | .makeContiguous => (.slice l, l)
  | .reserve .. => (.unit, l)
  | .shrinkTo .. => (.unit, l)

def wanted {e : Elem T} (l : List T) : Op σ e → ℕ
  | .pushFront _ chosen | .pushBack _ chosen | .insert _ _ chosen => max (l.length+1) chosen
  | .append other chosen => max (l.length+other.items.length) chosen
  | .resizeWith newLen _ _ chosen => max newLen chosen
  | .reserve additional chosen => max (l.length+additional) chosen
  | _ => 0

def MayFail {e : Elem T} (l : List T) (op : Op σ e) : Prop :=
  limit e < wanted l op ∨ ∃ minCapacity, op = .shrinkTo minCapacity true

/-- A run on lists: an operation has its effect, or fails to allocate and has none. -/
inductive ListRun (e : Elem T) : List T → List (Op σ e) → List (Result T (List T) × List T) → Prop
  | nil (l : List T) : ListRun e l [] []
  | step {l l' : List T} {r : Result T (List T)} {op : Op σ e} {ops : List (Op σ e)}
      {rest : List (Result T (List T) × List T)} (h : onList l op = (r, l')) (hr : ListRun e l' ops rest) :
      ListRun e l (op :: ops) ((r, l') :: rest)
  | fail {l : List T} {op : Op σ e} {ops : List (Op σ e)}
      {rest : List (Result T (List T) × List T)} (h : MayFail l op) (hr : ListRun e l ops rest) :
      ListRun e l (op :: ops) ((.panicked, l) :: rest)

inductive Matches (e : Elem T) : Result T (Deque T) → Result T (List T) → Prop
  | unit : Matches e .unit .unit
  | elem (x : Option T) : Matches e (.elem x) (.elem x)
  | slice (xs : List T) : Matches e (.slice xs) (.slice xs)
  | deque {d : Deque T} {l : List T} (h : Rep e d l) : Matches e (.deque d) (.deque l)
  | panicked : Matches e .panicked .panicked

def Agrees (e : Elem T) (p : Result T (Deque T) × Deque T) (q : Result T (List T) × List T) : Prop :=
  Matches e p.1 q.1 ∧ Rep e p.2 q.2

section Step

variable {e : Elem T} {d : Deque T} {l : List T}

def StepOk (d : Deque T) (l : List T) (op : Op σ e) : Prop :=
  ∃ p, settle (exec e d op) = some p ∧
    (Agrees e p (onList l op) ∨ MayFail l op ∧ Agrees e p (.panicked, l))

theorem stepOk_of_ok {op : Op σ e} {r : Result T (Deque T)} {d' : Deque T}
    (he : exec e d op = .ok (r, d')) (hm : Matches e r (onList l op).1)
    (hr : Rep e d' (onList l op).2) : StepOk d l op :=
  ⟨(r, d'), by rw [he]; rfl, .inl ⟨hm, hr⟩⟩

theorem stepOk_of_panic {op : Op σ e} {d' : Deque T} (he : exec e d op = .panic d')
    (h : Rep e d' l) (hf : MayFail l op) : StepOk d l op :=
  ⟨(.panicked, d'), by rw [he]; rfl, .inr ⟨hf, .panicked, h⟩⟩

theorem stepOk_of_refused {op : Op σ e} (he : exec e d op = .panic d)
    (h : Rep e d l) (ho : onList l op = (.panicked, l)) : StepOk d l op :=
  ⟨(.panicked, d), by rw [he]; rfl, .inl (by rw [ho]; exact ⟨.panicked, h⟩)⟩

theorem step_ok (h : Rep e d l) (op : Op σ e) : StepOk d l op := by
  have hlen := h.len_eq
  cases op with
  | pushFront value chosen =>
    rcases pushFront_spec h value chosen with ⟨hp, hbig⟩ | ⟨d', hok, hrep⟩
    · exact stepOk_of_panic (by simp [exec, hp]) h (.inl hbig)
    · exact stepOk_of_ok (by simp [exec, hok]) .unit hrep
  | pushBack value chosen =>
    rcases pushBack_spec h value chosen with ⟨hp, hbig⟩ | ⟨d', hok, hrep⟩
    · exact stepOk_of_panic (by simp [exec, hp]) h (.inl hbig)
    · exact stepOk_of_ok (by simp [exec, hok]) .unit hrep
  | popFront =>
    obtain ⟨d', hok, hrep⟩ := popFront_spec h
    exact stepOk_of_ok (by simp [exec, hok]) (.elem _) hrep
  | popBack =>
    obtain ⟨d', hok, hrep⟩ := popBack_spec h
    exact stepOk_of_ok (by simp [exec, hok]) (.elem _) hrep
  | insert index value chosen =>
    by_cases hi : index ≤ l.length
    · rcases insert_spec h hi value chosen with ⟨hp, hbig⟩ | ⟨d', hok, hrep⟩
      · exact stepOk_of_panic (by simp [exec, hp]) h (.inl hbig)
      · refine stepOk_of_ok (r := .unit) (by simp [exec, hok]; rfl) ?_ ?_
        · simpa [onList, hi] using .unit
        · simpa [onList, hi] using hrep
    · refine stepOk_of_refused ?_ h (by simp [onList, hi])
      simp [exec, insert, ensure, hlen, hi]
  | remove index =>
    obtain ⟨d', hok, hrep⟩ := remove_spec h index
    exact stepOk_of_ok (by simp [exec, hok]) (.elem _) hrep
  | swapRemoveFront index =>
    obtain ⟨d', hok, hrep⟩ := swapRemoveFront_spec h index
    exact stepOk_of_ok (by simp [exec, hok]) (.elem _) hrep
  | swapRemoveBack index =>
    obtain ⟨d', hok, hrep⟩ := swapRemoveBack_spec h index
    exact stepOk_of_ok (by simp [exec, hok]) (.elem _) hrep
  | rotateLeft n =>
    by_cases hn : n ≤ l.length
    · obtain ⟨d', hok, hrep⟩ := rotateLeft_spec h hn
      refine stepOk_of_ok (r := .unit) (by simp [exec, hok]; rfl) ?_ ?_
      · simpa [onList, hn] using .unit
      · simpa [onList, hn] using hrep
    · refine stepOk_of_refused ?_ h (by simp [onList, hn])
      simp [exec, rotateLeft, ensure, hlen, hn]
  | rotateRight n =>
    by_cases hn : n ≤ l.length
    · obtain ⟨d', hok, hrep⟩ := rotateRight_spec h hn
      refine stepOk_of_ok (r := .unit) (by simp [exec, hok]; rfl) ?_ ?_
      · simpa [onList, hn] using .unit
      · simpa [onList, hn] using hrep
    · refine stepOk_of_refused ?_ h (by simp [onList, hn])
      simp [exec, rotateRight, ensure, hlen, hn]
  | truncate len =>
    obtain ⟨d', hok, hrep⟩ := truncate_spec h len
    exact stepOk_of_ok (by simp [exec, hok]) .unit hrep
  | truncateFront len =>
    obtain ⟨d', hok, hrep⟩ := truncateFront_spec h len
    exact stepOk_of_ok (by simp [exec, hok]) .unit hrep
  | retainMut f s =>
    obtain ⟨dropped, d', hok, hrep⟩ := retainMut_spec f h s
    exact stepOk_of_ok (by simp [exec, hok]) .unit hrep
  | splitOff at' =>
    by_cases hat : at' ≤ l.length
    · obtain ⟨other, d', hok, hother, hrep⟩ := splitOff_spec h hat
      refine stepOk_of_ok (r := .deque other) (by simp [exec, hok]; rfl) ?_ ?_
      · simpa [onList, hat] using .deque hother
      · simpa [onList, hat] using hrep
    · refine stepOk_of_refused ?_ h (by simp [onList, hat])
      simp [exec, splitOff, ensure, hlen, hat]
  | append other chosen =>
    rcases append_spec h other.rep chosen with ⟨hp, hbig⟩ | ⟨other', d', hok, hother, hrep⟩
    · exact stepOk_of_panic (by simp [exec, hp]) h (.inl hbig)
    · exact stepOk_of_ok (by simp [exec, hok]) (.deque hother) hrep
  | resizeWith newLen g s chosen =>
    rcases resizeWith_spec h newLen g s chosen with ⟨hp, hbig⟩ | ⟨dropped, d', hok, hrep⟩
    · exact stepOk_of_panic (by simp [exec, hp]) h (.inl hbig)
    · exact stepOk_of_ok (by simp [exec, hok]) .unit hrep
  | makeContiguous =>
    obtain ⟨d', hok, hrep⟩ := makeContiguous_spec h
    exact stepOk_of_ok (by simp [exec, hok]) (.slice l) hrep
  | reserve additional chosen =>
    rcases reserve_spec h additional chosen with ⟨hp, hbig⟩ | ⟨d', hok, hrep, -⟩
    · exact stepOk_of_panic (by simp [exec, hp]) h (.inl hbig)
    · exact stepOk_of_ok (by simp [exec, hok]) .unit hrep
  | shrinkTo minCapacity fails =>
    obtain ⟨d', hok | ⟨rfl, hp⟩, hrep⟩ := shrinkTo_spec h minCapacity fails
    · exact stepOk_of_ok (by simp [exec, hok]) .unit hrep
    · exact stepOk_of_panic (by simp [exec, hp]) hrep (.inr ⟨minCapacity, rfl⟩)

end Step

theorem run_lists {e : Elem T} (ops : List (Op σ e)) {d : Deque T} {l : List T} (h : Rep e d l) :
    ∃ ds ls, run e ops d = some ds ∧ ListRun e l ops ls ∧ List.Forall₂ (Agrees e) ds ls := by
  induction ops generalizing d l with
  | nil => exact ⟨[], [], rfl, .nil l, .nil⟩
  | cons op ops ih =>
    obtain ⟨p, hs, hagree | ⟨hf, hagree⟩⟩ := step_ok h op
    · obtain ⟨ds, ls, hrun, hlist, hall⟩ := ih hagree.2
      exact ⟨p :: ds, onList l op :: ls, by simp [run, hs, hrun], .step rfl hlist, .cons hagree hall⟩
    · obtain ⟨ds, ls, hrun, hlist, hall⟩ := ih hagree.2
      exact ⟨p :: ds, (.panicked, l) :: ls, by simp [run, hs, hrun], .fail hf hlist, .cons hagree hall⟩

theorem withCapacity_rep {e : Elem T} {capacity : ℕ} (h : capacity ≤ limit e) :
    Rep e (withCapacity e capacity) [] := by
  cases e with
  | sized maxCap hmax =>
    rw [rep_sized]
    refine SRep.of_places rfl (Nat.zero_le _) h ?_ (by simp) (by simp)
    simp only [withCapacity, Elem.isZst, Bool.false_eq_true, if_false, and_true]
    omega
  | zeroSized value unique =>
    rw [rep_zeroSized]
    exact ⟨rfl, Nat.zero_le _, by simp [withCapacity, Machine.usizeMax]⟩

/-- Every run from an empty deque of any capacity is a run on lists: after each
operation the deque holds the list, within its bounds, and has returned what the
list operation returns. -/
theorem vecDeque_refines (e : Elem T) {capacity : ℕ} (h : capacity ≤ limit e)
    (ops : List (Op σ e)) :
    ∃ ds ls, run e ops (withCapacity e capacity) = some ds ∧ ListRun e [] ops ls ∧
      List.Forall₂ (Agrees e) ds ls :=
  run_lists ops (withCapacity_rep h)

def small : Elem ℕ := .sized 9 (by decide)

/-- Two elements at the end of the buffer, one at its start. -/
def wrapped : Owned small where
  deque := ⟨5, 3, 7, fun j => some j⟩
  items := [5, 6, 0]
  rep := by
    refine rep_sized.mpr ⟨rfl, by decide, by decide, .inl (by decide), fun i x hx => ?_⟩
    have hi := lt_of_getElem? hx
    simp only [List.length_cons, List.length_nil] at hi
    interval_cases i <;> exact hx

def calls : List (Op Unit small) :=
  [.pushBack 1 0, .pushFront 2 0, .pushFront 3 0, .insert 1 7 4, .append wrapped 0,
    .makeContiguous, .shrinkTo 0 true, .popBack]

theorem vecDeque_refines_wrapping :
    ∃ ds ls, run small calls (withCapacity small 3) = some ds ∧ ListRun small [] calls ls ∧
      List.Forall₂ (Agrees small) ds ls ∧ ds.map (fun p => p.2.len) = [1, 2, 3, 4, 7, 7, 7, 6] := by
  obtain ⟨ds, ls, hrun, hlist, hall⟩ :=
    vecDeque_refines small (show 3 ≤ limit small by decide) calls
  have hlen : (run small calls (withCapacity small 3)).map (·.map fun p => p.2.len) =
      some [1, 2, 3, 4, 7, 7, 7, 6] := by rfl
  rw [hrun] at hlen
  exact ⟨ds, ls, hrun, hlist, hall, Option.some.inj hlen⟩

end RustStd.VecDeque
