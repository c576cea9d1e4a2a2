import RustStd.Collections.LinkedListOps

/-!
# Runs of the operations of `LinkedList`

A heap with any number of lists in it and any sequence of operations on them.
Beside it stands the same sequence of operations on plain lists. The lists in
the heap show the plain ones in every state that is reached, forward and
backward, and the heap has their nodes and no others.

The ledger of a run says that no element is lost or duplicated: what is in the
lists and what was handed out is what was there and what was put in, where the
elements that a closure was shown count as the closure left them.
-/

set_option autoImplicit false

namespace RustStd.LinkedLists
open RustStd.DoublyLinked RustStd.Outcome

variable {α σ : Type}

inductive Op (σ α : Type)
  | new
  | pushFront (i : ℕ) (elt : α)
  | pushBack (i : ℕ) (elt : α)
  | popFront (i : ℕ)
  | popBack (i : ℕ)
  | append (i j : ℕ)
  | splitOff (i : ℕ) (at' : ℕ)
  | remove (i : ℕ) (at' : ℕ)
  | retain (i : ℕ) (f : FnMut σ α) (s : σ)
  | extractIf (i : ℕ) (pred : FnMut σ α) (s : σ) (calls : ℕ)

/-- What the caller sees of an operation. -/
inductive Reply (α : Type)
  | done
  | panicked
  | popped (r : Option α)
  | removed (x : α)
  | retained (panicked : Bool) (dropped : List α)
  /-- Each result of `next`, with the `size_hint` before it. -/
  | extracted (results : List ((ℕ × ℕ) × Option (Option α)))

def Reply.given : Reply α → List α
  | .done => []
  | .panicked => []
  | .popped r => r.toList
  | .removed x => [x]
  | .retained _ dropped => dropped
  | .extracted results => results.filterMap fun r => r.2.join

/-- `next` is called a number of times, after a panic too, and the iterator is dropped. -/
def advance (pred : FnMut σ α) : ℕ → Heap α → ExtractIf σ →
    Option (List ((ℕ × ℕ) × Option (Option α)) × Heap α × ExtractIf σ)
  | 0, h, it => some ([], h, it)
  | k+1, h, it => do
    let hint ← it.sizeHint
    match ExtractIf.next pred h it with
    | .undefined => none
    | .panic (h, it) => (advance pred k h it).map fun r => ((hint, none)::r.1, r.2)
    | .ok (x, h, it) => (advance pred k h it).map fun r => ((hint, some x)::r.1, r.2)

structure World (α : Type) where
  heap : Heap α
  lists : List LinkedList

namespace World

def empty : World α := ⟨Heap.empty, []⟩

/-- An operation on one list; one that names no list is no operation. -/
def onList (w : World α) (i : ℕ)
    (f : LinkedList → Option (Reply α × Heap α × LinkedList × List LinkedList)) :
    Option (Reply α × World α) :=
  match w.lists[i]? with
  | none => some (.done, w)
  | some s => (f s).map fun r => (r.1, ⟨r.2.1, r.2.2.2++w.lists.set i r.2.2.1⟩)

/-- A list cannot be appended to itself: both are borrowed mutably. -/
def step (w : World α) : Op σ α → Option (Reply α × World α)
  | .new => some (.done, { w with lists := new::w.lists })
  | .pushFront i elt => w.onList i fun s =>
    (pushFront w.heap s elt).map fun r => (.done, r.1, r.2, [])
  | .pushBack i elt => w.onList i fun s =>
    (pushBack w.heap s elt).map fun r => (.done, r.1, r.2, [])
  | .popFront i => w.onList i fun s =>
    (popFront w.heap s).map fun r => (.popped r.1, r.2.1, r.2.2, [])
  | .popBack i => w.onList i fun s =>
    (popBack w.heap s).map fun r => (.popped r.1, r.2.1, r.2.2, [])
  | .append i j =>
    if i = j then some (.done, w)
    else
      match w.lists[i]?, w.lists[j]? with
      | some s, some t => (append w.heap s t).map fun r =>
        (.done, ⟨r.1, (w.lists.set i r.2.1).set j r.2.2⟩)
      | _, _ => some (.done, w)
  | .splitOff i at' => w.onList i fun s =>
    match splitOff w.heap s at' with
    | .undefined => none
    | .panic (h, s) => some (.panicked, h, s, [])
    | .ok (r, h, s) => some (.done, h, s, [r])
  | .remove i at' => w.onList i fun s =>
    match remove w.heap s at' with
    | .undefined => none
    | .panic (h, s) => some (.panicked, h, s, [])
    | .ok (x, h, s) => some (.removed x, h, s, [])
  | .retain i f c => w.onList i fun s =>
    match retain f c w.heap s with
    | .undefined => none
    | .panic (h, s, dropped) => some (.retained true dropped, h, s, [])
    | .ok (h, s, dropped) => some (.retained false dropped, h, s, [])
  | .extractIf i pred c calls => w.onList i fun s =>
    (advance pred calls w.heap (extractIf s c)).map fun r =>
      (.extracted r.1, r.2.1, r.2.2.list, [])

def run (w : World α) : List (Op σ α) → Option (List (Reply α) × World α)
  | [] => some ([], w)
  | op::ops => do
    let (r, w) ← step w op
    let (rs, w) ← run w ops
    return (r::rs, w)

end World

/-- What an operation is to do to plain lists: the reply, the lists after it, the elements put
in, and those that a closure was shown with what it made of them. -/
structure Effect (α : Type) where
  reply : Reply α
  lists : List (List α)
  put : List α
  shown : List (α × α)

namespace Plain

structure OnList (α : Type) where
  reply : Reply α
  list : List α
  returned : List (List α)
  put : List α
  shown : List (α × α)

def onList (xss : List (List α)) (i : ℕ) (f : List α → OnList α) : Effect α :=
  match xss[i]? with
  | none => ⟨.done, xss, [], []⟩
  | some xs => ⟨(f xs).reply, (f xs).returned++xss.set i (f xs).list, (f xs).put, (f xs).shown⟩

/-- The results of a number of calls of `next`, the list between the elements passed and
those ahead. -/
def advance (pred : FnMut σ α) : ℕ → σ → List α → List α →
    List ((ℕ × ℕ) × Option (Option α)) × List α × List (α × α)
  | 0, _, passed, ahead => ([], passed++ahead, [])
  | k+1, s, passed, ahead =>
    let a := extractWalk pred s ahead
    let r := advance pred k a.captured (passed++a.passed) a.ahead
    (((0, ahead.length), a.result)::r.1, r.2.1, a.shown++r.2.2)

def step (xss : List (List α)) : Op σ α → Effect α
  | .new => ⟨.done, []::xss, [], []⟩
  | .pushFront i elt => onList xss i fun xs => ⟨.done, elt::xs, [], [elt], []⟩
  | .pushBack i elt => onList xss i fun xs => ⟨.done, xs++[elt], [], [elt], []⟩
  | .popFront i => onList xss i fun xs => ⟨.popped xs.head?, xs.tail, [], [], []⟩
  | .popBack i => onList xss i fun xs => ⟨.popped xs.getLast?, xs.dropLast, [], [], []⟩
  | .append i j =>
    if i = j then ⟨.done, xss, [], []⟩
    else
      match xss[i]?, xss[j]? with
      | some xs, some ys => ⟨.done, (xss.set i (xs++ys)).set j [], [], []⟩
      | _, _ => ⟨.done, xss, [], []⟩
  | .splitOff i at' => onList xss i fun xs =>
    if at' ≤ xs.length then ⟨.done, xs.take at', [xs.drop at'], [], []⟩
    else ⟨.panicked, xs, [], [], []⟩
  | .remove i at' => onList xss i fun xs =>
    match xs[at']? with
    | some x => ⟨.removed x, xs.eraseIdx at', [], [], []⟩
    | none => ⟨.panicked, xs, [], [], []⟩
  | .retain i f s => onList xss i fun xs =>
    let r := retainWalk f s xs
    ⟨.retained r.panicked r.taken, r.stays, [], [], r.shown⟩
  | .extractIf i pred s calls => onList xss i fun xs =>
    let r := advance pred calls s [] xs
    ⟨.extracted r.1, r.2.1, [], [], r.2.2⟩

def run (xss : List (List α)) : List (Op σ α) → List (Effect α) × List (List α)
  | [] => ([], xss)
  | op::ops =>
    let e := step xss op
    let r := run e.lists ops
    (e::r.1, r.2)

end Plain

section Pool

variable {β : Type} {ls : List β} {l m : β} {i j : ℕ}

theorem perm_set (hi : ls[i]? = some l) (l' : β) : (ls.set i l').Perm (l'::ls.eraseIdx i) := by
  have hlt := (List.getElem?_eq_some_iff.mp hi).1
  have : (ls.set i l').Perm (l'::(ls.set i l').eraseIdx i) := perm_pick (by simp [hlt])
  rwa [List.eraseIdx_set_eq] at this

theorem perm_pick_two (hij : i ≠ j) (hi : ls[i]? = some l) (hj : ls[j]? = some m) :
    ∃ rest, ls.Perm (l::m::rest) ∧
      ∀ l' m', ((ls.set i l').set j m').Perm (l'::m'::rest) := by
  obtain ⟨k, hk, hset⟩ : ∃ k, (ls.eraseIdx j)[k]? = some l ∧
      ∀ l', (ls.set i l').eraseIdx j = (ls.eraseIdx j).set k l' := by
    rcases Nat.lt_or_gt_of_ne hij with hlt | hgt
    · exact ⟨i, by rw [List.getElem?_eraseIdx_of_lt hlt, hi],
        fun _ => List.eraseIdx_set_gt hlt⟩
    · refine ⟨i-1, ?_, fun _ => List.eraseIdx_set_lt hgt⟩
      rw [List.getElem?_eraseIdx_of_ge (by omega), show i-1+1 = i by omega, hi]
  refine ⟨(ls.eraseIdx j).eraseIdx k, ?_, ?_⟩
  · exact (perm_pick hj).trans (((perm_pick hk).cons m).trans (List.Perm.swap ..))
  · intro l' m'
    have hj' : (ls.set i l')[j]? = some m := by rw [List.getElem?_set_ne hij, hj]
    have := perm_set hj' m'
    rw [hset] at this
    exact this.trans (((perm_set hk l').cons m').trans (List.Perm.swap ..))

end Pool

namespace World

def Sound (w : World α) (xss : List (List α)) : Prop :=
  ∃ ls, w.lists = ls.map listOf ∧ xss = ls.map vals ∧ Chains w.heap ls

/-- An operation on one list that does to its chain what `g` does to its elements. -/
def Performs (h : Heap α)
    (f : LinkedList → Option (Reply α × Heap α × LinkedList × List LinkedList))
    (g : List α → Plain.OnList α) : Prop :=
  ∀ (l : Cells α) (F : List Ptr), Owns h l F →
    ∃ (h' : Heap α) (l' : Cells α) (rs : List (Cells α)),
      f (listOf l) = some ((g (vals l)).reply, h', listOf l', rs.map listOf) ∧
      Owns h' l' (rs.flatMap ptrs++F) ∧ (∀ r ∈ rs, Seg h' none r none) ∧ Agree h h' F ∧
      vals l' = (g (vals l)).list ∧ rs.map vals = (g (vals l)).returned

theorem onList_spec {w : World α} {xss : List (List α)} {i : ℕ}
    {f : LinkedList → Option (Reply α × Heap α × LinkedList × List LinkedList)}
    {g : List α → Plain.OnList α} (hw : Sound w xss) (hp : Performs w.heap f g) :
    ∃ w', w.onList i f = some ((Plain.onList xss i g).reply, w') ∧
      Sound w' (Plain.onList xss i g).lists := by
  obtain ⟨ls, hlists, rfl, hc⟩ := hw
  cases hi : ls[i]? with
  | none =>
    refine ⟨w, by simp [onList, Plain.onList, hlists, hi], ls, hlists, ?_, hc⟩
    simp [Plain.onList, hi]
  | some l =>
    have hpick := hc.perm (perm_pick hi)
    obtain ⟨h', l', rs, he, ho, hr, hag, hl, hrs⟩ := hp l _ hpick.owns
    have hc' := Chains.of_owns
      (fun r hmem => hpick.seg r (List.mem_cons_of_mem _ hmem)) ho hr hag
    refine ⟨⟨h', (rs++ls.set i l').map listOf⟩, ?_, rs++ls.set i l', rfl, ?_, ?_⟩
    · simp [onList, Plain.onList, hlists, hi, he, List.map_set]
    · simp [Plain.onList, hi, hl, hrs, List.map_set]
    · apply hc'.perm
      have := ((perm_set hi l').append_left rs).symm
      exact List.perm_middle.symm.trans this

theorem Performs.of_owns {h : Heap α}
    {f : LinkedList → Option (Reply α × Heap α × LinkedList × List LinkedList)}
    {g : List α → Plain.OnList α} (hret : ∀ xs, (g xs).returned = [])
    (hp : ∀ (l : Cells α) (F : List Ptr), Owns h l F → ∃ (h' : Heap α) (l' : Cells α),
      f (listOf l) = some ((g (vals l)).reply, h', listOf l', []) ∧ Owns h' l' F ∧
        Agree h h' F ∧ vals l' = (g (vals l)).list) :
    Performs h f g := by
  intro l F ho
  obtain ⟨h', l', he, ho', hag, hl⟩ := hp l F ho
  exact ⟨h', l', [], he, ho', by simp, hag, hl, (hret _).symm⟩

theorem advance_spec (pred : FnMut σ α) {h : Heap α} {l m : Cells α} {F : List Ptr} (s : σ)
    (idx : ℕ) (k : ℕ) (ho : Owns h (l++m) F) :
    ∃ h' l' it, advance pred k h (extractAt l m s idx) =
        some ((Plain.advance pred k s (vals l) (vals m)).1, h', it) ∧ it.list = listOf l' ∧
      Owns h' l' F ∧ Agree h h' F ∧
      vals l' = (Plain.advance pred k s (vals l) (vals m)).2.1 := by
  induction k generalizing h l m s idx with
  | zero => exact ⟨h, l++m, _, rfl, rfl, ho, Agree.refl h F, by simp [Plain.advance]⟩
  | succ k ih =>
    obtain ⟨h₁, l₁, m₁, idx₁, he₁, ho₁, hag₁, hl₁, hm₁⟩ := next_spec pred s idx ho
    obtain ⟨h', l', it, he', hit, ho', hag', hl'⟩ :=
      ih (extractWalk pred s (vals m)).captured idx₁ ho₁
    rw [hl₁, hm₁] at he' hl'
    refine ⟨h', l', it, ?_, hit, ho', hag₁.trans hag', hl'⟩
    have hhint : (extractAt l m s idx).sizeHint = some (0, (vals m).length) := by
      simp [ExtractIf.sizeHint, extractAt, sub, vals]
    rw [advance, hhint, Option.bind_eq_bind, Option.bind_some, he₁, Plain.advance]
    cases (extractWalk pred s (vals m)).result <;> simp [answer, he']

theorem popFront_performs (h : Heap α) :
    Performs h (fun s => (popFront h s).map fun r => (.popped r.1, r.2.1, r.2.2, []))
      fun xs => ⟨.popped xs.head?, xs.tail, [], [], []⟩ := by
  apply Performs.of_owns fun _ => rfl
  intro l F ho
  cases l with
  | nil => exact ⟨h, [], rfl, ho, Agree.refl h F, rfl⟩
  | cons c l =>
    obtain ⟨h', he, ho', hag⟩ := popFront_spec (p := c.1) (a := c.2) ho
    exact ⟨h', l, by simpa using he, ho', hag, rfl⟩

theorem popBack_performs (h : Heap α) :
    Performs h (fun s => (popBack h s).map fun r => (.popped r.1, r.2.1, r.2.2, []))
      fun xs => ⟨.popped xs.getLast?, xs.dropLast, [], [], []⟩ := by
  apply Performs.of_owns fun _ => rfl
  intro l F ho
  rcases last_cases l with rfl | ⟨l, p, a, rfl⟩
  · exact ⟨h, [], rfl, ho, Agree.refl h F, rfl⟩
  · obtain ⟨h', he, ho', hag⟩ := popBack_spec ho
    exact ⟨h', l, by simp [he], ho', hag, by simp⟩

theorem splitOff_performs (h : Heap α) (at' : ℕ) :
    Performs h (fun s =>
      match splitOff h s at' with
      | .undefined => none
      | .panic (h, s) => some (.panicked, h, s, [])
      | .ok (r, h, s) => some (.done, h, s, [r]))
      fun xs => if at' ≤ xs.length then ⟨.done, xs.take at', [xs.drop at'], [], []⟩
        else ⟨.panicked, xs, [], [], []⟩ := by
  intro l F ho
  by_cases hle : at' ≤ l.length
  · obtain ⟨h', he, ho', hs', hag⟩ := splitOff_spec ho hle
    refine ⟨h', l.take at', [l.drop at'], ?_, by simpa using ho', by simpa using hs', hag, ?_, ?_⟩
    · simp [he, hle]
    · simp [hle, vals, List.map_take]
    · simp [hle, vals, List.map_drop]
  · refine ⟨h, l, [], ?_, ho, by simp, Agree.refl h F, ?_, ?_⟩
    · simp [splitOff_panics (Nat.lt_of_not_le hle), hle]
    · simp [hle]
    · simp [hle]

theorem remove_performs (h : Heap α) (at' : ℕ) :
    Performs h (fun s =>
      match remove h s at' with
      | .undefined => none
      | .panic (h, s) => some (.panicked, h, s, [])
      | .ok (x, h, s) => some (.removed x, h, s, []))
      fun xs =>
        match xs[at']? with
        | some x => ⟨.removed x, xs.eraseIdx at', [], [], []⟩
        | none => ⟨.panicked, xs, [], [], []⟩ := by
  apply Performs.of_owns
  · intro xs
    cases xs[at']? <;> rfl
  intro l F ho
  by_cases hlt : at' < l.length
  · obtain ⟨a, c, b, rfl, rfl⟩ := exists_cut hlt
    obtain ⟨h', he, ho', hag⟩ := remove_spec ho
    have hget : (vals (a++c::b))[a.length]? = some c.2 := by
      rw [vals_append, List.getElem?_append_right (by simp)]
      simp
    have herase : (vals (a++c::b)).eraseIdx a.length = vals (a++b) := by
      rw [vals_append, List.eraseIdx_append_of_length_le (by simp)]
      simp
    refine ⟨h', a++b, ?_, ho', hag, ?_⟩
    · simp only [he, hget]
    · rw [hget]
      exact herase.symm
  · have hget : (vals l)[at']? = none := by simpa using hlt
    exact ⟨h, l, by simp [remove_panics (Nat.le_of_not_lt hlt), hget], ho, Agree.refl h F,
      by simp [hget]⟩

theorem retain_performs (h : Heap α) (f : FnMut σ α) (c : σ) :
    Performs h (fun s =>
      match retain f c h s with
      | .undefined => none
      | .panic (h, s, dropped) => some (.retained true dropped, h, s, [])
      | .ok (h, s, dropped) => some (.retained false dropped, h, s, []))
      fun xs =>
        let r := retainWalk f c xs
        ⟨.retained r.panicked r.taken, r.stays, [], [], r.shown⟩ := by
  apply Performs.of_owns fun _ => rfl
  intro l F ho
  obtain ⟨h', l', he, ho', hag, hl⟩ := retain_spec f c ho
  refine ⟨h', l', ?_, ho', hag, hl⟩
  rw [he]
  cases hp : (retainWalk f c (vals l)).panicked <;> simp [finish, hp]

theorem extractIf_performs (h : Heap α) (pred : FnMut σ α) (c : σ) (calls : ℕ) :
    Performs h (fun s => (advance pred calls h (extractIf s c)).map fun r =>
      (.extracted r.1, r.2.1, r.2.2.list, []))
      fun xs =>
        let r := Plain.advance pred calls c [] xs
        ⟨.extracted r.1, r.2.1, [], [], r.2.2⟩ := by
  apply Performs.of_owns fun _ => rfl
  intro l F ho
  obtain ⟨h', l', it, he, hit, ho', hag, hl⟩ :=
    advance_spec pred (l := []) (m := l) c 0 calls ho
  refine ⟨h', l', ?_, ho', hag, hl⟩
  rw [show extractIf (listOf l) c = extractAt [] l c 0 by simp [extractIf, extractAt, listOf], he]
  simp [hit]

theorem append_sound {w : World α} {xss : List (List α)} (i j : ℕ) (hw : Sound w xss) :
    ∃ w', step w (.append i j : Op σ α) =
        some ((Plain.step xss (.append i j : Op σ α)).reply, w') ∧
      Sound w' (Plain.step xss (.append i j : Op σ α)).lists := by
  obtain ⟨ls, hlists, rfl, hc⟩ := hw
  by_cases hij : i = j
  · refine ⟨w, by simp [step, Plain.step, hij], ls, hlists, ?_, hc⟩
    simp [Plain.step, hij]
  cases hi : ls[i]? with
  | none =>
    refine ⟨w, by simp [step, Plain.step, hij, hlists, hi], ls, hlists, ?_, hc⟩
    simp [Plain.step, hij, hi]
  | some l =>
    cases hj : ls[j]? with
    | none =>
      refine ⟨w, by simp [step, Plain.step, hij, hlists, hi, hj], ls, hlists, ?_, hc⟩
      simp [Plain.step, hij, hi, hj]
    | some m =>
      obtain ⟨rest, hperm, hset⟩ := perm_pick_two hij hi hj
      have hpick := hc.perm hperm
      obtain ⟨h', he, ho', hag⟩ := append_spec (F := rest.flatMap ptrs) hpick.owns
        (hpick.seg m (List.mem_cons_of_mem _ List.mem_cons_self))
      have hc' : Chains h' ((l++m)::([[]]++rest)) := Chains.of_owns
        (fun r hr => hpick.seg r (List.mem_cons_of_mem _ (List.mem_cons_of_mem _ hr)))
        (by simpa using ho') (by simp) hag
      refine ⟨⟨h', ((ls.set i (l++m)).set j []).map listOf⟩, ?_,
        (ls.set i (l++m)).set j [], rfl, ?_, hc'.perm (hset _ _).symm⟩
      · simp [step, Plain.step, hij, hlists, hi, hj, he, List.map_set]
        rfl
      · simp [Plain.step, hij, hi, hj, List.map_set]

theorem step_spec {w : World α} {xss : List (List α)} (hw : Sound w xss) (op : Op σ α) :
    ∃ w', step w op = some ((Plain.step xss op).reply, w') ∧
      Sound w' (Plain.step xss op).lists := by
  cases op with
  | new =>
    obtain ⟨ls, hlists, rfl, hc⟩ := hw
    refine ⟨⟨w.heap, new::w.lists⟩, rfl, []::ls, by simp [hlists, listOf, new], rfl, ?_, hc.exact⟩
    intro r hr
    rcases List.mem_cons.mp hr with rfl | hr
    · trivial
    · exact hc.seg r hr
  | pushFront i elt =>
    apply onList_spec hw (Performs.of_owns (fun _ => rfl) _)
    intro l F ho
    obtain ⟨h', p, he, ho', hag⟩ := pushFront_spec ho elt
    exact ⟨h', (p, elt)::l, by simp [he], ho', hag, rfl⟩
  | pushBack i elt =>
    apply onList_spec hw (Performs.of_owns (fun _ => rfl) _)
    intro l F ho
    obtain ⟨h', p, he, ho', hag⟩ := pushBack_spec ho elt
    exact ⟨h', l++[(p, elt)], by simp [he], ho', hag, by simp⟩
  | popFront i => exact onList_spec hw (popFront_performs w.heap)
  | popBack i => exact onList_spec hw (popBack_performs w.heap)
  | append i j => exact append_sound i j hw
  | splitOff i at' => exact onList_spec hw (splitOff_performs w.heap at')
  | remove i at' => exact onList_spec hw (remove_performs w.heap at')
  | retain i f c => exact onList_spec hw (retain_performs w.heap f c)
  | extractIf i pred c calls => exact onList_spec hw (extractIf_performs w.heap pred c calls)

theorem run_spec {w : World α} {xss : List (List α)} (hw : Sound w xss) (ops : List (Op σ α)) :
    ∃ w', run w ops = some ((Plain.run xss ops).1.map Effect.reply, w') ∧
      Sound w' (Plain.run xss ops).2 := by
  induction ops generalizing w xss with
  | nil => exact ⟨w, rfl, hw⟩
  | cons op ops ih =>
    obtain ⟨w₁, he, hw₁⟩ := step_spec hw op
    obtain ⟨w', her, hw'⟩ := ih hw₁
    exact ⟨w', by simp [run, he, her, Plain.run], hw'⟩

theorem empty_sound : (empty : World α).Sound [] :=
  ⟨[], rfl, rfl, by simp, Exact.empty⟩

end World

namespace Plain

/-- The elements of `after`, those given out and those shown to a closure, as they were before
the calls, are the elements of `before`, those put in and those shown, as the calls left them. -/
def Balanced (before after given put : List α) (shown : List (α × α)) : Prop :=
  (after++given++shown.map Prod.fst).Perm (before++put++shown.map Prod.snd)

theorem Balanced.trans {a b c g₁ g₂ p₁ p₂ : List α} {s₁ s₂ : List (α × α)}
    (h₁ : Balanced a b g₁ p₁ s₁) (h₂ : Balanced b c g₂ p₂ s₂) :
    Balanced a c (g₁++g₂) (p₁++p₂) (s₁++s₂) := by
  classical
  unfold Balanced at *
  rw [List.perm_iff_count] at *
  intro x
  have hx₁ := h₁ x
  have hx₂ := h₂ x
  simp only [List.count_append, List.map_append] at *
  omega

theorem Balanced.append {a b g p : List α} {s : List (α × α)} (hb : Balanced a b g p s)
    (r : List α) : Balanced (a++r) (b++r) g p s := by
  classical
  unfold Balanced at *
  rw [List.perm_iff_count] at *
  intro x
  have hx := hb x
  simp only [List.count_append] at *
  omega

theorem Balanced.perm {a a' b b' g p : List α} {s : List (α × α)} (hb : Balanced a b g p s)
    (ha : a.Perm a') (hb' : b.Perm b') : Balanced a' b' g p s :=
  (((hb'.symm.append_right _).append_right _).trans hb).trans
    ((ha.append_right _).append_right _)

theorem balanced_call (x x' : α) : Balanced [x] [x'] [] [] [(x, x')] := by
  simpa [Balanced] using List.Perm.swap x x' []

theorem balanced_take (x x' : α) : Balanced [x] [] [x'] [] [(x, x')] := by
  simpa [Balanced] using List.Perm.swap x x' []

theorem retainWalk_balanced (f : FnMut σ α) (s : σ) (xs : List α) :
    Balanced xs (retainWalk f s xs).stays (retainWalk f s xs).taken []
      (retainWalk f s xs).shown := by
  induction xs generalizing s with
  | nil => simp [Balanced, retainWalk]
  | cons x xs ih =>
    rcases hcall : f s x with ⟨keep, x', s'⟩
    rcases keep with - | - | -
    · simpa [retainWalk, hcall] using (balanced_call x x').append xs
    · have hrest := ((balanced_take x x').append xs).trans (ih s')
      simpa [retainWalk, hcall] using hrest
    · have hrest := ((ih s').append [x']).perm (List.perm_append_comm) (List.perm_append_comm)
      have := ((balanced_call x x').append xs).trans hrest
      simpa [retainWalk, hcall] using this

theorem extractWalk_balanced (pred : FnMut σ α) (s : σ) (xs : List α) :
    Balanced xs ((extractWalk pred s xs).passed++(extractWalk pred s xs).ahead)
      (extractWalk pred s xs).result.join.toList [] (extractWalk pred s xs).shown := by
  induction xs generalizing s with
  | nil => simp [Balanced, extractWalk]
  | cons x xs ih =>
    rcases hcall : pred s x with ⟨taken, x', s'⟩
    rcases taken with - | - | -
    · simpa [extractWalk, hcall] using (balanced_call x x').append xs
    · have hrest := ((ih s').append [x']).perm (List.perm_append_comm) (List.perm_append_comm)
      have := ((balanced_call x x').append xs).trans hrest
      simpa [extractWalk, hcall] using this
    · simpa [extractWalk, hcall] using (balanced_take x x').append xs

theorem advance_balanced (pred : FnMut σ α) (k : ℕ) (s : σ) (passed ahead : List α) :
    Balanced (passed++ahead) (advance pred k s passed ahead).2.1
      ((advance pred k s passed ahead).1.filterMap fun r => r.2.join) []
      (advance pred k s passed ahead).2.2 := by
  induction k generalizing s passed ahead with
  | zero => simp [Balanced, advance]
  | succ k ih =>
    have hwalk := (extractWalk_balanced pred s ahead).append passed
    have hrest := hwalk.perm List.perm_append_comm List.perm_append_comm
    rw [← List.append_assoc] at hrest
    have := hrest.trans (ih (extractWalk pred s ahead).captured
      (passed++(extractWalk pred s ahead).passed) (extractWalk pred s ahead).ahead)
    rw [advance, List.filterMap_cons]
    cases hr : (extractWalk pred s ahead).result.join <;> simpa [hr] using this

theorem onList_balanced {xss : List (List α)} {i : ℕ} {f : List α → OnList α}
    (hf : ∀ xs, Balanced xs ((f xs).returned.flatten++(f xs).list) (f xs).reply.given (f xs).put
      (f xs).shown) :
    Balanced xss.flatten (onList xss i f).lists.flatten (onList xss i f).reply.given
      (onList xss i f).put (onList xss i f).shown := by
  cases hi : xss[i]? with
  | none => simp [onList, hi, Balanced, Reply.given]
  | some xs =>
    have hb := (hf xs).append (xss.eraseIdx i).flatten
    have hfrom := (perm_pick hi).flatten.symm
    have hto := (perm_set hi (f xs).list).flatten.symm
    simp only [onList, hi, List.flatten_append]
    apply hb.perm hfrom
    rw [List.append_assoc]
    exact hto.append_left _

theorem step_balanced (xss : List (List α)) (op : Op σ α) :
    Balanced xss.flatten (step xss op).lists.flatten (step xss op).reply.given (step xss op).put
      (step xss op).shown := by
  cases op with
  | new => simp [step, Balanced, Reply.given]
  | pushFront i elt =>
    apply onList_balanced
    intro xs
    have hswap : ([elt]++xs).Perm (xs++[elt]) := List.perm_append_comm
    simpa [Balanced, Reply.given] using hswap
  | pushBack i elt =>
    apply onList_balanced
    intro xs
    simp [Balanced, Reply.given]
  | popFront i =>
    apply onList_balanced
    intro xs
    cases xs with
    | nil => simp [Balanced, Reply.given]
    | cons x xs => simp [Balanced, Reply.given]
  | popBack i =>
    apply onList_balanced
    intro xs
    induction xs using List.reverseRecOn with
    | nil => simp [Balanced, Reply.given]
    | append_singleton xs x _ => simp [Balanced, Reply.given]
  | append i j =>
    by_cases hij : i = j
    · simp [step, hij, Balanced, Reply.given]
    cases hi : xss[i]? with
    | none => simp [step, hij, hi, Balanced, Reply.given]
    | some xs =>
      cases hj : xss[j]? with
      | none => simp [step, hij, hi, hj, Balanced, Reply.given]
      | some ys =>
        obtain ⟨rest, hperm, hset⟩ := perm_pick_two hij hi hj
        have hfrom : xss.flatten.Perm (xs++(ys++rest.flatten)) := hperm.flatten
        have hto := (hset (xs++ys) []).flatten
        rw [List.flatten_cons, List.flatten_cons, List.nil_append, List.append_assoc] at hto
        simpa [step, hij, hi, hj, Balanced, Reply.given] using hto.trans hfrom.symm
  | splitOff i at' =>
    apply onList_balanced
    intro xs
    split
    · simpa [Balanced, Reply.given] using
        List.perm_append_comm.trans (List.Perm.of_eq (List.take_append_drop at' xs))
    · simp [Balanced, Reply.given]
  | remove i at' =>
    apply onList_balanced
    intro xs
    cases hx : xs[at']? with
    | none => simp [Balanced, Reply.given]
    | some x =>
      have hperm := (perm_pick hx).symm
      simpa [Balanced, Reply.given] using List.perm_append_comm.trans hperm
  | retain i f s =>
    apply onList_balanced
    intro xs
    simpa [Reply.given] using retainWalk_balanced f s xs
  | extractIf i pred s calls =>
    apply onList_balanced
    intro xs
    simpa [Reply.given] using advance_balanced pred calls s [] xs

theorem run_balanced (xss : List (List α)) (ops : List (Op σ α)) :
    Balanced xss.flatten (run xss ops).2.flatten
      ((run xss ops).1.flatMap fun e => e.reply.given) ((run xss ops).1.flatMap Effect.put)
      ((run xss ops).1.flatMap Effect.shown) := by
  induction ops generalizing xss with
  | nil => simp [run, Balanced]
  | cons op ops ih => exact (step_balanced xss op).trans (ih (step xss op).lists)

end Plain

/-- After any sequence of operations the lists in the heap hold, forward and backward, what the
same operations make of plain lists, every reply is the expected one, the nodes of the heap are
those of the lists, and the ledger is balanced. -/
theorem linkedList_refines_list (ops : List (Op σ α)) :
    ∃ w, (World.empty : World α).run ops = some ((Plain.run [] ops).1.map Effect.reply, w) ∧
      List.Forall₂ (Holds w.heap) w.lists (Plain.run [] ops).2 ∧ Linked w.heap w.lists ∧
      Plain.Balanced [] (Plain.run [] ops).2.flatten
        ((Plain.run [] ops).1.flatMap fun e => e.reply.given)
        ((Plain.run [] ops).1.flatMap Effect.put)
        ((Plain.run [] ops).1.flatMap Effect.shown) := by
  obtain ⟨w, he, ls, hlists, hvals, hc⟩ := World.run_spec World.empty_sound ops
  refine ⟨w, he, ?_, ?_, Plain.run_balanced [] ops⟩
  · rw [hlists, hvals]
    exact hc.holds
  · rw [hlists]
    exact hc.linked

end RustStd.LinkedLists
