import Mathlib.Data.List.Induction
import Mathlib.Data.List.Nodup
import Mathlib.Data.List.Perm.Basic
import Mathlib.Logic.Function.Basic

/-!
# Doubly linked segments

A heap of nodes with a pointer to the next and to the previous node. An access
to an address that holds no node fails. Addresses are not used again, so that a
stale pointer stays stale.

`Seg h d l n` says that the nodes at the addresses of `l` are linked to each
other in that order, the first back to `d` and the last on to `n`. Two segments
join where the end of one is the start of the other (`seg_append`), and a heap
that changes elsewhere keeps a segment (`Seg.frame`).
-/

set_option autoImplicit false

namespace RustStd.DoublyLinked

abbrev Ptr := ℕ

structure Node (α : Type) where
  next : Option Ptr
  prev : Option Ptr
  element : α
  deriving DecidableEq, Repr

structure Heap (α : Type) where
  nodes : Ptr → Option (Node α)
  fresh : Ptr

variable {α : Type}

namespace Heap

def empty : Heap α := ⟨fun _ => none, 0⟩

def write (h : Heap α) (p : Ptr) (n : Option (Node α)) : Heap α :=
  { h with nodes := Function.update h.nodes p n }

def setNext (h : Heap α) (p : Ptr) (v : Option Ptr) : Option (Heap α) :=
  (h.nodes p).map fun n => h.write p (some { n with next := v })

def setPrev (h : Heap α) (p : Ptr) (v : Option Ptr) : Option (Heap α) :=
  (h.nodes p).map fun n => h.write p (some { n with prev := v })

def setElement (h : Heap α) (p : Ptr) (a : α) : Option (Heap α) :=
  (h.nodes p).map fun n => h.write p (some { n with element := a })

def alloc (h : Heap α) (n : Node α) : Ptr × Heap α :=
  (h.fresh, { h.write h.fresh (some n) with fresh := h.fresh+1 })

/-- The node leaves the heap. -/
def take (h : Heap α) (p : Ptr) : Option (Node α × Heap α) :=
  (h.nodes p).map fun n => (n, h.write p none)

@[simp] theorem write_same (h : Heap α) (p : Ptr) (n : Option (Node α)) :
    (h.write p n).nodes p = n := by simp [write]

theorem write_other (h : Heap α) {p q : Ptr} (n : Option (Node α)) (hq : q ≠ p) :
    (h.write p n).nodes q = h.nodes q := by simp [write, hq]

end Heap

/-- The addresses of a chain in order, with what their nodes hold. -/
abbrev Cells (α : Type) := List (Ptr × α)

def ptrs (l : Cells α) : List Ptr := l.map Prod.fst

def vals (l : Cells α) : List α := l.map Prod.snd

@[simp] theorem ptrs_nil : ptrs ([] : Cells α) = [] := rfl
@[simp] theorem ptrs_cons (c : Ptr × α) (l : Cells α) : ptrs (c::l) = c.1::ptrs l := rfl
@[simp] theorem ptrs_append (l m : Cells α) : ptrs (l++m) = ptrs l++ptrs m := List.map_append
@[simp] theorem vals_nil : vals ([] : Cells α) = [] := rfl
@[simp] theorem vals_cons (c : Ptr × α) (l : Cells α) : vals (c::l) = c.2::vals l := rfl
@[simp] theorem vals_append (l m : Cells α) : vals (l++m) = vals l++vals m := List.map_append
@[simp] theorem vals_length (l : Cells α) : (vals l).length = l.length := List.length_map ..
@[simp] theorem ptrs_length (l : Cells α) : (ptrs l).length = l.length := List.length_map ..

def first : Cells α → Option Ptr → Option Ptr
  | [], n => n
  | c::_, _ => some c.1

def last : Option Ptr → Cells α → Option Ptr
  | d, [] => d
  | _, c::l => last (some c.1) l

@[simp] theorem first_nil (n : Option Ptr) : first ([] : Cells α) n = n := rfl
@[simp] theorem first_cons (c : Ptr × α) (l : Cells α) (n : Option Ptr) :
    first (c::l) n = some c.1 := rfl
@[simp] theorem last_nil (d : Option Ptr) : last d ([] : Cells α) = d := rfl
@[simp] theorem last_cons (d : Option Ptr) (c : Ptr × α) (l : Cells α) :
    last d (c::l) = last (some c.1) l := rfl

@[simp] theorem first_append (l m : Cells α) (n : Option Ptr) :
    first (l++m) n = first l (first m n) := by
  cases l with
  | nil => rfl
  | cons c l => rfl

@[simp] theorem last_append (d : Option Ptr) (l m : Cells α) :
    last d (l++m) = last (last d l) m := by
  induction l generalizing d with
  | nil => rfl
  | cons c l ih => exact ih _

theorem first_eq_head (l : Cells α) : first l none = (ptrs l).head? := by
  cases l with
  | nil => rfl
  | cons c l => rfl

theorem last_cases (l : Cells α) :
    l = [] ∨ ∃ (m : Cells α) (p : Ptr) (a : α), l = m++[(p, a)] := by
  induction l using List.reverseRecOn with
  | nil => exact Or.inl rfl
  | append_singleton m c ih => exact Or.inr ⟨m, c.1, c.2, rfl⟩

def Seg (h : Heap α) : Option Ptr → Cells α → Option Ptr → Prop
  | _, [], _ => True
  | d, c::l, n => h.nodes c.1 = some ⟨first l n, d, c.2⟩ ∧ Seg h (some c.1) l n

@[simp] theorem seg_nil (h : Heap α) (d n : Option Ptr) : Seg h d [] n := trivial

@[simp] theorem seg_cons (h : Heap α) (d n : Option Ptr) (c : Ptr × α) (l : Cells α) :
    Seg h d (c::l) n ↔ h.nodes c.1 = some ⟨first l n, d, c.2⟩ ∧ Seg h (some c.1) l n :=
  Iff.rfl

theorem seg_append (h : Heap α) (d n : Option Ptr) (l m : Cells α) :
    Seg h d (l++m) n ↔ Seg h d l (first m n) ∧ Seg h (last d l) m n := by
  induction l generalizing d with
  | nil => simp
  | cons c l ih => simp [ih, and_assoc]

/-- Only nodes at `ps` are written; which addresses hold a node stays. -/
structure Modifies (h h' : Heap α) (ps : List Ptr) : Prop where
  fresh : h'.fresh = h.fresh
  other : ∀ p, p ∉ ps → h'.nodes p = h.nodes p
  domain : ∀ p, h'.nodes p = none ↔ h.nodes p = none

namespace Modifies

theorem refl (h : Heap α) (ps : List Ptr) : Modifies h h ps :=
  ⟨rfl, fun _ _ => rfl, fun _ => Iff.rfl⟩

theorem trans {h h' h'' : Heap α} {ps qs : List Ptr} (hp : Modifies h h' ps)
    (hq : Modifies h' h'' qs) : Modifies h h'' (ps++qs) where
  fresh := hq.fresh.trans hp.fresh
  other := by
    intro p hn
    rw [List.mem_append, not_or] at hn
    rw [hq.other p hn.2, hp.other p hn.1]
  domain p := (hq.domain p).trans (hp.domain p)

theorem mono {h h' : Heap α} {ps qs : List Ptr} (hp : Modifies h h' ps) (hs : ps ⊆ qs) :
    Modifies h h' qs :=
  ⟨hp.fresh, fun p hn => hp.other p (fun hm => hn (hs hm)), hp.domain⟩

theorem write {h : Heap α} {p : Ptr} {n : Node α} (m : Node α) (hn : h.nodes p = some n) :
    Modifies h (h.write p (some m)) [p] where
  fresh := rfl
  other := by
    intro q hq
    exact h.write_other _ (by simpa using hq)
  domain := by
    intro q
    by_cases hq : q = p
    · subst hq
      simp [hn]
    · rw [h.write_other _ hq]

end Modifies

theorem Seg.congr {h h' : Heap α} {d n : Option Ptr} {l : Cells α} (hs : Seg h d l n)
    (heq : ∀ p ∈ ptrs l, h'.nodes p = h.nodes p) : Seg h' d l n := by
  induction l generalizing d with
  | nil => trivial
  | cons c l ih =>
    exact ⟨(heq _ List.mem_cons_self).trans hs.1,
      ih hs.2 fun p hp => heq p (List.mem_cons_of_mem _ hp)⟩

theorem Seg.frame {h h' : Heap α} {d n : Option Ptr} {l : Cells α} {ps : List Ptr}
    (hs : Seg h d l n) (hm : Modifies h h' ps) (hd : ∀ p ∈ ptrs l, p ∉ ps) :
    Seg h' d l n :=
  hs.congr fun p hp => hm.other p (hd p hp)

theorem Seg.node {h : Heap α} {d n : Option Ptr} {l m : Cells α} {p : Ptr} {a : α}
    (hs : Seg h d (l++(p, a)::m) n) : h.nodes p = some ⟨first m n, last d l, a⟩ :=
  ((seg_append h d n l _).mp hs).2.1

theorem Seg.setNext {h : Heap α} {d n : Option Ptr} {l : Cells α} {p : Ptr} {a : α}
    (hs : Seg h d (l++[(p, a)]) n) (hp : p ∉ ptrs l) (v : Option Ptr) :
    ∃ h', h.setNext p v = some h' ∧ Seg h' d (l++[(p, a)]) v ∧ Modifies h h' [p] := by
  have hn := hs.node
  have hm := Modifies.write ⟨v, last d l, a⟩ hn
  refine ⟨_, by rw [Heap.setNext, hn, Option.map_some], ?_, hm⟩
  rw [seg_append] at hs ⊢
  refine ⟨hs.1.frame hm ?_, ?_⟩
  · intro q hq
    rw [List.mem_singleton]
    rintro rfl
    exact hp hq
  · simp

theorem Seg.setPrev {h : Heap α} {d n : Option Ptr} {l : Cells α} {p : Ptr} {a : α}
    (hs : Seg h d ((p, a)::l) n) (hp : p ∉ ptrs l) (v : Option Ptr) :
    ∃ h', h.setPrev p v = some h' ∧ Seg h' v ((p, a)::l) n ∧ Modifies h h' [p] := by
  have hm := Modifies.write ⟨first l n, v, a⟩ hs.1
  refine ⟨_, by rw [Heap.setPrev, hs.1, Option.map_some], ⟨by simp, ?_⟩, hm⟩
  apply hs.2.frame hm
  intro q hq
  rw [List.mem_singleton]
  rintro rfl
  exact hp hq

theorem Seg.setElement {h : Heap α} {d n : Option Ptr} {l m : Cells α} {p : Ptr} {a : α}
    (hs : Seg h d (l++(p, a)::m) n) (hl : p ∉ ptrs l) (hm : p ∉ ptrs m) (b : α) :
    ∃ h', h.setElement p b = some h' ∧ Seg h' d (l++(p, b)::m) n ∧ Modifies h h' [p] := by
  have hn := hs.node
  have hw := Modifies.write ⟨first m n, last d l, b⟩ hn
  refine ⟨_, by rw [Heap.setElement, hn, Option.map_some], ?_, hw⟩
  rw [seg_append] at hs ⊢
  refine ⟨hs.1.frame hw ?_, by simp, hs.2.2.frame hw ?_⟩
  · intro q hq
    rw [List.mem_singleton]
    rintro rfl
    exact hl hq
  · intro q hq
    rw [List.mem_singleton]
    rintro rfl
    exact hm hq

/-- The nodes of the heap are those at `ps`, each listed once. -/
structure Exact (h : Heap α) (ps : List Ptr) : Prop where
  nodup : ps.Nodup
  domain : ∀ p, h.nodes p ≠ none ↔ p ∈ ps
  below : ∀ p ∈ ps, p < h.fresh

namespace Exact

theorem empty : Exact (Heap.empty : Heap α) [] :=
  ⟨List.nodup_nil, fun p => by simp [Heap.empty], fun p hp => by simp at hp⟩

theorem perm {h : Heap α} {ps qs : List Ptr} (hx : Exact h ps) (hp : ps.Perm qs) :
    Exact h qs :=
  ⟨hp.nodup_iff.mp hx.nodup, fun p => (hx.domain p).trans hp.mem_iff,
    fun p hq => hx.below p (hp.mem_iff.mpr hq)⟩

theorem modifies {h h' : Heap α} {ps qs : List Ptr} (hx : Exact h ps)
    (hm : Modifies h h' qs) : Exact h' ps :=
  ⟨hx.nodup, fun p => (not_congr (hm.domain p)).trans (hx.domain p),
    fun p hp => hm.fresh ▸ hx.below p hp⟩

theorem fresh_notMem {h : Heap α} {ps : List Ptr} (hx : Exact h ps) : h.fresh ∉ ps :=
  fun hm => Nat.lt_irrefl _ (hx.below _ hm)

theorem alloc {h : Heap α} {ps : List Ptr} (hx : Exact h ps) (n : Node α) :
    Exact (h.alloc n).2 (h.fresh::ps) where
  nodup := List.nodup_cons.mpr ⟨hx.fresh_notMem, hx.nodup⟩
  domain := by
    intro p
    rw [List.mem_cons]
    by_cases hp : p = h.fresh
    · simp [Heap.alloc, Heap.write, hp]
    · simp [Heap.alloc, Heap.write, hp, ← hx.domain]
  below := by
    intro p hp
    rcases List.mem_cons.mp hp with rfl | hp
    · exact Nat.lt_succ_self _
    · exact Nat.lt_succ_of_lt (hx.below p hp)

theorem free {h : Heap α} {p : Ptr} {ps : List Ptr} (hx : Exact h (p::ps)) :
    Exact (h.write p none) ps where
  nodup := hx.nodup.of_cons
  domain := by
    intro q
    by_cases hq : q = p
    · subst hq
      simpa using (List.nodup_cons.mp hx.nodup).1
    · rw [h.write_other _ hq, hx.domain, List.mem_cons, or_iff_right hq]
  below q hq := hx.below q (List.mem_cons_of_mem _ hq)

theorem free_other {h : Heap α} {p : Ptr} {ps : List Ptr} (hx : Exact h (p::ps)) :
    ∀ q ∈ ps, (h.write p none).nodes q = h.nodes q := by
  intro q hq
  apply h.write_other
  rintro rfl
  exact (List.nodup_cons.mp hx.nodup).1 hq

end Exact

theorem alloc_other (h : Heap α) (n : Node α) {p : Ptr} (hp : p ≠ h.fresh) :
    (h.alloc n).2.nodes p = h.nodes p := by simp [Heap.alloc, Heap.write, hp]

theorem alloc_node (h : Heap α) (n : Node α) : (h.alloc n).2.nodes h.fresh = some n := by
  simp [Heap.alloc, Heap.write]

/-- The chain of addresses from `p` on, by a link of the nodes; at most `k` nodes are read. -/
def follow (h : Heap α) (link : Node α → Option Ptr) : ℕ → Option Ptr → Option (Cells α)
  | _, none => some []
  | 0, some _ => none
  | k+1, some p => do
    let n ← h.nodes p
    let l ← follow h link k (link n)
    return (p, n.element)::l

theorem Seg.follow_next {h : Heap α} {d : Option Ptr} {l : Cells α} (hs : Seg h d l none) :
    follow h Node.next l.length (first l none) = some l := by
  induction l generalizing d with
  | nil => simp [follow]
  | cons c l ih =>
    rw [first_cons, List.length_cons, follow, hs.1]
    simp [ih hs.2]

theorem Seg.follow_prev {h : Heap α} {n : Option Ptr} {l : Cells α} (hs : Seg h none l n) :
    follow h Node.prev l.length (last none l) = some l.reverse := by
  induction l using List.reverseRecOn generalizing n with
  | nil => simp [follow]
  | append_singleton l c ih =>
    rw [seg_append] at hs
    have hl := ih hs.1
    rw [last_append, last_cons, last_nil, List.length_append, List.length_singleton, follow,
      hs.2.1]
    simp [hl]

end RustStd.DoublyLinked
