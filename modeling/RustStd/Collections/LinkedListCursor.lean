import RustStd.Collections.LinkedListNodes

/-!
# `CursorMut` as a mark in a sequence

What a cursor is for: a sequence cut in two, the mark standing before the first
element of the second part. At the ghost the second part is empty. The index
that the source keeps by hand is the length of the first part, the current node
the first of the second part (`cursorAt`), and each operation is an operation on
the two parts.
-/

set_option autoImplicit false

namespace RustStd.LinkedLists
open RustStd.DoublyLinked

variable {α : Type}

/-- A sequence with a mark. -/
structure Marked (α : Type) where
  before : List α
  after : List α
  deriving DecidableEq, Repr

namespace Marked

def contents (c : Marked α) : List α := c.before++c.after

def moveNext (c : Marked α) : Marked α :=
  match c.after with
  | [] => ⟨[], c.before⟩
  | a::as => ⟨c.before++[a], as⟩

def movePrev (c : Marked α) : Marked α :=
  match c.before.getLast? with
  | none => ⟨c.after, []⟩
  | some b => ⟨c.before.dropLast, b::c.after⟩

def spliceAfter (c : Marked α) (ys : List α) : Marked α :=
  match c.after with
  | [] => ⟨ys++c.before, []⟩
  | a::as => ⟨c.before, a::(ys++as)⟩

def spliceBefore (c : Marked α) (ys : List α) : Marked α := ⟨c.before++ys, c.after⟩

def removeCurrent (c : Marked α) : Option α × Marked α :=
  match c.after with
  | [] => (none, c)
  | a::as => (some a, ⟨c.before, as⟩)

def splitAfter (c : Marked α) : List α × Marked α :=
  match c.after with
  | [] => (c.before, ⟨[], []⟩)
  | a::as => (as, ⟨c.before, [a]⟩)

def splitBefore (c : Marked α) : List α × Marked α := (c.before, ⟨[], c.after⟩)

def pushFront (c : Marked α) (x : α) : Marked α := ⟨x::c.before, c.after⟩

def pushBack (c : Marked α) (x : α) : Marked α :=
  match c.after with
  | [] => ⟨c.before++[x], []⟩
  | a::as => ⟨c.before, a::as++[x]⟩

def popFront (c : Marked α) : Option α × Marked α :=
  match c.before, c.after with
  | b::bs, as => (some b, ⟨bs, as⟩)
  | [], a::as => (some a, ⟨[], as⟩)
  | [], [] => (none, c)

def popBack (c : Marked α) : Option α × Marked α :=
  match c.after.getLast?, c.before.getLast? with
  | some a, _ => (some a, ⟨c.before, c.after.dropLast⟩)
  | none, some b => (some b, ⟨c.before.dropLast, []⟩)
  | none, none => (none, c)

end Marked

variable {h : Heap α} {l m : Cells α} {F : List Ptr}

/-- The cursor before the chain `m` in the list with the chain `l ++ m`. -/
def cursorAt (l m : Cells α) : CursorMut :=
  { index := l.length, current := first m none, list := listOf (l++m) }

@[simp] theorem cursorAt_index (l m : Cells α) : (cursorAt l m).index = l.length := rfl
@[simp] theorem cursorAt_current (l m : Cells α) : (cursorAt l m).current = first m none := rfl
@[simp] theorem cursorAt_list (l m : Cells α) : (cursorAt l m).list = listOf (l++m) := rfl

def marked (l m : Cells α) : Marked α := ⟨vals l, vals m⟩

theorem cursorBackMut_eq (l : Cells α) (c : Ptr × α) :
    cursorBackMut (listOf (l++[c])) = cursorAt l [c] := by
  simp [cursorBackMut, cursorAt, listOf]

namespace CursorMut

theorem moveNext_ghost (l : Cells α) (h : Heap α) :
    moveNext h (cursorAt l []) = some (cursorAt [] l) := by
  simp [moveNext, cursorAt, listOf]

theorem moveNext_cons {c : Ptr × α} (ho : Owns h (l++c::m) F) :
    moveNext h (cursorAt l (c::m)) = some (cursorAt (l++[c]) m) := by
  simp [moveNext, cursorAt, ho.seg.node]

theorem movePrev_front (ho : Owns h m F) :
    movePrev h (cursorAt [] m) = some (cursorAt m []) := by
  cases m with
  | nil => simp [movePrev, cursorAt, listOf]
  | cons c m => simp [movePrev, cursorAt, listOf, ho.seg.1]

theorem movePrev_concat {c : Ptr × α} (ho : Owns h (l++c::m) F) :
    movePrev h (cursorAt (l++[c]) m) = some (cursorAt l (c::m)) := by
  cases m with
  | nil => simp [movePrev, cursorAt, listOf]
  | cons d m =>
    have ho' : Owns h (l++[c]++d::m) F := by simpa using ho
    simp [movePrev, cursorAt, ho'.seg.node]

theorem moveNext_spec (ho : Owns h (l++m) F) :
    ∃ l' m', moveNext h (cursorAt l m) = some (cursorAt l' m') ∧ l'++m' = l++m ∧
      marked l' m' = (marked l m).moveNext := by
  cases m with
  | nil => exact ⟨[], l, moveNext_ghost l h, by simp, rfl⟩
  | cons c m => exact ⟨l++[c], m, moveNext_cons ho, by simp, by simp [marked, Marked.moveNext]⟩

theorem movePrev_spec (ho : Owns h (l++m) F) :
    ∃ l' m', movePrev h (cursorAt l m) = some (cursorAt l' m') ∧ l'++m' = l++m ∧
      marked l' m' = (marked l m).movePrev := by
  rcases last_cases l with rfl | ⟨l, p, a, rfl⟩
  · exact ⟨m, [], movePrev_front ho, by simp, rfl⟩
  · exact ⟨l, (p, a)::m, movePrev_concat (by simpa using ho), by simp,
      by simp [marked, Marked.movePrev]⟩

theorem spliceNodes_after {c : Cells α} (ho : Owns h (l++m) (ptrs c++F))
    (hs : Seg h none c none) (hne : c ≠ []) :
    ∃ b e n h' l' m', first c none = some b ∧ last none c = some e ∧
      nodeNext h (cursorAt l m) = some n ∧
      spliceNodes h (listOf (l++m)) (first m none) n b e c.length =
        some (h', listOf (l'++m')) ∧ Owns h' (l'++m') F ∧ Agree h h' F ∧
      ({ cursorAt l m with
          list := listOf (l'++m')
          index := if first m none = none then (listOf (l'++m')).len else l.length } : CursorMut) =
        cursorAt l' m' ∧
      marked l' m' = (marked l m).spliceAfter (vals c) := by
  cases m with
  | nil =>
    obtain ⟨b, e, h', hb, he, heq, ho', hag⟩ :=
      spliceNodes_spec (l := []) (m := l) (by simpa using ho) hs hne
    refine ⟨b, e, first l none, h', c++l, [], hb, he, by simp [nodeNext, cursorAt, listOf],
      ?_, by simpa using ho', hag, ?_, ?_⟩
    · simpa using heq
    · simp [cursorAt, listOf]
    · simp [marked, Marked.spliceAfter]
  | cons d m =>
    obtain ⟨b, e, h', hb, he, heq, ho', hag⟩ :=
      spliceNodes_spec (l := l++[d]) (m := m) (by simpa using ho) hs hne
    refine ⟨b, e, first m none, h', l, d::(c++m), hb, he, ?_, ?_, by simpa using ho', hag, ?_, ?_⟩
    · simp [nodeNext, cursorAt, ho.seg.node]
    · simpa using heq
    · simp [cursorAt]
    · simp [marked, Marked.spliceAfter]

theorem spliceNodes_before {c : Cells α} (ho : Owns h (l++m) (ptrs c++F))
    (hs : Seg h none c none) (hne : c ≠ []) :
    ∃ b e n h', first c none = some b ∧ last none c = some e ∧
      nodePrev h (cursorAt l m) = some n ∧
      spliceNodes h (listOf (l++m)) n (first m none) b e c.length =
        some (h', listOf (l++c++m)) ∧ Owns h' (l++c++m) F ∧ Agree h h' F := by
  obtain ⟨b, e, h', hb, he, heq, ho', hag⟩ := spliceNodes_spec ho hs hne
  refine ⟨b, e, last none l, h', hb, he, ?_, by simpa using heq, by simpa using ho', hag⟩
  cases m with
  | nil => simp [nodePrev, cursorAt, listOf]
  | cons d m => simp [nodePrev, cursorAt, ho.seg.node]

theorem detachAllNodes_nil : detachAllNodes (listOf ([] : Cells α)) = some none := rfl

theorem detachAllNodes_some {c : Cells α} {b e : Ptr} (hb : first c none = some b)
    (he : last none c = some e) :
    detachAllNodes (listOf c) = some (some (b, e, c.length)) := by
  simp [detachAllNodes, listOf, hb, he]

theorem spliceAfter_spec {c : Cells α} (ho : Owns h (l++m) (ptrs c++F))
    (hs : Seg h none c none) :
    ∃ h' l' m', spliceAfter h (cursorAt l m) (listOf c) = some (h', cursorAt l' m') ∧
      Owns h' (l'++m') F ∧ Agree h h' F ∧
      marked l' m' = (marked l m).spliceAfter (vals c) := by
  by_cases hne : c = []
  · subst hne
    refine ⟨h, l, m, rfl, ho, Agree.refl h F, ?_⟩
    cases m <;> rfl
  obtain ⟨b, e, n, h', l', m', hb, he, hn, heq, ho', hag, hcur, hmark⟩ :=
    spliceNodes_after ho hs hne
  refine ⟨h', l', m', ?_, ho', hag, hmark⟩
  rw [spliceAfter, detachAllNodes_some hb he]
  simp only [Option.bind_eq_bind, Option.bind_some, hn, cursorAt_list, cursorAt_current,
    cursorAt_index, heq]
  rw [← hcur]
  rfl

theorem spliceBefore_spec {c : Cells α} (ho : Owns h (l++m) (ptrs c++F))
    (hs : Seg h none c none) :
    ∃ h', spliceBefore h (cursorAt l m) (listOf c) = some (h', cursorAt (l++c) m) ∧
      Owns h' (l++c++m) F ∧ Agree h h' F := by
  by_cases hne : c = []
  · subst hne
    exact ⟨h, by simp [spliceBefore, detachAllNodes_nil], by simpa using ho, Agree.refl h F⟩
  obtain ⟨b, e, n, h', hb, he, hn, heq, ho', hag⟩ := spliceNodes_before ho hs hne
  refine ⟨h', ?_, ho', hag⟩
  rw [spliceBefore, detachAllNodes_some hb he]
  simp only [Option.bind_eq_bind, Option.bind_some, hn, cursorAt_list, cursorAt_current, heq]
  simp [cursorAt]

theorem alloc_chain (ho : Owns h l F) (a : α) :
    ∃ p h', h.alloc (Node.new a) = (p, h') ∧ Owns h' l (ptrs [(p, a)]++F) ∧
      Seg h' none [(p, a)] none ∧ Agree h h' F := by
  obtain ⟨ho', hag⟩ := ho.alloc (Node.new a)
  exact ⟨_, _, rfl, ho', ⟨alloc_node h (Node.new a), trivial⟩,
    fun p hp => hag p (List.mem_append_right _ hp)⟩

theorem insertAfter_spec (ho : Owns h (l++m) F) (a : α) :
    ∃ h' l' m', insertAfter h (cursorAt l m) a = some (h', cursorAt l' m') ∧
      Owns h' (l'++m') F ∧ Agree h h' F ∧ marked l' m' = (marked l m).spliceAfter [a] := by
  obtain ⟨p, h₁, hal, ho₁, hs₁, hag₁⟩ := alloc_chain ho a
  obtain ⟨b, e, n, h', l', m', hb, he, hn, heq, ho', hag, hcur, hmark⟩ :=
    spliceNodes_after ho₁ hs₁ (List.cons_ne_nil _ _)
  cases hb
  cases he
  refine ⟨h', l', m', ?_, ho', hag₁.trans hag, hmark⟩
  rw [insertAfter]
  simp only [hal, Option.bind_eq_bind, Option.bind_some, hn, cursorAt_list, cursorAt_current,
    cursorAt_index]
  rw [show spliceNodes _ _ _ _ _ _ 1 = _ from heq, ← hcur]
  rfl

theorem insertBefore_spec (ho : Owns h (l++m) F) (a : α) :
    ∃ h' p, insertBefore h (cursorAt l m) a = some (h', cursorAt (l++[(p, a)]) m) ∧
      Owns h' (l++[(p, a)]++m) F ∧ Agree h h' F := by
  obtain ⟨p, h₁, hal, ho₁, hs₁, hag₁⟩ := alloc_chain ho a
  obtain ⟨b, e, n, h', hb, he, hn, heq, ho', hag⟩ :=
    spliceNodes_before ho₁ hs₁ (List.cons_ne_nil _ _)
  cases hb
  cases he
  refine ⟨h', p, ?_, ho', hag₁.trans hag⟩
  rw [insertBefore]
  simp only [hal, Option.bind_eq_bind, Option.bind_some, hn, cursorAt_list, cursorAt_current]
  rw [show spliceNodes _ _ _ _ _ _ 1 = _ from heq]
  simp [cursorAt]

theorem removeCurrent_spec {c : Ptr × α} (ho : Owns h (l++c::m) F) :
    ∃ h', removeCurrent h (cursorAt l (c::m)) = some (some c.2, h', cursorAt l m) ∧
      Owns h' (l++m) F ∧ Agree h h' F := by
  obtain ⟨h₁, h', he, ht, ho', hag⟩ := unlinkTake_spec ho
  refine ⟨h', ?_, ho', hag⟩
  rw [removeCurrent, show (cursorAt l (c::m)).current = some c.1 from rfl]
  simp only [ho.seg.node, Option.bind_eq_bind, Option.bind_some, cursorAt_list, he, ht]
  rfl

theorem removeCurrentAsList_spec {c : Ptr × α} (ho : Owns h (l++c::m) F) :
    ∃ h', removeCurrentAsList h (cursorAt l (c::m)) =
        some (some (listOf [c]), h', cursorAt l m) ∧
      Owns h' (l++m) (ptrs [c]++F) ∧ Seg h' none [c] none ∧ Agree h h' F := by
  obtain ⟨h₁, he, hs, hm⟩ := unlinkNode_spec ho
  have hp := (nodup_cut ho.nodup).2.1
  have hn : h₁.nodes c.1 = some ⟨first m none, last none l, c.2⟩ :=
    (hm.other _ hp).trans ho.seg.node
  have hm₂ := Modifies.write (⟨first m none, none, c.2⟩ : Node α) hn
  have hm₃ := Modifies.write (h := h₁.write c.1 (some ⟨first m none, none, c.2⟩))
    (⟨none, none, c.2⟩ : Node α) (Heap.write_same ..)
  have hsub : ptrs l++ptrs m++([c.1]++[c.1]) ⊆ ptrs (l++c::m) := by
    intro q hq
    simp only [List.mem_append, List.mem_singleton, or_self] at hq
    simp only [ptrs_append, ptrs_cons, List.mem_append, List.mem_cons]
    tauto
  have hmod := (hm.trans (hm₂.trans hm₃)).mono hsub
  have hs' := hs.frame (hm₂.trans hm₃) fun q hq hqc => by
    simp only [List.mem_append, List.mem_singleton, or_self] at hqc
    exact hp (by simpa [hqc] using hq)
  have hperm : (ptrs (l++c::m)).Perm (ptrs (l++m)++ptrs [c]) := by
    have hswap : ([c.1]++ptrs m).Perm (ptrs m++[c.1]) := List.perm_append_comm
    simpa using hswap.append_left (ptrs l)
  obtain ⟨ho', hag⟩ := Owns.of_modifies ho.exact hs' hmod hperm
  refine ⟨_, ?_, ho', ⟨Heap.write_same .., trivial⟩, hag⟩
  rw [removeCurrentAsList, show (cursorAt l (c::m)).current = some c.1 from rfl]
  simp only [ho.seg.node, Option.bind_eq_bind, Option.bind_some, cursorAt_list, he, Heap.setPrev, hn,
    Option.map_some, Heap.setNext, Heap.write_same]
  rfl

theorem splitAfter_spec (ho : Owns h (l++m) F) :
    ∃ h' r l' m', splitAfter h (cursorAt l m) = some (listOf r, h', cursorAt l' m') ∧
      Owns h' (l'++m') (ptrs r++F) ∧ Seg h' none r none ∧ Agree h h' F ∧
      (vals r, marked l' m') = (marked l m).splitAfter := by
  cases m with
  | nil =>
    have ho' : Owns h ([] : Cells α) (ptrs l++F) := ⟨trivial, by simpa using ho.exact⟩
    refine ⟨h, l, [], [], ?_, ho', by simpa using ho.seg, Agree.refl h F, rfl⟩
    simp [splitAfter, cursorAt, splitOffAfterNode, listOf, new]
  | cons c m =>
    obtain ⟨h', he, ho', hs', hag⟩ := splitOffAfterNode_spec ho
    refine ⟨h', m, l, [c], ?_, ho', hs', hag, rfl⟩
    have hlen : ¬ (cursorAt l (c::m)).index = (cursorAt l (c::m)).list.len := by
      simp [cursorAt, listOf]
    rw [splitAfter, if_neg hlen, if_neg hlen]
    simp only [cursorAt_current, cursorAt_list, cursorAt_index, first_cons, he,
      Option.bind_eq_bind, Option.bind_some]
    rfl

theorem splitBefore_spec (ho : Owns h (l++m) F) :
    ∃ h', splitBefore h (cursorAt l m) = some (listOf l, h', cursorAt [] m) ∧
      Owns h' m (ptrs l++F) ∧ Seg h' none l none ∧ Agree h h' F := by
  cases m with
  | nil =>
    have ho' : Owns h ([] : Cells α) (ptrs l++F) := ⟨trivial, by simpa using ho.exact⟩
    refine ⟨h, ?_, ho', by simpa using ho.seg, Agree.refl h F⟩
    simp [splitBefore, cursorAt, splitOffBeforeNode, listOf, new]
  | cons c m =>
    obtain ⟨h', he, ho', hs', hag⟩ := splitOffBeforeNode_spec ho
    refine ⟨h', ?_, ho', hs', hag⟩
    rw [splitBefore]
    simp only [cursorAt_current, cursorAt_list, cursorAt_index, first_cons, he,
      Option.bind_eq_bind, Option.bind_some]
    rfl

theorem pushFront_spec (ho : Owns h (l++m) F) (a : α) :
    ∃ h' p, pushFront h (cursorAt l m) a = some (h', cursorAt ((p, a)::l) m) ∧
      Owns h' ((p, a)::l++m) F ∧ Agree h h' F := by
  obtain ⟨h', p, he, ho', hag⟩ := LinkedLists.pushFront_spec ho a
  refine ⟨h', p, ?_, ho', hag⟩
  rw [pushFront, cursorAt_list, he]
  rfl

theorem pushBack_spec (ho : Owns h (l++m) F) (a : α) :
    ∃ h' l' m', pushBack h (cursorAt l m) a = some (h', cursorAt l' m') ∧
      Owns h' (l'++m') F ∧ Agree h h' F ∧ marked l' m' = (marked l m).pushBack a := by
  obtain ⟨h', p, he, ho', hag⟩ := LinkedLists.pushBack_spec ho a
  cases m with
  | nil =>
    refine ⟨h', l++[(p, a)], [], ?_, by simpa using ho', hag, by simp [marked, Marked.pushBack]⟩
    rw [pushBack, cursorAt_list, he]
    simp [cursorAt]
  | cons c m =>
    refine ⟨h', l, c::m++[(p, a)], ?_, by simpa using ho', hag,
      by simp [marked, Marked.pushBack]⟩
    rw [pushBack, cursorAt_list, he]
    simp [cursorAt]

theorem isEmpty_cut (l m : Cells α) (c : Ptr × α) : isEmpty (listOf (l++c::m)) = false := by
  cases l <;> rfl

theorem head_ne_current {c : Ptr × α} (ho : Owns h (c::l++m) F) :
    (cursorAt (c::l) m).list.head ≠ (cursorAt (c::l) m).current := by
  intro heq
  have hmem : c.1 ∈ ptrs (l++m) := by
    cases m with
    | nil => cases heq
    | cons d m => simp [show c.1 = d.1 from Option.some.inj heq]
  exact (List.nodup_cons.mp ho.nodup_chain).1 hmem

theorem popFront_cons {c : Ptr × α} (ho : Owns h (c::l++m) F) :
    ∃ h', popFront h (cursorAt (c::l) m) = some (some c.2, h', cursorAt l m) ∧
      Owns h' (l++m) F ∧ Agree h h' F := by
  obtain ⟨h', he, ho', hag⟩ := LinkedLists.popFront_spec (p := c.1) (a := c.2) (l := l++m) ho
  refine ⟨h', ?_, ho', hag⟩
  have hlist : (cursorAt (c::l) m).list = listOf ((c.1, c.2)::(l++m)) := rfl
  rw [popFront, if_neg (by rw [hlist]; exact Bool.false_ne_true), if_neg (head_ne_current ho),
    cursorAt_index, List.length_cons, sub_of_le (Nat.le_add_left 1 _)]
  simp only [Option.map_some, Option.bind_eq_bind, Option.bind_some, hlist, he]
  rfl

theorem popFront_front {c : Ptr × α} (ho : Owns h (c::m) F) :
    ∃ h', popFront h (cursorAt [] (c::m)) =
        some (some c.2, h', { cursorAt [] m with index := 1 }) ∧
      Owns h' m F ∧ Agree h h' F := by
  obtain ⟨h', he, ho', hag⟩ := LinkedLists.popFront_spec (p := c.1) (a := c.2) ho
  refine ⟨h', ?_, ho', hag⟩
  have hlist : (cursorAt ([]++[c]) m).list = listOf ((c.1, c.2)::m) := rfl
  have hhead : (cursorAt [] (c::m)).list.head = (cursorAt [] (c::m)).current := rfl
  have hne : ¬ isEmpty (cursorAt [] (c::m)).list = true := Bool.false_ne_true
  rw [popFront, if_neg hne, if_pos hhead, moveNext_cons ho]
  simp only [Option.bind_eq_bind, Option.bind_some, hlist, he]
  rfl

theorem popBack_after {c : Ptr × α} (ho : Owns h (l++(m++[c])) F) :
    ∃ h', popBack h (cursorAt l (m++[c])) = some (some c.2, h', cursorAt l m) ∧
      Owns h' (l++m) F ∧ Agree h h' F := by
  obtain ⟨h', he, ho', hag⟩ :=
    LinkedLists.popBack_spec (p := c.1) (a := c.2) (l := l++m) (by simpa using ho)
  refine ⟨h', ?_, ho', hag⟩
  have hlist : (cursorAt l (m++[c])).list = listOf (l++m++[(c.1, c.2)]) := by simp
  have htail : (listOf (l++m++[(c.1, c.2)])).tail = some c.1 := by simp [listOf]
  rw [popBack, if_neg (by rw [hlist, isEmpty_cut]; exact Bool.false_ne_true), hlist, htail,
    cursorAt_current]
  cases m with
  | nil =>
    rw [if_pos (show some c.1 = first ([]++[c]) none from rfl)]
    simp only [Option.bind_eq_bind, Option.bind_some, he]
    rfl
  | cons d m =>
    have hne : ¬ some c.1 = first (d::m++[c]) none := by
      intro heq
      have hd := (nodup_parts ho).2.1
      rw [List.cons_append, ptrs_cons, List.nodup_cons, ← Option.some.inj heq] at hd
      exact hd.1 (by simp)
    rw [if_neg hne, if_neg (by simp)]
    simp only [Option.bind_eq_bind, Option.bind_some, hlist, he]
    rfl

theorem popBack_ghost {c : Ptr × α} (ho : Owns h (l++[c]) F) :
    ∃ h', popBack h (cursorAt (l++[c]) []) = some (some c.2, h', cursorAt l []) ∧
      Owns h' (l++[]) F ∧ Agree h h' F := by
  obtain ⟨h', he, ho', hag⟩ := LinkedLists.popBack_spec (p := c.1) (a := c.2) ho
  refine ⟨h', ?_, by simpa using ho', hag⟩
  have hlist : (cursorAt (l++[c]) []).list = listOf (l++[(c.1, c.2)]) := by simp
  have htail : (listOf (l++[(c.1, c.2)])).tail = some c.1 := by simp [listOf]
  have hlen : (listOf (l++[(c.1, c.2)])).len = l.length+1 := by simp [listOf]
  rw [popBack, if_neg (by rw [hlist, isEmpty_cut]; exact Bool.false_ne_true), hlist, htail,
    cursorAt_current, first_nil, if_neg (by simp), if_pos rfl, hlen,
    sub_of_le (Nat.le_add_left 1 _)]
  simp only [Option.map_some, Option.bind_eq_bind, Option.bind_some, he]
  simp [cursorAt]

end CursorMut

end RustStd.LinkedLists
