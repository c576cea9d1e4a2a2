import RustStd.Collections.LinkedListCursor

/-!
# Runs of a `CursorMut`

A cursor on its list, beside a pool of further lists: those that are spliced in
come from the pool, those that a split returns go to it. A run is any sequence
of the fourteen operations.

`pop_front` at the first element moves the cursor on before the element goes, so
its index is one too high from then on. In every run that does not take that
branch (`MeetsAll`) the cursor is a mark in a sequence, and its index the
position of its node.
-/

set_option autoImplicit false

namespace RustStd.LinkedLists
open RustStd.DoublyLinked

variable {α : Type}

inductive CursorOp (α : Type)
  | moveNext
  | movePrev
  | insertBefore (item : α)
  | insertAfter (item : α)
  | removeCurrent
  | removeCurrentAsList
  | spliceBefore (j : ℕ)
  | spliceAfter (j : ℕ)
  | splitBefore
  | splitAfter
  | pushFront (elt : α)
  | pushBack (elt : α)
  | popFront
  | popBack

structure CursorWorld (α : Type) where
  heap : Heap α
  cursor : CursorMut
  pool : List LinkedList

namespace CursorWorld

/-- One operation, with the element that it returns. A splice names a list of the pool; one
that names no list is no operation. -/
def step (w : CursorWorld α) : CursorOp α → Option (Option α × CursorWorld α)
  | .moveNext => (w.cursor.moveNext w.heap).map fun c => (none, { w with cursor := c })
  | .movePrev => (w.cursor.movePrev w.heap).map fun c => (none, { w with cursor := c })
  | .insertBefore item => (w.cursor.insertBefore w.heap item).map fun r =>
    (none, { w with heap := r.1, cursor := r.2 })
  | .insertAfter item => (w.cursor.insertAfter w.heap item).map fun r =>
    (none, { w with heap := r.1, cursor := r.2 })
  | .removeCurrent => (w.cursor.removeCurrent w.heap).map fun r =>
    (r.1, { w with heap := r.2.1, cursor := r.2.2 })
  | .removeCurrentAsList => (w.cursor.removeCurrentAsList w.heap).map fun r =>
    (none, { heap := r.2.1, cursor := r.2.2, pool := r.1.toList++w.pool })
  | .spliceBefore j =>
    match w.pool[j]? with
    | none => some (none, w)
    | some list => (w.cursor.spliceBefore w.heap list).map fun r =>
      (none, { heap := r.1, cursor := r.2, pool := w.pool.eraseIdx j })
  | .spliceAfter j =>
    match w.pool[j]? with
    | none => some (none, w)
    | some list => (w.cursor.spliceAfter w.heap list).map fun r =>
      (none, { heap := r.1, cursor := r.2, pool := w.pool.eraseIdx j })
  | .splitBefore => (w.cursor.splitBefore w.heap).map fun r =>
    (none, { heap := r.2.1, cursor := r.2.2, pool := r.1::w.pool })
  | .splitAfter => (w.cursor.splitAfter w.heap).map fun r =>
    (none, { heap := r.2.1, cursor := r.2.2, pool := r.1::w.pool })
  | .pushFront elt => (w.cursor.pushFront w.heap elt).map fun r =>
    (none, { w with heap := r.1, cursor := r.2 })
  | .pushBack elt => (w.cursor.pushBack w.heap elt).map fun r =>
    (none, { w with heap := r.1, cursor := r.2 })
  | .popFront => (w.cursor.popFront w.heap).map fun r =>
    (r.1, { w with heap := r.2.1, cursor := r.2.2 })
  | .popBack => (w.cursor.popBack w.heap).map fun r =>
    (r.1, { w with heap := r.2.1, cursor := r.2.2 })

def run (w : CursorWorld α) : List (CursorOp α) → Option (List (Option α) × CursorWorld α)
  | [] => some ([], w)
  | op::ops => do
    let (r, w) ← step w op
    let (rs, w) ← run w ops
    return (r::rs, w)

/-- The branch of `pop_front` that moves the cursor is not taken. -/
def Meets (w : CursorWorld α) : CursorOp α → Prop
  | .popFront => isEmpty w.cursor.list = true ∨ w.cursor.list.head ≠ w.cursor.current
  | _ => True

def MeetsAll : CursorWorld α → List (CursorOp α) → Prop
  | _, [] => True
  | w, op::ops => Meets w op ∧ ∀ r w', step w op = some (r, w') → MeetsAll w' ops

end CursorWorld

namespace Marked

def step (c : Marked α) (pool : List (List α)) :
    CursorOp α → Option α × Marked α × List (List α)
  | .moveNext => (none, c.moveNext, pool)
  | .movePrev => (none, c.movePrev, pool)
  | .insertBefore item => (none, c.spliceBefore [item], pool)
  | .insertAfter item => (none, c.spliceAfter [item], pool)
  | .removeCurrent => (c.removeCurrent.1, c.removeCurrent.2, pool)
  | .removeCurrentAsList =>
    (none, c.removeCurrent.2, (c.removeCurrent.1.toList.map fun a => [a])++pool)
  | .spliceBefore j =>
    match pool[j]? with
    | none => (none, c, pool)
    | some ys => (none, c.spliceBefore ys, pool.eraseIdx j)
  | .spliceAfter j =>
    match pool[j]? with
    | none => (none, c, pool)
    | some ys => (none, c.spliceAfter ys, pool.eraseIdx j)
  | .splitBefore => (none, c.splitBefore.2, c.splitBefore.1::pool)
  | .splitAfter => (none, c.splitAfter.2, c.splitAfter.1::pool)
  | .pushFront elt => (none, c.pushFront elt, pool)
  | .pushBack elt => (none, c.pushBack elt, pool)
  | .popFront => (c.popFront.1, c.popFront.2, pool)
  | .popBack => (c.popBack.1, c.popBack.2, pool)

def run (c : Marked α) (pool : List (List α)) :
    List (CursorOp α) → List (Option α) × Marked α × List (List α)
  | [] => ([], c, pool)
  | op::ops =>
    let (r, c, pool) := c.step pool op
    let (rs, c, pool) := c.run pool ops
    (r::rs, c, pool)

end Marked

/-- The stored index is the position of the current node, the length at the ghost. -/
structure InPlace (h : Heap α) (c : CursorMut) : Prop where
  position : (nodesOf h c.list)[c.index]? = c.current
  ghost : c.current = none → c.index = c.list.len

theorem inPlace_cursorAt {h : Heap α} {l m : Cells α} (hs : Seg h none (l++m) none) :
    InPlace h (cursorAt l m) where
  position := by
    rw [cursorAt_list, cursorAt_index, cursorAt_current, nodesOf_listOf hs, ptrs_append,
      List.getElem?_append_right (by simp), ptrs_length, Nat.sub_self, first_eq_head,
      List.head?_eq_getElem?]
  ghost := by
    intro hnone
    cases m with
    | nil => simp [listOf]
    | cons c m => cases hnone

namespace CursorWorld

/-- The cursor stands in its chain as the mark in the sequence, beside the chains of the
pool. -/
structure Rep (w : CursorWorld α) (c : Marked α) (pool : List (List α)) (l m : Cells α)
    (ls : List (Cells α)) : Prop where
  cursor : w.cursor = cursorAt l m
  lists : w.pool = ls.map listOf
  chains : Chains w.heap ((l++m)::ls)
  mark : c = marked l m
  values : pool = ls.map vals

def Sound (w : CursorWorld α) (c : Marked α) (pool : List (List α)) : Prop :=
  ∃ l m ls, Rep w c pool l m ls

theorem Sound.of_owns {h h' : Heap α} {l m : Cells α} {ls : List (Cells α)}
    (rs : List (Cells α))
    (hs : ∀ r ∈ ls, Seg h none r none)
    (ho : Owns h' (l++m) (rs.flatMap ptrs++ls.flatMap ptrs))
    (hr : ∀ r ∈ rs, Seg h' none r none) (hag : Agree h h' (ls.flatMap ptrs)) {c : Marked α}
    {pool : List (List α)} (hmark : c = marked l m) (hpool : pool = (rs++ls).map vals) :
    Sound ⟨h', cursorAt l m, (rs++ls).map listOf⟩ c pool :=
  ⟨l, m, rs++ls, rfl, rfl, Chains.of_owns hs ho hr hag, hmark, hpool⟩

theorem chains_pick {h : Heap α} {l c : Cells α} {ls : List (Cells α)} {j : ℕ}
    (hc : Chains h (l::ls)) (hj : ls[j]? = some c) : Chains h (l::c::ls.eraseIdx j) :=
  hc.perm ((perm_pick hj).cons l)

theorem step_spec {w : CursorWorld α} {c : Marked α} {pool : List (List α)}
    (hw : Sound w c pool) (op : CursorOp α) (hm : Meets w op) :
    ∃ w', step w op = some ((c.step pool op).1, w') ∧
      Sound w' (c.step pool op).2.1 (c.step pool op).2.2 := by
  obtain ⟨l, m, ls, hrep⟩ := hw
  obtain ⟨h, cur, lists⟩ := w
  obtain ⟨rfl, rfl, hc, rfl, rfl⟩ := hrep
  have ho := hc.owns
  have hs : ∀ r ∈ ls, Seg h none r none := fun r hr => hc.seg r (List.mem_cons_of_mem _ hr)
  cases op with
  | moveNext =>
    obtain ⟨l', m', he, happ, hmark⟩ := CursorMut.moveNext_spec ho
    refine ⟨⟨h, cursorAt l' m', ls.map listOf⟩, by simp [step, he, Marked.step],
      l', m', ls, rfl, rfl, happ ▸ hc, hmark.symm, rfl⟩
  | movePrev =>
    obtain ⟨l', m', he, happ, hmark⟩ := CursorMut.movePrev_spec ho
    refine ⟨⟨h, cursorAt l' m', ls.map listOf⟩, by simp [step, he, Marked.step],
      l', m', ls, rfl, rfl, happ ▸ hc, hmark.symm, rfl⟩
  | insertBefore item =>
    obtain ⟨h', p, he, ho', hag⟩ := CursorMut.insertBefore_spec ho item
    refine ⟨_, ?_, Sound.of_owns [] hs ho' (by simp) hag ?_ rfl⟩
    · simp [step, he, Marked.step]
    · simp [Marked.step, Marked.spliceBefore, marked]
  | insertAfter item =>
    obtain ⟨h', l', m', he, ho', hag, hmark⟩ := CursorMut.insertAfter_spec ho item
    refine ⟨_, ?_, Sound.of_owns [] hs ho' (by simp) hag hmark.symm rfl⟩
    simp [step, he, Marked.step]
  | removeCurrent =>
    cases m with
    | nil => exact ⟨_, rfl, l, [], ls, rfl, rfl, hc, rfl, rfl⟩
    | cons c m =>
      obtain ⟨h', he, ho', hag⟩ := CursorMut.removeCurrent_spec ho
      refine ⟨_, ?_, Sound.of_owns [] hs ho' (by simp) hag rfl rfl⟩
      simp [step, he, Marked.step, marked, Marked.removeCurrent]
  | removeCurrentAsList =>
    cases m with
    | nil => exact ⟨_, rfl, l, [], ls, rfl, rfl, hc, rfl, rfl⟩
    | cons c m =>
      obtain ⟨h', he, ho', hs', hag⟩ := CursorMut.removeCurrentAsList_spec ho
      refine ⟨_, ?_, Sound.of_owns [[c]] hs (by simpa using ho') (by simpa using hs')
        hag rfl rfl⟩
      simp [step, he, Marked.step]
  | spliceBefore j =>
    cases hj : ls[j]? with
    | none =>
      refine ⟨_, ?_, l, m, ls, rfl, rfl, hc, ?_, ?_⟩ <;> simp [step, Marked.step, hj]
    | some c =>
      have hp := chains_pick hc hj
      obtain ⟨h', he, ho', hag⟩ := CursorMut.spliceBefore_spec hp.owns
        (hp.seg c (List.mem_cons_of_mem _ List.mem_cons_self))
      refine ⟨_, ?_, Sound.of_owns [] (fun r hr => hs r (List.mem_of_mem_eraseIdx hr))
        ho' (by simp) hag ?_ ?_⟩
      · simp [step, hj, he, Marked.step, List.eraseIdx_map]
      · simp [Marked.step, hj, Marked.spliceBefore, marked]
      · simp [Marked.step, hj, List.eraseIdx_map]
  | spliceAfter j =>
    cases hj : ls[j]? with
    | none =>
      refine ⟨_, ?_, l, m, ls, rfl, rfl, hc, ?_, ?_⟩ <;> simp [step, Marked.step, hj]
    | some c =>
      have hp := chains_pick hc hj
      obtain ⟨h', l', m', he, ho', hag, hmark⟩ := CursorMut.spliceAfter_spec hp.owns
        (hp.seg c (List.mem_cons_of_mem _ List.mem_cons_self))
      refine ⟨_, ?_, Sound.of_owns [] (fun r hr => hs r (List.mem_of_mem_eraseIdx hr))
        ho' (by simp) hag ?_ ?_⟩
      · simp [step, hj, he, Marked.step, List.eraseIdx_map]
      · simp [Marked.step, hj, hmark]
      · simp [Marked.step, hj, List.eraseIdx_map]
  | splitBefore =>
    obtain ⟨h', he, ho', hs', hag⟩ := CursorMut.splitBefore_spec ho
    refine ⟨_, ?_, Sound.of_owns (l := []) [l] hs (by simpa using ho')
      (by simpa using hs') hag rfl rfl⟩
    simp [step, he, Marked.step]
  | splitAfter =>
    obtain ⟨h', r, l', m', he, ho', hs', hag, hmark⟩ := CursorMut.splitAfter_spec ho
    refine ⟨_, ?_, Sound.of_owns [r] hs (by simpa using ho') (by simpa using hs')
      hag ?_ ?_⟩
    · simp [step, he, Marked.step]
    · simp [Marked.step, ← hmark]
    · simp [Marked.step, ← hmark]
  | pushFront elt =>
    obtain ⟨h', p, he, ho', hag⟩ := CursorMut.pushFront_spec ho elt
    refine ⟨_, ?_, Sound.of_owns [] hs ho' (by simp) hag rfl rfl⟩
    simp [step, he, Marked.step]
  | pushBack elt =>
    obtain ⟨h', l', m', he, ho', hag, hmark⟩ := CursorMut.pushBack_spec ho elt
    refine ⟨_, ?_, Sound.of_owns [] hs ho' (by simp) hag hmark.symm rfl⟩
    simp [step, he, Marked.step]
  | popFront =>
    cases l with
    | cons c l =>
      obtain ⟨h', he, ho', hag⟩ := CursorMut.popFront_cons ho
      refine ⟨_, ?_, Sound.of_owns [] hs ho' (by simp) hag rfl rfl⟩
      simp [step, he, Marked.step, marked, Marked.popFront]
    | nil =>
      cases m with
      | nil => exact ⟨_, rfl, [], [], ls, rfl, rfl, hc, rfl, rfl⟩
      | cons c m => exact absurd rfl (hm.resolve_left Bool.false_ne_true)
  | popBack =>
    rcases last_cases m with rfl | ⟨m, p, a, rfl⟩
    · rcases last_cases l with rfl | ⟨l, p, a, rfl⟩
      · exact ⟨_, rfl, [], [], ls, rfl, rfl, hc, rfl, rfl⟩
      · obtain ⟨h', he, ho', hag⟩ := CursorMut.popBack_ghost (by simpa using ho)
        refine ⟨_, ?_, Sound.of_owns [] hs ho' (by simp) hag ?_ rfl⟩
        · simp [step, he, Marked.step, marked, Marked.popBack]
        · simp [Marked.step, marked, Marked.popBack]
    · obtain ⟨h', he, ho', hag⟩ := CursorMut.popBack_after ho
      refine ⟨_, ?_, Sound.of_owns [] hs ho' (by simp) hag ?_ rfl⟩
      · simp [step, he, Marked.step, marked, Marked.popBack]
      · simp [Marked.step, marked, Marked.popBack]

theorem run_spec {w : CursorWorld α} {c : Marked α} {pool : List (List α)}
    (hw : Sound w c pool) (ops : List (CursorOp α)) (hm : MeetsAll w ops) :
    ∃ w', run w ops = some ((c.run pool ops).1, w') ∧
      Sound w' (c.run pool ops).2.1 (c.run pool ops).2.2 := by
  induction ops generalizing w c pool with
  | nil => exact ⟨w, rfl, hw⟩
  | cons op ops ih =>
    obtain ⟨w₁, he, hw₁⟩ := step_spec hw op hm.1
    obtain ⟨w', her, hw'⟩ := ih hw₁ (hm.2 _ _ he)
    exact ⟨w', by simp [run, he, her, Marked.run], hw'⟩

/-- What a cursor shows of a sequence with a mark, and its heap of the lists. -/
structure Shows (w : CursorWorld α) (c : Marked α) (pool : List (List α)) : Prop where
  place : InPlace w.heap w.cursor
  index : w.cursor.index = c.before.length
  current : (w.cursor.current.bind w.heap.nodes).map Node.element = c.after.head?
  list : Holds w.heap w.cursor.list c.contents
  pool : List.Forall₂ (Holds w.heap) w.pool pool
  linked : Linked w.heap (w.cursor.list::w.pool)

theorem Sound.shows {w : CursorWorld α} {c : Marked α} {pool : List (List α)}
    (hw : Sound w c pool) : Shows w c pool := by
  obtain ⟨l, m, ls, hrep⟩ := hw
  obtain ⟨h, cur, lists⟩ := w
  obtain ⟨rfl, rfl, hc, rfl, rfl⟩ := hrep
  have hs := hc.owns.seg
  refine ⟨inPlace_cursorAt hs, by simp [marked], ?_, ?_, (List.forall₂_cons.mp hc.holds).2,
    hc.linked⟩
  · cases m with
    | nil => rfl
    | cons c m =>
      have hn : h.nodes c.1 = some ⟨first m none, last none l, c.2⟩ := hs.node
      simp [hn, marked]
  · simpa [Marked.contents, marked] using Holds.of_seg hs

theorem sound_cursorFrontMut {h : Heap α} (l : Cells α) (ls : List (Cells α))
    (hc : Chains h (l::ls)) :
    Sound ⟨h, cursorFrontMut (listOf l), ls.map listOf⟩ ⟨[], vals l⟩ (ls.map vals) :=
  ⟨[], l, ls, rfl, rfl, hc, rfl, rfl⟩

theorem not_inPlace_index_one {h : Heap α} {m : Cells α} {F : List Ptr} (ho : Owns h m F) :
    ¬ InPlace h { cursorAt [] m with index := 1 } := by
  intro hp
  cases m with
  | nil => exact absurd (hp.ghost rfl) one_ne_zero
  | cons d m =>
    have hpos : (nodesOf h (listOf (d::m)))[1]? = some d.1 := hp.position
    rw [nodesOf_listOf ho.seg, ptrs_cons, List.getElem?_cons_succ] at hpos
    exact (List.nodup_cons.mp ho.nodup_chain).1 (List.mem_of_getElem? hpos)

theorem not_inPlace_of_not_meets {w w' : CursorWorld α} {c : Marked α}
    {pool : List (List α)} {op : CursorOp α} {r : Option α} (hw : Sound w c pool)
    (hm : ¬ Meets w op) (he : step w op = some (r, w')) : ¬ InPlace w'.heap w'.cursor := by
  obtain ⟨l, m, ls, hrep⟩ := hw
  obtain ⟨h, cur, lists⟩ := w
  obtain ⟨rfl, rfl, hc, rfl, rfl⟩ := hrep
  cases op with
  | popFront =>
    rw [Meets, not_or, not_not] at hm
    cases l with
    | cons d l => exact absurd hm.2 (CursorMut.head_ne_current hc.owns)
    | nil =>
      cases m with
      | nil => exact absurd rfl hm.1
      | cons d m =>
        obtain ⟨h', he', ho', _⟩ := CursorMut.popFront_front hc.owns
        simp only [step, he', Option.map_some, Option.some.injEq, Prod.mk.injEq] at he
        obtain ⟨-, rfl⟩ := he
        exact not_inPlace_index_one ho'
  | _ => exact absurd trivial hm

/-- In every run that keeps off the branch of `pop_front` that moves the cursor, the cursor is
a mark in a sequence in every state that is reached, its index is the position of its node, and
all lists are linked both ways. The condition is exact: a further step keeps the index if and
only if it keeps off that branch. -/
theorem cursor_is_mark (w : CursorWorld α) (c : Marked α) (pool : List (List α))
    (hw : w.Sound c pool) (ops : List (CursorOp α)) (hm : w.MeetsAll ops) :
    ∃ w', w.run ops = some ((c.run pool ops).1, w') ∧
      w'.Shows (c.run pool ops).2.1 (c.run pool ops).2.2 ∧
      ∀ op r w'', w'.step op = some (r, w'') →
        (InPlace w''.heap w''.cursor ↔ w'.Meets op) := by
  obtain ⟨w', he, hw'⟩ := run_spec hw ops hm
  refine ⟨w', he, hw'.shows, ?_⟩
  intro op r w'' hstep
  constructor
  · intro hp
    by_contra hn
    exact not_inPlace_of_not_meets hw' hn hstep hp
  · intro hmeets
    obtain ⟨w₂, he₂, hw₂⟩ := step_spec hw' op hmeets
    rw [he₂] at hstep
    cases hstep
    exact hw₂.shows.place

theorem empty_sound : (⟨Heap.empty, cursorFrontMut new, []⟩ : CursorWorld α).Sound ⟨[], []⟩ [] :=
  sound_cursorFrontMut [] []
    ⟨fun r hr => by rw [List.mem_singleton.mp hr]; trivial, Exact.empty⟩

theorem cursor_is_mark_pop :
    ∃ w', (⟨Heap.empty, cursorFrontMut new, []⟩ : CursorWorld ℕ).run
        [.pushBack 1, .popFront, .insertBefore 2, .movePrev, .splitAfter] =
        some ([none, some 1, none, none, none], w') ∧ w'.Shows ⟨[], [2]⟩ [[]] := by
  obtain ⟨w', he, hs, _⟩ := cursor_is_mark ⟨Heap.empty, cursorFrontMut new, []⟩ ⟨[], []⟩ []
    empty_sound [.pushBack 1, .popFront, .insertBefore 2, .movePrev, .splitAfter] (by
      refine ⟨trivial, fun r w₁ h₁ => ⟨?_, fun _ _ _ => ⟨trivial, fun _ _ _ => ⟨trivial,
        fun _ _ _ => ⟨trivial, fun _ _ _ => trivial⟩⟩⟩⟩⟩
      cases h₁
      exact Or.inr (by decide))
  exact ⟨w', he, hs⟩

def oneNode : CursorWorld ℕ :=
  { heap := ⟨fun p => if p = 0 then some ⟨none, none, 7⟩ else none, 1⟩
    cursor := cursorFrontMut ⟨some 0, some 0, 1⟩
    pool := [] }

theorem oneNode_sound : oneNode.Sound ⟨[], [7]⟩ [] := by
  refine sound_cursorFrontMut [(0, 7)] [] ⟨?_, ?_, ?_, ?_⟩
  · intro r hr
    rw [List.mem_singleton.mp hr]
    exact ⟨rfl, trivial⟩
  · simp
  · intro p
    by_cases hp : p = 0 <;> simp [hp]
  · simp

theorem popFront_moves_index :
    ¬ ∀ (w : CursorWorld ℕ) (c : Marked ℕ) (pool : List (List ℕ)), w.Sound c pool →
      ∀ ops, ∃ rs w', w.run ops = some (rs, w') ∧ InPlace w'.heap w'.cursor := by
  intro hall
  obtain ⟨rs, w', he, hp⟩ := hall oneNode ⟨[], [7]⟩ [] oneNode_sound [.popFront]
  cases he
  exact absurd (hp.ghost rfl) (by decide)

end CursorWorld

end RustStd.LinkedLists
