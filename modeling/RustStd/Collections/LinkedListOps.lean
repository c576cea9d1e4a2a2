import RustStd.Collections.LinkedListCursor

/-!
# `split_off`, `remove`, `retain` and `extract_if`

The operations that walk. `split_off` and `remove` reach their node from the
nearer end; `retain` goes over the list with a cursor and `extract_if` with a
pointer of its own to the next node. What a walk over nodes does is a walk over
the elements (`retainWalk`, `extractWalk`), with the calls of the closure in the
same order and with the same captured state.
-/

set_option autoImplicit false

namespace RustStd.LinkedLists
open RustStd.DoublyLinked RustStd.Outcome

variable {α σ : Type} {h : Heap α} {l m : Cells α} {F : List Ptr}

theorem times_next {d : Option Ptr} (hs : Seg h d (l++m) none) (t : Option Ptr) :
    times (fun it => (IterMut.next h it).map Prod.snd) l.length
        { head := first (l++m) none, tail := t, len := (l++m).length } =
      some { head := first m none, tail := t, len := m.length } := by
  induction l generalizing d with
  | nil => rfl
  | cons c l ih =>
    have hn : h.nodes c.1 = some ⟨first (l++m) none, d, c.2⟩ := hs.1
    rw [List.length_cons, times]
    simp only [IterMut.next, List.cons_append, first_cons, List.length_cons, hn,
      Nat.add_eq_zero_iff, one_ne_zero, and_false, if_false, Option.map_some, Nat.add_sub_cancel,
      some_bind]
    exact ih hs.2

theorem times_nextBack {n : Option Ptr} (hs : Seg h none (l++m) n) (hd : Option Ptr) :
    times (fun it => (IterMut.nextBack h it).map Prod.snd) m.length
        { head := hd, tail := last none (l++m), len := (l++m).length } =
      some { head := hd, tail := last none l, len := l.length } := by
  induction m using List.reverseRecOn generalizing n with
  | nil => simp [times]
  | append_singleton m c ih =>
    rw [← List.append_assoc] at hs ⊢
    have hn := hs.node
    rw [List.length_append, List.length_singleton, times]
    simp only [IterMut.nextBack, last_append, last_cons, last_nil, List.length_append,
      List.length_singleton, hn, Nat.add_eq_zero_iff, one_ne_zero, and_false, if_false,
      Option.map_some, Nat.add_sub_cancel, some_bind]
    have := ih ((seg_append ..).mp hs).1
    rwa [last_append, List.length_append] at this

theorem splitNode_spec {c : Ptr × α} (ho : Owns h (l++c::m) F) :
    splitNode h (listOf (l++c::m)) (l.length+1) = some (some c.1) := by
  rw [splitNode, Nat.add_sub_cancel]
  split
  · have hw := times_next ho.seg (last none (l++c::m))
    rw [show iterMut (listOf (l++c::m)) =
      { head := first (l++c::m) none, tail := last none (l++c::m), len := (l++c::m).length } from rfl,
      hw]
    rfl
  · have hs : Seg h none (l++[c]++m) none := by simpa using ho.seg
    have hw := times_nextBack hs (first (l++[c]++m) none)
    rw [List.append_assoc, List.singleton_append] at hw
    rw [show (listOf (l++c::m)).len-1-l.length = m.length by simp [listOf],
      show iterMut (listOf (l++c::m)) =
      { head := first (l++c::m) none, tail := last none (l++c::m), len := (l++c::m).length } from rfl,
      hw]
    simp

theorem exists_cut {k : ℕ} (hk : k < l.length) : ∃ a c b, l = a++c::b ∧ k = a.length := by
  refine ⟨l.take k, l[k], l.drop (k+1), ?_, ?_⟩
  · rw [← List.drop_eq_getElem_cons hk, List.take_append_drop]
  · rw [List.length_take]
    omega

theorem splitOff_spec (ho : Owns h l F) {at' : ℕ} (hle : at' ≤ l.length) :
    ∃ h', splitOff h (listOf l) at' = .ok (listOf (l.drop at'), h', listOf (l.take at')) ∧
      Owns h' (l.take at') (ptrs (l.drop at')++F) ∧ Seg h' none (l.drop at') none ∧
      Agree h h' F := by
  have hlen : (listOf l).len = l.length := rfl
  rw [splitOff, ensure_of _ (by rwa [hlen]), ok_bind, hlen]
  by_cases hzero : at' = 0
  · subst hzero
    rw [if_pos rfl]
    exact ⟨h, rfl, ⟨trivial, ho.exact⟩, ho.seg, Agree.refl h F⟩
  by_cases hall : at' = l.length
  · subst hall
    rw [if_neg hzero, if_pos rfl, List.drop_length, List.take_length]
    exact ⟨h, rfl, ho, trivial, Agree.refl h F⟩
  obtain ⟨a, c, b, rfl, hk⟩ := exists_cut (k := at'-1) (l := l) (by omega)
  obtain ⟨h', he, ho', hs', hag⟩ := splitOffAfterNode_spec ho
  have hat : at' = a.length+1 := by omega
  have hdrop : (a++c::b).drop at' = b := by simp [hat, List.drop_append]
  have htake : (a++c::b).take at' = a++[c] := by simp [hat, List.take_append]
  refine ⟨h', ?_, ?_, ?_, hag⟩
  · rw [if_neg hzero, if_neg hall, hat, splitNode_spec ho, ← hat, hdrop, htake]
    simp [hat, he]
  · rwa [hdrop, htake]
  · rwa [hdrop]

theorem splitOff_panics {at' : ℕ} (hlt : l.length < at') :
    splitOff h (listOf l) at' = .panic (h, listOf l) := by
  rw [splitOff, ensure_of_not _ (by simpa [listOf] using hlt)]
  rfl

theorem times_moveNext {k : Cells α} (ho : Owns h (k++(l++m)) F) :
    times (CursorMut.moveNext h) l.length (cursorAt k (l++m)) = some (cursorAt (k++l) m) := by
  induction l generalizing k with
  | nil => simp [times]
  | cons c l ih =>
    have ho' : Owns h (k++[c]++(l++m)) F := by simpa using ho
    rw [List.length_cons, times, List.cons_append, CursorMut.moveNext_cons (by simpa using ho)]
    simpa using ih ho'

theorem times_movePrev {k : Cells α} (ho : Owns h (k++(l++m)) F) :
    times (CursorMut.movePrev h) l.length (cursorAt (k++l) m) = some (cursorAt k (l++m)) := by
  induction l using List.reverseRecOn generalizing m with
  | nil => simp [times]
  | append_singleton l c ih =>
    have ho' : Owns h (k++l++c::m) F := by simpa using ho
    rw [List.length_append, List.length_singleton, times, ← List.append_assoc,
      CursorMut.movePrev_concat ho']
    simpa using ih (m := c::m) (by simpa using ho)

theorem remove_spec {c : Ptr × α} (ho : Owns h (l++c::m) F) :
    ∃ h', remove h (listOf (l++c::m)) l.length = .ok (c.2, h', listOf (l++m)) ∧
      Owns h' (l++m) F ∧ Agree h h' F := by
  obtain ⟨h', he, ho', hag⟩ := CursorMut.removeCurrent_spec ho
  refine ⟨h', ?_, ho', hag⟩
  have hfront : times (CursorMut.moveNext h) l.length (cursorFrontMut (listOf (l++c::m))) =
      some (cursorAt l (c::m)) := times_moveNext (k := []) ho
  have hback : times (CursorMut.movePrev h) m.length (cursorBackMut (listOf (l++c::m))) =
      some (cursorAt l (c::m)) := by
    rcases last_cases (c::m) with hnil | ⟨i, p, a, hi⟩
    · cases hnil
    · have hlen : m.length = i.length := by
        have := congrArg List.length hi
        simpa using this
      rw [hi, ← List.append_assoc, cursorBackMut_eq, hlen, times_movePrev]
      simpa [hi] using ho
  have hlen : (listOf (l++c::m)).len = l.length+(m.length+1) := by simp [listOf]
  rw [remove, ensure_of _ (by rw [hlen]; omega), ok_bind, hlen,
    show l.length+(m.length+1)-l.length-1 = m.length by omega]
  simp only [hfront, hback, ite_self, ofOption_some, ok_bind, he]
  rfl

theorem remove_panics {at' : ℕ} (hle : l.length ≤ at') :
    remove h (listOf l) at' = .panic (h, listOf l) := by
  rw [remove, ensure_of_not _ (by simpa [listOf] using hle)]
  rfl

theorem listOf_update (l m : Cells α) (p : Ptr) (a b : α) :
    listOf (l++(p, a)::m) = listOf (l++(p, b)::m) := by simp [listOf]

theorem cursorAt_update (l m : Cells α) (p : Ptr) (a b : α) :
    cursorAt l ((p, a)::m) = cursorAt l ((p, b)::m) := by simp [cursorAt, listOf]

theorem setElement_spec {p : Ptr} {a : α} (ho : Owns h (l++(p, a)::m) F) (b : α) :
    ∃ h', h.setElement p b = some h' ∧ Owns h' (l++(p, b)::m) F ∧ Agree h h' F := by
  have hp := (nodup_cut ho.nodup).2.1
  rw [List.mem_append, not_or] at hp
  obtain ⟨h', he, hs, hm⟩ := ho.seg.setElement hp.1 hp.2 b
  obtain ⟨ho', hag⟩ := Owns.of_modifies (G := []) ho.exact hs (hm.mono (by simp)) (by simp)
  exact ⟨h', he, ho', hag⟩

/-- What a walk has done: whether a call panicked, the elements that stay, those that were
taken out, and each element that the closure was shown with what it made of it. -/
structure Walk (α : Type) where
  panicked : Bool
  stays : List α
  taken : List α
  shown : List (α × α)

def retainWalk (f : FnMut σ α) : σ → List α → Walk α
  | _, [] => ⟨false, [], [], []⟩
  | s, x::xs =>
    match f s x with
    | (none, x', _) => ⟨true, x'::xs, [], [(x, x')]⟩
    | (some true, x', s) =>
      let r := retainWalk f s xs
      { r with stays := x'::r.stays, shown := (x, x')::r.shown }
    | (some false, x', s) =>
      let r := retainWalk f s xs
      { r with taken := x'::r.taken, shown := (x, x')::r.shown }

def finish {A : Type} (panicked : Bool) (a : A) : Outcome A A :=
  if panicked then .panic a else .ok a

theorem retainLoop_spec (f : FnMut σ α) {fuel : ℕ} (s : σ) (dropped : List α)
    (hf : m.length < fuel) (ho : Owns h (l++m) F) :
    ∃ h' l', retainLoop f fuel s h (cursorAt l m) dropped =
        finish (retainWalk f s (vals m)).panicked
          (h', listOf l', dropped++(retainWalk f s (vals m)).taken) ∧
      Owns h' l' F ∧ Agree h h' F ∧ vals l' = vals l++(retainWalk f s (vals m)).stays := by
  induction fuel generalizing h l m s dropped with
  | zero => omega
  | succ fuel ih =>
    rcases m with - | ⟨⟨p, a⟩, m⟩
    · rw [List.append_nil] at ho
      exact ⟨h, l, by simp [retainLoop, retainWalk, finish], ho, Agree.refl h F,
        by simp [retainWalk]⟩
    rcases hcall : f s a with ⟨keep, b, s'⟩
    obtain ⟨h₁, he₁, ho₁, hag₁⟩ := setElement_spec ho b
    have hcur : cursorAt l ((p, a)::m) = cursorAt l ((p, b)::m) := cursorAt_update ..
    have hstart : (cursorAt l ((p, a)::m)).current = some p := rfl
    rw [retainLoop, hstart]
    simp only [ho.seg.node, ofOption_some, ok_bind, hcall, he₁, vals_cons, retainWalk]
    rcases keep with - | - | -
    · -- the call panics: the element stays as it was left
      refine ⟨h₁, l++(p, b)::m, ?_, ho₁, hag₁, by simp⟩
      simp [finish, listOf_update l m p a b]
    · obtain ⟨h₂, he₂, ho₂, hag₂⟩ := CursorMut.removeCurrent_spec ho₁
      obtain ⟨h', l', he', ho', hag', hv⟩ := ih s' (dropped++[b])
        (by simpa using hf) ho₂
      refine ⟨h', l', ?_, ho', (hag₁.trans hag₂).trans hag', by simpa using hv⟩
      rw [hcur, he₂]
      simpa using he'
    · have ho₂ : Owns h₁ (l++[(p, b)]++m) F := by simpa using ho₁
      obtain ⟨h', l', he', ho', hag', hv⟩ := ih s' dropped
        (by simpa using hf) ho₂
      refine ⟨h', l', ?_, ho', hag₁.trans hag', by simpa using hv⟩
      rw [hcur, CursorMut.moveNext_cons ho₁]
      simpa using he'

theorem retain_spec (f : FnMut σ α) (s : σ) (ho : Owns h l F) :
    ∃ h' l', retain f s h (listOf l) =
        finish (retainWalk f s (vals l)).panicked
          (h', listOf l', (retainWalk f s (vals l)).taken) ∧
      Owns h' l' F ∧ Agree h h' F ∧ vals l' = (retainWalk f s (vals l)).stays := by
  have := retainLoop_spec (l := []) (m := l) f s [] (Nat.lt_succ_self _) ho
  simpa [retain, listOf, cursorFrontMut, cursorAt] using this

/-- What a call of `next` has done: its result (`none` is a panic), the elements that were
passed and the ones still ahead, the captured state, and what the closure was shown. -/
structure Advance (σ α : Type) where
  result : Option (Option α)
  passed : List α
  ahead : List α
  captured : σ
  shown : List (α × α)

def extractWalk (pred : FnMut σ α) : σ → List α → Advance σ α
  | s, [] => ⟨some none, [], [], s, []⟩
  | s, x::xs =>
    match pred s x with
    | (none, x', s) => ⟨none, [x'], xs, s, [(x, x')]⟩
    | (some true, x', s) => ⟨some (some x'), [], xs, s, [(x, x')]⟩
    | (some false, x', s) =>
      let r := extractWalk pred s xs
      { r with passed := x'::r.passed, shown := (x, x')::r.shown }

/-- The iterator between the nodes that it has passed and those ahead. -/
def extractAt (l m : Cells α) (s : σ) (idx : ℕ) : ExtractIf σ :=
  { list := listOf (l++m), it := first m none, captured := s, idx, oldLen := idx+m.length }

def answer {A : Type} (result : Option (Option α)) (h : Heap α) (a : A) :
    Outcome (Heap α × A) (Option α × Heap α × A) :=
  match result with
  | none => .panic (h, a)
  | some r => .ok (r, h, a)

theorem nextLoop_spec (pred : FnMut σ α) {fuel : ℕ} (s : σ) (idx : ℕ) (hf : m.length < fuel)
    (ho : Owns h (l++m) F) :
    ∃ h' l' m' idx', ExtractIf.nextLoop pred fuel h (extractAt l m s idx) =
        answer (extractWalk pred s (vals m)).result h'
          (extractAt l' m' (extractWalk pred s (vals m)).captured idx') ∧
      Owns h' (l'++m') F ∧ Agree h h' F ∧
      vals l' = vals l++(extractWalk pred s (vals m)).passed ∧
      vals m' = (extractWalk pred s (vals m)).ahead := by
  induction fuel generalizing h l m s idx with
  | zero => omega
  | succ fuel ih =>
    rcases m with - | ⟨⟨p, a⟩, m⟩
    · exact ⟨h, l, [], idx, rfl, ho, Agree.refl h F, by simp [extractWalk], rfl⟩
    rcases hcall : pred s a with ⟨taken, b, s'⟩
    obtain ⟨h₁, he₁, ho₁, hag₁⟩ := setElement_spec ho b
    have hstart : (extractAt l ((p, a)::m) s idx).it = some p := rfl
    have hlist : (extractAt l ((p, a)::m) s idx).list = listOf (l++(p, b)::m) :=
      listOf_update ..
    have hlen : idx+(m.length+1) = idx+1+m.length := by omega
    rw [ExtractIf.nextLoop, hstart]
    simp only [ho.seg.node, ofOption_some, ok_bind, vals_cons, extractWalk,
      show (extractAt l ((p, a)::m) s idx).captured = s from rfl, hcall, he₁]
    rcases taken with - | - | -
    · -- the call panics: the element has been passed
      refine ⟨h₁, l++[(p, b)], m, idx+1, ?_, by simpa using ho₁, hag₁, by simp, rfl⟩
      simp [answer, extractAt, listOf, hlen]
    · have ho₂ : Owns h₁ (l++[(p, b)]++m) F := by simpa using ho₁
      obtain ⟨h', l', m', idx', he', ho', hag', hl, hm⟩ := ih s' (idx+1)
        (by simpa using hf) ho₂
      refine ⟨h', l', m', idx', ?_, ho', hag₁.trans hag', by simpa using hl, hm⟩
      rw [← he']
      simp [extractAt, listOf, hlen]
    · obtain ⟨h₂, h₃, he₂, he₃, ho₃, hag₃⟩ := unlinkTake_spec ho₁
      refine ⟨h₃, l, m, idx+1, ?_, ho₃, hag₁.trans hag₃, by simp, rfl⟩
      rw [hlist, he₂]
      simp [he₃, answer, extractAt, hlen]

theorem next_spec (pred : FnMut σ α) (s : σ) (idx : ℕ) (ho : Owns h (l++m) F) :
    ∃ h' l' m' idx', ExtractIf.next pred h (extractAt l m s idx) =
        answer (extractWalk pred s (vals m)).result h'
          (extractAt l' m' (extractWalk pred s (vals m)).captured idx') ∧
      Owns h' (l'++m') F ∧ Agree h h' F ∧
      vals l' = vals l++(extractWalk pred s (vals m)).passed ∧
      vals m' = (extractWalk pred s (vals m)).ahead := by
  rw [ExtractIf.next, show (extractAt l m s idx).oldLen-(extractAt l m s idx).idx = m.length by
    simp [extractAt]]
  exact nextLoop_spec pred s idx (Nat.lt_succ_self _) ho

end RustStd.LinkedLists
