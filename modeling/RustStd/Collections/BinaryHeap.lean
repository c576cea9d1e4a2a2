import RustStd.Collections.BinaryHeapSift

/-!
# `BinaryHeap`

A heap is a vector in heap order. Every operation is compared with what it does
to the multiset of the elements, over runs of any length. While a `PeekMut` has
lent out the greatest element the vector is cut down to it, so that forgetting
the `PeekMut` loses elements but never the order.
-/

set_option autoImplicit false

namespace RustStd.BinaryHeap
open RustStd.Machine RustStd.WeakOrder RustStd.HeapOrder

variable {σ T : Type}

def push (lt : T → T → Bool) (data : List T) (item : T) : Option (List T) := do
  let oldLen := data.length
  let (data, _) ← siftUp lt (data ++ [item]) 0 oldLen
  return data

def pop (lt : T → T → Bool) (data : List T) : Option (Option T × List T) :=
  match data.getLast? with
  | none => some (none, data)
  | some item =>
    match data.dropLast with
    | [] => some (some item, [])
    | top :: rest => do
      let data ← siftDownToBottom lt (item :: rest) 0
      return (some top, data)

def peek (data : List T) : Option T := data[0]?

def swapAt (data : List T) (i j : ℕ) : Option (List T) := do
  let x ← data[i]?
  let y ← data[j]?
  return (data.set i y).set j x

def intoSortedLoop (lt : T → T → Bool) : ℕ → List T → Option (List T)
  | 0, data => some data
  | stop+1, data =>
    if stop+1 > 1 then do
      let data ← swapAt data 0 stop
      let (data, _) ← siftDownRange lt data 0 stop
      intoSortedLoop lt stop data
    else some data

def intoSortedVec (lt : T → T → Bool) (data : List T) : Option (List T) :=
  intoSortedLoop lt data.length data

/-- `append`, with what is left in `other`. -/
def append (lt : T → T → Bool) (data other : List T) : Option (List T × List T) := do
  let (data, other) := if data.length < other.length then (other, data) else (data, other)
  let start := data.length
  let data ← rebuildTail lt (data ++ other) start
  return (data, [])

def extend (lt : T → T → Bool) (data items : List T) : Option (List T) :=
  rebuildTail lt (data ++ items) data.length

def retainLoop (f : σ → T → Bool × σ) : σ → ℕ → ℕ → List T → List T × ℕ
  | _, _, rebuildFrom, [] => ([], rebuildFrom)
  | s, i, rebuildFrom, e :: data =>
    let (keep, s) := f s e
    let rebuildFrom := if !keep && i < rebuildFrom then i else rebuildFrom
    let (kept, rebuildFrom) := retainLoop f s (i+1) rebuildFrom data
    (if keep then e :: kept else kept, rebuildFrom)

def retain (lt : T → T → Bool) (data : List T) (f : σ → T → Bool × σ) (s : σ) :
    Option (List T) :=
  let (data, rebuildFrom) := retainLoop f s 0 data.length data
  rebuildTail lt data rebuildFrom

def fromVec (lt : T → T → Bool) (vec : List T) : Option (List T) := rebuild lt vec

/-- `buf` are all the elements in the buffer, of which the vector has the first `len`. -/
structure PeekMut (T : Type) where
  buf : List T
  len : ℕ
  originalLen : Option ℕ

def peekMut (data : List T) : Option (PeekMut T) :=
  if data.isEmpty then none
  else some { buf := data, len := data.length, originalLen := none }

def PeekMut.setLen (self : PeekMut T) (n : ℕ) : Option (PeekMut T) :=
  if n ≤ self.buf.length then some { self with len := n, originalLen := none } else none

def PeekMut.deref (self : PeekMut T) : Option T := (self.buf.take self.len)[0]?

def PeekMut.derefMut (self : PeekMut T) (x : T) : Option (PeekMut T) :=
  let self := if self.len > 1 then { self with originalLen := some self.len, len := 1 } else self
  if 0 < self.len then some { self with buf := self.buf.set 0 x } else none

def PeekMut.siftTop (lt : T → T → Bool) (self : PeekMut T) (originalLen : ℕ) :
    Option (PeekMut T × ℕ) := do
  let self ← self.setLen originalLen
  let (data, pos) ← siftDown lt (self.buf.take self.len) 0
  return ({ self with buf := data ++ self.buf.drop self.len }, pos)

def PeekMut.refresh (lt : T → T → Bool) (self : PeekMut T) : Option (Bool × PeekMut T) :=
  match self.originalLen with
  | some originalLen => do
    let (self, pos) ← self.siftTop lt originalLen
    return (pos != 0, self)
  | none => some (false, self)

def PeekMut.drop (lt : T → T → Bool) (self : PeekMut T) : Option (List T) :=
  match self.originalLen with
  | some originalLen => do
    let (self, _) ← self.siftTop lt originalLen
    return self.buf.take self.len
  | none => some (self.buf.take self.len)

def PeekMut.pop (lt : T → T → Bool) (self : PeekMut T) : Option (T × List T) := do
  let self ← match self.originalLen with
    | some originalLen => self.setLen originalLen
    | none => some self
  let (item, data) ← BinaryHeap.pop lt (self.buf.take self.len)
  let item ← item
  return (item, data)

def PeekMut.forget (self : PeekMut T) : List T := self.buf.take self.len

/-- The order of the elements and the greatest length of a vector of them. -/
structure Order (T : Type) where
  lt : T → T → Bool
  weak : Weak lt
  maxLen : ℕ
  size : SizeOk lt maxLen

def Ordered (lt : T → T → Bool) (data : List T) : Prop := Heap lt 0 data

/-- A heap as the user of the type sees it. -/
structure OrderedVec (lt : T → T → Bool) where
  data : List T
  ordered : Ordered lt data

def Greatest (lt : T → T → Bool) (m : Multiset T) (x : T) : Prop :=
  x ∈ m ∧ ∀ y ∈ m, lt x y = false

theorem SizeOk.mono {lt : T → T → Bool} {m n : ℕ} (h : SizeOk lt n) (hm : m ≤ n) : SizeOk lt m := by
  rcases h with h | ⟨h, hz⟩
  · exact .inl (hm.trans h)
  · exact .inr ⟨hm.trans h, hz⟩

theorem Ordered.greatest {lt : T → T → Bool} (hlt : Weak lt) {data : List T} (h : Ordered lt data)
    {x : T} (hx : data[0]? = some x) : Greatest lt ↑data x := by
  refine ⟨List.mem_of_getElem? hx, fun y hy => ?_⟩
  obtain ⟨i, hi⟩ := List.mem_iff_getElem?.mp (Multiset.mem_coe.mp hy)
  exact Heap.root hlt h hx i hi

section Specs

variable {lt : T → T → Bool} (hlt : Weak lt)
include hlt

theorem push_spec {data : List T} (item : T) (h : Ordered lt data) :
    ∃ data', push lt data item = some data' ∧ data'.Perm (item :: data) ∧ Ordered lt data' := by
  have hup : HeapUp lt 0 data.length (data ++ [item]) := Heap.push h item rfl
  obtain ⟨w, pos, hs, hp, hh⟩ := siftUp_spec hlt
    (show data ++ [item] = data ++ [item] ++ [] by simp) (by simp) hup
  rw [List.append_nil] at hs
  exact ⟨w, by simp [push, hs], hp.trans (List.perm_append_singleton item data), hh⟩

theorem pop_spec {data : List T} {top : T} (htop : data[0]? = some top)
    (hsize : SizeOk lt data.length) (h : HeapBut lt 0 0 data) :
    ∃ data', pop lt data = some (some top, data') ∧ (top :: data').Perm data ∧
      Ordered lt data' := by
  obtain ⟨w, z, rfl⟩ : ∃ w z, data = w ++ [z] := by
    simpa using (List.eq_nil_or_concat data).resolve_left (by rintro rfl; simp at htop)
  cases w with
  | nil =>
    obtain rfl : z = top := by simpa using htop
    exact ⟨[], by simp [pop], .refl _, heap_leaves lt (by simp)⟩
  | cons x w =>
    obtain rfl : x = top := by simpa using htop
    obtain ⟨data', hs, hp, hh⟩ := siftDownToBottom_spec hlt (by simp) (by
      rw [List.length_append, List.length_singleton, List.length_cons] at hsize
      rw [List.length_cons]
      rcases hsize with hs | ⟨hs, hz⟩
      · exact .inl (by omega)
      · exact .inr ⟨by omega, hz⟩) h.last_to_root
    refine ⟨data', ?_, ?_, hh⟩
    · have hdrop : (x :: w ++ [z]).dropLast = x :: w := List.dropLast_concat
      rw [pop, List.getLast?_concat]
      simp only [hdrop, hs]
      rfl
    · exact (hp.cons x).trans ((List.perm_append_singleton z w).symm.cons x)

theorem intoSortedLoop_spec (n : ℕ) {m s : List T} (hm : m.length = n) (hsize : SizeOk lt n)
    (h : Ordered lt m) (hs : Sorted lt s) (hms : ∀ a ∈ m, ∀ b ∈ s, lt b a = false) :
    ∃ v, intoSortedLoop lt n (m ++ s) = some v ∧ v.Perm (m ++ s) ∧ Sorted lt v := by
  induction n generalizing m s with
  | zero =>
    obtain rfl := List.length_eq_zero_iff.mp hm
    exact ⟨s, rfl, .refl s, hs⟩
  | succ n ih =>
    unfold intoSortedLoop
    split_ifs with hn
    · -- the top `x` changes places with the last element `z`
      obtain ⟨w, z, rfl⟩ : ∃ w z, m = w ++ [z] := by
        simpa using (List.eq_nil_or_concat m).resolve_left (by rintro rfl; simp at hm)
      have hw : w.length = n := by simpa using hm
      obtain ⟨x, w, rfl⟩ := List.exists_cons_of_length_pos (show 0 < w.length by omega)
      have hswap : swapAt (x :: w ++ [z] ++ s) 0 n = some (z :: w ++ (x :: s)) := by
        have hget : (x :: w ++ [z] ++ s)[n]? = some z := by
          rw [← hw, List.append_assoc]
          simp
        have hget0 : (x :: w ++ [z] ++ s)[0]? = some x := rfl
        simp only [swapAt, hget, hget0]
        rw [← hw]
        simp
      have hlen : (z :: w).length = n := by simpa using hw
      obtain ⟨w', pos, hsift, hp, hh, -⟩ := siftDownRange_spec hlt (x := z)
        (show z :: w ++ (x :: s) = _ from rfl) rfl le_rfl (by decide)
        (by rw [hlen]; exact hsize.mono (by omega)) (Heap.root_but h).last_to_root
      rw [hlen] at hsift
      have hperm : (w' ++ x :: s).Perm (x :: w ++ [z] ++ s) := by
        rw [List.append_cons]
        apply List.Perm.append_right
        exact (List.perm_append_singleton x w').trans
          ((hp.cons x).trans ((List.perm_append_singleton z w).symm.cons x))
      have hsub {a : T} (ha : a ∈ w') : a ∈ x :: w ++ [z] := by
        have := hp.subset ha
        simp only [List.mem_cons, List.mem_append, List.cons_append, List.not_mem_nil] at this ⊢
        tauto
      have hgreat := (Ordered.greatest hlt h (x := x) rfl).2
      obtain ⟨v, hv, hvp, hvs⟩ := ih (m := w') (s := x :: s) (hp.length_eq.trans hlen)
        (hsize.mono (by omega)) hh
        (sorted_cons.mpr ⟨fun b hb => hms x (by simp) b hb, hs⟩) (by
          intro a ha b hb
          rcases List.mem_cons.mp hb with rfl | hb
          · exact hgreat a (Multiset.mem_coe.mpr (hsub ha))
          · exact hms a (hsub ha) b hb)
      exact ⟨v, by simp only [hswap, hsift, hv, some_bind],
        hvp.trans hperm, hvs⟩
    · obtain ⟨a, rfl⟩ : ∃ a, m = [a] := List.length_eq_one_iff.mp (by omega)
      exact ⟨a :: s, rfl, .refl _, sorted_cons.mpr ⟨fun b hb => hms a (by simp) b hb, hs⟩⟩

theorem intoSortedVec_spec {data : List T} (hsize : SizeOk lt data.length) (h : Ordered lt data) :
    ∃ v, intoSortedVec lt data = some v ∧ v.Perm data ∧ Sorted lt v := by
  simpa [intoSortedVec] using intoSortedLoop_spec hlt data.length (s := []) rfl hsize h
    List.Pairwise.nil (by simp)

theorem extend_spec {data : List T} (items : List T) (hsize : SizeOk lt (data.length+items.length))
    (h : Ordered lt data) :
    ∃ data', extend lt data items = some data' ∧ data'.Perm (data ++ items) ∧ Ordered lt data' := by
  apply rebuildTail_spec hlt (by simp) (by simpa using hsize)
  rwa [List.take_left]

theorem append_spec {data other : List T} (hsize : SizeOk lt (data.length+other.length))
    (h : Ordered lt data) (ho : Ordered lt other) :
    ∃ data', append lt data other = some (data', []) ∧ data'.Perm (data ++ other) ∧
      Ordered lt data' := by
  unfold append
  split_ifs with hlen
  · obtain ⟨data', he, hp, hh⟩ := extend_spec hlt data (by rwa [Nat.add_comm]) ho
    unfold extend at he
    exact ⟨data', by simp [he], hp.trans List.perm_append_comm, hh⟩
  · obtain ⟨data', he, hp, hh⟩ := extend_spec hlt other hsize h
    unfold extend at he
    exact ⟨data', by simp [he], hp, hh⟩

end Specs

def keepIf (f : σ → T → Bool × σ) : σ → List T → List T
  | _, [] => []
  | s, e :: l =>
    let (keep, s) := f s e
    if keep then e :: keepIf f s l else keepIf f s l

theorem retainLoop_spec (f : σ → T → Bool × σ) (s : σ) (i rebuildFrom : ℕ) (l : List T)
    (hi : rebuildFrom < i ∨ rebuildFrom = i+l.length) :
    ∃ rebuildFrom', retainLoop f s i rebuildFrom l = (keepIf f s l, rebuildFrom') ∧
      (rebuildFrom < i → rebuildFrom' = rebuildFrom) ∧
      (rebuildFrom = i+l.length → ∃ j ≤ (keepIf f s l).length, rebuildFrom' = i+j ∧
        (keepIf f s l).take j = l.take j) := by
  induction l generalizing s i rebuildFrom with
  | nil =>
    exact ⟨rebuildFrom, rfl, fun _ => rfl, fun h => ⟨0, by simp, by simpa using h, by simp⟩⟩
  | cons e l ih =>
    rcases hfe : f s e with ⟨keep, s'⟩
    rw [List.length_cons] at hi ⊢
    cases keep with
    | true =>
      obtain ⟨r, hr, h1, h2⟩ := ih s' (i+1) rebuildFrom (by omega)
      refine ⟨r, by simp [retainLoop, keepIf, hfe, hr], fun h => h1 (by omega), fun h => ?_⟩
      obtain ⟨j, hj, hrj, ht⟩ := h2 (by omega)
      refine ⟨j+1, ?_, by omega, ?_⟩
      · simpa [keepIf, hfe] using hj
      · simp [keepIf, hfe, ht]
    | false =>
      by_cases hlt : i < rebuildFrom
      · obtain ⟨r, hr, h1, -⟩ := ih s' (i+1) i (by omega)
        obtain rfl := h1 (by omega)
        exact ⟨r, by simp [retainLoop, keepIf, hfe, hlt, hr], by omega, fun _ =>
          ⟨0, by omega, rfl, by simp⟩⟩
      · obtain ⟨r, hr, h1, -⟩ := ih s' (i+1) rebuildFrom (by omega)
        obtain rfl := h1 (by omega)
        exact ⟨r, by simp [retainLoop, keepIf, hfe, hlt, hr], fun _ => rfl, by omega⟩

theorem keepIf_length (f : σ → T → Bool × σ) (s : σ) (l : List T) :
    (keepIf f s l).length ≤ l.length := by
  induction l generalizing s with
  | nil => rfl
  | cons e l ih =>
    have := ih (f s e).2
    simp only [keepIf]
    split_ifs <;> simp <;> omega

theorem retain_spec {lt : T → T → Bool} (hlt : Weak lt) {data : List T}
    (f : σ → T → Bool × σ) (s : σ) (hsize : SizeOk lt data.length) (h : Ordered lt data) :
    ∃ data', retain lt data f s = some data' ∧ data'.Perm (keepIf f s data) ∧
      Ordered lt data' := by
  obtain ⟨r, hr, -, h2⟩ := retainLoop_spec f s 0 data.length data (by omega)
  obtain ⟨j, hj, rfl, htake⟩ := h2 (by omega)
  rw [Nat.zero_add] at hr
  simp only [retain, hr]
  apply rebuildTail_spec hlt hj (hsize.mono (keepIf_length f s data))
  rw [htake]
  exact Heap.take h j

section PeekMut

variable {lt : T → T → Bool}

/-- Either the heap is in order, or it was cut down to its top, and then the rest
of the buffer is in order. -/
structure PeekMut.Valid (lt : T → T → Bool) (p : PeekMut T) (t : T) : Prop where
  top : p.buf[0]? = some t
  state : (p.originalLen = none ∧ p.len = p.buf.length ∧ Ordered lt p.buf) ∨
    (p.originalLen = some p.buf.length ∧ p.len = 1 ∧ HeapBut lt 0 0 p.buf)

theorem PeekMut.Valid.pos {p : PeekMut T} {t : T} (h : p.Valid lt t) : 0 < p.buf.length :=
  (List.getElem?_eq_some_iff.mp h.top).1

theorem PeekMut.Valid.deref_eq {p : PeekMut T} {t : T} (h : p.Valid lt t) :
    p.deref = some t := by
  have hpos := h.pos
  have hlen : 0 < p.len := by
    rcases h.state with ⟨-, hl, -⟩ | ⟨-, hl, -⟩ <;> omega
  rw [PeekMut.deref, List.getElem?_take_of_lt hlen, h.top]

theorem PeekMut.Valid.write {p : PeekMut T} {t : T} (h : p.Valid lt t) (x : T) :
    ∃ p', p.derefMut x = some p' ∧ p'.Valid lt x ∧ p'.buf = p.buf.set 0 x := by
  have hpos := h.pos
  have htop : (p.buf.set 0 x)[0]? = some x := List.getElem?_set_self hpos
  have hbut (hb : HeapBut lt 0 0 p.buf) : HeapBut lt 0 0 (p.buf.set 0 x) := by
    apply hb.root_change
    intro j d hj hd
    rwa [List.getElem?_set_ne (by omega)] at hd
  unfold PeekMut.derefMut
  rcases h.state with ⟨ho, hl, hord⟩ | ⟨ho, hl, hb⟩
  · by_cases hlen : p.len > 1
    · exact ⟨⟨p.buf.set 0 x, 1, some p.len⟩, by simp [hlen],
        ⟨htop, .inr ⟨by simp [hl], rfl, hbut (Heap.root_but hord)⟩⟩, rfl⟩
    · exact ⟨⟨p.buf.set 0 x, p.len, p.originalLen⟩, by simp [hlen]; omega,
        ⟨htop, .inl ⟨ho, by simp [hl], heap_leaves lt (by simp; omega)⟩⟩, rfl⟩
  · exact ⟨⟨p.buf.set 0 x, p.len, p.originalLen⟩, by simp [hl],
      ⟨htop, .inr ⟨by simp [ho], hl, hbut hb⟩⟩, rfl⟩

variable (hlt : Weak lt)
include hlt

theorem exists_greater_iff {data : List T} {x : T} (h : HeapBut lt 0 0 data)
    (hx : data[0]? = some x) :
    (∃ y ∈ data, lt x y = true) ↔ ∃ c y, IsChild c 0 ∧ data[c]? = some y ∧ lt x y = true := by
  constructor
  · intro ⟨y, hy, hxy⟩
    by_contra hno
    push Not at hno
    have hheap : Heap lt 0 data := by
      intro p c a b hp hc ha hb
      by_cases hp0 : p = 0
      · subst hp0
        rw [hx] at ha
        rw [← Option.some.inj ha]
        simpa using hno c b hc hb
      · exact h.rest p c a b hp hp0 hc ha hb
    have := (Ordered.greatest hlt hheap hx).2 y (Multiset.mem_coe.mpr hy)
    rw [hxy] at this
    simp at this
  · rintro ⟨c, y, -, hy, hxy⟩
    exact ⟨y, List.mem_of_getElem? hy, hxy⟩

theorem PeekMut.siftTop_spec {p : PeekMut T} {t : T} (hsize : SizeOk lt p.buf.length)
    (htop : p.buf[0]? = some t) (hb : HeapBut lt 0 0 p.buf) :
    ∃ p' pos, p.siftTop lt p.buf.length = some (p', pos) ∧ p'.buf.Perm p.buf ∧
      p'.originalLen = none ∧ p'.len = p'.buf.length ∧ Ordered lt p'.buf ∧
      (pos ≠ 0 ↔ ∃ y ∈ p.buf, lt t y = true) ∧ (pos = 0 → p'.buf = p.buf) := by
  obtain ⟨data, pos, hs, hperm, hheap, hmoved⟩ := siftDown_spec hlt htop le_rfl (by decide) hsize hb
  refine ⟨⟨data, p.buf.length, none⟩, pos, ?_, hperm, rfl, hperm.length_eq.symm, hheap, ?_, ?_⟩
  · simp [PeekMut.siftTop, PeekMut.setLen, hs]
  · rw [exists_greater_iff hlt hb htop]
    rcases hmoved with ⟨rfl, hsame⟩ | ⟨hpos, hex⟩
    · simp only [ne_eq, not_true, false_iff]
      rintro ⟨c, y, hc, hy, hxy⟩
      subst hsame
      have := hheap 0 c t y le_rfl hc htop hy
      rw [hxy] at this
      simp at this
    · exact ⟨fun _ => hex, fun _ => by omega⟩
  · intro hz
    rcases hmoved with ⟨-, hsame⟩ | ⟨hpos, -⟩
    · exact hsame
    · omega

theorem PeekMut.Valid.refresh_spec {p : PeekMut T} {t : T} (h : p.Valid lt t)
    (hsize : SizeOk lt p.buf.length) :
    ∃ b p' t', p.refresh lt = some (b, p') ∧ p'.Valid lt t' ∧ p'.buf.Perm p.buf ∧
      Greatest lt ↑p'.buf t' ∧ (b = true ↔ ∃ y ∈ p.buf, lt t y = true) ∧
      (b = false → t' = t) := by
  rcases h.state with ⟨ho, hl, hord⟩ | ⟨ho, hl, hb⟩
  · have hgreat := Ordered.greatest hlt hord h.top
    refine ⟨false, p, t, by simp [PeekMut.refresh, ho], h, .refl _, hgreat, ?_, fun _ => rfl⟩
    simp only [Bool.false_eq_true, false_iff]
    rintro ⟨y, hy, hty⟩
    rw [hgreat.2 y (Multiset.mem_coe.mpr hy)] at hty
    simp at hty
  · obtain ⟨p', pos, hs, hperm, ho', hl', hord, hmoved, hsame⟩ := siftTop_spec hlt hsize h.top hb
    have hpos : 0 < p'.buf.length := by
      rw [hperm.length_eq]
      exact h.pos
    obtain ⟨t', htop⟩ : ∃ t', p'.buf[0]? = some t' := ⟨_, List.getElem?_eq_getElem hpos⟩
    refine ⟨pos != 0, p', t', by simp [PeekMut.refresh, ho, hs], ⟨htop, .inl ⟨ho', hl', hord⟩⟩,
      hperm, Ordered.greatest hlt hord htop, by simpa using hmoved, fun hz => ?_⟩
    rw [hsame (by simpa using hz), h.top] at htop
    exact (Option.some.inj htop).symm

theorem PeekMut.Valid.drop_spec {p : PeekMut T} {t : T} (h : p.Valid lt t)
    (hsize : SizeOk lt p.buf.length) :
    ∃ data, p.drop lt = some data ∧ data.Perm p.buf ∧ Ordered lt data := by
  rcases h.state with ⟨ho, hl, hord⟩ | ⟨ho, hl, hb⟩
  · exact ⟨p.buf, by simp [PeekMut.drop, ho, hl], .refl _, hord⟩
  · obtain ⟨p', pos, hs, hperm, ho', hl', hord, -, -⟩ := siftTop_spec hlt hsize h.top hb
    exact ⟨p'.buf, by simp [PeekMut.drop, ho, hs, hl'], hperm, hord⟩

theorem PeekMut.Valid.pop_spec {p : PeekMut T} {t : T} (h : p.Valid lt t)
    (hsize : SizeOk lt p.buf.length) :
    ∃ data, p.pop lt = some (t, data) ∧ (t :: data).Perm p.buf ∧ Ordered lt data := by
  have hb : HeapBut lt 0 0 p.buf := by
    rcases h.state with ⟨-, -, hord⟩ | ⟨-, -, hb⟩
    · exact Heap.root_but hord
    · exact hb
  obtain ⟨data, hpop, hperm, hord⟩ := BinaryHeap.pop_spec hlt h.top hsize hb
  refine ⟨data, ?_, hperm, hord⟩
  rcases h.state with ⟨ho, hl, -⟩ | ⟨ho, hl, -⟩
  · simp [PeekMut.pop, ho, hl, hpop]
  · simp [PeekMut.pop, ho, PeekMut.setLen, hpop]

omit hlt in
theorem PeekMut.Valid.forget_spec {p : PeekMut T} {t : T} (h : p.Valid lt t) :
    p.forget.Sublist p.buf ∧ Ordered lt p.forget := by
  refine ⟨List.take_sublist _ _, ?_⟩
  rcases h.state with ⟨-, hl, hord⟩ | ⟨-, hl, -⟩
  · rw [PeekMut.forget, hl, List.take_length]
    exact hord
  · exact heap_leaves lt (by simp [PeekMut.forget, hl])

end PeekMut

/-- What is done with a `PeekMut`, and how it ends. -/
inductive Act (T : Type)
  | deref
  | write (x : T)
  | refresh

inductive Ending
  | drop
  | pop
  | forget

inductive Seen (T : Type)
  | top (x : T)
  | written
  | refreshed (changed : Bool)

def act (lt : T → T → Bool) (p : PeekMut T) : Act T → Option (Seen T × PeekMut T)
  | .deref => do
    let x ← p.deref
    return (.top x, p)
  | .write x => do
    let p ← p.derefMut x
    return (.written, p)
  | .refresh => do
    let (b, p) ← p.refresh lt
    return (.refreshed b, p)

def acts (lt : T → T → Bool) : List (Act T) → PeekMut T → Option (List (Seen T) × PeekMut T)
  | [], p => some ([], p)
  | a :: as, p => do
    let (seen, p) ← act lt p a
    let (rest, p) ← acts lt as p
    return (seen :: rest, p)

def finish (lt : T → T → Bool) (p : PeekMut T) : Ending → Option (Option T × List T)
  | .drop => do
    let data ← p.drop lt
    return (none, data)
  | .pop => do
    let (x, data) ← p.pop lt
    return (some x, data)
  | .forget => some (none, p.forget)

/-- The operations on a heap; `into_sorted_vec` takes the heap and leaves an empty one,
`from` puts a new one in its place. -/
inductive Op (σ : Type) {T : Type} (lt : T → T → Bool)
  | push (item : T)
  | pop
  | peek
  | append (other : OrderedVec lt)
  | extend (items : List T)
  | retain (f : σ → T → Bool × σ) (s : σ)
  | peekMut (as : List (Act T)) (e : Ending)
  | intoSortedVec
  | fromVec (vec : List T)

inductive Result (T : Type)
  | unit
  | item (x : Option T)
  | vec (v : List T)
  | peeked (seen : List (Seen T)) (x : Option T)

def step (lt : T → T → Bool) (data : List T) : Op σ lt → Option (Result T × List T)
  | .push item => do
    let data ← push lt data item
    return (.unit, data)
  | .pop => do
    let (x, data) ← pop lt data
    return (.item x, data)
  | .peek => some (.item (peek data), data)
  | .append other => do
    let (data, other) ← append lt data other.data
    return (.vec other, data)
  | .extend items => do
    let data ← extend lt data items
    return (.unit, data)
  | .retain f s => do
    let data ← retain lt data f s
    return (.unit, data)
  | .peekMut as e =>
    match peekMut data with
    | none => some (.item none, data)
    | some p => do
      let (seen, p) ← acts lt as p
      let (x, data) ← finish lt p e
      return (.peeked seen x, data)
  | .intoSortedVec => do
    let v ← intoSortedVec lt data
    return (.vec v, [])
  | .fromVec vec => do
    let data ← fromVec lt vec
    return (.unit, data)

/-- The length the vector has to grow to; beyond the limit the allocation panics. -/
def grown {lt : T → T → Bool} (data : List T) : Op σ lt → ℕ
  | .push _ => data.length+1
  | .append other => data.length+other.data.length
  | .extend items => data.length+items.length
  | .fromVec vec => vec.length
  | _ => data.length

def run (o : Order T) : List (Op σ o.lt) → List T → Option (List (Result T × List T))
  | [], _ => some []
  | op :: ops, data =>
    if grown data op ≤ o.maxLen then do
      let (r, data) ← step o.lt data op
      let rest ← run o ops data
      return (r, data) :: rest
    else some []

/-- What a `PeekMut` that exposes `t` of the elements `m` does to them. -/
def PeekSpec (lt : T → T → Bool) (e : Ending) :
    List (Act T) → T → Multiset T → List (Seen T) → Option T → Multiset T → Prop
  | [], t, m, seen, x, m' => seen = [] ∧
    match e with
    | .drop => x = none ∧ m' = m
    | .pop => x = some t ∧ m = t ::ₘ m'
    | .forget => x = none ∧ m' ≤ m
  | .deref :: as, t, m, seen, x, m' =>
    ∃ rest, seen = .top t :: rest ∧ PeekSpec lt e as t m rest x m'
  | .write y :: as, t, m, seen, x, m' =>
    ∃ rest n, seen = .written :: rest ∧ m = t ::ₘ n ∧ PeekSpec lt e as y (y ::ₘ n) rest x m'
  | .refresh :: as, t, m, seen, x, m' =>
    ∃ rest b t', seen = .refreshed b :: rest ∧ Greatest lt m t' ∧
      (b = true ↔ ∃ y ∈ m, lt t y = true) ∧ (b = false → t' = t) ∧
      PeekSpec lt e as t' m rest x m'

/-- What an operation does to the multiset of the elements and what it returns. -/
def Spec {lt : T → T → Bool} (m : Multiset T) : Op σ lt → Result T → Multiset T → Prop
  | .push item, r, m' => r = .unit ∧ m' = item ::ₘ m
  | .pop, r, m' => (m = 0 ∧ r = .item none ∧ m' = 0) ∨
    ∃ x, Greatest lt m x ∧ r = .item (some x) ∧ m = x ::ₘ m'
  | .peek, r, m' => m' = m ∧ ((m = 0 ∧ r = .item none) ∨ ∃ x, Greatest lt m x ∧ r = .item (some x))
  | .append other, r, m' => r = .vec [] ∧ m' = m+↑other.data
  | .extend items, r, m' => r = .unit ∧ m' = m+↑items
  | .retain f s, r, m' => r = .unit ∧ ∃ l : List T, ↑l = m ∧ m' = ↑(keepIf f s l)
  | .peekMut as e, r, m' => (m = 0 ∧ r = .item none ∧ m' = 0) ∨
    ∃ t seen x, Greatest lt m t ∧ r = .peeked seen x ∧ PeekSpec lt e as t m seen x m'
  | .intoSortedVec, r, m' => m' = 0 ∧ ∃ v : List T, r = .vec v ∧ Sorted lt v ∧ ↑v = m
  | .fromVec vec, r, m' => r = .unit ∧ m' = ↑vec

/-- Every step keeps the order and does what it should; only a vector that is too
long ends the run. -/
def Follows (o : Order T) : List (Op σ o.lt) → List T → List (Result T × List T) → Prop
  | [], _, trace => trace = []
  | op :: ops, data, trace =>
    (o.maxLen < grown data op ∧ trace = []) ∨
      ∃ r data' rest, trace = (r, data') :: rest ∧ Ordered o.lt data' ∧
        data'.length ≤ o.maxLen ∧ Spec ↑data op r ↑data' ∧ Follows o ops data' rest

theorem set_zero_perm {l : List T} {t : T} (ht : l[0]? = some t) (x : T) :
    ∃ n : Multiset T, (↑l : Multiset T) = t ::ₘ n ∧ (↑(l.set 0 x) : Multiset T) = x ::ₘ n := by
  cases l with
  | nil => simp at ht
  | cons a l =>
    obtain rfl : a = t := by simpa using ht
    exact ⟨↑l, rfl, rfl⟩

section Runs

variable {lt : T → T → Bool} (hlt : Weak lt)
include hlt

theorem finish_spec {p : PeekMut T} {t : T} (h : p.Valid lt t) (hsize : SizeOk lt p.buf.length)
    (e : Ending) :
    ∃ x data, finish lt p e = some (x, data) ∧ Ordered lt data ∧ data.length ≤ p.buf.length ∧
      PeekSpec lt e [] t ↑p.buf [] x ↑data := by
  cases e with
  | drop =>
    obtain ⟨data, hd, hperm, hord⟩ := h.drop_spec hlt hsize
    exact ⟨none, data, by simp [finish, hd], hord, hperm.length_eq.le, rfl, rfl,
      Multiset.coe_eq_coe.mpr hperm⟩
  | pop =>
    obtain ⟨data, hd, hperm, hord⟩ := h.pop_spec hlt hsize
    have hlen := hperm.length_eq
    rw [List.length_cons] at hlen
    exact ⟨some t, data, by simp [finish, hd], hord, by omega, rfl, rfl,
      (Multiset.coe_eq_coe.mpr hperm).symm⟩
  | forget =>
    obtain ⟨hsub, hord⟩ := h.forget_spec
    exact ⟨none, p.forget, rfl, hord, hsub.length_le, rfl, rfl, Multiset.coe_le.mpr hsub.subperm⟩

theorem acts_spec (as : List (Act T)) (e : Ending) {p : PeekMut T} {t : T} (h : p.Valid lt t)
    (hsize : SizeOk lt p.buf.length) :
    ∃ seen p' x data, acts lt as p = some (seen, p') ∧ finish lt p' e = some (x, data) ∧
      Ordered lt data ∧ data.length ≤ p.buf.length ∧ PeekSpec lt e as t ↑p.buf seen x ↑data := by
  induction as generalizing p t with
  | nil =>
    obtain ⟨x, data, hf, hord, hlen, hspec⟩ := finish_spec hlt h hsize e
    exact ⟨[], p, x, data, rfl, hf, hord, hlen, hspec⟩
  | cons a as ih =>
    cases a with
    | deref =>
      obtain ⟨seen, p', x, data, ha, hf, hord, hlen, hspec⟩ := ih h hsize
      exact ⟨_, p', x, data, by simp [acts, act, h.deref_eq, ha], hf, hord, hlen, seen, rfl, hspec⟩
    | write y =>
      obtain ⟨p₁, hw, h₁, hbuf⟩ := h.write y
      have hlen₁ : p₁.buf.length = p.buf.length := by rw [hbuf, List.length_set]
      obtain ⟨seen, p', x, data, ha, hf, hord, hlen, hspec⟩ := ih h₁ (by rwa [hlen₁])
      obtain ⟨n, hn, hn'⟩ := set_zero_perm h.top y
      rw [hbuf, hn'] at hspec
      exact ⟨_, p', x, data, by simp [acts, act, hw, ha], hf, hord, by omega, seen, n, rfl, hn, hspec⟩
    | refresh =>
      obtain ⟨b, p₁, t', hr, h₁, hperm, hgreat, hb, hsame⟩ := h.refresh_spec hlt hsize
      have hlen₁ := hperm.length_eq
      obtain ⟨seen, p', x, data, ha, hf, hord, hlen, hspec⟩ := ih h₁ (by rwa [hlen₁])
      rw [Multiset.coe_eq_coe.mpr hperm] at hgreat hspec
      exact ⟨_, p', x, data, by simp [acts, act, hr, ha], hf, hord, by omega, seen, b, t', rfl,
        hgreat, by simpa using hb, hsame, hspec⟩

theorem step_spec {data : List T} (op : Op σ lt) (hsize : SizeOk lt (grown data op))
    (h : Ordered lt data) :
    ∃ r data', step lt data op = some (r, data') ∧ Ordered lt data' ∧
      data'.length ≤ grown data op ∧ Spec ↑data op r ↑data' := by
  cases op with
  | push item =>
    obtain ⟨data', hs, hperm, hord⟩ := push_spec hlt item h
    refine ⟨.unit, data', by simp [step, hs], hord, hperm.length_eq.le, rfl, ?_⟩
    exact Multiset.coe_eq_coe.mpr hperm
  | pop =>
    rcases data.eq_nil_or_concat with rfl | ⟨l, z, hl⟩
    · exact ⟨.item none, [], rfl, h, le_rfl, .inl ⟨rfl, rfl, rfl⟩⟩
    · obtain ⟨x, hx⟩ : ∃ x, data[0]? = some x := ⟨_, List.getElem?_eq_getElem (by simp [hl])⟩
      obtain ⟨data', hs, hperm, hord⟩ := pop_spec hlt hx hsize (Heap.root_but h)
      have hlen := hperm.length_eq
      rw [List.length_cons] at hlen
      exact ⟨.item (some x), data', by simp [step, hs], hord, by simp [grown]; omega, .inr ⟨x,
        Ordered.greatest hlt h hx, rfl, (Multiset.coe_eq_coe.mpr hperm).symm⟩⟩
  | peek =>
    refine ⟨.item (peek data), data, rfl, h, le_rfl, rfl, ?_⟩
    cases data with
    | nil => exact .inl ⟨rfl, rfl⟩
    | cons x data => exact .inr ⟨x, Ordered.greatest hlt h rfl, rfl⟩
  | append other =>
    obtain ⟨data', hs, hperm, hord⟩ := append_spec hlt hsize h other.ordered
    refine ⟨.vec [], data', by simp [step, hs], hord, ?_, rfl, Multiset.coe_eq_coe.mpr hperm⟩
    simpa [grown] using hperm.length_eq.le
  | extend items =>
    obtain ⟨data', hs, hperm, hord⟩ := extend_spec hlt items hsize h
    refine ⟨.unit, data', by simp [step, hs], hord, ?_, rfl, Multiset.coe_eq_coe.mpr hperm⟩
    simpa [grown] using hperm.length_eq.le
  | retain f s =>
    obtain ⟨data', hs, hperm, hord⟩ := retain_spec hlt f s hsize h
    exact ⟨.unit, data', by simp [step, hs], hord, hperm.length_eq.le.trans (keepIf_length f s data),
      rfl, data, rfl, Multiset.coe_eq_coe.mpr hperm⟩
  | peekMut as e =>
    cases data with
    | nil => exact ⟨.item none, [], rfl, h, le_rfl, .inl ⟨rfl, rfl, rfl⟩⟩
    | cons t rest =>
      have hv : PeekMut.Valid lt ⟨t :: rest, (t :: rest).length, none⟩ t :=
        ⟨rfl, .inl ⟨rfl, rfl, h⟩⟩
      obtain ⟨seen, p', x, data', ha, hf, hord, hlen, hspec⟩ := acts_spec hlt as e hv hsize
      refine ⟨.peeked seen x, data', ?_, hord, hlen, .inr ⟨t, seen, x, ?_, rfl, hspec⟩⟩
      · rw [List.length_cons] at ha
        simp [step, peekMut, ha, hf]
      · exact Ordered.greatest hlt h rfl
  | intoSortedVec =>
    obtain ⟨v, hs, hperm, hsort⟩ := intoSortedVec_spec hlt hsize h
    exact ⟨.vec v, [], by simp [step, hs], heap_leaves lt (by simp), Nat.zero_le _, rfl, v, rfl,
      hsort, Multiset.coe_eq_coe.mpr hperm⟩
  | fromVec vec =>
    obtain ⟨data', hs, hperm, hord⟩ := rebuild_spec hlt hsize
    exact ⟨.unit, data', by simp [step, fromVec, hs], hord, hperm.length_eq.le, rfl,
      Multiset.coe_eq_coe.mpr hperm⟩

end Runs

theorem run_follows (o : Order T) (ops : List (Op σ o.lt)) (data : List T)
    (h : Ordered o.lt data) :
    ∃ trace, run o ops data = some trace ∧ Follows o ops data trace := by
  induction ops generalizing data with
  | nil => exact ⟨[], rfl, rfl⟩
  | cons op ops ih =>
    unfold run
    split_ifs with hg
    · obtain ⟨r, data', hs, hord, hlen, hspec⟩ := step_spec o.weak op (o.size.mono hg) h
      obtain ⟨rest, hr, hf⟩ := ih data' hord
      exact ⟨(r, data') :: rest, by simp [hs, hr],
        .inr ⟨r, data', rest, rfl, hord, hlen.trans hg, hspec, hf⟩⟩
    · exact ⟨[], rfl, .inl ⟨by omega, rfl⟩⟩

/-- Every run from the empty heap keeps the heap order, treats the elements as a
multiset, and returns greatest elements and sorted vectors. -/
theorem binaryHeap_refines (o : Order T) (ops : List (Op σ o.lt)) :
    ∃ trace, run o ops [] = some trace ∧ Follows o ops [] trace :=
  run_follows o ops [] (heap_leaves o.lt (by simp))

def naturals : Order ℕ where
  lt a b := decide (a < b)
  weak := {
    irrefl := by simp
    trans := by simpa using fun a b c => Nat.lt_trans
    incomp_trans := by simp; omega }
  maxLen := 8
  size := .inl (by decide)

def pair : OrderedVec naturals.lt where
  data := [5, 1]
  ordered := by
    intro p c a b _ hc ha hb
    have hlt := (List.getElem?_eq_some_iff.mp hb).1
    obtain ⟨hpos, rfl⟩ := hc
    obtain rfl : c = 1 := by simp at hlt; omega
    cases ha
    cases hb
    rfl

def calls : List (Op Unit naturals.lt) :=
  [.push 3, .append pair, .peekMut [.deref, .write 2, .refresh, .deref] .pop,
    .peekMut [.write 9] .forget]

theorem binaryHeap_refines_naturals :
    ∃ trace, run naturals calls [] = some trace ∧ Follows naturals calls [] trace ∧
      trace = [(.unit, [3]), (.vec [], [5, 1, 3]),
        (.peeked [.top 5, .written, .refreshed true, .top 3] (some 3), [2, 1]),
        (.peeked [.written] none, [9])] := by
  obtain ⟨trace, hr, hf⟩ := binaryHeap_refines naturals calls
  exact ⟨trace, hr, hf, Option.some.inj (hr.symm.trans rfl)⟩

end RustStd.BinaryHeap
