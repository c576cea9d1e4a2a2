import RustStd.Lib.DoubleEnded
import RustStd.Collections.VecDequeOps

/-!
# `VecDeque::drain`

The iterator borrows the deque, whose length is cut to what lies before the range.
When the iterator is dropped the guard moves the shorter of the two remaining parts
over the hole.
-/

set_option autoImplicit false

namespace RustStd.VecDeque
open RustStd.Machine RustStd.Outcome RustStd.DoubleEnded

variable {T : Type}

inductive Bound
  | included (i : ℕ)
  | excluded (i : ℕ)
  | unbounded
  deriving DecidableEq, Repr

/-- The end of `slice::range(range, ..len)`; nothing means that it panics. -/
def sliceRangeEnd (endBound : Bound) (len : ℕ) : Option ℕ :=
  match endBound with
  | .included i => if i ≥ len then none else some (i+1)
  | .excluded i => if i > len then none else some i
  | .unbounded => some len

def sliceRangeStart (startBound : Bound) (stop : ℕ) : Option ℕ :=
  match startBound with
  | .excluded i => if i ≥ stop then none else some (i+1)
  | .included i => if i > stop then none else some i
  | .unbounded => some 0

def sliceRange (startBound endBound : Bound) (len : ℕ) : Option (ℕ × ℕ) := do
  let stop ← sliceRangeEnd endBound len
  let start ← sliceRangeStart startBound stop
  return (start, stop)

structure Drain (T : Type) where
  /-- `drain_start` is its length. -/
  deque : Deque T
  drainLen : ℕ
  idx : ℕ
  newLen : ℕ
  remaining : ℕ

def Drain.new (deque : Deque T) (drainStart drainLen : ℕ) : Drain T :=
  { deque := { deque with len := drainStart }
    drainLen
    idx := drainStart
    newLen := deque.len-drainLen
    remaining := drainLen }

def drain (self : Deque T) (startBound endBound : Bound) : M T (Drain T) :=
  match sliceRange startBound endBound self.len with
  | none => .panic self
  | some (start, stop) => .ok (Drain.new self start (stop-start))

section Iterator
variable (e : Elem T)

def sliceRangesIn (self : Deque T) (start stop : ℕ) : (ℕ × ℕ) × (ℕ × ℕ) :=
  let len := stop-start
  if len = 0 then ((0, 0), (0, 0))
  else
    let wrappedStart := toPhysicalIdx e self start
    let headLen := capacity e self-wrappedStart
    if headLen ≥ len then ((wrappedStart, wrappedStart+len), (0, 0))
    else
      let tailLen := len-headLen
      ((wrappedStart, capacity e self), (0, tailLen))

namespace Drain

def asSlices (self : Drain T) : M T (List T × List T) := do
  let (a, b) := sliceRangesIn e self.deque self.idx (self.idx+self.remaining)
  let front ← bufferRange e self.deque a.1 (a.2-a.1)
  let back ← bufferRange e self.deque b.1 (b.2-b.1)
  return (front, back)

def next (self : Drain T) : M T (Option T × Drain T) :=
  if self.remaining = 0 then .ok (none, self)
  else do
    let x ← bufferRead e self.deque (toPhysicalIdx e self.deque self.idx)
    return (some x, { self with idx := self.idx+1, remaining := self.remaining-1 })

def nextBack (self : Drain T) : M T (Option T × Drain T) :=
  if self.remaining = 0 then .ok (none, self)
  else do
    let remaining := self.remaining-1
    let x ← bufferRead e self.deque (toPhysicalIdx e self.deque (self.idx+remaining))
    return (some x, { self with remaining })

/-- The shorter part moves. -/
def joinHeadAndTailWrapping (sourceDeque : Deque T) (drainLen headLen tailLen : ℕ) :
    M T (Deque T) :=
  if headLen < tailLen then
    wrapCopy e sourceDeque sourceDeque.head (toPhysicalIdx e sourceDeque drainLen) headLen
  else
    wrapCopy e sourceDeque (toPhysicalIdx e sourceDeque (headLen+drainLen))
      (toPhysicalIdx e sourceDeque headLen) tailLen

def fillHole (self : Drain T) : M T (Deque T) :=
  let sourceDeque := self.deque
  if e.isZst then .ok { sourceDeque with len := self.newLen }
  else do
    let headLen := sourceDeque.len
    let tailLen := self.newLen-headLen
    let sourceDeque ← (if headLen ≠ 0 ∧ tailLen ≠ 0 then
      joinHeadAndTailWrapping e sourceDeque self.drainLen headLen tailLen
      else .ok sourceDeque : M T (Deque T))
    let head := if self.newLen = 0 then 0
      else if headLen < tailLen then toPhysicalIdx e sourceDeque self.drainLen
      else sourceDeque.head
    return { sourceDeque with head, len := self.newLen }

def dropGuard (needsDrop : Bool) (self : Drain T) : M T (List T × Deque T) :=
  if needsDrop ∧ self.remaining ≠ 0 then do
    let (front, back) ← asSlices e self
    let deque ← fillHole e self
    return (front ++ back, deque)
  else do
    let deque ← fillHole e self
    return ([], deque)

/-- `drop`, with the elements that it drops. The first slice may panic while it is
dropped, and then the guard drops the second. -/
def drop (needsDrop frontPanics : Bool) (self : Drain T) : M T (List T × Deque T) :=
  if needsDrop ∧ self.remaining ≠ 0 then do
    let (front, back) ← asSlices e self
    let self := { self with idx := self.idx+front.length, remaining := self.remaining-front.length }
    if frontPanics then do
      let (dropped, deque) ← dropGuard e needsDrop self
      return (front ++ dropped, deque)
    else do
      let (dropped, deque) ← dropGuard e needsDrop { self with remaining := 0 }
      return (front ++ back ++ dropped, deque)
  else dropGuard e needsDrop self

end Drain

end Iterator

section Sized
variable {maxCap : ℕ} {hmax : maxCap ≤ isizeMax} {d : Deque T} {l : List T} {a b : ℕ}

variable (hmax) in
theorem SRep.join_front (h : SRep maxCap d l) (ha : 0 < a) (hab : a ≤ b) (hb : b < d.len) :
    ∃ slot, wrapCopy (.sized maxCap hmax) { d with len := a } d.head
        (wrapIndex (d.head+(b-a)) d.cap) a = .ok { d with len := a, slot } ∧
      SRep maxCap { d with head := wrapIndex (d.head+(b-a)) d.cap, len := d.len-(b-a), slot }
        (l.take a ++ l.drop b) := by
  have hlen := h.len_eq
  have hle := h.len_le
  have hhead := h.head_lt
  have hstart : wrapIndex (d.head+0) d.cap = d.head := by
    rw [Nat.add_zero, wrapIndex, if_neg (by lia)]
  obtain ⟨slot, hcopy, hslot⟩ := wrapCopy_logical hmax (d := { d with len := a }) h.cap_le
    (show d.head < d.cap by lia) (show 0 < d.cap by lia) (show b-a < d.cap by lia)
    (show a ≤ d.cap by lia) (show Apart d.cap 0 (b-a) a by unfold Apart; lia)
  simp only [hstart] at hcopy hslot
  refine ⟨slot, hcopy, ?_, ?_, h.cap_le, .inl (wrapIndex_lt (by lia) (by lia)), fun j x hx => ?_⟩
  · simp only [List.length_append, List.length_take, List.length_drop]
    lia
  · simp only
    lia
  · have hj := lt_of_getElem? hx
    simp only [List.length_append, List.length_take, List.length_drop] at hj
    have hplace : wrapIndex (wrapIndex (d.head+(b-a)) d.cap+j) d.cap =
        wrapIndex (d.head+(b-a+j)) d.cap := by
      unfold wrapIndex
      split_ifs <;> lia
    change slot (wrapIndex (wrapIndex (d.head+(b-a)) d.cap+j) d.cap) = _
    rw [hplace, hslot _ (by lia), ringDist_behind (by lia), Nat.add_sub_cancel_left]
    by_cases hfront : j < a
    · rw [if_pos hfront, Nat.zero_add, wrapIndex_straight (show j < d.cap by lia)]
      apply h.elem
      rwa [List.getElem?_append_left (by rw [List.length_take]; lia),
        List.getElem?_take_of_lt hfront] at hx
    · rw [if_neg hfront]
      apply h.elem
      rw [List.getElem?_append_right (by rw [List.length_take]; lia), List.getElem?_drop,
        List.length_take, Nat.min_eq_left (by lia)] at hx
      rw [← hx]
      congr 1
      lia

variable (hmax) in
theorem SRep.join_back (h : SRep maxCap d l) (hab : a ≤ b) (hb : b < d.len)
    (hshort : d.len-b ≤ a) :
    ∃ slot, wrapCopy (.sized maxCap hmax) { d with len := a } (wrapIndex (d.head+b) d.cap)
        (wrapIndex (d.head+a) d.cap) (d.len-b) = .ok { d with len := a, slot } ∧
      SRep maxCap { d with len := d.len-(b-a), slot } (l.take a ++ l.drop b) := by
  have hlen := h.len_eq
  have hle := h.len_le
  have hhead := h.head_lt
  obtain ⟨slot, hcopy, hslot⟩ := wrapCopy_logical hmax (d := { d with len := a }) h.cap_le
    (show d.head < d.cap by lia) (show b < d.cap by lia) (show a < d.cap by lia)
    (show d.len-b ≤ d.cap by lia) (show Apart d.cap b a (d.len-b) by unfold Apart; lia)
  simp only at hslot
  refine ⟨slot, hcopy, ?_, ?_, h.cap_le, hhead, fun j x hx => ?_⟩
  · simp only [List.length_append, List.length_take, List.length_drop]
    lia
  · simp only
    lia
  · have hj := lt_of_getElem? hx
    simp only [List.length_append, List.length_take, List.length_drop] at hj
    change slot (wrapIndex (d.head+j) d.cap) = _
    rw [hslot _ (by lia)]
    by_cases hfront : j < a
    · rw [ringDist_ahead hfront, if_neg (by lia)]
      apply h.elem
      rwa [List.getElem?_append_left (by rw [List.length_take]; lia),
        List.getElem?_take_of_lt hfront] at hx
    · rw [ringDist_behind (by lia), if_pos (by lia),
        wrapIndex_straight (show b+(j-a) < d.cap by lia)]
      apply h.elem
      rwa [List.getElem?_append_right (by rw [List.length_take]; lia), List.getElem?_drop,
        List.length_take, Nat.min_eq_left (by lia)] at hx

variable (hmax) in
theorem SRep.join (h : SRep maxCap d l) (ha : 0 < a) (hab : a ≤ b) (hb : b < d.len) :
    ∃ slot, Drain.joinHeadAndTailWrapping (.sized maxCap hmax) { d with len := a } (b-a) a (d.len-b) =
        .ok { d with len := a, slot } ∧
      SRep maxCap { d with
        head := if a < d.len-b then wrapIndex (d.head+(b-a)) d.cap else d.head
        len := d.len-(b-a), slot } (l.take a ++ l.drop b) := by
  have hle := h.len_le
  have hphys : ∀ i ≤ d.cap, toPhysicalIdx (.sized maxCap hmax) { d with len := a } i =
      wrapIndex (d.head+i) d.cap := fun i hi => h.phys hi
  unfold Drain.joinHeadAndTailWrapping
  by_cases hshort : a < d.len-b
  · simp only [if_pos hshort, hphys (b-a) (by lia)]
    exact h.join_front hmax ha hab hb
  · simp only [if_neg hshort, Nat.add_sub_cancel' hab, hphys b (by lia), hphys a (by lia)]
    exact h.join_back hmax hab hb (by lia)

end Sized

section Specs
variable {e : Elem T} {d : Deque T} {l : List T} {a b : ℕ}

theorem sliceRangeEnd_le {endBound : Bound} {len : ℕ} (h : sliceRangeEnd endBound len = some b) :
    b ≤ len := by
  cases endBound <;> simp only [sliceRangeEnd, Option.ite_none_left_eq_some, Option.some.injEq] at h <;>
    lia

theorem sliceRangeStart_le {startBound : Bound} (h : sliceRangeStart startBound b = some a) :
    a ≤ b := by
  cases startBound <;>
    simp only [sliceRangeStart, Option.ite_none_left_eq_some, Option.some.injEq] at h <;> lia

theorem sliceRange_spec {startBound endBound : Bound} {len : ℕ}
    (h : sliceRange startBound endBound len = some (a, b)) : a ≤ b ∧ b ≤ len := by
  unfold sliceRange at h
  simp only [Option.bind_eq_bind, Option.bind_eq_some_iff, Option.pure_def, Option.some.injEq,
    Prod.mk.injEq] at h
  obtain ⟨stop, hstop, start, hstart, rfl, rfl⟩ := h
  exact ⟨sliceRangeStart_le hstart, sliceRangeEnd_le hstop⟩

theorem bufferRead_len (h : Rep e d l) (n : ℕ) {i : ℕ} {x : T} (hx : l[i]? = some x) :
    bufferRead e { d with len := n } (toPhysicalIdx e { d with len := n } i) = .ok x :=
  h.elem i x hx

theorem Rep.part (h : Rep e d l) (hab : a ≤ b) (hb : b ≤ d.len) :
    Rep e { d with head := toPhysicalIdx e d a, len := b-a } ((l.drop a).take (b-a)) := by
  have hdrop := h.drop (show a ≤ d.len by lia)
  exact hdrop.take (show b-a ≤ d.len-a by lia)

/-- The iterator holds what lies between its two ends. -/
structure Draining (d : Deque T) (l : List T) (a b : ℕ) (s : Drain T) (rest : List T) : Prop where
  deque_eq : s.deque = { d with len := a }
  drainLen_eq : s.drainLen = b-a
  newLen_eq : s.newLen = l.length-(b-a)
  stop_le : s.idx+s.remaining ≤ l.length
  rest_eq : rest = (l.drop s.idx).take s.remaining

variable {s : Drain T} {rest : List T}

theorem Draining.length_eq (hs : Draining d l a b s rest) : rest.length = s.remaining := by
  have := hs.stop_le
  rw [hs.rest_eq, List.length_take, List.length_drop]
  lia

theorem Draining.getElem? (hs : Draining d l a b s rest) {i : ℕ} {x : T} (hx : rest[i]? = some x) :
    l[s.idx+i]? = some x := by
  have hi := lt_of_getElem? hx
  rw [hs.length_eq] at hi
  rwa [hs.rest_eq, List.getElem?_take_of_lt hi, List.getElem?_drop] at hx

theorem Draining.next_nil (hs : Draining d l a b s []) : Drain.next e s = .ok (none, s) :=
  if_pos hs.length_eq.symm

theorem Draining.nextBack_nil (hs : Draining d l a b s []) : Drain.nextBack e s = .ok (none, s) :=
  if_pos hs.length_eq.symm

theorem Draining.next_cons (h : Rep e d l) {x : T} (hs : Draining d l a b s (x :: rest)) :
    ∃ s', Drain.next e s = .ok (some x, s') ∧ Draining d l a b s' rest := by
  have hlen := hs.length_eq
  rw [List.length_cons] at hlen
  have hx : l[s.idx+0]? = some x := hs.getElem? rfl
  rw [Nat.add_zero] at hx
  refine ⟨{ s with idx := s.idx+1, remaining := s.remaining-1 }, ?_, hs.deque_eq, hs.drainLen_eq,
    hs.newLen_eq, ?_, ?_⟩
  · rw [Drain.next, if_neg (by lia), hs.deque_eq, bufferRead_len h a hx, ok_bind, pure_eq]
  · have := hs.stop_le
    simp only
    lia
  · have hrest := congrArg List.tail hs.rest_eq
    rwa [List.tail_cons, ← List.drop_one, List.drop_take, List.drop_drop] at hrest

theorem Draining.nextBack_concat (h : Rep e d l) {x : T}
    (hs : Draining d l a b s (rest ++ [x])) :
    ∃ s', Drain.nextBack e s = .ok (some x, s') ∧ Draining d l a b s' rest := by
  have hlen := hs.length_eq
  rw [List.length_append, List.length_singleton] at hlen
  have hx : l[s.idx+(s.remaining-1)]? = some x := by
    apply hs.getElem?
    rw [← hlen, Nat.add_sub_cancel, List.getElem?_concat_length]
  refine ⟨{ s with remaining := s.remaining-1 }, ?_, hs.deque_eq, hs.drainLen_eq, hs.newLen_eq, ?_, ?_⟩
  · rw [Drain.nextBack, if_neg (by lia)]
    simp only [hs.deque_eq, bufferRead_len h a hx, ok_bind, pure_eq]
  · have := hs.stop_le
    simp only
    lia
  · have hrest := congrArg List.dropLast hs.rest_eq
    have hstop := hs.stop_le
    rwa [List.dropLast_concat, List.dropLast_eq_take, List.take_take, List.length_take,
      List.length_drop, Nat.min_eq_left (by lia), Nat.min_eq_left (by lia)] at hrest

def callNext (e : Elem T) (s : Drain T) : Option (Option T × Drain T) := (Drain.next e s).toOption

def callNextBack (e : Elem T) (s : Drain T) : Option (Option T × Drain T) :=
  (Drain.nextBack e s).toOption

theorem draining_holds (h : Rep e d l) :
    Holds (callNext e) (callNextBack e) (Draining d l a b) where
  next_nil s hs := ⟨s, by rw [callNext, hs.next_nil, toOption_ok], hs⟩
  back_nil s hs := ⟨s, by rw [callNextBack, hs.nextBack_nil, toOption_ok], hs⟩
  next_cons s x rest hs := by
    obtain ⟨s', hok, hs'⟩ := hs.next_cons h
    exact ⟨s', by rw [callNext, hok, toOption_ok], hs'⟩
  back_concat s x rest hs := by
    obtain ⟨s', hok, hs'⟩ := hs.nextBack_concat h
    exact ⟨s', by rw [callNextBack, hok, toOption_ok], hs'⟩

theorem bufferRange_moved (head len start n : ℕ) :
    bufferRange e { d with head, len } start n = bufferRange e d start n := by
  induction n generalizing start with
  | zero => rfl
  | succ n ih =>
    rw [bufferRange, bufferRange, ih]
    rfl

theorem Draining.asSlices (h : Rep e d l) (hs : Draining d l a b s rest) :
    ∃ front back, Drain.asSlices e s = .ok (front, back) ∧ rest = front ++ back := by
  have hstop := hs.stop_le
  have hlen := h.len_eq
  have hpart := h.part (show s.idx ≤ s.idx+s.remaining by lia) (show s.idx+s.remaining ≤ d.len by lia)
  obtain ⟨front, back, hok, heq, -⟩ := asSlices_spec hpart
  refine ⟨front, back, ?_, ?_⟩
  · rw [← hok, Drain.asSlices, VecDeque.asSlices]
    have hranges : sliceRangesIn e s.deque s.idx (s.idx+s.remaining) = sliceRanges e
        { d with head := toPhysicalIdx e d s.idx, len := s.idx+s.remaining-s.idx } := by
      unfold sliceRangesIn sliceRanges
      by_cases hz : s.idx+s.remaining-s.idx = 0
      · rw [if_pos hz, if_pos hz]
      · rw [if_neg hz, if_neg hz, hpart.phys_zero, hs.deque_eq]
        rfl
        have := hpart.len_le
        simp only at this
        lia
    rw [hranges, hs.deque_eq]
    simp only [bufferRange_moved]
  · rw [hs.rest_eq, ← heq, Nat.add_sub_cancel_left]

theorem Draining.fillHole (h : Rep e d l) (hs : Draining d l a b s rest) (hab : a ≤ b)
    (hb : b ≤ l.length) :
    ∃ d', Drain.fillHole e s = .ok d' ∧ Rep e d' (l.take a ++ l.drop b) := by
  obtain ⟨deque, drainLen, idx, newLen, remaining⟩ := s
  obtain ⟨rfl, rfl, rfl, -, -⟩ := hs
  have hcount : (l.take a ++ l.drop b).length = l.length-(b-a) := by
    simp only [List.length_append, List.length_take, List.length_drop]
    lia
  unfold Drain.fillHole
  cases e with
  | zeroSized value unique =>
    refine ⟨_, if_pos rfl, ?_⟩
    rw [rep_zeroSized] at h ⊢
    rw [hcount]
    exact ⟨rfl, by simp only; lia, h.2.2⟩
  | sized maxCap hmax =>
    have hrep := h
    rw [rep_sized] at h
    have hlen := h.len_eq
    have hle := h.len_le
    have hphys : ∀ slot : ℕ → Option T, toPhysicalIdx (.sized maxCap hmax) { d with len := a, slot } (b-a) =
      wrapIndex (d.head+(b-a)) d.cap := fun _ => h.phys (by lia)
    have htail : l.length-(b-a)-a = d.len-b := by lia
    simp only [Elem.isZst, Bool.false_eq_true, if_false, htail]
    by_cases hmove : a ≠ 0 ∧ d.len-b ≠ 0
    · obtain ⟨slot, hjoin, hjoined⟩ := h.join hmax (show 0 < a by lia) hab (show b < d.len by lia)
      refine ⟨_, ?_, rep_sized.mpr hjoined⟩
      rw [if_pos hmove, hjoin, ok_bind]
      simp only [pure_eq, hphys]
      rw [if_neg (show l.length-(b-a) ≠ 0 by lia), ← hlen]
    · simp only [if_neg hmove, ok_bind, pure_eq, hphys]
      refine ⟨_, rfl, ?_⟩
      by_cases hnone : l.length-(b-a) = 0
      · have hnil : l.take a ++ l.drop b = [] := List.eq_nil_of_length_eq_zero (by lia)
        rw [if_pos hnone, rep_sized, hnil]
        have := h.cap_le
        exact SRep.of_places hnone (by simp; lia) this (by simp; lia) (by simp) (by simp)
      · rw [if_neg hnone]
        by_cases ha : a = 0
        · subst ha
          have hdrop := hrep.drop (show b ≤ d.len by lia)
          rw [if_pos (by lia), List.take_zero, List.nil_append, Nat.sub_zero, ← hlen,
            ← h.phys (show b ≤ d.cap by lia)]
          exact hdrop
        · have htake := hrep.take (show a ≤ d.len by lia)
          rw [if_neg (by lia), List.drop_eq_nil_of_le (by lia), List.append_nil,
            show l.length-(b-a) = a by lia]
          exact htake

theorem Draining.dropGuard (h : Rep e d l) (hs : Draining d l a b s rest) (hab : a ≤ b)
    (hb : b ≤ l.length) (needsDrop : Bool) :
    ∃ d', Drain.dropGuard e needsDrop s = .ok (if needsDrop then rest else [], d') ∧
      Rep e d' (l.take a ++ l.drop b) := by
  obtain ⟨d', hfill, hrep⟩ := hs.fillHole h hab hb
  refine ⟨d', ?_, hrep⟩
  unfold Drain.dropGuard
  by_cases hdrop : needsDrop = true ∧ s.remaining ≠ 0
  · obtain ⟨front, back, hslices, hrest⟩ := hs.asSlices h
    rw [if_pos hdrop, hslices, ok_bind, hdrop.1, if_pos rfl, hrest]
    simp only [hfill, ok_bind, pure_eq]
  · rw [if_neg hdrop, hfill, ok_bind, pure_eq]
    cases needsDrop with
    | false => rfl
    | true =>
      have hnil : rest = [] := by
        apply List.eq_nil_of_length_eq_zero
        rw [hs.length_eq]
        simpa using hdrop
      rw [hnil, ite_self]

theorem Draining.drop (h : Rep e d l) (hs : Draining d l a b s rest) (hab : a ≤ b)
    (hb : b ≤ l.length) (needsDrop frontPanics : Bool) :
    ∃ d', Drain.drop e needsDrop frontPanics s = .ok (if needsDrop then rest else [], d') ∧
      Rep e d' (l.take a ++ l.drop b) := by
  unfold Drain.drop
  by_cases hdrop : needsDrop = true ∧ s.remaining ≠ 0
  · obtain ⟨rfl, hleft⟩ := hdrop
    obtain ⟨front, back, hslices, hrest⟩ := hs.asSlices h
    have hlen := hs.length_eq
    rw [hrest, List.length_append] at hlen
    rw [if_pos ⟨rfl, hleft⟩, hslices, ok_bind]
    cases frontPanics with
    | true =>
      have hback : Draining d l a b
          { s with idx := s.idx+front.length, remaining := s.remaining-front.length } back := by
        have hstop := hs.stop_le
        refine ⟨hs.deque_eq, hs.drainLen_eq, hs.newLen_eq, ?_, ?_⟩
        · simp only
          lia
        · have hdropped := congrArg (List.drop front.length) (hrest.symm.trans hs.rest_eq)
          rwa [List.drop_left, List.drop_take, List.drop_drop] at hdropped
      obtain ⟨d', hguard, hrep⟩ := hback.dropGuard h hab hb true
      refine ⟨d', ?_, hrep⟩
      simp only [if_true, hguard, ok_bind, pure_eq, hrest]
    | false =>
      have hnone : Draining d l a b
          { s with idx := s.idx+front.length, remaining := 0 } [] := by
        have hstop := hs.stop_le
        refine ⟨hs.deque_eq, hs.drainLen_eq, hs.newLen_eq, ?_, List.take_zero.symm⟩
        simp only
        lia
      obtain ⟨d', hguard, hrep⟩ := hnone.dropGuard h hab hb true
      refine ⟨d', ?_, hrep⟩
      simp only [Bool.false_eq_true, if_false, hguard, ok_bind, pure_eq, hrest, if_true, List.append_nil]
  · rw [if_neg hdrop]
    exact hs.dropGuard h hab hb needsDrop

theorem draining_new (h : Rep e d l) (hab : a ≤ b) (hb : b ≤ l.length) :
    Draining d l a b (Drain.new d a (b-a)) ((l.drop a).take (b-a)) := by
  refine ⟨rfl, rfl, ?_, ?_, rfl⟩
  · rw [← h.len_eq]
    rfl
  · change a+(b-a) ≤ l.length
    lia

end Specs

/-- In every layout and for every order of the calls: what comes from the front, what
is left and what comes from the back are the range, what is left is dropped, and the
deque then holds the rest. A `Drain` that is forgotten leaves what lies before it. -/
theorem drain_exact {e : Elem T} {d : Deque T} {l : List T} (h : Rep e d l)
    (startBound endBound : Bound) :
    match sliceRange startBound endBound l.length with
    | none => drain d startBound endBound = .panic d
    | some (a, b) => ∃ s, drain d startBound endBound = .ok s ∧ a ≤ b ∧ b ≤ l.length ∧
      ∀ calls : List End, ∃ fs bs s' rest,
        drive (callNext e) (callNextBack e) calls s = some (fs, bs, s') ∧
        (l.drop a).take (b-a) = fs ++ rest ++ bs.reverse ∧ rest.length = b-a-calls.length ∧
        Rep e s'.deque (l.take a) ∧
        ∀ needsDrop frontPanics, ∃ d', Drain.drop e needsDrop frontPanics s' =
          .ok (if needsDrop then rest else [], d') ∧ Rep e d' (l.take a ++ l.drop b) := by
  unfold drain
  rw [h.len_eq]
  cases hrange : sliceRange startBound endBound l.length with
  | none => rfl
  | some range =>
    obtain ⟨a, b⟩ := range
    obtain ⟨hab, hb⟩ := sliceRange_spec hrange
    refine ⟨_, rfl, hab, hb, fun calls => ?_⟩
    obtain ⟨fs, bs, s', rest, hdrive, hs', hsplit, hcount⟩ :=
      drive_rest (draining_holds h) calls _ _ (draining_new h hab hb)
    refine ⟨fs, bs, s', rest, hdrive, hsplit, ?_, ?_, ?_⟩
    · rw [hcount, List.length_take, List.length_drop]
      lia
    · rw [hs'.deque_eq]
      exact h.take (by rw [h.len_eq]; lia)
    · exact hs'.drop h hab hb

/-- Two calls on a range across the end of the buffer. -/
theorem drain_exact_wrapped :
    let e : Elem ℕ := .sized 7 (by decide)
    let d : Deque ℕ := ⟨5, 6, 7, fun j => some j⟩
    ∃ s fs bs s' rest, drain d (.included 1) (.excluded 4) = .ok s ∧
      drive (callNext e) (callNextBack e) [.front, .back] s = some (fs, bs, s') ∧
      [6, 0, 1] = fs ++ rest ++ bs.reverse ∧ Rep e s'.deque [5] ∧
      ∃ d', Drain.drop e true false s' = .ok (rest, d') ∧ Rep e d' [5, 2, 3] := by
  have hrep : Rep (.sized 7 (by decide)) (⟨5, 6, 7, fun j => some j⟩ : Deque ℕ) [5, 6, 0, 1, 2, 3] := by
    rw [rep_sized]
    refine ⟨rfl, by decide, le_rfl, .inl (by decide), fun i x hx => ?_⟩
    have hi := lt_of_getElem? hx
    simp only [List.length_cons, List.length_nil] at hi
    interval_cases i <;> exact hx
  obtain ⟨s, hdrain, -, -, hcalls⟩ := drain_exact hrep (.included 1) (.excluded 4)
  obtain ⟨fs, bs, s', rest, hdrive, hsplit, -, hforget, hdrop⟩ := hcalls [.front, .back]
  exact ⟨s, fs, bs, s', rest, hdrain, hdrive, hsplit, hforget, hdrop true false⟩

end RustStd.VecDeque
