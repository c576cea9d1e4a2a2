import RustStd.Vec.RawVec
import RustStd.Lib.Machine
import RustStd.Lib.DoubleEnded

/-!
# `Vec::drain`

The iterator borrows the vector, whose length is cut to what lies before the range. The
elements that a vector counts always have values in its first slots: a step that would break
this fails.
-/

set_option autoImplicit false

namespace RustStd.Vec
open RustStd.Machine RustStd.Unwind RustStd.Slots RustStd.DoubleEnded

variable {ε σ T β : Type}

/-- The size and the alignment of the elements; without a size there is one value. -/
structure ElemLayout (T : Type) where
  size : ℕ
  align : ℕ
  unique : size = 0 → ∀ x y : T, x = y

/-- The first `len` slots have values. -/
def RawVec.Sound (v : RawVec T) : Prop :=
  v.len ≤ v.slots.length ∧ ∀ x ∈ v.slots.take v.len, x.isSome = true

instance (v : RawVec T) : Decidable v.Sound := inferInstanceAs (Decidable (_ ∧ _))

abbrev SoundVec (T : Type) : Type := { v : RawVec T // v.Sound }

/-- A step on the vector, with a result. It fails if it is undefined or breaks the vector. -/
def change (f : RawVec T → Option (β × RawVec T)) : M ε σ (SoundVec T) β := fun v st =>
  match f v.1 with
  | none => (.error .outOfBounds, v, st)
  | some (b, w) => if h : w.Sound then (.ok b, ⟨w, h⟩, st) else (.error .outOfBounds, v, st)

def slotsStep (f : Slots T → Option (Slots T)) : RawVec T → Option (Unit × RawVec T) := fun v =>
  (f v.slots).map fun slots => ((), { v with slots })

def lenStep (len : ℕ) : RawVec T → Option (Unit × RawVec T) := fun v => some ((), { v with len })

def readStep (i : ℕ) : RawVec T → Option (T × RawVec T) := fun v =>
  (Slots.read v.slots i).map fun r => (r.1, { v with slots := r.2 })

def dropStep (i : ℕ) : RawVec T → Option (Unit × RawVec T) := fun v =>
  (Slots.read v.slots i).map fun r =>
    ((), { v with slots := r.2, dropped := v.dropped ++ [r.1] })

/-- A value that is not in the vector is dropped. -/
def discardStep (x : T) : RawVec T → Option (Unit × RawVec T) := fun v =>
  some ((), { v with dropped := v.dropped ++ [x] })

/-- `set_len` for elements without a size: they have no addresses, so their values count wherever
they were written. -/
def gatherStep (len : ℕ) : RawVec T → Option (Unit × RawVec T) := fun v =>
  let l := v.slots.reduceOption
  some ((), { v with slots := live l ++ free (v.slots.length-l.length), len })

def dropSlice : ℕ → ℕ → M ε σ (SoundVec T) Unit
  | _, 0 => pure ()
  | i, n+1 => do
    change (dropStep i)
    dropSlice (i+1) n

def truncate (len : ℕ) : M ε σ (SoundVec T) Unit := do
  let v ← get
  if len > v.1.len then pure ()
  else do
    change (lenStep len)
    dropSlice len (v.1.len-len)

/-- `iter` is the range of its indices. -/
structure Drain (T : Type) where
  vec : SoundVec T
  tailStart : ℕ
  tailLen : ℕ
  iterStart : ℕ
  iterEnd : ℕ

namespace Drain

def onVec (m : M ε σ (SoundVec T) β) : M ε σ (Drain T) β :=
  onPart Drain.vec (fun vec d => { d with vec }) m

def next : M ε σ (Drain T) (Option T) := do
  let d ← get
  if d.iterStart = d.iterEnd then pure none
  else do
    put { d with iterStart := d.iterStart+1 }
    let x ← onVec (change (readStep d.iterStart))
    return some x

def nextBack : M ε σ (Drain T) (Option T) := do
  let d ← get
  if d.iterStart = d.iterEnd then pure none
  else do
    put { d with iterEnd := d.iterEnd-1 }
    let x ← onVec (change (readStep (d.iterEnd-1)))
    return some x

def moveBack (src dst n : ℕ) : M ε σ (Drain T) Unit :=
  if src ≠ dst then onVec (change (slotsStep fun s => copy s src dst n)) else pure ()

def dropGuard : M ε σ (Drain T) Unit := do
  let d ← get
  if d.tailLen > 0 then do
    let start := d.vec.1.len
    moveBack d.tailStart start d.tailLen
    onVec (change (lenStep (start+d.tailLen)))
  else pure ()

def takeIter : M ε σ (Drain T) Unit := do
  let d ← get
  put { d with iterStart := 0, iterEnd := 0 }

section Ends

variable (e : ElemLayout T)

def drop : M ε σ (Drain T) Unit := do
  let d ← get
  let dropLen := d.iterEnd-d.iterStart
  takeIter
  if e.size = 0 then do
    let oldLen := d.vec.1.len
    onVec (change (gatherStep (oldLen+dropLen+d.tailLen)))
    onVec (truncate (oldLen+d.tailLen))
  else if dropLen = 0 then dropGuard
  else do
    onVec (dropSlice d.iterStart dropLen)
    dropGuard

def keepRest : M ε σ (Drain T) Unit := do
  let d ← get
  let start := d.vec.1.len
  let tail := d.tailStart
  let unyieldedLen := d.iterEnd-d.iterStart
  if e.size = 0 then onVec (change (gatherStep (start+unyieldedLen+d.tailLen)))
  else do
    moveBack d.iterStart start unyieldedLen
    moveBack tail (start+unyieldedLen) d.tailLen
    onVec (change (lenStep (start+unyieldedLen+d.tailLen)))

end Ends

end Drain

/-- `Vec::drain`; a range that is not in the vector unwinds with `rangeError`. -/
def drain (rangeError : ε) (start stop : ℕ) : M ε σ (SoundVec T) (Drain T) := do
  let v ← get
  if start ≤ stop ∧ stop ≤ v.1.len then do
    change (lenStep start)
    let w ← get
    return ⟨w, stop, v.1.len-stop, start, stop⟩
  else exit (.unwind rangeError)

/-! ## Steps -/

theorem sound_front (a : List T) (s : Slots T) (d : List T) :
    (⟨live a ++ s, a.length, d⟩ : RawVec T).Sound := by
  have htake : (live a ++ s).take a.length = live a := by
    rw [← length_live a, List.take_left]
  constructor
  · rw [List.length_append, length_live]
    exact Nat.le_add_right _ _
  · rw [htake, live]
    intro x hx
    obtain ⟨y, -, rfl⟩ := List.mem_map.mp hx
    rfl

/-- The vector of the elements `a`, in front of the slots `s`. -/
def front (a : List T) (s : Slots T) (d : List T) : SoundVec T :=
  ⟨⟨live a ++ s, a.length, d⟩, sound_front a s d⟩

section Steps

variable {a a' d d' : List T} {s s' : Slots T} {x : T} {st : σ}

theorem change_run {f : RawVec T → Option (β × RawVec T)} {b : β} {v w : SoundVec T}
    (h : f v.1 = some (b, w.1)) :
    (change f : M ε σ (SoundVec T) β) v st = (.ok b, w, st) := by
  rw [change, h]
  exact dif_pos w.2

theorem readStep_run {i : ℕ} {u w : Slots T} (hi : u.length = i)
    (hs : live a ++ s = u ++ some x :: w) (hs' : live a ++ s' = u ++ none :: w) :
    readStep i (front a s d).1 = some (x, (front a s' d).1) := by
  have hread : Slots.read (live a ++ s) i = some (x, live a ++ s') := by
    rw [hs, hs', read_append hi]
  change (Slots.read (live a ++ s) i).map _ = _
  rw [hread]
  rfl

theorem dropStep_run {i : ℕ} {u w : Slots T} (hi : u.length = i)
    (hs : live a ++ s = u ++ some x :: w) (hs' : live a ++ s' = u ++ none :: w) :
    dropStep i (front a s d).1 = some ((), (front a s' (d ++ [x])).1) := by
  have hread : Slots.read (live a ++ s) i = some (x, live a ++ s') := by
    rw [hs, hs', read_append hi]
  change (Slots.read (live a ++ s) i).map _ = _
  rw [hread]
  rfl

theorem lenStep_run {n : ℕ} (hs : live a ++ s = live a' ++ s') (hn : a'.length = n) :
    lenStep n (front a s d).1 = some ((), (front a' s' d).1) := by
  change some ((), (⟨live a ++ s, n, d⟩ : RawVec T)) = some ((), ⟨live a' ++ s', a'.length, d⟩)
  rw [hs, hn]

theorem slotsStep_run {f : Slots T → Option (Slots T)} (h : f (live a ++ s) = some (live a ++ s')) :
    slotsStep f (front a s d).1 = some ((), (front a s' d).1) := by
  change (f (live a ++ s)).map _ = _
  rw [h]
  rfl

theorem dropSlice_run {i n : ℕ} {l : List T} {u w : Slots T} (hi : (live a ++ u).length = i)
    (hn : l.length = n) :
    (dropSlice i n : M ε σ (SoundVec T) Unit) (front a (u ++ live l ++ w) d) st =
      (.ok (), front a (u ++ free n ++ w) (d ++ l), st) := by
  induction l generalizing i n u d with
  | nil =>
    subst hn
    rw [List.append_nil]
    rfl
  | cons x l ih =>
    subst hn
    have hdrop : dropStep i (front a (u ++ live (x :: l) ++ w) d).1 =
        some ((), (front a (u ++ [none] ++ live l ++ w) (d ++ [x])).1) := by
      apply dropStep_run hi
      · rw [live_cons, List.append_assoc, List.append_assoc, List.cons_append]
      · rw [List.append_assoc u, List.append_assoc u, ← List.append_assoc (live a)]
        rfl
    have hlen : (live a ++ (u ++ [none])).length = i+1 := by
      rw [← List.append_assoc, List.length_append, hi]
      rfl
    rw [List.length_cons, dropSlice]
    apply (bind_run (change_run hdrop)).trans
    rw [ih hlen rfl, free_succ]
    simp only [List.append_assoc, List.cons_append, List.nil_append]

theorem reduceOption_live (l : List T) : (live l).reduceOption = l := by
  rw [live, List.reduceOption, List.filterMap_map]
  simp

theorem reduceOption_free (n : ℕ) : (free n : Slots T).reduceOption = [] := by
  rw [free, List.reduceOption_replicate_none]

end Steps

/-! ## Calls -/

namespace Drain

/-- Behind the elements `a` the slots hold `rest` and the tail `b`; the iterator is at `rest`. -/
def held (a b : List T) (i : ℕ) (rest : List T) (j k : ℕ) (d : List T) : Drain T :=
  ⟨front a (free i ++ live rest ++ free j ++ live b ++ free k) d, a.length+i+rest.length+j,
    b.length, a.length+i, a.length+i+rest.length⟩

section Calls

variable {a b rest d : List T} {x : T} {i j k : ℕ} {st : σ}

theorem onVec_run {m : M ε σ (SoundVec T) β} {r : Except (Exit ε) β} {v w : SoundVec T}
    {tailStart tailLen iterStart iterEnd : ℕ} {st' : σ} (h : m v st = (r, w, st')) :
    onVec m ⟨v, tailStart, tailLen, iterStart, iterEnd⟩ st =
      (r, ⟨w, tailStart, tailLen, iterStart, iterEnd⟩, st') :=
  onPart_run h

theorem next_nil : (next : M ε σ (Drain T) (Option T)) (held a b i [] j k d) st =
    (.ok none, held a b i [] j k d, st) := by
  rw [next]
  apply get_run.trans
  exact ite_run_pos rfl

theorem next_cons : (next : M ε σ (Drain T) (Option T)) (held a b i (x :: rest) j k d) st =
    (.ok (some x), held a b (i+1) rest j k d, st) := by
  have hread : readStep (a.length+i)
      (front a (free i ++ live (x :: rest) ++ free j ++ live b ++ free k) d).1 =
      some (x, (front a (free (i+1) ++ live rest ++ free j ++ live b ++ free k) d).1) := by
    apply readStep_run (u := live a ++ free i) (w := live rest ++ free j ++ live b ++ free k)
    · rw [List.length_append, length_live, length_free]
    · simp only [live_cons, List.append_assoc, List.cons_append]
    · rw [free_add i 1]
      simp only [free_succ, free_zero, List.append_assoc, List.cons_append, List.nil_append]
  have hne : ¬ a.length+i = a.length+i+(x :: rest).length := by
    rw [List.length_cons]
    omega
  have hend : a.length+(i+1)+rest.length = a.length+i+(x :: rest).length := by
    rw [List.length_cons]
    omega
  have hheld : held a b (i+1) rest j k d =
      ⟨front a (free (i+1) ++ live rest ++ free j ++ live b ++ free k) d,
        a.length+i+(x :: rest).length+j, b.length, a.length+i+1,
        a.length+i+(x :: rest).length⟩ := by
    rw [held, hend, Nat.add_assoc a.length i 1]
  rw [next]
  apply get_run.trans
  apply (ite_run_neg hne).trans
  apply put_run.trans
  apply (bind_run (onVec_run (change_run hread))).trans
  rw [hheld]
  rfl

theorem nextBack_nil : (nextBack : M ε σ (Drain T) (Option T)) (held a b i [] j k d) st =
    (.ok none, held a b i [] j k d, st) := by
  rw [nextBack]
  apply get_run.trans
  exact ite_run_pos rfl

theorem nextBack_concat : (nextBack : M ε σ (Drain T) (Option T))
    (held a b i (rest ++ [x]) j k d) st = (.ok (some x), held a b i rest (j+1) k d, st) := by
  have hlen : (rest ++ [x]).length = rest.length+1 := List.length_append
  have hread : readStep (a.length+i+(rest ++ [x]).length-1)
      (front a (free i ++ live (rest ++ [x]) ++ free j ++ live b ++ free k) d).1 =
      some (x, (front a (free i ++ live rest ++ free (j+1) ++ live b ++ free k) d).1) := by
    apply readStep_run (u := live a ++ free i ++ live rest) (w := free j ++ live b ++ free k)
    · rw [List.length_append, List.length_append, length_live, length_live, length_free, hlen]
      rfl
    · simp only [live_append, live_cons, live_nil, List.append_assoc, List.cons_append,
        List.nil_append]
    · simp only [free_succ, List.append_assoc, List.cons_append]
  have hne : ¬ a.length+i = a.length+i+(rest ++ [x]).length := by
    rw [hlen]
    omega
  have htail : a.length+i+rest.length+(j+1) = a.length+i+(rest ++ [x]).length+j := by
    rw [hlen]
    omega
  have hend : a.length+i+rest.length = a.length+i+(rest ++ [x]).length-1 := by
    rw [hlen]
    rfl
  have hheld : held a b i rest (j+1) k d =
      ⟨front a (free i ++ live rest ++ free (j+1) ++ live b ++ free k) d,
        a.length+i+(rest ++ [x]).length+j, b.length, a.length+i,
        a.length+i+(rest ++ [x]).length-1⟩ := by
    rw [held, htail, hend]
  rw [nextBack]
  apply get_run.trans
  apply (ite_run_neg hne).trans
  apply put_run.trans
  apply (bind_run (onVec_run (change_run hread))).trans
  rw [hheld]
  rfl

end Calls

/-! ## Ends -/

section Leaving

variable {e : ElemLayout T} {a b rest d l : List T} {i j k g m n : ℕ} {u w : Slots T} {s : Drain T}
  {st : σ}

theorem moveBack_run (hs : s.vec = front a (u ++ free g ++ live l ++ w) d)
    (hm : (live a ++ u).length = m) (hn : l.length = n) :
    (moveBack (m+g) m n : M ε σ (Drain T) Unit) s st =
      (.ok (), { s with vec := front a (u ++ live l ++ free g ++ w) d }, st) := by
  rw [moveBack]
  by_cases hg : g = 0
  · subst hg
    apply (ite_run_neg (fun h => h rfl)).trans
    rw [free_zero, List.append_nil, ← List.append_nil u, ← free_zero, ← hs]
    rfl
  · apply (ite_run_pos (by omega)).trans
    apply onVec_run
    rw [hs]
    apply change_run
    apply slotsStep_run
    have hcopy := copy_down (b := w) (g := g) hm hn
    simp only [List.append_assoc] at hcopy ⊢
    exact hcopy

theorem dropGuard_run (hs : s.vec = front a (free g ++ live b ++ w) d)
    (hstart : b ≠ [] → s.tailStart = a.length+g) (hlen : s.tailLen = b.length) :
    (dropGuard : M ε σ (Drain T) Unit) s st =
      (.ok (), { s with vec := front (a ++ b) (free g ++ w) d }, st) := by
  rw [dropGuard]
  apply get_run.trans
  by_cases hb : b = []
  · subst hb
    apply (ite_run_neg (by rw [hlen]; exact lt_irrefl 0)).trans
    rw [List.append_nil, ← List.append_nil (free g), ← live_nil, ← hs]
    rfl
  · have hpos : s.tailLen > 0 := by
      rw [hlen]
      exact List.length_pos_of_ne_nil hb
    have hfront : s.vec.1.len = a.length := by
      rw [hs]
      rfl
    have hmove : (moveBack s.tailStart s.vec.1.len s.tailLen : M ε σ (Drain T) Unit) =
        moveBack (a.length+g) a.length b.length := by
      rw [hstart hb, hlen, hfront]
    have hset : lenStep (s.vec.1.len+s.tailLen) (front a ([] ++ live b ++ free g ++ w) d).1 =
        some ((), (front (a ++ b) (free g ++ w) d).1) := by
      rw [hlen, hfront]
      apply lenStep_run
      · simp only [live_append, List.nil_append, List.append_assoc]
      · exact List.length_append
    apply (ite_run_pos hpos).trans
    rw [hmove]
    apply (bind_run (moveBack_run (u := []) hs (by simp) rfl)).trans
    exact onVec_run (change_run hset)

theorem gatherStep_run {n : ℕ} (hl : (live a ++ u).reduceOption = l) (hn : l.length = n) :
    gatherStep n (front a u d).1 =
      some ((), (front l (free ((live a ++ u).length-l.length)) d).1) := by
  change some ((), (⟨live (live a ++ u).reduceOption ++
    free ((live a ++ u).length-(live a ++ u).reduceOption.length), n, d⟩ : RawVec T)) = _
  rw [hl, ← hn]
  rfl

theorem truncate_run (hm : m ≤ l.length) :
    (truncate m : M ε σ (SoundVec T) Unit) (front l u d) st =
      (.ok (), front (l.take m) (free (l.length-m) ++ u) (d ++ l.drop m), st) := by
  have htake : (l.take m).length = m := List.length_take_of_le hm
  have hlen : lenStep m (front l u d).1 =
      some ((), (front (l.take m) (live (l.drop m) ++ u) d).1) := by
    apply lenStep_run _ htake
    rw [← List.append_assoc, ← live_append, List.take_append_drop]
  have hle : ¬ m > (front l u d).1.len := Nat.not_lt.mpr hm
  rw [truncate]
  apply get_run.trans
  apply (ite_run_neg hle).trans
  apply (bind_run (change_run hlen)).trans
  apply dropSlice_run (u := [])
  · rw [List.append_nil, length_live, htake]
  · exact List.length_drop

theorem eq_of_length (he : e.size = 0) (h : a.length = b.length) : a = b := by
  apply List.ext_getElem h
  intro i hi hi'
  exact e.unique he _ _

/-- The states of an iterator over `rest` behind the elements `a`, in front of the tail `b`. -/
structure Holding (a b : List T) (i : ℕ) (rest : List T) (j k : ℕ) (d : List T) (s : Drain T) :
    Prop where
  vec : s.vec = front a (free i ++ live rest ++ free j ++ live b ++ free k) d
  tailStart : b ≠ [] → s.tailStart = a.length+i+rest.length+j
  tailLen : s.tailLen = b.length
  left : s.iterEnd-s.iterStart = rest.length
  iterStart : rest ≠ [] → s.iterStart = a.length+i

theorem holding_held : Holding a b i rest j k d (held a b i rest j k d) where
  vec := rfl
  tailStart _ := rfl
  tailLen := rfl
  left := Nat.add_sub_cancel_left ..
  iterStart _ := rfl

theorem Holding.len (h : Holding a b i rest j k d s) : s.vec.1.len = a.length := by
  rw [h.vec]
  rfl

theorem gather_run (hn : a.length+rest.length+b.length = n) :
    gatherStep n (front a (free i ++ live rest ++ free j ++ live b ++ free k) d).1 =
      some ((), (front (a ++ rest ++ b) (free (i+j+k)) d).1) := by
  have hall : (live a ++ (free i ++ live rest ++ free j ++ live b ++ free k)).reduceOption =
      a ++ rest ++ b := by
    simp only [List.reduceOption_append, reduceOption_live, reduceOption_free, List.append_nil,
      List.nil_append, List.append_assoc]
  have hspare : (live a ++ (free i ++ live rest ++ free j ++ live b ++ free k)).length-
      (a ++ rest ++ b).length = i+j+k := by
    simp only [List.length_append, length_live, length_free]
    omega
  rw [gatherStep_run hall, hspare]
  rw [← hn, List.length_append, List.length_append]

theorem gather_truncate (he : e.size = 0) :
    (truncate (a.length+b.length) : M ε σ (SoundVec T) Unit)
      (front (a ++ rest ++ b) (free (i+j+k)) d) st =
      (.ok (), front (a ++ b) (free (i+rest.length+j+k)) (d ++ rest), st) := by
  have hlen : (a ++ rest ++ b).length = a.length+rest.length+b.length := by
    rw [List.length_append, List.length_append]
  have htake : (a ++ rest ++ b).take (a.length+b.length) = a ++ b := by
    apply eq_of_length he
    rw [List.length_take_of_le (by omega), List.length_append]
  have hdrop : (a ++ rest ++ b).drop (a.length+b.length) = rest := by
    apply eq_of_length he
    rw [List.length_drop]
    omega
  have hfree : (a ++ rest ++ b).length-(a.length+b.length)+(i+j+k) = i+rest.length+j+k := by
    omega
  rw [truncate_run (by omega), htake, hdrop, ← free_add, hfree]

theorem drop_run (h : Holding a b i rest j k d s) :
    (drop e : M ε σ (Drain T) Unit) s st =
      (.ok (), ⟨front (a ++ b) (free (i+rest.length+j+k)) (d ++ rest), s.tailStart, s.tailLen, 0, 0⟩,
        st) := by
  have htake : (takeIter : M ε σ (Drain T) Unit) s st =
      (.ok (), ⟨s.vec, s.tailStart, s.tailLen, 0, 0⟩, st) := rfl
  rw [drop]
  apply get_run.trans
  apply (bind_run htake).trans
  by_cases he : e.size = 0
  · have hgather : gatherStep (s.vec.1.len+(s.iterEnd-s.iterStart)+s.tailLen) s.vec.1 =
        some ((), (front (a ++ rest ++ b) (free (i+j+k)) d).1) := by
      rw [h.len, h.left, h.tailLen, h.vec]
      exact gather_run rfl
    have htruncate : (truncate (s.vec.1.len+s.tailLen) : M ε σ (SoundVec T) Unit)
        (front (a ++ rest ++ b) (free (i+j+k)) d) st =
        (.ok (), front (a ++ b) (free (i+rest.length+j+k)) (d ++ rest), st) := by
      rw [h.len, h.tailLen]
      exact gather_truncate he
    apply (ite_run_pos he).trans
    apply (bind_run (onVec_run (change_run hgather))).trans
    exact onVec_run htruncate
  · have hguard : ∀ vec, vec = front a (free (i+rest.length+j) ++ live b ++ free k) (d ++ rest) →
        (dropGuard : M ε σ (Drain T) Unit) ⟨vec, s.tailStart, s.tailLen, 0, 0⟩ st =
        (.ok (), ⟨front (a ++ b) (free (i+rest.length+j+k)) (d ++ rest), s.tailStart, s.tailLen,
          0, 0⟩, st) := by
      intro vec hvec
      rw [dropGuard_run (s := ⟨vec, s.tailStart, s.tailLen, 0, 0⟩) hvec _ h.tailLen, ← free_add]
      intro hb
      rw [h.tailStart hb]
      omega
    apply (ite_run_neg he).trans
    by_cases hrest : rest = []
    · have hzero : s.iterEnd-s.iterStart = 0 := by
        rw [h.left, hrest]
        rfl
      apply (ite_run_pos hzero).trans
      apply hguard
      rw [h.vec, hrest]
      simp only [live_nil, List.append_nil, List.length_nil, Nat.add_zero, free_add]
    · have hpos : ¬ s.iterEnd-s.iterStart = 0 := by
        rw [h.left]
        exact fun h' => hrest (List.length_eq_zero_iff.mp h')
      have hdrop : (dropSlice s.iterStart (s.iterEnd-s.iterStart) : M ε σ (SoundVec T) Unit) s.vec st =
          (.ok (), front a (free (i+rest.length+j) ++ live b ++ free k) (d ++ rest), st) := by
        rw [h.left, h.iterStart hrest, h.vec]
        have hi : (live a ++ free i : Slots T).length = a.length+i := by
          rw [List.length_append, length_live, length_free]
        have hrun : (dropSlice (a.length+i) rest.length : M ε σ (SoundVec T) Unit)
            (front a (free i ++ live rest ++ (free j ++ live b ++ free k)) d) st =
            (.ok (), front a (free i ++ free rest.length ++ (free j ++ live b ++ free k)) (d ++ rest),
              st) := dropSlice_run hi rfl
        simp only [free_add, List.append_assoc] at hrun ⊢
        exact hrun
      apply (ite_run_neg hpos).trans
      apply (bind_run (onVec_run hdrop)).trans
      exact hguard _ rfl

theorem keepRest_run :
    (keepRest e : M ε σ (Drain T) Unit) (held a b i rest j k d) st =
      (.ok (), ⟨front (a ++ rest ++ b) (free (i+j+k)) d, a.length+i+rest.length+j, b.length,
        a.length+i, a.length+i+rest.length⟩, st) := by
  have hleft : a.length+i+rest.length-(a.length+i) = rest.length := Nat.add_sub_cancel_left ..
  rw [keepRest]
  apply get_run.trans
  rw [show (held a b i rest j k d).iterEnd-(held a b i rest j k d).iterStart = rest.length from hleft]
  by_cases he : e.size = 0
  · apply (ite_run_pos he).trans
    exact onVec_run (change_run (gather_run rfl))
  · have hrest : (moveBack (a.length+i) a.length rest.length : M ε σ (Drain T) Unit)
        (held a b i rest j k d) st =
        (.ok (), { held a b i rest j k d with
          vec := front a ([] ++ live rest ++ free i ++ (free j ++ live b ++ free k)) d }, st) := by
      apply moveBack_run _ _ rfl
      · rw [held, List.nil_append, List.append_assoc, List.append_assoc]
        simp only [List.append_assoc]
      · rw [List.append_nil, length_live]
    have htail : ∀ s : Drain T,
        s.vec = front a ([] ++ live rest ++ free i ++ (free j ++ live b ++ free k)) d →
        (moveBack (a.length+i+rest.length+j) (a.length+rest.length) b.length :
          M ε σ (Drain T) Unit) s st =
        (.ok (), { s with vec := front a (live rest ++ live b ++ free (i+j) ++ free k) d }, st) := by
      intro s hs
      rw [show a.length+i+rest.length+j = a.length+rest.length+(i+j) by omega]
      apply moveBack_run _ _ rfl
      · rw [hs]
        simp only [free_add, List.nil_append, List.append_assoc]
      · rw [List.length_append, length_live, length_live]
    have hlen : lenStep (a.length+rest.length+b.length)
        (front a (live rest ++ live b ++ free (i+j) ++ free k) d).1 =
        some ((), (front (a ++ rest ++ b) (free (i+j+k)) d).1) := by
      apply lenStep_run
      · simp only [live_append, free_add, List.append_assoc]
      · rw [List.length_append, List.length_append]
    apply (ite_run_neg he).trans
    apply (bind_run hrest).trans
    apply (bind_run (htail _ rfl)).trans
    exact onVec_run (change_run hlen)

end Leaving

/-! ## Any order of the calls -/

section Order

variable {a b d l : List T} {start stop k n : ℕ} {st : σ}

/-- `n` slots are between the elements `a` and the tail, and the iterator is over `rest`. -/
def Between (a b : List T) (n k : ℕ) (d : List T) (s : Drain T) (rest : List T) : Prop :=
  ∃ i j, s = held a b i rest j k d ∧ i+rest.length+j = n

theorem holds_between : Holds (returned next) (returned nextBack) (Between a b n k d) where
  next_nil s hs := by
    obtain ⟨i, j, rfl, hn⟩ := hs
    exact ⟨_, returned_run next_nil, i, j, rfl, hn⟩
  next_cons s x rest hs := by
    obtain ⟨i, j, rfl, hn⟩ := hs
    rw [List.length_cons] at hn
    exact ⟨_, returned_run next_cons, i+1, j, rfl, by omega⟩
  back_nil s hs := by
    obtain ⟨i, j, rfl, hn⟩ := hs
    exact ⟨_, returned_run nextBack_nil, i, j, rfl, hn⟩
  back_concat s x rest hs := by
    obtain ⟨i, j, rfl, hn⟩ := hs
    rw [List.length_append, List.length_singleton] at hn
    exact ⟨_, returned_run nextBack_concat, i, j+1, rfl, by omega⟩

def middle (l : List T) (start stop : ℕ) : List T := (l.drop start).take (stop-start)

theorem take_middle_drop (h : start ≤ stop) :
    l.take start ++ middle l start stop ++ l.drop stop = l := by
  have hstop : l.drop stop = (l.drop start).drop (stop-start) := by
    rw [List.drop_drop, Nat.add_sub_cancel' h]
  rw [middle, hstop, List.append_assoc, List.take_append_drop, List.take_append_drop]

theorem length_middle (h : start ≤ stop ∧ stop ≤ l.length) :
    (middle l start stop).length = stop-start := by
  rw [middle, List.length_take, List.length_drop]
  omega

theorem drain_run {rangeError : ε} (h : start ≤ stop ∧ stop ≤ l.length) :
    (drain rangeError start stop : M ε σ (SoundVec T) (Drain T)) (front l (free k) d) st =
      (.ok (held (l.take start) (l.drop stop) 0 (middle l start stop) 0 k d),
        front (l.take start) (live (middle l start stop) ++ live (l.drop stop) ++ free k) d, st) := by
  have htake : (l.take start).length = start := List.length_take_of_le (h.1.trans h.2)
  have hlen : lenStep start (front l (free k) d).1 = some ((),
      (front (l.take start) (live (middle l start stop) ++ live (l.drop stop) ++ free k) d).1) := by
    apply lenStep_run _ htake
    rw [← List.append_assoc, ← List.append_assoc, ← live_append, ← live_append,
      take_middle_drop h.1]
  have hheld : held (l.take start) (l.drop stop) 0 (middle l start stop) 0 k d =
      ⟨front (l.take start) (live (middle l start stop) ++ live (l.drop stop) ++ free k) d, stop,
        l.length-stop, start, stop⟩ := by
    rw [held, length_middle h, htake, List.length_drop, free_zero, List.nil_append,
      List.append_nil, Nat.add_zero, Nat.add_zero, Nat.add_sub_cancel' h.1]
  rw [drain]
  apply get_run.trans
  apply (ite_run_pos h).trans
  apply (bind_run (change_run hlen)).trans
  rw [hheld]
  rfl

theorem drive_held (ends : List End) (hn : l.length = n) :
    ∃ fs bs rest i j, drive (returned next) (returned nextBack) ends (held a b 0 l 0 k d) =
        some (fs, bs, held a b i rest j k d) ∧ l = fs ++ rest ++ bs.reverse ∧
      rest.length = n-ends.length ∧ i+rest.length+j = n := by
  have hs : Between a b n k d (held a b 0 l 0 k d) l := ⟨0, 0, rfl, by omega⟩
  obtain ⟨fs, bs, s, rest, hd, ⟨i, j, rfl, hij⟩, hl, hr⟩ := drive_rest holds_between ends _ l hs
  exact ⟨fs, bs, rest, i, j, hd, hl, hn ▸ hr, hij⟩

end Order

end Drain

end RustStd.Vec
