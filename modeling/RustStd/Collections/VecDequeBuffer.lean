import RustStd.Lib.Machine
import RustStd.Lib.Outcome

/-!
# The ring buffer of `VecDeque`

The buffer is a function from offsets to elements; a slot that was never
written holds nothing. Copies are stated of every slot at once. `wrap_copy` has
seven layouts, and in each of them it copies the elements one by one in the ring.
-/

set_option autoImplicit false

namespace RustStd.VecDeque
open RustStd.Machine RustStd.Outcome

variable {T : Type}

/-- Elements take up space, and then a buffer holds at most `maxCap` of them, or they
do not, and then there is only one value. -/
inductive Elem (T : Type)
  | sized (maxCap : ℕ) (le : maxCap ≤ isizeMax)
  | zeroSized (value : Option T) (unique : ∀ y, value = some y)

/-- `T::IS_ZST`. -/
def Elem.isZst : Elem T → Bool
  | .sized .. => false
  | .zeroSized .. => true

structure Deque (T : Type) where
  head : ℕ
  len : ℕ
  cap : ℕ
  slot : ℕ → Option T

abbrev M (T : Type) := Outcome (Deque T)

variable (e : Elem T)

def capacity (self : Deque T) : ℕ := if e.isZst then usizeMax else self.cap

def wrapIndex (logicalIndex capacity : ℕ) : ℕ :=
  if logicalIndex ≥ capacity then logicalIndex-capacity else logicalIndex

def wrapAdd (self : Deque T) (idx addend : ℕ) : ℕ :=
  wrapIndex ((idx+addend)%2^64) (capacity e self)

def toPhysicalIdx (self : Deque T) (idx : ℕ) : ℕ := wrapAdd e self self.head idx

def wrapSub (self : Deque T) (idx subtrahend : ℕ) : ℕ :=
  wrapIndex ((wrappingSub idx subtrahend+capacity e self)%2^64) (capacity e self)

/-- `ptr::read(self.ptr().add(off))`. -/
def bufferRead (self : Deque T) (off : ℕ) : M T T := do
  require (off < capacity e self)
  match e with
  | .sized .. => ofOption (self.slot off)
  | .zeroSized value _ => ofOption value

def writeSlots (slot : ℕ → Option T) (dst : ℕ) (src : List T) : ℕ → Option T := fun j =>
  if dst ≤ j ∧ j < dst+src.length then src[j-dst]? else slot j

/-- `ptr::copy_nonoverlapping` from a slice outside the buffer. -/
def writeSlice (self : Deque T) (dst : ℕ) (src : List T) : M T (Deque T) := do
  require (dst+src.length ≤ capacity e self)
  return if e.isZst then self else { self with slot := writeSlots self.slot dst src }

def bufferWrite (self : Deque T) (off : ℕ) (value : T) : M T (Deque T) :=
  writeSlice e self off [value]

def copySlots (slot : ℕ → Option T) (src dst len : ℕ) : ℕ → Option T := fun j =>
  if dst ≤ j ∧ j < dst+len then slot (src+(j-dst)) else slot j

def copy (self : Deque T) (src dst len : ℕ) : M T (Deque T) := do
  require (dst+len ≤ capacity e self)
  require (src+len ≤ capacity e self)
  return if e.isZst then self else { self with slot := copySlots self.slot src dst len }

def copyNonoverlapping (self : Deque T) (src dst len : ℕ) : M T (Deque T) := do
  require (src+len ≤ dst ∨ dst+len ≤ src)
  copy e self src dst len

def wrapCopy (self : Deque T) (src dst len : ℕ) : M T (Deque T) :=
  if e.isZst || src == dst || len == 0 then .ok self
  else
    let dstAfterSrc := decide (wrapSub e self dst src < len)
    let srcPreWrapLen := capacity e self-src
    let dstPreWrapLen := capacity e self-dst
    let srcWraps := decide (srcPreWrapLen < len)
    let dstWraps := decide (dstPreWrapLen < len)
    match dstAfterSrc, srcWraps, dstWraps with
    | _, false, false => copy e self src dst len
    | false, false, true => do
      let self ← copy e self src dst dstPreWrapLen
      copy e self (src+dstPreWrapLen) 0 (len-dstPreWrapLen)
    | true, false, true => do
      let self ← copy e self (src+dstPreWrapLen) 0 (len-dstPreWrapLen)
      copy e self src dst dstPreWrapLen
    | false, true, false => do
      let self ← copy e self src dst srcPreWrapLen
      copy e self 0 (dst+srcPreWrapLen) (len-srcPreWrapLen)
    | true, true, false => do
      let self ← copy e self 0 (dst+srcPreWrapLen) (len-srcPreWrapLen)
      copy e self src dst srcPreWrapLen
    | false, true, true => do
      let delta := dstPreWrapLen-srcPreWrapLen
      let self ← copy e self src dst srcPreWrapLen
      let self ← copy e self 0 (dst+srcPreWrapLen) delta
      copy e self delta 0 (len-dstPreWrapLen)
    | true, true, true => do
      let delta := srcPreWrapLen-dstPreWrapLen
      let self ← copy e self 0 delta (len-srcPreWrapLen)
      let self ← copy e self (capacity e self-delta) 0 delta
      copy e self src dst dstPreWrapLen

/-- The distance from `j` to `i` in a ring. -/
def ringDist (cap i j : ℕ) : ℕ := if j ≤ i then i-j else i+cap-j

/-- The slots after a copy of `len` elements in the ring. -/
def ringCopy (cap : ℕ) (slot : ℕ → Option T) (src dst len : ℕ) : ℕ → Option T := fun j =>
  if ringDist cap j dst < len then slot (wrapIndex (src+ringDist cap j dst) cap) else slot j

section Sized

variable {maxCap : ℕ} {hmax : maxCap ≤ isizeMax}

@[simp] theorem capacity_sized (self : Deque T) :
    capacity (.sized maxCap hmax) self = self.cap := by
  simp [capacity, Elem.isZst]

theorem wrapAdd_sized {self : Deque T} {idx addend : ℕ} (h : idx+addend < 2^64) :
    wrapAdd (.sized maxCap hmax) self idx addend = wrapIndex (idx+addend) self.cap := by
  rw [wrapAdd, Nat.mod_eq_of_lt h, capacity_sized]

theorem wrapSub_sized {self : Deque T} {idx subtrahend : ℕ} (hs : subtrahend ≤ idx+self.cap)
    (h : idx+self.cap < 2^64) (hlt : subtrahend < 2^64) :
    wrapSub (.sized maxCap hmax) self idx subtrahend =
      wrapIndex (idx+self.cap-subtrahend) self.cap := by
  rw [wrapSub, capacity_sized, wrappingSub, Nat.mod_eq_of_lt hlt, Nat.mod_add_mod]
  congr 1
  lia

theorem copy_sized {self : Deque T} {src dst len : ℕ} (hd : dst+len ≤ self.cap)
    (hs : src+len ≤ self.cap) :
    copy (.sized maxCap hmax) self src dst len =
      .ok { self with slot := copySlots self.slot src dst len } := by
  simp [copy, require, hd, hs, Elem.isZst]

theorem copyNonoverlapping_sized {self : Deque T} {src dst len : ℕ} (hd : dst+len ≤ self.cap)
    (hs : src+len ≤ self.cap) (hdis : src+len ≤ dst ∨ dst+len ≤ src) :
    copyNonoverlapping (.sized maxCap hmax) self src dst len =
      .ok { self with slot := copySlots self.slot src dst len } := by
  simp [copyNonoverlapping, require, hdis, copy_sized hd hs]

/-- The regions overlap at one end at most. -/
def Apart (cap src dst len : ℕ) : Prop :=
  min (max src dst-min src dst) (cap-(max src dst-min src dst))+len ≤ cap

theorem copySlots_in {slot : ℕ → Option T} {src dst len j : ℕ} (h : dst ≤ j ∧ j < dst+len) :
    copySlots slot src dst len j = slot (src+(j-dst)) := if_pos h

theorem copySlots_out {slot : ℕ → Option T} {src dst len j : ℕ} (h : j < dst ∨ dst+len ≤ j) :
    copySlots slot src dst len j = slot j := if_neg (by lia)

section Layouts

variable {cap src dst len : ℕ} {slot : ℕ → Option T} {j : ℕ}

theorem ringCopy_behind (h : dst ≤ j) (hlen : j-dst < len) {i : ℕ}
    (hi : wrapIndex (src+(j-dst)) cap = i) : ringCopy cap slot src dst len j = slot i := by
  rw [ringCopy, ringDist, if_pos h, if_pos hlen, hi]

theorem ringCopy_ahead (h : j < dst) (hlen : j+cap-dst < len) {i : ℕ}
    (hi : wrapIndex (src+(j+cap-dst)) cap = i) : ringCopy cap slot src dst len j = slot i := by
  rw [ringCopy, ringDist, if_neg (show ¬ dst ≤ j by lia), if_pos hlen, hi]

theorem ringCopy_kept (h : len ≤ ringDist cap j dst) : ringCopy cap slot src dst len j = slot j :=
  if_neg (by lia)

theorem wrapIndex_straight {i : ℕ} (h : i < cap) : wrapIndex i cap = i := if_neg (by lia)

theorem wrapIndex_turned {i : ℕ} (h : cap ≤ i) : wrapIndex i cap = i-cap := if_pos h

theorem ringDist_behind (h : dst ≤ j) : ringDist cap j dst = j-dst := if_pos h

theorem ringDist_ahead (h : j < dst) : ringDist cap j dst = j+cap-dst := if_neg (by lia)

theorem copy_straight (hsw : src+len ≤ cap) (hdw : dst+len ≤ cap) :
    copySlots slot src dst len j = ringCopy cap slot src dst len j := by
  by_cases hlow : j < dst
  · rw [copySlots_out (.inl hlow), ringCopy_kept (by rw [ringDist_ahead hlow]; lia)]
  by_cases hhigh : dst+len ≤ j
  · rw [copySlots_out (.inr hhigh), ringCopy_kept (by rw [ringDist_behind (by lia)]; lia)]
  · rw [copySlots_in (by lia),
      ringCopy_behind (by lia) (by lia) (wrapIndex_straight (by lia))]

theorem copy_dst_wraps_before (hj : j < cap) (hd : dst < cap) (hdw : cap < dst+len)
    (hbef : src+len ≤ dst) :
    copySlots (copySlots slot src dst (cap-dst)) (src+(cap-dst)) 0 (len-(cap-dst)) j =
      ringCopy cap slot src dst len j := by
  by_cases hlow : j < len-(cap-dst)
  · rw [copySlots_in (by lia), copySlots_out (by lia),
      ringCopy_ahead (by lia) (by lia) (wrapIndex_straight (by lia))]
    congr 1
    lia
  rw [copySlots_out (by lia)]
  by_cases hhigh : dst ≤ j
  · rw [copySlots_in (by lia),
      ringCopy_behind (by lia) (by lia) (wrapIndex_straight (by lia))]
  · rw [copySlots_out (by lia), ringCopy_kept (by rw [ringDist_ahead (by lia)]; lia)]

theorem copy_dst_wraps_after (hj : j < cap) (hd : dst < cap) (hsw : src+len ≤ cap)
    (hdw : cap < dst+len) (hlt : src < dst) (hap : dst-src+len ≤ cap) :
    copySlots (copySlots slot (src+(cap-dst)) 0 (len-(cap-dst))) src dst (cap-dst) j =
      ringCopy cap slot src dst len j := by
  by_cases hhigh : dst ≤ j
  · rw [copySlots_in (by lia), copySlots_out (by lia),
      ringCopy_behind (by lia) (by lia) (wrapIndex_straight (by lia))]
  rw [copySlots_out (by lia)]
  by_cases hlow : j < len-(cap-dst)
  · rw [copySlots_in (by lia),
      ringCopy_ahead (by lia) (by lia) (wrapIndex_straight (by lia))]
    congr 1
    lia
  · rw [copySlots_out (by lia), ringCopy_kept (by rw [ringDist_ahead (by lia)]; lia)]

theorem copy_src_wraps_before (hs : src < cap) (hsw : cap < src+len)
    (hdw : dst+len ≤ cap) (hbef : src+len ≤ dst+cap) :
    copySlots (copySlots slot src dst (cap-src)) 0 (dst+(cap-src)) (len-(cap-src)) j =
      ringCopy cap slot src dst len j := by
  by_cases hlow : j < dst
  · rw [copySlots_out (by lia), copySlots_out (by lia),
      ringCopy_kept (by rw [ringDist_ahead hlow]; lia)]
  by_cases hhigh : dst+len ≤ j
  · rw [copySlots_out (by lia), copySlots_out (by lia),
      ringCopy_kept (by rw [ringDist_behind (by lia)]; lia)]
  by_cases hturn : j < dst+(cap-src)
  · rw [copySlots_out (by lia), copySlots_in (by lia),
      ringCopy_behind (by lia) (by lia) (wrapIndex_straight (by lia))]
  · rw [copySlots_in (by lia), copySlots_out (by lia),
      ringCopy_behind (by lia) (by lia) (wrapIndex_turned (by lia))]
    congr 1
    lia

theorem copy_src_wraps_after (hs : src < cap) (hsw : cap < src+len)
    (hap : dst+len ≤ src) :
    copySlots (copySlots slot 0 (dst+(cap-src)) (len-(cap-src))) src dst (cap-src) j =
      ringCopy cap slot src dst len j := by
  by_cases hlow : j < dst
  · rw [copySlots_out (by lia), copySlots_out (by lia),
      ringCopy_kept (by rw [ringDist_ahead hlow]; lia)]
  by_cases hhigh : dst+len ≤ j
  · rw [copySlots_out (by lia), copySlots_out (by lia),
      ringCopy_kept (by rw [ringDist_behind (by lia)]; lia)]
  by_cases hturn : j < dst+(cap-src)
  · rw [copySlots_in (by lia), copySlots_out (by lia),
      ringCopy_behind (by lia) (by lia) (wrapIndex_straight (by lia))]
  · rw [copySlots_out (by lia), copySlots_in (by lia),
      ringCopy_behind (by lia) (by lia) (wrapIndex_turned (by lia))]
    congr 1
    lia

theorem copy_both_wrap_before (hj : j < cap) (hs : src < cap)
    (hdw : cap < dst+len) (hlt : dst < src) (hbef : src+len ≤ dst+cap) :
    copySlots (copySlots (copySlots slot src dst (cap-src)) 0 (dst+(cap-src))
      (cap-dst-(cap-src))) (cap-dst-(cap-src)) 0 (len-(cap-dst)) j =
      ringCopy cap slot src dst len j := by
  by_cases hlow : j < len-(cap-dst)
  · rw [copySlots_in (by lia), copySlots_out (by lia), copySlots_out (by lia),
      ringCopy_ahead (by lia) (by lia) (wrapIndex_turned (by lia))]
    congr 1
    lia
  rw [copySlots_out (by lia)]
  by_cases hkept : j < dst
  · rw [copySlots_out (by lia), copySlots_out (by lia),
      ringCopy_kept (by rw [ringDist_ahead hkept]; lia)]
  by_cases hturn : j < dst+(cap-src)
  · rw [copySlots_out (by lia), copySlots_in (by lia),
      ringCopy_behind (by lia) (by lia) (wrapIndex_straight (by lia))]
  · rw [copySlots_in (by lia), copySlots_out (by lia),
      ringCopy_behind (by lia) (by lia) (wrapIndex_turned (by lia))]
    congr 1
    lia

theorem copy_both_wrap_after (hj : j < cap) (hd : dst < cap) (hl : len ≤ cap)
    (hsw : cap < src+len) (hlt : src < dst) (hap : dst-src+len ≤ cap) :
    copySlots (copySlots (copySlots slot 0 (cap-src-(cap-dst)) (len-(cap-src)))
      (cap-(cap-src-(cap-dst))) 0 (cap-src-(cap-dst))) src dst (cap-dst) j =
      ringCopy cap slot src dst len j := by
  by_cases hhigh : dst ≤ j
  · rw [copySlots_in (by lia), copySlots_out (by lia), copySlots_out (by lia),
      ringCopy_behind (by lia) (by lia) (wrapIndex_straight (by lia))]
  rw [copySlots_out (by lia)]
  by_cases hlow : j < dst-src
  · rw [copySlots_in (by lia), copySlots_out (by lia),
      ringCopy_ahead (by lia) (by lia) (wrapIndex_straight (by lia))]
    congr 1
    lia
  rw [copySlots_out (by lia)]
  by_cases hturn : j+cap-dst < len
  · rw [copySlots_in (by lia),
      ringCopy_ahead (by lia) (by lia) (wrapIndex_turned (by lia))]
    congr 1
    lia
  · rw [copySlots_out (by lia), ringCopy_kept (by rw [ringDist_ahead (by lia)]; lia)]

theorem after_cases (hne : src ≠ dst) (hap : Apart cap src dst len) (hs : src < cap)
    (haft : wrapIndex (dst+cap-src) cap < len) :
    src < dst ∧ dst-src+len ≤ cap ∨ dst < src ∧ dst+len ≤ src := by
  unfold Apart at hap
  by_cases hlt : src < dst
  · rw [wrapIndex_turned (by lia)] at haft
    left
    lia
  · rw [wrapIndex_straight (by lia)] at haft
    right
    lia

theorem before_cases (hne : src ≠ dst) (hs : src < cap)
    (hbef : len ≤ wrapIndex (dst+cap-src) cap) :
    src < dst ∧ src+len ≤ dst ∨ dst < src ∧ src+len ≤ dst+cap := by
  by_cases hlt : src < dst
  · rw [wrapIndex_turned (by lia)] at hbef
    left
    lia
  · rw [wrapIndex_straight (by lia)] at hbef
    right
    lia

theorem ringDist_wrapIndex {cap dst i : ℕ} (hd : dst < cap) (hi : i < cap) :
    ringDist cap (wrapIndex (dst+i) cap) dst = i := by
  unfold ringDist wrapIndex
  split_ifs <;> lia

theorem wrapIndex_ringDist {cap dst j : ℕ} (hd : dst < cap) (hj : j < cap) :
    wrapIndex (dst+ringDist cap j dst) cap = j := by
  unfold ringDist wrapIndex
  split_ifs <;> lia

theorem wrapIndex_lt {h i cap : ℕ} (hh : h < cap) (hi : i ≤ cap) : wrapIndex (h+i) cap < cap := by
  unfold wrapIndex
  split_ifs <;> lia

end Layouts

variable (hmax) in
/-- In every layout `wrap_copy` copies in the ring. -/
theorem wrapCopy_sized {self : Deque T} {src dst len : ℕ} (hcap : self.cap ≤ isizeMax)
    (hs : src < self.cap) (hd : dst < self.cap) (hl : len ≤ self.cap)
    (hap : Apart self.cap src dst len) :
    ∃ slot, wrapCopy (.sized maxCap hmax) self src dst len = .ok { self with slot } ∧
      ∀ j < self.cap, slot j = ringCopy self.cap self.slot src dst len j := by
  unfold isizeMax at hcap
  unfold wrapCopy
  rw [wrapSub_sized (by lia) (by lia) (by lia)]
  by_cases hnop : src = dst ∨ len = 0
  · refine ⟨self.slot, by rcases hnop with h | h <;> simp [h], fun j hj => ?_⟩
    rcases hnop with rfl | rfl
    · unfold ringCopy ringDist wrapIndex
      split_ifs <;> first | rfl | (congr 1; lia)
    · rw [ringCopy_kept (Nat.zero_le _)]
  obtain ⟨hne, hlen⟩ := not_or.mp hnop
  simp only [Elem.isZst, Bool.false_or, beq_iff_eq, Bool.or_eq_true, hne, hlen, or_self,
    if_false, capacity_sized]
  by_cases haft : wrapIndex (dst+self.cap-src) self.cap < len
  · have hside := after_cases hne hap hs haft
    by_cases hsw : self.cap-src < len
    · by_cases hdw : self.cap-dst < len
      · obtain ⟨hlt, hroom⟩ : src < dst ∧ dst-src+len ≤ self.cap := by lia
        simp only [hsw, hdw, haft, decide_true]
        rw [copy_sized (by lia) (by lia), ok_bind, copy_sized (by simp; lia) (by simp; lia),
          ok_bind, copy_sized (by simp; lia) (by simp; lia)]
        exact ⟨_, rfl, fun j hj => copy_both_wrap_after hj hd hl (by lia) hlt hroom⟩
      · simp only [hsw, hdw, haft, decide_true, decide_false]
        rw [copy_sized (by lia) (by lia), ok_bind, copy_sized (by simp; lia) (by simp; lia)]
        exact ⟨_, rfl, fun j hj => copy_src_wraps_after hs (by lia) (by lia)⟩
    · by_cases hdw : self.cap-dst < len
      · simp only [hsw, hdw, haft, decide_true, decide_false]
        rw [copy_sized (by lia) (by lia), ok_bind, copy_sized (by simp; lia) (by simp; lia)]
        exact ⟨_, rfl, fun j hj =>
          copy_dst_wraps_after hj hd (by lia) (by lia) (by lia) (by lia)⟩
      · simp only [hsw, hdw, decide_false]
        rw [copy_sized (by lia) (by lia)]
        exact ⟨_, rfl, fun j hj => copy_straight (by lia) (by lia)⟩
  · have hside := before_cases hne hs (not_lt.mp haft)
    by_cases hsw : self.cap-src < len
    · by_cases hdw : self.cap-dst < len
      · obtain ⟨hlt, hroom⟩ : dst < src ∧ src+len ≤ dst+self.cap := by lia
        simp only [hsw, hdw, haft, decide_true, decide_false]
        rw [copy_sized (by lia) (by lia), ok_bind, copy_sized (by simp; lia) (by simp; lia),
          ok_bind, copy_sized (by simp; lia) (by simp; lia)]
        exact ⟨_, rfl, fun j hj => copy_both_wrap_before hj hs (by lia) hlt hroom⟩
      · simp only [hsw, hdw, haft, decide_true, decide_false]
        rw [copy_sized (by lia) (by lia), ok_bind, copy_sized (by simp; lia) (by simp; lia)]
        exact ⟨_, rfl, fun j hj =>
          copy_src_wraps_before hs (by lia) (by lia) (by lia)⟩
    · by_cases hdw : self.cap-dst < len
      · simp only [hsw, hdw, haft, decide_true, decide_false]
        rw [copy_sized (by lia) (by lia), ok_bind, copy_sized (by simp; lia) (by simp; lia)]
        exact ⟨_, rfl, fun j hj => copy_dst_wraps_before hj hd (by lia) (by lia)⟩
      · simp only [hsw, hdw, decide_false]
        rw [copy_sized (by lia) (by lia)]
        exact ⟨_, rfl, fun j hj => copy_straight (by lia) (by lia)⟩

theorem ringCopy_logical {cap h a b len i : ℕ} {slot : ℕ → Option T} (hh : h < cap) (hb : b < cap)
    (hi : i < cap) :
    ringCopy cap slot (wrapIndex (h+a) cap) (wrapIndex (h+b) cap) len (wrapIndex (h+i) cap) =
      if ringDist cap i b < len then slot (wrapIndex (h+wrapIndex (a+ringDist cap i b) cap) cap)
      else slot (wrapIndex (h+i) cap) := by
  have hdist : ringDist cap (wrapIndex (h+i) cap) (wrapIndex (h+b) cap) = ringDist cap i b := by
    unfold ringDist wrapIndex
    split_ifs <;> lia
  rw [ringCopy, hdist]
  have hlt : ringDist cap i b < cap := by
    unfold ringDist
    split_ifs <;> lia
  generalize ringDist cap i b = t at hlt
  congr 2
  unfold wrapIndex
  split_ifs <;> lia

end Sized

/-- The elements move in the ring all at once, and no copy leaves the buffer. -/
theorem wrapCopy_moves (self : Deque T) (src dst len : ℕ) (hcap : self.cap ≤ isizeMax)
    (hin : 0 < capacity e self → src < capacity e self ∧ dst < capacity e self)
    (hap : Apart (capacity e self) src dst len) :
    ∃ slot, wrapCopy e self src dst len = .ok { self with slot } ∧
      (∀ i < len, bufferRead e { self with slot } (wrapAdd e self dst i) =
        bufferRead e self (wrapAdd e self src i)) ∧
      ∀ j, (∀ i < len, wrapAdd e self dst i ≠ j) →
        bufferRead e { self with slot } j = bufferRead e self j := by
  cases e with
  | zeroSized value unique =>
    have hlt (src i : ℕ) : wrapAdd (.zeroSized value unique) self src i < usizeMax := by
      simp only [wrapAdd, wrapIndex, capacity, Elem.isZst, usizeMax, if_true]
      split_ifs <;> lia
    refine ⟨self.slot, by simp [wrapCopy, Elem.isZst], fun i hi => ?_, fun j hj => rfl⟩
    simp [bufferRead, require, capacity, Elem.isZst, hlt]
  | sized maxCap hmax =>
    rw [capacity_sized] at hin hap
    rcases Nat.eq_zero_or_pos self.cap with hzero | hpos
    · obtain rfl : len = 0 := by
        unfold Apart at hap
        lia
      exact ⟨self.slot, by simp [wrapCopy], fun i hi => absurd hi (Nat.not_lt_zero i),
        fun j hj => rfl⟩
    obtain ⟨hs, hd⟩ := hin hpos
    have hlen : len ≤ self.cap := by
      unfold Apart at hap
      lia
    obtain ⟨slot, hrun, hslot⟩ := wrapCopy_sized hmax hcap hs hd hlen hap
    unfold isizeMax at hcap
    refine ⟨slot, hrun, fun i hi => ?_, fun j hj => ?_⟩
    · have hto : wrapIndex (dst+i) self.cap < self.cap := wrapIndex_lt hd (by lia)
      have hfrom : wrapIndex (src+i) self.cap < self.cap := wrapIndex_lt hs (by lia)
      have hmoved : slot (wrapIndex (dst+i) self.cap) = self.slot (wrapIndex (src+i) self.cap) := by
        rw [hslot _ hto, ringCopy, ringDist_wrapIndex hd (by lia), if_pos hi]
      rw [wrapAdd_sized (by lia), wrapAdd_sized (by lia)]
      simp [bufferRead, require, hto, hfrom, hmoved]
    · by_cases hlt : j < self.cap
      · have hfar : len ≤ ringDist self.cap j dst := by
          by_contra hnear
          apply hj (ringDist self.cap j dst) (not_le.mp hnear)
          rw [wrapAdd_sized (by lia), wrapIndex_ringDist hd hlt]
        simp [bufferRead, require, hlt, hslot j hlt, ringCopy_kept hfar]
      · simp only [bufferRead, require, capacity_sized, if_neg hlt]
        rfl

/-- Both regions wrap around. -/
theorem wrapCopy_moves_four :
    ∃ slot, wrapCopy (.sized 4 (by decide)) (⟨0, 0, 4, some⟩ : Deque ℕ) 2 3 3 =
        .ok ⟨0, 0, 4, slot⟩ ∧
      [3, 0, 1, 2].map (bufferRead (.sized 4 (by decide)) ⟨0, 0, 4, slot⟩) =
        [.ok 2, .ok 3, .ok 0, .ok 2] := by
  obtain ⟨slot, hrun, hin, hout⟩ := wrapCopy_moves (.sized 4 (by decide))
    (⟨0, 0, 4, some⟩ : Deque ℕ) 2 3 3 (by decide) (fun _ => by decide) (by unfold Apart; decide)
  refine ⟨slot, hrun, ?_⟩
  rw [List.map_cons, List.map_cons, List.map_cons, List.map_cons, List.map_nil]
  congr 1
  · exact hin 0 (by decide)
  congr 1
  · exact hin 1 (by decide)
  congr 1
  · exact hin 2 (by decide)
  congr 1
  exact hout 2 (by decide)

end RustStd.VecDeque
