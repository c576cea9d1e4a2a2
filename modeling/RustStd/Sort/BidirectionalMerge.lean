import RustStd.Sort.InsertionSort

/-!
# `bidirectional_merge`

Two sorted halves are merged from both ends at once, and every step is taken
whatever the callback answers. What has been written is described by the list
of the positions it came from. If the two ends do not meet in the end, the
function unwinds; otherwise every position was used exactly once.
-/

set_option autoImplicit false

namespace RustStd.Sort
open RustStd.Unwind RustStd.WeakOrder

variable {σ T : Type}

/-- Read through a pointer that runs backwards. Such pointers can step in front
of the slice, so they are kept one past their target. -/
def atRev {S : Type} (v : List T) : ℕ → SortM σ S T
  | 0 => exit .outOfBounds
  | i+1 => at? v i

def writeRev (x : T) : ℕ → SortM σ (List T) Unit
  | 0 => exit .outOfBounds
  | i+1 => write i x

def mergeUp (o : Oracle σ T) (src : List T) (left right dst : ℕ) : SortM σ (List T) (ℕ × ℕ × ℕ) := do
  let l ← at? src left
  let r ← at? src right
  if ← less o r l then do
    write dst r
    return (left, right+1, dst+1)
  else do
    write dst l
    return (left+1, right, dst+1)

def mergeDown (o : Oracle σ T) (src : List T) (left right dst : ℕ) :
    SortM σ (List T) (ℕ × ℕ × ℕ) := do
  let l ← atRev src left
  let r ← atRev src right
  if ← less o r l then do
    writeRev l dst
    return (left-1, right, dst-1)
  else do
    writeRev r dst
    return (left, right-1, dst-1)

def mergeRounds (o : Oracle σ T) (src : List T) :
    ℕ → ℕ × ℕ × ℕ → ℕ × ℕ × ℕ → SortM σ (List T) ((ℕ × ℕ × ℕ) × ℕ × ℕ × ℕ)
  | 0, up, down => pure (up, down)
  | n+1, up, down => do
    let up ← mergeUp o src up.1 up.2.1 up.2.2
    let down ← mergeDown o src down.1 down.2.1 down.2.2
    mergeRounds o src n up down

/-- The one element that an odd length leaves over. -/
def mergeLast (src : List T) (left right dst leftEnd : ℕ) : SortM σ (List T) (ℕ × ℕ) :=
  if src.length%2 ≠ 0 then
    if left < leftEnd then do
      write dst (← at? src left)
      return (left+1, right)
    else do
      write dst (← at? src right)
      return (left, right+1)
  else pure (left, right)

def bidirectionalMerge (o : Oracle σ T) (src : List T) : SortM σ (List T) Unit := do
  let len := src.length
  let lenDiv2 := len/2
  if lenDiv2 = 0 then exit .outOfBounds
  else do
    let ((left, right, dst), (leftEnd, rightEnd, _)) ←
      mergeRounds o src lenDiv2 (0, lenDiv2, 0) (lenDiv2, len, len)
    let (left, right) ← mergeLast src left right dst leftEnd
    if left ≠ leftEnd ∨ right ≠ rightEnd then exit (.unwind .ordViolation)

/-- The positions taken from the front of both halves. -/
structure Front (half len : ℕ) (is : List ℕ) (l r : ℕ) : Prop where
  perm : is.Perm (List.range' 0 l ++ List.range' half r)
  left_le : l ≤ half
  right_le : half+r ≤ len

/-- The positions taken from the back of both halves. -/
structure Back (half len : ℕ) (is : List ℕ) (l r : ℕ) : Prop where
  perm : is.Perm (List.range' l (half-l) ++ List.range' r (len-r))
  left_le : l ≤ half
  le_right : half ≤ r
  right_le : r ≤ len

section Positions

variable {half len l r : ℕ} {is : List ℕ}

theorem Front.mem (h : Front half len is l r) (i : ℕ) :
    i ∈ is ↔ i < l ∨ (half ≤ i ∧ i < half+r) := by
  rw [h.perm.mem_iff, List.mem_append, List.mem_range'_1, List.mem_range'_1]
  lia

theorem Front.length (h : Front half len is l r) : is.length = l+r := by
  rw [h.perm.length_eq]
  simp

theorem Back.mem (h : Back half len is l r) (i : ℕ) :
    i ∈ is ↔ (l ≤ i ∧ i < half) ∨ (r ≤ i ∧ i < len) := by
  have h1 := h.left_le
  have h2 := h.right_le
  rw [h.perm.mem_iff, List.mem_append, List.mem_range'_1, List.mem_range'_1]
  lia

theorem Back.length (h : Back half len is l r) : is.length = (half-l)+(len-r) := by
  rw [h.perm.length_eq]
  simp

theorem Front.take_left (h : Front half len is l r) (hl : l < half) :
    Front half len (is ++ [l]) (l+1) r := by
  refine ⟨?_, hl, h.right_le⟩
  rw [List.range'_concat, Nat.one_mul, Nat.zero_add]
  refine (h.perm.append_right [l]).trans ?_
  rw [List.append_assoc, List.append_assoc]
  exact List.Perm.append_left _ List.perm_append_comm

theorem Front.take_right (h : Front half len is l r) (hr : half+r < len) :
    Front half len (is ++ [half+r]) l (r+1) := by
  refine ⟨?_, h.left_le, hr⟩
  rw [List.range'_concat (n := r), Nat.one_mul, ← List.append_assoc]
  exact h.perm.append_right _

theorem Back.take_left (h : Back half len is (l+1) r) : Back half len (l :: is) l r := by
  have h1 := h.left_le
  refine ⟨?_, by lia, h.le_right, h.right_le⟩
  rw [show half-l = half-(l+1)+1 by lia, List.range'_succ, List.cons_append]
  exact h.perm.cons l

theorem Back.take_right (h : Back half len is l (r+1)) (hr : half ≤ r) :
    Back half len (r :: is) l r := by
  have h1 := h.right_le
  refine ⟨?_, h.left_le, hr, by lia⟩
  rw [show len-r = len-(r+1)+1 by lia, List.range'_succ]
  exact (h.perm.cons r).trans List.perm_middle.symm

theorem front_back_perm {is' : List ℕ} (h : Front half len is l r)
    (h' : Back half len is' l (half+r)) : (is ++ is').Perm (List.range len) := by
  have h1 := h.left_le
  have h2 := h.right_le
  have hl : List.range' 0 l ++ List.range' l (half-l) = List.range' 0 half := by
    rw [show half = l+(half-l) by lia, ← List.range'_append_1, Nat.zero_add,
      show l+(half-l)-l = half-l by lia]
  have hr : List.range' half r ++ List.range' (half+r) (len-(half+r)) =
      List.range' half (len-half) := by
    rw [show len-half = r+(len-(half+r)) by lia, ← List.range'_append_1]
  have hall : List.range' 0 half ++ List.range' half (len-half) = List.range len := by
    rw [List.range_eq_range', show len = half+(len-half) by lia, ← List.range'_append_1,
      Nat.zero_add, show half+(len-half)-half = len-half by lia]
  rw [← hall, ← hl, ← hr]
  refine (h.perm.append h'.perm).trans ?_
  rw [List.append_assoc, List.append_assoc]
  refine List.Perm.append_left _ ?_
  rw [← List.append_assoc, ← List.append_assoc]
  exact List.perm_append_comm.append_right _

end Positions

def Low (f : T → T → Bool) (g : ℕ → T) (len : ℕ) (is : List ℕ) : Prop :=
  is.Pairwise (Before f g) ∧ ∀ i ∈ is, ∀ j < len, j ∉ is → Before f g i j

def High (f : T → T → Bool) (g : ℕ → T) (len : ℕ) (is : List ℕ) : Prop :=
  is.Pairwise (Before f g) ∧ ∀ i ∈ is, ∀ j < len, j ∉ is → Before f g j i

def HalvesSorted (f : T → T → Bool) (g : ℕ → T) (half len : ℕ) : Prop :=
  ∀ i j, i < j → j < half ∨ (half ≤ i ∧ j < len) → f (g j) (g i) = false

section Order

variable {f : T → T → Bool} {g : ℕ → T} {half len l r : ℕ} {is is' : List ℕ}

theorem Low.concat (h : Low f g len is) {m : ℕ} (hm : m < len) (hnot : m ∉ is)
    (hmin : ∀ j < len, j ∉ is → j ≠ m → Before f g m j) : Low f g len (is ++ [m]) := by
  refine ⟨?_, fun i hi j hj hnj => ?_⟩
  · rw [List.pairwise_append]
    refine ⟨h.1, by simp, fun i hi j hj => ?_⟩
    obtain rfl : j = m := by simpa using hj
    exact h.2 i hi j hm hnot
  · rw [List.mem_append, List.mem_singleton, not_or] at hnj
    rcases List.mem_append.mp hi with hi | hi
    · exact h.2 i hi j hj hnj.1
    · obtain rfl : i = m := by simpa using hi
      exact hmin j hj hnj.1 hnj.2

theorem High.cons (h : High f g len is) {m : ℕ} (hm : m < len) (hnot : m ∉ is)
    (hmax : ∀ j < len, j ∉ is → j ≠ m → Before f g j m) : High f g len (m :: is) := by
  refine ⟨List.pairwise_cons.mpr ⟨fun i hi => h.2 i hi m hm hnot, h.1⟩, fun i hi j hj hnj => ?_⟩
  rw [List.mem_cons, not_or] at hnj
  rcases List.mem_cons.mp hi with rfl | hi
  · exact hmax j hj hnj.2 hnj.1
  · exact h.2 i hi j hj hnj.2

variable (hf : Weak f) (hs : HalvesSorted f g half len)
include hf hs

theorem Front.min_left (h : Front half len is l r)
    (hle : f (g (half+r)) (g l) = false) (j : ℕ) (hj : j < len) (hnj : j ∉ is) (hne : j ≠ l) :
    Before f g l j := by
  rw [h.mem] at hnj
  rcases Nat.lt_or_ge j half with hjh | hjh
  · exact .inr ⟨hs l j (by lia) (.inl hjh), by lia⟩
  · refine .inr ⟨?_, by lia⟩
    rcases Nat.eq_or_lt_of_le (show half+r ≤ j by lia) with rfl | hlt
    · exact hle
    · exact hf.le_trans hle (hs _ j hlt (.inr ⟨by lia, hj⟩))

theorem Front.min_right (h : Front half len is l r)
    (hlt : f (g (half+r)) (g l) = true) (j : ℕ) (hj : j < len) (hnj : j ∉ is)
    (hne : j ≠ half+r) : Before f g (half+r) j := by
  rw [h.mem] at hnj
  rcases Nat.lt_or_ge j half with hjh | hjh
  · refine .inl ?_
    rcases Nat.eq_or_lt_of_le (show l ≤ j by lia) with rfl | hlj
    · exact hlt
    · exact hf.lt_of_lt_of_le hlt (hs l j hlj (.inl hjh))
  · exact .inr ⟨hs _ j (by lia) (.inr ⟨by lia, hj⟩), by lia⟩

theorem Back.max_left (h : Back half len is (l+1) (r+1)) (hr : half ≤ r)
    (hlt : f (g r) (g l) = true) (j : ℕ) (hj : j < len) (hnj : j ∉ is) (hne : j ≠ l) :
    Before f g j l := by
  have h1 := h.left_le
  have h2 := h.right_le
  rw [h.mem] at hnj
  rcases Nat.lt_or_ge j half with hjh | hjh
  · exact .inr ⟨hs j l (by lia) (.inl (by lia)), by lia⟩
  · refine .inl ?_
    rcases Nat.eq_or_lt_of_le (show j ≤ r by lia) with rfl | hjr
    · exact hlt
    · exact hf.lt_of_le_of_lt (hs j r hjr (.inr ⟨hjh, by lia⟩)) hlt

theorem Back.max_right (h : Back half len is (l+1) (r+1)) (hr : half ≤ r)
    (hle : f (g r) (g l) = false) (j : ℕ) (hj : j < len) (hnj : j ∉ is) (hne : j ≠ r) :
    Before f g j r := by
  have h1 := h.left_le
  have h2 := h.right_le
  rw [h.mem] at hnj
  rcases Nat.lt_or_ge j half with hjh | hjh
  · refine .inr ⟨?_, by lia⟩
    rcases Nat.eq_or_lt_of_le (show j ≤ l by lia) with rfl | hjl
    · exact hle
    · exact hf.le_trans (hs j l hjl (.inl (by lia))) hle
  · exact .inr ⟨hs j r (by lia) (.inr ⟨hjh, by lia⟩), by lia⟩

omit hs in
theorem ends_disjoint {l' r' : ℕ} (hlow : Low f g len is) (hhigh : High f g len is')
    (h : Front half len is l r) (h' : Back half len is' l' r') (hlen : is.length = is'.length)
    (h2 : 2*is.length ≤ len) (hhalf : is.length = half) : l ≤ l' ∧ half+r ≤ r' := by
  have hc := h.length
  have hc' := h'.length
  have h3 := h.left_le
  have h4 := h'.left_le
  have h5 := h'.right_le
  have h6 := h'.le_right
  have h7 := h.right_le
  have hno (j k : ℕ) (hk : k < len) (hj : j ∈ is) (hj' : j ∈ is') (hk1 : k ∉ is) (hk2 : k ∉ is') :
      False :=
    Before.irrefl hf j ((hlow.2 j hj k hk hk1).trans hf (hhigh.2 j hj' k hk hk2))
  constructor
  · by_contra hlt
    refine hno l' (half+r) (by lia) ?_ ?_ ?_ ?_
    · rw [h.mem]; lia
    · rw [h'.mem]; lia
    · rw [h.mem]; lia
    · rw [h'.mem]; lia
  · by_contra hlt
    refine hno r' l (by lia) ?_ ?_ ?_ ?_
    · rw [h.mem]; lia
    · rw [h'.mem]; lia
    · rw [h.mem]; lia
    · rw [h'.mem]; lia

end Order

section Merge

variable {L : Prop} {o : Oracle σ T} {f : T → T → Bool} {g : ℕ → T} {src : List T}
  {half l r : ℕ} {is : List ℕ} (hL : L → Answers o f) (hf : L → Weak f)
  (hg : ∀ i < src.length, src[i]? = some (g i)) (hs : L → HalvesSorted f g half src.length)
include hL hf hg hs

theorem mergeUp_sat {x : T} {w : List T} (h : Front half src.length is l r) (hl : l < half)
    (hr : half+r < src.length) (hlow : L → Low f g src.length is) :
    Sat L (mergeUp o src l (half+r) is.length) (is.map g ++ x :: w)
      (fun p v => ∃ m l' r', p = (l', half+r', is.length+1) ∧ v = (is ++ [m]).map g ++ w ∧
        Front half src.length (is ++ [m]) l' r' ∧ (L → Low f g src.length (is ++ [m])))
      fun v => v = is.map g ++ x :: w := by
  refine .bind (sat_at (hg l (by lia)) (.bind (sat_at (hg _ hr) (.bind ?_))))
  refine sat_less hL rfl fun b hb => ?_
  have hset (y : T) : (is.map g ++ x :: w).set is.length y = is.map g ++ y :: w := by
    simp
  cases b with
  | true =>
    refine .bind (sat_write (by simp) (sat_pure ⟨half+r, l, r+1, rfl, ?_, h.take_right hr, ?_⟩))
    · rw [hset]
      simp
    · intro hl'
      refine (hlow hl').concat hr (by rw [h.mem]; lia) ?_
      exact h.min_right (hf hl') (hs hl') (hb hl').symm
  | false =>
    refine .bind (sat_write (by simp) (sat_pure ⟨l, l+1, r, rfl, ?_, h.take_left hl, ?_⟩))
    · rw [hset]
      simp
    · intro hl'
      refine (hlow hl').concat (by lia) (by rw [h.mem]; lia) ?_
      exact h.min_left (hf hl') (hs hl') (hb hl').symm

theorem mergeDown_sat {x : T} {w tail : List T} (h : Back half src.length is (l+1) (r+1))
    (hr : half ≤ r) (hhigh : L → High f g src.length is) :
    Sat L (mergeDown o src (l+1) (r+1) (w.length+1)) (w ++ x :: (is.map g ++ tail))
      (fun p v => ∃ m l' r', p = (l', r', w.length) ∧ v = w ++ ((m :: is).map g ++ tail) ∧
        Back half src.length (m :: is) l' r' ∧ (L → High f g src.length (m :: is)))
      fun v => v = w ++ x :: (is.map g ++ tail) := by
  have h1 := h.left_le
  have h2 := h.right_le
  refine .bind (sat_at (hg l (by lia)) (.bind (sat_at (hg r (by lia)) (.bind ?_))))
  refine sat_less hL rfl fun b hb => ?_
  have hset (y : T) : (w ++ x :: (is.map g ++ tail)).set w.length y =
      w ++ y :: (is.map g ++ tail) := by
    simp
  cases b with
  | true =>
    have hback : Back half src.length (l :: is) l (r+1) := h.take_left
    refine .bind (sat_write (by simp) (sat_pure ⟨l, l, r+1, rfl, ?_, hback, ?_⟩))
    · rw [hset]
      simp
    · intro hl'
      refine (hhigh hl').cons (by lia) (by rw [h.mem]; lia) ?_
      exact h.max_left (hf hl') (hs hl') hr (hb hl').symm
  | false =>
    refine .bind (sat_write (by simp) (sat_pure ⟨r, l+1, r, rfl, ?_, h.take_right hr, ?_⟩))
    · rw [hset]
      simp
    · intro hl'
      refine (hhigh hl').cons (by lia) (by rw [h.mem]; lia) ?_
      exact h.max_right (hf hl') (hs hl') hr (hb hl').symm

/-- What the rounds leave behind: both ends of the output and the old middle. -/
def Merged (L : Prop) (f : T → T → Bool) (g : ℕ → T) (half len : ℕ) (tail : List T)
    (p : (ℕ × ℕ × ℕ) × ℕ × ℕ × ℕ) (v : List T) : Prop :=
  ∃ is is' mid l r l' r', p = ((l, half+r, half), (l', r', len-half)) ∧
    v = is.map g ++ mid ++ (is'.map g ++ tail) ∧ mid.length+2*half = len ∧
    is.length = half ∧ is'.length = half ∧ Front half len is l r ∧ Back half len is' l' r' ∧
    (L → Low f g len is ∧ High f g len is')

theorem mergeRounds_sat (n : ℕ) (is is' : List ℕ) (mid tail : List T) {l r l' r' : ℕ}
    (hlen : 2*half ≤ src.length) (hmid : mid.length+2*is.length = src.length)
    (hn : is.length+n = half) (hn' : is'.length = is.length)
    (h : Front half src.length is l r) (h' : Back half src.length is' l' r')
    (hlaw : L → Low f g src.length is ∧ High f g src.length is') :
    Sat L (mergeRounds o src n (l, half+r, is.length) (l', r', src.length-is.length))
      (is.map g ++ mid ++ (is'.map g ++ tail))
      (Merged L f g half src.length tail)
      fun v => ∃ w, v = w ++ tail ∧ w.length = src.length := by
  induction n generalizing is is' mid l r l' r' with
  | zero =>
    obtain rfl : is.length = half := by lia
    exact sat_pure ⟨is, is', mid, l, r, l', r', rfl, rfl, hmid, rfl, hn', h, h', hlaw⟩
  | succ n ih =>
    have hc := h.length
    have hc' := h'.length
    have h1 := h'.left_le
    have h2 := h'.right_le
    have h3 := h'.le_right
    obtain ⟨x, w, y, rfl⟩ : ∃ x w y, mid = x :: (w ++ [y]) := by
      obtain ⟨x, m, rfl⟩ := List.exists_cons_of_length_pos (show 0 < mid.length by lia)
      rw [List.length_cons] at hmid
      obtain ⟨w, y, rfl⟩ := (List.eq_nil_or_concat m).resolve_left (by
        rintro rfl
        rw [List.length_nil] at hmid
        lia)
      exact ⟨x, w, y, by simp⟩
    simp only [List.length_cons, List.length_append, List.length_nil] at hmid
    have hsplit : is.map g ++ x :: (w ++ [y]) ++ (is'.map g ++ tail) =
        is.map g ++ x :: (w ++ y :: (is'.map g ++ tail)) := by simp
    rw [hsplit]
    refine (mergeUp_sat hL hf hg hs h (by lia) (by lia) fun hl => (hlaw hl).1).call ?_ ?_
    · rintro p v ⟨m, l1, r1, rfl, rfl, hfront, hlow⟩
      obtain ⟨l2, rfl⟩ : ∃ l2, l' = l2+1 := ⟨l'-1, by lia⟩
      obtain ⟨r2, rfl⟩ : ∃ r2, r' = r2+1 := ⟨r'-1, by lia⟩
      have hpos : src.length-is.length = ((is ++ [m]).map g ++ w).length+1 := by
        simp
        lia
      simp only [hpos]
      rw [show (is ++ [m]).map g ++ (w ++ y :: (is'.map g ++ tail)) =
        (is ++ [m]).map g ++ w ++ y :: (is'.map g ++ tail) by simp]
      refine (mergeDown_sat hL hf hg hs h' (by lia) fun hl => (hlaw hl).2).call ?_ ?_
      · rintro p v ⟨m', l3, r3, rfl, rfl, hback, hhigh⟩
        have := ih (is ++ [m]) (m' :: is') w (by simp; lia) (by simp; lia)
          (by simp [hn']) hfront hback fun hl => ⟨hlow hl, hhigh hl⟩
        have hpos' : ((is ++ [m]).map g ++ w).length = src.length-(is ++ [m]).length := by
          simp
          lia
        simpa only [hpos', List.length_append, List.length_singleton] using this
      · rintro v - rfl
        exact ⟨(is ++ [m]).map g ++ w ++ y :: is'.map g, by simp, by simp; lia⟩
    · rintro v - rfl
      exact ⟨is.map g ++ x :: (w ++ y :: is'.map g), by simp, by simp; lia⟩

end Merge

section Result

variable {f : T → T → Bool} {g : ℕ → T} {src : List T}

theorem exists_positions (hsrc : src ≠ []) : ∃ g : ℕ → T, ∀ i < src.length, src[i]? = some (g i) := by
  obtain ⟨x, l, rfl⟩ := List.exists_cons_of_ne_nil hsrc
  refine ⟨fun i => (x :: l).getD i x, fun i hi => ?_⟩
  simp only [List.getElem?_eq_getElem hi, List.getD_eq_getElem _ _ hi]

variable (hg : ∀ i < src.length, src[i]? = some (g i))
include hg

theorem map_positions : (List.range src.length).map g = src := by
  apply List.ext_getElem?
  intro i
  rcases Nat.lt_or_ge i src.length with hi | hi
  · rw [hg i hi, List.getElem?_map, List.getElem?_range hi, Option.map_some]
  · rw [List.getElem?_eq_none hi, List.getElem?_eq_none (by simpa using hi)]

theorem halvesSorted {half : ℕ} (hhalf : half ≤ src.length) (h1 : Sorted f (src.take half))
    (h2 : Sorted f (src.drop half)) : HalvesSorted f g half src.length := by
  have hget {i : ℕ} (hi : i < src.length) : src[i] = g i := by
    rw [← Option.some.injEq, ← List.getElem?_eq_getElem, hg i hi]
  intro i j hij hcase
  have hj : j < src.length := by lia
  rcases hcase with hjh | ⟨hih, -⟩
  · have := List.pairwise_iff_getElem.mp h1 i j (by simp; lia) (by simp; lia) hij
    simpa only [List.getElem_take, hget] using this
  · have := List.pairwise_iff_getElem.mp h2 (i-half) (j-half) (by simp; lia) (by simp; lia)
      (by lia)
    simpa only [List.getElem_drop, hget, show half+(i-half) = i by lia,
      show half+(j-half) = j by lia] using this

theorem merged_result {L : Prop} (hf : L → Weak f) {js : List ℕ}
    (hp : js.Perm (List.range src.length)) (hb : L → js.Pairwise (Before f g)) :
    SortOf L f src (js.map g) := by
  have hsrc := map_positions hg
  refine ⟨?_, fun hl => ?_⟩
  · have := hp.map g
    rwa [hsrc] at this
  · have := stable_of_before (hf hl) hp (hb hl)
    rwa [hsrc] at this

end Result

theorem pairwise_low_high {f : T → T → Bool} {g : ℕ → T} {len : ℕ} {is is' : List ℕ}
    (mid : List ℕ) (hlow : Low f g len is) (hhigh : High f g len is')
    (hmid : mid.Pairwise (Before f g)) (hm : ∀ j ∈ mid, j < len ∧ j ∉ is ∧ j ∉ is')
    (hdisj : ∀ j ∈ is', j < len ∧ j ∉ is) :
    (is ++ mid ++ is').Pairwise (Before f g) := by
  rw [List.append_assoc, List.pairwise_append, List.pairwise_append]
  refine ⟨hlow.1, ⟨hmid, hhigh.1, fun i hi j hj => ?_⟩, fun i hi j hj => ?_⟩
  · exact hhigh.2 j hj i (hm i hi).1 (hm i hi).2.2
  · rcases List.mem_append.mp hj with hj | hj
    · exact hlow.2 i hi j (hm j hj).1 (hm j hj).2.1
    · exact hlow.2 i hi j (hdisj j hj).1 (hdisj j hj).2

/-- The two ends meet around `mid`. -/
theorem meet_ordered {f : T → T → Bool} {g : ℕ → T} {half len l r : ℕ} {is is' mid : List ℕ}
    (hF : Front half len (is ++ mid) l r) (hB : Back half len is' l (half+r))
    (hlow : Low f g len is) (hhigh : High f g len is') (hmid : mid.Pairwise (Before f g))
    (hnot : ∀ j ∈ mid, j ∉ is) : (is ++ mid ++ is').Pairwise (Before f g) := by
  have h1 := hB.left_le
  have h2 := hF.right_le
  refine pairwise_low_high mid hlow hhigh hmid (fun j hj => ?_) fun j hj => ?_
  · have hm := (hF.mem j).mp (List.mem_append_right is hj)
    refine ⟨by lia, hnot j hj, ?_⟩
    rw [hB.mem]
    lia
  · rw [hB.mem] at hj
    refine ⟨by lia, fun hi => ?_⟩
    have hm := (hF.mem j).mp (List.mem_append_left mid hi)
    lia

theorem ordCheck_sat {L : Prop} {f : T → T → Bool} (hf : L → Weak f) {g : ℕ → T}
    {src tail : List T} (hg : ∀ i < src.length, src[i]? = some (g i)) {js : List ℕ}
    {l l' r r' : ℕ} (hjs : js.length = src.length) (hok : L → l = l' ∧ r = r')
    (hend : l = l' → r = r' → js.Perm (List.range src.length) ∧ (L → js.Pairwise (Before f g))) :
    Sat L (if l ≠ l' ∨ r ≠ r' then exit (.unwind .ordViolation) else pure () :
        SortM σ (List T) Unit) (js.map g ++ tail)
      (fun _ v' => ∃ out, v' = out ++ tail ∧ SortOf L f src out)
      fun v' => ∃ out, v' = out ++ tail ∧ out.length = src.length := by
  by_cases hne : l ≠ l' ∨ r ≠ r'
  · rw [if_pos hne]
    refine sat_unwind (fun hl => ?_) ⟨js.map g, rfl, by simpa using hjs⟩
    have := hok hl
    lia
  · rw [if_neg hne]
    push Not at hne
    obtain ⟨hperm, hbefore⟩ := hend hne.1 hne.2
    exact sat_pure ⟨js.map g, rfl, merged_result hg hf hperm hbefore⟩

theorem bidirectionalMerge_sat {L : Prop} {o : Oracle σ T} {f : T → T → Bool}
    (hL : L → Answers o f) (hf : L → Weak f) {src v : List T} (hlen : 2 ≤ src.length)
    (hv : src.length ≤ v.length)
    (hs : L → Sorted f (src.take (src.length/2)) ∧ Sorted f (src.drop (src.length/2))) :
    Sat L (bidirectionalMerge o src) v
      (fun _ v' => ∃ out, v' = out ++ v.drop src.length ∧ SortOf L f src out)
      fun v' => ∃ out, v' = out ++ v.drop src.length ∧ out.length = src.length := by
  obtain ⟨g, hg⟩ := exists_positions (show src ≠ [] by rintro rfl; simp at hlen)
  have hhalves : L → HalvesSorted f g (src.length/2) src.length := fun hl =>
    halvesSorted hg (by lia) (hs hl).1 (hs hl).2
  unfold bidirectionalMerge
  rw [if_neg (by lia)]
  have hfront : Front (src.length/2) src.length [] 0 0 := ⟨by simp, by lia, by lia⟩
  have hback : Back (src.length/2) src.length [] (src.length/2) src.length :=
    ⟨by simp, le_rfl, by lia, le_rfl⟩
  have hrounds := mergeRounds_sat hL hf hg hhalves (src.length/2) [] [] (v.take src.length)
    (v.drop src.length) (by lia) (by simpa using hv) (by simp)
    rfl hfront hback fun _ => ⟨⟨.nil, by simp⟩, ⟨.nil, by simp⟩⟩
  simp only [List.map_nil, List.nil_append, List.take_append_drop, List.length_nil, Nat.add_zero,
    Nat.sub_zero] at hrounds
  refine hrounds.call ?_ fun v' _ h => h
  rintro p v' ⟨is, is', mid, l, r, l', r', rfl, rfl, hmid, hil, hil', hF, hB, hlaw⟩
  have hc := hF.length
  have hc' := hB.length
  have h1 := hB.left_le
  have h2 := hB.le_right
  have h3 := hB.right_le
  have hmeet : L → l ≤ l' ∧ src.length/2+r ≤ r' := fun hl =>
    ends_disjoint (hf hl) (hlaw hl).1 (hlaw hl).2 hF hB (hil.trans hil'.symm) (by lia) hil
  unfold mergeLast
  by_cases hodd : src.length%2 ≠ 0
  · obtain ⟨x, rfl⟩ := List.length_eq_one_iff.mp (show mid.length = 1 by lia)
    have hset (m : ℕ) : (is.map g ++ [x] ++ (is'.map g ++ v.drop src.length)).set (src.length/2)
        (g m) = (is ++ [m] ++ is').map g ++ v.drop src.length := by
      simp [← hil]
    have hin : src.length/2 < (is.map g ++ [x] ++ (is'.map g ++ v.drop src.length)).length := by
      simp
      lia
    by_cases hlt : l < l'
    · simp only [if_pos hodd, if_pos hlt]
      refine .bind (.bind (sat_at (hg l (by lia)) (.bind (sat_write hin (sat_pure ?_)))))
      rw [hset]
      refine ordCheck_sat hf hg (by simp; lia) (fun hl => ?_) ?_
      · have := hmeet hl
        lia
      · rintro rfl rfl
        have hF' := hF.take_left (by lia)
        exact ⟨front_back_perm hF' hB, fun hl => meet_ordered hF' hB (hlaw hl).1 (hlaw hl).2
          (by simp) (by simp [hF.mem]; lia)⟩
    · simp only [if_pos hodd, if_neg hlt]
      have hr : src.length/2+r < src.length := by lia
      refine .bind (.bind (sat_at (hg _ hr) (.bind (sat_write hin (sat_pure ?_)))))
      rw [hset]
      refine ordCheck_sat hf hg (by simp; lia) (fun hl => ?_) ?_
      · have := hmeet hl
        lia
      · rintro rfl rfl
        have hF' := hF.take_right hr
        exact ⟨front_back_perm hF' hB, fun hl => meet_ordered hF' hB (hlaw hl).1 (hlaw hl).2
          (by simp) (by simp [hF.mem]; lia)⟩
  · obtain rfl := List.length_eq_zero_iff.mp (show mid.length = 0 by lia)
    simp only [if_neg hodd]
    refine .bind (sat_pure ?_)
    have hnil : is.map g ++ [] ++ (is'.map g ++ v.drop src.length) =
        (is ++ [] ++ is').map g ++ v.drop src.length := by simp
    rw [hnil]
    refine ordCheck_sat hf hg (by simp; lia) (fun hl => ?_) ?_
    · have := hmeet hl
      lia
    · rintro rfl rfl
      have hF' : Front (src.length/2) src.length (is ++ []) l r := by rwa [List.append_nil]
      exact ⟨front_back_perm hF' hB, fun hl => meet_ordered hF' hB (hlaw hl).1 (hlaw hl).2
        (by simp) (by simp)⟩

/-- Whatever the callback answers, the accesses stay inside both slices and a normal
return has moved every element once. A lawful one gives the stable merge. -/
theorem bidirectionalMerge_merges (o : Oracle σ T) (src v : List T) (hlen : 2 ≤ src.length)
    (hv : src.length ≤ v.length) (st : σ) :
    (∃ r out st', bidirectionalMerge o src v st = (r, out ++ v.drop src.length, st') ∧
      out.length = src.length ∧ (r = .ok () ∧ out.Perm src ∨ ∃ e, r = .error (.unwind e))) ∧
    ∀ f, Weak f → Answers o f → Sorted f (src.take (src.length/2)) →
      Sorted f (src.drop (src.length/2)) →
      ∃ st', bidirectionalMerge o src v st = (.ok (),
        (src.take (src.length/2)).merge (src.drop (src.length/2)) (fun a b => !f b a) ++
          v.drop src.length, st') := by
  constructor
  · have h := bidirectionalMerge_sat (o := o) (f := fun _ _ => false) False.elim False.elim hlen hv
      False.elim st
    rcases hr : bidirectionalMerge o src v st with ⟨(e | _ | _ | _) | _, v', st'⟩
    · rw [hr] at h
      obtain ⟨-, out, rfl, hout⟩ := h
      exact ⟨_, out, st', rfl, hout, .inr ⟨e, rfl⟩⟩
    · rw [hr] at h
      exact h.elim
    · rw [hr] at h
      exact h.elim
    · rw [hr] at h
      exact h.elim
    · rw [hr] at h
      obtain ⟨out, rfl, hout⟩ := h
      exact ⟨_, out, st', rfl, hout.length, .inl ⟨rfl, hout.1⟩⟩
  · intro f hf ho hl hr
    obtain ⟨⟨⟩, v', st', hrun, out, rfl, hout⟩ :=
      (bidirectionalMerge_sat (fun _ => ho) (fun _ => hf) hlen hv fun _ => ⟨hl, hr⟩).returns
        trivial st
    have hstable : Stable f ((src.take (src.length/2)).merge (src.drop (src.length/2))
        fun a b => !f b a) out := by
      have hmerge := stable_merge hf hl (src.drop (src.length/2))
      rw [List.take_append_drop] at hmerge
      exact hmerge.symm.trans (hout.2 trivial).2
    have heq := stable_sorted_unique hf hstable (sorted_merge hf hl hr) (hout.2 trivial).1
    exact ⟨st', by rw [hrun, heq]⟩

theorem bidirectionalMerge_merges_five :
    ∃ st', bidirectionalMerge (fun st (a b : ℕ × ℕ) => (some (decide (a.1 < b.1)), st+1))
        [(1, 0), (3, 0), (0, 1), (3, 1), (4, 1)] (.replicate 6 (7, 7)) 0 =
      (.ok (), [(0, 1), (1, 0), (3, 0), (3, 1), (4, 1), (7, 7)], st') := by
  have hf : IsStrictWeakOrder (ℕ × ℕ) fun a b => decide (a.1 < b.1) = true :=
    { irrefl := fun a => by simp
      trans := fun a b c hab hbc => by
        simp only [decide_eq_true_eq] at *
        lia
      incomp_trans := fun a b c hab hbc => by
        simp only [decide_eq_true_eq] at *
        lia }
  have h := bidirectionalMerge_merges (fun st (a b : ℕ × ℕ) => (some (decide (a.1 < b.1)), st+1))
    [(1, 0), (3, 0), (0, 1), (3, 1), (4, 1)] (.replicate 6 (7, 7)) (by decide) (by decide) 0
  simpa using h.2 (fun a b => decide (a.1 < b.1)) hf (fun _ _ _ => rfl) (by simp [Sorted])
    (by simp [Sorted])

end RustStd.Sort
