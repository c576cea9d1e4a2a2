import RustStd.Lib.Machine
import RustStd.Lib.Loop
import RustStd.Lib.Checked

/-!
# `ptr_rotate`

The buffer is the list of its elements, `mid` is an index. A copy or a swap out
of bounds has no result. The last algorithm swaps blocks until one side is used
up; every swap leaves a smaller rotation with the same outcome.
-/

set_option autoImplicit false

namespace RustStd.Rotate
open RustStd.Loop

variable {T : Type}

def readBlock (v : List T) (src n : ℕ) : Option (List T) :=
  if src+n ≤ v.length then some ((v.drop src).take n) else none

def writeBlock (v : List T) (dst : ℕ) (block : List T) : Option (List T) :=
  if dst+block.length ≤ v.length then
    some (v.take dst++block++v.drop (dst+block.length))
  else none

def copy (v : List T) (src dst n : ℕ) : Option (List T) := do
  writeBlock v dst (← readBlock v src n)

def swapNonoverlapping (v : List T) (a b n : ℕ) : Option (List T) :=
  if a+n ≤ b then do
    let x ← readBlock v a n
    let y ← readBlock v b n
    writeBlock (← writeBlock v a y) b x
  else none

/-- `copy_nonoverlapping` to the stack buffer, which has space for `bufLen` elements. -/
def copyToBuf (bufLen : ℕ) (v : List T) (src n : ℕ) : Option (List T) :=
  if n ≤ bufLen then readBlock v src n else none

def ptrRotateMemmove (bufLen left mid right : ℕ) (v : List T) : Option (List T) := do
  let start ← Checked.sub mid left
  let dim := start+right
  if left ≤ right then
    let buf ← copyToBuf bufLen v start left
    let v ← copy v mid start right
    writeBlock v dim buf
  else
    let buf ← copyToBuf bufLen v mid right
    let v ← copy v start dim left
    writeBlock v start buf

structure Swaps (T : Type) where
  v : List T
  left : ℕ
  mid : ℕ
  right : ℕ

def swapLeftBody (s : Swaps T) : Option (Swaps T ⊕ Swaps T) := do
  let start ← Checked.sub s.mid s.right
  let v ← swapNonoverlapping s.v start s.mid s.right
  let left ← Checked.sub s.left s.right
  let s : Swaps T := ⟨v, left, start, s.right⟩
  return if s.left < s.right then .inr s else .inl s

def swapRightBody (s : Swaps T) : Option (Swaps T ⊕ Swaps T) := do
  let start ← Checked.sub s.mid s.left
  let v ← swapNonoverlapping s.v start s.mid s.left
  let right ← Checked.sub s.right s.left
  let s : Swaps T := ⟨v, s.left, s.mid+s.left, right⟩
  return if s.right < s.left then .inr s else .inl s

def swapLoop (fuel : ℕ) (s : Swaps T) : Option (Swaps T) :=
  if s.left ≥ s.right then loop swapLeftBody fuel s else loop swapRightBody fuel s

def swapBody (fuel : ℕ) (s : Swaps T) : Option (Swaps T ⊕ List T) := do
  let s ← swapLoop fuel s
  return if s.right = 0 ∨ s.left = 0 then .inr s.v else .inl s

def ptrRotateSwap (fuel left mid right : ℕ) (v : List T) : Option (List T) :=
  loop (swapBody fuel) fuel ⟨v, left, mid, right⟩

/-- The last `right` elements of the block around `mid` in front of its first `left`. -/
def rotated (v : List T) (left mid right : ℕ) : List T :=
  v.take (mid-left)++(v.drop mid).take right++(v.drop (mid-left)).take left++v.drop (mid+right)

section Blocks

variable {p a b c s : List T} {i j : ℕ}

theorem readBlock_append (hi : i = p.length) (hj : j = a.length) :
    readBlock (p++a++s) i j = some a := by
  subst hi hj
  simp [readBlock]

theorem writeBlock_append (hi : i = p.length) (h : a.length = b.length) :
    writeBlock (p++a++s) i b = some (p++b++s) := by
  subst hi
  simp [writeBlock, ← h]

theorem swapNonoverlapping_append (hi : i = p.length) (hj : j = p.length+a.length+b.length)
    (h : a.length = c.length) :
    swapNonoverlapping (p++a++b++c++s) i j a.length = some (p++c++b++a++s) := by
  have hle : i+a.length ≤ j := by lia
  have hfirst : readBlock (p++a++b++c++s) i a.length = some a := by
    have := readBlock_append (s := b++c++s) hi (rfl : a.length = a.length)
    simpa only [List.append_assoc] using this
  have hsecond : readBlock (p++a++b++c++s) j a.length = some c :=
    readBlock_append (by simp [hj]; lia) h
  have hfront : writeBlock (p++a++b++c++s) i c = some (p++c++b++c++s) := by
    have := writeBlock_append (s := b++c++s) hi h
    simpa only [List.append_assoc] using this
  have hback : writeBlock (p++c++b++c++s) j a = some (p++c++b++a++s) :=
    writeBlock_append (by simp [hj]; lia) h.symm
  rw [swapNonoverlapping, if_pos hle, hfirst, hsecond]
  simp only [some_bind]
  rw [hfront]
  exact hback

theorem rotated_append (hi : i = p.length+a.length) :
    rotated (p++a++b++s) a.length i b.length = p++b++a++s := by
  have hstart : i-a.length = p.length := by lia
  have hfront : (p++a++b++s).take p.length = p := by simp
  have hright : ((p++a++b++s).drop i).take b.length = b := by
    rw [List.append_assoc, List.drop_left' (by simp [hi]), List.take_left]
  have hleft : ((p++a++b++s).drop p.length).take a.length = a := by
    rw [List.append_assoc, List.append_assoc, List.drop_left, List.take_left]
  have hback : (p++a++b++s).drop (i+b.length) = s := List.drop_left' (by simp [hi, Nat.add_assoc])
  rw [rotated, hstart, hfront, hright, hleft, hback]

theorem exists_blocks {v : List T} {left mid right : ℕ} (hl : left ≤ mid)
    (hr : mid+right ≤ v.length) :
    ∃ p a b s : List T, v = p++a++b++s ∧ mid = p.length+a.length ∧ left = a.length ∧
      right = b.length := by
  refine ⟨v.take (mid-left), (v.drop (mid-left)).take left, (v.drop mid).take right,
    v.drop (mid+right), ?_, ?_, ?_, ?_⟩
  · rw [List.append_assoc, List.append_assoc, ← List.drop_drop, List.take_append_drop]
    have hmid : v.drop mid = (v.drop (mid-left)).drop left := by
      rw [List.drop_drop, Nat.sub_add_cancel hl]
    rw [hmid, List.take_append_drop, List.take_append_drop]
  · simp; lia
  · simp; lia
  · simp; lia

end Blocks

section Memmove

variable {bufLen left mid right fuel : ℕ} {v : List T}

theorem moveDown_append (p a b s : List T) :
    copy (p++a++b++s) (p.length+a.length) p.length b.length =
      some (p++b++(a++b).drop b.length++s) := by
  have hread : readBlock (p++a++b++s) (p.length+a.length) b.length = some b :=
    readBlock_append (by simp) rfl
  have hle : p.length+b.length ≤ (p++a++b++s).length := by simp; lia
  have hdrop : (p++a++b++s).drop (p.length+b.length) = (a++b).drop b.length++s := by
    simp [← List.drop_drop, List.drop_append]
  rw [copy, hread]
  simp only [some_bind]
  rw [writeBlock, if_pos hle, hdrop]
  simp

theorem moveUp_append (p a b s : List T) :
    copy (p++a++b++s) p.length (p.length+b.length) a.length =
      some (p++(a++b).take b.length++a++s) := by
  have hread : readBlock (p++a++b++s) p.length a.length = some a := by
    have := readBlock_append (s := b++s) (rfl : p.length = p.length) (rfl : a.length = a.length)
    simpa only [List.append_assoc] using this
  have hle : p.length+b.length+a.length ≤ (p++a++b++s).length := by simp; lia
  have htake : (p++a++b++s).take (p.length+b.length) = p++(a++b).take b.length := by
    simp [List.take_append]
  have hdrop : (p++a++b++s).drop (p.length+b.length+a.length) = s :=
    List.drop_left' (by simp; lia)
  rw [copy, hread]
  simp only [some_bind]
  rw [writeBlock, if_pos hle, htake, hdrop]

theorem ptrRotateMemmove_eq (hbuf : min left right ≤ bufLen) (hl : left ≤ mid)
    (hr : mid+right ≤ v.length) :
    ptrRotateMemmove bufLen left mid right v = some (rotated v left mid right) := by
  obtain ⟨p, a, b, s, rfl, rfl, rfl, rfl⟩ := exists_blocks hl hr
  have hstart : p.length+a.length-a.length = p.length := Nat.add_sub_cancel ..
  rw [rotated_append rfl, ptrRotateMemmove, Checked.sub_eq hl, hstart]
  by_cases hle : a.length ≤ b.length
  · have hbufa : copyToBuf bufLen (p++a++b++s) p.length a.length = some a := by
      have := readBlock_append (s := b++s) (rfl : p.length = p.length) (rfl : a.length = a.length)
      rw [copyToBuf, if_pos (by lia)]
      simpa only [List.append_assoc] using this
    have hback : writeBlock (p++b++(a++b).drop b.length++s) (p.length+b.length) a =
        some (p++b++a++s) := writeBlock_append (by simp) (by simp)
    simp only [some_bind]
    rw [if_pos hle, hbufa, some_bind, moveDown_append, some_bind, hback]
  · have hbufb : copyToBuf bufLen (p++a++b++s) (p.length+a.length) b.length = some b := by
      rw [copyToBuf, if_pos (by lia)]
      exact readBlock_append (by simp) rfl
    have hback : writeBlock (p++(a++b).take b.length++a++s) p.length b = some (p++b++a++s) := by
      have := writeBlock_append (p := p) (a := (a++b).take b.length) (b := b) (s := a++s) rfl
        (by simp)
      simpa only [List.append_assoc] using this
    simp only [some_bind]
    rw [if_neg hle, hbufb, some_bind, moveUp_append, some_bind, hback]

end Memmove

section Swaps

variable {fuel : ℕ}

/-- The block lies in the buffer and finishing its rotation gives `w`. -/
structure Swaps.Leads (w : List T) (s : Swaps T) : Prop where
  left_le : s.left ≤ s.mid
  right_le : s.mid+s.right ≤ s.v.length
  rotated : rotated s.v s.left s.mid s.right = w

theorem Swaps.Leads.of_zero {w : List T} {s : Swaps T} (h : s.Leads w)
    (hz : s.right = 0 ∨ s.left = 0) : s.v = w := by
  obtain ⟨v, left, mid, right⟩ := s
  obtain ⟨hl, hr, hw⟩ := h
  obtain ⟨p, a, b, s, rfl, hmid, rfl, rfl⟩ := exists_blocks hl hr
  rw [← hw, rotated_append hmid]
  rcases hz with hz | hz
  · simp [List.eq_nil_of_length_eq_zero hz]
  · simp [List.eq_nil_of_length_eq_zero hz]

theorem swapLeft_leads {w : List T} {s : Swaps T} (h : s.Leads w) (hle : s.right ≤ s.left) :
    ∃ v, swapNonoverlapping s.v (s.mid-s.right) s.mid s.right = some v ∧
      Swaps.Leads w ⟨v, s.left-s.right, s.mid-s.right, s.right⟩ := by
  obtain ⟨v, left, mid, right⟩ := s
  obtain ⟨hl, hr, hw⟩ := h
  dsimp only at *
  obtain ⟨p, x, c, s, rfl, rfl, rfl, rfl⟩ := exists_blocks hl hr
  obtain ⟨a, b, rfl, hb⟩ : ∃ a b : List T, x = a++b ∧ b.length = c.length :=
    ⟨x.take (x.length-c.length), x.drop (x.length-c.length), by simp, by simp; lia⟩
  have hmid : p.length+(a++b).length-c.length = (p++a).length := by simp; lia
  have hswap := swapNonoverlapping_append (p := p++a) (a := b) (b := []) (c := c) (s := s)
    (i := (p++a).length) (j := p.length+(a++b).length) rfl (by simp; lia) hb
  refine ⟨p++a++c++b++s, ?_, ?_⟩
  · rw [hmid, ← hb]
    simpa using hswap
  · have hleft : (a++b).length-c.length = a.length := by simp; lia
    have hrest := rotated_append (p := p) (a := a) (b := c) (s := b++s)
      (i := (p++a).length) (by simp)
    have hwhole := rotated_append (p := p) (a := a++b) (b := c) (s := s) rfl
    constructor
    · simp; lia
    · simp; lia
    · rw [hmid, hleft, ← hw, hwhole]
      simpa using hrest

theorem swapRight_leads {w : List T} {s : Swaps T} (h : s.Leads w) (hle : s.left ≤ s.right) :
    ∃ v, swapNonoverlapping s.v (s.mid-s.left) s.mid s.left = some v ∧
      Swaps.Leads w ⟨v, s.left, s.mid+s.left, s.right-s.left⟩ := by
  obtain ⟨v, left, mid, right⟩ := s
  obtain ⟨hl, hr, hw⟩ := h
  dsimp only at *
  obtain ⟨p, a, x, s, rfl, rfl, rfl, rfl⟩ := exists_blocks hl hr
  obtain ⟨b, c, rfl, hb⟩ : ∃ b c : List T, x = b++c ∧ a.length = b.length :=
    ⟨x.take a.length, x.drop a.length, by simp, by simp; lia⟩
  have hmid : p.length+a.length-a.length = p.length := Nat.add_sub_cancel ..
  have hswap := swapNonoverlapping_append (p := p) (a := a) (b := []) (c := b) (s := c++s)
    (i := p.length) (j := p.length+a.length) rfl rfl hb
  have hright : (b++c).length-a.length = c.length := by simp; lia
  have hrest := rotated_append (p := p++b) (a := a) (b := c) (s := s)
    (i := p.length+a.length+a.length) (by simp; lia)
  have hwhole := rotated_append (p := p) (a := a) (b := b++c) (s := s) rfl
  refine ⟨p++b++a++c++s, ?_, ?_⟩
  · rw [hmid]
    simpa using hswap
  · constructor
    · simp
    · simp; lia
    · rw [hright, ← hw, hwhole, hrest]
      simp

/-- The state inside the loops: a smaller rotation than at the start of the round. -/
structure Swaps.Shrinking (w : List T) (n : ℕ) (s : Swaps T) : Prop where
  leads : s.Leads w
  size_le : s.left+s.right ≤ n

theorem swapLeftBody_round {w : List T} {n : ℕ} {s : Swaps T}
    (h : s.Shrinking w n ∧ 0 < s.right ∧ s.right ≤ s.left) :
    ∃ r, swapLeftBody s = some r ∧ Round
      (fun s => s.Shrinking w n ∧ 0 < s.right ∧ s.right ≤ s.left) (fun s => s.left+s.right)
      (fun s' => s'.Leads w ∧ s'.left+s'.right < n) s r := by
  obtain ⟨⟨hs, hn⟩, hpos, hle⟩ := h
  obtain ⟨v, hv, hnext⟩ := swapLeft_leads hs hle
  have hmid : s.right ≤ s.mid := hle.trans hs.left_le
  have hstep : swapLeftBody s = some (if s.left-s.right < s.right then
      .inr ⟨v, s.left-s.right, s.mid-s.right, s.right⟩
      else .inl ⟨v, s.left-s.right, s.mid-s.right, s.right⟩) := by
    simp [swapLeftBody, Checked.sub_eq hmid, Checked.sub_eq hle, hv]
  refine ⟨_, hstep, ?_⟩
  split_ifs with hlt
  · exact ⟨hnext, by dsimp only; lia⟩
  · exact ⟨⟨⟨hnext, by dsimp only; lia⟩, hpos, by dsimp only; lia⟩, by dsimp only; lia⟩

theorem swapRightBody_round {w : List T} {n : ℕ} {s : Swaps T}
    (h : s.Shrinking w n ∧ 0 < s.left ∧ s.left ≤ s.right) :
    ∃ r, swapRightBody s = some r ∧ Round
      (fun s => s.Shrinking w n ∧ 0 < s.left ∧ s.left ≤ s.right) (fun s => s.left+s.right)
      (fun s' => s'.Leads w ∧ s'.left+s'.right < n) s r := by
  obtain ⟨⟨hs, hn⟩, hpos, hle⟩ := h
  obtain ⟨v, hv, hnext⟩ := swapRight_leads hs hle
  have hstep : swapRightBody s = some (if s.right-s.left < s.left then
      .inr ⟨v, s.left, s.mid+s.left, s.right-s.left⟩
      else .inl ⟨v, s.left, s.mid+s.left, s.right-s.left⟩) := by
    simp [swapRightBody, Checked.sub_eq hs.left_le, Checked.sub_eq hle, hv]
  refine ⟨_, hstep, ?_⟩
  split_ifs with hlt
  · exact ⟨hnext, by dsimp only; lia⟩
  · exact ⟨⟨⟨hnext, by dsimp only; lia⟩, hpos, by dsimp only; lia⟩, by dsimp only; lia⟩

theorem swapLoop_leads {w : List T} {s : Swaps T} (hs : s.Leads w) (hleft : 0 < s.left)
    (hright : 0 < s.right) (hfuel : s.left+s.right < fuel) :
    ∃ s', swapLoop fuel s = some s' ∧ s'.Leads w ∧ s'.left+s'.right < s.left+s.right := by
  unfold swapLoop
  split_ifs with hle
  · exact loop_total _ _ _ (fun s h => swapLeftBody_round h) fuel s
      ⟨⟨hs, le_rfl⟩, hright, hle⟩ hfuel
  · exact loop_total _ _ _ (fun s h => swapRightBody_round h) fuel s
      ⟨⟨hs, le_rfl⟩, hleft, by lia⟩ hfuel

theorem swapBody_round {w : List T} {s : Swaps T}
    (h : s.Leads w ∧ 0 < s.left ∧ 0 < s.right ∧ s.left+s.right < fuel) :
    ∃ r, swapBody fuel s = some r ∧ Round
      (fun s => s.Leads w ∧ 0 < s.left ∧ 0 < s.right ∧ s.left+s.right < fuel)
      (fun s => s.left+s.right) (fun v => v = w) s r := by
  obtain ⟨hs, hleft, hright, hfuel⟩ := h
  obtain ⟨s', hs', hnext, hlt⟩ := swapLoop_leads hs hleft hright hfuel
  have hstep : swapBody fuel s =
      some (if s'.right = 0 ∨ s'.left = 0 then .inr s'.v else .inl s') := by
    simp [swapBody, hs']
  refine ⟨_, hstep, ?_⟩
  split_ifs with hz
  · exact hnext.of_zero hz
  · exact ⟨⟨hnext, by lia, by lia, by lia⟩, hlt⟩

theorem ptrRotateSwap_eq {left mid right : ℕ} {v : List T} (hl : left ≤ mid)
    (hr : mid+right ≤ v.length) (hleft : 0 < left) (hright : 0 < right)
    (hfuel : left+right < fuel) :
    ptrRotateSwap fuel left mid right v = some (rotated v left mid right) := by
  obtain ⟨w, hw, rfl⟩ := loop_total _ _ _ (fun s h => swapBody_round h) fuel
    ⟨v, left, mid, right⟩ ⟨⟨hl, hr, rfl⟩, hleft, hright, hfuel⟩ hfuel
  exact hw

end Swaps

end RustStd.Rotate
