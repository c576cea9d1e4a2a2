import RustStd.Collections.VecDequeMoves

/-!
# Each operation of `VecDeque` on the list

One specification for each operation: what it returns, and the list that the
deque holds after it. Both kinds of elements are covered.
-/

set_option autoImplicit false

namespace RustStd.VecDeque
open RustStd.Machine RustStd.Outcome

variable {σ T : Type} {e : Elem T} {d : Deque T} {l : List T}

section ZeroSized

variable {value : Option T} {unique : ∀ y, value = some y}

@[simp] theorem capacity_zeroSized (self : Deque T) :
    capacity (.zeroSized value unique) self = usizeMax := by
  simp [capacity, Elem.isZst]

theorem wrapIndex_usizeMax (n : ℕ) : wrapIndex (n%2^64) usizeMax < usizeMax := by
  have := Nat.mod_lt n (show 0 < 2^64 by decide)
  unfold wrapIndex usizeMax
  split_ifs <;> lia

theorem toPhysicalIdx_zeroSized (i : ℕ) :
    toPhysicalIdx (.zeroSized value unique) d i < usizeMax := by
  rw [toPhysicalIdx, wrapAdd, capacity_zeroSized]
  exact wrapIndex_usizeMax _

theorem wrapSub_zeroSized (i j : ℕ) : wrapSub (.zeroSized value unique) d i j < usizeMax := by
  rw [wrapSub, capacity_zeroSized]
  exact wrapIndex_usizeMax _

theorem bufferRead_zeroSized {off : ℕ} (h : off < usizeMax) (x : T) :
    bufferRead (.zeroSized value unique) d off = .ok x := by
  simp [bufferRead, require, h, unique x]

theorem rep_zeroSized : Rep (.zeroSized value unique) d l ↔
    d.len = l.length ∧ d.len ≤ usizeMax ∧ d.head < usizeMax := by
  constructor
  · intro h
    have hhead := h.head_lt
    have hle := h.len_le
    simp only [capacity_zeroSized] at hhead hle
    refine ⟨h.len_eq, hle, ?_⟩
    rcases hhead with hh | ⟨hz, -⟩
    · exact hh
    · cases hz
  · rintro ⟨hlen, hle, hhead⟩
    refine ⟨hlen, ?_, ?_, ?_, fun i x _ => bufferRead_zeroSized (toPhysicalIdx_zeroSized i) x⟩
    · simpa using hle
    · simp [limit]
    · simpa using Or.inl hhead

theorem writeSlice_zeroSized {src : List T} {dst : ℕ} (h : dst+src.length ≤ usizeMax) :
    writeSlice (.zeroSized value unique) d dst src = .ok d := by
  simp [writeSlice, require, h, Elem.isZst]

theorem bufferWrite_zeroSized {off : ℕ} (h : off < usizeMax) (v : T) :
    bufferWrite (.zeroSized value unique) d off v = .ok d :=
  writeSlice_zeroSized (by simpa using h)

theorem copySlice_zeroSized {src : List T} {dst : ℕ} (hd : dst ≤ usizeMax) (h : src.length ≤ usizeMax) :
    copySlice (.zeroSized value unique) d dst src = .ok d := by
  unfold copySlice
  simp only [capacity_zeroSized]
  by_cases hone : src.length ≤ usizeMax-dst
  · rw [if_pos hone, writeSlice_zeroSized (by lia)]
  · rw [if_neg hone, writeSlice_zeroSized (by simp; lia), ok_bind,
      writeSlice_zeroSized (by simp; lia)]

theorem wrapCopy_zeroSized (src dst len : ℕ) :
    wrapCopy (.zeroSized value unique) d src dst len = .ok d := by
  simp [wrapCopy, Elem.isZst]

end ZeroSized

section Fields

variable (head len : ℕ) (slot : ℕ → Option T)

@[simp] theorem capacity_with : capacity e { d with head, len, slot } = capacity e d := rfl

@[simp] theorem bufferRead_with (off : ℕ) :
    bufferRead e { d with head, len } off = bufferRead e d off := rfl

@[simp] theorem toPhysicalIdx_len (i : ℕ) :
    toPhysicalIdx e { d with len } i = toPhysicalIdx e d i := rfl

end Fields

theorem SRep.double_cap {maxCap : ℕ} (h : SRep maxCap d l) (hmax : maxCap ≤ isizeMax) :
    d.cap+d.cap < 2^64 := by
  have hcap := h.cap_le
  unfold isizeMax at hmax
  lia

theorem Rep.take (h : Rep e d l) {n : ℕ} (hn : n ≤ d.len) : Rep e { d with len := n } (l.take n) := by
  cases e with
  | sized maxCap hmax =>
    rw [rep_sized] at h ⊢
    exact h.take hn
  | zeroSized value unique =>
    rw [rep_zeroSized] at h ⊢
    simp only [List.length_take]
    lia

theorem Rep.drop (h : Rep e d l) {n : ℕ} (hn : n ≤ d.len) :
    Rep e { d with head := toPhysicalIdx e d n, len := d.len-n } (l.drop n) := by
  cases e with
  | sized maxCap hmax =>
    rw [rep_sized] at h ⊢
    have hle := h.len_le
    rw [h.phys (by lia)]
    exact h.drop hn
  | zeroSized value unique =>
    rw [rep_zeroSized] at h ⊢
    simp only [List.length_drop]
    exact ⟨by lia, by lia, toPhysicalIdx_zeroSized n⟩

theorem Rep.read (h : Rep e d l) {i : ℕ} (hi : i < d.len) :
    ∃ x, l[i]? = some x ∧ bufferRead e d (toPhysicalIdx e d i) = .ok x := by
  have hlen := h.len_eq
  have hx : l[i]? = some l[i] := List.getElem?_eq_getElem (by lia)
  exact ⟨_, hx, h.elem i _ hx⟩

theorem Rep.write (h : Rep e d l) {i : ℕ} (hi : i < d.len) (v : T) :
    ∃ slot, bufferWrite e d (toPhysicalIdx e d i) v = .ok { d with slot } ∧
      Rep e { d with slot } (l.set i v) := by
  cases e with
  | sized maxCap hmax =>
    rw [rep_sized] at h
    have hlen := h.len_eq
    have hle := h.len_le
    have hhead := h.head_lt
    have hplace := wrapIndex_lt (show d.head < d.cap by lia) (show i ≤ d.cap by lia)
    refine ⟨_, ?_, rep_sized.mpr (h.set (by lia) v)⟩
    rw [h.phys (by lia), bufferWrite, writeSlice_sized (by simpa using hplace)]
  | zeroSized value unique =>
    refine ⟨d.slot, ?_, ?_⟩
    · exact bufferWrite_zeroSized (toPhysicalIdx_zeroSized i) v
    · rw [rep_zeroSized] at h ⊢
      simpa using h

theorem capacity_le_usizeMax (h : Rep e d l) : capacity e d ≤ usizeMax := by
  have hcap := h.cap_le
  cases e with
  | sized maxCap hmax =>
    have : maxCap ≤ usizeMax := hmax.trans (by decide)
    exact hcap.trans this
  | zeroSized value unique => simp

theorem Rep.phys_straight (h : Rep e d l) {i : ℕ} (hi : d.head+i < capacity e d) :
    toPhysicalIdx e d i = d.head+i := by
  have hcap := capacity_le_usizeMax h
  unfold usizeMax at hcap
  rw [toPhysicalIdx, wrapAdd, Nat.mod_eq_of_lt (by lia), wrapIndex, if_neg (by lia)]

theorem Rep.phys_zero (h : Rep e d l) (hz : 0 < capacity e d) : toPhysicalIdx e d 0 = d.head := by
  have hhead := h.head_lt
  exact h.phys_straight (by lia)

theorem growIfFull_spec (h : Rep e d l) (chosen : ℕ) :
    growIfFull e d chosen = .panic d ∧ limit e < max (l.length+1) chosen ∨
    ∃ d', growIfFull e d chosen = .ok d' ∧ Rep e d' l ∧ d'.len < capacity e d' := by
  have hlen := h.len_eq
  have hle := h.len_le
  unfold growIfFull isFull
  by_cases hfull : d.len = capacity e d
  · rw [if_pos (by simpa using hfull)]
    unfold grow
    cases e with
    | sized maxCap hmax =>
      rw [rep_sized] at h
      simp only [capacity_sized] at hfull ⊢
      rcases growBuf_sized hmax h (Nat.le_succ d.cap) chosen with
        ⟨hp, hbig⟩ | ⟨d₁, d', hgrow, hinc, hrep, hcap⟩
      · left
        rw [hp, panic_bind, limit]
        exact ⟨rfl, by lia⟩
      · right
        have hlen' := hrep.len_eq
        refine ⟨d', ?_, rep_sized.mpr hrep, (show d'.len < d'.cap by lia)⟩
        rw [hgrow, ok_bind, hinc]
    | zeroSized value unique =>
      left
      simp only [capacity_zeroSized] at hfull
      refine ⟨rfl, ?_⟩
      rw [limit]
      lia
  · rw [if_neg (by simpa using hfull)]
    exact .inr ⟨d, rfl, h, by lia⟩

theorem pushBack_spec (h : Rep e d l) (v : T) (chosen : ℕ) :
    pushBack e d v chosen = .panic d ∧ limit e < max (l.length+1) chosen ∨
    ∃ d', pushBack e d v chosen = .ok d' ∧ Rep e d' (l ++ [v]) := by
  unfold pushBack
  rcases growIfFull_spec h chosen with ⟨hp, hbig⟩ | ⟨d₁, hgrow, h₁, hroom⟩
  · left
    rw [hp, panic_bind]
    exact ⟨rfl, hbig⟩
  right
  rw [hgrow, ok_bind]
  cases e with
  | sized maxCap hmax =>
    rw [rep_sized] at h₁
    have hhead := h₁.head_lt
    simp only [capacity_sized] at hroom
    have hplace := wrapIndex_lt (show d₁.head < d₁.cap by lia) hroom.le
    refine ⟨_, ?_, rep_sized.mpr (h₁.concat hroom v)⟩
    simp only [toPhysicalIdx_len]
    rw [h₁.phys hroom.le, bufferWrite, writeSlice_sized (by simpa using hplace)]
  | zeroSized value unique =>
    rw [rep_zeroSized] at h₁
    simp only [capacity_zeroSized] at hroom
    refine ⟨{ d₁ with len := d₁.len+1 }, ?_, ?_⟩
    · simp only
      rw [bufferWrite_zeroSized (toPhysicalIdx_zeroSized _)]
    · rw [rep_zeroSized]
      simp only [List.length_append, List.length_singleton]
      lia

theorem pushFront_spec (h : Rep e d l) (v : T) (chosen : ℕ) :
    pushFront e d v chosen = .panic d ∧ limit e < max (l.length+1) chosen ∨
    ∃ d', pushFront e d v chosen = .ok d' ∧ Rep e d' (v :: l) := by
  unfold pushFront
  rcases growIfFull_spec h chosen with ⟨hp, hbig⟩ | ⟨d₁, hgrow, h₁, hroom⟩
  · left
    rw [hp, panic_bind]
    exact ⟨rfl, hbig⟩
  right
  rw [hgrow, ok_bind]
  cases e with
  | sized maxCap hmax =>
    rw [rep_sized] at h₁
    have hhead := h₁.head_lt
    have hdouble := h₁.double_cap hmax
    simp only [capacity_sized] at hroom
    have hplace : wrapIndex (d₁.head+d₁.cap-1) d₁.cap < d₁.cap := by
      unfold wrapIndex
      split_ifs <;> lia
    refine ⟨_, ?_, rep_sized.mpr (h₁.cons hroom v)⟩
    simp only
    rw [wrapSub_sized (by lia) (by lia) (by lia), bufferWrite,
      writeSlice_sized (by simpa using hplace)]
  | zeroSized value unique =>
    rw [rep_zeroSized] at h₁
    simp only [capacity_zeroSized] at hroom
    have hplace : wrapSub (.zeroSized value unique) d₁ d₁.head 1 < usizeMax := wrapSub_zeroSized _ _
    refine ⟨{ d₁ with
      head := wrapSub (.zeroSized value unique) d₁ d₁.head 1, len := d₁.len+1 }, ?_, ?_⟩
    · simp only
      rw [bufferWrite_zeroSized hplace]
    · rw [rep_zeroSized]
      simp only [List.length_cons]
      lia

theorem popFront_spec (h : Rep e d l) :
    ∃ d', popFront e d = .ok (l.head?, d') ∧ Rep e d' l.tail := by
  have hlen := h.len_eq
  unfold popFront
  by_cases hz : d.len = 0
  · have hnil : l = [] := List.eq_nil_of_length_eq_zero (by lia)
    subst hnil
    rw [if_pos hz]
    exact ⟨d, rfl, h⟩
  · have hle := h.len_le
    have hcap : d.len-1 < capacity e d := by lia
    obtain ⟨x, hx, hread⟩ := h.read (show 0 < d.len by lia)
    have hhead : toPhysicalIdx e d 0 = d.head := h.phys_zero (by lia)
    rw [hhead] at hread
    rw [if_neg hz, ← List.drop_one, List.head?_eq_getElem?, hx]
    refine ⟨_, ?_, h.drop (show 1 ≤ d.len by lia)⟩
    simp [require, hcap, hread]

theorem popBack_spec (h : Rep e d l) :
    ∃ d', popBack e d = .ok (l.getLast?, d') ∧ Rep e d' l.dropLast := by
  have hlen := h.len_eq
  unfold popBack
  by_cases hz : d.len = 0
  · have hnil : l = [] := List.eq_nil_of_length_eq_zero (by lia)
    subst hnil
    rw [if_pos hz]
    exact ⟨d, rfl, h⟩
  · have hle := h.len_le
    have hcap : d.len-1 < capacity e d := by lia
    obtain ⟨x, hx, hread⟩ := h.read (show d.len-1 < d.len by lia)
    rw [if_neg hz, List.dropLast_eq_take, ← hlen, List.getLast?_eq_getElem?, ← hlen, hx]
    refine ⟨_, ?_, h.take (show d.len-1 ≤ d.len by lia)⟩
    simp [require, hcap, hread]

theorem swap_spec (h : Rep e d l) {i j : ℕ} {x y : T} (hx : l[i]? = some x) (hy : l[j]? = some y) :
    ∃ d', swap e d i j = .ok d' ∧ Rep e d' ((l.set i y).set j x) := by
  have hlen := h.len_eq
  have hi := lt_of_getElem? hx
  have hj := lt_of_getElem? hy
  obtain ⟨s₁, hw₁, h₁⟩ := h.write (show i < d.len by lia) y
  obtain ⟨s₂, hw₂, h₂⟩ := h₁.write (show j < d.len by lia) x
  refine ⟨_, ?_, h₂⟩
  have hphys : toPhysicalIdx e { d with slot := s₁ } j = toPhysicalIdx e d j := rfl
  rw [hphys] at hw₂
  simp only [swap, ensure_of d (show i < d.len by lia), ensure_of d (show j < d.len by lia),
    h.elem i x hx, h.elem j y hy, ok_bind, hw₁, hw₂]

/-- The first element takes the place of the one removed. -/
def listSwapRemoveFront (l : List T) (index : ℕ) : Option T × List T :=
  match l[index]?, l.head? with
  | some x, some y => (some x, (l.set index y).tail)
  | _, _ => (none, l)

/-- The last element takes the place of the one removed. -/
def listSwapRemoveBack (l : List T) (index : ℕ) : Option T × List T :=
  match l[index]?, l.getLast? with
  | some x, some y => (some x, (l.set index y).dropLast)
  | _, _ => (none, l)

theorem swapRemoveFront_spec (h : Rep e d l) (index : ℕ) :
    ∃ d', swapRemoveFront e d index = .ok ((listSwapRemoveFront l index).1, d') ∧
      Rep e d' (listSwapRemoveFront l index).2 := by
  have hlen := h.len_eq
  unfold swapRemoveFront listSwapRemoveFront
  by_cases hin : index < d.len
  · obtain ⟨x, hx⟩ : ∃ x, l[index]? = some x := ⟨_, List.getElem?_eq_getElem (by lia)⟩
    cases l with
    | nil => cases hx
    | cons y t =>
      rw [hx]
      cases index with
      | zero =>
        simp only [List.getElem?_cons_zero, Option.some.injEq] at hx
        subst hx
        rw [if_neg (by simp), if_neg (by lia)]
        exact popFront_spec h
      | succ k =>
        rw [if_pos ⟨hin, Nat.succ_ne_zero k⟩]
        obtain ⟨d₁, hswap, h₁⟩ := swap_spec h hx (show (y :: t)[0]? = some y from rfl)
        obtain ⟨d₂, hpop, h₂⟩ := popFront_spec h₁
        refine ⟨d₂, ?_, h₂⟩
        rw [hswap, ok_bind, hpop]
        rfl
  · have hx : l[index]? = none := List.getElem?_eq_none (by lia)
    simp only [hx]
    rw [if_neg (by lia), if_pos (by lia)]
    exact ⟨d, rfl, h⟩

theorem swapRemoveBack_spec (h : Rep e d l) (index : ℕ) :
    ∃ d', swapRemoveBack e d index = .ok ((listSwapRemoveBack l index).1, d') ∧
      Rep e d' (listSwapRemoveBack l index).2 := by
  have hlen := h.len_eq
  unfold swapRemoveBack listSwapRemoveBack
  by_cases hin : index < d.len
  · obtain ⟨x, hx⟩ : ∃ x, l[index]? = some x := ⟨_, List.getElem?_eq_getElem (by lia)⟩
    rcases List.eq_nil_or_concat l with rfl | ⟨t, y, rfl⟩
    · cases hx
    rw [List.concat_eq_append] at h hx hlen ⊢
    rw [List.length_append, List.length_singleton] at hlen
    rw [hx, List.getLast?_concat]
    by_cases hlast : index < d.len-1
    · rw [if_pos (by lia)]
      have hy : (t ++ [y])[d.len-1]? = some y := by
        rw [List.getElem?_append_right (by lia)]
        simp [hlen]
      obtain ⟨d₁, hswap, h₁⟩ := swap_spec h hx hy
      obtain ⟨d₂, hpop, h₂⟩ := popBack_spec h₁
      have hlist : ((t ++ [y]).set index y).set (d.len-1) x = t.set index y ++ [x] := by
        rw [List.set_append_left _ _ (by lia), List.set_append_right _ _ (by simp; lia)]
        simp [hlen]
      rw [hlist] at hpop h₂
      refine ⟨d₂, ?_, ?_⟩
      · rw [hswap, ok_bind, hpop, List.getLast?_concat]
      · have hset : (t ++ [y]).set index y = t.set index y ++ [y] :=
          List.set_append_left _ _ (by lia)
        simp only [hset, List.dropLast_concat]
        simpa using h₂
    · rw [if_neg (by lia), if_neg (by lia)]
      have hidx : index = t.length := by lia
      subst hidx
      have hxy : y = x := by simpa using hx
      subst hxy
      have hpop := popBack_spec h
      simpa using hpop
  · have hx : l[index]? = none := List.getElem?_eq_none (by lia)
    simp only [hx]
    rw [if_neg (by lia), if_pos (by lia)]
    exact ⟨d, rfl, h⟩

theorem insert_spec (h : Rep e d l) {index : ℕ} (hi : index ≤ l.length) (v : T) (chosen : ℕ) :
    insert e d index v chosen = .panic d ∧ limit e < max (l.length+1) chosen ∨
    ∃ d', insert e d index v chosen = .ok d' ∧ Rep e d' (l.insertIdx index v) := by
  have hlen := h.len_eq
  unfold insert
  rw [ensure_of _ (by lia), ok_bind]
  rcases growIfFull_spec h chosen with ⟨hp, hbig⟩ | ⟨d₁, hgrow, h₁, hroom⟩
  · left
    rw [hp, panic_bind]
    exact ⟨rfl, hbig⟩
  right
  rw [hgrow, ok_bind]
  have hlen₁ := h₁.len_eq
  cases e with
  | sized maxCap hmax =>
    rw [rep_sized] at h₁
    have hhead := h₁.head_lt
    have hdouble := h₁.double_cap hmax
    simp only [capacity_sized] at hroom
    by_cases hk : d₁.len-index < index
    · rw [if_pos hk]
      obtain ⟨slot, hcopy, hrep⟩ := h₁.open_back hmax hroom (show index ≤ d₁.len by lia)
      have hplace := wrapIndex_lt (show d₁.head < d₁.cap by lia) (show index ≤ d₁.cap by lia)
      refine ⟨_, ?_, rep_sized.mpr (hrep v)⟩
      rw [h₁.phys (by lia), h₁.phys (by lia), hcopy, ok_bind]
      have hphys : toPhysicalIdx (.sized maxCap hmax) { d₁ with len := d₁.len+1, slot } index =
          wrapIndex (d₁.head+index) d₁.cap :=
        toPhysicalIdx_sized (d := { d₁ with len := d₁.len+1, slot }) h₁.cap_le
          (show d₁.head ≤ d₁.cap by lia) (show index ≤ d₁.cap by lia)
      simp only
      rw [hphys, bufferWrite, writeSlice_sized (by simpa using hplace)]
    · rw [if_neg hk]
      obtain ⟨slot, hcopy, hrep⟩ := h₁.open_front hmax hroom (show index ≤ d₁.len-index by lia)
      have hnew : wrapIndex (d₁.head+d₁.cap-1) d₁.cap < d₁.cap := by
        unfold wrapIndex
        split_ifs <;> lia
      have hplace := wrapIndex_lt hnew (show index ≤ d₁.cap by lia)
      refine ⟨_, ?_, rep_sized.mpr (hrep v)⟩
      simp only [wrapSub_sized (show 1 ≤ d₁.head+d₁.cap by lia) (show d₁.head+d₁.cap < 2^64 by lia)
        (show 1 < 2^64 by decide), hcopy, ok_bind]
      have hphys : toPhysicalIdx (.sized maxCap hmax)
          { d₁ with head := wrapIndex (d₁.head+d₁.cap-1) d₁.cap, len := d₁.len+1, slot } index =
          wrapIndex (wrapIndex (d₁.head+d₁.cap-1) d₁.cap+index) d₁.cap :=
        toPhysicalIdx_sized (d := { d₁ with
          head := wrapIndex (d₁.head+d₁.cap-1) d₁.cap, len := d₁.len+1, slot }) h₁.cap_le
          hnew.le (show index ≤ d₁.cap by lia)
      rw [hphys, bufferWrite, writeSlice_sized (by simpa using hplace)]
  | zeroSized value unique =>
    rw [rep_zeroSized] at h₁
    simp only [capacity_zeroSized] at hroom
    have hcount : (l.insertIdx index v).length = l.length+1 := by
      simp [List.length_insertIdx, hi]
    by_cases hk : d₁.len-index < index
    · rw [if_pos hk, wrapCopy_zeroSized, ok_bind]
      refine ⟨{ d₁ with len := d₁.len+1 }, ?_, ?_⟩
      · simp only
        rw [bufferWrite_zeroSized (toPhysicalIdx_zeroSized _)]
      · rw [rep_zeroSized, hcount]
        simp only
        lia
    · rw [if_neg hk]
      have hnew : wrapSub (.zeroSized value unique) d₁ d₁.head 1 < usizeMax := wrapSub_zeroSized _ _
      refine ⟨{ d₁ with
        head := wrapSub (.zeroSized value unique) d₁ d₁.head 1, len := d₁.len+1 }, ?_, ?_⟩
      · simp only
        rw [wrapCopy_zeroSized, ok_bind, bufferWrite_zeroSized (toPhysicalIdx_zeroSized _)]
      · rw [rep_zeroSized, hcount]
        simp only
        lia

theorem remove_spec (h : Rep e d l) (index : ℕ) :
    ∃ d', remove e d index = .ok (l[index]?, d') ∧ Rep e d' (l.eraseIdx index) := by
  have hlen := h.len_eq
  unfold remove
  by_cases hout : d.len ≤ index
  · rw [if_pos hout, List.getElem?_eq_none (by lia), List.eraseIdx_of_length_le (by lia)]
    exact ⟨d, rfl, h⟩
  rw [if_neg hout]
  obtain ⟨x, hx, hread⟩ := h.read (show index < d.len by lia)
  simp only
  rw [hread, ok_bind, hx]
  cases e with
  | sized maxCap hmax =>
    rw [rep_sized] at h
    have hle := h.len_le
    have hhead := h.head_lt
    have hdouble := h.double_cap hmax
    have hplace := wrapIndex_lt (show d.head < d.cap by lia) (show index ≤ d.cap by lia)
    by_cases hk : d.len-index-1 < index
    · obtain ⟨slot, hcopy, hrep⟩ := h.close_back hmax (show index < d.len by lia) hk
      refine ⟨_, ?_, rep_sized.mpr hrep⟩
      rw [if_pos hk, h.phys (by lia), wrapAdd_sized (by lia), hcopy, ok_bind, pure_eq]
    · obtain ⟨slot, hcopy, hrep⟩ := h.close_front hmax (show index < d.len by lia)
        (show index ≤ d.len-index-1 by lia)
      refine ⟨_, ?_, rep_sized.mpr hrep⟩
      rw [if_neg hk]
      simp only [h.phys (show 1 ≤ d.cap by lia), hcopy, ok_bind, pure_eq]
  | zeroSized value unique =>
    rw [rep_zeroSized] at h
    have hcount : (l.eraseIdx index).length = l.length-1 :=
      List.length_eraseIdx_of_lt (by lia)
    by_cases hk : d.len-index-1 < index
    · refine ⟨{ d with len := d.len-1 }, ?_, ?_⟩
      · rw [if_pos hk, wrapCopy_zeroSized, ok_bind, pure_eq]
      · rw [rep_zeroSized, hcount]
        simp only
        lia
    · have hnew : toPhysicalIdx (.zeroSized value unique) d 1 < usizeMax := toPhysicalIdx_zeroSized _
      refine ⟨{ d with
        head := toPhysicalIdx (.zeroSized value unique) d 1, len := d.len-1 }, ?_, ?_⟩
      · rw [if_neg hk, wrapCopy_zeroSized, ok_bind, pure_eq]
      · rw [rep_zeroSized, hcount]
        simp only
        lia

theorem rotateLeftInner_spec (h : Rep e d l) {mid : ℕ} (hm : 2*mid ≤ d.len) :
    ∃ d', rotateLeftInner e d mid = .ok d' ∧ Rep e d' (l.drop mid ++ l.take mid) := by
  unfold rotateLeftInner
  cases e with
  | sized maxCap hmax =>
    rw [rep_sized] at h
    have hle := h.len_le
    obtain ⟨slot, hcopy, hrep⟩ := h.rotate_left hmax hm
    refine ⟨_, ?_, rep_sized.mpr hrep⟩
    rw [h.phys hle, hcopy, ok_bind, pure_eq]
    change Outcome.ok { d with head := toPhysicalIdx (.sized maxCap hmax) d mid, slot } = _
    rw [h.phys (by lia)]
  | zeroSized value unique =>
    rw [rep_zeroSized] at h
    have hnew : toPhysicalIdx (.zeroSized value unique) d mid < usizeMax := toPhysicalIdx_zeroSized _
    refine ⟨{ d with head := toPhysicalIdx (.zeroSized value unique) d mid }, ?_, ?_⟩
    · rw [wrapCopy_zeroSized, ok_bind, pure_eq]
    · rw [rep_zeroSized]
      simp only [List.length_append, List.length_drop, List.length_take]
      lia

theorem rotateRightInner_spec (h : Rep e d l) {k : ℕ} (hk : 2*k ≤ d.len) :
    ∃ d', rotateRightInner e d k = .ok d' ∧
      Rep e d' (l.drop (l.length-k) ++ l.take (l.length-k)) := by
  have hlen := h.len_eq
  unfold rotateRightInner
  cases e with
  | sized maxCap hmax =>
    rw [rep_sized] at h
    have hle := h.len_le
    have hhead := h.head_lt
    have hdouble := h.double_cap hmax
    obtain ⟨slot, hcopy, hrep⟩ := h.rotate_right hmax hk
    rw [← hlen]
    refine ⟨_, ?_, rep_sized.mpr hrep⟩
    have hnew : wrapIndex (d.head+d.cap-k) d.cap ≤ d.cap := by
      unfold wrapIndex
      split_ifs <;> lia
    simp only [wrapSub_sized (show k ≤ d.head+d.cap by lia) (show d.head+d.cap < 2^64 by lia)
      (show k < 2^64 by lia)]
    have hphys : toPhysicalIdx (.sized maxCap hmax)
        { d with head := wrapIndex (d.head+d.cap-k) d.cap } d.len =
        wrapIndex (wrapIndex (d.head+d.cap-k) d.cap+d.len) d.cap :=
      toPhysicalIdx_sized (d := { d with head := wrapIndex (d.head+d.cap-k) d.cap }) h.cap_le hnew hle
    rw [hphys]
    exact hcopy
  | zeroSized value unique =>
    rw [rep_zeroSized] at h
    have hnew : wrapSub (.zeroSized value unique) d d.head k < usizeMax := wrapSub_zeroSized _ _
    refine ⟨{ d with head := wrapSub (.zeroSized value unique) d d.head k }, ?_, ?_⟩
    · simp only [wrapCopy_zeroSized]
    · rw [rep_zeroSized]
      simp only [List.length_append, List.length_drop, List.length_take]
      lia

theorem rotateLeft_spec (h : Rep e d l) {n : ℕ} (hn : n ≤ l.length) :
    ∃ d', rotateLeft e d n = .ok d' ∧ Rep e d' (l.drop n ++ l.take n) := by
  have hlen := h.len_eq
  unfold rotateLeft
  rw [ensure_of _ (by lia), ok_bind]
  by_cases hk : n ≤ d.len-n
  · rw [if_pos hk]
    exact rotateLeftInner_spec h (by lia)
  · rw [if_neg hk]
    have hinner := rotateRightInner_spec h (show 2*(d.len-n) ≤ d.len by lia)
    rwa [show l.length-(d.len-n) = n by lia] at hinner

theorem rotateRight_spec (h : Rep e d l) {n : ℕ} (hn : n ≤ l.length) :
    ∃ d', rotateRight e d n = .ok d' ∧
      Rep e d' (l.drop (l.length-n) ++ l.take (l.length-n)) := by
  have hlen := h.len_eq
  unfold rotateRight
  rw [ensure_of _ (by lia), ok_bind]
  by_cases hk : n ≤ d.len-n
  · rw [if_pos hk]
    exact rotateRightInner_spec h (by lia)
  · rw [if_neg hk, ← hlen]
    exact rotateLeftInner_spec h (by lia)

theorem bufferRange_spec {xs : List T} (start : ℕ)
    (h : ∀ i x, xs[i]? = some x → bufferRead e d (start+i) = .ok x) :
    bufferRange e d start xs.length = .ok xs := by
  induction xs generalizing start with
  | nil => rfl
  | cons y ys ih =>
    have hy := h 0 y rfl
    rw [Nat.add_zero] at hy
    have hys := ih (start+1) fun i x hx => by
      have := h (i+1) x (by simpa using hx)
      rwa [Nat.add_assoc, Nat.add_comm 1 i]
    rw [List.length_cons, bufferRange, hy, ok_bind, hys, ok_bind, pure_eq]

theorem Rep.read_straight (h : Rep e d l) {i : ℕ} {x : T} (hx : l[i]? = some x)
    (hi : d.head+i < capacity e d) : bufferRead e d (d.head+i) = .ok x := by
  rw [← h.phys_straight hi]
  exact h.elem i x hx

theorem Rep.read_wrapped (h : Rep e d l) {i : ℕ} {x : T} (hx : l[i]? = some x)
    (hi : capacity e d ≤ d.head+i) : bufferRead e d (d.head+i-capacity e d) = .ok x := by
  have hlt := lt_of_getElem? hx
  cases e with
  | sized maxCap hmax =>
    rw [rep_sized] at h
    have hlen := h.len_eq
    have hle := h.len_le
    have hhead := h.head_lt
    simp only [capacity_sized] at hi ⊢
    rw [bufferRead_sized (by lia)]
    exact h.wrapped hx hi
  | zeroSized value unique =>
    rw [rep_zeroSized] at h
    simp only [capacity_zeroSized] at hi ⊢
    exact bufferRead_zeroSized (by lia) x

theorem asSlices_spec (h : Rep e d l) : ∃ front back, asSlices e d = .ok (front, back) ∧
    l = front ++ back ∧ front.length = min l.length (capacity e d-d.head) := by
  have hlen := h.len_eq
  have hle := h.len_le
  have hhead := h.head_lt
  unfold asSlices sliceRanges
  by_cases hz : d.len = 0
  · have hnil : l = [] := List.eq_nil_of_length_eq_zero (by lia)
    subst hnil
    exact ⟨[], [], by simp [hz, bufferRange], rfl, by simp⟩
  simp only [if_neg hz, h.phys_zero (by lia)]
  by_cases hone : capacity e d-d.head ≥ d.len
  · refine ⟨l, [], ?_, by simp, by lia⟩
    have hfront : bufferRange e d d.head l.length = .ok l := by
      apply bufferRange_spec
      intro i x hx
      have := lt_of_getElem? hx
      exact h.read_straight hx (by lia)
    rw [if_pos hone, Nat.add_sub_cancel_left, hlen, hfront, ok_bind]
    rfl
  · refine ⟨l.take (capacity e d-d.head), l.drop (capacity e d-d.head), ?_,
      (List.take_append_drop _ l).symm, by simp; lia⟩
    have hfront := bufferRange_spec (e := e) (d := d) d.head
      (show ∀ i x, (l.take (capacity e d-d.head))[i]? = some x → _ from fun i x hx => by
        have := lt_of_getElem? hx
        rw [List.length_take] at this
        rw [List.getElem?_take_of_lt (by lia)] at hx
        exact h.read_straight hx (by lia))
    have hback := bufferRange_spec (e := e) (d := d) 0
      (show ∀ i x, (l.drop (capacity e d-d.head))[i]? = some x → _ from fun i x hx => by
        rw [List.getElem?_drop] at hx
        have := h.read_wrapped hx (by lia)
        rwa [show d.head+(capacity e d-d.head+i)-capacity e d = 0+i by lia] at this)
    rw [List.length_take, Nat.min_eq_left (by lia)] at hfront
    rw [List.length_drop, ← hlen] at hback
    rw [if_neg hone]
    simp only
    rw [hfront, ok_bind, Nat.sub_zero, hback, ok_bind, pure_eq]

theorem truncate_spec (h : Rep e d l) (n : ℕ) :
    ∃ d', truncate e d n = .ok (l.drop n, d') ∧ Rep e d' (l.take n) := by
  have hlen := h.len_eq
  unfold truncate
  by_cases hn : n ≥ d.len
  · rw [if_pos hn, List.drop_eq_nil_of_le (by lia), List.take_of_length_le (by lia)]
    exact ⟨d, rfl, h⟩
  rw [if_neg hn]
  obtain ⟨front, back, hs, hl, hfront⟩ := asSlices_spec h
  refine ⟨{ d with len := n }, ?_, h.take (by lia)⟩
  subst hl
  rw [List.length_append] at hlen
  rw [hs, ok_bind]
  simp only [List.drop_append]
  by_cases hback : n > front.length
  · rw [if_pos hback, require_of (by lia), ok_bind, List.drop_eq_nil_of_le hback.le]
    rfl
  · rw [if_neg hback, Nat.sub_eq_zero_of_le (by lia)]
    rfl

theorem truncateFront_spec (h : Rep e d l) (n : ℕ) :
    ∃ d', truncateFront e d n = .ok (l.take (l.length-n), d') ∧ Rep e d' (l.drop (l.length-n)) := by
  have hlen := h.len_eq
  have hhead := h.head_lt
  have hle := h.len_le
  unfold truncateFront
  by_cases hn : n ≥ d.len
  · rw [if_pos hn, Nat.sub_eq_zero_of_le (by lia)]
    exact ⟨d, rfl, h⟩
  rw [if_neg hn]
  obtain ⟨front, back, hs, hl, hfront⟩ := asSlices_spec h
  have hdrop := h.drop (show l.length-n ≤ d.len by lia)
  rw [show d.len-(l.length-n) = n by lia] at hdrop
  refine ⟨_, ?_, hdrop⟩
  have hphys : l.length-n < front.length → d.head+(l.length-n) = toPhysicalIdx e d (l.length-n) :=
    fun hlt => (h.phys_straight (by lia)).symm
  subst hl
  rw [List.length_append] at *
  rw [hs, ok_bind]
  simp only [List.take_append]
  by_cases hback : n > back.length
  · rw [if_pos hback, require_of (by lia), ok_bind, pure_eq, ← hphys (by lia),
      show front.length-(n-back.length) = front.length+back.length-n by lia,
      Nat.sub_eq_zero_of_le (show front.length+back.length-n ≤ front.length by lia)]
    simp
  · have hall : front.take (front.length+back.length-n) = front :=
      List.take_of_length_le (by lia)
    rw [if_neg hback, pure_eq, hlen, hall,
      show front.length+back.length-n-front.length = back.length-n by lia]

theorem writeSlots_append (slot : ℕ → Option T) (p : ℕ) (xs ys : List T) :
    writeSlots (writeSlots slot p xs) (p+xs.length) ys = writeSlots slot p (xs ++ ys) := by
  funext j
  unfold writeSlots
  rw [List.length_append, List.getElem?_append]
  split_ifs <;> lia

theorem copyTail_sized {maxCap : ℕ} {hmax : maxCap ≤ isizeMax} {front back : List T} {at' : ℕ} :
    copyTail (.sized maxCap hmax) (withCapacity (.sized maxCap hmax) ((front ++ back).length-at'))
        front back at' =
      .ok { head := 0, len := 0, cap := (front ++ back).length-at',
            slot := writeSlots (fun _ => none) 0 ((front ++ back).drop at') } := by
  rw [List.length_append] at *
  unfold copyTail
  simp only [withCapacity, Elem.isZst, Bool.false_eq_true, if_false, List.drop_append]
  by_cases hin : at' < front.length
  · rw [if_pos hin, writeSlice_sized (by simp; lia), ok_bind, writeSlice_sized (by simp; lia),
      Nat.sub_eq_zero_of_le hin.le, List.drop_zero, ← writeSlots_append, List.length_drop,
      Nat.zero_add]
  · have hnil : front.drop at' = [] := List.drop_eq_nil_of_le (by lia)
    rw [if_neg hin, writeSlice_sized (by simp; lia), hnil, List.nil_append]

theorem splitOff_spec (h : Rep e d l) {at' : ℕ} (hat : at' ≤ l.length) :
    ∃ other d', splitOff e d at' = .ok (other, d') ∧ Rep e other (l.drop at') ∧
      Rep e d' (l.take at') := by
  have hlen := h.len_eq
  have hle := h.len_le
  have hcap := h.cap_le
  obtain ⟨front, back, hs, hl, -⟩ := asSlices_spec h
  have htake := h.take (show at' ≤ d.len by lia)
  unfold splitOff
  simp only
  rw [ensure_of _ (by lia), ok_bind, hs, ok_bind]
  cases e with
  | sized maxCap hmax =>
    refine ⟨{
      head := 0, len := d.len-at', cap := d.len-at',
      slot := writeSlots (fun _ => none) 0 (l.drop at') }, _, ?_, ?_, htake⟩
    · subst hl
      rw [hlen, copyTail_sized, ok_bind, pure_eq]
    · rw [rep_sized]
      simp only [capacity_sized] at hle
      have hmaxCap : d.cap ≤ maxCap := hcap
      refine SRep.of_places (by simp [hlen]) (by simp) (by simp; lia) (by simp; lia) ?_ ?_
      · intro i x hx hi
        have := lt_of_getElem? hx
        rw [List.length_drop] at this
        simp only [Nat.zero_add, writeSlots, List.length_drop, Nat.zero_le, true_and, Nat.sub_zero]
        rw [if_pos (by lia)]
        exact hx
      · intro i x hx hi
        have := lt_of_getElem? hx
        rw [List.length_drop] at this
        simp only at hi
        lia
  | zeroSized value unique =>
    have hother : copyTail (.zeroSized value unique)
        (withCapacity (.zeroSized value unique) (d.len-at')) front back at' =
        .ok (withCapacity (.zeroSized value unique) (d.len-at')) := by
      simp only [capacity_zeroSized] at hle
      rw [hlen, hl, List.length_append] at hle
      unfold copyTail
      simp only
      by_cases hin : at' < front.length
      · rw [if_pos hin, writeSlice_zeroSized (by simp; lia), ok_bind,
          writeSlice_zeroSized (by lia)]
      · rw [if_neg hin, writeSlice_zeroSized (by simp; lia)]
    refine ⟨{ withCapacity (.zeroSized value unique) (d.len-at') with len := d.len-at' }, _, ?_, ?_,
      htake⟩
    · rw [hother, ok_bind, pure_eq]
    · rw [rep_zeroSized]
      simp only [capacity_zeroSized] at hle
      refine ⟨by simp [hlen], by simp; lia, by simp [withCapacity, usizeMax]⟩

theorem limit_le_usizeMax (e : Elem T) : limit e ≤ usizeMax := by
  cases e with
  | sized maxCap hmax => exact hmax.trans (by decide)
  | zeroSized value unique => exact le_refl _

theorem reserve_spec (h : Rep e d l) (additional chosen : ℕ) :
    reserve e d additional chosen = .panic d ∧ limit e < max (l.length+additional) chosen ∨
    ∃ d', reserve e d additional chosen = .ok d' ∧ Rep e d' l ∧
      l.length+additional ≤ capacity e d' := by
  have hlen := h.len_eq
  have hlimit := limit_le_usizeMax e
  unfold reserve
  by_cases hfit : d.len+additional ≤ usizeMax
  · rw [ensure_of _ hfit, ok_bind]
    simp only
    by_cases hgrow : d.len+additional > capacity e d
    · rw [if_pos hgrow]
      cases e with
      | sized maxCap hmax =>
        rw [rep_sized] at h
        simp only [capacity_sized] at hgrow ⊢
        rcases growBuf_sized hmax h hgrow.le chosen with
          ⟨hp, hbig⟩ | ⟨d₁, d', hgrow, hinc, hrep, hcap⟩
        · left
          rw [hp, panic_bind, limit]
          exact ⟨rfl, by lia⟩
        · right
          refine ⟨d', ?_, rep_sized.mpr hrep, by lia⟩
          rw [hgrow, ok_bind, hinc]
      | zeroSized value unique =>
        simp only [capacity_zeroSized] at hgrow
        lia
    · rw [if_neg hgrow]
      exact .inr ⟨d, rfl, h, by lia⟩
  · left
    rw [ensure_of_not _ hfit, panic_bind]
    exact ⟨rfl, by lia⟩

section Fill

variable {maxCap : ℕ} (hmax : maxCap ≤ isizeMax)

theorem copySlice_sized (h : SRep maxCap d l) {src : List T} (hroom : d.len+src.length ≤ d.cap)
    (n : ℕ) :
    ∃ slot, copySlice (.sized maxCap hmax) { d with len := n } (wrapIndex (d.head+d.len) d.cap) src =
        .ok { d with len := n, slot } ∧
      SRep maxCap { d with len := d.len+src.length, slot } (l ++ src) := by
  have hlen := h.len_eq
  have hhead := h.head_lt
  have hle := h.len_le
  obtain ⟨p, hp⟩ : ∃ p, wrapIndex (d.head+d.len) d.cap = p := ⟨_, rfl⟩
  have hplace : p < d.cap ∨ d.cap = 0 ∧ p = 0 := by
    rw [← hp]
    unfold wrapIndex
    split_ifs <;> lia
  obtain ⟨slot, hcopy, hslot⟩ : ∃ slot,
      copySlice (.sized maxCap hmax) { d with len := n } p src = .ok { d with len := n, slot } ∧
      ∀ j < d.len+src.length, slot (wrapIndex (d.head+j) d.cap) =
        if j < d.len then d.slot (wrapIndex (d.head+j) d.cap) else src[j-d.len]? := by
    unfold copySlice
    simp only [capacity_sized]
    by_cases hone : src.length ≤ d.cap-p
    · rw [if_pos hone, writeSlice_sized (by simp; lia)]
      refine ⟨_, rfl, fun j hj => ?_⟩
      unfold wrapIndex at hp ⊢
      unfold writeSlots
      split_ifs at hp ⊢ <;> first | lia | rfl | (congr 1; lia)
    · rw [if_neg hone, writeSlice_sized (by simp; lia), ok_bind, writeSlice_sized (by simp; lia)]
      refine ⟨_, rfl, fun j hj => ?_⟩
      unfold wrapIndex at hp ⊢
      simp only [writeSlots, List.length_drop, List.length_take, List.getElem?_drop,
        List.getElem?_take]
      split_ifs at hp ⊢ <;> first | lia | rfl | (congr 1; lia)
  rw [hp]
  refine ⟨slot, hcopy, by simp [hlen], hroom, h.cap_le, hhead, fun j x hx => ?_⟩
  have hj := lt_of_getElem? hx
  rw [List.length_append] at hj
  change slot (wrapIndex (d.head+j) d.cap) = _
  rw [hslot j (by lia)]
  rw [List.getElem?_append, ← hlen] at hx
  split_ifs at hx ⊢
  · exact h.elem j x hx
  · exact hx

theorem writeIter_eq {dst : ℕ} {iter : List T} (h : dst+iter.length ≤ capacity e d) :
    writeIter e d dst iter = writeSlice e d dst iter := by
  cases e with
  | sized maxCap hmax =>
    simp only [capacity_sized] at h
    rw [writeSlice_sized h]
    induction iter generalizing d dst with
    | nil =>
      have hnone : writeSlots d.slot dst [] = d.slot := by
        funext j
        exact if_neg (by simp)
      rw [hnone]
      rfl
    | cons x iter ih =>
      rw [List.length_cons] at h
      rw [writeIter, bufferWrite, writeSlice_sized (by simp; lia), ok_bind, ih (by simp; lia)]
      have := writeSlots_append d.slot dst [x] iter
      rw [List.length_singleton] at this
      rw [this, List.singleton_append]
  | zeroSized value unique =>
    simp only [capacity_zeroSized] at h
    rw [writeSlice_zeroSized h]
    induction iter generalizing dst with
    | nil => rfl
    | cons x iter ih =>
      rw [List.length_cons] at h
      rw [writeIter, bufferWrite_zeroSized (by lia), ok_bind, ih (by lia)]

theorem writeIterWrapping_eq {dst : ℕ} {iter : List T} (hd : dst ≤ capacity e d)
    (hroom : iter.length ≤ capacity e d) :
    writeIterWrapping e d dst iter iter.length =
      (do
        let self ← copySlice e d dst iter
        return { self with len := self.len+iter.length }) := by
  unfold writeIterWrapping copySlice
  simp only
  by_cases hone : iter.length ≤ capacity e d-dst
  · rw [if_pos hone, if_pos hone, writeIter_eq (by lia)]
  · rw [if_neg hone, if_neg hone, writeIter_eq (by simp; lia)]
    cases e with
    | sized maxCap hmax =>
      simp only [capacity_sized] at hd hroom hone ⊢
      rw [writeSlice_sized (by simp; lia), ok_bind, ok_bind,
        writeIter_eq (by simp; lia)]
    | zeroSized value unique =>
      simp only [capacity_zeroSized] at hd hroom hone ⊢
      rw [writeSlice_zeroSized (by simp; lia), ok_bind, ok_bind,
        writeIter_eq (by simp; lia)]

end Fill

theorem append_spec (h : Rep e d l) {other : Deque T} {items : List T} (ho : Rep e other items)
    (chosen : ℕ) :
    append e d other chosen = .panic d ∧ limit e < max (l.length+items.length) chosen ∨
    ∃ other' d', append e d other chosen = .ok (other', d') ∧ Rep e other' [] ∧
      Rep e d' (l ++ items) := by
  have hlen := h.len_eq
  have hleno := ho.len_eq
  unfold append
  cases e with
  | sized maxCap hmax =>
    rw [if_neg (by simp [Elem.isZst])]
    rcases reserve_spec h items.length chosen with ⟨hp, hbig⟩ | ⟨d₁, hres, h₁, hroom⟩
    · left
      rw [hleno, hp, panic_bind]
      exact ⟨rfl, hbig⟩
    right
    have hempty : Rep (.sized maxCap hmax) { other with len := 0, head := 0 } [] := by
      have hhead := ho.head_lt
      refine ⟨rfl, Nat.zero_le _, ho.cap_le, ?_, by simp⟩
      rcases hhead with hh | ⟨hc, -⟩
      · exact .inl (Nat.zero_lt_of_lt hh)
      · exact .inr ⟨hc, rfl⟩
    obtain ⟨left, right, hs, hl, -⟩ := asSlices_spec ho
    have hlen₁ := h₁.len_eq
    rw [rep_sized] at h₁
    subst hl
    rw [List.length_append] at *
    simp only [capacity_sized] at hroom
    obtain ⟨s₁, hc₁, h₂⟩ := copySlice_sized hmax h₁ (show d₁.len+left.length ≤ d₁.cap by lia) d₁.len
    obtain ⟨s₂, hc₂, h₃⟩ := copySlice_sized hmax h₂
      (show d₁.len+left.length+right.length ≤ d₁.cap by lia) d₁.len
    refine ⟨_, { d₁ with len := d₁.len+left.length+right.length, slot := s₂ }, ?_, hempty, ?_⟩
    · have hp₂ : toPhysicalIdx (.sized maxCap hmax) { d₁ with slot := s₁ } (d₁.len+left.length) =
          wrapIndex (d₁.head+(d₁.len+left.length)) d₁.cap :=
        h₂.phys (show d₁.len+left.length ≤ d₁.cap by lia)
      rw [hleno, hres, ok_bind, hs, ok_bind]
      simp only
      rw [h₁.phys (show d₁.len ≤ d₁.cap by lia), hc₁, ok_bind, hp₂, hc₂, ok_bind, pure_eq,
        Nat.add_assoc]
    · rw [rep_sized, ← List.append_assoc]
      exact h₃
  | zeroSized value unique =>
    rw [if_pos (by simp [Elem.isZst])]
    rw [rep_zeroSized] at h ho
    by_cases hfit : d.len+other.len ≤ usizeMax
    · right
      rw [ensure_of _ hfit, ok_bind]
      refine ⟨_, _, rfl, ?_, ?_⟩
      · rw [rep_zeroSized]
        exact ⟨rfl, Nat.zero_le _, by simp [usizeMax]⟩
      · rw [rep_zeroSized]
        simp only [List.length_append]
        lia
    · left
      rw [ensure_of_not _ hfit, panic_bind, limit]
      exact ⟨rfl, by lia⟩

@[simp] theorem length_generate (g : σ → T × σ) (n : ℕ) (s : σ) : (generate g n s).length = n := by
  induction n generalizing s with
  | zero => rfl
  | succ n ih => simp [generate, ih]

theorem resizeWith_spec (h : Rep e d l) (newLen : ℕ) (g : σ → T × σ) (s : σ) (chosen : ℕ) :
    resizeWith e d newLen g s chosen = .panic d ∧ limit e < max newLen chosen ∨
    ∃ dropped d', resizeWith e d newLen g s chosen = .ok (dropped, d') ∧
      Rep e d' (l.take newLen ++ generate g (newLen-l.length) s) := by
  have hlen := h.len_eq
  unfold resizeWith
  by_cases hgrow : newLen > d.len
  · simp only [if_pos hgrow]
    rcases reserve_spec h (newLen-d.len) chosen with ⟨hp, hbig⟩ | ⟨d₁, hres, h₁, hroom⟩
    · left
      rw [hp, panic_bind]
      exact ⟨rfl, by lia⟩
    right
    have hlen₁ := h₁.len_eq
    have hle₁ := h₁.len_le
    obtain ⟨src, hsrc⟩ : ∃ src, generate g (newLen-l.length) s = src := ⟨_, rfl⟩
    have hcount : src.length = newLen-l.length := by rw [← hsrc, length_generate]
    rw [hres, ok_bind, hlen, hsrc, List.take_of_length_le (by lia)]
    cases e with
    | sized maxCap hmax =>
      rw [rep_sized] at h₁
      simp only [capacity_sized] at hroom hle₁
      have hhead := h₁.head_lt
      obtain ⟨slot, hcopy, h₂⟩ := copySlice_sized hmax h₁ (show d₁.len+src.length ≤ d₁.cap by lia)
        d₁.len
      have hplace : wrapIndex (d₁.head+d₁.len) d₁.cap ≤ d₁.cap := by
        unfold wrapIndex
        split_ifs <;> lia
      refine ⟨[], _, ?_, rep_sized.mpr h₂⟩
      rw [h₁.phys hle₁, ← hcount, writeIterWrapping_eq (by simpa using hplace) (by simp; lia), hcopy]
      rfl
    | zeroSized value unique =>
      rw [rep_zeroSized] at h₁
      simp only [capacity_zeroSized] at hroom hle₁
      refine ⟨[], { d₁ with len := d₁.len+src.length }, ?_, ?_⟩
      · have hplace : toPhysicalIdx (.zeroSized value unique) d₁ d₁.len < usizeMax :=
          toPhysicalIdx_zeroSized _
        rw [← hcount, writeIterWrapping_eq (by simpa using hplace.le) (by simp; lia),
          copySlice_zeroSized hplace.le (by lia), ok_bind, pure_eq, ok_bind, pure_eq]
      · rw [rep_zeroSized]
        simp only [List.length_append]
        lia
  · right
    simp only [if_neg hgrow]
    obtain ⟨d', htrunc, hrep⟩ := truncate_spec h newLen
    rw [Nat.sub_eq_zero_of_le (show newLen ≤ l.length by lia)]
    exact ⟨_, d', htrunc, by simpa [generate] using hrep⟩

section Retain

variable (f : σ → T → Bool × T × σ)

/-- The elements that are kept, as the closure leaves them. -/
def listRetain : σ → List T → List T
  | _, [] => []
  | s, x :: l =>
    if (f s x).1 then (f s x).2.1 :: listRetain (f s x).2.2 l else listRetain (f s x).2.2 l

theorem visit_spec {pre rest : List T} {x : T} (h : Rep e d (pre ++ x :: rest)) (s : σ) :
    ∃ d', visit e d f s pre.length = .ok ((f s x).1, (f s x).2.2, d') ∧
      Rep e d' (pre ++ (f s x).2.1 :: rest) := by
  have hlen := h.len_eq
  rw [List.length_append, List.length_cons] at hlen
  have hread := h.elem pre.length x (by simp)
  obtain ⟨slot, hw, hrep⟩ := h.write (show pre.length < d.len by lia) (f s x).2.1
  refine ⟨_, ?_, by simpa using hrep⟩
  simp only [visit, ensure_of d (show pre.length < d.len by lia), ok_bind, hread, hw, pure_eq]

theorem swap_kept {kept junk rest : List T} {y : T} (h : Rep e d (kept ++ junk ++ y :: rest)) :
    ∃ junk' d', swap e d kept.length (kept ++ junk).length = .ok d' ∧ junk'.length = junk.length ∧
      Rep e d' ((kept ++ [y]) ++ junk' ++ rest) := by
  have hy : (kept ++ junk ++ y :: rest)[(kept ++ junk).length]? = some y := by simp
  cases junk with
  | nil =>
    obtain ⟨d', hswap, hrep⟩ := swap_spec h
      (show (kept ++ [] ++ y :: rest)[kept.length]? = some y by simp) hy
    exact ⟨[], d', hswap, rfl, by simpa using hrep⟩
  | cons z junk =>
    obtain ⟨d', hswap, hrep⟩ := swap_spec h
      (show (kept ++ z :: junk ++ y :: rest)[kept.length]? = some z by simp) hy
    refine ⟨junk ++ [z], d', hswap, by simp, ?_⟩
    have hlist : ((kept ++ z :: junk ++ y :: rest).set kept.length y).set
        (kept ++ z :: junk).length z = kept ++ [y] ++ (junk ++ [z]) ++ rest := by
      simp [List.set_append_right]
    rwa [hlist] at hrep

theorem retainRest_spec {rest : List T} : ∀ (kept junk : List T) {d : Deque T} (s : σ),
    Rep e d (kept ++ junk ++ rest) →
    ∃ junk' d', retainRest e f rest.length s d kept.length (kept ++ junk).length =
        .ok ((kept ++ listRetain f s rest).length, (kept ++ junk ++ rest).length, d') ∧
      (listRetain f s rest).length+junk'.length = junk.length+rest.length ∧
      Rep e d' (kept ++ listRetain f s rest ++ junk') := by
  induction rest with
  | nil =>
    intro kept junk d s h
    exact ⟨junk, d, by simp [retainRest, listRetain], by simp [listRetain],
      by simpa [listRetain] using h⟩
  | cons x rest ih =>
    intro kept junk d s h
    obtain ⟨d₁, hvisit, h₁⟩ := visit_spec f h s
    simp only [List.length_cons, retainRest, hvisit, ok_bind, listRetain]
    cases hkeep : (f s x).1 with
    | false =>
      -- the element joins those not kept
      obtain ⟨junk', d', hrest, hcount', hrep⟩ := ih kept (junk ++ [(f s x).2.1]) (f s x).2.2
        (by simpa using h₁)
      refine ⟨junk', d', ?_, ?_, by simpa using hrep⟩
      · simp only [Bool.not_false, if_true, Bool.false_eq_true, if_false]
        convert hrest using 2 <;> simp
        lia
      · simp at hcount' ⊢
        lia
    | true =>
      obtain ⟨junk₁, d₂, hswap, hcount, h₂⟩ := swap_kept h₁
      obtain ⟨junk', d', hrest, hcount', hrep⟩ := ih (kept ++ [(f s x).2.1]) junk₁ (f s x).2.2 h₂
      refine ⟨junk', d', ?_, ?_, by simpa using hrep⟩
      · simp only [Bool.not_true, Bool.false_eq_true, if_false, if_true, hswap, ok_bind]
        convert hrest using 2 <;> simp <;> lia
      · simp at hcount' ⊢
        lia

theorem retainFirst_spec {rest : List T} : ∀ (kept : List T) {d : Deque T} (s : σ),
    Rep e d (kept ++ rest) →
    ∃ junk' d', retainFirst e f rest.length s d kept.length kept.length =
        .ok ((kept ++ listRetain f s rest).length, (kept ++ rest).length, d') ∧
      (listRetain f s rest).length+junk'.length = rest.length ∧
      Rep e d' (kept ++ listRetain f s rest ++ junk') := by
  induction rest with
  | nil =>
    intro kept d s h
    exact ⟨[], d, by simp [retainFirst, listRetain], by simp [listRetain],
      by simpa [listRetain] using h⟩
  | cons x rest ih =>
    intro kept d s h
    obtain ⟨d₁, hvisit, h₁⟩ := visit_spec f h s
    simp only [List.length_cons, retainFirst, hvisit, ok_bind, listRetain]
    cases hkeep : (f s x).1 with
    | false =>
      obtain ⟨junk', d', hrest, hcount', hrep⟩ := retainRest_spec f kept [(f s x).2.1] (f s x).2.2
        (by simpa using h₁)
      refine ⟨junk', d', ?_, ?_, by simpa using hrep⟩
      · simp only [Bool.not_false, if_true, Bool.false_eq_true, if_false]
        convert hrest using 2 <;> simp
      · simp at hcount' ⊢
        lia
    | true =>
      obtain ⟨junk', d', hrest, hcount', hrep⟩ := ih (kept ++ [(f s x).2.1]) (f s x).2.2 (by simpa using h₁)
      refine ⟨junk', d', ?_, ?_, by simpa using hrep⟩
      · simp only [Bool.not_true, Bool.false_eq_true, if_false, if_true]
        convert hrest using 2 <;> simp
      · simp at hcount' ⊢
        lia

theorem retainMut_spec (h : Rep e d l) (s : σ) :
    ∃ dropped d', retainMut e d f s = .ok (dropped, d') ∧ Rep e d' (listRetain f s l) := by
  have hlen := h.len_eq
  obtain ⟨junk, d₁, hloop, hcount, h₁⟩ := retainFirst_spec f [] s (by simpa using h)
  simp only [List.length_nil, List.nil_append] at hloop h₁
  have hlen₁ := h₁.len_eq
  unfold retainMut
  rw [hlen, hloop, ok_bind]
  simp only
  by_cases hcur : l.length ≠ (listRetain f s l).length
  · rw [if_pos hcur]
    obtain ⟨d', htrunc, hrep⟩ := truncate_spec h₁ (listRetain f s l).length
    exact ⟨_, d', htrunc, by simpa using hrep⟩
  · rw [if_neg hcur]
    have hjunk : junk = [] := List.eq_nil_of_length_eq_zero (by lia)
    subst hjunk
    exact ⟨[], d₁, rfl, by simpa using h₁⟩

end Retain

theorem makeContiguous_spec (h : Rep e d l) :
    ∃ d', makeContiguous e d = .ok (l, d') ∧ Rep e d' l := by
  have hone {d' : Deque T} (h' : Rep e d' l) (hfit : d'.head+d'.len ≤ capacity e d') :
      bufferRange e d' d'.head d'.len = .ok l := by
    rw [h'.len_eq] at hfit ⊢
    apply bufferRange_spec
    intro i x hx
    have := lt_of_getElem? hx
    exact h'.read_straight hx (by lia)
  have hle := h.len_le
  unfold makeContiguous isContiguous
  cases e with
  | sized maxCap hmax =>
    simp only [Elem.isZst, Bool.false_eq_true, if_false, capacity_sized, decide_eq_true_eq] at hle ⊢
    by_cases hc : d.head ≤ d.cap-d.len
    · rw [if_pos hc, ok_bind, hone h (by simp; lia), ok_bind]
      exact ⟨d, rfl, h⟩
    · obtain ⟨d', hmoves, hrep, hfit⟩ := contiguousMoves_sized hmax (rep_sized.mp h)
        (by lia)
      rw [if_neg hc, hmoves, ok_bind, hone (rep_sized.mpr hrep) hfit, ok_bind]
      exact ⟨d', rfl, rep_sized.mpr hrep⟩
  | zeroSized value unique =>
    have h' : Rep (.zeroSized value unique) { d with head := 0 } l := by
      rw [rep_zeroSized] at h ⊢
      exact ⟨h.1, h.2.1, by simp [usizeMax]⟩
    simp only [Elem.isZst, if_true, capacity_zeroSized, Nat.zero_le, decide_true, ok_bind]
    rw [hone h' (by simpa using hle), ok_bind]
    exact ⟨_, rfl, h'⟩

theorem shrinkTo_small {minCapacity : ℕ}
    (hsmall : (e.isZst || capacity e d ≤ max minCapacity d.len) = true) (fails : Bool) :
    shrinkTo e d minCapacity fails = .ok d := by
  unfold shrinkTo
  simp only [if_pos hsmall]

theorem shrinkTo_cut (h : Rep e d l) {minCapacity : ℕ}
    (hlarge : ¬ (e.isZst || capacity e d ≤ max minCapacity d.len) = true) :
    ∃ d', shrinkTo e d minCapacity false = .ok d' ∧ d'.cap = max minCapacity d.len ∧
      Rep e d' l := by
  unfold shrinkTo
  simp only [if_neg hlarge]
  cases e with
  | sized maxCap hmax =>
    rw [rep_sized] at h
    simp only [Elem.isZst, capacity_sized, Bool.false_or, decide_eq_true_eq] at hlarge
    obtain ⟨d₁, hmoves, hshrunk⟩ := shrinkMoves_sized hmax h
      (show max minCapacity d.len < d.cap by lia) (by lia)
    rw [hmoves, ok_bind]
    exact ⟨_, rfl, rfl, rep_sized.mpr hshrunk.rep⟩
  | zeroSized value unique => simp [Elem.isZst] at hlarge

theorem shrinkTo_aborted (h : Rep e d l) {minCapacity : ℕ}
    (hlarge : ¬ (e.isZst || capacity e d ≤ max minCapacity d.len) = true) :
    ∃ d', shrinkTo e d minCapacity true = .panic d' ∧ d'.cap = d.cap ∧ Rep e d' l := by
  unfold shrinkTo
  simp only [if_neg hlarge]
  cases e with
  | sized maxCap hmax =>
    rw [rep_sized] at h
    simp only [Elem.isZst, capacity_sized, Bool.false_or, decide_eq_true_eq] at hlarge
    obtain ⟨d₁, hmoves, hshrunk⟩ := shrinkMoves_sized hmax h
      (show max minCapacity d.len < d.cap by lia) (by lia)
    obtain ⟨d₂, habort, hcap, hrep⟩ := abortShrink_sized hmax hshrunk (by lia) h.cap_le
    rw [hmoves, ok_bind, if_pos trivial, habort, ok_bind]
    exact ⟨d₂, rfl, hcap, rep_sized.mpr hrep⟩
  | zeroSized value unique => simp [Elem.isZst] at hlarge

theorem shrinkTo_spec (h : Rep e d l) (minCapacity : ℕ) (fails : Bool) :
    ∃ d', (shrinkTo e d minCapacity fails = .ok d' ∨
      fails = true ∧ shrinkTo e d minCapacity fails = .panic d') ∧ Rep e d' l := by
  by_cases hsmall : (e.isZst || capacity e d ≤ max minCapacity d.len) = true
  · exact ⟨d, .inl (shrinkTo_small hsmall fails), h⟩
  cases fails with
  | true =>
    obtain ⟨d', hpanic, -, hrep⟩ := shrinkTo_aborted h hsmall
    exact ⟨d', .inr ⟨rfl, hpanic⟩, hrep⟩
  | false =>
    obtain ⟨d', hok, -, hrep⟩ := shrinkTo_cut h hsmall
    exact ⟨d', .inl hok, hrep⟩

/-- Whether the allocator shrinks the buffer or unwinds, the deque holds the same
elements, in the new capacity or in the old one. -/
theorem shrinkTo_keeps_elements (h : Rep e d l) (minCapacity : ℕ) :
    if (e.isZst || capacity e d ≤ max minCapacity d.len) = true then
      ∀ fails, shrinkTo e d minCapacity fails = .ok d
    else
      (∃ d', shrinkTo e d minCapacity false = .ok d' ∧ d'.cap = max minCapacity d.len ∧
        Rep e d' l) ∧
      ∃ d', shrinkTo e d minCapacity true = .panic d' ∧ d'.cap = d.cap ∧ Rep e d' l := by
  split_ifs with hsmall
  · exact shrinkTo_small hsmall
  · exact ⟨shrinkTo_cut h hsmall, shrinkTo_aborted h hsmall⟩

/-- Four elements that wrap in a buffer of seven. -/
theorem shrinkTo_keeps_elements_wrapped :
    let e : Elem ℕ := .sized 7 (by decide)
    let d : Deque ℕ := ⟨5, 4, 7, fun j => some j⟩
    (∃ d', shrinkTo e d 0 false = .ok d' ∧ d'.cap = 4 ∧ Rep e d' [5, 6, 0, 1]) ∧
      ∃ d', shrinkTo e d 0 true = .panic d' ∧ d'.cap = 7 ∧ Rep e d' [5, 6, 0, 1] := by
  have hrep : Rep (.sized 7 (by decide)) (⟨5, 4, 7, fun j => some j⟩ : Deque ℕ) [5, 6, 0, 1] := by
    rw [rep_sized]
    refine ⟨rfl, by decide, le_rfl, .inl (by decide), fun i x hx => ?_⟩
    have hi := lt_of_getElem? hx
    simp only [List.length_cons, List.length_nil] at hi
    interval_cases i <;> exact hx
  exact shrinkTo_keeps_elements hrep 0

end RustStd.VecDeque
