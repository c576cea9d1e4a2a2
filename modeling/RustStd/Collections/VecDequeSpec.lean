import RustStd.Collections.VecDeque

/-!
# `VecDeque` represents a list

Element `i` of the list is in the slot that `to_physical_idx` gives for `i`. The
operations are followed on the list; for elements that take up no space only the
length matters.
-/

set_option autoImplicit false

namespace RustStd.VecDeque
open RustStd.Machine RustStd.Outcome

variable {σ T : Type}

def limit : Elem T → ℕ
  | .sized maxCap _ => maxCap
  | .zeroSized .. => usizeMax

/-- The deque holds the list, and its fields are within bounds. -/
structure Rep (e : Elem T) (d : Deque T) (l : List T) : Prop where
  len_eq : d.len = l.length
  len_le : d.len ≤ capacity e d
  cap_le : capacity e d ≤ limit e
  head_lt : d.head < capacity e d ∨ capacity e d = 0 ∧ d.head = 0
  elem : ∀ i x, l[i]? = some x → bufferRead e d (toPhysicalIdx e d i) = .ok x

section Sized

variable {maxCap : ℕ} {hmax : maxCap ≤ isizeMax} {d : Deque T} {l : List T}

/-- The representation when elements have slots of their own. -/
structure SRep (maxCap : ℕ) (d : Deque T) (l : List T) : Prop where
  len_eq : d.len = l.length
  len_le : d.len ≤ d.cap
  cap_le : d.cap ≤ maxCap
  head_lt : d.head < d.cap ∨ d.cap = 0 ∧ d.head = 0
  elem : ∀ i x, l[i]? = some x → d.slot (wrapIndex (d.head+i) d.cap) = some x

theorem toPhysicalIdx_sized (hcap : d.cap ≤ maxCap) (hh : d.head ≤ d.cap) {i : ℕ}
    (hi : i ≤ d.cap) :
    toPhysicalIdx (.sized maxCap hmax) d i = wrapIndex (d.head+i) d.cap := by
  unfold isizeMax at hmax
  exact wrapAdd_sized (by lia)

theorem bufferRead_sized {off : ℕ} {x : T} (ho : off < d.cap) :
    bufferRead (.sized maxCap hmax) d off = .ok x ↔ d.slot off = some x := by
  simp only [bufferRead, require, capacity_sized, ho, if_true, ok_bind]
  cases d.slot off with
  | none => simp [ofOption]
  | some y => simp

theorem lt_of_getElem? {i : ℕ} {x : T} (h : l[i]? = some x) : i < l.length :=
  (List.getElem?_eq_some_iff.mp h).1

theorem SRep.phys (h : SRep maxCap d l) {i : ℕ} (hi : i ≤ d.cap) :
    toPhysicalIdx (.sized maxCap hmax) d i = wrapIndex (d.head+i) d.cap := by
  have := h.head_lt
  exact toPhysicalIdx_sized h.cap_le (by lia) hi

theorem rep_sized : Rep (.sized maxCap hmax) d l ↔ SRep maxCap d l := by
  constructor
  · intro h
    have hlen : d.len = l.length := h.len_eq
    have hle : d.len ≤ d.cap := h.len_le
    have hcap : d.cap ≤ maxCap := h.cap_le
    have hhead : d.head < d.cap ∨ d.cap = 0 ∧ d.head = 0 := h.head_lt
    refine ⟨hlen, hle, hcap, hhead, fun i x hx => ?_⟩
    have hi := lt_of_getElem? hx
    have hread := h.elem i x hx
    rwa [toPhysicalIdx_sized hcap (by lia) (by lia),
      bufferRead_sized (wrapIndex_lt (by lia) (by lia))] at hread
  · intro h
    have hlen := h.len_eq
    have hle := h.len_le
    have hhead := h.head_lt
    refine ⟨hlen, hle, h.cap_le, hhead, fun i x hx => ?_⟩
    have hi := lt_of_getElem? hx
    rw [h.phys (by lia), bufferRead_sized (wrapIndex_lt (by lia) (by lia))]
    exact h.elem i x hx

theorem wrapIndex_inj {h i j cap : ℕ} (hi : i < cap) (hj : j < cap) :
    wrapIndex (h+i) cap = wrapIndex (h+j) cap ↔ i = j := by
  unfold wrapIndex
  split_ifs <;> lia

theorem writeSlots_singleton (slot : ℕ → Option T) (p : ℕ) (v : T) (j : ℕ) :
    writeSlots slot p [v] j = if j = p then some v else slot j := by
  unfold writeSlots
  by_cases hj : j = p
  · simp [hj]
  · rw [if_neg (by simp; lia), if_neg hj]

theorem writeSlice_sized {src : List T} {dst : ℕ} (h : dst+src.length ≤ d.cap) :
    writeSlice (.sized maxCap hmax) d dst src =
      .ok { d with slot := writeSlots d.slot dst src } := by
  simp [writeSlice, require, h, Elem.isZst]

theorem SRep.set (h : SRep maxCap d l) {i : ℕ} (hi : i < l.length) (v : T) :
    SRep maxCap { d with slot := writeSlots d.slot (wrapIndex (d.head+i) d.cap) [v] }
      (l.set i v) := by
  have hlen := h.len_eq
  have hle := h.len_le
  have hhead := h.head_lt
  refine ⟨by simpa using hlen, hle, h.cap_le, hhead, fun j x hx => ?_⟩
  have hj := lt_of_getElem? hx
  rw [List.length_set] at hj
  change writeSlots d.slot _ [v] _ = _
  rw [writeSlots_singleton]
  simp only [wrapIndex_inj (show j < d.cap by lia) (show i < d.cap by lia)]
  rw [List.getElem?_set] at hx
  split_ifs at hx ⊢ with h1 h2 h3
  all_goals first | lia | exact hx | exact h.elem j x hx

theorem SRep.concat (h : SRep maxCap d l) (hroom : d.len < d.cap) (v : T) :
    SRep maxCap { d with
      len := d.len+1, slot := writeSlots d.slot (wrapIndex (d.head+d.len) d.cap) [v] }
      (l ++ [v]) := by
  have hlen := h.len_eq
  have hhead := h.head_lt
  refine ⟨by simpa using hlen, hroom, h.cap_le, hhead, fun j x hx => ?_⟩
  have hj := lt_of_getElem? hx
  rw [List.length_append, List.length_singleton] at hj
  change writeSlots d.slot _ [v] _ = _
  rw [writeSlots_singleton]
  simp only [wrapIndex_inj (show j < d.cap by lia) hroom]
  split_ifs with hjl
  · subst hjl
    rw [hlen] at hx
    simpa using hx
  · rw [List.getElem?_append_left (by lia)] at hx
    exact h.elem j x hx

theorem SRep.cons (h : SRep maxCap d l) (hroom : d.len < d.cap) (v : T) :
    SRep maxCap { d with
      head := wrapIndex (d.head+d.cap-1) d.cap, len := d.len+1,
      slot := writeSlots d.slot (wrapIndex (d.head+d.cap-1) d.cap) [v] } (v :: l) := by
  have hlen := h.len_eq
  have hhead := h.head_lt
  have hnew : wrapIndex (d.head+d.cap-1) d.cap < d.cap := by
    unfold wrapIndex
    split_ifs <;> lia
  refine ⟨by simpa using hlen, hroom, h.cap_le, .inl hnew, fun j x hx => ?_⟩
  have hj := lt_of_getElem? hx
  rw [List.length_cons] at hj
  change writeSlots d.slot _ [v] (wrapIndex (wrapIndex (d.head+d.cap-1) d.cap+j) d.cap) = _
  rw [writeSlots_singleton]
  cases j with
  | zero =>
    rw [if_pos (by rw [Nat.add_zero, wrapIndex, if_neg (by lia)])]
    simpa using hx
  | succ j =>
    have hidx : wrapIndex (wrapIndex (d.head+d.cap-1) d.cap+(j+1)) d.cap =
        wrapIndex (d.head+j) d.cap := by
      unfold wrapIndex
      split_ifs <;> lia
    rw [if_neg (by unfold wrapIndex; split_ifs <;> lia), hidx]
    exact h.elem j x (by simpa using hx)

theorem SRep.drop (h : SRep maxCap d l) {n : ℕ} (hn : n ≤ d.len) :
    SRep maxCap { d with head := wrapIndex (d.head+n) d.cap, len := d.len-n } (l.drop n) := by
  have hlen := h.len_eq
  have hle := h.len_le
  have hhead := h.head_lt
  refine ⟨by simp [hlen], (by simp; lia), h.cap_le, ?_, fun j x hx => ?_⟩
  · rcases hhead with hh | ⟨hc, hh⟩
    · exact .inl (wrapIndex_lt hh (by lia))
    · refine .inr ⟨hc, ?_⟩
      simp [wrapIndex, hc, hh]
      lia
  · have hj := lt_of_getElem? hx
    rw [List.length_drop] at hj
    rw [List.getElem?_drop] at hx
    have hidx : wrapIndex (wrapIndex (d.head+n) d.cap+j) d.cap = wrapIndex (d.head+(n+j)) d.cap := by
      unfold wrapIndex
      split_ifs <;> lia
    change d.slot (wrapIndex (wrapIndex (d.head+n) d.cap+j) d.cap) = _
    rw [hidx]
    exact h.elem _ x hx

theorem SRep.take (h : SRep maxCap d l) {n : ℕ} (hn : n ≤ d.len) :
    SRep maxCap { d with len := n } (l.take n) := by
  have hlen := h.len_eq
  have hle := h.len_le
  refine ⟨by simp; lia, by simp; lia, h.cap_le, h.head_lt, fun j x hx => ?_⟩
  have hj := lt_of_getElem? hx
  rw [List.length_take] at hj
  rw [List.getElem?_take_of_lt (by lia)] at hx
  exact h.elem j x hx

theorem dist_wrapIndex {cap h a b : ℕ} (hab : a ≤ b) (hb : b < cap) :
    max (wrapIndex (h+a) cap) (wrapIndex (h+b) cap)-min (wrapIndex (h+a) cap) (wrapIndex (h+b) cap) = b-a ∨
    max (wrapIndex (h+a) cap) (wrapIndex (h+b) cap)-min (wrapIndex (h+a) cap) (wrapIndex (h+b) cap) =
      cap-(b-a) := by
  unfold wrapIndex
  split_ifs with ha' hb' hb'
  · left
    rw [max_eq_right (by lia), min_eq_left (by lia)]
    lia
  · exfalso
    lia
  · right
    rw [max_eq_left (by lia), min_eq_right (by lia)]
    lia
  · left
    rw [max_eq_right (by lia), min_eq_left (by lia)]
    lia

theorem apart_iff {cap a b len : ℕ} : Apart cap a b len ↔ Apart cap b a len := by
  rw [Apart, Apart, max_comm, min_comm a]

theorem apart_logical {cap h a b len : ℕ} (hh : h < cap) (ha : a < cap) (hb : b < cap)
    (hap : Apart cap a b len) : Apart cap (wrapIndex (h+a) cap) (wrapIndex (h+b) cap) len := by
  wlog hab : a ≤ b generalizing a b
  · rw [apart_iff]
    exact this hb ha (apart_iff.mp hap) (by lia)
  rw [Apart, max_eq_right hab, min_eq_left hab] at hap
  rw [Apart]
  rcases dist_wrapIndex (h := h) hab hb with hd | hd
  · rwa [hd]
  · rwa [hd, Nat.sub_sub_self (by lia), min_comm]

variable (hmax) in
theorem wrapCopy_logical {h a b len : ℕ} (hcap : d.cap ≤ maxCap) (hh : h < d.cap) (ha : a < d.cap)
    (hb : b < d.cap) (hl : len ≤ d.cap) (hap : Apart d.cap a b len) :
    ∃ slot, wrapCopy (.sized maxCap hmax) d (wrapIndex (h+a) d.cap) (wrapIndex (h+b) d.cap) len =
        .ok { d with slot } ∧
      ∀ i < d.cap, slot (wrapIndex (h+i) d.cap) =
        if ringDist d.cap i b < len then
          d.slot (wrapIndex (h+wrapIndex (a+ringDist d.cap i b) d.cap) d.cap)
        else d.slot (wrapIndex (h+i) d.cap) := by
  obtain ⟨slot, hw, hslot⟩ := wrapCopy_sized hmax (hcap.trans hmax)
    (wrapIndex_lt hh ha.le) (wrapIndex_lt hh hb.le) hl (apart_logical hh ha hb hap)
  refine ⟨slot, hw, fun i hi => ?_⟩
  rw [hslot _ (wrapIndex_lt hh hi.le), ringCopy_logical hh hb hi]

theorem wrapCopy_zero (e : Elem T) (src dst : ℕ) : wrapCopy e d src dst 0 = .ok d := by
  simp [wrapCopy]

theorem wrapCopy_self (e : Elem T) (src len : ℕ) : wrapCopy e d src src len = .ok d := by
  simp [wrapCopy]

variable (hmax) in
theorem SRep.open_back (h : SRep maxCap d l) (hroom : d.len < d.cap) {index : ℕ}
    (hi : index ≤ d.len) :
    ∃ slot, wrapCopy (.sized maxCap hmax) d (wrapIndex (d.head+index) d.cap)
        (wrapIndex (d.head+(index+1)) d.cap) (d.len-index) = .ok { d with slot } ∧
      ∀ v, SRep maxCap { d with
        len := d.len+1, slot := writeSlots slot (wrapIndex (d.head+index) d.cap) [v] }
        (l.insertIdx index v) := by
  have hlen := h.len_eq
  have hhead := h.head_lt
  obtain ⟨slot, hw, hslot⟩ : ∃ slot, wrapCopy (.sized maxCap hmax) d (wrapIndex (d.head+index) d.cap)
      (wrapIndex (d.head+(index+1)) d.cap) (d.len-index) = .ok { d with slot } ∧
      ∀ i < d.cap, slot (wrapIndex (d.head+i) d.cap) =
        if index < i ∧ i ≤ d.len then d.slot (wrapIndex (d.head+(i-1)) d.cap)
        else d.slot (wrapIndex (d.head+i) d.cap) := by
    rcases Nat.eq_or_lt_of_le hi with heq | hlt
    · refine ⟨d.slot, ?_, fun i hi => ?_⟩
      · rw [heq, Nat.sub_self, wrapCopy_zero]
      · rw [if_neg (by lia)]
    · obtain ⟨slot, hw, hslot⟩ := wrapCopy_logical hmax (h := d.head) (a := index)
        (b := index+1) (d := d) h.cap_le (by lia) (by lia) (by lia)
        (show d.len-index ≤ d.cap by lia) (by unfold Apart; lia)
      refine ⟨slot, hw, fun i hi => ?_⟩
      rw [hslot i hi]
      unfold ringDist
      split_ifs with h1 h2 h3
      all_goals first | lia | rfl | skip
      · congr 2
        rw [wrapIndex, if_neg (by lia)]
        lia
  refine ⟨slot, hw, fun v => ?_⟩
  refine ⟨?_, hroom, h.cap_le, hhead, fun j x hx => ?_⟩
  · simp [List.length_insertIdx, ← hlen, hi]
  · have hj := lt_of_getElem? hx
    rw [List.length_insertIdx_of_le_length (by lia)] at hj
    change writeSlots slot _ [v] _ = _
    rw [writeSlots_singleton]
    simp only [wrapIndex_inj (show j < d.cap by lia) (show index < d.cap by lia)]
    rw [hslot j (by lia)]
    rw [List.getElem?_insertIdx] at hx
    split_ifs at hx ⊢ with h1 h2
    all_goals first | lia | exact hx | exact h.elem _ x hx

variable (hmax) in
/-- The elements before `index` move forward by one, into a new head. -/
theorem SRep.open_front (h : SRep maxCap d l) (hroom : d.len < d.cap) {index : ℕ}
    (hi : index ≤ d.len-index) :
    ∃ slot, wrapCopy (.sized maxCap hmax) { d with head := wrapIndex (d.head+d.cap-1) d.cap } d.head
        (wrapIndex (d.head+d.cap-1) d.cap) index =
          .ok { d with head := wrapIndex (d.head+d.cap-1) d.cap, slot } ∧
      ∀ v, SRep maxCap { d with
        head := wrapIndex (d.head+d.cap-1) d.cap, len := d.len+1,
        slot := writeSlots slot (wrapIndex (wrapIndex (d.head+d.cap-1) d.cap+index) d.cap) [v] }
        (l.insertIdx index v) := by
  have hlen := h.len_eq
  have hhead := h.head_lt
  obtain ⟨p, hp⟩ : ∃ p, wrapIndex (d.head+d.cap-1) d.cap = p := ⟨_, rfl⟩
  have hplt : p < d.cap := by
    rw [← hp]
    unfold wrapIndex
    split_ifs <;> lia
  -- the old position `j` is the new position `j+1`
  have hshift (j : ℕ) (hj : j < d.cap) : wrapIndex (p+(j+1)) d.cap = wrapIndex (d.head+j) d.cap := by
    rw [← hp]
    unfold wrapIndex
    split_ifs <;> lia
  rw [hp]
  obtain ⟨slot, hw, hslot⟩ : ∃ slot, wrapCopy (.sized maxCap hmax) { d with head := p } d.head
      p index = .ok { d with head := p, slot } ∧
      ∀ i < d.cap, slot (wrapIndex (p+i) d.cap) =
        if i < index then d.slot (wrapIndex (p+(i+1)) d.cap) else d.slot (wrapIndex (p+i) d.cap) := by
    rcases Nat.eq_zero_or_pos index with rfl | hpos
    · exact ⟨d.slot, wrapCopy_zero _ _ _, fun i hi => by rw [if_neg (by lia)]⟩
    · obtain ⟨slot, hw, hslot⟩ := wrapCopy_logical hmax (h := p) (a := 1) (b := 0)
        (d := { d with head := p }) h.cap_le hplt (show 1 < d.cap by lia) (show 0 < d.cap by lia)
        (show index ≤ d.cap by lia) (by unfold Apart; simp; lia)
      have hsrc : wrapIndex (p+1) d.cap = d.head := by
        rw [hshift 0 (by lia), Nat.add_zero, wrapIndex, if_neg (by lia)]
      have hdst : wrapIndex (p+0) d.cap = p := by
        rw [Nat.add_zero, wrapIndex, if_neg (by lia)]
      simp only [hsrc, hdst] at hw
      refine ⟨slot, hw, fun i hi => ?_⟩
      rw [hslot i hi, ringDist, if_pos (Nat.zero_le i), Nat.sub_zero]
      split_ifs with hlt
      · have hone : wrapIndex (1+i) d.cap = i+1 := by
          rw [wrapIndex, if_neg (by lia), Nat.add_comm]
        change d.slot (wrapIndex (p+wrapIndex (1+i) d.cap) d.cap) = _
        rw [hone]
      · rfl
  refine ⟨slot, hw, fun v => ?_⟩
  refine ⟨?_, hroom, h.cap_le, .inl hplt, fun j x hx => ?_⟩
  · simp [List.length_insertIdx, ← hlen, show index ≤ d.len by lia]
  · have hj := lt_of_getElem? hx
    rw [List.length_insertIdx_of_le_length (by lia)] at hj
    change writeSlots slot _ [v] (wrapIndex (p+j) d.cap) = _
    rw [writeSlots_singleton]
    simp only [wrapIndex_inj (show j < d.cap by lia) (show index < d.cap by lia)]
    rw [hslot j (by lia)]
    rw [List.getElem?_insertIdx] at hx
    split_ifs at hx ⊢ with h1 h2
    all_goals first | lia | exact hx | skip
    · rw [hshift j (by lia)]
      exact h.elem _ x hx
    · obtain ⟨j, rfl⟩ : ∃ n, j = n+1 := ⟨j-1, by lia⟩
      rw [hshift j (by lia)]
      exact h.elem _ x hx

variable (hmax) in
theorem SRep.close_back (h : SRep maxCap d l) {index : ℕ} (hi : index < d.len)
    (hk : d.len-index-1 < index) :
    ∃ slot, wrapCopy (.sized maxCap hmax) d (wrapIndex (wrapIndex (d.head+index) d.cap+1) d.cap)
        (wrapIndex (d.head+index) d.cap) (d.len-index-1) = .ok { d with slot } ∧
      SRep maxCap { d with len := d.len-1, slot } (l.eraseIdx index) := by
  have hlen := h.len_eq
  have hle := h.len_le
  have hhead := h.head_lt
  obtain ⟨slot, hw, hslot⟩ : ∃ slot, wrapCopy (.sized maxCap hmax) d
      (wrapIndex (wrapIndex (d.head+index) d.cap+1) d.cap) (wrapIndex (d.head+index) d.cap)
      (d.len-index-1) = .ok { d with slot } ∧
      ∀ i < d.cap, slot (wrapIndex (d.head+i) d.cap) =
        if index ≤ i ∧ i+1 < d.len then d.slot (wrapIndex (d.head+(i+1)) d.cap)
        else d.slot (wrapIndex (d.head+i) d.cap) := by
    rcases Nat.eq_zero_or_pos (d.len-index-1) with hz | hpos
    · refine ⟨d.slot, ?_, fun i hi => ?_⟩
      · rw [hz, wrapCopy_zero]
      · rw [if_neg (by lia)]
    · obtain ⟨slot, hw, hslot⟩ := wrapCopy_logical hmax (h := d.head) (a := index+1) (b := index)
        (d := d) h.cap_le (by lia) (by lia) (by lia)
        (show d.len-index-1 ≤ d.cap by lia) (by unfold Apart; lia)
      have hsrc : wrapIndex (wrapIndex (d.head+index) d.cap+1) d.cap =
          wrapIndex (d.head+(index+1)) d.cap := by
        unfold wrapIndex
        split_ifs <;> lia
      refine ⟨slot, by rw [hsrc, hw], fun i hi => ?_⟩
      rw [hslot i hi]
      unfold ringDist
      split_ifs with h1 h2 h3
      all_goals first | lia | rfl | skip
      · congr 2
        rw [wrapIndex, if_neg (by lia)]
        lia
  refine ⟨slot, hw, ?_, by simp; lia, h.cap_le, hhead, fun j x hx => ?_⟩
  · simp [List.length_eraseIdx, ← hlen, hi]
  · have hj := lt_of_getElem? hx
    rw [List.length_eraseIdx_of_lt (by lia)] at hj
    change slot (wrapIndex (d.head+j) d.cap) = _
    rw [hslot j (by lia)]
    rw [List.getElem?_eraseIdx] at hx
    split_ifs at hx ⊢ with h1 h2
    all_goals first | lia | exact h.elem _ x hx

variable (hmax) in
/-- The elements before `index` move back by one, over the old head. -/
theorem SRep.close_front (h : SRep maxCap d l) {index : ℕ} (hi : index < d.len)
    (hk : index ≤ d.len-index-1) :
    ∃ slot, wrapCopy (.sized maxCap hmax) { d with head := wrapIndex (d.head+1) d.cap } d.head
        (wrapIndex (d.head+1) d.cap) index =
          .ok { d with head := wrapIndex (d.head+1) d.cap, slot } ∧
      SRep maxCap { d with head := wrapIndex (d.head+1) d.cap, len := d.len-1, slot }
        (l.eraseIdx index) := by
  have hlen := h.len_eq
  have hle := h.len_le
  have hhead := h.head_lt
  obtain ⟨slot, hw, hslot⟩ : ∃ slot, wrapCopy (.sized maxCap hmax)
      { d with head := wrapIndex (d.head+1) d.cap } d.head (wrapIndex (d.head+1) d.cap) index =
        .ok { d with head := wrapIndex (d.head+1) d.cap, slot } ∧
      ∀ i < d.cap, slot (wrapIndex (d.head+i) d.cap) =
        if 0 < i ∧ i ≤ index then d.slot (wrapIndex (d.head+(i-1)) d.cap)
        else d.slot (wrapIndex (d.head+i) d.cap) := by
    rcases Nat.eq_zero_or_pos index with rfl | hpos
    · exact ⟨d.slot, wrapCopy_zero _ _ _, fun i hi => by rw [if_neg (by lia)]⟩
    · obtain ⟨slot, hw, hslot⟩ := wrapCopy_logical hmax (h := d.head) (a := 0) (b := 1)
        (d := { d with head := wrapIndex (d.head+1) d.cap }) h.cap_le (by simp; lia)
        (show 0 < d.cap by lia) (show 1 < d.cap by lia) (show index ≤ d.cap by lia)
        (by unfold Apart; simp; lia)
      have hsrc : wrapIndex (d.head+0) d.cap = d.head := by
        rw [Nat.add_zero, wrapIndex, if_neg (by lia)]
      simp only [hsrc] at hw
      refine ⟨slot, hw, fun i hi => ?_⟩
      rw [hslot i hi]
      simp only [ringDist]
      split_ifs with h1 h2 h3
      all_goals first | lia | rfl | skip
      · congr 2
        rw [wrapIndex, if_neg (by lia)]
        lia
  refine ⟨slot, hw, ?_, by simp; lia, h.cap_le, .inl (wrapIndex_lt (by lia) (by lia)),
    fun j x hx => ?_⟩
  · simp [List.length_eraseIdx, ← hlen, hi]
  · have hj := lt_of_getElem? hx
    rw [List.length_eraseIdx_of_lt (by lia)] at hj
    have hidx : wrapIndex (wrapIndex (d.head+1) d.cap+j) d.cap = wrapIndex (d.head+(j+1)) d.cap := by
      unfold wrapIndex
      split_ifs <;> lia
    change slot (wrapIndex (wrapIndex (d.head+1) d.cap+j) d.cap) = _
    rw [hidx, hslot (j+1) (by lia)]
    rw [List.getElem?_eraseIdx] at hx
    split_ifs at hx ⊢ with h1 h2
    all_goals first | lia | exact h.elem _ x hx

variable (hmax) in
/-- The first `mid` elements move behind the others. -/
theorem SRep.rotate_left (h : SRep maxCap d l) {mid : ℕ} (hm : 2*mid ≤ d.len) :
    ∃ slot, wrapCopy (.sized maxCap hmax) d d.head (wrapIndex (d.head+d.len) d.cap) mid =
        .ok { d with slot } ∧
      SRep maxCap { d with head := wrapIndex (d.head+mid) d.cap, slot } (l.drop mid ++ l.take mid) := by
  have hlen := h.len_eq
  have hle := h.len_le
  have hhead := h.head_lt
  rcases Nat.eq_zero_or_pos mid with rfl | hpos
  · refine ⟨d.slot, wrapCopy_zero _ _ _, ?_⟩
    have hz := h.drop (Nat.zero_le d.len)
    simpa using hz
  obtain ⟨slot, hw, hslot⟩ : ∃ slot, wrapCopy (.sized maxCap hmax) d d.head
      (wrapIndex (d.head+d.len) d.cap) mid = .ok { d with slot } ∧
      ∀ i < d.len+mid, slot (wrapIndex (d.head+wrapIndex i d.cap) d.cap) =
        if d.len ≤ i then d.slot (wrapIndex (d.head+(i-d.len)) d.cap)
        else if mid ≤ i then d.slot (wrapIndex (d.head+i) d.cap)
        else slot (wrapIndex (d.head+wrapIndex i d.cap) d.cap) := by
    rcases Nat.eq_or_lt_of_le hle with hfull | hlt
    · -- a full ring turns without any copy
      have hdst : wrapIndex (d.head+d.len) d.cap = d.head := by
        rw [wrapIndex, if_pos (by lia)]
        lia
      refine ⟨d.slot, by rw [hdst, wrapCopy_self], fun i hi => ?_⟩
      unfold wrapIndex
      split_ifs <;> lia
    · obtain ⟨slot, hw, hslot⟩ := wrapCopy_logical hmax (h := d.head) (a := 0) (b := d.len)
        (d := d) h.cap_le (by lia) (by lia) hlt (show mid ≤ d.cap by lia)
        (by unfold Apart; lia)
      have hsrc : wrapIndex (d.head+0) d.cap = d.head := by
        rw [Nat.add_zero, wrapIndex, if_neg (by lia)]
      rw [hsrc] at hw
      refine ⟨slot, hw, fun i hi => ?_⟩
      have hi' : wrapIndex i d.cap < d.cap := by
        unfold wrapIndex
        split_ifs <;> lia
      have hdist : ringDist d.cap (wrapIndex i d.cap) d.len =
          if d.len ≤ i then i-d.len else i+d.cap-d.len := by
        unfold ringDist wrapIndex
        split_ifs <;> lia
      rw [hslot _ hi', hdist]
      split_ifs with h1 h2 h3 h4
      all_goals first | lia | rfl | skip
      · congr 2
        rw [wrapIndex, if_neg (by lia), Nat.zero_add]
      · congr 2
        rw [wrapIndex, if_neg (by lia)]
  refine ⟨slot, hw, by simp; lia, hle, h.cap_le, .inl (wrapIndex_lt (by lia) (by lia)),
    fun j x hx => ?_⟩
  have hj := lt_of_getElem? hx
  rw [List.length_append, List.length_drop, List.length_take] at hj
  have hidx : wrapIndex (wrapIndex (d.head+mid) d.cap+j) d.cap =
      wrapIndex (d.head+wrapIndex (mid+j) d.cap) d.cap := by
    unfold wrapIndex
    split_ifs <;> lia
  change slot (wrapIndex (wrapIndex (d.head+mid) d.cap+j) d.cap) = _
  rw [hidx, hslot (mid+j) (by lia)]
  split_ifs with h1 h2
  · rw [List.getElem?_append_right (by simp; lia), List.length_drop,
      List.getElem?_take_of_lt (by lia)] at hx
    apply h.elem
    rw [← hx]
    congr 1
    lia
  · rw [List.getElem?_append_left (by simp; lia), List.getElem?_drop] at hx
    exact h.elem _ x hx
  · lia

variable (hmax) in
/-- The last `k` elements move in front of the others. -/
theorem SRep.rotate_right (h : SRep maxCap d l) {k : ℕ} (hk : 2*k ≤ d.len) :
    ∃ slot, wrapCopy (.sized maxCap hmax)
        { d with head := wrapIndex (d.head+d.cap-k) d.cap }
        (wrapIndex (wrapIndex (d.head+d.cap-k) d.cap+d.len) d.cap)
        (wrapIndex (d.head+d.cap-k) d.cap) k =
          .ok { d with head := wrapIndex (d.head+d.cap-k) d.cap, slot } ∧
      SRep maxCap { d with head := wrapIndex (d.head+d.cap-k) d.cap, slot }
        (l.drop (d.len-k) ++ l.take (d.len-k)) := by
  have hlen := h.len_eq
  have hle := h.len_le
  have hhead := h.head_lt
  obtain ⟨p, hp⟩ : ∃ p, wrapIndex (d.head+d.cap-k) d.cap = p := ⟨_, rfl⟩
  rw [hp]
  rcases Nat.eq_zero_or_pos k with rfl | hpos
  · have hpd : p = d.head := by
      rw [← hp]
      unfold wrapIndex
      split_ifs <;> lia
    refine ⟨d.slot, wrapCopy_zero _ _ _, ?_⟩
    have hl : l.drop (d.len-0) ++ l.take (d.len-0) = l := by simp [hlen]
    rw [hpd, hl]
    exact h
  have hplt : p < d.cap := by
    rw [← hp]
    unfold wrapIndex
    split_ifs <;> lia
  -- the old position `j` is the new position `j+k`
  have hshift (j : ℕ) (hj : j < d.cap) :
      wrapIndex (p+wrapIndex (j+k) d.cap) d.cap = wrapIndex (d.head+j) d.cap := by
    rw [← hp]
    unfold wrapIndex
    split_ifs <;> lia
  obtain ⟨slot, hw, hslot⟩ : ∃ slot, wrapCopy (.sized maxCap hmax) { d with head := p }
      (wrapIndex (p+d.len) d.cap) p k = .ok { d with head := p, slot } ∧
      ∀ i < d.len, slot (wrapIndex (p+i) d.cap) =
        if i < k then d.slot (wrapIndex (p+wrapIndex (d.len+i) d.cap) d.cap)
        else d.slot (wrapIndex (p+i) d.cap) := by
    rcases Nat.eq_or_lt_of_le hle with hfull | hlt
    · have hsrc : wrapIndex (p+d.len) d.cap = p := by
        rw [wrapIndex, if_pos (by lia)]
        lia
      refine ⟨d.slot, by rw [hsrc, wrapCopy_self], fun i hi => ?_⟩
      split_ifs with hik
      · congr 2
        unfold wrapIndex
        split_ifs <;> lia
      · rfl
    · obtain ⟨slot, hw, hslot⟩ := wrapCopy_logical hmax (h := p) (a := d.len) (b := 0)
        (d := { d with head := p }) h.cap_le hplt hlt (show 0 < d.cap by lia)
        (show k ≤ d.cap by lia) (by unfold Apart; simp; lia)
      have hdst : wrapIndex (p+0) d.cap = p := by
        rw [Nat.add_zero, wrapIndex, if_neg (by lia)]
      simp only [hdst] at hw
      refine ⟨slot, hw, fun i hi => ?_⟩
      have := hslot i (show i < d.cap by lia)
      rwa [ringDist, if_pos (Nat.zero_le i), Nat.sub_zero] at this
  refine ⟨slot, hw, by simp; lia, hle, h.cap_le, .inl hplt, fun j x hx => ?_⟩
  have hj := lt_of_getElem? hx
  rw [List.length_append, List.length_drop, List.length_take] at hj
  change slot (wrapIndex (p+j) d.cap) = _
  rw [hslot j (by lia)]
  split_ifs with hjk
  · rw [List.getElem?_append_left (by simp; lia), List.getElem?_drop] at hx
    have := hshift (d.len-k+j) (by lia)
    rw [show d.len-k+j+k = d.len+j by lia] at this
    rw [this]
    exact h.elem _ x hx
  · rw [List.getElem?_append_right (by simp; lia), List.length_drop,
      List.getElem?_take_of_lt (by lia)] at hx
    have := hshift (j-k) (by lia)
    rw [show j-k+k = j by lia, show wrapIndex j d.cap = j by rw [wrapIndex, if_neg (by lia)]]
      at this
    rw [this]
    apply h.elem
    rw [← hx]
    congr 1
    lia

end Sized

end RustStd.VecDeque
