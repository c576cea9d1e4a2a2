import RustStd.Collections.VecDequeSpec

/-!
# Moving the elements of a `VecDeque`

When the capacity changes, or the elements have to lie in one piece, whole
sections of the ring move. In each layout the elements are found at their new
places.
-/

set_option autoImplicit false

namespace RustStd.VecDeque
open RustStd.Machine RustStd.Outcome

variable {σ T : Type} {maxCap : ℕ} {hmax : maxCap ≤ isizeMax} {d : Deque T} {l : List T}

theorem SRep.straight (h : SRep maxCap d l) {i : ℕ} {x : T} (hx : l[i]? = some x)
    (hi : d.head+i < d.cap) : d.slot (d.head+i) = some x := by
  have := h.elem i x hx
  rwa [wrapIndex, if_neg (by lia)] at this

theorem SRep.wrapped (h : SRep maxCap d l) {i : ℕ} {x : T} (hx : l[i]? = some x)
    (hi : d.cap ≤ d.head+i) : d.slot (d.head+i-d.cap) = some x := by
  have := h.elem i x hx
  rwa [wrapIndex, if_pos hi] at this

theorem SRep.of_places {d' : Deque T} (hlen : d'.len = l.length) (hle : d'.len ≤ d'.cap)
    (hcap : d'.cap ≤ maxCap) (hhead : d'.head < d'.cap ∨ d'.cap = 0 ∧ d'.head = 0)
    (hs : ∀ i x, l[i]? = some x → d'.head+i < d'.cap → d'.slot (d'.head+i) = some x)
    (hw : ∀ i x, l[i]? = some x → d'.cap ≤ d'.head+i → d'.slot (d'.head+i-d'.cap) = some x) :
    SRep maxCap d' l := by
  refine ⟨hlen, hle, hcap, hhead, fun i x hx => ?_⟩
  unfold wrapIndex
  split_ifs with h
  · exact hw i x hx h
  · exact hs i x hx (by lia)

theorem SRep.of_straight {d' : Deque T} (hlen : d'.len = l.length) (hfit : d'.head+d'.len ≤ d'.cap)
    (hcap : d'.cap ≤ maxCap) (hhead : d'.head < d'.cap ∨ d'.cap = 0 ∧ d'.head = 0)
    (hs : ∀ i x, l[i]? = some x → d'.slot (d'.head+i) = some x) : SRep maxCap d' l := by
  refine SRep.of_places hlen (by lia) hcap hhead (fun i x hx _ => hs i x hx) fun i x hx hi => ?_
  have := lt_of_getElem? hx
  lia

variable (hmax) in
theorem handleCapacityIncrease_sized (h : SRep maxCap d l) {new : ℕ} (hnew : d.cap ≤ new)
    (hmaxNew : new ≤ maxCap) {slot : ℕ → Option T} (hslot : ∀ j < d.cap, slot j = d.slot j) :
    ∃ d', handleCapacityIncrease (.sized maxCap hmax) { d with cap := new, slot } d.cap = .ok d' ∧
      SRep maxCap d' l ∧ d'.cap = new := by
  have hlen := h.len_eq
  have hle := h.len_le
  have hhead := h.head_lt
  unfold handleCapacityIncrease
  simp only [capacity_sized]
  by_cases hA : d.head ≤ d.cap-d.len
  · -- the elements lie in one piece
    rw [if_pos hA]
    refine ⟨_, rfl, SRep.of_places hlen (by simp; lia) hmaxNew (by simp; lia) ?_ ?_, rfl⟩
    · intro i x hx hi
      have := lt_of_getElem? hx
      simp only at hi ⊢
      rw [hslot _ (by lia)]
      exact h.straight hx (by lia)
    · intro i x hx hi
      have := lt_of_getElem? hx
      simp only at hi
      lia
  rw [if_neg hA]
  by_cases hB : d.cap-d.head > d.len-(d.cap-d.head) ∧ new-d.cap ≥ d.len-(d.cap-d.head)
  · -- the tail goes behind the head
    rw [if_pos hB, copyNonoverlapping_sized (by simp; lia) (by simp; lia) (by lia)]
    refine ⟨{ d with cap := new, slot := copySlots slot 0 d.cap (d.len-(d.cap-d.head)) }, rfl,
      SRep.of_places hlen (by simp; lia) hmaxNew (by simp; lia) ?_ ?_, rfl⟩
    · intro i x hx hi
      have := lt_of_getElem? hx
      simp only at hi ⊢
      by_cases hold : d.head+i < d.cap
      · rw [copySlots_out (by lia), hslot _ hold]
        exact h.straight hx hold
      · rw [copySlots_in (by lia), hslot _ (by lia), Nat.zero_add]
        exact h.wrapped hx (by lia)
    · intro i x hx hi
      have := lt_of_getElem? hx
      simp only at hi
      lia
  · -- the head goes to the end of the buffer
    rw [if_neg hB, copy_sized (by simp; lia) (by simp; lia)]
    refine ⟨{ d with
      head := new-(d.cap-d.head), cap := new,
      slot := copySlots slot d.head (new-(d.cap-d.head)) (d.cap-d.head) }, rfl,
      SRep.of_places hlen (by simp; lia) hmaxNew (by simp; lia) ?_ ?_, rfl⟩
    · intro i x hx hi
      have := lt_of_getElem? hx
      simp only at hi ⊢
      rw [copySlots_in (by lia), hslot _ (by lia)]
      have := h.straight hx (by lia)
      rw [← this]
      congr 1
      lia
    · intro i x hx hi
      have := lt_of_getElem? hx
      simp only at hi ⊢
      rw [copySlots_out (by lia), hslot _ (by lia)]
      have := h.wrapped hx (by lia)
      rw [← this]
      congr 1
      lia

variable (hmax) in
theorem growBuf_sized (h : SRep maxCap d l) {required : ℕ} (hr : d.cap ≤ required) (chosen : ℕ) :
    growBuf (.sized maxCap hmax) d required chosen = .panic d ∧ maxCap < max required chosen ∨
    ∃ d₁ d', growBuf (.sized maxCap hmax) d required chosen = .ok d₁ ∧
      handleCapacityIncrease (.sized maxCap hmax) d₁ d.cap = .ok d' ∧ SRep maxCap d' l ∧
      required ≤ d'.cap := by
  unfold growBuf
  by_cases hfit : max required chosen ≤ maxCap
  · right
    obtain ⟨d', hinc, hrep, hcap⟩ := handleCapacityIncrease_sized hmax h
      (show d.cap ≤ max required chosen by lia) hfit
      (show ∀ j < d.cap, (fun j => if j < d.cap then d.slot j else none) j = d.slot j by
        intro j hj
        simp [hj])
    refine ⟨_, d', ?_, hinc, hrep, by lia⟩
    simp only [ensure_of _ hfit, ok_bind, pure_eq]
  · left
    simp only [ensure_of_not _ hfit, panic_bind, true_and]
    lia

/-! ## `shrink_to`, by where the elements lie -/

/-- What `shrink_to` has done before it cuts the buffer: the elements fit in the
smaller ring, and if they wrap in it then either the old places are intact or the
head has moved by the difference of the capacities. -/
structure Shrunk (maxCap : ℕ) (d : Deque T) (l : List T) (target : ℕ) (d' : Deque T) : Prop where
  cap_eq : d'.cap = d.cap
  rep : SRep maxCap { d' with cap := target } l
  back : target-d'.len < d'.head → (d'.head = d.head ∧ SRep maxCap d' l) ∨
    d.head+(target-d'.head) = d.cap

variable (hmax) in
theorem shrinkMoves_outside (h : SRep maxCap d l) {target : ℕ} (ht : target < d.cap)
    (hl : d.len ≤ target) (hz : ¬ d.len = 0)
    (hA : d.head ≥ target ∧ target+1 ≤ d.head+d.len ∧ d.head+d.len ≤ d.cap) :
    ∃ d', shrinkMoves (.sized maxCap hmax) d target = .ok d' ∧ Shrunk maxCap d l target d' := by
  have hlen := h.len_eq
  have hcap := h.cap_le
  unfold shrinkMoves
  simp only [capacity_sized]
  -- everything goes to the front
  rw [if_neg hz, if_pos hA, copyNonoverlapping_sized (by lia) (by lia) (by lia)]
  refine ⟨{ d with head := 0, slot := copySlots d.slot d.head 0 d.len }, rfl, rfl,
    SRep.of_straight hlen (by simp; lia) (by simp; lia) (by simp; lia) ?_, by simp⟩
  intro i x hx
  have := lt_of_getElem? hx
  simp only [Nat.zero_add]
  rw [copySlots_in (by lia)]
  exact h.straight hx (by lia)

variable (hmax) in
theorem shrinkMoves_across (h : SRep maxCap d l) {target : ℕ} (ht : target < d.cap)
    (hl : d.len ≤ target) (hz : ¬ d.len = 0)
    (hB : d.head < target ∧ target+1 ≤ d.head+d.len ∧ d.head+d.len ≤ d.cap) :
    ∃ d', shrinkMoves (.sized maxCap hmax) d target = .ok d' ∧ Shrunk maxCap d l target d' := by
  have hlen := h.len_eq
  have hcap := h.cap_le
  unfold shrinkMoves
  simp only [capacity_sized]
  -- the part that is outside goes to the front
  rw [if_neg hz, if_neg (by lia), if_pos hB, copyNonoverlapping_sized (by lia) (by lia) (by lia)]
  refine ⟨{ d with slot := copySlots d.slot target 0 (d.head+d.len-target) }, rfl, rfl, ?_,
    fun _ => .inl ⟨rfl, ?_⟩⟩
  · refine SRep.of_places hlen (by simp; lia) (by simp; lia) (by simp; lia) ?_ ?_
    · intro i x hx hi
      simp only at hi ⊢
      rw [copySlots_out (by lia)]
      exact h.straight hx (by lia)
    · intro i x hx hi
      have := lt_of_getElem? hx
      simp only at hi ⊢
      rw [copySlots_in (by lia), ← h.straight hx (by lia)]
      congr 1
      lia
  -- the old places behind the new front are intact
  · refine SRep.of_straight hlen hB.2.2 hcap h.head_lt fun i x hx => ?_
    have := lt_of_getElem? hx
    simp only
    rw [copySlots_out (by lia)]
    exact h.straight hx (by lia)

variable (hmax) in
theorem shrinkMoves_wrapped (h : SRep maxCap d l) {target : ℕ} (ht : target < d.cap)
    (hl : d.len ≤ target) (hz : ¬ d.len = 0) (hC : d.cap-d.len < d.head) :
    ∃ d', shrinkMoves (.sized maxCap hmax) d target = .ok d' ∧ Shrunk maxCap d l target d' := by
  have hlen := h.len_eq
  have hcap := h.cap_le
  have hhead := h.head_lt
  unfold shrinkMoves isContiguous
  simp only [capacity_sized]
  -- the head goes to the new end
  rw [if_neg hz, if_neg (by lia), if_neg (by lia), if_pos (by simpa using hC),
    copy_sized (by lia) (by lia)]
  refine ⟨{ d with
    head := target-(d.cap-d.head),
    slot := copySlots d.slot d.head (target-(d.cap-d.head)) (d.cap-d.head) }, rfl, rfl,
    SRep.of_places hlen (by simp; lia) (by simp; lia) (by simp; lia) ?_ ?_,
    fun _ => .inr (by simp only; lia)⟩
  · intro i x hx hi
    simp only at hi ⊢
    rw [copySlots_in (by lia), ← h.straight hx (by lia)]
    congr 1
    lia
  · intro i x hx hi
    have := lt_of_getElem? hx
    simp only at hi ⊢
    rw [copySlots_out (by lia), ← h.wrapped hx (by lia)]
    congr 1
    lia

variable (hmax) in
theorem shrinkMoves_sized (h : SRep maxCap d l) {target : ℕ} (ht : target < d.cap)
    (hl : d.len ≤ target) :
    ∃ d', shrinkMoves (.sized maxCap hmax) d target = .ok d' ∧ Shrunk maxCap d l target d' := by
  have hlen := h.len_eq
  have hcap := h.cap_le
  by_cases hz : d.len = 0
  · have hnil : l = [] := List.eq_nil_of_length_eq_zero (by lia)
    subst hnil
    rw [shrinkMoves, if_pos hz]
    refine ⟨{ d with head := 0 }, rfl, rfl, ?_, by simp⟩
    exact SRep.of_straight hlen (by simp; lia) (by simp; lia) (by simp; lia) (by simp)
  by_cases hA : d.head ≥ target ∧ target+1 ≤ d.head+d.len ∧ d.head+d.len ≤ d.cap
  · exact shrinkMoves_outside hmax h ht hl hz hA
  by_cases hB : d.head < target ∧ target+1 ≤ d.head+d.len ∧ d.head+d.len ≤ d.cap
  · exact shrinkMoves_across hmax h ht hl hz hB
  by_cases hC : d.head ≤ d.cap-d.len
  -- the elements lie in one piece inside
  · unfold shrinkMoves isContiguous
    simp only [capacity_sized]
    rw [if_neg hz, if_neg hA, if_neg hB, if_neg (by simpa using hC)]
    refine ⟨d, rfl, rfl, SRep.of_straight hlen (by simp; lia) (by simp; lia) (by simp; lia) ?_, by lia⟩
    intro i x hx
    have := lt_of_getElem? hx
    exact h.straight hx (by lia)
  · exact shrinkMoves_wrapped hmax h ht hl hz (by lia)

variable (hmax) in
theorem abortShrink_sized {d' : Deque T} {target : ℕ} (h : Shrunk maxCap d l target d')
    (ht : target < d.cap) (hcap : d.cap ≤ maxCap) :
    ∃ d'', abortShrink (.sized maxCap hmax) d' d.head target = .ok d'' ∧ d''.cap = d.cap ∧
      SRep maxCap d'' l := by
  have hlen := h.rep.len_eq
  have hle := h.rep.len_le
  have hhead := h.rep.head_lt
  have hceq := h.cap_eq
  simp only at hlen hle hhead
  unfold abortShrink
  simp only [capacity_sized]
  by_cases hA : d'.head ≤ target-d'.len
  · rw [if_pos hA]
    refine ⟨d', rfl, hceq, SRep.of_places hlen (by lia) (by lia) (by lia) ?_ ?_⟩
    · intro i x hx hi
      have := lt_of_getElem? hx
      exact h.rep.straight hx (by simp; lia)
    · intro i x hx hi
      have := lt_of_getElem? hx
      lia
  rw [if_neg hA]
  by_cases hB : d'.len-(target-d'.head) ≤ min (target-d'.head) (d'.cap-target)
  · rw [if_pos hB, copyNonoverlapping_sized (by lia) (by lia) (by lia)]
    refine ⟨{ d' with slot := copySlots d'.slot 0 target (d'.len-(target-d'.head)) }, rfl, hceq,
      SRep.of_places hlen (by simp; lia) (by simp; lia) (by simp; lia) ?_ ?_⟩
    · intro i x hx hi
      have := lt_of_getElem? hx
      simp only at hi ⊢
      by_cases hin : d'.head+i < target
      · rw [copySlots_out (by lia)]
        exact h.rep.straight hx hin
      · rw [copySlots_in (by lia), Nat.zero_add]
        exact h.rep.wrapped hx (by simp; lia)
    · intro i x hx hi
      have := lt_of_getElem? hx
      simp only at hi
      lia
  · rw [if_neg hB]
    rcases h.back (by lia) with ⟨heq, hrep⟩ | hback
    · rw [← heq, copy_sized (by lia) (by lia)]
      refine ⟨{ d' with slot := copySlots d'.slot d'.head d'.head (target-d'.head) }, rfl, hceq, ?_⟩
      have hsame : copySlots d'.slot d'.head d'.head (target-d'.head) = d'.slot := by
        funext j
        unfold copySlots
        split_ifs
        · congr 1
          lia
        · rfl
      rw [hsame]
      exact hrep
    · rw [copy_sized (by lia) (by lia)]
      refine ⟨{ d' with
        head := d.head, slot := copySlots d'.slot d'.head d.head (target-d'.head) }, rfl, hceq,
        SRep.of_places hlen (by simp; lia) (by simp; lia) (by simp; lia) ?_ ?_⟩
      · intro i x hx hi
        have := lt_of_getElem? hx
        simp only at hi ⊢
        rw [copySlots_in (by lia)]
        have hold : d'.slot (d'.head+i) = some x := h.rep.straight hx (by simp; lia)
        rw [← hold]
        congr 1
        lia
      · intro i x hx hi
        have := lt_of_getElem? hx
        simp only at hi ⊢
        rw [copySlots_out (by lia)]
        have hold : d'.slot (d'.head+i-target) = some x := h.rep.wrapped hx (by simp; lia)
        rw [← hold]
        congr 1
        lia

variable (hmax) in
theorem rotateSlice_sized {start stop mid : ℕ} (hstop : stop ≤ d.cap) (hmid : mid ≤ stop-start) :
    rotateSlice (.sized maxCap hmax) d start stop mid =
      .ok { d with slot := rotateSlots d.slot start stop mid } := by
  rw [rotateSlice, capacity_sized, require, if_pos hstop, ok_bind, ensure_of _ hmid]
  rfl

variable (hmax) in
theorem closeGap_sized (free src dst n : ℕ) (hsrc : src+n ≤ d.cap) (hdst : dst+n ≤ d.cap)
    (hfree : free = 0 → src = dst) :
    ∃ slot, (if free ≠ 0 then copy (.sized maxCap hmax) d src dst n else .ok d : M T (Deque T)) =
        .ok { d with slot } ∧
      (∀ t < n, slot (dst+t) = d.slot (src+t)) ∧
      ∀ j, j < dst ∨ dst+n ≤ j → slot j = d.slot j := by
  by_cases hf : free ≠ 0
  · rw [if_pos hf, copy_sized hdst hsrc]
    refine ⟨_, rfl, fun t ht => ?_, fun j hj => copySlots_out (by lia)⟩
    rw [copySlots_in (by lia), Nat.add_sub_cancel_left]
  · rw [if_neg hf]
    refine ⟨d.slot, rfl, fun t _ => ?_, fun j _ => rfl⟩
    rw [hfree (not_not.mp hf)]

/-! ## `make_contiguous`, by the room there is -/

variable (hmax) in
theorem contiguousMoves_headFits (h : SRep maxCap d l) (hw : d.cap-d.len < d.head)
    (hA : d.cap-d.len ≥ d.cap-d.head) :
    ∃ d', contiguousMoves (.sized maxCap hmax) d = .ok d' ∧ SRep maxCap d' l ∧
      d'.head+d'.len ≤ d'.cap := by
  have hlen := h.len_eq
  have hle := h.len_le
  have hcap := h.cap_le
  have hhead := h.head_lt
  unfold contiguousMoves
  simp only [capacity_sized]
  -- the tail moves back and the head goes in front of it
  rw [if_pos hA, copy_sized (by lia) (by lia), ok_bind,
    copyNonoverlapping_sized (by simp) (by simp; lia) (by lia)]
  refine ⟨{ d with
    head := 0,
    slot := copySlots (copySlots d.slot 0 (d.cap-d.head) (d.len-(d.cap-d.head))) d.head 0
      (d.cap-d.head) }, rfl,
    SRep.of_straight hlen (by simp; lia) (by simp; lia) (by simp; lia) ?_, by simp; lia⟩
  intro i x hx
  have := lt_of_getElem? hx
  simp only [Nat.zero_add]
  by_cases hin : d.head+i < d.cap
  · rw [copySlots_in (by lia), copySlots_out (by lia)]
    exact h.straight hx hin
  · rw [copySlots_out (by lia), copySlots_in (by lia), ← h.wrapped hx (by lia)]
    congr 1
    lia

variable (hmax) in
theorem contiguousMoves_tailFits (h : SRep maxCap d l) (hw : d.cap-d.len < d.head)
    (hA : ¬ d.cap-d.len ≥ d.cap-d.head) (hB : d.cap-d.len ≥ d.len-(d.cap-d.head)) :
    ∃ d', contiguousMoves (.sized maxCap hmax) d = .ok d' ∧ SRep maxCap d' l ∧
      d'.head+d'.len ≤ d'.cap := by
  have hlen := h.len_eq
  have hle := h.len_le
  have hcap := h.cap_le
  have hhead := h.head_lt
  unfold contiguousMoves
  simp only [capacity_sized]
  -- the head moves forward and the tail goes behind it
  rw [if_neg hA, if_pos hB, copy_sized (by lia) (by lia), ok_bind,
    copyNonoverlapping_sized (by simp; lia) (by simp; lia) (by lia)]
  refine ⟨{ d with
    head := d.len-(d.cap-d.head),
    slot := copySlots (copySlots d.slot d.head (d.len-(d.cap-d.head)) (d.cap-d.head)) 0
      (d.len-(d.cap-d.head)+(d.cap-d.head)) (d.len-(d.cap-d.head)) }, rfl,
    SRep.of_straight hlen (by simp; lia) (by simp; lia) (by simp; lia) ?_, by simp; lia⟩
  intro i x hx
  have := lt_of_getElem? hx
  simp only
  by_cases hin : d.head+i < d.cap
  · rw [copySlots_out (by lia), copySlots_in (by lia), ← h.straight hx hin]
    congr 1
    lia
  · rw [copySlots_in (by lia), copySlots_out (by lia), ← h.wrapped hx (by lia)]
    congr 1
    lia

variable (hmax) in
theorem contiguousMoves_tailMoves (h : SRep maxCap d l) (hw : d.cap-d.len < d.head)
    (hA : ¬ d.cap-d.len ≥ d.cap-d.head) (hB : ¬ d.cap-d.len ≥ d.len-(d.cap-d.head))
    (hC : d.cap-d.head > d.len-(d.cap-d.head)) :
    ∃ d', contiguousMoves (.sized maxCap hmax) d = .ok d' ∧ SRep maxCap d' l ∧
      d'.head+d'.len ≤ d'.cap := by
  have hlen := h.len_eq
  have hle := h.len_le
  have hcap := h.cap_le
  have hhead := h.head_lt
  unfold contiguousMoves
  simp only [capacity_sized]
  -- the tail moves next to the head and the whole is rotated
  obtain ⟨slot, hcopy, hmoved, hkept⟩ := closeGap_sized hmax (d := d) (d.cap-d.len) 0
    (d.cap-d.len) (d.len-(d.cap-d.head)) (by lia) (by lia) (by lia)
  rw [if_neg hA, if_neg hB, if_pos hC, hcopy, ok_bind, rotateSlice_sized hmax le_rfl (by simp; lia)]
  refine ⟨{ d with
    head := d.cap-d.len,
    slot := rotateSlots slot (d.cap-d.len) d.cap (d.len-(d.cap-d.head)) }, rfl,
    SRep.of_straight hlen (by simp; lia) (by simp; lia) (by simp; lia) ?_, by simp; lia⟩
  intro i x hx
  have := lt_of_getElem? hx
  simp only
  rw [rotateSlots, if_pos (by lia)]
  by_cases hin : d.head+i < d.cap
  · rw [if_pos (by lia), hkept _ (by lia), ← h.straight hx hin]
    congr 1
    lia
  · rw [if_neg (by lia), ← h.wrapped hx (by lia), ← Nat.zero_add (d.head+i-d.cap),
      ← hmoved (d.head+i-d.cap) (by lia)]
    congr 1
    lia

variable (hmax) in
theorem contiguousMoves_headMoves (h : SRep maxCap d l)
    (hA : ¬ d.cap-d.len ≥ d.cap-d.head) (hB : ¬ d.cap-d.len ≥ d.len-(d.cap-d.head))
    (hC : ¬ d.cap-d.head > d.len-(d.cap-d.head)) :
    ∃ d', contiguousMoves (.sized maxCap hmax) d = .ok d' ∧ SRep maxCap d' l ∧
      d'.head+d'.len ≤ d'.cap := by
  have hlen := h.len_eq
  have hle := h.len_le
  have hcap := h.cap_le
  have hhead := h.head_lt
  unfold contiguousMoves
  simp only [capacity_sized]
  -- the head moves next to the tail and the whole is rotated
  obtain ⟨slot, hcopy, hmoved, hkept⟩ := closeGap_sized hmax (d := d) (d.cap-d.len) d.head
    (d.len-(d.cap-d.head)) (d.cap-d.head) (by lia) (by lia) (by lia)
  rw [if_neg hA, if_neg hB, if_neg hC, hcopy, ok_bind, rotateSliceRight]
  simp only
  rw [ensure_of _ (by lia), ok_bind, rotateSlice_sized hmax (d := { d with slot }) hle (by simp)]
  refine ⟨{ d with
    head := 0, slot := rotateSlots slot 0 d.len (d.len-0-(d.cap-d.head)) }, rfl,
    SRep.of_straight hlen (by simp; lia) (by simp; lia) (by simp; lia) ?_, by simp; lia⟩
  intro i x hx
  have := lt_of_getElem? hx
  simp only [Nat.zero_add]
  rw [rotateSlots, if_pos (by lia)]
  by_cases hin : d.head+i < d.cap
  · rw [if_pos (by lia), ← h.straight hx hin, ← hmoved i (by lia)]
    congr 1
    lia
  · rw [if_neg (by lia), ← h.wrapped hx (by lia), ← hkept _ (by lia)]
    congr 1
    lia

variable (hmax) in
theorem contiguousMoves_sized (h : SRep maxCap d l) (hw : d.cap-d.len < d.head) :
    ∃ d', contiguousMoves (.sized maxCap hmax) d = .ok d' ∧ SRep maxCap d' l ∧
      d'.head+d'.len ≤ d'.cap := by
  by_cases hA : d.cap-d.len ≥ d.cap-d.head
  · exact contiguousMoves_headFits hmax h hw hA
  by_cases hB : d.cap-d.len ≥ d.len-(d.cap-d.head)
  · exact contiguousMoves_tailFits hmax h hw hA hB
  by_cases hC : d.cap-d.head > d.len-(d.cap-d.head)
  · exact contiguousMoves_tailMoves hmax h hw hA hB hC
  · exact contiguousMoves_headMoves hmax h hA hB hC

end RustStd.VecDeque
