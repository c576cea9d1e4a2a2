import RustStd.Lib.RingSteps
import RustStd.Slice.Rotate

/-!
# The cycles of `ptr_rotate`

Elements move one at a time, `right` places forward in the ring of all indices.
The buffer keeps which indices were written. A round writes one class of
indices modulo the gcd; the first round meets every multiple of the gcd, so the
smallest index it meets is the gcd.
-/

set_option autoImplicit false

namespace RustStd.Rotate
open RustStd.Loop RustStd.RingSteps

variable {T : Type}

structure Buffer (T : Type) where
  elems : List T
  written : List ℕ

def Buffer.read (b : Buffer T) (i : ℕ) : Option T := b.elems[i]?

def Buffer.write (b : Buffer T) (i : ℕ) (x : T) : Option (Buffer T) :=
  if i < b.elems.length then some ⟨b.elems.set i x, b.written++[i]⟩ else none

def Buffer.replace (b : Buffer T) (i : ℕ) (x : T) : Option (T × Buffer T) := do
  let old ← b.read i
  return (old, ← b.write i x)

structure Cycle (T : Type) where
  buf : Buffer T
  tmp : T
  i : ℕ

def firstRoundBody (left right : ℕ) (s : Cycle T × ℕ) :
    Option (Cycle T × ℕ ⊕ Buffer T × ℕ) := do
  let (c, gcd) := s
  let (tmp, buf) ← c.buf.replace c.i c.tmp
  if c.i ≥ left then
    let i := c.i-left
    if i = 0 then
      return .inr (← buf.write 0 tmp, gcd)
    else return .inl (⟨buf, tmp, i⟩, if i < gcd then i else gcd)
  else return .inl (⟨buf, tmp, c.i+right⟩, gcd)

def firstRound (fuel left right : ℕ) (buf : Buffer T) : Option (Buffer T × ℕ) := do
  let tmp ← buf.read 0
  loop (firstRoundBody left right) fuel (⟨buf, tmp, right⟩, right)

def roundBody (left right start : ℕ) (c : Cycle T) : Option (Cycle T ⊕ Buffer T) := do
  let (tmp, buf) ← c.buf.replace c.i c.tmp
  if c.i ≥ left then
    let i := c.i-left
    if i = start then
      return .inr (← buf.write start tmp)
    else return .inl ⟨buf, tmp, i⟩
  else return .inl ⟨buf, tmp, c.i+right⟩

def moreRoundsBody (fuel left right gcd : ℕ) (s : Buffer T × ℕ) :
    Option (Buffer T × ℕ ⊕ Buffer T) := do
  let (buf, start) := s
  if start < gcd then
    let tmp ← buf.read start
    let buf ← loop (roundBody left right start) fuel ⟨buf, tmp, start+right⟩
    return .inl (buf, start+1)
  else return .inr buf

def ptrRotateGcd (fuel left right : ℕ) (v : List T) : Option (Buffer T) := do
  let (buf, gcd) ← firstRound fuel left right ⟨v, []⟩
  loop (moreRoundsBody fuel left right gcd) fuel (buf, 1)

/-- Where the loops go from `i`. -/
def advance (left right i : ℕ) : ℕ := if i ≥ left then i-left else i+right

/-- The written indices hold their final elements, the others the ones from the start. -/
structure Rotating (v : List T) (left : ℕ) (b : Buffer T) : Prop where
  length : b.elems.length = v.length
  nodup : b.written.Nodup
  lt : ∀ j ∈ b.written, j < v.length
  elem : ∀ j < v.length,
    b.elems[j]? = if j ∈ b.written then (v.rotate left)[j]? else v[j]?

variable {v : List T} {fuel left right s t : ℕ} {b : Buffer T} {c : Cycle T}

theorem Rotating.read (h : Rotating v left b) {i : ℕ} (hi : i < v.length)
    (hw : i ∉ b.written) : b.read i = v[i]? := by
  rw [Buffer.read, h.elem i hi, if_neg hw]

theorem Rotating.write (h : Rotating v left b) {i : ℕ} {x : T} (hi : i < v.length)
    (hw : i ∉ b.written) (hx : (v.rotate left)[i]? = some x) :
    ∃ b', b.write i x = some b' ∧ Rotating v left b' ∧ b'.written = b.written++[i] := by
  have hlt : i < b.elems.length := by rw [h.length]; exact hi
  refine ⟨_, if_pos hlt, ?_, rfl⟩
  constructor
  · simp [h.length]
  · exact h.nodup.append (List.nodup_singleton i) (List.disjoint_singleton.mpr hw)
  · intro j hj
    rcases List.mem_append.mp hj with hj | hj
    · exact h.lt j hj
    · rw [List.mem_singleton.mp hj]
      exact hi
  · intro j hj
    by_cases hji : j = i
    · subst hji
      simp [hlt, hx]
    · have hmem : j ∈ b.written++[i] ↔ j ∈ b.written := by simp [hji]
      simp only [List.getElem?_set_ne (Ne.symm hji), h.elem j hj, hmem]

theorem Rotating.written_length_le (h : Rotating v left b) : b.written.length ≤ v.length := by
  have hsub : b.written ⊆ List.range v.length := by
    intro j hj
    exact List.mem_range.mpr (h.lt j hj)
  have hle := (List.subperm_of_subset h.nodup hsub).length_le
  rwa [List.length_range] at hle

theorem advance_eq {i : ℕ} (hi : i < left+right) :
    advance left right i = (i+right)%(left+right) := by
  unfold advance
  split_ifs with h
  · have heq : i+right = i-left+(left+right) := by lia
    rw [heq, Nat.add_mod_right, Nat.mod_eq_of_lt (by lia)]
  · rw [Nat.mod_eq_of_lt (by lia)]

/-- Before step `t` of the round from `s`: the rounds before are done, and the
element in `tmp` belongs at the place of the step. -/
structure InRound (v : List T) (left right s t : ℕ) (c : Cycle T) : Prop where
  rotating : Rotating v left c.buf
  place : c.i = place (left+right) right s t
  tmp : (v.rotate left)[c.i]? = some c.tmp
  written : ∀ j, j ∈ c.buf.written ↔ (j < left+right ∧ j%Nat.gcd (left+right) right < s) ∨
    ∃ u, 0 < u ∧ u < t ∧ RingSteps.place (left+right) right s u = j

/-- The indices of the first `s` classes are written. -/
structure RoundsDone (v : List T) (left right s : ℕ) (b : Buffer T) : Prop where
  rotating : Rotating v left b
  written : ∀ j, j ∈ b.written ↔ j < left+right ∧ j%Nat.gcd (left+right) right < s

section Rounds

variable (hlen : v.length = left+right) (hleft : 0 < left) (hright : 0 < right)

theorem gcd_le_left (hleft : 0 < left) : Nat.gcd (left+right) right ≤ left := by
  rw [Nat.gcd_add_self_left]
  exact Nat.gcd_le_left right hleft

include hleft

theorem InRound.fresh (h : InRound v left right s t c) (hs : s < Nat.gcd (left+right) right)
    (htm : t ≤ (left+right)/Nat.gcd (left+right) right) :
    c.i ∉ c.buf.written := by
  intro hmem
  have hn : 0 < left+right := by lia
  rcases (h.written c.i).mp hmem with ⟨-, hlt⟩ | ⟨u, hu, hut, hplace⟩
  · rw [h.place, place_mod_gcd, Nat.mod_eq_of_lt hs] at hlt
    lia
  · have := place_inj hn hut.le hu htm (hplace.trans h.place)
    lia

include hlen

theorem InRound.i_lt (h : InRound v left right s t c) : c.i < v.length := by
  rw [h.place, hlen]
  exact place_lt (by lia)

theorem InRound.step (h : InRound v left right s t c) (hs : s < Nat.gcd (left+right) right)
    (ht : 0 < t) (htm : t < (left+right)/Nat.gcd (left+right) right) :
    ∃ tmp buf, c.buf.replace c.i c.tmp = some (tmp, buf) ∧
      InRound v left right s (t+1) ⟨buf, tmp, advance left right c.i⟩ ∧
      buf.written.length = c.buf.written.length+1 := by
  have hi := h.i_lt hlen hleft
  have hfresh := h.fresh hleft hs htm.le
  obtain ⟨buf, hbuf, hrot, hwritten⟩ := h.rotating.write hi hfresh h.tmp
  have hread : c.buf.read c.i = some v[c.i] := by
    rw [h.rotating.read hi hfresh, List.getElem?_eq_getElem hi]
  have hnext : advance left right c.i = RingSteps.place (left+right) right s (t+1) := by
    rw [advance_eq (by lia), place_succ, h.place]
  have hback : ((c.i+right)%(left+right)+left)%v.length = c.i := by
    rw [hlen, Nat.mod_add_mod, Nat.add_assoc, Nat.add_comm right left, Nat.add_mod_right,
      Nat.mod_eq_of_lt (by lia)]
  refine ⟨v[c.i], buf, ?_, ?_, by simp [hwritten]⟩
  · simp [Buffer.replace, hread, hbuf]
  · constructor
    · exact hrot
    · exact hnext
    · dsimp only
      rw [advance_eq (by lia), List.getElem?_rotate (by rw [hlen]; exact Nat.mod_lt _ (by lia)),
        hback, List.getElem?_eq_getElem hi]
    · intro j
      rw [hwritten, List.mem_append, h.written j, List.mem_singleton, h.place]
      constructor
      · rintro ((hd | ⟨u, hu, hut, hj⟩) | hj)
        · exact .inl hd
        · exact .inr ⟨u, hu, by lia, hj⟩
        · exact .inr ⟨t, ht, by lia, hj.symm⟩
      · rintro (hd | ⟨u, hu, hut, hj⟩)
        · exact .inl (.inl hd)
        · rcases Nat.lt_succ_iff_lt_or_eq.mp hut with hut | rfl
          · exact .inl (.inr ⟨u, hu, hut, hj⟩)
          · exact .inr hj.symm

include hright

theorem InRound.close (hs : s < Nat.gcd (left+right) right)
    (h : InRound v left right s ((left+right)/Nat.gcd (left+right) right) c) :
    c.i = s ∧ ∃ buf, c.buf.write s c.tmp = some buf ∧ RoundsDone v left right (s+1) buf := by
  have hn : 0 < left+right := by lia
  have hm := period_pos (r := right) hn
  have hg : Nat.gcd (left+right) right ≤ left := gcd_le_left hleft
  have hi : c.i = s := by
    rw [h.place]
    exact (place_eq_start_iff (by lia)).mpr (dvd_refl _)
  obtain ⟨buf, hbuf, hrot, hwritten⟩ := h.rotating.write (h.i_lt hlen hleft)
    (h.fresh hleft hs le_rfl) h.tmp
  refine ⟨hi, buf, by rw [← hbuf, hi], hrot, ?_⟩
  intro j
  have hsg : s%Nat.gcd (left+right) right = s := Nat.mod_eq_of_lt hs
  rw [hwritten, List.mem_append, h.written j, List.mem_singleton, hi]
  constructor
  · rintro ((⟨hj, hlt⟩ | ⟨u, -, -, rfl⟩) | rfl)
    · exact ⟨hj, by lia⟩
    · exact ⟨place_lt hn, by rw [place_mod_gcd]; lia⟩
    · exact ⟨by lia, by lia⟩
  · rintro ⟨hj, hlt⟩
    rcases Nat.lt_succ_iff_lt_or_eq.mp hlt with hlt | heq
    · exact .inl (.inl ⟨hj, hlt⟩)
    · obtain ⟨u, hu, hum, hplace⟩ := exists_place (r := right) (s := s) hj (by lia)
        (by rw [← heq]; exact Nat.mod_le ..)
      rcases Nat.lt_or_eq_of_le hum with hum | rfl
      · exact .inl (.inr ⟨u, hu, hum, hplace⟩)
      · rw [← hplace, ← h.place, hi]
        exact .inr rfl

theorem RoundsDone.start (h : RoundsDone v left right s b)
    (hs : s < Nat.gcd (left+right) right) :
    ∃ tmp, b.read s = some tmp ∧ InRound v left right s 1 ⟨b, tmp, s+right⟩ := by
  have hg : Nat.gcd (left+right) right ≤ left := gcd_le_left hleft
  have hsv : s < v.length := by lia
  have hfresh : s ∉ b.written := by
    intro hmem
    have := ((h.written s).mp hmem).2
    rw [Nat.mod_eq_of_lt hs] at this
    lia
  have hback : (s+right+left)%v.length = s := by
    rw [hlen, Nat.add_assoc, Nat.add_comm right left, Nat.add_mod_right,
      Nat.mod_eq_of_lt (by lia)]
  refine ⟨v[s], by rw [h.rotating.read hsv hfresh, List.getElem?_eq_getElem hsv], ?_⟩
  constructor
  · exact h.rotating
  · rw [place, Nat.one_mul, Nat.mod_eq_of_lt (by lia)]
  · dsimp only
    rw [List.getElem?_rotate (by lia), hback, List.getElem?_eq_getElem hsv]
  · intro j
    rw [h.written j]
    constructor
    · exact .inl
    · rintro (hd | ⟨u, hu, hut, -⟩)
      · exact hd
      · lia

theorem InRound.step_cases (h : InRound v left right s t c)
    (hs : s < Nat.gcd (left+right) right) (ht : 0 < t)
    (htm : t < (left+right)/Nat.gcd (left+right) right) :
    ∃ tmp buf, c.buf.replace c.i c.tmp = some (tmp, buf) ∧
      buf.written.length = c.buf.written.length+1 ∧ buf.written.length ≤ v.length ∧
      (advance left right c.i ≠ s ∧ t+1 < (left+right)/Nat.gcd (left+right) right ∧
          InRound v left right s (t+1) ⟨buf, tmp, advance left right c.i⟩ ∨
        c.i = left+s ∧ t+1 = (left+right)/Nat.gcd (left+right) right ∧
          ∃ buf', buf.write s tmp = some buf' ∧ RoundsDone v left right (s+1) buf') := by
  obtain ⟨tmp, buf, hrep, hnext, hlenb⟩ := h.step hlen hleft hs ht htm
  have hg : Nat.gcd (left+right) right ≤ right := Nat.gcd_le_right _ hright
  have hgl : Nat.gcd (left+right) right ≤ left := gcd_le_left hleft
  refine ⟨tmp, buf, hrep, hlenb, hnext.rotating.written_length_le, ?_⟩
  by_cases hlast : t+1 = (left+right)/Nat.gcd (left+right) right
  · right
    rw [hlast] at hnext
    obtain ⟨hi, hclose⟩ := hnext.close hlen hleft hright hs
    refine ⟨?_, hlast, hclose⟩
    simp only [advance] at hi
    split_ifs at hi with hle <;> lia
  · left
    refine ⟨?_, by lia, hnext⟩
    intro hstart
    have hdvd := (place_eq_start_iff (r := right) (n := left+right) (by lia)).mp
      (hnext.place.symm.trans hstart)
    have := Nat.le_of_dvd (by lia) hdvd
    lia

theorem roundBody_round (hs : s < Nat.gcd (left+right) right)
    (h : ∃ t, 0 < t ∧ t < (left+right)/Nat.gcd (left+right) right ∧
      InRound v left right s t c) :
    ∃ r, roundBody left right s c = some r ∧ Round
      (fun c => ∃ t, 0 < t ∧ t < (left+right)/Nat.gcd (left+right) right ∧
        InRound v left right s t c)
      (fun c => v.length-c.buf.written.length) (RoundsDone v left right (s+1)) c r := by
  obtain ⟨t, ht, htm, h⟩ := h
  obtain ⟨tmp, buf, hrep, hlenb, hle, hcase⟩ := h.step_cases hlen hleft hright hs ht htm
  rcases hcase with ⟨hne, htm', hnext⟩ | ⟨hi, -, buf', hwrite, hdone⟩
  · have hstep : roundBody left right s c = some (.inl ⟨buf, tmp, advance left right c.i⟩) := by
      unfold advance at hne ⊢
      by_cases hge : c.i ≥ left
      · rw [if_pos hge] at hne ⊢
        simp [roundBody, hrep, hge, hne]
      · rw [if_neg hge]
        simp [roundBody, hrep, hge]
    exact ⟨_, hstep, ⟨t+1, by lia, htm', hnext⟩, by dsimp only; lia⟩
  · have hstep : roundBody left right s c = some (.inr buf') := by
      have hge : c.i ≥ left := by lia
      have hsub : c.i-left = s := by lia
      simp [roundBody, hrep, hge, hsub, hwrite]
    exact ⟨_, hstep, hdone⟩

omit hlen in
theorem one_lt_period : 1 < (left+right)/Nat.gcd (left+right) right := by
  have hg : Nat.gcd (left+right) right ≤ right := Nat.gcd_le_right _ hright
  have hgl : Nat.gcd (left+right) right ≤ left := gcd_le_left hleft
  have hpos : 0 < Nat.gcd (left+right) right := Nat.gcd_pos_of_pos_right _ hright
  have h : 2 ≤ (left+right)/Nat.gcd (left+right) right :=
    (Nat.le_div_iff_mul_le hpos).mpr (by lia)
  lia

theorem round_done (hs : s < Nat.gcd (left+right) right) (h : RoundsDone v left right s b)
    (hfuel : left+right < fuel) :
    ∃ tmp buf, b.read s = some tmp ∧
      loop (roundBody left right s) fuel ⟨b, tmp, s+right⟩ = some buf ∧
      RoundsDone v left right (s+1) buf := by
  obtain ⟨tmp, hread, hstart⟩ := h.start hlen hleft hright hs
  obtain ⟨buf, hbuf, hdone⟩ := loop_total _ _ _
    (fun c h => roundBody_round (c := c) hlen hleft hright hs h) fuel ⟨b, tmp, s+right⟩
    ⟨1, Nat.one_pos, one_lt_period hleft hright, hstart⟩ (by dsimp only; lia)
  exact ⟨tmp, buf, hread, hbuf, hdone⟩

theorem moreRoundsBody_round (hfuel : left+right < fuel) (p : Buffer T × ℕ)
    (h : p.2 ≤ Nat.gcd (left+right) right ∧ RoundsDone v left right p.2 p.1) :
    ∃ r, moreRoundsBody fuel left right (Nat.gcd (left+right) right) p = some r ∧ Round
      (fun p => p.2 ≤ Nat.gcd (left+right) right ∧ RoundsDone v left right p.2 p.1)
      (fun p => Nat.gcd (left+right) right-p.2)
      (RoundsDone v left right (Nat.gcd (left+right) right)) p r := by
  obtain ⟨buf, start⟩ := p
  obtain ⟨hle, hdone⟩ := h
  by_cases hlt : start < Nat.gcd (left+right) right
  · obtain ⟨tmp, buf', hread, hloop, hnext⟩ := round_done hlen hleft hright hlt hdone hfuel
    have hstep : moreRoundsBody fuel left right (Nat.gcd (left+right) right) (buf, start) =
        some (.inl (buf', start+1)) := by
      dsimp only at hread hloop
      simp only [moreRoundsBody, if_pos hlt, hread, hloop, some_bind,
        Option.pure_def]
    exact ⟨_, hstep, ⟨hlt, hnext⟩, by dsimp only; lia⟩
  · have hstep : moreRoundsBody fuel left right (Nat.gcd (left+right) right) (buf, start) =
        some (.inr buf) := by
      simp only [moreRoundsBody, if_neg hlt, Option.pure_def]
    have heq : start = Nat.gcd (left+right) right := Nat.le_antisymm hle (Nat.le_of_not_lt hlt)
    exact ⟨_, hstep, heq ▸ hdone⟩

/-- `gcd` is a common divisor and at most every index met up to step `t`. -/
structure Candidate (left right t gcd : ℕ) : Prop where
  dvd : Nat.gcd (left+right) right ∣ gcd
  pos : 0 < gcd
  le : ∀ u, 0 < u → u ≤ t → gcd ≤ place (left+right) right 0 u

omit hlen in
theorem Candidate.start : Candidate left right 1 right := by
  constructor
  · exact Nat.gcd_dvd_right ..
  · exact hright
  · intro u hu hle
    obtain rfl : u = 1 := by lia
    rw [place, Nat.zero_add, Nat.one_mul, Nat.mod_eq_of_lt (by lia)]

omit hlen hleft in
theorem Candidate.add {gcd i : ℕ} (h : Candidate left right t gcd) (ht : 0 < t)
    (hi : i = place (left+right) right 0 t) (hlt : i < left) :
    Candidate left right (t+1) gcd := by
  constructor
  · exact h.dvd
  · exact h.pos
  · intro u hu hle
    rcases Nat.lt_or_eq_of_le hle with hle | rfl
    · exact h.le u hu (by lia)
    · have := h.le t ht le_rfl
      rw [place_succ, ← hi, Nat.mod_eq_of_lt (by lia)]
      lia

omit hlen hleft hright in
theorem Candidate.sub {gcd i : ℕ} (h : Candidate left right t gcd)
    (hi : i = place (left+right) right 0 (t+1)) (hpos : 0 < i) :
    Candidate left right (t+1) (if i < gcd then i else gcd) := by
  constructor
  · split_ifs with hlt
    · apply Nat.dvd_of_mod_eq_zero
      rw [hi, place_mod_gcd, Nat.zero_mod]
    · exact h.dvd
  · split_ifs with hlt
    · exact hpos
    · exact h.pos
  · intro u hu hle
    rcases Nat.lt_or_eq_of_le hle with hle | rfl
    · have := h.le u hu (by lia)
      split_ifs with hlt <;> lia
    · rw [← hi]
      split_ifs with hlt <;> lia

omit hlen in
theorem Candidate.eq_gcd {gcd : ℕ} (h : Candidate left right t gcd)
    (ht : t+1 = (left+right)/Nat.gcd (left+right) right) :
    gcd = Nat.gcd (left+right) right := by
  have hpos : 0 < Nat.gcd (left+right) right := Nat.gcd_pos_of_pos_right _ hright
  have hg : Nat.gcd (left+right) right ≤ left := gcd_le_left hleft
  obtain ⟨u, hu, hum, hplace⟩ := exists_place (n := left+right) (r := right) (s := 0)
    (j := Nat.gcd (left+right) right) (by lia) (by simp) (Nat.zero_le _)
  have hne : u ≠ t+1 := by
    intro he
    have hz := (place_eq_start_iff (n := left+right) (r := right) (s := 0) (t := u)
      (by lia)).mpr (by rw [← ht, he])
    lia
  have hle : gcd ≤ Nat.gcd (left+right) right := hplace ▸ h.le u hu (by lia)
  exact Nat.le_antisymm hle (Nat.le_of_dvd h.pos h.dvd)

/-- The invariant of the first round. -/
def InFirstRound (v : List T) (left right : ℕ) (s : Cycle T × ℕ) : Prop :=
  ∃ t, 0 < t ∧ t < (left+right)/Nat.gcd (left+right) right ∧ InRound v left right 0 t s.1 ∧
    Candidate left right t s.2

theorem firstRoundBody_round (p : Cycle T × ℕ) (h : InFirstRound v left right p) :
    ∃ r, firstRoundBody left right p = some r ∧ Round (InFirstRound v left right)
      (fun p => v.length-p.1.buf.written.length)
      (fun q => RoundsDone v left right 1 q.1 ∧ q.2 = Nat.gcd (left+right) right) p r := by
  obtain ⟨c, gcd⟩ := p
  obtain ⟨t, ht, htm, h, hcand⟩ := h
  dsimp only at h hcand
  have hg : 0 < Nat.gcd (left+right) right := Nat.gcd_pos_of_pos_right _ hright
  obtain ⟨tmp, buf, hrep, hlenb, hle, hcase⟩ := h.step_cases hlen hleft hright hg ht htm
  rcases hcase with ⟨hne, htm', hnext⟩ | ⟨hi, hlast, buf', hwrite, hdone⟩
  · by_cases hge : c.i ≥ left
    · have hadv : advance left right c.i = c.i-left := if_pos hge
      rw [hadv] at hne hnext
      have hstep : firstRoundBody left right (c, gcd) = some (.inl (⟨buf, tmp, c.i-left⟩,
          if c.i-left < gcd then c.i-left else gcd)) := by
        simp [firstRoundBody, hrep, hge, hne]
      exact ⟨_, hstep, ⟨t+1, by lia, htm', hnext,
        hcand.sub hnext.place (Nat.pos_of_ne_zero hne)⟩, by dsimp only; lia⟩
    · have hadv : advance left right c.i = c.i+right := if_neg hge
      rw [hadv] at hnext
      have hstep : firstRoundBody left right (c, gcd) =
          some (.inl (⟨buf, tmp, c.i+right⟩, gcd)) := by
        simp [firstRoundBody, hrep, hge]
      exact ⟨_, hstep, ⟨t+1, by lia, htm', hnext,
        hcand.add hright ht h.place (by lia)⟩, by dsimp only; lia⟩
  · have hstep : firstRoundBody left right (c, gcd) = some (.inr (buf', gcd)) := by
      have hge : c.i ≥ left := by lia
      have hsub : c.i-left = 0 := by lia
      simp [firstRoundBody, hrep, hge, hsub, hwrite]
    exact ⟨_, hstep, hdone, hcand.eq_gcd hleft hright hlast⟩

theorem firstRound_eq (hfuel : left+right < fuel) :
    ∃ buf, firstRound fuel left right ⟨v, []⟩ = some (buf, Nat.gcd (left+right) right) ∧
      RoundsDone v left right 1 buf := by
  have hnone : RoundsDone v left right 0 ⟨v, []⟩ := by
    constructor
    · exact ⟨rfl, List.nodup_nil, by simp, by simp⟩
    · simp
  have hg : 0 < Nat.gcd (left+right) right := Nat.gcd_pos_of_pos_right _ hright
  obtain ⟨tmp, hread, hstart⟩ := hnone.start hlen hleft hright hg
  rw [Nat.zero_add] at hstart
  obtain ⟨⟨buf, gcd⟩, hbuf, hdone, hgcd⟩ := loop_total _ _ _
    (firstRoundBody_round hlen hleft hright) fuel (⟨⟨v, []⟩, tmp, right⟩, right)
    ⟨1, Nat.one_pos, one_lt_period hleft hright, hstart, Candidate.start hleft hright⟩
    (by dsimp only; lia)
  dsimp only at hgcd
  subst hgcd
  refine ⟨buf, ?_, hdone⟩
  simp [firstRound, hread, hbuf]

omit hleft in
theorem RoundsDone.finish
    (h : RoundsDone v left right (Nat.gcd (left+right) right) b) :
    b.elems = v.rotate left ∧ b.written.Perm (List.range (left+right)) := by
  have hg : 0 < Nat.gcd (left+right) right := Nat.gcd_pos_of_pos_right _ hright
  have hmem : ∀ j, j ∈ b.written ↔ j < left+right := by
    intro j
    rw [h.written j]
    exact and_iff_left (Nat.mod_lt _ hg)
  constructor
  · apply List.ext_getElem?
    intro j
    by_cases hj : j < v.length
    · rw [h.rotating.elem j hj, if_pos ((hmem j).mpr (by lia))]
    · have hjb : b.elems.length ≤ j := by rw [h.rotating.length]; lia
      rw [List.getElem?_eq_none hjb, List.getElem?_eq_none (by rw [List.length_rotate]; lia)]
  · apply (List.perm_ext_iff_of_nodup h.rotating.nodup List.nodup_range).mpr
    intro j
    rw [hmem j, List.mem_range]

theorem ptrRotateGcd_eq (hfuel : left+right < fuel) :
    ∃ b, ptrRotateGcd fuel left right v = some b ∧ b.elems = v.rotate left ∧
      b.written.Perm (List.range (left+right)) := by
  obtain ⟨buf, hfirst, hdone⟩ := firstRound_eq hlen hleft hright hfuel
  have hg : Nat.gcd (left+right) right ≤ left := gcd_le_left hleft
  have hpos : 0 < Nat.gcd (left+right) right := Nat.gcd_pos_of_pos_right _ hright
  obtain ⟨b, hb, hall⟩ := loop_total _ _ _ (moreRoundsBody_round hlen hleft hright hfuel) fuel
    (buf, 1) ⟨hpos, hdone⟩ (by dsimp only; lia)
  refine ⟨b, ?_, hall.finish hlen hright⟩
  rw [ptrRotateGcd, hfirst]
  exact hb

end Rounds

inductive Elem (T : Type)
  | zeroSized (unique : ∀ x y : T, x = y)
  | sized (size : ℕ) (pos : 0 < size)

structure Target where
  usizeBytes : ℕ
  optimizeForSize : Bool

def constMin (left right : ℕ) : ℕ := if right < left then right else left

/-- `size_of::<BufType>() / size_of::<T>()`. -/
def bufLen (target : Target) (size : ℕ) : ℕ := 32*target.usizeBytes/size

/-- The buffer starts at `mid-left`. -/
def ptrRotate (target : Target) (e : Elem T) (fuel left right : ℕ) (v : List T) :
    Option (List T) :=
  match e with
  | .zeroSized _ => some v
  | .sized size _ =>
    if left = 0 ∨ right = 0 then some v
    else if !target.optimizeForSize ∧ constMin left right ≤ bufLen target size then
      ptrRotateMemmove (bufLen target size) left left right v
    else if !target.optimizeForSize ∧ (left+right < 24 ∨ size > 4*target.usizeBytes) then
      (ptrRotateGcd fuel left right v).map Buffer.elems
    else ptrRotateSwap fuel left left right v

theorem rotated_whole (hlen : v.length = left+right) :
    rotated v left left right = v.drop left++v.take left := by
  have hright : (v.drop left).take right = v.drop left := List.take_of_length_le (by simp; lia)
  have hback : v.drop (left+right) = [] := List.drop_of_length_le (by lia)
  simp [rotated, hright, hback]

theorem rotate_whole (hlen : v.length = left+right) :
    v.rotate left = v.drop left++v.take left :=
  List.rotate_eq_drop_append_take (by lia)

theorem Elem.rotate_unique (unique : ∀ x y : T, x = y) (hlen : v.length = left+right) :
    v = v.drop left++v.take left := by
  apply List.ext_getElem
  · simp; lia
  · intro i hi hi'
    exact unique _ _

/-- Whichever algorithm runs, and each algorithm where it may run, the last `right`
elements end up in front of the first `left`. -/
theorem ptrRotate_exact (hlen : v.length = left+right) (hfuel : left+right < fuel)
    (target : Target) (e : Elem T) :
    ptrRotate target e fuel left right v = some (v.drop left++v.take left) ∧
    (∀ space, min left right ≤ space →
      ptrRotateMemmove space left left right v = some (v.drop left++v.take left)) ∧
    (0 < left → 0 < right →
      (∃ buf, firstRound fuel left right ⟨v, []⟩ = some (buf, Nat.gcd (left+right) right)) ∧
      (∃ b, ptrRotateGcd fuel left right v = some b ∧ b.elems = v.drop left++v.take left ∧
        b.written.Perm (List.range (left+right))) ∧
      ptrRotateSwap fuel left left right v = some (v.drop left++v.take left)) := by
  have hmem : ∀ space, min left right ≤ space →
      ptrRotateMemmove space left left right v = some (v.drop left++v.take left) := by
    intro space hspace
    rw [ptrRotateMemmove_eq hspace le_rfl (by lia), rotated_whole hlen]
  have hgcd : 0 < left → 0 < right → ∃ b, ptrRotateGcd fuel left right v = some b ∧
      b.elems = v.drop left++v.take left ∧ b.written.Perm (List.range (left+right)) := by
    intro hleft hright
    rw [← rotate_whole hlen]
    exact ptrRotateGcd_eq hlen hleft hright hfuel
  have hswap : 0 < left → 0 < right →
      ptrRotateSwap fuel left left right v = some (v.drop left++v.take left) := by
    intro hleft hright
    rw [ptrRotateSwap_eq le_rfl (by lia) hleft hright hfuel, rotated_whole hlen]
  refine ⟨?_, hmem, ?_⟩
  · cases e with
    | zeroSized unique => exact congrArg some (Elem.rotate_unique unique hlen)
    | sized size pos =>
      simp only [ptrRotate]
      split_ifs with hz hfit hsmall
      · rcases hz with rfl | rfl
        · simp
        · have hall : v.length ≤ left := by lia
          simp [List.take_of_length_le hall, List.drop_of_length_le hall]
      · apply hmem
        have := hfit.2
        unfold constMin at this
        split_ifs at this <;> lia
      · obtain ⟨b, hb, helems, -⟩ := hgcd (by lia) (by lia)
        rw [hb, Option.map_some, helems]
      · exact hswap (by lia) (by lia)
  · intro hleft hright
    obtain ⟨buf, hbuf, -⟩ := firstRound_eq hlen hleft hright hfuel
    exact ⟨⟨buf, hbuf⟩, hgcd hleft hright, hswap hleft hright⟩

theorem ptrRotate_exact_six :
    ptrRotate ⟨8, false⟩ (.sized 8 (by decide)) 7 4 2 [0, 1, 2, 3, 4, 5] =
        some [4, 5, 0, 1, 2, 3] ∧
      (ptrRotateGcd 7 4 2 [0, 1, 2, 3, 4, 5]).map Buffer.elems = some [4, 5, 0, 1, 2, 3] := by
  have hlen : [0, 1, 2, 3, 4, 5].length = 4+2 := rfl
  have hfuel : 4+2 < 7 := by decide
  have h := ptrRotate_exact hlen hfuel ⟨8, false⟩ (.sized 8 (by decide))
  obtain ⟨b, hb, helems, -⟩ := (h.2.2 (by decide) (by decide)).2.1
  exact ⟨h.1, by rw [hb, Option.map_some, helems]; rfl⟩

end RustStd.Rotate
