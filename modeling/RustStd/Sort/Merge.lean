import RustStd.Sort.InsertionSort

/-!
# `merge`

The shorter run is saved in the scratch space and leaves a gap in the slice.
The drop of the merge state fills the gap with what is left of the saved run, at
an unwind and at the end alike, so the slice with its gap filled is the
invariant.
-/

set_option autoImplicit false

namespace RustStd.Sort
open RustStd.Unwind RustStd.WeakOrder

variable {σ T : Type}

structure MergeState where
  start : ℕ
  endPos : ℕ
  dst : ℕ

namespace MergeState

/-- `start..end` is copied to `dst..`. -/
def drop (s : MergeState) (buf v : List T) : List T :=
  let w := (buf.drop s.start).take (s.endPos-s.start)
  v.take s.dst ++ w ++ v.drop (s.dst+w.length)

def mergeUp (o : Oracle σ T) (buf : List T) (rightEnd : ℕ) :
    ℕ → ℕ → MergeState → SortM σ (List T) MergeState
  | 0, _, _ => exit .outOfFuel
  | fuel+1, right, s =>
    if s.start ≠ s.endPos ∧ right ≠ rightEnd then do
      let r ← read right
      let l ← at? buf s.start
      let consumeLeft := !(← onUnwind (less o r l) (s.drop buf))
      write s.dst (if consumeLeft then l else r)
      mergeUp o buf rightEnd fuel (right+(!consumeLeft).toNat)
        { s with start := s.start+consumeLeft.toNat, dst := s.dst+1 }
    else pure s

def mergeDown (o : Oracle σ T) (buf : List T) : ℕ → ℕ → MergeState → SortM σ (List T) MergeState
  | 0, _, _ => exit .outOfFuel
  | fuel+1, out+1, ⟨start, right+1, left+1⟩ => do
    let r ← at? buf right
    let l ← read left
    let consumeLeft ← onUnwind (less o r l) (drop ⟨start, right+1, left+1⟩ buf)
    write out (if consumeLeft then l else r)
    let s : MergeState := ⟨start, right+consumeLeft.toNat, left+(!consumeLeft).toNat⟩
    if s.dst = 0 ∨ s.endPos = 0 then pure s else mergeDown o buf fuel out s
  | _, _, _ => exit .outOfBounds

end MergeState

def merge (o : Oracle σ T) (scratchLen mid : ℕ) : SortM σ (List T) Unit := do
  let v ← get
  let len := v.length
  if mid = 0 ∨ mid ≥ len ∨ scratchLen < min mid (len-mid) then pure ()
  else if mid ≤ len-mid then do
    let buf := v.take mid
    let s ← MergeState.mergeUp o buf len (len+1) mid ⟨0, mid, 0⟩
    put (s.drop buf (← get))
  else do
    let buf := v.drop mid
    let s ← MergeState.mergeDown o buf (len+1) len ⟨0, len-mid, mid⟩
    put (s.drop buf (← get))

/-- With the gap filled, the slice is `a ++ b ++ c`. While merging upwards `a` is
the output, while merging downwards `c` is. -/
structure Filled (L : Prop) (f : T → T → Bool) (src a b c : List T) : Prop where
  perm : (a ++ b ++ c).Perm src
  stable : L → Stable f src (a ++ b ++ c)

theorem MergeState.drop_eq {a g c d b e : List T} (hg : g.length = b.length) :
    MergeState.drop ⟨d.length, d.length+b.length, a.length⟩ (d ++ b ++ e) (a ++ g ++ c) =
      a ++ b ++ c := by
  have hw : ((d ++ b ++ e).drop d.length).take b.length = b := by
    rw [List.append_assoc, List.drop_left, List.take_left]
  simp only [drop, Nat.add_sub_cancel_left, hw]
  rw [List.append_assoc a g c, List.take_left, ← hg, ← List.append_assoc, ← List.length_append,
    List.drop_left]

theorem sorted_next {f : T → T → Bool} (hf : Weak f) {a b c : List T} {x y : T}
    (hb : Sorted f (a ++ x :: b)) (hc : Sorted f (a ++ y :: c)) (hxy : f y x = false) :
    Sorted f (a ++ x :: y :: c) := by
  obtain ⟨ha, -, hab⟩ := sorted_append.mp hb
  obtain ⟨-, hyc, hac⟩ := sorted_append.mp hc
  refine sorted_append.mpr ⟨ha, sorted_cons.mpr ⟨fun z hz => ?_, hyc⟩, fun z hz w hw => ?_⟩
  · rcases List.mem_cons.mp hz with rfl | hz
    · exact hxy
    · exact hf.le_trans hxy ((sorted_cons.mp hyc).1 z hz)
  · rcases List.mem_cons.mp hw with rfl | hw
    · exact hab z hz w (by simp)
    · exact hac z hz w hw

theorem sorted_prev {f : T → T → Bool} (hf : Weak f) {a b c : List T} {x y : T}
    (hb : Sorted f (b ++ [x] ++ c)) (ha : Sorted f (a ++ [y] ++ c)) (hyx : f x y = false) :
    Sorted f (a ++ [y] ++ x :: c) := by
  obtain ⟨hay, hc, hac⟩ := sorted_append.mp ha
  obtain ⟨-, -, hbc⟩ := sorted_append.mp hb
  refine sorted_append.mpr ⟨hay, sorted_cons.mpr ⟨fun z hz => hbc x (by simp) z hz, hc⟩, ?_⟩
  intro z hz w hw
  rcases List.mem_cons.mp hw with rfl | hw
  · rcases List.mem_append.mp hz with hz | hz
    · exact hf.le_trans ((sorted_append.mp hay).2.2 z hz y (by simp)) hyx
    · obtain rfl : z = y := by simpa using hz
      exact hyx
  · exact hac z hz w hw

section Merging

variable {L : Prop} {f : T → T → Bool} (hf : L → Weak f) {src a b c : List T} {l r : T}
include hf

theorem Filled.right_first (h : Filled L f src a (l :: b) (r :: c))
    (hb : L → Sorted f (l :: b)) (hrl : L → f r l = true) :
    Filled L f src (a ++ [r]) (l :: b) c := by
  have hlt : L → ∀ x ∈ l :: b, f r x = true := by
    intro hl x hx
    rcases List.mem_cons.mp hx with rfl | hx
    · exact hrl hl
    · exact (hf hl).lt_of_lt_of_le (hrl hl) ((sorted_cons.mp (hb hl)).1 x hx)
  have hsplit : a ++ l :: b ++ r :: c = a ++ (l :: b ++ [r]) ++ c := by simp
  have hsplit' : a ++ [r] ++ l :: b ++ c = a ++ (r :: l :: b) ++ c := by simp
  refine ⟨?_, fun hl => ?_⟩
  · refine List.Perm.trans ?_ h.perm
    rw [hsplit, hsplit']
    exact ((List.perm_append_singleton r (l :: b)).symm.append_left a).append_right c
  · refine (h.stable hl).trans ?_
    rw [hsplit, hsplit']
    exact ((Stable.refl a).append (Stable.move (hf hl) fun x hx =>
      not_equiv_of_lt (hlt hl x hx))).append (Stable.refl c)

theorem Filled.left_last (h : Filled L f src (a ++ [l]) (b ++ [r]) c)
    (hb : L → Sorted f (b ++ [r])) (hrl : L → f r l = true) :
    Filled L f src a (b ++ [r]) (l :: c) := by
  have hlt : L → ∀ x ∈ b ++ [r], f x l = true := by
    intro hl x hx
    rcases List.mem_append.mp hx with hx | hx
    · exact (hf hl).lt_of_le_of_lt ((sorted_append.mp (hb hl)).2.2 x hx r (by simp)) (hrl hl)
    · obtain rfl : x = r := by simpa using hx
      exact hrl hl
  have hsplit : a ++ [l] ++ (b ++ [r]) ++ c = a ++ (l :: (b ++ [r])) ++ c := by simp
  have hsplit' : a ++ (b ++ [r]) ++ l :: c = a ++ (b ++ [r] ++ [l]) ++ c := by simp
  refine ⟨?_, fun hl => ?_⟩
  · refine List.Perm.trans ?_ h.perm
    rw [hsplit, hsplit']
    exact ((List.perm_append_singleton l (b ++ [r])).append_left a).append_right c
  · refine (h.stable hl).trans ?_
    rw [hsplit, hsplit']
    exact ((Stable.refl a).append (Stable.move (hf hl) fun x hx =>
      not_equiv_of_gt (hlt hl x hx)).symm).append (Stable.refl c)

end Merging

section Specs

variable {L : Prop} {o : Oracle σ T} {f : T → T → Bool} (hL : L → Answers o f) (hf : L → Weak f)
  {src : List T}
include hL hf

/-- The output `a` stays below both runs, of which `b` is the saved one. -/
theorem mergeUp_state_sat (fuel : ℕ) {a g c b d : List T} (hfuel : b.length+c.length < fuel)
    (hg : g.length = b.length) (h : Filled L f src a b c)
    (hs : L → Sorted f (a ++ b) ∧ Sorted f (a ++ c)) :
    Sat L (MergeState.mergeUp o (d ++ b) (a ++ g ++ c).length fuel (a ++ g).length
        ⟨d.length, d.length+b.length, a.length⟩) (a ++ g ++ c)
      (fun s v => SortOf L f src (s.drop (d ++ b) v)) fun v => v.Perm src := by
  have hdrop {e g' c' : List T} (b' : List T) (d' : List T) (hg' : g'.length = b'.length) :
      MergeState.drop ⟨d'.length, d'.length+b'.length, e.length⟩ (d' ++ b') (e ++ g' ++ c') =
        e ++ b' ++ c' := by
    have := MergeState.drop_eq (a := e) (c := c') (d := d') (e := []) hg'
    rwa [List.append_nil] at this
  induction fuel generalizing a g c b d with
  | zero => omega
  | succ fuel ih =>
    unfold MergeState.mergeUp
    cases b with
    | nil =>
      rw [if_neg (by simp)]
      refine sat_pure ?_
      rw [hdrop [] d hg, List.append_nil]
      have hperm := h.perm
      have hstable := h.stable
      rw [List.append_nil] at hperm hstable
      exact ⟨hperm, fun hl => ⟨(hs hl).2, hstable hl⟩⟩
    | cons l b =>
    cases c with
    | nil =>
      rw [if_neg (by simp)]
      refine sat_pure ?_
      rw [hdrop (l :: b) d hg]
      have hperm := h.perm
      have hstable := h.stable
      rw [List.append_nil] at hperm hstable ⊢
      exact ⟨hperm, fun hl => ⟨(hs hl).1, hstable hl⟩⟩
    | cons r c =>
      obtain ⟨g0, g, rfl⟩ := List.exists_cons_of_length_pos (show 0 < g.length by simp [hg])
      have hg' : g.length = b.length := by simpa using hg
      simp only [List.length_cons] at hfuel
      rw [if_pos (by simp)]
      refine .bind (sat_read (x := r) (by simp) (.bind (sat_at (x := l) (by simp) ?_)))
      refine .bind (.onUnwind (sat_less hL ?_ fun less hless => ?_))
      · rw [hdrop (l :: b) d hg]
        exact h.perm
      refine .bind (sat_write (by simp) ?_)
      cases less with
      | false =>
        -- the left head is not greater
        have hlaw (hl : L) : Sorted f (a ++ [l] ++ b) ∧ Sorted f (a ++ [l] ++ r :: c) := by
          rw [List.append_assoc, List.append_assoc]
          exact ⟨(hs hl).1, sorted_next (hf hl) (hs hl).1 (hs hl).2 (hless hl).symm⟩
        have hfill : Filled L f src (a ++ [l]) b (r :: c) :=
          ⟨by simpa using h.perm, by simpa using h.stable⟩
        have := ih (a := a ++ [l]) (g := g) (c := r :: c) (b := b) (d := d ++ [l])
          (by simp; omega) hg' hfill hlaw
        simpa [Nat.add_assoc, Nat.add_comm, Nat.add_left_comm] using this
      | true =>
        have hlaw (hl : L) : Sorted f (a ++ [r] ++ l :: b) ∧ Sorted f (a ++ [r] ++ c) := by
          rw [List.append_assoc, List.append_assoc]
          exact ⟨sorted_next (hf hl) (hs hl).2 (hs hl).1 ((hf hl).asymm (hless hl).symm), (hs hl).2⟩
        have hfill := h.right_first hf (fun hl => (sorted_append.mp (hs hl).1).2.1)
          fun hl => (hless hl).symm
        have := ih (a := a ++ [r]) (g := g ++ [r]) (c := c) (b := l :: b) (d := d)
          (by simp; omega) (by simp [hg']) hfill hlaw
        simpa [Nat.add_assoc, Nat.add_comm, Nat.add_left_comm] using this

/-- The output `c` stays above both runs, of which `b` is the saved one. -/
theorem mergeDown_state_sat (fuel : ℕ) {a g c b d : List T} (hfuel : a.length+b.length < fuel)
    (ha : a ≠ []) (hb : b ≠ []) (hg : g.length = b.length) (h : Filled L f src a b c)
    (hs : L → Sorted f (a ++ c) ∧ Sorted f (b ++ c)) :
    Sat L (MergeState.mergeDown o (b ++ d) fuel (a ++ g).length ⟨0, b.length, a.length⟩)
      (a ++ g ++ c) (fun s v => SortOf L f src (s.drop (b ++ d) v)) fun v => v.Perm src := by
  have hdrop {e g' : List T} (b' c' d' : List T) (hg' : g'.length = b'.length) :
      MergeState.drop ⟨0, b'.length, e.length⟩ (b' ++ d') (e ++ g' ++ c') = e ++ b' ++ c' := by
    have := MergeState.drop_eq (a := e) (c := c') (d := []) (e := d') hg'
    rwa [List.nil_append, List.length_nil, Nat.zero_add] at this
  -- one of the runs is used up
  have hdone {e c' : List T} (b' d' g' : List T) (hg' : g'.length = b'.length)
      (he : e = [] ∨ b' = []) (hfill : Filled L f src e b' c')
      (hlaw : L → Sorted f (e ++ c') ∧ Sorted f (b' ++ c')) :
      SortOf L f src (MergeState.drop ⟨0, b'.length, e.length⟩ (b' ++ d') (e ++ g' ++ c')) := by
    rw [hdrop b' c' d' hg']
    refine ⟨hfill.perm, fun hl => ⟨?_, hfill.stable hl⟩⟩
    rcases he with rfl | rfl
    · simpa using (hlaw hl).2
    · simpa using (hlaw hl).1
  induction fuel generalizing a g c b d with
  | zero => omega
  | succ fuel ih =>
    obtain ⟨a, l, rfl⟩ : ∃ a' x, a = a' ++ [x] := by
      simpa using (List.eq_nil_or_concat a).resolve_left ha
    obtain ⟨b, r, rfl⟩ : ∃ b' x, b = b' ++ [x] := by
      simpa using (List.eq_nil_or_concat b).resolve_left hb
    obtain ⟨g, g0, rfl⟩ : ∃ g' x, g = g' ++ [x] := by
      simpa using (List.eq_nil_or_concat g).resolve_left (by rintro rfl; simp at hg)
    have hg' : g.length = b.length := by simpa using hg
    have hperm := h.perm
    simp only [List.length_append, List.length_singleton] at hfuel
    rw [show (a ++ [l] ++ (g ++ [g0])).length = a.length+1+g.length+1 by simp; omega,
      List.length_append, List.length_append, List.length_singleton, List.length_singleton]
    refine .bind (sat_at (x := r) (by simp) (.bind (sat_read (x := l) (by simp) ?_)))
    refine .bind (.onUnwind (sat_less hL ?_ fun less hless => ?_))
    · have := hdrop (e := a ++ [l]) (b ++ [r]) c d hg
      rw [List.length_append, List.length_append, List.length_singleton, List.length_singleton]
        at this
      rw [this]
      exact hperm
    refine .bind (sat_write (by simp; omega) ?_)
    cases less with
    | false =>
      have hlaw (hl : L) : Sorted f (a ++ [l] ++ r :: c) ∧ Sorted f (b ++ r :: c) :=
        ⟨sorted_prev (hf hl) (hs hl).2 (hs hl).1 (hless hl).symm, by simpa using (hs hl).2⟩
      have hfill : Filled L f src (a ++ [l]) b (r :: c) :=
        ⟨by simpa using h.perm, by simpa using h.stable⟩
      by_cases hne : b = []
      · rw [if_pos (by simp [hne])]
        refine sat_pure ?_
        have := hdone b (r :: d) g hg' (.inr hne) hfill hlaw
        simpa [Nat.add_assoc, Nat.add_comm, Nat.add_left_comm] using this
      · rw [if_neg (by simpa using hne)]
        have := ih (a := a ++ [l]) (g := g) (c := r :: c) (b := b) (d := r :: d) (by simp; omega)
          (by simp) hne hg' hfill hlaw
        simpa [Nat.add_assoc, Nat.add_comm, Nat.add_left_comm] using this
    | true =>
      have hlaw (hl : L) : Sorted f (a ++ l :: c) ∧ Sorted f (b ++ [r] ++ l :: c) :=
        ⟨by simpa using (hs hl).1,
          sorted_prev (hf hl) (hs hl).1 (hs hl).2 ((hf hl).asymm (hless hl).symm)⟩
      have hfill := h.left_last hf (fun hl => (sorted_append.mp (hs hl).2).1)
        fun hl => (hless hl).symm
      by_cases hne : a = []
      · rw [if_pos (by simp [hne])]
        refine sat_pure ?_
        have := hdone (b ++ [r]) d (l :: g) (by simp [hg']) (.inl hne) hfill hlaw
        simpa [Nat.add_assoc, Nat.add_comm, Nat.add_left_comm] using this
      · rw [if_neg (by simpa using hne)]
        have := ih (a := a) (g := l :: g) (c := l :: c) (b := b ++ [r]) (d := d) (by simp; omega)
          hne (by simp) (by simp [hg']) hfill hlaw
        simpa [Nat.add_assoc, Nat.add_comm, Nat.add_left_comm] using this

theorem merge_sat {v : List T} {scratchLen mid : ℕ} (hscr : min mid (v.length-mid) ≤ scratchLen)
    (hs : L → Sorted f (v.take mid) ∧ Sorted f (v.drop mid)) :
    Sat L (merge o scratchLen mid) v (fun _ v' => SortOf L f v v') fun v' => v'.Perm v := by
  refine .bind (sat_get ?_)
  by_cases hmid : mid = 0 ∨ mid ≥ v.length
  · rw [if_pos (by omega)]
    refine sat_pure ⟨.refl v, fun hl => ⟨?_, Stable.refl v⟩⟩
    rcases hmid with rfl | hmid
    · exact (hs hl).2
    · have := (hs hl).1
      rwa [List.take_of_length_le hmid] at this
  rw [if_neg (by omega)]
  obtain ⟨a, b, rfl, rfl⟩ : ∃ a b, v = a ++ b ∧ a.length = mid :=
    ⟨v.take mid, v.drop mid, (List.take_append_drop mid v).symm,
      List.length_take_of_le (by omega)⟩
  rw [List.take_left, List.drop_left] at hs ⊢
  have hfill : Filled L f (a ++ b) [] a b ∧ Filled L f (a ++ b) a b [] :=
    ⟨⟨by simp, fun _ => by simpa using Stable.refl (a ++ b)⟩,
      ⟨by simp, fun _ => by simpa using Stable.refl (a ++ b)⟩⟩
  by_cases hshort : a.length ≤ (a ++ b).length-a.length
  · rw [if_pos hshort]
    have := mergeUp_state_sat hL hf ((a ++ b).length+1) (a := []) (g := a) (d := []) (by simp) rfl
      hfill.1 (by simpa using hs)
    simp only [List.nil_append, List.length_nil, Nat.zero_add] at this
    refine this.call ?_ fun v' _ h => h
    intro s v' h
    exact .bind (sat_get (sat_put h))
  · rw [if_neg hshort]
    simp only [List.length_append] at hmid
    have := mergeDown_state_sat hL hf ((a ++ b).length+1) (g := b) (d := []) (by simp)
      (List.length_pos_iff.mp (by omega)) (List.length_pos_iff.mp (by omega)) rfl
      hfill.2 (by simpa using hs)
    simp only [List.append_nil] at this
    rw [show (a ++ b).length-a.length = b.length by simp]
    refine this.call ?_ fun v' _ h => h
    intro s v' h
    exact .bind (sat_get (sat_put h))

end Specs

end RustStd.Sort
