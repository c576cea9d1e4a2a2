import RustStd.Sort.BidirectionalMerge

/-!
# `small_sort_general_with_scratch`

Both halves are sorted inside the scratch space, the first few elements by a
fixed scheme and the others by insertion, and then merged back. The slice itself
is written only by the last merge, whose drop guard copies the scratch space
back.
-/

set_option autoImplicit false

namespace RustStd.Sort
open RustStd.Unwind RustStd.WeakOrder

variable {σ T : Type}

/-- What the sorts ask about the element type. -/
structure TypeInfo (T : Type) where
  sizeOf : ℕ
  isFreeze : Bool
  isCopy : Bool
  subsingleton_of_zst : sizeOf = 0 → Subsingleton T

/-- Uninitialized arrays. There is nothing to say of them if `T` has no values. -/
structure Uninit (T : Type) where
  cells : ℕ → List T
  length_cells : Nonempty T → ∀ n, (cells n).length = n

/-- Local memory with arbitrary contents. -/
def withScratch {β : Type} (scratch : List T) (m : SortM σ (List T × List T) β) :
    SortM σ (List T) β := fun v st =>
  match m (v, scratch) st with
  | (r, (v, _), st) => (r, v, st)

def onScratch {β : Type} (m : SortM σ (List T) β) : SortM σ (List T × List T) β :=
  onPart Prod.snd (fun s p => (p.1, s)) m

def onSorted {β : Type} (m : SortM σ (List T) β) : SortM σ (List T × List T) β :=
  onPart Prod.fst (fun v p => (v, p.2)) m

def sort4Stable (o : Oracle σ T) (v : List T) (base dst : ℕ) : SortM σ (List T) Unit := do
  let v0 ← at? v base
  let v1 ← at? v (base+1)
  let v2 ← at? v (base+2)
  let v3 ← at? v (base+3)
  let c1 ← less o v1 v0
  let c2 ← less o v3 v2
  let a := if c1 then v1 else v0
  let b := if c1 then v0 else v1
  let c := if c2 then v3 else v2
  let d := if c2 then v2 else v3
  let c3 ← less o c a
  let c4 ← less o d b
  let min := if c3 then c else a
  let max := if c4 then b else d
  let unknownLeft := if c3 then a else if c4 then c else b
  let unknownRight := if c4 then d else if c3 then b else c
  let c5 ← less o unknownRight unknownLeft
  let lo := if c5 then unknownRight else unknownLeft
  let hi := if c5 then unknownLeft else unknownRight
  write dst min
  write (dst+1) lo
  write (dst+2) hi
  write (dst+3) max

def sort8Stable (o : Oracle σ T) (v : List T) (base dst scratchBase : ℕ) :
    SortM σ (List T) Unit := do
  sort4Stable o v base scratchBase
  sort4Stable o v (base+4) (scratchBase+4)
  let src := ((← get).drop scratchBase).take 8
  onSlice dst 8 (bidirectionalMerge o src)

def presort (ti : TypeInfo T) (o : Oracle σ T) (v : List T) : SortM σ (List T) ℕ :=
  let len := v.length
  let lenDiv2 := len/2
  if ti.sizeOf ≤ 16 ∧ len ≥ 16 then do
    sort8Stable o v 0 0 len
    sort8Stable o v lenDiv2 lenDiv2 (len+8)
    return 8
  else if len ≥ 8 then do
    sort4Stable o v 0 0
    sort4Stable o v lenDiv2 lenDiv2
    return 4
  else do
    write 0 (← at? v 0)
    write lenDiv2 (← at? v lenDiv2)
    return 1

def insertFrom (o : Oracle σ T) (src : List T) : ℕ → ℕ → SortM σ (List T) Unit
  | 0, _ => pure ()
  | n+1, i => do
    write i (← at? src i)
    insertTail o i
    insertFrom o src n (i+1)

def smallSortGeneralWithScratch (ti : TypeInfo T) (o : Oracle σ T) (scratch : List T) :
    SortM σ (List T) Unit := do
  let v ← get
  let len := v.length
  if len < 2 then pure ()
  else if scratch.length < len+16 then exit .abort
  else withScratch scratch do
    let lenDiv2 := len/2
    let presortedLen ← onScratch (presort ti o v)
    onScratch (onSlice 0 lenDiv2
      (insertFrom o (v.take lenDiv2) (lenDiv2-presortedLen) presortedLen))
    onScratch (onSlice lenDiv2 (len-lenDiv2)
      (insertFrom o (v.drop lenDiv2) (len-lenDiv2-presortedLen) presortedLen))
    let src := (← get).2.take len
    onUnwind (onSorted (bidirectionalMerge o src)) fun p => (p.2.take len ++ p.1.drop len, p.2)

theorem Sat.withScratch {L : Prop} {β : Type} {scratch v : List T}
    {m : SortM σ (List T × List T) β} {Q : β → List T → Prop} {E : List T → Prop}
    (h : Sat L m (v, scratch) (fun b p => Q b p.1) fun p => E p.1) :
    Sat L (withScratch scratch m) v Q E := by
  intro st
  have hm := h st
  unfold Sort.withScratch
  rcases hr : m (v, scratch) st with ⟨r, ⟨v', s'⟩, st'⟩
  rw [hr] at hm
  rcases r with (e | _ | _ | _) | b <;> exact hm

theorem Sat.onScratch {L : Prop} {β : Type} {v s : List T} {m : SortM σ (List T) β}
    {Q : β → List T → Prop} {E : List T → Prop} (h : Sat L m s Q E) :
    Sat L (onScratch m) (v, s) (fun b p => ∃ s', p = (v, s') ∧ Q b s')
      fun p => ∃ s', p = (v, s') ∧ E s' :=
  Sat.onPart (h.mono (fun _ s' h => ⟨s', rfl, h⟩) fun s' _ h => ⟨s', rfl, h⟩)

theorem Sat.onSorted {L : Prop} {β : Type} {v s : List T} {m : SortM σ (List T) β}
    {Q : β → List T → Prop} {E : List T → Prop} (h : Sat L m v Q E) :
    Sat L (onSorted m) (v, s) (fun b p => ∃ v', p = (v', s) ∧ Q b v')
      fun p => ∃ v', p = (v', s) ∧ E v' :=
  Sat.onPart (h.mono (fun _ v' h => ⟨v', rfl, h⟩) fun v' _ h => ⟨v', rfl, h⟩)

section Pairs

variable {L : Prop} {f : T → T → Bool} (hf : L → Weak f)
include hf

theorem sortOf_pair {x y : T} {r : Bool} (hr : L → r = f y x) :
    SortOf L f [x, y] [if r then y else x, if r then x else y] := by
  cases r with
  | true =>
    refine ⟨List.Perm.swap x y [], fun hl => ⟨?_, ?_⟩⟩
    · simpa [Sorted] using (hf hl).asymm (hr hl).symm
    · exact Stable.swap (hf hl) (not_equiv_of_lt (hr hl).symm) [] []
  | false =>
    refine ⟨.refl _, fun hl => ⟨?_, Stable.refl _⟩⟩
    simpa [Sorted] using (hr hl).symm

omit hf in
theorem perm_of_count {l l' : List T} (h : ∀ p : T → Bool, l.countP p = l'.countP p) : l.Perm l' := by
  classical
  exact List.perm_iff_count.mpr fun a => h (· == a)

/-- The last three comparisons of `sort4_stable` merge two sorted pairs. -/
theorem sortOf_two_pairs {a b c d : T} {c3 c4 c5 : Bool} (hab : L → f b a = false)
    (hcd : L → f d c = false) (h3 : L → c3 = f c a) (h4 : L → c4 = f d b)
    (h5 : L → c5 = f (if c4 then d else if c3 then b else c) (if c3 then a else if c4 then c else b)) :
    SortOf L f [a, b, c, d]
      [if c3 then c else a,
       if c5 then (if c4 then d else if c3 then b else c) else if c3 then a else if c4 then c else b,
       if c5 then (if c3 then a else if c4 then c else b) else if c4 then d else if c3 then b else c,
       if c4 then b else d] := by
  have hsorted {w x y z : T} (hl : L) (h1 : f x w = false) (h2 : f y x = false)
      (h3 : f z y = false) : Sorted f [w, x, y, z] := by
    have h13 := (hf hl).le_trans h1 h2
    have h24 := (hf hl).le_trans h2 h3
    simp [Sorted, h1, h2, h3, h13, h24, (hf hl).le_trans h13 h3]
  refine ⟨perm_of_count fun p => ?_, fun hl => ?_⟩
  · cases c3 <;> cases c4 <;> cases c5 <;> simp [List.countP_cons] <;> lia
  have hw := hf hl
  have hswap {x y : T} (h : f y x = true) (l r : List T) :
      Stable f (l ++ x :: y :: r) (l ++ y :: x :: r) := Stable.swap hw (not_equiv_of_lt h) l r
  have hab := hab hl
  have hcd := hcd hl
  have h3 := (h3 hl).symm
  have h4 := (h4 hl).symm
  have h5 := (h5 hl).symm
  cases c3 with
  | false =>
    cases c4 with
    | false =>
      cases c5 with
      | false => exact ⟨hsorted hl hab h5 hcd, Stable.refl _⟩
      | true => exact ⟨hsorted hl h3 (hw.asymm h5) h4, hswap h5 [a] [d]⟩
    | true =>
      -- `d` is less than `b`, so `c` is too and the last comparison is decided
      have hcb : f c b = true := hw.lt_of_le_of_lt hcd h4
      cases c5 with
      | false => exact ⟨hsorted hl h3 hcd (hw.asymm h4), (hswap hcb [a] [d]).trans (hswap h4 [a, c] [])⟩
      | true => simp [hcd] at h5
  | true =>
    have hcb : f c b = true := hw.lt_of_lt_of_le h3 hab
    cases c4 with
    | false =>
      cases c5 with
      | false => exact ⟨hsorted hl (hw.asymm h3) hab h4, (hswap hcb [a] [d]).trans (hswap h3 [] [b, d])⟩
      | true => simp [hab] at h5
    | true =>
      have hmove : Stable f [a, b, c, d] [c, a, d, b] :=
        ((hswap hcb [a] [d]).trans (hswap h3 [] [b, d])).trans (hswap h4 [c, a] [])
      cases c5 with
      | false => exact ⟨hsorted hl (hw.asymm h3) h5 (hw.asymm h4), hmove⟩
      | true => exact ⟨hsorted hl hcd (hw.asymm h5) hab, hmove.trans (hswap h5 [c] [b])⟩

end Pairs

theorem exists_split (s : List T) {n : ℕ} (h : n ≤ s.length) :
    ∃ a b, s = a ++ b ∧ a.length = n :=
  ⟨s.take n, s.drop n, (List.take_append_drop n s).symm, List.length_take_of_le h⟩

/-- The scratch space after the start of both halves has been sorted. -/
def Presorted (L : Prop) (f : T → T → Bool) (v s : List T) (k : ℕ) (m : List T) : Prop :=
  ∃ P X Q Y, m = P ++ X ++ (Q ++ Y) ∧ m.length = s.length ∧ 0 < k ∧ k ≤ v.length/2 ∧
    (P ++ X).length = v.length/2 ∧ SortOf L f (v.take k) P ∧
    SortOf L f ((v.drop (v.length/2)).take k) Q

theorem sortOf_short {L : Prop} {f : T → T → Bool} {v : List T} (h : v.length < 2) :
    SortOf L f v v := by
  refine ⟨.refl v, fun _ => ⟨?_, Stable.refl v⟩⟩
  match v, h with
  | [], _ => exact .nil
  | [x], _ => exact List.pairwise_singleton _ _

section SmallSort

variable {L : Prop} {o : Oracle σ T} {f : T → T → Bool} (hL : L → Answers o f) (hf : L → Weak f)
include hL hf

theorem sort4Stable_sat {v p w r : List T} (base : ℕ) (hv : base+4 ≤ v.length)
    (hw : w.length = 4) :
    Sat L (sort4Stable o v base p.length) (p ++ w ++ r)
      (fun _ m => ∃ out, m = p ++ out ++ r ∧ SortOf L f ((v.drop base).take 4) out)
      fun m => m.length = (p ++ w ++ r).length := by
  obtain ⟨v0, v1, v2, v3, hsrc⟩ : ∃ v0 v1 v2 v3, (v.drop base).take 4 = [v0, v1, v2, v3] := by
    have hlen : ((v.drop base).take 4).length = 4 := by
      rw [List.length_take, List.length_drop]
      lia
    match h : (v.drop base).take 4, hlen with
    | [a, b, c, d], _ => exact ⟨a, b, c, d, rfl⟩
  obtain ⟨w0, w1, w2, w3, rfl⟩ : ∃ w0 w1 w2 w3, w = [w0, w1, w2, w3] := by
    match w, hw with
    | [a, b, c, d], _ => exact ⟨a, b, c, d, rfl⟩
  have hget (i : ℕ) (hi : i < 4) : v[base+i]? = [v0, v1, v2, v3][i]? := by
    rw [← hsrc, List.getElem?_take, if_pos hi, List.getElem?_drop]
  rw [hsrc]
  refine .bind (sat_at (hget 0 (by lia)) (.bind (sat_at (hget 1 (by lia)) ?_)))
  refine .bind (sat_at (hget 2 (by lia)) (.bind (sat_at (hget 3 (by lia)) ?_)))
  refine .bind (sat_less hL rfl fun c1 h1 => .bind (sat_less hL rfl fun c2 h2 => ?_))
  refine .bind (sat_less hL rfl fun c3 h3 => .bind (sat_less hL rfl fun c4 h4 => ?_))
  refine .bind (sat_less hL rfl fun c5 h5 => ?_)
  have hp := sortOf_pair hf h1
  have hq := sortOf_pair hf h2
  have hpairs := sortOf_two_pairs hf (fun hl => sorted_pair.mp (hp.2 hl).1)
    (fun hl => sorted_pair.mp (hq.2 hl).1) h3 h4 h5
  have hres := hpairs.of_stable (hp.1.append hq.1) fun hl => (hp.2 hl).2.append (hq.2 hl).2
  refine .bind (sat_write (by simp) (.bind (sat_write (by simp) (.bind (sat_write (by simp) ?_)))))
  exact sat_write (by simp) ⟨_, by simp, hres⟩

theorem sort8Stable_sat {v p w q u r : List T} (base : ℕ) (hv : base+8 ≤ v.length)
    (hw : w.length = 8) (hu : u.length = 8) :
    Sat L (sort8Stable o v base p.length (p ++ w ++ q).length) (p ++ w ++ q ++ u ++ r)
      (fun _ m => ∃ out u', m = p ++ out ++ q ++ u' ++ r ∧ u'.length = 8 ∧
        SortOf L f ((v.drop base).take 8) out)
      fun m => m.length = (p ++ w ++ q ++ u ++ r).length := by
  have hlen {b : ℕ} (hb : b+4 ≤ v.length) : ((v.drop b).take 4).length = 4 := by
    rw [List.length_take, List.length_drop]
    lia
  obtain ⟨u1, u2, rfl, hu1, hu2⟩ : ∃ u1 u2, u = u1 ++ u2 ∧ u1.length = 4 ∧ u2.length = 4 :=
    ⟨u.take 4, u.drop 4, (List.take_append_drop 4 u).symm, by simp [hu], by simp [hu]⟩
  rw [← List.append_assoc, List.append_assoc _ u2 r]
  refine (sort4Stable_sat hL hf base (by lia) hu1).call ?_ fun m _ h => h
  rintro ⟨⟩ m ⟨a, rfl, ha⟩
  have hal : a.length = 4 := ha.length.trans (hlen (by lia))
  have hpos : (p ++ w ++ q).length+4 = (p ++ w ++ q ++ a).length := by
    rw [← hal, ← List.length_append]
  rw [hpos, ← List.append_assoc (p ++ w ++ q ++ a)]
  refine (sort4Stable_sat hL hf (base+4) (by lia) hu2).call ?_ ?_
  · rintro ⟨⟩ m ⟨b, rfl, hb⟩
    have hbl : b.length = 4 := hb.length.trans (hlen (by lia))
    refine .bind (sat_get ?_)
    have hsrc : ((p ++ w ++ q ++ a ++ b ++ r).drop (p ++ w ++ q).length).take 8 = a ++ b := by
      rw [List.append_assoc (p ++ w ++ q), List.append_assoc (p ++ w ++ q), List.drop_left,
        show 8 = (a ++ b).length by simp [hal, hbl], List.take_left]
    rw [hsrc]
    have hab : (a ++ b).length = 8 := by simp [hal, hbl]
    have hcat : ((v.drop base).take 4 ++ (v.drop (base+4)).take 4) = (v.drop base).take 8 := by
      rw [← List.drop_drop, ← List.take_add]
    refine (Sat.onSlice (p := p) (w := w) (r := q ++ a ++ b ++ r) (by simp) rfl hw
      (bidirectionalMerge_sat hL hf (by lia) (by lia) fun hl => ?_)).mono ?_ ?_
    · rw [hab, show 8/2 = a.length by lia, List.take_left, List.drop_left]
      exact ⟨(ha.2 hl).1, (hb.2 hl).1⟩
    · rintro ⟨⟩ m ⟨_, rfl, out, rfl, hout⟩
      rw [List.drop_eq_nil_of_le (by lia), List.append_nil]
      refine ⟨out, a ++ b, by simp, hab, ?_⟩
      rw [← hcat]
      exact hout.of_stable (ha.1.append hb.1) fun hl => (ha.2 hl).2.append (hb.2 hl).2
    · rintro m - ⟨_, rfl, out, rfl, hout⟩
      simp [hout, hw, hal, hbl, hu1, hu2]
  · intro m _ h
    rw [h]
    simp [hal, hu1]

theorem presort_sat (ti : TypeInfo T) {v s : List T} (hv : 2 ≤ v.length)
    (hs : v.length+16 ≤ s.length) :
    Sat L (presort ti o v) s (Presorted L f v s) fun m => m.length = s.length := by
  unfold presort
  by_cases h8 : ti.sizeOf ≤ 16 ∧ v.length ≥ 16
  · rw [if_pos h8]
    obtain ⟨A, s1, rfl, hA⟩ := exists_split s (n := 8) (by lia)
    rw [List.length_append, hA] at hs
    obtain ⟨B, s2, rfl, hB⟩ := exists_split s1 (n := v.length/2-8) (by lia)
    rw [List.length_append, hB] at hs
    obtain ⟨C, s3, rfl, hC⟩ := exists_split s2 (n := 8) (by lia)
    rw [List.length_append, hC] at hs
    obtain ⟨D, s4, rfl, hD⟩ := exists_split s3 (n := v.length-(v.length/2+8)) (by lia)
    rw [List.length_append, hD] at hs
    obtain ⟨E, s5, rfl, hE⟩ := exists_split s4 (n := 8) (by lia)
    rw [List.length_append, hE] at hs
    obtain ⟨F, G, rfl, hF⟩ := exists_split s5 (n := 8) (by lia)
    have h1 := sort8Stable_sat hL hf (v := v) (p := []) (w := A) (q := B ++ C ++ D) (u := E)
      (r := F ++ G) 0 (by lia) hA hE
    rw [show (([] : List T) ++ A ++ (B ++ C ++ D)).length = v.length by simp [hA, hB, hC, hD]; lia,
      List.length_nil] at h1
    rw [show A ++ (B ++ (C ++ (D ++ (E ++ (F ++ G))))) = [] ++ A ++ (B ++ C ++ D) ++ E ++ (F ++ G)
      by simp]
    refine h1.call ?_ fun m _ h => h
    rintro ⟨⟩ m ⟨P, E', rfl, hE', hP⟩
    have hPl : P.length = 8 := hP.length.trans (by simp; lia)
    have h2 := sort8Stable_sat hL hf (v := v) (p := P ++ B) (w := C) (q := D ++ E') (u := F)
      (r := G) (v.length/2) (by lia) hC hF
    rw [show (P ++ B ++ C ++ (D ++ E')).length = v.length+8 by simp [hPl, hB, hC, hD, hE']; lia,
      show (P ++ B).length = v.length/2 by simp [hPl, hB]; lia] at h2
    rw [show [] ++ P ++ (B ++ C ++ D) ++ E' ++ (F ++ G) = P ++ B ++ C ++ (D ++ E') ++ F ++ G by simp]
    refine h2.call ?_ ?_
    · rintro ⟨⟩ m ⟨Q, F', rfl, hF', hQ⟩
      have hQl : Q.length = 8 := hQ.length.trans (by simp; lia)
      exact sat_pure ⟨P, B, Q, D ++ E' ++ F' ++ G, by simp, by
        simp [hPl, hQl, hA, hC, hE, hE', hF, hF'], by lia, by lia, by simp [hPl, hB]; lia,
        by simpa using hP, hQ⟩
    · intro m _ h
      rw [h]
      simp [hPl, hA, hE, hE']
  rw [if_neg h8]
  by_cases h4 : v.length ≥ 8
  · rw [if_pos h4]
    obtain ⟨A, s1, rfl, hA⟩ := exists_split s (n := 4) (by lia)
    rw [List.length_append, hA] at hs
    obtain ⟨B, s2, rfl, hB⟩ := exists_split s1 (n := v.length/2-4) (by lia)
    rw [List.length_append, hB] at hs
    obtain ⟨C, D, rfl, hC⟩ := exists_split s2 (n := 4) (by lia)
    have h1 := sort4Stable_sat hL hf (v := v) (p := []) (w := A) (r := B ++ (C ++ D)) 0
      (by lia) hA
    refine h1.call ?_ fun m _ h => h
    rintro ⟨⟩ m ⟨P, rfl, hP⟩
    have hPl : P.length = 4 := hP.length.trans (by simp; lia)
    have h2 := sort4Stable_sat hL hf (v := v) (p := P ++ B) (w := C) (r := D)
      (v.length/2) (by lia) hC
    rw [show (P ++ B).length = v.length/2 by simp [hPl, hB]; lia] at h2
    rw [show [] ++ P ++ (B ++ (C ++ D)) = P ++ B ++ C ++ D by simp]
    refine h2.call ?_ ?_
    · rintro ⟨⟩ m ⟨Q, rfl, hQ⟩
      have hQl : Q.length = 4 := hQ.length.trans (by simp; lia)
      exact sat_pure ⟨P, B, Q, D, by simp, by simp [hPl, hQl, hA, hC], by lia, by lia,
        by simp [hPl, hB]; lia, by simpa using hP, hQ⟩
    · intro m _ h
      rw [h]
      simp [hPl, hA]
  · rw [if_neg h4]
    obtain ⟨A, s1, rfl, hA⟩ := exists_split s (n := v.length/2) (by lia)
    rw [List.length_append, hA] at hs
    obtain ⟨a, A, rfl⟩ := List.exists_cons_of_length_pos (show 0 < A.length by lia)
    obtain ⟨c, C, rfl⟩ := List.exists_cons_of_length_pos (show 0 < s1.length by lia)
    obtain ⟨x, hx⟩ : ∃ x, v[0]? = some x := ⟨_, List.getElem?_eq_getElem (by lia)⟩
    obtain ⟨y, hy⟩ : ∃ y, v[v.length/2]? = some y := ⟨_, List.getElem?_eq_getElem (by lia)⟩
    refine .bind (sat_at hx (.bind (sat_write (by simp) ?_)))
    refine .bind (sat_at hy (.bind (sat_write (i := v.length/2) ?_ (sat_pure ?_))))
    · rw [List.length_set, List.length_append, hA, List.length_cons]
      lia
    refine ⟨[x], A, [y], C, ?_, by simp, by lia, by lia, by simpa using hA, ?_, ?_⟩
    · simp [← hA]
    · rw [show v.take 1 = [x] by rw [List.take_one, List.head?_eq_getElem?, hx]; rfl]
      exact sortOf_short (by simp)
    · rw [show (v.drop (v.length/2)).take 1 = [y] by
        rw [List.take_one, List.head?_drop, hy]; rfl]
      exact sortOf_short (by simp)

theorem insertFrom_sat (src : List T) {P : List T} (n : ℕ) {X : List T} (hP : P ≠ [])
    (hn : P.length+n = src.length) (hX : X.length = n)
    (hs : SortOf L f (src.take P.length) P) :
    Sat L (insertFrom o src n P.length) (P ++ X) (fun _ m => SortOf L f src m)
      fun m => m.length = (P ++ X).length := by
  induction n generalizing P X with
  | zero =>
    obtain rfl := List.length_eq_zero_iff.mp hX
    rw [List.append_nil]
    rw [List.take_of_length_le (by lia)] at hs
    exact sat_pure hs
  | succ n ih =>
    obtain ⟨x, X, rfl⟩ := List.exists_cons_of_length_pos (show 0 < X.length by lia)
    obtain ⟨y, hy⟩ : ∃ y, src[P.length]? = some y := ⟨_, List.getElem?_eq_getElem (by lia)⟩
    refine .bind (sat_at hy (.bind (sat_write (by simp) ?_)))
    rw [show (P ++ x :: X).set P.length y = P ++ y :: X by simp]
    refine (insertTail_sat hL hP).call ?_ ?_
    · rintro ⟨⟩ m ⟨u, rfl, hu⟩
      have hlen : u.length = P.length+1 := by simpa using hu.perm.length_eq
      rw [← hlen]
      refine (ih (P := u) (X := X) (by rintro rfl; simp at hlen) (by lia)
        (by simpa using hX) ?_).mono (fun _ _ h => h) fun m _ h => ?_
      · rw [hlen, List.take_add_one, hy]
        exact hu.sortOf hf hs
      · rw [h]
        simp [hlen]
        lia
    · rintro m - ⟨u, rfl, hu⟩
      simp [hu.length_eq]
      lia

/-- The slice is untouched until the last merge, which starts from a complete
copy in the scratch space. -/
theorem smallSortGeneralWithScratch_sat (ti : TypeInfo T) {v scratch : List T}
    (hs : v.length+16 ≤ scratch.length) :
    Sat L (smallSortGeneralWithScratch ti o scratch) v (fun _ v' => SortOf L f v v')
      fun v' => v'.Perm v := by
  refine .bind (sat_get ?_)
  by_cases h2 : v.length < 2
  · rw [if_pos h2]
    exact sat_pure (sortOf_short h2)
  rw [if_neg h2, if_neg (by lia)]
  apply Sat.withScratch
  have hhalf : (v.take (v.length/2)).length = v.length/2 := List.length_take_of_le (by lia)
  have hhalf' : (v.drop (v.length/2)).length = v.length-v.length/2 := List.length_drop
  have hE {F : List T → Prop} (p : List T × List T) (_ : ¬ L) (h : ∃ s', p = (v, s') ∧ F s') :
      p.1.Perm v := by
    obtain ⟨s', rfl, -⟩ := h
    exact .refl v
  refine (Sat.onScratch (presort_sat hL hf ti (by lia) hs)).call ?_ hE
  rintro k _ ⟨m, rfl, P, X, Q, Y, rfl, hlen, hk0, hk, hPX, hP, hQ⟩
  have hPl : P.length = k := hP.length.trans (by rw [List.length_take]; lia)
  have hQl : Q.length = k := hQ.length.trans (by rw [List.length_take]; lia)
  simp only [List.length_append] at hlen hPX
  -- the left half
  have hleft := insertFrom_sat hL hf (v.take (v.length/2)) (P := P) (X := X)
    (v.length/2-k) (by rintro rfl; simp at hPl; lia) (by lia) (by lia)
    (by rwa [List.take_take, Nat.min_eq_left (by lia), hPl])
  rw [hPl] at hleft
  refine (Sat.onScratch (Sat.onSlice (p := []) (w := P ++ X) (r := Q ++ Y) (by simp) rfl
    (by rw [List.length_append]; lia) hleft)).call ?_ hE
  rintro ⟨⟩ _ ⟨m, rfl, A, rfl, hA⟩
  have hAl : A.length = v.length/2 := hA.length.trans hhalf
  -- the right half
  obtain ⟨Z, W, rfl, hZ⟩ := exists_split Y (n := v.length-v.length/2-k) (by lia)
  have hright := insertFrom_sat hL hf (v.drop (v.length/2)) (P := Q) (X := Z)
    (v.length-v.length/2-k) (by rintro rfl; simp at hQl; lia) (by lia) hZ
    (by rwa [hQl])
  rw [hQl] at hright
  refine (Sat.onScratch (Sat.onSlice (p := A) (w := Q ++ Z) (r := W) (by simp) hAl
    (by rw [List.length_append]; lia) hright)).call ?_ hE
  rintro ⟨⟩ _ ⟨m, rfl, B, rfl, hB⟩
  have hBl : B.length = v.length-v.length/2 := hB.length.trans hhalf'
  have hAB : (A ++ B).length = v.length := by rw [List.length_append]; lia
  refine .bind (sat_get (.onUnwind ?_))
  have hsrc : (A ++ B ++ W).take v.length = A ++ B := by rw [← hAB, List.take_left]
  simp only [hsrc]
  have hperm : (A ++ B).Perm v := by
    have := hA.1.append hB.1
    rwa [List.take_append_drop] at this
  refine (Sat.onSorted (bidirectionalMerge_sat hL hf (v := v) (by lia) hAB.le ?_)).mono ?_ ?_
  · rw [hAB, show v.length/2 = A.length by lia, List.take_left, List.drop_left]
    exact fun hl => ⟨(hA.2 hl).1, (hB.2 hl).1⟩
  · rintro ⟨⟩ _ ⟨_, rfl, out, rfl, hout⟩
    simp only [hAB, List.drop_length, List.append_nil]
    refine hout.of_stable hperm fun hl => ?_
    have := (hA.2 hl).2.append (hB.2 hl).2
    rwa [List.take_append_drop] at this
  · rintro _ - ⟨v', rfl, out, rfl, hout⟩
    simp only [hsrc, hAB, List.drop_length, List.append_nil]
    rw [List.drop_eq_nil_of_le (by lia), List.append_nil]
    exact hperm

end SmallSort

end RustStd.Sort
