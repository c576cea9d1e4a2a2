import RustStd.Lib.Unwind
import RustStd.Lib.WeakOrder

/-!
# Comparison callbacks and `insertion_sort_shift_left`

The comparison is a callback with a state of its own that may unwind at any
call. Sorting functions are specified for every callback at once: whatever it
does, the slice stays a permutation, and if it answers by a strict weak order
the result is sorted. An element that is shifted through a sorted part lives in
a temporary, and a drop guard puts it into the gap.
-/

set_option autoImplicit false

namespace RustStd.Sort
open RustStd.Unwind RustStd.WeakOrder

variable {σ S T β : Type}

/-- Why a sort unwinds: the callback did, or the message "user-provided comparison
function does not correctly implement a total order". -/
inductive SortPanic
  | isLess
  | ordViolation
  deriving DecidableEq, Repr

abbrev SortM (σ S β : Type) : Type := M SortPanic σ S β

/-- `is_less`, which returns `none` when it unwinds. -/
abbrev Oracle (σ T : Type) : Type := σ → T → T → Option Bool × σ

def less (o : Oracle σ T) (a b : T) : SortM σ S Bool := fun s st =>
  match o st a b with
  | (some r, st) => (.ok r, s, st)
  | (none, st) => (.error (.unwind .isLess), s, st)

def notGreater (o : Oracle σ T) : Oracle σ T := fun st a b =>
  match o st b a with
  | (r, st) => (r.map not, st)

def Answers (o : Oracle σ T) (f : T → T → Bool) : Prop := ∀ st a b, (o st a b).1 = some (f a b)

theorem Answers.notGreater {o : Oracle σ T} {f : T → T → Bool} (h : Answers o f) :
    Answers (notGreater o) fun a b => !f b a := by
  intro st a b
  simp [Sort.notGreater, h st b a]

section Less

variable {L : Prop} {o : Oracle σ T} {f : T → T → Bool} (hL : L → Answers o f)
include hL

theorem sat_less {a b : T} {s : S} {Q : Bool → S → Prop} {E : S → Prop} (hE : E s)
    (h : ∀ r, (L → r = f a b) → Q r s) : Sat L (less o a b) s Q E := by
  intro st
  unfold less
  rcases hr : o st a b with ⟨_ | r, st'⟩
  · refine ⟨fun hl => ?_, hE⟩
    have := hL hl st a b
    rw [hr] at this
    simp at this
  · refine h r fun hl => ?_
    have := hL hl st a b
    rw [hr] at this
    simpa using this

end Less

/-- The loop of `insert_tail`. The gap is right behind `sift`. -/
def insertTailLoop (o : Oracle σ T) (tmp : T) : ℕ → SortM σ (List T) Unit
  | 0 => do
    write 1 (← read 0)
    write 0 tmp
  | sift+1 => do
    write (sift+2) (← read (sift+1))
    let x ← read sift
    if ← onUnwind (less o tmp x) fun v => v.set (sift+1) tmp then insertTailLoop o tmp sift
    else write (sift+1) tmp

def insertTail (o : Oracle σ T) : ℕ → SortM σ (List T) Unit
  | 0 => exit .outOfBounds
  | sift+1 => do
    let tmp ← read (sift+1)
    let x ← read sift
    if ← less o tmp x then insertTailLoop o tmp sift

def insertTails (o : Oracle σ T) : ℕ → ℕ → SortM σ (List T) Unit
  | 0, _ => pure ()
  | n+1, tail => do
    insertTail o tail
    insertTails o n (tail+1)

def insertionSortShiftLeft (o : Oracle σ T) (offset : ℕ) : SortM σ (List T) Unit := do
  let len := (← get).length
  if offset = 0 ∨ offset > len then exit .abort
  else insertTails o (len-offset) offset

/-- `x` has moved from behind `pre` to the left, and for a lawful callback to
the place where it belongs. -/
def Inserted (L : Prop) (f : T → T → Bool) (pre : List T) (x : T) (v : List T) : Prop :=
  ∃ a b, pre = a ++ b ∧ v = a ++ x :: b ∧
    (L → (∀ y ∈ b, f x y = true) ∧ ∀ y, a.getLast? = some y → f x y = false)

theorem perm_shift (a b : List T) (x : T) : (a ++ x :: b).Perm (a ++ b ++ [x]) :=
  List.perm_middle.trans (List.perm_append_singleton x (a ++ b)).symm

theorem Inserted.perm {L : Prop} {f : T → T → Bool} {pre v : List T} {x : T}
    (h : Inserted L f pre x v) : v.Perm (pre ++ [x]) := by
  obtain ⟨a, b, rfl, rfl, -⟩ := h
  exact perm_shift a b x

theorem Inserted.stable {L : Prop} {f : T → T → Bool} (hf : Weak f) {pre v : List T} {x : T}
    (h : Inserted L f pre x v) (hL : L) : Stable f (pre ++ [x]) v := by
  obtain ⟨a, b, rfl, rfl, hlaw⟩ := h
  rw [List.append_assoc]
  exact (Stable.refl a).append (Stable.move hf fun y hy => not_equiv_of_lt ((hlaw hL).1 y hy))

theorem Inserted.sorted {L : Prop} {f : T → T → Bool} (hf : Weak f) {pre v : List T} {x : T}
    (h : Inserted L f pre x v) (hL : L) (hs : Sorted f pre) : Sorted f v := by
  obtain ⟨a, b, rfl, rfl, hlaw⟩ := h
  obtain ⟨hb, ha⟩ := hlaw hL
  obtain ⟨hsa, hsb, hab⟩ := sorted_append.mp hs
  have hax : ∀ y ∈ a, f x y = false := by
    rcases List.eq_nil_or_concat a with rfl | ⟨a', z, rfl⟩
    · simp
    have hz := ha z (by simp)
    intro y hy
    rw [List.concat_eq_append] at hy hsa
    rcases List.mem_append.mp hy with hy | hy
    · exact hf.le_trans ((sorted_append.mp hsa).2.2 y hy z (by simp)) hz
    · obtain rfl : y = z := by simpa using hy
      exact hz
  refine sorted_append.mpr ⟨hsa, sorted_cons.mpr ⟨fun y hy => hf.asymm (hb y hy), hsb⟩, ?_⟩
  intro y hy z hz
  rcases List.mem_cons.mp hz with rfl | hz
  · exact hax y hy
  · exact hab y hy z hz

theorem Inserted.sortOf {L : Prop} {f : T → T → Bool} (hf : L → Weak f) {src pre v : List T} {x : T}
    (h : Inserted L f pre x v) (hs : SortOf L f src pre) : SortOf L f (src ++ [x]) v := by
  refine ⟨h.perm.trans (hs.1.append_right [x]), fun hl => ?_⟩
  obtain ⟨hsort, hstab⟩ := hs.2 hl
  exact ⟨h.sorted (hf hl) hl hsort,
    (hstab.append (Stable.refl [x])).trans (h.stable (hf hl) hl)⟩

section InsertTail

variable {L : Prop} {o : Oracle σ T} {f : T → T → Bool} (hL : L → Answers o f)
include hL

theorem insertTailLoop_sat {a b r : List T} {x y w : T} (hxy : L → f x y = true)
    (hb : L → ∀ z ∈ b, f x z = true) :
    Sat L (insertTailLoop o x a.length) (a ++ y :: w :: b ++ r)
      (fun _ v => ∃ u, v = u ++ r ∧ Inserted L f (a ++ y :: b) x u)
      fun v => ∃ u, v = u ++ r ∧ u.Perm (a ++ y :: b ++ [x]) := by
  have hyb : L → ∀ z ∈ y :: b, f x z = true := by
    intro hl z hz
    rcases List.mem_cons.mp hz with rfl | hz
    · exact hxy hl
    · exact hb hl z hz
  induction a using List.reverseRecOn generalizing b y w with
  | nil =>
    refine .bind (sat_read (x := y) rfl (.bind (sat_write (by simp) (sat_write (by simp) ?_))))
    exact ⟨x :: y :: b, by simp, [], y :: b, rfl, rfl, fun hl => ⟨hyb hl, by simp⟩⟩
  | append_singleton a z ih =>
    rw [List.length_append, List.length_singleton]
    refine .bind (sat_read (x := y) (by simp) (.bind (sat_write (by simp) ?_)))
    refine .bind (sat_read (x := z) (by simp) (.bind (.onUnwind ?_)))
    rw [show (a ++ [z] ++ y :: w :: b ++ r).set (a.length+2) y = a ++ z :: y :: (y :: b) ++ r
      by simp]
    refine sat_less hL ⟨a ++ [z] ++ x :: (y :: b), by simp, perm_shift _ _ x⟩ fun c hc => ?_
    rw [show a ++ [z] ++ y :: b = a ++ z :: (y :: b) by simp]
    cases c with
    | true => exact ih (fun hl => (hc hl).symm) hyb (fun hl w hw => by
        rcases List.mem_cons.mp hw with rfl | hw
        · exact (hc hl).symm
        · exact hyb hl w hw)
    | false =>
      refine sat_write (by simp) ⟨a ++ [z] ++ x :: (y :: b), by simp, a ++ [z], y :: b, by simp, rfl,
        fun hl => ⟨hyb hl, ?_⟩⟩
      simpa using (hc hl).symm

theorem insertTail_sat {pre r : List T} {x : T} (hpre : pre ≠ []) :
    Sat L (insertTail o pre.length) (pre ++ x :: r)
      (fun _ v => ∃ u, v = u ++ r ∧ Inserted L f pre x u)
      fun v => ∃ u, v = u ++ r ∧ u.Perm (pre ++ [x]) := by
  obtain ⟨a, y, rfl⟩ := (List.eq_nil_or_concat pre).resolve_left hpre
  rw [List.concat_eq_append, List.length_append, List.length_singleton]
  refine .bind (sat_read (x := x) (by simp) (.bind (sat_read (x := y) (by simp) (.bind ?_))))
  refine sat_less hL ⟨a ++ [y] ++ [x], by simp, .refl _⟩ fun c hc => ?_
  cases c with
  | true =>
    have := insertTailLoop_sat hL (a := a) (b := []) (r := r) (x := x) (y := y) (w := x)
      (fun hl => (hc hl).symm) (by simp)
    simpa using this
  | false =>
    refine sat_pure ⟨a ++ [y] ++ [x], by simp, a ++ [y], [], by simp, by simp,
      fun hl => ⟨by simp, ?_⟩⟩
    simpa using (hc hl).symm

theorem insertTails_sat (hf : L → Weak f) {src pre : List T} (post : List T) (hpre : pre ≠ [])
    (hs : SortOf L f src pre) :
    Sat L (insertTails o post.length pre.length) (pre ++ post)
      (fun _ v => SortOf L f (src ++ post) v) fun v => v.Perm (src ++ post) := by
  induction post generalizing src pre with
  | nil =>
    rw [List.append_nil, List.append_nil]
    exact sat_pure hs
  | cons x post ih =>
    have hcons : src ++ x :: post = src ++ [x] ++ post := by simp
    refine (insertTail_sat hL hpre).call ?_ ?_
    · rintro ⟨⟩ v ⟨u, rfl, hu⟩
      have hlen : u.length = pre.length+1 := by simpa using hu.perm.length_eq
      rw [← hlen, hcons]
      exact ih (by intro h; simp [h] at hlen) (hu.sortOf hf hs)
    · rintro v _ ⟨u, rfl, hu⟩
      rw [hcons]
      exact (hu.trans (hs.1.append_right [x])).append_right post

theorem insertionSortShiftLeft_sat (hf : L → Weak f) {v : List T} {offset : ℕ} (h0 : 0 < offset)
    (hle : offset ≤ v.length) (hs : L → Sorted f (v.take offset)) :
    Sat L (insertionSortShiftLeft o offset) v (fun _ v' => SortOf L f v v')
      fun v' => v'.Perm v := by
  refine .bind (sat_get ?_)
  rw [if_neg (by omega)]
  have hlen : (v.take offset).length = offset := List.length_take_of_le hle
  have hne : v.take offset ≠ [] := by
    intro h
    rw [h, List.length_nil] at hlen
    omega
  have := insertTails_sat hL hf (v.drop offset) hne
    ⟨.refl _, fun hl => ⟨hs hl, Stable.refl _⟩⟩
  rwa [List.take_append_drop, List.length_drop, hlen] at this

end InsertTail

end RustStd.Sort
