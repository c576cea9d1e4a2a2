import RustStd.Iter.StepBy

/-!
# `StepBy` takes every `step`-th element

The remaining elements are the inner ones from position `k` on in steps, where `k` is zero before
the first element was taken and `step-1` afterwards. Positions are all that matters for `nth`, so
its overflow loop is treated for sequences that may be infinite.
-/

set_option autoImplicit false

namespace RustStd.Stepping
open RustStd.Loop RustStd.Machine RustStd.ListIter RustStd.Usize

variable {σ α : Type}

/-! ## Every `step`-th element -/

section Every

variable {step k : ℕ} {l : List α}

theorem getElem?_everyFrom (hstep : 0 < step) (k : ℕ) (l : List α) (i : ℕ) :
    (everyFrom step k l)[i]? = l[k+i*step]? := by
  induction l generalizing k i with
  | nil => simp [everyFrom]
  | cons x l ih =>
    cases k with
    | zero =>
      cases i with
      | zero => simp [everyFrom]
      | succ i =>
        have hi : 0+(i+1)*step = (step-1+i*step)+1 := by
          rw [Nat.add_mul]
          lia
        rw [everyFrom, List.getElem?_cons_succ, ih, hi, List.getElem?_cons_succ]
    | succ k =>
      have hi : k+1+i*step = (k+i*step)+1 := by lia
      rw [everyFrom, ih, hi, List.getElem?_cons_succ]

theorem lt_length_everyFrom (hstep : 0 < step) (k : ℕ) (l : List α) (i : ℕ) :
    i < (everyFrom step k l).length ↔ k+i*step < l.length := by
  rw [← not_iff_not, not_lt, not_lt, ← List.getElem?_eq_none_iff, getElem?_everyFrom hstep,
    List.getElem?_eq_none_iff]

theorem drop_everyFrom (hstep : 0 < step) (k n : ℕ) (l : List α) :
    (everyFrom step k l).drop (n+1) = everyFrom step (step-1) (l.drop (k+n*step+1)) := by
  ext1 i
  have hi : k+(n+1+i)*step = k+n*step+1+(step-1+i*step) := by
    rw [Nat.add_mul, Nat.add_mul]
    lia
  rw [List.getElem?_drop, getElem?_everyFrom hstep, getElem?_everyFrom hstep, List.getElem?_drop,
    hi]

theorem take_everyFrom (hstep : 0 < step) (k m c : ℕ) (l : List α)
    (h : ∀ i, i < m ↔ k+i*step < c) :
    (everyFrom step k l).take m = everyFrom step k (l.take c) := by
  ext1 i
  rw [List.getElem?_take, getElem?_everyFrom hstep, getElem?_everyFrom hstep, List.getElem?_take]
  simp only [h]

theorem everyFrom_nil (step k : ℕ) : everyFrom step k ([] : List α) = [] := by
  cases k <;> rfl

end Every

/-! ## Skipping through a sequence -/

/-- The number of elements before the next one. -/
def skip (first : Bool) (step : ℕ) : ℕ := if first then 0 else step-1

def shift (f : ℕ → Option α) (c : ℕ) : ℕ → Option α := fun i => f (i+c)

/-- `nth` finds the element of a sequence and skips to the one after it. -/
def SkipsTo (it : Iter σ α) (R : σ → (ℕ → Option α) → Prop) : Prop :=
  ∀ n s f, n < 2^64 → R s f → ∃ s', it.nth n s = some (f n, s') ∧ R s' (shift f (n+1))

section Skips

variable {it : Iter σ α} {R : σ → (ℕ → Option α) → Prop} {f : ℕ → Option α}

theorem shift_shift (f : ℕ → Option α) (c d : ℕ) : shift (shift f c) d = shift f (d+c) := by
  funext i
  rw [shift, shift, shift, Nat.add_assoc]

/-- `c` elements are gone, and `total` of them are to be skipped; factors do not overflow. -/
structure Skipping (R : σ → (ℕ → Option α) → Prop) (f : ℕ → Option α) (total c : ℕ)
    (s : σ × ℕ × ℕ) : Prop where
  rel : R s.1 (shift f c)
  rest : c+s.2.1*s.2.2 = total
  pos : 0 < s.2.1 ∧ 0 < s.2.2
  lt : s.2.1 < 2^64 ∧ s.2.2 < 2^64

theorem Skipping.nth (hit : SkipsTo it R) {total c m : ℕ} {s : σ × ℕ × ℕ}
    (h : Skipping R f total c s) (hm : 0 < m) (hlt : m < 2^64) :
    ∃ s', it.nth (m-1) s.1 = some (f (c+m-1), s') ∧ R s' (shift f (c+m)) := by
  obtain ⟨s', hnth, hs'⟩ := hit (m-1) s.1 (shift f c) (by lia) h.rel
  have hpos : m-1+c = c+m-1 := by lia
  have hnext : m-1+1+c = c+m := by lia
  rw [shift, hpos] at hnth
  rw [shift_shift, hnext] at hs'
  exact ⟨s', hnth, hs'⟩

theorem Skipping.block (hit : SkipsTo it R) {total c n step q : ℕ} {iter : σ}
    (h : Skipping R f total c (iter, n, step)) (hq : 0 < q) (hlt : q*n < 2^64) (hstep : q < step) :
    ∃ s', it.nth (q*n-1) iter = some (f (c+q*n-1), s') ∧
      Skipping R f total (c+q*n) (s', n, step-q) := by
  obtain ⟨s', hnth, hs'⟩ := h.nth hit (Nat.mul_pos hq h.pos.1) hlt
  refine ⟨s', hnth, hs', ?_, ⟨h.pos.1, Nat.sub_pos_of_lt hstep⟩, h.lt.1, ?_⟩
  · have hrest : c+n*step = total := h.rest
    have hle : n*q ≤ n*step := Nat.mul_le_mul_left n hstep.le
    change c+q*n+n*(step-q) = total
    rw [Nat.mul_sub, Nat.mul_comm q n]
    lia
  · exact (Nat.sub_le step q).trans_lt h.lt.2

theorem Skipping.swap {total c n step : ℕ} {iter : σ} (h : Skipping R f total c (iter, n, step)) :
    Skipping R f total c (iter, step, n) :=
  ⟨h.rel, by rw [Nat.mul_comm]; exact h.rest, h.pos.symm, h.lt.symm⟩

theorem quotient_block {n step : ℕ} (hn : 0 < n) (hlt : n < 2^64) (hmul : 2^64 ≤ n*step) :
    0 < usizeMax/n ∧ usizeMax/n*n < 2^64 ∧ usizeMax/n < step := by
  have hle : usizeMax/n*n ≤ usizeMax := Nat.div_mul_le_self usizeMax n
  refine ⟨Nat.div_pos ?_ hn, ?_, ?_⟩
  · rw [usizeMax]
    lia
  · rw [usizeMax] at hle ⊢
    lia
  · rw [Nat.div_lt_iff_lt_mul hn, Nat.mul_comm step n, usizeMax]
    lia

theorem overflowStep_round (hit : SkipsTo it R) {total c : ℕ} {s : σ × ℕ × ℕ}
    (h : Skipping R f total c s) :
    ∃ r, overflowStep it s = some r ∧
      Round (fun s => ∃ c, Skipping R f total c s) (fun s => s.2.1+s.2.2)
        (fun r => r.1 = f (total-1) ∧ R r.2 (shift f total)) s r := by
  rcases s with ⟨iter, n, step⟩
  have hn : 0 < n := h.pos.1
  have hstep : 0 < step := h.pos.2
  have hrest : c+n*step = total := h.rest
  rw [overflowStep]
  by_cases hmul : n*step < 2^64
  · obtain ⟨s', hnth, hs'⟩ := h.nth hit (Nat.mul_pos hn hstep) hmul
    rw [hrest] at hnth hs'
    rw [mul_eq hmul]
    simp only [sub_eq (Nat.mul_pos hn hstep), Option.bind_eq_bind, Option.bind_some, hnth]
    exact ⟨_, rfl, rfl, hs'⟩
  · have hge : 2^64 ≤ n*step := Nat.le_of_not_lt hmul
    obtain ⟨hqn, hqnmul, hqnlt⟩ := quotient_block hn h.lt.1 hge
    rw [Nat.mul_comm] at hge
    obtain ⟨hqs, hqsmul, hqslt⟩ := quotient_block hstep h.lt.2 hge
    have hnone : mul n step = none := if_neg hmul
    rw [hnone]
    simp only [div_eq hn, div_eq hstep, mul_eq hqnmul, mul_eq hqsmul, Option.bind_eq_bind,
      Option.bind_some]
    split
    · obtain ⟨s', hnth, hs'⟩ := h.block hit hqn hqnmul hqnlt
      rw [sub_eq hqnlt.le, sub_eq (Nat.mul_pos hqn hn)]
      simp only [Option.bind_some, hnth]
      exact ⟨_, rfl, ⟨_, hs'⟩, by simp only; lia⟩
    · obtain ⟨s', hnth, hs'⟩ := h.swap.block hit hqs hqsmul hqslt
      rw [sub_eq hqslt.le, sub_eq (Nat.mul_pos hqs hstep)]
      simp only [Option.bind_some, hnth]
      exact ⟨_, rfl, ⟨_, hs'.swap⟩, by simp only; lia⟩

theorem overflowLoop_spec (hit : SkipsTo it R) (self : StepBy σ) {iter : σ} {n step : ℕ}
    (hs : R iter f) (hn : 0 < n) (hnlt : n < 2^64) (hstep : 0 < step) (hlt : step < 2^64) :
    ∃ s', overflowLoop it self iter n step = some (f (n*step-1), { self with iter := s' }) ∧
      R s' (shift f (n*step)) := by
  have hstart : Skipping R f (n*step) 0 (iter, n, step) :=
    ⟨hs, Nat.zero_add _, ⟨hn, hstep⟩, hnlt, hlt⟩
  have hround := fun s (h : ∃ c, Skipping R f (n*step) c s) =>
    h.elim fun _ h => overflowStep_round hit h
  obtain ⟨r, hloop, hx, hr⟩ :=
    loop_total _ _ _ hround (n+step+1) (iter, n, step) ⟨0, hstart⟩ (Nat.lt_succ_self _)
  refine ⟨r.2, ?_, hr⟩
  rw [overflowLoop, hloop, ← hx]
  rfl

theorem nthRest_spec (hit : SkipsTo it R) {self : StepBy σ} {n : ℕ} (hs : R self.iter f)
    (hn : n < 2^64) (hlt : self.stepMinusOne+1 < 2^64) :
    ∃ s', nthRest it self n =
        some (f ((n+1)*(self.stepMinusOne+1)-1), { self with iter := s' }) ∧
      R s' (shift f ((n+1)*(self.stepMinusOne+1))) := by
  have hstep : 0 < self.stepMinusOne+1 := Nat.succ_pos _
  rw [nthRest, StepBy.originalStep, add_eq hlt]
  generalize self.stepMinusOne+1 = step at hlt hstep ⊢
  rw [Option.bind_eq_bind, Option.bind_some]
  split
  · have hpos : 0 < n := by
      rw [‹n = usizeMax›]
      decide
    obtain ⟨s₁, hnth, hs₁⟩ := hit (step-1) self.iter f (by lia) hs
    obtain ⟨s₂, hloop, hs₂⟩ := overflowLoop_spec hit self hs₁ hpos hn hstep hlt
    have hmul := Nat.mul_pos hpos hstep
    have hlast : n*step-1+(step-1+1) = (n+1)*step-1 := by
      rw [Nat.add_mul]
      lia
    have hskip : n*step+(step-1+1) = (n+1)*step := by
      rw [Nat.add_mul]
      lia
    rw [shift, hlast] at hloop
    rw [shift_shift, hskip] at hs₂
    refine ⟨s₂, ?_, hs₂⟩
    rw [sub_eq hstep]
    simp only [Option.bind_eq_bind, Option.bind_some, hnth, hloop]
  · have hlt' : n+1 < 2^64 := by
      rw [usizeMax] at *
      lia
    rw [add_eq hlt']
    exact overflowLoop_spec hit self hs (Nat.succ_pos n) hlt' hstep hlt

/-- `next` is the first element, and `nth` skips. -/
structure Sequence (it : Iter σ α) (R : σ → (ℕ → Option α) → Prop) : Prop where
  next : ∀ s f, R s f → ∃ s', it.next s = some (f 0, s') ∧ R s' (shift f 1)
  nth : SkipsTo it R

theorem specNth_spec (hit : Sequence it R) {self : StepBy σ} {step n : ℕ}
    (hself : self.stepMinusOne = step-1) (hstep : 0 < step) (hlt : step < 2^64)
    (hs : R self.iter f) (hn : n < 2^64) :
    ∃ s', specNth it self n = some (f (skip self.firstTake step+n*step),
        { self with iter := s', firstTake := false }) ∧
      R s' (shift f (skip self.firstTake step+n*step+1)) := by
  have hsucc : self.stepMinusOne+1 = step := by lia
  rw [specNth]
  cases hfirst : self.firstTake with
  | false =>
    obtain ⟨s', hrest, hs'⟩ := nthRest_spec hit.nth hs hn (hsucc.trans_lt hlt)
    have hlast : (n+1)*step-1 = step-1+n*step := by
      rw [Nat.add_mul]
      lia
    have hskip : (n+1)*step = step-1+n*step+1 := by
      rw [Nat.add_mul]
      lia
    rw [hsucc, hlast, hfirst] at hrest
    rw [hsucc, hskip] at hs'
    rw [if_neg Bool.false_ne_true]
    exact ⟨s', hrest, hs'⟩
  | true =>
    obtain ⟨s₁, hnext, hs₁⟩ := hit.next self.iter f hs
    rw [if_pos rfl, hnext, Option.bind_eq_bind, Option.bind_some, skip, if_pos rfl, Nat.zero_add]
    cases n with
    | zero =>
      rw [Nat.zero_mul]
      exact ⟨s₁, rfl, hs₁⟩
    | succ n =>
      have hlt' : ({ self with iter := s₁, firstTake := false } : StepBy σ).stepMinusOne+1 < 2^64 :=
        hsucc.trans_lt hlt
      obtain ⟨s₂, hrest, hs₂⟩ := nthRest_spec hit.nth hs₁ (Nat.lt_of_succ_lt hn) hlt'
      have hpos := Nat.mul_pos (Nat.succ_pos n) hstep
      simp only [hsucc, shift, Nat.sub_add_cancel hpos] at hrest
      simp only [hsucc, shift_shift] at hs₂
      refine ⟨s₂, ?_, hs₂⟩
      change (if n+1 = 0 then _ else _) = _
      rw [if_neg (Nat.succ_ne_zero n), sub_eq (Nat.succ_pos n)]
      exact hrest

end Skips

/-! ## The position of the last element -/

def backIndex (first : Bool) (step len : ℕ) : ℕ :=
  if first then if len%step = 0 then step-1 else len%step-1 else len%step

def stepCount (first : Bool) (step len : ℕ) : ℕ :=
  if first then if len = 0 then 0 else 1+(len-1)/step else len/step

section Count

variable {first : Bool} {step len : ℕ}

theorem lt_stepCount_iff (hstep : 0 < step) (i : ℕ) :
    i < stepCount first step len ↔ skip first step+i*step < len := by
  cases first with
  | false =>
    have hmul : step-1+i*step+1 = (i+1)*step := by
      rw [Nat.add_mul]
      lia
    change i < len/step ↔ step-1+i*step < len
    rw [← Nat.succ_le_iff, Nat.le_div_iff_mul_le hstep, ← hmul, Nat.succ_le_iff]
  | true =>
    change (i < if len = 0 then 0 else 1+(len-1)/step) ↔ 0+i*step < len
    rw [Nat.zero_add]
    split
    · lia
    · rw [Nat.add_comm, Nat.lt_succ_iff, Nat.le_div_iff_mul_le hstep]
      lia

theorem stepCount_true (hstep : 0 < step) : stepCount true step len = ceil len step := by
  apply eq_of_forall_lt_iff
  intro i
  rw [lt_stepCount_iff hstep, lt_ceil_iff hstep, skip, if_pos rfl, Nat.zero_add]

theorem backIndex_spec (hstep : 0 < step) :
    stepCount first step len = 0 ∧ len ≤ backIndex first step len ∨
      0 < stepCount first step len ∧
        len = backIndex first step len+1+(skip first step+(stepCount first step len-1)*step) := by
  have hdiv := Nat.div_add_mod' len step
  have hmod := Nat.mod_lt len hstep
  cases first with
  | false =>
    change len/step = 0 ∧ len ≤ len%step ∨
      0 < len/step ∧ len = len%step+1+(step-1+(len/step-1)*step)
    generalize len/step = q at hdiv ⊢
    cases q with
    | zero =>
      left
      lia
    | succ q =>
      right
      rw [Nat.add_mul] at hdiv
      rw [Nat.add_sub_cancel]
      lia
  | true =>
    rw [stepCount_true hstep, ceil, backIndex, if_pos rfl, skip, if_pos rfl]
    generalize len/step = q at hdiv ⊢
    by_cases hrem : len%step = 0
    · rw [if_pos hrem, if_neg (by lia), Nat.add_zero]
      cases q with
      | zero =>
        left
        lia
      | succ q =>
        right
        rw [Nat.add_mul] at hdiv
        rw [Nat.add_sub_cancel]
        lia
    · rw [if_neg hrem, if_pos (Nat.pos_of_ne_zero hrem), Nat.add_sub_cancel]
      right
      lia

theorem backIndex_lt (hstep : 0 < step) : backIndex first step len < step := by
  have hmod := Nat.mod_lt len hstep
  rw [backIndex]
  split
  · split <;> lia
  · exact hmod

end Count

/-! ## The generic methods -/

/-- The inner iterator holds a list that fits into memory. -/
structure Bounded (it : Iter σ α) (R : σ → List α → Prop) : Prop where
  refines : it.Refines R
  length_lt : ∀ s l, R s l → l.length < 2^64

/-- The elements of a list by their positions. -/
def Positions (R : σ → List α → Prop) (s : σ) (f : ℕ → Option α) : Prop :=
  ∃ l, R s l ∧ f = fun i => l[i]?

/-- The inner list from the next element on, in steps. -/
structure Stepped (R : σ → List α → Prop) (step : ℕ) (s : StepBy σ) (l' : List α) : Prop where
  step_eq : s.stepMinusOne = step-1
  inner : ∃ l, R s.iter l ∧ l' = everyFrom step (skip s.firstTake step) l

section Refine

variable {it : Iter σ α} {R : σ → List α → Prop} {step : ℕ} {self : StepBy σ} {l : List α}

theorem Bounded.nth (h : Bounded it R) {s : σ} (hs : R s l) {n : ℕ} (hn : n < 2^64) :
    ∃ s', it.nth n s = some (l[n]?, s') ∧ R s' (l.drop (n+1)) :=
  h.refines.takes (.nth n) s l hn hs

theorem Bounded.next (h : Bounded it R) {s : σ} (hs : R s l) :
    ∃ s', it.next s = some (l.head?, s') ∧ R s' l.tail :=
  h.refines.takes .next s l trivial hs

theorem Bounded.nthBack (h : Bounded it R) {s : σ} (hs : R s l) {n : ℕ} (hn : n < 2^64) :
    ∃ s', it.nthBack n s = some (l.reverse[n]?, s') ∧ R s' (l.take (l.length-(n+1))) :=
  h.refines.takes (.nthBack n) s l hn hs

theorem Bounded.sequence (h : Bounded it R) : Sequence it (Positions R) where
  next s f hs := by
    obtain ⟨l, hs, rfl⟩ := hs
    obtain ⟨s', hnext, hs'⟩ := h.next hs
    refine ⟨s', ?_, l.tail, hs', ?_⟩
    · rw [hnext, List.head?_eq_getElem?]
    · funext i
      rw [List.getElem?_tail, shift]
  nth n s f hn hs := by
    obtain ⟨l, hs, rfl⟩ := hs
    obtain ⟨s', hnth, hs'⟩ := h.nth hs hn
    refine ⟨s', hnth, l.drop (n+1), hs', ?_⟩
    funext i
    rw [List.getElem?_drop, shift, Nat.add_comm]

theorem positions_shift {s : σ} {c : ℕ} (h : Positions R s (shift (fun i => l[i]?) c)) :
    R s (l.drop c) := by
  obtain ⟨l', hs, heq⟩ := h
  have hdrop : l.drop c = l' := by
    ext1 i
    rw [List.getElem?_drop, Nat.add_comm, ← congrFun heq i, shift]
  rwa [hdrop]

theorem saturated_eq {len a index : ℕ} (hlen : len < 2^64) (h : a+index < len) :
    saturatingAdd (min a usizeMax) index = a+index := by
  rw [saturatingAdd, usizeMax]
  lia

theorem le_saturated {len a index : ℕ} (hlen : len < 2^64) (h : len ≤ a+index) :
    len ≤ saturatingAdd (min a usizeMax) index := by
  rw [saturatingAdd, usizeMax]
  lia

theorem saturated_lt (a index : ℕ) : saturatingAdd a index < 2^64 := by
  rw [saturatingAdd, usizeMax]
  lia

theorem stepped_of_drop (hstep : 0 < step) (hself : self.stepMinusOne = step-1) {first : Bool}
    {n c : ℕ} {s' : σ} (hs' : R s' (l.drop c)) (hc : c = skip first step+n*step+1) :
    Stepped R step { self with iter := s', firstTake := false }
      ((everyFrom step (skip first step) l).drop (n+1)) := by
  refine ⟨hself, l.drop c, hs', ?_⟩
  rw [drop_everyFrom hstep, hc]
  rfl

theorem specNext_takes (h : Bounded it R) (hstep : 0 < step) (hlt : step < 2^64) {l' : List α}
    (hself : Stepped R step self l') : (generic it).Takes (Stepped R step) .next self l' := by
  obtain ⟨hself, l, hl, rfl⟩ := hself
  have hskip : (if self.firstTake then 0 else self.stepMinusOne) = skip self.firstTake step := by
    rw [hself, skip]
  have hsize : skip self.firstTake step < 2^64 := by
    rw [skip]
    split <;> lia
  obtain ⟨s', hnth, hs'⟩ := h.nth hl hsize
  apply Iter.takes_of_answer (answer_next _)
  · change specNext it self = _
    rw [specNext, hskip, hnth, getElem?_everyFrom hstep, Nat.zero_mul, Nat.add_zero]
    rfl
  · exact stepped_of_drop hstep hself hs' (by lia)

theorem specNth_takes (h : Bounded it R) (hstep : 0 < step) (hlt : step < 2^64) {l' : List α}
    {n : ℕ} (hn : n < 2^64) (hself : Stepped R step self l') :
    (generic it).Takes (Stepped R step) (.nth n) self l' := by
  obtain ⟨hself, l, hl, rfl⟩ := hself
  obtain ⟨s', hnth, hs'⟩ := specNth_spec h.sequence hself hstep hlt ⟨l, hl, rfl⟩ hn
  rw [← getElem?_everyFrom hstep] at hnth
  apply Iter.takes_of_answer rfl
  · exact hnth
  · exact stepped_of_drop hstep hself (positions_shift hs') rfl

theorem length_everyFrom (hstep : 0 < step) (first : Bool) (l : List α) :
    (everyFrom step (skip first step) l).length = stepCount first step l.length := by
  apply eq_of_forall_lt_iff
  intro i
  rw [lt_length_everyFrom hstep, lt_stepCount_iff hstep]

theorem originalStep_eq (hself : self.stepMinusOne = step-1) (hstep : 0 < step)
    (hlt : step < 2^64) : self.originalStep = some step := by
  have hsucc : self.stepMinusOne+1 = step := by lia
  rw [StepBy.originalStep, add_eq (hsucc.trans_lt hlt), hsucc]

theorem nextBackIndex_eq (h : Bounded it R) (hself : self.stepMinusOne = step-1)
    (hstep : 0 < step) (hlt : step < 2^64) (hl : R self.iter l) :
    nextBackIndex it self = some (backIndex self.firstTake step l.length) := by
  have hsized : it.sizeHint self.iter = some (l.length, some l.length) := h.refines.sized _ _ hl
  rw [nextBackIndex, hsized, originalStep_eq hself hstep hlt, hself]
  simp only [Option.bind_eq_bind, Option.bind_some, exactLen_eq, rem_eq hstep]
  rfl

theorem everyFrom_back (hstep : 0 < step) {first : Bool} {n : ℕ}
    (hn : n < (everyFrom step (skip first step) l).length) :
    n*step+backIndex first step l.length < l.length ∧
    (everyFrom step (skip first step) l).reverse[n]? =
        l.reverse[n*step+backIndex first step l.length]? ∧
      (everyFrom step (skip first step) l).take
          ((everyFrom step (skip first step) l).length-(n+1)) =
        everyFrom step (skip first step)
          (l.take (l.length-(n*step+backIndex first step l.length+1))) := by
  have hback : stepCount first step l.length = 0 ∧ _ ∨ _ := backIndex_spec hstep
  rw [← length_everyFrom hstep] at hback
  generalize backIndex first step l.length = index at hback ⊢
  obtain ⟨m, hm⟩ : ∃ m, (everyFrom step (skip first step) l).length = m+n+1 :=
    ⟨_, (Nat.sub_add_cancel hn).symm⟩
  have hlen : l.length = index+1+(skip first step+(m*step+n*step)) := by
    rw [hm, Nat.add_sub_cancel, Nat.add_mul] at hback
    lia
  have hlt : n*step+index < l.length := by lia
  refine ⟨hlt, ?_, ?_⟩
  · have hpos : l.length-1-(n*step+index) = skip first step+m*step := by lia
    have hblock : m+n+1-1-n = m := by lia
    rw [List.getElem?_reverse hn, List.getElem?_reverse hlt, hm, hpos, hblock,
      getElem?_everyFrom hstep]
  · have hpos : l.length-(n*step+index+1) = skip first step+m*step := by lia
    have hblock : m+n+1-(n+1) = m := by lia
    rw [hm, hpos, hblock]
    apply take_everyFrom hstep
    intro i
    rw [Nat.add_lt_add_iff_left, Nat.mul_lt_mul_right hstep]

theorem everyFrom_beyond (hstep : 0 < step) {first : Bool} {n : ℕ}
    (hn : (everyFrom step (skip first step) l).length ≤ n) :
    l.length ≤ n*step+backIndex first step l.length := by
  by_contra h
  have hlt : l.length-1-(n*step+backIndex first step l.length) < l.length := by lia
  have hback : stepCount first step l.length = 0 ∧ _ ∨ _ := backIndex_spec hstep
  rw [← length_everyFrom hstep] at hback
  have hskip : skip first step+1 ≤ step := by
    rw [skip]
    split <;> lia
  have hmul := Nat.mul_le_mul_right step hn
  generalize (everyFrom step (skip first step) l).length = count at hback hmul
  cases count with
  | zero => lia
  | succ m =>
    rw [Nat.add_sub_cancel] at hback
    rw [Nat.add_mul] at hmul
    lia

theorem nthBack_steps (h : Bounded it R) (hself : self.stepMinusOne = step-1) (hstep : 0 < step)
    (hl : R self.iter l) (n : ℕ) :
    ∃ s', it.nthBack (saturatingAdd (saturatingMul n step)
        (backIndex self.firstTake step l.length)) self.iter =
          some ((everyFrom step (skip self.firstTake step) l).reverse[n]?, s') ∧
      Stepped R step { self with iter := s' } ((everyFrom step (skip self.firstTake step) l).take
        ((everyFrom step (skip self.firstTake step) l).length-(n+1))) := by
  have hlen := h.length_lt _ _ hl
  rw [saturatingMul]
  obtain ⟨s', hnth, hs'⟩ := h.nthBack hl (saturated_lt (min (n*step) usizeMax) _)
  refine ⟨s', ?_, hself, _, hs', ?_⟩
  · rw [hnth]
    by_cases hn : n < (everyFrom step (skip self.firstTake step) l).length
    · obtain ⟨hlt, hget, -⟩ := everyFrom_back hstep hn
      rw [saturated_eq hlen hlt, hget]
    · have hge := everyFrom_beyond hstep (Nat.le_of_not_lt hn)
      rw [List.getElem?_eq_none (by rw [List.length_reverse]; exact le_saturated hlen hge),
        List.getElem?_eq_none (by rw [List.length_reverse]; exact Nat.le_of_not_lt hn)]
  · by_cases hn : n < (everyFrom step (skip self.firstTake step) l).length
    · obtain ⟨hlt, -, htake⟩ := everyFrom_back hstep hn
      rw [saturated_eq hlen hlt, htake]
    · have hge := le_saturated hlen (everyFrom_beyond hstep (Nat.le_of_not_lt hn))
      rw [Nat.sub_eq_zero_of_le (Nat.le_succ_of_le hge), List.take_zero, everyFrom_nil,
        Nat.sub_eq_zero_of_le (by lia), List.take_zero]

theorem specNthBack_takes (h : Bounded it R) (hstep : 0 < step) (hlt : step < 2^64) {l' : List α}
    (n : ℕ) (hself : Stepped R step self l') :
    (generic it).Takes (Stepped R step) (.nthBack n) self l' := by
  obtain ⟨hself, l, hl, rfl⟩ := hself
  obtain ⟨s', hnth, hs'⟩ := nthBack_steps h hself hstep hl n
  apply Iter.takes_of_answer rfl
  · change specNthBack it self n = _
    rw [specNthBack, originalStep_eq hself hstep hlt, nextBackIndex_eq h hself hstep hlt hl]
    simp only [Option.bind_eq_bind, Option.bind_some, hnth]
    rfl
  · exact hs'

theorem specNextBack_takes (h : Bounded it R) (hstep : 0 < step) (hlt : step < 2^64)
    {l' : List α} (hself : Stepped R step self l') :
    (generic it).Takes (Stepped R step) .nextBack self l' := by
  obtain ⟨hself, l, hl, rfl⟩ := hself
  obtain ⟨s', hnth, hs'⟩ := nthBack_steps h hself hstep hl 0
  have hindex : saturatingAdd (saturatingMul 0 step) (backIndex self.firstTake step l.length) =
      backIndex self.firstTake step l.length := by
    rw [saturatingMul, Nat.zero_mul]
    have hlt' : 0+backIndex self.firstTake step l.length < step := by
      rw [Nat.zero_add]
      exact backIndex_lt hstep
    rw [saturated_eq hlt hlt', Nat.zero_add]
  apply Iter.takes_of_answer (answer_nextBack _)
  · change specNextBack it self = _
    rw [hindex] at hnth
    rw [specNextBack, nextBackIndex_eq h hself hstep hlt hl]
    simp only [Option.bind_eq_bind, Option.bind_some, hnth]
    rfl
  · exact hs'

theorem specSizeHint_sized (h : Bounded it R) (hstep : 0 < step) (hlt : step < 2^64)
    {l' : List α} (hself : Stepped R step self l') : (generic it).Sized self l' := by
  obtain ⟨hself, l, hl, rfl⟩ := hself
  have hsized : it.sizeHint self.iter = some (l.length, some l.length) := h.refines.sized _ _ hl
  change specSizeHint it self = _
  rw [specSizeHint, hsized, originalStep_eq hself hstep hlt, length_everyFrom hstep]
  cases self.firstTake <;> rfl

theorem generic_refines (h : Bounded it R) (hstep : 0 < step) (hlt : step < 2^64) :
    (generic it).Refines (Stepped R step) where
  takes c self l' hfits hself := by
    cases c with
    | next => exact specNext_takes h hstep hlt hself
    | nth n => exact specNth_takes h hstep hlt hfits hself
    | nextBack => exact specNextBack_takes h hstep hlt hself
    | nthBack n => exact specNthBack_takes h hstep hlt n hself
  sized self l' hself := specSizeHint_sized h hstep hlt hself

theorem generic_follows (h : Bounded it R) (hstep : 0 < step) (hlt : step < 2^64) {s : σ}
    (hs : R s l) : ∃ self, StepBy.new s step = some self ∧ (generic it).Follows self
      (everyNth step l) := by
  refine ⟨_, if_pos hstep.ne', ?_⟩
  apply (generic_refines h hstep hlt).follows
  exact ⟨rfl, l, hs, rfl⟩

end Refine

/-! ## The integer ranges -/

namespace Range

/-- `start, start+step, ..` with the count in the end of the range. -/
structure Counted (w step : ℕ) (s : StepBy Range) (l : List ℕ) : Prop where
  step_eq : s.stepMinusOne = step-1
  list_eq : l = tabulate s.iter.end_ fun i => s.iter.start+i*step
  lt : 0 < s.iter.end_ → s.iter.start+(s.iter.end_-1)*step < 2^w

section Refine

variable {w step : ℕ} {self : StepBy Range} {l : List ℕ}

theorem next_start {start m : ℕ} (h : start+m*step < 2^w) (hm : 0 < m) :
    (start+stepOrMax w step)%2^w = start+step := by
  have hle : step ≤ m*step := Nat.le_mul_of_pos_left step hm
  have hlt : step < 2^w := by lia
  rw [stepOrMax, if_pos hlt, Nat.mod_eq_of_lt (by lia)]

theorem back_offset {start m : ℕ} (h : start+m*step < 2^w) : step%2^w*m = m*step := by
  cases m with
  | zero => rw [Nat.mul_zero, Nat.zero_mul]
  | succ m =>
    have hle : step ≤ (m+1)*step := Nat.le_mul_of_pos_left step (Nat.succ_pos m)
    rw [Nat.mod_eq_of_lt (by lia), Nat.mul_comm]

theorem specNext_spec (hstep : 0 < step) (hlt : step < 2^64) (self : StepBy Range) (l : List ℕ)
    (h : Counted w step self l) :
    ∃ s', specNext w self = some (l.head?, s') ∧ Counted w step s' l.tail := by
  have hself := h.step_eq
  obtain ⟨⟨start, count⟩, stepMinusOne, firstTake⟩ := self
  obtain ⟨-, rfl, hbound⟩ := h
  rw [specNext, originalStep_eq hself hstep hlt, Option.bind_eq_bind, Option.bind_some]
  cases count with
  | zero => exact ⟨_, rfl, hself, rfl, hbound⟩
  | succ m =>
    have hlt' : start+m*step < 2^w := hbound (Nat.succ_pos m)
    have hanswer := (answer_next _).trans
      (answer_nth_lt (f := fun i => start+i*step) (Nat.succ_pos m))
    rw [answer, Prod.mk.injEq] at hanswer
    refine ⟨⟨⟨(start+stepOrMax w step)%2^w, m⟩, stepMinusOne, firstTake⟩, ?_, ?_⟩
    · change _ = some ((tabulate (m+1) fun i => start+i*step).head?, _)
      rw [hanswer.1, Nat.zero_mul]
      exact if_pos (Nat.succ_pos m)
    · change Counted w step _ (tabulate (m+1) fun i => start+i*step).tail
      rw [hanswer.2]
      refine ⟨hself, ?_, ?_⟩
      · apply tabulate_congr
        intro i hi
        change start+(i+1)*step = (start+stepOrMax w step)%2^w+i*step
        rw [next_start hlt' (by lia), Nat.add_mul]
        lia
      · intro hm
        change (start+stepOrMax w step)%2^w+(m-1)*step < 2^w
        obtain ⟨k, rfl⟩ := Nat.exists_eq_succ_of_ne_zero hm.ne'
        rw [next_start hlt' hm]
        rw [Nat.succ_mul] at hlt'
        rw [Nat.succ_sub_one]
        lia

theorem specNextBack_spec (hstep : 0 < step) (hlt : step < 2^64) (self : StepBy Range)
    (l : List ℕ) (h : Counted w step self l) :
    ∃ s', specNextBack w self = some (l.getLast?, s') ∧ Counted w step s' l.dropLast := by
  have hself := h.step_eq
  obtain ⟨⟨start, count⟩, stepMinusOne, firstTake⟩ := self
  obtain ⟨-, rfl, hbound⟩ := h
  rw [specNextBack, originalStep_eq hself hstep hlt, Option.bind_eq_bind, Option.bind_some]
  cases count with
  | zero => exact ⟨_, rfl, hself, rfl, hbound⟩
  | succ m =>
    have hlt' : start+m*step < 2^w := hbound (Nat.succ_pos m)
    have hanswer := (answer_nextBack _).trans
      (answer_nthBack_lt (f := fun i => start+i*step) (Nat.succ_pos m))
    rw [answer, Prod.mk.injEq] at hanswer
    have hoffset : Checked.unsigned w (step%2^w*m) = some (m*step) := by
      rw [back_offset hlt', Checked.unsigned, if_pos (by lia)]
    have hval : Checked.unsigned w (start+m*step) = some (start+m*step) := if_pos hlt'
    refine ⟨⟨⟨start, m⟩, stepMinusOne, firstTake⟩, ?_, ?_⟩
    · change (if m+1 > 0 then _ else _) = some ((tabulate (m+1) fun i => start+i*step).getLast?, _)
      rw [hanswer.1, if_pos (Nat.succ_pos m)]
      change (Checked.unsigned w (step%2^w*m)).bind _ = _
      rw [hoffset, Option.bind_some]
      change (Checked.unsigned w (start+m*step)).bind _ = _
      rw [hval]
      rfl
    · change Counted w step _ (tabulate (m+1) fun i => start+i*step).dropLast
      rw [hanswer.2]
      refine ⟨hself, rfl, ?_⟩
      intro hm
      change start+(m-1)*step < 2^w
      have hle : (m-1)*step ≤ m*step := Nat.mul_le_mul_right step (Nat.sub_le m 1)
      lia

theorem special_refines (hstep : 0 < step) (hlt : step < 2^64) :
    (special w).Refines (Counted w step) where
  takes c self l _ hself := by
    cases c with
    | next => exact specNext_spec hstep hlt self l hself
    | nth n => exact nthByNext_spec (specNext_spec hstep hlt) n hself
    | nextBack => exact specNextBack_spec hstep hlt self l hself
    | nthBack n => exact nthByNextBack_spec (specNextBack_spec hstep hlt) n hself
  sized self l hself := by
    rw [Iter.Sized, hself.list_eq, length_tabulate]
    rfl

end Refine

theorem everyNth_rangeList {step : ℕ} (hstep : 0 < step) (start stop : ℕ) :
    everyNth step (rangeList start stop) =
      tabulate (ceil (stop-start) step) fun i => start+i*step := by
  ext1 i
  rw [everyNth, getElem?_everyFrom hstep, rangeList, getElem?_tabulate, getElem?_tabulate,
    Nat.zero_add]
  simp only [lt_ceil_iff hstep]

theorem len_eq (start stop : ℕ) : ({ start, end_ := stop } : Range).len = stop-start := by
  change (if start < stop then stop-start else 0) = stop-start
  split <;> lia

theorem special_follows {w start stop step : ℕ} (hstep : 0 < step) (hlt : step < 2^64)
    (hstop : stop < 2^w) :
    ∃ self, stepBy w { start, end_ := stop } step = some self ∧
      (special w).Follows self (everyNth step (rangeList start stop)) := by
  refine ⟨_, if_pos hstep.ne', ?_⟩
  apply (special_refines hstep hlt).follows
  have hle : ceil (stop-start) step ≤ stop-start := ceil_le hstep
  have hcount : ceil (stop-start) step%2^w = ceil (stop-start) step :=
    Nat.mod_eq_of_lt (by lia)
  refine ⟨rfl, ?_, ?_⟩
  · rw [everyNth_rangeList hstep, setup, len_eq, hcount]
  · rw [setup, len_eq, hcount]
    intro hpos
    change 0 < ceil (stop-start) step at hpos
    change start+(ceil (stop-start) step-1)*step < 2^w
    have hlast : ceil (stop-start) step-1 < ceil (stop-start) step := by lia
    rw [lt_ceil_iff hstep] at hlast
    lia

end Range

/-! ## The adapter -/

/-- An inner iterator that never ends, with the elements `x 0, x 1, ..` ahead of it. -/
structure Unbounded (it : Iter σ α) (R : σ → (ℕ → α) → Prop) : Prop where
  next : ∀ s x, R s x → ∃ s', it.next s = some (some (x 0), s') ∧ R s' fun i => x (i+1)
  nth : ∀ n s x, n < 2^64 → R s x →
    ∃ s', it.nth n s = some (some (x n), s') ∧ R s' fun i => x (i+(n+1))

theorem Unbounded.sequence {it : Iter σ α} {R : σ → (ℕ → α) → Prop} (h : Unbounded it R) :
    Sequence it fun s f => ∃ x, R s x ∧ f = fun i => some (x i) where
  next s f hs := by
    obtain ⟨x, hs, rfl⟩ := hs
    obtain ⟨s', hnext, hs'⟩ := h.next s x hs
    exact ⟨s', hnext, _, hs', rfl⟩
  nth n s f hn hs := by
    obtain ⟨x, hs, rfl⟩ := hs
    obtain ⟨s', hnth, hs'⟩ := h.nth n s x hn hs
    exact ⟨s', hnth, _, hs', rfl⟩

theorem specNth_unbounded {it : Iter σ α} {R : σ → (ℕ → α) → Prop} (h : Unbounded it R)
    {self : StepBy σ} {step n : ℕ} {x : ℕ → α} (hself : self.stepMinusOne = step-1)
    (hstep : 0 < step) (hlt : step < 2^64) (hs : R self.iter x) (hn : n < 2^64) :
    ∃ s', specNth it self n = some (some (x (skip self.firstTake step+n*step)),
        { self with iter := s', firstTake := false }) ∧
      R s' fun i => x (i+(skip self.firstTake step+n*step+1)) := by
  obtain ⟨s', hnth, x', hs', heq⟩ := specNth_spec h.sequence hself hstep hlt ⟨x, hs, rfl⟩ hn
  have hx : x' = fun i => x (i+(skip self.firstTake step+n*step+1)) := by
    funext i
    exact Option.some_inj.mp (congrFun heq i).symm
  rw [hx] at hs'
  exact ⟨s', hnth, hs'⟩

/-- Over every list and every range of integers the adapter is the list of every `step`-th
element, and without an end `nth` consumes what it should. -/
theorem stepBy_everyNth {step : ℕ} (hstep : 0 < step) (hlt : step < 2^64) :
    (∀ {σ α : Type} (it : Iter σ α) (R : σ → List α → Prop) (s : σ) (l : List α),
      Bounded it R → R s l →
        ∃ self, StepBy.new s step = some self ∧ (generic it).Follows self (everyNth step l)) ∧
    (∀ w start stop, start < 2^w → stop < 2^w →
      ∃ self, Range.stepBy w { start, end_ := stop } step = some self ∧
        (Range.special w).Follows self (everyNth step (rangeList start stop))) ∧
    (∀ {σ α : Type} (it : Iter σ α) (R : σ → (ℕ → α) → Prop) (self : StepBy σ) (x : ℕ → α) (n : ℕ),
      Unbounded it R → self.stepMinusOne = step-1 → R self.iter x → n < 2^64 →
        ∃ s', specNth it self n = some (some (x (skip self.firstTake step+n*step)),
            { self with iter := s', firstTake := false }) ∧
          R s' fun i => x (i+(skip self.firstTake step+n*step+1))) :=
  ⟨fun _ _ _ _ h hs => generic_follows h hstep hlt hs,
    fun _ _ _ _ hstop => Range.special_follows hstep hlt hstop,
    fun _ _ _ _ _ h hself hs hn => specNth_unbounded h hself hstep hlt hs hn⟩

def counter : Iter ℕ ℕ where
  next s := some (some s, s+1)
  nth n s := some (some (s+n), s+(n+1))
  nextBack _ := none
  nthBack _ _ := none
  sizeHint _ := none

theorem counter_unbounded : Unbounded counter fun s x => x = fun i => s+i where
  next s x hs := by
    subst hs
    refine ⟨s+1, rfl, ?_⟩
    funext i
    exact (Nat.add_right_comm s 1 i).symm
  nth n s x _ hs := by
    subst hs
    refine ⟨s+(n+1), rfl, ?_⟩
    funext i
    change s+(i+(n+1)) = s+(n+1)+i
    lia

theorem stepBy_everyNth_three :
    (∃ self, StepBy.new [0, 1, 2, 3, 4] 3 = some self ∧ (generic (ofList ℕ)).Follows self [0, 3]) ∧
    (∃ self, Range.stepBy 8 { start := 248, end_ := 255 } 3 = some self ∧
      (Range.special 8).Follows self [248, 251, 254]) ∧
    ∃ s', specNth counter { iter := 0, stepMinusOne := 2, firstTake := true } (2^63) =
      some (some (2^63*3), { iter := s', stepMinusOne := 2, firstTake := false }) := by
  obtain ⟨hlist, hrange, hstream⟩ := stepBy_everyNth (by decide : 0 < 3) (by decide)
  refine ⟨?_, ?_, ?_⟩
  · exact hlist (ofList ℕ) _ _ _ ⟨ofList_refines (2^64), fun _ _ h => h.2⟩ ⟨rfl, by decide⟩
  · exact hrange 8 248 255 (by decide) (by decide)
  · obtain ⟨s', hnth, -⟩ := hstream counter _ { iter := 0, stepMinusOne := 2, firstTake := true } _
      (2^63) counter_unbounded rfl rfl (by decide)
    refine ⟨s', ?_⟩
    rw [hnth]
    change some (some (0+(0+2^63*3)), _) = _
    rw [Nat.zero_add, Nat.zero_add]

end RustStd.Stepping
