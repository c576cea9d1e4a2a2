import RustStd.Str.Chars
import RustStd.Str.TwoWayBack

/-!
# `StrSearcher`

The searcher behind `&str` patterns. Rejected parts are stretched to the next
char boundary by moving the cursor of the two-way searcher without touching
its memory. This is sound since a remembered part of the needle starts with a
byte that starts a char, so a cursor with memory already stands on a boundary.
-/

set_option autoImplicit false

namespace RustStd.Pattern
open RustStd.Loop RustStd.Machine RustStd.Words RustStd.MaximalSuffix RustStd.Utf8Grammar
open RustStd.Chars RustStd.TwoWay

structure EmptyNeedle where
  position : ℕ
  endPos : ℕ
  isMatchFw : Bool
  isMatchBw : Bool
  isFinished : Bool
  deriving DecidableEq, Repr

inductive StrSearcherImpl
  | Empty (s : EmptyNeedle)
  | TwoWay (s : TwoWaySearcher)
  deriving DecidableEq, Repr

structure StrSearcher where
  haystack : Str
  needle : Str
  searcher : StrSearcherImpl

def new (haystack needle : Str) : Option StrSearcher :=
  if needle.bytes.isEmpty then
    some ⟨haystack, needle, .Empty ⟨0, haystack.bytes.length, true, true, false⟩⟩
  else do
    let s ← TwoWay.new needle.bytes haystack.bytes.length
    return ⟨haystack, needle, .TwoWay s⟩

def nextEmpty (haystack : List UInt8) (s : EmptyNeedle) : Option (SearchStep × EmptyNeedle) :=
  if s.isFinished then some (.Done, s)
  else do
    let isMatch := s.isMatchFw
    let s := { s with isMatchFw := !s.isMatchFw }
    let pos := s.position
    let (ch, _) ← nextCodePoint (← strFrom haystack pos)
    if isMatch then return (.Match pos pos, s)
    match ch with
    | none => return (.Done, { s with isFinished := true })
    | some ch =>
      let s := { s with position := s.position+lenUtf8 ch }
      return (.Reject pos s.position, s)

def nextBackEmpty (haystack : List UInt8) (s : EmptyNeedle) : Option (SearchStep × EmptyNeedle) :=
  if s.isFinished then some (.Done, s)
  else do
    let isMatch := s.isMatchBw
    let s := { s with isMatchBw := !s.isMatchBw }
    let endPos := s.endPos
    let (ch, _) ← nextCodePointReverse (← strTo haystack endPos)
    if isMatch then return (.Match endPos endPos, s)
    match ch with
    | none => return (.Done, { s with isFinished := true })
    | some ch =>
      let s := { s with endPos := s.endPos-lenUtf8 ch }
      return (.Reject s.endPos endPos, s)

def boundaryFrom (haystack : List UInt8) (b : ℕ) : Option ℕ :=
  loop (fun b => some (if isCharBoundary haystack b then .inr b else .inl (b+1)))
    (haystack.length+1) b

def boundaryTo (haystack : List UInt8) (a : ℕ) : Option ℕ :=
  loop (fun a => if isCharBoundary haystack a then some (.inr a)
    else if a = 0 then none else some (.inl (a-1))) (haystack.length+1) a

def nextTwoWay (haystack needle : List UInt8) (s : TwoWaySearcher) :
    Option (SearchStep × TwoWaySearcher) :=
  if s.position = haystack.length then some (.Done, s)
  else do
    match ← TwoWay.next rejectAndMatch haystack needle (isLong s) s with
    | (.Reject a b, s) =>
      let b ← boundaryFrom haystack b
      return (.Reject a b, { s with position := max b s.position })
    | r => return r

def nextBackTwoWay (haystack needle : List UInt8) (s : TwoWaySearcher) :
    Option (SearchStep × TwoWaySearcher) :=
  if s.endPos = 0 then some (.Done, s)
  else do
    match ← TwoWay.nextBack rejectAndMatch haystack needle (isLong s) s with
    | (.Reject a b, s) =>
      let a ← boundaryTo haystack a
      return (.Reject a b, { s with endPos := min a s.endPos })
    | r => return r

def next (self : StrSearcher) : Option (SearchStep × StrSearcher) :=
  match self.searcher with
  | .Empty s => do
    let (step, s) ← nextEmpty self.haystack.bytes s
    return (step, { self with searcher := .Empty s })
  | .TwoWay s => do
    let (step, s) ← nextTwoWay self.haystack.bytes self.needle.bytes s
    return (step, { self with searcher := .TwoWay s })

def nextBack (self : StrSearcher) : Option (SearchStep × StrSearcher) :=
  match self.searcher with
  | .Empty s => do
    let (step, s) ← nextBackEmpty self.haystack.bytes s
    return (step, { self with searcher := .Empty s })
  | .TwoWay s => do
    let (step, s) ← nextBackTwoWay self.haystack.bytes self.needle.bytes s
    return (step, { self with searcher := .TwoWay s })

/-- A bound on the number of calls until a searcher is done. -/
def callBound (haystack : List UInt8) : ℕ := 2*haystack.length+3

/-- The default `next_match`: call `next` until it matches or is done. -/
def matchLoop {σ : Type} (next : σ → Option (SearchStep × σ)) (fuel : ℕ) (s : σ) :
    Option (Option (ℕ × ℕ) × σ) :=
  loop (fun s => (next s).map fun
    | (.Match a b, s) => .inr (some (a, b), s)
    | (.Done, s) => .inr (none, s)
    | (.Reject _ _, s) => .inl s) fuel s

def nextMatch (self : StrSearcher) : Option (Option (ℕ × ℕ) × StrSearcher) :=
  match self.searcher with
  | .Empty _ => matchLoop next (callBound self.haystack.bytes) self
  | .TwoWay s => do
    let (m, s) ← TwoWay.next matchOnly self.haystack.bytes self.needle.bytes (isLong s) s
    return (m, { self with searcher := .TwoWay s })

def nextMatchBack (self : StrSearcher) : Option (Option (ℕ × ℕ) × StrSearcher) :=
  match self.searcher with
  | .Empty _ => matchLoop nextBack (callBound self.haystack.bytes) self
  | .TwoWay s => do
    let (m, s) ← TwoWay.nextBack matchOnly self.haystack.bytes self.needle.bytes (isLong s) s
    return (m, { self with searcher := .TwoWay s })

/-- `Done` ends the sequence of steps. -/
def stepOption : SearchStep → Option SearchStep
  | .Done => none
  | step => some step

def untilDone {σ : Type} (next : σ → Option (SearchStep × σ)) (s : σ) :
    Option (Option SearchStep × σ) :=
  (next s).map fun r => (stepOption r.1, r.2)

theorem untilDone_eq {σ : Type} {next : σ → Option (SearchStep × σ)} {s s' : σ} {step : SearchStep}
    (h : next s = some (step, s')) : untilDone next s = some (stepOption step, s') := by
  simp only [untilDone, h, Option.map_some]

/-- The intervals of the steps lead from `a` to `b` without gap and overlap. -/
inductive Tiles : ℕ → ℕ → List SearchStep → Prop
  | nil {a : ℕ} : Tiles a a []
  | cons_match {a b c : ℕ} {l : List SearchStep} (hab : a ≤ b) (h : Tiles b c l) :
      Tiles a c (.Match a b :: l)
  | cons_reject {a b c : ℕ} {l : List SearchStep} (hab : a ≤ b) (h : Tiles b c l) :
      Tiles a c (.Reject a b :: l)

def OnBoundaries (haystack : List UInt8) : SearchStep → Prop
  | .Match a b | .Reject a b => isCharBoundary haystack a = true ∧ isCharBoundary haystack b = true
  | .Done => False

def matched : SearchStep → Option (ℕ × ℕ)
  | .Match a b => some (a, b)
  | _ => none

/-- What the `Searcher` trait promises about the part of the haystack from `a` to `b`. -/
structure Covers (haystack : List UInt8) (a b : ℕ) (steps : List SearchStep) : Prop where
  tiles : Tiles a b steps
  boundaries : ∀ step ∈ steps, OnBoundaries haystack step

theorem Tiles.append {a b c : ℕ} {l r : List SearchStep} (h : Tiles a b l) (h' : Tiles b c r) :
    Tiles a c (l ++ r) := by
  induction h with
  | nil => exact h'
  | cons_match hab _ ih => exact .cons_match hab (ih h')
  | cons_reject hab _ ih => exact .cons_reject hab (ih h')

theorem Covers.concat {haystack : List UInt8} {a b c : ℕ} {step : SearchStep}
    {steps : List SearchStep} (h : Covers haystack a b steps.reverse) (ht : Tiles b c [step])
    (hb : OnBoundaries haystack step) : Covers haystack a c (step :: steps).reverse := by
  rw [List.reverse_cons]
  refine ⟨h.tiles.append ht, fun st hst => ?_⟩
  rcases List.mem_append.mp hst with hst | hst
  · exact h.boundaries st hst
  · obtain rfl : st = step := by simpa using hst
    exact hb

section Positions

variable {haystack needle : List UInt8}

theorem isCharBoundary_zero (s : List UInt8) : isCharBoundary s 0 = true := rfl

theorem isCharBoundary_length {s : List UInt8} (hs : WellFormed s) :
    isCharBoundary s s.length = true :=
  (isCharBoundary_iff hs _).mpr ⟨le_rfl, by simpa using hs⟩

theorem isCharBoundary_of_not_tail {s : List UInt8} {i : ℕ} {b : UInt8} (hi : s[i]? = some b)
    (hb : ¬ Tail b) : isCharBoundary s i = true := by
  unfold isCharBoundary
  split_ifs
  · rfl
  · simp [hi, isUtf8CharBoundary_iff, hb]

theorem wellFormed_drop {s : List UInt8} (hs : WellFormed s) {i : ℕ}
    (hi : isCharBoundary s i = true) : WellFormed (s.drop i) := by
  have ht := ((isCharBoundary_iff hs i).mp hi).2
  exact ht.cancel_left (by rwa [List.take_append_drop])

theorem isCharBoundary_append {s w : List UInt8} (hs : WellFormed s) (hw : WellFormed w) {i : ℕ}
    (hi : isCharBoundary s i = true) (hp : w <+: s.drop i) :
    isCharBoundary s (i+w.length) = true := by
  obtain ⟨hle, ht⟩ := (isCharBoundary_iff hs i).mp hi
  have hlen := hp.length_le
  rw [List.length_drop] at hlen
  refine (isCharBoundary_iff hs _).mpr ⟨by lia, ?_⟩
  rw [List.take_add, ← List.prefix_iff_eq_take.mp hp]
  exact ht.append hw

theorem occursAt_boundaries (hh : WellFormed haystack) (hn : WellFormed needle)
    (hne : needle ≠ []) {p : ℕ} (ho : OccursAt needle haystack p) :
    isCharBoundary haystack p = true ∧ isCharBoundary haystack (p+needle.length) = true := by
  obtain ⟨a, l, rfl⟩ := List.exists_cons_of_ne_nil hne
  have hp : isCharBoundary haystack p = true := by
    refine isCharBoundary_of_not_tail (b := a) ?_ (wellFormed_head hn)
    obtain ⟨r, hr⟩ := ho
    rw [← Nat.add_zero p, ← List.getElem?_drop, ← hr]
    rfl
  exact ⟨hp, isCharBoundary_append hh hn hp ho⟩

theorem boundaryFrom_spec (hh : WellFormed haystack) {b : ℕ} (hb : b ≤ haystack.length) :
    ∃ c, boundaryFrom haystack b = some c ∧ b ≤ c ∧ isCharBoundary haystack c = true ∧
      ∀ t, b ≤ t → t < c → isCharBoundary haystack t = false := by
  apply loop_total (fun c => b ≤ c ∧ c ≤ haystack.length ∧
    ∀ t, b ≤ t → t < c → isCharBoundary haystack t = false) (fun c => haystack.length-c)
  · rintro c ⟨hbc, hc, hall⟩
    by_cases hbound : isCharBoundary haystack c = true
    · exact ⟨.inr c, by simp [hbound], hbc, hbound, hall⟩
    · have hlt : c ≠ haystack.length := by
        rintro rfl
        exact hbound (isCharBoundary_length hh)
      refine ⟨.inl (c+1), by simp [hbound], ⟨by lia, by lia, fun t ht htc => ?_⟩, by simp only; lia⟩
      rcases Nat.lt_or_ge t c with h | h
      · exact hall t ht h
      · obtain rfl : t = c := by lia
        simpa using hbound
  · exact ⟨le_rfl, hb, fun t _ _ => by lia⟩
  · lia

theorem boundaryTo_spec (haystack : List UInt8) {a : ℕ} (ha : a ≤ haystack.length) :
    ∃ c, boundaryTo haystack a = some c ∧ c ≤ a ∧ isCharBoundary haystack c = true ∧
      ∀ t, c < t → t ≤ a → isCharBoundary haystack t = false := by
  apply loop_total (fun c => c ≤ a ∧ ∀ t, c < t → t ≤ a → isCharBoundary haystack t = false)
    (fun c => c)
  · rintro c ⟨hca, hall⟩
    by_cases hbound : isCharBoundary haystack c = true
    · exact ⟨.inr c, by simp [hbound], hca, hbound, hall⟩
    · have hpos : c ≠ 0 := by
        rintro rfl
        exact hbound (isCharBoundary_zero haystack)
      refine ⟨.inl (c-1), by simp [hbound, hpos], ⟨by lia, fun t ht hta => ?_⟩, by simp only; lia⟩
      rcases Nat.lt_or_ge c t with h | h
      · exact hall t h hta
      · obtain rfl : t = c := by lia
        simpa using hbound
  · exact ⟨le_rfl, fun t _ _ => by lia⟩
  · lia

theorem leftmost_extend {a b : ℕ} {ms : List (ℕ × ℕ)} (hab : a ≤ b)
    (hnone : ∀ t, a ≤ t → t < b → ¬ OccursAt needle haystack t)
    (h : Leftmost needle haystack b ms) : Leftmost needle haystack a ms := by
  have hpast {p : ℕ} (hp : ∀ t, b ≤ t → t < p → ¬ OccursAt needle haystack t) (t : ℕ) (hat : a ≤ t)
      (htp : t < p) : ¬ OccursAt needle haystack t := by
    rcases Nat.lt_or_ge t b with h | h
    · exact hnone t hat h
    · exact hp t h htp
  cases h with
  | nil h => exact .nil fun t ht => hpast (p := t+1) (fun t' h' _ => h t' h') t ht (by lia)
  | cons ha hp h hr => exact .cons (hab.trans ha) hp (hpast h) hr

theorem leftmost_unique {a : ℕ} {ms ms' : List (ℕ × ℕ)} (h : Leftmost needle haystack a ms)
    (h' : Leftmost needle haystack a ms') : ms = ms' := by
  induction h generalizing ms' with
  | nil h =>
    cases h' with
    | nil => rfl
    | cons ha hp _ _ => exact absurd hp (h _ ha)
  | @cons a p ms ha hp h _ ih =>
    cases h' with
    | nil h' => exact absurd hp (h' _ ha)
    | @cons _ q ms' ha' hq h' hr' =>
      obtain rfl : p = q := by
        rcases Nat.lt_trichotomy p q with hlt | heq | hlt
        · exact absurd hp (h' p ha hlt)
        · exact heq
        · exact absurd hq (h q ha' hlt)
      rw [ih hr']

theorem rightmost_extend {a b : ℕ} {ms : List (ℕ × ℕ)} (hab : a ≤ b)
    (hnone : ∀ t, a < t+needle.length → t+needle.length ≤ b → ¬ OccursAt needle haystack t)
    (h : Rightmost needle haystack a ms) : Rightmost needle haystack b ms := by
  cases h with
  | nil h =>
    refine .nil fun t ht => ?_
    rcases Nat.lt_or_ge a (t+needle.length) with h' | h'
    · exact hnone t h' ht
    · exact h t h'
  | cons hb hp h hr =>
    refine .cons (hb.trans hab) hp (fun t htp ht => ?_) hr
    rcases Nat.lt_or_ge a (t+needle.length) with h' | h'
    · exact hnone t h' ht
    · exact h t htp h'

theorem rightmost_unique {b : ℕ} {ms ms' : List (ℕ × ℕ)} (h : Rightmost needle haystack b ms)
    (h' : Rightmost needle haystack b ms') : ms = ms' := by
  induction h generalizing ms' with
  | nil h =>
    cases h' with
    | nil => rfl
    | cons hb hp _ _ => exact absurd hp (h _ hb)
  | @cons b p ms hb hp h _ ih =>
    cases h' with
    | nil h' => exact absurd hp (h' _ hb)
    | @cons _ q ms' hb' hq h' hr' =>
      obtain rfl : p = q := by
        rcases Nat.lt_trichotomy p q with hlt | heq | hlt
        · exact absurd hq (h q hlt hb')
        · exact heq
        · exact absurd hp (h' p hlt hb)
      rw [ih hr']

end Positions

/-- A state of the two-way searcher between two calls of `next`. -/
structure Resting (haystack needle : List UInt8) (longPeriod : Bool) (s : TwoWaySearcher) :
    Prop where
  good : Good haystack needle longPeriod s
  inside : s.position ≤ haystack.length
  boundary : isCharBoundary haystack s.position = true

/-- What one call of `next` does with the cursor. -/
inductive Advance (haystack needle : List UInt8) (longPeriod : Bool) (s : TwoWaySearcher) :
    SearchStep × TwoWaySearcher → Prop
  | done (h : s.position = haystack.length) : Advance haystack needle longPeriod s (.Done, s)
  | reject {s' : TwoWaySearcher} (h : s.position < s'.position)
      (hs : Resting haystack needle longPeriod s')
      (hnone : ∀ t, s.position ≤ t → t < s'.position → ¬ OccursAt needle haystack t) :
      Advance haystack needle longPeriod s (.Reject s.position s'.position, s')
  | found {s' : TwoWaySearcher} (h : s'.position = s.position+needle.length)
      (hs : Resting haystack needle longPeriod s') (hocc : OccursAt needle haystack s.position) :
      Advance haystack needle longPeriod s (.Match s.position s'.position, s')

section Forward

variable {haystack needle : List UInt8} {longPeriod : Bool} {s : TwoWaySearcher}

theorem good_of_memory (hs : Good haystack needle longPeriod s) (hlen : needle.length ≤ isizeMax)
    {pos m : ℕ} (hm : if longPeriod then m = s.memory
      else Remembers (letter needle) needle.length (letter haystack) haystack.length pos m) :
    Good haystack needle longPeriod { s with position := pos, memory := m } := by
  have hp := hs.prepared
  refine ⟨⟨hp.forward, hp.backward, hp.back_le, hp.bytes⟩, ?_, ?_⟩
  · cases longPeriod with
    | true =>
      simp only [if_true] at hm
      subst hm
      exact hs.long
    | false =>
      have hlt := hm.1
      simp only [isLong, beq_eq_false_iff_ne, usizeMax, isizeMax] at *
      lia
  · rintro rfl
    exact hm

theorem good_at_boundary (hn : WellFormed needle) (hs : Good haystack needle longPeriod s)
    (hin : s.position+needle.length ≤ haystack.length) {b : ℕ}
    (hskip : ∀ t, s.position ≤ t → t < b → isCharBoundary haystack t = false)
    (hb : s.position ≤ b) : Good haystack needle longPeriod { s with position := b } := by
  have hp := hs.prepared
  have hpos : 0 < needle.length := hp.forward.pos.trans_le hp.forward.le
  refine ⟨⟨hp.forward, hp.backward, hp.back_le, hp.bytes⟩, hs.long, fun hl => ?_⟩
  obtain ⟨hm, hrem⟩ := hs.remembers hl
  rcases Nat.eq_zero_or_pos s.memory with h0 | hmem
  · exact ⟨by simpa [h0] using hpos, by simp [h0]⟩
  -- the remembered part starts with the first byte of the needle
  have hat : isCharBoundary haystack s.position = true := by
    obtain ⟨a, l, rfl⟩ := List.exists_cons_of_length_pos hpos
    refine isCharBoundary_of_not_tail (b := a) ?_ (wellFormed_head hn)
    rw [getElem?_letter (by lia), ← Nat.add_zero s.position, hrem hin 0 hmem]
    rfl
  obtain rfl : b = s.position := by
    by_contra hlt
    rw [hskip s.position le_rfl (by lia)] at hat
    simp at hat
  exact ⟨hm, hrem⟩

variable (hh : WellFormed haystack) (hn : WellFormed needle) (hne : needle ≠ [])
  (hlen : needle.length ≤ isizeMax)
include hh hn hne hlen

theorem nextTwoWay_advance (hs : Resting haystack needle longPeriod s) :
    ∃ r, nextTwoWay haystack needle s = some r ∧ Advance haystack needle longPeriod s r := by
  have hpos : 0 < needle.length := List.length_pos_iff.mpr hne
  have hinside := hs.inside
  unfold nextTwoWay
  by_cases hend : s.position = haystack.length
  · exact ⟨_, if_pos hend, .done hend⟩
  rw [if_neg hend, hs.good.long]
  obtain ⟨r, hr, hret⟩ := next_returns (S := rejectAndMatch) hs.good.prepared hs.good.remembers
  rw [hr]
  rcases hret with ⟨m, rfl, hm, hnone⟩ | ⟨-, hsearch, hstep, hlt, hin⟩ | ⟨p, rfl, -, hin, he, ho, -⟩
  · obtain ⟨c, hc, hbc, hcb, -⟩ := boundaryFrom_spec hh (le_refl haystack.length)
    obtain ⟨hcl, -⟩ := (isCharBoundary_iff hh c).mp hcb
    obtain rfl : c = haystack.length := by lia
    simp only [rejectAndMatch, some_bind, hc, max_self]
    refine ⟨_, rfl, .reject (by simp only; lia) ⟨good_of_memory hs.good hlen ?_, le_rfl, hcb⟩ ?_⟩
    · cases longPeriod with
      | true => exact hm
      | false => exact ⟨hm, fun hle => by lia⟩
    · intro t ht _ hocc
      obtain ⟨hle, hocc⟩ := (occursAt_iff hpos t).mp hocc
      exact hnone t ht hle hocc
  · obtain ⟨step, s'⟩ := r
    obtain ⟨pos, m, rfl, hm, hle, hnone⟩ := hsearch
    obtain rfl : step = .Reject s.position pos := hstep
    simp only at hin hlt
    obtain ⟨c, hc, hbc, hcb, hskip⟩ := boundaryFrom_spec hh (show pos ≤ haystack.length by lia)
    simp only [some_bind, hc, max_eq_left hbc]
    refine ⟨_, rfl, .reject (by simp only; lia)
      ⟨good_at_boundary hn (good_of_memory hs.good hlen hm) hin hskip hbc,
        ((isCharBoundary_iff hh c).mp hcb).1, hcb⟩ ?_⟩
    intro t ht htc hocc
    rcases Nat.lt_or_ge t pos with h | h
    · exact hnone t ht h ((occursAt_iff hpos t).mp hocc).2
    · have := (occursAt_boundaries hh hn hne hocc).1
      rw [hskip t h htc] at this
      simp at this
  · obtain rfl : p = s.position := he rfl
    have hocc := (occursAt_iff hpos s.position).mpr ⟨hin, ho⟩
    have hfound : s.position+needle.length =
        (setMemory longPeriod 0 { s with position := s.position+needle.length }).position :=
      (position_setMemory longPeriod 0 { s with position := s.position+needle.length }).symm
    simp only [rejectAndMatch, some_bind]
    refine ⟨_, rfl, ?_⟩
    nth_rewrite 1 [hfound]
    refine .found hfound.symm ⟨hs.good.after_match _, ?_, ?_⟩ hocc
    · rwa [← hfound]
    · rw [← hfound]
      exact (occursAt_boundaries hh hn hne hocc).2

theorem collect_nextTwoWay (fuel : ℕ) (s : TwoWaySearcher)
    (hs : Resting haystack needle longPeriod s) (hf : haystack.length < s.position+fuel) :
    ∃ steps, collect (untilDone (nextTwoWay haystack needle)) fuel s = some steps ∧
      Covers haystack s.position haystack.length steps ∧
      Leftmost needle haystack s.position (steps.filterMap matched) := by
  have hpos : 0 < needle.length := List.length_pos_iff.mpr hne
  induction fuel generalizing s with
  | zero =>
    have := hs.inside
    lia
  | succ fuel ih =>
    obtain ⟨r, hr, hadv⟩ := nextTwoWay_advance hh hn hne hlen hs
    cases hadv with
    | done h =>
      refine ⟨[], collect_of_none (untilDone_eq hr) fuel, ?_, ?_⟩
      · rw [h]
        exact ⟨.nil, by simp⟩
      · refine .nil fun t ht hocc => ?_
        have := ((occursAt_iff hpos t).mp hocc).1
        lia
    | @reject s' h hs' hnone =>
      obtain ⟨steps, hsteps, hcov, hleft⟩ := ih s' hs' (by lia)
      refine ⟨_, collect_of_some (untilDone_eq hr) hsteps,
        ⟨.cons_reject h.le hcov.tiles, ?_⟩, ?_⟩
      · simpa [OnBoundaries, hs.boundary, hs'.boundary] using hcov.boundaries
      · simpa only [matched, List.filterMap_cons] using leftmost_extend h.le hnone hleft
    | @found s' h hs' hocc =>
      obtain ⟨steps, hsteps, hcov, hleft⟩ := ih s' hs' (by lia)
      refine ⟨_, collect_of_some (untilDone_eq hr) hsteps,
        ⟨.cons_match (by lia) hcov.tiles, ?_⟩, ?_⟩
      · simpa [OnBoundaries, hs.boundary, hs'.boundary] using hcov.boundaries
      · simp only [matched, List.filterMap_cons]
        rw [h] at hleft ⊢
        exact .cons le_rfl hocc (fun t h1 h2 => by lia) hleft

end Forward

structure RestingBack (haystack needle : List UInt8) (longPeriod : Bool) (s : TwoWaySearcher) :
    Prop where
  good : GoodBack haystack needle longPeriod s
  boundary : isCharBoundary haystack s.endPos = true

/-- What one call of `next_back` does with the cursor. -/
inductive AdvanceBack (haystack needle : List UInt8) (longPeriod : Bool) (s : TwoWaySearcher) :
    SearchStep × TwoWaySearcher → Prop
  | done (h : s.endPos = 0) : AdvanceBack haystack needle longPeriod s (.Done, s)
  | reject {s' : TwoWaySearcher} (h : s'.endPos < s.endPos)
      (hs : RestingBack haystack needle longPeriod s')
      (hnone : ∀ t, s'.endPos < t+needle.length → t+needle.length ≤ s.endPos →
        ¬ OccursAt needle haystack t) :
      AdvanceBack haystack needle longPeriod s (.Reject s'.endPos s.endPos, s')
  | found {s' : TwoWaySearcher} (h : s'.endPos+needle.length = s.endPos)
      (hs : RestingBack haystack needle longPeriod s') (hocc : OccursAt needle haystack s'.endPos) :
      AdvanceBack haystack needle longPeriod s (.Match s'.endPos s.endPos, s')

section Backward

variable {haystack needle : List UInt8} {longPeriod : Bool} {s : TwoWaySearcher}

theorem goodBack_of_memory (hs : GoodBack haystack needle longPeriod s) {e m : ℕ}
    (he : e ≤ haystack.length) (hm : if longPeriod then m = s.memoryBack
      else RemembersBack haystack needle s.period e m) :
    GoodBack haystack needle longPeriod { s with endPos := e, memoryBack := m } := by
  have hp := hs.prepared
  refine ⟨⟨hp.forward, hp.backward, hp.back_le, hp.bytes⟩, hs.long, he, ?_⟩
  rintro rfl
  exact hm

theorem letter_drop (v : List UInt8) (m i : ℕ) : letter (v.drop m) i = letter v (m+i) := by
  simp [letter, List.getD_eq_getElem?_getD]

theorem boundary_of_remembersBack (hh : WellFormed haystack) (hn : WellFormed needle)
    (hp : Prepared needle false s) (hin : needle.length ≤ s.endPos)
    (he : s.endPos ≤ haystack.length) (hlt : s.period < needle.length)
    (hm : RemembersBack haystack needle s.period s.endPos s.period) :
    isCharBoundary haystack s.endPos = true := by
  have hrem (j : ℕ) (hj : s.period ≤ j) (hjn : j < needle.length) :
      letter haystack (s.endPos-needle.length+j) = letter needle j := by
    have := hm.2.2 (by lia) (needle.length-1-j) (by lia)
    rw [letter_mirror haystack _ (by lia), letter_mirror needle _ (by lia)] at this
    rwa [show haystack.length-1-(haystack.length-s.endPos+(needle.length-1-j)) =
      s.endPos-needle.length+j by lia, show needle.length-1-(needle.length-1-j) = j by lia]
      at this
  obtain ⟨hper, -⟩ := hp.forward.period rfl
  have hfirst : ¬ Tail (letter needle s.period) := by
    have h0 := hper 0 le_rfl (by lia)
    rw [Nat.zero_add] at h0
    rw [← h0]
    obtain ⟨a, l, rfl⟩ := List.exists_cons_of_length_pos (Nat.zero_lt_of_lt hlt)
    exact wellFormed_head hn
  have hb1 : isCharBoundary needle s.period = true :=
    isCharBoundary_of_not_tail (getElem?_letter hlt) hfirst
  have hb2 : isCharBoundary haystack (s.endPos-needle.length+s.period) = true := by
    refine isCharBoundary_of_not_tail (getElem?_letter (by lia)) ?_
    rwa [hrem _ le_rfl hlt]
  have hocc : OccursAt (needle.drop s.period) haystack (s.endPos-needle.length+s.period) := by
    refine (occursAt_iff (by rw [List.length_drop]; lia) _).mpr ⟨?_, fun i hi => ?_⟩
    · rw [List.length_drop]
      lia
    · rw [List.length_drop] at hi
      rw [letter_drop, Nat.add_assoc]
      exact hrem _ (by lia) (by lia)
  have := isCharBoundary_append hh (wellFormed_drop hn hb1) hb2 hocc
  rwa [List.length_drop, show s.endPos-needle.length+s.period+(needle.length-s.period) = s.endPos
    by lia] at this

theorem goodBack_at_boundary (hh : WellFormed haystack) (hn : WellFormed needle)
    (hs : GoodBack haystack needle longPeriod s) (hin : needle.length ≤ s.endPos) {a : ℕ}
    (hskip : ∀ t, a < t → t ≤ s.endPos → isCharBoundary haystack t = false)
    (ha : a ≤ s.endPos) : GoodBack haystack needle longPeriod { s with endPos := a } := by
  have hp := hs.prepared
  have hpos : 0 < needle.length := hp.forward.pos.trans_le hp.forward.le
  have he := hs.inside
  refine goodBack_of_memory hs (ha.trans he) ?_
  cases longPeriod with
  | true => rfl
  | false =>
    have hm := hs.remembers rfl
    by_cases hfull : s.memoryBack = needle.length
    · simp only [hfull]
      exact remembersBack_self hpos _ _
    have hper : s.memoryBack = s.period := hm.1.resolve_left hfull
    have hle := hp.forward.le
    have hb : isCharBoundary haystack s.endPos = true :=
      boundary_of_remembersBack hh hn hp hin he (by lia) (hper ▸ hm)
    obtain rfl : a = s.endPos := by
      by_contra hlt
      rw [hskip s.endPos (by lia) le_rfl] at hb
      simp at hb
    exact hm

variable (hh : WellFormed haystack) (hn : WellFormed needle) (hne : needle ≠ [])
  (hhlen : haystack.length ≤ isizeMax) (hlen : needle.length ≤ isizeMax)
include hh hn hne hhlen hlen

theorem nextBackTwoWay_advance (hs : RestingBack haystack needle longPeriod s) :
    ∃ r, nextBackTwoWay haystack needle s = some r ∧
      AdvanceBack haystack needle longPeriod s r := by
  have hpos : 0 < needle.length := List.length_pos_iff.mpr hne
  have hinside := hs.good.inside
  unfold nextBackTwoWay
  by_cases hend : s.endPos = 0
  · exact ⟨_, if_pos hend, .done hend⟩
  rw [if_neg hend, hs.good.long]
  obtain ⟨r, hr, hret⟩ := nextBack_returns (S := rejectAndMatch) hs.good.prepared hinside hhlen hlen
    hs.good.remembers
  rw [hr]
  rcases hret with ⟨m, rfl, hm, hnone⟩ | ⟨-, hsearch, hstep, hlt, hin⟩ | ⟨p, rfl, hin, he, ho, -⟩
  · obtain ⟨c, hc, hbc, hcb, -⟩ := boundaryTo_spec haystack (Nat.zero_le haystack.length)
    obtain rfl : c = 0 := by lia
    simp only [rejectAndMatch, some_bind, hc, min_self]
    refine ⟨_, rfl, .reject (by simp only; lia) ⟨goodBack_of_memory hs.good (by lia) hm, hcb⟩ ?_⟩
    intro t _ ht hocc
    exact hnone t ht ((occursAt_iff hpos t).mp hocc).2
  · obtain ⟨step, s'⟩ := r
    obtain ⟨e, m, rfl, hm, hle, hnone⟩ := hsearch
    obtain rfl : step = .Reject e s.endPos := hstep
    simp only at hin hlt
    obtain ⟨c, hc, hbc, hcb, hskip⟩ := boundaryTo_spec haystack (hle.trans hinside)
    simp only [some_bind, hc, min_eq_left hbc]
    refine ⟨_, rfl, .reject (by simp only; lia)
      ⟨goodBack_at_boundary hh hn (goodBack_of_memory hs.good (hle.trans hinside) hm) hin hskip hbc,
        hcb⟩ ?_⟩
    intro t ht htc hocc
    rcases Nat.lt_or_ge e (t+needle.length) with h | h
    · exact hnone t h htc ((occursAt_iff hpos t).mp hocc).2
    · have := (occursAt_boundaries hh hn hne hocc).2
      rw [hskip _ ht h] at this
      simp at this
  · have hocc := (occursAt_iff hpos p).mpr ⟨by lia, ho⟩
    have hfound : p = (setMemoryBack longPeriod needle.length { s with endPos := p }).endPos :=
      (endPos_setMemoryBack longPeriod needle.length { s with endPos := p }).symm
    simp only [rejectAndMatch, some_bind, he rfl]
    refine ⟨_, rfl, ?_⟩
    nth_rewrite 1 [hfound]
    refine .found ?_ ⟨hs.good.after_match (by lia), ?_⟩ ?_
    · rw [← hfound]
      exact he rfl
    · rw [← hfound]
      exact (occursAt_boundaries hh hn hne hocc).1
    · rwa [← hfound]

theorem collect_nextBackTwoWay (fuel : ℕ) (s : TwoWaySearcher)
    (hs : RestingBack haystack needle longPeriod s) (hf : s.endPos < fuel) :
    ∃ steps, collect (untilDone (nextBackTwoWay haystack needle)) fuel s = some steps ∧
      Covers haystack 0 s.endPos steps.reverse ∧
      Rightmost needle haystack s.endPos (steps.filterMap matched) := by
  have hpos : 0 < needle.length := List.length_pos_iff.mpr hne
  induction fuel generalizing s with
  | zero => lia
  | succ fuel ih =>
    obtain ⟨r, hr, hadv⟩ := nextBackTwoWay_advance hh hn hne hhlen hlen hs
    cases hadv with
    | done h =>
      refine ⟨[], collect_of_none (untilDone_eq hr) fuel, ?_, ?_⟩
      · rw [h]
        exact ⟨.nil, by simp⟩
      · exact .nil fun t ht => by lia
    | @reject s' h hs' hnone =>
      obtain ⟨steps, hsteps, hcov, hright⟩ := ih s' hs' (by lia)
      refine ⟨_, collect_of_some (untilDone_eq hr) hsteps,
        hcov.concat (.cons_reject h.le .nil) ⟨hs'.boundary, hs.boundary⟩, ?_⟩
      simpa only [matched, List.filterMap_cons] using rightmost_extend h.le hnone hright
    | @found s' h hs' hocc =>
      obtain ⟨steps, hsteps, hcov, hright⟩ := ih s' hs' (by lia)
      refine ⟨_, collect_of_some (untilDone_eq hr) hsteps,
        hcov.concat (.cons_match (by lia) .nil) ⟨hs'.boundary, hs.boundary⟩, ?_⟩
      simp only [matched, List.filterMap_cons]
      rw [← h]
      exact .cons le_rfl hocc (fun t h1 h2 => by lia) hright

end Backward

section MatchLoop

variable {σ : Type} {next : σ → Option (SearchStep × σ)} {fuel : ℕ} {s : σ} {steps : List SearchStep}

theorem matchLoop_first (h : collect (untilDone next) fuel s = some steps) :
    ∃ o s', matchLoop next fuel s = some (o, s') ∧
      (o = none ∧ steps.filterMap matched = [] ∨
        ∃ m fuel' rest, o = some m ∧ fuel' < fuel ∧
          collect (untilDone next) fuel' s' = some rest ∧
          steps.filterMap matched = m :: rest.filterMap matched) := by
  induction fuel generalizing s steps with
  | zero => simp [collect] at h
  | succ fuel ih =>
    unfold collect untilDone at h
    unfold matchLoop loop
    rcases hs : next s with _ | ⟨step, s'⟩
    · simp [hs] at h
    simp only [hs, Option.map_some] at h ⊢
    cases step with
    | Done =>
      obtain rfl : [] = steps := Option.some.inj h
      exact ⟨none, s', rfl, .inl ⟨rfl, rfl⟩⟩
    | Match a b =>
      obtain ⟨rest, hrest, rfl⟩ := Option.map_eq_some_iff.mp h
      exact ⟨some (a, b), s', rfl, .inr ⟨(a, b), fuel, rest, rfl, by lia, hrest, rfl⟩⟩
    | Reject a b =>
      obtain ⟨rest, hrest, rfl⟩ := Option.map_eq_some_iff.mp h
      obtain ⟨o, s'', hloop, hcase⟩ := ih hrest
      refine ⟨o, s'', hloop, ?_⟩
      rcases hcase with ⟨ho, hm⟩ | ⟨m, fuel', rest', ho, hlt, hc, hm⟩
      · exact .inl ⟨ho, hm⟩
      · exact .inr ⟨m, fuel', rest', ho, by lia, hc, hm⟩

theorem collect_matchLoop (h : collect (untilDone next) fuel s = some steps) {bound : ℕ}
    (hb : fuel ≤ bound) : collect (matchLoop next bound) fuel s = some (steps.filterMap matched) := by
  induction fuel using Nat.strong_induction_on generalizing s steps with
  | _ fuel ih =>
    obtain ⟨o, s', hloop, hcase⟩ := matchLoop_first h
    have hloop' : matchLoop next bound s = some (o, s') := loop_mono hloop hb
    obtain ⟨k, rfl⟩ : ∃ k, fuel = k+1 := by
      rcases fuel with _ | k
      · simp [collect] at h
      · exact ⟨k, rfl⟩
    rcases hcase with ⟨rfl, hm⟩ | ⟨m, fuel', rest, rfl, hlt, hc, hm⟩
    · rw [hm]
      exact collect_of_none hloop' k
    · rw [hm]
      exact collect_of_some hloop'
        (collect_mono (ih fuel' hlt hc (by lia)) (Nat.lt_succ_iff.mp hlt))

end MatchLoop

section EmptyNeedle

variable {haystack : List UInt8} (hh : WellFormed haystack)
include hh

theorem decode_from {pos : ℕ} (hpos : isCharBoundary haystack pos = true) :
    ∃ ch rest, nextCodePoint (haystack.drop pos) = some (ch, rest) ∧
      (ch = none ∧ pos = haystack.length ∨
        ∃ code, ch = some code ∧ 0 < lenUtf8 code ∧
          isCharBoundary haystack (pos+lenUtf8 code) = true) := by
  have hle := ((isCharBoundary_iff hh pos).mp hpos).1
  have hw := wellFormed_drop hh hpos
  generalize hv : haystack.drop pos = v at hw
  cases hw with
  | nil =>
    have := List.drop_eq_nil_iff.mp hv
    exact ⟨none, [], rfl, .inl ⟨rfl, by lia⟩⟩
  | @cons l r hl hr =>
    refine ⟨_, _, nextCodePoint_sequence hl r, .inr ⟨_, rfl, ?_, ?_⟩⟩
    · rw [lenUtf8_codePoint hl]
      exact List.length_pos_iff.mpr hl.ne_nil
    · rw [lenUtf8_codePoint hl]
      refine isCharBoundary_append hh hl.wellFormed hpos ?_
      rw [hv]
      exact List.prefix_append l r

theorem decode_to {pos : ℕ} (hpos : isCharBoundary haystack pos = true) :
    ∃ ch rest, nextCodePointReverse (haystack.take pos) = some (ch, rest) ∧
      (ch = none ∧ pos = 0 ∨
        ∃ code, ch = some code ∧ 0 < lenUtf8 code ∧ lenUtf8 code ≤ pos ∧
          isCharBoundary haystack (pos-lenUtf8 code) = true) := by
  obtain ⟨hle, hw⟩ := (isCharBoundary_iff hh pos).mp hpos
  have hlen : (haystack.take pos).length = pos := List.length_take_of_le hle
  rcases wellFormed_last hw with hv | ⟨r, l, hv, hr, hl⟩
  · rw [hv] at hlen ⊢
    exact ⟨none, [], rfl, .inl ⟨rfl, hlen.symm⟩⟩
  · rw [hv, List.length_append] at hlen
    rw [hv]
    refine ⟨_, _, nextCodePointReverse_sequence hl r, .inr ⟨_, rfl, ?_⟩⟩
    rw [lenUtf8_codePoint hl]
    refine ⟨List.length_pos_iff.mpr hl.ne_nil, by lia,
      (isCharBoundary_iff hh _).mpr ⟨by lia, ?_⟩⟩
    have : haystack.take (pos-l.length) = r := by
      rw [show pos-l.length = min (pos-l.length) pos by lia, ← List.take_take, hv,
        show pos-l.length = r.length by lia, List.take_append_length]
    rwa [this]

theorem collect_nextEmpty (fuel : ℕ) (s : EmptyNeedle)
    (hs : isCharBoundary haystack s.position = true) (hfin : s.isFinished = false)
    (hf : 2*haystack.length+(if s.isMatchFw then 1 else 0) < 2*s.position+fuel) :
    ∃ steps, collect (untilDone (nextEmpty haystack)) fuel s = some steps ∧
      Covers haystack s.position haystack.length steps := by
  induction fuel generalizing s with
  | zero =>
    have := ((isCharBoundary_iff hh _).mp hs).1
    lia
  | succ fuel ih =>
    have hfrom : strFrom haystack s.position = some (haystack.drop s.position) := if_pos hs
    obtain ⟨ch, rest, hcode, hcase⟩ := decode_from hh hs
    cases hm : s.isMatchFw with
    | true =>
      have hr : nextEmpty haystack s =
          some (.Match s.position s.position, { s with isMatchFw := false }) := by
        simp [nextEmpty, hfin, hfrom, hcode, hm]
      obtain ⟨steps, hsteps, hcov⟩ := ih { s with isMatchFw := false } hs hfin
        (by simp only [hm, if_true, Bool.false_eq_true, if_false] at hf ⊢; lia)
      refine ⟨_, collect_of_some (untilDone_eq hr) hsteps, .cons_match le_rfl hcov.tiles, ?_⟩
      simpa [OnBoundaries, hs] using hcov.boundaries
    | false =>
      rcases hcase with ⟨rfl, hend⟩ | ⟨code, rfl, hpos, hb⟩
      · have hr : nextEmpty haystack s =
            some (.Done, { s with isMatchFw := true, isFinished := true }) := by
          simp [nextEmpty, hfin, hfrom, hcode, hm]
        refine ⟨[], collect_of_none (untilDone_eq hr) fuel, ?_⟩
        rw [hend]
        exact ⟨.nil, by simp⟩
      · have hr : nextEmpty haystack s = some (.Reject s.position (s.position+lenUtf8 code),
            { s with isMatchFw := true, position := s.position+lenUtf8 code }) := by
          simp [nextEmpty, hfin, hfrom, hcode, hm]
        obtain ⟨steps, hsteps, hcov⟩ :=
          ih { s with isMatchFw := true, position := s.position+lenUtf8 code } hb hfin
            (by simp only [hm, if_true, Bool.false_eq_true, if_false] at hf ⊢; lia)
        refine ⟨_, collect_of_some (untilDone_eq hr) hsteps,
          .cons_reject (by lia) hcov.tiles, ?_⟩
        simpa [OnBoundaries, hs, hb] using hcov.boundaries

theorem collect_nextBackEmpty (fuel : ℕ) (s : EmptyNeedle)
    (hs : isCharBoundary haystack s.endPos = true) (hfin : s.isFinished = false)
    (hf : 2*s.endPos+(if s.isMatchBw then 1 else 0) < fuel) :
    ∃ steps, collect (untilDone (nextBackEmpty haystack)) fuel s = some steps ∧
      Covers haystack 0 s.endPos steps.reverse := by
  induction fuel generalizing s with
  | zero => lia
  | succ fuel ih =>
    have hto : strTo haystack s.endPos = some (haystack.take s.endPos) := if_pos hs
    obtain ⟨ch, rest, hcode, hcase⟩ := decode_to hh hs
    cases hm : s.isMatchBw with
    | true =>
      have hr : nextBackEmpty haystack s =
          some (.Match s.endPos s.endPos, { s with isMatchBw := false }) := by
        simp [nextBackEmpty, hfin, hto, hcode, hm]
      obtain ⟨steps, hsteps, hcov⟩ := ih { s with isMatchBw := false } hs hfin
        (by simp only [hm, if_true, Bool.false_eq_true, if_false] at hf ⊢; lia)
      exact ⟨_, collect_of_some (untilDone_eq hr) hsteps,
        hcov.concat (.cons_match le_rfl .nil) ⟨hs, hs⟩⟩
    | false =>
      rcases hcase with ⟨rfl, hend⟩ | ⟨code, rfl, hpos, hle, hb⟩
      · have hr : nextBackEmpty haystack s =
            some (.Done, { s with isMatchBw := true, isFinished := true }) := by
          simp [nextBackEmpty, hfin, hto, hcode, hm]
        refine ⟨[], collect_of_none (untilDone_eq hr) fuel, ?_⟩
        rw [hend]
        exact ⟨.nil, by simp⟩
      · have hr : nextBackEmpty haystack s = some (.Reject (s.endPos-lenUtf8 code) s.endPos,
            { s with isMatchBw := true, endPos := s.endPos-lenUtf8 code }) := by
          simp [nextBackEmpty, hfin, hto, hcode, hm]
        obtain ⟨steps, hsteps, hcov⟩ :=
          ih { s with isMatchBw := true, endPos := s.endPos-lenUtf8 code } hb hfin
            (by simp only [hm, if_true, Bool.false_eq_true, if_false] at hf ⊢; lia)
        exact ⟨_, collect_of_some (untilDone_eq hr) hsteps,
          hcov.concat (.cons_reject (by simp) .nil) ⟨hb, hs⟩⟩

end EmptyNeedle

def withEmpty (haystack needle : Str) (s : EmptyNeedle) : StrSearcher :=
  ⟨haystack, needle, .Empty s⟩

def withTwoWay (haystack needle : Str) (s : TwoWaySearcher) : StrSearcher :=
  ⟨haystack, needle, .TwoWay s⟩

section Wrap

variable (haystack needle : Str)

theorem matchLoop_wrap {σ τ : Type} {step : σ → Option (SearchStep × σ)}
    {step' : τ → Option (SearchStep × τ)} (f : σ → τ)
    (h : ∀ s, step' (f s) = (step s).map fun r => (r.1, f r.2)) (bound : ℕ) (s : σ) :
    matchLoop step' bound (f s) = (matchLoop step bound s).map fun r => (r.1, f r.2) := by
  refine loop_wrap f (fun r : Option (ℕ × ℕ) × σ => (r.1, f r.2)) (fun s => ?_) bound s
  rw [h]
  rcases step s with _ | ⟨_ | _ | _, s'⟩ <;> rfl

theorem collect_untilDone_wrap {σ τ : Type} {step : σ → Option (SearchStep × σ)}
    {step' : τ → Option (SearchStep × τ)} (f : σ → τ)
    (h : ∀ s, step' (f s) = (step s).map fun r => (r.1, f r.2)) (fuel : ℕ) (s : σ) :
    collect (untilDone step') fuel (f s) = collect (untilDone step) fuel s := by
  refine collect_wrap f (fun s => ?_) fuel s
  rw [untilDone, h, untilDone]
  cases step s <;> rfl

theorem next_withEmpty (s : EmptyNeedle) : next (withEmpty haystack needle s) =
    (nextEmpty haystack.bytes s).map fun r => (r.1, withEmpty haystack needle r.2) := by
  simp only [next, withEmpty]
  cases nextEmpty haystack.bytes s <;> rfl

theorem nextBack_withEmpty (s : EmptyNeedle) : nextBack (withEmpty haystack needle s) =
    (nextBackEmpty haystack.bytes s).map fun r => (r.1, withEmpty haystack needle r.2) := by
  simp only [nextBack, withEmpty]
  cases nextBackEmpty haystack.bytes s <;> rfl

theorem next_withTwoWay (s : TwoWaySearcher) : next (withTwoWay haystack needle s) =
    (nextTwoWay haystack.bytes needle.bytes s).map
      fun r => (r.1, withTwoWay haystack needle r.2) := by
  simp only [next, withTwoWay]
  cases nextTwoWay haystack.bytes needle.bytes s <;> rfl

theorem nextBack_withTwoWay (s : TwoWaySearcher) : nextBack (withTwoWay haystack needle s) =
    (nextBackTwoWay haystack.bytes needle.bytes s).map
      fun r => (r.1, withTwoWay haystack needle r.2) := by
  simp only [nextBack, withTwoWay]
  cases nextBackTwoWay haystack.bytes needle.bytes s <;> rfl

theorem collect_nextMatch_withTwoWay (fuel : ℕ) (s : TwoWaySearcher) :
    collect nextMatch fuel (withTwoWay haystack needle s) =
      collectMatches haystack.bytes needle.bytes fuel s := by
  refine collect_wrap (withTwoWay haystack needle) (fun s => ?_) fuel s
  simp only [nextMatch, withTwoWay]
  cases TwoWay.next matchOnly haystack.bytes needle.bytes (isLong s) s <;> rfl

theorem collect_nextMatchBack_withTwoWay (fuel : ℕ) (s : TwoWaySearcher) :
    collect nextMatchBack fuel (withTwoWay haystack needle s) =
      collectMatchesBack haystack.bytes needle.bytes fuel s := by
  refine collect_wrap (withTwoWay haystack needle) (fun s => ?_) fuel s
  simp only [nextMatchBack, withTwoWay]
  cases TwoWay.nextBack matchOnly haystack.bytes needle.bytes (isLong s) s <;> rfl

end Wrap

/-- The steps of `next` and the matches of `next_match` from the same state. -/
def Forward (haystack : Str) (s : StrSearcher) : Prop :=
  ∃ steps, collect (untilDone next) (callBound haystack.bytes) s = some steps ∧
    Covers haystack.bytes 0 haystack.bytes.length steps ∧
    collect nextMatch (callBound haystack.bytes) s = some (steps.filterMap matched)

def Backward (haystack : Str) (s : StrSearcher) : Prop :=
  ∃ steps, collect (untilDone nextBack) (callBound haystack.bytes) s = some steps ∧
    Covers haystack.bytes 0 haystack.bytes.length steps.reverse ∧
    collect nextMatchBack (callBound haystack.bytes) s = some (steps.filterMap matched)

theorem empty_forward (haystack needle : Str) (s : EmptyNeedle)
    (hs : s = ⟨0, haystack.bytes.length, true, true, false⟩) :
    Forward haystack (withEmpty haystack needle s) := by
  obtain ⟨steps, hsteps, hcov⟩ := collect_nextEmpty haystack.wellFormed (callBound haystack.bytes) s
    (by rw [hs]; rfl) (by rw [hs]) (by simp only [hs, if_true, callBound]; lia)
  refine ⟨steps, ?_, by simpa [hs] using hcov, ?_⟩
  · rw [collect_untilDone_wrap _ (next_withEmpty haystack needle), hsteps]
  · rw [← collect_matchLoop hsteps le_rfl]
    refine collect_wrap (withEmpty haystack needle) (fun s => ?_) _ _
    exact matchLoop_wrap _ (next_withEmpty haystack needle) _ s

theorem empty_backward (haystack needle : Str) (s : EmptyNeedle)
    (hs : s = ⟨0, haystack.bytes.length, true, true, false⟩) :
    Backward haystack (withEmpty haystack needle s) := by
  obtain ⟨steps, hsteps, hcov⟩ := collect_nextBackEmpty haystack.wellFormed
    (callBound haystack.bytes) s (by rw [hs]; exact isCharBoundary_length haystack.wellFormed)
    (by rw [hs]) (by simp only [hs, if_true, callBound]; lia)
  refine ⟨steps, ?_, by simpa [hs] using hcov, ?_⟩
  · rw [collect_untilDone_wrap _ (nextBack_withEmpty haystack needle), hsteps]
  · rw [← collect_matchLoop hsteps le_rfl]
    refine collect_wrap (withEmpty haystack needle) (fun s => ?_) _ _
    exact matchLoop_wrap _ (nextBack_withEmpty haystack needle) _ s

section Fresh

variable {haystack needle : Str} {longPeriod : Bool} {s : TwoWaySearcher}
  (hf : Fresh needle.bytes haystack.bytes.length longPeriod s) (hne : needle.bytes ≠ [])
include hf hne

theorem twoWay_forward : Forward haystack (withTwoWay haystack needle s) := by
  have hg : Good haystack.bytes needle.bytes longPeriod s := hf.good (List.length_pos_iff.mpr hne)
  have hp := hf.position
  obtain ⟨steps, hsteps, hcov, hleft⟩ := collect_nextTwoWay haystack.wellFormed needle.wellFormed
    hne needle.len_le (callBound haystack.bytes) s ⟨hg, by lia, by rw [hp]; rfl⟩
    (by unfold callBound; lia)
  obtain ⟨ms, hms, hleft'⟩ := collectMatches_leftmost (callBound haystack.bytes) s hg (by lia)
    (by unfold callBound; lia)
  refine ⟨steps, ?_, by rwa [hp] at hcov, ?_⟩
  · rw [collect_untilDone_wrap _ (next_withTwoWay haystack needle), hsteps]
  · rw [collect_nextMatch_withTwoWay, hms, leftmost_unique hleft hleft']

theorem twoWay_backward : Backward haystack (withTwoWay haystack needle s) := by
  have hg : GoodBack haystack.bytes needle.bytes longPeriod s :=
    hf.goodBack (List.length_pos_iff.mpr hne)
  have hp := hf.endPos
  obtain ⟨steps, hsteps, hcov, hright⟩ := collect_nextBackTwoWay haystack.wellFormed
    needle.wellFormed hne haystack.len_le needle.len_le (callBound haystack.bytes) s
    ⟨hg, by rw [hp]; exact isCharBoundary_length haystack.wellFormed⟩ (by unfold callBound; lia)
  obtain ⟨ms, hms, hright'⟩ := collectMatchesBack_rightmost haystack.len_le needle.len_le
    (callBound haystack.bytes) s hg (by unfold callBound; lia)
  refine ⟨steps, ?_, by rwa [hp] at hcov, ?_⟩
  · rw [collect_untilDone_wrap _ (nextBack_withTwoWay haystack needle), hsteps]
  · rw [collect_nextMatchBack_withTwoWay, hms, rightmost_unique hright hright']

end Fresh

/-- The contract of the `Searcher` trait: from a fresh searcher the steps of
`next` cover the haystack on char boundaries, their matches are what `next_match`
finds, and the same holds from the right. -/
theorem strSearcher_steps (haystack needle : Str) :
    ∃ s, new haystack needle = some s ∧ Forward haystack s ∧ Backward haystack s := by
  by_cases hne : needle.bytes = []
  · refine ⟨withEmpty haystack needle ⟨0, haystack.bytes.length, true, true, false⟩, ?_,
      empty_forward haystack needle _ rfl, empty_backward haystack needle _ rfl⟩
    simp [new, hne, withEmpty]
  · obtain ⟨longPeriod, s, hs, hf⟩ := new_fresh needle.bytes haystack.bytes.length
      (List.length_pos_iff.mpr hne)
    refine ⟨withTwoWay haystack needle s, ?_, twoWay_forward hf hne, twoWay_backward hf hne⟩
    simp [new, hne, hs, withTwoWay]

end RustStd.Pattern
