import RustStd.Lib.Pieces
import RustStd.Str.CharSearcher

/-!
# Splitting strings

`split`, `split_terminator` and `split_inclusive` share one iterator, which
keeps the part of the haystack between `start` and `end`. Its searcher looks at
the same part; only the separator that ends an inclusive piece at the back has
been searched already. `pieces` gives the pieces that are left, and a trailing
empty piece is dropped by whichever end meets it first, so calls at both ends,
in any order, give the same pieces.
-/

set_option autoImplicit false

namespace RustStd.StrSplit
open RustStd.Loop RustStd.DoubleEnded RustStd.Pieces RustStd.Utf8Grammar RustStd.Chars
open RustStd.CharMethods RustStd.StrIter RustStd.CharPattern

def getUnchecked (s : List UInt8) (a b : ℕ) : Option (List UInt8) :=
  if a ≤ b ∧ isCharBoundary s a ∧ isCharBoundary s b then some ((s.take b).drop a) else none

structure SplitInternal (τ : Type) where
  start : ℕ
  end_ : ℕ
  matcher : τ
  allowTrailingEmpty : Bool
  finished : Bool

namespace SplitInternal

variable {τ : Type} (S : Searcher τ)

def getEnd (self : SplitInternal τ) : Option (Option (List UInt8) × SplitInternal τ) :=
  if self.finished then some (none, self)
  else
    let self := { self with finished := true }
    if self.allowTrailingEmpty ∨ self.end_-self.start > 0 then do
      let string ← getUnchecked (S.haystack self.matcher) self.start self.end_
      return (some string, self)
    else some (none, self)

/-- `next` and `next_inclusive`, which take a piece up to the one or the other end of
the match. -/
def nextPiece (cut : ℕ × ℕ → ℕ) (self : SplitInternal τ) :
    Option (Option (List UInt8) × SplitInternal τ) :=
  if self.finished then some (none, self)
  else do
    let haystack := S.haystack self.matcher
    match ← S.nextMatch self.matcher with
    | (some (a, b), matcher) =>
      let elt ← getUnchecked haystack self.start (cut (a, b))
      return (some elt, { self with start := b, matcher })
    | (none, matcher) => getEnd S { self with matcher }

def next : SplitInternal τ → Option (Option (List UInt8) × SplitInternal τ) :=
  nextPiece S fun (a, _) => a

def nextInclusive : SplitInternal τ → Option (Option (List UInt8) × SplitInternal τ) :=
  nextPiece S fun (_, b) => b

/-- The search from the back. A piece starts behind the match; the match itself is left
out of the rest or kept. -/
def searchBack (cut : ℕ × ℕ → ℕ) (self : SplitInternal τ) :
    Option (Option (List UInt8) × SplitInternal τ) := do
  let haystack := S.haystack self.matcher
  match ← S.nextMatchBack self.matcher with
  | (some (a, b), matcher) =>
    let elt ← getUnchecked haystack b self.end_
    return (some elt, { self with end_ := cut (a, b), matcher })
  | (none, matcher) =>
    let elt ← getUnchecked haystack self.start self.end_
    return (some elt, { self with finished := true, matcher })

/-- `next_back` and `next_back_inclusive`. The call that they make of themselves finds
`allow_trailing_empty` set, and only searches. -/
def nextBackPiece (cut : ℕ × ℕ → ℕ) (self : SplitInternal τ) :
    Option (Option (List UInt8) × SplitInternal τ) :=
  if self.finished then some (none, self)
  else if self.allowTrailingEmpty then searchBack S cut self
  else do
    let (r, self) ← searchBack S cut { self with allowTrailingEmpty := true }
    match r with
    | some (x :: elt) => return (some (x :: elt), self)
    | _ =>
      if self.finished then return (none, self)
      else searchBack S cut self

def nextBack : SplitInternal τ → Option (Option (List UInt8) × SplitInternal τ) :=
  nextBackPiece S fun (a, _) => a

def nextBackInclusive : SplitInternal τ → Option (Option (List UInt8) × SplitInternal τ) :=
  nextBackPiece S fun (_, b) => b

end SplitInternal

def split {τ : Type} (s : List UInt8) (matcher : τ) : SplitInternal τ :=
  { start := 0, end_ := s.length, matcher, allowTrailingEmpty := true, finished := false }

def splitTerminator {τ : Type} (s : List UInt8) (matcher : τ) : SplitInternal τ :=
  { split s matcher with allowTrailingEmpty := false }

def splitInclusive {τ : Type} (s : List UInt8) (matcher : τ) : SplitInternal τ :=
  { start := 0, end_ := s.length, matcher, allowTrailingEmpty := false, finished := false }

theorem isCharBoundary_size (xs ys : List Char) :
    isCharBoundary (encoded (xs ++ ys)) (size xs) = true := by
  rw [isCharBoundary_iff (encoded_wellFormed _)]
  refine ⟨size_le_of_isPrefix (List.prefix_append ..), ?_⟩
  rw [encoded_append, size, List.take_left]
  exact encoded_wellFormed xs

def slice (s : List UInt8) (m : ℕ × ℕ) : List UInt8 := (s.take m.2).drop m.1

theorem slice_encoded (xs ys zs : List Char) :
    slice (encoded (xs ++ ys ++ zs)) (size xs, size (xs ++ ys)) = encoded ys := by
  rw [slice, encoded_append (xs ++ ys) zs]
  unfold size
  rw [List.take_left, encoded_append, List.drop_left]

theorem getUnchecked_encoded (xs ys zs : List Char) :
    getUnchecked (encoded (xs ++ ys ++ zs)) (size xs) (size (xs ++ ys)) = some (encoded ys) := by
  have hx : isCharBoundary (encoded (xs ++ ys ++ zs)) (size xs) = true := by
    rw [List.append_assoc]
    exact isCharBoundary_size ..
  have hle := size_le_of_isPrefix (List.prefix_append xs ys)
  rw [getUnchecked, if_pos ⟨hle, hx, isCharBoundary_size ..⟩]
  exact congrArg some (slice_encoded xs ys zs)

theorem encoded_eq_nil_iff {cs : List Char} : encoded cs = [] ↔ cs = [] := by
  refine ⟨fun h => ?_, fun h => by rw [h]; rfl⟩
  exact encoded_injective h

/-- How much of the match a piece keeps, as chars and as an index. -/
structure Keeps (sep : Char → List Char) (cut : ℕ × ℕ → ℕ) : Prop where
  sep_append : ∀ c, ∃ r, [c] = sep c ++ r
  cut_eq : ∀ xs c, cut (size xs, size (xs ++ [c])) = size (xs ++ sep c)

theorem keeps_none : Keeps (fun _ => []) fun (a, _) => a :=
  ⟨fun c => ⟨[c], rfl⟩, fun xs c => by simp⟩

theorem keeps_match : Keeps (fun c => [c]) fun (_, b) => b :=
  ⟨fun _ => ⟨[], rfl⟩, fun _ _ => rfl⟩

namespace SplitInternal

variable {τ : Type} {S : Searcher τ} {p : Char → Bool}
  {W : τ → List Char → List Char → List Char → Prop}
  {sep : Char → List Char} {cut : ℕ × ℕ → ℕ} {s : SplitInternal τ} {b ds tail a : List Char}

/-- The iterator has not finished: the chars `ds` are still searched, and `tail` ends the
last piece. -/
structure Live (W : τ → List Char → List Char → List Char → Prop) (s : SplitInternal τ)
    (b ds tail a : List Char) : Prop where
  matcher : W s.matcher b ds (tail ++ a)
  start : s.start = size b
  end_ : s.end_ = size (b ++ ds ++ tail)
  finished : s.finished = false

def Left (p : Char → Bool) (sep : Char → List Char)
    (W : τ → List Char → List Char → List Char → Prop) (s : SplitInternal τ)
    (l : List (List UInt8)) : Prop :=
  (s.finished = true ∧ l = []) ∨
  ∃ b ds tail a, Live W s b ds tail a ∧
    l = (trim s.allowTrailingEmpty (pieces p sep tail ds)).map encoded

theorem Live.searchBack (hS : Searches S p W) (hK : Keeps sep cut) (h : Live W s b ds tail a) :
    ∃ x l s', pieces p sep tail ds = l ++ [x] ∧
      SplitInternal.searchBack S cut s = some (some (encoded x), s') ∧
      s'.allowTrailingEmpty = s.allowTrailingEmpty ∧
      (s'.finished = true ∧ l = [] ∨
        ∃ ds' tail' a', Live W s' b ds' tail' a' ∧ l = pieces p sep tail' ds') := by
  have hhay := hS.haystack _ _ _ _ h.matcher
  unfold SplitInternal.searchBack
  rcases exists_last p ds with hds | ⟨us, c, vs, rfl, hvs, hc⟩
  · obtain ⟨t', ht, -⟩ := hS.back_none _ _ _ _ h.matcher hds
    have hget : getUnchecked (S.haystack s.matcher) s.start s.end_ = some (encoded (ds ++ tail)) := by
      have := getUnchecked_encoded b (ds ++ tail) a
      rw [hhay, h.start, h.end_]
      simpa using this
    refine ⟨ds ++ tail, [], { s with finished := true, matcher := t' }, pieces_none hds, ?_, rfl,
      .inl ⟨rfl, rfl⟩⟩
    simp [ht, hget]
  · obtain ⟨t', ht, hW⟩ := hS.back_some _ _ _ _ _ _ h.matcher hvs hc
    obtain ⟨r, hr⟩ := hK.sep_append c
    have hget : getUnchecked (S.haystack s.matcher) (size (b ++ us ++ [c])) s.end_ =
        some (encoded (vs ++ tail)) := by
      have := getUnchecked_encoded (b ++ us ++ [c]) (vs ++ tail) a
      rw [hhay, h.end_]
      simpa using this
    refine ⟨vs ++ tail, pieces p sep (sep c) us,
      { s with end_ := size (b ++ us ++ sep c), matcher := t' }, pieces_last hvs hc, ?_, rfl,
      .inr ⟨us, sep c, r ++ vs ++ tail ++ a, ?_, rfl⟩⟩
    · simp only [ht, some_bind, hget, hK.cut_eq]
      rfl
    · refine ⟨?_, h.start, rfl, h.finished⟩
      have happ : c :: vs ++ (tail ++ a) = sep c ++ (r ++ vs ++ tail ++ a) := by
        rw [← List.singleton_append, hr]
        simp
      rw [← happ]
      exact hW

theorem left_of_search {l : List (List Char)} (hflag : s.allowTrailingEmpty = true)
    (h : s.finished = true ∧ l = [] ∨
      ∃ ds tail a, Live W s b ds tail a ∧ l = pieces p sep tail ds) :
    Left p sep W s (l.map encoded) := by
  rcases h with ⟨hfin, rfl⟩ | ⟨ds, tail, a, hlive, rfl⟩
  · exact .inl ⟨hfin, rfl⟩
  · exact .inr ⟨b, ds, tail, a, hlive, by rw [hflag, trim_true]⟩

theorem Live.nextPiece (hS : Searches S p W) (hK : Keeps sep cut) (h : Live W s b ds tail a) :
    (∃ x l s', trim s.allowTrailingEmpty (pieces p sep tail ds) = x :: l ∧
      SplitInternal.nextPiece S cut s = some (some (encoded x), s') ∧
      Left p sep W s' (l.map encoded)) ∨
    (trim s.allowTrailingEmpty (pieces p sep tail ds) = [] ∧
      ∃ s', SplitInternal.nextPiece S cut s = some (none, s') ∧ s'.finished = true) := by
  have hhay := hS.haystack _ _ _ _ h.matcher
  unfold SplitInternal.nextPiece
  rw [if_neg (by simp [h.finished])]
  rcases exists_first p ds with hds | ⟨us, c, vs, rfl, hus, hc⟩
  · obtain ⟨t', ht, hh⟩ := hS.next_none _ _ _ _ h.matcher hds
    have hget : getUnchecked (S.haystack t') s.start s.end_ = some (encoded (ds ++ tail)) := by
      have := getUnchecked_encoded b (ds ++ tail) a
      rw [hh, hhay, h.start, h.end_]
      simpa using this
    have hend : s.end_-s.start = size (ds ++ tail) := by
      rw [h.start, h.end_, List.append_assoc, size_append b]
      omega
    have hpos : s.end_-s.start > 0 ↔ ¬ (ds ++ tail).isEmpty = true := by
      rw [hend, gt_iff_lt, size, List.length_pos_iff, ne_eq, encoded_eq_nil_iff, List.isEmpty_iff]
    rw [pieces_none hds, trim_singleton]
    simp only [ht, some_bind, SplitInternal.getEnd, h.finished,
      Bool.false_eq_true, if_false, hpos]
    split_ifs with hkeep
    · left
      refine ⟨ds ++ tail, [], { s with finished := true, matcher := t' }, rfl, ?_, .inl ⟨rfl, rfl⟩⟩
      rw [hget]
      rfl
    · right
      exact ⟨rfl, { s with finished := true, matcher := t' }, rfl, rfl⟩
  · obtain ⟨t', ht, hW⟩ := hS.next_some _ _ _ _ _ _ h.matcher hus hc
    obtain ⟨r, hr⟩ := hK.sep_append c
    have hget : getUnchecked (S.haystack s.matcher) s.start (size (b ++ us ++ sep c)) =
        some (encoded (us ++ sep c)) := by
      have happ : us ++ c :: vs = us ++ sep c ++ (r ++ vs) := by
        rw [← List.singleton_append, hr]
        simp
      have := getUnchecked_encoded b (us ++ sep c) (r ++ vs ++ (tail ++ a))
      rw [hhay, happ, h.start]
      simpa using this
    left
    rw [pieces_first hus hc, trim_cons _ _ (pieces_ne_nil p sep tail vs)]
    refine ⟨us ++ sep c, _, { s with start := size (b ++ us ++ [c]), matcher := t' }, rfl, ?_, .inr
      ⟨b ++ us ++ [c], vs, tail, a, ⟨hW, rfl, ?_, h.finished⟩, rfl⟩⟩
    · simp only [ht, some_bind, hK.cut_eq, hget]
      rfl
    · rw [h.end_]
      simp

theorem Live.nextBackPiece (hS : Searches S p W) (hK : Keeps sep cut)
    (h : Live W s b ds tail a) :
    (∃ x l s', trim s.allowTrailingEmpty (pieces p sep tail ds) = l ++ [x] ∧
      SplitInternal.nextBackPiece S cut s = some (some (encoded x), s') ∧
      Left p sep W s' (l.map encoded)) ∨
    (trim s.allowTrailingEmpty (pieces p sep tail ds) = [] ∧
      ∃ s', SplitInternal.nextBackPiece S cut s = some (none, s') ∧ s'.finished = true) := by
  unfold SplitInternal.nextBackPiece
  rw [if_neg (by simp [h.finished])]
  cases hflag : s.allowTrailingEmpty with
  | true =>
    obtain ⟨x, l, s', hx, hs', hflag', hl⟩ := h.searchBack hS hK
    left
    rw [trim_true, if_pos rfl]
    exact ⟨x, l, s', hx, hs', left_of_search (hflag'.trans hflag) hl⟩
  | false =>
    have h₁ : Live W { s with allowTrailingEmpty := true } b ds tail a :=
      ⟨h.matcher, h.start, h.end_, h.finished⟩
    obtain ⟨x, l, s', hx, hs', hflag', hl⟩ := h₁.searchBack hS hK
    rw [if_neg (by simp), hx, trim_false_concat, hs']
    cases x with
    | cons c x =>
      left
      obtain ⟨y, ys, hy⟩ := List.exists_cons_of_ne_nil (mt encoded_eq_nil_iff.mp (List.cons_ne_nil c x))
      refine ⟨c :: x, l, s', rfl, ?_, left_of_search hflag' hl⟩
      rw [hy]
      rfl
    | nil =>
      rcases hl with ⟨hfin, rfl⟩ | ⟨ds', tail', a', h₂, rfl⟩
      · right
        refine ⟨rfl, s', ?_, hfin⟩
        simp [encoded, hfin]
      · obtain ⟨x₂, l₂, s₂, hx₂, hs₂, hflag₂, hl₂⟩ := h₂.searchBack hS hK
        left
        refine ⟨x₂, l₂, s₂, hx₂, ?_, left_of_search (hflag₂.trans hflag') hl₂⟩
        simp [encoded, h₂.finished, hs₂]

theorem holds (hS : Searches S p W) (hK : Keeps sep cut) :
    Holds (SplitInternal.nextPiece S cut) (SplitInternal.nextBackPiece S cut) (Left p sep W) where
  next_nil := by
    rintro s (⟨hfin, -⟩ | ⟨b, ds, tail, a, h, hl⟩)
    · exact ⟨s, by simp [SplitInternal.nextPiece, hfin], .inl ⟨hfin, rfl⟩⟩
    · rcases h.nextPiece hS hK with ⟨x, l, s', hx, -, -⟩ | ⟨-, s', hs', hfin⟩
      · simp [hx] at hl
      · exact ⟨s', hs', .inl ⟨hfin, rfl⟩⟩
  next_cons := by
    rintro s y ys (⟨-, hl⟩ | ⟨b, ds, tail, a, h, hl⟩)
    · cases hl
    · rcases h.nextPiece hS hK with ⟨x, l, s', hx, hs', hleft⟩ | ⟨hnil, -⟩
      · rw [hx, List.map_cons] at hl
        obtain ⟨rfl, rfl⟩ := List.cons.inj hl
        exact ⟨s', hs', hleft⟩
      · simp [hnil] at hl
  back_nil := by
    rintro s (⟨hfin, -⟩ | ⟨b, ds, tail, a, h, hl⟩)
    · exact ⟨s, by simp [SplitInternal.nextBackPiece, hfin], .inl ⟨hfin, rfl⟩⟩
    · rcases h.nextBackPiece hS hK with ⟨x, l, s', hx, -, -⟩ | ⟨-, s', hs', hfin⟩
      · simp [hx] at hl
      · exact ⟨s', hs', .inl ⟨hfin, rfl⟩⟩
  back_concat := by
    rintro s y ys (⟨-, hl⟩ | ⟨b, ds, tail, a, h, hl⟩)
    · simp at hl
    · rcases h.nextBackPiece hS hK with ⟨x, l, s', hx, hs', hleft⟩ | ⟨hnil, -⟩
      · rw [hx, List.map_append] at hl
        obtain ⟨rfl, hy⟩ := List.append_inj' hl rfl
        obtain rfl : y = encoded x := by simpa using hy
        exact ⟨s', hs', hleft⟩
      · simp [hnil] at hl

end SplitInternal

section Laws

variable {τ : Type} {S : Searcher τ} {p : Char → Bool}
  {W : τ → List Char → List Char → List Char → Prop}

theorem collect_nextMatch (hS : Searches S p W) {fuel : ℕ} {t : τ} {b ds a : List Char}
    (h : W t b ds a) (hf : ds.length < fuel) :
    ∃ ms, collect S.nextMatch fuel t = some ms ∧
      ms.map (slice (encoded (b ++ ds ++ a))) = (ds.filter p).map fun c => encoded [c] := by
  induction fuel generalizing t b ds with
  | zero => omega
  | succ fuel ih =>
    rcases exists_first p ds with hds | ⟨us, c, vs, rfl, hus, hc⟩
    · obtain ⟨t', ht, -⟩ := hS.next_none _ _ _ _ h hds
      refine ⟨[], collect_of_none ht fuel, ?_⟩
      rw [List.filter_eq_nil_iff.mpr (by simpa using hds)]
      rfl
    · obtain ⟨t', ht, hW⟩ := hS.next_some _ _ _ _ _ _ h hus hc
      obtain ⟨ms, hms, hslices⟩ := ih hW (by simp at hf; omega)
      refine ⟨_, collect_of_some ht hms, ?_⟩
      have hfilter : (us ++ c :: vs).filter p = c :: vs.filter p := by
        rw [List.filter_append, List.filter_eq_nil_iff.mpr (by simpa using hus),
          List.filter_cons_of_pos hc, List.nil_append]
      have happ : b ++ (us ++ c :: vs) ++ a = b ++ us ++ [c] ++ vs ++ a := by simp
      rw [hfilter, List.map_cons, List.map_cons, ← hslices, happ, List.append_assoc _ vs a,
        slice_encoded]

theorem flatten_encoded (l : List (List Char)) : (l.map encoded).flatten = encoded l.flatten := by
  induction l with
  | nil => rfl
  | cons x l ih => simp [encoded_append, ih]

theorem weave_encoded (ps seps : List (List Char)) :
    weave (ps.map encoded) (seps.map encoded) = encoded (weave ps seps) := by
  induction ps generalizing seps with
  | nil => simp [weave, encoded]
  | cons x ps ih =>
    cases seps with
    | nil => simpa [weave] using flatten_encoded (x :: ps)
    | cons y seps => simp [weave, encoded_append, ih]

/-- Calls at both ends, in any order, give what calls of `next` alone give. -/
def Agrees {σ : Type} (next nextBack : σ → Option (Option (List UInt8) × σ)) (fuel : ℕ) (s : σ)
    (l : List (List UInt8)) : Prop :=
  collect next fuel s = some l ∧
  ∀ ends, ∃ fs bs s' rest, drive next nextBack ends s = some (fs, bs, s') ∧
    collect next fuel s' = some rest ∧ fs ++ rest ++ bs.reverse = l ∧
    (l.length ≤ ends.length → fs ++ bs.reverse = l)

theorem agrees_of_holds {σ : Type} {next nextBack : σ → Option (Option (List UInt8) × σ)}
    {R : σ → List (List UInt8) → Prop} (h : Holds next nextBack R) {fuel : ℕ} {s : σ}
    {l : List (List UInt8)} (hs : R s l) (hf : l.length < fuel) : Agrees next nextBack fuel s l := by
  refine ⟨collect_of_holds h hs hf, fun ends => ?_⟩
  obtain ⟨fs, bs, s', rest, hd, hs', he, hr⟩ := drive_rest h ends s l hs
  refine ⟨fs, bs, s', rest, hd, collect_of_holds h hs' (by omega), he.symm, fun hle => ?_⟩
  have hnil : rest = [] := List.eq_nil_of_length_eq_zero (by omega)
  simp [he, hnil]

/-- What the three iterators over a string give, for the searcher `t` of a pattern that
matches the chars of `p`. -/
def SplitLaws (S : Searcher τ) (p : Char → Bool) (s : List UInt8) (t : τ) : Prop :=
  ∃ ps ts is ms cs,
    Agrees (SplitInternal.next S) (SplitInternal.nextBack S) (s.length+2) (split s t) ps ∧
    Agrees (SplitInternal.next S) (SplitInternal.nextBack S) (s.length+2) (splitTerminator s t) ts ∧
    Agrees (SplitInternal.nextInclusive S) (SplitInternal.nextBackInclusive S) (s.length+2)
      (splitInclusive s t) is ∧
    collect S.nextMatch (s.length+2) t = some ms ∧ ps.length = ms.length+1 ∧
    encoded cs = s ∧ ms.map (slice s) = (cs.filter p).map (fun c => encoded [c]) ∧
    weave ps (ms.map (slice s)) = s ∧ is.flatten = s

theorem splitLaws_of_searches (hS : Searches S p W) {t : τ} {cs : List Char} (h : W t [] cs []) :
    SplitLaws S p (encoded cs) t := by
  have hlen := length_le_size cs
  obtain ⟨ms, hms, hslices⟩ := collect_nextMatch hS h (show cs.length < size cs+2 by omega)
  rw [List.nil_append, List.append_nil] at hslices
  have hlive : ∀ allow, SplitInternal.Live W
      ⟨0, size cs, t, allow, false⟩ [] cs [] [] :=
    fun allow => ⟨h, rfl, by simp, rfl⟩
  have hfuel : ∀ allow (sep : Char → List Char),
      ((trim allow (pieces p sep [] cs)).map encoded).length < (encoded cs).length+2 := by
    intro allow sep
    have h₁ := length_trim_le allow (pieces p sep [] cs)
    have h₂ := length_pieces_le p sep [] cs
    rw [List.length_map]
    unfold size at hlen
    omega
  have hagrees : ∀ allow sep cut, Keeps sep cut →
      Agrees (SplitInternal.nextPiece S cut) (SplitInternal.nextBackPiece S cut)
        ((encoded cs).length+2) ⟨0, size cs, t, allow, false⟩
        ((trim allow (pieces p sep [] cs)).map encoded) := by
    intro allow sep cut hK
    exact agrees_of_holds (SplitInternal.holds hS hK) (.inr ⟨_, _, _, _, hlive allow, rfl⟩)
      (hfuel allow sep)
  refine ⟨_, _, _, ms, cs, hagrees true _ _ keeps_none, hagrees false _ _ keeps_none,
    hagrees false _ _ keeps_match, hms, ?_, rfl, hslices, ?_, ?_⟩
  · have := congrArg List.length hslices
    simp only [List.length_map] at this
    rw [List.length_map, trim_true, length_pieces, this]
  · have hseps : ((cs.filter p).map fun c => encoded [c]) =
        ((cs.filter p).map fun c => [c]).map encoded := by simp
    rw [hslices, trim_true, hseps, weave_encoded, weave_pieces, List.append_nil]
  · rw [flatten_encoded, flatten_trim, flatten_pieces, List.append_nil]

end Laws

/-- Splitting a string by a char or by a predicate on chars: for every order of calls at
the two ends the pieces are those of the front alone, the pieces of `split` with the
matches between them make up the string, and so do the pieces of `split_inclusive`. -/
theorem split_doubleEnded (s : Str) :
    (∀ needle, ∃ t, intoSearcher needle s.bytes = some t ∧
      SplitLaws CharSearcher.searcher (· == needle) s.bytes t) ∧
    ∀ charEq, SplitLaws MultiCharEqSearcher.searcher charEq s.bytes
      (intoMultiCharEqSearcher charEq s.bytes) := by
  obtain ⟨cs, hcs⟩ := exists_encoded s.wellFormed
  rw [← hcs]
  refine ⟨fun needle => ?_, fun charEq => ?_⟩
  · obtain ⟨t, ht, hW⟩ := intoSearcher_window needle cs
    exact ⟨t, ht, splitLaws_of_searches (CharSearcher.searches needle) hW⟩
  · exact splitLaws_of_searches (MultiCharEqSearcher.searches charEq)
      (MultiCharEqSearcher.intoSearcher_window charEq cs)

end RustStd.StrSplit
