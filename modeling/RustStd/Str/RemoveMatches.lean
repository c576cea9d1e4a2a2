import RustStd.Str.Retain

/-!
# `String::remove_matches`

The matches are collected before anything moves; `none` is a panic of the searcher. Then the
pieces between the matches are moved to the front, each by all that was removed before it.
-/

set_option autoImplicit false

namespace RustStd.StringEdits
open RustStd.Loop RustStd.Unwind RustStd.Utf8Grammar RustStd.Chars RustStd.StrIter
open RustStd.CharPattern RustStd.Vec
open RustStd.Rotate (readBlock writeBlock copy)

variable {τ : Type}

def rejectionsStep (nextMatch : τ → Option (Option (ℕ × ℕ) × τ)) :
    τ × ℕ × List (ℕ × ℕ) → Option ((τ × ℕ × List (ℕ × ℕ)) ⊕ (List (ℕ × ℕ) × ℕ))
  | (searcher, front, rejections) => do
    let (found, searcher) ← nextMatch searcher
    match found with
    | none => return .inr (rejections, front)
    | some (start, stop) => return .inl (searcher, stop, rejections ++ [(front, start)])

def moveRejection : List UInt8 × ℕ → ℕ × ℕ → Option (List UInt8 × ℕ)
  | (bytes, len), (start, stop) => do
    let count ← Checked.sub stop start
    if start ≠ len then
      let bytes ← copy bytes start len count
      return (bytes, len+count)
    else return (bytes, len+count)

def removeMatches (nextMatch : τ → Option (Option (ℕ × ℕ) × τ)) (fuel : ℕ) (searcher : τ)
    (s : Buffer) : Option Buffer := do
  let (rejections, front) ← loop (rejectionsStep nextMatch) fuel (searcher, 0, [])
  let (bytes, len) ← (rejections ++ [(front, s.len)]).foldlM moveRejection (s.bytes, 0)
  return { bytes, len }

/-- From `front` on the matches are disjoint, ascending and at char boundaries. -/
def Ascending (s : List UInt8) : ℕ → List (ℕ × ℕ) → Prop
  | _, [] => True
  | front, (start, stop) :: ms => front ≤ start ∧ start ≤ stop ∧
      isCharBoundary s start = true ∧ isCharBoundary s stop = true ∧ Ascending s stop ms

/-- The pieces of the string between the matches, from `front` on. -/
def between (s : List UInt8) : ℕ → List (ℕ × ℕ) → List (List UInt8)
  | front, [] => [s.drop front]
  | front, (start, stop) :: ms => (s.take start).drop front :: between s stop ms

section Rejections

variable {nextMatch : τ → Option (Option (ℕ × ℕ) × τ)}

def rejected : ℕ → List (ℕ × ℕ) → List (ℕ × ℕ)
  | _, [] => []
  | front, (start, stop) :: ms => (front, start) :: rejected stop ms

def lastFront : ℕ → List (ℕ × ℕ) → ℕ
  | front, [] => front
  | _, (_, stop) :: ms => lastFront stop ms

theorem rejections_collect {fuel : ℕ} {searcher : τ} {ms : List (ℕ × ℕ)}
    (h : collect nextMatch fuel searcher = some ms) (front : ℕ) (acc : List (ℕ × ℕ)) :
    loop (rejectionsStep nextMatch) fuel (searcher, front, acc) =
      some (acc ++ rejected front ms, lastFront front ms) := by
  induction fuel generalizing searcher front acc ms with
  | zero => cases h
  | succ fuel ih =>
    rw [collect] at h
    rcases hn : nextMatch searcher with _ | ⟨_ | ⟨start, stop⟩, searcher'⟩
    · simp [hn] at h
    · obtain rfl : ms = [] := by simpa [hn] using h.symm
      simp [loop, rejectionsStep, hn, rejected, lastFront]
    · rw [hn] at h
      obtain ⟨ms', hms, rfl⟩ := Option.map_eq_some_iff.mp h
      have hrest := ih hms stop (acc ++ [(front, start)])
      simpa [loop, rejectionsStep, hn, rejected, lastFront] using hrest

end Rejections

section Moves

variable {s out junk piece tail : List UInt8} {front : ℕ} {ms : List (ℕ × ℕ)}

theorem moveRejection_gap (out junk piece tail : List UInt8) (stop : ℕ)
    (hstop : stop = out.length+junk.length+piece.length) :
    ∃ junk', junk'.length = junk.length ∧
      moveRejection (out ++ junk ++ piece ++ tail, out.length) (out.length+junk.length, stop) =
        some (out ++ piece ++ junk' ++ tail, (out ++ piece).length) := by
  have hcount : Checked.sub stop (out.length+junk.length) = some piece.length := by
    rw [hstop, Checked.sub, if_pos (Nat.le_add_right ..), Nat.add_sub_cancel_left]
  have hlen : out.length+piece.length = (out ++ piece).length := List.length_append.symm
  obtain ⟨junk', hjunk, hwrite⟩ := writeBlock_gap out junk piece tail
  have hread : readBlock (out ++ junk ++ piece ++ tail) (out.length+junk.length) piece.length =
      some piece := Rotate.readBlock_append (by simp) rfl
  by_cases hnil : junk = []
  · refine ⟨[], by rw [hnil], ?_⟩
    rw [moveRejection, hcount, ← hlen, hnil]
    simp
  · have hne : out.length+junk.length ≠ out.length := by
      have hpos := List.length_pos_of_ne_nil hnil
      omega
    refine ⟨junk', hjunk, ?_⟩
    rw [moveRejection, hcount, ← hlen]
    simp only [some_bind, if_pos hne, copy, hread, hwrite]
    rfl

theorem drop_split {start : ℕ} (h : front ≤ start) :
    s.drop front = (s.take start).drop front ++ s.drop start := by
  obtain ⟨k, rfl⟩ := Nat.exists_eq_add_of_le h
  rw [List.drop_take, Nat.add_sub_cancel_left, ← List.drop_drop, List.take_append_drop]

theorem moveRejections_gap (h : Ascending s front ms) (hs : WellFormed s) (hfront : front ≤ s.length)
    (hgap : out.length+junk.length = front) :
    ∃ junk', (rejected front ms ++ [(lastFront front ms, s.length)]).foldlM moveRejection
      (out ++ junk ++ s.drop front, out.length) =
        some (out ++ (between s front ms).flatten ++ junk',
          (out ++ (between s front ms).flatten).length) := by
  induction ms generalizing out junk front with
  | nil =>
    obtain ⟨junk', -, hmove⟩ := moveRejection_gap out junk (s.drop front) [] s.length (by
      rw [hgap, List.length_drop]
      omega)
    have hflat : (between s front []).flatten = s.drop front := List.append_nil _
    refine ⟨junk', ?_⟩
    simp only [List.append_nil, hgap] at hmove
    rw [hflat, ← hmove, rejected, lastFront, List.nil_append, List.foldlM_cons]
    simp only [List.foldlM_nil, bind_pure]
  | cons m ms ih =>
    obtain ⟨start, stop⟩ := m
    obtain ⟨hstart, hstop, -, hb, hrest⟩ := h
    have hle := ((isCharBoundary_iff hs stop).mp hb).1
    have hsplit : s.drop front =
        (s.take start).drop front ++ ((s.take stop).drop start ++ s.drop stop) := by
      rw [← drop_split hstop, ← drop_split hstart]
    obtain ⟨junk', hlen, hmove⟩ := moveRejection_gap out junk
      ((s.take start).drop front) ((s.take stop).drop start ++ s.drop stop) start (by
      rw [hgap, List.length_drop, List.length_take]
      omega)
    have hgap' : (out ++ (s.take start).drop front).length +
        (junk' ++ (s.take stop).drop start).length = stop := by
      simp only [List.length_append, List.length_drop, List.length_take, hlen]
      omega
    obtain ⟨junk'', hrun⟩ := ih hrest hle hgap'
    have hflat : (between s front ((start, stop) :: ms)).flatten =
        (s.take start).drop front ++ (between s stop ms).flatten := rfl
    refine ⟨junk'', ?_⟩
    rw [hgap, ← List.append_assoc] at hmove
    rw [hsplit, hflat, rejected, lastFront, List.cons_append, List.foldlM_cons, ← List.append_assoc,
      ← List.append_assoc, hmove, some_bind]
    rw [← List.append_assoc out, ← hrun]
    simp only [List.append_assoc]

end Moves

theorem between_wellFormed {s : List UInt8} {front : ℕ} {ms : List (ℕ × ℕ)} (hs : WellFormed s)
    (hfront : isCharBoundary s front = true) (h : Ascending s front ms) :
    WellFormed (between s front ms).flatten := by
  induction ms generalizing front with
  | nil =>
    have hflat : (between s front []).flatten = s.drop front := List.append_nil _
    rw [hflat]
    exact Pattern.wellFormed_drop hs hfront
  | cons m ms ih =>
    obtain ⟨start, stop⟩ := m
    obtain ⟨hstart, -, ha, hb, hrest⟩ := h
    obtain ⟨hle, htake⟩ := (isCharBoundary_iff hs start).mp ha
    have hpiece : isCharBoundary (s.take start) front = true := by
      rw [isCharBoundary_iff htake, List.take_take, Nat.min_eq_left hstart, List.length_take]
      exact ⟨by omega, ((isCharBoundary_iff hs front).mp hfront).2⟩
    exact (Pattern.wellFormed_drop htake hpiece).append (ih hb hrest)

theorem removeMatches_between {nextMatch : τ → Option (Option (ℕ × ℕ) × τ)} {fuel : ℕ}
    {searcher : τ} {ms : List (ℕ × ℕ)} {s : List UInt8} (hs : WellFormed s)
    (hms : collect nextMatch fuel searcher = some ms) (h : Ascending s 0 ms) :
    ∃ b, removeMatches nextMatch fuel searcher (Buffer.of s) = some b ∧
      b.str = (between s 0 ms).flatten := by
  obtain ⟨junk, hmove⟩ := moveRejections_gap (s := s) h hs (Nat.zero_le _)
    (show ([] : List UInt8).length+([] : List UInt8).length = 0 from rfl)
  simp only [List.nil_append, List.drop_zero, List.length_nil] at hmove
  refine ⟨⟨(between s 0 ms).flatten ++ junk, (between s 0 ms).flatten.length⟩, ?_, List.take_left⟩
  rw [removeMatches, rejections_collect hms, List.nil_append]
  simp only [some_bind, Buffer.of, hmove]
  rfl

/-- `retain` keeps the chars for which the predicate says so, up to the call that unwinds, and
`remove_matches` keeps the pieces between the matches; what they leave is a text. -/
theorem retain_removeMatches (s : Str) :
    (∀ {ε σ : Type} (f : CharPredicate ε σ) (st : σ), ∃ p rest st₁ r st₂ b,
      s.bytes = encoded (p.map (·.1) ++ rest) ∧ Calls f st p st₁ ∧ Stops f st₁ rest r st₂ ∧
      retain f (Buffer.of s.bytes) st = (r.mapError .unwind, b, st₂) ∧
      b.str = encoded (kept p) ∧ WellFormed b.str) ∧
    ∀ {τ : Type} (nextMatch : τ → Option (Option (ℕ × ℕ) × τ)) (fuel : ℕ) (searcher : τ)
      (ms : List (ℕ × ℕ)), collect nextMatch fuel searcher = some ms → Ascending s.bytes 0 ms →
      ∃ b, removeMatches nextMatch fuel searcher (Buffer.of s.bytes) = some b ∧
        b.str = (between s.bytes 0 ms).flatten ∧ WellFormed b.str := by
  constructor
  · intro ε σ f st
    obtain ⟨cs, hcs⟩ := exists_encoded s.wellFormed
    obtain ⟨p, rest, st₁, r, st₂, b, hsplit, hcalls, hstops, hrun, hb⟩ := retain_run f cs st
    rw [← hcs]
    refine ⟨p, rest, st₁, r, st₂, b, by rw [hsplit], hcalls, hstops, hrun, hb, ?_⟩
    rw [hb]
    exact encoded_wellFormed _
  · intro τ nextMatch fuel searcher ms hms hasc
    obtain ⟨b, hrun, hb⟩ := removeMatches_between s.wellFormed hms hasc
    refine ⟨b, hrun, hb, ?_⟩
    rw [hb]
    exact between_wellFormed s.wellFormed rfl hasc

theorem retain_removeMatches_a :
    ∃ b, removeMatches CharSearcher.searcher.nextMatch 8 ⟨encoded ['ß', 'a', 'é', 'a'], 0, 6, 'a', 1,
        [97, 0, 0, 0]⟩ (Buffer.of (encoded ['ß', 'a', 'é', 'a'])) = some b ∧
      b.str = (between (encoded ['ß', 'a', 'é', 'a']) 0 [(2, 3), (5, 6)]).flatten ∧
      WellFormed b.str :=
  (retain_removeMatches ⟨encoded ['ß', 'a', 'é', 'a'], encoded_wellFormed _, by decide⟩).2
    CharSearcher.searcher.nextMatch 8 _ [(2, 3), (5, 6)] (by decide)
    ⟨by decide, by decide, by decide, by decide, by decide, by decide, by decide, by decide, trivial⟩

/-! ## Patterns that match chars -/

section Chars

variable {S : Searcher τ} {p : Char → Bool} {W : τ → List Char → List Char → List Char → Prop}

/-- The matches of a pattern of chars ascend, and between them are the other chars. -/
theorem searches_between (hS : Searches S p W) {fuel : ℕ} {t : τ} {b ds a : List Char}
    (h : W t b ds a) (hf : ds.length < fuel) :
    ∃ ms, collect S.nextMatch fuel t = some ms ∧ Ascending (encoded (b ++ ds ++ a)) (size b) ms ∧
      (between (encoded (b ++ ds ++ a)) (size b) ms).flatten =
        encoded (ds.filter (fun c => !p c) ++ a) := by
  induction fuel generalizing t b ds with
  | zero => omega
  | succ fuel ih =>
    rcases Pieces.exists_first p ds with hds | ⟨us, c, vs, rfl, hus, hc⟩
    · obtain ⟨t', ht, -⟩ := hS.next_none _ _ _ _ h hds
      have hfilter : ds.filter (fun c => !p c) = ds := by
        rw [List.filter_eq_self]
        intro u hu
        simp [hds u hu]
      refine ⟨[], collect_of_none ht fuel, trivial, ?_⟩
      rw [between, hfilter, List.append_assoc, encoded_append, size, List.drop_left]
      exact List.append_nil _
    · obtain ⟨t', ht, hW⟩ := hS.next_some _ _ _ _ _ _ h hus hc
      obtain ⟨ms, hms, hasc, hbetween⟩ := ih hW (by simp at hf; omega)
      have happ : b ++ (us ++ c :: vs) ++ a = b ++ us ++ [c] ++ vs ++ a := by simp
      have hfilter : (us ++ c :: vs).filter (fun c => !p c) = us ++ vs.filter (fun c => !p c) := by
        have hself : us.filter (fun c => !p c) = us := by
          rw [List.filter_eq_self]
          intro u hu
          simp [hus u hu]
        rw [List.filter_append, hself, List.filter_cons_of_neg (by simp [hc])]
      have hbound : ∀ xs ys : List Char, xs ++ ys = b ++ us ++ [c] ++ vs ++ a →
          isCharBoundary (encoded (b ++ us ++ [c] ++ vs ++ a)) (size xs) = true := by
        rintro xs ys h
        rw [← h]
        exact StrSplit.isCharBoundary_size xs ys
      refine ⟨_, collect_of_some ht hms, ?_, ?_⟩
      · rw [happ]
        refine ⟨size_le_of_isPrefix (List.prefix_append ..), size_le_of_isPrefix
          (List.prefix_append ..), hbound (b ++ us) ([c] ++ vs ++ a) (by simp), hbound
          (b ++ us ++ [c]) (vs ++ a) (by simp), hasc⟩
      · have hpiece : ((encoded (b ++ us ++ [c] ++ vs ++ a)).take (size (b ++ us))).drop (size b) =
            encoded us := by
          have h := StrSplit.slice_encoded b us ([c] ++ vs ++ a)
          rw [← List.append_assoc, ← List.append_assoc] at h
          exact h
        rw [happ, between, List.flatten_cons, hpiece, hbetween, hfilter, List.append_assoc,
          encoded_append us]

theorem removeMatches_of_searches (hS : Searches S p W) {t : τ} {cs : List Char} (h : W t [] cs []) :
    ∃ b, removeMatches S.nextMatch (cs.length+1) t (Buffer.of (encoded cs)) = some b ∧
      b.str = encoded (cs.filter fun c => !p c) := by
  obtain ⟨ms, hms, hasc, hbetween⟩ := searches_between hS h (Nat.lt_succ_self _)
  rw [List.nil_append, List.append_nil] at hasc hbetween
  obtain ⟨b, hrun, hb⟩ := removeMatches_between (encoded_wellFormed cs) hms hasc
  refine ⟨b, hrun, ?_⟩
  rw [List.append_nil] at hbetween
  rw [hb]
  exact hbetween

theorem removeMatches_chars (cs : List Char) :
    (∀ needle, ∃ t b, intoSearcher needle (encoded cs) = some t ∧
      removeMatches CharSearcher.searcher.nextMatch (cs.length+1) t (Buffer.of (encoded cs)) = some b ∧
      b.str = encoded (cs.filter fun c => !(c == needle))) ∧
    ∀ charEq, ∃ b, removeMatches MultiCharEqSearcher.searcher.nextMatch (cs.length+1)
        (intoMultiCharEqSearcher charEq (encoded cs)) (Buffer.of (encoded cs)) = some b ∧
      b.str = encoded (cs.filter fun c => !charEq c) := by
  constructor
  · intro needle
    obtain ⟨t, ht, hW⟩ := intoSearcher_window needle cs
    obtain ⟨b, hrun, hb⟩ := removeMatches_of_searches (CharSearcher.searches needle) hW
    exact ⟨t, b, ht, hrun, hb⟩
  · intro charEq
    exact removeMatches_of_searches (MultiCharEqSearcher.searches charEq)
      (MultiCharEqSearcher.intoSearcher_window charEq cs)

end Chars

end RustStd.StringEdits
