import RustStd.Lib.Machine
import RustStd.Path.WindowsComponents

/-!
# The components left under the Windows rules

Behind the prefix there may be a root, or a `.` if there is no prefix, and then
the pieces between the separators. As long as the path does not start with a
drive and a `.` behind it, both ends of `Components` take components off this
list. On such a path the front skips the `.`, while the back keeps it out of the
body and so hands it over as a part of the prefix.
-/

set_option autoImplicit false

namespace RustStd.WindowsPath
open RustStd.Loop RustStd.DoubleEnded RustStd.Pieces
open RustStd.Path (State rposition)
open Components

/-- The components between the separators. -/
def bodyComps (sep : UInt8 → Bool) (verbatim : Bool) (l : List UInt8) : List Component :=
  (pieces sep (fun _ => []) [] l).filterMap (parseSingleComponent verbatim)

section Body

variable {sep : UInt8 → Bool} {verbatim : Bool} {l us vs : List UInt8} {x : UInt8}

@[simp] theorem bodyComps_nil : bodyComps sep verbatim [] = [] := rfl

theorem bodyComps_free (h : ∀ u ∈ us, sep u = false) :
    bodyComps sep verbatim us = (parseSingleComponent verbatim us).toList := by
  rw [bodyComps, pieces_none h, List.append_nil]
  cases hp : parseSingleComponent verbatim us <;> simp [hp]

theorem bodyComps_first (h : ∀ u ∈ us, sep u = false) (hx : sep x = true) :
    bodyComps sep verbatim (us++x::vs) =
      (parseSingleComponent verbatim us).toList++bodyComps sep verbatim vs := by
  rw [bodyComps, pieces_first h hx, List.append_nil]
  cases hp : parseSingleComponent verbatim us <;> simp [hp, bodyComps]

theorem bodyComps_last (h : ∀ v ∈ vs, sep v = false) (hx : sep x = true) :
    bodyComps sep verbatim (us++x::vs) =
      bodyComps sep verbatim us++(parseSingleComponent verbatim vs).toList := by
  rw [bodyComps, pieces_last h hx, List.append_nil, List.filterMap_append]
  cases hp : parseSingleComponent verbatim vs <;> simp [hp, bodyComps]

theorem rposition_free (h : ∀ u ∈ us, sep u = false) : rposition sep us = none := by
  rw [rposition, findIdx_free (by simpa using h)]
  rfl

theorem rposition_last (h : ∀ v ∈ vs, sep v = false) (hx : sep x = true) :
    rposition sep (us++x::vs) = some us.length := by
  have hr : (us++x::vs).reverse = vs.reverse++x::us.reverse := by simp
  rw [rposition, hr, findIdx_sep (by simpa using h) hx]
  simp

end Body

variable {c : Components}

/-- What is left behind the prefix. -/
def rest (c : Components) : List UInt8 := c.path.drop c.prefixRemaining

def headComps (c : Components) : List Component :=
  if c.front = .atPrefix then
    (c.pre.map fun p => Component.atPrefix (c.path.take c.prefixLen) p).toList
  else []

def startComp (c : Components) : Option Component :=
  if c.hasPhysicalRoot then some .rootDir
  else
    match c.pre with
    | some p => if p.hasImplicitRoot && !p.isVerbatim then some .rootDir else none
    | none => if startsWithDot c.isSep (rest c) then some .curDir else none

/-- How many bytes the root or the `.` takes. -/
def startLen (c : Components) : ℕ :=
  if c.hasPhysicalRoot then 1
  else if c.pre = none ∧ startsWithDot c.isSep (rest c) then 1
  else 0

def body (c : Components) (l : List UInt8) : List Component := bodyComps c.isSep c.prefixVerbatim l

/-- The path still has its start. -/
structure Sound (c : Components) : Prop where
  fits : c.prefixRemaining ≤ c.path.length
  rooted : c.hasPhysicalRoot = (rest c).head?.any isSepByte
  /-- A drive without a root is not followed by a `.`. -/
  noDot : c.pre ≠ none → c.hasRoot = false → startsWithDot c.isSep (rest c) = false

/-- `c` has the components `l` left. The front is at the prefix, at the start or in
the body; the back is in the body, at the start or at the prefix. -/
inductive Left : Components → List Component → Prop
  | whole (c : Components) (hs : Sound c) (hf : c.front.rank ≤ 1) (hb : c.back = .body) :
      Left c (headComps c++(startComp c).toList++body c ((rest c).drop (startLen c)))
  | body (c : Components) (hf : c.front = .body) (hb : c.back = .body) :
      Left c (body c c.path)
  | start (c : Components) (hs : Sound c) (hf : c.front.rank ≤ 1) (hb : c.back = .startDir)
      (hl : (rest c).length = startLen c) : Left c (headComps c++(startComp c).toList)
  | head (c : Components) (hf : c.front = .atPrefix) (hb : c.back = .atPrefix)
      (hl : c.path.length = c.prefixLen) : Left c (headComps c)
  | done (c : Components) (h : c.finished) : Left c []

theorem startsWithDot_ne_nil {sep : UInt8 → Bool} {l : List UInt8} (h : startsWithDot sep l) :
    1 ≤ l.length := by
  cases l with
  | nil => cases h
  | cons x l => simp

theorem Sound.startLen_le (h : Sound c) : startLen c ≤ (rest c).length := by
  unfold startLen
  split_ifs with hroot hdot
  · rw [h.rooted] at hroot
    cases hr : rest c with
    | nil => rw [hr] at hroot; cases hroot
    | cons x l => simp
  · exact startsWithDot_ne_nil hdot.2
  · exact Nat.zero_le _

theorem rest_length (c : Components) : (rest c).length = c.path.length-c.prefixRemaining :=
  List.length_drop ..

theorem includeCurDir_eq (hfits : c.prefixRemaining ≤ c.path.length) :
    c.includeCurDir = some (!c.hasRoot && startsWithDot c.isSep (rest c)) := by
  unfold includeCurDir
  split_ifs with h
  · rw [h]
    rfl
  · rw [sliceFrom_eq hfits]
    simp [h, rest]

theorem hasRoot_of_none (h : c.pre = none) : c.hasRoot = c.hasPhysicalRoot := by
  simp [hasRoot, h]

theorem Sound.lenBeforeBody (h : Sound c) (hf : c.front.rank ≤ 1) :
    c.lenBeforeBody = some (c.prefixRemaining+startLen c) := by
  have hle : c.front.rank ≤ State.startDir.rank := hf
  have hdot : (!c.hasRoot && startsWithDot c.isSep (rest c)) =
      (!c.hasPhysicalRoot && decide (c.pre = none) && startsWithDot c.isSep (rest c)) := by
    by_cases hpre : c.pre = none
    · rw [hasRoot_of_none hpre]
      simp [hpre]
    · cases hroot : c.hasRoot with
      | true => simp [hpre]
      | false => simp [hpre, h.noDot hpre hroot]
  unfold Components.lenBeforeBody
  rw [if_pos hle, includeCurDir_eq h.fits, hdot]
  unfold startLen
  cases c.hasPhysicalRoot with
  | true => simp [hle]
  | false => by_cases hpre : c.pre = none <;> simp [hpre]

theorem lenBeforeBody_body (hf : c.front = .body) : c.lenBeforeBody = some 0 := by
  simp [Components.lenBeforeBody, hf, State.rank, prefixRemaining]

section Cut

variable {sep : UInt8 → Bool} {l : List UInt8} {n : ℕ}

theorem startsWithDot_cut {x : UInt8} {b : List UInt8} (hn : l.take n ≠ [])
    (h : l = l.take n++x::b) (hx : sep x = true) :
    startsWithDot sep (l.take n) = startsWithDot sep l := by
  conv_rhs => rw [h]
  rcases hl : l.take n with _ | ⟨y, _ | ⟨z, t⟩⟩
  · exact absurd hl hn
  · by_cases hy : y = 46
    · simp [startsWithDot, hy, hx]
    · simp [startsWithDot, hy]
  · by_cases hy : y = 46
    · simp [startsWithDot, hy]
    · simp [startsWithDot, hy]

theorem head_take (hn : 1 ≤ n) : (l.take n).head? = l.head? := by
  cases l with
  | nil => simp
  | cons x l =>
    obtain ⟨k, rfl⟩ : ∃ k, n = k+1 := ⟨n-1, by omega⟩
    simp

theorem startsWithDot_root (h : l.head?.any isSepByte) : startsWithDot sep l = false := by
  cases l with
  | nil => rfl
  | cons x l =>
    have hx : x ≠ 46 := by
      rintro rfl
      exact absurd h (by simp [isSepByte])
    simp [startsWithDot, hx]

theorem startsWithDot_take_one (h : startsWithDot sep l) : startsWithDot sep (l.take 1) := by
  cases l with
  | nil => exact h
  | cons x l =>
    by_cases hx : x = 46
    · simp [startsWithDot, hx]
    · simp [startsWithDot, hx] at h

end Cut

theorem isSepByte_of_isSep {b : UInt8} (h : c.isSep b = true) : isSepByte b = true := by
  unfold isSep at h
  split_ifs at h
  · simp only [isVerbatimSep, beq_iff_eq] at h
    simp [isSepByte, h]
  · exact h

section Start

theorem start_branches {c c' e : Components} {d : Option Components} {cur : Option Bool}
    (hcur : c.pre = none → c.hasPhysicalRoot = false → cur = some (startsWithDot c.isSep (rest c)))
    (hd : startLen c = 1 → d = some c') (he : startLen c = 0 → e = c') :
    (if c.hasPhysicalRoot then d.map fun s => Sum.inr (some .rootDir, s)
      else
        match c.pre with
        | some p =>
          if p.hasImplicitRoot && !p.isVerbatim then some (Sum.inr (some .rootDir, e))
          else some (Sum.inl e)
        | none => do
          if ← cur then d.map fun s => Sum.inr (some .curDir, s)
          else some (Sum.inl e)) =
      some (match startComp c with
        | some x => Sum.inr (some x, c')
        | none => Sum.inl c') := by
  unfold startComp
  unfold startLen at hd he
  cases hroot : c.hasPhysicalRoot with
  | true =>
    rw [hroot, if_pos rfl] at hd
    simp [hd rfl]
  | false =>
    simp only [hroot, Bool.false_eq_true, if_false] at hd he ⊢
    cases hp : c.pre with
    | some p =>
      have heq : e = c' := he (by simp [hp])
      simp only [heq]
      split_ifs <;> rfl
    | none =>
      rw [hcur hp hroot]
      cases hdot : startsWithDot c.isSep (rest c) with
      | true => simp [hd (by simp [hp, hdot])]
      | false => simp [he (by simp [hdot])]

end Start

section Parse

theorem parseNextComponent_spec (hf : c.front = .body) (h : c.path ≠ []) :
    ∃ n x, c.parseNextComponent = some (n, x) ∧ 0 < n ∧ n ≤ c.path.length ∧
      body c c.path = x.toList++body c (c.path.drop n) := by
  have hpos := List.length_pos_iff.mpr h
  rcases exists_first c.isSep c.path with hs | ⟨us, x, vs, he, hus, hx⟩
  · refine ⟨c.path.length, parseSingleComponent c.prefixVerbatim c.path, ?_, hpos, le_rfl, ?_⟩
    · simp [Components.parseNextComponent, hf, findIdx_free hs]
    · rw [body, body, bodyComps_free hs]
      simp
  · refine ⟨us.length+1, parseSingleComponent c.prefixVerbatim us, ?_, by omega, ?_, ?_⟩
    · rw [Components.parseNextComponent, if_pos hf, he, findIdx_sep hus hx]
      simp
    · simp [he]
    · rw [he, body, body, bodyComps_first hus hx]
      simp

theorem parseNextComponentBack_spec {k : ℕ} (hb : c.back = .body) (hk : c.lenBeforeBody = some k)
    (h : k < c.path.length) :
    ∃ m x, c.parseNextComponentBack = some (c.path.length-m, x) ∧ k ≤ m ∧ m < c.path.length ∧
      body c (c.path.drop k) = body c ((c.path.take m).drop k)++x.toList ∧
      (m = k ∨ ∃ x b, c.path = c.path.take m++x::b ∧ c.isSep x = true) := by
  rcases exists_last c.isSep (c.path.drop k) with hs | ⟨us, x, vs, he, hvs, hx⟩
  · refine ⟨k, parseSingleComponent c.prefixVerbatim (c.path.drop k), ?_, le_rfl, h, ?_, .inl rfl⟩
    · simp [Components.parseNextComponentBack, hb, hk, sliceFrom_eq h.le, rposition_free hs]
    · rw [body, body, bodyComps_free hs, List.drop_take]
      simp
  · have hp : c.path = c.path.take k++(us++x::vs) := by rw [← he, List.take_append_drop]
    have hl : c.path.length = k+us.length+(vs.length+1) := by
      have := congrArg List.length hp
      simp only [List.length_append, List.length_take, List.length_cons] at this
      omega
    have hd : c.path.drop (k+us.length+1) = vs := by
      rw [add_assoc, ← List.drop_drop, he]
      simp
    have ht : c.path.take (k+us.length) = c.path.take k++us := by
      rw [List.take_add, he]
      simp
    refine ⟨k+us.length, parseSingleComponent c.prefixVerbatim vs, ?_, by omega, by omega, ?_,
      .inr ⟨x, vs, ?_, hx⟩⟩
    · have hn : c.path.length-(k+us.length) = vs.length+1 := by omega
      have hle : k+us.length+1 ≤ c.path.length := by omega
      simp [Components.parseNextComponentBack, hb, hk, sliceFrom_eq h.le, he, rposition_last hvs hx,
        sliceFrom_eq hle, hd, hn]
    · have hdk : (c.path.take k++us).drop k = us := by
        rw [List.drop_append_of_le_length (by simp; omega)]
        simp
      rw [he, ht, hdk, body, body, bodyComps_last hvs hx]
    · rw [ht, List.append_assoc]
      exact hp

end Parse

def frontMeasure (c : Components) : ℕ := c.path.length+(3-c.front.rank)

def backMeasure (c : Components) : ℕ := c.path.length+c.back.rank

/-- A round of `next` keeps the components left, or yields the first of them. -/
def NextRound (l : List Component) (r : Option Component × Components) : Prop :=
  r.1 = l.head? ∧ Left r.2 l.tail

/-- A round of `next_back` keeps the components left, or yields the last of them. -/
def NextBackRound (l : List Component) (r : Option Component × Components) : Prop :=
  r.1 = l.getLast? ∧ Left r.2 l.dropLast

theorem dropFront_eq {n : ℕ} (h : n ≤ c.path.length) :
    c.dropFront n = some { c with path := c.path.drop n } := by
  rw [dropFront, sliceFrom_eq h]
  rfl

theorem dropBack_eq {m : ℕ} (h : m ≤ c.path.length) :
    c.dropBack (c.path.length-m) = some { c with path := c.path.take m } := by
  rw [dropBack, if_pos (Nat.sub_le _ _), Nat.sub_sub_self h]

theorem not_finished (hf : c.front.rank ≤ c.back.rank) (hb : c.back.rank ≤ 2) :
    c.finished = false := by
  have h₂ : c.back ≠ .done := fun h => by rw [h] at hb; exact absurd hb (by decide)
  have h₁ : c.front ≠ .done := fun h => by
    rw [h] at hf
    exact absurd (hf.trans hb) (by decide)
  simp [finished, h₁, h₂, hf]

section Front

/-- The front behind the prefix. -/
def passPrefix (c : Components) : Components :=
  { c with front := .startDir, path := c.path.drop c.prefixLen }

/-- The front behind the start. -/
def passStart (c : Components) : Components :=
  { c with front := .body, path := c.path.drop (startLen c) }

theorem rest_passPrefix (hf : c.front = .atPrefix) : rest (passPrefix c) = rest c := by
  simp [rest, passPrefix, prefixRemaining, hf]

theorem rest_startDir (hf : c.front = .startDir) : rest c = c.path := by
  simp [rest, prefixRemaining, hf]

theorem headComps_startDir (hf : c.front = .startDir) : headComps c = [] := by
  simp [headComps, hf]

theorem startComp_passPrefix (hf : c.front = .atPrefix) :
    startComp (passPrefix c) = startComp c := by
  unfold startComp
  rw [rest_passPrefix hf]
  rfl

theorem startLen_passPrefix (hf : c.front = .atPrefix) : startLen (passPrefix c) = startLen c := by
  unfold startLen
  rw [rest_passPrefix hf]
  rfl

theorem Sound.passPrefix (h : Sound c) (hf : c.front = .atPrefix) : Sound (passPrefix c) where
  fits := Nat.zero_le _
  rooted := by
    rw [rest_passPrefix hf]
    exact h.rooted
  noDot := by
    rw [rest_passPrefix hf]
    exact h.noDot

theorem prefixLen_of_none (h : c.pre = none) : c.prefixLen = 0 := by simp [prefixLen, h]

theorem prefixLen_of_some {p : Prefix} (h : c.pre = some p) : c.prefixLen = p.len := by
  simp [prefixLen, h]

theorem nextStep_atPrefix (hs : c.prefixRemaining ≤ c.path.length) (hf : c.front = .atPrefix) (hn : c.finished = false) :
    c.nextStep = some (match c.pre with
      | some p => .inr (some (.atPrefix (c.path.take c.prefixLen) p), passPrefix c)
      | none => .inl (passPrefix c)) := by
  rw [nextStep, hn, if_neg Bool.false_ne_true, hf]
  have hfits : c.prefixLen ≤ c.path.length := by
    rwa [prefixRemaining, if_pos hf] at hs
  cases hp : c.pre with
  | none => simp [prefixLen_of_none hp, passPrefix, hp]
  | some p =>
    have hpos : 0 < c.prefixLen := by rw [prefixLen_of_some hp]; exact p.len_pos
    simp [hpos, sliceTo_eq hfits, dropFront, sliceFrom_eq hfits, hp, passPrefix]

theorem nextStep_startDir (hs : Sound c) (hf : c.front = .startDir) (hn : c.finished = false) :
    c.nextStep = some (match startComp c with
      | some x => .inr (some x, passStart c)
      | none => .inl (passStart c)) := by
  rw [nextStep, hn, if_neg Bool.false_ne_true, hf]
  have hcur : c.pre = none → c.hasPhysicalRoot = false →
      { c with front := .body }.includeCurDir = some (startsWithDot c.isSep (rest c)) := by
    intro hp hroot
    have hrest : rest { c with front := .body } = rest c := by simp [rest, prefixRemaining, hf]
    have hno : { c with front := .body }.hasRoot = false := by simp [hasRoot, hp, hroot]
    rw [includeCurDir_eq (by simp [prefixRemaining]), hrest, hno]
    rfl
  have hdrop : startLen c = 1 → { c with front := .body }.dropFront 1 = some (passStart c) := by
    intro hone
    have hle := hs.startLen_le
    rw [rest_startDir hf, hone] at hle
    rw [dropFront_eq (by exact hle), passStart, hone]
  exact start_branches hcur hdrop fun hzero => by simp [passStart, hzero]

theorem nextStep_body (hf : c.front = .body) (hb : c.back = .body) :
    ∃ r, c.nextStep = some r ∧ Round (fun c' => Left c' (body c c.path)) frontMeasure
      (NextRound (body c c.path)) c r := by
  have hn : c.finished = false := not_finished (by rw [hf, hb]) (by rw [hb]; decide)
  rw [nextStep, hn, if_neg Bool.false_ne_true, hf]
  dsimp only
  by_cases hp : c.path = []
  · refine ⟨.inl { c with front := .done }, by simp [hp], ?_, ?_⟩
    · rw [hp]
      exact .done _ (by simp [finished])
    · simp [frontMeasure, hf, State.rank]
  · obtain ⟨n, x, hparse, hpos, hle, he⟩ := parseNextComponent_spec hf hp
    rw [if_neg (by simpa using hp), hparse]
    simp only [some_bind, dropFront_eq hle]
    have hl : Left { c with path := c.path.drop n } (body c (c.path.drop n)) :=
      .body { c with path := c.path.drop n } hf hb
    refine ⟨_, rfl, ?_⟩
    cases x with
    | none =>
      refine ⟨by simpa [he] using hl, ?_⟩
      simp only [frontMeasure, List.length_drop]
      omega
    | some x =>
      rw [he]
      exact ⟨rfl, by simpa using hl⟩

theorem nextStep_head {l : List Component} (hs : c.prefixRemaining ≤ c.path.length)
    (hf : c.front = .atPrefix) (hn : c.finished = false) (hl : Left (passPrefix c) l) :
    ∃ r, c.nextStep = some r ∧ Round (fun c' => Left c' (headComps c++l)) frontMeasure
      (NextRound (headComps c++l)) c r := by
  refine ⟨_, nextStep_atPrefix hs hf hn, ?_⟩
  rw [headComps, if_pos hf]
  cases hp : c.pre with
  | none =>
    refine ⟨hl, ?_⟩
    simp only [frontMeasure, passPrefix, List.length_drop, hf, State.rank]
    omega
  | some p => exact ⟨rfl, hl⟩

theorem nextStep_start {l : List Component} (hs : Sound c) (hf : c.front = .startDir)
    (hn : c.finished = false) (hl : Left (passStart c) l) :
    ∃ r, c.nextStep = some r ∧ Round (fun c' => Left c' ((startComp c).toList++l)) frontMeasure
      (NextRound ((startComp c).toList++l)) c r := by
  refine ⟨_, nextStep_startDir hs hf hn, ?_⟩
  cases startComp c with
  | none =>
    refine ⟨hl, ?_⟩
    simp only [frontMeasure, passStart, List.length_drop, hf, State.rank]
    omega
  | some x => exact ⟨rfl, hl⟩

theorem start_of_rank (hf : c.front.rank ≤ 1) : c.front = .atPrefix ∨ c.front = .startDir := by
  cases hfr : c.front with
  | atPrefix => exact .inl rfl
  | startDir => exact .inr rfl
  | body => rw [hfr] at hf; exact absurd hf (by decide)
  | done => rw [hfr] at hf; exact absurd hf (by decide)

theorem nextStep_spec (l : List Component) (c : Components) (h : Left c l) :
    ∃ r, c.nextStep = some r ∧ Round (fun c' => Left c' l) frontMeasure (NextRound l) c r := by
  cases h with
  | whole hs hf hb =>
    have hn : c.finished = false :=
      not_finished (by rw [hb]; exact hf.trans (by decide)) (by rw [hb]; decide)
    rcases start_of_rank hf with hfr | hfr
    · have hl := Left.whole (passPrefix c) (hs.passPrefix hfr) (le_refl 1) hb
      rw [headComps_startDir rfl, startComp_passPrefix hfr, startLen_passPrefix hfr,
        rest_passPrefix hfr, List.nil_append] at hl
      rw [List.append_assoc]
      exact nextStep_head hs.fits hfr hn hl
    · rw [headComps_startDir hfr, rest_startDir hfr, List.nil_append]
      exact nextStep_start hs hfr hn (.body (passStart c) rfl hb)
  | body hf hb => exact nextStep_body hf hb
  | start hs hf hb hlen =>
    have hn : c.finished = false := not_finished (by rw [hb]; exact hf) (by rw [hb]; decide)
    rcases start_of_rank hf with hfr | hfr
    · have hl := Left.start (passPrefix c) (hs.passPrefix hfr) (le_refl 1) hb
        (by rw [rest_passPrefix hfr, startLen_passPrefix hfr, hlen])
      rw [headComps_startDir rfl, startComp_passPrefix hfr, List.nil_append] at hl
      exact nextStep_head hs.fits hfr hn hl
    · have hl : Left (passStart c) [] := .done _ (by simp [finished, passStart, hb, State.rank])
      have := nextStep_start hs hfr hn hl
      rw [List.append_nil] at this
      rwa [headComps_startDir hfr, List.nil_append]
  | head hf hb hlen =>
    have hn : c.finished = false := not_finished (by rw [hf, hb]) (by rw [hb]; decide)
    have hs : c.prefixRemaining ≤ c.path.length := by rw [prefixRemaining, if_pos hf, hlen]
    have hl : Left (passPrefix c) [] := .done _ (by simp [finished, passPrefix, hb, State.rank])
    have := nextStep_head hs hf hn hl
    rwa [List.append_nil] at this
  | done h => exact ⟨.inr (none, c), by rw [nextStep, if_pos h], rfl, .done c h⟩

theorem next_spec {l : List Component} (h : Left c l) :
    ∃ c', c.next = some (l.head?, c') ∧ Left c' l.tail := by
  obtain ⟨⟨x, c'⟩, hr, hx, hl⟩ := loop_total (fun c' => Left c' l) frontMeasure (NextRound l)
    (nextStep_spec l) (c.path.length+4) c h (by unfold frontMeasure; omega)
  exact ⟨c', by rw [next, hr, ← hx], hl⟩

end Front

end RustStd.WindowsPath
