import RustStd.Lib.Machine
import RustStd.Path.WindowsComponentsSpec

/-!
# The back of a Windows path

`next_back` takes components off the same list as `next`, since a path cut at
its back keeps its prefix and its start.
-/

set_option autoImplicit false

namespace RustStd.WindowsPath
open RustStd.Loop RustStd.DoubleEnded
open RustStd.Path (State)
open Components

variable {c : Components}

/-- The path cut off at its back. -/
def cutTo (c : Components) (m : ℕ) : Components := { c with path := c.path.take m }

@[simp] theorem cutTo_pre (m : ℕ) : (cutTo c m).pre = c.pre := rfl

@[simp] theorem cutTo_hasPhysicalRoot (m : ℕ) : (cutTo c m).hasPhysicalRoot = c.hasPhysicalRoot :=
  rfl

@[simp] theorem cutTo_isSep (m : ℕ) : (cutTo c m).isSep = c.isSep := rfl

section Cut

variable {m : ℕ}

/-- Where the path may be cut: behind the start, at a separator or right there. -/
structure CutsAt (c : Components) (m : ℕ) : Prop where
  start_le : c.prefixRemaining+startLen c ≤ m
  at_sep : m = c.prefixRemaining+startLen c ∨
    ∃ x b, c.path = c.path.take m++x::b ∧ c.isSep x = true

theorem rest_cutTo (c : Components) (m : ℕ) :
    rest (cutTo c m) = (rest c).take (m-c.prefixRemaining) :=
  List.drop_take ..

theorem CutsAt.rest_eq {x : UInt8} {b : List UInt8} (h : CutsAt c m)
    (he : c.path = c.path.take m++x::b) (hfits : c.prefixRemaining ≤ c.path.length) :
    rest c = rest (cutTo c m)++x::b := by
  have hle := h.start_le
  have hlen : c.prefixRemaining ≤ (c.path.take m).length := by
    rw [List.length_take]
    omega
  calc rest c = (c.path.take m++x::b).drop c.prefixRemaining := by rw [← he]; rfl
    _ = rest (cutTo c m)++x::b := List.drop_append_of_le_length hlen

theorem Sound.start_cutTo (hs : Sound c) (h : CutsAt c m) :
    (rest (cutTo c m)).head?.any isSepByte = (rest c).head?.any isSepByte ∧
      (c.pre = none ∨ c.hasRoot = false →
        startsWithDot c.isSep (rest (cutTo c m)) = startsWithDot c.isSep (rest c)) := by
  rcases h.at_sep with hm | ⟨x, b, he, hx⟩
  · have hn : m-c.prefixRemaining = startLen c := by omega
    rw [rest_cutTo, hn, startLen]
    split_ifs with hroot hdot
    · rw [hs.rooted] at hroot
      rw [head_take (le_refl 1)]
      have htake : startsWithDot c.isSep ((rest c).take 1) = false :=
        startsWithDot_root (by rw [head_take (le_refl 1)]; exact hroot)
      exact ⟨rfl, fun _ => by rw [htake, startsWithDot_root hroot]⟩
    · rw [head_take (le_refl 1)]
      exact ⟨rfl, fun _ => by rw [startsWithDot_take_one hdot.2, hdot.2]⟩
    · rw [List.take_zero, ← hs.rooted]
      refine ⟨by simpa using hroot, ?_⟩
      intro hno
      by_cases hp : c.pre = none
      · have : startsWithDot c.isSep (rest c) = false := by simpa [hp] using hdot
        rw [this]
        rfl
      · rw [hs.noDot hp (hno.resolve_left hp)]
        rfl
  · have hrest := h.rest_eq he hs.fits
    have hne : rest (cutTo c m) ≠ [] := by
      intro hnil
      have hroot : c.hasPhysicalRoot = true := by
        rw [hs.rooted, hrest, hnil]
        exact isSepByte_of_isSep hx
      have hle := h.start_le
      rw [startLen, if_pos hroot] at hle
      have hlen := congrArg List.length hnil
      have hle' := hs.startLen_le
      rw [startLen, if_pos hroot] at hle'
      rw [rest_cutTo, List.length_take, List.length_nil] at hlen
      omega
    rw [rest_cutTo] at hrest hne ⊢
    constructor
    · apply congrArg (Option.any isSepByte)
      apply head_take
      by_contra hlt
      exact hne (by rw [show m-c.prefixRemaining = 0 by omega, List.take_zero])
    · intro _
      exact startsWithDot_cut hne hrest hx

theorem Sound.cutTo (hs : Sound c) (h : CutsAt c m) (hm : m ≤ c.path.length) :
    Sound (cutTo c m) where
  fits := by
    have hle := h.start_le
    change c.prefixRemaining ≤ (c.path.take m).length
    rw [List.length_take]
    omega
  rooted := by
    rw [(hs.start_cutTo h).1]
    exact hs.rooted
  noDot := by
    intro hp hroot
    exact ((hs.start_cutTo h).2 (.inr hroot)).trans (hs.noDot hp hroot)

theorem Sound.startComp_cutTo (hs : Sound c) (h : CutsAt c m) :
    startComp (WindowsPath.cutTo c m) = startComp c := by
  have hdot := (hs.start_cutTo h).2
  simp only [startComp, cutTo_pre, cutTo_hasPhysicalRoot, cutTo_isSep]
  cases hp : c.pre with
  | none => simp only [hdot (.inl hp)]
  | some p => rfl

theorem Sound.startLen_cutTo (hs : Sound c) (h : CutsAt c m) :
    startLen (WindowsPath.cutTo c m) = startLen c := by
  have hdot := (hs.start_cutTo h).2
  simp only [startLen, cutTo_pre, cutTo_hasPhysicalRoot, cutTo_isSep]
  by_cases hp : c.pre = none
  · simp only [hdot (.inl hp)]
  · simp only [hp, false_and]

theorem headComps_cutTo (h : CutsAt c m) : headComps (cutTo c m) = headComps c := by
  unfold headComps
  by_cases hf : c.front = .atPrefix
  · have hle := h.start_le
    rw [prefixRemaining, if_pos hf] at hle
    have htake : (c.path.take m).take c.prefixLen = c.path.take c.prefixLen := by
      rw [List.take_take, min_eq_left (by omega)]
    rw [if_pos hf, if_pos (by exact hf), ← htake]
    rfl
  · rw [if_neg hf, if_neg (by exact hf)]

end Cut

section Back

/-- The back before the start. -/
def dropStart (c : Components) : Components :=
  { c with back := .atPrefix, path := c.path.take (c.path.length-startLen c) }

theorem nextBackStep_startDir (hs : Sound c) (hb : c.back = .startDir) (hn : c.finished = false) :
    c.nextBackStep = some (match startComp c with
      | some x => .inr (some x, dropStart c)
      | none => .inl (dropStart c)) := by
  rw [nextBackStep, hn, if_neg Bool.false_ne_true, hb]
  have hcur : c.pre = none → c.hasPhysicalRoot = false →
      { c with back := .atPrefix }.includeCurDir = some (startsWithDot c.isSep (rest c)) := by
    intro hp hroot
    have hno : { c with back := .atPrefix }.hasRoot = false := by simp [hasRoot, hp, hroot]
    rw [includeCurDir_eq (by exact hs.fits), hno]
    rfl
  have hdrop : startLen c = 1 → { c with back := .atPrefix }.dropBack 1 = some (dropStart c) := by
    intro hone
    have hle := hs.startLen_le
    rw [rest_length, hone] at hle
    rw [dropBack, if_pos (by show 1 ≤ c.path.length; omega), dropStart, hone]
  have hskip : startLen c = 0 → { c with back := .atPrefix } = dropStart c := by
    intro hzero
    simp [dropStart, hzero]
  exact start_branches hcur hdrop hskip

theorem nextBackStep_parse {k m : ℕ} {x : Option Component} {l : List Component}
    (hn : c.finished = false) (hb : c.back = .body) (hk : c.lenBeforeBody = some k)
    (h : k < c.path.length) (hx : c.parseNextComponentBack = some (c.path.length-m, x))
    (hlt : m < c.path.length) (hl : Left (cutTo c m) l) :
    ∃ r, c.nextBackStep = some r ∧ Round (fun c' => Left c' (l++x.toList)) backMeasure
      (NextBackRound (l++x.toList)) c r := by
  rw [nextBackStep, hn, if_neg Bool.false_ne_true, hb]
  simp only [hk, some_bind, if_pos h, hx, dropBack_eq hlt.le]
  refine ⟨_, rfl, ?_⟩
  cases x with
  | none =>
    refine ⟨?_, ?_⟩
    · rwa [Option.toList_none, List.append_nil]
    · simp only [backMeasure, List.length_take]
      omega
  | some x =>
    refine ⟨by simp, ?_⟩
    rwa [Option.toList_some, List.dropLast_concat]

theorem nextBackStep_skip {k : ℕ} {l : List Component} (hn : c.finished = false)
    (hb : c.back = .body) (hk : c.lenBeforeBody = some k) (h : ¬ k < c.path.length)
    (hl : Left { c with back := .startDir } l) :
    ∃ r, c.nextBackStep = some r ∧ Round (fun c' => Left c' l) backMeasure (NextBackRound l) c r := by
  refine ⟨.inl { c with back := .startDir }, by simp [nextBackStep, hn, hb, hk, h], hl, ?_⟩
  simp [backMeasure, hb, State.rank]

theorem nextBackStep_whole (hs : Sound c) (hf : c.front.rank ≤ 1) (hb : c.back = .body) :
    ∃ r, c.nextBackStep = some r ∧
      Round (fun c' => Left c' (headComps c++(startComp c).toList++
        body c ((rest c).drop (startLen c)))) backMeasure
        (NextBackRound (headComps c++(startComp c).toList++
          body c ((rest c).drop (startLen c)))) c r := by
  have hn : c.finished = false :=
    not_finished (by rw [hb]; exact hf.trans (by decide)) (by rw [hb]; decide)
  have hk := hs.lenBeforeBody hf
  have hrest : (rest c).drop (startLen c) = c.path.drop (c.prefixRemaining+startLen c) :=
    List.drop_drop
  by_cases h : c.prefixRemaining+startLen c < c.path.length
  · obtain ⟨m, x, hx, hle, hlt, he, hcut⟩ := parseNextComponentBack_spec hb hk h
    have hat : CutsAt c m := ⟨hle, hcut⟩
    have hl := Left.whole (cutTo c m) (hs.cutTo hat hlt.le) hf hb
    have hrest' : (rest (cutTo c m)).drop (startLen c) =
        (c.path.take m).drop (c.prefixRemaining+startLen c) := List.drop_drop
    rw [headComps_cutTo hat, hs.startComp_cutTo hat, hs.startLen_cutTo hat, hrest'] at hl
    rw [hrest, he, ← List.append_assoc]
    exact nextBackStep_parse hn hb hk h hx hlt hl
  · have hle : c.path.length ≤ c.prefixRemaining+startLen c := by omega
    have hbody : body c ((rest c).drop (startLen c)) = [] := by
      rw [hrest, List.drop_eq_nil_of_le hle]
      rfl
    have hlen : (rest c).length = startLen c := by
      have := hs.startLen_le
      rw [rest_length] at this ⊢
      omega
    rw [hbody, List.append_nil]
    exact nextBackStep_skip hn hb hk h
      (.start { c with back := .startDir } ⟨hs.fits, hs.rooted, hs.noDot⟩ hf rfl hlen)

theorem nextBackStep_body (hf : c.front = .body) (hb : c.back = .body) :
    ∃ r, c.nextBackStep = some r ∧ Round (fun c' => Left c' (body c c.path)) backMeasure
      (NextBackRound (body c c.path)) c r := by
  have hn : c.finished = false := not_finished (by rw [hf, hb]) (by rw [hb]; decide)
  have hk := lenBeforeBody_body hf
  by_cases h : 0 < c.path.length
  · obtain ⟨m, x, hx, -, hlt, he, -⟩ := parseNextComponentBack_spec hb hk h
    rw [List.drop_zero, List.drop_zero] at he
    rw [he]
    exact nextBackStep_parse hn hb hk h hx hlt (.body (cutTo c m) hf hb)
  · have hp : c.path = [] := List.eq_nil_of_length_eq_zero (by omega)
    have hbody : body c c.path = [] := by
      rw [hp]
      rfl
    rw [hbody]
    exact nextBackStep_skip hn hb hk h (.done _ (by simp [finished, hf, State.rank]))

theorem nextBackStep_start (hs : Sound c) (hf : c.front.rank ≤ 1) (hb : c.back = .startDir)
    (hlen : (rest c).length = startLen c) :
    ∃ r, c.nextBackStep = some r ∧
      Round (fun c' => Left c' (headComps c++(startComp c).toList)) backMeasure
        (NextBackRound (headComps c++(startComp c).toList)) c r := by
  have hn : c.finished = false := not_finished (by rw [hb]; exact hf) (by rw [hb]; decide)
  have hl : Left (dropStart c) (headComps c) := by
    rcases start_of_rank hf with hfr | hfr
    · have hfits := hs.fits
      rw [rest_length, prefixRemaining, if_pos hfr] at hlen
      rw [prefixRemaining, if_pos hfr] at hfits
      have hcut : c.path.length-startLen c = c.prefixLen := by omega
      have htake : (dropStart c).path = c.path.take c.prefixLen := by rw [← hcut]; rfl
      have hhead : headComps (dropStart c) = headComps c := by
        have htwice : (c.path.take c.prefixLen).take c.prefixLen = c.path.take c.prefixLen := by
          rw [List.take_take, min_self]
        rw [headComps, headComps, if_pos hfr, if_pos (by exact hfr)]
        change (c.pre.map fun p => Component.atPrefix ((dropStart c).path.take c.prefixLen) p).toList
          = _
        rw [htake, htwice]
      rw [← hhead]
      refine .head (dropStart c) hfr rfl ?_
      rw [htake, List.length_take]
      exact min_eq_left hfits
    · rw [headComps_startDir hfr]
      exact .done _ (by simp [finished, dropStart, hfr, State.rank])
  refine ⟨_, nextBackStep_startDir hs hb hn, ?_⟩
  cases startComp c with
  | none =>
    refine ⟨by simpa using hl, ?_⟩
    simp only [backMeasure, dropStart, List.length_take, hb, State.rank]
    omega
  | some x => exact ⟨by simp, by simpa using hl⟩

theorem nextBackStep_head (hf : c.front = .atPrefix) (hb : c.back = .atPrefix)
    (hlen : c.path.length = c.prefixLen) :
    ∃ r, c.nextBackStep = some r ∧ Round (fun c' => Left c' (headComps c)) backMeasure
      (NextBackRound (headComps c)) c r := by
  have hn : c.finished = false := not_finished (by rw [hf, hb]) (by rw [hb]; decide)
  have hl : Left { c with back := .done } [] := .done _ (by simp [finished])
  rw [nextBackStep, hn, if_neg Bool.false_ne_true, hb, headComps, if_pos hf,
    List.take_of_length_le hlen.le]
  cases hp : c.pre with
  | none =>
    refine ⟨.inr (none, { c with back := .done }), ?_, rfl, hl⟩
    simp [prefixLen_of_none hp, hp]
  | some p =>
    have hpos : 0 < c.prefixLen := by rw [prefixLen_of_some hp]; exact p.len_pos
    refine ⟨.inr (some (.atPrefix c.path p), { c with back := .done }), ?_, rfl, hl⟩
    simp [hpos, hp]

theorem nextBackStep_spec (l : List Component) (c : Components) (h : Left c l) :
    ∃ r, c.nextBackStep = some r ∧
      Round (fun c' => Left c' l) backMeasure (NextBackRound l) c r := by
  cases h with
  | whole hs hf hb => exact nextBackStep_whole hs hf hb
  | body hf hb => exact nextBackStep_body hf hb
  | start hs hf hb hlen => exact nextBackStep_start hs hf hb hlen
  | head hf hb hlen => exact nextBackStep_head hf hb hlen
  | done h => exact ⟨.inr (none, c), by rw [nextBackStep, if_pos h], rfl, .done c h⟩

theorem nextBack_spec {l : List Component} (h : Left c l) :
    ∃ c', c.nextBack = some (l.getLast?, c') ∧ Left c' l.dropLast := by
  have hfuel : backMeasure c < c.path.length+4 := by
    have : c.back.rank ≤ 3 := by cases c.back <;> decide
    unfold backMeasure
    omega
  obtain ⟨⟨x, c'⟩, hr, hx, hl⟩ := loop_total (fun c' => Left c' l) backMeasure (NextBackRound l)
    (nextBackStep_spec l) (c.path.length+4) c h hfuel
  exact ⟨c', by rw [nextBack, hr, ← hx], hl⟩

end Back

theorem holds_left : Holds next nextBack Left where
  next_nil := fun _ h => next_spec h
  next_cons := fun _ _ _ h => next_spec h
  back_nil := fun _ h => nextBack_spec h
  back_concat := fun s a l h => by
    have := nextBack_spec h
    rwa [List.getLast?_concat, List.dropLast_concat] at this

end RustStd.WindowsPath
