import RustStd.Path.Compare
import RustStd.Str.Utf8Validation

/-!
# Joining and taking apart

`PathBuf::push` and `pop`, and `Path::parent` and `strip_prefix` of
`library/std/src/path.rs`, under the unix rules. Each works on the bytes; what
it does to the components is proved here. `none` is a panic.
-/

set_option autoImplicit false

namespace RustStd.Path
open RustStd.Loop RustStd.Utf8Validation Components

def fromUtf8 (v : List UInt8) : Option (Except Utf8Error Unit) := runUtf8Validation false 0 v

/-- The loop over `len in 2..=4.min(index)`, for the lengths from `len` on. -/
def boundaryBefore (before : List UInt8) (index : ℕ) : ℕ → ℕ → Option Unit
  | 0, _ => none
  | rounds+1, len => do
    let valid ← fromUtf8 (before.drop (index-len))
    match valid with
    | .ok _ => return ()
    | .error _ => boundaryBefore before index rounds (len+1)

/-- `slow_path` of `check_public_boundary`. -/
def slowPath (bytes : List UInt8) (index : ℕ) : Option Unit := do
  let before := bytes.take index
  let after := (bytes.drop index).take 4
  let valid ← fromUtf8 after
  match valid with
  | .ok _ => return ()
  | .error err =>
    if err.validUpTo ≠ 0 then return ()
    else boundaryBefore before index (min 4 index-1) 2

def isAscii (b : UInt8) : Bool := b < 128

def checkPublicBoundary (inner : List UInt8) (index : ℕ) : Option Unit :=
  if index = 0 ∨ index = inner.length then some ()
  else if index < inner.length ∧
      (inner[index-1]?.any isAscii ∨ inner[index]?.any isAscii) then
    some ()
  else slowPath inner index

def truncate (inner : List UInt8) (len : ℕ) : Option (List UInt8) := do
  checkPublicBoundary inner len
  return inner.take len

def hasRoot (path : List UInt8) : Bool := (components path).hasPhysicalRoot

def isAbsolute (path : List UInt8) : Bool := hasRoot path

def push (buf path : List UInt8) : Option (List UInt8) :=
  let needSep := (buf.getLast?.map fun c => !isSepByte c).getD false
  let needClear := isAbsolute path
  let buf :=
    if needClear then truncate buf 0
    else if hasRoot path then truncate buf 0
    else if needSep then some (buf ++ [47])
    else some buf
  buf.map (· ++ path)

def join (self path : List UInt8) : Option (List UInt8) := push self path

def parent (p : List UInt8) : Option (Option (List UInt8)) := do
  let (comp, comps) ← (components p).nextBack
  match comp with
  | none => return none
  | some .rootDir => return none
  | some .curDir => comps.asPath.map some
  | some .parentDir => comps.asPath.map some
  | some (.normal _) => comps.asPath.map some

/-- `PathBuf::pop`, with the path it leaves. -/
def pop (buf : List UInt8) : Option (Bool × List UInt8) := do
  let parent ← parent buf
  match parent with
  | some p =>
    let buf ← truncate buf p.length
    return (true, buf)
  | none => return (false, buf)

def iterAfterStep : Components × Components → Option (Components × Components ⊕ Option Components)
  | (iter, pre) => do
    let (x, iterNext) ← iter.next
    let (y, pre) ← pre.next
    match x, y with
    | some x, some y => return if x = y then .inl (iterNext, pre) else .inr none
    | some _, none => return .inr (some iter)
    | none, none => return .inr (some iter)
    | none, some _ => return .inr none

def iterAfter (iter pre : Components) : Option (Option Components) :=
  loop iterAfterStep (pre.path.length+2) (iter, pre)

/-- `Path::strip_prefix`; the inner `none` is the error. -/
def stripPrefix (p base : List UInt8) : Option (Option (List UInt8)) := do
  let iter ← iterAfter (components p) (components base)
  match iter with
  | some c => c.asPath.map some
  | none => return none

def withoutCurDir : List Component → List Component
  | .curDir :: l => l
  | l => l

section Body

theorem mem_bodyComps {p : List UInt8} {x : Component} (h : x ∈ bodyComps p) :
    x ≠ .rootDir ∧ x ≠ .curDir := by
  obtain ⟨a, -, ha⟩ := List.mem_filterMap.mp h
  unfold parseSingleComponent at ha
  split at ha
  · cases ha
  · obtain rfl := Option.some.inj ha
    decide
  · cases ha
  · obtain rfl := Option.some.inj ha
    simp

theorem mem_tail_comps {p : List UInt8} {x : Component} (h : x ∈ (comps p).tail) :
    x ≠ .rootDir ∧ x ≠ .curDir := by
  cases hs : startComp p with
  | none =>
    rw [comps_of_none hs] at h
    exact mem_bodyComps (List.mem_of_mem_tail h)
  | some y =>
    rw [comps_of_some hs] at h
    exact mem_bodyComps h

theorem withoutCurDir_of_head {l : List Component} (h : l.head? ≠ some .curDir) :
    withoutCurDir l = l := by
  unfold withoutCurDir
  split
  · exact absurd rfl h
  · rfl

theorem parse_isSome {a : List UInt8} (h : a ≠ []) (hdot : a ≠ [46]) :
    parseSingleComponent a ≠ none := by
  unfold parseSingleComponent
  split
  · exact absurd rfl hdot
  · simp
  · exact absurd rfl h
  · simp

theorem comps_ne_nil {p : List UInt8} (h : p ≠ []) : comps p ≠ [] := by
  cases hs : startComp p with
  | some x => simp [comps_of_some hs]
  | none =>
    rw [comps_of_none hs]
    rcases first_sep p with hp | ⟨a, b, rfl, ha⟩
    · have hdot : p ≠ [46] := by
        rintro rfl
        cases hs
      rw [bodyComps_piece hp]
      simpa using parse_isSome h hdot
    · have hne : a ≠ [] := by
        rintro rfl
        cases hs
      have hdot : a ≠ [46] := by
        rintro rfl
        cases hs
      rw [bodyComps_sep, bodyComps_piece ha]
      simp [parse_isSome hne hdot]

theorem isAbsolute_eq (p : List UInt8) : isAbsolute p = (startComp p == some .rootDir) := head_isSep p

theorem bodyComps_relative {q : List UInt8} (h : isAbsolute q = false) :
    bodyComps q = withoutCurDir (comps q) := by
  rw [isAbsolute_eq] at h
  cases hs : startComp q with
  | none =>
    rw [comps_of_none hs, withoutCurDir_of_head]
    intro hh
    exact (mem_bodyComps (List.mem_of_head? hh)).2 rfl
  | some x =>
    rw [comps_of_some hs]
    unfold startComp at hs
    split at hs
    · simp [startComp] at h
    · obtain rfl := Option.some.inj hs
      decide
    · rename_i t
      obtain rfl := Option.some.inj hs
      change bodyComps ([46] ++ 47 :: t) = bodyComps ([] ++ 47 :: t)
      rw [bodyComps_sep, bodyComps_sep]
      rfl
    · cases hs

end Body

theorem truncate_zero (inner : List UInt8) : truncate inner 0 = some [] := by
  simp [truncate, checkPublicBoundary]

theorem truncate_cut {p r : List UInt8} (h : Cut p r) : truncate p r.length = some r := by
  rcases h with rfl | rfl | ⟨b, rfl⟩ | ⟨rfl, hl⟩
  · exact truncate_zero p
  · simp [truncate, checkPublicBoundary]
  · have hc : checkPublicBoundary (r ++ 47 :: b) r.length = some () := by
      unfold checkPublicBoundary
      split
      · rfl
      · exact if_pos ⟨by simp, .inr (by simp [isAscii])⟩
    simp [truncate, hc]
  · cases p with
    | nil => exact absurd hl (by decide)
    | cons x t =>
      have hx : isAscii x = true := by
        unfold startLen startComp at hl
        split at hl
        · rename_i he
          obtain ⟨rfl, -⟩ := List.cons.inj he
          rfl
        · rename_i he
          obtain ⟨rfl, -⟩ := List.cons.inj he
          rfl
        · rename_i he
          obtain ⟨rfl, -⟩ := List.cons.inj he
          rfl
        · cases hl
      have hc : checkPublicBoundary (x :: t) 1 = some () := by
        unfold checkPublicBoundary
        split
        · rfl
        · rename_i hne
          refine if_pos ⟨?_, .inl (by simp [hx])⟩
          simp only [List.length_cons] at hne ⊢
          omega
      simp [truncate, hc]

theorem join_absolute {q : List UInt8} (base : List UInt8) (h : isAbsolute q = true) :
    join base q = some q := by
  simp [join, push, h, truncate_zero]

theorem join_nil (q : List UInt8) : join [] q = some q := by
  cases h : isAbsolute q with
  | true => exact join_absolute [] h
  | false =>
    have hr : hasRoot q = false := h
    simp [join, push, h, hr]

theorem join_relative {base q : List UInt8} (hb : base ≠ []) (h : isAbsolute q = false) :
    ∃ j, join base q = some j ∧ comps j = comps base ++ bodyComps q := by
  have hr : hasRoot q = false := h
  obtain ⟨u, x, rfl⟩ : ∃ u x, base = u ++ [x] := by
    rcases List.eq_nil_or_concat base with hnil | ⟨u, x, he⟩
    · exact absurd hnil hb
    · exact ⟨u, x, he.trans (List.concat_eq_append)⟩
  by_cases hx : x = 47
  · refine ⟨u ++ [x] ++ q, by simp [join, push, h, hr, hx, isSepByte], ?_⟩
    rw [hx, List.append_assoc]
    change comps (u ++ 47 :: q) = comps (u ++ 47 :: []) ++ bodyComps q
    rw [comps_sep, comps_sep, bodyComps_nil, List.append_nil]
  · refine ⟨u ++ [x] ++ [47] ++ q, by simp [join, push, h, hr, hx, isSepByte], ?_⟩
    rw [List.append_assoc]
    change comps ((u ++ [x]) ++ 47 :: q) = _
    rw [comps_sep, if_neg hb]

theorem join_spec (base q : List UInt8) :
    ∃ j, join base q = some j ∧ comps j =
      if isAbsolute q ∨ base = [] then comps q else comps base ++ withoutCurDir (comps q) := by
  by_cases hb : base = []
  · exact ⟨q, by rw [hb, join_nil], by rw [if_pos (.inr hb)]⟩
  · cases h : isAbsolute q with
    | true => exact ⟨q, join_absolute base h, by rw [if_pos (.inl rfl)]⟩
    | false =>
      obtain ⟨j, hj, he⟩ := join_relative hb h
      exact ⟨j, hj, by rw [he, bodyComps_relative h, if_neg (by simp [hb])]⟩

theorem iterAfter_loop {iter pre : Components} {l m : List Component} (hi : Left iter l)
    (hp : Left pre m) {fuel : ℕ} (hf : m.length < fuel) :
    (m <+: l ∧ ∃ c, loop iterAfterStep fuel (iter, pre) = some (some c) ∧ Left c (l.drop m.length)) ∨
      ¬m <+: l ∧ loop iterAfterStep fuel (iter, pre) = some none := by
  induction m generalizing iter pre l fuel with
  | nil =>
    obtain ⟨k, rfl⟩ : ∃ k, fuel = k+1 := ⟨fuel-1, by simp only [List.length_nil] at hf; omega⟩
    obtain ⟨iter', hi', -⟩ := next_spec hi
    obtain ⟨pre', hp', -⟩ := next_spec hp
    refine .inl ⟨List.nil_prefix, iter, ?_, hi⟩
    cases l with
    | nil => simp [loop, iterAfterStep, hi', hp']
    | cons x l => simp [loop, iterAfterStep, hi', hp']
  | cons y m ih =>
    obtain ⟨k, rfl⟩ : ∃ k, fuel = k+1 := ⟨fuel-1, by simp only [List.length_cons] at hf; omega⟩
    obtain ⟨iter', hi', hil⟩ := next_spec hi
    obtain ⟨pre', hp', hpm⟩ := next_spec hp
    cases l with
    | nil => exact .inr ⟨by simp, by simp [loop, iterAfterStep, hi', hp']⟩
    | cons x l =>
      by_cases hxy : x = y
      · have hl : loop iterAfterStep (k+1) (iter, pre) = loop iterAfterStep k (iter', pre') := by
          simp [loop, iterAfterStep, hi', hp', hxy]
        have hpre : y :: m <+: x :: l ↔ m <+: l := by simp [List.cons_prefix_cons, hxy]
        rw [hl, hpre]
        exact ih hil hpm (by simpa using hf)
      · refine .inr ⟨?_, by simp [loop, iterAfterStep, hi', hp', hxy]⟩
        rw [List.cons_prefix_cons]
        exact fun h => hxy h.1.symm

theorem stripPrefix_spec (p base : List UInt8) :
    (comps base <+: comps p ∧ ∃ r, stripPrefix p base = some (some r) ∧
        comps r = (comps p).drop (comps base).length) ∨
      ¬comps base <+: comps p ∧ stripPrefix p base = some none := by
  rcases iterAfter_loop (components_left p) (components_left base) (comps_fuel base) with
    ⟨hpre, c, hc, hl⟩ | ⟨hpre, hc⟩
  · obtain ⟨r, hr, he, -⟩ := asPath_spec hl
    refine .inl ⟨hpre, r, ?_, he⟩
    rw [stripPrefix, iterAfter, hc, some_bind]
    simp only [hr, Option.map_some]
  · refine .inr ⟨hpre, ?_⟩
    rw [stripPrefix, iterAfter, hc]
    rfl

theorem relative_of_drop {p r : List UInt8} {n : ℕ} (hn : n ≠ 0) (h : comps r = (comps p).drop n) :
    isAbsolute r = false ∧ withoutCurDir (comps r) = comps r := by
  have hmem : ∀ x ∈ comps r, x ≠ .rootDir ∧ x ≠ .curDir := by
    intro x hx
    obtain ⟨k, rfl⟩ := Nat.exists_eq_succ_of_ne_zero hn
    rw [h, ← List.drop_tail] at hx
    exact mem_tail_comps (List.mem_of_mem_drop hx)
  constructor
  · rw [isAbsolute_eq]
    cases hs : startComp r with
    | none => rfl
    | some x =>
      have hx := (hmem x (by simp [comps_of_some hs])).1
      simpa using hx
  · refine withoutCurDir_of_head fun hh => ?_
    exact (hmem _ (List.mem_of_head? hh)).2 rfl

theorem join_stripPrefix {p base r : List UInt8} (hpre : comps base <+: comps p)
    (he : comps r = (comps p).drop (comps base).length) :
    ∃ j, join base r = some j ∧ comps j = comps p := by
  obtain ⟨j, hj, hc⟩ := join_spec base r
  refine ⟨j, hj, ?_⟩
  by_cases hb : base = []
  · rw [hc, if_pos (.inr hb), he, hb]
    rfl
  · have hn : (comps base).length ≠ 0 := by
      simpa using comps_ne_nil hb
    obtain ⟨hrel, hcur⟩ := relative_of_drop hn he
    rw [hc, if_neg (by simp [hrel, hb]), hcur, he]
    exact (List.prefix_append_drop hpre).symm

theorem parent_spec (p : List UInt8) :
    (∃ r, parent p = some (some r) ∧ (∃ x, (comps p).getLast? = some x ∧ x ≠ .rootDir) ∧
        comps r = (comps p).dropLast ∧ Cut p r) ∨
      parent p = some none ∧ ¬∃ x, (comps p).getLast? = some x ∧ x ≠ .rootDir := by
  obtain ⟨c, hc, hb, hl⟩ := nextBack_spec (components_left p)
  obtain ⟨r, hr, he, hcut⟩ := asPath_spec hl
  have hfront : c.front.rank ≤ 1 := by
    rw [hb.1]
    exact Nat.zero_le 1
  have hcut' : Cut p r := (hb.2 (Nat.zero_le 1)).trans (hcut hfront)
  cases hlast : (comps p).getLast? with
  | none =>
    rw [hlast] at hc
    exact .inr ⟨by simp [parent, hc], by simp⟩
  | some x =>
    rw [hlast] at hc
    cases x with
    | rootDir => exact .inr ⟨by simp [parent, hc], by simp⟩
    | curDir => exact .inl ⟨r, by simp [parent, hc, hr], ⟨.curDir, rfl, by decide⟩, he, hcut'⟩
    | parentDir => exact .inl ⟨r, by simp [parent, hc, hr], ⟨.parentDir, rfl, by decide⟩, he, hcut'⟩
    | normal s => exact .inl ⟨r, by simp [parent, hc, hr], ⟨.normal s, rfl, by simp⟩, he, hcut'⟩

theorem pop_spec {p : List UInt8} {o : Option (List UInt8)} (h : parent p = some o)
    (hcut : ∀ r, o = some r → Cut p r) : pop p = some (o.isSome, o.getD p) := by
  cases o with
  | none => simp [pop, h]
  | some r => simp [pop, h, truncate_cut (hcut r rfl)]

/-- Joining, stripping a base, the parent and `pop`, by the components. -/
theorem path_algebra (p base q : List UInt8) :
    ∃ lp lb lq, componentList p = some lp ∧ componentList base = some lb ∧
      componentList q = some lq ∧
      (∃ j, join base q = some j ∧ componentList j =
        some (if q.head? = some 47 ∨ base = [] then lq else lb ++ withoutCurDir lq)) ∧
      (∃ s, stripPrefix p base = some s ∧ (s.isSome ↔ lb <+: lp) ∧
        ∀ r, s = some r → ∃ j, join base r = some j ∧ eq j p = some true) ∧
      ∃ o, parent p = some o ∧ (o.isSome ↔ ∃ x, lp.getLast? = some x ∧ x ≠ .rootDir) ∧
        (∀ r, o = some r → componentList r = some lp.dropLast) ∧
        pop p = some (o.isSome, o.getD p) := by
  refine ⟨comps p, comps base, comps q, componentList_eq p, componentList_eq base,
    componentList_eq q, ?_, ?_, ?_⟩
  · obtain ⟨j, hj, he⟩ := join_spec base q
    have habs : isAbsolute q = true ↔ q.head? = some 47 := by
      rw [isAbsolute, hasRoot, components]
      cases q with
      | nil => simp
      | cons x t => simp [isSepByte]
    refine ⟨j, hj, ?_⟩
    rw [componentList_eq, he]
    simp only [habs]
  · rcases stripPrefix_spec p base with ⟨hpre, r, hr, he⟩ | ⟨hpre, hr⟩
    · refine ⟨some r, hr, by simp [hpre], ?_⟩
      rintro _ ⟨⟩
      obtain ⟨j, hj, hc⟩ := join_stripPrefix hpre he
      exact ⟨j, hj, by rw [eq_spec, decide_eq_true hc]⟩
    · exact ⟨none, hr, by simp [hpre], by simp⟩
  · rcases parent_spec p with ⟨r, hr, hx, he, hcut⟩ | ⟨hr, hx⟩
    · refine ⟨some r, hr, by simp [hx], ?_, pop_spec hr ?_⟩
      · rintro _ ⟨⟩
        rw [componentList_eq, he]
      · rintro _ ⟨⟩
        exact hcut
    · exact ⟨none, hr, by simp [hx], by simp, pop_spec hr (by simp)⟩

end RustStd.Path
