import RustStd.Path.Ops

/-!
# Changing the extension

`PathBuf::set_extension` cuts the path behind the stem of its file name, at an address that comes
from the components, and adds a dot and the extension. `none` is a panic.
-/

set_option autoImplicit false

namespace RustStd.Path
open RustStd.Loop Components

/-- A round of `next_back`. The component is at the end of `path`, which gives its address. -/
def nextBackEndStep (c : Components) : Option (Components ⊕ (Option Component × ℕ)) :=
  c.nextBackStep.map (Sum.map id fun r => (r.1, c.path.length))

def nextBackEnd (c : Components) : Option (Option Component × ℕ) :=
  loop nextBackEndStep (c.path.length+4) c

/-- `file_name`, with the place in the path where it ends. -/
def fileNameEnd (p : List UInt8) : Option (Option (List UInt8 × ℕ)) := do
  let (comp, stop) ← nextBackEnd (components p)
  match comp with
  | some (.normal name) => return some (name, stop)
  | _ => return none

def fileName (p : List UInt8) : Option (Option (List UInt8)) :=
  (fileNameEnd p).map (Option.map Prod.fst)

/-- `rsplitn(2, |b| *b == b'.')`, with the part before the dot second. -/
def rsplitAtDot (file : List UInt8) : List UInt8 × Option (List UInt8) :=
  match rposition (· == 46) file with
  | none => (file, none)
  | some i => (file.drop (i+1), some (file.take i))

def rsplitFileAtDot (file : List UInt8) : Option (List UInt8) × Option (List UInt8) :=
  if file = [46, 46] then (some file, none)
  else
    let (after, before) := rsplitAtDot file
    if before = some [] then (some file, none) else (before, some after)

def stemOf (file : List UInt8) : Option (List UInt8) :=
  let (before, after) := rsplitFileAtDot file
  before.or after

def fileStem (p : List UInt8) : Option (Option (List UInt8)) :=
  (fileName p).map fun name => name.bind stemOf

def extension (p : List UInt8) : Option (Option (List UInt8)) :=
  (fileName p).map fun name => name.bind fun file =>
    let (before, after) := rsplitFileAtDot file
    before.bind fun _ => after

def setExtension (p ext : List UInt8) : Option (Bool × List UInt8) :=
  if ext.any isSepByte then none
  else do
    match ← fileNameEnd p with
    | none => return (false, p)
    | some (name, stop) =>
      match stemOf name with
      | none => return (false, p)
      | some stem => do
        let inner ← truncate p (stop-name.length+stem.length)
        return (true, if ext = [] then inner else inner ++ 46 :: ext)

/-! ## The stem of a name -/

section Stem

variable {n e stem : List UInt8}

/-- A piece that is a component of its own. -/
def IsName (n : List UInt8) : Prop := 47 ∉ n ∧ n ≠ [] ∧ n ≠ [46] ∧ n ≠ [46, 46]

theorem parse_name (h : IsName n) : parseSingleComponent n = some (.normal n) := by
  obtain ⟨-, hnil, hdot, hdots⟩ := h
  unfold parseSingleComponent
  split
  · exact absurd rfl hdot
  · exact absurd rfl hdots
  · exact absurd rfl hnil
  · rfl

theorem isName_of_parse {a : List UInt8} (hsep : 47 ∉ a)
    (h : parseSingleComponent a = some (.normal n)) : a = n ∧ IsName n := by
  unfold parseSingleComponent at h
  split at h
  · cases h
  · cases h
  · cases h
  · rename_i hdot hdots hnil
    obtain rfl : a = n := by simpa using h
    exact ⟨rfl, hsep, hnil, hdot, hdots⟩

theorem findIdx_no_dot {a : List UInt8} (h : 46 ∉ a) : a.findIdx? (· == 46) = none := by
  rw [List.findIdx?_eq_none_iff]
  intro x hx
  have hne : x ≠ 46 := fun he => h (he ▸ hx)
  simpa using hne

theorem rposition_no_dot (h : 46 ∉ n) : rposition (· == 46) n = none := by
  rw [rposition, findIdx_no_dot (by simpa using h)]
  rfl

theorem rposition_dot (a : List UInt8) {b : List UInt8} (h : 46 ∉ b) :
    rposition (· == 46) (a ++ 46 :: b) = some a.length := by
  have hr : (a ++ 46 :: b).reverse = b.reverse ++ 46 :: a.reverse := by simp
  rw [rposition, hr, List.findIdx?_append, findIdx_no_dot (by simpa using h), List.findIdx?_cons]
  simp

theorem last_dot (n : List UInt8) : 46 ∉ n ∨ ∃ a b, n = a ++ 46 :: b ∧ 46 ∉ b := by
  by_cases h : 46 ∈ n
  · obtain ⟨a, b, hn, ha⟩ := List.eq_append_cons_of_mem (List.mem_reverse.mpr h)
    refine .inr ⟨b.reverse, a.reverse, ?_, by simpa using ha⟩
    rw [← List.reverse_reverse n, hn]
    simp
  · exact .inl h

theorem rsplitAtDot_dot (a : List UInt8) {b : List UInt8} (h : 46 ∉ b) :
    rsplitAtDot (a ++ 46 :: b) = (b, some a) := by
  rw [rsplitAtDot, rposition_dot a h]
  simp

theorem rsplitAtDot_no_dot (h : 46 ∉ n) : rsplitAtDot n = (n, none) := by
  rw [rsplitAtDot, rposition_no_dot h]

theorem stemOf_name (h : IsName n) :
    ∃ stem rest, stemOf n = some stem ∧ n = stem ++ rest ∧ stem ≠ [] ∧
      (rest = [] ∨ ∃ after, rest = 46 :: after) := by
  have hdots : n ≠ [46, 46] := h.2.2.2
  have hwhole : n = n ++ [] := (List.append_nil n).symm
  obtain hn | ⟨a, b, rfl, hb⟩ := last_dot n
  · refine ⟨n, [], ?_, hwhole, h.2.1, .inl rfl⟩
    rw [stemOf, rsplitFileAtDot, if_neg hdots, rsplitAtDot_no_dot hn]
    rfl
  · by_cases ha : a = []
    · refine ⟨a ++ 46 :: b, [], ?_, hwhole, h.2.1, .inl rfl⟩
      rw [stemOf, rsplitFileAtDot, if_neg hdots, rsplitAtDot_dot a hb]
      simp [ha]
    · refine ⟨a, 46 :: b, ?_, rfl, ha, .inr ⟨b, rfl⟩⟩
      rw [stemOf, rsplitFileAtDot, if_neg hdots, rsplitAtDot_dot a hb]
      simp [ha]

theorem rsplit_new (hstem : stem ≠ []) (he : e ≠ []) (hdot : 46 ∉ e) :
    rsplitFileAtDot (stem ++ 46 :: e) = (some stem, some e) := by
  have hdots : stem ++ 46 :: e ≠ [46, 46] := by
    intro h
    have hlen := congrArg List.length h
    have hs := List.length_pos_of_ne_nil hstem
    have he := List.length_pos_of_ne_nil he
    simp only [List.length_append, List.length_cons, List.length_nil] at hlen
    omega
  rw [rsplitFileAtDot, if_neg hdots, rsplitAtDot_dot stem hdot]
  simp [hstem]

theorem isName_new (hsep : 47 ∉ stem) (hstem : stem ≠ []) (he : e ≠ []) (hext : 47 ∉ e) :
    IsName (stem ++ 46 :: e) := by
  have hs := List.length_pos_of_ne_nil hstem
  have he := List.length_pos_of_ne_nil he
  have hlen : (stem ++ 46 :: e).length = stem.length+(e.length+1) := List.length_append
  refine ⟨?_, ?_, ?_, ?_⟩
  · simp [hsep, hext]
  · simp
  · intro h
    rw [h] at hlen
    simp only [List.length_cons, List.length_nil] at hlen
    omega
  · intro h
    rw [h] at hlen
    simp only [List.length_cons, List.length_nil] at hlen
    omega

end Stem

/-! ## The place of the name -/

section Place

variable {p u n : List UInt8} {c c' : Components} {l : List Component}

def Place (u : List UInt8) : Prop := u = [] ∨ ∃ w, u = w ++ [47]

theorem comps_place (hu : Place u) : ∃ l, ∀ n, IsName n → comps (u ++ n) = l ++ [.normal n] := by
  obtain rfl | ⟨w, rfl⟩ := hu
  · refine ⟨[], fun n hn => ?_⟩
    have hstart : startComp n = none := by
      unfold startComp
      split
      · exact absurd (List.mem_cons_self ..) hn.1
      · exact absurd rfl hn.2.2.1
      · exact absurd (List.mem_cons_of_mem _ (List.mem_cons_self ..)) hn.1
      · rfl
    rw [List.nil_append, List.nil_append, comps_of_none hstart, bodyComps_piece hn.1, parse_name hn]
    rfl
  · refine ⟨if w = [] then [.rootDir] else comps w, fun n hn => ?_⟩
    rw [List.append_assoc, List.singleton_append, comps_sep, bodyComps_piece hn.1, parse_name hn]
    rfl

theorem isName_of_body (k : ℕ) {q : List UInt8} (hk : q.length ≤ k) (h : .normal n ∈ bodyComps q) :
    IsName n := by
  have hpiece : ∀ a : List UInt8, 47 ∉ a → .normal n ∈ bodyComps a → IsName n := by
    intro a ha hmem
    rw [bodyComps_piece ha, Option.mem_toList] at hmem
    exact (isName_of_parse ha hmem).2
  induction k generalizing q with
  | zero =>
    rw [List.eq_nil_of_length_eq_zero (Nat.le_zero.mp hk), bodyComps_nil] at h
    exact absurd h List.not_mem_nil
  | succ k ih =>
    obtain hs | ⟨a, b, rfl, ha⟩ := first_sep q
    · exact hpiece q hs h
    · rw [bodyComps_sep, List.mem_append] at h
      obtain h | h := h
      · exact hpiece a ha h
      · refine ih ?_ h
        simp only [List.length_append, List.length_cons] at hk
        omega

theorem isName_of_mem (h : .normal n ∈ comps p) : IsName n := by
  rw [comps, List.mem_append] at h
  obtain h | h := h
  · rw [Option.mem_toList] at h
    unfold startComp at h
    split at h <;> cases h
  · exact isName_of_body _ le_rfl h

theorem place_start (hn : n = p.drop (startLen p)) (hname : IsName n) :
    Place (p.take (startLen p)) := by
  unfold startLen startComp at hn ⊢
  split at hn
  · exact .inr ⟨[], rfl⟩
  · exact absurd hn hname.2.1
  · exact absurd (hn ▸ List.mem_cons_self ..) hname.1
  · exact .inl rfl

theorem parseBack_name (hr : Rooted c) (hf : c.front.rank ≤ 1)
    (h : c.parseNextComponentBack.2 = some (.normal n)) :
    ∃ u, c.path = u ++ n ∧ IsName n ∧ Place u := by
  rw [parseNextComponentBack] at h
  set k := c.lenBeforeBody with hk
  have hsplit : c.path = c.path.take k ++ c.path.drop k := (List.take_append_drop k c.path).symm
  obtain hs | ⟨a, b, he, hb⟩ := last_sep (c.path.drop k)
  · rw [rposition_piece hs] at h
    obtain ⟨hn, hname⟩ := isName_of_parse hs h
    refine ⟨c.path.take k, by rw [← hn]; exact hsplit, hname, ?_⟩
    rw [lenBeforeBody_start hr hf] at hk
    rw [hk] at hn ⊢
    exact place_start hn.symm hname
  · have hd : c.path.drop (k+a.length+1) = b := by
      rw [add_assoc, ← List.drop_drop, he]
      simp
    rw [he, rposition_sep a hb] at h
    simp only [hd] at h
    obtain ⟨rfl, hname⟩ := isName_of_parse hb h
    refine ⟨c.path.take k ++ a ++ [47], ?_, hname, .inr ⟨_, rfl⟩⟩
    rw [List.append_assoc, List.append_assoc, List.singleton_append, ← he]
    exact hsplit

theorem nextBackStep_name (h : c.nextBackStep = some (.inr (some (.normal n), c'))) :
    c.back = .body ∧ c.parseNextComponentBack.2 = some (.normal n) := by
  rw [nextBackStep] at h
  split at h
  · cases h
  · cases hb : c.back with
    | body =>
      refine ⟨rfl, ?_⟩
      simp only [hb] at h
      split at h
      · obtain ⟨d, -, hd⟩ := Option.bind_eq_some_iff.mp h
        by_cases hx : c.parseNextComponentBack.2.isSome
        · rw [if_pos hx] at hd
          exact congrArg Prod.fst (Sum.inr.inj (Option.some.inj hd))
        · rw [if_neg hx] at hd
          cases hd
      · cases h
    | startDir =>
      simp only [hb] at h
      split at h
      · obtain ⟨d, -, hd⟩ := Option.map_eq_some_iff.mp h
        cases hd
      · split at h
        · obtain ⟨d, -, hd⟩ := Option.map_eq_some_iff.mp h
          cases hd
        · cases h
    | atPrefix =>
      simp only [hb] at h
      cases h
    | done =>
      simp only [hb] at h
      cases h

/-- The place of the name `n` in the path `p`, behind `u`. -/
structure NamePlace (p u n : List UInt8) : Prop where
  name : IsName n
  place : Place u
  cut : ∃ v, p = u ++ n ++ v ∧ (v = [] ∨ ∃ b, v = 47 :: b)
  comps_eq : comps p = comps (u ++ n)

theorem cut_name (hname : IsName n) (h : Cut p (u ++ n)) :
    ∃ v, p = u ++ n ++ v ∧ (v = [] ∨ ∃ b, v = 47 :: b) := by
  obtain h | h | ⟨b, h⟩ | ⟨h, hp⟩ := h
  · exact absurd (List.append_eq_nil_iff.mp h).2 hname.2.1
  · exact ⟨[], by rw [h, List.append_nil], .inl rfl⟩
  · exact ⟨47 :: b, h, .inr ⟨b, rfl⟩⟩
  · -- the start alone is a separator or a dot
    exfalso
    have hlen := congrArg List.length h
    have hpos := List.length_pos_of_ne_nil hname.2.1
    simp only [List.length_append, List.length_take] at hlen
    obtain rfl : u = [] := List.eq_nil_of_length_eq_zero (by omega)
    rw [List.nil_append] at h
    unfold startLen startComp at hp
    split at hp
    · exact hname.1 (h ▸ List.mem_cons_self ..)
    · exact hname.2.2.1 h
    · exact hname.2.2.1 h
    · cases hp

theorem nextBackStep_place {p : List UInt8} (hl : Left c (comps p)) (hf : c.front.rank ≤ 1)
    (hcut : Cut p c.path) (h : c.nextBackStep = some (.inr (some (.normal n), c'))) :
    ∃ u, NamePlace p u n ∧ c.path.length = (u ++ n).length := by
  obtain ⟨hb, hparse⟩ := nextBackStep_name h
  have hwhole : Rooted c ∧ comps p = comps c.path := by
    generalize comps p = l at hl
    cases hl with
    | whole hr hf hb => exact ⟨hr, rfl⟩
    | body hf' hb => exact absurd hf (by rw [hf']; decide)
    | start hr hf hb' hl => exact absurd (hb.symm.trans hb') (by decide)
    | empty hp hc =>
      obtain hn | ⟨-, hb'⟩ := hc
      · rw [nextBackStep, if_pos hn] at h
        cases h
      · exact absurd (hb.symm.trans hb') (by decide)
  obtain ⟨u, hpath, hname, hplace⟩ := parseBack_name hwhole.1 hf hparse
  rw [hpath] at hcut
  exact ⟨u, ⟨hname, hplace, cut_name hname hcut, by rw [hwhole.2, hpath]⟩, by rw [hpath]⟩

/-- The result of `file_name`: no name, or the last component at its place. -/
def NameRound (p : List UInt8) (r : Option Component × ℕ) : Prop :=
  r.1 = (comps p).getLast? ∧
    ∀ n, r.1 = some (.normal n) → ∃ u, NamePlace p u n ∧ r.2 = (u ++ n).length

theorem nextBackEnd_spec (p : List UInt8) : ∃ r, nextBackEnd (components p) = some r ∧ NameRound p r := by
  refine loop_total (fun c => c.front.rank ≤ 1 ∧ Cut p c.path ∧ Left c (comps p)) backMeasure
    (NameRound p) ?_ _ (components p) ⟨Nat.zero_le 1, Cut.refl p, components_left p⟩ ?_
  · rintro c ⟨hf, hcut, hl⟩
    obtain ⟨r, hr, hb, hround⟩ := nextBackStep_spec (comps p) c hl
    refine ⟨r.map id fun r => (r.1, c.path.length), by rw [nextBackEndStep, hr]; rfl, ?_⟩
    cases r with
    | inl c' => exact ⟨⟨hb.1 ▸ hf, hcut.trans (hb.2 hf), hround.1⟩, hround.2⟩
    | inr r =>
      refine ⟨hround.1, fun n hn => ?_⟩
      obtain ⟨x, c'⟩ := r
      obtain rfl : x = some (.normal n) := hn
      exact nextBackStep_place hl hf hcut hr
  · simp [backMeasure, components, State.rank]

theorem fileNameEnd_spec (p : List UInt8) :
    (∃ u n, fileNameEnd p = some (some (n, (u ++ n).length)) ∧ NamePlace p u n) ∨
      fileNameEnd p = some none ∧ ∀ n, (comps p).getLast? ≠ some (.normal n) := by
  obtain ⟨⟨comp, stop⟩, hr, hlast, hname⟩ := nextBackEnd_spec p
  dsimp only at hlast hname
  rw [← hlast, fileNameEnd, hr]
  cases comp with
  | none => exact .inr ⟨rfl, fun n h => by cases h⟩
  | some x =>
    cases x with
    | normal n =>
      obtain ⟨u, hplace, rfl⟩ := hname n rfl
      exact .inl ⟨u, n, rfl, hplace⟩
    | rootDir => exact .inr ⟨rfl, fun n h => by cases h⟩
    | curDir => exact .inr ⟨rfl, fun n h => by cases h⟩
    | parentDir => exact .inr ⟨rfl, fun n h => by cases h⟩

theorem fileName_of_comps (h : comps p = l ++ [.normal n]) : fileName p = some (some n) := by
  obtain ⟨u, n', hname, hplace⟩ | ⟨-, hlast⟩ := fileNameEnd_spec p
  · obtain ⟨l', hl'⟩ := comps_place hplace.place
    rw [hplace.comps_eq, hl' n' hplace.name] at h
    obtain rfl : n' = n := by
      have h' := congrArg List.getLast? h
      simpa using h'
    rw [fileName, hname]
    rfl
  · exact absurd (by rw [h]; simp) (hlast n)

end Place

/-! ## The new extension -/

section New

variable {p e : List UInt8}

theorem truncate_ascii {r s : List UInt8} (h : s = [] ∨ ∃ x t, s = x :: t ∧ isAscii x = true) :
    truncate (r ++ s) r.length = some r := by
  obtain rfl | ⟨x, t, rfl, hx⟩ := h
  · simp [truncate, checkPublicBoundary]
  · have hc : checkPublicBoundary (r ++ x :: t) r.length = some () := by
      unfold checkPublicBoundary
      split
      · rfl
      · exact if_pos ⟨by simp, .inr (by simp [hx])⟩
    simp [truncate, hc]

def newName (stem e : List UInt8) : List UInt8 := if e = [] then stem else stem ++ 46 :: e

/-- Only the last component changes, to the stem and the new extension. -/
structure SetsExtension (p e : List UInt8) : Prop where
  unnamed : fileName p = some none → setExtension p e = some (false, p)
  replaced : fileName p ≠ some none → ∃ n stem q l, fileName p = some (some n) ∧
    fileStem p = some (some stem) ∧ setExtension p e = some (true, q) ∧
    componentList p = some (l ++ [.normal n]) ∧
    componentList q = some (l ++ [.normal (newName stem e)]) ∧
    fileName q = some (some (newName stem e)) ∧
    (e ≠ [] → 46 ∉ e → extension q = some (some e))

theorem no_sep (h : 47 ∉ e) : e.any isSepByte = false := by
  rw [List.any_eq_false]
  intro x hx
  have hne : x ≠ 47 := fun he => h (he ▸ hx)
  simpa [isSepByte] using hne

theorem setExtension_named {u n : List UInt8} (he : 47 ∉ e) (hplace : NamePlace p u n)
    (hname : fileNameEnd p = some (some (n, (u ++ n).length))) :
    ∃ stem rest, stemOf n = some stem ∧ n = stem ++ rest ∧ stem ≠ [] ∧
      setExtension p e = some (true, u ++ newName stem e) := by
  obtain ⟨stem, rest, hstem, rfl, hnil, hrest⟩ := stemOf_name hplace.name
  obtain ⟨v, hp, hv⟩ := hplace.cut
  have hstop : (u ++ (stem ++ rest)).length-(stem ++ rest).length+stem.length = (u ++ stem).length := by
    simp only [List.length_append]
    omega
  have htail : rest ++ v = [] ∨ ∃ x t, rest ++ v = x :: t ∧ isAscii x = true := by
    obtain rfl | ⟨after, rfl⟩ := hrest
    · obtain rfl | ⟨b, rfl⟩ := hv
      · exact .inl rfl
      · exact .inr ⟨47, b, rfl, by decide⟩
    · exact .inr ⟨46, after ++ v, rfl, by decide⟩
  have htrunc : truncate p (u ++ stem).length = some (u ++ stem) := by
    have hp' : p = u ++ stem ++ (rest ++ v) := by simp [hp]
    rw [hp']
    exact truncate_ascii htail
  refine ⟨stem, rest, hstem, rfl, hnil, ?_⟩
  rw [setExtension, no_sep he, hname]
  simp only [Bool.false_eq_true, if_false, some_bind, hstem, hstop,
    htrunc, newName]
  split
  · rfl
  · rw [List.append_assoc]
    rfl

theorem isName_newName {stem rest : List UInt8} (h : IsName (stem ++ rest)) (hstem : stem ≠ [])
    (he : 47 ∉ e) (hdots : ¬(e = [] ∧ (stem = [46] ∨ stem = [46, 46]))) :
    IsName (newName stem e) := by
  have hsep : 47 ∉ stem := fun hs => h.1 (List.mem_append_left rest hs)
  unfold newName
  split
  · rename_i hnil
    rw [not_and, not_or] at hdots
    exact ⟨hsep, hstem, hdots hnil⟩
  · exact isName_new hsep hstem ‹_› he

/-- Only the last component changes, unless the extension is empty and the stem is `.` or `..`. -/
theorem setExtension_iff (p e : List UInt8) (he : 47 ∉ e) :
    SetsExtension p e ↔ ¬(e = [] ∧
      (fileStem p = some (some [46]) ∨ fileStem p = some (some [46, 46]))) := by
  obtain ⟨u, n, hname, hplace⟩ | ⟨hname, -⟩ := fileNameEnd_spec p
  · obtain ⟨stem, rest, hstem, hn, hnil, hset⟩ := setExtension_named he hplace hname
    obtain ⟨l, hl⟩ := comps_place hplace.place
    have hfile : fileName p = some (some n) := by rw [fileName, hname]; rfl
    have hfs : fileStem p = some (some stem) := by rw [fileStem, hfile, ← hstem]; rfl
    rw [hfs]
    simp only [Option.some.injEq]
    constructor
    · rintro ⟨-, h⟩ ⟨rfl, hdots⟩
      obtain ⟨n', stem', q, l', -, hfs', -, -, hq, -⟩ := h (by rw [hfile]; simp)
      obtain rfl : stem = stem' := by
        rw [hfs] at hfs'
        exact Option.some.inj (Option.some.inj hfs')
      -- the stem would be a component of the new path
      have hmem : .normal stem ∈ comps q := by
        rw [componentList_eq, newName, if_pos rfl] at hq
        rw [Option.some.inj hq]
        simp
      have hisName := isName_of_mem hmem
      obtain rfl | rfl := hdots
      · exact hisName.2.2.1 rfl
      · exact hisName.2.2.2 rfl
    · intro hdots
      have hnew : IsName (newName stem e) := isName_newName (hn ▸ hplace.name) hnil he hdots
      have hq := hl (newName stem e) hnew
      refine ⟨fun h => ?_, fun _ => ⟨n, stem, u ++ newName stem e, l, hfile, hfs, hset, ?_, ?_,
        fileName_of_comps hq, fun hne hdot => ?_⟩⟩
      · rw [hfile] at h
        cases h
      · rw [componentList_eq, hplace.comps_eq, hl n hplace.name]
      · rw [componentList_eq, hq]
      · rw [extension, fileName_of_comps hq, newName, if_neg hne]
        simp only [Option.map_some, Option.bind_some, rsplit_new hnil hne hdot]
  · have hfile : fileName p = some none := by rw [fileName, hname]; rfl
    have hset : setExtension p e = some (false, p) := by
      rw [setExtension, no_sep he, hname]
      rfl
    constructor
    · rintro - ⟨-, h⟩
      rw [fileStem, hfile] at h
      obtain h | h := h <;> cases h
    · intro _
      exact ⟨fun _ => hset, fun h => absurd hfile h⟩

theorem setExtension_file :
    SetsExtension [97, 47, 98, 46, 99] [100] ↔ ¬(([100] : List UInt8) = [] ∧
      (fileStem [97, 47, 98, 46, 99] = some (some [46]) ∨
        fileStem [97, 47, 98, 46, 99] = some (some [46, 46]))) :=
  setExtension_iff _ _ (by decide)

/-- Without its extension the name `..c` in `a.b/..c` is `.`, which is no component, and the
extension is that of the directory. -/
theorem setExtension_dots :
    ¬SetsExtension [97, 46, 98, 47, 46, 46, 99] [] ∧
      setExtension [97, 46, 98, 47, 46, 46, 99] [] = some (true, [97, 46, 98, 47, 46]) ∧
      extension [97, 46, 98, 47, 46] = some (some [98]) := by
  refine ⟨?_, by decide, by decide⟩
  rintro ⟨-, h⟩
  have hset : setExtension [97, 46, 98, 47, 46, 46, 99] [] = some (true, [97, 46, 98, 47, 46]) := by
    decide
  obtain ⟨n, stem, q, l, hfile, hstem, hq, hp, hcomps, hfq, -⟩ := h (by decide)
  rw [hset] at hq
  obtain rfl : [97, 46, 98, 47, 46] = q := congrArg Prod.snd (Option.some.inj hq)
  have hfile' : fileName [97, 46, 98, 47, 46] = some (some [97, 46, 98]) := by decide
  have hstem' : fileStem [97, 46, 98, 47, 46, 46, 99] = some (some [46]) := by decide
  rw [hstem'] at hstem
  obtain rfl : [46] = stem := Option.some.inj (Option.some.inj hstem)
  rw [hfile'] at hfq
  exact absurd hfq (by decide)

end New

end RustStd.Path
