import RustStd.Path.Components

/-!
# The components left

A path is split at its separators; empty and `.` pieces name no component,
except that a leading separator is the root and a leading `.` is kept. Both
ends of `Components` take components off this list, and `as_path` is a path
with the same components left.
-/

set_option autoImplicit false

namespace RustStd.Path
open RustStd.Loop RustStd.DoubleEnded Components

/-- The components after the start of a path. -/
def bodyComps (p : List UInt8) : List Component := (p.splitOn 47).filterMap parseSingleComponent

/-- The component at the start of a path that only has a meaning there. -/
def startComp : List UInt8 → Option Component
  | 47 :: _ => some .rootDir
  | [46] => some .curDir
  | 46 :: 47 :: _ => some .curDir
  | _ => none

def startLen (p : List UInt8) : ℕ := (startComp p).toList.length

def comps (p : List UInt8) : List Component := (startComp p).toList ++ bodyComps (p.drop (startLen p))

@[simp] theorem bodyComps_nil : bodyComps [] = [] := by simp [bodyComps, parseSingleComponent]

@[simp] theorem startComp_nil : startComp [] = none := rfl

@[simp] theorem startLen_nil : startLen [] = 0 := rfl

@[simp] theorem comps_nil : comps [] = [] := by simp [comps]

theorem bodyComps_sep (a b : List UInt8) :
    bodyComps (a ++ 47 :: b) = bodyComps a ++ bodyComps b := by
  rw [bodyComps, List.splitOn_append_cons_self, List.filterMap_append]
  rfl

theorem bodyComps_piece {a : List UInt8} (h : 47 ∉ a) :
    bodyComps a = (parseSingleComponent a).toList := by
  rw [bodyComps, List.splitOn_eq_singleton h]
  cases hp : parseSingleComponent a with
  | none => simp [hp]
  | some x => simp [hp]

theorem first_sep (p : List UInt8) : 47 ∉ p ∨ ∃ a b, p = a ++ 47 :: b ∧ 47 ∉ a := by
  by_cases h : 47 ∈ p
  · exact .inr (List.eq_append_cons_of_mem h)
  · exact .inl h

theorem last_sep (p : List UInt8) : 47 ∉ p ∨ ∃ a b, p = a ++ 47 :: b ∧ 47 ∉ b := by
  rcases first_sep p.reverse with h | ⟨a, b, h, ha⟩
  · exact .inl (by simpa using h)
  · refine .inr ⟨b.reverse, a.reverse, ?_, by simpa using ha⟩
    rw [← List.reverse_reverse p, h]
    simp

theorem findIdx_piece {a : List UInt8} (h : 47 ∉ a) : a.findIdx? isSepByte = none := by
  rw [List.findIdx?_eq_none_iff]
  intro x hx
  have hne : x ≠ 47 := fun he => h (he ▸ hx)
  simpa [isSepByte] using hne

theorem findIdx_sep {a : List UInt8} (b : List UInt8) (h : 47 ∉ a) :
    (a ++ 47 :: b).findIdx? isSepByte = some a.length := by
  rw [List.findIdx?_append, findIdx_piece h, List.findIdx?_cons]
  simp [isSepByte]

theorem rposition_piece {a : List UInt8} (h : 47 ∉ a) : rposition isSepByte a = none := by
  rw [rposition, findIdx_piece (by simpa using h)]
  rfl

theorem rposition_sep (a : List UInt8) {b : List UInt8} (h : 47 ∉ b) :
    rposition isSepByte (a ++ 47 :: b) = some a.length := by
  have hr : (a ++ 47 :: b).reverse = b.reverse ++ 47 :: a.reverse := by simp
  rw [rposition, hr, findIdx_sep _ (by simpa using h)]
  simp

section Parse
variable {c : Components}

theorem parseNextComponent_spec (h : c.path ≠ []) :
    0 < c.parseNextComponent.1 ∧ c.parseNextComponent.1 ≤ c.path.length ∧
      bodyComps c.path =
        c.parseNextComponent.2.toList ++ bodyComps (c.path.drop c.parseNextComponent.1) := by
  have hpos := List.length_pos_iff.mpr h
  rcases first_sep c.path with hs | ⟨a, b, he, ha⟩
  · have hc : c.parseNextComponent = (c.path.length, parseSingleComponent c.path) := by
      simp [parseNextComponent, findIdx_piece hs]
    rw [hc, bodyComps_piece hs]
    simpa using hpos
  · have hc : c.parseNextComponent = (a.length+1, parseSingleComponent a) := by
      rw [parseNextComponent, he, findIdx_sep b ha]
      simp
    have hd : (a ++ 47 :: b).drop (a.length+1) = b := by simp
    rw [hc, he, hd, bodyComps_sep, bodyComps_piece ha]
    simp

theorem startComp_of_parse (h : c.parseNextComponent.2.isSome) : startComp c.path = none := by
  by_contra hne
  have : c.parseNextComponent.2 = none := by
    unfold startComp at hne
    split at hne
    · rename_i t he
      rw [parseNextComponent, he, ← List.nil_append (47 :: t), findIdx_sep t (by simp)]
      simp [parseSingleComponent]
    · rename_i he
      rw [parseNextComponent, he, findIdx_piece (by decide)]
      simp [parseSingleComponent]
    · rename_i t he
      rw [parseNextComponent, he, show (46:UInt8) :: 47 :: t = [46] ++ 47 :: t from rfl,
        findIdx_sep t (by decide)]
      simp [parseSingleComponent]
    · exact absurd rfl hne
  rw [this] at h
  exact absurd h (by decide)

theorem parseNextComponentBack_spec (h : c.lenBeforeBody < c.path.length) :
    ∃ m, c.parseNextComponentBack.1 = c.path.length-m ∧ c.lenBeforeBody ≤ m ∧ m < c.path.length ∧
      bodyComps (c.path.drop c.lenBeforeBody) =
        bodyComps ((c.path.take m).drop c.lenBeforeBody) ++ c.parseNextComponentBack.2.toList ∧
      (m = c.lenBeforeBody ∨ ∃ b, c.path = c.path.take m ++ 47 :: b) := by
  set k := c.lenBeforeBody with hk
  rcases last_sep (c.path.drop k) with hs | ⟨a, b, he, hb⟩
  · have hc : c.parseNextComponentBack =
        (c.path.length-k, parseSingleComponent (c.path.drop k)) := by
      simp [parseNextComponentBack, ← hk, rposition_piece hs]
    refine ⟨k, by rw [hc], le_refl k, h, ?_, .inl rfl⟩
    rw [hc, bodyComps_piece hs, List.drop_take]
    simp
  · have hp : c.path = c.path.take k ++ (a ++ 47 :: b) := by rw [← he, List.take_append_drop]
    have hl : c.path.length = k+a.length+(b.length+1) := by
      have := congrArg List.length hp
      simp only [List.length_append, List.length_take, List.length_cons] at this
      omega
    have hd : c.path.drop (k+a.length+1) = b := by
      rw [add_assoc, ← List.drop_drop, he]
      simp
    have hc : c.parseNextComponentBack = (b.length+1, parseSingleComponent b) := by
      simp only [parseNextComponentBack, ← hk]
      rw [he, rposition_sep a hb]
      simp only [hd]
    have ht : c.path.take (k+a.length) = c.path.take k ++ a := by
      rw [List.take_add, he]
      simp
    refine ⟨k+a.length, by rw [hc]; omega, by omega, by omega, ?_, .inr ⟨b, ?_⟩⟩
    · have hdk : (c.path.take k ++ a).drop k = a := by
        rw [List.drop_append_of_le_length (by simp; omega)]
        simp
      rw [hc, he, ht, hdk, bodyComps_sep, bodyComps_piece hb]
    · rw [ht, List.append_assoc]
      exact hp

end Parse

/-- The flag for the root agrees with the path. -/
def Rooted (c : Components) : Prop := c.hasPhysicalRoot = c.path.head?.any isSepByte

theorem startComp_eq {c : Components} (h : Rooted c) :
    startComp c.path =
      if c.hasPhysicalRoot then some .rootDir else if c.includeCurDir then some .curDir else none := by
  unfold Rooted at h
  unfold startComp includeCurDir
  split
  · rename_i t he
    simp [h, he, isSepByte]
  · rename_i he
    simp [h, he, isSepByte]
  · rename_i t he
    simp [h, he, isSepByte]
  · rename_i h₁ h₂ h₃
    have hr : c.hasPhysicalRoot = false := by
      rw [h]
      cases hp : c.path with
      | nil => rfl
      | cons x t =>
        have hx : x ≠ 47 := fun he => h₁ t (by rw [hp, he])
        simpa [isSepByte] using hx
    simp only [hr, Bool.false_eq_true, if_false]
    split
    · exact absurd ‹_› h₂
    · rename_i b t he
      have hb : b ≠ 47 := fun hb => h₃ t (by rw [he, hb])
      simp [isSepByte, hb]
    · rfl

theorem lenBeforeBody_start {c : Components} (h : Rooted c) (hf : c.front.rank ≤ 1) :
    c.lenBeforeBody = startLen c.path := by
  rw [startLen, startComp_eq h, lenBeforeBody]
  have hle : c.front.rank ≤ State.startDir.rank := hf
  cases hr : c.hasPhysicalRoot with
  | true => simp [hle, includeCurDir, hr]
  | false => cases hi : c.includeCurDir <;> simp [hle]

theorem lenBeforeBody_body {c : Components} (hf : c.front = .body) : c.lenBeforeBody = 0 := by
  simp [lenBeforeBody, hf, State.rank]

theorem startLen_le (p : List UInt8) : startLen p ≤ p.length := by
  unfold startLen startComp
  split <;> simp

theorem startComp_sep {a : List UInt8} (b : List UInt8) (h : a ≠ []) :
    startComp (a ++ 47 :: b) = startComp a := by
  rcases a with _ | ⟨x, _ | ⟨y, t⟩⟩
  · exact absurd rfl h
  · by_cases h47 : x = 47
    · simp [startComp, h47]
    · by_cases h46 : x = 46
      · simp [startComp, h46]
      · simp [startComp, h47, h46]
  · by_cases h47 : x = 47
    · simp [startComp, h47]
    · by_cases h46 : x = 46
      · by_cases hy : y = 47
        · simp [startComp, h46, hy]
        · simp [startComp, h46, hy]
      · simp [startComp, h47, h46]

theorem startComp_head {y : UInt8} {t : List UInt8} {x : Component}
    (h : startComp (y :: t) = some x) : startComp [y] = some x := by
  unfold startComp at h
  split at h
  · rename_i t' he
    obtain ⟨rfl, -⟩ := List.cons.inj he
    exact h
  · rename_i he
    obtain ⟨rfl, -⟩ := List.cons.inj he
    exact h
  · rename_i t' he
    obtain ⟨rfl, -⟩ := List.cons.inj he
    exact h
  · cases h

theorem startComp_take {p : List UInt8} {m : ℕ} (hm : startLen p ≤ m)
    (hcut : m = startLen p ∨ ∃ b, p = p.take m ++ 47 :: b) :
    startComp (p.take m) = startComp p := by
  rcases hcut with rfl | ⟨b, hp⟩
  · cases h : startComp p with
    | none => simp [startLen, h]
    | some x =>
      cases p with
      | nil => cases h
      | cons y t => simpa [startLen, h] using startComp_head h
  · have hne : p.take m ≠ [] := by
      intro hnil
      rw [hnil, List.nil_append] at hp
      rw [hp] at hm hnil
      have hm' : 1 ≤ m := hm
      have hl := congrArg List.length hnil
      simp only [List.length_take, List.length_cons, List.length_nil] at hl
      omega
    conv_rhs => rw [hp]
    exact (startComp_sep b hne).symm

/-- `c` has the components `l` left. The front is at the start, in the body or
past it; the back is in the body, at the start or past it. -/
inductive Left : Components → List Component → Prop
  | whole (c : Components) (hr : Rooted c) (hf : c.front.rank ≤ 1) (hb : c.back = .body) :
      Left c (comps c.path)
  | body (c : Components) (hf : c.front = .body) (hb : c.back = .body) :
      Left c (bodyComps c.path)
  | start (c : Components) (hr : Rooted c) (hf : c.front.rank ≤ 1) (hb : c.back = .startDir)
      (hl : c.path.length = startLen c.path) : Left c (startComp c.path).toList
  | empty (c : Components) (hp : c.path = [])
      (h : c.finished ∨ c.front.rank ≤ 1 ∧ c.back = .atPrefix) : Left c []

/-- A round of `next` keeps the components left, or yields the first of them. -/
def NextRound (l : List Component) (r : Option Component × Components) : Prop :=
  r.1 = l.head? ∧ Left r.2 l.tail

/-- A round of `next_back` keeps the components left, or yields the last of them. -/
def NextBackRound (l : List Component) (r : Option Component × Components) : Prop :=
  r.1 = l.getLast? ∧ Left r.2 l.dropLast

def frontMeasure (c : Components) : ℕ := c.path.length+(3-c.front.rank)

def backMeasure (c : Components) : ℕ := c.path.length+c.back.rank

theorem dropFront_eq {c : Components} {n : ℕ} (h : n ≤ c.path.length) :
    c.dropFront n = some { c with path := c.path.drop n } := if_pos h

theorem dropBack_eq {c : Components} {m : ℕ} (h : m ≤ c.path.length) :
    c.dropBack (c.path.length-m) = some { c with path := c.path.take m } := by
  rw [dropBack, if_pos (Nat.sub_le _ _), Nat.sub_sub_self h]

theorem not_finished {c : Components} (hf : c.front.rank ≤ c.back.rank) (hb : c.back.rank ≤ 2) :
    c.finished = false := by
  have h₂ : c.back ≠ .done := fun h => by rw [h] at hb; exact absurd hb (by decide)
  have h₁ : c.front ≠ .done := fun h => by
    rw [h] at hf
    exact absurd (hf.trans hb) (by decide)
  simp [finished, h₁, h₂, hf]

theorem start_ne_nil {p : List UInt8} {x : Component} (h : startComp p = some x) : 1 ≤ p.length := by
  cases p with
  | nil => cases h
  | cons y t => simp

theorem comps_of_none {p : List UInt8} (h : startComp p = none) : comps p = bodyComps p := by
  simp [comps, startLen, h]

theorem comps_of_some {p : List UInt8} {x : Component} (h : startComp p = some x) :
    comps p = x :: bodyComps (p.drop 1) := by
  simp [comps, startLen, h]

theorem start_branches {c : Components} (hr : Rooted c) {d : Option Components} {c' e : Components}
    (hd : 1 ≤ c.path.length → d = some c') :
    (if c.hasPhysicalRoot then d.map fun s => Sum.inr (some .rootDir, s)
      else if c.includeCurDir then d.map fun s => Sum.inr (some .curDir, s)
      else some (Sum.inl e)) =
      some (match startComp c.path with
        | some x => Sum.inr (some x, c')
        | none => Sum.inl e) := by
  have hs := startComp_eq hr
  by_cases hroot : c.hasPhysicalRoot
  · rw [if_pos hroot] at hs ⊢
    rw [hs, hd (start_ne_nil hs)]
    rfl
  · rw [if_neg hroot] at hs ⊢
    by_cases hcur : c.includeCurDir
    · rw [if_pos hcur] at hs ⊢
      rw [hs, hd (start_ne_nil hs)]
      rfl
    · rw [if_neg hcur] at hs ⊢
      rw [hs]

theorem nextStep_startDir {c : Components} (hr : Rooted c) (hf : c.front = .startDir)
    (hn : c.finished = false) :
    c.nextStep = some (match startComp c.path with
      | some x => .inr (some x, { c with front := .body, path := c.path.drop 1 })
      | none => .inl { c with front := .body }) := by
  rw [nextStep, hn, if_neg Bool.false_ne_true, hf]
  exact start_branches hr fun h => if_pos h

theorem nextBackStep_startDir {c : Components} (hr : Rooted c) (hb : c.back = .startDir)
    (hn : c.finished = false) :
    c.nextBackStep = some (match startComp c.path with
      | some x => .inr (some x, { c with back := .atPrefix, path := c.path.take (c.path.length-1) })
      | none => .inl { c with back := .atPrefix }) := by
  rw [nextBackStep, hn, if_neg Bool.false_ne_true, hb]
  exact start_branches hr fun h => if_pos h

section Next
variable {c : Components}

theorem nextStep_body (hf : c.front = .body) (hb : c.back = .body) :
    ∃ r, c.nextStep = some r ∧ Round (fun c' => Left c' (bodyComps c.path)) frontMeasure
      (NextRound (bodyComps c.path)) c r := by
  have hn : c.finished = false := not_finished (by rw [hf, hb]) (by rw [hb]; decide)
  rw [nextStep, hn, if_neg Bool.false_ne_true, hf]
  dsimp only
  by_cases hp : c.path = []
  · refine ⟨.inl { c with front := .done }, by simp [hp], ?_, ?_⟩
    · have he : bodyComps c.path = [] := by rw [hp, bodyComps_nil]
      rw [he]
      exact .empty { c with front := .done } hp (.inl (by simp [finished]))
    · simp [frontMeasure, hf, State.rank]
  · obtain ⟨hpos, hle, he⟩ := parseNextComponent_spec hp
    rw [if_neg (by simpa using hp), dropFront_eq hle]
    have hl := Left.body { c with path := c.path.drop c.parseNextComponent.1 } hf hb
    refine ⟨_, rfl, ?_⟩
    cases hx : c.parseNextComponent.2 with
    | none =>
      rw [hx] at he
      refine ⟨by simpa [he] using hl, ?_⟩
      simp only [frontMeasure, List.length_drop]
      omega
    | some x =>
      rw [hx] at he
      rw [he]
      exact ⟨rfl, by simpa using hl⟩

theorem nextStep_spec (l : List Component) (c : Components) (h : Left c l) :
    ∃ r, c.nextStep = some r ∧ Round (fun c' => Left c' l) frontMeasure (NextRound l) c r := by
  cases h with
  | whole hr hf hb =>
    have hn : c.finished = false :=
      not_finished (by rw [hb]; exact hf.trans (by decide)) (by rw [hb]; decide)
    cases hfr : c.front with
    | atPrefix =>
      refine ⟨.inl { c with front := .startDir }, by simp [nextStep, hn, hfr], ?_, ?_⟩
      · exact .whole { c with front := .startDir } hr (le_refl 1) hb
      · simp [frontMeasure, hfr, State.rank]
    | startDir =>
      refine ⟨_, nextStep_startDir hr hfr hn, ?_⟩
      cases hs : startComp c.path with
      | none =>
        rw [comps_of_none hs]
        refine ⟨.body { c with front := .body } rfl hb, ?_⟩
        simp [frontMeasure, hfr, State.rank]
      | some x =>
        rw [comps_of_some hs]
        exact ⟨rfl, .body { c with front := .body, path := c.path.drop 1 } rfl hb⟩
    | body => rw [hfr] at hf; exact absurd hf (by decide)
    | done => rw [hfr] at hf; exact absurd hf (by decide)
  | body hf hb => exact nextStep_body hf hb
  | start hr hf hb hl =>
    have hn : c.finished = false := not_finished (by rw [hb]; exact hf) (by rw [hb]; decide)
    cases hfr : c.front with
    | atPrefix =>
      refine ⟨.inl { c with front := .startDir }, by simp [nextStep, hn, hfr], ?_, ?_⟩
      · exact .start { c with front := .startDir } hr (le_refl 1) hb hl
      · simp [frontMeasure, hfr, State.rank]
    | startDir =>
      refine ⟨_, nextStep_startDir hr hfr hn, ?_⟩
      cases hs : startComp c.path with
      | none =>
        have hp : c.path = [] := List.eq_nil_of_length_eq_zero (by simpa [startLen, hs] using hl)
        refine ⟨.empty { c with front := .body } hp (.inl (by simp [finished, hb, State.rank])), ?_⟩
        simp [frontMeasure, hfr, State.rank]
      | some x =>
        have hp : c.path.drop 1 = [] := List.drop_eq_nil_of_le (by simp [hl, startLen, hs])
        exact ⟨rfl, .empty { c with front := .body, path := c.path.drop 1 } hp
          (.inl (by simp [finished, hb, State.rank]))⟩
    | body => rw [hfr] at hf; exact absurd hf (by decide)
    | done => rw [hfr] at hf; exact absurd hf (by decide)
  | empty hp hc =>
    by_cases hn : c.finished
    · exact ⟨.inr (none, c), by rw [nextStep, if_pos hn], rfl, .empty c hp hc⟩
    · obtain ⟨hf, hb⟩ := hc.resolve_left hn
      have hfr : c.front = .atPrefix := by
        have hle : c.front.rank ≤ 0 := by
          simp only [finished, decide_eq_true_eq, not_or, not_lt, hb] at hn
          exact hn.2.2
        cases hfr : c.front with
        | atPrefix => rfl
        | startDir => rw [hfr] at hle; exact absurd hle (by decide)
        | body => rw [hfr] at hle; exact absurd hle (by decide)
        | done => rw [hfr] at hle; exact absurd hle (by decide)
      refine ⟨.inl { c with front := .startDir }, by simp [nextStep, hn, hfr], ?_, ?_⟩
      · exact .empty { c with front := .startDir } hp (.inr ⟨le_refl 1, hb⟩)
      · simp [frontMeasure, hfr, State.rank]

theorem next_spec {l : List Component} (h : Left c l) :
    ∃ c', c.next = some (l.head?, c') ∧ Left c' l.tail := by
  obtain ⟨⟨x, c'⟩, hr, hx, hl⟩ := loop_total (fun c' => Left c' l) frontMeasure (NextRound l)
    (nextStep_spec l) (c.path.length+4) c h (by unfold frontMeasure; omega)
  exact ⟨c', by rw [next, hr, ← hx], hl⟩

end Next

theorem head_isSep (p : List UInt8) :
    p.head?.any isSepByte = (startComp p == some .rootDir) := by
  rcases p with _ | ⟨x, t⟩
  · rfl
  · by_cases hx : x = 47
    · simp [startComp, isSepByte, hx]
    · have hne : startComp (x :: t) ≠ some .rootDir := by
        unfold startComp
        split <;> simp_all
      simp [isSepByte, hx, hne]

/-- `r` is what is left of `p` after cutting at its back. -/
def Cut (p r : List UInt8) : Prop :=
  r = [] ∨ r = p ∨ (∃ b, p = r ++ 47 :: b) ∨ r = p.take 1 ∧ startLen p = 1

theorem Cut.refl (p : List UInt8) : Cut p p := .inr (.inl rfl)

theorem Cut.trans {p r s : List UInt8} (h : Cut p r) (h' : Cut r s) : Cut p s := by
  rcases h' with rfl | rfl | ⟨b, rfl⟩ | ⟨rfl, hr⟩
  · exact .inl rfl
  · exact h
  · rcases h with hnil | rfl | ⟨b', rfl⟩ | ⟨ht, hp⟩
    · simp at hnil
    · exact .inr (.inr (.inl ⟨b, rfl⟩))
    · exact .inr (.inr (.inl ⟨b ++ 47 :: b', by simp⟩))
    · have hl := congrArg List.length ht
      simp only [List.length_append, List.length_cons, List.length_take] at hl
      exact .inl (List.eq_nil_of_length_eq_zero (by omega))
  · rcases h with rfl | rfl | ⟨b, rfl⟩ | ⟨rfl, hp⟩
    · exact absurd hr (by decide)
    · exact .inr (.inr (.inr ⟨rfl, hr⟩))
    · have hne : r ≠ [] := by
        rintro rfl
        exact absurd hr (by decide)
      refine .inr (.inr (.inr ⟨?_, ?_⟩))
      · rw [List.take_append_of_le_length (List.length_pos_iff.mpr hne)]
      · rw [startLen, startComp_sep b hne]
        exact hr
    · refine .inr (.inr (.inr ⟨?_, hp⟩))
      rw [List.take_take]
      rfl

theorem cut_take {p : List UInt8} {m : ℕ} (h : m = startLen p ∨ ∃ b, p = p.take m ++ 47 :: b) :
    Cut p (p.take m) := by
  rcases h with rfl | hb
  · cases hs : startComp p with
    | none => exact .inl (by simp [startLen, hs])
    | some x =>
      have hl : startLen p = 1 := by simp [startLen, hs]
      exact .inr (.inr (.inr ⟨by rw [hl], hl⟩))
  · exact .inr (.inr (.inl hb))

section NextBack
variable {c : Components}

/-- `c'` comes from `c` at the back. -/
def Behind (c c' : Components) : Prop :=
  c'.front = c.front ∧ (c.front.rank ≤ 1 → Cut c.path c'.path)

theorem Behind.trans {c₁ c₂ c₃ : Components} (h : Behind c₁ c₂) (h' : Behind c₂ c₃) :
    Behind c₁ c₃ :=
  ⟨h'.1.trans h.1, fun hf => (h.2 hf).trans (h'.2 (by rw [h.1]; exact hf))⟩

theorem take_start {m : ℕ} (hr : Rooted c) (h : startComp (c.path.take m) = startComp c.path) :
    Rooted { c with path := c.path.take m } := by
  unfold Rooted at hr ⊢
  rw [hr, head_isSep, head_isSep, h]

theorem parseNextComponentBack_start (hr : Rooted c) (hf : c.front.rank ≤ 1)
    (h : c.lenBeforeBody < c.path.length) :
    ∃ m, c.parseNextComponentBack.1 = c.path.length-m ∧ m < c.path.length ∧
      startComp (c.path.take m) = startComp c.path ∧ Cut c.path (c.path.take m) ∧
      comps c.path = comps (c.path.take m) ++ c.parseNextComponentBack.2.toList := by
  obtain ⟨m, hm, hle, hlt, he, hcut⟩ := parseNextComponentBack_spec h
  rw [lenBeforeBody_start hr hf] at hle he hcut
  have hs := startComp_take hle hcut
  refine ⟨m, hm, hlt, hs, cut_take hcut, ?_⟩
  rw [comps, comps, he, startLen, startLen, hs, List.append_assoc]

theorem parseNextComponentBack_body (hf : c.front = .body) (h : c.lenBeforeBody < c.path.length) :
    ∃ m, c.parseNextComponentBack.1 = c.path.length-m ∧ m < c.path.length ∧
      (startComp c.path = none → startComp (c.path.take m) = none) ∧
      bodyComps c.path = bodyComps (c.path.take m) ++ c.parseNextComponentBack.2.toList := by
  obtain ⟨m, hm, -, hlt, he, hcut⟩ := parseNextComponentBack_spec h
  rw [lenBeforeBody_body hf] at he hcut
  refine ⟨m, hm, hlt, fun hs => ?_, by simpa using he⟩
  have hz : startLen c.path = 0 := by simp [startLen, hs]
  rw [startComp_take (by rw [hz]; omega) (by rw [hz]; exact hcut), hs]

theorem nextBackStep_parse {m : ℕ} (hn : c.finished = false) (hb : c.back = .body)
    (h : c.lenBeforeBody < c.path.length) (hm : c.parseNextComponentBack.1 = c.path.length-m)
    (hlt : m < c.path.length) {l : List Component}
    (hl : Left { c with path := c.path.take m } l)
    (hcut : c.front.rank ≤ 1 → Cut c.path (c.path.take m)) :
    ∃ r, c.nextBackStep = some r ∧ Behind c (r.elim id Prod.snd) ∧ Round (fun c' => Left c' (l ++ c.parseNextComponentBack.2.toList))
      backMeasure (NextBackRound (l ++ c.parseNextComponentBack.2.toList)) c r := by
  rw [nextBackStep, hn, if_neg Bool.false_ne_true, hb]
  simp only [if_pos h, hm, dropBack_eq hlt.le]
  refine ⟨_, rfl, ?_⟩
  cases hx : c.parseNextComponentBack.2 with
  | none =>
    refine ⟨⟨rfl, hcut⟩, by simpa using hl, ?_⟩
    simp only [backMeasure, List.length_take]
    omega
  | some x => exact ⟨⟨rfl, hcut⟩, by simp, by simpa using hl⟩

theorem nextBackStep_spec (l : List Component) (c : Components) (h : Left c l) :
    ∃ r, c.nextBackStep = some r ∧ Behind c (r.elim id Prod.snd) ∧
      Round (fun c' => Left c' l) backMeasure (NextBackRound l) c r := by
  have hsame : c.front.rank ≤ 1 → Cut c.path c.path := fun _ => .refl c.path
  cases h with
  | whole hr hf hb =>
    have hn : c.finished = false :=
      not_finished (by rw [hb]; exact hf.trans (by decide)) (by rw [hb]; decide)
    by_cases h : c.lenBeforeBody < c.path.length
    · obtain ⟨m, hm, hlt, hs, hcut, he⟩ := parseNextComponentBack_start hr hf h
      rw [he]
      exact nextBackStep_parse hn hb h hm hlt (.whole _ (take_start hr hs) hf hb) fun _ => hcut
    · refine ⟨.inl { c with back := .startDir }, by simp [nextBackStep, hn, hb, h], ⟨rfl, hsame⟩,
        ?_, ?_⟩
      · rw [lenBeforeBody_start hr hf, not_lt] at h
        have he : comps c.path = (startComp c.path).toList := by
          rw [comps, List.drop_eq_nil_of_le h, bodyComps_nil, List.append_nil]
        rw [he]
        exact .start { c with back := .startDir } hr hf rfl (le_antisymm h (startLen_le _))
      · simp [backMeasure, hb, State.rank]
  | body hf hb =>
    have hn : c.finished = false := not_finished (by rw [hf, hb]) (by rw [hb]; decide)
    by_cases h : c.lenBeforeBody < c.path.length
    · obtain ⟨m, hm, hlt, -, he⟩ := parseNextComponentBack_body hf h
      rw [he]
      exact nextBackStep_parse hn hb h hm hlt (.body _ hf hb) fun hle =>
        absurd hle (by rw [hf]; decide)
    · refine ⟨.inl { c with back := .startDir }, by simp [nextBackStep, hn, hb, h], ⟨rfl, hsame⟩,
        ?_, ?_⟩
      · have hp : c.path = [] := List.eq_nil_of_length_eq_zero (by
          rw [lenBeforeBody_body hf] at h
          omega)
        have he : bodyComps c.path = [] := by rw [hp, bodyComps_nil]
        rw [he]
        exact .empty { c with back := .startDir } hp (.inl (by simp [finished, hf, State.rank]))
      · simp [backMeasure, hb, State.rank]
  | start hr hf hb hl =>
    have hn : c.finished = false := not_finished (by rw [hb]; exact hf) (by rw [hb]; decide)
    refine ⟨_, nextBackStep_startDir hr hb hn, ?_⟩
    cases hs : startComp c.path with
    | none =>
      have hp : c.path = [] := List.eq_nil_of_length_eq_zero (by simpa [startLen, hs] using hl)
      refine ⟨⟨rfl, hsame⟩, .empty { c with back := .atPrefix } hp (.inr ⟨hf, rfl⟩), ?_⟩
      simp [backMeasure, hb, State.rank]
    | some x =>
      have hp : c.path.take (c.path.length-1) = [] := by simp [hl, startLen, hs]
      exact ⟨⟨rfl, fun _ => .inl hp⟩, rfl,
        .empty { c with back := .atPrefix, path := c.path.take (c.path.length-1) } hp
          (.inr ⟨hf, rfl⟩)⟩
  | empty hp hc =>
    by_cases hn : c.finished
    · exact ⟨.inr (none, c), by rw [nextBackStep, if_pos hn], ⟨rfl, hsame⟩, rfl, .empty c hp hc⟩
    · obtain ⟨hf, hb⟩ := hc.resolve_left hn
      refine ⟨.inr (none, { c with back := .done }), by simp [nextBackStep, hn, hb], ⟨rfl, hsame⟩,
        rfl, ?_⟩
      exact .empty { c with back := .done } hp (.inl (by simp [finished]))

theorem nextBack_spec {l : List Component} (h : Left c l) :
    ∃ c', c.nextBack = some (l.getLast?, c') ∧ Behind c c' ∧ Left c' l.dropLast := by
  have hfuel : backMeasure c < c.path.length+4 := by
    unfold backMeasure
    cases c.back <;> simp [State.rank]
  obtain ⟨⟨x, c'⟩, hr, hb, hx, hl⟩ := loop_total (fun c' => Behind c c' ∧ Left c' l) backMeasure
    (fun r => Behind c r.2 ∧ NextBackRound l r) (by
      rintro c' ⟨hb, hl⟩
      obtain ⟨r, hr, hbr, hround⟩ := nextBackStep_spec l c' hl
      refine ⟨r, hr, ?_⟩
      cases r with
      | inl c'' => exact ⟨⟨hb.trans hbr, hround.1⟩, hround.2⟩
      | inr r => exact ⟨hb.trans hbr, hround⟩)
    (c.path.length+4) c ⟨⟨rfl, fun _ => .refl _⟩, h⟩ hfuel
  exact ⟨c', by rw [nextBack, hr, ← hx], hb, hl⟩

end NextBack

theorem components_holds : Holds next nextBack Left where
  next_nil := fun c h => next_spec h
  next_cons := fun c a l h => next_spec h
  back_nil := fun c h => by
    obtain ⟨c', hc, -, hl⟩ := nextBack_spec h
    exact ⟨c', hc, hl⟩
  back_concat := fun c a l h => by
    obtain ⟨c', hc, -, hl⟩ := nextBack_spec h
    exact ⟨c', by simpa using hc, by simpa using hl⟩

@[simp] theorem components_path (p : List UInt8) : (components p).path = p := rfl

theorem components_left (p : List UInt8) : Left (components p) (comps p) :=
  .whole (components p) rfl (Nat.zero_le 1) rfl

theorem bodyComps_length (p : List UInt8) : (bodyComps p).length ≤ p.length+1 := by
  refine (List.length_filterMap_le _ _).trans ?_
  induction p with
  | nil => simp
  | cons x p ih =>
    rw [List.splitOn_cons_eq_if_modifyHead]
    split
    · simpa using ih
    · simp only [List.length_modifyHead, List.length_cons]
      omega

theorem comps_length (p : List UInt8) : (comps p).length ≤ p.length+1 := by
  have h := bodyComps_length (p.drop (startLen p))
  have hle := startLen_le p
  rw [comps, List.length_append]
  change startLen p+_ ≤ _
  rw [List.length_drop] at h
  omega

theorem comps_fuel (p : List UInt8) : (comps p).length < (components p).path.length+2 := by
  have := comps_length p
  rw [components_path]
  omega

theorem componentList_eq (p : List UInt8) : componentList p = some (comps p) :=
  collect_of_holds components_holds (components_left p) (comps_fuel p)

section AsPath
variable {c : Components}

theorem trimLeft_spec (hf : c.front = .body) :
    ∃ c', c.trimLeft = some c' ∧ c'.front = .body ∧ c'.back = c.back ∧
      bodyComps c'.path = bodyComps c.path ∧ startComp c'.path = none := by
  refine loop_total
    (fun c' => c'.front = .body ∧ c'.back = c.back ∧ bodyComps c'.path = bodyComps c.path)
    (fun c' => c'.path.length) _ ?_ (c.path.length+1) c ⟨hf, rfl, rfl⟩ (by omega)
  rintro c' ⟨hf', hb', he'⟩
  unfold trimLeftStep
  by_cases hp : c'.path = []
  · exact ⟨.inr c', by simp [hp], hf', hb', he', by rw [hp]; rfl⟩
  · obtain ⟨hpos, hle, he⟩ := parseNextComponent_spec hp
    rw [if_neg (by simpa using hp)]
    cases hx : c'.parseNextComponent.2 with
    | some x =>
      exact ⟨.inr c', by simp [hx], hf', hb', he', startComp_of_parse (by simp [hx])⟩
    | none =>
      rw [hx, Option.toList_none, List.nil_append] at he
      refine ⟨.inl { c' with path := c'.path.drop c'.parseNextComponent.1 },
        by simp [hx, dropFront_eq hle], ⟨hf', hb', he.symm.trans he'⟩, ?_⟩
      simp only [List.length_drop]
      omega

theorem trimRight_spec (I : Components → Prop) (hI : I c)
    (hstep : ∀ c', I c' → c'.lenBeforeBody < c'.path.length → c'.parseNextComponentBack.2 = none →
      ∃ m, c'.parseNextComponentBack.1 = c'.path.length-m ∧ m < c'.path.length ∧
        I { c' with path := c'.path.take m }) :
    ∃ c', c.trimRight = some c' ∧ I c' := by
  refine loop_total I (fun c' => c'.path.length) I ?_ (c.path.length+1) c hI (by omega)
  intro c' hc'
  unfold trimRightStep
  by_cases h : c'.lenBeforeBody < c'.path.length
  · rw [if_pos h]
    cases hx : c'.parseNextComponentBack.2 with
    | some x => exact ⟨.inr c', by simp [hx], hc'⟩
    | none =>
      obtain ⟨m, hm, hlt, hi⟩ := hstep c' hc' h hx
      refine ⟨.inl { c' with path := c'.path.take m },
        by simp [hx, hm, dropBack_eq hlt.le], hi, ?_⟩
      simp only [List.length_take]
      omega
  · exact ⟨.inr c', by rw [if_neg h], hc'⟩

theorem trimRight_start (hr : Rooted c) (hf : c.front.rank ≤ 1) :
    ∃ c', c.trimRight = some c' ∧ comps c'.path = comps c.path ∧ Cut c.path c'.path := by
  obtain ⟨c', ht, -, -, he, hback⟩ := trimRight_spec (c := c)
    (fun c' => Rooted c' ∧ c'.front.rank ≤ 1 ∧ comps c'.path = comps c.path ∧ Cut c.path c'.path)
    ⟨hr, hf, rfl, Cut.refl _⟩ (by
      rintro c' ⟨hr', hf', he', hback⟩ h hx
      obtain ⟨m, hm, hlt, hs, hcut, he⟩ := parseNextComponentBack_start hr' hf' h
      rw [hx, Option.toList_none, List.append_nil] at he
      exact ⟨m, hm, hlt, take_start hr' hs, hf', he.symm.trans he', hback.trans hcut⟩)
  exact ⟨c', ht, he, hback⟩

theorem trimRight_body (hf : c.front = .body) (hs : startComp c.path = none) :
    ∃ c', c.trimRight = some c' ∧ comps c'.path = bodyComps c.path := by
  obtain ⟨c', ht, -, hs', he⟩ := trimRight_spec (c := c)
    (fun c' => c'.front = .body ∧ startComp c'.path = none ∧
      bodyComps c'.path = bodyComps c.path)
    ⟨hf, hs, rfl⟩ (by
      rintro c' ⟨hf', hs', he'⟩ h hx
      obtain ⟨m, hm, hlt, hst, he⟩ := parseNextComponentBack_body hf' h
      rw [hx, Option.toList_none, List.append_nil] at he
      exact ⟨m, hm, hlt, hf', hst hs', he.symm.trans he'⟩)
  exact ⟨c', ht, by rw [comps_of_none hs', he]⟩

theorem trim_nil (hp : c.path = []) : c.trimLeft = some c ∧ c.trimRight = some c := by
  constructor
  · simp [trimLeft, loop, trimLeftStep, hp]
  · simp [trimRight, loop, trimRightStep, hp]

theorem asPath_spec {l : List Component} (h : Left c l) :
    ∃ r, c.asPath = some r ∧ comps r = l ∧ (c.front.rank ≤ 1 → Cut c.path r) := by
  simp only [asPath]
  cases h with
  | whole hr hf hb =>
    have hne : c.front ≠ .body := fun he => by rw [he] at hf; exact absurd hf (by decide)
    obtain ⟨c', ht, he, hback⟩ := trimRight_start hr hf
    rw [if_neg hne, Option.bind_some, if_pos hb, ht]
    exact ⟨c'.path, rfl, he, fun _ => hback⟩
  | body hf hb =>
    obtain ⟨c₁, h₁, hf₁, hb₁, he₁, hs₁⟩ := trimLeft_spec hf
    obtain ⟨c₂, h₂, he₂⟩ := trimRight_body hf₁ hs₁
    rw [if_pos hf, h₁, Option.bind_some, if_pos (hb₁.trans hb), h₂]
    exact ⟨c₂.path, rfl, he₂.trans he₁, fun hle => by rw [hf] at hle; exact absurd hle (by decide)⟩
  | start hr hf hb hl =>
    have hne : c.front ≠ .body := fun he => by rw [he] at hf; exact absurd hf (by decide)
    rw [if_neg hne, Option.bind_some, if_neg (by rw [hb]; decide)]
    refine ⟨c.path, rfl, ?_, fun _ => Cut.refl _⟩
    rw [comps, List.drop_eq_nil_of_le hl.le, bodyComps_nil, List.append_nil]
  | empty hp hc =>
    rw [(trim_nil hp).1, ite_self, Option.bind_some, (trim_nil hp).2, ite_self]
    exact ⟨c.path, rfl, by rw [hp, comps_nil], fun _ => Cut.refl _⟩

end AsPath

/-- Whatever ends are called, in any order: the components from the front, those
left and the reversed ones from the back are the list that `next` alone yields,
and parsing `as_path` afresh gives those left. -/
theorem components_interleaving (p : List UInt8) :
    ∃ l, componentList p = some l ∧ ∀ ds, ∃ fs bs c rest r,
      drive next nextBack ds (components p) = some (fs, bs, c) ∧
      l = fs ++ rest ++ bs.reverse ∧ rest.length = l.length-ds.length ∧
      asPath c = some r ∧ componentList r = some rest := by
  refine ⟨comps p, componentList_eq p, fun ds => ?_⟩
  obtain ⟨fs, bs, c, rest, hd, hc, he, hl⟩ :=
    drive_rest components_holds ds (components p) (comps p) (components_left p)
  obtain ⟨r, hr, hrest, -⟩ := asPath_spec hc
  exact ⟨fs, bs, c, rest, r, hd, he, hl, hr, by rw [componentList_eq, hrest]⟩

end RustStd.Path
