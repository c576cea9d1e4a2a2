import Mathlib

/-!
# Well-formed UTF-8

The syntax of RFC 3629 as the comments of `validations.rs` quote it. A text is
a concatenation of sequences. The sequences form a prefix code, so a text has
one decomposition, and the syntax alone fixes how far a byte string is valid
and whether its tail could still be completed.
-/

set_option autoImplicit false

namespace RustStd.Utf8Grammar

def Tail (b : UInt8) : Prop := 0x80 ≤ b ∧ b ≤ 0xBF

/-- First and second byte of a three byte sequence. Overlong forms below
U+0800 and the surrogates are cut out by the two narrow ranges. -/
def Lead3 (a b : UInt8) : Prop :=
  (a = 0xE0 ∧ 0xA0 ≤ b ∧ b ≤ 0xBF) ∨ (0xE1 ≤ a ∧ a ≤ 0xEC ∧ Tail b) ∨
  (a = 0xED ∧ 0x80 ≤ b ∧ b ≤ 0x9F) ∨ (0xEE ≤ a ∧ a ≤ 0xEF ∧ Tail b)

/-- First and second byte of a four byte sequence, from U+10000 to U+10FFFF. -/
def Lead4 (a b : UInt8) : Prop :=
  (a = 0xF0 ∧ 0x90 ≤ b ∧ b ≤ 0xBF) ∨ (0xF1 ≤ a ∧ a ≤ 0xF3 ∧ Tail b) ∨
  (a = 0xF4 ∧ 0x80 ≤ b ∧ b ≤ 0x8F)

instance (b : UInt8) : Decidable (Tail b) := inferInstanceAs (Decidable (_ ∧ _))
instance (a b : UInt8) : Decidable (Lead3 a b) := inferInstanceAs (Decidable (_ ∨ _))
instance (a b : UInt8) : Decidable (Lead4 a b) := inferInstanceAs (Decidable (_ ∨ _))

inductive Sequence : List UInt8 → Prop
  | one {a : UInt8} (ha : a ≤ 0x7F) : Sequence [a]
  | two {a b : UInt8} (ha : 0xC2 ≤ a ∧ a ≤ 0xDF) (hb : Tail b) : Sequence [a, b]
  | three {a b c : UInt8} (hab : Lead3 a b) (hc : Tail c) : Sequence [a, b, c]
  | four {a b c d : UInt8} (hab : Lead4 a b) (hc : Tail c) (hd : Tail d) :
      Sequence [a, b, c, d]

inductive WellFormed : List UInt8 → Prop
  | nil : WellFormed []
  | cons {c r : List UInt8} (hc : Sequence c) (hr : WellFormed r) : WellFormed (c ++ r)

/-- The bytes are the beginning of some sequence that needs more bytes. -/
def Incomplete (l : List UInt8) : Prop := ∃ c, Sequence c ∧ l <+: c ∧ l ≠ c

theorem Sequence.ne_nil {c : List UInt8} (h : Sequence c) : c ≠ [] := by
  cases h <;> simp

theorem Sequence.length_le {c : List UInt8} (h : Sequence c) : c.length ≤ 4 := by
  cases h <;> simp

theorem Sequence.wellFormed {c : List UInt8} (h : Sequence c) : WellFormed c := by
  simpa using WellFormed.cons h .nil

theorem lead3_range {a b : UInt8} (h : Lead3 a b) : 0xE0 ≤ a ∧ a ≤ 0xEF ∧ Tail b := by
  unfold Lead3 Tail at *
  grind

theorem lead4_range {a b : UInt8} (h : Lead4 a b) : 0xF0 ≤ a ∧ a ≤ 0xF4 ∧ Tail b := by
  unfold Lead4 Tail at *
  grind

def leadLength (a : UInt8) : ℕ :=
  if a ≤ 0x7F then 1 else if a ≤ 0xDF then 2 else if a ≤ 0xEF then 3 else 4

theorem Sequence.length_eq {a : UInt8} {l : List UInt8} (h : Sequence (a :: l)) :
    l.length+1 = leadLength a := by
  cases h with
  | one ha => simp [leadLength, ha]
  | two ha hb => simp [leadLength, show ¬ a ≤ 0x7F by grind, ha.2]
  | three hab hc =>
    have hr := lead3_range hab
    simp [leadLength, show ¬ a ≤ 0x7F by grind, show ¬ a ≤ 0xDF by grind, hr.2.1]
  | four hab hc hd =>
    have hr := lead4_range hab
    simp [leadLength, show ¬ a ≤ 0x7F by grind, show ¬ a ≤ 0xDF by grind,
      show ¬ a ≤ 0xEF by grind]

theorem Sequence.prefix_free {c d r s : List UInt8} (hc : Sequence c) (hd : Sequence d)
    (h : c ++ r = d ++ s) : c = d ∧ r = s := by
  obtain ⟨a, c, rfl⟩ := List.exists_cons_of_ne_nil hc.ne_nil
  obtain ⟨b, d, rfl⟩ := List.exists_cons_of_ne_nil hd.ne_nil
  obtain ⟨rfl, -⟩ : a = b ∧ c ++ r = d ++ s := by simpa using h
  have hl := hc.length_eq.trans hd.length_eq.symm
  exact List.append_inj h (by simpa using hl)

theorem WellFormed.append {p r : List UInt8} (hp : WellFormed p) (hr : WellFormed r) :
    WellFormed (p ++ r) := by
  induction hp with
  | nil => exact hr
  | cons hc _ ih => simpa [List.append_assoc] using WellFormed.cons hc ih

theorem wellFormed_sequence_append {c r : List UInt8} (hc : Sequence c)
    (h : WellFormed (c ++ r)) : WellFormed r := by
  generalize hv : c ++ r = v at h
  cases h with
  | nil => exact absurd (List.append_eq_nil_iff.mp hv).1 hc.ne_nil
  | cons hd hs =>
    obtain ⟨-, rfl⟩ := hc.prefix_free hd hv
    exact hs

theorem WellFormed.cancel_left {p r : List UInt8} (hp : WellFormed p)
    (h : WellFormed (p ++ r)) : WellFormed r := by
  induction hp with
  | nil => exact h
  | cons hc _ ih =>
    rw [List.append_assoc] at h
    exact ih (wellFormed_sequence_append hc h)

theorem WellFormed.exists_sequence {l : List UInt8} (h : WellFormed l) (hl : l ≠ []) :
    ∃ c, Sequence c ∧ c <+: l := by
  cases h with
  | nil => exact absurd rfl hl
  | @cons c r hc _ => exact ⟨c, hc, List.prefix_append c r⟩

theorem wellFormed_last {v : List UInt8} (h : WellFormed v) :
    v = [] ∨ ∃ r l, v = r ++ l ∧ WellFormed r ∧ Sequence l := by
  induction h with
  | nil => exact .inl rfl
  | @cons d r hd _ ih =>
    rcases ih with rfl | ⟨r', l, rfl, hr', hl⟩
    · exact .inr ⟨[], d, by simp, .nil, hd⟩
    · exact .inr ⟨d ++ r', l, by simp, .cons hd hr', hl⟩

theorem wellFormed_ascii {l : List UInt8} (h : ∀ b ∈ l, b ≤ 0x7F) : WellFormed l := by
  induction l with
  | nil => exact .nil
  | cons b l ih => exact .cons (.one (h b (by simp))) (ih fun c hc => h c (by simp [hc]))

theorem longest_prefix {v : List UInt8} {i : ℕ} (hi : i ≤ v.length)
    (hw : WellFormed (v.take i)) (hn : ∀ c, Sequence c → ¬ c <+: v.drop i) :
    IsGreatest {n | n ≤ v.length ∧ WellFormed (v.take n)} i := by
  refine ⟨⟨hi, hw⟩, ?_⟩
  rintro n ⟨hn', hwn⟩
  by_contra hlt
  have hs : v.take n = v.take i ++ (v.drop i).take (n-i) := by
    rw [← List.take_add]
    congr 1
    omega
  rw [hs] at hwn
  have hne : (v.drop i).take (n-i) ≠ [] := by
    intro h0
    have := congrArg List.length h0
    simp at this
    omega
  obtain ⟨c, hc, hp⟩ := (hw.cancel_left hwn).exists_sequence hne
  exact hn c hc (hp.trans (List.take_prefix _ _))

theorem incomplete_nil : Incomplete [] :=
  ⟨[0], .one (by decide), by simp, by simp⟩

theorem incomplete_one (a : UInt8) : Incomplete [a] ↔ 0xC2 ≤ a ∧ a ≤ 0xF4 := by
  constructor
  · rintro ⟨c, hc, hp, hne⟩
    cases hc with
    | one ha => simp_all
    | two ha hb => simp at hp; grind
    | three hab hc => simp at hp; have := lead3_range hab; grind
    | four hab hc hd => simp at hp; have := lead4_range hab; grind
  · rintro ⟨hl, hu⟩
    have h80 : Tail 0x80 := by decide
    by_cases h2 : a ≤ 0xDF
    · exact ⟨_, .two ⟨hl, h2⟩ h80, by simp, by simp⟩
    by_cases h3 : a ≤ 0xEF
    · by_cases h0 : a = 0xE0
      · exact ⟨_, .three (a := a) (b := 0xA0) (by simp [Lead3, h0]) h80, by simp, by simp⟩
      · exact ⟨_, .three (a := a) (b := 0x80) (by unfold Lead3 Tail; grind) h80, by simp, by simp⟩
    · by_cases h0 : a = 0xF0
      · exact ⟨_, .four (a := a) (b := 0x90) (by simp [Lead4, h0]) h80 h80, by simp, by simp⟩
      · exact ⟨_, .four (a := a) (b := 0x80) (by unfold Lead4 Tail; grind) h80 h80,
          by simp, by simp⟩

theorem incomplete_two (a b : UInt8) : Incomplete [a, b] ↔ Lead3 a b ∨ Lead4 a b := by
  constructor
  · rintro ⟨c, hc, hp, hne⟩
    cases hc <;> simp_all
  · have h80 : Tail 0x80 := by decide
    rintro (h | h)
    · exact ⟨_, .three h h80, by simp, by simp⟩
    · exact ⟨_, .four h h80 h80, by simp, by simp⟩

theorem incomplete_three (a b c : UInt8) : Incomplete [a, b, c] ↔ Lead4 a b ∧ Tail c := by
  constructor
  · rintro ⟨c, hc, hp, hne⟩
    cases hc <;> simp_all
  · rintro ⟨h, hc⟩
    exact ⟨_, .four h hc (show Tail 0x80 by decide), by simp, by simp⟩

theorem not_incomplete_long (l : List UInt8) (hl : 4 ≤ l.length) : ¬ Incomplete l := by
  rintro ⟨c, hc, hp, hne⟩
  have h1 := hc.length_le
  exact hne (hp.eq_of_length_le (by omega))

/-- Only the head of the byte string decides how a sequence can start there. -/
inductive Scan
  | char (n : ℕ)
  | bad (k : ℕ)
  | cut
  deriving DecidableEq, Repr

def scan : List UInt8 → Scan
  | [] => .cut
  | a :: l =>
    if a ≤ 0x7F then .char 1
    else if a < 0xC2 ∨ 0xF4 < a then .bad 1
    else if a ≤ 0xDF then
      match l with
      | [] => .cut
      | b :: _ => if Tail b then .char 2 else .bad 1
    else if a ≤ 0xEF then
      match l with
      | [] => .cut
      | b :: l => if Lead3 a b then
          match l with
          | [] => .cut
          | c :: _ => if Tail c then .char 3 else .bad 2
        else .bad 1
    else
      match l with
      | [] => .cut
      | b :: l => if Lead4 a b then
          match l with
          | [] => .cut
          | c :: l => if Tail c then
              match l with
              | [] => .cut
              | d :: _ => if Tail d then .char 4 else .bad 3
            else .bad 2
        else .bad 1

theorem sequence_one (a : UInt8) : Sequence [a] ↔ a ≤ 0x7F :=
  ⟨fun h => by cases h; assumption, .one⟩

theorem sequence_two (a b : UInt8) : Sequence [a, b] ↔ (0xC2 ≤ a ∧ a ≤ 0xDF) ∧ Tail b :=
  ⟨fun h => by cases h; exact ⟨‹_›, ‹_›⟩, fun h => .two h.1 h.2⟩

theorem sequence_three (a b c : UInt8) : Sequence [a, b, c] ↔ Lead3 a b ∧ Tail c :=
  ⟨fun h => by cases h; exact ⟨‹_›, ‹_›⟩, fun h => .three h.1 h.2⟩

theorem sequence_four (a b c d : UInt8) :
    Sequence [a, b, c, d] ↔ Lead4 a b ∧ Tail c ∧ Tail d :=
  ⟨fun h => by cases h; exact ⟨‹_›, ‹_›, ‹_›⟩, fun h => .four h.1 h.2.1 h.2.2⟩

theorem Incomplete.of_prefix {k l : List UInt8} (h : Incomplete l) (hp : k <+: l) :
    Incomplete k := by
  obtain ⟨c, hc, hlc, hne⟩ := h
  refine ⟨c, hc, hp.trans hlc, ?_⟩
  rintro rfl
  exact hne (hp.eq_of_length_le hlc.length_le).symm

theorem not_prefix_incomplete {c l : List UInt8} (hc : Sequence c) (h : Incomplete l) :
    ¬ c <+: l := by
  rintro ⟨r, rfl⟩
  obtain ⟨d, hd, ⟨s, hs⟩, hne⟩ := h
  rw [List.append_assoc] at hs
  obtain ⟨rfl, hr⟩ := hc.prefix_free hd (hs.trans (List.append_nil d).symm)
  exact hne (by simp [(List.append_eq_nil_iff.mp hr).1])

/-- No sequence starts here. `none` reports an input that ends too early and
`some k` the number of bytes up to the one that rules every sequence out. -/
structure Stuck (l : List UInt8) (r : Option ℕ) : Prop where
  no_sequence : ∀ c, Sequence c → ¬ c <+: l
  none_iff : r = none ↔ Incomplete l
  some_len : ∀ k, r = some k → 1 ≤ k ∧ k ≤ 3 ∧
    ∃ m, IsGreatest {n | n ≤ l.length ∧ Incomplete (l.take n)} m ∧ k = max m 1

theorem stuck_cut {l : List UInt8} (h : Incomplete l) : Stuck l none :=
  ⟨fun _ hc => not_prefix_incomplete hc h, by simp [h], by simp⟩

theorem stuck_bad {l : List UInt8} (m : ℕ) (hm : m ≤ 3) (hl : m < l.length)
    (hi : Incomplete (l.take m)) (hn : ¬ Incomplete (l.take (m+1)))
    (hs : ¬ Sequence (l.take (m+1))) : Stuck l (some (max m 1)) := by
  refine ⟨?_, ?_, ?_⟩
  · intro c hc hp
    have hcl := List.prefix_iff_eq_take.mp hp
    rcases Nat.lt_or_ge m c.length with h | h
    · rcases Nat.lt_or_ge (m+1) c.length with h' | h'
      · refine hn ⟨c, hc, ?_, ?_⟩
        · rw [hcl]
          exact List.take_prefix_take_left (by omega)
        · intro he
          have := congrArg List.length he
          simp at this
          omega
      · have he : c.length = m+1 := by omega
        rw [← he, ← hcl] at hs
        exact hs hc
    · refine not_prefix_incomplete hc hi ?_
      rw [hcl]
      exact List.take_prefix_take_left h
  · simp only [reduceCtorEq, false_iff]
    exact fun h => hn (h.of_prefix (List.take_prefix _ _))
  · rintro k hk
    obtain rfl : max m 1 = k := by simpa using hk
    refine ⟨by omega, by omega, m, ⟨⟨hl.le, hi⟩, ?_⟩, rfl⟩
    rintro n ⟨-, hn'⟩
    by_contra hlt
    exact hn (hn'.of_prefix (List.take_prefix_take_left (by omega)))

def Scan.Correct (l : List UInt8) : Scan → Prop
  | .char n => Sequence (l.take n) ∧ 0 < n ∧ n ≤ l.length
  | .bad k => Stuck l (some k)
  | .cut => Stuck l none

theorem not_lead3 {a b : UInt8} (h : a < 0xE0 ∨ 0xEF < a) : ¬ Lead3 a b := by
  intro h3
  have := lead3_range h3
  grind

theorem not_lead4 {a b : UInt8} (h : a < 0xF0 ∨ 0xF4 < a) : ¬ Lead4 a b := by
  intro h4
  have := lead4_range h4
  grind

theorem scan_correct (l : List UInt8) (hl : l ≠ []) : (scan l).Correct l := by
  fun_cases scan l with
  | case1 => exact absurd rfl hl
  | case2 a l h => exact ⟨by simpa [sequence_one] using h, by simp⟩
  | case3 a l h1 h2 =>
    refine stuck_bad 0 (by omega) (by simp) incomplete_nil ?_ ?_
    · simp only [zero_add, List.take_succ_cons, List.take_zero, incomplete_one]
      grind
    · simpa [sequence_one] using h1
  | case4 a h1 h2 h3 => exact stuck_cut ((incomplete_one a).mpr (by grind))
  | case5 a h1 h2 h3 b l hb => exact ⟨.two ⟨by grind, h3⟩ hb, by simp⟩
  | case6 a h1 h2 h3 b l hb =>
    refine stuck_bad 1 (by omega) (by simp) ((incomplete_one a).mpr (by grind)) ?_ ?_
    · simp only [List.take_succ_cons, List.take_zero, incomplete_two, Nat.reduceAdd]
      simp [not_lead3 (b := b) (.inl (show a < 0xE0 by grind)),
        not_lead4 (b := b) (.inl (show a < 0xF0 by grind))]
    · simp [sequence_two, hb]
  | case7 a h1 h2 h3 h4 => exact stuck_cut ((incomplete_one a).mpr (by grind))
  | case8 a h1 h2 h3 h4 b hab => exact stuck_cut ((incomplete_two a b).mpr (.inl hab))
  | case9 a h1 h2 h3 h4 b hab c l hc => exact ⟨.three hab hc, by simp⟩
  | case10 a h1 h2 h3 h4 b hab c l hc =>
    refine stuck_bad 2 (by omega) (by simp) ((incomplete_two a b).mpr (.inl hab)) ?_ ?_
    · simp [incomplete_three, hc]
    · simp [sequence_three, hc]
  | case11 a h1 h2 h3 h4 b l hab =>
    refine stuck_bad 1 (by omega) (by simp) ((incomplete_one a).mpr (by grind)) ?_ ?_
    · simp [incomplete_two, hab, not_lead4 (b := b) (.inl (show a < 0xF0 by grind))]
    · simp [sequence_two, h3]
  | case12 a h1 h2 h3 h4 => exact stuck_cut ((incomplete_one a).mpr (by grind))
  | case13 a h1 h2 h3 h4 b hab => exact stuck_cut ((incomplete_two a b).mpr (.inr hab))
  | case14 a h1 h2 h3 h4 b hab c hc =>
    exact stuck_cut ((incomplete_three a b c).mpr ⟨hab, hc⟩)
  | case15 a h1 h2 h3 h4 b hab c hc d l hd => exact ⟨.four hab hc hd, by simp⟩
  | case16 a h1 h2 h3 h4 b hab c hc d l hd =>
    refine stuck_bad 3 (by omega) (by simp) ((incomplete_three a b c).mpr ⟨hab, hc⟩) ?_ ?_
    · exact not_incomplete_long _ (by simp)
    · simp [sequence_four, hd]
  | case17 a h1 h2 h3 h4 b hab c l hc =>
    refine stuck_bad 2 (by omega) (by simp) ((incomplete_two a b).mpr (.inr hab)) ?_ ?_
    · simp [incomplete_three, hc]
    · simp [sequence_three, hc]
  | case18 a h1 h2 h3 h4 b l hab =>
    refine stuck_bad 1 (by omega) (by simp) ((incomplete_one a).mpr (by grind)) ?_ ?_
    · simp [incomplete_two, hab, not_lead3 (b := b) (.inr (show 0xEF < a by grind))]
    · simp [sequence_two, h3]

end RustStd.Utf8Grammar
