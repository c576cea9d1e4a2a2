import RustStd.Str.Iter
import RustStd.Str.StrSearcher

/-!
# Searching for chars

The searchers behind a `char` and behind a predicate on chars. Both look at a
window of the haystack; a match takes the window's text up to its end, or from
its start on, away. `Searches` says what a searcher finds in terms of the chars
of the window.

`CharSearcher` looks for the last byte of the needle and compares the bytes
before it, so in the middle of a search its finger may stand inside a char. No
char but the needle has the needle's bytes, and an occurrence of them starts at
a char, so a search finds the first or the last needle of the window.
-/

set_option autoImplicit false

namespace RustStd.CharPattern
open RustStd.Loop RustStd.Utf8Grammar RustStd.Chars RustStd.CharMethods RustStd.StrIter
open RustStd.TwoWay (SearchStep OccursAt)
open RustStd.Pattern (matchLoop callBound)

/-- What a pattern's searcher is used for here. -/
structure Searcher (τ : Type) where
  haystack : τ → List UInt8
  nextMatch : τ → Option (Option (ℕ × ℕ) × τ)
  nextMatchBack : τ → Option (Option (ℕ × ℕ) × τ)

def get (s : List UInt8) (a b : ℕ) : Option (List UInt8) :=
  if a ≤ b ∧ b ≤ s.length then some ((s.take b).drop a) else none

/-- `memchr::memchr`: the first index that holds the byte. -/
def memchr (x : UInt8) (text : List UInt8) : Option ℕ := text.findIdx? (· == x)

/-- `memchr::memrchr`: the last index that holds the byte. -/
def memrchr (x : UInt8) (text : List UInt8) : Option ℕ :=
  (memchr x text.reverse).map fun i => text.length-1-i

structure CharSearcher where
  haystack : List UInt8
  finger : ℕ
  fingerBack : ℕ
  needle : Char
  utf8Size : ℕ
  utf8Encoded : List UInt8
  deriving DecidableEq, Repr

def intoSearcher (needle : Char) (haystack : List UInt8) : Option CharSearcher := do
  let (encoded, buffer) ← encodeUtf8 needle [0, 0, 0, 0]
  return { haystack, finger := 0, fingerBack := haystack.length, needle
           utf8Size := encoded.length, utf8Encoded := buffer }

namespace CharSearcher

def nextMatchBody (self : CharSearcher) :
    Option (CharSearcher ⊕ (Option (ℕ × ℕ) × CharSearcher)) :=
  match get self.haystack self.finger self.fingerBack with
  | none => some (.inr (none, self))
  | some bytes => do
    let lastByte ← self.utf8Encoded[self.utf8Size-1]?
    match memchr lastByte bytes with
    | some index =>
      let self := { self with finger := self.finger+(index+1) }
      if self.finger ≥ self.utf8Size then
        let foundChar := self.finger-self.utf8Size
        if get self.haystack foundChar self.finger = some (self.utf8Encoded.take self.utf8Size) then
          return .inr (some (foundChar, self.finger), self)
        else return .inl self
      else return .inl self
    | none => return .inr (none, { self with finger := self.fingerBack })

def nextMatch (self : CharSearcher) : Option (Option (ℕ × ℕ) × CharSearcher) :=
  loop nextMatchBody (self.fingerBack+1) self

def nextMatchBackBody (self : CharSearcher) :
    Option (CharSearcher ⊕ (Option (ℕ × ℕ) × CharSearcher)) :=
  match get self.haystack self.finger self.fingerBack with
  | none => some (.inr (none, self))
  | some bytes => do
    let lastByte ← self.utf8Encoded[self.utf8Size-1]?
    match memrchr lastByte bytes with
    | some index =>
      let index := self.finger+index
      let shift := self.utf8Size-1
      if index ≥ shift then
        let foundChar := index-shift
        if get self.haystack foundChar (foundChar+self.utf8Size) =
            some (self.utf8Encoded.take self.utf8Size) then
          return .inr (some (foundChar, foundChar+self.utf8Size),
            { self with fingerBack := foundChar })
        else return .inl { self with fingerBack := index }
      else return .inl { self with fingerBack := index }
    | none => return .inr (none, { self with fingerBack := self.finger })

def nextMatchBack (self : CharSearcher) : Option (Option (ℕ × ℕ) × CharSearcher) :=
  loop nextMatchBackBody (self.fingerBack+1) self

def searcher : Searcher CharSearcher :=
  { haystack := CharSearcher.haystack, nextMatch, nextMatchBack }

end CharSearcher

/-- `MultiCharEqSearcher` with a predicate for its set of chars. -/
structure MultiCharEqSearcher where
  charEq : Char → Bool
  haystack : List UInt8
  charIndices : CharIndices

def intoMultiCharEqSearcher (charEq : Char → Bool) (haystack : List UInt8) :
    MultiCharEqSearcher :=
  { charEq, haystack, charIndices := charIndices haystack }

namespace MultiCharEqSearcher

def step (self : MultiCharEqSearcher) :
    Option (ℕ × Char) × CharIndices → SearchStep × MultiCharEqSearcher
  | (none, charIndices) => (.Done, { self with charIndices })
  | (some (i, c), charIndices) =>
    let preLen := self.charIndices.iter.iter.length
    let len := charIndices.iter.iter.length
    let charLen := preLen-len
    (if self.charEq c then .Match i (i+charLen) else .Reject i (i+charLen),
      { self with charIndices })

def next (self : MultiCharEqSearcher) : Option (SearchStep × MultiCharEqSearcher) :=
  self.charIndices.next.map self.step

def nextBack (self : MultiCharEqSearcher) : Option (SearchStep × MultiCharEqSearcher) :=
  self.charIndices.nextBack.map self.step

def nextMatch (self : MultiCharEqSearcher) : Option (Option (ℕ × ℕ) × MultiCharEqSearcher) :=
  matchLoop next (callBound self.haystack) self

def nextMatchBack (self : MultiCharEqSearcher) : Option (Option (ℕ × ℕ) × MultiCharEqSearcher) :=
  matchLoop nextBack (callBound self.haystack) self

def searcher : Searcher MultiCharEqSearcher :=
  { haystack := MultiCharEqSearcher.haystack, nextMatch, nextMatchBack }

end MultiCharEqSearcher

def size (cs : List Char) : ℕ := (encoded cs).length

@[simp] theorem size_nil : size [] = 0 := rfl

@[simp] theorem size_append (cs ds : List Char) : size (cs ++ ds) = size cs+size ds := by
  simp [size, encoded_append]

theorem size_cons (c : Char) (cs : List Char) : size (c :: cs) = size [c]+size cs := by
  rw [← size_append]
  rfl

theorem size_pos (c : Char) : 0 < size [c] := by
  have hne := (utf8Bytes_sequence c).1.ne_nil
  simpa [size, encoded] using List.length_pos_of_ne_nil hne

theorem size_le_of_isPrefix {cs ds : List Char} (h : cs <+: ds) : size cs ≤ size ds := by
  obtain ⟨r, rfl⟩ := h
  simp

/-- The searcher `t` looks at the chars `ds` between `b` and `a`, and its matches are the
chars that satisfy `p`. -/
structure Searches {τ : Type} (S : Searcher τ) (p : Char → Bool)
    (W : τ → List Char → List Char → List Char → Prop) : Prop where
  haystack : ∀ t b ds a, W t b ds a → S.haystack t = encoded (b ++ ds ++ a)
  next_some : ∀ t b us c vs a, W t b (us ++ c :: vs) a → (∀ u ∈ us, p u = false) → p c = true →
    ∃ t', S.nextMatch t = some (some (size (b ++ us), size (b ++ us ++ [c])), t') ∧
      W t' (b ++ us ++ [c]) vs a
  next_none : ∀ t b ds a, W t b ds a → (∀ u ∈ ds, p u = false) →
    ∃ t', S.nextMatch t = some (none, t') ∧ S.haystack t' = S.haystack t
  back_some : ∀ t b us c vs a, W t b (us ++ c :: vs) a → (∀ v ∈ vs, p v = false) → p c = true →
    ∃ t', S.nextMatchBack t = some (some (size (b ++ us), size (b ++ us ++ [c])), t') ∧
      W t' b us (c :: vs ++ a)
  back_none : ∀ t b ds a, W t b ds a → (∀ u ∈ ds, p u = false) →
    ∃ t', S.nextMatchBack t = some (none, t') ∧ S.haystack t' = S.haystack t

theorem exists_of_occursAt {n : Char} {cs : List Char} {q : ℕ}
    (h : OccursAt (utf8Bytes n.toNat) (encoded cs) q) :
    ∃ xs ys, cs = xs ++ n :: ys ∧ q = size xs := by
  have hseq := (utf8Bytes_sequence n).1
  have hwf := encoded_wellFormed cs
  have hb := (Pattern.occursAt_boundaries hwf hseq.wellFormed hseq.ne_nil h).1
  obtain ⟨hle, htake⟩ := (isCharBoundary_iff hwf q).mp hb
  obtain ⟨xs, hxs⟩ := exists_encoded htake
  obtain ⟨ds, hds⟩ := exists_encoded (Pattern.wellFormed_drop hwf hb)
  have hcs : cs = xs ++ ds := by
    apply encoded_injective
    rw [encoded_append, hxs, hds, List.take_append_drop]
  obtain ⟨r, hr⟩ := h
  rw [← hds] at hr
  have hlen : q = size xs := by
    rw [size, hxs, List.length_take]
    omega
  cases ds with
  | nil => exact absurd (List.append_eq_nil_iff.mp hr).1 hseq.ne_nil
  | cons d ds =>
    rw [encoded_cons] at hr
    obtain rfl := utf8Bytes_injective (hseq.prefix_free (utf8Bytes_sequence d).1 hr).1
    exact ⟨xs, ds, hcs, hlen⟩

theorem outside {n : Char} {b us r xs ys : List Char} (h : b ++ us ++ r = xs ++ n :: ys)
    (hn : n ∉ us) : xs ++ [n] <+: b ∨ b ++ us <+: xs := by
  have hx : xs ++ [n] <+: b ++ us ++ r := ⟨ys, by simp [h]⟩
  have hbu : b ++ us <+: b ++ us ++ r := List.prefix_append ..
  have hb : b <+: b ++ us ++ r := ⟨us ++ r, by simp⟩
  by_cases hlt : xs.length < b.length
  · exact Or.inl (List.prefix_of_prefix_length_le hx hb (by simpa using hlt))
  by_cases hge : (b ++ us).length ≤ xs.length
  · exact Or.inr (List.prefix_of_prefix_length_le hbu ⟨n :: ys, h.symm⟩ hge)
  · exfalso
    apply hn
    have hget : (b ++ us ++ r)[xs.length]? = some n := by
      rw [h, List.getElem?_append_right le_rfl]
      simp
    rw [List.length_append] at hge
    rw [List.append_assoc, List.getElem?_append_right (by omega),
      List.getElem?_append_left (by omega)] at hget
    exact List.mem_of_getElem? hget

theorem get_eq_iff {s l : List UInt8} (hl : l ≠ []) {q e : ℕ} (he : e = q+l.length) :
    get s q e = some l ↔ OccursAt l s q := by
  subst he
  have hpos := List.length_pos_of_ne_nil hl
  unfold get OccursAt
  constructor
  · intro hg
    split_ifs at hg with hle
    · rw [List.drop_take, Nat.add_sub_cancel_left] at hg
      exact ⟨_, by rw [← Option.some.inj hg, List.take_append_drop]⟩
  · intro hp
    have hlen := hp.length_le
    rw [List.length_drop] at hlen
    rw [if_pos (by omega), List.drop_take, Nat.add_sub_cancel_left, ← List.prefix_iff_eq_take.mp hp]

theorem memchr_le {x : UInt8} {text : List UInt8} {j : ℕ} (h : text[j]? = some x) :
    ∃ i ≤ j, memchr x text = some i := by
  cases hm : memchr x text with
  | none =>
    have hx := List.findIdx?_eq_none_iff.mp hm x (List.mem_of_getElem? h)
    simp at hx
  | some i =>
    refine ⟨i, ?_, rfl⟩
    obtain ⟨hi, -, hmin⟩ := List.findIdx?_eq_some_iff_getElem.mp hm
    by_contra hlt
    have hj := hmin j (by omega)
    obtain ⟨hjl, hje⟩ := List.getElem?_eq_some_iff.mp h
    simp [hje] at hj

theorem memchr_lt {x : UInt8} {text : List UInt8} {i : ℕ} (h : memchr x text = some i) :
    i < text.length :=
  (List.findIdx?_eq_some_iff_getElem.mp h).1

theorem memrchr_ge {x : UInt8} {text : List UInt8} {j : ℕ} (h : text[j]? = some x) :
    ∃ i, j ≤ i ∧ memrchr x text = some i := by
  have hj := (List.getElem?_eq_some_iff.mp h).1
  have hrev : text.reverse[text.length-1-j]? = some x := by
    rw [List.getElem?_reverse (by omega), show text.length-1-(text.length-1-j) = j by omega, h]
  obtain ⟨i, hi, hm⟩ := memchr_le hrev
  exact ⟨text.length-1-i, by omega, by rw [memrchr, hm, Option.map_some]⟩

theorem memrchr_lt {x : UInt8} {text : List UInt8} {i : ℕ} (h : memrchr x text = some i) :
    i < text.length := by
  obtain ⟨k, hk, rfl⟩ := Option.map_eq_some_iff.mp h
  have := memchr_lt hk
  rw [List.length_reverse] at this
  omega

/-- The needle stands in the text with its last byte before `e`. -/
def EndsAt (n : Char) (cs : List Char) (e : ℕ) : Prop :=
  ∃ xs ys, cs = xs ++ n :: ys ∧ e = size xs+size [n]

theorem size_singleton (n : Char) : size [n] = (utf8Bytes n.toNat).length := by
  simp [size, encoded]

theorem endsAt_iff {n : Char} {cs : List Char} {e : ℕ} :
    EndsAt n cs e ↔ size [n] ≤ e ∧ OccursAt (utf8Bytes n.toNat) (encoded cs) (e-size [n]) := by
  constructor
  · rintro ⟨xs, ys, rfl, rfl⟩
    refine ⟨Nat.le_add_left .., encoded ys, ?_⟩
    rw [Nat.add_sub_cancel, encoded_append, encoded_cons, size, List.drop_left]
  · rintro ⟨hle, hocc⟩
    obtain ⟨xs, ys, hcs, hxs⟩ := exists_of_occursAt hocc
    exact ⟨xs, ys, hcs, by omega⟩

theorem EndsAt.getElem? {n : Char} {cs : List Char} {e : ℕ} {x : UInt8} (h : EndsAt n cs e)
    (hx : (utf8Bytes n.toNat)[size [n]-1]? = some x) : (encoded cs)[e-1]? = some x := by
  obtain ⟨xs, ys, rfl, rfl⟩ := h
  have hpos := size_pos n
  have hlen : (encoded xs).length = size xs := rfl
  rw [size_singleton] at hx hpos ⊢
  rw [encoded_append, encoded_cons, List.getElem?_append_right (by omega),
    List.getElem?_append_left (by omega), ← hx]
  congr 1
  omega

theorem EndsAt.outside {n : Char} {b us r : List Char} {e : ℕ} (h : EndsAt n (b ++ us ++ r) e)
    (hn : n ∉ us) : e ≤ size b ∨ size (b ++ us)+size [n] ≤ e := by
  obtain ⟨xs, ys, hcs, rfl⟩ := h
  rcases CharPattern.outside hcs hn with hb | hr
  · left
    simpa using size_le_of_isPrefix hb
  · right
    have := size_le_of_isPrefix hr
    omega

namespace CharSearcher

/-- The searcher looks for `n` in the text `cs`, between its fingers. -/
structure Valid (n : Char) (cs : List Char) (s : CharSearcher) : Prop where
  haystack : s.haystack = encoded cs
  utf8Size : s.utf8Size = size [n]
  utf8Encoded : s.utf8Encoded.take s.utf8Size = utf8Bytes n.toNat
  finger : s.finger ≤ s.fingerBack
  fingerBack : s.fingerBack ≤ size cs

variable {n : Char} {cs : List Char} {s : CharSearcher}

def window (s : CharSearcher) : List UInt8 := (s.haystack.take s.fingerBack).drop s.finger

theorem Valid.get_window (h : Valid n cs s) :
    get s.haystack s.finger s.fingerBack = some s.window := by
  have hle : s.fingerBack ≤ s.haystack.length := by
    rw [h.haystack]
    exact h.fingerBack
  rw [get, if_pos ⟨h.finger, hle⟩, window]

theorem Valid.length_window (h : Valid n cs s) : s.window.length = s.fingerBack-s.finger := by
  have hle : s.fingerBack ≤ s.haystack.length := by
    rw [h.haystack]
    exact h.fingerBack
  rw [window, List.length_drop, List.length_take, min_eq_left hle]

theorem Valid.lastByte (h : Valid n cs s) :
    ∃ x, s.utf8Encoded[s.utf8Size-1]? = some x ∧ (utf8Bytes n.toNat)[size [n]-1]? = some x := by
  have hpos := size_pos n
  have hlt : size [n]-1 < (utf8Bytes n.toNat).length := by
    rw [← size_singleton]
    omega
  refine ⟨(utf8Bytes n.toNat)[size [n]-1], ?_, List.getElem?_eq_getElem hlt⟩
  rw [← List.getElem?_eq_getElem hlt, ← h.utf8Encoded, List.getElem?_take, if_pos
    (by rw [h.utf8Size]; omega), h.utf8Size]

theorem Valid.window_getElem? (h : Valid n cs s) {x : UInt8}
    (hx : (utf8Bytes n.toNat)[size [n]-1]? = some x) {e : ℕ} (he : EndsAt n cs e)
    (hf : s.finger < e) (hb : e ≤ s.fingerBack) : s.window[e-1-s.finger]? = some x := by
  rw [window, List.getElem?_drop, List.getElem?_take, if_pos (by omega), h.haystack,
    show s.finger+(e-1-s.finger) = e-1 by omega]
  exact he.getElem? hx

theorem Valid.get_iff (h : Valid n cs s) {e : ℕ} :
    (s.utf8Size ≤ e ∧ get s.haystack (e-s.utf8Size) e =
      some (s.utf8Encoded.take s.utf8Size)) ↔ EndsAt n cs e := by
  rw [endsAt_iff, h.utf8Encoded, h.utf8Size, h.haystack]
  refine and_congr_right fun hle => get_eq_iff (utf8Bytes_sequence n).1.ne_nil ?_
  rw [← size_singleton]
  omega

theorem Valid.nextMatchBody (h : Valid n cs s) :
    (s.nextMatchBody = some (.inr (none, { s with finger := s.fingerBack })) ∧
      ∀ e, EndsAt n cs e → e ≤ s.finger ∨ s.fingerBack < e) ∨
    ∃ e, s.finger < e ∧ e ≤ s.fingerBack ∧
      (∀ e', EndsAt n cs e' → e' ≤ s.finger ∨ e ≤ e') ∧
      (EndsAt n cs e ∧ s.nextMatchBody =
          some (.inr (some (e-size [n], e), { s with finger := e })) ∨
        ¬ EndsAt n cs e ∧ s.nextMatchBody = some (.inl { s with finger := e })) := by
  obtain ⟨x, hlast, hx⟩ := h.lastByte
  unfold CharSearcher.nextMatchBody
  simp only [h.get_window, hlast, some_bind]
  cases hm : memchr x s.window with
  | none =>
    left
    refine ⟨rfl, fun e he => ?_⟩
    by_contra hin
    obtain ⟨i, -, hi⟩ := memchr_le (h.window_getElem? hx he (by omega) (by omega))
    rw [hm] at hi
    cases hi
  | some i =>
    right
    have hlt := memchr_lt hm
    rw [h.length_window] at hlt
    refine ⟨s.finger+(i+1), by omega, by omega, fun e' he' => ?_, ?_⟩
    · by_contra hin
      obtain ⟨j, hj, hmj⟩ := memchr_le (h.window_getElem? hx he' (by omega) (by omega))
      obtain rfl := Option.some.inj (hm.symm.trans hmj)
      omega
    · by_cases he : EndsAt n cs (s.finger+(i+1))
      · obtain ⟨hle, hget⟩ := h.get_iff.mpr he
        left
        refine ⟨he, ?_⟩
        rw [← h.utf8Size]
        simp only [ge_iff_le, if_pos hle, if_pos hget]
        rfl
      · right
        refine ⟨he, ?_⟩
        have hno := mt h.get_iff.mp he
        by_cases hle : s.utf8Size ≤ s.finger+(i+1)
        · have hget := fun hg => hno ⟨hle, hg⟩
          simp only [ge_iff_le, if_pos hle, if_neg hget]
          rfl
        · simp only [ge_iff_le, if_neg hle]
          rfl

theorem Valid.nextMatchBackBody (h : Valid n cs s) :
    (s.nextMatchBackBody = some (.inr (none, { s with fingerBack := s.finger })) ∧
      ∀ e, EndsAt n cs e → e ≤ s.finger ∨ s.fingerBack < e) ∨
    ∃ e, s.finger < e ∧ e ≤ s.fingerBack ∧
      (∀ e', EndsAt n cs e' → e' ≤ e ∨ s.fingerBack < e') ∧
      (EndsAt n cs e ∧ s.nextMatchBackBody =
          some (.inr (some (e-size [n], e), { s with fingerBack := e-size [n] })) ∨
        ¬ EndsAt n cs e ∧ s.nextMatchBackBody = some (.inl { s with fingerBack := e-1 })) := by
  obtain ⟨x, hlast, hx⟩ := h.lastByte
  have hpos := size_pos n
  have husize := h.utf8Size
  unfold CharSearcher.nextMatchBackBody
  simp only [h.get_window, hlast, some_bind]
  cases hm : memrchr x s.window with
  | none =>
    left
    refine ⟨rfl, fun e he => ?_⟩
    by_contra hin
    obtain ⟨i, -, hi⟩ := memrchr_ge (h.window_getElem? hx he (by omega) (by omega))
    rw [hm] at hi
    cases hi
  | some i =>
    right
    have hlt := memrchr_lt hm
    rw [h.length_window] at hlt
    refine ⟨s.finger+i+1, by omega, by omega, fun e' he' => ?_, ?_⟩
    · by_contra hin
      obtain ⟨j, hj, hmj⟩ := memrchr_ge (h.window_getElem? hx he' (by omega) (by omega))
      obtain rfl := Option.some.inj (hm.symm.trans hmj)
      omega
    · have hshift : s.utf8Size-1 ≤ s.finger+i ↔ s.utf8Size ≤ s.finger+i+1 := by omega
      have hfound : s.finger+i-(s.utf8Size-1) = s.finger+i+1-s.utf8Size := by omega
      by_cases he : EndsAt n cs (s.finger+i+1)
      · obtain ⟨hle, hget⟩ := h.get_iff.mpr he
        left
        refine ⟨he, ?_⟩
        rw [← h.utf8Size]
        simp only [ge_iff_le, hshift, hfound, Nat.sub_add_cancel hle, if_pos hle, if_pos hget]
        rfl
      · right
        refine ⟨he, ?_⟩
        have hno := mt h.get_iff.mp he
        by_cases hle : s.utf8Size ≤ s.finger+i+1
        · have hget := fun hg => hno ⟨hle, hg⟩
          simp only [ge_iff_le, hshift, hfound, Nat.sub_add_cancel hle, if_pos hle, if_neg hget]
          rfl
        · simp only [ge_iff_le, hshift, if_neg hle]
          rfl

theorem Valid.setFinger (h : Valid n cs s) {e : ℕ} (he : e ≤ s.fingerBack) :
    Valid n cs { s with finger := e } :=
  ⟨h.haystack, h.utf8Size, h.utf8Encoded, he, h.fingerBack⟩

theorem Valid.setFingerBack (h : Valid n cs s) {e : ℕ} (he : s.finger ≤ e)
    (hb : e ≤ s.fingerBack) : Valid n cs { s with fingerBack := e } :=
  ⟨h.haystack, h.utf8Size, h.utf8Encoded, he, hb.trans h.fingerBack⟩

theorem Valid.loop_nextMatch (h : Valid n cs s) {fuel : ℕ} (hf : s.fingerBack-s.finger < fuel) :
    (loop CharSearcher.nextMatchBody fuel s = some (none, { s with finger := s.fingerBack }) ∧
      ∀ e, EndsAt n cs e → e ≤ s.finger ∨ s.fingerBack < e) ∨
    ∃ e, EndsAt n cs e ∧ s.finger < e ∧ e ≤ s.fingerBack ∧
      (∀ e', EndsAt n cs e' → e' ≤ s.finger ∨ e ≤ e') ∧
      loop CharSearcher.nextMatchBody fuel s =
        some (some (e-size [n], e), { s with finger := e }) := by
  induction fuel generalizing s with
  | zero => omega
  | succ fuel ih =>
    unfold loop
    rcases h.nextMatchBody with ⟨hbody, hno⟩ | ⟨e, hlt, hle, hmin, hcase⟩
    · left
      exact ⟨by rw [hbody], hno⟩
    rcases hcase with ⟨he, hbody⟩ | ⟨he, hbody⟩
    · right
      exact ⟨e, he, hlt, hle, hmin, by rw [hbody]⟩
    · rw [hbody]
      -- no needle ends up to the new finger, so the rest of the search decides
      have hskip : ∀ e', EndsAt n cs e' → e' ≤ s.finger ∨ e < e' := by
        intro e' he'
        have hne : e' ≠ e := fun heq => he (heq ▸ he')
        have := hmin e' he'
        omega
      rcases ih (h.setFinger hle) (by dsimp only; omega) with
        ⟨ht, hno⟩ | ⟨e₁, he₁, hlt₁, hle₁, hmin₁, ht⟩
      · left
        refine ⟨ht, fun e' he' => ?_⟩
        have h₁ := hno e' he'
        have h₂ := hskip e' he'
        dsimp only at h₁
        omega
      · right
        dsimp only at hlt₁ hle₁
        refine ⟨e₁, he₁, by omega, hle₁, fun e' he' => ?_, ht⟩
        have h₁ := hmin₁ e' he'
        have h₂ := hskip e' he'
        dsimp only at h₁
        omega

theorem Valid.loop_nextMatchBack (h : Valid n cs s) {fuel : ℕ}
    (hf : s.fingerBack-s.finger < fuel) :
    (loop CharSearcher.nextMatchBackBody fuel s = some (none, { s with fingerBack := s.finger }) ∧
      ∀ e, EndsAt n cs e → e ≤ s.finger ∨ s.fingerBack < e) ∨
    ∃ e, EndsAt n cs e ∧ s.finger < e ∧ e ≤ s.fingerBack ∧
      (∀ e', EndsAt n cs e' → e' ≤ e ∨ s.fingerBack < e') ∧
      loop CharSearcher.nextMatchBackBody fuel s =
        some (some (e-size [n], e), { s with fingerBack := e-size [n] }) := by
  induction fuel generalizing s with
  | zero => omega
  | succ fuel ih =>
    unfold loop
    rcases h.nextMatchBackBody with ⟨hbody, hno⟩ | ⟨e, hlt, hle, hmax, hcase⟩
    · left
      exact ⟨by rw [hbody], hno⟩
    rcases hcase with ⟨he, hbody⟩ | ⟨he, hbody⟩
    · right
      exact ⟨e, he, hlt, hle, hmax, by rw [hbody]⟩
    · rw [hbody]
      have hskip : ∀ e', EndsAt n cs e' → e' ≤ e-1 ∨ s.fingerBack < e' := by
        intro e' he'
        have hne : e' ≠ e := fun heq => he (heq ▸ he')
        have := hmax e' he'
        omega
      rcases ih (h.setFingerBack (e := e-1) (by omega) (by omega)) (by dsimp only; omega) with
        ⟨ht, hno⟩ | ⟨e₁, he₁, hlt₁, hle₁, hmax₁, ht⟩
      · left
        refine ⟨ht, fun e' he' => ?_⟩
        have h₁ := hno e' he'
        have h₂ := hskip e' he'
        dsimp only at h₁
        omega
      · right
        dsimp only at hlt₁ hle₁
        refine ⟨e₁, he₁, hlt₁, by omega, fun e' he' => ?_, ht⟩
        have h₁ := hmax₁ e' he'
        have h₂ := hskip e' he'
        dsimp only at h₁
        omega

/-- The searcher looks for `n` among `ds`. -/
structure Window (n : Char) (s : CharSearcher) (b ds a : List Char) : Prop where
  haystack : s.haystack = encoded (b ++ ds ++ a)
  finger : s.finger = size b
  fingerBack : s.fingerBack = size (b ++ ds)
  utf8Size : s.utf8Size = size [n]
  utf8Encoded : s.utf8Encoded.take s.utf8Size = utf8Bytes n.toNat

theorem Window.valid {b ds a : List Char} (h : Window n s b ds a) : Valid n (b ++ ds ++ a) s where
  haystack := h.haystack
  utf8Size := h.utf8Size
  utf8Encoded := h.utf8Encoded
  finger := by
    rw [h.finger, h.fingerBack, size_append]
    omega
  fingerBack := by
    rw [h.fingerBack, size_append _ a]
    omega

theorem lt_rounds (s : CharSearcher) : s.fingerBack-s.finger < s.fingerBack+1 := by omega

theorem Window.no_end {b ds a : List Char} (h : Window n s b ds a)
    (hds : ∀ u ∈ ds, (u == n) = false) {e : ℕ} (he : EndsAt n (b ++ ds ++ a) e) :
    e ≤ s.finger ∨ s.fingerBack < e := by
  have hn : n ∉ ds := fun hmem => by simpa using hds n hmem
  have hout := he.outside hn
  have hpos := size_pos n
  rw [h.finger, h.fingerBack]
  omega

section Found
variable {b ds us vs a : List Char}

theorem Window.nextMatch_some (h : Window n s b (us ++ n :: vs) a) (hn : n ∉ us) :
    s.nextMatch = some (some (size (b ++ us), size (b ++ us ++ [n])),
      { s with finger := size (b ++ us ++ [n]) }) ∧
    Window n { s with finger := size (b ++ us ++ [n]) } (b ++ us ++ [n]) vs a := by
  have hend : EndsAt n (b ++ (us ++ n :: vs) ++ a) (size (b ++ us)+size [n]) :=
    ⟨b ++ us, vs ++ a, by simp, rfl⟩
  have hfb := h.fingerBack
  have hf := h.finger
  have hpos := size_pos n
  simp only [size_append, size_cons n vs] at hfb
  rcases h.valid.loop_nextMatch (lt_rounds s) with ⟨-, hno⟩ | ⟨e, he, hlt, -, hmin, hres⟩
  · exfalso
    have := hno _ hend
    rw [size_append] at this
    omega
  · have hle := hmin _ hend
    have hge : e ≤ size b ∨ size (b ++ us)+size [n] ≤ e := by
      refine EndsAt.outside (r := n :: vs ++ a) ?_ hn
      simpa using he
    obtain rfl : e = size (b ++ us ++ [n]) := by
      rw [size_append] at hle hge ⊢
      rw [size_append]
      omega
    refine ⟨hres.trans ?_, ?_⟩
    · simp only [size_append, Nat.add_sub_cancel]
    · exact ⟨by simpa using h.haystack, rfl, by simpa using h.fingerBack, h.utf8Size,
        h.utf8Encoded⟩

theorem Window.nextMatch_none (h : Window n s b ds a) (hn : n ∉ ds) :
    s.nextMatch = some (none, { s with finger := s.fingerBack }) ∧
      Window n { s with finger := s.fingerBack } (b ++ ds) [] a := by
  have hds : ∀ u ∈ ds, (u == n) = false := by
    intro u hu
    rw [beq_eq_false_iff_ne]
    exact fun he => hn (he ▸ hu)
  rcases h.valid.loop_nextMatch (lt_rounds s) with ⟨ht, -⟩ | ⟨e, he, hlt, hle, -, -⟩
  · exact ⟨ht, by simpa using h.haystack, h.fingerBack, by simpa using h.fingerBack, h.utf8Size,
      h.utf8Encoded⟩
  · exfalso
    have := h.no_end hds he
    omega

theorem Window.nextMatchBack_some (h : Window n s b (us ++ n :: vs) a) (hn : n ∉ vs) :
    s.nextMatchBack = some (some (size (b ++ us), size (b ++ us ++ [n])),
      { s with fingerBack := size (b ++ us) }) ∧
    Window n { s with fingerBack := size (b ++ us) } b us (n :: vs ++ a) := by
  have hend : EndsAt n (b ++ (us ++ n :: vs) ++ a) (size (b ++ us)+size [n]) :=
    ⟨b ++ us, vs ++ a, by simp, rfl⟩
  have hfb := h.fingerBack
  have hf := h.finger
  have hpos := size_pos n
  simp only [size_append, size_cons n vs] at hfb
  rcases h.valid.loop_nextMatchBack (lt_rounds s) with ⟨-, hno⟩ | ⟨e, he, -, hle, hmax, hres⟩
  · exfalso
    have := hno _ hend
    rw [size_append] at this
    omega
  · have hge := hmax _ hend
    have hle' : e ≤ size (b ++ us ++ [n]) ∨ size (b ++ us ++ [n] ++ vs)+size [n] ≤ e := by
      refine EndsAt.outside (r := a) ?_ hn
      simpa using he
    obtain rfl : e = size (b ++ us ++ [n]) := by
      simp only [size_append] at hge hle' ⊢
      omega
    have hstart : size (b ++ us ++ [n])-size [n] = size (b ++ us) := by
      rw [size_append _ [n], Nat.add_sub_cancel]
    rw [hstart] at hres
    exact ⟨hres, by simpa using h.haystack, h.finger, rfl, h.utf8Size, h.utf8Encoded⟩

theorem Window.nextMatchBack_none (h : Window n s b ds a) (hn : n ∉ ds) :
    s.nextMatchBack = some (none, { s with fingerBack := s.finger }) ∧
      Window n { s with fingerBack := s.finger } b [] (ds ++ a) := by
  have hds : ∀ u ∈ ds, (u == n) = false := by
    intro u hu
    rw [beq_eq_false_iff_ne]
    exact fun he => hn (he ▸ hu)
  rcases h.valid.loop_nextMatchBack (lt_rounds s) with ⟨ht, -⟩ | ⟨e, he, hlt, hle, -, -⟩
  · exact ⟨ht, by simpa using h.haystack, h.finger, by simpa using h.finger, h.utf8Size,
      h.utf8Encoded⟩
  · exfalso
    have := h.no_end hds he
    omega

end Found

theorem notMem_of_beq {us : List Char} (h : ∀ u ∈ us, (u == n) = false) : n ∉ us :=
  fun hmem => by simpa using h n hmem

theorem searches (n : Char) : Searches searcher (· == n) (Window n) where
  haystack := fun t b ds a h => h.haystack
  next_some := by
    intro t b us c vs a h hus hc
    obtain rfl : c = n := by simpa using hc
    exact ⟨_, h.nextMatch_some (notMem_of_beq hus)⟩
  next_none := fun t b ds a h hds => ⟨_, (h.nextMatch_none (notMem_of_beq hds)).1, rfl⟩
  back_some := by
    intro t b us c vs a h hvs hc
    obtain rfl : c = n := by simpa using hc
    exact ⟨_, h.nextMatchBack_some (notMem_of_beq hvs)⟩
  back_none := fun t b ds a h hds => ⟨_, (h.nextMatchBack_none (notMem_of_beq hds)).1, rfl⟩

end CharSearcher

theorem intoSearcher_window (n : Char) (cs : List Char) :
    ∃ t, intoSearcher n (encoded cs) = some t ∧ CharSearcher.Window n t [] cs [] := by
  have hlen : lenUtf8 n.toNat ≤ [(0 : UInt8), 0, 0, 0].length := by
    rw [← utf8Bytes_length]
    exact (utf8Bytes_sequence n).1.length_le
  have heq := encodeUtf8_eq n [0, 0, 0, 0] hlen
  refine ⟨_, by rw [intoSearcher, heq]; rfl, ?_⟩
  refine ⟨by simp, rfl, rfl, (size_singleton n).symm, ?_⟩
  exact List.take_left

theorem length_le_size (cs : List Char) : cs.length ≤ size cs := by
  induction cs with
  | nil => rfl
  | cons c cs ih =>
    have hpos := size_pos c
    rw [size_cons, List.length_cons]
    omega

/-- A number of calls that all reject. -/
inductive Skips {σ : Type} (next : σ → Option (SearchStep × σ)) : ℕ → σ → σ → Prop
  | refl (s : σ) : Skips next 0 s s
  | reject {k i j : ℕ} {s s₁ s₂ : σ} : next s = some (.Reject i j, s₁) → Skips next k s₁ s₂ →
    Skips next (k+1) s s₂

section Skips

variable {σ : Type} {next : σ → Option (SearchStep × σ)} {k fuel i j : ℕ} {s s' t : σ}

theorem Skips.matchLoop_eq (h : Skips next k s s') (fuel : ℕ) :
    matchLoop next (k+fuel) s = matchLoop next fuel s' := by
  induction h with
  | refl s => rw [Nat.zero_add]
  | @reject k i j s s₁ s₂ hn _ ih =>
    rw [← ih, Nat.add_right_comm]
    simp [matchLoop, loop, hn]

theorem Skips.matchLoop_match (h : Skips next k s s') (hn : next s' = some (.Match i j, t))
    (hf : k < fuel) : matchLoop next fuel s = some (some (i, j), t) := by
  obtain ⟨r, rfl⟩ : ∃ r, fuel = k+(r+1) := ⟨fuel-k-1, by omega⟩
  rw [h.matchLoop_eq]
  simp [matchLoop, loop, hn]

theorem Skips.matchLoop_done (h : Skips next k s s') (hn : next s' = some (.Done, t))
    (hf : k < fuel) : matchLoop next fuel s = some (none, t) := by
  obtain ⟨r, rfl⟩ : ∃ r, fuel = k+(r+1) := ⟨fuel-k-1, by omega⟩
  rw [h.matchLoop_eq]
  simp [matchLoop, loop, hn]

end Skips

namespace MultiCharEqSearcher

/-- The searcher looks for a char of `p` among `ds`. -/
structure Window (p : Char → Bool) (s : MultiCharEqSearcher) (b ds a : List Char) : Prop where
  charEq : s.charEq = p
  haystack : s.haystack = encoded (b ++ ds ++ a)
  charIndices : s.charIndices = ⟨size b, chars (encoded ds)⟩

variable {p : Char → Bool} {s : MultiCharEqSearcher} {b ds a : List Char} {c : Char}

/-- What `char_eq` makes of a char, as a step over its bytes. -/
def judged (p : Char → Bool) (c : Char) (i j : ℕ) : SearchStep :=
  if p c then .Match i j else .Reject i j

theorem Window.next_nil (h : Window p s b [] a) : s.next = some (.Done, s) := by
  have hn : s.charIndices.next = some (none, s.charIndices) := by
    rw [h.charIndices]
    rfl
  rw [MultiCharEqSearcher.next, hn]
  rfl

theorem Window.nextBack_nil (h : Window p s b [] a) : s.nextBack = some (.Done, s) := by
  have hn : s.charIndices.nextBack = some (none, s.charIndices) := by
    rw [h.charIndices]
    rfl
  rw [MultiCharEqSearcher.nextBack, hn]
  rfl

theorem Window.next_cons (h : Window p s b (c :: ds) a) :
    ∃ s', s.next = some (judged p c (size b) (size (b ++ [c])), s') ∧
      Window p s' (b ++ [c]) ds a := by
  refine ⟨{ s with charIndices := ⟨size (b ++ [c]), chars (encoded ds)⟩ }, ?_, ?_⟩
  · have hlen : (encoded (c :: ds)).length-(encoded ds).length = size [c] := by
      rw [encoded_cons, List.length_append, size_singleton]
      omega
    rw [MultiCharEqSearcher.next, h.charIndices, CharIndices.next_encoded, ← size_singleton,
      ← size_append]
    simp only [Option.map_some, MultiCharEqSearcher.step, h.charIndices, h.charEq, chars, hlen,
      ← size_append, judged]
  · exact ⟨h.charEq, by simpa using h.haystack, rfl⟩

theorem Window.nextBack_concat (h : Window p s b (ds ++ [c]) a) :
    ∃ s', s.nextBack = some (judged p c (size (b ++ ds)) (size (b ++ ds ++ [c])), s') ∧
      Window p s' b ds (c :: a) := by
  refine ⟨{ s with charIndices := ⟨size b, chars (encoded ds)⟩ }, ?_, ?_⟩
  · have hlen : (encoded (ds ++ [c])).length-(encoded ds).length = size [c] := by
      rw [encoded_concat, List.length_append, size_singleton]
      omega
    have hsize : size b+(encoded ds).length = size (b ++ ds) := (size_append ..).symm
    rw [MultiCharEqSearcher.nextBack, h.charIndices, CharIndices.nextBack_encoded, hsize]
    simp only [Option.map_some, MultiCharEqSearcher.step, h.charIndices, h.charEq, chars, hlen,
      ← size_append, judged]
  · exact ⟨h.charEq, by simpa using h.haystack, rfl⟩

theorem Window.lt_callBound (h : Window p s b ds a) : ds.length < callBound s.haystack := by
  have hle := length_le_size ds
  have hsize : s.haystack.length = size (b ++ ds ++ a) := by rw [h.haystack, size]
  simp only [size_append] at hsize
  unfold callBound
  omega

theorem Window.skip {us vs : List Char} (h : Window p s b (us ++ vs) a)
    (hus : ∀ u ∈ us, p u = false) :
    ∃ s', Skips MultiCharEqSearcher.next us.length s s' ∧ Window p s' (b ++ us) vs a := by
  induction us generalizing s b with
  | nil => exact ⟨s, .refl s, by simpa using h⟩
  | cons c us ih =>
    obtain ⟨s₁, hn, h₁⟩ := h.next_cons
    obtain ⟨s₂, hskip, h₂⟩ := ih h₁ fun u hu => hus u (by simp [hu])
    rw [judged, hus c (by simp)] at hn
    exact ⟨s₂, .reject hn hskip, by simpa using h₂⟩

theorem Window.skipBack {us vs : List Char} (h : Window p s b (us ++ vs) a)
    (hvs : ∀ v ∈ vs, p v = false) :
    ∃ s', Skips MultiCharEqSearcher.nextBack vs.length s s' ∧ Window p s' b us (vs ++ a) := by
  induction vs using List.reverseRecOn generalizing s a with
  | nil => exact ⟨s, .refl s, by simpa using h⟩
  | append_singleton vs c ih =>
    rw [← List.append_assoc] at h
    obtain ⟨s₁, hn, h₁⟩ := h.nextBack_concat
    obtain ⟨s₂, hskip, h₂⟩ := ih h₁ fun v hv => hvs v (by simp [hv])
    rw [judged, hvs c (by simp)] at hn
    rw [List.length_append, List.length_singleton]
    exact ⟨s₂, .reject hn hskip, by simpa using h₂⟩

theorem searches (p : Char → Bool) : Searches searcher p (Window p) where
  haystack := fun t b ds a h => h.haystack
  next_some := by
    intro t b us c vs a h hus hc
    obtain ⟨t₁, hskip, h₁⟩ := h.skip hus
    obtain ⟨t₂, hn, h₂⟩ := h₁.next_cons
    rw [judged, if_pos hc] at hn
    refine ⟨t₂, ?_, h₂⟩
    exact hskip.matchLoop_match hn (by have := h.lt_callBound; simp at this; omega)
  next_none := by
    intro t b ds a h hds
    have hb := h.lt_callBound
    rw [← List.append_nil ds] at h
    obtain ⟨t₁, hskip, h₁⟩ := h.skip hds
    refine ⟨t₁, hskip.matchLoop_done h₁.next_nil hb, ?_⟩
    show t₁.haystack = t.haystack
    rw [h₁.haystack, h.haystack]
    simp
  back_some := by
    intro t b us c vs a h hvs hc
    have hb := h.lt_callBound
    rw [List.append_cons] at h
    obtain ⟨t₁, hskip, h₁⟩ := h.skipBack hvs
    obtain ⟨t₂, hn, h₂⟩ := h₁.nextBack_concat
    rw [judged, if_pos hc] at hn
    refine ⟨t₂, ?_, by simpa using h₂⟩
    exact hskip.matchLoop_match hn (by simp at hb; omega)
  back_none := by
    intro t b ds a h hds
    have hb := h.lt_callBound
    rw [← List.nil_append ds] at h
    obtain ⟨t₁, hskip, h₁⟩ := h.skipBack hds
    refine ⟨t₁, hskip.matchLoop_done h₁.nextBack_nil hb, ?_⟩
    show t₁.haystack = t.haystack
    rw [h₁.haystack, h.haystack]
    simp

theorem intoSearcher_window (p : Char → Bool) (cs : List Char) :
    Window p (intoMultiCharEqSearcher p (encoded cs)) [] cs [] :=
  ⟨rfl, by simp [intoMultiCharEqSearcher], rfl⟩

end MultiCharEqSearcher

end RustStd.CharPattern
