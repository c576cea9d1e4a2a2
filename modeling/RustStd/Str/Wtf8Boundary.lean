import RustStd.Str.Wtf8Buf

/-!
# Boundaries of UTF-8 in WTF-8

`check_utf8_boundary` forbids the boundaries between two surrogates. A byte 0xED begins three bytes,
of which the second tells a surrogate, so the bytes around the index decide.
-/

set_option autoImplicit false

namespace RustStd.Wtf8Encoding
open RustStd.Chars RustStd.CharMethods
open RustStd.Utf8Grammar (Tail)

/-- The panics of `check_utf8_boundary`; the last is a read outside of the bytes. -/
inductive BoundaryPanic
  | notBoundary
  | outOfBounds
  | betweenSurrogates
  | readOutside
  deriving DecidableEq, Repr

def readByte (bytes : List UInt8) (i : ℕ) : Except BoundaryPanic UInt8 :=
  match bytes[i]? with
  | some b => .ok b
  | none => .error .readOutside

/-- What is checked before the index, when there is a surrogate after it. -/
def checkBefore (bytes : List UInt8) (index : ℕ) : Except BoundaryPanic Unit :=
  if index ≥ 3 then do
    let b ← readByte bytes (index-3)
    if b = 0xED then do
      let b' ← readByte bytes (index-2)
      if b' ≥ 0xA0 then .error .betweenSurrogates else .ok ()
    else .ok ()
  else .ok ()

/-- What is checked behind a byte 0xED. -/
def checkSurrogates (bytes : List UInt8) (index : ℕ) : Except BoundaryPanic Unit := do
  let b2 ← readByte bytes (index+1)
  if b2 ≥ 0xA0 then checkBefore bytes index else .ok ()

def checkUtf8Boundary (bytes : List UInt8) (index : ℕ) : Except BoundaryPanic Unit :=
  if index = 0 then .ok ()
  else
    match bytes[index]? with
    | some b =>
      if b = 0xED then checkSurrogates bytes index
      else if b.toInt8 ≥ -0x40 then .ok ()
      else .error .notBoundary
    | none => if index = bytes.length then .ok () else .error .outOfBounds

def BetweenSurrogates (cs : List CodePoint) (index : ℕ) : Prop :=
  ∃ xs a b ys, cs = xs ++ a :: b :: ys ∧ Surrogate a ∧ Surrogate b ∧
    index = (encode (xs ++ [a])).length

instance (c : CodePoint) : Decidable (Surrogate c) := inferInstanceAs (Decidable (_ ∧ _))

theorem split_unique {xs ys xs' ys' : List CodePoint} (h : xs ++ ys = xs' ++ ys')
    (hlen : (encode xs).length = (encode xs').length) : xs = xs' ∧ ys = ys' := by
  have hbytes := congrArg encode h
  rw [encode_append, encode_append] at hbytes
  obtain ⟨hx, hy⟩ := List.append_inj hbytes hlen
  exact ⟨encode_injective hx, encode_injective hy⟩

theorem between_iff (xs ys : List CodePoint) (c : CodePoint) :
    BetweenSurrogates (xs ++ c :: ys) (encode xs).length ↔
      Surrogate c ∧ ∃ zs a, xs = zs ++ [a] ∧ Surrogate a := by
  constructor
  · rintro ⟨zs, a, b, ws, hsplit, ha, hb, hlen⟩
    have hsplit' : xs ++ c :: ys = (zs ++ [a]) ++ b :: ws := by
      rw [hsplit, List.append_assoc]
      rfl
    obtain ⟨hxs, hys⟩ := split_unique hsplit' hlen
    rw [(List.cons.inj hys).1]
    exact ⟨hb, zs, a, hxs, ha⟩
  · rintro ⟨hc, zs, a, rfl, ha⟩
    exact ⟨zs, a, c, ys, by rw [List.append_assoc]; rfl, ha, hc, rfl⟩

theorem not_between_end (cs : List CodePoint) : ¬ BetweenSurrogates cs (encode cs).length := by
  rintro ⟨xs, a, b, ys, rfl, -, -, hlen⟩
  have hsplit : xs ++ a :: b :: ys = (xs ++ [a]) ++ b :: ys := by simp
  obtain ⟨c, r, hc, -⟩ := utf8Bytes_shape b
  rw [hsplit, encode_append, List.length_append, encode_cons, hc, List.length_append,
    List.length_cons] at hlen
  omega

theorem not_between_zero (cs : List CodePoint) : ¬ BetweenSurrogates cs 0 := by
  rintro ⟨xs, a, b, ys, -, ha, -, hlen⟩
  rw [encode_append, List.length_append, encode_cons, encode_nil, List.append_nil,
    length_surrogate ha] at hlen
  omega

theorem last_surrogate_iff {xs : List CodePoint} {x : List UInt8} {b1 b2 b3 : UInt8}
    (h : encode xs = x ++ [b1, b2, b3]) :
    (b1 = 0xED ∧ b2 ≥ 0xA0) ↔ ∃ zs a, xs = zs ++ [a] ∧ Surrogate a := by
  constructor
  · rintro ⟨rfl, h2⟩
    obtain ⟨us, vs, rfl, -, hvs⟩ := exists_split h (by unfold Tail; decide)
    obtain ⟨d, ds, rfl, hlow, hhigh, hd2, -, hds⟩ := exists_of_ed hvs
    obtain rfl := encode_eq_nil_iff.mp hds.symm
    have hsur := (surrogate_second hd2 ⟨hlow, hhigh⟩).2.2.mp h2
    exact ⟨us, d, rfl, hsur, hhigh⟩
  · rintro ⟨zs, a, rfl, ha⟩
    rw [encode_append, encode_cons, encode_nil, List.append_nil, utf8Bytes_surrogate ha] at h
    obtain ⟨-, hbytes⟩ := List.append_inj' h rfl
    obtain ⟨h1, h2, -⟩ : 0xED = b1 ∧ UInt8.ofNat (0x80+a.value/64%64) = b2 ∧ True := by
      simp only [List.cons.injEq] at hbytes
      exact ⟨hbytes.1, hbytes.2.1, trivial⟩
    have hsecond : b2.toNat = 0x80+a.value/64%64 := by rw [← h2, toNat_unit (by omega)]
    have hrange := ha.1
    have hrange' := ha.2
    exact ⟨h1.symm, (surrogate_second hsecond ⟨by omega, hrange'⟩).2.2.mpr ha.1⟩

/-- A check returns normally if `good` holds and panics otherwise, without a read outside. -/
def Decides (r : Except BoundaryPanic Unit) (good : Prop) : Prop :=
  (r = .ok () ∧ good) ∨ ∃ p, r = .error p ∧ p ≠ .readOutside ∧ ¬ good

theorem decides_ok {good : Prop} (h : good) : Decides (.ok ()) good := .inl ⟨rfl, h⟩

theorem decides_error {good : Prop} {p : BoundaryPanic} (hp : p ≠ .readOutside) (h : ¬ good) :
    Decides (.error p) good := .inr ⟨p, rfl, hp, h⟩

theorem readByte_append (x y : List UInt8) (b : UInt8) :
    readByte (x ++ b :: y) x.length = .ok b := by
  rw [readByte, List.getElem?_append_right (le_refl _), Nat.sub_self]
  rfl

theorem exists_last_three {x : List UInt8} (h : 3 ≤ x.length) :
    ∃ y b1 b2 b3, x = y ++ [b1, b2, b3] := by
  have hlen : (x.drop (x.length-3)).length = 3 := by rw [List.length_drop]; omega
  obtain ⟨b1, b2, b3, hdrop⟩ := List.length_eq_three.mp hlen
  exact ⟨x.take (x.length-3), b1, b2, b3, by rw [← hdrop, List.take_append_drop]⟩

theorem checkBefore_decides (xs : List CodePoint) (r : List UInt8) :
    Decides (checkBefore (encode xs ++ r) (encode xs).length)
      (¬ ∃ zs a, xs = zs ++ [a] ∧ Surrogate a) := by
  unfold checkBefore
  split_ifs with h3
  · obtain ⟨x, b1, b2, b3, hx⟩ := exists_last_three h3
    have hlast := last_surrogate_iff hx
    have hread1 := readByte_append x (b2 :: b3 :: r) b1
    have hread2 : readByte (x ++ b1 :: b2 :: b3 :: r) (x.length+1) = .ok b2 := by
      have h := readByte_append (x ++ [b1]) (b3 :: r) b2
      rw [List.append_assoc, List.length_append] at h
      exact h
    have hlen : (encode xs).length = x.length+3 := by rw [hx, List.length_append]; rfl
    have hbytes : encode xs ++ r = x ++ b1 :: b2 :: b3 :: r := by rw [hx, List.append_assoc]; rfl
    rw [hlen, hbytes, Nat.add_sub_cancel, show x.length+3-2 = x.length+1 by omega, hread1]
    change Decides (if b1 = 0xED then _ else _) _
    split_ifs with hed
    · rw [hread2]
      change Decides (if b2 ≥ 0xA0 then _ else _) _
      split_ifs with h2
      · exact decides_error BoundaryPanic.noConfusion (not_not.mpr (hlast.mp ⟨hed, h2⟩))
      · exact decides_ok fun h => h2 (hlast.mpr h).2
    · exact decides_ok fun h => hed (hlast.mpr h).1
  · apply decides_ok
    rintro ⟨zs, a, rfl, ha⟩
    rw [encode_append, List.length_append, encode_cons, encode_nil, List.append_nil,
      length_surrogate ha] at h3
    omega

theorem exists_two_of_ed {cs : List CodePoint} {y : List UInt8} (h : 0xED :: y = encode cs) :
    ∃ b2 b3 r, y = b2 :: b3 :: r := by
  cases cs with
  | nil => exact absurd h (List.cons_ne_nil _ _)
  | cons c cs =>
    have hlen : (utf8Bytes c.value).length = 3 := by
      rcases c.cases with hc | ⟨d, rfl⟩
      · exact length_surrogate hc
      · obtain ⟨a, l, hd, -⟩ := utf8Bytes_shape (CodePoint.fromChar d)
        have hseq := (utf8Bytes_sequence d).1
        rw [encode_cons, hd] at h
        have ha : a = 0xED := (List.cons.inj h).1.symm
        have hlength := Utf8Grammar.Sequence.length_eq (a := a) (l := l) (by rw [← hd]; exact hseq)
        rw [hd, List.length_cons, hlength, ha]
        rfl
    obtain ⟨b1, b2, b3, hc⟩ := List.length_eq_three.mp hlen
    rw [encode_cons, hc] at h
    exact ⟨b2, b3, encode cs, (List.cons.inj h).2⟩

theorem checkSurrogates_decides {xs ys : List CodePoint} {y : List UInt8}
    (h : 0xED :: y = encode ys) :
    Decides (checkSurrogates (encode xs ++ encode ys) (encode xs).length)
      (¬ BetweenSurrogates (xs ++ ys) (encode xs).length) := by
  obtain ⟨b2, b3, r, rfl⟩ := exists_two_of_ed h
  obtain ⟨c, ds, rfl, hlow, hhigh, hd2, -, -⟩ := exists_of_ed h
  have hsur := (surrogate_second hd2 ⟨hlow, hhigh⟩).2.2
  have hread : readByte (encode xs ++ encode (c :: ds)) ((encode xs).length+1) = .ok b2 := by
    have h' := readByte_append (encode xs ++ [0xED]) (b3 :: r) b2
    rw [List.append_assoc, List.length_append] at h'
    rw [← h]
    exact h'
  rw [checkSurrogates, hread, between_iff]
  change Decides (if b2 ≥ 0xA0 then _ else _) _
  split_ifs with h2
  · have hc : Surrogate c := ⟨hsur.mp h2, hhigh⟩
    rw [and_iff_right hc]
    exact checkBefore_decides xs _
  · exact decides_ok fun hboth => h2 (hsur.mpr hboth.1.1)

theorem not_between_of_ne {xs ys : List CodePoint} {b : UInt8} {y : List UInt8}
    (h : b :: y = encode ys) (hb : b ≠ 0xED) :
    ¬ BetweenSurrogates (xs ++ ys) (encode xs).length := by
  cases ys with
  | nil => exact absurd h (List.cons_ne_nil _ _)
  | cons c ds =>
    rw [between_iff]
    rintro ⟨hc, -⟩
    rw [encode_cons, utf8Bytes_surrogate hc] at h
    exact hb (List.cons.inj h).1

theorem checkByte_decides {cs : List CodePoint} {x y : List UInt8} {b : UInt8}
    (h : encode cs = x ++ b :: y) :
    Decides (if b = 0xED then checkSurrogates (encode cs) x.length
      else if b.toInt8 ≥ -0x40 then .ok () else .error .notBoundary)
      (isUtf8CharBoundary b = true ∧ ¬ BetweenSurrogates cs x.length) := by
  by_cases htail : Tail b
  · have hnot : ¬ isUtf8CharBoundary b = true := fun hb => (isUtf8CharBoundary_iff b).mp hb htail
    have hne : b ≠ 0xED := by
      rintro rfl
      exact absurd htail (by unfold Tail; decide)
    have hint : ¬ b.toInt8 ≥ -0x40 := fun hge => hnot (decide_eq_true hge)
    rw [if_neg hne, if_neg hint]
    exact decides_error BoundaryPanic.noConfusion fun hboth => hnot hboth.1
  · have hbound := (isUtf8CharBoundary_iff b).mpr htail
    obtain ⟨xs, ys, rfl, rfl, hys⟩ := exists_split h htail
    rw [and_iff_right hbound]
    by_cases hed : b = 0xED
    · rw [if_pos hed, encode_append]
      rw [hed] at hys
      exact checkSurrogates_decides hys
    · rw [if_neg hed, if_pos (of_decide_eq_true hbound)]
      exact decides_ok (not_between_of_ne hys hed)

theorem checkUtf8Boundary_decides (cs : List CodePoint) (index : ℕ) :
    Decides (checkUtf8Boundary (encode cs) index)
      (isCodePointBoundary (encode cs) index = true ∧ ¬ BetweenSurrogates cs index) := by
  unfold checkUtf8Boundary isCodePointBoundary isCharBoundary
  by_cases hzero : index = 0
  · rw [if_pos hzero, if_pos hzero, hzero]
    exact decides_ok ⟨rfl, not_between_zero cs⟩
  rw [if_neg hzero, if_neg hzero]
  cases hget : (encode cs)[index]? with
  | none =>
    dsimp only
    rw [beq_iff_eq]
    by_cases hlen : index = (encode cs).length
    · rw [if_pos hlen, hlen]
      exact decides_ok ⟨rfl, not_between_end cs⟩
    · rw [if_neg hlen]
      exact decides_error BoundaryPanic.noConfusion fun hboth => hlen hboth.1
  | some b =>
    obtain ⟨hlt, hb⟩ := List.getElem?_eq_some_iff.mp hget
    have hsplit : encode cs = (encode cs).take index ++ b :: (encode cs).drop (index+1) := by
      rw [← hb, ← List.drop_eq_getElem_cons hlt, List.take_append_drop]
    have hdecides := checkByte_decides hsplit
    rw [List.length_take_of_le hlt.le] at hdecides
    exact hdecides

end RustStd.Wtf8Encoding
