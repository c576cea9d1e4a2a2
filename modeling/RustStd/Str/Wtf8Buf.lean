import RustStd.Str.Iter
import RustStd.Str.Wtf8

/-!
# `Wtf8Buf`

Every operation that appends looks across the junction: a lead surrogate at the
end and a trail surrogate behind it become one code point. The buffer then is
the encoding of code points without a pair, and their units are the units of
the pieces. While the flag says UTF-8, no code point is a surrogate.
-/

set_option autoImplicit false

namespace RustStd.Wtf8Encoding
open RustStd.Loop RustStd.Chars RustStd.CharMethods RustStd.Decode

/-- A borrowed slice of well-formed WTF-8 data. -/
structure Wtf8 where
  bytes : List UInt8
  wellFormed : WellFormed bytes

structure Wtf8Buf where
  bytes : List UInt8
  isKnownUtf8 : Bool
  deriving DecidableEq, Repr

def subU16 (a b : UInt16) : Option UInt16 := if b ≤ a then some (a-b) else none

def decodeSurrogatePair (lead trail : UInt16) : Option Char := do
  let high ← subU16 lead 0xD800
  let low ← subU16 trail 0xDC00
  fromU32Unchecked (0x10000+(high.toNat <<< 10 ||| low.toNat))

namespace Wtf8Buf

def new : Wtf8Buf := { bytes := [], isKnownUtf8 := true }

def fromStr (s : Str) : Wtf8Buf := { bytes := s.bytes, isKnownUtf8 := true }

def clear (_ : Wtf8Buf) : Wtf8Buf := { bytes := [], isKnownUtf8 := true }

def pushCodePointUnchecked (self : Wtf8Buf) (codePoint : CodePoint) : Option Wtf8Buf := do
  let (bytes, _) ← encodeUtf8Raw codePoint.value [0, 0, 0, 0]
  return { self with bytes := self.bytes ++ bytes }

def pushChar (self : Wtf8Buf) (c : Char) : Option Wtf8Buf :=
  self.pushCodePointUnchecked (CodePoint.fromChar c)

/-- The body of the loop of `from_wide`. -/
def pushItem (string : Wtf8Buf) : Except DecodeUtf16Error Char → Option Wtf8Buf
  | .ok ch => string.pushChar ch
  | .error surrogate => do
    let codePoint ← CodePoint.fromU32Unchecked surrogate.code.toNat
    let string := { string with isKnownUtf8 := false }
    string.pushCodePointUnchecked codePoint

def fromWide (v : List UInt16) : Option Wtf8Buf := do
  let items ← collect (DecodeUtf16.next sliceIter) (v.length+1) (decodeUtf16 v)
  items.foldlM pushItem new

def pushStr (self : Wtf8Buf) (other : Str) : Wtf8Buf :=
  { self with bytes := self.bytes ++ other.bytes }

def pushWtf8 (self : Wtf8Buf) (other : Wtf8) : Option Wtf8Buf :=
  match finalLeadSurrogate self.bytes, initialTrailSurrogate other.bytes with
  | some lead, some trail => do
    let self := { self with bytes := self.bytes.take (self.bytes.length-3) }
    let otherWithoutTrailSurrogate := other.bytes.drop 3
    let c ← decodeSurrogatePair lead trail
    let self ← self.pushChar c
    return { self with bytes := self.bytes ++ otherWithoutTrailSurrogate }
  | _, _ => do
    let surrogate ← nextSurrogate other.bytes 0
    let isKnownUtf8 := if self.isKnownUtf8 ∧ surrogate.isSome then false else self.isKnownUtf8
    return { bytes := self.bytes ++ other.bytes, isKnownUtf8 }

def push (self : Wtf8Buf) (codePoint : CodePoint) : Option Wtf8Buf :=
  match codePoint.toTrailSurrogate with
  | some trail =>
    match finalLeadSurrogate self.bytes with
    | some lead => do
      let self := { self with bytes := self.bytes.take (self.bytes.length-3) }
      let c ← decodeSurrogatePair lead trail
      self.pushChar c
    | none => pushCodePointUnchecked { self with isKnownUtf8 := false } codePoint
  | none =>
    if codePoint.toLeadSurrogate.isSome then
      pushCodePointUnchecked { self with isKnownUtf8 := false } codePoint
    else self.pushCodePointUnchecked codePoint

def truncate (self : Wtf8Buf) (newLen : ℕ) : Option Wtf8Buf :=
  if isCodePointBoundary self.bytes newLen then
    some { self with bytes := self.bytes.take newLen }
  else none

def extend (self : Wtf8Buf) (iter : List CodePoint) : Option Wtf8Buf := iter.foldlM push self

end Wtf8Buf

/-- The calls that change a buffer. -/
inductive Op
  | fromWide (v : List UInt16)
  | fromStr (s : Str)
  | push (codePoint : CodePoint)
  | pushChar (c : Char)
  | pushStr (other : Str)
  | pushWtf8 (other : Wtf8)
  | extend (iter : List CodePoint)
  | truncate (newLen : ℕ)
  | clear

def step (w : Wtf8Buf) : Op → Option Wtf8Buf
  | .fromWide v => Wtf8Buf.fromWide v
  | .fromStr s => some (Wtf8Buf.fromStr s)
  | .push codePoint => w.push codePoint
  | .pushChar c => w.pushChar c
  | .pushStr other => some (w.pushStr other)
  | .pushWtf8 other => w.pushWtf8 other
  | .extend iter => w.extend iter
  | .truncate newLen => w.truncate newLen
  | .clear => some w.clear

/-- The units of a string and of a slice. -/
def StrUnits (s : Str) (u : List UInt16) : Prop :=
  ∃ cs : List Char, StrIter.encoded cs = s.bytes ∧ u = cs.flatMap fun c => utf16Units c.toNat

def SliceUnits (bytes : List UInt8) (u : List UInt16) : Prop :=
  ∃ cs, encode cs = bytes ∧ u = wide cs

/-- The units that a call leaves: those of its piece behind those that were there. A
truncation takes away the units of the bytes it cuts off. -/
def Leaves (w : Wtf8Buf) (u : List UInt16) : Op → List UInt16 → Prop
  | .fromWide v, u' => u' = v
  | .fromStr s, u' => StrUnits s u'
  | .push codePoint, u' => u' = u ++ utf16Units codePoint.value
  | .pushChar c, u' => u' = u ++ utf16Units c.toNat
  | .pushStr other, u' => ∃ v, StrUnits other v ∧ u' = u ++ v
  | .pushWtf8 other, u' => ∃ v, SliceUnits other.bytes v ∧ u' = u ++ v
  | .extend iter, u' => u' = u ++ iter.flatMap fun c => utf16Units c.value
  | .truncate newLen, u' => ∃ v, SliceUnits (w.bytes.drop newLen) v ∧ u = u' ++ v
  | .clear, u' => u' = []

inductive Reached : Wtf8Buf → List UInt16 → Prop
  | new : Reached Wtf8Buf.new []
  | step {w w' : Wtf8Buf} {u u' : List UInt16} (op : Op) : Reached w u → step w op = some w' →
    Leaves w u op u' → Reached w' u'

def Surrogate (c : CodePoint) : Prop := 0xD800 ≤ c.value ∧ c.value ≤ 0xDFFF

/-- The buffer encodes code points without a pair, of the given units. -/
structure Holds (w : Wtf8Buf) (cs : List CodePoint) : Prop where
  chain : cs.IsChain Unpaired
  bytes : w.bytes = encode cs
  known : w.isKnownUtf8 = true → ∀ c ∈ cs, ¬ Surrogate c

theorem encode_injective {cs ds : List CodePoint} (h : encode cs = encode ds) : cs = ds := by
  induction cs generalizing ds with
  | nil => exact (encode_eq_nil_iff.mp h.symm).symm
  | cons c cs ih =>
    cases ds with
    | nil => exact absurd (encode_eq_nil_iff.mp h) (by simp)
    | cons d ds =>
      have hc := codePointsNext_cons c (encode cs)
      have hd := codePointsNext_cons d (encode ds)
      rw [← encode_cons, h, encode_cons, hd] at hc
      simp only [Option.some.injEq, Prod.mk.injEq] at hc
      obtain ⟨rfl, he⟩ := hc
      rw [ih he.symm]

theorem pushCodePointUnchecked_eq (w : Wtf8Buf) (c : CodePoint) :
    w.pushCodePointUnchecked c = some { w with bytes := w.bytes ++ utf8Bytes c.value } := by
  have hlen : lenUtf8 c.value ≤ [(0 : UInt8), 0, 0, 0].length := by
    unfold lenUtf8
    split_ifs <;> simp
  simp [Wtf8Buf.pushCodePointUnchecked, encodeUtf8Raw_eq c.value [0, 0, 0, 0] c.lt hlen]

theorem pushChar_eq (w : Wtf8Buf) (c : Char) :
    w.pushChar c = some { w with bytes := w.bytes ++ utf8Bytes c.toNat } :=
  pushCodePointUnchecked_eq w (CodePoint.fromChar c)

theorem toLeadSurrogate_eq_some {c : CodePoint} {u : UInt16} :
    c.toLeadSurrogate = some u ↔ c.Lead ∧ u = UInt16.ofNat c.value := by
  unfold CodePoint.toLeadSurrogate CodePoint.Lead
  split_ifs with h <;> simp [h, eq_comm]

theorem toTrailSurrogate_eq_some {c : CodePoint} {u : UInt16} :
    c.toTrailSurrogate = some u ↔ c.Trail ∧ u = UInt16.ofNat c.value := by
  unfold CodePoint.toTrailSurrogate CodePoint.Trail
  split_ifs with h <;> simp [h, eq_comm]

theorem finalLeadSurrogate_some {cs : List CodePoint} {lead : UInt16}
    (h : finalLeadSurrogate (encode cs) = some lead) :
    ∃ xs l, cs = xs ++ [l] ∧ l.Lead ∧ lead = UInt16.ofNat l.value := by
  rw [finalLeadSurrogate_encode, Option.bind_eq_some_iff] at h
  obtain ⟨l, hl, hlead⟩ := h
  obtain ⟨xs, rfl⟩ := List.getLast?_eq_some_iff.mp hl
  exact ⟨xs, l, rfl, toLeadSurrogate_eq_some.mp hlead⟩

theorem initialTrailSurrogate_some {cs : List CodePoint} {trail : UInt16}
    (h : initialTrailSurrogate (encode cs) = some trail) :
    ∃ t ys, cs = t :: ys ∧ t.Trail ∧ trail = UInt16.ofNat t.value := by
  rw [initialTrailSurrogate_encode, Option.bind_eq_some_iff] at h
  obtain ⟨t, ht, htrail⟩ := h
  obtain ⟨ys, rfl⟩ := List.head?_eq_some_iff.mp ht
  exact ⟨t, ys, rfl, toTrailSurrogate_eq_some.mp htrail⟩

theorem exists_pair {l t : CodePoint} (hl : l.Lead) (ht : t.Trail) :
    ∃ c : Char, decodeSurrogatePair (UInt16.ofNat l.value) (UInt16.ofNat t.value) = some c ∧
      utf16Units c.toNat = utf16Units l.value ++ utf16Units t.value ∧ 0x10000 ≤ c.toNat := by
  unfold CodePoint.Lead at hl
  unfold CodePoint.Trail at ht
  have hlu : (UInt16.ofNat l.value).toNat = l.value := UInt16.toNat_ofNat_of_lt' (by
    unfold UInt16.size
    lia)
  have htu : (UInt16.ofNat t.value).toNat = t.value := UInt16.toNat_ofNat_of_lt' (by
    unfold UInt16.size
    lia)
  have hlle : (0xD800 : UInt16) ≤ UInt16.ofNat l.value := by
    rw [UInt16.le_iff_toNat_le, hlu]
    exact hl.1
  have htle : (0xDC00 : UInt16) ≤ UInt16.ofNat t.value := by
    rw [UInt16.le_iff_toNat_le, htu]
    exact ht.1
  have hlow : t.value-0xDC00 < 2^10 := by lia
  have hvalue : (l.value-0xD800) <<< 10 ||| (t.value-0xDC00) =
      (l.value-0xD800)*1024+(t.value-0xDC00) := by
    rw [Nat.shiftLeft_eq, Nat.mul_comm, ← Nat.two_pow_add_eq_or_of_lt hlow]
  have hvalid : (0x10000+((l.value-0xD800)*1024+(t.value-0xDC00))).isValidChar := by
    unfold Nat.isValidChar
    lia
  refine ⟨Char.ofNat (0x10000+((l.value-0xD800)*1024+(t.value-0xDC00))), ?_, ?_, ?_⟩
  · have hsubl : (UInt16.ofNat l.value-0xD800).toNat = l.value-0xD800 := by
      rw [UInt16.toNat_sub_of_le _ _ hlle, hlu]
      rfl
    have hsubt : (UInt16.ofNat t.value-0xDC00).toNat = t.value-0xDC00 := by
      rw [UInt16.toNat_sub_of_le _ _ htle, htu]
      rfl
    simp only [decodeSurrogatePair, subU16, if_pos hlle, if_pos htle, some_bind, hsubl, hsubt, hvalue]
    exact fromU32Unchecked_ofNat hvalid
  · rw [toNat_ofNat hvalid, utf16Units, utf16Units, utf16Units, if_neg (by lia),
      if_pos (by lia), if_pos (by lia)]
    have e1 : 0xD800+(0x10000+((l.value-0xD800)*1024+(t.value-0xDC00))-0x10000)/1024 = l.value := by
      lia
    have e2 : 0xDC00+(0x10000+((l.value-0xD800)*1024+(t.value-0xDC00)))%1024 = t.value := by
      lia
    rw [e1, e2]
    rfl
  · rw [toNat_ofNat hvalid]
    lia

theorem length_surrogate {c : CodePoint} (h : Surrogate c) : (utf8Bytes c.value).length = 3 := by
  rw [utf8Bytes_surrogate h]
  rfl

theorem chain_pair {xs ys : List CodePoint} {l t p : CodePoint}
    (hx : (xs ++ [l]).IsChain Unpaired) (hy : (t :: ys).IsChain Unpaired)
    (hp : 0x10000 ≤ p.value) : (xs ++ p :: ys).IsChain Unpaired := by
  have hleft : ∀ x, Unpaired x p := fun x h => by
    have := h.2.2
    lia
  have hright : ∀ y, Unpaired p y := fun y h => by
    have := h.1.2
    lia
  apply List.isChain_append.mpr
  refine ⟨hx.left_of_append, List.isChain_cons.mpr ⟨fun y _ => hright y, hy.tail⟩, ?_⟩
  exact fun x _ y hy => by
    obtain rfl : p = y := by simpa using hy
    exact hleft x

theorem encode_dropLead {xs : List CodePoint} {l : CodePoint} (hl : l.Lead) :
    (encode (xs ++ [l])).take ((encode (xs ++ [l])).length-3) = encode xs := by
  have hlen := length_surrogate (c := l) ⟨hl.1, by have := hl.2; lia⟩
  rw [encode_append, encode_cons, encode_nil, List.append_nil, List.length_append, hlen,
    Nat.add_sub_cancel, List.take_left]

theorem encode_dropTrail {ys : List CodePoint} {t : CodePoint} (ht : t.Trail) :
    (encode (t :: ys)).drop 3 = encode ys := by
  have hlen := length_surrogate (c := t) ⟨by have := ht.1; lia, ht.2⟩
  rw [encode_cons, ← hlen, List.drop_left]

theorem chain_append {cs ds : List CodePoint} (hc : cs.IsChain Unpaired)
    (hd : ds.IsChain Unpaired)
    (h : finalLeadSurrogate (encode cs) = none ∨ initialTrailSurrogate (encode ds) = none) :
    (cs ++ ds).IsChain Unpaired := by
  rw [finalLeadSurrogate_encode, initialTrailSurrogate_encode] at h
  apply List.isChain_append.mpr
  refine ⟨hc, hd, fun x hx y hy => ?_⟩
  rintro ⟨hlead, htrail⟩
  rw [Option.mem_def] at hx hy
  rw [hx, hy, Option.bind_some, Option.bind_some, toLeadSurrogate_eq_some.mpr ⟨hlead, rfl⟩,
    toTrailSurrogate_eq_some.mpr ⟨htrail, rfl⟩] at h
  rcases h with h | h <;> cases h

theorem Holds.pair {w : Wtf8Buf} {xs ys : List CodePoint} {l t : CodePoint}
    (h : Holds w (xs ++ [l])) (hy : (t :: ys).IsChain Unpaired) (hl : l.Lead) (ht : t.Trail) :
    ∃ c, decodeSurrogatePair (UInt16.ofNat l.value) (UInt16.ofNat t.value) = some c ∧
      Holds { w with bytes := encode xs ++ utf8Bytes c.toNat ++ encode ys }
        (xs ++ CodePoint.fromChar c :: ys) ∧
      wide (xs ++ CodePoint.fromChar c :: ys) = wide (xs ++ [l]) ++ wide (t :: ys) := by
  obtain ⟨c, hc, hunits, hge⟩ := exists_pair hl ht
  refine ⟨c, hc, ⟨chain_pair h.chain hy hge, ?_, fun hk => ?_⟩, ?_⟩
  · simp [CodePoint.fromChar]
  · -- a lead surrogate at the end excludes the flag
    exfalso
    refine h.known hk l (by simp) ⟨hl.1, ?_⟩
    have := hl.2
    lia
  · simp [CodePoint.fromChar, hunits]

theorem not_surrogate_fromChar (c : Char) : ¬ Surrogate (CodePoint.fromChar c) :=
  (toNat_lt_limit c).2

theorem not_pair_iff {c : CodePoint} (h : ¬ Surrogate c) :
    c.toLeadSurrogate = none ∧ c.toTrailSurrogate = none := by
  unfold Surrogate at h
  rw [CodePoint.toLeadSurrogate, CodePoint.toTrailSurrogate, if_neg (by lia), if_neg (by lia)]
  exact ⟨rfl, rfl⟩

theorem Holds.append_one {w : Wtf8Buf} {cs : List CodePoint} {c : CodePoint} (h : Holds w cs)
    (hj : finalLeadSurrogate w.bytes = none ∨ c.toTrailSurrogate = none) (known : Bool)
    (hk : known = true → w.isKnownUtf8 = true ∧ ¬ Surrogate c) :
    Holds { bytes := w.bytes ++ utf8Bytes c.value, isKnownUtf8 := known } (cs ++ [c]) where
  chain := by
    apply chain_append h.chain (List.isChain_singleton c)
    rw [← h.bytes, initialTrailSurrogate_encode]
    exact hj
  bytes := by simp [h.bytes]
  known := fun hknown d hd => by
    obtain ⟨hw, hc⟩ := hk hknown
    rcases List.mem_append.mp hd with hd | hd
    · exact h.known hw d hd
    · rwa [List.mem_singleton.mp hd]

theorem Holds.pushChar {w : Wtf8Buf} {cs : List CodePoint} (h : Holds w cs) (c : Char) :
    ∃ w', w.pushChar c = some w' ∧ Holds w' (cs ++ [CodePoint.fromChar c]) := by
  have hc := not_surrogate_fromChar c
  exact ⟨_, pushChar_eq w c, h.append_one (Or.inr (not_pair_iff hc).2) _ fun hk => ⟨hk, hc⟩⟩

theorem Holds.push {w : Wtf8Buf} {cs : List CodePoint} (h : Holds w cs) (c : CodePoint) :
    ∃ w' cs', w.push c = some w' ∧ Holds w' cs' ∧ wide cs' = wide cs ++ utf16Units c.value := by
  unfold Wtf8Buf.push
  cases ht : c.toTrailSurrogate with
  | some trail =>
    cases hl : finalLeadSurrogate w.bytes with
    | some lead =>
      rw [h.bytes] at hl
      obtain ⟨xs, l, rfl, hlead, rfl⟩ := finalLeadSurrogate_some hl
      obtain ⟨htrail, rfl⟩ := toTrailSurrogate_eq_some.mp ht
      obtain ⟨d, hd, hh, hw⟩ := h.pair (List.isChain_singleton c) hlead htrail
      refine ⟨_, _, ?_, hh, by simpa using hw⟩
      simp only [hd, some_bind, pushChar_eq, h.bytes,
        encode_dropLead hlead]
      simp
    | none =>
      exact ⟨_, cs ++ [c], pushCodePointUnchecked_eq _ c,
        h.append_one (Or.inl hl) false (by simp), by simp⟩
  | none =>
    simp only [pushCodePointUnchecked_eq]
    cases hl : c.toLeadSurrogate with
    | some lead =>
      exact ⟨_, cs ++ [c], rfl, h.append_one (Or.inr ht) false (by simp), by simp⟩
    | none =>
      refine ⟨_, cs ++ [c], rfl, h.append_one (Or.inr ht) _ fun hk => ⟨hk, ?_⟩, by simp⟩
      rintro ⟨h1, h2⟩
      rw [CodePoint.toLeadSurrogate, ite_eq_right_iff] at hl
      rw [CodePoint.toTrailSurrogate, ite_eq_right_iff] at ht
      have hl' := mt hl (by simp)
      have ht' := mt ht (by simp)
      lia

theorem Holds.extend {w : Wtf8Buf} {cs : List CodePoint} (h : Holds w cs)
    (iter : List CodePoint) :
    ∃ w' cs', w.extend iter = some w' ∧ Holds w' cs' ∧ wide cs' = wide cs ++ wide iter := by
  induction iter generalizing w cs with
  | nil => exact ⟨w, cs, rfl, h, by simp⟩
  | cons c iter ih =>
    obtain ⟨w₁, cs₁, hp, h₁, hw₁⟩ := h.push c
    obtain ⟨w₂, cs₂, he, h₂, hw₂⟩ := ih h₁
    refine ⟨w₂, cs₂, ?_, h₂, ?_⟩
    · rw [Wtf8Buf.extend, List.foldlM_cons, hp]
      exact he
    · rw [hw₂, hw₁, wide_cons, List.append_assoc]

theorem Holds.pushWtf8 {w : Wtf8Buf} {cs : List CodePoint} (h : Holds w cs) (other : Wtf8) :
    ∃ w' cs' ds, w.pushWtf8 other = some w' ∧ Holds w' cs' ∧ other.bytes = encode ds ∧
      wide cs' = wide cs ++ wide ds := by
  obtain ⟨bytes, ds, hds, rfl⟩ := other
  unfold Wtf8Buf.pushWtf8
  dsimp only
  split
  · next lead trail hl ht =>
    rw [h.bytes] at hl
    obtain ⟨xs, l, rfl, hlead, rfl⟩ := finalLeadSurrogate_some hl
    obtain ⟨t, ys, rfl, htrail, rfl⟩ := initialTrailSurrogate_some ht
    obtain ⟨d, hd, hh, hw⟩ := h.pair hds hlead htrail
    refine ⟨_, _, _, ?_, hh, rfl, hw⟩
    simp only [hd, some_bind, pushChar_eq, h.bytes,
      encode_dropLead hlead, encode_dropTrail htrail]
    rfl
  · next hno =>
    have hnext : nextSurrogate (encode ds) 0 = some (surrogateFrom 0 (encode ds)) := rfl
    rw [hnext]
    refine ⟨_, cs ++ ds, ds, rfl, ⟨chain_append h.chain hds ?_, by simp [h.bytes], ?_⟩, rfl,
      by simp⟩
    · rw [← h.bytes]
      by_contra hj
      rw [not_or] at hj
      obtain ⟨lead, hl⟩ := Option.ne_none_iff_exists'.mp hj.1
      obtain ⟨trail, ht⟩ := Option.ne_none_iff_exists'.mp hj.2
      exact hno lead trail hl ht
    · intro hk d hd
      dsimp only at hk
      cases hs : surrogateFrom 0 (encode ds) with
      | none =>
        rw [hs] at hk
        rcases List.mem_append.mp hd with hd | hd
        · exact h.known (by simpa using hk) d hd
        · exact surrogateFrom_none hs d hd
      | some r =>
        rw [hs] at hk
        cases hw : w.isKnownUtf8 <;> simp [hw] at hk

theorem encoded_eq (cs : List Char) : StrIter.encoded cs = encode (cs.map CodePoint.fromChar) := by
  rw [encode, List.flatMap_map]
  rfl

theorem wide_fromChar (cs : List Char) :
    wide (cs.map CodePoint.fromChar) = cs.flatMap fun c => utf16Units c.toNat := by
  rw [wide, List.flatMap_map]
  rfl

theorem chain_fromChar (cs : List Char) : (cs.map CodePoint.fromChar).IsChain Unpaired := by
  apply List.isChain_map_of_isChain (R := fun _ _ => True)
  · intro a b _ hab
    have := (toNat_lt_limit a).2
    have h1 := hab.1.1
    have h2 := hab.1.2
    simp only [CodePoint.fromChar] at h1 h2
    lia
  · induction cs with
    | nil => exact .nil
    | cons c cs ih => exact ih.cons fun _ _ => trivial

theorem Holds.pushStr {w : Wtf8Buf} {cs : List CodePoint} (h : Holds w cs) {other : Str}
    {ds : List Char} (hds : StrIter.encoded ds = other.bytes) :
    Holds (w.pushStr other) (cs ++ ds.map CodePoint.fromChar) where
  chain := by
    refine chain_append h.chain (chain_fromChar ds) (Or.inr ?_)
    rw [initialTrailSurrogate_encode]
    cases ds with
    | nil => rfl
    | cons d ds => exact (not_pair_iff (not_surrogate_fromChar d)).2
  bytes := by rw [Wtf8Buf.pushStr, encode_append, ← encoded_eq, hds, h.bytes]
  known := by
    intro hk d hd
    rcases List.mem_append.mp hd with hd | hd
    · exact h.known hk d hd
    · obtain ⟨c, -, rfl⟩ := List.mem_map.mp hd
      exact not_surrogate_fromChar c

theorem holds_new : Holds Wtf8Buf.new [] :=
  ⟨.nil, rfl, by simp⟩

theorem Holds.truncate {w : Wtf8Buf} {cs : List CodePoint} (h : Holds w cs) {newLen : ℕ}
    (hb : isCodePointBoundary w.bytes newLen = true) :
    ∃ xs ys, cs = xs ++ ys ∧ w.bytes.drop newLen = encode ys ∧
      Holds { w with bytes := w.bytes.take newLen } xs := by
  rw [h.bytes] at hb
  obtain ⟨xs, ys, rfl, rfl⟩ := (boundary_iff cs newLen).mp hb
  refine ⟨xs, ys, rfl, ?_, h.chain.left_of_append, ?_, fun hk c hc => ?_⟩
  · rw [h.bytes, encode_append, List.drop_left]
  · rw [h.bytes, encode_append, List.take_left]
  · exact h.known hk c (by simp [hc])

/-- The code point that an item of the decoder stands for. -/
def itemCodePoint : Except DecodeUtf16Error Char → CodePoint
  | .ok c => CodePoint.fromChar c
  | .error e => ⟨e.code.toNat, by have := e.code.toNat_lt; lia⟩

theorem utf16Units_item (x : Except DecodeUtf16Error Char) :
    utf16Units (itemCodePoint x).value = itemUnits x := by
  cases x with
  | ok c => rfl
  | error e =>
    have hlt := e.code.toNat_lt
    simp [itemCodePoint, itemUnits, utf16Units, show e.code.toNat < 65536 by lia]

theorem trail_iff_low (u : UInt16) : (itemCodePoint (.error ⟨u⟩)).Trail ↔ Low u := by
  simp only [itemCodePoint, CodePoint.Trail, Low, UInt16.le_iff_toNat_le]
  simp

theorem head_decode {l : List UInt16} (hl : ∀ u ∈ l.head?, ¬ Low u) :
    ∀ d ∈ ((decode l).map itemCodePoint).head?, ¬ d.Trail := by
  have hchar (c : Char) : ¬ (itemCodePoint (.ok c)).Trail := fun h =>
    not_surrogate_fromChar c ⟨by have := h.1; simp only [itemCodePoint] at this; lia, h.2⟩
  induction l using decode_induction with
  | nil => simp [decode]
  | unit u l h ih =>
    rw [decode_cons_ok h]
    simpa using hchar _
  | low u l h ih => exact absurd h (hl u rfl)
  | high u l h hn ih =>
    rw [decode_cons_high h hn]
    intro d hd
    obtain rfl := Option.some.inj hd
    exact mt (trail_iff_low u).mp h.not_low
  | pair u u2 l h h2 ih =>
    rw [decode_pair h h2]
    simpa using hchar _

theorem decode_chain (l : List UInt16) : ((decode l).map itemCodePoint).IsChain Unpaired := by
  have hchar (c : Char) : ¬ (itemCodePoint (.ok c)).Lead := fun h =>
    not_surrogate_fromChar c ⟨h.1, by have := h.2; simp only [itemCodePoint] at this; lia⟩
  induction l using decode_induction with
  | nil => exact .nil
  | unit u l h ih =>
    rw [decode_cons_ok h, List.map_cons]
    exact ih.cons fun d _ hp => hchar _ hp.1
  | low u l h ih =>
    rw [decode_cons_low h, List.map_cons]
    refine ih.cons fun d _ hp => ?_
    have h1 := hp.1.2
    have h2 := ((trail_iff_low u).mpr h).1
    lia
  | high u l h hn ih =>
    rw [decode_cons_high h hn, List.map_cons]
    exact ih.cons fun d hd hp => head_decode hn d hd hp.2
  | pair u u2 l h h2 ih =>
    rw [decode_pair h h2, List.map_cons]
    exact ih.cons fun d _ hp => hchar _ hp.1

theorem pushItem_eq (w : Wtf8Buf) (x : Except DecodeUtf16Error Char) :
    ∃ known, w.pushItem x = some ⟨w.bytes ++ utf8Bytes (itemCodePoint x).value, known⟩ ∧
      (known = true → w.isKnownUtf8 = true ∧ ¬ Surrogate (itemCodePoint x)) := by
  cases x with
  | ok c => exact ⟨_, pushChar_eq w c, fun hk => ⟨hk, not_surrogate_fromChar c⟩⟩
  | error e =>
    have hle : e.code.toNat ≤ 0x10FFFF := by
      have := e.code.toNat_lt
      lia
    refine ⟨false, ?_, by simp⟩
    rw [Wtf8Buf.pushItem, CodePoint.fromU32Unchecked, dif_pos hle]
    exact pushCodePointUnchecked_eq _ _

theorem foldlM_pushItem (items : List (Except DecodeUtf16Error Char)) (w : Wtf8Buf) :
    ∃ known, items.foldlM Wtf8Buf.pushItem w =
        some ⟨w.bytes ++ encode (items.map itemCodePoint), known⟩ ∧
      (known = true → w.isKnownUtf8 = true ∧ ∀ c ∈ items.map itemCodePoint, ¬ Surrogate c) := by
  induction items generalizing w with
  | nil => exact ⟨w.isKnownUtf8, by simp, fun hk => ⟨hk, by simp⟩⟩
  | cons x items ih =>
    obtain ⟨k₁, h₁, hk₁⟩ := pushItem_eq w x
    obtain ⟨k₂, h₂, hk₂⟩ := ih ⟨w.bytes ++ utf8Bytes (itemCodePoint x).value, k₁⟩
    refine ⟨k₂, ?_, fun hk => ?_⟩
    · rw [List.foldlM_cons, h₁]
      simpa using h₂
    · obtain ⟨hw₁, hs⟩ := hk₂ hk
      obtain ⟨hw, hx⟩ := hk₁ hw₁
      exact ⟨hw, by simpa using ⟨hx, by simpa using hs⟩⟩

theorem fromWide_holds (v : List UInt16) :
    ∃ w, Wtf8Buf.fromWide v = some w ∧ Holds w ((decode v).map itemCodePoint) := by
  have hlen := (decode_length v).2
  have hcollect := collect_decodes sliceIter (v.length+1) (decodeUtf16 v)
    (Nat.lt_succ_of_le hlen)
  obtain ⟨known, hfold, hk⟩ := foldlM_pushItem (decode v) Wtf8Buf.new
  refine ⟨⟨encode ((decode v).map itemCodePoint), known⟩, ?_, decode_chain v, rfl,
    fun h => (hk h).2⟩
  rw [Wtf8Buf.fromWide, hcollect]
  exact hfold

theorem wide_decode (v : List UInt16) : wide ((decode v).map itemCodePoint) = v := by
  rw [wide, List.flatMap_map]
  simp only [utf16Units_item]
  exact decode_units v

theorem toNat_surrogate {c : CodePoint} (h : Surrogate c) :
    (UInt16.ofNat c.value).toNat = c.value := by
  have hlt : c.value < UInt16.size := by
    have := h.2
    unfold UInt16.size
    lia
  exact UInt16.toNat_ofNat_of_lt' hlt

theorem item_surrogate {c : CodePoint} (h : Surrogate c) :
    itemCodePoint (.error ⟨UInt16.ofNat c.value⟩) = c := by
  have hn := toNat_surrogate h
  cases c
  simpa [itemCodePoint] using hn

theorem utf16Units_surrogate {c : CodePoint} (h : Surrogate c) :
    utf16Units c.value = [UInt16.ofNat c.value] := by
  have := h.2
  rw [utf16Units, if_pos (by lia)]

theorem head_wide {cs : List CodePoint} (h : ∀ d ∈ cs.head?, ¬ d.Trail) :
    ∀ u ∈ (wide cs).head?, ¬ Low u := by
  cases cs with
  | nil => simp
  | cons d cs =>
    have hd := h d rfl
    rcases d.cases with hs | ⟨e, rfl⟩
    · rw [wide_cons, utf16Units_surrogate hs]
      intro u hu
      obtain rfl := Option.some.inj hu
      rwa [← trail_iff_low, item_surrogate hs]
    · -- the first unit of a char decodes to the char, so it is no low unit
      intro u hu hlow
      obtain ⟨r, hr⟩ := List.head?_eq_some_iff.mp hu
      have hdec := decode_utf16Units e (wide cs)
      change decode (wide (CodePoint.fromChar e :: cs)) = _ at hdec
      rw [hr, decode_cons_low hlow] at hdec
      cases (List.cons.inj hdec).1

theorem decode_wide {cs : List CodePoint} (h : cs.IsChain Unpaired) :
    (decode (wide cs)).map itemCodePoint = cs := by
  induction cs with
  | nil => rfl
  | cons c cs ih =>
    obtain ⟨hhead, hcs⟩ := List.isChain_cons.mp h
    rw [wide_cons]
    rcases c.cases with hc | ⟨d, rfl⟩
    · rw [utf16Units_surrogate hc, List.singleton_append]
      by_cases hlead : c.Lead
      · have hhigh : High (UInt16.ofNat c.value) := by
          simp only [High, UInt16.le_iff_toNat_le, UInt16.lt_iff_toNat_lt, toNat_surrogate hc]
          simp
          exact ⟨hlead.1, Nat.lt_succ_of_le hlead.2⟩
        have hnext : ∀ d ∈ cs.head?, ¬ d.Trail := fun d hd ht => hhead d hd ⟨hlead, ht⟩
        rw [decode_cons_high hhigh (head_wide hnext), List.map_cons, item_surrogate hc, ih hcs]
      · have hlow : Low (UInt16.ofNat c.value) := by
          rw [← trail_iff_low, item_surrogate hc]
          unfold CodePoint.Lead at hlead
          exact ⟨by lia, hc.2⟩
        rw [decode_cons_low hlow, List.map_cons, item_surrogate hc, ih hcs]
    · rw [CodePoint.fromChar, decode_utf16Units, List.map_cons, ih hcs]
      rfl

theorem fromWide_wide {cs : List CodePoint} (h : cs.IsChain Unpaired) :
    ∃ w, Wtf8Buf.fromWide (wide cs) = some w ∧ w.bytes = encode cs := by
  obtain ⟨w, hw, hh⟩ := fromWide_holds (wide cs)
  exact ⟨w, hw, by rw [hh.bytes, decode_wide h]⟩

theorem strUnits_exists (s : Str) :
    ∃ cs : List Char, StrIter.encoded cs = s.bytes ∧ StrUnits s (wide (cs.map CodePoint.fromChar)) := by
  obtain ⟨cs, hcs⟩ := StrIter.exists_encoded s.wellFormed
  exact ⟨cs, hcs, cs, hcs, wide_fromChar cs⟩

theorem StrUnits.eq {s : Str} {cs : List Char} {u : List UInt16} (h : StrUnits s u)
    (hcs : StrIter.encoded cs = s.bytes) : u = wide (cs.map CodePoint.fromChar) := by
  obtain ⟨ds, hds, rfl⟩ := h
  obtain rfl := StrIter.encoded_injective (hcs.trans hds.symm)
  exact (wide_fromChar cs).symm

theorem SliceUnits.eq {cs : List CodePoint} {u : List UInt16} (h : SliceUnits (encode cs) u) :
    u = wide cs := by
  obtain ⟨ds, hds, rfl⟩ := h
  rw [encode_injective hds]

/-- A call keeps the encoding and leaves its units, or it is a truncation within a code
point. -/
theorem step_holds {w : Wtf8Buf} {cs : List CodePoint} (h : Holds w cs) (op : Op) :
    (∃ w' cs', step w op = some w' ∧ Holds w' cs' ∧
      ∀ u', Leaves w (wide cs) op u' ↔ u' = wide cs') ∨
    ∃ newLen, op = .truncate newLen ∧ isCodePointBoundary w.bytes newLen = false := by
  cases op with
  | fromWide v =>
    obtain ⟨w', hw, hh⟩ := fromWide_holds v
    exact Or.inl ⟨w', _, hw, hh, fun u' => by rw [wide_decode]; rfl⟩
  | fromStr s =>
    obtain ⟨ds, hds, hu⟩ := strUnits_exists s
    refine Or.inl ⟨_, _, rfl, holds_new.pushStr hds, fun u' => ⟨fun hl => hl.eq hds, ?_⟩⟩
    rintro rfl
    exact hu
  | push codePoint =>
    obtain ⟨w', cs', hw, hh, hu⟩ := h.push codePoint
    exact Or.inl ⟨w', cs', hw, hh, fun u' => by rw [hu]; rfl⟩
  | pushChar c =>
    obtain ⟨w', hw, hh⟩ := h.pushChar c
    exact Or.inl ⟨w', _, hw, hh, fun u' => by simp [Leaves, CodePoint.fromChar]⟩
  | pushStr other =>
    obtain ⟨ds, hds, hu⟩ := strUnits_exists other
    refine Or.inl ⟨_, _, rfl, h.pushStr hds, fun u' => ⟨?_, ?_⟩⟩
    · rintro ⟨v, hv, rfl⟩
      rw [hv.eq hds, wide_append]
    · rintro rfl
      exact ⟨_, hu, wide_append ..⟩
  | pushWtf8 other =>
    obtain ⟨w', cs', ds, hw, hh, hds, hu⟩ := h.pushWtf8 other
    refine Or.inl ⟨w', cs', hw, hh, fun u' => ⟨?_, ?_⟩⟩
    · rintro ⟨v, hv, rfl⟩
      rw [hds] at hv
      rw [hv.eq, hu]
    · rintro rfl
      exact ⟨_, ⟨ds, hds.symm, rfl⟩, hu⟩
  | extend iter =>
    obtain ⟨w', cs', hw, hh, hu⟩ := h.extend iter
    exact Or.inl ⟨w', cs', hw, hh, fun u' => by rw [hu]; rfl⟩
  | truncate newLen =>
    cases hb : isCodePointBoundary w.bytes newLen with
    | false => exact Or.inr ⟨newLen, rfl, hb⟩
    | true =>
      obtain ⟨xs, ys, rfl, hdrop, hh⟩ := h.truncate hb
      refine Or.inl ⟨_, xs, if_pos hb, hh, fun u' => ⟨?_, ?_⟩⟩
      · rintro ⟨v, hv, hu⟩
        rw [hdrop] at hv
        rw [hv.eq, wide_append] at hu
        exact (List.append_cancel_right hu).symm
      · rintro rfl
        exact ⟨_, ⟨ys, hdrop.symm, rfl⟩, wide_append ..⟩
  | clear => exact Or.inl ⟨_, [], rfl, holds_new, fun u' => Iff.rfl⟩

theorem reached_holds {w : Wtf8Buf} {u : List UInt16} (h : Reached w u) :
    ∃ cs, Holds w cs ∧ u = wide cs := by
  induction h with
  | new => exact ⟨[], holds_new, rfl⟩
  | @step w w' u u' op _ hstep hleaves ih =>
    obtain ⟨cs, hcs, rfl⟩ := ih
    rcases step_holds hcs op with ⟨w₁, cs', hs, hh, hu⟩ | ⟨newLen, rfl, hb⟩
    · obtain rfl := Option.some.inj (hs.symm.trans hstep)
      exact ⟨cs', hh, (hu u').mp hleaves⟩
    · simp [step, Wtf8Buf.truncate, hb] at hstep

/-- What holds of a buffer that calls reach with pieces of the units `u`. -/
structure Intact (w : Wtf8Buf) (u : List UInt16) : Prop where
  wellFormed : WellFormed w.bytes
  known : w.isKnownUtf8 = true → Utf8Grammar.WellFormed w.bytes
  wide : encodeWide w.bytes = some u
  /-- Every call goes through, but for a truncation within a code point. -/
  next : ∀ op, (∃ w' u', step w op = some w' ∧ Leaves w u op u') ∨
    ∃ newLen, op = .truncate newLen ∧ isCodePointBoundary w.bytes newLen = false

/-- Every sequence of calls keeps the buffer well formed and its units those of the
pieces, and WTF-8 and sequences of units convert to each other without loss. -/
theorem wtf8Buf_lossless :
    (∀ w u, Reached w u → Intact w u) ∧
    (∀ v, ∃ w, Wtf8Buf.fromWide v = some w ∧ encodeWide w.bytes = some v) ∧
    ∀ bytes, WellFormed bytes →
      ∃ v w, encodeWide bytes = some v ∧ Wtf8Buf.fromWide v = some w ∧ w.bytes = bytes := by
  refine ⟨fun w u h => ?_, fun v => ?_, ?_⟩
  · obtain ⟨cs, hcs, rfl⟩ := reached_holds h
    refine ⟨⟨cs, hcs.chain, hcs.bytes⟩, fun hk => ?_, ?_, fun op => ?_⟩
    · rw [hcs.bytes]
      exact encode_wellFormed (hcs.known hk)
    · rw [hcs.bytes]
      exact encodeWide_encode cs
    · rcases step_holds hcs op with ⟨w', cs', hs, -, hu⟩ | hb
      · exact Or.inl ⟨w', wide cs', hs, (hu _).mpr rfl⟩
      · exact Or.inr hb
  · obtain ⟨w, hw, hh⟩ := fromWide_holds v
    refine ⟨w, hw, ?_⟩
    rw [hh.bytes, encodeWide_encode, wide_decode]
  · rintro bytes ⟨cs, hcs, rfl⟩
    obtain ⟨w, hw, hb⟩ := fromWide_wide hcs
    exact ⟨wide cs, w, encodeWide_encode cs, hw, hb⟩

def grin : List CodePoint := [⟨0xD83D, by decide⟩, ⟨0xDE00, by decide⟩]

theorem wtf8Buf_lossless_grin :
    ∃ w, Reached w [0xD83D, 0xDE00] ∧ Intact w [0xD83D, 0xDE00] ∧
      w = ⟨[0xF0, 0x9F, 0x98, 0x80], false⟩ ∧
      ∃ v w', encodeWide [0xED, 0xA0, 0xBD, 0x61] = some v ∧ Wtf8Buf.fromWide v = some w' ∧
        w'.bytes = [0xED, 0xA0, 0xBD, 0x61] := by
  have hreach : Reached ⟨[0xF0, 0x9F, 0x98, 0x80], false⟩ [0xD83D, 0xDE00] :=
    .step (.extend grin) .new (by decide) rfl
  have hslice : WellFormed [0xED, 0xA0, 0xBD, 0x61] :=
    ⟨[⟨0xD83D, by decide⟩, ⟨0x61, by decide⟩],
      List.isChain_pair.mpr fun h => absurd h.2.1 (by decide), by decide⟩
  exact ⟨_, hreach, wtf8Buf_lossless.1 _ _ hreach, rfl, wtf8Buf_lossless.2.2 _ hslice⟩

end RustStd.Wtf8Encoding
