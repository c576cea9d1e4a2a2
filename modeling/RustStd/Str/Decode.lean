import RustStd.Lib.Loop
import RustStd.Lib.Machine
import RustStd.Str.CharMethods

/-!
# `DecodeUtf16`

The decoder reads units from an iterator and holds back one unit when a high
surrogate is not followed by a low one. What it holds back and what the
iterator has left are one sequence, and each call decodes the head of it.
-/

set_option autoImplicit false

namespace RustStd.Decode
open RustStd.Machine RustStd.Loop RustStd.Chars RustStd.CharMethods

variable {σ : Type}

/-- A fused iterator over units, with the units it has left. -/
structure Iter (σ : Type) where
  next : σ → Option UInt16 × σ
  sizeHint : σ → ℕ × Option ℕ
  left : σ → List UInt16
  next_eq : ∀ s, (next s).1 = (left s).head?
  next_left : ∀ s, left (next s).2 = (left s).tail
  low_le : ∀ s, (sizeHint s).1 ≤ (left s).length
  le_high : ∀ s h, (sizeHint s).2 = some h → (left s).length ≤ h

structure DecodeUtf16 (σ : Type) where
  iter : σ
  buf : Option UInt16

structure DecodeUtf16Error where
  code : UInt16
  deriving DecidableEq, Repr

def decodeUtf16 (iter : σ) : DecodeUtf16 σ := { iter, buf := none }

def isUtf16Surrogate (u : UInt16) : Bool := 0xD800 ≤ u ∧ u ≤ 0xDFFF

def DecodeUtf16.takeUnit (self : DecodeUtf16 σ) (it : Iter σ) : Option UInt16 × σ :=
  match self.buf with
  | some buf => (some buf, self.iter)
  | none => it.next self.iter

def DecodeUtf16.next (it : Iter σ) (self : DecodeUtf16 σ) :
    Option (Option (Except DecodeUtf16Error Char) × DecodeUtf16 σ) :=
  match self.takeUnit it with
  | (none, iter) => some (none, { iter, buf := none })
  | (some u, iter) =>
    if !isUtf16Surrogate u then do
      let c ← fromU32Unchecked u.toNat
      return (some (.ok c), { iter, buf := none })
    else if u ≥ 0xDC00 then some (some (.error ⟨u⟩), { iter, buf := none })
    else
      match it.next iter with
      | (none, iter) => some (some (.error ⟨u⟩), { iter, buf := none })
      | (some u2, iter) =>
        if u2 < 0xDC00 ∨ u2 > 0xDFFF then some (some (.error ⟨u⟩), { iter, buf := some u2 })
        else do
          let c ← fromU32Unchecked
            (((u &&& 0x3ff).toNat <<< 10 ||| (u2 &&& 0x3ff).toNat)+0x10000)
          return (some (.ok c), { iter, buf := none })

def checkedAdd (a b : ℕ) : Option ℕ := if a+b ≤ usizeMax then some (a+b) else none

def DecodeUtf16.sizeHint (self : DecodeUtf16 σ) (it : Iter σ) : ℕ × Option ℕ :=
  let (low, high) := it.sizeHint self.iter
  let (lowBuf, highBuf) :=
    match self.buf with
    | none => (0, 0)
    | some u =>
      if !isUtf16Surrogate u then (1, 1)
      else if high = some 0 then (1, 1)
      else (0, 1)
  ((low+1)/2+lowBuf, high.bind fun h => checkedAdd h highBuf)

def High (u : UInt16) : Prop := 0xD800 ≤ u ∧ u < 0xDC00

def Low (u : UInt16) : Prop := 0xDC00 ≤ u ∧ u ≤ 0xDFFF

instance (u : UInt16) : Decidable (High u) := inferInstanceAs (Decidable (_ ∧ _))

instance (u : UInt16) : Decidable (Low u) := inferInstanceAs (Decidable (_ ∧ _))

/-- The value of a unit that is no surrogate, and of a surrogate pair. -/
def ofUnit (u : UInt16) : Char := Char.ofNat u.toNat

def ofPair (u u2 : UInt16) : Char := Char.ofNat (u.toNat%1024*1024+u2.toNat%1024+0x10000)

/-- The items a sequence of units decodes to. -/
def decode : List UInt16 → List (Except DecodeUtf16Error Char)
  | [] => []
  | [u] => [if High u ∨ Low u then .error ⟨u⟩ else .ok (ofUnit u)]
  | u :: u2 :: l =>
    if High u then
      if Low u2 then .ok (ofPair u u2) :: decode l
      else .error ⟨u⟩ :: decode (u2 :: l)
    else if Low u then .error ⟨u⟩ :: decode (u2 :: l)
    else .ok (ofUnit u) :: decode (u2 :: l)

def DecodeUtf16.pending (self : DecodeUtf16 σ) (it : Iter σ) : List UInt16 :=
  self.buf.toList ++ it.left self.iter

/-- A unit that is held back was not a low surrogate. -/
def DecodeUtf16.BufOk (self : DecodeUtf16 σ) : Prop := ∀ u, self.buf = some u → ¬ Low u

theorem isUtf16Surrogate_iff (u : UInt16) : isUtf16Surrogate u = true ↔ High u ∨ Low u := by
  unfold isUtf16Surrogate High Low
  grind

theorem High.not_low {u : UInt16} (h : High u) : ¬ Low u := by
  unfold High Low at *
  grind

theorem fromU32Unchecked_ofNat {n : ℕ} (h : n.isValidChar) :
    fromU32Unchecked n = some (Char.ofNat n) := by
  rw [fromU32Unchecked, dif_pos h, Char.ofNat, dif_pos h]

theorem valid_unit {u : UInt16} (h : ¬ (High u ∨ Low u)) : u.toNat.isValidChar := by
  have := u.toNat_lt
  unfold High Low at h
  simp only [UInt16.le_iff_toNat_le, UInt16.lt_iff_toNat_lt] at h
  unfold Nat.isValidChar
  simp at h
  omega

theorem valid_pair (a b : ℕ) : (a%1024*1024+b%1024+0x10000).isValidChar := by
  unfold Nat.isValidChar
  omega

theorem pair_value (u u2 : UInt16) :
    ((u &&& 0x3ff).toNat <<< 10 ||| (u2 &&& 0x3ff).toNat)+0x10000 =
      u.toNat%1024*1024+u2.toNat%1024+0x10000 := by
  have hten (x : UInt16) : (x &&& 0x3ff).toNat = x.toNat%1024 := by
    rw [UInt16.toNat_and]
    exact Nat.and_two_pow_sub_one_eq_mod _ 10
  have hlt : u2.toNat%1024 < 2^10 := Nat.mod_lt _ (by decide)
  rw [hten, hten, ← Nat.shiftLeft_add_eq_or_of_lt hlt, Nat.shiftLeft_eq]

theorem decode_cons_ok {u : UInt16} (h : ¬ (High u ∨ Low u)) (l : List UInt16) :
    decode (u :: l) = .ok (ofUnit u) :: decode l := by
  rw [not_or] at h
  cases l with
  | nil => simp [decode, h]
  | cons u2 l => simp [decode, h]

theorem decode_cons_low {u : UInt16} (h : Low u) (l : List UInt16) :
    decode (u :: l) = .error ⟨u⟩ :: decode l := by
  have hh : ¬ High u := fun hh => hh.not_low h
  cases l with
  | nil => simp [decode, h]
  | cons u2 l => simp [decode, h, hh]

theorem decode_cons_high {u : UInt16} (h : High u) {l : List UInt16}
    (hl : ∀ u2 ∈ l.head?, ¬ Low u2) : decode (u :: l) = .error ⟨u⟩ :: decode l := by
  cases l with
  | nil => simp [decode, h]
  | cons u2 l => simp [decode, h, hl u2 rfl]

theorem decode_pair {u u2 : UInt16} (h : High u) (h2 : Low u2) (l : List UInt16) :
    decode (u :: u2 :: l) = .ok (ofPair u u2) :: decode l := by
  simp [decode, h, h2]

theorem decode_induction {P : List UInt16 → Prop} (nil : P [])
    (unit : ∀ u l, ¬ (High u ∨ Low u) → P l → P (u :: l))
    (low : ∀ u l, Low u → P l → P (u :: l))
    (high : ∀ u l, High u → (∀ u2 ∈ l.head?, ¬ Low u2) → P l → P (u :: l))
    (pair : ∀ u u2 l, High u → Low u2 → P l → P (u :: u2 :: l)) (l : List UInt16) : P l := by
  induction hn : l.length using Nat.strongRecOn generalizing l with
  | _ n ih =>
    cases l with
    | nil => exact nil
    | cons u l =>
      have hl : P l := ih l.length (by simp [← hn]) l rfl
      by_cases hh : High u
      · cases l with
        | nil => exact high u [] hh (by simp) hl
        | cons u2 l =>
          by_cases h2 : Low u2
          · exact pair u u2 l hh h2 (ih l.length (by simp [← hn]) l rfl)
          · exact high u (u2 :: l) hh (by simpa using h2) hl
      · by_cases hlow : Low u
        · exact low u l hlow hl
        · exact unit u l (by simp [hh, hlow]) hl

variable (it : Iter σ)

theorem takeUnit_eq (self : DecodeUtf16 σ) :
    (self.takeUnit it).1 = (self.pending it).head? ∧
      it.left (self.takeUnit it).2 = (self.pending it).tail := by
  unfold DecodeUtf16.takeUnit DecodeUtf16.pending
  cases self.buf with
  | some u => simp
  | none => simp [it.next_eq, it.next_left]

@[simp] theorem pending_none (iter : σ) :
    DecodeUtf16.pending { iter, buf := none } it = it.left iter := rfl

@[simp] theorem pending_some (iter : σ) (u : UInt16) :
    DecodeUtf16.pending { iter, buf := some u } it = u :: it.left iter := rfl

theorem bufOk_none (iter : σ) : DecodeUtf16.BufOk { iter, buf := none } := by
  simp [DecodeUtf16.BufOk]

/-- A call returns the first item of what is pending and leaves the others. -/
theorem next_decodes (self : DecodeUtf16 σ) :
    ∃ self', self.next it = some ((decode (self.pending it)).head?, self') ∧
      decode (self'.pending it) = (decode (self.pending it)).tail ∧ self'.BufOk := by
  obtain ⟨hhead, htail⟩ := takeUnit_eq it self
  unfold DecodeUtf16.next
  generalize self.takeUnit it = t at hhead htail
  obtain ⟨u, iter⟩ := t
  generalize self.pending it = p at hhead htail
  cases p with
  | nil =>
    obtain rfl : u = none := hhead
    exact ⟨_, rfl, congrArg decode htail, bufOk_none iter⟩
  | cons v l =>
    obtain rfl : u = some v := hhead
    obtain rfl : it.left iter = l := htail
    by_cases hs : High v ∨ Low v
    swap
    · have hsur : isUtf16Surrogate v = false := by
        rwa [← Bool.not_eq_true, isUtf16Surrogate_iff]
      refine ⟨{ iter, buf := none }, ?_, ?_, bufOk_none iter⟩
      · simp [hsur, fromU32Unchecked_ofNat (valid_unit hs), decode_cons_ok hs, ofUnit]
      · simp [decode_cons_ok hs]
    have hsur := (isUtf16Surrogate_iff v).mpr hs
    by_cases hlow : Low v
    · refine ⟨{ iter, buf := none }, ?_, ?_, bufOk_none iter⟩
      · simp [hsur, hlow.1, decode_cons_low hlow]
      · simp [decode_cons_low hlow]
    have hhigh : High v := hs.resolve_right hlow
    have hge : ¬ 0xDC00 ≤ v := by simpa using hhigh.2
    have hnext := it.next_eq iter
    have hleft := it.next_left iter
    rcases hn : it.next iter with ⟨u2, iter2⟩
    rw [hn] at hnext hleft
    generalize it.left iter = l at hnext hleft
    cases l with
    | nil =>
      obtain rfl : u2 = none := hnext
      have hd := decode_cons_high hhigh (l := []) (by simp)
      refine ⟨{ iter := iter2, buf := none }, ?_, ?_, bufOk_none iter2⟩
      · simp [hsur, hge, hn, hd]
      · simpa [hd] using congrArg decode hleft
    | cons w l =>
      obtain rfl : u2 = some w := hnext
      obtain rfl : it.left iter2 = l := hleft
      by_cases h2 : Low w
      · have hin : ¬ (w < 0xDC00 ∨ 0xDFFF < w) := by
          unfold Low at h2
          grind
        have hd := decode_pair hhigh h2 (it.left iter2)
        refine ⟨{ iter := iter2, buf := none }, ?_, ?_, bufOk_none iter2⟩
        · simp only [hsur, hge, hn, hin, pair_value, fromU32Unchecked_ofNat (valid_pair _ _), hd]
          simp [ofPair]
        · simp [hd]
      · have hout : w < 0xDC00 ∨ 0xDFFF < w := by
          unfold Low at h2
          grind
        have hd := decode_cons_high hhigh (l := w :: it.left iter2) (by simpa using h2)
        refine ⟨{ iter := iter2, buf := some w }, ?_, ?_, ?_⟩
        · simp [hsur, hge, hn, hout, hd]
        · simp [hd]
        · simpa [DecodeUtf16.BufOk] using h2

/-- The units an item stands for; `dst` is the buffer of `encode_utf16`. -/
def units (dst : List UInt16) : Except DecodeUtf16Error Char → Option (List UInt16)
  | .ok c => (encodeUtf16 c dst).map Prod.fst
  | .error e => some [e.code]

def itemUnits : Except DecodeUtf16Error Char → List UInt16
  | .ok c => utf16Units c.toNat
  | .error e => [e.code]

theorem units_eq {dst : List UInt16} (hd : 2 ≤ dst.length) (x : Except DecodeUtf16Error Char) :
    units dst x = some (itemUnits x) := by
  cases x with
  | error e => rfl
  | ok c =>
    have hlen : lenUtf16 c.toNat ≤ dst.length := by
      rw [lenUtf16_eq (toNat_lt_limit c).1]
      split_ifs <;> omega
    simp [units, encodeUtf16_eq c dst hlen, itemUnits]

theorem toNat_ofNat {n : ℕ} (h : n.isValidChar) : (Char.ofNat n).toNat = n := by
  rw [Char.ofNat, dif_pos h]
  simp [Char.ofNatAux, Char.toNat]

theorem itemUnits_ofUnit {u : UInt16} (h : ¬ (High u ∨ Low u)) :
    itemUnits (.ok (ofUnit u)) = [u] := by
  have hlt := u.toNat_lt
  simp [itemUnits, ofUnit, toNat_ofNat (valid_unit h), utf16Units, show u.toNat < 65536 by omega]

theorem itemUnits_ofPair {u u2 : UInt16} (h : High u) (h2 : Low u2) :
    itemUnits (.ok (ofPair u u2)) = [u, u2] := by
  unfold High at h
  unfold Low at h2
  simp only [UInt16.le_iff_toNat_le, UInt16.lt_iff_toNat_lt] at h h2
  simp at h h2
  have hge : ¬ u.toNat%1024*1024+u2.toNat%1024+65536 < 65536 := by omega
  simp only [itemUnits, ofPair, toNat_ofNat (valid_pair _ _), utf16Units, if_neg hge]
  have e1 : 55296+(u.toNat%1024*1024+u2.toNat%1024+65536-65536)/1024 = u.toNat := by omega
  have e2 : 56320+(u.toNat%1024*1024+u2.toNat%1024+65536)%1024 = u2.toNat := by omega
  rw [e1, e2, UInt16.ofNat_toNat, UInt16.ofNat_toNat]

theorem decode_units (l : List UInt16) : (decode l).flatMap itemUnits = l := by
  induction l using decode_induction with
  | nil => rfl
  | unit u l h ih => rw [decode_cons_ok h, List.flatMap_cons, itemUnits_ofUnit h, ih]; rfl
  | low u l h ih => rw [decode_cons_low h, List.flatMap_cons, ih]; rfl
  | high u l h hl ih => rw [decode_cons_high h hl, List.flatMap_cons, ih]; rfl
  | pair u u2 l h h2 ih => rw [decode_pair h h2, List.flatMap_cons, itemUnits_ofPair h h2, ih]; rfl

theorem decode_length (l : List UInt16) :
    (l.length+1)/2 ≤ (decode l).length ∧ (decode l).length ≤ l.length := by
  induction l using decode_induction with
  | nil => simp [decode]
  | unit u l h ih => rw [decode_cons_ok h, List.length_cons, List.length_cons]; omega
  | low u l h ih => rw [decode_cons_low h, List.length_cons, List.length_cons]; omega
  | high u l h hl ih => rw [decode_cons_high h hl, List.length_cons, List.length_cons]; omega
  | pair u u2 l h h2 ih =>
    rw [decode_pair h h2, List.length_cons, List.length_cons, List.length_cons]
    omega

/-- A surrogate that is neither the first nor the second unit of a pair. -/
def Unpaired (l : List UInt16) (p : ℕ) : Prop :=
  ∃ u, l[p]? = some u ∧ (High u ∨ Low u) ∧
    ¬ (High u ∧ ∃ w, l[p+1]? = some w ∧ Low w) ∧
    ¬ (Low u ∧ 0 < p ∧ ∃ w, l[p-1]? = some w ∧ High w)

/-- An error in the items, and the number of units before it. -/
def ErrorAt (items : List (Except DecodeUtf16Error Char)) (p : ℕ) : Prop :=
  ∃ k e, items[k]? = some (.error e) ∧ ((items.take k).flatMap itemUnits).length = p

theorem unpaired_succ {u : UInt16} {l : List UInt16} {p : ℕ}
    (h : p = 0 → High u → ∀ u2 ∈ l.head?, ¬ Low u2) :
    Unpaired (u :: l) (p+1) ↔ Unpaired l p := by
  unfold Unpaired
  apply exists_congr
  intro w
  simp only [List.getElem?_cons_succ, Nat.add_sub_cancel, Nat.zero_lt_succ, true_and]
  apply and_congr_right
  intro hw
  apply and_congr_right
  intro _
  apply and_congr_right
  intro _
  rcases Nat.eq_zero_or_pos p with rfl | hp
  · have hw' : w ∈ l.head? := by simpa [List.head?_eq_getElem?] using hw
    have := h rfl
    simp
    grind
  · obtain ⟨q, rfl⟩ : ∃ q, p = q+1 := ⟨p-1, by omega⟩
    simp

theorem errorAt_cons (x : Except DecodeUtf16Error Char)
    (items : List (Except DecodeUtf16Error Char)) (p : ℕ) :
    ErrorAt (x :: items) p ↔ (p = 0 ∧ ∃ e, x = .error e) ∨
      ∃ q, p = (itemUnits x).length+q ∧ ErrorAt items q := by
  constructor
  · rintro ⟨k, e, he, rfl⟩
    cases k with
    | zero => exact .inl ⟨by simp, e, by simpa using he⟩
    | succ k => exact .inr ⟨_, by simp, k, e, by simpa using he, rfl⟩
  · rintro (⟨rfl, e, rfl⟩ | ⟨q, rfl, k, e, he, rfl⟩)
    · exact ⟨0, e, rfl, rfl⟩
    · exact ⟨k+1, e, by simpa using he, by simp⟩

theorem errorAt_unit {u : UInt16} {l : List UInt16} {x : Except DecodeUtf16Error Char}
    (hx : (itemUnits x).length = 1) (hu : Unpaired (u :: l) 0 ↔ ∃ e, x = .error e)
    (hs : High u → ∀ u2 ∈ l.head?, ¬ Low u2) (ih : ∀ p, ErrorAt (decode l) p ↔ Unpaired l p)
    (p : ℕ) : ErrorAt (x :: decode l) p ↔ Unpaired (u :: l) p := by
  rw [errorAt_cons, hx]
  cases p with
  | zero =>
    simp [hu]
    omega
  | succ p =>
    rw [unpaired_succ fun _ => hs, ← ih]
    simp [Nat.add_comm 1]

theorem errorAt_iff (l : List UInt16) (p : ℕ) : ErrorAt (decode l) p ↔ Unpaired l p := by
  induction l using decode_induction generalizing p with
  | nil => simp [decode, ErrorAt, Unpaired]
  | unit u l h ih =>
    rw [decode_cons_ok h]
    apply errorAt_unit (by rw [itemUnits_ofUnit h]; rfl) _ (fun hu => absurd (.inl hu) h) ih
    simp [Unpaired, h]
  | low u l h ih =>
    rw [decode_cons_low h]
    apply errorAt_unit rfl _ (fun hu => absurd h hu.not_low) ih
    have hn : ¬ High u := fun hu => hu.not_low h
    simp [Unpaired, h, hn]
  | high u l h hl ih =>
    rw [decode_cons_high h hl]
    apply errorAt_unit rfl _ (fun _ => hl) ih
    simpa [Unpaired, h, List.head?_eq_getElem?, h.not_low] using hl
  | pair u u2 l h h2 ih =>
    rw [decode_pair h h2, errorAt_cons, itemUnits_ofPair h h2]
    have hn : ¬ High u2 := fun hu => hu.not_low h2
    match p with
    | 0 =>
      simp [Unpaired, h, h2]
      omega
    | 1 =>
      simp [Unpaired, h, h2]
      omega
    | p+2 =>
      rw [unpaired_succ (by simp), unpaired_succ (fun _ hu => absurd hu hn), ← ih]
      simp [Nat.add_comm 2]

theorem decode_utf16Units (c : Char) (l : List UInt16) :
    decode (utf16Units c.toNat ++ l) = .ok c :: decode l := by
  obtain ⟨hlt, hsur⟩ := toNat_lt_limit c
  have hc : Char.ofNat c.toNat = c := Char.ofNat_toNat c
  unfold utf16Units
  split_ifs with h
  · have hn : (UInt16.ofNat c.toNat).toNat = c.toNat := by simpa using h
    have hu : ¬ (High (UInt16.ofNat c.toNat) ∨ Low (UInt16.ofNat c.toNat)) := by
      simp only [High, Low, UInt16.le_iff_toNat_le, UInt16.lt_iff_toNat_lt, hn]
      simp
      omega
    rw [List.singleton_append, decode_cons_ok hu, ofUnit, hn, hc]
  · have h1 : (UInt16.ofNat (55296+(c.toNat-65536)/1024)).toNat =
        55296+(c.toNat-65536)/1024 := by simp; omega
    have h2 : (UInt16.ofNat (56320+c.toNat%1024)).toNat = 56320+c.toNat%1024 := by simp; omega
    have hhigh : High (UInt16.ofNat (55296+(c.toNat-65536)/1024)) := by
      simp only [High, UInt16.le_iff_toNat_le, UInt16.lt_iff_toNat_lt, h1]
      simp
      omega
    have hlow : Low (UInt16.ofNat (56320+c.toNat%1024)) := by
      simp only [Low, UInt16.le_iff_toNat_le, h2]
      simp
      omega
    have hval : (55296+(c.toNat-65536)/1024)%1024*1024+(56320+c.toNat%1024)%1024+65536 =
        c.toNat := by omega
    rw [List.cons_append, List.singleton_append, decode_pair hhigh hlow, ofPair, h1, h2, hval, hc]

theorem decode_encoded (cs : List Char) :
    decode (cs.flatMap fun c => utf16Units c.toNat) = cs.map .ok := by
  induction cs with
  | nil => rfl
  | cons c cs ih => rw [List.flatMap_cons, decode_utf16Units, ih, List.map_cons]

theorem sizeHint_bounds (self : DecodeUtf16 σ) (hb : self.BufOk) :
    (self.sizeHint it).1 ≤ (decode (self.pending it)).length ∧
      ∀ h, (self.sizeHint it).2 = some h → (decode (self.pending it)).length ≤ h := by
  obtain ⟨iter, buf⟩ := self
  have hlow := it.low_le iter
  have hhigh := it.le_high iter
  have hlen := decode_length (it.left iter)
  unfold DecodeUtf16.sizeHint
  generalize it.sizeHint iter = hint at hlow hhigh ⊢
  obtain ⟨low, high⟩ := hint
  -- the upper bound in all cases: at most `b` items more than the iterator has units
  have hupper {m b : ℕ} (hm : m ≤ (it.left iter).length+b) :
      ∀ h, (high.bind fun h => checkedAdd h b) = some h → m ≤ h := by
    intro h hh
    obtain ⟨g, hg, hadd⟩ := Option.bind_eq_some_iff.mp hh
    have := hhigh g hg
    simp only [checkedAdd, Option.ite_none_right_eq_some, Option.some.injEq] at hadd
    omega
  cases buf with
  | none =>
    simp only [pending_none] at hlow ⊢
    exact ⟨by omega, hupper (by omega)⟩
  | some u =>
    simp only [pending_some] at hlow ⊢
    by_cases hs : isUtf16Surrogate u = true
    · have hu : High u := ((isUtf16Surrogate_iff u).mp hs).resolve_right (hb u rfl)
      have hlen' := decode_length (u :: it.left iter)
      rw [List.length_cons] at hlen'
      simp only [hs, Bool.not_true, Bool.false_eq_true, if_false]
      split_ifs with hz
      · have := hhigh 0 hz
        exact ⟨by omega, hupper (by omega)⟩
      · exact ⟨by omega, hupper (by omega)⟩
    · have hu := mt (isUtf16Surrogate_iff u).mpr hs
      rw [Bool.not_eq_true] at hs
      rw [decode_cons_ok hu, List.length_cons]
      simp only [hs, Bool.not_false, if_true]
      exact ⟨by omega, hupper (by omega)⟩

def calls (it : Iter σ) : ℕ → DecodeUtf16 σ → Option (DecodeUtf16 σ)
  | 0, self => some self
  | n+1, self => do
    let (_, self) ← self.next it
    calls it n self

theorem calls_decodes (n : ℕ) (self : DecodeUtf16 σ) (hb : self.BufOk) :
    ∃ self', calls it n self = some self' ∧ self'.BufOk ∧
      decode (self'.pending it) = (decode (self.pending it)).drop n := by
  induction n generalizing self with
  | zero => exact ⟨self, rfl, hb, rfl⟩
  | succ n ih =>
    obtain ⟨self₁, hn, hd, hb₁⟩ := next_decodes it self
    obtain ⟨self₂, hc, hb₂, hd₂⟩ := ih self₁ hb₁
    refine ⟨self₂, by simpa [calls, hn] using hc, hb₂, ?_⟩
    rw [hd₂, hd, List.drop_tail]

theorem collect_decodes (fuel : ℕ) (self : DecodeUtf16 σ)
    (hf : (decode (self.pending it)).length < fuel) :
    collect (DecodeUtf16.next it) fuel self = some (decode (self.pending it)) := by
  induction fuel generalizing self with
  | zero => omega
  | succ fuel ih =>
    obtain ⟨self', hn, hd, -⟩ := next_decodes it self
    generalize decode (self.pending it) = items at hn hd hf
    cases items with
    | nil => exact collect_of_none hn fuel
    | cons x items =>
      rw [List.tail_cons] at hd
      rw [List.length_cons] at hf
      apply collect_of_some hn
      rw [ih self' (by rw [hd]; omega), hd]

theorem mapM_units {dst : List UInt16} (hd : 2 ≤ dst.length)
    (items : List (Except DecodeUtf16Error Char)) :
    items.mapM (units dst) = some (items.map itemUnits) := by
  induction items with
  | nil => rfl
  | cons x items ih => simp [List.mapM_cons, units_eq hd, ih]

/-- The decoder splits every sequence of units into chars and unpaired surrogates,
inverts the encoder, and announces the number of items before every call. -/
theorem decodeUtf16_exact (iter : σ) (dst : List UInt16) (hd : 2 ≤ dst.length) :
    (∃ items us,
      (∀ fuel, (it.left iter).length < fuel →
        collect (DecodeUtf16.next it) fuel (decodeUtf16 iter) = some items) ∧
      items.mapM (units dst) = some us ∧ us.flatten = it.left iter ∧
      (∀ p, Unpaired (it.left iter) p ↔
        ∃ k e, items[k]? = some (.error e) ∧ (us.take k).flatten.length = p) ∧
      ∀ n, ∃ self, calls it n (decodeUtf16 iter) = some self ∧
        (∀ fuel, (it.left iter).length < fuel →
          collect (DecodeUtf16.next it) fuel self = some (items.drop n)) ∧
        (self.sizeHint it).1 ≤ (items.drop n).length ∧
        ∀ h, (self.sizeHint it).2 = some h → (items.drop n).length ≤ h) ∧
    ∀ cs : List Char, ∃ outs, (cs.mapM fun c => (encodeUtf16 c dst).map Prod.fst) = some outs ∧
      (it.left iter = outs.flatten → ∀ fuel, (it.left iter).length < fuel →
        collect (DecodeUtf16.next it) fuel (decodeUtf16 iter) = some (cs.map .ok)) := by
  have hlen := (decode_length (it.left iter)).2
  have hcollect (fuel : ℕ) (hf : (it.left iter).length < fuel) :
      collect (DecodeUtf16.next it) fuel (decodeUtf16 iter) = some (decode (it.left iter)) :=
    collect_decodes it fuel (decodeUtf16 iter) (Nat.lt_of_le_of_lt hlen hf)
  constructor
  · refine ⟨_, _, hcollect, mapM_units hd _, decode_units _, fun p => ?_, fun n => ?_⟩
    · rw [← errorAt_iff, ErrorAt]
      simp only [← List.map_take, List.flatMap]
    · obtain ⟨self, hc, hb, hdrop⟩ := calls_decodes it n (decodeUtf16 iter) (bufOk_none iter)
      change _ = (decode (it.left iter)).drop n at hdrop
      have hbounds := sizeHint_bounds it self hb
      rw [hdrop] at hbounds
      refine ⟨self, hc, fun fuel hf => ?_, hbounds⟩
      rw [← hdrop]
      apply collect_decodes
      rw [hdrop, List.length_drop]
      omega
  · intro cs
    have hmap : (cs.mapM fun c => (encodeUtf16 c dst).map Prod.fst) =
        some (cs.map fun c => utf16Units c.toNat) := by
      have h := mapM_units hd (cs.map .ok)
      rw [List.mapM_map, List.map_map] at h
      exact h
    refine ⟨_, hmap, fun hleft fuel hf => ?_⟩
    rw [hcollect fuel hf, hleft]
    exact congrArg some (decode_encoded cs)

def sliceIter : Iter (List UInt16) where
  next s := (s.head?, s.tail)
  sizeHint s := (s.length, some s.length)
  left s := s
  next_eq _ := rfl
  next_left _ := rfl
  low_le _ := le_rfl
  le_high _ _ hh := (Option.some.inj hh).le

theorem decodeUtf16_exact_surrogates :
    2 ≤ [(0 : UInt16), 0].length ∧
    ∃ items us, collect (DecodeUtf16.next sliceIter) 6
        (decodeUtf16 [0xD800, 0xD83D, 0xDE00, 0x61, 0xDC00]) = some items ∧
      items.mapM (units [0, 0]) = some us ∧
      us.flatten = [0xD800, 0xD83D, 0xDE00, 0x61, 0xDC00] := by
  obtain ⟨⟨items, us, hc, hu, hf, -, -⟩, -⟩ := decodeUtf16_exact sliceIter
    [0xD800, 0xD83D, 0xDE00, 0x61, 0xDC00] [0, 0] (by decide)
  exact ⟨by decide, items, us, hc 6 (by decide), hu, hf⟩

end RustStd.Decode
