import RustStd.Ptr.AlignOffset
import RustStd.Str.Utf8Validation

/-!
# ASCII tests

`is_ascii` reads the first word without alignment, aligned words after it, and the last word
again without alignment. The version for SSE2 counts the ASCII bytes of 32 at a time. Both decide
whether every byte is ASCII, like the loop over the bytes. `none` is a read outside of the slice
or a failed assertion.
-/

set_option autoImplicit false

namespace RustStd.IsAscii
open RustStd.Checked RustStd.Loop RustStd.Machine
open RustStd.Utf8Validation (AsciiBetween containsNonascii readWord readWord_isSome usizeBytes
  wordOf wordOf_land_mask)

def isAscii (b : UInt8) : Bool := b < 128

def alignOfUsize : ℕ := 8

/-- The loop takes the last byte off as long as it is ASCII. -/
def isAsciiSimpleBody (bytes : List UInt8) : Option (List UInt8 ⊕ Bool) :=
  match bytes.getLast? with
  | none => some (.inr bytes.isEmpty)
  | some last => some (if isAscii last then .inl bytes.dropLast else .inr bytes.isEmpty)

def isAsciiSimple (bytes : List UInt8) : Option Bool :=
  loop isAsciiSimpleBody (bytes.length+1) bytes

section Words

variable (addr : ℕ) (s : List UInt8)

def readUnaligned (offset : ℕ) : Option ℕ :=
  if offset+usizeBytes ≤ s.length then some (wordOf ((s.drop offset).take usizeBytes)) else none

/-- A round of the loop over the aligned words; the result is `none` after a byte that is not
ASCII. -/
def wordBody (bytePos : ℕ) : Option (ℕ ⊕ Option ℕ) :=
  if bytePos < s.length-usizeBytes then
    if bytePos+usizeBytes ≤ s.length then do
      let word ← readWord s addr bytePos
      return if containsNonascii word then .inr none else .inl (bytePos+usizeBytes)
    else none
  else some (.inr (some bytePos))

def isAsciiFrom (offsetToAligned : ℕ) : Option Bool :=
  if offsetToAligned ≤ s.length ∧ (addr+offsetToAligned)%alignOfUsize = 0 then do
    match ← loop (wordBody addr s) (s.length+1) offsetToAligned with
    | none => return false
    | some bytePos =>
      if bytePos ≤ s.length ∧ s.length-bytePos ≤ usizeBytes then do
        let lastWord ← readUnaligned s (s.length-usizeBytes)
        return !containsNonascii lastWord
      else none
  else none

def isAsciiWords : Option Bool := do
  let alignOffset ← Ptr.alignOffset addr 1 usizeBytes
  if s.length < usizeBytes ∨ s.length < alignOffset ∨ usizeBytes < alignOfUsize then
    isAsciiSimple s
  else
    let offsetToAligned := if alignOffset = 0 then usizeBytes else alignOffset
    let firstWord ← readUnaligned s 0
    if containsNonascii firstWord then return false else isAsciiFrom addr s offsetToAligned

end Words

section Chunks

variable (bytes : List UInt8)

def chunkSize : ℕ := 32

/-- The count is a `u8`. -/
def countBody (chunkEnd : ℕ) : ℕ × ℕ → Option (ℕ × ℕ ⊕ ℕ × ℕ)
  | (i, count) =>
    if i < chunkEnd then do
      let b ← bytes[i]?
      let count ← u8 (count+(isAscii b).toNat)
      return .inl (i+1, count)
    else some (.inr (i, count))

def chunkBody (i : ℕ) : Option (ℕ ⊕ Option ℕ) := do
  let chunkEnd ← u64 (i+chunkSize)
  if chunkEnd ≤ bytes.length then do
    let (i, count) ← loop (countBody bytes chunkEnd) (chunkSize+1) (i, 0)
    return if count ≠ chunkSize then .inr none else .inl i
  else return .inr (some i)

def restBody : ℕ × Bool → Option (ℕ × Bool ⊕ Bool)
  | (i, ascii) =>
    if i < bytes.length then do
      let b ← bytes[i]?
      return .inl (i+1, ascii && isAscii b)
    else some (.inr ascii)

def isAsciiSse2 : Option Bool := do
  match ← loop (chunkBody bytes) (bytes.length+1) 0 with
  | none => return false
  | some i => loop (restBody bytes) (bytes.length+1) (i, true)

end Chunks

/-! ## Bytes that were tested -/

section Between

variable {s bytes : List UInt8} {i j k offset : ℕ}

theorem all_iff : s.all isAscii = true ↔ ∀ b ∈ s, b < 128 := by
  simp only [List.all_eq_true, isAscii, decide_eq_true_eq]

theorem not_all (h : ∃ b ∈ s, ¬ b < 128) : s.all isAscii = false := by
  obtain ⟨b, hb, hlt⟩ := h
  rw [← Bool.not_eq_true, all_iff]
  exact fun hall => hlt (hall b hb)

theorem asciiBetween_le (h : AsciiBetween s i k) (hij : i ≤ j) (hjk : j ≤ k) :
    AsciiBetween s i j := by
  refine ⟨hij, hjk.trans h.2.1, fun b hb => h.2.2 b ?_⟩
  have hprefix := List.take_prefix_take_left (l := s.drop i) (show j-i ≤ k-i by omega)
  exact hprefix.subset hb

theorem asciiBetween_all : AsciiBetween s 0 s.length ↔ s.all isAscii = true := by
  rw [all_iff, AsciiBetween, Nat.sub_zero, List.drop_zero, List.take_length]
  constructor
  · exact fun h => h.2.2
  · exact fun h => ⟨Nat.zero_le _, le_rfl, h⟩

theorem asciiBetween_succ {b : UInt8} (h : AsciiBetween s 0 i) (hb : s[i]? = some b)
    (hascii : isAscii b = true) : AsciiBetween s 0 (i+1) := by
  obtain ⟨hlt, rfl⟩ := List.getElem?_eq_some_iff.mp hb
  refine h.trans ⟨Nat.le_succ i, hlt, fun c hc => ?_⟩
  rw [List.drop_eq_getElem_cons hlt, Nat.add_sub_cancel_left, List.take_succ_cons, List.take_zero,
    List.mem_singleton] at hc
  rw [hc]
  exact of_decide_eq_true hascii

theorem word_cases (h : offset+usizeBytes ≤ s.length) :
    (containsNonascii (wordOf ((s.drop offset).take usizeBytes)) = true ∧ s.all isAscii = false) ∨
      (containsNonascii (wordOf ((s.drop offset).take usizeBytes)) = false ∧
        AsciiBetween s offset (offset+usizeBytes)) := by
  have hlen : ((s.drop offset).take usizeBytes).length = usizeBytes := by
    rw [List.length_take_of_le]
    rw [List.length_drop]
    omega
  have hiff := wordOf_land_mask ((s.drop offset).take usizeBytes)
  rw [hlen] at hiff
  by_cases hall : ∀ b ∈ (s.drop offset).take usizeBytes, b < 128
  · right
    refine ⟨decide_eq_false (not_not.mpr (hiff.mpr hall)), Nat.le_add_right _ _, h, ?_⟩
    rw [Nat.add_sub_cancel_left]
    exact hall
  · left
    refine ⟨decide_eq_true (mt hiff.mp hall), not_all ?_⟩
    simp only [not_forall] at hall
    obtain ⟨b, hb, hge⟩ := hall
    exact ⟨b, List.mem_of_mem_drop (List.mem_of_mem_take hb), hge⟩

end Between

/-! ## The tests agree -/

section Tests

variable {s bytes : List UInt8} {i offset : ℕ}

theorem isAsciiSimple_eq (s : List UInt8) : isAsciiSimple s = some (s.all isAscii) := by
  have hround : ∀ l, s.all isAscii = l.all isAscii → ∃ r, isAsciiSimpleBody l = some r ∧
      Round (fun l => s.all isAscii = l.all isAscii) List.length (· = s.all isAscii) l r := by
    intro l hl
    rcases List.eq_nil_or_concat l with rfl | ⟨l, b, rfl⟩
    · exact ⟨.inr true, rfl, hl.symm⟩
    · rw [List.concat_eq_append] at hl ⊢
      rw [List.all_append, List.all_cons, List.all_nil, Bool.and_true] at hl
      by_cases hb : isAscii b = true
      · refine ⟨.inl l, ?_, ?_, ?_⟩
        · rw [isAsciiSimpleBody, List.getLast?_concat, List.dropLast_concat]
          exact congrArg some (if_pos hb)
        · rw [hl, hb, Bool.and_true]
        · rw [List.length_append]
          exact Nat.lt_succ_self _
      · have hne : (l ++ [b]).isEmpty = false := by simp
        refine ⟨.inr false, ?_, ?_⟩
        · rw [isAsciiSimpleBody, List.getLast?_concat, hne]
          exact congrArg some (if_neg hb)
        · rw [Round, hl, Bool.eq_false_of_not_eq_true hb, Bool.and_false]
  obtain ⟨r, hr, rfl⟩ := loop_total _ _ _ hround (s.length+1) s rfl (Nat.lt_succ_self _)
  exact hr

theorem wordLoop_spec {addr : ℕ} (hlen : usizeBytes ≤ s.length) (hle : offset ≤ s.length)
    (haligned : (addr+offset)%usizeBytes = 0) (htested : AsciiBetween s 0 offset) :
    ∃ r, loop (wordBody addr s) (s.length+1) offset = some r ∧
      ((r = none ∧ s.all isAscii = false) ∨
        ∃ i, r = some i ∧ AsciiBetween s 0 i ∧ s.length-i ≤ usizeBytes) := by
  have h8 : usizeBytes = 8 := rfl
  have hround : ∀ i, AsciiBetween s 0 i ∧ (addr+i)%usizeBytes = 0 → ∃ r, wordBody addr s i = some r ∧
      Round (fun i => AsciiBetween s 0 i ∧ (addr+i)%usizeBytes = 0) (s.length-·)
        (fun r => (r = none ∧ s.all isAscii = false) ∨
          ∃ i, r = some i ∧ AsciiBetween s 0 i ∧ s.length-i ≤ usizeBytes) i r := by
    rintro i ⟨hi, ha⟩
    rw [wordBody]
    by_cases hlt : i < s.length-usizeBytes
    · have hread : i+usizeBytes ≤ s.length := by omega
      have hword : readWord s addr i = some (wordOf ((s.drop i).take usizeBytes)) :=
        if_pos ⟨ha, hread⟩
      rw [if_pos hlt, if_pos hread, hword]
      obtain ⟨hnon, hall⟩ | ⟨hnon, hnext⟩ := word_cases hread
      · exact ⟨.inr none, congrArg some (if_pos hnon), .inl ⟨rfl, hall⟩⟩
      · refine ⟨.inl (i+usizeBytes), congrArg some (if_neg (by rw [hnon]; exact Bool.false_ne_true)),
          ⟨hi.trans hnext, ?_⟩, ?_⟩
        · rw [← Nat.add_assoc, Nat.add_mod_right, ha]
        · change s.length-(i+usizeBytes) < s.length-i
          omega
    · rw [if_neg hlt]
      exact ⟨.inr (some i), rfl, .inr ⟨i, rfl, hi, by omega⟩⟩
  exact loop_total _ _ _ hround (s.length+1) offset ⟨htested, haligned⟩ (by omega)

theorem isAsciiFrom_eq {addr : ℕ} (hlen : usizeBytes ≤ s.length) (hle : offset ≤ s.length)
    (haligned : (addr+offset)%usizeBytes = 0) (htested : AsciiBetween s 0 offset) :
    isAsciiFrom addr s offset = some (s.all isAscii) := by
  obtain ⟨r, hloop, hr⟩ := wordLoop_spec hlen hle haligned htested
  rw [isAsciiFrom, if_pos ⟨hle, haligned⟩, hloop]
  obtain ⟨rfl, hall⟩ | ⟨i, rfl, hi, hrest⟩ := hr
  · rw [hall]
    rfl
  · have hlast : s.length-usizeBytes+usizeBytes ≤ s.length := (Nat.sub_add_cancel hlen).le
    have hread : readUnaligned s (s.length-usizeBytes) =
        some (wordOf ((s.drop (s.length-usizeBytes)).take usizeBytes)) := if_pos hlast
    dsimp only [some_bind]
    rw [if_pos ⟨hi.2.1, hrest⟩, hread]
    obtain ⟨hnon, hall⟩ | ⟨hnon, htail⟩ := word_cases hlast
    · rw [hall]
      exact congrArg some (congrArg not hnon)
    · have hall : s.all isAscii = true := by
        rw [← asciiBetween_all]
        rw [Nat.sub_add_cancel hlen] at htail
        exact (asciiBetween_le hi (Nat.zero_le _) (by omega)).trans htail
      rw [hall]
      exact congrArg some (congrArg not hnon)

theorem alignOffset_bytes {addr : ℕ} (haddr : addr < 2^64) :
    ∃ o, Ptr.alignOffset addr 1 usizeBytes = some o ∧ o < usizeBytes ∧
      (addr+o)%usizeBytes = 0 := by
  have h8 : usizeBytes = 2^3 := rfl
  refine ⟨_, Ptr.alignOffset_one (k := 3) (by norm_num) haddr, ?_, ?_⟩
  · omega
  · exact Nat.mod_eq_zero_of_dvd Ptr.dvd_add_byteOffset

theorem isAsciiWords_eq {addr : ℕ} (haddr : addr < 2^64) (s : List UInt8) :
    isAsciiWords addr s = some (s.all isAscii) := by
  obtain ⟨o, ho, hlt, haligned⟩ := alignOffset_bytes haddr
  have h8 : usizeBytes = 8 := rfl
  rw [isAsciiWords, ho]
  dsimp only [some_bind]
  by_cases hshort : s.length < usizeBytes ∨ s.length < o ∨ usizeBytes < alignOfUsize
  · rw [if_pos hshort]
    exact isAsciiSimple_eq s
  · have hlen : usizeBytes ≤ s.length := not_lt.mp fun h => hshort (.inl h)
    have hread : readUnaligned s 0 = some (wordOf ((s.drop 0).take usizeBytes)) :=
      if_pos (by omega)
    rw [if_neg hshort, hread]
    dsimp only [some_bind]
    have hzero : 0+usizeBytes ≤ s.length := by omega
    obtain ⟨hnon, hall⟩ | ⟨hnon, hfirst⟩ := word_cases hzero
    · rw [if_pos hnon, hall]
      rfl
    · rw [if_neg (by rw [hnon]; exact Bool.false_ne_true)]
      apply isAsciiFrom_eq hlen
      · split_ifs <;> omega
      · split_ifs with hzero
        · rw [hzero, Nat.add_zero] at haligned
          rw [Nat.add_mod_right, haligned]
        · exact haligned
      · apply asciiBetween_le hfirst (Nat.zero_le _)
        split_ifs <;> omega

/-! ### Chunks -/

theorem byte_cases (hi : i < s.length) :
    ∃ b, s[i]? = some b ∧ ((isAscii b = true ∧ (AsciiBetween s 0 i → AsciiBetween s 0 (i+1))) ∨
      (isAscii b = false ∧ s.all isAscii = false)) := by
  have hget := List.getElem?_eq_getElem hi
  refine ⟨s[i], hget, ?_⟩
  by_cases hb : isAscii s[i] = true
  · exact .inl ⟨hb, fun h => asciiBetween_succ h hget hb⟩
  · exact .inr ⟨Bool.eq_false_of_not_eq_true hb,
      not_all ⟨s[i], List.getElem_mem hi, fun hlt => hb (decide_eq_true hlt)⟩⟩

/-- The count of the bytes from `start` on is complete as long as all are ASCII. -/
def Counted (s : List UInt8) (start : ℕ) : ℕ × ℕ → Prop
  | (i, count) => (i = start+count ∧ AsciiBetween s 0 i) ∨ (start+count < i ∧ s.all isAscii = false)

theorem countLoop_spec {start : ℕ} (hend : start+chunkSize ≤ s.length)
    (hstart : AsciiBetween s 0 start) :
    ∃ count, loop (countBody s (start+chunkSize)) (chunkSize+1) (start, 0) =
      some (start+chunkSize, count) ∧ Counted s start (start+chunkSize, count) := by
  have h32 : chunkSize = 32 := rfl
  have hround : ∀ p : ℕ × ℕ, p.1 ≤ start+chunkSize ∧ Counted s start p →
      ∃ r, countBody s (start+chunkSize) p = some r ∧
        Round (fun p => p.1 ≤ start+chunkSize ∧ Counted s start p) (start+chunkSize-·.1)
          (fun p => p.1 = start+chunkSize ∧ Counted s start p) p r := by
    rintro ⟨i, count⟩ ⟨hle, hc⟩
    dsimp only at hle
    rw [countBody]
    by_cases hlt : i < start+chunkSize
    · have hcount : count+1 < 2^8 := by
        obtain ⟨hi, -⟩ | ⟨hi, -⟩ := hc <;> omega
      obtain ⟨b, hget, hb⟩ := byte_cases (show i < s.length by omega)
      have hmeasure : start+chunkSize-(i+1) < start+chunkSize-i := by omega
      rw [if_pos hlt, hget]
      dsimp only [some_bind]
      obtain ⟨hascii, hnext⟩ | ⟨hascii, hall⟩ := hb
      · rw [hascii, Bool.toNat_true, u8_eq hcount]
        refine ⟨_, rfl, ⟨hlt, ?_⟩, hmeasure⟩
        obtain ⟨hi, hbetween⟩ | ⟨hi, hall⟩ := hc
        · exact .inl ⟨by omega, hnext hbetween⟩
        · exact .inr ⟨by omega, hall⟩
      · rw [hascii, Bool.toNat_false, Nat.add_zero, u8_eq (by omega)]
        refine ⟨_, rfl, ⟨hlt, .inr ⟨?_, hall⟩⟩, hmeasure⟩
        obtain ⟨hi, -⟩ | ⟨hi, -⟩ := hc <;> omega
    · rw [if_neg hlt]
      exact ⟨_, rfl, by omega, hc⟩
  obtain ⟨⟨i, count⟩, hloop, hi, hc⟩ := loop_total _ _ _ hround (chunkSize+1) (start, 0)
    ⟨Nat.le_add_right _ _, .inl ⟨rfl, hstart⟩⟩ (by change start+chunkSize-start < _; omega)
  obtain rfl : i = start+chunkSize := hi
  exact ⟨count, hloop, hc⟩

theorem chunkLoop_spec (hmax : s.length ≤ isizeMax) :
    ∃ r, loop (chunkBody s) (s.length+1) 0 = some r ∧
      ((r = none ∧ s.all isAscii = false) ∨ ∃ i, r = some i ∧ AsciiBetween s 0 i) := by
  have h32 : chunkSize = 32 := rfl
  have hround : ∀ i, AsciiBetween s 0 i → ∃ r, chunkBody s i = some r ∧
      Round (AsciiBetween s 0) (s.length-·)
        (fun r => (r = none ∧ s.all isAscii = false) ∨ ∃ i, r = some i ∧ AsciiBetween s 0 i) i r := by
    intro i hi
    have hle := hi.2.1
    have hfits : i+chunkSize < 2^64 := by
      rw [isizeMax] at hmax
      omega
    rw [chunkBody, u64_eq hfits]
    dsimp only [some_bind]
    by_cases hend : i+chunkSize ≤ s.length
    · obtain ⟨count, hloop, hc⟩ := countLoop_spec hend hi
      rw [if_pos hend, hloop]
      dsimp only [some_bind]
      by_cases hcount : count = chunkSize
      · subst hcount
        rw [if_neg (by simp)]
        obtain ⟨-, hnext⟩ | ⟨hlt, -⟩ := hc
        · refine ⟨_, rfl, hnext, ?_⟩
          change s.length-(i+chunkSize) < s.length-i
          omega
        · omega
      · rw [if_pos hcount]
        obtain ⟨heq, -⟩ | ⟨-, hall⟩ := hc
        · omega
        · exact ⟨_, rfl, .inl ⟨rfl, hall⟩⟩
    · rw [if_neg hend]
      exact ⟨_, rfl, .inr ⟨i, rfl, hi⟩⟩
  exact loop_total _ _ _ hround (s.length+1) 0 (AsciiBetween.refl (Nat.zero_le _)) (by omega)

theorem restLoop_eq (hi : AsciiBetween s 0 i) :
    loop (restBody s) (s.length+1) (i, true) = some (s.all isAscii) := by
  have hround : ∀ p : ℕ × Bool, p.1 ≤ s.length ∧ (p.2 = true ∧ AsciiBetween s 0 p.1 ∨
      p.2 = false ∧ s.all isAscii = false) → ∃ r, restBody s p = some r ∧
      Round (fun p => p.1 ≤ s.length ∧ (p.2 = true ∧ AsciiBetween s 0 p.1 ∨
        p.2 = false ∧ s.all isAscii = false)) (s.length-·.1) (· = s.all isAscii) p r := by
    rintro ⟨i, ascii⟩ ⟨hle, hc⟩
    dsimp only at hle hc
    rw [restBody]
    by_cases hlt : i < s.length
    · obtain ⟨b, hget, hb⟩ := byte_cases hlt
      have hmeasure : s.length-(i+1) < s.length-i := by omega
      rw [if_pos hlt, hget]
      refine ⟨_, rfl, ⟨hlt, ?_⟩, hmeasure⟩
      obtain ⟨rfl, hbetween⟩ | ⟨rfl, hall⟩ := hc
      · obtain ⟨hascii, hnext⟩ | ⟨hascii, hall⟩ := hb
        · exact .inl ⟨hascii, hnext hbetween⟩
        · exact .inr ⟨hascii, hall⟩
      · exact .inr ⟨rfl, hall⟩
    · obtain rfl : i = s.length := by omega
      rw [if_neg hlt]
      refine ⟨_, rfl, ?_⟩
      obtain ⟨rfl, hbetween⟩ | ⟨rfl, hall⟩ := hc
      · exact (asciiBetween_all.mp hbetween).symm
      · exact hall.symm
  obtain ⟨r, hloop, rfl⟩ := loop_total _ _ _ hround (s.length+1) (i, true)
    ⟨hi.2.1, .inl ⟨rfl, hi⟩⟩ (by change s.length-i < _; omega)
  exact hloop

theorem isAsciiSse2_eq (hmax : s.length ≤ isizeMax) : isAsciiSse2 s = some (s.all isAscii) := by
  obtain ⟨r, hloop, hr⟩ := chunkLoop_spec hmax
  rw [isAsciiSse2, hloop]
  obtain ⟨rfl, hall⟩ | ⟨i, rfl, hi⟩ := hr
  · rw [hall]
    rfl
  · exact restLoop_eq hi

end Tests

/-- All tests give the same answer, for every slice wherever it begins, and read only bytes of
the slice. -/
theorem isAscii_agree (s : Slice UInt8) (addr : UInt64) :
    isAsciiSimple s.elems = some (s.elems.all isAscii) ∧
      isAsciiWords addr.toNat s.elems = some (s.elems.all isAscii) ∧
      isAsciiSse2 s.elems = some (s.elems.all isAscii) :=
  ⟨isAsciiSimple_eq s.elems, isAsciiWords_eq addr.toNat_lt s.elems, isAsciiSse2_eq s.len_le⟩

end RustStd.IsAscii
