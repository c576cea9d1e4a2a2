import RustStd.Lib.Checked
import RustStd.Lib.Lanes
import RustStd.Str.Iter
import RustStd.Str.Memchr

/-!
# Counting chars and skipping them

A char is counted by its first byte. `do_count_chars` reads a word at a time and
adds up the first bytes in the eight bytes of a word, which do not overflow within
a chunk of 192 words. `advance_by` skips blocks of 32 bytes by the same count.
-/

set_option autoImplicit false

namespace RustStd.CharCount
open RustStd.CharMethods RustStd.Checked RustStd.Chars RustStd.Lanes RustStd.Loop RustStd.Machine
open RustStd.Memchr RustStd.StrIter RustStd.Utf8Grammar
open RustStd.Utf8Validation (utf8CharWidth utf8CharWidth_eq)

def usizeSize : ℕ := 8

def unrollInner : ℕ := 4

def chunkSize : ℕ := 192

def charCountGeneralCase (s : List UInt8) : ℕ := (s.filter fun byte => !utf8IsContByte byte).length

def containsNonContinuationByte (w : BitVec 64) : BitVec 64 :=
  ((~~~w >>> 7) ||| (w >>> 6)) &&& repeatU8 0x01

def repeatU16 (x : BitVec 16) : BitVec 64 := x ++ x ++ x ++ x

def addUsize (a b : BitVec 64) : Option (BitVec 64) :=
  if a.toNat+b.toNat < 2^64 then some (a+b) else none

def sumBytesInUsize (values : BitVec 64) : Option ℕ := do
  let skipBytes := repeatU16 0x00ff
  let pairSum ← addUsize (values &&& skipBytes) ((values >>> 8) &&& skipBytes)
  return ((pairSum*repeatU16 0x0001) >>> ((usizeSize-2)*8)).toNat

def asChunks {α : Type*} (n : ℕ) (l : List α) : List (List α) × List α :=
  ((List.range (l.length/n)).map fun i => (l.drop (i*n)).take n, l.drop (l.length/n*n))

def readWords (addr : ℕ) (text : List UInt8) : ℕ → ℕ → Option (List (BitVec 64))
  | 0, _ => some []
  | n+1, offset => do
    let word ← readWord addr text offset
    let words ← readWords addr text n (offset+usizeSize)
    return word :: words

/-- `align_to::<usize>`; a text without an address has no words. -/
def alignTo (addr : Option ℕ) (text : List UInt8) :
    Option (List UInt8 × List (BitVec 64) × List UInt8) :=
  match addr with
  | none => some (text, [], [])
  | some addr =>
    let offset := alignOffset addr
    if offset > text.length then some (text, [], [])
    else do
      let left := text.take offset
      let rest := text.drop offset
      let words ← readWords addr text (rest.length/usizeSize) offset
      return (left, words, rest.drop (rest.length-rest.length%usizeSize))

def countWords (counts : BitVec 64) : List (BitVec 64) → Option (BitVec 64)
  | [] => some counts
  | word :: words => do
    let counts ← addUsize counts (containsNonContinuationByte word)
    countWords counts words

def countUnrolled (counts : BitVec 64) : List (List (BitVec 64)) → Option (BitVec 64)
  | [] => some counts
  | unrolled :: unrolledChunks => do
    let counts ← countWords counts unrolled
    countUnrolled counts unrolledChunks

def addCounts (total : ℕ) (counts : Option (BitVec 64)) : Option ℕ := do
  let sum ← sumBytesInUsize (← counts)
  u64 (total+sum)

def countBody : List (BitVec 64) × ℕ → Option ((List (BitVec 64) × ℕ) ⊕ ℕ)
  | (body, total) =>
    if body = [] then some (.inr total)
    else do
      let (unrolledChunks, remainder) := asChunks unrollInner (body.take chunkSize)
      let total ← addCounts total (countUnrolled 0 unrolledChunks)
      if remainder = [] then return .inl (body.drop chunkSize, total)
      else do
        let total ← addCounts total (countWords 0 remainder)
        return .inr total

def doCountChars (addr : Option ℕ) (s : List UInt8) : Option ℕ := do
  let (head, body, tail) ← alignTo addr s
  if body = [] ∨ head.length > usizeSize ∨ tail.length > usizeSize then
    return charCountGeneralCase s
  else do
    let total ← u64 (charCountGeneralCase head+charCountGeneralCase tail)
    loop countBody (body.length+1) (body, total)

def countChars (addr : Option ℕ) (s : List UInt8) : Option ℕ :=
  if s.length < usizeSize*unrollInner then some (charCountGeneralCase s) else doCountChars addr s

def count (addr : Option ℕ) (self : Chars) : Option ℕ := countChars addr self.iter

def blockSize : ℕ := 32

def skip (iter : List UInt8) (n : ℕ) : Option (List UInt8) :=
  if n ≤ iter.length then some (iter.drop n) else none

def sumStarts (sum : ℕ) : List UInt8 → Option ℕ
  | [] => some sum
  | byte :: chunk => do
    let sum ← u8 (sum+if utf8IsContByte byte then 0 else 1)
    sumStarts sum chunk

/-- The loop over the blocks: the remainder and the bytes skipped. -/
def skipBlocks : List (List UInt8) → ℕ → ℕ → Option (ℕ × ℕ)
  | [], remainder, bytesSkipped => some (remainder, bytesSkipped)
  | chunk :: chunks, remainder, bytesSkipped =>
    if remainder > blockSize then do
      let sum ← sumStarts 0 chunk
      let remainder ← sub remainder sum
      skipBlocks chunks remainder (bytesSkipped+blockSize)
    else some (remainder, bytesSkipped)

/-- The loop over trailing continuation bytes. -/
def skipTrailing : List UInt8 → List UInt8
  | [] => []
  | b :: iter => if utf8IsContByte b then skipTrailing iter else b :: iter

def skipChars : ℕ → List UInt8 → Option (ℕ × List UInt8)
  | 0, iter => some (0, iter)
  | remainder+1, [] => some (remainder+1, [])
  | remainder+1, b :: iter => do
    let iter ← skip (b :: iter) (utf8CharWidth b)
    skipChars remainder iter

def skipLong (remainder : ℕ) (iter : List UInt8) : Option (ℕ × List UInt8) :=
  if remainder ≥ blockSize then do
    let (remainder, bytesSkipped) ← skipBlocks (asChunks blockSize iter).1 remainder 0
    let iter ← skip iter bytesSkipped
    return (remainder, skipTrailing iter)
  else some (remainder, iter)

def toResult (remainder : ℕ) : Except ℕ Unit := if remainder = 0 then .ok () else .error remainder

def advanceBy (self : Chars) (remainder : ℕ) : Option (Except ℕ Unit × Chars) := do
  let (remainder, iter) ← skipLong remainder self.iter
  let (remainder, iter) ← skipChars remainder iter
  return (toResult remainder, ⟨iter⟩)

/-! ## The methods of the trait, which take one step at a time -/

def stepsBody : Chars × ℕ → Option ((Chars × ℕ) ⊕ ℕ)
  | (self, count) => do
    match ← self.next with
    | (none, _) => return .inr count
    | (some _, self) => return .inl (self, count+1)

def stepsCount (self : Chars) : Option ℕ := loop stepsBody (self.iter.length+1) (self, 0)

/-- `Iterator::advance_by`: `n` calls of `next`, or fewer if there are no more chars. -/
def stepsAdvanceBy (self : Chars) : ℕ → Option (Except ℕ Unit × Chars)
  | 0 => some (.ok (), self)
  | n+1 => do
    match ← self.next with
    | (none, self) => return (.error (n+1), self)
    | (some _, self) => stepsAdvanceBy self n

/-! ## Lanes -/

def startAt (w : BitVec 64) (j : ℕ) : ℕ := if utf8IsContByte ⟨byteAt w j⟩ then 0 else 1

theorem startAt_le (w : BitVec 64) (j : ℕ) : startAt w j ≤ 1 := by
  unfold startAt
  split <;> decide

/-- The bytes `j` of some words that begin a char. -/
def startsAt (words : List (BitVec 64)) (j : ℕ) : ℕ := (words.map (startAt · j)).sum

/-- All bytes of some words that begin a char. -/
def starts (words : List (BitVec 64)) : ℕ := ∑ j ∈ Finset.range 8, startsAt words j

theorem startsAt_cons (w : BitVec 64) (words : List (BitVec 64)) (j : ℕ) :
    startsAt (w :: words) j = startAt w j+startsAt words j := by
  rw [startsAt, List.map_cons, List.sum_cons, startsAt]

theorem starts_append (u v : List (BitVec 64)) : starts (u ++ v) = starts u+starts v := by
  simp only [starts, startsAt, List.map_append, List.sum_append, Finset.sum_add_distrib]

theorem lane_byteAt (w : BitVec 64) (j : ℕ) : lane 8 w.toNat j = (byteAt w j).toNat :=
  (toNat_byteAt w j).symm

theorem utf8IsContByte_bits : ∀ b : UInt8,
    utf8IsContByte b = (b.toBitVec.getLsbD 7 && !b.toBitVec.getLsbD 6) := by
  decide +kernel

theorem getLsbD_byteAt (w : BitVec 64) {i : ℕ} (j : ℕ) (hi : i < 8) :
    (byteAt w j).getLsbD i = w.getLsbD (8*j+i) := by
  rw [byteAt, BitVec.getLsbD_extractLsb', decide_eq_true hi, Bool.true_and]

theorem containsNonContinuationByte_lane (w : BitVec 64) {j : ℕ} (hj : j < 8) :
    lane 8 (containsNonContinuationByte w).toNat j = startAt w j := by
  have hmask : byteAt (containsNonContinuationByte w) j =
      byteAt (~~~w >>> 7 ||| w >>> 6) j &&& 1#8 := by
    have hlsb : byteAt (repeatU8 0x01) j = 1#8 := byteAt_repeatU8 0x01 hj
    rw [← hlsb]
    simp only [containsNonContinuationByte, byteAt, BitVec.extractLsb'_and]
  have hbit : (byteAt (~~~w >>> 7 ||| w >>> 6) j).getLsbD 0 = !utf8IsContByte ⟨byteAt w j⟩ := by
    have hin : 7+8*j < 64 := by lia
    rw [utf8IsContByte_bits, getLsbD_byteAt w j (by decide), getLsbD_byteAt w j (by decide),
      getLsbD_byteAt _ j (by decide), BitVec.getLsbD_or, BitVec.getLsbD_ushiftRight,
      BitVec.getLsbD_ushiftRight, BitVec.getLsbD_not, Nat.add_zero, decide_eq_true hin,
      Nat.add_comm 7, Nat.add_comm 6]
    cases w.getLsbD (8*j+7) <;> cases w.getLsbD (8*j+6) <;> rfl
  rw [lane_byteAt, hmask, BitVec.and_one_eq_setWidth_ofBool_getLsbD, hbit, startAt]
  cases utf8IsContByte ⟨byteAt w j⟩ <;> rfl

theorem addUsize_lanes {a b : BitVec 64}
    (h : ∀ j < 8, lane 8 a.toNat j+lane 8 b.toNat j < 2^8) :
    ∃ c, addUsize a b = some c ∧ ∀ j < 8, lane 8 c.toNat j = lane 8 a.toNat j+lane 8 b.toNat j := by
  have hvalue : ∀ w : BitVec 64, w.toNat = ∑ j ∈ Finset.range 8, lane 8 w.toNat j*2^(8*j) := by
    intro w
    rw [sum_lanes, Nat.mod_eq_of_lt w.isLt]
  have hle : a.toNat+b.toNat ≤ ∑ j ∈ Finset.range 8, 255*2^(8*j) := by
    rw [hvalue a, hvalue b, ← Finset.sum_add_distrib]
    apply Finset.sum_le_sum
    intro j hj
    have hlane := h j (Finset.mem_range.mp hj)
    rw [← Nat.add_mul]
    exact Nat.mul_le_mul_right _ (by lia)
  have hmax : ∑ j ∈ Finset.range 8, 255*2^(8*j) < 2^64 := by decide
  have hlt : a.toNat+b.toNat < 2^64 := by lia
  refine ⟨a+b, if_pos hlt, fun j hj => ?_⟩
  rw [BitVec.toNat_add, Nat.mod_eq_of_lt hlt]
  exact lane_add fun i hi => h i (by lia)

theorem countWords_lanes (words : List (BitVec 64)) (counts : BitVec 64)
    (h : ∀ j < 8, lane 8 counts.toNat j+words.length < 2^8) :
    ∃ c, countWords counts words = some c ∧
      ∀ j < 8, lane 8 c.toNat j = lane 8 counts.toNat j+startsAt words j := by
  induction words generalizing counts with
  | nil => exact ⟨counts, rfl, fun j _ => rfl⟩
  | cons word words ih =>
    have hword : ∀ j < 8, lane 8 counts.toNat j+
        lane 8 (containsNonContinuationByte word).toNat j < 2^8 := by
      intro j hj
      have hlane := h j hj
      have hstart := startAt_le word j
      rw [List.length_cons] at hlane
      rw [containsNonContinuationByte_lane word hj]
      lia
    obtain ⟨c, hadd, hc⟩ := addUsize_lanes hword
    have hrest : ∀ j < 8, lane 8 c.toNat j+words.length < 2^8 := by
      intro j hj
      have hlane := h j hj
      have hstart := startAt_le word j
      rw [List.length_cons] at hlane
      rw [hc j hj, containsNonContinuationByte_lane word hj]
      lia
    obtain ⟨d, hcount, hd⟩ := ih c hrest
    refine ⟨d, by rw [countWords, hadd, some_bind, hcount], ?_⟩
    intro j hj
    rw [hd j hj, hc j hj, containsNonContinuationByte_lane word hj, startsAt_cons, Nat.add_assoc]

theorem shorts_product {a b c d : ℕ} (ha : a < 2^9) (hb : b < 2^9) (hc : c < 2^9) (hd : d < 2^9) :
    (a+b*2^16+c*2^32+d*2^48)*0x0001000100010001%2^64/2^48 = a+b+c+d := by
  have hsplit : (a+b*2^16+c*2^32+d*2^48)*0x0001000100010001 =
      a+(a+b)*2^16+(a+b+c)*2^32+(a+b+c+d)*2^48+2^64*(b+c+d+(c+d)*2^16+d*2^32) := by lia
  have hlow : a+(a+b)*2^16+(a+b+c)*2^32 < 2^48 := by lia
  have hlt : a+(a+b)*2^16+(a+b+c)*2^32+(a+b+c+d)*2^48 < 2^64 := by lia
  rw [hsplit, Nat.add_mul_mod_self_left, Nat.mod_eq_of_lt hlt,
    Nat.add_mul_div_right _ _ (by decide), Nat.div_eq_of_lt hlow, Nat.zero_add]

/-- The sums of two bytes each, and the product that adds the four of them. -/
theorem sumBytesInUsize_eq (values : BitVec 64) :
    sumBytesInUsize values = some (∑ j ∈ Finset.range 8, lane 8 values.toNat j) := by
  have hskip : (repeatU16 0x00ff).toNat = 0x00ff00ff00ff00ff := by decide
  have hshorts : (repeatU16 0x0001).toNat = 0x0001000100010001 := by decide
  have hmask : ∀ j < 4, lane 16 0x00ff00ff00ff00ff j = 2^8-1 := by decide
  have heven : ∀ j < 4, lane 16 (values &&& repeatU16 0x00ff).toNat j =
      lane 8 values.toNat (2*j) := by
    intro j hj
    rw [BitVec.toNat_and, hskip, lane_and, hmask j hj, Nat.and_two_pow_sub_one_eq_mod]
    exact lane_half 8 _ j
  have hodd : ∀ j < 4, lane 16 ((values >>> 8) &&& repeatU16 0x00ff).toNat j =
      lane 8 values.toNat (2*j+1) := by
    intro j hj
    rw [BitVec.toNat_and, hskip, lane_and, hmask j hj, Nat.and_two_pow_sub_one_eq_mod,
      BitVec.toNat_ushiftRight, Nat.shiftRight_eq_div_pow, lane_succ]
    exact lane_half 8 _ j
  have hlt : (values &&& repeatU16 0x00ff).toNat+
      ((values >>> 8) &&& repeatU16 0x00ff).toNat < 2^64 := by
    rw [BitVec.toNat_and, BitVec.toNat_and, hskip]
    have h₁ := Nat.and_le_right (n := values.toNat) (m := 0x00ff00ff00ff00ff)
    have h₂ := Nat.and_le_right (n := (values >>> 8).toNat) (m := 0x00ff00ff00ff00ff)
    lia
  generalize hu : values &&& repeatU16 0x00ff = u at heven hlt
  generalize hv : (values >>> 8) &&& repeatU16 0x00ff = v at hodd hlt
  have hbyte : ∀ j, lane 8 values.toNat j < 2^8 := fun j => lane_lt 8 _ j
  have hshift : (usizeSize-2)*8 = 48 := rfl
  have hpair : ∀ j < 4, lane 16 (u.toNat+v.toNat) j =
      lane 8 values.toNat (2*j)+lane 8 values.toNat (2*j+1) := by
    intro j hj
    rw [lane_add, heven j hj, hodd j hj]
    intro i hi
    have h₁ := hbyte (2*i)
    have h₂ := hbyte (2*i+1)
    rw [heven i (by lia), hodd i (by lia)]
    lia
  have hsmall : ∀ i j, lane 8 values.toNat i+lane 8 values.toNat j < 2^9 := by
    intro i j
    have hi := hbyte i
    have hj := hbyte j
    lia
  have hproduct := shorts_product (hsmall 0 1) (hsmall 2 3) (hsmall 4 5) (hsmall 6 7)
  have hvalue : u.toNat+v.toNat = lane 8 values.toNat 0+lane 8 values.toNat 1+
      (lane 8 values.toNat 2+lane 8 values.toNat 3)*2^16+
      (lane 8 values.toNat 4+lane 8 values.toNat 5)*2^32+
      (lane 8 values.toNat 6+lane 8 values.toNat 7)*2^48 := by
    have hsum := sum_lanes 16 (u.toNat+v.toNat) 4
    rw [Nat.mod_eq_of_lt hlt] at hsum
    simp only [Finset.sum_range_succ, Finset.sum_range_zero, hpair _ (show 0 < 4 by decide),
      hpair _ (show 1 < 4 by decide), hpair _ (show 2 < 4 by decide),
      hpair _ (show 3 < 4 by decide)] at hsum
    norm_num at hsum
    lia
  have htop : (u.toNat+v.toNat)*0x0001000100010001%2^64/2^48 =
      ∑ j ∈ Finset.range 8, lane 8 values.toNat j := by
    rw [hvalue, hproduct]
    simp only [Finset.sum_range_succ, Finset.sum_range_zero]
    ring
  have hadd : (u+v).toNat = u.toNat+v.toNat := by rw [BitVec.toNat_add, Nat.mod_eq_of_lt hlt]
  have hshifted : (((u+v)*repeatU16 0x0001) >>> ((usizeSize-2)*8)).toNat =
      ∑ j ∈ Finset.range 8, lane 8 values.toNat j := by
    rw [BitVec.toNat_ushiftRight, BitVec.toNat_mul, hadd, hshorts, hshift,
      Nat.shiftRight_eq_div_pow, htop]
  rw [← hshifted]
  simp only [sumBytesInUsize, hu, hv, addUsize, if_pos hlt, some_bind,
    Option.pure_def]

/-! ## Chunks -/

theorem asChunks_flatten {α : Type*} (n k : ℕ) (l : List α) :
    ((List.range k).map fun i => (l.drop (i*n)).take n).flatten = l.take (k*n) := by
  induction k with
  | zero => rw [Nat.zero_mul, List.take_zero, List.range_zero, List.map_nil, List.flatten_nil]
  | succ k ih =>
    rw [List.range_succ, List.map_append, List.flatten_append, ih, Nat.succ_mul, List.take_add]
    simp only [List.map_cons, List.map_nil, List.flatten_cons, List.flatten_nil, List.append_nil]

theorem countWords_append (u v : List (BitVec 64)) (counts : BitVec 64) :
    countWords counts (u ++ v) = countWords counts u >>= (countWords · v) := by
  induction u generalizing counts with
  | nil => rfl
  | cons word u ih =>
    simp only [List.cons_append, countWords, Option.bind_eq_bind, Option.bind_assoc] at ih ⊢
    congr 1
    funext c
    exact ih c

theorem countUnrolled_eq (chunks : List (List (BitVec 64))) (counts : BitVec 64) :
    countUnrolled counts chunks = countWords counts chunks.flatten := by
  induction chunks generalizing counts with
  | nil => rfl
  | cons unrolled chunks ih =>
    rw [countUnrolled, List.flatten_cons, countWords_append]
    congr 1
    funext c
    exact ih c

theorem countWords_zero {words : List (BitVec 64)} (h : words.length ≤ chunkSize) :
    ∃ counts, countWords 0 words = some counts ∧
      ∀ j < 8, lane 8 counts.toNat j = startsAt words j := by
  have hzero : ∀ j < 8, lane 8 (0 : BitVec 64).toNat j = 0 := by decide
  have hroom : ∀ j < 8, lane 8 (0 : BitVec 64).toNat j+words.length < 2^8 := by
    intro j hj
    rw [hzero j hj]
    unfold chunkSize at h
    lia
  obtain ⟨counts, hcounts, hlanes⟩ := countWords_lanes words 0 hroom
  refine ⟨counts, hcounts, fun j hj => ?_⟩
  rw [hlanes j hj, hzero j hj, Nat.zero_add]

theorem addCounts_eq {words : List (BitVec 64)} {total : ℕ} (h : words.length ≤ chunkSize)
    (hsum : total+starts words < 2^64) :
    addCounts total (countWords 0 words) = some (total+starts words) := by
  obtain ⟨counts, hcounts, hlanes⟩ := countWords_zero h
  have hstarts : ∑ j ∈ Finset.range 8, lane 8 counts.toNat j = starts words := by
    apply Finset.sum_congr rfl
    intro j hj
    exact hlanes j (Finset.mem_range.mp hj)
  simp only [addCounts, hcounts, sumBytesInUsize_eq, hstarts, some_bind]
  exact u64_eq hsum

theorem starts_nil : starts [] = 0 := by
  simp only [starts, startsAt, List.map_nil, List.sum_nil, Finset.sum_const_zero]

theorem countBody_round {n : ℕ} (hn : n < 2^64) {s : List (BitVec 64) × ℕ}
    (h : s.2+starts s.1 = n) :
    ∃ r, countBody s = some r ∧
      Round (fun s => s.2+starts s.1 = n) (·.1.length) (· = n) s r := by
  obtain ⟨body, total⟩ := s
  by_cases hbody : body = []
  · subst hbody
    exact ⟨.inr total, rfl, h⟩
  have hsplit : starts (body.take chunkSize)+starts (body.drop chunkSize) = starts body := by
    rw [← starts_append, List.take_append_drop]
  generalize hchunk : body.take chunkSize = chunk at hsplit
  have hlen : chunk.length = min chunkSize body.length := by rw [← hchunk, List.length_take]
  generalize hq : chunk.length/unrollInner*unrollInner = q
  have hparts : starts (chunk.take q)+starts (chunk.drop q) = starts chunk := by
    rw [← starts_append, List.take_append_drop]
  have hflat : ((List.range (chunk.length/unrollInner)).map fun i =>
      (chunk.drop (i*unrollInner)).take unrollInner).flatten = chunk.take q := by
    rw [asChunks_flatten, hq]
  have hunrolled : addCounts total (countWords 0 (chunk.take q)) =
      some (total+starts (chunk.take q)) := by
    apply addCounts_eq
    · rw [List.length_take]
      lia
    · simp only at h
      lia
  have hremainder : addCounts (total+starts (chunk.take q)) (countWords 0 (chunk.drop q)) =
      some (total+starts chunk) := by
    rw [addCounts_eq, Nat.add_assoc, hparts]
    · rw [List.length_drop]
      lia
    · simp only at h
      lia
  simp only [countBody, if_neg hbody, hchunk, asChunks, hq, countUnrolled_eq, hflat, hunrolled,
    some_bind]
  simp only at h
  split
  · next hnil =>
    refine ⟨_, rfl, ?_, ?_⟩
    · rw [hnil, starts_nil] at hparts
      show total+starts (chunk.take q)+starts (body.drop chunkSize) = n
      lia
    · have hpos := List.length_pos_iff.mpr hbody
      show (body.drop chunkSize).length < body.length
      rw [List.length_drop]
      unfold chunkSize
      lia
  · next hne =>
    -- only the last chunk has words that do not fill a group
    have hlast : body.drop chunkSize = [] := by
      have hq' : q < chunk.length := by
        by_contra hge
        exact hne (List.drop_eq_nil_of_le (by lia))
      apply List.drop_eq_nil_of_le
      unfold chunkSize unrollInner at *
      lia
    rw [hremainder]
    refine ⟨_, rfl, ?_⟩
    rw [hlast, starts_nil] at hsplit
    show total+starts chunk = n
    lia

theorem loop_countBody {body : List (BitVec 64)} {total : ℕ} (h : total+starts body < 2^64) :
    loop countBody (body.length+1) (body, total) = some (total+starts body) := by
  obtain ⟨n, hloop, rfl⟩ := loop_total _ _ _ (fun s hs => countBody_round h hs) (body.length+1)
    (body, total) rfl (Nat.lt_succ_self _)
  exact hloop

/-! ## The text -/

theorem charCount_append (u v : List UInt8) :
    charCountGeneralCase (u ++ v) = charCountGeneralCase u+charCountGeneralCase v := by
  rw [charCountGeneralCase, List.filter_append, List.length_append]
  rfl

theorem charCount_cons (b : UInt8) (s : List UInt8) : charCountGeneralCase (b :: s) =
    (if utf8IsContByte b then 0 else 1)+charCountGeneralCase s := by
  rw [charCountGeneralCase, charCountGeneralCase, List.filter_cons]
  cases utf8IsContByte b with
  | false => exact Nat.add_comm _ 1
  | true => exact (Nat.zero_add _).symm

theorem charCount_le (s : List UInt8) : charCountGeneralCase s ≤ s.length := List.length_filter_le ..

theorem starts_fromBytes {bs : List UInt8} (h : bs.length = 8) :
    starts [fromBytes bs] = charCountGeneralCase bs := by
  have hget : ∀ j (hj : j < bs.length), startAt (fromBytes bs) j =
      if utf8IsContByte bs[j] then 0 else 1 := by
    intro j hj
    rw [startAt, byteAt_fromBytes (by lia) (List.getElem?_eq_getElem hj)]
  have hsum : ∀ l : List UInt8, charCountGeneralCase l =
      ∑ j : Fin l.length, if utf8IsContByte l[j] then 0 else 1 := by
    intro l
    induction l with
    | nil => rfl
    | cons b l ih =>
      rw [charCount_cons, ih]
      exact (Fin.sum_univ_succ (fun j : Fin (l.length+1) =>
        if utf8IsContByte (b :: l)[j] then 0 else 1)).symm
  have hone : ∀ j, startsAt [fromBytes bs] j = startAt (fromBytes bs) j := fun j => rfl
  rw [hsum, starts]
  simp only [hone]
  rw [← h, Finset.sum_range]
  apply Finset.sum_congr rfl
  intro j _
  exact hget j j.isLt

theorem readWords_starts {addr : ℕ} {text : List UInt8} {n offset : ℕ}
    (ha : (addr+offset)%usizeBytes = 0) (ho : offset+n*usizeSize ≤ text.length) :
    ∃ words, readWords addr text n offset = some words ∧ words.length = n ∧
      starts words = charCountGeneralCase ((text.drop offset).take (n*usizeSize)) := by
  induction n generalizing offset with
  | zero => exact ⟨[], rfl, rfl, by rw [Nat.zero_mul, List.take_zero, starts_nil]; rfl⟩
  | succ n ih =>
    rw [Nat.succ_mul] at ho
    have ha' : (addr+(offset+usizeSize))%usizeBytes = 0 := by
      unfold usizeSize usizeBytes at *
      lia
    obtain ⟨words, hwords, hlen, hstarts⟩ := ih ha' (by lia)
    have hfits : offset+usizeBytes ≤ text.length := by
      unfold usizeSize usizeBytes at *
      lia
    have hword : readWord addr text offset = some (fromBytes ((text.drop offset).take usizeSize)) :=
      if_pos ⟨ha, hfits⟩
    have height : ((text.drop offset).take usizeSize).length = 8 := by
      rw [List.length_take, List.length_drop]
      unfold usizeSize at *
      lia
    refine ⟨fromBytes ((text.drop offset).take usizeSize) :: words, ?_, ?_, ?_⟩
    · rw [readWords, hword, hwords]
      rfl
    · rw [List.length_cons, hlen]
    · rw [← List.singleton_append, starts_append, starts_fromBytes height, hstarts,
        ← charCount_append, Nat.succ_mul, Nat.add_comm (n*usizeSize), List.take_add, List.drop_drop]

theorem countChars_eq (addr : Option ℕ) {s : List UInt8} (hlen : s.length ≤ isizeMax) :
    countChars addr s = some (charCountGeneralCase s) := by
  have hle := charCount_le s
  unfold isizeMax at hlen
  rw [countChars]
  split
  · rfl
  rw [doCountChars]
  cases addr with
  | none => rfl
  | some addr =>
    obtain ⟨ha, hlt⟩ := alignOffset_aligned addr
    by_cases hover : alignOffset addr > s.length
    · simp only [alignTo, if_pos hover, some_bind]
      rfl
    generalize hoffset : alignOffset addr = offset at ha hover hlt
    have hn : offset+(s.drop offset).length/usizeSize*usizeSize ≤ s.length := by
      have hdiv := Nat.div_mul_le_self (s.drop offset).length usizeSize
      rw [List.length_drop] at hdiv ⊢
      lia
    obtain ⟨words, hwords, hcount, hstarts⟩ := readWords_starts ha hn
    have htail : (s.drop offset).length-(s.drop offset).length%usizeSize =
        (s.drop offset).length/usizeSize*usizeSize := by
      have hdiv := Nat.div_add_mod' (s.drop offset).length usizeSize
      lia
    have hall : charCountGeneralCase (s.take offset)+charCountGeneralCase ((s.drop offset).drop
        ((s.drop offset).length/usizeSize*usizeSize))+starts words = charCountGeneralCase s := by
      have h₁ := charCount_append (s.take offset) (s.drop offset)
      have h₂ := charCount_append ((s.drop offset).take ((s.drop offset).length/usizeSize*usizeSize))
        ((s.drop offset).drop ((s.drop offset).length/usizeSize*usizeSize))
      rw [List.take_append_drop] at h₁ h₂
      lia
    simp only [alignTo, hoffset, if_neg hover, hwords, htail, some_bind,
      Option.pure_def]
    split
    · rfl
    · rw [u64_eq (by lia), some_bind, loop_countBody (by lia), hall]

theorem charCount_tails {t : List UInt8} (h : ∀ b ∈ t, Tail b) : charCountGeneralCase t = 0 := by
  induction t with
  | nil => rfl
  | cons b t ih =>
    have hb : utf8IsContByte b = true := (utf8IsContByte_iff b).mpr (h b List.mem_cons_self)
    rw [charCount_cons, hb, if_pos rfl, ih fun c hc => h c (List.mem_cons_of_mem b hc)]

theorem charCount_sequence {l : List UInt8} (h : Sequence l) {p : ℕ} (hp : 0 < p) :
    charCountGeneralCase (l.take p) = 1 := by
  obtain ⟨a, t, rfl, ha, ht⟩ := sequence_shape h
  obtain ⟨q, rfl⟩ : ∃ q, p = q+1 := ⟨p-1, by lia⟩
  have ha' : utf8IsContByte a = false := by
    rw [← Bool.not_eq_true, utf8IsContByte_iff]
    exact ha
  rw [List.take_succ_cons, charCount_cons, ha',
    charCount_tails fun b hb => ht b (List.mem_of_mem_take hb)]
  rfl

theorem charCount_encoded (cs : List Char) : charCountGeneralCase (encoded cs) = cs.length := by
  induction cs with
  | nil => rfl
  | cons c cs ih =>
    have hseq := (utf8Bytes_sequence c).1
    have hone := charCount_sequence hseq (List.length_pos_iff.mpr hseq.ne_nil)
    rw [List.take_length] at hone
    rw [encoded_cons, charCount_append, hone, ih, List.length_cons, Nat.add_comm]

/-! ## Skipping -/

theorem skipTrailing_tails {t : List UInt8} (h : ∀ b ∈ t, Tail b) (r : List UInt8) :
    skipTrailing (t ++ r) = skipTrailing r := by
  induction t with
  | nil => rfl
  | cons b t ih =>
    have hb : utf8IsContByte b = true := (utf8IsContByte_iff b).mpr (h b List.mem_cons_self)
    rw [List.cons_append, skipTrailing, if_pos hb, ih fun c hc => h c (List.mem_cons_of_mem b hc)]

theorem skipTrailing_encoded (cs : List Char) : skipTrailing (encoded cs) = encoded cs := by
  cases cs with
  | nil => rfl
  | cons c cs =>
    obtain ⟨a, t, hshape, ha, -⟩ := sequence_shape (utf8Bytes_sequence c).1
    rw [← utf8IsContByte_iff] at ha
    rw [encoded_cons, hshape, List.cons_append, skipTrailing, if_neg ha]

theorem skipTrailing_drop (cs : List Char) (p : ℕ) : skipTrailing ((encoded cs).drop p) =
    encoded (cs.drop (charCountGeneralCase ((encoded cs).take p))) := by
  induction cs generalizing p with
  | nil =>
    rw [List.drop_nil, show encoded [] = [] from rfl, List.drop_nil]
    rfl
  | cons c cs ih =>
    have hseq := (utf8Bytes_sequence c).1
    rcases Nat.eq_zero_or_pos p with rfl | hp
    · exact skipTrailing_encoded (c :: cs)
    rw [encoded_cons]
    rcases Nat.lt_or_ge p (utf8Bytes c.toNat).length with hlt | hge
    · -- inside the first char
      have htails : ∀ b ∈ (utf8Bytes c.toNat).drop p, Tail b := by
        obtain ⟨a, t, hshape, -, ht⟩ := sequence_shape hseq
        obtain ⟨q, rfl⟩ : ∃ q, p = q+1 := ⟨p-1, by lia⟩
        rw [hshape, List.drop_succ_cons]
        exact fun b hb => ht b (List.mem_of_mem_drop hb)
      rw [List.drop_append_of_le_length hlt.le, List.take_append_of_le_length hlt.le,
        skipTrailing_tails htails, charCount_sequence hseq hp, skipTrailing_encoded]
      rfl
    · obtain ⟨q, rfl⟩ : ∃ q, p = (utf8Bytes c.toNat).length+q := ⟨p-(utf8Bytes c.toNat).length, by lia⟩
      have hone := charCount_sequence hseq hp
      rw [List.take_of_length_le (by lia)] at hone
      rw [List.drop_length_add_append, List.take_length_add_append, charCount_append, hone, ih,
        Nat.add_comm 1, List.drop_succ_cons]

theorem sumStarts_eq (chunk : List UInt8) (sum : ℕ) (h : sum+chunk.length < 2^8) :
    sumStarts sum chunk = some (sum+charCountGeneralCase chunk) := by
  induction chunk generalizing sum with
  | nil => rfl
  | cons b chunk ih =>
    have hb : (if utf8IsContByte b then 0 else 1) ≤ 1 := by
      split <;> decide
    rw [List.length_cons] at h
    rw [sumStarts, u8_eq (by lia), some_bind, ih _ (by lia),
      charCount_cons, Nat.add_assoc]

theorem skipBlocks_eq (chunks : List (List UInt8)) (remainder bytesSkipped : ℕ)
    (h : ∀ chunk ∈ chunks, chunk.length = blockSize) :
    ∃ k, k ≤ chunks.length ∧ charCountGeneralCase (chunks.take k).flatten ≤ remainder ∧
      skipBlocks chunks remainder bytesSkipped =
        some (remainder-charCountGeneralCase (chunks.take k).flatten, bytesSkipped+k*blockSize) := by
  induction chunks generalizing remainder bytesSkipped with
  | nil => exact ⟨0, Nat.le_refl 0, Nat.zero_le _, rfl⟩
  | cons chunk chunks ih =>
    rw [skipBlocks]
    split
    · next hlong =>
      have hlen := h chunk List.mem_cons_self
      have hle := charCount_le chunk
      unfold blockSize at hlong hlen
      rw [sumStarts_eq chunk 0 (by lia), Nat.zero_add, some_bind,
        sub_eq (by lia), some_bind]
      obtain ⟨k, hk, hcount, hskip⟩ := ih (remainder-charCountGeneralCase chunk)
        (bytesSkipped+blockSize) fun c hc => h c (List.mem_cons_of_mem chunk hc)
      refine ⟨k+1, Nat.succ_le_succ hk, ?_, ?_⟩
      · rw [List.take_succ_cons, List.flatten_cons, charCount_append]
        lia
      · rw [hskip, List.take_succ_cons, List.flatten_cons, charCount_append, Nat.sub_sub,
          Nat.succ_mul, Nat.add_assoc, Nat.add_comm blockSize]
    · exact ⟨0, Nat.zero_le _, Nat.zero_le _, by rw [Nat.zero_mul]; rfl⟩

theorem skipLong_encoded (cs : List Char) (n : ℕ) : ∃ m, m ≤ n ∧ m ≤ cs.length ∧
    skipLong n (encoded cs) = some (n-m, encoded (cs.drop m)) := by
  rw [skipLong]
  split
  · have hblocks : ∀ chunk ∈ (asChunks blockSize (encoded cs)).1, chunk.length = blockSize := by
      intro chunk hchunk
      obtain ⟨i, hi, rfl⟩ := List.mem_map.mp hchunk
      have hend : (i+1)*blockSize ≤ (encoded cs).length :=
        (Nat.mul_le_mul_right _ (List.mem_range.mp hi)).trans (Nat.div_mul_le_self ..)
      rw [Nat.succ_mul] at hend
      rw [List.length_take, List.length_drop]
      lia
    obtain ⟨k, hk, hcount, hskip⟩ := skipBlocks_eq _ n 0 hblocks
    have hnumber : (asChunks blockSize (encoded cs)).1.length = (encoded cs).length/blockSize := by
      rw [asChunks, List.length_map, List.length_range]
    rw [hnumber] at hk
    have hflat : ((asChunks blockSize (encoded cs)).1.take k).flatten =
        (encoded cs).take (k*blockSize) := by
      rw [asChunks, ← List.map_take, List.take_range, Nat.min_eq_left hk, asChunks_flatten]
    have hfits : k*blockSize ≤ (encoded cs).length :=
      (Nat.mul_le_mul_right _ hk).trans (Nat.div_mul_le_self ..)
    rw [hflat] at hcount hskip
    refine ⟨_, hcount, ?_, ?_⟩
    · have hsplit := charCount_append ((encoded cs).take (k*blockSize))
        ((encoded cs).drop (k*blockSize))
      rw [List.take_append_drop, charCount_encoded] at hsplit
      lia
    · simp only [hskip, Nat.zero_add, skip, if_pos hfits, some_bind,
        skipTrailing_drop, Option.pure_def]
  · exact ⟨0, Nat.zero_le _, Nat.zero_le _, rfl⟩

theorem utf8CharWidth_sequence {l : List UInt8} (h : Sequence l) :
    ∃ a t, l = a :: t ∧ utf8CharWidth a = l.length := by
  cases h with
  | one ha => exact ⟨_, _, rfl, by rw [utf8CharWidth_eq, if_pos ha]; rfl⟩
  | two ha hb => exact ⟨_, _, rfl, by rw [utf8CharWidth_eq]; grind⟩
  | three hab hc =>
    obtain ⟨h₁, h₂, -⟩ := lead3_range hab
    exact ⟨_, _, rfl, by rw [utf8CharWidth_eq]; grind⟩
  | four hab hc hd =>
    obtain ⟨h₁, h₂, -⟩ := lead4_range hab
    exact ⟨_, _, rfl, by rw [utf8CharWidth_eq]; grind⟩

theorem skipChars_encoded (cs : List Char) (n : ℕ) :
    skipChars n (encoded cs) = some (n-cs.length, encoded (cs.drop n)) := by
  induction n generalizing cs with
  | zero =>
    rw [Nat.zero_sub, List.drop_zero]
    cases encoded cs <;> rfl
  | succ n ih =>
    cases cs with
    | nil => rfl
    | cons c cs =>
      obtain ⟨a, t, hshape, hwidth⟩ := utf8CharWidth_sequence (utf8Bytes_sequence c).1
      have hfits : utf8CharWidth a ≤ (utf8Bytes c.toNat ++ encoded cs).length := by
        rw [hwidth, List.length_append]
        lia
      have hskip : skip (utf8Bytes c.toNat ++ encoded cs) (utf8CharWidth a) = some (encoded cs) := by
        rw [skip, if_pos hfits, hwidth, List.drop_left]
      rw [hshape, List.cons_append] at hskip
      rw [encoded_cons, hshape, List.cons_append, skipChars, hskip, some_bind, ih, List.length_cons, Nat.add_sub_add_right, List.drop_succ_cons]

theorem advanceBy_encoded (cs : List Char) (n : ℕ) :
    advanceBy ⟨encoded cs⟩ n = some (toResult (n-cs.length), ⟨encoded (cs.drop n)⟩) := by
  obtain ⟨m, hn, hm, hlong⟩ := skipLong_encoded cs n
  have hrest : n-m-(cs.length-m) = n-cs.length := by lia
  have hdrop : m+(n-m) = n := by lia
  simp only [advanceBy, hlong, skipChars_encoded, some_bind,
    Option.pure_def, List.length_drop, hrest, List.drop_drop, hdrop]

/-! ## The steps -/

theorem stepsAdvanceBy_encoded (cs : List Char) (n : ℕ) :
    stepsAdvanceBy ⟨encoded cs⟩ n = some (toResult (n-cs.length), ⟨encoded (cs.drop n)⟩) := by
  induction n generalizing cs with
  | zero =>
    rw [Nat.zero_sub, List.drop_zero]
    rfl
  | succ n ih =>
    cases cs with
    | nil => rfl
    | cons c cs =>
      rw [stepsAdvanceBy, encoded_cons, Chars.next_encoded, List.length_cons,
        Nat.add_sub_add_right, List.drop_succ_cons]
      exact ih cs

theorem stepsCount_encoded (cs : List Char) : stepsCount ⟨encoded cs⟩ = some cs.length := by
  have hround : ∀ s : Chars × ℕ, (∃ ds, s.1 = ⟨encoded ds⟩ ∧ s.2+ds.length = cs.length) →
      ∃ r, stepsBody s = some r ∧
        Round (fun s => ∃ ds, s.1 = ⟨encoded ds⟩ ∧ s.2+ds.length = cs.length) (·.1.iter.length)
          (· = cs.length) s r := by
    rintro ⟨self, count⟩ ⟨ds, rfl, hcount⟩
    cases ds with
    | nil => exact ⟨.inr count, rfl, hcount⟩
    | cons d ds =>
      have hpos := List.length_pos_iff.mpr (utf8Bytes_sequence d).1.ne_nil
      refine ⟨.inl (⟨encoded ds⟩, count+1), ?_, ⟨ds, rfl, ?_⟩, ?_⟩
      · rw [stepsBody, encoded_cons, Chars.next_encoded]
        rfl
      · rw [List.length_cons] at hcount
        show count+1+ds.length = cs.length
        lia
      · show (encoded ds).length < (encoded (d :: ds)).length
        rw [encoded_cons, List.length_append]
        lia
  obtain ⟨n, hloop, rfl⟩ := loop_total _ _ _ hround ((encoded cs).length+1) (⟨encoded cs⟩, 0)
    ⟨cs, rfl, Nat.zero_add _⟩ (Nat.lt_succ_self _)
  exact hloop

/-- `count` and `advance_by` do what the steps do, and the bytes of `counts` do not overflow
in any prefix of any chunk. -/
theorem count_advanceBy_steps (s : Str) :
    (∀ addr, ∃ n, count addr ⟨s.bytes⟩ = some n ∧ stepsCount ⟨s.bytes⟩ = some n) ∧
    (∀ (body : List (BitVec 64)) (i k : ℕ), ∃ counts,
      countWords 0 (((body.drop (i*chunkSize)).take chunkSize).take k) = some counts ∧
      ∀ j < 8, (byteAt counts j).toNat =
        startsAt (((body.drop (i*chunkSize)).take chunkSize).take k) j) ∧
    (∀ n, ∃ r, advanceBy ⟨s.bytes⟩ n = some r ∧ stepsAdvanceBy ⟨s.bytes⟩ n = some r) := by
  obtain ⟨cs, hcs⟩ := exists_encoded s.wellFormed
  have hlen := s.len_le
  rw [← hcs] at hlen ⊢
  refine ⟨fun addr => ⟨cs.length, ?_, stepsCount_encoded cs⟩, fun body i k => ?_,
    fun n => ⟨_, advanceBy_encoded cs n, stepsAdvanceBy_encoded cs n⟩⟩
  · rw [count, countChars_eq addr hlen, charCount_encoded]
  · have hle : (((body.drop (i*chunkSize)).take chunkSize).take k).length ≤ chunkSize := by
      rw [List.length_take, List.length_take]
      lia
    obtain ⟨counts, hcounts, hlanes⟩ := countWords_zero hle
    refine ⟨counts, hcounts, fun j hj => ?_⟩
    rw [← lane_byteAt, hlanes j hj]

end RustStd.CharCount
