import RustStd.Str.Memchr
import RustStd.Str.StrSearcher

/-!
# `str::contains`

Short needles are searched for sixteen bytes at a time: two bytes of the needle are
compared with a block of the haystack each, and where both agree the rest of the needle
is compared. Three loops cut the haystack into blocks, and the last block is aligned to
its end.
-/

set_option autoImplicit false

namespace RustStd.StrContains
open RustStd.Loop RustStd.Utf8Grammar RustStd.Chars RustStd.TwoWay

def blockLen : ℕ := 16

def unroll : ℕ := 4

def readBlock (haystack : List UInt8) (idx : ℕ) : Option (List UInt8) :=
  if idx+blockLen ≤ haystack.length then some ((haystack.drop idx).take blockLen) else none

def simdEq (block : List UInt8) (probe : UInt8) : List Bool := block.map (· == probe)

def toBitmask (mask : List Bool) : BitVec 16 := BitVec.ofFnLE fun k => mask[k.val]?.getD false

def trailingZeros (mask : BitVec 16) : ℕ :=
  ((List.range 16).find? fun k => mask.getLsbD k).getD 16

def readU32 (x : List UInt8) (i : ℕ) : Option (List UInt8) :=
  if i+4 ≤ x.length then some ((x.drop i).take 4) else none

def smallSliceEqBody (x y : List UInt8) (p : ℕ) : Option (ℕ ⊕ Bool) :=
  if p < x.length-4 then do
    let vx ← readU32 x p
    let vy ← readU32 y p
    return if vx ≠ vy then .inr false else .inl (p+4)
  else do
    let vx ← readU32 x (x.length-4)
    let vy ← readU32 y (y.length-4)
    return .inr (vx == vy)

def smallSliceEq (x y : List UInt8) : Option Bool :=
  if x.length ≠ y.length then none
  else if x.length < 4 then some ((x.zip y).all fun b => b.1 == b.2)
  else loop (smallSliceEqBody x y) (x.length+1) 0

section Simd
variable (needle haystack : List UInt8)

def checkMaskBody (trimmedNeedle : List UInt8) (idx : ℕ) (mask : BitVec 16) :
    Option (BitVec 16 ⊕ Bool) :=
  if mask ≠ 0 then
    let trailing := trailingZeros mask
    let offset := idx+trailing+1
    if offset+trimmedNeedle.length ≤ haystack.length then do
      let sub := (haystack.drop offset).take trimmedNeedle.length
      let eq ← smallSliceEq sub trimmedNeedle
      return if eq then .inr true else .inl (mask &&& ~~~(1#16 <<< trailing))
    else none
  else some (.inr false)

def checkMask (idx : ℕ) (mask : BitVec 16) (skip : Bool) : Option Bool :=
  if skip then some false else loop (checkMaskBody haystack (needle.drop 1) idx) 17 mask

def testChunk (secondProbeOffset idx : ℕ) : Option (BitVec 16) := do
  let a ← readBlock haystack idx
  let b ← readBlock haystack (idx+secondProbeOffset)
  let firstProbe ← needle[0]?
  let secondProbe ← needle[secondProbeOffset]?
  return toBitmask (List.zipWith and (simdEq a firstProbe) (simdEq b secondProbe))

/-- `if mask != 0 { result |= check_mask(idx, mask, result) }`. -/
def checkChunk (result : Bool) (chunk : ℕ × BitVec 16) : Option Bool :=
  if chunk.2 ≠ 0 then do
    let found ← checkMask needle haystack chunk.1 chunk.2 result
    return result || found
  else some result

def unrolledBody (secondProbeOffset : ℕ) (s : ℕ × Bool) : Option ((ℕ × Bool) ⊕ (ℕ × Bool)) :=
  let (i, result) := s
  if i+(needle.length-1)+unroll*blockLen < haystack.length ∧ result = false then do
    let starts := (List.range unroll).map fun j => i+j*blockLen
    let masks ← starts.mapM (testChunk needle haystack secondProbeOffset)
    let result ← (starts.zip masks).foldlM (checkChunk needle haystack) result
    return .inl (i+unroll*blockLen, result)
  else some (.inr (i, result))

def singleBody (secondProbeOffset : ℕ) (s : ℕ × Bool) : Option ((ℕ × Bool) ⊕ (ℕ × Bool)) :=
  let (i, result) := s
  if i+(needle.length-1)+blockLen < haystack.length ∧ result = false then do
    let mask ← testChunk needle haystack secondProbeOffset i
    let result ← checkChunk needle haystack result (i, mask)
    return .inl (i+blockLen, result)
  else some (.inr (i, result))

/-- The last of the last four offsets whose byte is not the first byte. -/
def secondProbeOffset : Option ℕ :=
  if needle.length = 2 then some 1
  else ((List.range needle.length).drop (needle.length-4)).reverse.find? fun idx =>
    needle[idx]? != needle[0]?

def windows (size : ℕ) : List (List UInt8) :=
  (List.range (haystack.length+1-size)).map fun i => (haystack.drop i).take size

def simdContains : Option (Option Bool) :=
  match secondProbeOffset needle with
  | none => some none
  | some probe =>
    if haystack.length < blockLen+(needle.length-1) then
      some (some ((windows haystack needle.length).any (· == needle)))
    else do
      let (i, result) ← loop (unrolledBody needle haystack probe) (haystack.length+1) (0, false)
      let (_, result) ← loop (singleBody needle haystack probe) (haystack.length+1) (i, result)
      let i := haystack.length-(needle.length-1)-blockLen
      let mask ← testChunk needle haystack probe i
      let result ← checkChunk needle haystack result (i, mask)
      return some result

end Simd

/-- `<&str as Pattern>::is_contained_in`. `simd` is whether the target has the vectors,
`addr` where the haystack lies. -/
def isContainedIn (simd : Bool) (addr : ℕ) (needle haystack : Str) : Option Bool :=
  let fallback := do
    let searcher ← Pattern.new haystack needle
    let (found, _) ← Pattern.nextMatch searcher
    return found.isSome
  if needle.bytes.length = 0 then some true
  else match compare needle.bytes.length haystack.bytes.length with
    | .lt =>
      if needle.bytes.length = 1 then do
        let byte ← needle.bytes[0]?
        let found ← Memchr.memchr addr byte haystack.bytes
        return found.isSome
      else if simd ∧ needle.bytes.length ≤ 32 then do
        match ← simdContains needle.bytes haystack.bytes with
        | some result => return result
        | none => fallback
      else fallback
    | _ => some (needle.bytes == haystack.bytes)

theorem trailingZeros_spec {mask : BitVec 16} (h : mask ≠ 0) :
    trailingZeros mask < 16 ∧ mask.getLsbD (trailingZeros mask) = true := by
  unfold trailingZeros
  cases hfind : (List.range 16).find? fun k => mask.getLsbD k with
  | none =>
    exfalso
    apply h
    apply BitVec.eq_of_getLsbD_eq
    intro k hk
    have hno := List.find?_eq_none.mp hfind k (List.mem_range.mpr hk)
    rw [Bool.not_eq_true] at hno
    rw [hno]
    exact BitVec.getLsbD_zero.symm
  | some k =>
    have hk := List.mem_range.mp (List.mem_of_find?_eq_some hfind)
    exact ⟨hk, List.find?_some hfind⟩

theorem getLsbD_clear (mask : BitVec 16) {k t : ℕ} (hk : k < 16) :
    (mask &&& ~~~(1#16 <<< t)).getLsbD k = (mask.getLsbD k && k != t) := by
  rw [BitVec.getLsbD_and, BitVec.getLsbD_not, BitVec.getLsbD_shiftLeft, BitVec.getLsbD_one]
  by_cases ht : k = t
  · subst ht
    simp [hk]
  · by_cases hlt : k < t
    · simp [hk, hlt, ht]
    · have : ¬ k-t = 0 := by omega
      simp [hk, hlt, ht, this]

theorem readU32_eq_iff {x y : List UInt8} (hlen : x.length = y.length) {i : ℕ} (hi : i+4 ≤ x.length) :
    ∃ vx vy, readU32 x i = some vx ∧ readU32 y i = some vy ∧
      (vx = vy ↔ ∀ k, i ≤ k → k < i+4 → x[k]? = y[k]?) := by
  refine ⟨_, _, if_pos hi, if_pos (hlen ▸ hi), ?_⟩
  constructor
  · intro heq k hk hk'
    have hget := congrArg (·[k-i]?) heq
    simp only [List.getElem?_take, List.getElem?_drop, Nat.add_sub_cancel' hk] at hget
    rwa [if_pos (by omega), if_pos (by omega)] at hget
  · intro hall
    apply List.ext_getElem?
    intro k
    simp only [List.getElem?_take, List.getElem?_drop]
    split_ifs with hk
    · exact hall _ (by omega) (by omega)
    · rfl

theorem smallSliceEqBody_round {x y : List UInt8} (hlen : x.length = y.length) (h4 : 4 ≤ x.length)
    {p : ℕ} (hp : ∀ k < p, x[k]? = y[k]?) :
    ∃ r, smallSliceEqBody x y p = some r ∧
      Round (fun p => ∀ k < p, x[k]? = y[k]?) (x.length-·) (· = decide (x = y)) p r := by
  unfold smallSliceEqBody
  by_cases hlt : p < x.length-4
  · obtain ⟨vx, vy, hx, hy, hiff⟩ := readU32_eq_iff hlen (show p+4 ≤ x.length by omega)
    rw [if_pos hlt, hx, hy]
    refine ⟨_, rfl, ?_⟩
    by_cases heq : vx = vy
    · rw [if_neg (not_not.mpr heq)]
      refine ⟨fun k hk => ?_, show x.length-(p+4) < x.length-p by omega⟩
      by_cases hk' : k < p
      · exact hp k hk'
      · exact hiff.mp heq k (by omega) hk
    · rw [if_pos heq]
      refine (decide_eq_false ?_).symm
      rintro rfl
      exact heq (hiff.mpr fun _ _ _ => rfl)
  · obtain ⟨vx, vy, hx, hy, hiff⟩ := readU32_eq_iff hlen (show x.length-4+4 ≤ x.length by omega)
    rw [if_neg hlt, hx, ← hlen, hy]
    refine ⟨_, rfl, ?_⟩
    change (vx == vy) = decide (x = y)
    rw [Bool.beq_eq_decide_eq, decide_eq_decide, hiff]
    constructor
    · intro hend
      apply List.ext_getElem?
      intro k
      by_cases hk : k < p
      · exact hp k hk
      · by_cases hk' : k < x.length
        · exact hend k (by omega) (by omega)
        · rw [List.getElem?_eq_none (by omega), List.getElem?_eq_none (by omega)]
    · rintro rfl
      exact fun _ _ _ => rfl

theorem zip_all_eq {x y : List UInt8} (hlen : x.length = y.length) :
    ((x.zip y).all fun b => b.1 == b.2) = decide (x = y) := by
  induction x generalizing y with
  | nil =>
    obtain rfl := List.eq_nil_of_length_eq_zero hlen.symm
    rfl
  | cons a x ih =>
    cases y with
    | nil => cases hlen
    | cons b y =>
      rw [List.zip_cons_cons, List.all_cons, ih (Nat.succ_injective hlen)]
      simp [Bool.beq_eq_decide_eq]

theorem smallSliceEq_eq {x y : List UInt8} (hlen : x.length = y.length) :
    smallSliceEq x y = some (decide (x = y)) := by
  unfold smallSliceEq
  rw [if_neg (not_not.mpr hlen)]
  by_cases h4 : x.length < 4
  · rw [if_pos h4, zip_all_eq hlen]
  · rw [if_neg h4]
    obtain ⟨r, hr, rfl⟩ := loop_total _ _ _ (fun p hp => smallSliceEqBody_round hlen (by omega) hp)
      (x.length+1) 0 (fun k hk => absurd hk (Nat.not_lt_zero k)) (Nat.lt_succ_of_le (Nat.sub_le ..))
    exact hr

section Search
variable {needle haystack : List UInt8} {probe idx : ℕ}

theorem occursAt_iff_getElem? (p : ℕ) :
    OccursAt needle haystack p ↔ ∀ k < needle.length, haystack[p+k]? = needle[k]? := by
  unfold OccursAt
  rw [List.prefix_iff_getElem?]
  constructor
  · intro h k hk
    rw [← List.getElem?_drop, h k hk, List.getElem?_eq_getElem hk]
  · intro h k hk
    rw [List.getElem?_drop, h k hk, List.getElem?_eq_getElem hk]

theorem OccursAt.le {p : ℕ} (h : OccursAt needle haystack p) (hn : needle ≠ []) :
    p+needle.length ≤ haystack.length := by
  have hpos := List.length_pos_of_ne_nil hn
  have hlen := h.length_le
  rw [List.length_drop] at hlen
  omega

theorem occursAt_of_rest (hn : needle ≠ []) {p : ℕ} (h0 : haystack[p]? = needle[0]?) :
    OccursAt needle haystack p ↔
      (haystack.drop (p+1)).take (needle.drop 1).length = needle.drop 1 := by
  obtain ⟨a, rest, rfl⟩ := List.exists_cons_of_ne_nil hn
  have hdrop : haystack.drop p = a :: haystack.drop (p+1) := by
    obtain ⟨hlt, ha⟩ := List.getElem?_eq_some_iff.mp (h0.trans rfl)
    rw [List.drop_eq_getElem_cons hlt, ha]
  rw [OccursAt, hdrop, List.cons_prefix_cons, List.drop_one, List.tail_cons, List.prefix_iff_eq_take]
  exact ⟨fun h => h.2.symm, fun h => ⟨rfl, h.symm⟩⟩

theorem readBlock_spec (h : idx+blockLen ≤ haystack.length) :
    ∃ block, readBlock haystack idx = some block ∧ ∀ k < 16, block[k]? = haystack[idx+k]? := by
  refine ⟨_, if_pos h, fun k hk => ?_⟩
  rw [List.getElem?_take_of_lt (show k < blockLen from hk), List.getElem?_drop]

theorem getLsbD_toBitmask (mask : List Bool) {k : ℕ} (hk : k < 16) :
    (toBitmask mask).getLsbD k = mask[k]?.getD false := by
  rw [toBitmask, BitVec.getLsbD_ofFnLE, dif_pos hk]

theorem testChunk_spec (hn : needle ≠ []) (hp : probe < needle.length)
    (hidx : idx+probe+blockLen ≤ haystack.length) :
    ∃ mask, testChunk needle haystack probe idx = some mask ∧ ∀ k < 16,
      (mask.getLsbD k = true ↔ haystack[idx+k]? = needle[0]? ∧ haystack[idx+probe+k]? = needle[probe]?) := by
  obtain ⟨a, ha, hak⟩ := readBlock_spec (show idx+blockLen ≤ haystack.length by omega)
  obtain ⟨b, hb, hbk⟩ := readBlock_spec hidx
  have hfirst := List.getElem?_eq_getElem (List.length_pos_of_ne_nil hn)
  have hsecond := List.getElem?_eq_getElem hp
  refine ⟨_, by simp only [testChunk, ha, hb, hfirst, hsecond, some_bind]; rfl, ?_⟩
  intro k hk
  have hlen : blockLen = 16 := rfl
  have hx := List.getElem?_eq_getElem (show idx+k < haystack.length by omega)
  have hy := List.getElem?_eq_getElem (show idx+probe+k < haystack.length by omega)
  rw [getLsbD_toBitmask _ hk, List.getElem?_zipWith, simdEq, simdEq, List.getElem?_map, List.getElem?_map,
    hak k hk, hbk k hk, hx, hy, hfirst, hsecond]
  simp

/-- The needle stands at one of the sixteen places of the block. -/
def Hit (needle haystack : List UInt8) (idx : ℕ) : Prop := ∃ k < 16, OccursAt needle haystack (idx+k)

/-- The places that are still to be checked. -/
def bits (mask : BitVec 16) : Finset ℕ := (Finset.range 16).filter fun k => mask.getLsbD k = true

theorem checkMaskBody_round (hn : needle ≠ []) (hidx : idx+(needle.length-1)+blockLen ≤ haystack.length)
    {mask m : BitVec 16} (hfirst : ∀ k < 16, mask.getLsbD k = true → haystack[idx+k]? = needle[0]?)
    (hsub : ∀ k < 16, m.getLsbD k = true → mask.getLsbD k = true)
    (hdone : ∀ k < 16, mask.getLsbD k = true → m.getLsbD k = false → ¬ OccursAt needle haystack (idx+k)) :
    ∃ r, checkMaskBody haystack (needle.drop 1) idx m = some r ∧
      Round (fun m => (∀ k < 16, m.getLsbD k = true → mask.getLsbD k = true) ∧
        ∀ k < 16, mask.getLsbD k = true → m.getLsbD k = false → ¬ OccursAt needle haystack (idx+k))
      (fun m => (bits m).card)
      (fun r => r = true ↔ ∃ k < 16, mask.getLsbD k = true ∧ OccursAt needle haystack (idx+k)) m r := by
  have hpos := List.length_pos_of_ne_nil hn
  have hlen : blockLen = 16 := rfl
  unfold checkMaskBody
  by_cases hm : m = 0
  · rw [if_neg (not_not.mpr hm)]
    refine ⟨_, rfl, iff_of_false Bool.false_ne_true ?_⟩
    rintro ⟨k, hk, hbit, hocc⟩
    exact hdone k hk hbit (by rw [hm]; exact BitVec.getLsbD_zero) hocc
  obtain ⟨ht, hset⟩ := trailingZeros_spec hm
  generalize trailingZeros m = t at ht hset
  have hrest : (needle.drop 1).length = needle.length-1 := List.length_drop
  have hsublen : ((haystack.drop (idx+t+1)).take (needle.drop 1).length).length = (needle.drop 1).length := by
    have hdrop : (haystack.drop (idx+t+1)).length = haystack.length-(idx+t+1) := List.length_drop
    rw [List.length_take, hdrop]
    omega
  have hocc := occursAt_of_rest hn (hfirst t ht (hsub t ht hset))
  simp only [if_pos hm, ne_eq, smallSliceEq_eq hsublen]
  rw [if_pos (by omega)]
  refine ⟨_, rfl, ?_⟩
  by_cases heq : (haystack.drop (idx+t+1)).take (needle.drop 1).length = needle.drop 1
  · rw [decide_eq_true heq, if_pos rfl]
    exact iff_of_true rfl ⟨t, ht, hsub t ht hset, hocc.mpr heq⟩
  · rw [decide_eq_false heq, if_neg Bool.false_ne_true]
    refine ⟨⟨fun k hk hbit => ?_, fun k hk hbit hclear => ?_⟩, ?_⟩
    · rw [getLsbD_clear m hk, Bool.and_eq_true] at hbit
      exact hsub k hk hbit.1
    · rw [getLsbD_clear m hk, Bool.and_eq_false_iff] at hclear
      rcases hclear with hclear | hclear
      · exact hdone k hk hbit hclear
      · obtain rfl : k = t := by simpa using hclear
        exact fun h => heq (hocc.mp h)
    · apply Finset.card_lt_card
      refine (Finset.ssubset_iff_of_subset ?_).mpr ⟨t, ?_, ?_⟩
      · intro k hk
        rw [bits, Finset.mem_filter, Finset.mem_range] at hk ⊢
        rw [getLsbD_clear m hk.1, Bool.and_eq_true] at hk
        exact ⟨hk.1, hk.2.1⟩
      · exact Finset.mem_filter.mpr ⟨Finset.mem_range.mpr ht, hset⟩
      · intro hmem
        have hbit := (Finset.mem_filter.mp hmem).2
        rw [getLsbD_clear m ht] at hbit
        simp at hbit

theorem checkMask_spec (hn : needle ≠ []) (hidx : idx+(needle.length-1)+blockLen ≤ haystack.length)
    {mask : BitVec 16} (hfirst : ∀ k < 16, mask.getLsbD k = true → haystack[idx+k]? = needle[0]?) :
    ∃ r, checkMask needle haystack idx mask false = some r ∧
      (r = true ↔ ∃ k < 16, mask.getLsbD k = true ∧ OccursAt needle haystack (idx+k)) := by
  have hcard : (bits mask).card < 17 := by
    have hle := Finset.card_filter_le (Finset.range 16) fun k => mask.getLsbD k = true
    rw [Finset.card_range] at hle
    exact Nat.lt_succ_of_le hle
  refine loop_total _ _ _ (fun m hm => checkMaskBody_round hn hidx hfirst hm.1 hm.2) 17 mask
    ⟨fun _ _ h => h, fun k _ hbit hclear => ?_⟩ hcard
  rw [hbit] at hclear
  cases hclear

theorem chunk_spec (hn : needle ≠ []) (hp : probe < needle.length)
    (hidx : idx+(needle.length-1)+blockLen ≤ haystack.length) :
    ∃ mask, testChunk needle haystack probe idx = some mask ∧ ∀ result, ∃ r,
      checkChunk needle haystack result (idx, mask) = some r ∧
      (r = true ↔ result = true ∨ Hit needle haystack idx) := by
  obtain ⟨mask, hmask, hbits⟩ := testChunk_spec hn hp (show idx+probe+blockLen ≤ haystack.length by omega)
  have hhit : Hit needle haystack idx ↔
      ∃ k < 16, mask.getLsbD k = true ∧ OccursAt needle haystack (idx+k) := by
    constructor
    · rintro ⟨k, hk, hocc⟩
      have hget := (occursAt_iff_getElem? _).mp hocc
      refine ⟨k, hk, (hbits k hk).mpr ⟨?_, ?_⟩, hocc⟩
      · exact hget 0 (List.length_pos_of_ne_nil hn)
      · rw [Nat.add_right_comm]
        exact hget probe hp
    · rintro ⟨k, hk, -, hocc⟩
      exact ⟨k, hk, hocc⟩
  refine ⟨mask, hmask, fun result => ?_⟩
  unfold checkChunk
  by_cases hz : mask = 0
  · rw [if_neg (not_not.mpr hz)]
    refine ⟨result, rfl, ?_⟩
    rw [hhit]
    constructor
    · exact Or.inl
    · rintro (h | ⟨k, -, hbit, -⟩)
      · exact h
      · have hzero : (0 : BitVec 16).getLsbD k = false := BitVec.getLsbD_zero
        rw [hz, hzero] at hbit
        cases hbit
  rw [if_pos hz]
  cases result with
  | true => exact ⟨true, rfl, iff_of_true rfl (.inl rfl)⟩
  | false =>
    obtain ⟨r, hr, hiff⟩ := checkMask_spec hn hidx fun k hk hbit => ((hbits k hk).mp hbit).1
    refine ⟨r, ?_, ?_⟩
    · simp only [hr, some_bind, Bool.false_or]
      rfl
    · rw [hiff, hhit]
      simp

theorem chunks_spec (hn : needle ≠ []) (hp : probe < needle.length) (starts : List ℕ)
    (hstarts : ∀ idx ∈ starts, idx+(needle.length-1)+blockLen ≤ haystack.length) :
    ∃ masks, starts.mapM (testChunk needle haystack probe) = some masks ∧ ∀ result, ∃ r,
      (starts.zip masks).foldlM (checkChunk needle haystack) result = some r ∧
      (r = true ↔ result = true ∨ ∃ idx ∈ starts, Hit needle haystack idx) := by
  induction starts with
  | nil => exact ⟨[], rfl, fun result => ⟨result, rfl, by simp⟩⟩
  | cons idx starts ih =>
    obtain ⟨mask, hmask, hcheck⟩ := chunk_spec hn hp (hstarts idx List.mem_cons_self)
    obtain ⟨masks, hmasks, hfold⟩ := ih fun i hi => hstarts i (List.mem_cons_of_mem _ hi)
    refine ⟨mask :: masks, ?_, fun result => ?_⟩
    · rw [List.mapM_cons, hmask, hmasks]
      rfl
    · obtain ⟨r, hr, hiff⟩ := hcheck result
      obtain ⟨r', hr', hiff'⟩ := hfold r
      refine ⟨r', ?_, ?_⟩
      · rw [List.zip_cons_cons, List.foldlM_cons, hr]
        exact hr'
      · rw [hiff', hiff, or_assoc, List.exists_mem_cons_iff]

/-- The search so far: the needle has been found, or it is not before `i`. -/
def Scanned (needle haystack : List UInt8) (s : ℕ × Bool) : Prop :=
  (s.2 = true → ∃ p, OccursAt needle haystack p) ∧
    (s.2 = false → ∀ p < s.1, ¬ OccursAt needle haystack p)

theorem Scanned.extend {i n : ℕ} {starts : List ℕ} {r : Bool} (h : Scanned needle haystack (i, false))
    (hr : r = true ↔ ∃ idx ∈ starts, Hit needle haystack idx)
    (hcover : ∀ p, i ≤ p → p < i+n → ∃ idx ∈ starts, idx ≤ p ∧ p < idx+16) :
    Scanned needle haystack (i+n, r) := by
  refine ⟨fun ht => ?_, fun hf p hp hocc => ?_⟩
  · obtain ⟨idx, -, k, -, hocc⟩ := hr.mp ht
    exact ⟨_, hocc⟩
  · by_cases hlt : p < i
    · exact h.2 rfl p hlt hocc
    · obtain ⟨idx, hmem, hle, hlt'⟩ := hcover p (by omega) hp
      have ht : r = true := hr.mpr ⟨idx, hmem, p-idx, by omega, by rwa [Nat.add_sub_cancel' hle]⟩
      rw [ht] at hf
      cases hf

theorem unrolledBody_round (hn : needle ≠ []) (hp : probe < needle.length) {s : ℕ × Bool}
    (hs : Scanned needle haystack s) :
    ∃ r, unrolledBody needle haystack probe s = some r ∧ Round (Scanned needle haystack)
      (fun s => haystack.length-s.1) (Scanned needle haystack) s r := by
  obtain ⟨i, result⟩ := s
  have hlen : blockLen = 16 := rfl
  have hunroll : unroll = 4 := rfl
  unfold unrolledBody
  by_cases hgo : i+(needle.length-1)+unroll*blockLen < haystack.length ∧ result = false
  · obtain ⟨hroom, rfl⟩ := hgo
    have hstarts : ∀ idx ∈ (List.range unroll).map fun j => i+j*blockLen,
        idx+(needle.length-1)+blockLen ≤ haystack.length := by
      intro idx hidx
      obtain ⟨j, hj, rfl⟩ := List.mem_map.mp hidx
      rw [List.mem_range, hunroll] at hj
      rw [hlen, hunroll] at hroom
      rw [hlen]
      omega
    obtain ⟨masks, hmasks, hfold⟩ := chunks_spec hn hp _ hstarts
    obtain ⟨r, hr, hiff⟩ := hfold false
    simp only [hroom, and_self, if_true, hmasks, some_bind, hr]
    rw [Bool.false_eq_true, false_or] at hiff
    refine ⟨_, rfl, ?_, ?_⟩
    · apply hs.extend hiff
      intro p hlo hhi
      rw [hunroll, hlen] at hhi
      refine ⟨i+(p-i)/16*blockLen, List.mem_map.mpr ⟨(p-i)/16, ?_, rfl⟩, ?_, ?_⟩
      · rw [List.mem_range, hunroll]
        omega
      · rw [hlen]
        omega
      · rw [hlen]
        omega
    · change haystack.length-(i+unroll*blockLen) < haystack.length-i
      rw [hunroll, hlen] at hroom ⊢
      omega
  · simp only [if_neg hgo]
    exact ⟨_, rfl, hs⟩

theorem singleBody_round (hn : needle ≠ []) (hp : probe < needle.length) {s : ℕ × Bool}
    (hs : Scanned needle haystack s) :
    ∃ r, singleBody needle haystack probe s = some r ∧ Round (Scanned needle haystack)
      (fun s => haystack.length-s.1) (fun s => Scanned needle haystack s ∧
        (s.2 = false → haystack.length ≤ s.1+(needle.length-1)+blockLen)) s r := by
  obtain ⟨i, result⟩ := s
  have hlen : blockLen = 16 := rfl
  unfold singleBody
  by_cases hgo : i+(needle.length-1)+blockLen < haystack.length ∧ result = false
  · obtain ⟨hroom, rfl⟩ := hgo
    obtain ⟨mask, hmask, hcheck⟩ := chunk_spec hn hp (show i+(needle.length-1)+blockLen ≤ haystack.length by omega)
    obtain ⟨r, hr, hiff⟩ := hcheck false
    simp only [hroom, and_self, if_true, hmask, some_bind, hr]
    refine ⟨_, rfl, ?_, ?_⟩
    · have hone : r = true ↔ ∃ idx ∈ [i], Hit needle haystack idx := by simpa using hiff
      exact hs.extend hone fun p hlo hhi => ⟨i, List.mem_singleton_self i, hlo, hhi⟩
    · change haystack.length-(i+blockLen) < haystack.length-i
      omega
  · simp only [if_neg hgo]
    refine ⟨_, rfl, hs, fun hf => ?_⟩
    by_contra hlt
    exact hgo ⟨by simp only at hlt; omega, hf⟩

theorem secondProbeOffset_lt {probe : ℕ} (h : secondProbeOffset needle = some probe) :
    probe < needle.length := by
  unfold secondProbeOffset at h
  split_ifs at h with h2
  · obtain rfl := Option.some_injective _ h
    omega
  · have hmem := List.mem_reverse.mp (List.mem_of_find?_eq_some h)
    exact List.mem_range.mp (List.mem_of_mem_drop hmem)

theorem any_windows (hn : needle ≠ []) :
    (windows haystack needle.length).any (· == needle) = true ↔ ∃ p, OccursAt needle haystack p := by
  rw [List.any_eq_true]
  constructor
  · rintro ⟨w, hw, heq⟩
    obtain ⟨p, -, rfl⟩ := List.mem_map.mp hw
    exact ⟨p, List.prefix_iff_eq_take.mpr (beq_iff_eq.mp heq).symm⟩
  · rintro ⟨p, hocc⟩
    have hle := OccursAt.le hocc hn
    refine ⟨_, List.mem_map.mpr ⟨p, List.mem_range.mpr (by omega), rfl⟩, beq_iff_eq.mpr ?_⟩
    exact (List.prefix_iff_eq_take.mp hocc).symm

theorem simdContains_spec (haystack : List UInt8) (h2 : 2 ≤ needle.length) :
    ∃ o, simdContains needle haystack = some o ∧
      ∀ result, o = some result → (result = true ↔ ∃ p, OccursAt needle haystack p) := by
  have hn : needle ≠ [] := List.ne_nil_of_length_pos (by omega)
  unfold simdContains
  cases hprobe : secondProbeOffset needle with
  | none => exact ⟨none, rfl, nofun⟩
  | some probe =>
    have hp := secondProbeOffset_lt hprobe
    have hlen : blockLen = 16 := rfl
    by_cases hsmall : haystack.length < blockLen+(needle.length-1)
    · simp only [if_pos hsmall]
      refine ⟨_, rfl, fun result hr => ?_⟩
      rw [← Option.some_injective _ hr]
      exact any_windows hn
    simp only [if_neg hsmall]
    have hstart : Scanned needle haystack (0, false) := ⟨nofun, fun _ p hp => absurd hp (Nat.not_lt_zero p)⟩
    obtain ⟨s, hloop, hs⟩ := loop_total _ _ _ (fun s hs => unrolledBody_round hn hp hs)
      (haystack.length+1) (0, false) hstart (Nat.lt_succ_of_le (Nat.sub_le ..))
    obtain ⟨s', hloop', hs', hend⟩ := loop_total _ _ _ (fun s hs => singleBody_round hn hp hs)
      (haystack.length+1) s hs (Nat.lt_succ_of_le (Nat.sub_le ..))
    obtain ⟨mask, hmask, hcheck⟩ := chunk_spec hn hp (show haystack.length-(needle.length-1)-blockLen+
      (needle.length-1)+blockLen ≤ haystack.length by omega)
    obtain ⟨r, hr, hiff⟩ := hcheck s'.2
    refine ⟨some r, ?_, fun result hres => ?_⟩
    · simp only [hloop, hloop', hmask, hr, some_bind]
      rfl
    · rw [← Option.some_injective _ hres, hiff]
      constructor
      · rintro (ht | ⟨k, -, hocc⟩)
        · exact hs'.1 ht
        · exact ⟨_, hocc⟩
      · rintro ⟨p, hocc⟩
        have hle := OccursAt.le hocc hn
        cases hres' : s'.2 with
        | true => exact .inl rfl
        | false =>
          -- what is left is within the last block
          have hreached := hend hres'
          have hge : s'.1 ≤ p := by
            by_contra hlt
            exact hs'.2 hres' p (by omega) hocc
          refine .inr ⟨p-(haystack.length-(needle.length-1)-blockLen), by omega, ?_⟩
          rwa [Nat.add_sub_cancel' (by omega)]

end Search

theorem fallback_spec {needle : Str} (haystack : Str) (hn : needle.bytes ≠ []) :
    ∃ searcher found s, Pattern.new haystack needle = some searcher ∧
      Pattern.nextMatch searcher = some (found, s) ∧
      (found.isSome = true ↔ ∃ p, OccursAt needle.bytes haystack.bytes p) := by
  have hpos := List.length_pos_of_ne_nil hn
  obtain ⟨longPeriod, s, hnew, hfresh⟩ := new_fresh needle.bytes haystack.bytes.length hpos
  have hgood : Good haystack.bytes needle.bytes longPeriod s := hfresh.good hpos
  obtain ⟨r, hr, hret⟩ := next_returns (S := matchOnly) hgood.prepared hgood.remembers
  have hempty : needle.bytes.isEmpty = false := by simpa using hn
  have hsearcher : Pattern.new haystack needle = some ⟨haystack, needle, .TwoWay s⟩ := by
    simp [Pattern.new, hempty, hnew]
  have hmatch : Pattern.nextMatch ⟨haystack, needle, .TwoWay s⟩ =
      some (r.1, ⟨haystack, needle, .TwoWay r.2⟩) := by
    simp [Pattern.nextMatch, hgood.long, hr]
  refine ⟨_, _, _, hsearcher, hmatch, ?_⟩
  rcases hret with ⟨m, rfl, -, hnone⟩ | ⟨he, -⟩ | ⟨p, rfl, -, hin, -, ho, -⟩
  · refine iff_of_false (by simp [matchOnly]) ?_
    rintro ⟨t, hocc⟩
    obtain ⟨hle, hocc⟩ := (occursAt_iff hpos t).mp hocc
    exact hnone t (by rw [hfresh.position]; exact Nat.zero_le t) hle hocc
  · simp [matchOnly] at he
  · exact iff_of_true rfl ⟨p, (occursAt_iff hpos p).mpr ⟨hin, ho⟩⟩

theorem exists_occursAt_iff {needle haystack : List UInt8} :
    (∃ p, OccursAt needle haystack p) ↔ needle <:+: haystack := by
  constructor
  · rintro ⟨p, rest, hrest⟩
    exact ⟨haystack.take p, rest, by rw [List.append_assoc, hrest, List.take_append_drop]⟩
  · rintro ⟨before, rest, rfl⟩
    refine ⟨before.length, rest, ?_⟩
    rw [List.append_assoc, List.drop_left]

/-- On every path the answer is whether the needle's bytes stand in the haystack, and no
read leaves it. -/
theorem isContainedIn_exact (simd : Bool) (addr : ℕ) (needle haystack : Str) :
    ∃ r, isContainedIn simd addr needle haystack = some r ∧
      (r = true ↔ needle.bytes <:+: haystack.bytes) := by
  unfold isContainedIn
  by_cases hempty : needle.bytes.length = 0
  · rw [if_pos hempty, List.eq_nil_of_length_eq_zero hempty]
    exact ⟨true, rfl, iff_of_true rfl (List.nil_infix ..)⟩
  rw [if_neg hempty]
  have hn : needle.bytes ≠ [] := fun h => hempty (by rw [h, List.length_nil])
  obtain ⟨searcher, found, s, hnew, hnext, hfound⟩ := fallback_spec haystack hn
  rw [← exists_occursAt_iff]
  cases hcmp : compare needle.bytes.length haystack.bytes.length with
  | lt =>
    simp only [hnew, hnext, some_bind]
    split_ifs with hone hsimd
    · obtain ⟨byte, hbyte⟩ := List.length_eq_one_iff.mp hone
      rw [hbyte]
      simp only [List.getElem?_cons_zero, Memchr.memchr_eq]
      refine ⟨_, rfl, ?_⟩
      rw [exists_occursAt_iff, List.singleton_infix_iff, List.findIdx?_isSome]
      simp
    · obtain ⟨o, ho, hanswer⟩ := simdContains_spec haystack.bytes
        (show 2 ≤ needle.bytes.length by omega)
      rw [ho]
      cases o with
      | some result => exact ⟨result, rfl, hanswer result rfl⟩
      | none => exact ⟨_, rfl, hfound⟩
    · exact ⟨_, rfl, hfound⟩
  | eq =>
    have hlen := compare_eq_iff_eq.mp hcmp
    refine ⟨_, rfl, ?_⟩
    rw [exists_occursAt_iff, beq_iff_eq]
    exact ⟨fun h => h ▸ List.infix_rfl, fun h => h.eq_of_length hlen⟩
  | gt =>
    have hlt := compare_gt_iff_gt.mp hcmp
    refine ⟨_, rfl, ?_⟩
    rw [exists_occursAt_iff, beq_iff_eq]
    constructor
    · intro h
      rw [h] at hlt
      exact absurd hlt (lt_irrefl _)
    · intro h
      exact absurd h.length_le (Nat.not_le.mpr hlt)

end RustStd.StrContains
