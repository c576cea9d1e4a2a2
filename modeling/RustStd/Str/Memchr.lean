import RustStd.Lib.Loop
import RustStd.Lib.Machine

/-!
# Searching for a byte

`memchr` and `memrchr` read two words at a time between the first and the last aligned
place of the text. A word is only searched byte by byte if the test for a zero byte
says so, and the test misses none. The text begins at an address; the words are read
where they are aligned.
-/

set_option autoImplicit false

namespace RustStd.Memchr
open RustStd.Loop

/-- `usize::from_ne_bytes`. -/
def fromBytes (bs : List UInt8) : BitVec 64 :=
  BitVec.ofNat 64 (Nat.ofDigits 256 (bs.map UInt8.toNat))

/-- `usize::repeat_u8`. -/
def repeatU8 (x : UInt8) : BitVec 64 := fromBytes (List.replicate 8 x)

def loUsize : BitVec 64 := repeatU8 0x01

def hiUsize : BitVec 64 := repeatU8 0x80

def usizeBytes : ℕ := 8

def containsZeroByte (x : BitVec 64) : Bool := (x-loUsize) &&& ~~~x &&& hiUsize != 0

section Search
variable (addr : ℕ) (x : UInt8) (text : List UInt8)

def memchrNaiveBody (i : ℕ) : Option (ℕ ⊕ Option ℕ) :=
  if i < text.length then do
    let b ← text[i]?
    return if b = x then .inr (some i) else .inl (i+1)
  else some (.inr none)

def memchrNaive : Option (Option ℕ) := loop (memchrNaiveBody x text) (text.length+1) 0

/-- `ptr.align_offset(USIZE_BYTES)`. -/
def alignOffset : ℕ := (usizeBytes-addr%usizeBytes)%usizeBytes

/-- `*(ptr.add(offset) as *const usize)`. -/
def readWord (offset : ℕ) : Option (BitVec 64) :=
  if (addr+offset)%usizeBytes = 0 ∧ offset+usizeBytes ≤ text.length then
    some (fromBytes ((text.drop offset).take usizeBytes))
  else none

/-- Whether one of two words may hold the byte. -/
def probe (offset : ℕ) : Option Bool := do
  let u ← readWord addr text offset
  let v ← readWord addr text (offset+usizeBytes)
  return containsZeroByte (u ^^^ repeatU8 x) || containsZeroByte (v ^^^ repeatU8 x)

def memchrBody (offset : ℕ) : Option (ℕ ⊕ ℕ) :=
  if offset ≤ text.length-2*usizeBytes then do
    let found ← probe addr x text offset
    return if found then .inr offset else .inl (offset+usizeBytes*2)
  else some (.inr offset)

/-- The words and then the rest, from an aligned place on. -/
def memchrFrom (offset : ℕ) : Option (Option ℕ) := do
  let offset ← loop (memchrBody addr x text) (text.length+1) offset
  if offset ≤ text.length then
    let found ← memchrNaive x (text.drop offset)
    return found.map (offset+·)
  else none

def memchrAligned : Option (Option ℕ) :=
  let offset := alignOffset addr
  if offset > 0 then do
    let offset := min offset text.length
    match ← memchrNaive x (text.take offset) with
    | some index => return some index
    | none => memchrFrom addr x text offset
  else memchrFrom addr x text offset

def memchr : Option (Option ℕ) :=
  if text.length < 2*usizeBytes then memchrNaive x text else memchrAligned addr x text

/-- `iter().rposition(|elt| *elt == x)`. -/
def rposition : Option ℕ := (text.reverse.findIdx? (· == x)).map fun i => text.length-1-i

/-- The ends of the aligned part of `text.align_to::<(usize, usize)>()`. -/
def alignedOffsets : ℕ × ℕ :=
  let offset := alignOffset addr
  if offset > text.length then (text.length, text.length)
  else (offset, text.length-(text.length-offset)%(2*usizeBytes))

def memrchrBody (minAlignedOffset offset : ℕ) : Option (ℕ ⊕ ℕ) :=
  if offset > minAlignedOffset then
    if 2*usizeBytes ≤ offset then do
      let found ← probe addr x text (offset-2*usizeBytes)
      return if found then .inr offset else .inl (offset-2*usizeBytes)
    else none
  else some (.inr offset)

def memrchr : Option (Option ℕ) :=
  let (minAlignedOffset, maxAlignedOffset) := alignedOffsets addr text
  match rposition x (text.drop maxAlignedOffset) with
  | some index => some (some (maxAlignedOffset+index))
  | none => do
    let offset ← loop (memrchrBody addr x text minAlignedOffset) (text.length+1) maxAlignedOffset
    return rposition x (text.take offset)

end Search

/-- Byte `j` of a word. -/
def byteAt (w : BitVec 64) (j : ℕ) : BitVec 8 := w.extractLsb' (8*j) 8

theorem toNat_byteAt (w : BitVec 64) (j : ℕ) : (byteAt w j).toNat = w.toNat/2^(8*j)%2^8 := by
  rw [byteAt, BitVec.extractLsb'_toNat, Nat.shiftRight_eq_div_pow]

theorem byteAt_fromBytes {bs : List UInt8} {j : ℕ} (hj : j < 8) {b : UInt8} (hb : bs[j]? = some b) :
    byteAt (fromBytes bs) j = b.toBitVec := by
  have hdigits : ∀ n ∈ bs.map UInt8.toNat, n < 256 := by
    intro n hn
    obtain ⟨c, -, rfl⟩ := List.mem_map.mp hn
    exact c.toNat_lt
  have hhead : Nat.ofDigits 256 (bs.map UInt8.toNat)/256^j%256 = b.toNat := by
    rw [Nat.ofDigits_div_pow_eq_ofDigits_drop j (by decide) _ hdigits, ← List.map_drop]
    obtain ⟨hlt, rfl⟩ := List.getElem?_eq_some_iff.mp hb
    rw [List.drop_eq_getElem_cons hlt, List.map_cons, Nat.ofDigits_cons, Nat.add_mul_mod_self_left]
    exact Nat.mod_eq_of_lt (UInt8.toNat_lt _)
  apply BitVec.eq_of_toNat_eq
  rw [toNat_byteAt, fromBytes, BitVec.toNat_ofNat, UInt8.toNat_toBitVec, ← hhead]
  generalize Nat.ofDigits 256 (bs.map UInt8.toNat) = n
  interval_cases j <;> omega

theorem byteAt_xor (u v : BitVec 64) (j : ℕ) : byteAt (u ^^^ v) j = byteAt u j ^^^ byteAt v j := by
  simp only [byteAt, BitVec.extractLsb'_xor]

theorem byteAt_repeatU8 (x : UInt8) {j : ℕ} (hj : j < 8) : byteAt (repeatU8 x) j = x.toBitVec := by
  apply byteAt_fromBytes hj
  rw [List.getElem?_replicate, if_pos hj]

theorem ones_le_mod {n : ℕ} (j : ℕ) (hnz : ∀ i < j, n/2^(8*i)%2^8 ≠ 0) :
    Nat.ofDigits (2^8) (List.replicate j 1) ≤ n%2^(8*j) := by
  induction j with
  | zero => exact Nat.zero_le _
  | succ j ih =>
    have hj := Nat.pos_of_ne_zero (hnz j (Nat.lt_succ_self j))
    have hlow := ih fun i hi => hnz i (hi.trans (Nat.lt_succ_self j))
    rw [List.replicate_succ', Nat.ofDigits_append, List.length_replicate, Nat.ofDigits_singleton,
      ← pow_mul, mul_one, Nat.mul_succ, Nat.pow_add, Nat.mod_mul]
    exact Nat.add_le_add hlow (Nat.le_mul_of_pos_right _ hj)

theorem lane_bit {n j : ℕ} (hj : j < 8) (hnz : ∀ i < j, n/2^(8*i)%2^8 ≠ 0)
    (htop : n/2^(8*j+7)%2 = 0) :
    (2^64-0x0101010101010101+n)%2^64/2^(8*j+7)%2 = 1 ↔ n/2^(8*j)%2^8 = 0 := by
  have hle := ones_le_mod j hnz
  clear hnz
  interval_cases j <;> simp only [List.replicate, Nat.ofDigits] at hle <;> omega

theorem byteAt_eq_zero (w : BitVec 64) (j : ℕ) : byteAt w j = 0 ↔ w.toNat/2^(8*j)%2^8 = 0 := by
  rw [← toNat_byteAt]
  exact BitVec.toNat_inj.symm

theorem flag_bit {w : BitVec 64} {j : ℕ} (hj : j < 8) (hlow : ∀ i < j, byteAt w i ≠ 0) :
    (w-loUsize &&& ~~~w).getLsbD (8*j+7) = true ↔ byteAt w j = 0 := by
  have hlo : loUsize.toNat = 0x0101010101010101 := by decide
  have hlane := lane_bit hj fun i hi => (byteAt_eq_zero w i).not.mp (hlow i hi)
  have htop : w.toNat/2^(8*j)%2^8 = 0 → w.toNat/2^(8*j+7)%2 = 0 := by
    intro hzero
    rw [Nat.pow_add, ← Nat.div_div_eq_div_mul]
    omega
  have hclear : (~~~w).getLsbD (8*j+7) = true ↔ w.toNat/2^(8*j+7)%2 = 0 := by
    rw [BitVec.getLsbD_not, BitVec.getLsbD, Nat.testBit_eq_decide_div_mod_eq]
    simp
    omega
  rw [BitVec.getLsbD_and, Bool.and_eq_true, hclear, byteAt_eq_zero, BitVec.getLsbD,
    BitVec.toNat_sub, hlo, Nat.testBit_eq_decide_div_mod_eq, decide_eq_true_eq]
  constructor
  · intro h
    exact (hlane h.2).mp h.1
  · intro hzero
    exact ⟨(hlane (htop hzero)).mpr hzero, htop hzero⟩

theorem hi_bit {k : ℕ} (hk : k < 64) : hiUsize.getLsbD k = true ↔ k%8 = 7 := by
  have h : ∀ k : Fin 64, hiUsize.getLsbD k = true ↔ k.val%8 = 7 := by decide
  exact h ⟨k, hk⟩

theorem containsZeroByte_iff (w : BitVec 64) :
    containsZeroByte w = true ↔ ∃ j < 8, byteAt w j = 0 := by
  rw [containsZeroByte, bne_iff_ne]
  constructor
  · intro hne
    by_contra hno
    push Not at hno
    apply hne
    apply BitVec.eq_of_getLsbD_eq
    intro k hk
    rw [BitVec.getLsbD_and, BitVec.ofNat_eq_ofNat, BitVec.getLsbD_zero, Bool.and_eq_false_imp]
    intro hflag
    rw [← Bool.not_eq_true, hi_bit hk]
    intro hmod
    rw [show k = 8*(k/8)+7 by omega, flag_bit (by omega) fun i hi => hno i (by omega)] at hflag
    exact hno (k/8) (by omega) hflag
  · rintro ⟨j, hj, hzero⟩ he
    have hex : ∃ i, byteAt w i = 0 := ⟨j, hzero⟩
    have hfind : Nat.find hex < 8 := (Nat.find_min' hex hzero).trans_lt hj
    have hflag := (flag_bit hfind fun i hi => Nat.find_min hex hi).mpr (Nat.find_spec hex)
    have hhi := (hi_bit (show 8*Nat.find hex+7 < 64 by omega)).mpr (by omega)
    have hbit : (w-loUsize &&& ~~~w &&& hiUsize).getLsbD (8*Nat.find hex+7) = true := by
      rw [BitVec.getLsbD_and, hflag, hhi, Bool.and_self]
    rw [he] at hbit
    simp at hbit

section Specs
variable {addr : ℕ} {x : UInt8} {text : List UInt8} {offset : ℕ}

/-- The byte is not before `offset`. -/
def Passed (x : UInt8) (text : List UInt8) (offset : ℕ) : Prop := ∀ i < offset, text[i]? ≠ some x

theorem Passed.succ {i : ℕ} (h : Passed x text i) (hi : text[i]? ≠ some x) : Passed x text (i+1) := by
  intro k hk
  rcases Nat.lt_succ_iff_lt_or_eq.mp hk with hk | rfl
  · exact h k hk
  · exact hi

theorem Passed.findIdx_eq {i : ℕ} (h : Passed x text i) (hi : text[i]? = some x) :
    text.findIdx? (· == x) = some i := by
  obtain ⟨hlt, hx⟩ := List.getElem?_eq_some_iff.mp hi
  refine List.findIdx?_eq_some_iff_getElem.mpr ⟨hlt, by simp [hx], fun k hk => ?_⟩
  have hne := h k hk
  rw [List.getElem?_eq_getElem (by omega)] at hne
  simpa using hne

theorem Passed.findIdx_none (h : Passed x text text.length) : text.findIdx? (· == x) = none := by
  refine List.findIdx?_eq_none_iff.mpr fun y hy => ?_
  obtain ⟨k, hk, rfl⟩ := List.getElem_of_mem hy
  have hne := h k hk
  rw [List.getElem?_eq_getElem hk] at hne
  simpa using hne

theorem memchrNaiveBody_round {i : ℕ} (hi : i ≤ text.length) (hp : Passed x text i) :
    ∃ r, memchrNaiveBody x text i = some r ∧ Round (fun i => i ≤ text.length ∧ Passed x text i)
      (text.length-·) (· = text.findIdx? (· == x)) i r := by
  unfold memchrNaiveBody
  by_cases hlt : i < text.length
  · have hget := List.getElem?_eq_getElem hlt
    rw [if_pos hlt, hget]
    refine ⟨_, rfl, ?_⟩
    by_cases hx : text[i] = x
    · rw [if_pos hx]
      exact (hp.findIdx_eq (hget.trans (congrArg some hx))).symm
    · rw [if_neg hx]
      refine ⟨⟨hlt, hp.succ ?_⟩, Nat.sub_succ_lt_self _ _ hlt⟩
      rw [hget]
      simpa using hx
  · obtain rfl : i = text.length := by omega
    rw [if_neg hlt]
    exact ⟨_, rfl, hp.findIdx_none.symm⟩

theorem memchrNaive_eq (x : UInt8) (text : List UInt8) :
    memchrNaive x text = some (text.findIdx? (· == x)) := by
  obtain ⟨r, hr, rfl⟩ := loop_total _ _ _ (fun i hi => memchrNaiveBody_round hi.1 hi.2)
    (text.length+1) 0 ⟨Nat.zero_le _, fun i hi => absurd hi (Nat.not_lt_zero i)⟩
    (Nat.lt_succ_of_le (Nat.sub_le ..))
  exact hr

theorem readWord_spec (ha : (addr+offset)%usizeBytes = 0) (ho : offset+usizeBytes ≤ text.length) :
    ∃ w, readWord addr text offset = some w ∧
      ∀ j < 8, ∀ b, text[offset+j]? = some b → byteAt w j = b.toBitVec := by
  refine ⟨_, if_pos ⟨ha, ho⟩, fun j hj b hb => byteAt_fromBytes hj ?_⟩
  rwa [List.getElem?_take_of_lt (show j < usizeBytes from hj), List.getElem?_drop]

theorem containsZeroByte_of_mem {w : BitVec 64} {j : ℕ} (hj : j < 8) (hw : byteAt w j = x.toBitVec) :
    containsZeroByte (w ^^^ repeatU8 x) = true := by
  refine (containsZeroByte_iff _).mpr ⟨j, hj, ?_⟩
  rw [byteAt_xor, hw, byteAt_repeatU8 x hj]
  exact BitVec.xor_self

theorem probe_spec (ha : (addr+offset)%usizeBytes = 0) (ho : offset+2*usizeBytes ≤ text.length) :
    ∃ found, probe addr x text offset = some found ∧
      (found = false → ∀ i, offset ≤ i → i < offset+2*usizeBytes → text[i]? ≠ some x) := by
  have h8 : usizeBytes = 8 := rfl
  obtain ⟨u, hu, hub⟩ := readWord_spec ha (show offset+usizeBytes ≤ text.length by omega)
  have ha' : (addr+(offset+usizeBytes))%usizeBytes = 0 := by
    rw [← Nat.add_assoc, Nat.add_mod_right, ha]
  obtain ⟨v, hv, hvb⟩ := readWord_spec ha' (show offset+usizeBytes+usizeBytes ≤ text.length by omega)
  refine ⟨_, by simp only [probe, hu, hv, some_bind]; rfl, ?_⟩
  intro hno i hlo hhi hx
  rw [Bool.or_eq_false_iff] at hno
  by_cases hfirst : i < offset+usizeBytes
  · have hw := hub (i-offset) (by omega) x (by rwa [Nat.add_sub_cancel' hlo])
    rw [containsZeroByte_of_mem (show i-offset < 8 by omega) hw] at hno
    cases hno.1
  · have hw := hvb (i-(offset+usizeBytes)) (by omega) x (by rwa [Nat.add_sub_cancel' (by omega)])
    rw [containsZeroByte_of_mem (show i-(offset+usizeBytes) < 8 by omega) hw] at hno
    cases hno.2

theorem alignOffset_aligned (addr : ℕ) :
    (addr+alignOffset addr)%usizeBytes = 0 ∧ alignOffset addr < usizeBytes := by
  unfold alignOffset usizeBytes
  omega

theorem findIdx_take_drop (x : UInt8) (text : List UInt8) {offset : ℕ} (ho : offset ≤ text.length) :
    text.findIdx? (· == x) = ((text.take offset).findIdx? (· == x)).or
      (((text.drop offset).findIdx? (· == x)).map (offset+·)) := by
  conv_lhs => rw [← List.take_append_drop offset text]
  rw [List.findIdx?_append, List.length_take_of_le ho]
  congr 2
  ext i
  rw [Nat.add_comm]

theorem Passed.take (h : Passed x text offset) : (text.take offset).findIdx? (· == x) = none := by
  apply Passed.findIdx_none
  intro i hi
  rw [List.length_take] at hi
  rw [List.getElem?_take_of_lt (by omega)]
  exact h i (by omega)

theorem passed_of_take (h : (text.take offset).findIdx? (· == x) = none) :
    Passed x text offset := by
  intro i hi hx
  rw [← List.getElem?_take_of_lt hi] at hx
  simpa using List.findIdx?_eq_none_iff.mp h x (List.mem_of_getElem? hx)

theorem aligned_add {n k : ℕ} (h : n%usizeBytes = 0) : (n+usizeBytes*k)%usizeBytes = 0 := by
  rw [Nat.add_mul_mod_self_left, h]

theorem memchrBody_round (hlen : 2*usizeBytes ≤ text.length) (ho : offset ≤ text.length)
    (ha : (addr+offset)%usizeBytes = 0) (hp : Passed x text offset) :
    ∃ r, memchrBody addr x text offset = some r ∧
      Round (fun o => o ≤ text.length ∧ (addr+o)%usizeBytes = 0 ∧ Passed x text o)
        (text.length-·) (fun o => o ≤ text.length ∧ Passed x text o) offset r := by
  have h8 : usizeBytes = 8 := rfl
  unfold memchrBody
  by_cases hle : offset ≤ text.length-2*usizeBytes
  · obtain ⟨found, hprobe, hno⟩ := probe_spec (x := x) ha (show offset+2*usizeBytes ≤ text.length by omega)
    rw [if_pos hle, hprobe]
    refine ⟨_, rfl, ?_⟩
    cases found with
    | true => exact ⟨ho, hp⟩
    | false =>
      refine ⟨⟨by omega, by rw [← Nat.add_assoc, aligned_add ha], fun i hi => ?_⟩, ?_⟩
      · by_cases hlo : i < offset
        · exact hp i hlo
        · exact hno rfl i (by omega) (by omega)
      · change text.length-(offset+usizeBytes*2) < text.length-offset
        omega
  · rw [if_neg hle]
    exact ⟨_, rfl, ho, hp⟩

theorem memchrFrom_eq (hlen : 2*usizeBytes ≤ text.length) (ho : offset ≤ text.length)
    (ha : (addr+offset)%usizeBytes = 0) (hp : Passed x text offset) :
    memchrFrom addr x text offset = some (text.findIdx? (· == x)) := by
  obtain ⟨o, hloop, hle, hpassed⟩ := loop_total _ _ _
    (fun o (h : o ≤ text.length ∧ (addr+o)%usizeBytes = 0 ∧ Passed x text o) =>
      memchrBody_round hlen h.1 h.2.1 h.2.2)
    (text.length+1) offset ⟨ho, ha, hp⟩ (Nat.lt_succ_of_le (Nat.sub_le ..))
  rw [memchrFrom, hloop, findIdx_take_drop x text hle, hpassed.take]
  simp only [some_bind, if_pos hle, memchrNaive_eq]
  rfl

theorem memchr_eq (addr : ℕ) (x : UInt8) (text : List UInt8) :
    memchr addr x text = some (text.findIdx? (· == x)) := by
  have h8 : usizeBytes = 8 := rfl
  obtain ⟨ha, hlt⟩ := alignOffset_aligned addr
  unfold memchr
  by_cases hshort : text.length < 2*usizeBytes
  · rw [if_pos hshort, memchrNaive_eq]
  rw [if_neg hshort, memchrAligned]
  have hmin : min (alignOffset addr) text.length = alignOffset addr := by omega
  have ho : alignOffset addr ≤ text.length := by omega
  by_cases hpos : alignOffset addr > 0
  · simp only [if_pos hpos, hmin, memchrNaive_eq, some_bind]
    cases hfirst : (text.take (alignOffset addr)).findIdx? (· == x) with
    | some index =>
      rw [findIdx_take_drop x text ho, hfirst, Option.some_or]
      rfl
    | none => exact memchrFrom_eq (by omega) ho ha (passed_of_take hfirst)
  · rw [if_neg hpos]
    exact memchrFrom_eq (by omega) ho ha fun i hi => absurd hi (by omega)

theorem rposition_append (x : UInt8) (a b : List UInt8) :
    rposition x (a ++ b) = ((rposition x b).map (a.length+·)).or (rposition x a) := by
  unfold rposition
  rw [List.reverse_append, List.findIdx?_append, List.length_reverse, List.length_append]
  cases hb : b.reverse.findIdx? (· == x) with
  | some i =>
    have hi := (List.findIdx?_eq_some_iff_getElem.mp hb).1
    rw [List.length_reverse] at hi
    simp only [Option.some_or, Option.map_some, Option.some.injEq]
    omega
  | none =>
    simp only [Option.none_or, Option.map_none, Option.map_map]
    congr 1
    funext i
    simp only [Function.comp_apply]
    omega

theorem rposition_none (h : ∀ i : ℕ, text[i]? ≠ some x) : rposition x text = none := by
  rw [rposition, Option.map_eq_none_iff, List.findIdx?_eq_none_iff]
  intro y hy
  obtain ⟨k, hk, rfl⟩ := List.getElem_of_mem (List.mem_reverse.mp hy)
  have hne := h k
  rw [List.getElem?_eq_getElem hk] at hne
  simpa using hne

/-- The byte is not from `offset` on. -/
def Behind (x : UInt8) (text : List UInt8) (offset : ℕ) : Prop := ∀ i, offset ≤ i → text[i]? ≠ some x

theorem Behind.rposition_eq (h : Behind x text offset) :
    rposition x text = rposition x (text.take offset) := by
  have hnone : rposition x (text.drop offset) = none := by
    apply rposition_none
    intro i
    rw [List.getElem?_drop]
    exact h _ (Nat.le_add_right ..)
  conv_lhs => rw [← List.take_append_drop offset text]
  rw [rposition_append, hnone, Option.map_none, Option.none_or]

theorem behind_of_drop (h : rposition x (text.drop offset) = none) : Behind x text offset := by
  intro i hi hx
  rw [rposition, Option.map_eq_none_iff, List.findIdx?_eq_none_iff] at h
  have hmem : x ∈ text.drop offset := by
    apply List.mem_of_getElem? (i := i-offset)
    rwa [List.getElem?_drop, Nat.add_sub_cancel' hi]
  simpa using h x (List.mem_reverse.mpr hmem)

theorem memrchrBody_round {least : ℕ} (ho : least ≤ offset ∧ offset ≤ text.length)
    (hm : (offset-least)%(2*usizeBytes) = 0) (ha : least < offset → (addr+least)%usizeBytes = 0)
    (hb : Behind x text offset) :
    ∃ r, memrchrBody addr x text least offset = some r ∧
      Round (fun o => (least ≤ o ∧ o ≤ text.length) ∧ (o-least)%(2*usizeBytes) = 0 ∧
        (least < o → (addr+least)%usizeBytes = 0) ∧ Behind x text o) (·-least) (Behind x text)
        offset r := by
  have h8 : usizeBytes = 8 := rfl
  unfold memrchrBody
  by_cases hgt : offset > least
  · have hal := ha hgt
    obtain ⟨k, hk⟩ := Nat.dvd_of_mod_eq_zero hm
    have hfrom : offset-2*usizeBytes = least+2*usizeBytes*(k-1) ∧ 0 < k := by
      cases k with
      | zero => omega
      | succ k =>
        rw [Nat.mul_succ] at hk
        exact ⟨by rw [Nat.add_sub_cancel]; omega, k.succ_pos⟩
    have hroom : least+2*usizeBytes ≤ offset := by
      have := Nat.mul_le_mul_left (2*usizeBytes) (show 1 ≤ k from hfrom.2)
      omega
    obtain ⟨found, hprobe, hno⟩ := probe_spec (x := x)
      (show (addr+(offset-2*usizeBytes))%usizeBytes = 0 by
        rw [hfrom.1, ← Nat.add_assoc, Nat.mul_comm 2, Nat.mul_assoc, aligned_add hal])
      (show offset-2*usizeBytes+2*usizeBytes ≤ text.length by omega)
    rw [if_pos hgt, if_pos (by omega), hprobe]
    refine ⟨_, rfl, ?_⟩
    cases found with
    | true => exact hb
    | false =>
      refine ⟨⟨by omega, ?_, fun _ => hal, fun i hi => ?_⟩, ?_⟩
      · rw [hfrom.1, Nat.add_sub_cancel_left, Nat.mul_mod_right]
      · by_cases hlo : offset ≤ i
        · exact hb i hlo
        · exact hno rfl i hi (by omega)
      · change offset-2*usizeBytes-least < offset-least
        omega
  · rw [if_neg hgt]
    exact ⟨_, rfl, hb⟩

theorem alignedOffsets_spec (addr : ℕ) (text : List UInt8) :
    ∃ least most, alignedOffsets addr text = (least, most) ∧ least ≤ most ∧ most ≤ text.length ∧
      (most-least)%(2*usizeBytes) = 0 ∧ (least < most → (addr+least)%usizeBytes = 0) := by
  obtain ⟨ha, -⟩ := alignOffset_aligned addr
  unfold alignedOffsets
  by_cases hgt : alignOffset addr > text.length
  · exact ⟨text.length, text.length, if_pos hgt, le_rfl, le_rfl, by simp, fun h => absurd h (by omega)⟩
  · have hmod := Nat.mod_le (text.length-alignOffset addr) (2*usizeBytes)
    refine ⟨_, _, if_neg hgt, by omega, Nat.sub_le .., ?_, fun _ => ha⟩
    have hdiv := Nat.div_add_mod (text.length-alignOffset addr) (2*usizeBytes)
    rw [Nat.sub_right_comm, show text.length-alignOffset addr-(text.length-alignOffset addr)%(2*usizeBytes) =
      2*usizeBytes*((text.length-alignOffset addr)/(2*usizeBytes)) by omega]
    exact Nat.mul_mod_right ..

theorem memrchr_eq (addr : ℕ) (x : UInt8) (text : List UInt8) :
    memrchr addr x text = some (rposition x text) := by
  obtain ⟨least, most, hoffsets, hle, hlen, hmod, ha⟩ := alignedOffsets_spec addr text
  unfold memrchr
  rw [hoffsets]
  simp only
  cases hlast : rposition x (text.drop most) with
  | some index =>
    conv_rhs => rw [← List.take_append_drop most text]
    rw [rposition_append, hlast, List.length_take_of_le hlen, Option.map_some, Option.some_or]
  | none =>
    obtain ⟨o, hloop, hbehind⟩ := loop_total _ _ _
      (fun o (h : (least ≤ o ∧ o ≤ text.length) ∧ (o-least)%(2*usizeBytes) = 0 ∧
        (least < o → (addr+least)%usizeBytes = 0) ∧ Behind x text o) =>
        memrchrBody_round h.1 h.2.1 h.2.2.1 h.2.2.2)
      (text.length+1) most ⟨⟨hle, hlen⟩, hmod, ha, behind_of_drop hlast⟩ (by omega)
    simp only [hloop, some_bind]
    rw [hbehind.rposition_eq]
    rfl

theorem findIdx_eq_some_iff (i : ℕ) :
    text.findIdx? (· == x) = some i ↔ IsLeast {i : ℕ | text[i]? = some x} i := by
  constructor
  · intro h
    obtain ⟨hlt, hx, hfirst⟩ := List.findIdx?_eq_some_iff_getElem.mp h
    refine ⟨List.getElem?_eq_some_iff.mpr ⟨hlt, by simpa using hx⟩, fun k hk => ?_⟩
    obtain ⟨hkl, hkx⟩ := List.getElem?_eq_some_iff.mp hk
    by_contra hki
    exact hfirst k (not_le.mp hki) (by simpa using hkx)
  · rintro ⟨hi, hleast⟩
    exact Passed.findIdx_eq (fun k hk hx => absurd (hleast hx) (not_le.mpr hk)) hi

theorem rposition_eq_some_iff (i : ℕ) :
    rposition x text = some i ↔ IsGreatest {i : ℕ | text[i]? = some x} i := by
  have hmirror (k : ℕ) (hk : k < text.length) : text.reverse[text.length-1-k]? = text[k]? := by
    rw [List.getElem?_reverse (by omega)]
    congr 1
    omega
  rw [rposition, Option.map_eq_some_iff]
  constructor
  · rintro ⟨k, hk, rfl⟩
    have hlt := (List.findIdx?_eq_some_iff_getElem.mp hk).1
    rw [List.length_reverse] at hlt
    obtain ⟨hx, hleast⟩ := (findIdx_eq_some_iff k).mp hk
    constructor
    · rwa [Set.mem_ofPred_eq, List.getElem?_reverse hlt] at hx
    · intro m hm
      have hml := (List.getElem?_eq_some_iff.mp hm).1
      have hle := hleast ((hmirror m hml).trans hm)
      omega
  · rintro ⟨hx, hgreatest⟩
    have hlt := (List.getElem?_eq_some_iff.mp hx).1
    refine ⟨text.length-1-i, (findIdx_eq_some_iff _).mpr ⟨(hmirror i hlt).trans hx, ?_⟩, by omega⟩
    intro m hm
    have hml := (List.getElem?_eq_some_iff.mp hm).1
    rw [List.length_reverse] at hml
    rw [Set.mem_ofPred_eq, List.getElem?_reverse hml] at hm
    have hge := hgreatest hm
    omega

theorem findIdx_eq_none_iff : text.findIdx? (· == x) = none ↔ x ∉ text := by
  rw [List.findIdx?_eq_none_iff]
  constructor
  · intro h hx
    simpa using h x hx
  · intro h y hy
    rw [beq_eq_false_iff_ne]
    rintro rfl
    exact h hy

/-- Wherever the text lies, both searches read only aligned words of it and find the
first and the last place of the byte; the test for a zero byte is exact. -/
theorem memchr_memrchr_exact (addr : ℕ) (x : UInt8) (text : List UInt8) :
    (∃ r, memchr addr x text = some r ∧ memchrNaive x text = some r ∧ (r = none ↔ x ∉ text) ∧
      ∀ i, r = some i ↔ IsLeast {i : ℕ | text[i]? = some x} i) ∧
    (∃ r, memrchr addr x text = some r ∧ (r = none ↔ x ∉ text) ∧
      ∀ i, r = some i ↔ IsGreatest {i : ℕ | text[i]? = some x} i) ∧
    ∀ w, containsZeroByte w = true ↔ ∃ j < 8, byteAt w j = 0 := by
  refine ⟨⟨_, memchr_eq addr x text, memchrNaive_eq x text, findIdx_eq_none_iff,
    findIdx_eq_some_iff⟩, ⟨_, memrchr_eq addr x text, ?_, rposition_eq_some_iff⟩,
    containsZeroByte_iff⟩
  rw [rposition, Option.map_eq_none_iff, findIdx_eq_none_iff, List.mem_reverse]

end Specs

end RustStd.Memchr
