import RustStd.Lib.Machine
import RustStd.Str.MaximalSuffix

/-!
# `TwoWaySearcher`

The substring searcher of `core::str::pattern` over byte slices. All indexing
and slicing is checked, so a result is also a proof that no access was out of
bounds. The strategy decides whether a call may stop at a rejected part.
-/

set_option autoImplicit false

namespace RustStd.TwoWay
open RustStd.Loop RustStd.Machine RustStd.Words RustStd.MaximalSuffix

structure TwoWaySearcher where
  critPos : ℕ
  critPosBack : ℕ
  period : ℕ
  byteset : ℕ
  position : ℕ
  endPos : ℕ
  memory : ℕ
  memoryBack : ℕ
  deriving DecidableEq, Repr

def bytesetCreate (bytes : List UInt8) : ℕ :=
  bytes.foldl (fun a b => (1 <<< (b &&& 0x3f).toNat) ||| a) 0

def bytesetContains (byteset : ℕ) (byte : UInt8) : Bool :=
  (byteset >>> (byte &&& 0x3f).toNat) &&& 1 != 0

def new (needle : List UInt8) (endPos : ℕ) : Option TwoWaySearcher := do
  let (critPosFalse, periodFalse) ← maximalSuffix needle false
  let (critPosTrue, periodTrue) ← maximalSuffix needle true
  let (critPos, period) := if critPosFalse > critPosTrue then (critPosFalse, periodFalse)
    else (critPosTrue, periodTrue)
  let u ← slice needle 0 critPos
  let w ← slice needle period (period+critPos)
  if u = w then do
    let backFalse ← reverseMaximalSuffix needle period false
    let backTrue ← reverseMaximalSuffix needle period true
    let word ← slice needle 0 period
    return { critPos := critPos, critPosBack := needle.length-max backFalse backTrue,
             period := period, byteset := bytesetCreate word,
             position := 0, endPos := endPos, memory := 0, memoryBack := needle.length }
  else
    return { critPos := critPos, critPosBack := critPos,
             period := max critPos (needle.length-critPos)+1, byteset := bytesetCreate needle,
             position := 0, endPos := endPos, memory := usizeMax, memoryBack := usizeMax }

structure TwoWayStrategy (Output : Type) where
  useEarlyReject : Bool
  rejecting : ℕ → ℕ → Output
  matching : ℕ → ℕ → Output

def matchOnly : TwoWayStrategy (Option (ℕ × ℕ)) :=
  ⟨false, fun _ _ => none, fun a b => some (a, b)⟩

@[simp] theorem matchOnly_rejecting (a b : ℕ) : matchOnly.rejecting a b = none := rfl

@[simp] theorem matchOnly_matching (a b : ℕ) : matchOnly.matching a b = some (a, b) := rfl

inductive SearchStep
  | Match (a b : ℕ)
  | Reject (a b : ℕ)
  | Done
  deriving DecidableEq, Repr

def rejectAndMatch : TwoWayStrategy SearchStep := ⟨true, .Reject, .Match⟩

/-- A `for` loop over the given indices that stops at the first one where the
needle differs from the haystack. -/
def findMismatch (needle haystack : List UInt8) (base : ℕ) : List ℕ → Option (Option ℕ)
  | [] => some none
  | i :: is => do
    let a ← needle[i]?
    let b ← haystack[base+i]?
    if a ≠ b then return some i
    findMismatch needle haystack base is

def setMemory (longPeriod : Bool) (m : ℕ) (self : TwoWaySearcher) : TwoWaySearcher :=
  if longPeriod then self else { self with memory := m }

def rightStart (longPeriod : Bool) (self : TwoWaySearcher) : ℕ :=
  if longPeriod then self.critPos else max self.critPos self.memory

def leftStart (longPeriod : Bool) (self : TwoWaySearcher) : ℕ :=
  if longPeriod then 0 else self.memory

def nextBody {Output : Type} (S : TwoWayStrategy Output) (haystack needle : List UInt8)
    (longPeriod : Bool) (oldPos : ℕ) (self : TwoWaySearcher) :
    Option (TwoWaySearcher ⊕ (Output × TwoWaySearcher)) :=
  let needleLast := needle.length-1
  match haystack[self.position+needleLast]? with
  | none =>
    let self := { self with position := haystack.length }
    some (.inr (S.rejecting oldPos self.position, self))
  | some tailByte =>
    if S.useEarlyReject ∧ oldPos ≠ self.position then
      some (.inr (S.rejecting oldPos self.position, self))
    else if !bytesetContains self.byteset tailByte then
      some (.inl (setMemory longPeriod 0 { self with position := self.position+needle.length }))
    else do
      let start := rightStart longPeriod self
      match ← findMismatch needle haystack self.position
          (List.range' start (needle.length-start)) with
      | some i => return .inl (setMemory longPeriod 0
          { self with position := self.position+(i-self.critPos+1) })
      | none =>
        let start := leftStart longPeriod self
        match ← findMismatch needle haystack self.position
            (List.range' start (self.critPos-start)).reverse with
        | some _ => return .inl (setMemory longPeriod (needle.length-self.period)
            { self with position := self.position+self.period })
        | none =>
          let matchPos := self.position
          return .inr (S.matching matchPos (matchPos+needle.length),
            setMemory longPeriod 0 { self with position := self.position+needle.length })

def next {Output : Type} (S : TwoWayStrategy Output) (haystack needle : List UInt8)
    (longPeriod : Bool) (self : TwoWaySearcher) : Option (Output × TwoWaySearcher) :=
  loop (nextBody S haystack needle longPeriod self.position) (haystack.length+2) self

theorem bytesetCreate_testBit (bytes : List UInt8) (acc k : ℕ)
    (h : acc.testBit k = true ∨ ∃ b ∈ bytes, (b &&& 0x3f).toNat = k) :
    (bytes.foldl (fun a b => (1 <<< (b &&& 0x3f).toNat) ||| a) acc).testBit k = true := by
  induction bytes generalizing acc with
  | nil => simpa using h
  | cons b bytes ih =>
    apply ih
    rcases h with h | ⟨c, hc, hk⟩
    · exact .inl (by simp [h])
    · rcases List.mem_cons.mp hc with rfl | hc
      · exact .inl (by simp [← hk, Nat.one_shiftLeft])
      · exact .inr ⟨c, hc, hk⟩

theorem bytesetContains_create {bytes : List UInt8} {b : UInt8} (h : b ∈ bytes) :
    bytesetContains (bytesetCreate bytes) b = true := by
  have := bytesetCreate_testBit bytes 0 _ (.inr ⟨b, h, rfl⟩)
  simpa [bytesetContains, bytesetCreate, Nat.testBit, Nat.and_comm] using this

theorem findMismatch_spec (R : ℕ → ℕ → Prop) (hR : ∀ i j, R i j → ¬ R j i)
    (needle haystack : List UInt8) (base : ℕ) (is : List ℕ) (hp : is.Pairwise R)
    (hb : ∀ i ∈ is, i < needle.length ∧ base+i < haystack.length) :
    (findMismatch needle haystack base is = some none ∧
      ∀ i ∈ is, letter haystack (base+i) = letter needle i) ∨
    ∃ i ∈ is, findMismatch needle haystack base is = some (some i) ∧
      letter haystack (base+i) ≠ letter needle i ∧
      ∀ j ∈ is, R j i → letter haystack (base+j) = letter needle j := by
  induction is with
  | nil => exact .inl ⟨rfl, by simp⟩
  | cons i is ih =>
    obtain ⟨hi, his⟩ := List.pairwise_cons.mp hp
    obtain ⟨hin, hih⟩ := hb i (by simp)
    unfold findMismatch
    simp only [getElem?_letter hin, getElem?_letter hih, some_bind]
    by_cases he : letter needle i = letter haystack (base+i)
    · rcases ih his fun j hj => hb j (by simp [hj]) with ⟨hn, hall⟩ | ⟨j, hj, hs, hne, hall⟩
      · refine .inl ⟨by simpa [he] using hn, ?_⟩
        simpa [he] using hall
      · refine .inr ⟨j, by simp [hj], by simpa [he] using hs, hne, ?_⟩
        intro k hk hkj
        rcases List.mem_cons.mp hk with rfl | hk
        · exact he.symm
        · exact hall k hk hkj
    · refine .inr ⟨i, by simp, by simp [he], Ne.symm he, ?_⟩
      intro k hk hki
      rcases List.mem_cons.mp hk with rfl | hk
      · exact absurd hki (hR _ _ hki)
      · exact absurd hki (hR _ _ (hi k hk))

/-- The constants of a searcher fit its needle, in both directions. -/
structure Prepared (needle : List UInt8) (longPeriod : Bool) (s : TwoWaySearcher) : Prop where
  forward : Factored (letter needle) needle.length s.critPos s.period (!longPeriod)
  backward : Factored (letter needle.reverse) needle.length (needle.length-s.critPosBack)
    s.period (!longPeriod)
  back_le : s.critPosBack ≤ needle.length
  bytes : ∀ i < needle.length, bytesetContains s.byteset (letter needle i) = true

/-- The remembered prefix matches at the cursor, if the needle fits there at all. -/
def Remembers (x : ℕ → UInt8) (n : ℕ) (h : ℕ → UInt8) (len pos m : ℕ) : Prop :=
  m < n ∧ (pos+n ≤ len → ∀ i < m, h (pos+i) = x i)

/-- The states that a call of `next` goes through when it starts in `self`. -/
def Searching (haystack needle : List UInt8) (longPeriod : Bool) (self s : TwoWaySearcher) : Prop :=
  ∃ pos m, s = { self with position := pos, memory := m } ∧
    (if longPeriod then m = self.memory
      else Remembers (letter needle) needle.length (letter haystack) haystack.length pos m) ∧
    self.position ≤ pos ∧
    ∀ t, self.position ≤ t → t < pos → ¬ Occurs (letter needle) needle.length (letter haystack) t

/-- What a call of `next` that started in `self` returns. -/
def Returns {Output : Type} (S : TwoWayStrategy Output) (haystack needle : List UInt8)
    (longPeriod : Bool) (self : TwoWaySearcher) (r : Output × TwoWaySearcher) : Prop :=
  (∃ m, r = (S.rejecting self.position haystack.length,
      { self with position := haystack.length, memory := m }) ∧
    (if longPeriod then m = self.memory else m < needle.length) ∧
    ∀ t, self.position ≤ t → t+needle.length ≤ haystack.length →
      ¬ Occurs (letter needle) needle.length (letter haystack) t) ∨
  (S.useEarlyReject = true ∧ Searching haystack needle longPeriod self r.2 ∧
    r.1 = S.rejecting self.position r.2.position ∧ self.position < r.2.position ∧
    r.2.position+needle.length ≤ haystack.length) ∨
  ∃ pos, r = (S.matching pos (pos+needle.length),
      setMemory longPeriod 0 { self with position := pos+needle.length }) ∧
    self.position ≤ pos ∧ pos+needle.length ≤ haystack.length ∧
    (S.useEarlyReject = true → pos = self.position) ∧
    Occurs (letter needle) needle.length (letter haystack) pos ∧
    ∀ t, self.position ≤ t → t < pos → ¬ Occurs (letter needle) needle.length (letter haystack) t

section Next

variable {Output : Type} {S : TwoWayStrategy Output} {haystack needle : List UInt8}
  {longPeriod : Bool} {self s : TwoWaySearcher}

theorem Searching.skip (hs : Searching haystack needle longPeriod self s) {k m : ℕ}
    (hk : Skip (letter needle) needle.length (letter haystack) s.position k
      (if longPeriod then 0 else m)) :
    Searching haystack needle longPeriod self
      (setMemory longPeriod m { s with position := s.position+k }) := by
  obtain ⟨pos, m', rfl, hm, hle, hnone⟩ := hs
  have hpast : ∀ t, self.position ≤ t → t < pos+k →
      ¬ Occurs (letter needle) needle.length (letter haystack) t := by
    intro t ht htk
    rcases Nat.lt_or_ge t pos with hlt | hge
    · exact hnone t ht hlt
    · have := hk.none (t-pos) (by omega)
      rwa [show pos+(t-pos) = t by omega] at this
  cases longPeriod with
  | true => exact ⟨pos+k, m', rfl, hm, by omega, hpast⟩
  | false => exact ⟨pos+k, m, rfl, ⟨hk.memory_lt, fun _ => hk.memory⟩, by omega, hpast⟩

theorem Searching.remembered (hs : Searching haystack needle longPeriod self s)
    (hin : s.position+needle.length ≤ haystack.length) (hlong : longPeriod = false) :
    s.memory < needle.length ∧
      ∀ i < s.memory, letter haystack (s.position+i) = letter needle i := by
  obtain ⟨pos, m, rfl, hm, -, -⟩ := hs
  subst hlong
  exact ⟨hm.1, hm.2 hin⟩

theorem right_part
    (hp : Factored (letter needle) needle.length s.critPos s.period (!longPeriod))
    (hin : s.position+needle.length ≤ haystack.length)
    (hm : longPeriod = false → s.memory < needle.length ∧
      ∀ i < s.memory, letter haystack (s.position+i) = letter needle i) :
    (findMismatch needle haystack s.position
      (List.range' (rightStart longPeriod s) (needle.length-rightStart longPeriod s)) =
        some none ∧
      ∀ j, s.critPos ≤ j → j < needle.length →
        letter haystack (s.position+j) = letter needle j) ∨
    ∃ i, findMismatch needle haystack s.position
      (List.range' (rightStart longPeriod s) (needle.length-rightStart longPeriod s)) =
        some (some i) ∧ s.critPos ≤ i ∧ i < needle.length ∧
      Skip (letter needle) needle.length (letter haystack) s.position (i-s.critPos+1) 0 := by
  set start := rightStart longPeriod s with hstart
  unfold rightStart at hstart
  have hcs : s.critPos ≤ start := by rw [hstart]; split_ifs <;> omega
  have hknown : ∀ j, s.critPos ≤ j → j < start →
      letter haystack (s.position+j) = letter needle j := by
    intro j hj hj'
    cases longPeriod with
    | true => simp [hstart] at hj'; omega
    | false =>
      simp only [hstart, Bool.false_eq_true, if_false] at hj'
      exact (hm rfl).2 j (by omega)
  rcases findMismatch_spec (· < ·) (fun _ _ => Nat.lt_asymm) needle haystack s.position
      (List.range' start (needle.length-start)) (List.pairwise_lt_range' _)
      (by intro i hi; rw [List.mem_range'_1] at hi; omega) with ⟨hf, hall⟩ | ⟨i, hi, hf, hne, hall⟩
  · refine .inl ⟨hf, fun j hj hjn => ?_⟩
    rcases Nat.lt_or_ge j start with hlt | hge
    · exact hknown j hj hlt
    · exact hall j (by rw [List.mem_range'_1]; omega)
  · rw [List.mem_range'_1] at hi
    refine .inr ⟨i, hf, by omega, by omega,
      hp.skip_right (by omega) (by omega) (fun j hj hji => ?_) hne⟩
    rcases Nat.lt_or_ge j start with hlt | hge
    · exact hknown j hj hlt
    · exact hall j (by rw [List.mem_range'_1]; omega) hji

theorem left_part
    (hp : Factored (letter needle) needle.length s.critPos s.period (!longPeriod))
    (hin : s.position+needle.length ≤ haystack.length)
    (hm : longPeriod = false → s.memory < needle.length ∧
      ∀ i < s.memory, letter haystack (s.position+i) = letter needle i)
    (hr : ∀ j, s.critPos ≤ j → j < needle.length →
        letter haystack (s.position+j) = letter needle j) :
    (findMismatch needle haystack s.position
      (List.range' (leftStart longPeriod s) (s.critPos-leftStart longPeriod s)).reverse =
        some none ∧
      Occurs (letter needle) needle.length (letter haystack) s.position) ∨
    ∃ i, findMismatch needle haystack s.position
      (List.range' (leftStart longPeriod s) (s.critPos-leftStart longPeriod s)).reverse =
        some (some i) ∧
      Skip (letter needle) needle.length (letter haystack) s.position s.period
        (if longPeriod then 0 else needle.length-s.period) := by
  have hcut := hp.cut_le
  set start := leftStart longPeriod s with hstart
  unfold leftStart at hstart
  rcases findMismatch_spec (fun i j => j < i) (fun _ _ => Nat.lt_asymm) needle haystack s.position
      (List.range' start (s.critPos-start)).reverse
      (List.pairwise_reverse.mpr (List.pairwise_lt_range' _))
      (by intro i hi; rw [List.mem_reverse, List.mem_range'_1] at hi; omega)
    with ⟨hf, hall⟩ | ⟨i, hi, hf, hne, -⟩
  · refine .inl ⟨hf, fun i hi => ?_⟩
    rcases Nat.lt_or_ge i s.critPos with hlt | hge
    · rcases Nat.lt_or_ge i start with hlt' | hge'
      · cases longPeriod with
        | true => simp [hstart] at hlt'
        | false => exact (hm rfl).2 i (by simpa [hstart] using hlt')
      · exact hall i (by rw [List.mem_reverse, List.mem_range'_1]; omega)
    · exact hr i hge hi
  · rw [List.mem_reverse, List.mem_range'_1] at hi
    refine .inr ⟨i, hf, ?_⟩
    have := hp.skip_left hr fun ho => hne (ho i (by omega))
    cases longPeriod <;> simpa using this

theorem Prepared.of_searching (hp : Prepared needle longPeriod self)
    (hs : Searching haystack needle longPeriod self s) : Prepared needle longPeriod s := by
  obtain ⟨pos, m, rfl, -, -, -⟩ := hs
  exact ⟨hp.forward, hp.backward, hp.back_le, hp.bytes⟩

theorem nextBody_round (hp : Prepared needle longPeriod self)
    (hs : Searching haystack needle longPeriod self s) :
    ∃ r, nextBody S haystack needle longPeriod self.position s = some r ∧
      Round (Searching haystack needle longPeriod self) (fun s => haystack.length+1-s.position)
        (Returns S haystack needle longPeriod self) s r := by
  have hn : 0 < needle.length := hp.forward.pos.trans_le hp.forward.le
  have hps := hp.of_searching hs
  -- every skip stays inside the haystack, so the measure decreases
  have hskip {k m : ℕ} (hin : s.position+needle.length ≤ haystack.length)
      (hk : Skip (letter needle) needle.length (letter haystack) s.position k
        (if longPeriod then 0 else m)) :
      Round (Searching haystack needle longPeriod self) (fun s => haystack.length+1-s.position)
        (Returns S haystack needle longPeriod self) s
        (.inl (setMemory longPeriod m { s with position := s.position+k })) := by
    refine ⟨hs.skip hk, ?_⟩
    have h1 := hk.shift_pos
    have h2 := hk.shift_le
    cases longPeriod <;> simp only [setMemory, if_true, Bool.false_eq_true, if_false] <;> omega
  unfold nextBody
  rcases Nat.lt_or_ge (s.position+(needle.length-1)) haystack.length with hin | hout
  · have hin' : s.position+needle.length ≤ haystack.length := by omega
    have hm := hs.remembered hin'
    simp only [getElem?_letter hin]
    by_cases hearly : S.useEarlyReject = true ∧ self.position ≠ s.position
    · rw [if_pos hearly]
      refine ⟨_, rfl, .inr (.inl ⟨hearly.1, hs, rfl, ?_, hin'⟩)⟩
      obtain ⟨pos, m, rfl, -, hle, -⟩ := hs
      exact lt_of_le_of_ne hle hearly.2
    rw [if_neg hearly]
    split_ifs with hbyte
    · refine ⟨_, rfl, hskip hin' ?_⟩
      have : Skip (letter needle) needle.length (letter haystack) s.position needle.length 0 := by
        refine hps.forward.skip_letter fun i hi he => ?_
        rw [he, hps.bytes i hi] at hbyte
        simp at hbyte
      simpa using this
    · rcases right_part hps.forward hin' hm with ⟨hf, hr⟩ | ⟨i, hf, -, -, hk⟩
      · simp only [hf, some_bind]
        rcases left_part hps.forward hin' hm hr with ⟨hf', ho⟩ | ⟨i, hf', hk⟩
        · simp only [hf']
          refine ⟨_, rfl, .inr (.inr ⟨s.position, ?_, ?_⟩)⟩
          · obtain ⟨pos, m, rfl, hm', -, -⟩ := hs
            cases longPeriod with
            | true =>
              simp only [if_true] at hm'
              subst hm'
              rfl
            | false => rfl
          · obtain ⟨pos, m, rfl, -, hle, hnone⟩ := hs
            refine ⟨hle, hin', fun he => ?_, ho, hnone⟩
            by_contra hne
            exact hearly ⟨he, fun h => hne h.symm⟩
        · simp only [hf']
          exact ⟨_, rfl, hskip hin' hk⟩
      · simp only [hf, some_bind]
        exact ⟨_, rfl, hskip hin' (by simpa only [ite_self] using hk)⟩
  · simp only [List.getElem?_eq_none hout]
    obtain ⟨pos, m, rfl, hm, hle, hnone⟩ := hs
    refine ⟨_, rfl, .inl ⟨m, rfl, ?_, ?_⟩⟩
    · split_ifs at hm ⊢
      · exact hm
      · exact hm.1
    · intro t ht htn
      exact hnone t ht (by simp only at hout; omega)

theorem next_returns (hp : Prepared needle longPeriod self)
    (hm : longPeriod = false → Remembers (letter needle) needle.length (letter haystack)
      haystack.length self.position self.memory) :
    ∃ r, next S haystack needle longPeriod self = some r ∧
      Returns S haystack needle longPeriod self r := by
  apply loop_total (Searching haystack needle longPeriod self)
    (fun s => haystack.length+1-s.position) _ (fun s hs => nextBody_round hp hs)
  · refine ⟨self.position, self.memory, rfl, ?_, le_rfl, fun t h1 h2 => by omega⟩
    split_ifs with h
    · rfl
    · exact hm (by simpa using h)
  · omega

end Next

theorem slice_eq_slice_iff (needle : List UInt8) {l q : ℕ} (h : l+q ≤ needle.length) :
    (needle.drop 0).take (l-0) = (needle.drop q).take (q+l-q) ↔
      ∀ i < l, letter needle i = letter needle (i+q) := by
  rw [List.drop_zero, Nat.sub_zero, Nat.add_sub_cancel_left]
  constructor
  · intro he i hi
    have := congrArg (fun v => v[i]?) he
    simp only [List.getElem?_take, hi, if_true, List.getElem?_drop] at this
    rw [getElem?_letter (by omega), getElem?_letter (by omega)] at this
    rw [Option.some.inj this, Nat.add_comm]
  · intro he
    apply List.ext_getElem?
    intro i
    simp only [List.getElem?_take, List.getElem?_drop]
    split_ifs with hi
    · rw [getElem?_letter (by omega), getElem?_letter (by omega), he i hi, Nat.add_comm]
    · rfl

theorem mem_take_period {needle : List UInt8} {p : ℕ} (hp : 0 < p) (hn : p ≤ needle.length)
    (hper : PeriodFrom (letter needle) 0 needle.length p) {i : ℕ} (hi : i < needle.length) :
    letter needle i ∈ needle.take p := by
  have hmod := Nat.mod_lt i hp
  have hle := Nat.mod_le i p
  rw [← hper.sub_dvd (Nat.zero_le _) hle hi (Nat.dvd_sub_mod i)]
  rw [List.mem_iff_getElem?]
  refine ⟨i%p, ?_⟩
  rw [List.getElem?_take, if_pos hmod, getElem?_letter (by omega)]

theorem letter_mem {needle : List UInt8} {i : ℕ} (hi : i < needle.length) :
    letter needle i ∈ needle :=
  List.mem_of_getElem? (getElem?_letter hi)

/-- The state of a fresh searcher. The memory fields tell the two cases apart. -/
structure Fresh (needle : List UInt8) (endPos : ℕ) (longPeriod : Bool) (s : TwoWaySearcher) :
    Prop where
  prepared : Prepared needle longPeriod s
  position : s.position = 0
  endPos : s.endPos = endPos
  memory : s.memory = if longPeriod then usizeMax else 0
  memoryBack : s.memoryBack = if longPeriod then usizeMax else needle.length

theorem prepared_short {needle : List UInt8} {l q : ℕ} (hn : 0 < needle.length)
    (hc : Critical (letter needle) needle.length l)
    (hlt : ∀ s, 0 < s → LocalPeriod (letter needle) needle.length l s → l < s)
    (hq : MinPeriodFrom (letter needle) l needle.length q)
    (he : ∀ i < l, letter needle i = letter needle (i+q)) :
    ∃ bf bt, reverseMaximalSuffix needle q false = some bf ∧
      reverseMaximalSuffix needle q true = some bt ∧
      ∀ s : TwoWaySearcher, s.critPos = l → s.critPosBack = needle.length-max bf bt →
        s.period = q → s.byteset = bytesetCreate (needle.take q) → Prepared needle false s := by
  obtain ⟨hlq, hper, hmin⟩ := short_period hc hlt hq he
  have hle := hq.le
  have hmir := letter_mirror needle
  obtain ⟨bf, hbf, hf⟩ := reverseMaximalSuffix_spec needle q false hn hq.pos (hmir.period hper)
  obtain ⟨bt, hbt, ht⟩ := reverseMaximalSuffix_spec needle q true hn hq.pos (hmir.period hper)
  have hback : max bf bt < needle.length ∧
      Critical (letter needle.reverse) needle.length (max bf bt) ∧
      ∀ s, 0 < s → LocalPeriod (letter needle.reverse) needle.length (max bf bt) s →
        max bf bt < s := by
    rcases Nat.le_total bt bf with h | h
    · rw [Nat.max_eq_left h]
      exact ⟨hf.lt_length hn, critical_max hf ht h⟩
    · rw [Nat.max_eq_right h]
      exact ⟨ht.lt_length hn, critical_max ht hf h⟩
  obtain ⟨hbn, hbc, hblt⟩ := hback
  refine ⟨bf, bt, hbf, hbt, fun s h1 h2 h3 h4 => ⟨?_, ?_, by omega, ?_⟩⟩
  · rw [h1, h3]
    exact ⟨by omega, hc, hq.pos, by omega, hmin, fun _ => ⟨hper, hlq.le⟩⟩
  · rw [h2, h3, show needle.length-(needle.length-max bf bt) = max bf bt by omega]
    refine ⟨hbn.le, hbc, hq.pos, by omega, ?_, fun _ => ⟨hmir.period hper, ?_⟩⟩
    · intro s hs hl
      exact hq.min s hs ((hmir.symm.period (hbc s hs hl)).mono (Nat.zero_le _))
    · exact (hblt q hq.pos fun i _ _ hi => hmir.period hper i (Nat.zero_le _) hi).le
  · intro i hi
    rw [h4]
    exact bytesetContains_create (mem_take_period hq.pos (by omega) hper hi)

theorem prepared_long {needle : List UInt8} {l q : ℕ}
    (hc : Critical (letter needle) needle.length l)
    (hlt : ∀ s, 0 < s → LocalPeriod (letter needle) needle.length l s → l < s)
    (hq : MinPeriodFrom (letter needle) l needle.length q)
    (he : ¬ ∀ i < l, letter needle i = letter needle (i+q)) (s : TwoWaySearcher)
    (h1 : s.critPos = l) (h2 : s.critPosBack = l) (h3 : s.period = max l (needle.length-l)+1)
    (h4 : s.byteset = bytesetCreate needle) : Prepared needle true s := by
  have hle := hq.le
  have hpos := hq.pos
  push Not at he
  have hl : 0 < l := by
    obtain ⟨i, hi, -⟩ := he
    omega
  have hf : Factored (letter needle) needle.length l (max l (needle.length-l)+1) false :=
    ⟨by omega, hc, by omega, by omega, fun s hs hl => long_period hc hlt hq he s hs hl, by simp⟩
  refine ⟨by rwa [h1, h3], ?_, by omega, ?_⟩
  · rw [h2, h3]
    exact (letter_mirror needle).factored hf
  · intro i hi
    rw [h4]
    exact bytesetContains_create (letter_mem hi)

theorem new_fresh (needle : List UInt8) (endPos : ℕ) (hn : 0 < needle.length) :
    ∃ longPeriod s, new needle endPos = some s ∧ Fresh needle endPos longPeriod s := by
  obtain ⟨⟨cf, pf⟩, hcf, hmf, hqf⟩ := maximalSuffix_spec needle false hn
  obtain ⟨⟨ct, pt⟩, hct, hmt, hqt⟩ := maximalSuffix_spec needle true hn
  obtain ⟨l, q, hlq, ⟨hc, hlt⟩, hq⟩ : ∃ l q, (if cf > ct then (cf, pf) else (ct, pt)) = (l, q) ∧
      (Critical (letter needle) needle.length l ∧
        ∀ s, 0 < s → LocalPeriod (letter needle) needle.length l s → l < s) ∧
      MinPeriodFrom (letter needle) l needle.length q := by
    by_cases h : cf > ct
    · exact ⟨cf, pf, if_pos h, critical_max hmf hmt h.le, hqf⟩
    · exact ⟨ct, pt, if_neg h, critical_max hmt hmf (not_lt.mp h), hqt⟩
  have hle := hq.le
  have hu := slice_eq needle (Nat.zero_le l) (by omega)
  have hw := slice_eq needle (Nat.le_add_right q l) (by omega)
  have hiff := slice_eq_slice_iff needle hle
  by_cases he : ∀ i < l, letter needle i = letter needle (i+q)
  · obtain ⟨bf, bt, hbf, hbt, hp⟩ := prepared_short hn hc hlt hq he
    have hword := slice_eq needle (Nat.zero_le q) (by omega)
    refine ⟨false, ⟨l, needle.length-max bf bt, q, bytesetCreate ((needle.drop 0).take (q-0)),
      0, endPos, 0, needle.length⟩, ?_, ?_⟩
    · simp only [new, hcf, hct, hlq, hu, hw, hbf, hbt, hword, if_pos (hiff.mpr he),
        some_bind]
      rfl
    · exact ⟨hp _ rfl rfl rfl (by simp), rfl, rfl, rfl, rfl⟩
  · refine ⟨true, ⟨l, l, max l (needle.length-l)+1, bytesetCreate needle, 0, endPos,
      usizeMax, usizeMax⟩, ?_, ?_⟩
    · simp only [new, hcf, hct, hlq, hu, hw, if_neg (fun h => he (hiff.mp h)),
        some_bind]
      rfl
    · exact ⟨prepared_long hc hlt hq he _ rfl rfl rfl rfl, rfl, rfl, rfl, rfl⟩

/-- The needle stands in the haystack at `p`. -/
def OccursAt (needle haystack : List UInt8) (p : ℕ) : Prop := needle <+: haystack.drop p

theorem occursAt_iff {needle haystack : List UInt8} (hn : 0 < needle.length) (p : ℕ) :
    OccursAt needle haystack p ↔ p+needle.length ≤ haystack.length ∧
      Occurs (letter needle) needle.length (letter haystack) p := by
  have hget (i : ℕ) (hi : i < needle.length) : some needle[i] = some (letter needle i) := by
    rw [← getElem?_letter hi, List.getElem?_eq_getElem hi]
  constructor
  · intro h
    have hl := h.length_le
    rw [List.length_drop] at hl
    refine ⟨by omega, fun i hi => ?_⟩
    have := List.prefix_iff_getElem?.mp h i hi
    rw [List.getElem?_drop, getElem?_letter (by omega), hget i hi] at this
    exact Option.some.inj this
  · rintro ⟨hle, ho⟩
    refine List.prefix_iff_getElem?.mpr fun i hi => ?_
    rw [List.getElem?_drop, getElem?_letter (by omega), hget i hi, ho i hi]

/-- The matches of a search from the left: each time the first occurrence at or
after the end of the previous one. -/
inductive Leftmost (needle haystack : List UInt8) : ℕ → List (ℕ × ℕ) → Prop
  | nil {a : ℕ} (h : ∀ t, a ≤ t → ¬ OccursAt needle haystack t) : Leftmost needle haystack a []
  | cons {a p : ℕ} {ms : List (ℕ × ℕ)} (ha : a ≤ p) (hp : OccursAt needle haystack p)
      (h : ∀ t, a ≤ t → t < p → ¬ OccursAt needle haystack t)
      (hr : Leftmost needle haystack (p+needle.length) ms) :
      Leftmost needle haystack a ((p, p+needle.length) :: ms)

def isLong (self : TwoWaySearcher) : Bool := self.memory == usizeMax

def collectMatches (haystack needle : List UInt8) (fuel : ℕ) (self : TwoWaySearcher) :
    Option (List (ℕ × ℕ)) :=
  collect (fun self => next matchOnly haystack needle (isLong self) self) fuel self

structure Good (haystack needle : List UInt8) (longPeriod : Bool) (s : TwoWaySearcher) : Prop where
  prepared : Prepared needle longPeriod s
  long : isLong s = longPeriod
  remembers : longPeriod = false → Remembers (letter needle) needle.length (letter haystack)
    haystack.length s.position s.memory

theorem Fresh.good {haystack needle : List UInt8} {endPos : ℕ} {longPeriod : Bool}
    {s : TwoWaySearcher} (h : Fresh needle endPos longPeriod s) (hn : 0 < needle.length) :
    Good haystack needle longPeriod s := by
  refine ⟨h.prepared, ?_, ?_⟩
  · cases longPeriod <;> simp [isLong, h.memory, usizeMax]
  · rintro rfl
    simpa [h.memory, Remembers] using hn

theorem Good.after_match {haystack needle : List UInt8} {longPeriod : Bool} {s : TwoWaySearcher}
    (h : Good haystack needle longPeriod s) (pos : ℕ) :
    Good haystack needle longPeriod (setMemory longPeriod 0 { s with position := pos }) := by
  have hp := h.prepared
  have hn : 0 < needle.length := hp.forward.pos.trans_le hp.forward.le
  cases longPeriod with
  | true => exact ⟨⟨hp.forward, hp.backward, hp.back_le, hp.bytes⟩, h.long, by simp⟩
  | false =>
    exact ⟨⟨hp.forward, hp.backward, hp.back_le, hp.bytes⟩, by simp [setMemory, isLong, usizeMax],
      fun _ => by simpa [setMemory, Remembers] using hn⟩

theorem position_setMemory (longPeriod : Bool) (m : ℕ) (s : TwoWaySearcher) :
    (setMemory longPeriod m s).position = s.position := by
  cases longPeriod <;> rfl

theorem collectMatches_leftmost {haystack needle : List UInt8} {longPeriod : Bool} (fuel : ℕ)
    (s : TwoWaySearcher) (h : Good haystack needle longPeriod s)
    (hs : s.position ≤ haystack.length) (hf : haystack.length < s.position+fuel) :
    ∃ ms, collectMatches haystack needle fuel s = some ms ∧
      Leftmost needle haystack s.position ms := by
  have hn : 0 < needle.length := h.prepared.forward.pos.trans_le h.prepared.forward.le
  induction fuel generalizing s with
  | zero => omega
  | succ fuel ih =>
    obtain ⟨r, hr, hret⟩ := next_returns (S := matchOnly) h.prepared h.remembers
    rcases hret with ⟨m, rfl, -, hnone⟩ | ⟨he, -⟩ | ⟨p, rfl, hle, hin, -, ho, hnone⟩
    · refine ⟨[], collect_of_none (by simpa [h.long] using hr) fuel, .nil fun t ht hoc => ?_⟩
      obtain ⟨hle, hoc⟩ := (occursAt_iff hn t).mp hoc
      exact hnone t ht hle hoc
    · simp [matchOnly] at he
    · obtain ⟨ms, hms, hl⟩ := ih _ (h.after_match (p+needle.length))
        (by simpa only [position_setMemory] using hin)
        (by simp only [position_setMemory]; omega)
      refine ⟨(p, p+needle.length) :: ms,
        collect_of_some (by simpa [h.long] using hr) hms, ?_⟩
      · refine .cons hle ((occursAt_iff hn p).mpr ⟨hin, ho⟩) (fun t ht htp hoc => ?_) ?_
        · exact hnone t ht htp ((occursAt_iff hn t).mp hoc).2
        · rwa [position_setMemory] at hl

/-- The searcher finds what a naive search from the left finds, and no index
on the way is out of bounds. -/
theorem twoWay_leftmost (haystack needle : Slice UInt8) (hn : needle.elems ≠ []) :
    ∃ s ms, new needle.elems haystack.elems.length = some s ∧
      collectMatches haystack.elems needle.elems (haystack.elems.length+1) s = some ms ∧
      Leftmost needle.elems haystack.elems 0 ms := by
  have hpos : 0 < needle.elems.length := List.length_pos_iff.mpr hn
  obtain ⟨longPeriod, s, hs, hf⟩ := new_fresh needle.elems haystack.elems.length hpos
  have hp := hf.position
  have hg : Good haystack.elems needle.elems longPeriod s := hf.good hpos
  obtain ⟨ms, hms, hl⟩ := collectMatches_leftmost (haystack.elems.length+1) s hg
    (by omega) (by omega)
  exact ⟨s, ms, hs, hms, hp ▸ hl⟩

theorem twoWay_leftmost_aabaab : ∃ s ms, new [97, 97, 98, 97, 97, 98] 13 = some s ∧
    collectMatches [97, 97, 97, 98, 97, 97, 98, 97, 97, 98, 98, 97, 97]
      [97, 97, 98, 97, 97, 98] 14 s = some ms ∧
    Leftmost [97, 97, 98, 97, 97, 98] [97, 97, 97, 98, 97, 97, 98, 97, 97, 98, 98, 97, 97] 0 ms :=
  twoWay_leftmost ⟨[97, 97, 97, 98, 97, 97, 98, 97, 97, 98, 98, 97, 97], by decide⟩
    ⟨[97, 97, 98, 97, 97, 98], by decide⟩ (by decide)

end RustStd.TwoWay
