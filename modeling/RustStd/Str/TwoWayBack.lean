import RustStd.Str.TwoWay

/-!
# `TwoWaySearcher::next_back`

The search from the right. It runs on the factorization of the reversed
needle, and each of its rounds is a round of the search from the left on the
reversed slices. The state is translated, not the code: `next_back` keeps its
own cursor, its own memory and the wrapping subtraction of its bounds check.
-/

set_option autoImplicit false

namespace RustStd.TwoWay
open RustStd.Loop RustStd.Machine RustStd.Words RustStd.MaximalSuffix

def setMemoryBack (longPeriod : Bool) (m : ℕ) (self : TwoWaySearcher) : TwoWaySearcher :=
  if longPeriod then self else { self with memoryBack := m }

def leftStop (longPeriod : Bool) (self : TwoWaySearcher) : ℕ :=
  if longPeriod then self.critPosBack else min self.critPosBack self.memoryBack

def rightStop (longPeriod : Bool) (needle : List UInt8) (self : TwoWaySearcher) : ℕ :=
  if longPeriod then needle.length else self.memoryBack

def nextBackBody {Output : Type} (S : TwoWayStrategy Output) (haystack needle : List UInt8)
    (longPeriod : Bool) (oldEnd : ℕ) (self : TwoWaySearcher) :
    Option (TwoWaySearcher ⊕ (Output × TwoWaySearcher)) :=
  match haystack[wrappingSub self.endPos needle.length]? with
  | none => some (.inr (S.rejecting 0 oldEnd, { self with endPos := 0 }))
  | some frontByte =>
    if S.useEarlyReject ∧ oldEnd ≠ self.endPos then
      some (.inr (S.rejecting self.endPos oldEnd, self))
    else if !bytesetContains self.byteset frontByte then
      some (.inl (setMemoryBack longPeriod needle.length
        { self with endPos := self.endPos-needle.length }))
    else do
      let crit := leftStop longPeriod self
      match ← findMismatch needle haystack (self.endPos-needle.length)
          (List.range' 0 crit).reverse with
      | some i => return .inl (setMemoryBack longPeriod needle.length
          { self with endPos := self.endPos-(self.critPosBack-i) })
      | none =>
        let needleEnd := rightStop longPeriod needle self
        match ← findMismatch needle haystack (self.endPos-needle.length)
            (List.range' self.critPosBack (needleEnd-self.critPosBack)) with
        | some _ => return .inl (setMemoryBack longPeriod self.period
            { self with endPos := self.endPos-self.period })
        | none =>
          let matchPos := self.endPos-needle.length
          return .inr (S.matching matchPos (matchPos+needle.length),
            setMemoryBack longPeriod needle.length
              { self with endPos := self.endPos-needle.length })

def nextBack {Output : Type} (S : TwoWayStrategy Output) (haystack needle : List UInt8)
    (longPeriod : Bool) (self : TwoWaySearcher) : Option (Output × TwoWaySearcher) :=
  loop (nextBackBody S haystack needle longPeriod self.endPos) (haystack.length+2) self

theorem range'_map_mirror (a m n : ℕ) (h : a+m ≤ n) :
    (List.range' a m).map (fun i => n-1-i) = (List.range' (n-(a+m)) m).reverse := by
  apply List.ext_getElem
  · simp
  · intro i h1 h2
    simp at h1 h2
    simp
    omega

theorem findMismatch_mirror (needle haystack : List UInt8) (e : ℕ) (hn : needle.length ≤ e)
    (he : e ≤ haystack.length) (is : List ℕ) (hi : ∀ i ∈ is, i < needle.length) :
    findMismatch needle haystack (e-needle.length) is =
      (findMismatch needle.reverse haystack.reverse (haystack.length-e)
        (is.map fun i => needle.length-1-i)).map (Option.map fun i => needle.length-1-i) := by
  induction is with
  | nil => rfl
  | cons i is ih =>
    have hin := hi i (by simp)
    have ha : needle.reverse[needle.length-1-i]? = needle[i]? := by
      rw [List.getElem?_reverse (by omega), show needle.length-1-(needle.length-1-i) = i by omega]
    have hb : haystack.reverse[haystack.length-e+(needle.length-1-i)]? =
        haystack[e-needle.length+i]? := by
      rw [List.getElem?_reverse (by omega)]
      congr 1
      omega
    simp only [findMismatch, List.map_cons, ha, hb, ih fun j hj => hi j (by simp [hj]),
      Option.bind_eq_bind]
    cases needle[i]? with
    | none => rfl
    | some a =>
      cases haystack[e-needle.length+i]? with
      | none => rfl
      | some b =>
        by_cases hab : a = b
        · simp [hab]
        · simp [hab]
          omega

/-- The state of the search from the left on the reversed slices. -/
def mirrored (haystack needle : List UInt8) (longPeriod : Bool) (s : TwoWaySearcher) :
    TwoWaySearcher :=
  { s with critPos := needle.length-s.critPosBack, position := haystack.length-s.endPos,
           memory := if longPeriod then s.memoryBack else needle.length-s.memoryBack }

/-- The remembered suffix matches in front of the cursor. It is empty or starts
at the period. -/
def RemembersBack (haystack needle : List UInt8) (period e m : ℕ) : Prop :=
  (m = needle.length ∨ m = period) ∧ Remembers (letter needle.reverse) needle.length (letter haystack.reverse)
    haystack.length (haystack.length-e) (needle.length-m)

def SearchingBack (haystack needle : List UInt8) (longPeriod : Bool) (self s : TwoWaySearcher) :
    Prop :=
  ∃ e m, s = { self with endPos := e, memoryBack := m } ∧
    (if longPeriod then m = self.memoryBack else RemembersBack haystack needle self.period e m) ∧
    e ≤ self.endPos ∧
    ∀ p, e < p+needle.length → p+needle.length ≤ self.endPos →
      ¬ Occurs (letter needle) needle.length (letter haystack) p

/-- What a call of `next_back` that started in `self` returns. -/
def ReturnsBack {Output : Type} (S : TwoWayStrategy Output) (haystack needle : List UInt8)
    (longPeriod : Bool) (self : TwoWaySearcher) (r : Output × TwoWaySearcher) : Prop :=
  (∃ m, r = (S.rejecting 0 self.endPos, { self with endPos := 0, memoryBack := m }) ∧
    (if longPeriod then m = self.memoryBack else RemembersBack haystack needle self.period 0 m) ∧
    ∀ p, p+needle.length ≤ self.endPos →
      ¬ Occurs (letter needle) needle.length (letter haystack) p) ∨
  (S.useEarlyReject = true ∧ SearchingBack haystack needle longPeriod self r.2 ∧
    r.1 = S.rejecting r.2.endPos self.endPos ∧ r.2.endPos < self.endPos ∧
    needle.length ≤ r.2.endPos) ∨
  ∃ p, r = (S.matching p (p+needle.length),
      setMemoryBack longPeriod needle.length { self with endPos := p }) ∧
    p+needle.length ≤ self.endPos ∧
    (S.useEarlyReject = true → p+needle.length = self.endPos) ∧
    Occurs (letter needle) needle.length (letter haystack) p ∧
    ∀ t, p < t → t+needle.length ≤ self.endPos →
      ¬ Occurs (letter needle) needle.length (letter haystack) t

theorem wrappingSub_of_le {a b : ℕ} (h : b ≤ a) (ha : a ≤ isizeMax) : wrappingSub a b = a-b := by
  simp only [wrappingSub, isizeMax] at *
  omega

theorem wrappingSub_of_lt {a b : ℕ} (h : a < b) (hb : b ≤ isizeMax) :
    isizeMax < wrappingSub a b := by
  simp only [wrappingSub, isizeMax] at *
  omega

section NextBack

variable {Output : Type} {S : TwoWayStrategy Output} {haystack needle : List UInt8}
  {longPeriod : Bool} {self s : TwoWaySearcher}

theorem SearchingBack.skip (hs : SearchingBack haystack needle longPeriod self s)
    (hself : self.endPos ≤ haystack.length) {k m : ℕ} (hn : needle.length ≤ s.endPos)
    (hm : m = needle.length ∨ m = s.period)
    (hk : Skip (letter needle.reverse) needle.length (letter haystack.reverse)
      (haystack.length-s.endPos) k (if longPeriod then 0 else needle.length-m)) :
    SearchingBack haystack needle longPeriod self
      (setMemoryBack longPeriod m { s with endPos := s.endPos-k }) := by
  obtain ⟨e, m', rfl, hm', hle, hnone⟩ := hs
  simp only at hn hk
  have h1 := hk.shift_le
  have hpast : ∀ p, e-k < p+needle.length → p+needle.length ≤ self.endPos →
      ¬ Occurs (letter needle) needle.length (letter haystack) p := by
    intro p hp hp'
    rcases Nat.lt_or_ge e (p+needle.length) with hlt | hge
    · exact hnone p hlt hp'
    · have := hk.none (e-(p+needle.length)) (by omega)
      rw [(letter_mirror needle).occurs (letter_mirror haystack) (by omega)] at this
      rwa [show haystack.length-(haystack.length-e+(e-(p+needle.length))+needle.length) = p
        by omega] at this
  cases longPeriod with
  | true => exact ⟨e-k, m', rfl, hm', by omega, hpast⟩
  | false =>
    refine ⟨e-k, m, rfl, ⟨hm, hk.memory_lt, fun _ => ?_⟩, by omega, hpast⟩
    rw [show haystack.length-(e-k) = haystack.length-e+k by omega]
    exact hk.memory

theorem left_loop (hb : s.critPosBack ≤ needle.length) (hn : needle.length ≤ s.endPos)
    (he : s.endPos ≤ haystack.length) :
    findMismatch needle haystack (s.endPos-needle.length) (List.range' 0
      (leftStop longPeriod s)).reverse =
    (findMismatch needle.reverse haystack.reverse (haystack.length-s.endPos)
      (List.range' (rightStart longPeriod (mirrored haystack needle longPeriod s))
        (needle.reverse.length-rightStart longPeriod (mirrored haystack needle longPeriod s)))).map
      (Option.map fun i => needle.length-1-i) := by
  set crit := leftStop longPeriod s with hcrit
  unfold leftStop at hcrit
  have hc : crit ≤ needle.length := by rw [hcrit]; split_ifs <;> omega
  have hr : rightStart longPeriod (mirrored haystack needle longPeriod s) = needle.length-crit := by
    cases longPeriod
    · simp [rightStart, mirrored, hcrit]
      omega
    · simp [rightStart, mirrored, hcrit]
  rw [findMismatch_mirror needle haystack s.endPos hn he _ (by intro i hi; simp at hi; omega),
    List.map_reverse, range'_map_mirror 0 crit needle.length (by omega), List.reverse_reverse, hr,
    List.length_reverse, Nat.zero_add, show needle.length-(needle.length-crit) = crit by omega]

theorem right_loop (hn : needle.length ≤ s.endPos)
    (he : s.endPos ≤ haystack.length) (hm : longPeriod = false → s.memoryBack ≤ needle.length) :
    findMismatch needle haystack (s.endPos-needle.length) (List.range' s.critPosBack
      (rightStop longPeriod needle s-s.critPosBack)) =
    (findMismatch needle.reverse haystack.reverse (haystack.length-s.endPos)
      (List.range' (leftStart longPeriod (mirrored haystack needle longPeriod s))
        ((mirrored haystack needle longPeriod s).critPos-
          leftStart longPeriod (mirrored haystack needle longPeriod s))).reverse).map
      (Option.map fun i => needle.length-1-i) := by
  set stop := rightStop longPeriod needle s with hstop
  unfold rightStop at hstop
  have hc : stop ≤ needle.length := by
    cases longPeriod with
    | true => simp [hstop]
    | false => simpa [hstop] using hm rfl
  have hr : leftStart longPeriod (mirrored haystack needle longPeriod s) = needle.length-stop := by
    cases longPeriod <;> simp [leftStart, mirrored, hstop]
  rw [findMismatch_mirror needle haystack s.endPos hn he _
    (by intro i hi; rw [List.mem_range'_1] at hi; omega), hr]
  rcases Nat.le_total s.critPosBack stop with hle | hle
  · rw [range'_map_mirror s.critPosBack (stop-s.critPosBack) needle.length (by omega)]
    simp only [mirrored]
    rw [show s.critPosBack+(stop-s.critPosBack) = stop by omega,
      show needle.length-s.critPosBack-(needle.length-stop) = stop-s.critPosBack by omega]
  · simp only [mirrored]
    rw [show stop-s.critPosBack = 0 by omega,
      show needle.length-s.critPosBack-(needle.length-stop) = 0 by omega]
    rfl

theorem Prepared.of_searchingBack (hp : Prepared needle longPeriod self)
    (hs : SearchingBack haystack needle longPeriod self s) : Prepared needle longPeriod s := by
  obtain ⟨pos, m, rfl, -, -, -⟩ := hs
  exact ⟨hp.forward, hp.backward, hp.back_le, hp.bytes⟩

theorem SearchingBack.round (hs : SearchingBack haystack needle longPeriod self s)
    (hself : self.endPos ≤ haystack.length) {k m : ℕ} (hn : needle.length ≤ s.endPos)
    (hpos : 0 < needle.length) (hm : m = needle.length ∨ m = s.period)
    (hk : Skip (letter needle.reverse) needle.length (letter haystack.reverse)
      (haystack.length-s.endPos) k (if longPeriod then 0 else needle.length-m)) :
    Round (SearchingBack haystack needle longPeriod self) (fun s => s.endPos)
      (ReturnsBack S haystack needle longPeriod self) s
      (.inl (setMemoryBack longPeriod m { s with endPos := s.endPos-k })) := by
  refine ⟨hs.skip hself hn hm hk, ?_⟩
  have h1 := hk.shift_pos
  cases longPeriod <;> simp only [setMemoryBack, if_true, Bool.false_eq_true, if_false] <;> omega

/-- No window fits in front of the cursor. -/
theorem SearchingBack.returns_none (hs : SearchingBack haystack needle longPeriod self s)
    (hlt : s.endPos < needle.length) :
    ReturnsBack S haystack needle longPeriod self
      (S.rejecting 0 self.endPos, { s with endPos := 0 }) := by
  obtain ⟨e, m, rfl, hm, hle, hnone⟩ := hs
  refine .inl ⟨m, rfl, ?_, ?_⟩
  · split_ifs at hm ⊢
    · exact hm
    · exact ⟨hm.1, hm.2.1, fun hin => by omega⟩
  · intro p hp'
    exact hnone p (by simp only at hlt; omega) hp'

theorem SearchingBack.returns_match (hs : SearchingBack haystack needle longPeriod self s)
    (hn : needle.length ≤ s.endPos) (he : s.endPos ≤ haystack.length)
    (hearly : ¬ (S.useEarlyReject = true ∧ self.endPos ≠ s.endPos))
    (ho : Occurs (letter needle.reverse) needle.length (letter haystack.reverse)
      (haystack.length-s.endPos)) :
    ReturnsBack S haystack needle longPeriod self
      (S.matching (s.endPos-needle.length) (s.endPos-needle.length+needle.length),
        setMemoryBack longPeriod needle.length { s with endPos := s.endPos-needle.length }) := by
  obtain ⟨e, m, rfl, hm, hle, hnone⟩ := hs
  simp only at hn he hearly ho ⊢
  rw [(letter_mirror needle).occurs (letter_mirror haystack) (by omega),
    show haystack.length-(haystack.length-e+needle.length) = e-needle.length by omega] at ho
  refine .inr (.inr ⟨e-needle.length, ?_, by omega, fun he => ?_, ho,
    fun t ht ht' => hnone t (by omega) ht'⟩)
  · cases longPeriod with
    | true =>
      simp only [if_true] at hm
      subst hm
      rfl
    | false => rfl
  · by_contra hne
    exact hearly ⟨he, by omega⟩

/-- A byte that the needle does not have lets the whole window go. -/
theorem Prepared.skip_byte (hps : Prepared needle longPeriod s) (hn : needle.length ≤ s.endPos)
    (he : s.endPos ≤ haystack.length)
    (hbyte : bytesetContains s.byteset (letter haystack (s.endPos-needle.length)) = false) :
    Skip (letter needle.reverse) needle.length (letter haystack.reverse)
      (haystack.length-s.endPos) needle.length 0 := by
  refine hps.backward.skip_letter fun i hi hc => ?_
  rw [letter_mirror haystack _ (by omega), letter_mirror needle _ hi,
    show haystack.length-1-(haystack.length-s.endPos+(needle.length-1)) =
      s.endPos-needle.length by omega] at hc
  rw [hc, hps.bytes _ (by omega)] at hbyte
  cases hbyte

theorem SearchingBack.remembers (hs : SearchingBack haystack needle longPeriod self s)
    (hl : longPeriod = false) : RemembersBack haystack needle s.period s.endPos s.memoryBack := by
  subst hl
  obtain ⟨e, m, rfl, hm, -⟩ := hs
  exact hm

theorem SearchingBack.memoryBack_le (hs : SearchingBack haystack needle longPeriod self s)
    (hps : Prepared needle longPeriod s) (hl : longPeriod = false) :
    s.memoryBack ≤ needle.length := by
  have hle := hps.backward.le
  rcases (hs.remembers hl).1 with h | h <;> omega

theorem SearchingBack.mirrored_memory (hs : SearchingBack haystack needle longPeriod self s)
    (hn : needle.length ≤ s.endPos) (he : s.endPos ≤ haystack.length) (hl : longPeriod = false) :
    (mirrored haystack needle longPeriod s).memory < needle.reverse.length ∧
      ∀ i < (mirrored haystack needle longPeriod s).memory, letter haystack.reverse
        ((mirrored haystack needle longPeriod s).position+i) = letter needle.reverse i := by
  obtain ⟨-, hlt, heq⟩ := hs.remembers hl
  subst hl
  exact ⟨by simpa [mirrored] using hlt, heq (by omega)⟩

/-- The window is compared in both parts, as on the reversed slices. -/
theorem nextBackBody_compare (hps : Prepared needle longPeriod s)
    (hself : self.endPos ≤ haystack.length) (hs : SearchingBack haystack needle longPeriod self s)
    (hn : needle.length ≤ s.endPos) (he : s.endPos ≤ haystack.length)
    (hpos : 0 < needle.length) {c : UInt8}
    (hfront : haystack[wrappingSub s.endPos needle.length]? = some c)
    (hearly : ¬ (S.useEarlyReject = true ∧ self.endPos ≠ s.endPos))
    (hbyte : bytesetContains s.byteset c = true) :
    ∃ r, nextBackBody S haystack needle longPeriod self.endPos s = some r ∧
      Round (SearchingBack haystack needle longPeriod self) (fun s => s.endPos)
        (ReturnsBack S haystack needle longPeriod self) s r := by
  have hf : Factored (letter needle.reverse) needle.reverse.length
      (mirrored haystack needle longPeriod s).critPos
      (mirrored haystack needle longPeriod s).period (!longPeriod) := by
    simpa [mirrored] using hps.backward
  have hin : (mirrored haystack needle longPeriod s).position+needle.reverse.length ≤
      haystack.reverse.length := by
    simp [mirrored]
    omega
  have hm := hs.mirrored_memory hn he
  unfold nextBackBody
  simp only [hfront]
  rw [if_neg hearly, if_neg (by simp [hbyte]), left_loop hps.back_le hn he]
  rcases right_part hf hin hm with ⟨hfind, hr⟩ | ⟨i, hfind, hci, hi, hk⟩
  · simp only [mirrored] at hfind
    simp only [mirrored, hfind, Option.map_some, Option.map_none, some_bind]
    rw [right_loop hn he (hs.memoryBack_le hps)]
    rcases left_part hf hin hm hr with ⟨hfind', ho⟩ | ⟨i, hfind', hk⟩
    · simp only [mirrored] at hfind'
      simp only [mirrored, hfind', Option.map_some, Option.map_none]
      exact ⟨_, rfl, hs.returns_match hn he hearly (by simpa [mirrored] using ho)⟩
    · simp only [mirrored] at hfind'
      simp only [mirrored, hfind', Option.map_some]
      refine ⟨_, rfl, hs.round hself hn hpos (.inr rfl) ?_⟩
      simpa [mirrored] using hk
  · simp only [mirrored] at hfind
    simp only [mirrored, hfind, Option.map_some, some_bind]
    refine ⟨_, rfl, hs.round hself hn hpos (.inl rfl) ?_⟩
    simp only [mirrored, List.length_reverse] at hk hci hi
    have hb := hps.back_le
    rw [show s.critPosBack-(needle.length-1-i) = i-(needle.length-s.critPosBack)+1 by omega]
    simpa using hk

theorem nextBackBody_round (hp : Prepared needle longPeriod self)
    (hself : self.endPos ≤ haystack.length) (hlen : haystack.length ≤ isizeMax)
    (hnlen : needle.length ≤ isizeMax)
    (hs : SearchingBack haystack needle longPeriod self s) :
    ∃ r, nextBackBody S haystack needle longPeriod self.endPos s = some r ∧
      Round (SearchingBack haystack needle longPeriod self) (fun s => s.endPos)
        (ReturnsBack S haystack needle longPeriod self) s r := by
  have hpos : 0 < needle.length := hp.forward.pos.trans_le hp.forward.le
  have hps := hp.of_searchingBack hs
  have hle : s.endPos ≤ self.endPos := by
    obtain ⟨e, m, rfl, -, hle, -⟩ := hs
    exact hle
  have he : s.endPos ≤ haystack.length := hle.trans hself
  rcases Nat.lt_or_ge s.endPos needle.length with hlt | hn
  · have hw := wrappingSub_of_lt hlt hnlen
    rw [nextBackBody, List.getElem?_eq_none (by omega)]
    exact ⟨_, rfl, hs.returns_none hlt⟩
  have hfront : haystack[wrappingSub s.endPos needle.length]? =
      some (letter haystack (s.endPos-needle.length)) := by
    rw [wrappingSub_of_le hn (he.trans hlen), getElem?_letter (by omega)]
  by_cases hearly : S.useEarlyReject = true ∧ self.endPos ≠ s.endPos
  · simp only [nextBackBody, hfront]
    rw [if_pos hearly]
    exact ⟨_, rfl, .inr (.inl ⟨hearly.1, hs, rfl, lt_of_le_of_ne hle (Ne.symm hearly.2), hn⟩)⟩
  rcases Bool.eq_false_or_eq_true
    (bytesetContains s.byteset (letter haystack (s.endPos-needle.length))) with hbyte | hbyte
  · exact nextBackBody_compare hps hself hs hn he hpos hfront hearly hbyte
  · simp only [nextBackBody, hfront]
    rw [if_neg hearly, if_pos (by simp [hbyte])]
    refine ⟨_, rfl, hs.round hself hn hpos (.inl rfl) ?_⟩
    simpa using hps.skip_byte hn he hbyte

theorem nextBack_returns (hp : Prepared needle longPeriod self)
    (hself : self.endPos ≤ haystack.length) (hlen : haystack.length ≤ isizeMax)
    (hnlen : needle.length ≤ isizeMax)
    (hm : longPeriod = false → RemembersBack haystack needle self.period self.endPos self.memoryBack) :
    ∃ r, nextBack S haystack needle longPeriod self = some r ∧
      ReturnsBack S haystack needle longPeriod self r := by
  apply loop_total (SearchingBack haystack needle longPeriod self) (fun s => s.endPos) _
    (fun s hs => nextBackBody_round hp hself hlen hnlen hs)
  · refine ⟨self.endPos, self.memoryBack, rfl, ?_, le_rfl, fun t h1 h2 => by omega⟩
    split_ifs with h
    · rfl
    · exact hm (by simpa using h)
  · omega

end NextBack

/-- The matches of a search from the right: each time the last occurrence that
ends at or before the start of the previous one. -/
inductive Rightmost (needle haystack : List UInt8) : ℕ → List (ℕ × ℕ) → Prop
  | nil {b : ℕ} (h : ∀ t, t+needle.length ≤ b → ¬ OccursAt needle haystack t) :
      Rightmost needle haystack b []
  | cons {b p : ℕ} {ms : List (ℕ × ℕ)} (hb : p+needle.length ≤ b)
      (hp : OccursAt needle haystack p)
      (h : ∀ t, p < t → t+needle.length ≤ b → ¬ OccursAt needle haystack t)
      (hr : Rightmost needle haystack p ms) :
      Rightmost needle haystack b ((p, p+needle.length) :: ms)

def collectMatchesBack (haystack needle : List UInt8) (fuel : ℕ) (self : TwoWaySearcher) :
    Option (List (ℕ × ℕ)) :=
  collect (fun self => nextBack matchOnly haystack needle (isLong self) self) fuel self

structure GoodBack (haystack needle : List UInt8) (longPeriod : Bool) (s : TwoWaySearcher) :
    Prop where
  prepared : Prepared needle longPeriod s
  long : isLong s = longPeriod
  inside : s.endPos ≤ haystack.length
  remembers : longPeriod = false → RemembersBack haystack needle s.period s.endPos s.memoryBack

theorem remembersBack_self {haystack needle : List UInt8} (hn : 0 < needle.length)
    (period e : ℕ) : RemembersBack haystack needle period e needle.length :=
  ⟨.inl rfl, by simpa using hn, by simp⟩

theorem Fresh.goodBack {haystack needle : List UInt8} {longPeriod : Bool}
    {s : TwoWaySearcher} (h : Fresh needle haystack.length longPeriod s) (hn : 0 < needle.length) :
    GoodBack haystack needle longPeriod s := by
  have hg : Good haystack needle longPeriod s := h.good hn
  refine ⟨h.prepared, hg.long, h.endPos.le, ?_⟩
  rintro rfl
  simpa [h.memoryBack] using remembersBack_self hn s.period s.endPos

theorem GoodBack.after_match {haystack needle : List UInt8} {longPeriod : Bool}
    {s : TwoWaySearcher} (h : GoodBack haystack needle longPeriod s) {pos : ℕ}
    (hpos : pos ≤ s.endPos) :
    GoodBack haystack needle longPeriod
      (setMemoryBack longPeriod needle.length { s with endPos := pos }) := by
  have hp := h.prepared
  have hn : 0 < needle.length := hp.forward.pos.trans_le hp.forward.le
  have hin := hpos.trans h.inside
  cases longPeriod with
  | true => exact ⟨⟨hp.forward, hp.backward, hp.back_le, hp.bytes⟩, h.long, hin, by simp⟩
  | false =>
    exact ⟨⟨hp.forward, hp.backward, hp.back_le, hp.bytes⟩, h.long, hin,
      fun _ => remembersBack_self hn s.period pos⟩

theorem endPos_setMemoryBack (longPeriod : Bool) (m : ℕ) (s : TwoWaySearcher) :
    (setMemoryBack longPeriod m s).endPos = s.endPos := by
  cases longPeriod <;> rfl

theorem collectMatchesBack_rightmost {haystack needle : List UInt8} {longPeriod : Bool}
    (hlen : haystack.length ≤ isizeMax) (hnlen : needle.length ≤ isizeMax) (fuel : ℕ)
    (s : TwoWaySearcher) (h : GoodBack haystack needle longPeriod s) (hf : s.endPos < fuel) :
    ∃ ms, collectMatchesBack haystack needle fuel s = some ms ∧
      Rightmost needle haystack s.endPos ms := by
  have hn : 0 < needle.length := h.prepared.forward.pos.trans_le h.prepared.forward.le
  induction fuel generalizing s with
  | zero => omega
  | succ fuel ih =>
    obtain ⟨r, hr, hret⟩ :=
      nextBack_returns (S := matchOnly) h.prepared h.inside hlen hnlen h.remembers
    rcases hret with ⟨m, rfl, -, hnone⟩ | ⟨he, -⟩ | ⟨p, rfl, hle, -, ho, hnone⟩
    · refine ⟨[], collect_of_none (by simpa [h.long] using hr) fuel, .nil fun t ht hoc => ?_⟩
      exact hnone t ht ((occursAt_iff hn t).mp hoc).2
    · simp [matchOnly] at he
    · have hin := h.inside
      obtain ⟨ms, hms, hl⟩ := ih _ (h.after_match (show p ≤ s.endPos by omega))
        (by simp only [endPos_setMemoryBack]; omega)
      refine ⟨(p, p+needle.length) :: ms,
        collect_of_some (by simpa [h.long] using hr) hms, ?_⟩
      · refine .cons hle ((occursAt_iff hn p).mpr ⟨by omega, ho⟩) (fun t ht htp hoc => ?_) ?_
        · exact hnone t ht htp ((occursAt_iff hn t).mp hoc).2
        · rwa [endPos_setMemoryBack] at hl

/-- The search from the right finds what a naive search from the right finds. No
index is out of bounds, and the assertion on the period of the reversed needle
holds, since it would stop `new`. -/
theorem twoWay_rightmost (haystack needle : Slice UInt8) (hn : needle.elems ≠ []) :
    ∃ s ms, new needle.elems haystack.elems.length = some s ∧
      collectMatchesBack haystack.elems needle.elems (haystack.elems.length+1) s = some ms ∧
      Rightmost needle.elems haystack.elems haystack.elems.length ms := by
  have hpos : 0 < needle.elems.length := List.length_pos_iff.mpr hn
  obtain ⟨longPeriod, s, hs, hf⟩ := new_fresh needle.elems haystack.elems.length hpos
  have he := hf.endPos
  obtain ⟨ms, hms, hl⟩ := collectMatchesBack_rightmost haystack.len_le needle.len_le
    (haystack.elems.length+1) s (hf.goodBack hpos) (by omega)
  exact ⟨s, ms, hs, hms, he ▸ hl⟩

theorem twoWay_rightmost_aabaab : ∃ s ms, new [97, 97, 98, 97, 97, 98] 13 = some s ∧
    collectMatchesBack [97, 97, 97, 98, 97, 97, 98, 97, 97, 98, 98, 97, 97]
      [97, 97, 98, 97, 97, 98] 14 s = some ms ∧
    Rightmost [97, 97, 98, 97, 97, 98] [97, 97, 97, 98, 97, 97, 98, 97, 97, 98, 98, 97, 97] 13
      ms :=
  twoWay_rightmost ⟨[97, 97, 97, 98, 97, 97, 98, 97, 97, 98, 98, 97, 97], by decide⟩
    ⟨[97, 97, 98, 97, 97, 98], by decide⟩ (by decide)

end RustStd.TwoWay
