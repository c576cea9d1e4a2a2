import RustStd.Str.Memchr
import RustStd.Str.CharSearcher

/-!
# Any order of calls on a `CharSearcher`

`next` and `next_back` look at one char, `next_match` and `next_match_back` search for
the needle. After each call the fingers stand at chars again, and what has been reported
from the front lies before what has been reported from the back.
-/

set_option autoImplicit false

namespace RustStd.CharPattern.CharSearcher
open RustStd.Utf8Grammar RustStd.Chars RustStd.StrIter
open RustStd.TwoWay (SearchStep)

def next (self : CharSearcher) : Option (SearchStep × CharSearcher) := do
  let oldFinger := self.finger
  let slice ← get self.haystack oldFinger self.fingerBack
  let iter := chars slice
  let oldLen := iter.iter.length
  match ← iter.next with
  | (some ch, iter) =>
    let self := { self with finger := self.finger+(oldLen-iter.iter.length) }
    return (if ch = self.needle then .Match oldFinger self.finger
      else .Reject oldFinger self.finger, self)
  | (none, _) => return (.Done, self)

def nextBack (self : CharSearcher) : Option (SearchStep × CharSearcher) := do
  let oldFinger := self.fingerBack
  let slice ← get self.haystack self.finger oldFinger
  let iter := chars slice
  let oldLen := iter.iter.length
  match ← iter.nextBack with
  | (some ch, iter) =>
    let self := { self with fingerBack := self.fingerBack-(oldLen-iter.iter.length) }
    return (if ch = self.needle then .Match self.fingerBack oldFinger
      else .Reject self.fingerBack oldFinger, self)
  | (none, _) => return (.Done, self)

inductive Call
  | next
  | nextMatch
  | nextBack
  | nextMatchBack
  deriving DecidableEq, Repr

inductive Answer
  | step (s : SearchStep)
  | found (interval : Option (ℕ × ℕ))
  deriving DecidableEq, Repr

def call : Call → CharSearcher → Option (Answer × CharSearcher)
  | .next, s => (next s).map fun (r, s) => (.step r, s)
  | .nextMatch, s => (nextMatch s).map fun (r, s) => (.found r, s)
  | .nextBack, s => (nextBack s).map fun (r, s) => (.step r, s)
  | .nextMatchBack, s => (nextMatchBack s).map fun (r, s) => (.found r, s)

structure Event where
  call : Call
  before : CharSearcher
  answer : Answer
  after : CharSearcher

def run : List Call → CharSearcher → Option (List Event)
  | [], _ => some []
  | c :: cs, s => do
    let (answer, s') ← call c s
    let events ← run cs s'
    return ⟨c, s, answer, s'⟩ :: events

def Answer.interval : Answer → Option (ℕ × ℕ)
  | .step (.Match i j) => some (i, j)
  | .step (.Reject i j) => some (i, j)
  | .step .Done => none
  | .found interval => interval

def Call.forward : Call → Bool
  | .next => true
  | .nextMatch => true
  | .nextBack => false
  | .nextMatchBack => false

def Event.front (e : Event) : Option (ℕ × ℕ) := if e.call.forward then e.answer.interval else none

def Event.back (e : Event) : Option (ℕ × ℕ) := if e.call.forward then none else e.answer.interval

/-- The char stands in the text at the byte `k`. -/
def CharAt (c : Char) (cs : List Char) (k : ℕ) : Prop := ∃ xs ys, cs = xs ++ c :: ys ∧ size xs = k

def Answers (n : Char) (cs : List Char) (s s' : CharSearcher) : Call → Answer → Prop
  | .next, .step .Done => s.finger = s.fingerBack ∧ s' = s
  | .next, .step (.Match i j) => i = s.finger ∧ CharAt n cs i ∧ j = i+size [n] ∧
    s' = { s with finger := j }
  | .next, .step (.Reject i j) => i = s.finger ∧ (∃ c ≠ n, CharAt c cs i ∧ j = i+size [c]) ∧
    s' = { s with finger := j }
  | .nextMatch, .found (some (i, j)) => s.finger ≤ i ∧ CharAt n cs i ∧ j = i+size [n] ∧
    (∀ k, CharAt n cs k → s.finger ≤ k → i ≤ k) ∧ s' = { s with finger := j }
  | .nextMatch, .found none => (∀ k, CharAt n cs k → s.finger ≤ k → s.fingerBack ≤ k) ∧
    s' = { s with finger := s.fingerBack }
  | .nextBack, .step .Done => s.finger = s.fingerBack ∧ s' = s
  | .nextBack, .step (.Match i j) => j = s.fingerBack ∧ CharAt n cs i ∧ j = i+size [n] ∧
    s' = { s with fingerBack := i }
  | .nextBack, .step (.Reject i j) => j = s.fingerBack ∧ (∃ c ≠ n, CharAt c cs i ∧ j = i+size [c]) ∧
    s' = { s with fingerBack := i }
  | .nextMatchBack, .found (some (i, j)) => j ≤ s.fingerBack ∧ CharAt n cs i ∧ j = i+size [n] ∧
    (∀ k, CharAt n cs k → k < s.fingerBack → k ≤ i) ∧ s' = { s with fingerBack := i }
  | .nextMatchBack, .found none => (∀ k, CharAt n cs k → s.finger ≤ k → s.fingerBack ≤ k) ∧
    s' = { s with fingerBack := s.finger }
  | _, _ => False

/-- The fingers stand at chars and have not crossed. -/
structure Fingers (cs : List Char) (s : CharSearcher) : Prop where
  le : s.finger ≤ s.fingerBack
  finger : isCharBoundary (encoded cs) s.finger = true
  fingerBack : isCharBoundary (encoded cs) s.fingerBack = true

/-- The searcher still looks at `ds`. -/
structure Scan (n : Char) (s : CharSearcher) (b ds a : List Char) : Prop where
  window : Window n s b ds a
  needle : s.needle = n

section Scans
variable {n : Char} {s : CharSearcher} {b ds a : List Char} {c : Char}

theorem boundary_size (b a : List Char) : isCharBoundary (encoded (b ++ a)) (size b) = true := by
  rw [isCharBoundary_iff (encoded_wellFormed _), encoded_append, size, List.take_left,
    List.length_append]
  exact ⟨Nat.le_add_right .., encoded_wellFormed b⟩

theorem Scan.fingers (h : Scan n s b ds a) : Fingers (b ++ ds ++ a) s := by
  refine ⟨h.window.valid.finger, ?_, ?_⟩
  · rw [h.window.finger, List.append_assoc]
    exact boundary_size b (ds ++ a)
  · rw [h.window.fingerBack]
    exact boundary_size (b ++ ds) a

theorem Scan.get_eq (h : Scan n s b ds a) : get s.haystack s.finger s.fingerBack = some (encoded ds) := by
  rw [h.window.valid.get_window, CharSearcher.window, h.window.haystack, h.window.finger, h.window.fingerBack,
    encoded_append (b ++ ds) a, size, size, List.take_left, encoded_append, List.drop_left]

theorem charAt_window (c : Char) (b us vs a : List Char) :
    CharAt c (b ++ (us ++ c :: vs) ++ a) (size (b ++ us)) :=
  ⟨b ++ us, vs ++ a, by simp, rfl⟩

theorem CharAt.first {us r : List Char} {k : ℕ} (h : CharAt n (b ++ us ++ r) k) (hn : n ∉ us)
    (hk : size b ≤ k) : size (b ++ us) ≤ k := by
  obtain ⟨xs, ys, hcs, rfl⟩ := h
  have hend : EndsAt n (b ++ us ++ r) (size xs+size [n]) := ⟨xs, ys, hcs, rfl⟩
  have hpos := size_pos n
  have hout := hend.outside hn
  omega

theorem CharAt.last {us r : List Char} {k : ℕ} (h : CharAt n (b ++ us ++ r) k) (hn : n ∉ us)
    (hk : k < size (b ++ us)) : k+size [n] ≤ size b := by
  obtain ⟨xs, ys, hcs, rfl⟩ := h
  have hend : EndsAt n (b ++ us ++ r) (size xs+size [n]) := ⟨xs, ys, hcs, rfl⟩
  have hout := hend.outside hn
  omega

def Works (n : Char) (s : CharSearcher) (cs : List Char) (c : Call) : Prop :=
  ∃ answer s' b ds a, call c s = some (answer, s') ∧ Scan n s' b ds a ∧ b ++ ds ++ a = cs ∧
    Answers n cs s s' c answer

theorem length_chars_sub (c : Char) (ds : List Char) :
    (chars (encoded (c :: ds))).iter.length-(chars (encoded ds)).iter.length = size [c] := by
  change (encoded (c :: ds)).length-(encoded ds).length = size [c]
  rw [encoded_cons, List.length_append, size_singleton]
  omega

theorem length_chars_concat_sub (c : Char) (ds : List Char) :
    (chars (encoded (ds ++ [c]))).iter.length-(chars (encoded ds)).iter.length = size [c] := by
  change (encoded (ds ++ [c])).length-(encoded ds).length = size [c]
  rw [encoded_concat, List.length_append, size_singleton]
  omega

theorem Scan.next_cons (h : Scan n s b (c :: ds) a) :
    CharSearcher.next s = some (if c = n then .Match s.finger (s.finger+size [c])
      else .Reject s.finger (s.finger+size [c]), { s with finger := s.finger+size [c] }) := by
  have hchar : Chars.next (chars (encoded (c :: ds))) = some (some c, chars (encoded ds)) :=
    Chars.next_encoded c (encoded ds)
  simp only [CharSearcher.next, h.get_eq, some_bind, hchar,
    length_chars_sub, h.needle]
  rfl

theorem Scan.nextBack_concat (h : Scan n s b (ds ++ [c]) a) :
    CharSearcher.nextBack s = some (if c = n then .Match (s.fingerBack-size [c]) s.fingerBack
      else .Reject (s.fingerBack-size [c]) s.fingerBack,
      { s with fingerBack := s.fingerBack-size [c] }) := by
  have hchar : Chars.nextBack (chars (encoded (ds ++ [c]))) = some (some c, chars (encoded ds)) := by
    rw [chars, encoded_concat]
    exact Chars.nextBack_encoded c (encoded ds)
  simp only [CharSearcher.nextBack, h.get_eq, some_bind, hchar,
    length_chars_concat_sub, h.needle]
  rfl

theorem Scan.next_works (h : Scan n s b ds a) : Works n s (b ++ ds ++ a) .next := by
  cases ds with
  | nil =>
    refine ⟨.step .Done, s, b, [], a, ?_, h, rfl, ?_, rfl⟩
    · simp only [call, CharSearcher.next, h.get_eq, some_bind]
      rfl
    · rw [h.window.finger, h.window.fingerBack, List.append_nil]
  | cons c ds =>
    have hnew : Scan n { s with finger := s.finger+size [c] } (b ++ [c]) ds a := by
      refine ⟨⟨by simpa using h.window.haystack, ?_, by simpa using h.window.fingerBack,
        h.window.utf8Size, h.window.utf8Encoded⟩, h.needle⟩
      rw [size_append, ← h.window.finger]
    have hat : CharAt c (b ++ c :: ds ++ a) s.finger := by
      have := charAt_window c b [] ds a
      rwa [List.append_nil, ← h.window.finger] at this
    refine ⟨_, _, _, _, _, by rw [call, h.next_cons]; rfl, hnew, by simp, ?_⟩
    by_cases hc : c = n
    · rw [if_pos hc]
      subst hc
      exact ⟨rfl, hat, rfl, rfl⟩
    · rw [if_neg hc]
      exact ⟨rfl, ⟨c, hc, hat, rfl⟩, rfl⟩

theorem Scan.nextBack_works (h : Scan n s b ds a) : Works n s (b ++ ds ++ a) .nextBack := by
  rcases List.eq_nil_or_concat' ds with rfl | ⟨ds, c, rfl⟩
  · refine ⟨.step .Done, s, b, [], a, ?_, h, rfl, ?_, rfl⟩
    · simp only [call, CharSearcher.nextBack, h.get_eq, some_bind]
      rfl
    · rw [h.window.finger, h.window.fingerBack, List.append_nil]
  · have hback : s.fingerBack = size (b ++ ds)+size [c] := by
      rw [h.window.fingerBack, ← List.append_assoc, size_append]
    have hnew : Scan n { s with fingerBack := s.fingerBack-size [c] } b ds (c :: a) := by
      refine ⟨⟨by simpa using h.window.haystack, h.window.finger, ?_, h.window.utf8Size,
        h.window.utf8Encoded⟩, h.needle⟩
      rw [hback, Nat.add_sub_cancel]
    have hat : CharAt c (b ++ (ds ++ [c]) ++ a) (s.fingerBack-size [c]) := by
      have := charAt_window c b ds [] a
      rwa [hback, Nat.add_sub_cancel]
    have hend : s.fingerBack = s.fingerBack-size [c]+size [c] := by omega
    refine ⟨_, _, _, _, _, by rw [call, h.nextBack_concat]; rfl, hnew, by simp, ?_⟩
    by_cases hc : c = n
    · rw [if_pos hc]
      subst hc
      exact ⟨rfl, hat, hend, rfl⟩
    · rw [if_neg hc]
      exact ⟨rfl, ⟨c, hc, hat, hend⟩, rfl⟩

theorem Scan.none_inside (h : Scan n s b ds a) (hn : n ∉ ds) {k : ℕ}
    (hk : CharAt n (b ++ ds ++ a) k) (hf : s.finger ≤ k) : s.fingerBack ≤ k := by
  rw [h.window.finger] at hf
  rw [h.window.fingerBack]
  exact hk.first hn hf

theorem Scan.nextMatch_works (h : Scan n s b ds a) : Works n s (b ++ ds ++ a) .nextMatch := by
  by_cases hn : n ∈ ds
  · obtain ⟨us, vs, rfl, hus⟩ := List.eq_append_cons_of_mem hn
    obtain ⟨hfound, hnew⟩ := h.window.nextMatch_some hus
    refine ⟨.found (some (size (b ++ us), size (b ++ us ++ [n]))), _, _, _, _, ?_, ⟨hnew, h.needle⟩,
      by simp, ?_, charAt_window n b us vs a, size_append .., ?_, rfl⟩
    · rw [call, hfound]
      rfl
    · rw [h.window.finger, size_append]
      exact Nat.le_add_right ..
    · intro k hk hf
      rw [h.window.finger] at hf
      rw [← List.append_assoc, List.append_assoc] at hk
      exact hk.first hus hf
  · obtain ⟨hfound, hnew⟩ := h.window.nextMatch_none hn
    refine ⟨.found none, _, _, _, _, ?_, ⟨hnew, h.needle⟩, by simp,
      fun k hk hf => h.none_inside hn hk hf, rfl⟩
    rw [call, hfound]
    rfl

theorem exists_last (hn : n ∈ ds) : ∃ us vs, ds = us ++ n :: vs ∧ n ∉ vs := by
  obtain ⟨vs, us, heq, hvs⟩ := List.eq_append_cons_of_mem (List.mem_reverse.mpr hn)
  refine ⟨us.reverse, vs.reverse, ?_, by simpa using hvs⟩
  rw [← List.reverse_reverse ds, heq]
  simp

theorem Scan.nextMatchBack_works (h : Scan n s b ds a) : Works n s (b ++ ds ++ a) .nextMatchBack := by
  by_cases hn : n ∈ ds
  · obtain ⟨us, vs, rfl, hvs⟩ := exists_last hn
    obtain ⟨hfound, hnew⟩ := h.window.nextMatchBack_some hvs
    refine ⟨.found (some (size (b ++ us), size (b ++ us ++ [n]))), _, _, _, _, ?_, ⟨hnew, h.needle⟩,
      by simp, ?_, charAt_window n b us vs a, size_append .., ?_, rfl⟩
    · rw [call, hfound]
      rfl
    · rw [h.window.fingerBack]
      apply size_le_of_isPrefix
      exact ⟨vs, by simp⟩
    · intro k hk hf
      rw [h.window.fingerBack] at hf
      have hle := CharAt.last (b := b ++ us ++ [n]) (r := a) (by simpa using hk) hvs (by simpa using hf)
      rw [size_append _ [n]] at hle
      omega
  · obtain ⟨hfound, hnew⟩ := h.window.nextMatchBack_none hn
    refine ⟨.found none, _, _, _, _, ?_, ⟨hnew, h.needle⟩, by simp,
      fun k hk hf => h.none_inside hn hk hf, rfl⟩
    rw [call, hfound]
    rfl

theorem Scan.works (h : Scan n s b ds a) (c : Call) : Works n s (b ++ ds ++ a) c := by
  cases c with
  | next => exact h.next_works
  | nextMatch => exact h.nextMatch_works
  | nextBack => exact h.nextBack_works
  | nextMatchBack => exact h.nextMatchBack_works

theorem Answers.cut {s' : CharSearcher} {cs : List Char} {call : Call} {answer : Answer} {i j : ℕ}
    (h : Answers n cs s s' call answer) (hi : answer.interval = some (i, j)) :
    if call.forward then s.finger ≤ i ∧ j = s'.finger ∧ s'.fingerBack = s.fingerBack
    else j ≤ s.fingerBack ∧ i = s'.fingerBack ∧ s'.finger = s.finger := by
  cases call <;> rcases answer with (⟨x, y⟩ | ⟨x, y⟩ | _) | (_ | ⟨x, y⟩) <;> cases hi <;>
    first | exact h.elim | skip
  · obtain ⟨rfl, -, -, rfl⟩ := h
    exact ⟨le_rfl, rfl, rfl⟩
  · obtain ⟨rfl, -, rfl⟩ := h
    exact ⟨le_rfl, rfl, rfl⟩
  · obtain ⟨hle, -, -, -, rfl⟩ := h
    exact ⟨hle, rfl, rfl⟩
  · obtain ⟨rfl, -, -, rfl⟩ := h
    exact ⟨le_rfl, rfl, rfl⟩
  · obtain ⟨rfl, -, rfl⟩ := h
    exact ⟨le_rfl, rfl, rfl⟩
  · obtain ⟨hle, -, -, -, rfl⟩ := h
    exact ⟨hle, rfl, rfl⟩

theorem Answers.shrinks {s' : CharSearcher} {cs : List Char} {call : Call} {answer : Answer}
    (h : Answers n cs s s' call answer) (hf : Fingers cs s) (hf' : Fingers cs s') :
    s.finger ≤ s'.finger ∧ s'.fingerBack ≤ s.fingerBack := by
  have hle := hf.le
  have hle' := hf'.le
  cases call <;> rcases answer with (⟨x, y⟩ | ⟨x, y⟩ | _) | (_ | ⟨x, y⟩) <;>
    first | exact h.elim | skip
  · obtain ⟨rfl, -, rfl, rfl⟩ := h
    exact ⟨Nat.le_add_right .., le_rfl⟩
  · obtain ⟨rfl, ⟨c, -, -, rfl⟩, rfl⟩ := h
    exact ⟨Nat.le_add_right .., le_rfl⟩
  · obtain ⟨-, rfl⟩ := h
    exact ⟨le_rfl, le_rfl⟩
  · obtain ⟨-, rfl⟩ := h
    exact ⟨hle, le_rfl⟩
  · obtain ⟨hx, -, rfl, -, rfl⟩ := h
    exact ⟨hx.trans (Nat.le_add_right ..), le_rfl⟩
  · obtain ⟨rfl, -, hy, rfl⟩ := h
    exact ⟨le_rfl, by simp only; omega⟩
  · obtain ⟨rfl, ⟨c, -, -, hy⟩, rfl⟩ := h
    exact ⟨le_rfl, by simp only; omega⟩
  · obtain ⟨-, rfl⟩ := h
    exact ⟨le_rfl, le_rfl⟩
  · obtain ⟨-, rfl⟩ := h
    exact ⟨le_rfl, hle⟩
  · obtain ⟨hy, -, rfl, -, rfl⟩ := h
    exact ⟨le_rfl, by simp only; omega⟩

end Scans

/-- What has been reported, from the front and then from the back, in the order of the text. -/
def reported (events : List Event) : List (ℕ × ℕ) :=
  events.filterMap Event.front ++ (events.filterMap Event.back).reverse

/-- The first event's interval lies outside of those of the later events. -/
theorem reported_cons {n : Char} {cs : List Char} {e : Event} {events : List Event}
    (ha : Answers n cs e.before e.after e.call e.answer) (hf : Fingers cs e.before)
    (hf' : Fingers cs e.after)
    (hin : ∀ p ∈ reported events, e.after.finger ≤ p.1 ∧ p.2 ≤ e.after.fingerBack)
    (hp : (reported events).Pairwise fun p q => p.2 ≤ q.1) :
    (∀ p ∈ reported (e :: events), e.before.finger ≤ p.1 ∧ p.2 ≤ e.before.fingerBack) ∧
      (reported (e :: events)).Pairwise fun p q => p.2 ≤ q.1 := by
  obtain ⟨hlow, hhigh⟩ := ha.shrinks hf hf'
  have hwide : ∀ p ∈ reported events, e.before.finger ≤ p.1 ∧ p.2 ≤ e.before.fingerBack :=
    fun p hp => ⟨hlow.trans (hin p hp).1, (hin p hp).2.trans hhigh⟩
  cases hi : e.answer.interval with
  | none =>
    have hsame : reported (e :: events) = reported events := by
      simp only [reported, List.filterMap_cons, Event.front, Event.back, hi, ite_self]
    rw [hsame]
    exact ⟨hwide, hp⟩
  | some interval =>
    obtain ⟨i, j⟩ := interval
    have hcut := ha.cut hi
    have hle := hf'.le
    cases hforward : e.call.forward with
    | true =>
      rw [hforward, if_pos rfl] at hcut
      obtain ⟨hi', rfl, hsame⟩ := hcut
      have hnew : reported (e :: events) = (i, e.after.finger) :: reported events := by
        simp [reported, Event.front, Event.back, hi, hforward]
      rw [hnew, List.pairwise_cons]
      refine ⟨fun p hmem => ?_, fun p hmem => (hin p hmem).1, hp⟩
      rcases List.mem_cons.mp hmem with rfl | hmem
      · exact ⟨hi', hle.trans hhigh⟩
      · exact hwide p hmem
    | false =>
      rw [hforward, if_neg Bool.false_ne_true] at hcut
      obtain ⟨hj, rfl, hsame⟩ := hcut
      have hnew : reported (e :: events) = reported events ++ [(e.after.fingerBack, j)] := by
        simp [reported, Event.front, Event.back, hi, hforward]
      rw [hnew, List.pairwise_append]
      refine ⟨fun p hmem => ?_, hp, List.pairwise_singleton .., ?_⟩
      · rcases List.mem_append.mp hmem with hmem | hmem
        · exact hwide p hmem
        · obtain rfl := List.mem_singleton.mp hmem
          exact ⟨hlow.trans hle, hj⟩
      · intro p hmem q hq
        obtain rfl := List.mem_singleton.mp hq
        exact (hin p hmem).2

theorem run_works {n : Char} {cs : List Char} (calls : List Call) {s : CharSearcher}
    {b ds a : List Char} (h : Scan n s b ds a) (hcs : b ++ ds ++ a = cs) :
    ∃ events, run calls s = some events ∧
      (∀ e ∈ events, Answers n cs e.before e.after e.call e.answer ∧ Fingers cs e.after) ∧
      (∀ p ∈ reported events, s.finger ≤ p.1 ∧ p.2 ≤ s.fingerBack) ∧
      (reported events).Pairwise fun p q => p.2 ≤ q.1 := by
  induction calls generalizing s b ds a with
  | nil => exact ⟨[], rfl, nofun, nofun, .nil⟩
  | cons c calls ih =>
    obtain ⟨answer, s', b', ds', a', hcall, hscan, hcs', hans⟩ := h.works c
    rw [hcs] at hcs' hans
    obtain ⟨events, hrun, hall, hin, hp⟩ := ih hscan hcs'
    have hfingers : Fingers cs s := hcs ▸ h.fingers
    have hfingers' : Fingers cs s' := hcs' ▸ hscan.fingers
    refine ⟨⟨c, s, answer, s'⟩ :: events, ?_, ?_,
      reported_cons (e := ⟨c, s, answer, s'⟩) hans hfingers hfingers' hin hp⟩
    · simp only [run, hcall, some_bind, hrun]
      rfl
    · intro e he
      rcases List.mem_cons.mp he with rfl | he
      · exact ⟨hans, hfingers'⟩
      · exact hall e he

theorem intoSearcher_needle {n : Char} {haystack : List UInt8} {s : CharSearcher}
    (h : intoSearcher n haystack = some s) : s.needle = n := by
  unfold intoSearcher at h
  simp only [Option.bind_eq_bind, Option.bind_eq_some_iff] at h
  obtain ⟨r, -, h⟩ := h
  cases h
  rfl

/-- In any order of the calls each of them answers as it should and leaves the fingers at
chars, and the reported chars are disjoint, ascending from the front and descending from
the back. The search functions are those that read words. -/
theorem charSearcher_interleaved (n : Char) {haystack : List UInt8} (h : WellFormed haystack)
    (calls : List Call) :
    (∀ addr x text, Memchr.memchr addr x text = some (memchr x text) ∧
      Memchr.memrchr addr x text = some (memrchr x text)) ∧
    ∃ cs s events, haystack = encoded cs ∧ intoSearcher n haystack = some s ∧
      run calls s = some events ∧
      (∀ e ∈ events, Answers n cs e.before e.after e.call e.answer ∧ Fingers cs e.after) ∧
      (reported events).Pairwise fun p q => p.2 ≤ q.1 := by
  refine ⟨fun addr x text => ⟨Memchr.memchr_eq addr x text, Memchr.memrchr_eq addr x text⟩, ?_⟩
  obtain ⟨cs, rfl⟩ := exists_encoded h
  obtain ⟨s, hs, hwindow⟩ := intoSearcher_window n cs
  have hscan : Scan n s [] cs [] := ⟨hwindow, intoSearcher_needle hs⟩
  obtain ⟨events, hrun, hall, -, hp⟩ := run_works calls hscan (List.append_nil cs)
  exact ⟨cs, s, events, rfl, hs, hrun, hall, hp⟩

theorem charSearcher_interleaved_syllable :
    ∃ cs s events, encoded ['ꁁ', 'a', 'ꁁ'] = encoded cs ∧
      intoSearcher 'ꁁ' (encoded ['ꁁ', 'a', 'ꁁ']) = some s ∧
      run [.nextMatch, .nextMatchBack, .next] s = some events ∧
      (reported events).Pairwise fun p q => p.2 ≤ q.1 := by
  obtain ⟨-, cs, s, events, hcs, hs, hrun, -, hp⟩ := charSearcher_interleaved 'ꁁ'
    (encoded_wellFormed ['ꁁ', 'a', 'ꁁ']) [.nextMatch, .nextMatchBack, .next]
  exact ⟨cs, s, events, hcs, hs, hrun, hp⟩

end RustStd.CharPattern.CharSearcher
