import RustStd.Lib.Machine
import RustStd.Num.IntSqrt

/-!
# Escape iterators

The range `alive` says which part of the sequence is still to come; above 128 there is a literal
char instead. `none` is an index or a range outside the sequence, or a read of the wrong variant.
-/

set_option autoImplicit false

namespace RustStd.Escape
open RustStd.Checked RustStd.Machine
open RustStd.IntSqrt (leadingZeros)

def hexDigit (n : ℕ) : Char :=
  "0123456789abcdef".toList.get ⟨n &&& 15, Nat.lt_succ_of_le Nat.and_le_right⟩

/-- A sequence and the range of its chars. -/
abbrev Output := List Char × ℕ × ℕ

/-- The assignments `output[i] = c`, in order. -/
def assignAll (output : List Char) : List (ℕ × Char) → Option (List Char)
  | [] => some output
  | (i, c) :: rest => if i < output.length then assignAll (output.set i c) rest else none

def nulls : List Char := List.replicate 10 '\x00'

def backslash (a : Char) : Option Output :=
  (assignAll nulls [(0, '\\'), (1, a)]).map (·, 0, 2)

def hexEscape (byte : ℕ) : Option Output :=
  (assignAll nulls
    [(0, '\\'), (1, 'x'), (2, hexDigit (byte >>> 4)), (3, hexDigit byte)]).map (·, 0, 4)

def verbatim (a : Char) : Option Output := (assignAll nulls [(0, a)]).map (·, 0, 1)

def lookup (byte : ℕ) : Bool × Char :=
  match Char.ofNat byte with
  | '\t' => (true, 't')
  | '\r' => (true, 'r')
  | '\n' => (true, 'n')
  | '\\' => (true, '\\')
  | '\x27' => (true, '\x27')
  | '\x22' => (true, '\x22')
  | c => if byte ≤ 0x1F ∨ 0x7F ≤ byte then (true, '\x00') else (false, c)

def escapeAscii (byte : ℕ) : Option Output :=
  match lookup byte with
  | (true, '\x00') => hexEscape byte
  | (true, a) => backslash a
  | (false, a) => verbatim a

def unicodeAssignments (c : Char) (start : ℕ) : List (ℕ × Char) :=
  [(3, hexDigit (c.toNat >>> 20)), (4, hexDigit (c.toNat >>> 16)),
   (5, hexDigit (c.toNat >>> 12)), (6, hexDigit (c.toNat >>> 8)),
   (7, hexDigit (c.toNat >>> 4)), (8, hexDigit c.toNat), (9, '}'),
   (start, '\\'), (start+1, 'u'), (start+2, '{')]

def escapeUnicode (c : Char) : Option Output := do
  let start ← sub (leadingZeros 32 (c.toNat ||| 1)/4) 2
  let output ← assignAll nulls (unicodeAssignments c start)
  return (output, start, 10)

inductive MaybeEscapedCharacter
  | escapeSeq (seq : List Char)
  | literal (c : Char)

inductive Escaping
  | alwaysEscaped
  | maybeEscaped

structure EscapeIterInner where
  data : MaybeEscapedCharacter
  start : ℕ
  stop : ℕ
  escaping : Escaping

namespace EscapeIterInner

variable (it : EscapeIterInner)

def escapeSeq : Option (List Char) :=
  match it.data with
  | .escapeSeq seq => some seq
  | .literal _ => none

def len : Option ℕ := sub it.stop it.start

def advanceBy (n : ℕ) : EscapeIterInner :=
  { it with start := it.start+min (it.stop-it.start) n }

def toChar : Option (Option Char) :=
  if it.stop > 128 then
    match it.data with
    | .escapeSeq _ => none
    | .literal c => some (some c)
  else some none

def toStrUnchecked : Option (List Char) :=
  if it.stop ≤ 128 then do
    let seq ← it.escapeSeq
    slice seq it.start it.stop
  else none

def seqAt (i : ℕ) : Option Char := do
  let seq ← it.escapeSeq
  seq[i]?

def next : Option (Option Char × EscapeIterInner) :=
  if it.start < it.stop then do
    let rest := { it with start := it.start+1 }
    let c ← match it.escaping with
      | .alwaysEscaped => rest.seqAt it.start
      | .maybeEscaped => do
        match ← rest.toChar with
        | some c => some c
        | none => rest.seqAt it.start
    return (some c, rest)
  else some (none, it)

def fmt : Option (List Char) :=
  match it.escaping with
  | .alwaysEscaped => it.toStrUnchecked
  | .maybeEscaped => do
    match ← it.toChar with
    | some c => return [c]
    | none => it.toStrUnchecked

def advanceByNext : ℕ → EscapeIterInner → Option EscapeIterInner
  | 0, it => some it
  | n+1, it => do
    match ← it.next with
    | (none, rest) => return rest
    | (some _, rest) => advanceByNext n rest

/-- The chars that are still to come; there are at most ten. -/
def collect : ℕ → EscapeIterInner → Option (List Char)
  | 0, _ => none
  | fuel+1, it => do
    match ← it.next with
    | (none, _) => return []
    | (some c, rest) => do
      let cs ← collect fuel rest
      return c :: cs

def new (escaping : Escaping) (output : Output) : Option EscapeIterInner :=
  if output.2.2 ≤ 11 then some ⟨.escapeSeq output.1, output.2.1, output.2.2, escaping⟩ else none

def printable (c : Char) : EscapeIterInner := ⟨.literal c, 128, 129, .maybeEscaped⟩

end EscapeIterInner

open EscapeIterInner Escaping

def escapeDefault (c : Char) : Option EscapeIterInner :=
  match c with
  | '\t' => backslash 't' >>= new alwaysEscaped
  | '\r' => backslash 'r' >>= new alwaysEscaped
  | '\n' => backslash 'n' >>= new alwaysEscaped
  | '\\' | '\x27' | '\x22' => backslash c >>= new alwaysEscaped
  | _ =>
    if 0x20 ≤ c.toNat ∧ c.toNat ≤ 0x7e then escapeAscii c.toNat >>= new alwaysEscaped
    else escapeUnicode c >>= new alwaysEscaped

inductive Form
  | debugPrintable (c : Char)
  | debugBackslash (a : Char)
  | debugUnicode (c : Char)
  | default (c : Char)
  | unicode (c : Char)

def Form.build : Form → Option EscapeIterInner
  | .debugPrintable c => some (printable c)
  | .debugBackslash a => backslash a >>= new maybeEscaped
  | .debugUnicode c => escapeUnicode c >>= new maybeEscaped
  | .default c => escapeDefault c
  | .unicode c => escapeUnicode c >>= new alwaysEscaped

inductive Step
  | next
  | advanceBy (n : ℕ)

/-- `EscapeDebug` has no `advance_by` of its own. -/
def Step.run (it : EscapeIterInner) : Step → Option EscapeIterInner
  | .next => it.next.map Prod.snd
  | .advanceBy n =>
    match it.escaping with
    | .alwaysEscaped => some (it.advanceBy n)
    | .maybeEscaped => it.advanceByNext n

def Form.after (form : Form) (steps : List Step) : Option EscapeIterInner := do
  let it ← form.build
  steps.foldlM Step.run it

/-! ## Sequences -/

/-- The invariant of an iterator over a sequence. -/
def Escaped (it : EscapeIterInner) : Prop :=
  ∃ seq, it.data = .escapeSeq seq ∧ seq.length = 10 ∧ it.start ≤ it.stop ∧ it.stop ≤ 10

def Fits (r : Option Output) : Prop :=
  ∃ output, r = some output ∧ output.1.length = 10 ∧ output.2.1 ≤ output.2.2 ∧ output.2.2 ≤ 10

theorem assignAll_length {output : List Char} (hlen : output.length = 10) (l : List (ℕ × Char))
    (h : ∀ p ∈ l, p.1 < 10) :
    ∃ output', assignAll output l = some output' ∧ output'.length = 10 := by
  induction l generalizing output with
  | nil => exact ⟨output, rfl, hlen⟩
  | cons p rest ih =>
    obtain ⟨output', ho, hl⟩ := ih ((List.length_set ..).trans hlen) fun q hq =>
      h q (List.mem_cons_of_mem _ hq)
    refine ⟨output', ?_, hl⟩
    rw [assignAll, if_pos (hlen ▸ h p List.mem_cons_self), ho]

theorem backslash_fits (a : Char) : Fits (backslash a) := ⟨_, rfl, rfl, by simp, by simp⟩

theorem escapeAscii_fits (byte : ℕ) : Fits (escapeAscii byte) := by
  rw [escapeAscii]
  split
  · exact ⟨_, rfl, rfl, by simp, by simp⟩
  · exact backslash_fits _
  · exact ⟨_, rfl, rfl, by simp, by simp⟩

theorem escapeUnicode_fits (c : Char) : Fits (escapeUnicode c) := by
  have hc : c.toNat < 2^21 := by
    rcases c.valid with h | h
    · exact Nat.lt_trans h (by decide)
    · exact Nat.lt_trans h.2 (by decide)
  have hsize := Nat.size_le.mpr (Nat.or_lt_two_pow hc (show 1 < 2^21 by decide))
  obtain ⟨start, hstart⟩ : ∃ start, leadingZeros 32 (c.toNat ||| 1)/4 = start+2 :=
    ⟨_, (Nat.sub_add_cancel (by rw [leadingZeros]; lia)).symm⟩
  have hle : start ≤ 6 := by
    rw [leadingZeros] at hstart
    lia
  obtain ⟨output, ho, hl⟩ := assignAll_length (show nulls.length = 10 from rfl)
    (unicodeAssignments c start) (by simp [unicodeAssignments]; lia)
  refine ⟨(output, start, 10), ?_, hl, by lia, le_rfl⟩
  rw [escapeUnicode, hstart, sub_eq (Nat.le_add_left 2 start), Nat.add_sub_cancel, some_bind, ho]
  rfl

theorem Fits.new {r : Option Output} (h : Fits r) (escaping : Escaping) :
    ∃ it, r >>= EscapeIterInner.new escaping = some it ∧ Escaped it := by
  obtain ⟨output, rfl, hl, hle, hstop⟩ := h
  exact ⟨_, if_pos (by lia), output.1, rfl, hl, hle, hstop⟩

theorem escapeDefault_escaped (c : Char) : ∃ it, escapeDefault c = some it ∧ Escaped it := by
  unfold escapeDefault
  split
  iterate 6
    · exact (backslash_fits _).new _
  · split
    · exact (escapeAscii_fits _).new _
    · exact (escapeUnicode_fits c).new _

variable {it : EscapeIterInner} {c : Char}

theorem Escaped.next (h : Escaped it) (hlt : it.start < it.stop) :
    ∃ c, it.next = some (some c, { it with start := it.start+1 }) ∧
      it.toStrUnchecked = ({ it with start := it.start+1 }).toStrUnchecked.map (c :: ·) := by
  obtain ⟨seq, hdata, hlen, -, hstop⟩ := h
  obtain ⟨data, start, stop, escaping⟩ := it
  subst hdata
  dsimp only at hlt hstop
  have hi : start < seq.length := by lia
  refine ⟨seq[start], ?_, ?_⟩
  · cases escaping with
    | alwaysEscaped => simp [EscapeIterInner.next, hlt, seqAt, escapeSeq, hi]
    | maybeEscaped =>
      simp [EscapeIterInner.next, hlt, seqAt, escapeSeq, hi, toChar, show ¬ 128 < stop by lia]
  · have h128 : stop ≤ 128 := by lia
    simp only [toStrUnchecked, if_pos h128, escapeSeq]
    rw [some_bind, some_bind, slice_eq _ hlt.le (by lia), slice_eq _ hlt (by lia),
      List.drop_eq_getElem_cons hi, show stop-start = stop-(start+1)+1 by lia, List.take_succ_cons]
    rfl

theorem Escaped.advance (h : Escaped it) {n : ℕ} (hn : n ≤ it.stop-it.start) :
    Escaped { it with start := it.start+n } := by
  obtain ⟨seq, hdata, hlen, hle, hstop⟩ := h
  exact ⟨seq, hdata, hlen, show it.start+n ≤ it.stop by lia, hstop⟩

theorem Escaped.advanceByNext (h : Escaped it) (n : ℕ) :
    it.advanceByNext n = some (it.advanceBy n) := by
  induction n generalizing it with
  | zero => simp [EscapeIterInner.advanceByNext, EscapeIterInner.advanceBy]
  | succ n ih =>
    rw [EscapeIterInner.advanceByNext]
    by_cases hlt : it.start < it.stop
    · obtain ⟨c, hnext, -⟩ := h.next hlt
      rw [hnext, some_bind]
      simp only [ih (h.advance (n := 1) (by lia)), EscapeIterInner.advanceBy]
      congr 2
      lia
    · rw [EscapeIterInner.next, if_neg hlt, some_bind, EscapeIterInner.advanceBy,
        show it.stop-it.start = 0 by lia, Nat.zero_min]
      rfl

theorem Escaped.collect (h : Escaped it) {fuel : ℕ} (hfuel : it.stop-it.start < fuel) :
    ∃ items, it.collect fuel = some items ∧ it.toStrUnchecked = some items ∧
      items.length = it.stop-it.start := by
  induction fuel generalizing it with
  | zero => exact absurd hfuel (Nat.not_lt_zero _)
  | succ fuel ih =>
    rw [EscapeIterInner.collect]
    by_cases hlt : it.start < it.stop
    · obtain ⟨c, hnext, htext⟩ := h.next hlt
      obtain ⟨items, hcollect, hrest, hlen⟩ := ih (h.advance (n := 1) (by lia))
        (show it.stop-(it.start+1) < fuel by lia)
      refine ⟨c :: items, ?_, by rw [htext, hrest]; rfl, ?_⟩
      · rw [hnext, some_bind]
        simp only [hcollect, some_bind]
        rfl
      · rw [List.length_cons, hlen]
        lia
    · obtain ⟨seq, hdata, hlen, hle, hstop⟩ := h
      have heq : it.stop = it.start := by lia
      refine ⟨[], by rw [EscapeIterInner.next, if_neg hlt]; rfl, ?_, ?_⟩
      · rw [toStrUnchecked, if_pos (by lia), escapeSeq, hdata]
        dsimp only
        rw [some_bind, heq, slice_eq _ le_rfl (by lia), Nat.sub_self, List.take_zero]
      · rw [heq, Nat.sub_self]
        rfl

theorem Escaped.fmt (h : Escaped it) : it.fmt = it.toStrUnchecked := by
  obtain ⟨seq, -, -, -, hstop⟩ := h
  rw [EscapeIterInner.fmt]
  split
  · rfl
  · rw [toChar, if_neg (by lia)]
    rfl

theorem Escaped.step (h : Escaped it) (step : Step) :
    ∃ it', step.run it = some it' ∧ Escaped it' := by
  cases step with
  | next =>
    by_cases hlt : it.start < it.stop
    · obtain ⟨c, hnext, -⟩ := h.next hlt
      exact ⟨_, by rw [Step.run, hnext]; rfl, h.advance (by lia)⟩
    · exact ⟨it, by rw [Step.run, EscapeIterInner.next, if_neg hlt]; rfl, h⟩
  | advanceBy n =>
    refine ⟨it.advanceBy n, ?_, h.advance (Nat.min_le_left _ _)⟩
    rw [Step.run]
    split
    · rfl
    · exact h.advanceByNext n

theorem Escaped.steps (h : Escaped it) (steps : List Step) :
    ∃ it', steps.foldlM Step.run it = some it' ∧ Escaped it' := by
  induction steps generalizing it with
  | nil => exact ⟨it, rfl, h⟩
  | cons step steps ih =>
    obtain ⟨it', hstep, h'⟩ := h.step step
    rw [List.foldlM_cons, hstep]
    exact ih h'

/-! ## Literal chars -/

/-- The invariant of an iterator over a literal char; `spent` says whether the char is gone. -/
def literalAt (c : Char) (spent : Bool) : EscapeIterInner :=
  { printable c with start := if spent then 129 else 128 }

def Step.moves : Step → Bool
  | .next => true
  | .advanceBy n => 0 < n

theorem literal_step (spent : Bool) (step : Step) :
    step.run (literalAt c spent) = some (literalAt c (spent || step.moves)) := by
  cases step with
  | next => cases spent <;> rfl
  | advanceBy n =>
    have hspent : ∀ n, (literalAt c true).advanceByNext n = some (literalAt c true) := by
      intro n
      cases n <;> rfl
    cases n with
    | zero => cases spent <;> rfl
    | succ n =>
      cases spent with
      | true => exact hspent (n+1)
      | false => exact hspent n

theorem literal_steps (spent : Bool) (steps : List Step) :
    steps.foldlM Step.run (literalAt c spent) =
      some (literalAt c (spent || steps.any Step.moves)) := by
  induction steps generalizing spent with
  | nil => simp
  | cons step steps ih =>
    rw [List.foldlM_cons, literal_step, List.any_cons, ← Bool.or_assoc]
    exact ih _

def Form.isLiteral : Form → Bool
  | .debugPrintable _ => true
  | _ => false

theorem Form.build_cases (form : Form) : (∃ c, form = .debugPrintable c) ∨
    form.isLiteral = false ∧ ∃ it, form.build = some it ∧ Escaped it := by
  cases form with
  | debugPrintable c => exact .inl ⟨c, rfl⟩
  | debugBackslash a => exact .inr ⟨rfl, (backslash_fits a).new _⟩
  | debugUnicode c => exact .inr ⟨rfl, (escapeUnicode_fits c).new _⟩
  | default c => exact .inr ⟨rfl, escapeDefault_escaped c⟩
  | unicode c => exact .inr ⟨rfl, (escapeUnicode_fits c).new _⟩

/-- What is printed is what is still to come, unless that was a literal char. -/
theorem escape_display (form : Form) (steps : List Step) :
    ∃ it items text, form.after steps = some it ∧ it.collect 11 = some items ∧
      it.fmt = some text ∧ it.len = some items.length ∧
      (text = items ↔ ¬ (form.isLiteral ∧ steps.any Step.moves)) := by
  obtain ⟨c, rfl⟩ | ⟨hform, it, hbuild, h⟩ := form.build_cases
  · refine ⟨_, if steps.any Step.moves then [] else [c], [c], literal_steps false steps, ?_⟩
    cases steps.any Step.moves with
    | true => exact ⟨rfl, rfl, by simp [len, literalAt, printable, sub], by simp [Form.isLiteral]⟩
    | false => exact ⟨rfl, rfl, by simp [len, literalAt, printable, sub], by simp⟩
  · obtain ⟨it', hsteps, h'⟩ := h.steps steps
    obtain ⟨seq, -, -, hle, hstop⟩ := id h'
    obtain ⟨items, hcollect, htext, hlen⟩ := h'.collect (show it'.stop-it'.start < 11 by lia)
    refine ⟨it', items, items, ?_, hcollect, h'.fmt.trans htext, ?_, by simp [hform]⟩
    · rw [Form.after, hbuild]
      exact hsteps
    · rw [len, sub_eq hle, hlen]

theorem escape_display_spent :
    (Form.debugPrintable 'a').after [.next] = some (literalAt 'a' true) ∧
    (literalAt 'a' true).collect 11 = some [] ∧ (literalAt 'a' true).fmt = some ['a'] :=
  ⟨rfl, rfl, rfl⟩

end RustStd.Escape
