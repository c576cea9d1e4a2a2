import RustStd.Str.Wtf8Buf

/-!
# The Windows command line

A command line is one string of 16-bit units, which the program it starts takes
apart again. The parser reads a run of backslashes at once and halves it before
a quote; `append_arg` doubles such runs. So an argument is read chunk by chunk:
a run of backslashes with the unit behind it, or the run at its end.
-/

set_option autoImplicit false

namespace RustStd.WindowsArgs
open RustStd.Loop RustStd.Wtf8Encoding

def backslash : UInt16 := 0x5C

def quote : UInt16 := 0x22

def tab : UInt16 := 0x09

def space : UInt16 := 0x20

/-! `WStrUnits`, over the memory from its pointer on. -/

def peek : List UInt16 → Option UInt16
  | [] => none
  | w :: _ => if w = 0 then none else some w

def advanceWhile (predicate : UInt16 → Bool) : List UInt16 → ℕ × List UInt16
  | [] => (0, [])
  | w :: units =>
    if w ≠ 0 ∧ predicate w then
      let (counter, units) := advanceWhile predicate units
      (counter+1, units)
    else (0, w :: units)

def isBlank (w : UInt16) : Bool := w = space ∨ w = tab

/-- The loop over the executable name, which has no escape characters. -/
def exeLoop (inQuotes : Bool) (cur : List UInt16) : List UInt16 → List UInt16 × List UInt16
  | [] => (cur, [])
  | w :: units =>
    if w = 0 then (cur, w :: units)
    else if w = quote then exeLoop (!inQuotes) cur units
    else if isBlank w ∧ !inQuotes then (cur, units)
    else exeLoop inQuotes (cur ++ [w]) units

structure ArgState where
  retVal : List Wtf8Buf
  cur : List UInt16
  inQuotes : Bool
  codeUnits : List UInt16

def argBody (s : ArgState) : Option (ArgState ⊕ ArgState) :=
  match peek s.codeUnits with
  | none => some (.inr s)
  | some w =>
    let s := { s with codeUnits := s.codeUnits.tail }
    if isBlank w ∧ !s.inQuotes then do
      let arg ← Wtf8Buf.fromWide s.cur
      return .inl { s with
        retVal := s.retVal ++ [arg], cur := [], codeUnits := (advanceWhile isBlank s.codeUnits).2 }
    else if w = backslash then
      let (count, codeUnits) := advanceWhile (· = backslash) s.codeUnits
      let backslashCount := count+1
      let s := { s with codeUnits }
      if peek s.codeUnits = some quote then
        let s := { s with cur := s.cur ++ List.replicate (backslashCount/2) backslash }
        if backslashCount%2 = 1 then
          some (.inl { s with codeUnits := s.codeUnits.tail, cur := s.cur ++ [quote] })
        else some (.inl s)
      else some (.inl { s with cur := s.cur ++ List.replicate backslashCount backslash })
    else if w = quote then
      if s.inQuotes then
        match peek s.codeUnits with
        | some next =>
          if next = quote then
            some (.inl { s with cur := s.cur ++ [quote], codeUnits := s.codeUnits.tail })
          else some (.inl { s with inQuotes := false })
        | none => some (.inr s)
      else some (.inl { s with inQuotes := true })
    else some (.inl { s with cur := s.cur ++ [w] })

def finish (s : ArgState) : Option (List Wtf8Buf) :=
  if s.cur ≠ [] ∨ s.inQuotes then do
    let arg ← Wtf8Buf.fromWide s.cur
    return s.retVal ++ [arg]
  else some s.retVal

/-- `parse_lp_cmd_line`; there is no command line behind a null pointer. -/
def parseLpCmdLine (lpCmdLine : Option (List UInt16)) (exeName : Wtf8Buf) :
    Option (List Wtf8Buf) :=
  match lpCmdLine with
  | none => some [exeName]
  | some codeUnits =>
    if peek codeUnits = none then some [exeName]
    else do
      let (cur, codeUnits) := exeLoop false [] codeUnits
      let codeUnits := (advanceWhile isBlank codeUnits).2
      let arg0 ← Wtf8Buf.fromWide cur
      let s : ArgState := { retVal := [arg0], cur := [], inQuotes := false, codeUnits }
      let s ← loop argBody (codeUnits.length+1) s
      finish s

inductive Arg
  | regular (arg : Wtf8)
  | raw (arg : Wtf8)

inductive Quote
  | always
  | auto
  | never

inductive Failure
  | invalidInput
  /-- Undefined behaviour of `encode_wide`, off the well-formed texts. -/
  | undefined
  deriving DecidableEq

def units (arg : Wtf8) : Except Failure (List UInt16) :=
  match encodeWide arg.bytes with
  | some units => .ok units
  | none => .error .undefined

/-- One round of the loop of `append_arg`. -/
def appendUnit (escape : Bool) (s : List UInt16 × ℕ) (x : UInt16) : List UInt16 × ℕ :=
  let (cmd, backslashes) := s
  if escape then
    if x = backslash then (cmd ++ [x], backslashes+1)
    else if x = quote then
      (cmd ++ List.replicate (backslashes+1) backslash ++ [x], 0)
    else (cmd ++ [x], 0)
  else (cmd ++ [x], backslashes)

def appendArg (cmd : List UInt16) (arg : Arg) (forceQuotes : Bool) :
    Except Failure (List UInt16) := do
  let (arg, mode) := match arg with
    | .regular arg => (arg, if forceQuotes then Quote.always else Quote.auto)
    | .raw arg => (arg, Quote.never)
  let wide ← units arg
  if wide.any (· = 0) then .error .invalidInput
  else
    let (quoted, escape) := match mode with
      | .always => (true, true)
      | .auto => (arg.bytes.any (fun c => c = 0x20 ∨ c = 0x09) || arg.bytes.isEmpty, true)
      | .never => (false, false)
    let cmd := if quoted then cmd ++ [quote] else cmd
    let (cmd, backslashes) := wide.foldl (appendUnit escape) (cmd, 0)
    if quoted then return cmd ++ List.replicate backslashes backslash ++ [quote]
    else return cmd

/-- The command line with the quoted program name. The loop takes a flag for each
argument. -/
def commandLine (argv0 : Wtf8) (args : List (Arg × Bool)) : Except Failure (List UInt16) := do
  let wide ← units argv0
  let cmd := quote :: wide ++ [quote]
  args.foldlM (fun cmd arg => appendArg (cmd ++ [space]) arg.1 arg.2) cmd

/-- The parser reads the arguments from the state to the end. -/
def Parses (s : ArgState) (r : List Wtf8Buf) : Prop :=
  ∀ fuel, s.codeUnits.length < fuel → (loop argBody fuel s).bind finish = some r

theorem Parses.round {s s' : ArgState} {r : List Wtf8Buf} (h : argBody s = some (.inl s'))
    (hlen : s'.codeUnits.length < s.codeUnits.length) (hp : Parses s' r) : Parses s r := by
  intro fuel hf
  obtain ⟨k, rfl⟩ : ∃ k, fuel = k+1 := ⟨fuel-1, by omega⟩
  rw [loop, h]
  exact hp k (by omega)

theorem Parses.stop {s s' : ArgState} {r : List Wtf8Buf} (h : argBody s = some (.inr s'))
    (hr : finish s' = some r) : Parses s r := by
  intro fuel hf
  obtain ⟨k, rfl⟩ : ∃ k, fuel = k+1 := ⟨fuel-1, by omega⟩
  rw [loop, h]
  exact hr

theorem peek_cons {w : UInt16} (h : w ≠ 0) (z : List UInt16) : peek (w :: z) = some w := if_neg h

theorem advanceWhile_replicate (k : ℕ) {z : List UInt16} (hz : z.head? ≠ some backslash) :
    advanceWhile (· = backslash) (List.replicate k backslash ++ z) = (k, z) := by
  induction k with
  | zero =>
    cases z with
    | nil => rfl
    | cons w z =>
      have hw : w ≠ backslash := fun he => hz (by rw [he]; rfl)
      simp [advanceWhile, hw]
  | succ k ih =>
    rw [List.replicate_succ, List.cons_append, advanceWhile, if_pos (by decide), ih]

theorem advanceWhile_stop {w : UInt16} (h : isBlank w = false) (z : List UInt16) :
    (advanceWhile isBlank (w :: z)).2 = w :: z := by
  simp [advanceWhile, h]

section Rounds

variable {ret r : List Wtf8Buf} {cur z : List UInt16} {q : Bool} {w : UInt16}

theorem parses_literal (h0 : w ≠ 0) (hb : w ≠ backslash) (hq : w ≠ quote)
    (hblank : q = false → isBlank w = false) (hp : Parses ⟨ret, cur ++ [w], q, z⟩ r) :
    Parses ⟨ret, cur, q, w :: z⟩ r := by
  have hno : ¬ (isBlank w = true ∧ (!q) = true) := by
    rintro ⟨hw, hq'⟩
    rw [hblank (by simpa using hq')] at hw
    cases hw
  refine hp.round ?_ (by simp)
  simp only [argBody, peek, if_neg h0, List.tail_cons, if_neg hno, if_neg hb, if_neg hq]

theorem argBody_run (k : ℕ) (hz : z.head? ≠ some backslash) :
    argBody ⟨ret, cur, q, List.replicate (k+1) backslash ++ z⟩ = some (.inl
      (if peek z = some quote then
        if (k+1)%2 = 1 then
          ⟨ret, cur ++ List.replicate ((k+1)/2) backslash ++ [quote], q, z.tail⟩
        else ⟨ret, cur ++ List.replicate ((k+1)/2) backslash, q, z⟩
      else ⟨ret, cur ++ List.replicate (k+1) backslash, q, z⟩)) := by
  have hblank : ¬ (isBlank backslash = true ∧ (!q) = true) := fun h => absurd h.1 (by decide)
  have hcons : List.replicate (k+1) backslash ++ z =
      backslash :: (List.replicate k backslash ++ z) := rfl
  rw [hcons]
  simp only [argBody, peek_cons (show backslash ≠ 0 by decide), List.tail_cons, if_neg hblank,
    if_true, advanceWhile_replicate k hz]
  split_ifs <;> rfl

theorem parses_run (k : ℕ) (hz : z.head? ≠ some backslash) (hq : peek z ≠ some quote)
    (hp : Parses ⟨ret, cur ++ List.replicate k backslash, q, z⟩ r) :
    Parses ⟨ret, cur, q, List.replicate k backslash ++ z⟩ r := by
  cases k with
  | zero => simpa using hp
  | succ k =>
    have hbody : argBody ⟨ret, cur, q, List.replicate (k+1) backslash ++ z⟩ = _ :=
      argBody_run k hz
    rw [if_neg hq] at hbody
    exact hp.round hbody (by simp)

theorem parses_escapedQuote (k : ℕ)
    (hp : Parses ⟨ret, cur ++ List.replicate k backslash ++ [quote], q, z⟩ r) :
    Parses ⟨ret, cur, q, List.replicate (2*k+1) backslash ++ quote :: z⟩ r := by
  have hbody : argBody ⟨ret, cur, q, List.replicate (2*k+1) backslash ++ quote :: z⟩ = _ :=
    argBody_run (2*k) (by simp; decide)
  rw [if_pos (peek_cons (by decide) z), if_pos (by omega), show (2*k+1)/2 = k by omega] at hbody
  exact hp.round hbody (by simp; omega)

theorem parses_evenQuote (k : ℕ)
    (hp : Parses ⟨ret, cur ++ List.replicate k backslash, q, quote :: z⟩ r) :
    Parses ⟨ret, cur, q, List.replicate (2*k) backslash ++ quote :: z⟩ r := by
  cases k with
  | zero => simpa using hp
  | succ k =>
    have hbody : argBody ⟨ret, cur, q, List.replicate (2*k+1+1) backslash ++ quote :: z⟩ = _ :=
      argBody_run (2*k+1) (by simp; decide)
    rw [if_pos (peek_cons (by decide) z), if_neg (by omega),
      show (2*k+1+1)/2 = k+1 by omega] at hbody
    exact hp.round hbody (by simp)

theorem parses_open (hp : Parses ⟨ret, cur, true, z⟩ r) :
    Parses ⟨ret, cur, false, quote :: z⟩ r :=
  hp.round rfl (by simp)

theorem length_advanceWhile (predicate : UInt16 → Bool) (z : List UInt16) :
    (advanceWhile predicate z).2.length ≤ z.length := by
  induction z with
  | nil => rfl
  | cons w z ih =>
    unfold advanceWhile
    split_ifs
    · exact ih.trans (Nat.le_succ _)
    · exact le_rfl

theorem parses_separator {b : Wtf8Buf} (hb : Wtf8Buf.fromWide cur = some b)
    (hp : Parses ⟨ret ++ [b], [], false, (advanceWhile isBlank z).2⟩ r) :
    Parses ⟨ret, cur, false, space :: z⟩ r := by
  refine hp.round ?_ (Nat.lt_succ_of_le (length_advanceWhile isBlank z))
  simp only [argBody, peek_cons (show space ≠ 0 by decide), List.tail_cons,
    if_pos (show isBlank space = true ∧ (!false) = true by decide), hb, some_bind]
  rfl

theorem parses_close {b : Wtf8Buf} (hb : Wtf8Buf.fromWide cur = some b)
    (hp : Parses ⟨ret ++ [b], [], false, (advanceWhile isBlank z).2⟩ r) :
    Parses ⟨ret, cur, true, quote :: space :: z⟩ r :=
  (parses_separator hb hp).round rfl (by simp)

theorem parses_end {b : Wtf8Buf} (hb : Wtf8Buf.fromWide cur = some b) (hcur : cur ≠ []) :
    Parses ⟨ret, cur, false, 0 :: z⟩ (ret ++ [b]) := by
  refine .stop (show argBody _ = some (.inr ⟨ret, cur, false, 0 :: z⟩) from rfl) ?_
  rw [finish, if_pos (Or.inl hcur), hb]
  rfl

theorem parses_none (ret : List Wtf8Buf) (z : List UInt16) :
    Parses ⟨ret, [], false, 0 :: z⟩ ret :=
  .stop rfl rfl

theorem parses_closeEnd {b : Wtf8Buf} (hb : Wtf8Buf.fromWide cur = some b) :
    Parses ⟨ret, cur, true, quote :: 0 :: z⟩ (ret ++ [b]) := by
  refine .stop (show argBody _ = some (.inr ⟨ret, cur, true, 0 :: z⟩) from rfl) ?_
  rw [finish, if_pos (Or.inr rfl), hb]
  rfl

end Rounds

/-- The parser takes the text `t` for the units `u`. -/
def Reads (q : Bool) (t u : List UInt16) : Prop :=
  ∀ ret cur z r, Parses ⟨ret, cur ++ u, q, z⟩ r → Parses ⟨ret, cur, q, t ++ z⟩ r

theorem Reads.nil (q : Bool) : Reads q [] [] := fun _ _ _ _ hp => by simpa using hp

theorem Reads.append {q : Bool} {t u t' u' : List UInt16} (h : Reads q t u) (h' : Reads q t' u') :
    Reads q (t ++ t') (u ++ u') := by
  intro ret cur z r hp
  rw [List.append_assoc]
  apply h
  apply h'
  rwa [List.append_assoc]

theorem reads_literal {q : Bool} {w : UInt16} (k : ℕ) (h0 : w ≠ 0) (hb : w ≠ backslash)
    (hq : w ≠ quote) (hblank : q = false → isBlank w = false) :
    Reads q (List.replicate k backslash ++ [w]) (List.replicate k backslash ++ [w]) := by
  intro ret cur z r hp
  rw [List.append_assoc, List.singleton_append]
  apply parses_run k (by simpa using hb) (by rw [peek_cons h0]; simpa using hq)
  apply parses_literal h0 hb hq hblank
  simpa using hp

theorem reads_quote (q : Bool) (k : ℕ) :
    Reads q (List.replicate (2*k+1) backslash ++ [quote])
      (List.replicate k backslash ++ [quote]) := by
  intro ret cur z r hp
  rw [List.append_assoc, List.singleton_append]
  apply parses_escapedQuote k
  simpa using hp

/-- What `append_arg` writes for the units, up to the run of backslashes at their end. -/
structure Escaped (q : Bool) (u t : List UInt16) (k : ℕ) : Prop where
  reads : ∃ u', u = u' ++ List.replicate k backslash ∧ Reads q t u'
  length : u.length ≤ t.length+k
  units : ∀ w ∈ t, w = backslash ∨ w = quote ∨ w ∈ u

section Escaped

variable {q : Bool} {u t : List UInt16} {k : ℕ}

theorem Escaped.units_append (h : Escaped q u t k) (v : List UInt16) :
    ∀ w ∈ t, w = backslash ∨ w = quote ∨ w ∈ u ++ v :=
  fun w hw => (h.units w hw).imp_right fun h => h.imp_right fun h => List.mem_append_left v h

theorem Escaped.push_backslash (h : Escaped q u t k) : Escaped q (u ++ [backslash]) t (k+1) where
  reads := by
    obtain ⟨u', rfl, hr⟩ := h.reads
    exact ⟨u', by rw [List.append_assoc, ← List.replicate_succ'], hr⟩
  length := by
    have := h.length
    rw [List.length_append, List.length_singleton]
    omega
  units := h.units_append _

theorem Escaped.push_quote (h : Escaped q u t k) :
    Escaped q (u ++ [quote]) (t ++ (List.replicate (2*k+1) backslash ++ [quote])) 0 where
  reads := by
    obtain ⟨u', rfl, hr⟩ := h.reads
    refine ⟨u' ++ (List.replicate k backslash ++ [quote]), by simp, ?_⟩
    exact hr.append (reads_quote q k)
  length := by
    have := h.length
    simp only [List.length_append, List.length_replicate, List.length_singleton] at this ⊢
    omega
  units := by
    intro w hw
    rcases List.mem_append.mp hw with hw | hw
    · exact h.units_append _ w hw
    · rcases List.mem_append.mp hw with hw | hw
      · exact Or.inl (List.eq_of_mem_replicate hw)
      · exact Or.inr (Or.inl (List.mem_singleton.mp hw))

theorem Escaped.push_literal (h : Escaped q u t k) {w : UInt16} (h0 : w ≠ 0)
    (hb : w ≠ backslash) (hq : w ≠ quote)
    (hblank : q = false → isBlank w = false) :
    Escaped q (u ++ [w]) (t ++ (List.replicate k backslash ++ [w])) 0 where
  reads := by
    obtain ⟨u', rfl, hr⟩ := h.reads
    refine ⟨u' ++ (List.replicate k backslash ++ [w]), by simp, ?_⟩
    exact hr.append (reads_literal k h0 hb hq hblank)
  length := by
    have := h.length
    simp only [List.length_append, List.length_replicate, List.length_singleton] at this ⊢
    omega
  units := by
    intro x hx
    rcases List.mem_append.mp hx with hx | hx
    · exact h.units_append _ x hx
    · rcases List.mem_append.mp hx with hx | hx
      · exact Or.inl (List.eq_of_mem_replicate hx)
      · exact Or.inr (Or.inr (by simp [List.mem_singleton.mp hx]))

end Escaped

theorem foldl_appendUnit {q : Bool} {u : List UInt16} (h0 : 0 ∉ u)
    (hblank : q = false → ∀ w ∈ u, isBlank w = false) :
    ∃ t k, Escaped q u t k ∧ ∀ cmd,
      u.foldl (appendUnit true) (cmd, 0) = (cmd ++ t ++ List.replicate k backslash, k) := by
  induction u using List.reverseRecOn with
  | nil => exact ⟨[], 0, ⟨⟨[], rfl, .nil q⟩, by simp, by simp⟩, by simp⟩
  | append_singleton u w ih =>
    obtain ⟨t, k, hesc, hfold⟩ :=
      ih (fun h => h0 (by simp [h])) fun hq w hw => hblank hq w (by simp [hw])
    have hw0 : w ≠ 0 := fun h => h0 (by simp [h])
    by_cases hb : w = backslash
    · subst hb
      refine ⟨t, k+1, hesc.push_backslash, fun cmd => ?_⟩
      rw [List.foldl_concat, hfold, appendUnit, if_pos rfl, if_pos rfl, List.append_assoc _ _ [_],
        ← List.replicate_succ']
    by_cases hq : w = quote
    · subst hq
      refine ⟨_, 0, hesc.push_quote, fun cmd => ?_⟩
      have hrun : List.replicate (2*k+1) backslash =
          List.replicate k backslash ++ List.replicate (k+1) backslash := by
        rw [List.replicate_append_replicate]
        congr 1
        omega
      rw [List.foldl_concat, hfold, appendUnit, if_pos rfl, if_neg hb, if_pos rfl, hrun]
      simp
    · refine ⟨_, 0, hesc.push_literal hw0 hb hq fun h => hblank h w (by simp), fun cmd => ?_⟩
      rw [List.foldl_concat, hfold, appendUnit, if_pos rfl, if_neg hb, if_neg hq]
      simp

theorem blank_bytes {cs : List CodePoint} {w : UInt16} (hw : w ∈ wide cs)
    (hb : isBlank w = true) :
    (encode cs).any (fun c => c = 0x20 ∨ c = 0x09) = true := by
  obtain ⟨c, hc, hu⟩ := List.mem_flatMap.mp hw
  have hval : w.toNat = 0x20 ∨ w.toNat = 0x09 := by
    simp only [isBlank, decide_eq_true_eq] at hb
    rcases hb with rfl | rfl
    · exact Or.inl rfl
    · exact Or.inr rfl
  have hlt := c.lt
  unfold CharMethods.utf16Units at hu
  split_ifs at hu with h
  · have hn : (UInt16.ofNat c.value).toNat = c.value := UInt16.toNat_ofNat_of_lt' h
    rw [List.mem_singleton.mp hu, hn] at hval
    have hbytes : CharMethods.utf8Bytes c.value = [UInt8.ofNat c.value] := by
      rw [CharMethods.utf8Bytes, CharMethods.utf8Units, if_pos (by omega)]
      rfl
    refine List.any_eq_true.mpr ⟨UInt8.ofNat c.value, ?_, ?_⟩
    · exact List.mem_flatMap.mpr ⟨c, hc, by simp [hbytes]⟩
    · rcases hval with h | h <;> rw [h] <;> decide
  · exfalso
    have hhigh : (UInt16.ofNat (0xD800+(c.value-0x10000)/1024)).toNat =
        0xD800+(c.value-0x10000)/1024 := UInt16.toNat_ofNat_of_lt' (by unfold UInt16.size; omega)
    have hlow : (UInt16.ofNat (0xDC00+c.value%1024)).toNat = 0xDC00+c.value%1024 :=
      UInt16.toNat_ofNat_of_lt' (by unfold UInt16.size; omega)
    rcases List.mem_pair.mp hu with rfl | rfl
    · rw [hhigh] at hval
      omega
    · rw [hlow] at hval
      omega

/-- The text `t` of one argument: it begins with no blank, and the parser reads the
argument `b` from it, before a separator and at the end. -/
structure ReadsArg (t : List UInt16) (b : Wtf8Buf) : Prop where
  head : ∃ w t', t = w :: t' ∧ isBlank w = false
  separated : ∀ ret z r, Parses ⟨ret ++ [b], [], false, (advanceWhile isBlank z).2⟩ r →
    Parses ⟨ret, [], false, t ++ space :: z⟩ r
  last : ∀ ret z, Parses ⟨ret, [], false, t ++ 0 :: z⟩ (ret ++ [b])

section Text

variable {u t : List UInt16} {k : ℕ} {b : Wtf8Buf}

theorem Escaped.readsArg_quoted (h : Escaped true u t k) (hb : Wtf8Buf.fromWide u = some b) :
    ReadsArg (quote :: (t ++ List.replicate (2*k) backslash ++ [quote])) b := by
  obtain ⟨u', rfl, hreads⟩ := h.reads
  have hbody (ret : List Wtf8Buf) (z : List UInt16) (r : List Wtf8Buf)
      (hp : Parses ⟨ret, u' ++ List.replicate k backslash, true, quote :: z⟩ r) :
      Parses ⟨ret, [], false, quote :: (t ++ List.replicate (2*k) backslash ++ [quote]) ++ z⟩ r := by
    rw [List.cons_append, List.append_assoc, List.append_assoc, List.singleton_append]
    apply parses_open
    apply hreads
    apply parses_evenQuote k
    simpa using hp
  refine ⟨⟨quote, _, rfl, by decide⟩, fun ret z r hp => ?_, fun ret z => ?_⟩
  · exact hbody ret _ r (parses_close hb hp)
  · exact hbody ret _ _ (parses_closeEnd hb)

theorem Escaped.readsArg_bare (h : Escaped false u t k) (hb : Wtf8Buf.fromWide u = some b)
    (hne : u ≠ []) (hblank : ∀ w ∈ u, isBlank w = false) :
    ReadsArg (t ++ List.replicate k backslash) b := by
  have hlen := h.length
  have hunits := h.units
  obtain ⟨u', rfl, hreads⟩ := h.reads
  have hbody (ret : List Wtf8Buf) (w : UInt16) (z : List UInt16) (r : List Wtf8Buf)
      (hw : w ≠ backslash ∧ w ≠ quote)
      (hp : Parses ⟨ret, u' ++ List.replicate k backslash, false, w :: z⟩ r) :
      Parses ⟨ret, [], false, t ++ List.replicate k backslash ++ w :: z⟩ r := by
    rw [List.append_assoc]
    apply hreads
    apply parses_run k (by simpa using hw.1)
    · intro hpeek
      rw [peek, ite_eq_iff] at hpeek
      rcases hpeek with ⟨-, h⟩ | ⟨-, h⟩
      · cases h
      · exact hw.2 (Option.some.inj h)
    · simpa using hp
  refine ⟨?_, fun ret z r hp => ?_, fun ret z => ?_⟩
  · have hpos := List.length_pos_of_ne_nil hne
    obtain ⟨w, t', ht⟩ : ∃ w t', t ++ List.replicate k backslash = w :: t' := by
      refine List.exists_cons_of_length_pos ?_
      rw [List.length_append, List.length_replicate]
      omega
    have hmem : w ∈ t ++ List.replicate k backslash := by simp [ht]
    refine ⟨w, t', ht, ?_⟩
    rcases List.mem_append.mp hmem with hw | hw
    · rcases hunits w hw with rfl | rfl | hw
      · decide
      · decide
      · exact hblank w hw
    · rw [List.eq_of_mem_replicate hw]
      decide
  · exact hbody ret _ _ r (by decide) (parses_separator hb hp)
  · exact hbody ret _ _ _ (by decide) (parses_end hb hne)

end Text

def quoted (arg : Wtf8) (forceQuotes : Bool) : Bool :=
  forceQuotes || (arg.bytes.any (fun c => c = 0x20 ∨ c = 0x09) || arg.bytes.isEmpty)

theorem appendArg_regular {arg : Wtf8} {u : List UInt16} (hu : encodeWide arg.bytes = some u)
    (h0 : 0 ∉ u) (forceQuotes : Bool) (cmd : List UInt16) :
    appendArg cmd (.regular arg) forceQuotes =
      if quoted arg forceQuotes then
        let s := u.foldl (appendUnit true) (cmd ++ [quote], 0)
        .ok (s.1 ++ List.replicate s.2 backslash ++ [quote])
      else .ok (u.foldl (appendUnit true) (cmd, 0)).1 := by
  have hany : ¬ u.any (fun x => x = 0) = true := by
    rw [List.any_eq_true]
    rintro ⟨x, hx, h⟩
    exact h0 (of_decide_eq_true h ▸ hx)
  have hunits : units arg = .ok u := by rw [units, hu]
  unfold appendArg quoted
  cases forceQuotes <;> simp only [hunits, bind, Except.bind, if_neg hany, Bool.false_or,
    Bool.true_or, if_true, if_false, Bool.false_eq_true]
  · split_ifs <;> rfl
  · rfl

theorem appendArg_reads (arg : Wtf8) (forceQuotes : Bool)
    (h0 : ∀ u, encodeWide arg.bytes = some u → 0 ∉ u) :
    ∃ t b, (∀ cmd, appendArg cmd (.regular arg) forceQuotes = .ok (cmd ++ t)) ∧
      b.bytes = arg.bytes ∧ ReadsArg t b := by
  obtain ⟨cs, hcs, hbytes⟩ := arg.wellFormed
  obtain ⟨b, hb, hbb⟩ := fromWide_wide hcs
  have hu : encodeWide arg.bytes = some (wide cs) := by rw [hbytes, encodeWide_encode]
  have hnul := h0 _ hu
  cases hq : quoted arg forceQuotes with
  | true =>
    obtain ⟨t, k, hesc, hfold⟩ := foldl_appendUnit (q := true) hnul (by simp)
    refine ⟨_, b, fun cmd => ?_, by rw [hbb, hbytes], hesc.readsArg_quoted hb⟩
    rw [appendArg_regular hu hnul, if_pos hq, hfold]
    have hrun : List.replicate (2*k) backslash =
        List.replicate k backslash ++ List.replicate k backslash := by
      rw [List.replicate_append_replicate]
      congr 1
      omega
    simp [hrun]
  | false =>
    have hq' : (encode cs).any (fun c => c = 0x20 ∨ c = 0x09) = false ∧
        (encode cs).isEmpty = false := by
      rw [quoted, hbytes] at hq
      simpa only [Bool.or_eq_false_iff] using (Bool.or_eq_false_iff.mp hq).2
    have hblank : ∀ w ∈ wide cs, isBlank w = false := by
      intro w hw
      by_contra hb
      have := blank_bytes hw (by simpa using hb)
      rw [hq'.1] at this
      cases this
    have hne : wide cs ≠ [] := by
      intro h
      cases cs with
      | nil => simp at hq'
      | cons c cs =>
        rcases utf16Units_cases c.value with ⟨u, hc⟩ | ⟨u, v, hc, -⟩ <;> simp [hc] at h
    obtain ⟨t, k, hesc, hfold⟩ := foldl_appendUnit (q := false) hnul fun _ => hblank
    refine ⟨_, b, fun cmd => ?_, by rw [hbb, hbytes], hesc.readsArg_bare hb hne hblank⟩
    rw [appendArg_regular hu hnul, if_neg (by simp [hq]), hfold, List.append_assoc]

theorem appendArgs_reads (args : List (Wtf8 × Bool))
    (h0 : ∀ a ∈ args, ∀ u, encodeWide a.1.bytes = some u → 0 ∉ u) :
    ∃ t bs, (∀ cmd, (args.map fun a => (Arg.regular a.1, a.2)).foldlM
        (fun cmd arg => appendArg (cmd ++ [space]) arg.1 arg.2) cmd = .ok (cmd ++ t)) ∧
      bs.map Wtf8Buf.bytes = args.map (fun a => a.1.bytes) ∧
      (args = [] ∧ t = [] ∨ ∃ t', t = space :: t' ∧
        ∀ ret z, Parses ⟨ret, [], false, (advanceWhile isBlank (t' ++ 0 :: z)).2⟩ (ret ++ bs)) := by
  induction args with
  | nil => exact ⟨[], [], fun cmd => by simp; rfl, rfl, Or.inl ⟨rfl, rfl⟩⟩
  | cons a args ih =>
    obtain ⟨t, bs, happ, hbs, hread⟩ := ih fun a' ha => h0 a' (by simp [ha])
    obtain ⟨ta, b, happa, hb, hreada⟩ := appendArg_reads a.1 a.2 (h0 a (by simp))
    refine ⟨space :: (ta ++ t), b :: bs, fun cmd => ?_, by rw [List.map_cons, hb, hbs]; rfl,
      Or.inr ⟨ta ++ t, rfl, fun ret z => ?_⟩⟩
    · have hstep := happ (cmd ++ [space] ++ ta)
      rw [List.map_cons, List.foldlM_cons, happa]
      refine hstep.trans ?_
      simp
    · obtain ⟨w, t', rfl, hw⟩ := hreada.head
      rw [List.cons_append, List.cons_append, advanceWhile_stop hw, ← List.cons_append,
        ← List.cons_append, List.append_assoc]
      rcases hread with ⟨rfl, rfl⟩ | ⟨t', rfl, hrest⟩
      · obtain rfl : bs = [] := by simpa using hbs
        exact hreada.last ret z
      · apply hreada.separated
        simpa using hrest (ret ++ [b]) z

theorem exeLoop_name {u : List UInt16} (h0 : 0 ∉ u) (hq : quote ∉ u) (cur z : List UInt16) :
    exeLoop true cur (u ++ quote :: z) = exeLoop false (cur ++ u) z := by
  induction u generalizing cur with
  | nil =>
    rw [List.nil_append, exeLoop, if_neg (by decide), if_pos rfl, List.append_nil]
    rfl
  | cons w u ih =>
    have hw0 : w ≠ 0 := fun h => h0 (by simp [h])
    have hwq : w ≠ quote := fun h => hq (by simp [h])
    rw [List.cons_append, exeLoop, if_neg hw0, if_neg hwq, if_neg (by simp),
      ih (fun h => h0 (by simp [h])) (fun h => hq (by simp [h]))]
    simp

/-- A command line of a quoted program name and arguments that `append_arg` has written is
parsed back into the program name and the arguments. -/
theorem parseLpCmdLine_roundTrip (argv0 : Wtf8) (args : List (Wtf8 × Bool)) (exeName : Wtf8Buf)
    (memory : List UInt16)
    (hname : ∀ u, encodeWide argv0.bytes = some u → quote ∉ u ∧ 0 ∉ u)
    (hargs : ∀ a ∈ args, ∀ u, encodeWide a.1.bytes = some u → 0 ∉ u) :
    ∃ cmd ret, commandLine argv0 (args.map fun a => (.regular a.1, a.2)) = .ok cmd ∧
      parseLpCmdLine (some (cmd ++ 0 :: memory)) exeName = some ret ∧
      ret.map Wtf8Buf.bytes = argv0.bytes :: args.map fun a => a.1.bytes := by
  obtain ⟨cs, hcs, hbytes⟩ := argv0.wellFormed
  obtain ⟨b, hb, hbb⟩ := fromWide_wide hcs
  have hu : encodeWide argv0.bytes = some (wide cs) := by rw [hbytes, encodeWide_encode]
  obtain ⟨hquote, hnul⟩ := hname _ hu
  obtain ⟨t, bs, happ, hbs, hread⟩ := appendArgs_reads args hargs
  refine ⟨quote :: wide cs ++ [quote] ++ t, b :: bs, ?_, ?_, ?_⟩
  · rw [commandLine, units, hu]
    exact happ _
  · have hloop {z : List UInt16} (hp : Parses ⟨[b], [], false, z⟩ (b :: bs)) :
        (loop argBody (z.length+1) ⟨[b], [], false, z⟩).bind finish = some (b :: bs) :=
      hp _ (Nat.lt_succ_self _)
    have htext : quote :: wide cs ++ [quote] ++ t ++ 0 :: memory =
        quote :: (wide cs ++ quote :: (t ++ 0 :: memory)) := by simp
    have hexe : exeLoop false [] (quote :: (wide cs ++ quote :: (t ++ 0 :: memory))) =
        exeLoop false (wide cs) (t ++ 0 :: memory) := by
      rw [exeLoop, if_neg (by decide), if_pos rfl]
      exact exeLoop_name hnul hquote [] _
    rw [htext, parseLpCmdLine, if_neg (by rw [peek_cons (by decide)]; simp), hexe]
    rcases hread with ⟨rfl, rfl⟩ | ⟨t', rfl, hrest⟩
    · obtain rfl : bs = [] := by simpa using hbs
      have hend : exeLoop false (wide cs) ([] ++ 0 :: memory) = (wide cs, 0 :: memory) := rfl
      have hskip : (advanceWhile isBlank (0 :: memory)).2 = 0 :: memory := rfl
      simp only [hend, hskip, hb, some_bind]
      exact hloop (parses_none [b] memory)
    · have hend : exeLoop false (wide cs) (space :: t' ++ 0 :: memory) =
          (wide cs, t' ++ 0 :: memory) := rfl
      simp only [hend, hb, some_bind]
      exact hloop (hrest [b] memory)
  · rw [List.map_cons, hbb, ← hbytes, hbs]

def ofChars (cs : List Char) : Wtf8 :=
  ⟨encode (cs.map CodePoint.fromChar), _, chain_fromChar cs, rfl⟩

theorem units_ofChars {cs : List Char} {u : List UInt16}
    (h : encodeWide (ofChars cs).bytes = some u) : u = wide (cs.map CodePoint.fromChar) := by
  rw [ofChars, encodeWide_encode] at h
  exact (Option.some.inj h).symm

def awkward : List (Wtf8 × Bool) :=
  [(ofChars ['"', 'a', '\\'], false), (ofChars [], false), (ofChars [' ', '\\', '"', '\\'], false)]

theorem parseLpCmdLine_roundTrip_awkward :
    ∃ cmd ret, commandLine (ofChars ['C', ' ', '\\'])
        (awkward.map fun a => (.regular a.1, a.2)) = .ok cmd ∧
      parseLpCmdLine (some (cmd ++ [0])) Wtf8Buf.new = some ret ∧
      ret.map Wtf8Buf.bytes = [[0x43, 0x20, 0x5C], [0x22, 0x61, 0x5C], [], [0x20, 0x5C, 0x22, 0x5C]] := by
  refine parseLpCmdLine_roundTrip (ofChars ['C', ' ', '\\']) awkward Wtf8Buf.new [] ?_ ?_
  · intro u hu
    rw [units_ofChars hu]
    decide
  · intro a ha u hu
    rcases List.mem_cons.mp ha with rfl | ha
    · rw [units_ofChars hu]
      decide
    rcases List.mem_cons.mp ha with rfl | ha
    · rw [units_ofChars hu]
      decide
    · obtain rfl := List.mem_singleton.mp ha
      rw [units_ofChars hu]
      decide

end RustStd.WindowsArgs
