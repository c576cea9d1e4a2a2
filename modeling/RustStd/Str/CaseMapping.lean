import RustStd.Str.CharConversions
import RustStd.Str.Iter

/-!
# Case conversion of a string

After the ASCII prefix the chars are mapped one by one. The context of a capital sigma is looked up in the
original string, at its offset in the rest plus the length of the converted prefix.
-/

set_option autoImplicit false

namespace RustStd.CaseMapping
open RustStd.Loop RustStd.DoubleEnded RustStd.Utf8Grammar RustStd.Chars RustStd.CharMethods RustStd.StrIter

def push (s : List UInt8) (ch : Char) : Option (List UInt8) := do
  let written ← encodeUtf8RawUnchecked ch.toNat (List.replicate (lenUtf8 ch.toNat) 0)
  return s ++ written

/-- The patterns `[a, '\0', _]`, `[a, b, '\0']` and `[a, b, c]`. -/
def pushMapped (s : List UInt8) (m : Char × Char × Char) : Option (List UInt8) :=
  if m.2.1 = '\x00' then push s m.1
  else if m.2.2 = '\x00' then do
    let s ← push s m.1
    push s m.2.1
  else do
    let s ← push s m.1
    let s ← push s m.2.1
    push s m.2.2

section Code

variable (t : Tables)

/-- `skip_while` asks for the next char, which decides if it is not case-ignorable. -/
def skipStep {σ : Type} (next : σ → Option (Option Char × σ)) (iter : σ) : Option (σ ⊕ Bool) := do
  match ← next iter with
  | (none, _) => return .inr false
  | (some c, iter) => return if isCaseIgnorable t c then .inl iter else .inr (isCased t c)

def caseIgnorableThenCased {σ : Type} (next : σ → Option (Option Char × σ)) (fuel : ℕ) (iter : σ) :
    Option Bool :=
  loop (skipStep t next) fuel iter

def isWordFinal (text : List UInt8) (i : ℕ) : Option Bool := do
  let before ← strTo text i
  if ← caseIgnorableThenCased t Chars.nextBack (text.length+1) (chars before) then
    let after ← strFrom text (i+2)
    let followed ← caseIgnorableThenCased t Chars.next (text.length+1) (chars after)
    return !followed
  else return false

def mapUppercaseSigma (text : List UInt8) (i : ℕ) : Option Char := do
  return if ← isWordFinal t text i then 'ς' else 'σ'

def lowercaseChar (self : List UInt8) (prefixLen : ℕ) (s : List UInt8) (item : ℕ × Char) :
    Option (List UInt8) :=
  if item.2 = 'Σ' then do
    let sigmaLowercase ← mapUppercaseSigma t self (prefixLen+item.1)
    push s sigmaLowercase
  else do
    let m ← toLower t item.2
    pushMapped s m

def toLowercase (self : List UInt8) : Option (List UInt8) := do
  let (s, rest) ← convertWhileAscii toAsciiLowercase self
  let prefixLen := s.length
  let items ← collect CharIndices.next (rest.length+1) (charIndices rest)
  items.foldlM (lowercaseChar t self prefixLen) s

def uppercaseChar (s : List UInt8) (c : Char) : Option (List UInt8) := do
  let m ← toUpper t c
  pushMapped s m

def toUppercase (self : List UInt8) : Option (List UInt8) := do
  let (s, rest) ← convertWhileAscii toAsciiUppercase self
  let cs ← collect Chars.next (rest.length+1) (chars rest)
  cs.foldlM (uppercaseChar t) s

end Code

/-! ## The definition char by char -/

/-- The chars before `pre` ends end in a char of the class and then only ignorable ones. -/
def EndsIn (p : Char → Prop) (ignorable : Char → Bool) (pre : List Char) : Prop :=
  ∃ x c skipped, pre = x ++ c :: skipped ∧ p c ∧ ∀ d ∈ skipped, ignorable d

/-- Only ignorable chars and then a char of the class come first. -/
def StartsWith (p : Char → Prop) (ignorable : Char → Bool) (post : List Char) : Prop :=
  ∃ skipped c x, post = skipped ++ c :: x ∧ p c ∧ ∀ d ∈ skipped, ignorable d

/-- The context in which a sigma ends a word. -/
def FinalSigma (p : Char → Prop) (ignorable : Char → Bool) (pre post : List Char) : Prop :=
  EndsIn p ignorable pre ∧ ¬ StartsWith p ignorable post

open Classical in
/-- A char is mapped by itself, but for a sigma that ends a word. -/
noncomputable def lowercaseAt (t : Tables) (final : List Char → List Char → Prop)
    (pre : List Char) (c : Char) (post : List Char) : Option (List Char) :=
  if c = 'Σ' ∧ final pre post then some ['ς'] else charToLowercase t c

noncomputable def lowercaseFrom (t : Tables) (final : List Char → List Char → Prop) :
    List Char → List Char → Option (List Char)
  | _, [] => some []
  | pre, c :: post => do
    let m ← lowercaseAt t final pre c post
    let rest ← lowercaseFrom t final (pre ++ [c]) post
    return m ++ rest

noncomputable def lowercaseByChars (t : Tables) (final : List Char → List Char → Prop)
    (cs : List Char) : Option (List Char) :=
  lowercaseFrom t final [] cs

def uppercaseByChars (t : Tables) (cs : List Char) : Option (List Char) :=
  (cs.mapM (charToUppercase t)).map List.flatten

/-! ## Pushing -/

theorem push_eq (s : List UInt8) (c : Char) : push s c = some (s ++ utf8Bytes c.toNat) := by
  have hroom : lenUtf8 c.toNat ≤ (List.replicate (lenUtf8 c.toNat) (0 : UInt8)).length := by
    rw [List.length_replicate]
  have hdrop : (List.replicate (lenUtf8 c.toNat) (0 : UInt8)).drop (lenUtf8 c.toNat) = [] :=
    List.drop_eq_nil_of_le (by rw [List.length_replicate])
  rw [push, encodeUtf8RawUnchecked_eq _ _ (toNat_lt_limit c).1 hroom, hdrop, List.append_nil]
  rfl

theorem pushMapped_eq (s : List UInt8) {m : Char × Char × Char}
    (hpadded : m.2.1 = '\x00' → m.2.2 = '\x00') :
    pushMapped s m = some (s ++ encoded (caseMappingIter m)) := by
  rw [pushMapped, caseMappingIter]
  by_cases hb : m.2.1 = '\x00'
  · rw [if_pos hb, if_pos (hpadded hb), if_pos hb, push_eq, encoded_cons]
    rw [show encoded [] = [] from rfl, List.append_nil]
  · rw [if_neg hb]
    by_cases hc : m.2.2 = '\x00'
    · rw [if_pos hc, if_pos hc, if_neg hb]
      simp only [push_eq, some_bind, List.append_assoc]
      rw [encoded_cons, encoded_cons, show encoded [] = [] from rfl, List.append_nil]
    · rw [if_neg hc, if_neg hc]
      simp only [push_eq, some_bind, List.append_assoc]
      rw [encoded_cons, encoded_cons, encoded_cons, show encoded [] = [] from rfl, List.append_nil]

theorem convertChar_pushed (ascii : UInt8 → UInt8) (t : CaseTable) (c : Char) :
    ∃ l, (convertChar ascii t c).map caseMappingIter = some l ∧
      ∀ s, (convertChar ascii t c).bind (pushMapped s) = some (s ++ encoded l) := by
  obtain ⟨m, hm, hpadded⟩ := convertChar_some ascii t c
  rw [hm]
  exact ⟨caseMappingIter m, rfl, fun s => pushMapped_eq s hpadded⟩

/-! ## The ASCII prefix -/

def asciiChar (ascii : UInt8 → UInt8) (c : Char) : Char :=
  Char.ofNat (ascii (UInt8.ofNat c.toNat)).toNat

theorem toNat_unit_ascii {c : Char} (h : isAscii c) :
    c.toNat < 0x80 ∧ (UInt8.ofNat c.toNat).toNat = c.toNat := by
  have hlt : c.toNat < 0x80 := Nat.lt_succ_of_le (of_decide_eq_true h)
  exact ⟨hlt, toNat_unit (by omega)⟩

theorem utf8Bytes_ascii {c : Char} (h : isAscii c) : utf8Bytes c.toNat = [UInt8.ofNat c.toNat] := by
  rw [utf8Bytes, utf8Units, if_pos (toNat_unit_ascii h).1]
  rfl

theorem ofNat_le_ascii {c : Char} (h : isAscii c) : UInt8.ofNat c.toNat ≤ 127 := by
  obtain ⟨hlt, hunit⟩ := toNat_unit_ascii h
  rw [UInt8.le_iff_toNat_le, hunit]
  exact Nat.le_of_lt_succ hlt

theorem utf8Bytes_lead {c : Char} (h : ¬ isAscii c) :
    ∃ b r, utf8Bytes c.toNat = b :: r ∧ ¬ b ≤ 127 := by
  obtain ⟨hlimit, -⟩ := toNat_lt_limit c
  have hge : ¬ c.toNat < 0x80 := fun hlt => h (decide_eq_true (Nat.le_of_lt_succ hlt))
  have hlead : ∀ {n : ℕ}, 127 < n → n < 256 → ¬ UInt8.ofNat n ≤ 127 := by
    intro n hn hlt hle
    rw [UInt8.le_iff_toNat_le, toNat_unit hlt] at hle
    exact absurd hn (Nat.not_lt.mpr hle)
  rw [utf8Bytes, utf8Units, if_neg hge]
  split_ifs
  · exact ⟨_, _, rfl, hlead (by omega) (by omega)⟩
  · exact ⟨_, _, rfl, hlead (by omega) (by omega)⟩
  · exact ⟨_, _, rfl, hlead (by omega) (by omega)⟩

theorem ascii_split (cs : List Char) :
    (encoded cs).takeWhile (fun b => decide (b ≤ 127)) = encoded (cs.takeWhile isAscii) ∧
      (encoded cs).dropWhile (fun b => decide (b ≤ 127)) = encoded (cs.dropWhile isAscii) := by
  induction cs with
  | nil => exact ⟨rfl, rfl⟩
  | cons c cs ih =>
    obtain ⟨htake, hdrop⟩ := ih
    rw [encoded_cons]
    by_cases h : isAscii c
    · have hb := decide_eq_true (ofNat_le_ascii h)
      rw [utf8Bytes_ascii h, List.singleton_append,
        List.takeWhile_cons_of_pos (p := fun b => decide (b ≤ 127)) hb,
        List.dropWhile_cons_of_pos (p := fun b => decide (b ≤ 127)) hb,
        List.takeWhile_cons_of_pos h, List.dropWhile_cons_of_pos h, htake, hdrop, encoded_cons,
        utf8Bytes_ascii h]
      exact ⟨rfl, rfl⟩
    · obtain ⟨b, r, hbytes, hlead⟩ := utf8Bytes_lead h
      have hb : ¬ decide (b ≤ 127) = true := by rwa [decide_eq_true_iff]
      rw [List.takeWhile_cons_of_neg h, List.dropWhile_cons_of_neg h, encoded_cons, hbytes,
        List.cons_append, List.takeWhile_cons_of_neg (p := fun b => decide (b ≤ 127)) hb,
        List.dropWhile_cons_of_neg (p := fun b => decide (b ≤ 127)) hb]
      exact ⟨rfl, rfl⟩

set_option maxRecDepth 8000 in
theorem toAsciiLowercase_le : ∀ b : UInt8, b ≤ 127 → toAsciiLowercase b ≤ 127 := by decide

set_option maxRecDepth 8000 in
theorem toAsciiUppercase_le : ∀ b : UInt8, b ≤ 127 → toAsciiUppercase b ≤ 127 := by decide

section Ascii

variable {ascii : UInt8 → UInt8} {cs : List Char}

theorem utf8Bytes_asciiChar (hascii : ∀ b ≤ 127, ascii b ≤ 127) {c : Char} (h : isAscii c) :
    utf8Bytes (asciiChar ascii c).toNat = [ascii (UInt8.ofNat c.toNat)] := by
  have hle := UInt8.le_iff_toNat_le.mp (hascii _ (ofNat_le_ascii h))
  have hle' : (ascii (UInt8.ofNat c.toNat)).toNat ≤ 127 := hle
  have hchar : (asciiChar ascii c).toNat = (ascii (UInt8.ofNat c.toNat)).toNat := by
    rw [asciiChar, Char.toNat_ofNat, if_pos (.inl (by omega))]
  have hbyte : isAscii (asciiChar ascii c) := decide_eq_true (hchar ▸ hle')
  rw [utf8Bytes_ascii hbyte, hchar, UInt8.ofNat_toNat]

theorem map_encoded_ascii (hascii : ∀ b ≤ 127, ascii b ≤ 127) (h : ∀ c ∈ cs, isAscii c) :
    (encoded cs).map ascii = encoded (cs.map (asciiChar ascii)) := by
  induction cs with
  | nil => rfl
  | cons c cs ih =>
    obtain ⟨hc, hcs⟩ := List.forall_mem_cons.mp h
    rw [List.map_cons, encoded_cons, encoded_cons, List.map_append, ih hcs, utf8Bytes_ascii hc,
      utf8Bytes_asciiChar hascii hc]
    rfl

theorem convertChar_ascii (t : CaseTable) {c : Char} (h : isAscii c) :
    (convertChar ascii t c).map caseMappingIter = some [asciiChar ascii c] := by
  rw [convertChar, if_pos h]
  rfl

theorem ne_sigma {c : Char} (h : isAscii c) : c ≠ 'Σ' := by
  intro hc
  rw [hc] at h
  exact absurd h (by decide)

end Ascii

/-! ## The context of a sigma -/

section Sigma

variable (t : Tables)

/-- Cased, and not skipped as case-ignorable. -/
def PlainlyCased (c : Char) : Prop := isCased t c ∧ ¬ isCaseIgnorable t c

/-- What `case_ignorable_then_cased` computes over the chars of the iterator. -/
def ignorableThenCased (cs : List Char) : Bool :=
  (cs.dropWhile (isCaseIgnorable t)).head?.any (isCased t)

theorem ignorableThenCased_iff (cs : List Char) :
    ignorableThenCased t cs = true ↔ StartsWith (PlainlyCased t) (isCaseIgnorable t) cs := by
  induction cs with
  | nil =>
    constructor
    · nofun
    · rintro ⟨skipped, c, x, hsplit, -⟩
      exact absurd hsplit.symm (List.append_ne_nil_of_right_ne_nil _ (List.cons_ne_nil c x))
  | cons d cs ih =>
    rw [ignorableThenCased]
    by_cases hd : isCaseIgnorable t d
    · rw [List.dropWhile_cons_of_pos hd]
      refine ih.trans ⟨?_, ?_⟩
      · rintro ⟨skipped, c, x, rfl, hc, hskipped⟩
        exact ⟨d :: skipped, c, x, rfl, hc, List.forall_mem_cons.mpr ⟨hd, hskipped⟩⟩
      · rintro ⟨skipped, c, x, hsplit, hc, hskipped⟩
        rcases skipped with _ | ⟨e, skipped⟩
        · obtain ⟨rfl, -⟩ := List.cons.inj hsplit
          exact absurd hd hc.2
        · obtain ⟨rfl, rfl⟩ := List.cons.inj hsplit
          exact ⟨skipped, c, x, rfl, hc, fun a ha => hskipped a (List.mem_cons_of_mem _ ha)⟩
    · rw [List.dropWhile_cons_of_neg hd]
      constructor
      · exact fun hcased => ⟨[], d, cs, rfl, ⟨hcased, hd⟩, nofun⟩
      · rintro ⟨skipped, c, x, hsplit, hc, hskipped⟩
        rcases skipped with _ | ⟨e, skipped⟩
        · obtain ⟨rfl, -⟩ := List.cons.inj hsplit
          exact hc.1
        · obtain ⟨rfl, -⟩ := List.cons.inj hsplit
          exact absurd (hskipped d List.mem_cons_self) hd

variable {t}

theorem endsIn_iff_reverse {p : Char → Prop} {ignorable : Char → Bool} {pre : List Char} :
    EndsIn p ignorable pre ↔ StartsWith p ignorable pre.reverse := by
  constructor
  · rintro ⟨x, c, skipped, rfl, hc, hskipped⟩
    refine ⟨skipped.reverse, c, x.reverse, by simp, hc, ?_⟩
    exact fun d hd => hskipped d (List.mem_reverse.mp hd)
  · rintro ⟨skipped, c, x, hsplit, hc, hskipped⟩
    refine ⟨x.reverse, c, skipped.reverse, ?_, hc, fun d hd => hskipped d (List.mem_reverse.mp hd)⟩
    rw [List.reverse_eq_iff.mp hsplit]
    simp

theorem caseIgnorableThenCased_eq {σ : Type} {next back : σ → Option (Option Char × σ)}
    {R : σ → List Char → Prop} (h : Holds next back R) {iter : σ} {cs : List Char} (hs : R iter cs)
    {fuel : ℕ} (hf : cs.length < fuel) :
    caseIgnorableThenCased t next fuel iter = some (ignorableThenCased t cs) := by
  induction cs generalizing iter fuel with
  | nil =>
    obtain ⟨k, rfl⟩ : ∃ k, fuel = k+1 := ⟨fuel-1, by rw [List.length_nil] at hf; omega⟩
    obtain ⟨iter', hnext, -⟩ := h.next_nil iter hs
    have hstep : skipStep t next iter = some (.inr false) := by rw [skipStep, hnext]; rfl
    rw [caseIgnorableThenCased, loop, hstep]
    rfl
  | cons c cs ih =>
    rw [List.length_cons] at hf
    obtain ⟨k, rfl⟩ : ∃ k, fuel = k+1 := ⟨fuel-1, by omega⟩
    obtain ⟨iter', hnext, hs'⟩ := h.next_cons iter c cs hs
    rw [caseIgnorableThenCased, loop, ignorableThenCased]
    by_cases hc : isCaseIgnorable t c
    · have hstep : skipStep t next iter = some (.inl iter') := by
        rw [skipStep, hnext]
        exact congrArg some (if_pos hc)
      rw [hstep, List.dropWhile_cons_of_pos hc]
      exact ih hs' (by omega)
    · have hstep : skipStep t next iter = some (.inr (isCased t c)) := by
        rw [skipStep, hnext]
        exact congrArg some (if_neg hc)
      rw [hstep, List.dropWhile_cons_of_neg hc]
      rfl

theorem encoded_length_ge (cs : List Char) : cs.length ≤ (encoded cs).length := by
  induction cs with
  | nil => exact Nat.le_refl _
  | cons c cs ih =>
    have hpos := List.length_pos_of_ne_nil (utf8Bytes_sequence c).1.ne_nil
    rw [encoded_cons, List.length_append, List.length_cons]
    omega

theorem slice_encoded (pre post : List Char) :
    strTo (encoded (pre ++ post)) (encoded pre).length = some (encoded pre) ∧
      strFrom (encoded (pre ++ post)) (encoded pre).length = some (encoded post) := by
  have hboundary : isCharBoundary (encoded (pre ++ post)) (encoded pre).length = true := by
    rw [isCharBoundary_iff (encoded_wellFormed _), encoded_append, List.take_left,
      List.length_append]
    exact ⟨Nat.le_add_right _ _, encoded_wellFormed pre⟩
  rw [strTo, strFrom, if_pos hboundary, if_pos hboundary, encoded_append, List.take_left,
    List.drop_left]
  exact ⟨rfl, rfl⟩

theorem isWordFinal_eq (pre post : List Char) :
    isWordFinal t (encoded (pre ++ 'Σ' :: post)) (encoded pre).length =
      some (ignorableThenCased t pre.reverse && !ignorableThenCased t post) := by
  have hsigma : utf8Bytes 'Σ'.toNat = [0xCE, 0xA3] := by decide
  have hafter : (encoded pre).length+2 = (encoded (pre ++ ['Σ'])).length := by
    rw [encoded_concat, hsigma, List.length_append]
    rfl
  have hlength := encoded_length_ge (pre ++ 'Σ' :: post)
  rw [List.length_append, List.length_cons] at hlength
  have hbefore : caseIgnorableThenCased t Chars.nextBack ((encoded (pre ++ 'Σ' :: post)).length+1)
      (chars (encoded pre)) = some (ignorableThenCased t pre.reverse) := by
    apply caseIgnorableThenCased_eq chars_holds.rev
    · rw [List.reverse_reverse]
    · rw [List.length_reverse]
      omega
  have hfollowed : caseIgnorableThenCased t Chars.next ((encoded (pre ++ 'Σ' :: post)).length+1)
      (chars (encoded post)) = some (ignorableThenCased t post) :=
    caseIgnorableThenCased_eq chars_holds rfl (by omega)
  have hfrom : strFrom (encoded (pre ++ 'Σ' :: post)) ((encoded pre).length+2) =
      some (encoded post) := by
    rw [hafter, ← List.singleton_append, ← List.append_assoc]
    exact (slice_encoded (pre ++ ['Σ']) post).2
  rw [isWordFinal, (slice_encoded pre _).1]
  simp only [some_bind, hbefore]
  cases ignorableThenCased t pre.reverse with
  | false => rfl
  | true =>
    rw [if_pos rfl, hfrom]
    simp only [some_bind, hfollowed]
    rfl

theorem isWordFinal_iff (pre post : List Char) :
    ∃ b, isWordFinal t (encoded (pre ++ 'Σ' :: post)) (encoded pre).length = some b ∧
      (b = true ↔ FinalSigma (PlainlyCased t) (isCaseIgnorable t) pre post) := by
  refine ⟨_, isWordFinal_eq pre post, ?_⟩
  rw [Bool.and_eq_true, Bool.not_eq_true', ← Bool.not_eq_true, ignorableThenCased_iff,
    ignorableThenCased_iff, FinalSigma, endsIn_iff_reverse]

end Sigma

/-! ## The conversions -/

section Conversion

variable (t : Tables)

/-- The context in which the code takes a sigma to end a word. -/
abbrev Final : List Char → List Char → Prop := FinalSigma (PlainlyCased t) (isCaseIgnorable t)

theorem lowercaseChar_eq (pre post : List Char) (c : Char) {prefixLen k : ℕ}
    (hk : prefixLen+k = (encoded pre).length) :
    ∃ l, lowercaseAt t (Final t) pre c post = some l ∧
      ∀ s, lowercaseChar t (encoded (pre ++ c :: post)) prefixLen s (k, c) =
        some (s ++ encoded l) := by
  by_cases hc : c = 'Σ'
  · subst hc
    obtain ⟨b, hb, hiff⟩ := isWordFinal_iff (t := t) pre post
    have hsigma : mapUppercaseSigma t (encoded (pre ++ 'Σ' :: post)) (prefixLen+k) =
        some (if b then 'ς' else 'σ') := by
      rw [mapUppercaseSigma, hk, hb]
      rfl
    have hpush : ∀ s, lowercaseChar t (encoded (pre ++ 'Σ' :: post)) prefixLen s (k, 'Σ') =
        some (s ++ encoded [if b then 'ς' else 'σ']) := by
      intro s
      rw [lowercaseChar, if_pos rfl, hsigma]
      simp only [some_bind, push_eq]
      rw [encoded_cons, show encoded [] = [] from rfl, List.append_nil]
    refine ⟨_, ?_, hpush⟩
    rw [lowercaseAt]
    by_cases hfinal : Final t pre post
    · rw [if_pos ⟨rfl, hfinal⟩, if_pos (hiff.mpr hfinal)]
    · rw [if_neg fun h => hfinal h.2, if_neg fun h => hfinal (hiff.mp h), charToLowercase_sigma]
  · obtain ⟨l, hl, hpush⟩ := convertChar_pushed toAsciiLowercase t.lower c
    refine ⟨l, ?_, fun s => ?_⟩
    · rw [lowercaseAt, if_neg fun h => hc h.1]
      exact hl
    · rw [lowercaseChar, if_neg hc]
      exact hpush s

theorem lowercase_rest (pre post : List Char) {prefixLen k : ℕ}
    (hk : prefixLen+k = (encoded pre).length) :
    ∃ l, lowercaseFrom t (Final t) pre post = some l ∧
      ∀ s, (withOffsets k (withBytes post)).foldlM
        (lowercaseChar t (encoded (pre ++ post)) prefixLen) s = some (s ++ encoded l) := by
  induction post generalizing pre k with
  | nil => exact ⟨[], rfl, fun s => congrArg some (List.append_nil s).symm⟩
  | cons c post ih =>
    obtain ⟨m, hm, hpush⟩ := lowercaseChar_eq t pre post c hk
    have hk' : prefixLen+(k+(utf8Bytes c.toNat).length) = (encoded (pre ++ [c])).length := by
      rw [encoded_concat, List.length_append]
      omega
    obtain ⟨l, hl, hrest⟩ := ih (pre ++ [c]) hk'
    rw [List.append_assoc, List.singleton_append] at hrest
    refine ⟨m ++ l, ?_, fun s => ?_⟩
    · rw [lowercaseFrom, hm]
      simp only [some_bind, hl]
      rfl
    · have hcons : withOffsets k (withBytes (c :: post)) =
          (k, c) :: withOffsets (k+(utf8Bytes c.toNat).length) (withBytes post) := rfl
      rw [hcons, List.foldlM_cons, hpush, encoded_append m l, ← List.append_assoc]
      exact hrest _

theorem lowercaseFrom_ascii (final : List Char → List Char → Prop) {as : List Char}
    (h : ∀ c ∈ as, isAscii c) (pre post : List Char) :
    lowercaseFrom t final pre (as ++ post) =
      (lowercaseFrom t final (pre ++ as) post).map (as.map (asciiChar toAsciiLowercase) ++ ·) := by
  induction as generalizing pre with
  | nil =>
    rw [List.nil_append, List.append_nil]
    exact Option.map_id'.symm
  | cons c as ih =>
    obtain ⟨hc, has⟩ := List.forall_mem_cons.mp h
    have hmap : charToLowercase t c = some [asciiChar toAsciiLowercase c] :=
      convertChar_ascii t.lower hc
    rw [List.cons_append, lowercaseFrom, lowercaseAt, if_neg fun h => ne_sigma hc h.1, hmap,
      ih has, List.append_assoc, List.singleton_append]
    simp only [some_bind]
    cases lowercaseFrom t final (pre ++ c :: as) post with
    | none => rfl
    | some l => rfl

theorem toLowercase_eq (cs : List Char) :
    ∃ l, lowercaseByChars t (Final t) cs = some l ∧
      toLowercase t (encoded cs) = some (encoded l) := by
  obtain ⟨htake, hdrop⟩ := ascii_split cs
  have has : ∀ c ∈ cs.takeWhile isAscii, isAscii c := fun c hc => List.mem_takeWhile_imp hc
  have hcs : cs.takeWhile isAscii ++ cs.dropWhile isAscii = cs := List.takeWhile_append_dropWhile
  generalize cs.takeWhile isAscii = as at *
  generalize cs.dropWhile isAscii = bs at *
  subst hcs
  have hmap := map_encoded_ascii toAsciiLowercase_le has
  have hlength : ((encoded as).map toAsciiLowercase).length+0 = (encoded as).length :=
    List.length_map _
  obtain ⟨l, hl, hfold⟩ := lowercase_rest t as bs hlength
  refine ⟨as.map (asciiChar toAsciiLowercase) ++ l, ?_, ?_⟩
  · rw [lowercaseByChars, lowercaseFrom_ascii t _ has, List.nil_append, hl]
    rfl
  · have hitems : collect CharIndices.next ((encoded bs).length+1) (charIndices (encoded bs)) =
        some (withOffsets 0 (withBytes bs)) := by
      apply collect_of_holds charIndices_holds ⟨bs, rfl, rfl⟩
      rw [withOffsets_length]
      exact Nat.lt_succ_of_le (encoded_length_ge bs)
    rw [toLowercase, convertWhileAscii_eq, htake, hdrop]
    simp only [some_bind, hitems]
    rw [hfold, hmap, encoded_append]

theorem uppercaseByChars_cons (c : Char) (cs : List Char) :
    uppercaseByChars t (c :: cs) =
      (charToUppercase t c).bind fun m => (uppercaseByChars t cs).map (m ++ ·) := by
  rw [uppercaseByChars, uppercaseByChars, List.mapM_cons]
  cases charToUppercase t c with
  | none => rfl
  | some m =>
    cases cs.mapM (charToUppercase t) with
    | none => rfl
    | some ms => rfl

theorem uppercase_rest (cs : List Char) :
    ∃ l, uppercaseByChars t cs = some l ∧
      ∀ s, cs.foldlM (uppercaseChar t) s = some (s ++ encoded l) := by
  induction cs with
  | nil => exact ⟨[], rfl, fun s => congrArg some (List.append_nil s).symm⟩
  | cons c cs ih =>
    obtain ⟨l, hl, hrest⟩ := ih
    obtain ⟨m, hm, hpush⟩ := convertChar_pushed toAsciiUppercase t.upper c
    have hchar : charToUppercase t c = some m := hm
    have hstep : ∀ s, uppercaseChar t s c = some (s ++ encoded m) := hpush
    refine ⟨m ++ l, ?_, fun s => ?_⟩
    · rw [uppercaseByChars_cons, hchar, hl]
      rfl
    · rw [List.foldlM_cons, hstep, encoded_append, ← List.append_assoc]
      exact hrest _

theorem uppercaseByChars_ascii {as : List Char} (h : ∀ c ∈ as, isAscii c) (cs : List Char) :
    uppercaseByChars t (as ++ cs) =
      (uppercaseByChars t cs).map (as.map (asciiChar toAsciiUppercase) ++ ·) := by
  induction as with
  | nil => exact Option.map_id'.symm
  | cons c as ih =>
    obtain ⟨hc, has⟩ := List.forall_mem_cons.mp h
    have hmap : charToUppercase t c = some [asciiChar toAsciiUppercase c] :=
      convertChar_ascii t.upper hc
    rw [List.cons_append, uppercaseByChars_cons, hmap, ih has]
    cases uppercaseByChars t cs with
    | none => rfl
    | some l => rfl

theorem toUppercase_eq (cs : List Char) :
    ∃ l, uppercaseByChars t cs = some l ∧ toUppercase t (encoded cs) = some (encoded l) := by
  obtain ⟨htake, hdrop⟩ := ascii_split cs
  have has : ∀ c ∈ cs.takeWhile isAscii, isAscii c := fun c hc => List.mem_takeWhile_imp hc
  have hcs : cs.takeWhile isAscii ++ cs.dropWhile isAscii = cs := List.takeWhile_append_dropWhile
  generalize cs.takeWhile isAscii = as at *
  generalize cs.dropWhile isAscii = bs at *
  subst hcs
  have hmap := map_encoded_ascii toAsciiUppercase_le has
  obtain ⟨l, hl, hfold⟩ := uppercase_rest t bs
  refine ⟨as.map (asciiChar toAsciiUppercase) ++ l, ?_, ?_⟩
  · rw [uppercaseByChars_ascii t has, hl]
    rfl
  · have hitems : collect Chars.next ((encoded bs).length+1) (chars (encoded bs)) = some bs :=
      collect_of_holds chars_holds rfl (Nat.lt_succ_of_le (encoded_length_ge bs))
    rw [toUppercase, convertWhileAscii_eq, htake, hdrop]
    simp only [some_bind, hitems]
    rw [hfold, hmap, encoded_append]

/-- The longest ASCII prefix is converted bytewise inside the reserved room and the rest starts at a char
boundary; both conversions map the chars one by one, but for a capital sigma behind a plainly cased char
and case-ignorable ones that is not followed by case-ignorable chars and then a plainly cased one. -/
theorem caseConversion_by_chars (s : Str) :
    ∃ cs, encoded cs = s.bytes ∧
      (∀ convert, convertWhileAscii convert s.bytes =
        some ((s.bytes.takeWhile fun b => decide (b ≤ 127)).map convert,
          s.bytes.dropWhile fun b => decide (b ≤ 127))) ∧
      strFrom s.bytes (s.bytes.takeWhile fun b => decide (b ≤ 127)).length =
        some (s.bytes.dropWhile fun b => decide (b ≤ 127)) ∧
      (∃ l, lowercaseByChars t (FinalSigma (PlainlyCased t) (isCaseIgnorable t)) cs = some l ∧
        toLowercase t s.bytes = some (encoded l)) ∧
      ∃ l, uppercaseByChars t cs = some l ∧ toUppercase t s.bytes = some (encoded l) := by
  obtain ⟨cs, hcs⟩ := exists_encoded s.wellFormed
  rw [← hcs]
  refine ⟨cs, rfl, fun convert => convertWhileAscii_eq convert _, ?_, toLowercase_eq t cs,
    toUppercase_eq t cs⟩
  obtain ⟨htake, hdrop⟩ := ascii_split cs
  have hslice := (slice_encoded (cs.takeWhile isAscii) (cs.dropWhile isAscii)).2
  rw [List.takeWhile_append_dropWhile] at hslice
  rw [htake, hdrop]
  exact hslice

end Conversion

def ypogegrammeniTables : Tables where
  lower := {
    table := [('Σ', 963)]
    multi := []
    sorted := List.pairwise_singleton _ _
    indexed := by decide
    padded := nofun
  }
  upper := {
    table := [('\u0345', 0x399)]
    multi := []
    sorted := List.pairwise_singleton _ _
    indexed := by decide
    padded := nofun
  }
  cased := fun c => c = '\u0345' || c = 'Σ'
  caseIgnorable := fun c => c = '\u0345'
  sigma := List.mem_singleton_self _

/-- A sigma behind a char that is both cased and case-ignorable does not end a word for the code. -/
theorem lowercase_cased_fails :
    ¬ ∀ (t : Tables) (s : Str), ∃ cs, encoded cs = s.bytes ∧
      ∃ l, lowercaseByChars t (FinalSigma (fun c => isCased t c) (isCaseIgnorable t)) cs = some l ∧
        toLowercase t s.bytes = some (encoded l) := by
  intro h
  obtain ⟨cs, hcs, l, hl, hcode⟩ := h ypogegrammeniTables
    ⟨encoded ['\u0345', 'Σ'], encoded_wellFormed _, by decide⟩
  obtain rfl : cs = ['\u0345', 'Σ'] := encoded_injective hcs
  have hbefore : EndsIn (fun c => isCased ypogegrammeniTables c)
      (isCaseIgnorable ypogegrammeniTables) ['\u0345'] :=
    ⟨[], '\u0345', [], rfl, by decide, nofun⟩
  have hafter : ¬ StartsWith (fun c => isCased ypogegrammeniTables c)
      (isCaseIgnorable ypogegrammeniTables) [] := by
    rintro ⟨skipped, c, x, hsplit, -⟩
    exact absurd hsplit.symm (List.append_ne_nil_of_right_ne_nil _ (List.cons_ne_nil c x))
  have hfirst : charToLowercase ypogegrammeniTables '\u0345' = some ['\u0345'] := by decide
  have hclaim : lowercaseByChars ypogegrammeniTables
      (FinalSigma (fun c => isCased ypogegrammeniTables c) (isCaseIgnorable ypogegrammeniTables))
      ['\u0345', 'Σ'] = some ['\u0345', 'ς'] := by
    rw [lowercaseByChars, lowercaseFrom, lowercaseAt, if_neg fun h => absurd h.1 (by decide),
      hfirst]
    rw [lowercaseFrom, lowercaseAt, if_pos ⟨rfl, hbefore, hafter⟩]
    rfl
  have hresult : toLowercase ypogegrammeniTables (encoded ['\u0345', 'Σ']) =
      some (encoded ['\u0345', 'σ']) := by decide
  obtain rfl := Option.some.inj (hclaim.symm.trans hl)
  exact absurd (encoded_injective (Option.some.inj (hresult.symm.trans hcode))) (by decide)

end RustStd.CaseMapping
