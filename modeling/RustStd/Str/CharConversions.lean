import RustStd.Slice.BinarySearch
import RustStd.Str.CharMethods
import RustStd.Str.ConvertWhileAscii

/-!
# Case conversion of a `char`

Outside of ASCII the mappings are looked up in generated tables by binary search. A value that is no scalar
value stands for an index into a table of expansions. The bit sets of the properties are parameters.
-/

set_option autoImplicit false

namespace RustStd.CaseMapping
open RustStd.BinarySearch RustStd.CharMethods

def indexMask : UInt32 := 0x400000

/-- The generated table of a mapping, with what its lookups rely on. -/
structure CaseTable where
  table : List (Char × UInt32)
  multi : List (Char × Char × Char)
  sorted : table.Pairwise fun a b => a.1 < b.1
  indexed : ∀ e ∈ table, ¬ e.2.toNat.isValidChar → (e.2 &&& (indexMask-1)).toNat < multi.length
  padded : ∀ m ∈ multi, m.2.1 = '\x00' → m.2.2 = '\x00'

structure Tables where
  lower : CaseTable
  upper : CaseTable
  cased : Char → Bool
  caseIgnorable : Char → Bool
  sigma : ('Σ', 963) ∈ lower.table

def isAscii (c : Char) : Bool := c.toNat ≤ 0x7F

def isAsciiAlphabetic (c : Char) : Bool := ('A' ≤ c && c ≤ 'Z') || ('a' ≤ c && c ≤ 'z')

/-- `char_try_from_u32`; the surrogates wrap around to the numbers above the scalar values. -/
def charTryFromU32 (i : UInt32) : Option (Option Char) :=
  if (i ^^^ 0xD800)-0x800 ≥ 0x110000-0x800 then some none
  else (fromU32Unchecked i.toNat).map some

def compareKey (c : Char) : Comparator Unit (Char × UInt32) := fun _ e => (compare e.1 c, ())

def CaseTable.expand (t : CaseTable) (u : UInt32) : Option (Char × Char × Char) := do
  match ← charTryFromU32 u with
  | some c => return (c, '\x00', '\x00')
  | none => t.multi[(u &&& (indexMask-1)).toNat]?

def CaseTable.lookup (t : CaseTable) (c : Char) : Option (Char × Char × Char) := do
  match ← binarySearchBy (compareKey c) t.table () with
  | (.ok i, _) => do
    let e ← t.table[i]?
    t.expand e.2
  | (.error _, _) => return (c, '\x00', '\x00')

/-- A function of `conversions`, with its conversion of ASCII bytes and its table. -/
def convertChar (ascii : UInt8 → UInt8) (t : CaseTable) (c : Char) : Option (Char × Char × Char) :=
  if isAscii c then some (Char.ofNat (ascii (UInt8.ofNat c.toNat)).toNat, '\x00', '\x00')
  else t.lookup c

/-- `CaseMappingIter::new`; the first char is not checked. -/
def caseMappingIter (chars : Char × Char × Char) : List Char :=
  if chars.2.2 = '\x00' then
    if chars.2.1 = '\x00' then [chars.1] else [chars.1, chars.2.1]
  else [chars.1, chars.2.1, chars.2.2]

section Conversions

variable (t : Tables)

def toLower (c : Char) : Option (Char × Char × Char) := convertChar toAsciiLowercase t.lower c

def toUpper (c : Char) : Option (Char × Char × Char) := convertChar toAsciiUppercase t.upper c

def charToLowercase (c : Char) : Option (List Char) := (toLower t c).map caseMappingIter

def charToUppercase (c : Char) : Option (List Char) := (toUpper t c).map caseMappingIter

def isCased (c : Char) : Bool := if isAscii c then isAsciiAlphabetic c else t.cased c

def isCaseIgnorable (c : Char) : Bool :=
  if isAscii c then c ∈ ['\x27', '.', ':', '^', '\x60'] else t.caseIgnorable c

end Conversions

/-! ## The lookups -/

theorem xor_surrogates (n : ℕ) :
    (n ^^^ 0xD800) >>> 11 = n >>> 11 ^^^ 27 ∧ (n ^^^ 0xD800) >>> 16 = n >>> 16 := by
  rw [Nat.shiftRight_xor_distrib, Nat.shiftRight_xor_distrib]
  exact ⟨rfl, Nat.xor_zero _⟩

theorem wrapped_iff (i : UInt32) :
    (i ^^^ 0xD800)-0x800 ≥ 0x110000-0x800 ↔ ¬ i.toNat.isValidChar := by
  obtain ⟨hlow, hhigh⟩ := xor_surrogates i.toNat
  have hxor : (i ^^^ 0xD800).toNat = i.toNat ^^^ 0xD800 := UInt32.toNat_xor _ _
  have hlt := (i ^^^ 0xD800).toNat_lt
  have hsurrogate : i.toNat >>> 11 ^^^ 27 = 0 ↔ i.toNat >>> 11 = 27 := Nat.xor_eq_zero_iff
  rw [← hlow] at hsurrogate
  rw [← hxor] at hsurrogate hhigh
  have hbound : ((0x110000 : UInt32)-0x800).toNat = 0x10F800 := rfl
  have hstep : (0x800 : UInt32).toNat = 0x800 := rfl
  rw [ge_iff_le, UInt32.le_iff_toNat_le, hbound, UInt32.toNat_sub, hstep, Nat.isValidChar]
  simp only [Nat.shiftRight_eq_div_pow] at hsurrogate hhigh
  generalize (i ^^^ 0xD800).toNat = x at *
  omega

theorem charTryFromU32_eq (i : UInt32) :
    charTryFromU32 i = some (fromU32Unchecked i.toNat) := by
  rw [charTryFromU32]
  by_cases h : i.toNat.isValidChar
  · rw [if_neg (by rw [wrapped_iff]; exact not_not.mpr h), fromU32Unchecked, dif_pos h]
    rfl
  · rw [if_pos ((wrapped_iff i).mpr h), fromU32Unchecked, dif_neg h]

theorem compareKey_answers (c : Char) : Answers (compareKey c) fun e => compare e.1 c :=
  fun _ _ => rfl

theorem orderedBy_of_sorted {v : List (Char × UInt32)} (h : v.Pairwise fun a b => a.1 < b.1)
    (c : Char) : OrderedBy (fun e => compare e.1 c) v := by
  induction v with
  | nil => exact ⟨[], [], [], rfl, nofun, nofun, nofun⟩
  | cons e v ih =>
    obtain ⟨hfirst, hrest⟩ := List.pairwise_cons.mp h
    rcases lt_trichotomy e.1 c with hc | hc | hc
    · obtain ⟨less, equal, greater, rfl, hl, he, hg⟩ := ih hrest
      refine ⟨e :: less, equal, greater, rfl, ?_, he, hg⟩
      exact List.forall_mem_cons.mpr ⟨compare_lt_iff_lt.mpr hc, hl⟩
    · refine ⟨[], [e], v, rfl, nofun, ?_, ?_⟩
      · exact List.forall_mem_singleton.mpr (compare_eq_iff_eq.mpr hc)
      · exact fun x hx => compare_gt_iff_gt.mpr (hc ▸ hfirst x hx)
    · refine ⟨[], [], e :: v, rfl, nofun, nofun, ?_⟩
      refine List.forall_mem_cons.mpr ⟨compare_gt_iff_gt.mpr hc, fun x hx => ?_⟩
      exact compare_gt_iff_gt.mpr (hc.trans (hfirst x hx))

section Tables

variable {t : CaseTable}

theorem CaseTable.expand_some (t : CaseTable) {e : Char × UInt32} (he : e ∈ t.table) :
    ∃ m, t.expand e.2 = some m ∧ (m.2.1 = '\x00' → m.2.2 = '\x00') := by
  rw [CaseTable.expand, charTryFromU32_eq]
  by_cases h : e.2.toNat.isValidChar
  · rw [fromU32Unchecked, dif_pos h]
    exact ⟨_, rfl, fun _ => rfl⟩
  · rw [fromU32Unchecked, dif_neg h]
    have hlt := t.indexed e he h
    exact ⟨_, List.getElem?_eq_getElem hlt, t.padded _ (List.getElem_mem hlt)⟩

theorem CaseTable.lookup_some (t : CaseTable) (c : Char) :
    ∃ m, t.lookup c = some m ∧ (m.2.1 = '\x00' → m.2.2 = '\x00') := by
  obtain ⟨r, captured, hsearch, hbounds, -⟩ := binarySearchBy_correct (compareKey c) t.table ()
  rw [CaseTable.lookup, hsearch]
  cases r with
  | error i => exact ⟨_, rfl, fun _ => rfl⟩
  | ok i =>
    have hlt : i < t.table.length := hbounds
    obtain ⟨m, hm, hpadded⟩ := t.expand_some (List.getElem_mem hlt)
    refine ⟨m, ?_, hpadded⟩
    simp only [some_bind, List.getElem?_eq_getElem hlt, hm]

theorem CaseTable.lookup_entry {c : Char} {u : UInt32} (h : (c, u) ∈ t.table) :
    t.lookup c = t.expand u := by
  obtain ⟨r, captured, hsearch, -, hfinds⟩ := binarySearchBy_correct (compareKey c) t.table ()
  obtain ⟨hfound, hiff⟩ := hfinds _ (compareKey_answers c) (orderedBy_of_sorted t.sorted c)
  obtain ⟨i, rfl⟩ := hiff.mpr ⟨(c, u), h, compare_eq_iff_eq.mpr rfl⟩
  obtain ⟨e, he, hkey⟩ := hfound
  have hentry : e = (c, u) := by
    -- two entries of one key cannot stand at different places
    obtain ⟨j, hj, hju⟩ := List.getElem_of_mem h
    obtain ⟨hi, hie⟩ := List.getElem?_eq_some_iff.mp he
    have hpair := List.pairwise_iff_getElem.mp t.sorted
    have hkey' : e.1 = c := compare_eq_iff_eq.mp hkey
    rcases lt_trichotomy i j with hij | rfl | hij
    · have hlt := hpair i j hi hj hij
      rw [hie, hju, hkey'] at hlt
      exact absurd hlt (lt_irrefl _)
    · rw [← hie, hju]
    · have hlt := hpair j i hj hi hij
      rw [hie, hju, hkey'] at hlt
      exact absurd hlt (lt_irrefl _)
  rw [CaseTable.lookup, hsearch]
  simp only [some_bind, he, hentry]

end Tables

theorem convertChar_some (ascii : UInt8 → UInt8) (t : CaseTable) (c : Char) :
    ∃ m, convertChar ascii t c = some m ∧ (m.2.1 = '\x00' → m.2.2 = '\x00') := by
  rw [convertChar]
  by_cases h : isAscii c
  · rw [if_pos h]
    exact ⟨_, rfl, fun _ => rfl⟩
  · rw [if_neg h]
    exact t.lookup_some c

theorem charToLowercase_sigma (t : Tables) : charToLowercase t 'Σ' = some ['σ'] := by
  have hlookup : t.lower.lookup 'Σ' = some ('σ', '\x00', '\x00') := by
    rw [CaseTable.lookup_entry t.sigma, CaseTable.expand, charTryFromU32_eq]
    rfl
  have hlower : toLower t 'Σ' = some ('σ', '\x00', '\x00') := hlookup
  rw [charToLowercase, hlower]
  rfl

end RustStd.CaseMapping
