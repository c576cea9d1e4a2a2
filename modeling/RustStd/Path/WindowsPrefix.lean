import RustStd.Lib.Machine
import RustStd.Lib.Pieces

/-!
# Windows prefixes

`parse_prefix` looks at the first eight bytes with every `/` read as a `\`, and
takes the names that follow from the path itself. `none` on the outside is a
slice out of range.
-/

set_option autoImplicit false

namespace RustStd.WindowsPath

inductive Prefix
  | verbatim (x : List UInt8)
  | verbatimUNC (x y : List UInt8)
  | verbatimDisk (drive : UInt8)
  | deviceNS (x : List UInt8)
  | unc (x y : List UInt8)
  | disk (drive : UInt8)
  deriving DecidableEq, Repr

namespace Prefix

def len : Prefix → ℕ
  | .verbatim x => 4+x.length
  | .verbatimUNC x y => 8+x.length+if y.length > 0 then 1+y.length else 0
  | .verbatimDisk _ => 6
  | .unc x y => 2+x.length+if y.length > 0 then 1+y.length else 0
  | .deviceNS x => 4+x.length
  | .disk _ => 2

def isVerbatim : Prefix → Bool
  | .verbatim _ | .verbatimDisk _ | .verbatimUNC _ _ => true
  | _ => false

def isDrive : Prefix → Bool
  | .disk _ => true
  | _ => false

def hasImplicitRoot (p : Prefix) : Bool := !p.isDrive

theorem len_pos (p : Prefix) : 0 < p.len := by
  cases p <;> simp [len]

end Prefix

def isSepByte (b : UInt8) : Bool := b == 47 || b == 92

def isVerbatimSep (b : UInt8) : Bool := b == 92

def sliceFrom {α : Type} (path : List α) (n : ℕ) : Option (List α) :=
  if n ≤ path.length then some (path.drop n) else none

def sliceTo {α : Type} (path : List α) (n : ℕ) : Option (List α) :=
  if n ≤ path.length then some (path.take n) else none

structure PrefixParserSlice where
  path : List UInt8
  /-- The first bytes of the path, with backslashes only. -/
  start : List UInt8
  index : ℕ

namespace PrefixParserSlice

def new (path : List UInt8) : PrefixParserSlice :=
  { path, start := (path.take 8).map fun ch => if ch = 47 then 92 else ch, index := 0 }

def stripPrefix (self : PrefixParserSlice) (pat : List UInt8) : Option (Option PrefixParserSlice) := do
  let rest ← sliceFrom self.start self.index
  return if pat.isPrefixOf rest then some { self with index := self.index+pat.length } else none

def prefixBytes (self : PrefixParserSlice) : Option (List UInt8) := sliceTo self.path self.index

def finish (self : PrefixParserSlice) : Option (List UInt8) := sliceFrom self.path self.index

end PrefixParserSlice

def isValidDriveLetter (drive : UInt8) : Bool :=
  (65 ≤ drive && drive ≤ 90) || (97 ≤ drive && drive ≤ 122)

def toAsciiUppercase (b : UInt8) : UInt8 := if 97 ≤ b && b ≤ 122 then b-32 else b

def parseDrive : List UInt8 → Option UInt8
  | drive :: 58 :: _ => if isValidDriveLetter drive then some (toAsciiUppercase drive) else none
  | _ => none

def parseDriveExact (path : List UInt8) : Option UInt8 :=
  if (path[2]?.map isSepByte).getD true then parseDrive path else none

/-- The next component, and the path behind it and its separator. -/
def parseNextComponent (path : List UInt8) (verbatim : Bool) : List UInt8 × List UInt8 :=
  match path.findIdx? (if verbatim then isVerbatimSep else isSepByte) with
  | some separatorStart => (path.take separatorStart, path.drop (separatorStart+1))
  | none => (path, [])

def parseVerbatim (parser : PrefixParserSlice) : Option (Option Prefix) := do
  match ← parser.stripPrefix [85, 78, 67, 92] with
  | some parser =>
    let (server, path) := parseNextComponent (← parser.finish) true
    let (share, _) := parseNextComponent path true
    return some (.verbatimUNC server share)
  | none =>
    let path ← parser.finish
    match parseDriveExact path with
    | some drive => return some (.verbatimDisk drive)
    | none => return some (.verbatim (parseNextComponent path true).1)

def parseDeviceOrUnc (parser : PrefixParserSlice) : Option (Option Prefix) := do
  match ← parser.stripPrefix [46, 92] with
  | some parser =>
    return some (.deviceNS (parseNextComponent (← parser.finish) false).1)
  | none =>
    let (server, path) := parseNextComponent (← parser.finish) false
    let (share, _) := parseNextComponent path false
    return if !server.isEmpty && !share.isEmpty then some (.unc server share) else none

/-- On a target other than Cygwin. -/
def parsePrefix (path : List UInt8) : Option (Option Prefix) := do
  match ← (PrefixParserSlice.new path).stripPrefix [92, 92] with
  | some parser =>
    match ← parser.stripPrefix [63, 92] with
    | some verbatim =>
      if (← verbatim.prefixBytes).any (· == 47) then parseDeviceOrUnc parser
      else parseVerbatim verbatim
    | none => parseDeviceOrUnc parser
  | none => return (parseDrive path).map .disk

theorem sliceFrom_eq {α : Type} {path : List α} {n : ℕ} (h : n ≤ path.length) :
    sliceFrom path n = some (path.drop n) := if_pos h

theorem sliceTo_eq {α : Type} {path : List α} {n : ℕ} (h : n ≤ path.length) :
    sliceTo path n = some (path.take n) := if_pos h

namespace PrefixParserSlice

/-- The index is in both slices. -/
structure Valid (path : List UInt8) (s : PrefixParserSlice) : Prop where
  whole : s.path = path
  start_le : s.start.length ≤ path.length
  index_le : s.index ≤ s.start.length

variable {path : List UInt8} {self : PrefixParserSlice}

theorem valid_new (path : List UInt8) : Valid path (new path) := by
  constructor
  · rfl
  · simp [new]
  · simp [new]

theorem Valid.stripPrefix (h : Valid path self) (pat : List UInt8) :
    ∃ r, self.stripPrefix pat = some r ∧
      ∀ self', r = some self' → Valid path self' ∧ self'.index = self.index+pat.length := by
  rw [PrefixParserSlice.stripPrefix, sliceFrom_eq h.index_le]
  refine ⟨_, rfl, ?_⟩
  intro self' hs
  split_ifs at hs with hpat
  · cases hs
    have hle := (List.isPrefixOf_iff_prefix.mp hpat).length_le
    rw [List.length_drop] at hle
    have := h.index_le
    exact ⟨⟨h.whole, h.start_le, by dsimp only; omega⟩, rfl⟩

theorem Valid.finish (h : Valid path self) :
    self.finish = some (path.drop self.index) ∧ self.index ≤ path.length := by
  have hle := h.index_le.trans h.start_le
  refine ⟨?_, hle⟩
  rw [PrefixParserSlice.finish, h.whole, sliceFrom_eq hle]

end PrefixParserSlice

theorem findIdx_free {α : Type} {p : α → Bool} {us : List α} (h : ∀ u ∈ us, p u = false) :
    us.findIdx? p = none := List.findIdx?_eq_none_iff.mpr h

theorem findIdx_sep {α : Type} {p : α → Bool} {us vs : List α} {c : α}
    (h : ∀ u ∈ us, p u = false) (hc : p c = true) :
    (us++c::vs).findIdx? p = some us.length := by
  rw [List.findIdx?_append, findIdx_free h, List.findIdx?_cons]
  simp [hc]

theorem parseNextComponent_length (path : List UInt8) (verbatim : Bool) :
    (parseNextComponent path verbatim).1.length ≤ path.length ∧
      ((parseNextComponent path verbatim).2 ≠ [] →
        (parseNextComponent path verbatim).1.length+1+(parseNextComponent path verbatim).2.length ≤
          path.length) := by
  unfold parseNextComponent
  rcases Pieces.exists_first (if verbatim then isVerbatimSep else isSepByte) path with
    h | ⟨us, c, vs, rfl, h, hc⟩
  · rw [findIdx_free h]
    simp
  · rw [findIdx_sep h hc]
    simp only [List.length_take, List.length_drop, List.length_append, List.length_cons]
    omega

theorem serverShare_length {path : List UInt8} (verbatim : Bool) {n : ℕ} (hn : n ≤ path.length)
    {server share : List UInt8} (hserver : server = (parseNextComponent (path.drop n) verbatim).1)
    (hshare : share =
      (parseNextComponent (parseNextComponent (path.drop n) verbatim).2 verbatim).1) :
    n+server.length+(if share.length > 0 then 1+share.length else 0) ≤ path.length := by
  obtain ⟨hle, hmore⟩ := parseNextComponent_length (path.drop n) verbatim
  obtain ⟨hle', -⟩ :=
    parseNextComponent_length (parseNextComponent (path.drop n) verbatim).2 verbatim
  rw [← hserver, List.length_drop] at hle hmore
  rw [← hshare] at hle'
  split_ifs with hpos
  · have := hmore fun hnil => by rw [hnil, List.length_nil] at hle'; omega
    omega
  · omega

theorem parseDrive_length {path : List UInt8} {drive : UInt8} (h : parseDrive path = some drive) :
    2 ≤ path.length := by
  unfold parseDrive at h
  split at h
  · simp
  · cases h

section Parse

variable {path : List UInt8} {parser : PrefixParserSlice}
open PrefixParserSlice

theorem parseVerbatim_spec (h : Valid path parser) (hi : parser.index = 4) :
    ∃ p, parseVerbatim parser = some (some p) ∧ p.len ≤ path.length := by
  obtain ⟨r, hr, hnext⟩ := h.stripPrefix [85, 78, 67, 92]
  rw [parseVerbatim, hr]
  cases r with
  | some parser' =>
    obtain ⟨hvalid, hindex⟩ := hnext parser' rfl
    obtain ⟨hfinish, hle⟩ := hvalid.finish
    have hn : parser'.index = 8 := by rw [hindex, hi]; rfl
    simp only [some_bind, hfinish]
    rw [hn] at hle ⊢
    exact ⟨_, rfl, serverShare_length true hle rfl rfl⟩
  | none =>
    obtain ⟨hfinish, hle⟩ := h.finish
    rw [hi] at hfinish hle
    simp only [some_bind, hfinish]
    cases hd : parseDriveExact (path.drop 4) with
    | some drive =>
      refine ⟨_, rfl, ?_⟩
      unfold parseDriveExact at hd
      split_ifs at hd with hexact
      have := parseDrive_length hd
      rw [List.length_drop] at this
      change 6 ≤ path.length
      omega
    | none =>
      refine ⟨_, rfl, ?_⟩
      have := (parseNextComponent_length (path.drop 4) true).1
      rw [List.length_drop] at this
      change 4+_ ≤ path.length
      omega

theorem parseDeviceOrUnc_spec (h : Valid path parser) (hi : parser.index = 2) :
    ∃ r, parseDeviceOrUnc parser = some r ∧ ∀ p, r = some p → p.len ≤ path.length := by
  obtain ⟨r, hr, hnext⟩ := h.stripPrefix [46, 92]
  rw [parseDeviceOrUnc, hr]
  cases r with
  | some parser' =>
    obtain ⟨hvalid, hindex⟩ := hnext parser' rfl
    obtain ⟨hfinish, hle⟩ := hvalid.finish
    have hn : parser'.index = 4 := by rw [hindex, hi]; rfl
    simp only [some_bind, hfinish]
    rw [hn] at hle ⊢
    refine ⟨_, rfl, ?_⟩
    intro p hp
    cases hp
    have := (parseNextComponent_length (path.drop 4) false).1
    rw [List.length_drop] at this
    change 4+_ ≤ path.length
    omega
  | none =>
    obtain ⟨hfinish, hle⟩ := h.finish
    rw [hi] at hfinish hle
    simp only [some_bind, hfinish]
    refine ⟨_, rfl, ?_⟩
    intro p hp
    split_ifs at hp with hboth
    cases hp
    exact serverShare_length false hle rfl rfl

theorem parsePrefix_spec (path : List UInt8) :
    ∃ r, parsePrefix path = some r ∧ ∀ p, r = some p → p.len ≤ path.length := by
  obtain ⟨r, hr, hnext⟩ := (valid_new path).stripPrefix [92, 92]
  rw [parsePrefix, hr]
  cases r with
  | none =>
    refine ⟨_, rfl, ?_⟩
    intro p hp
    obtain ⟨drive, hd, rfl⟩ := Option.map_eq_some_iff.mp hp
    exact parseDrive_length hd
  | some parser =>
    obtain ⟨hvalid, hindex⟩ := hnext parser rfl
    have hi : parser.index = 2 := hindex
    obtain ⟨r, hr, hnext⟩ := hvalid.stripPrefix [63, 92]
    simp only [some_bind, hr]
    cases r with
    | none => exact parseDeviceOrUnc_spec hvalid hi
    | some verbatim =>
      obtain ⟨hverbatim, hindex⟩ := hnext verbatim rfl
      have hi' : verbatim.index = 4 := by rw [hindex, hi]; rfl
      have hbytes : verbatim.prefixBytes = some (path.take 4) := by
        have hle := hverbatim.finish.2
        rw [prefixBytes, hverbatim.whole, hi', sliceTo_eq (by omega)]
      simp only [hbytes, some_bind]
      split_ifs with hslash
      · exact parseDeviceOrUnc_spec hvalid hi
      · obtain ⟨p, hp, hle⟩ := parseVerbatim_spec hverbatim hi'
        exact ⟨some p, hp, fun p' he => by cases he; exact hle⟩

end Parse

end RustStd.WindowsPath
