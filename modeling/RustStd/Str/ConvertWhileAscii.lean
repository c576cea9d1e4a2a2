import RustStd.Lib.Loop
import RustStd.Lib.Slots
import RustStd.Str.Chars

/-!
# The ASCII prefix of a string

`convert_while_ascii` takes chunks of 16 bytes and then single bytes, and writes the converted bytes into
the capacity of a vector that was reserved for the whole string. `none` is an access outside of it.
-/

set_option autoImplicit false

namespace RustStd.CaseMapping
open RustStd.Loop RustStd.Slots RustStd.Chars RustStd.Utf8Grammar

/-- The variables of `convert_while_ascii`; `out_slice` starts at `outStart`. -/
structure Progress where
  slice : List UInt8
  out : Slots UInt8
  outStart : ℕ
  asciiPrefixLen : ℕ

def asciiCaseMask : UInt8 := 0b0010_0000

def isAsciiUppercase (b : UInt8) : Bool := 65 ≤ b && b ≤ 90

def isAsciiLowercase (b : UInt8) : Bool := 97 ≤ b && b ≤ 122

def toAsciiLowercase (b : UInt8) : UInt8 := b ||| (isAsciiUppercase b).toUInt8*asciiCaseMask

def toAsciiUppercase (b : UInt8) : UInt8 := b ^^^ (isAsciiLowercase b).toUInt8*asciiCaseMask

def sumU8 (isAscii : List Bool) : UInt8 := (isAscii.map Bool.toUInt8).sum

def firstUnchecked (slice : List UInt8) (n : ℕ) : Option (List UInt8) :=
  if n ≤ slice.length then some (slice.take n) else none

def room (p : Progress) (n : ℕ) : Option Unit :=
  if p.outStart+n ≤ p.out.length then some () else none

/-- Converted bytes are written and passed over. -/
def advance (p : Progress) (converted : List UInt8) : Option Progress := do
  let out ← place p.out p.outStart converted
  let n := converted.length
  return { slice := p.slice.drop n, out, outStart := p.outStart+n,
           asciiPrefixLen := p.asciiPrefixLen+n }

section Convert

variable (convert : UInt8 → UInt8)

def convertChunk (p : Progress) (chunk : List UInt8) : Option (Progress ⊕ Progress) :=
  let isAscii := chunk.map fun b => decide (b ≤ 127)
  if (sumU8 isAscii).toNat ≠ 16 then some (.inr p)
  else (advance p (chunk.map convert)).map .inl

def chunkStep (p : Progress) : Option (Progress ⊕ Progress) :=
  if p.slice.length ≥ 16 then do
    let chunk ← firstUnchecked p.slice 16
    room p 16
    convertChunk convert p chunk
  else some (.inr p)

def byteStep (p : Progress) : Option (Progress ⊕ Progress) :=
  match p.slice with
  | [] => some (.inr p)
  | byte :: _ =>
    if byte > 127 then some (.inr p) else (advance p [convert byte]).map .inl

def setLen (out : Slots UInt8) (len : ℕ) : Option (List UInt8) :=
  if len ≤ out.length then contents (out.take len) else none

/-- The vector has no more capacity than was asked for. -/
def convertWhileAscii (s : List UInt8) : Option (List UInt8 × List UInt8) := do
  let p ← loop (chunkStep convert) (s.length+1) ⟨s, free s.length, 0, 0⟩
  let p ← loop (byteStep convert) (s.length+1) p
  let out ← setLen p.out p.asciiPrefixLen
  return (out, p.slice)

end Convert

/-! ## The split -/

theorem sumU8_toNat (l : List Bool) (h : l.length < 256) : (sumU8 l).toNat = l.countP id := by
  induction l with
  | nil => rfl
  | cons b l ih =>
    have hlength : l.length+1 < 256 := h
    have hle : l.countP id ≤ l.length := List.countP_le_length
    have hsum : sumU8 (b :: l) = b.toUInt8+sumU8 l := rfl
    rw [hsum, UInt8.toNat_add, ih (by omega), List.countP_cons]
    cases b with
    | false =>
      show (0+_)%256 = _
      rw [Nat.zero_add, Nat.mod_eq_of_lt (by omega)]
      rfl
    | true =>
      show (1+_)%256 = _
      rw [Nat.mod_eq_of_lt (by omega), Nat.add_comm]
      rfl

theorem ascii_of_sumU8 {chunk : List UInt8} (hlength : chunk.length = 16)
    (h : (sumU8 (chunk.map fun b => decide (b ≤ 127))).toNat = 16) : ∀ b ∈ chunk, b ≤ 127 := by
  rw [sumU8_toNat _ (by rw [List.length_map]; omega), List.countP_map] at h
  have hall := List.countP_eq_length.mp (h.trans hlength.symm)
  exact fun b hb => of_decide_eq_true (hall b hb)

section Invariant

variable {convert : UInt8 → UInt8} {s : List UInt8} {p : Progress}

/-- Some ASCII bytes have been converted, and the rest of the capacity is for the rest of the string. -/
structure Converted (convert : UInt8 → UInt8) (s : List UInt8) (p : Progress) : Prop where
  split : ∃ done, s = done ++ p.slice ∧ (∀ b ∈ done, b ≤ 127) ∧
    p.out = live (done.map convert) ++ free p.slice.length ∧ p.outStart = done.length ∧
    p.asciiPrefixLen = done.length

theorem converted_start (convert : UInt8 → UInt8) (s : List UInt8) :
    Converted convert s ⟨s, free s.length, 0, 0⟩ :=
  ⟨[], rfl, fun _ h => absurd h List.not_mem_nil, rfl, rfl, rfl⟩

theorem Converted.room (h : Converted convert s p) {n : ℕ} (hn : n ≤ p.slice.length) :
    room p n = some () := by
  obtain ⟨done, -, -, hout, hstart, -⟩ := h.split
  rw [CaseMapping.room, if_pos]
  rw [hout, hstart, List.length_append, length_live, length_free, List.length_map]
  omega

theorem Converted.advance (h : Converted convert s p) {chunk rest : List UInt8}
    (hslice : p.slice = chunk ++ rest) (hascii : ∀ b ∈ chunk, b ≤ 127) :
    ∃ p', advance p (chunk.map convert) = some p' ∧ Converted convert s p' ∧ p'.slice = rest := by
  obtain ⟨done, hs, hdone, hout, hstart, hlen⟩ := h.split
  have hplace : place p.out p.outStart (chunk.map convert) =
      some (live (done.map convert) ++ live (chunk.map convert) ++ free rest.length) := by
    have hchunk : chunk.length = (chunk.map convert).length := (List.length_map convert).symm
    rw [hout, hstart, hslice, List.length_append, free_add, ← List.append_assoc, hchunk]
    exact place_append (by rw [length_live, List.length_map])
  refine ⟨_, by rw [CaseMapping.advance, hplace]; rfl, ⟨done ++ chunk, ?_, ?_, ?_, ?_, ?_⟩, ?_⟩
  · dsimp only
    rw [hslice, List.length_map, List.drop_left, hs, hslice, List.append_assoc]
  · intro b hb
    rcases List.mem_append.mp hb with hb | hb
    · exact hdone b hb
    · exact hascii b hb
  · dsimp only
    rw [hslice, List.length_map, List.drop_left, List.map_append, live_append]
  · dsimp only
    rw [hstart, List.length_map, List.length_append]
  · dsimp only
    rw [hlen, List.length_map, List.length_append]
  · dsimp only
    rw [hslice, List.length_map, List.drop_left]

theorem chunkLoop_converted (convert : UInt8 → UInt8) (s : List UInt8) :
    ∃ p, loop (chunkStep convert) (s.length+1) ⟨s, free s.length, 0, 0⟩ = some p ∧
      Converted convert s p := by
  apply loop_total (Converted convert s) (fun p => p.slice.length) (Converted convert s)
  · intro p hp
    rw [chunkStep]
    by_cases hlen : p.slice.length ≥ 16
    · rw [if_pos hlen, firstUnchecked, if_pos hlen, hp.room hlen]
      simp only [some_bind, convertChunk]
      have htake : (p.slice.take 16).length = 16 := List.length_take_of_le hlen
      by_cases hsum : (sumU8 ((p.slice.take 16).map fun b => decide (b ≤ 127))).toNat = 16
      · rw [if_neg (not_not.mpr hsum)]
        obtain ⟨p', hadvance, hp', hslice⟩ :=
          hp.advance (List.take_append_drop 16 p.slice).symm (ascii_of_sumU8 htake hsum)
        refine ⟨.inl p', by rw [hadvance]; rfl, hp', ?_⟩
        show p'.slice.length < p.slice.length
        rw [hslice, List.length_drop]
        omega
      · exact ⟨.inr p, if_pos hsum, hp⟩
    · exact ⟨.inr p, if_neg hlen, hp⟩
  · exact converted_start convert s
  · exact Nat.lt_succ_self _

theorem byteLoop_converted (hp : Converted convert s p) :
    ∃ p', loop (byteStep convert) (s.length+1) p = some p' ∧ Converted convert s p' ∧
      ∀ b ∈ p'.slice.head?, ¬ b ≤ 127 := by
  apply loop_total (Converted convert s) (fun p => p.slice.length)
    (fun p' => Converted convert s p' ∧ ∀ b ∈ p'.slice.head?, ¬ b ≤ 127)
  · intro p hp
    rw [byteStep]
    rcases hslice : p.slice with _ | ⟨byte, rest⟩
    · exact ⟨.inr p, rfl, hp, by rw [hslice]; nofun⟩
    · dsimp only
      by_cases hbyte : byte > 127
      · refine ⟨.inr p, if_pos hbyte, hp, ?_⟩
        rw [hslice]
        rintro _ ⟨⟩
        exact UInt8.not_le.mpr hbyte
      · rw [if_neg hbyte]
        have hascii : ∀ b ∈ [byte], b ≤ 127 := by
          intro b hb
          rw [List.mem_singleton.mp hb]
          exact UInt8.not_lt.mp hbyte
        have hfirst : p.slice = [byte] ++ rest := hslice
        obtain ⟨p', hadvance, hp', hrest⟩ := hp.advance hfirst hascii
        refine ⟨.inl p', ?_, hp', ?_⟩
        · rw [List.map_singleton] at hadvance
          rw [hadvance]
          rfl
        · show p'.slice.length < p.slice.length
          rw [hrest, hslice]
          exact Nat.lt_succ_self _
  · exact hp
  · obtain ⟨done, hs, -⟩ := hp.split
    have hlength := congrArg List.length hs
    rw [List.length_append] at hlength
    omega

theorem convertWhileAscii_eq (convert : UInt8 → UInt8) (s : List UInt8) :
    convertWhileAscii convert s = some ((s.takeWhile fun b => decide (b ≤ 127)).map convert,
      s.dropWhile fun b => decide (b ≤ 127)) := by
  obtain ⟨p₁, hloop₁, hp₁⟩ := chunkLoop_converted convert s
  obtain ⟨p₂, hloop₂, hp₂, hhead⟩ := byteLoop_converted hp₁
  obtain ⟨done, hs, hdone, hout, -, hlen⟩ := hp₂.split
  have hset : setLen p₂.out p₂.asciiPrefixLen = some (done.map convert) := by
    rw [setLen, hout, hlen, if_pos]
    · have htake : (live (done.map convert) ++ free p₂.slice.length).take done.length =
          live (done.map convert) := List.take_left' (by rw [length_live, List.length_map])
      rw [htake, contents_live]
    · rw [List.length_append, length_live, List.length_map]
      exact Nat.le_add_right _ _
  have htake : s.takeWhile (fun b => decide (b ≤ 127)) = done := by
    rw [hs, List.takeWhile_append_of_pos fun b hb => decide_eq_true (hdone b hb)]
    rcases hslice : p₂.slice with _ | ⟨b, rest⟩
    · rw [List.takeWhile_nil, List.append_nil]
    · have hb := hhead b (by rw [hslice]; rfl)
      rw [List.takeWhile_cons_of_neg (by simpa using hb), List.append_nil]
  have hdrop : s.dropWhile (fun b => decide (b ≤ 127)) = p₂.slice := by
    rw [hs, List.dropWhile_append_of_pos fun b hb => decide_eq_true (hdone b hb)]
    rcases hslice : p₂.slice with _ | ⟨b, rest⟩
    · rfl
    · have hb := hhead b (by rw [hslice]; rfl)
      rw [List.dropWhile_cons_of_neg (by simpa using hb)]
  rw [convertWhileAscii, hloop₁]
  simp only [some_bind, hloop₂, hset]
  rw [htake, hdrop]
  rfl

end Invariant

end RustStd.CaseMapping
