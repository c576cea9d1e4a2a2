import RustStd.Lib.Machine
import RustStd.Net.Display

/-!
# Addresses and their texts

The text of an address denotes it, so parsing gives it back, and it fits into
the buffer that is used for padding. The text of an IPv6 address has at most one
`::`, in place of the first longest run of zero groups.
-/

set_option autoImplicit false

namespace RustStd.Net
open RustStd.IntFmt RustStd.Radix RustStd.Net.Parser

section Numbers

def decText (n : ℕ) : List UInt8 := (digits 10 n).map dec

def hexText (n : ℕ) : List UInt8 := (digits 16 n).map fun d => Format.lowerHex.digTab.getD d 0

theorem displayUint_eq (W : Width) (small : Bool) {n : ℕ} (h : n < 2^W.bits) :
    displayUint W small n = some (decText n) := by
  have hmax : ((n : ℕ) : ℤ) ≤ IntTy.max ⟨W, false⟩ := by
    have hz : (n : ℤ) < 2^W.bits := by exact_mod_cast h
    simp only [IntTy.max, Bool.false_eq_true, if_false]
    omega
  have hmin : IntTy.min ⟨W, false⟩ ≤ (n : ℤ) := by simp [IntTy.min]
  rw [displayUint, display_eq small hmin hmax, decimalText, if_neg (by omega), Int.natAbs_natCast,
    decText]

theorem lowerHex_eq (g : UInt16) : lowerHex g = some (hexText g.toNat) := by
  rw [lowerHex, fmtRadix_eq .lowerHex g.toNat_lt]
  rfl

theorem length_digits {b n k : ℕ} (hk : 0 < k) (h : n < b^k) : (digits b n).length ≤ k := by
  rw [digits, length_lowDigits]
  rcases Nat.eq_zero_or_pos n with rfl | hn
  · rw [Nat.log_zero_right]
    omega
  · exact Nat.log_lt_of_lt_pow (by omega) h

theorem numeral_digits {radix : ℕ} (hr : 1 < radix) {byte : ℕ → UInt8}
    (hbyte : ∀ d < radix, digit radix (byte d) = some d) (n : ℕ) :
    Numeral radix ((digits radix n).map byte) n where
  ne_nil := by simp [digits, lowDigits]
  digits := by
    intro b hb
    obtain ⟨d, hd, rfl⟩ := List.mem_map.mp hb
    have hlt : d < radix := lt_of_mem_lowDigits (by omega) hd
    simp [hbyte d hlt]
  value_eq := by
    have hfold : ∀ (ds : List ℕ) (v : ℕ), (∀ d ∈ ds, d < radix) →
        (ds.map byte).foldl (fun v b => v*radix+(digit radix b).getD 0) v =
          ds.foldl (fun r d => r*radix+d) v := by
      intro ds
      induction ds with
      | nil => exact fun v _ => rfl
      | cons d ds ih =>
        intro v h
        have hd := hbyte d (h d (by simp))
        simp only [List.map_cons, List.foldl_cons, hd, Option.getD_some]
        exact ih _ fun x hx => h x (by simp [hx])
    have hlt : ∀ d ∈ RustStd.Radix.digits radix n, d < radix := fun d hd =>
      lt_of_mem_lowDigits (by omega) hd
    rw [value, hfold _ _ hlt, foldl_digits hr]

theorem digit_dec : ∀ d < 10, digit 10 (dec d) = some d := by decide

theorem digit_hex : ∀ d < 16, digit 16 (Format.lowerHex.digTab.getD d 0) = some d := by decide

theorem octet_decText (o : UInt8) : Octet (decText o.toNat) o := by
  refine ⟨numeral_digits (by norm_num) digit_dec o.toNat, ?_, fun h => ?_⟩
  · rw [decText, List.length_map]
    refine length_digits (by norm_num) ?_
    have := o.toNat_lt
    omega
  · rw [head_decimal h]
    rfl

theorem hexGroup_hexText (g : UInt16) : HexGroup (hexText g.toNat) g := by
  refine ⟨numeral_digits (by norm_num) digit_hex g.toNat, ?_⟩
  rw [hexText, List.length_map]
  exact length_digits (by norm_num) g.toNat_lt

theorem numeral_decText (n : ℕ) : Numeral 10 (decText n) n :=
  numeral_digits (by norm_num) digit_dec n

theorem length_decText {n k : ℕ} (hk : 0 < k) (h : n < 10^k) : (decText n).length ≤ k := by
  rw [decText, List.length_map]
  exact length_digits hk h

end Numbers

section Writing

theorem writeAll_eq (size : Option ℕ) (pieces : List (List UInt8))
    (h : ∀ n ∈ size, pieces.flatten.length ≤ n) : writeAll size pieces = some pieces.flatten := by
  have hfold : ∀ (ps : List (List UInt8)) (buf : List UInt8),
      (∀ n ∈ size, (buf ++ ps.flatten).length ≤ n) →
        ps.foldlM (writeStr size) buf = some (buf ++ ps.flatten) := by
    intro ps
    induction ps with
    | nil => exact fun buf _ => by simp
    | cons p ps ih =>
      intro buf h
      have hp : writeStr size buf p = some (buf ++ p) := by
        refine if_pos ?_
        cases size with
        | none => rfl
        | some n =>
          have := h n rfl
          simp only [List.flatten_cons, List.length_append] at this
          simp only [Option.all_some, decide_eq_true_eq]
          omega
      rw [List.foldlM_cons, hp, some_bind, ih]
      · simp
      · simpa using h
  simpa [writeAll] using hfold pieces [] (by simpa using h)

/-- The pieces make up the text `t`, which has at most `size` bytes. -/
def Writes (pieces : Option (List (List UInt8))) (size : ℕ) (t : List UInt8) : Prop :=
  ∃ ps, pieces = some ps ∧ ps.flatten = t ∧ t.length ≤ size

theorem Writes.textOf {pieces : Option (List (List UInt8))} {size : ℕ} {t : List UInt8}
    (h : Writes pieces size t) : textOf pieces = some t ∧ bufferOf size pieces = some t := by
  obtain ⟨ps, rfl, rfl, hl⟩ := h
  constructor
  · exact writeAll_eq none ps (by simp)
  · exact writeAll_eq (some size) ps (by simpa using hl)

def ipv4Text (ip : Ipv4Addr) : List UInt8 :=
  decText ip.a.toNat ++ 46 :: (decText ip.b.toNat ++ 46 ::
    (decText ip.c.toNat ++ 46 :: decText ip.d.toNat))

theorem ipv4_pieces (small : Bool) (ip : Ipv4Addr) :
    Writes (ip.pieces small) longestIpv4Addr (ipv4Text ip) := by
  have hd (o : UInt8) : displayUint .w8 small o.toNat = some (decText o.toNat) :=
    displayUint_eq .w8 small o.toNat_lt
  have hl (o : UInt8) : (decText o.toNat).length ≤ 3 := (octet_decText o).2.1
  refine ⟨_, by rw [Ipv4Addr.pieces, hd, hd, hd, hd]; rfl, by simp [ipv4Text], ?_⟩
  have ha := hl ip.a
  have hb := hl ip.b
  have hc := hl ip.c
  have hd' := hl ip.d
  simp only [ipv4Text, List.length_append, List.length_cons, longestIpv4Addr]
  omega

theorem dotted_ipv4Text (ip : Ipv4Addr) : Dotted (ipv4Text ip) ip :=
  ⟨_, _, _, _, rfl, octet_decText _, octet_decText _, octet_decText _, octet_decText _⟩

/-- The text of groups. -/
def groupsText : List UInt16 → List UInt8
  | [] => []
  | [g] => hexText g.toNat
  | g :: gs => hexText g.toNat ++ 58 :: groupsText gs

theorem fmtSubslice_eq (gs : List UInt16) :
    ∃ ps, fmtSubslice gs = some ps ∧ ps.flatten = groupsText gs := by
  cases gs with
  | nil => exact ⟨[], rfl, rfl⟩
  | cons g gs =>
    have hf : (fun segment : UInt16 => do
        let segment ← lowerHex segment
        return [[58], segment]) = fun g => some [[58], hexText g.toNat] := by
      funext g
      rw [lowerHex_eq]
      rfl
    have hm : ∀ gs : List UInt16, (gs.mapM fun g => some [[58], hexText g.toNat]) =
        some (gs.map fun g => [[58], hexText g.toNat]) := by
      intro gs
      induction gs with
      | nil => rfl
      | cons g gs ih => simp [List.mapM_cons, ih]
    refine ⟨hexText g.toNat :: (gs.map fun g => [[58], hexText g.toNat]).flatten, ?_, ?_⟩
    · rw [fmtSubslice, lowerHex_eq, hf, hm]
      rfl
    · rw [List.flatten_cons]
      induction gs generalizing g with
      | nil => simp [groupsText]
      | cons g' gs ih =>
        rw [groupsText, ← ih g']
        · simp
        · simp

theorem side_groupsText (gs : List UInt16) : Side false (groupsText gs) gs := by
  cases gs with
  | nil => exact .inl ⟨rfl, rfl, rfl⟩
  | cons g gs =>
    refine .inr ?_
    induction gs generalizing g with
    | nil => exact .hex (hexGroup_hexText g)
    | cons g' gs ih => exact .cons (hexGroup_hexText g) (ih g')

theorem length_groupsText (gs : List UInt16) : (groupsText gs).length ≤ 5*gs.length-1 := by
  cases gs with
  | nil => simp [groupsText]
  | cons g gs =>
    induction gs generalizing g with
    | nil => exact (hexGroup_hexText g).2
    | cons g' gs ih =>
      have hg := (hexGroup_hexText g).2
      have := ih g'
      simp only [groupsText, List.length_append, List.length_cons] at this ⊢
      omega

end Writing

section Zeroes
variable {segments : List UInt16}

/-- The groups from `start` on are zero, `len` of them. -/
def ZeroRun (segments : List UInt16) (start len : ℕ) : Prop :=
  ∀ j, start ≤ j → j < start+len → segments[j]? = some 0

/-- The run is a longest one, and the first of these. -/
def FirstLongest (segments : List UInt16) (start len : ℕ) : Prop :=
  ZeroRun segments start len ∧
    ∀ start' len', ZeroRun segments start' len' → len' ≤ len ∧ (len' = len → start ≤ start')

/-- The zeroes at the end. -/
def EndRun (segments : List UInt16) (len : ℕ) : Prop :=
  len ≤ segments.length ∧ ZeroRun segments (segments.length-len) len ∧
    ∀ len', len' ≤ segments.length → ZeroRun segments (segments.length-len') len' → len' ≤ len

theorem ZeroRun.concat {start len : ℕ} (h : ZeroRun segments start len) (x : UInt16) :
    ZeroRun (segments ++ [x]) start len := by
  intro j hj hj'
  have := h j hj hj'
  rw [List.getElem?_append_left (List.getElem?_eq_some_iff.mp this).1]
  exact this

theorem ZeroRun.bound {start len : ℕ} (h : ZeroRun segments start len) (hl : 0 < len) :
    start+len ≤ segments.length := by
  have := (List.getElem?_eq_some_iff.mp (h (start+len-1) (by omega) (by omega))).1
  omega

theorem zeroRun_concat {x : UInt16} {start len : ℕ} (h : ZeroRun (segments ++ [x]) start len) :
    ZeroRun segments start len ∨ 0 < len ∧ start+len = segments.length+1 ∧ x = 0 := by
  by_cases hend : start+len ≤ segments.length
  · refine .inl fun j hj hj' => ?_
    have := h j hj hj'
    rwa [List.getElem?_append_left (by omega)] at this
  · rcases Nat.eq_zero_or_pos len with rfl | hl
    · exact .inl fun j hj hj' => by omega
    · have hb := h.bound hl
      rw [List.length_append, List.length_singleton] at hb
      refine .inr ⟨hl, by omega, ?_⟩
      have := h segments.length (by omega) (by omega)
      simpa using this

theorem endRun_zero {len : ℕ} (h : EndRun segments len) : EndRun (segments ++ [0]) (len+1) := by
  obtain ⟨hle, hrun, hmax⟩ := h
  have hidx : (segments ++ [0]).length-(len+1) = segments.length-len := by simp
  refine ⟨by simpa using hle, ?_, fun len' hle' hrun' => ?_⟩
  · rw [hidx]
    intro j hj hj'
    by_cases hlast : j < segments.length
    · rw [List.getElem?_append_left hlast]
      exact hrun j hj (by omega)
    · obtain rfl : j = segments.length := by omega
      simp
  · rcases Nat.eq_zero_or_pos len' with rfl | hl
    · omega
    · obtain ⟨k, rfl⟩ : ∃ k, len' = k+1 := ⟨len'-1, by omega⟩
      rw [List.length_append, List.length_singleton] at hle'
      have hk := hmax k (by omega) (by
        intro j hj hj'
        have := hrun' j (by simp; omega) (by simp; omega)
        rwa [List.getElem?_append_left (by omega)] at this)
      omega

theorem endRun_nonzero {x : UInt16} (hx : x ≠ 0) : EndRun (segments ++ [x]) 0 := by
  refine ⟨Nat.zero_le _, fun j hj hj' => by omega, fun len' hle' hrun' => ?_⟩
  rcases zeroRun_concat hrun' with hrun | ⟨-, -, h0⟩
  · by_contra hne
    have := hrun.bound (by omega)
    rw [List.length_append, List.length_singleton] at this hle'
    omega
  · exact absurd h0 hx

/-- What the search knows after some groups. -/
def Searched (segments : List UInt16) (longest current : Span) : Prop :=
  FirstLongest segments longest.start longest.len ∧ EndRun segments current.len ∧
    (0 < current.len → current.start+current.len = segments.length)

theorem spanStep_searched {longest current : Span} (h : Searched segments longest current)
    (x : UInt16) :
    Searched (segments ++ [x]) (spanStep x segments.length longest current).1
      (spanStep x segments.length longest current).2 := by
  obtain ⟨⟨hrun, hmax⟩, hend, hstart⟩ := h
  by_cases hx : x = 0
  · have hend' := endRun_zero hend
    have hcur : ∃ c : Span, c.len = current.len+1 ∧ c.start+c.len = segments.length+1 ∧
        spanStep x segments.length longest current =
          (if c.len > longest.len then c else longest, c) := by
      by_cases hz : current.len = 0
      · exact ⟨⟨segments.length, current.len+1⟩, rfl, by simp [hz], by simp [spanStep, hx, hz]⟩
      · exact ⟨⟨current.start, current.len+1⟩, rfl, by have := hstart (by omega); simp; omega,
          by simp [spanStep, hx, hz]⟩
    obtain ⟨c, hlen, hsum, hstep⟩ := hcur
    rw [hstep, hx]
    -- every run that ends at the new end is no longer than the current one
    have hsuffix : ∀ s l, ZeroRun (segments ++ [0]) s l → 0 < l → s+l = segments.length+1 →
        l ≤ c.len := by
      intro s l hr hl hs
      have hr' : ZeroRun (segments ++ [0]) ((segments ++ [0]).length-l) l := by
        rwa [List.length_append, List.length_singleton, show segments.length+1-l = s by omega]
      have := hend'.2.2 l (by simp; omega) hr'
      omega
    have hcrun : ZeroRun (segments ++ [0]) c.start c.len := by
      have := hend'.2.1
      rwa [List.length_append, List.length_singleton, ← hlen,
        show segments.length+1-c.len = c.start by omega] at this
    refine ⟨?_, by rw [hlen]; exact hend', fun _ => by simpa using hsum⟩
    by_cases hgt : c.len > longest.len
    · simp only [if_pos hgt]
      refine ⟨hcrun, fun s l hr => ?_⟩
      rcases zeroRun_concat hr with hr' | ⟨hl, hs, -⟩
      · have := (hmax s l hr').1
        exact ⟨by omega, fun he => by omega⟩
      · have := hsuffix s l hr hl hs
        exact ⟨this, fun he => by omega⟩
    · simp only [if_neg hgt]
      refine ⟨hrun.concat 0, fun s l hr => ?_⟩
      rcases zeroRun_concat hr with hr' | ⟨hl, hs, -⟩
      · exact hmax s l hr'
      · have := hsuffix s l hr hl hs
        refine ⟨by omega, fun he => ?_⟩
        have := hrun.bound (by omega)
        omega
  · have hstep : spanStep x segments.length longest current = (longest, ⟨0, 0⟩) := by
      simp [spanStep, hx]
    rw [hstep]
    refine ⟨⟨hrun.concat x, fun s l hr => ?_⟩, endRun_nonzero hx, fun h => absurd h (by simp)⟩
    rcases zeroRun_concat hr with hr' | ⟨-, -, h0⟩
    · exact hmax s l hr'
    · exact absurd h0 hx

theorem spanLoop_searched (rest : List UInt16) {longest current : Span}
    (h : Searched segments longest current) :
    FirstLongest (segments ++ rest) (spanLoop rest segments.length longest current).start
      (spanLoop rest segments.length longest current).len := by
  induction rest generalizing segments longest current with
  | nil => simpa [spanLoop] using h.1
  | cons x rest ih =>
    have := ih (spanStep_searched h x)
    rw [List.length_append, List.length_singleton, List.append_assoc] at this
    exact this

theorem zeroes_firstLongest (segments : List UInt16) :
    FirstLongest segments (zeroes segments).start (zeroes segments).len := by
  have h0 : Searched [] ⟨0, 0⟩ ⟨0, 0⟩ := by
    refine ⟨⟨fun j hj hj' => by simp at hj', fun s l hr => ?_⟩,
      ⟨le_refl 0, fun j hj hj' => by simp at hj', fun l hl _ => by simpa using hl⟩,
      fun h => absurd h (by simp)⟩
    have hl : l = 0 := by
      by_contra hne
      have := hr.bound (by omega)
      simp at this
      omega
    exact ⟨hl.le, fun _ => Nat.zero_le s⟩
  exact spanLoop_searched segments h0

theorem ZeroRun.split {start len : ℕ} (h : ZeroRun segments start len) (hl : 0 < len) :
    segments = segments.take start ++ List.replicate len 0 ++ segments.drop (start+len) := by
  have hb := h.bound hl
  have hmid : (segments.drop start).take len = List.replicate len 0 := by
    refine List.ext_getElem? fun j => ?_
    rw [List.getElem?_take, List.getElem?_drop, List.getElem?_replicate]
    by_cases hj : j < len
    · rw [if_pos hj, if_pos hj]
      exact h (start+j) (by omega) (by omega)
    · rw [if_neg hj, if_neg hj]
  rw [← hmid, List.append_assoc, ← List.drop_drop, List.take_append_drop, List.take_append_drop]

end Zeroes

section Mapped

theorem fromBeBytes_halves (s : UInt16) : fromBeBytes (s >>> 8).toUInt8 s.toUInt8 = s := by
  apply UInt16.toNat_inj.mp
  have hs := s.toNat_lt
  have hhi : (s >>> 8).toUInt8.toNat = s.toNat/256 := by
    simp [Nat.shiftRight_eq_div_pow]
    omega
  have hlo : s.toUInt8.toNat = s.toNat%256 := by simp
  have hshift : (((s >>> 8).toUInt8.toUInt16) <<< 8).toNat = 2^8*(s.toNat/256) := by
    rw [UInt16.toNat_shiftLeft, UInt8.toNat_toUInt16, hhi, Nat.shiftLeft_eq]
    simp
    omega
  rw [fromBeBytes, UInt16.toNat_or, hshift, UInt8.toNat_toUInt16, hlo,
    ← Nat.two_pow_add_eq_or_of_lt (by omega)]
  omega

theorem mapped_segments {ip : Ipv6Addr} {v4 : Ipv4Addr} (h : ip.toIpv4Mapped = some v4) :
    ip.segments.toList =
      [0, 0, 0, 0, 0, 0xffff, fromBeBytes v4.a v4.b, fromBeBytes v4.c v4.d] := by
  unfold Ipv6Addr.toIpv4Mapped at h
  split at h
  · rename_i a b c d ho
    obtain rfl := Option.some.inj h
    unfold Ipv6Addr.octets at ho
    have hl : ip.segments.toList.length = 8 := by simp
    generalize ip.segments.toList = l at ho hl
    match l, hl with
    | [s₀, s₁, s₂, s₃, s₄, s₅, s₆, s₇], _ =>
      simp only [List.flatMap_cons, List.flatMap_nil, toBeBytes, List.cons_append, List.nil_append,
        List.append_nil, List.cons.injEq, and_true] at ho
      obtain ⟨h₀, h₀', h₁, h₁', h₂, h₂', h₃, h₃', h₄, h₄', h₅, h₅', h₆, h₆', h₇, h₇'⟩ := ho
      have e₀ := fromBeBytes_halves s₀
      have e₁ := fromBeBytes_halves s₁
      have e₂ := fromBeBytes_halves s₂
      have e₃ := fromBeBytes_halves s₃
      have e₄ := fromBeBytes_halves s₄
      have e₅ := fromBeBytes_halves s₅
      have e₆ := fromBeBytes_halves s₆
      have e₇ := fromBeBytes_halves s₇
      rw [h₀, h₀'] at e₀
      rw [h₁, h₁'] at e₁
      rw [h₂, h₂'] at e₂
      rw [h₃, h₃'] at e₃
      rw [h₄, h₄'] at e₄
      rw [h₅, h₅'] at e₅
      rw [h₆, h₆'] at e₆
      rw [h₇, h₇'] at e₇
      rw [← e₀, ← e₁, ← e₂, ← e₃, ← e₄, ← e₅, ← e₆, ← e₇]
      rfl
  · cases h

def mappedPrefix : List UInt8 := [58, 58, 102, 102, 102, 102, 58]

def ipv6Text (ip : Ipv6Addr) : List UInt8 :=
  match ip.toIpv4Mapped with
  | some v4 => mappedPrefix ++ ipv4Text v4
  | none =>
    let segments := ip.segments.toList
    let z := zeroes segments
    if z.len > 1 then
      groupsText (segments.take z.start) ++ 58 :: 58 :: groupsText (segments.drop (z.start+z.len))
    else groupsText segments

theorem ipv6_pieces (small : Bool) (ip : Ipv6Addr) :
    Writes (ip.pieces small) longestIpv6Addr (ipv6Text ip) := by
  unfold Ipv6Addr.pieces ipv6Text
  have hseg : ip.segments.toList.length = 8 := by simp
  cases hm : ip.toIpv4Mapped with
  | some v4 =>
    obtain ⟨ps, hp, hf, hl⟩ := ipv4_pieces small v4
    refine ⟨mappedPrefix :: ps, by simp only [hp]; rfl, by rw [List.flatten_cons, hf], ?_⟩
    simp only [List.length_append, mappedPrefix, longestIpv6Addr, longestIpv4Addr] at hl ⊢
    simp only [List.length_cons, List.length_nil]
    omega
  | none =>
    have hrun := (zeroes_firstLongest ip.segments.toList).1
    dsimp only
    generalize zeroes ip.segments.toList = z at hrun ⊢
    by_cases hz : z.len > 1
    · obtain ⟨front, hfront, hff⟩ := fmtSubslice_eq (ip.segments.toList.take z.start)
      obtain ⟨back, hback, hbf⟩ := fmtSubslice_eq (ip.segments.toList.drop (z.start+z.len))
      rw [if_pos hz, if_pos hz, hfront, hback]
      refine ⟨front ++ [[58, 58]] ++ back, rfl, by simp [hff, hbf], ?_⟩
      have hb := hrun.bound (by omega)
      have h₁ := length_groupsText (ip.segments.toList.take z.start)
      have h₂ := length_groupsText (ip.segments.toList.drop (z.start+z.len))
      simp only [List.length_take, List.length_drop, hseg] at h₁ h₂ hb
      simp only [List.length_append, List.length_cons, longestIpv6Addr]
      omega
    · obtain ⟨ps, hps, hf⟩ := fmtSubslice_eq ip.segments.toList
      rw [if_neg hz, if_neg hz, hps]
      refine ⟨ps, rfl, hf, ?_⟩
      have := length_groupsText ip.segments.toList
      rw [hseg] at this
      exact this

theorem denotes_ipv6Text (ip : Ipv6Addr) : Denotes (ipv6Text ip) ip.segments.toList := by
  unfold ipv6Text
  cases hm : ip.toIpv4Mapped with
  | some v4 =>
    rw [mapped_segments hm]
    have hf : digit 16 102 = some 15 := by decide
    have hffff : HexGroup [102, 102, 102, 102] 0xffff :=
      ⟨⟨by simp, by simp [hf], by simp [value, hf]⟩, by simp⟩
    have hg := Groups.cons hffff (.v4 (dotted_ipv4Text v4))
    exact Denotes.compressed (.inl ⟨rfl, rfl, rfl⟩) (.inr hg) (by simp)
  | none =>
    have hrun := (zeroes_firstLongest ip.segments.toList).1
    have hseg : ip.segments.toList.length = 8 := by simp
    dsimp only
    generalize zeroes ip.segments.toList = z at hrun ⊢
    by_cases hz : z.len > 1
    · have hb := hrun.bound (by omega)
      have hsplit := hrun.split (by omega)
      rw [if_pos hz]
      have hd := Denotes.compressed (side_groupsText (ip.segments.toList.take z.start))
        (side_groupsText (ip.segments.toList.drop (z.start+z.len))) (by
          simp only [List.length_take, List.length_drop]
          omega)
      have hcount : 8-(ip.segments.toList.take z.start).length-
          (ip.segments.toList.drop (z.start+z.len)).length = z.len := by
        simp only [List.length_take, List.length_drop]
        omega
      rw [hcount, ← hsplit] at hd
      exact hd
    · rw [if_neg hz]
      rcases side_groupsText ip.segments.toList with ⟨-, hnil, -⟩ | hg
      · rw [hnil] at hseg
        cases hseg
      · exact .full hg hseg

end Mapped

section Colons

/-- No two colons in a row. -/
def NoDouble (t : List UInt8) : Prop := ∀ u v, t ≠ u ++ 58 :: 58 :: v

/-- At most one place with two colons in a row. -/
def AtMostOneDouble (t : List UInt8) : Prop :=
  ∀ u v u' v', t = u ++ 58 :: 58 :: v → t = u' ++ 58 :: 58 :: v' → u = u'

theorem NoDouble.tail {x : UInt8} {t : List UInt8} (h : NoDouble (x :: t)) : NoDouble t :=
  fun u v he => h (x :: u) v (by rw [he]; rfl)

theorem noDouble_join {t r : List UInt8} (ht : 58 ∉ t) (hr : NoDouble r) (hh : r.head? ≠ some 58) :
    NoDouble (t ++ 58 :: r) := by
  induction t with
  | nil =>
    intro u v he
    cases u with
    | nil =>
      have hr' : r = 58 :: v := (List.cons.inj he).2
      rw [hr'] at hh
      exact hh rfl
    | cons x u => exact hr u v (List.cons.inj he).2
  | cons b t ih =>
    intro u v he
    cases u with
    | nil =>
      obtain ⟨rfl, -⟩ := List.cons.inj he
      exact ht (by simp)
    | cons x u => exact ih (fun h => ht (by simp [h])) u v (List.cons.inj he).2

theorem colon_not_mem {t : List UInt8} {radix v : ℕ} (h : Numeral radix t v) : 58 ∉ t := by
  intro hm
  have hd := h.digits 58 hm
  have h58 : digit radix 58 = none := by simp [digit, show digitValue 58 = none by decide]
  rw [h58] at hd
  cases hd

theorem head_ne_colon {t r : List UInt8} {radix v : ℕ} (h : Numeral radix t v) :
    (t ++ r).head? ≠ some 58 := by
  rw [List.head?_append_of_ne_nil _ h.ne_nil]
  exact fun hh => colon_not_mem h (List.mem_of_head? hh)

theorem groups_head {v4 : Bool} {t : List UInt8} {gs : List UInt16} (h : Groups v4 t gs) :
    t.head? ≠ some 58 := by
  cases h with
  | hex h => simpa using head_ne_colon (r := []) h.1
  | v4 h =>
    obtain ⟨ta, tb, tc, td, rfl, ha, -⟩ := h
    exact head_ne_colon ha.1
  | cons h hrest => exact head_ne_colon h.1

theorem groups_ne_nil {v4 : Bool} {t : List UInt8} {gs : List UInt16} (h : Groups v4 t gs) :
    t ≠ [] := by
  cases h with
  | hex h => exact h.1.ne_nil
  | v4 h =>
    obtain ⟨ta, tb, tc, td, rfl, ha, -⟩ := h
    simp
  | cons h hrest => simp

theorem groups_noDouble {v4 : Bool} {t : List UInt8} {gs : List UInt16} (h : Groups v4 t gs) :
    NoDouble (t ++ [58]) := by
  have hnil : NoDouble [] := fun u v he => by simp at he
  induction h with
  | hex h => exact noDouble_join (colon_not_mem h.1) hnil (by simp)
  | v4 h =>
    obtain ⟨ta, tb, tc, td, rfl, ha, hb, hc, hd⟩ := h
    refine noDouble_join ?_ hnil (by simp)
    simp [colon_not_mem ha.1, colon_not_mem hb.1, colon_not_mem hc.1, colon_not_mem hd.1]
  | cons h hrest ih =>
    rw [List.append_assoc, List.cons_append]
    refine noDouble_join (colon_not_mem h.1) ih ?_
    rw [List.head?_append_of_ne_nil _ (groups_ne_nil hrest)]
    exact groups_head hrest

theorem NoDouble.of_append {t r : List UInt8} (h : NoDouble (t ++ r)) : NoDouble t :=
  fun u v he => h u (v ++ r) (by rw [he]; simp)

theorem side_noDouble {v4 : Bool} {t : List UInt8} {gs : List UInt16} (h : Side v4 t gs) :
    NoDouble (t ++ [58]) ∧ t.head? ≠ some 58 := by
  rcases h with ⟨rfl, -, -⟩ | h
  · refine ⟨fun u v he => ?_, by simp⟩
    have := congrArg List.length he
    simp only [List.length_append, List.length_cons, List.length_nil] at this
    omega
  · exact ⟨groups_noDouble h, groups_head h⟩

theorem double_unique {a b u v : List UInt8} (ha : NoDouble (a ++ [58])) (hb : NoDouble b)
    (hh : b.head? ≠ some 58) (h : a ++ 58 :: 58 :: b = u ++ 58 :: 58 :: v) : u = a := by
  induction a generalizing u with
  | nil =>
    match u, h with
    | [], _ => rfl
    | [x], h =>
      rw [List.nil_append, List.singleton_append, List.cons.injEq, List.cons.injEq] at h
      exact absurd (by rw [h.2.2]; rfl) hh
    | x :: y :: u, h =>
      rw [List.nil_append, List.cons_append, List.cons_append, List.cons.injEq,
        List.cons.injEq] at h
      exact absurd h.2.2 (hb u v)
  | cons x a ih =>
    cases u with
    | nil =>
      rw [List.cons_append, List.nil_append, List.cons.injEq] at h
      obtain ⟨rfl, h⟩ := h
      cases a with
      | nil => exact absurd rfl (ha [] [])
      | cons y a =>
        rw [List.cons_append, List.cons.injEq] at h
        obtain ⟨rfl, -⟩ := h
        exact absurd rfl (ha [] (a ++ [58]))
    | cons y u =>
      rw [List.cons_append, List.cons_append, List.cons.injEq] at h
      obtain ⟨rfl, h⟩ := h
      rw [ih ha.tail h]

theorem denotes_atMostOne {t : List UInt8} {gs : List UInt16} (h : Denotes t gs) :
    AtMostOneDouble t := by
  cases h with
  | full h hl =>
    intro u v u' v' he
    exact absurd he ((groups_noDouble h).of_append u v)
  | compressed ha hb hl =>
    have ha' := (side_noDouble ha).1
    have hb' := side_noDouble hb
    intro u v u' v' he he'
    rw [double_unique ha' hb'.1.of_append hb'.2 he, double_unique ha' hb'.1.of_append hb'.2 he']

end Colons

section ParseBack

theorem map_some {α β : Type} {f : α → β} {p : Parser α} {s r : List UInt8} {b : β} :
    (f <$> p) s = (some b, r) ↔ ∃ a, p s = (some a, r) ∧ f a = b := by
  change (p >>= (pure ∘ f)) s = _ ↔ _
  rw [bind_some]
  simp only [Function.comp_apply, pure_some]
  constructor
  · rintro ⟨a, _, h, hf, rfl⟩
    exact ⟨a, h, hf⟩
  · rintro ⟨a, h, hf⟩
    exact ⟨a, r, h, hf, rfl⟩

theorem readIpv4_ipv4Text (ip : Ipv4Addr) {r : List UInt8} (hr : NoDigit 10 r) :
    readIpv4Addr (ipv4Text ip ++ r) = (some ip, r) :=
  readIpv4Addr_some.mpr ⟨_, rfl, dotted_ipv4Text ip, hr⟩

theorem readIpv6_ipv6Text (ip : Ipv6Addr) {r : List UInt8} (hr : EndsAddr r) :
    readIpv6Addr (ipv6Text ip ++ r) = (some ip, r) := by
  rw [readIpv6Addr_of_denotes (denotes_ipv6Text ip) hr, ofSegments_toList]

theorem denotes_colon {t : List UInt8} {gs : List UInt16} (h : Denotes t gs) :
    ∃ h r, t = h ++ 58 :: r ∧ ∀ b ∈ h, (digit 16 b).isSome := by
  cases h with
  | full h hl =>
    cases h with
    | hex h => cases hl
    | v4 h => cases hl
    | cons h hrest => exact ⟨_, _, rfl, h.1.digits⟩
  | @compressed v4 a b ga gb ha hb hl =>
    rcases ha with ⟨rfl, -, -⟩ | ha
    · exact ⟨[], _, rfl, by simp⟩
    · cases ha with
      | hex h => exact ⟨_, _, rfl, h.1.digits⟩
      | cons h hrest => exact ⟨_, _, List.append_assoc _ _ _, h.1.digits⟩

theorem readIpv4_none {t r : List UInt8} (ht : ∀ b ∈ t, (digit 16 b).isSome)
    (hr : NoDigit 16 r) (hdot : r.head? ≠ some 46) : readIpv4Addr (t ++ r) = (none, t ++ r) := by
  refine restores_readIpv4Addr.eq_none fun ip r' he => ?_
  obtain ⟨t', hs, hd, -⟩ := readIpv4Addr_some.mp he
  exact dotted_ne ht hr hdot hd hs

theorem readPort_text (port : UInt16) : readPort (58 :: decText port.toNat) = (some port, []) := by
  have hnum : readNumber 65535 10 none true (decText port.toNat) = (some port.toNat, []) := by
    refine (readNumber_checked (fun b => (toDigit_eq b).1) (by norm_num)).mpr
      ⟨_, (List.append_nil _).symm, numeral_decText _, by simp, ?_, noDigit_nil 10⟩
    have := port.toNat_lt
    omega
  rw [readPort, readAtomically_some, bind_some]
  refine ⟨(), _, readGivenChar_some.mpr rfl, ?_⟩
  rw [bind_some]
  exact ⟨_, _, hnum, pure_some.mpr ⟨UInt16.ofNat_toNat, rfl⟩⟩

theorem readScopeId_text (scopeId : UInt32) {r : List UInt8} (hr : NoDigit 10 r) :
    readScopeId (37 :: (decText scopeId.toNat ++ r)) = (some scopeId, r) := by
  have hnum : readNumber (2^32-1) 10 none true (decText scopeId.toNat ++ r) =
      (some scopeId.toNat, r) := by
    refine (readNumber_checked (fun b => (toDigit_eq b).1) (by norm_num)).mpr
      ⟨_, rfl, numeral_decText _, by simp, ?_, hr⟩
    have := scopeId.toNat_lt
    omega
  rw [readScopeId, readAtomically_some, bind_some]
  refine ⟨(), _, readGivenChar_some.mpr rfl, ?_⟩
  rw [bind_some]
  exact ⟨_, _, hnum, pure_some.mpr ⟨UInt32.ofNat_toNat, rfl⟩⟩

theorem readScopeId_none {s : List UInt8} (h : s.head? ≠ some 37) : readScopeId s = (none, s) := by
  refine (restores_readAtomically _).eq_none fun a r he => ?_
  obtain ⟨_, s', hc, -⟩ := bind_some.mp (readAtomically_some.mp he)
  rw [readGivenChar_some.mp hc] at h
  exact h rfl

/-- The scope in a text, which is left out where it is zero. -/
def scopeText (scopeId : UInt32) : List UInt8 :=
  if scopeId = 0 then [] else 37 :: decText scopeId.toNat

theorem endsAddr_cons {b : UInt8} {r : List UInt8} (h : digit 16 b = none) (hdot : b ≠ 46)
    (hcolon : b ≠ 58) : EndsAddr (b :: r) :=
  ⟨noDigit_cons h, by simpa using hdot, by simpa using hcolon⟩

theorem readScope_scopeText (scopeId : UInt32) (r : List UInt8) :
    EndsAddr (scopeText scopeId ++ 93 :: r) ∧
      readScopeId.unwrapOr 0 (scopeText scopeId ++ 93 :: r) = (some scopeId, 93 :: r) := by
  unfold scopeText
  split
  · rename_i h0
    refine ⟨endsAddr_cons (by decide) (by decide) (by decide), ?_⟩
    rw [List.nil_append, unwrapOr, readScopeId_none (by simp), h0]
    rfl
  · refine ⟨endsAddr_cons (by decide) (by decide) (by decide), ?_⟩
    rw [unwrapOr, List.cons_append, readScopeId_text scopeId (noDigit_cons (by decide))]
    rfl

def socketV4Text (a : SocketAddrV4) : List UInt8 := ipv4Text a.ip ++ 58 :: decText a.port.toNat

def socketV6Text (a : SocketAddrV6) : List UInt8 :=
  91 :: (ipv6Text a.ip ++ (scopeText a.scopeId ++ 93 :: 58 :: decText a.port.toNat))

theorem readSocketAddrV4_text (a : SocketAddrV4) :
    readSocketAddrV4 (socketV4Text a) = (some a, []) := by
  rw [readSocketAddrV4, readAtomically_some, bind_some]
  refine ⟨a.ip, _, readIpv4_ipv4Text a.ip (noDigit_cons (by decide)), ?_⟩
  rw [bind_some]
  exact ⟨a.port, [], readPort_text a.port, pure_some.mpr ⟨rfl, rfl⟩⟩

theorem readSocketAddrV6_text (a : SocketAddrV6) :
    readSocketAddrV6 (socketV6Text a) = (some { a with flowinfo := 0 }, []) := by
  obtain ⟨hends, hscope⟩ := readScope_scopeText a.scopeId (58 :: decText a.port.toNat)
  rw [readSocketAddrV6, readAtomically_some, bind_some]
  refine ⟨(), _, readGivenChar_some.mpr rfl, ?_⟩
  rw [bind_some]
  refine ⟨a.ip, _, readIpv6_ipv6Text a.ip hends, ?_⟩
  rw [bind_some]
  refine ⟨a.scopeId, _, hscope, ?_⟩
  rw [bind_some]
  refine ⟨(), _, readGivenChar_some.mpr rfl, ?_⟩
  rw [bind_some]
  exact ⟨a.port, [], readPort_text a.port, pure_some.mpr ⟨rfl, rfl⟩⟩

theorem readSocketAddrV4_bracket (r : List UInt8) :
    readSocketAddrV4 (91 :: r) = (none, 91 :: r) := by
  refine (restores_readAtomically _).eq_none fun a r' he => ?_
  obtain ⟨ip, s', hip, -⟩ := bind_some.mp (readAtomically_some.mp he)
  have hnone : readIpv4Addr ([] ++ 91 :: r) = (none, 91 :: r) :=
    readIpv4_none (by simp) (noDigit_cons (by decide)) (by simp)
  rw [List.nil_append, hip] at hnone
  cases hnone

theorem socketV4_pieces (small : Bool) (a : SocketAddrV4) :
    Writes (a.pieces small) longestIpv4SocketAddr (socketV4Text a) := by
  obtain ⟨ps, hp, hf, hl⟩ := ipv4_pieces small a.ip
  have hport := length_decText (by norm_num) (show a.port.toNat < 10^5 by
    have := a.port.toNat_lt
    omega)
  refine ⟨ps ++ [[58], decText a.port.toNat], ?_, by simp [socketV4Text, hf], ?_⟩
  · rw [SocketAddrV4.pieces, hp, displayUint_eq .w16 small a.port.toNat_lt]
    rfl
  · simp only [socketV4Text, List.length_append, List.length_cons, longestIpv4SocketAddr,
      longestIpv4Addr] at hl ⊢
    omega

theorem socketV6_pieces (small : Bool) (a : SocketAddrV6) :
    Writes (a.pieces small) longestIpv6SocketAddr (socketV6Text a) := by
  obtain ⟨ps, hp, hf, hl⟩ := ipv6_pieces small a.ip
  have hport := length_decText (by norm_num) (show a.port.toNat < 10^5 by
    have := a.port.toNat_lt
    omega)
  have hscope := length_decText (by norm_num) (show a.scopeId.toNat < 10^10 by
    have := a.scopeId.toNat_lt
    omega)
  unfold SocketAddrV6.pieces socketV6Text scopeText
  rw [hp, displayUint_eq .w16 small a.port.toNat_lt]
  simp only [longestIpv6SocketAddr, longestIpv6Addr] at hl ⊢
  split
  · refine ⟨[[91]] ++ ps ++ [[93, 58], decText a.port.toNat], rfl, by simp [hf], ?_⟩
    simp only [List.nil_append, List.length_append, List.length_cons]
    omega
  · rw [displayUint_eq .w32 small a.scopeId.toNat_lt]
    refine ⟨[[91]] ++ ps ++ [[37], decText a.scopeId.toNat, [93, 58], decText a.port.toNat], rfl,
      by simp [hf], ?_⟩
    simp only [List.length_append, List.length_cons]
    omega

/-- The shape of the text of an IPv6 address. -/
def Canonical (ip : Ipv6Addr) (t : List UInt8) : Prop :=
  match ip.toIpv4Mapped with
  | some v4 => ∃ tv, Dotted tv v4 ∧ t = mappedPrefix ++ tv
  | none =>
    (∃ start len a b, 2 ≤ len ∧ FirstLongest ip.segments.toList start len ∧
      t = a ++ 58 :: 58 :: b ∧ Side false a (ip.segments.toList.take start) ∧
      Side false b (ip.segments.toList.drop (start+len))) ∨
    (∀ start len, ZeroRun ip.segments.toList start len → len < 2) ∧ NoDouble t

theorem canonical_ipv6Text (ip : Ipv6Addr) : Canonical ip (ipv6Text ip) := by
  unfold Canonical ipv6Text
  cases hm : ip.toIpv4Mapped with
  | some v4 => exact ⟨ipv4Text v4, dotted_ipv4Text v4, rfl⟩
  | none =>
    have hz := zeroes_firstLongest ip.segments.toList
    dsimp only
    generalize zeroes ip.segments.toList = z at hz ⊢
    by_cases hlen : z.len > 1
    · rw [if_pos hlen]
      exact .inl ⟨z.start, z.len, _, _, hlen, hz, rfl, side_groupsText _, side_groupsText _⟩
    · rw [if_neg hlen]
      refine .inr ⟨fun start len hrun => ?_,
        (side_noDouble (side_groupsText ip.segments.toList)).1.of_append⟩
      have := (hz.2 start len hrun).1
      omega

/-- Every address is parsed back from its text, alone and as one of both kinds, and
the text fits into the buffer for padding. -/
theorem ip_text_round_trip (small : Bool) :
    (∀ ip : Ipv4Addr, ∃ t, textOf (ip.pieces small) = some t ∧
      bufferOf longestIpv4Addr (ip.pieces small) = some t ∧
      Ipv4Addr.parseAscii t = some ip ∧ IpAddr.parseAscii t = some (.v4 ip)) ∧
    (∀ ip : Ipv6Addr, ∃ t, textOf (ip.pieces small) = some t ∧
      bufferOf longestIpv6Addr (ip.pieces small) = some t ∧
      Ipv6Addr.parseAscii t = some ip ∧ IpAddr.parseAscii t = some (.v6 ip) ∧
      AtMostOneDouble t ∧ Canonical ip t) ∧
    (∀ a : SocketAddrV4, ∃ t, textOf (a.pieces small) = some t ∧
      bufferOf longestIpv4SocketAddr (a.pieces small) = some t ∧
      SocketAddrV4.parseAscii t = some a ∧ SocketAddr.parseAscii t = some (.v4 a)) ∧
    ∀ a : SocketAddrV6, ∃ t, textOf (a.pieces small) = some t ∧
      bufferOf longestIpv6SocketAddr (a.pieces small) = some t ∧
      SocketAddrV6.parseAscii t = some { a with flowinfo := 0 } ∧
      SocketAddr.parseAscii t = some (.v6 { a with flowinfo := 0 }) := by
  refine ⟨fun ip => ?_, fun ip => ?_, fun a => ?_, fun a => ?_⟩
  · have hw := ipv4_pieces small ip
    have hread : readIpv4Addr (ipv4Text ip) = (some ip, []) := by
      simpa using readIpv4_ipv4Text ip (noDigit_nil 10)
    refine ⟨ipv4Text ip, hw.textOf.1, hw.textOf.2, ?_, ?_⟩
    · obtain ⟨-, -, -, hl⟩ := hw
      have hle : ¬(ipv4Text ip).length > 15 := not_lt.mpr hl
      rw [Ipv4Addr.parseAscii, if_neg hle, parseWith_some, hread]
    · rw [IpAddr.parseAscii, parseWith_some, readIpAddr, hread]
  · have hw := ipv6_pieces small ip
    have hend : EndsAddr [] := ⟨noDigit_nil 16, by simp, by simp⟩
    have hread : readIpv6Addr (ipv6Text ip) = (some ip, []) := by
      simpa using readIpv6_ipv6Text ip hend
    refine ⟨ipv6Text ip, hw.textOf.1, hw.textOf.2, ?_, ?_, denotes_atMostOne (denotes_ipv6Text ip),
      canonical_ipv6Text ip⟩
    · rw [Ipv6Addr.parseAscii, parseWith_some, hread]
    · obtain ⟨h, r, he, hh⟩ := denotes_colon (denotes_ipv6Text ip)
      have hnone : readIpv4Addr (ipv6Text ip) = (none, ipv6Text ip) := by
        rw [he]
        exact readIpv4_none hh (noDigit_cons (by decide)) (by simp)
      rw [IpAddr.parseAscii, parseWith_some, readIpAddr, hnone]
      exact map_some.mpr ⟨ip, hread, rfl⟩
  · have hw := socketV4_pieces small a
    refine ⟨socketV4Text a, hw.textOf.1, hw.textOf.2, ?_, ?_⟩
    · rw [SocketAddrV4.parseAscii, parseWith_some, readSocketAddrV4_text]
    · rw [SocketAddr.parseAscii, parseWith_some, readSocketAddr, readSocketAddrV4_text]
  · have hw := socketV6_pieces small a
    refine ⟨socketV6Text a, hw.textOf.1, hw.textOf.2, ?_, ?_⟩
    · rw [SocketAddrV6.parseAscii, parseWith_some, readSocketAddrV6_text]
    · rw [SocketAddr.parseAscii, parseWith_some, readSocketAddr, socketV6Text,
        readSocketAddrV4_bracket, ← socketV6Text]
      exact map_some.mpr ⟨_, readSocketAddrV6_text a, rfl⟩

end ParseBack

end RustStd.Net
