import RustStd.Net.Grammar

/-!
# Parsing of IPv6 addresses

The groups read by `read_groups` are those of the text, and what is left does
not go on as groups do. With this the parser accepts exactly the texts of the
grammar and returns the address that a text denotes.
-/

set_option autoImplicit false

namespace RustStd.Net
open RustStd.IntFmt

namespace Parser

/-- The colon in front of every group but the first. -/
def lead (i : ℕ) : List UInt8 := if i = 0 then [] else [58]

theorem readSeparator_some {α : Type} {i : ℕ} {p : Parser α} {s r : List UInt8} {a : α} :
    readSeparator 58 i p s = (some a, r) ↔ ∃ s', s = lead i ++ s' ∧ p s' = (some a, r) := by
  rcases Nat.eq_zero_or_pos i with rfl | hi
  · rw [readSeparator_zero]
    simp [lead]
  · rw [readSeparator_pos hi]
    simp [lead, show i ≠ 0 by omega]

def readHex : Parser ℕ := readNumber 65535 16 (some 4) true

theorem readHex_some {s r : List UInt8} {g : UInt16} :
    (∃ n, readHex s = (some n, r) ∧ UInt16.ofNat n = g) ↔
      ∃ t, s = t ++ r ∧ HexGroup t g ∧ NoDigit 16 r := by
  simp only [readHex,
    readNumber_some (fun b => (toDigit_eq b).2) (show 16^(4+1) ≤ 2^32 by norm_num)]
  constructor
  · rintro ⟨n, ⟨t, he, hl, hnum, -, hv, hr⟩, rfl⟩
    have hn : (UInt16.ofNat n).toNat = n := by
      rw [UInt16.toNat_ofNat']
      omega
    exact ⟨t, he, ⟨by rw [hn]; exact hnum, hl⟩, hr⟩
  · rintro ⟨t, he, ⟨hnum, hl⟩, hr⟩
    refine ⟨g.toNat, ⟨t, he, hl, hnum, by simp, ?_, hr⟩, UInt16.ofNat_toNat⟩
    have := g.toNat_lt
    omega

/-- The groups that `read_groups` reads into `left` slots, whether they end in an
IPv4 address, and what is left. -/
def scan : ℕ → ℕ → List UInt8 → List UInt16 × Bool × List UInt8
  | 0, _, s => ([], false, s)
  | left+1, i, s =>
    match (if 0 < left then readSeparator 58 i readIpv4Addr s else (none, s)) with
    | (some ip, s') => ([fromBeBytes ip.a ip.b, fromBeBytes ip.c ip.d], true, s')
    | (none, _) =>
      match readSeparator 58 i readHex s with
      | (some g, s') =>
        let r := scan left (i+1) s'
        (UInt16.ofNat g :: r.1, r.2.1, r.2.2)
      | (none, _) => ([], false, s)

section Scan
variable {left i : ℕ} {s : List UInt8}

theorem scan_v4 {ip : Ipv4Addr} {s' : List UInt8} (hl : 0 < left)
    (h : readSeparator 58 i readIpv4Addr s = (some ip, s')) :
    scan (left+1) i s = ([fromBeBytes ip.a ip.b, fromBeBytes ip.c ip.d], true, s') := by
  rw [scan, if_pos hl, h]

theorem scan_hex {g : ℕ} {s' : List UInt8}
    (h : 0 < left → ∀ ip r, readSeparator 58 i readIpv4Addr s ≠ (some ip, r))
    (hg : readSeparator 58 i readHex s = (some g, s')) :
    scan (left+1) i s =
      (UInt16.ofNat g :: (scan left (i+1) s').1, (scan left (i+1) s').2.1,
        (scan left (i+1) s').2.2) := by
  rw [scan]
  by_cases hl : 0 < left
  · rw [if_pos hl, (restores_readSeparator 58 i readIpv4Addr).eq_none (h hl), hg]
  · rw [if_neg hl, hg]

theorem scan_none (h : 0 < left → ∀ ip r, readSeparator 58 i readIpv4Addr s ≠ (some ip, r))
    (hg : ∀ g r, readSeparator 58 i readHex s ≠ (some g, r)) :
    scan (left+1) i s = ([], false, s) := by
  have hhex := (restores_readSeparator 58 i readHex).eq_none hg
  rw [scan]
  by_cases hl : 0 < left
  · rw [if_pos hl, (restores_readSeparator 58 i readIpv4Addr).eq_none (h hl), hhex]
  · rw [if_neg hl, hhex]

theorem scan_cases (left i : ℕ) (s : List UInt8) :
    (0 < left ∧ ∃ ip s', readSeparator 58 i readIpv4Addr s = (some ip, s')) ∨
      (0 < left → ∀ ip r, readSeparator 58 i readIpv4Addr s ≠ (some ip, r)) ∧
        ((∃ g s', readSeparator 58 i readHex s = (some g, s')) ∨
          ∀ g r, readSeparator 58 i readHex s ≠ (some g, r)) := by
  by_cases h : 0 < left ∧ ∃ ip s', readSeparator 58 i readIpv4Addr s = (some ip, s')
  · exact .inl h
  · refine .inr ⟨fun hl ip r he => h ⟨hl, ip, r, he⟩, ?_⟩
    by_cases hg : ∃ g s', readSeparator 58 i readHex s = (some g, s')
    · exact .inl hg
    · exact .inr fun g r he => hg ⟨g, r, he⟩

theorem readGroupsFrom_eq (limit left : ℕ) (done slots : List UInt16) (s : List UInt8)
    (hl : slots.length = left) (hlimit : done.length+left = limit) :
    readGroupsFrom limit left (done ++ slots) s =
      ((done ++ (scan left done.length s).1 ++ slots.drop (scan left done.length s).1.length,
        done.length+(scan left done.length s).1.length, (scan left done.length s).2.1),
        (scan left done.length s).2.2) := by
  induction left generalizing done slots s with
  | zero =>
    obtain rfl := List.eq_nil_of_length_eq_zero hl
    simp [readGroupsFrom, scan, ← hlimit]
  | succ left ih =>
    have hidx : limit-(left+1) = done.length := by omega
    have hcond : done.length < limit-1 ↔ 0 < left := by omega
    obtain ⟨x, slots, rfl⟩ := List.exists_cons_of_length_eq_add_one hl
    simp only [List.length_cons, Nat.add_right_cancel_iff] at hl
    have hset (y : UInt16) : (done ++ x :: slots).set done.length y = done ++ [y] ++ slots := by simp
    rw [readGroupsFrom]
    simp only [hidx, hcond]
    rcases scan_cases left done.length s with ⟨hpos, ip, s', h⟩ | ⟨h, hg⟩
    · obtain ⟨y, slots, rfl⟩ := List.exists_cons_of_length_pos (by omega : 0 < slots.length)
      rw [scan_v4 hpos h, if_pos hpos, h]
      simp
    · have hv4 : (if 0 < left then readSeparator 58 done.length readIpv4Addr s else (none, s)) =
          (none, s) := by
        split
        · rename_i hpos
          exact (restores_readSeparator 58 done.length readIpv4Addr).eq_none (h hpos)
        · rfl
      rw [hv4]
      change (match readSeparator 58 done.length readHex s with
        | (some g, state) =>
          readGroupsFrom limit left ((done ++ x :: slots).set done.length (UInt16.ofNat g)) state
        | (none, state) => ((done ++ x :: slots, done.length, false), state)) = _
      rcases hg with ⟨g, s', hg⟩ | hg
      · rw [scan_hex h hg, hg]
        simp only [hset]
        rw [ih (done ++ [UInt16.ofNat g]) slots s' hl (by simp; omega)]
        simp [Nat.add_assoc, Nat.add_comm 1]
      · rw [scan_none h hg, (restores_readSeparator 58 done.length readHex).eq_none hg]
        simp

theorem scan_sound (left i : ℕ) (s : List UInt8) :
    scan left i s = ([], false, s) ∨
      ∃ t, s = lead i ++ t ++ (scan left i s).2.2 ∧
        Groups (scan left i s).2.1 t (scan left i s).1 ∧ (scan left i s).1.length ≤ left := by
  induction left generalizing i s with
  | zero => exact .inl rfl
  | succ left ih =>
    rcases scan_cases left i s with ⟨hpos, ip, s', h⟩ | ⟨h, ⟨g, s', hg⟩ | hg⟩
    · rw [scan_v4 hpos h]
      obtain ⟨_, rfl, hs⟩ := readSeparator_some.mp h
      obtain ⟨t, rfl, ht, -⟩ := readIpv4Addr_some.mp hs
      exact .inr ⟨t, by simp, .v4 ht, by simp only [List.length_cons, List.length_nil]; omega⟩
    · rw [scan_hex h hg]
      obtain ⟨_, rfl, hs⟩ := readSeparator_some.mp hg
      obtain ⟨t, rfl, ht, -⟩ := readHex_some.mp ⟨g, hs, rfl⟩
      refine .inr ?_
      rcases ih (i+1) s' with hnil | ⟨t', he, hgroups, hl⟩
      · rw [hnil]
        exact ⟨t, by simp, .hex ht, by simp⟩
      · refine ⟨t ++ 58 :: t', ?_, .cons ht hgroups, by simpa using hl⟩
        conv_lhs => rw [he]
        simp [lead]
    · exact .inl (scan_none h hg)

/-- What comes after groups: neither a digit nor a dot, and no colon before a group. -/
structure Stop (r : List UInt8) : Prop where
  digit : NoDigit 16 r
  dot : r.head? ≠ some 46
  colon : ∀ s, r = 58 :: s → s.head? = some 58

theorem digit_of_ten {b : UInt8} (h : (digit 10 b).isSome) : (digit 16 b).isSome := by
  obtain ⟨d, hd⟩ := Option.isSome_iff_exists.mp h
  obtain ⟨hv, hlt⟩ := Option.filter_eq_some_iff.mp hd
  have h16 : digit 16 b = some d := Option.filter_eq_some_iff.mpr ⟨hv, by simp at hlt ⊢; omega⟩
  simp [h16]

theorem noDigit_ten {r : List UInt8} (h : NoDigit 16 r) : NoDigit 10 r := by
  intro b hb
  cases hd : digit 10 b with
  | none => rfl
  | some d =>
    have := digit_of_ten (by simp [hd] : (digit 10 b).isSome)
    rw [h b hb] at this
    cases this

theorem dotted_ne {t t' r r' : List UInt8} {ip : Ipv4Addr} (ht : ∀ b ∈ t, (digit 16 b).isSome)
    (hr : NoDigit 16 r) (hdot : r.head? ≠ some 46) (h : Dotted t' ip) : t ++ r ≠ t' ++ r' := by
  obtain ⟨ta, tb, tc, td, rfl, ha, -⟩ := h
  intro he
  rw [List.append_assoc, List.cons_append] at he
  obtain ⟨-, hr'⟩ := split_unique ht (fun b hb => digit_of_ten (ha.1.digits b hb)) hr
    (noDigit_cons (by decide)) he
  rw [hr'] at hdot
  exact hdot rfl

theorem readIpv4_hex {t r : List UInt8} (ht : ∀ b ∈ t, (digit 16 b).isSome)
    (hr : NoDigit 16 r) (hdot : r.head? ≠ some 46) (i : ℕ) (ip : Ipv4Addr) (r' : List UInt8) :
    readSeparator 58 i readIpv4Addr (lead i ++ t ++ r) ≠ (some ip, r') := by
  intro h
  obtain ⟨s', he, hs⟩ := readSeparator_some.mp h
  rw [List.append_assoc] at he
  obtain ⟨t', rfl, hd, -⟩ := readIpv4Addr_some.mp hs
  exact dotted_ne ht hr hdot hd (List.append_cancel_left he)

theorem readHex_group {t r : List UInt8} {g : UInt16} (ht : HexGroup t g) (hr : NoDigit 16 r)
    (i : ℕ) : ∃ n, readSeparator 58 i readHex (lead i ++ t ++ r) = (some n, r) ∧
      UInt16.ofNat n = g := by
  obtain ⟨n, hn, hg⟩ := readHex_some.mpr ⟨t, rfl, ht, hr⟩
  exact ⟨n, readSeparator_some.mpr ⟨t ++ r, by simp, hn⟩, hg⟩

theorem scan_stop (left i : ℕ) {r : List UInt8} (h : Stop r) : scan left i r = ([], false, r) := by
  cases left with
  | zero => rfl
  | succ left =>
    have hno : ∀ s', r = lead i ++ s' → NoDigit 16 s' ∧ s'.head? ≠ some 46 := by
      intro s' he
      unfold lead at he
      split at he
      · rw [List.nil_append] at he
        exact he ▸ ⟨h.digit, h.dot⟩
      · have hs := h.colon s' he
        refine ⟨fun b hb => ?_, by rw [hs]; decide⟩
        rw [← Option.some.inj (hs.symm.trans hb)]
        decide
    refine scan_none (fun _ ip r' he => ?_) fun g r' he => ?_
    · obtain ⟨s', hs', hs⟩ := readSeparator_some.mp he
      obtain ⟨t', rfl, hd, -⟩ := readIpv4Addr_some.mp hs
      obtain ⟨hn, hdot⟩ := hno _ hs'
      exact dotted_ne (t := []) (by simp) hn hdot hd rfl
    · obtain ⟨s', hs', hs⟩ := readSeparator_some.mp he
      obtain ⟨t', rfl, ht, hr'⟩ := readHex_some.mp ⟨g, hs, rfl⟩
      obtain ⟨hnil, -⟩ := split_unique (t := []) (by simp) ht.1.digits (hno _ hs').1 hr' rfl
      exact ht.1.ne_nil hnil.symm

theorem scan_complete {v4 : Bool} {t : List UInt8} {gs : List UInt16} (h : Groups v4 t gs)
    {left : ℕ} (i : ℕ) (hl : gs.length ≤ left) {r : List UInt8} (hr : Stop r) :
    scan left i (lead i ++ t ++ r) = (gs, v4, r) := by
  induction h generalizing left i with
  | @hex t g ht =>
    obtain ⟨left, rfl⟩ : ∃ k, left = k+1 := ⟨left-1, by simp only [List.length_cons] at hl; omega⟩
    obtain ⟨n, hn, rfl⟩ := readHex_group ht hr.digit i
    rw [scan_hex (fun _ => readIpv4_hex ht.1.digits hr.digit hr.dot i) hn, scan_stop left (i+1) hr]
  | @v4 t ip ht =>
    obtain ⟨left, rfl⟩ : ∃ k, left = k+1 := ⟨left-1, by simp only [List.length_cons] at hl; omega⟩
    have hread := readIpv4Addr_some.mpr ⟨t, rfl, ht, noDigit_ten hr.digit⟩
    refine scan_v4 (by simp only [List.length_cons, List.length_nil] at hl; omega) ?_
    exact readSeparator_some.mpr ⟨t ++ r, by simp, hread⟩
  | @cons v4 t rest g gs ht hrest ih =>
    obtain ⟨left, rfl⟩ : ∃ k, left = k+1 := ⟨left-1, by simp only [List.length_cons] at hl; omega⟩
    have hcolon : NoDigit 16 (58 :: (rest ++ r)) := noDigit_cons (by decide)
    have hs : lead i ++ (t ++ 58 :: rest) ++ r = lead i ++ t ++ 58 :: (rest ++ r) := by simp
    obtain ⟨n, hn, rfl⟩ := readHex_group ht hcolon i
    have hnext : scan left (i+1) (58 :: (rest ++ r)) = (gs, v4, r) := by
      simpa [lead] using ih (i+1) (by simpa using hl)
    rw [hs, scan_hex (fun _ => readIpv4_hex ht.1.digits hcolon (by simp) i) hn, hnext]

theorem scan_side {v4 : Bool} {t : List UInt8} {gs : List UInt16} (h : Side v4 t gs) (left : ℕ)
    (hl : gs.length ≤ left) {r : List UInt8} (hr : Stop r) :
    scan left 0 (t ++ r) = (gs, v4, r) := by
  rcases h with ⟨rfl, rfl, rfl⟩ | h
  · exact scan_stop left 0 hr
  · exact scan_complete h 0 hl hr

end Scan

theorem readGroups_eq (limit : ℕ) (s : List UInt8) :
    readGroups limit s =
      (((scan limit 0 s).1 ++ List.replicate (limit-(scan limit 0 s).1.length) 0,
        (scan limit 0 s).1.length, (scan limit 0 s).2.1), (scan limit 0 s).2.2) := by
  have h := readGroupsFrom_eq limit limit [] (List.replicate limit 0) s (by simp) (by simp)
  simpa [readGroups] using h

/-- What comes after an address. -/
structure EndsAddr (r : List UInt8) : Prop where
  digit : NoDigit 16 r
  dot : r.head? ≠ some 46
  colon : r.head? ≠ some 58

theorem EndsAddr.stop {r : List UInt8} (h : EndsAddr r) : Stop r :=
  ⟨h.digit, h.dot, fun s hs => absurd (by rw [hs]; rfl) h.colon⟩

theorem stop_colons (s : List UInt8) : Stop (58 :: 58 :: s) :=
  ⟨noDigit_cons (by decide), by simp, fun t ht => by rw [← (List.cons.inj ht).2]; rfl⟩

theorem fill_tail (ga gb : List UInt16) (hl : ga.length+gb.length ≤ 7) (k : ℕ) :
    (ga ++ List.replicate (8-ga.length) 0).take (8-gb.length) ++
        (gb ++ List.replicate k 0).take gb.length =
      ga ++ List.replicate (8-ga.length-gb.length) 0 ++ gb := by
  have hmin : min (8-gb.length-ga.length) (8-ga.length) = 8-ga.length-gb.length := by omega
  rw [List.take_left, List.take_append, List.take_of_length_le (by omega), List.take_replicate, hmin]

theorem readIpv6Addr_of_denotes {t r : List UInt8} {gs : List UInt16} (h : Denotes t gs)
    (hr : EndsAddr r) : readIpv6Addr (t ++ r) = (some (.ofSegments gs), r) := by
  rw [readIpv6Addr, readAtomically_some]
  cases h with
  | full h hl =>
    have hs := scan_side (.inr h) 8 hl.le hr.stop
    simp [readGroups_eq, hs, hl]
  | @compressed v4 a b ga gb ha hb hl =>
    have hs : scan 8 0 (a ++ 58 :: 58 :: b ++ r) = (ga, false, 58 :: 58 :: (b ++ r)) := by
      simpa using scan_side ha 8 (by omega) (stop_colons (b ++ r))
    have hs' := scan_side hb (8-(ga.length+1)) (by omega) hr.stop
    simp only [readGroups_eq, hs]
    rw [if_neg (by omega), if_neg Bool.false_ne_true, bind_some]
    refine ⟨(), 58 :: (b ++ r), readGivenChar_some.mpr rfl, ?_⟩
    rw [bind_some]
    refine ⟨(), b ++ r, readGivenChar_some.mpr rfl, ?_⟩
    simp only [hs', fill_tail ga gb hl]

theorem side_of_scan (left : ℕ) (s : List UInt8) :
    ∃ t, s = t ++ (scan left 0 s).2.2 ∧ Side (scan left 0 s).2.1 t (scan left 0 s).1 ∧
      (scan left 0 s).1.length ≤ left := by
  rcases scan_sound left 0 s with hnil | ⟨t, he, hg, hl⟩
  · rw [hnil]
    exact ⟨[], rfl, .inl ⟨rfl, rfl, rfl⟩, Nat.zero_le left⟩
  · exact ⟨t, he, .inr hg, hl⟩

theorem denotes_of_readIpv6Addr {s r : List UInt8} {a : Ipv6Addr}
    (h : readIpv6Addr s = (some a, r)) :
    ∃ t gs, s = t ++ r ∧ Denotes t gs ∧ a = .ofSegments gs := by
  rw [readIpv6Addr, readAtomically_some] at h
  obtain ⟨t, hs, hside, hl⟩ := side_of_scan 8 s
  simp only [readGroups_eq] at h
  generalize scan 8 0 s = x at h hs hside hl
  obtain ⟨ga, v4, s₁⟩ := x
  dsimp only at h hs hside hl
  split_ifs at h with h₁ h₂
  · simp only [h₁, Nat.sub_self, List.replicate_zero, List.append_nil, Prod.mk.injEq,
      Option.some.injEq] at h
    obtain ⟨rfl, rfl⟩ := h
    rcases hside with ⟨-, rfl, -⟩ | hg
    · cases h₁
    · exact ⟨t, ga, hs, .full hg h₁, rfl⟩
  · cases h
  · obtain ⟨_, _, hc, h⟩ := bind_some.mp h
    obtain ⟨_, s₂, hc', h⟩ := bind_some.mp h
    rw [readGivenChar_some.mp hc, readGivenChar_some.mp hc'] at hs
    obtain ⟨t', hs', hside', hl'⟩ := side_of_scan (8-(ga.length+1)) s₂
    generalize scan (8-(ga.length+1)) 0 s₂ = y at h hs' hside' hl'
    obtain ⟨gb, v4', s₃⟩ := y
    dsimp only at h hs' hside' hl'
    simp only [fill_tail ga gb (by omega), Prod.mk.injEq, Option.some.injEq] at h
    obtain ⟨rfl, rfl⟩ := h
    have hv4 : v4 = false := by simpa using h₂
    rw [hv4] at hside
    refine ⟨t ++ 58 :: 58 :: t', _, ?_, .compressed hside hside' (by omega), rfl⟩
    rw [hs, hs']
    simp

end Parser

open RustStd.Net.Parser

theorem denotes_length {t : List UInt8} {gs : List UInt16} (h : Denotes t gs) : gs.length = 8 := by
  cases h with
  | full h hl => exact hl
  | compressed ha hb hl =>
    simp only [List.length_append, List.length_replicate]
    omega

theorem toList_ofSegments {gs : List UInt16} (h : gs.length = 8) :
    (Ipv6Addr.ofSegments gs).segments.toList = gs := by
  apply List.ext_getElem
  · simp [h]
  · intro i hi hi'
    simp [Ipv6Addr.ofSegments, List.getD_eq_getElem?_getD, hi']

theorem ofSegments_toList (a : Ipv6Addr) : Ipv6Addr.ofSegments a.segments.toList = a := by
  obtain ⟨v⟩ := a
  simp only [Ipv6Addr.ofSegments, Ipv6Addr.mk.injEq]
  ext i hi
  simp [List.getD_eq_getElem?_getD]

theorem parseWith_some {α : Type} {p : Parser α} {s : List UInt8} {a : α} :
    p.parseWith s = some a ↔ p s = (some a, []) := by
  unfold parseWith
  rcases p s with ⟨o, r⟩
  cases r with
  | nil => simp
  | cons b r => simp

/-- The parser accepts exactly the texts that denote an address and returns that
address; a parser that fails leaves the input where it was. -/
theorem ipv6_parse_iff :
    (∀ (b : List UInt8) (a : Ipv6Addr),
      Ipv6Addr.parseAscii b = some a ↔ Denotes b a.segments.toList) ∧
    (∀ {α : Type} (sep : UInt8) (i : ℕ) (inner : Parser α),
      Restores (readAtomically inner) ∧ Restores (readSeparator sep i inner)) ∧
    (∀ (c : UInt8) (max radix : ℕ) (maxDigits : Option ℕ) (allow : Bool),
      Restores (readGivenChar c) ∧ Restores (readNumber max radix maxDigits allow)) ∧
    Restores readIpv4Addr ∧ Restores readIpv6Addr := by
  refine ⟨fun b a => ?_, fun sep i inner => ⟨restores_readAtomically inner,
    restores_readSeparator sep i inner⟩, fun c max radix maxDigits allow =>
    ⟨restores_readGivenChar c, restores_readNumber max radix maxDigits allow⟩,
    restores_readIpv4Addr, restores_readIpv6Addr⟩
  rw [Ipv6Addr.parseAscii, parseWith_some]
  constructor
  · intro h
    obtain ⟨t, gs, rfl, hd, rfl⟩ := denotes_of_readIpv6Addr h
    rw [toList_ofSegments (denotes_length hd), List.append_nil]
    exact hd
  · intro h
    have hend : EndsAddr [] := ⟨noDigit_nil 16, by simp, by simp⟩
    have hread := readIpv6Addr_of_denotes h hend
    rwa [List.append_nil, ofSegments_toList] at hread

end RustStd.Net
