import RustStd.Net.Parser

/-!
# The texts of addresses

What the texts of numbers, of IPv4 and of IPv6 addresses are, said without the
parser, and that the parser reads exactly these. A number is read up to the last
of its digits, so what follows a text decides whether it is read.
-/

set_option autoImplicit false

namespace RustStd.Net
open RustStd.IntFmt

def digitValue (b : UInt8) : Option ℕ :=
  if 48 ≤ b ∧ b ≤ 57 then some (b.toNat-48)
  else if 65 ≤ b ∧ b ≤ 70 then some (b.toNat-55)
  else if 97 ≤ b ∧ b ≤ 102 then some (b.toNat-87)
  else none

def digit (radix : ℕ) (b : UInt8) : Option ℕ := (digitValue b).filter fun d => d < radix

def value (radix : ℕ) (t : List UInt8) : ℕ :=
  t.foldl (fun v b => v*radix+(digit radix b).getD 0) 0

/-- `t` is a numeral of the number `v`. -/
structure Numeral (radix : ℕ) (t : List UInt8) (v : ℕ) : Prop where
  ne_nil : t ≠ []
  digits : ∀ b ∈ t, (digit radix b).isSome
  value_eq : value radix t = v

/-- One to four hex digits. -/
def HexGroup (t : List UInt8) (g : UInt16) : Prop := Numeral 16 t g.toNat ∧ t.length ≤ 4

/-- One to three decimal digits without leading zeros, up to 255. -/
def Octet (t : List UInt8) (o : UInt8) : Prop :=
  Numeral 10 t o.toNat ∧ t.length ≤ 3 ∧ (t.head? = some 48 → t.length = 1)

/-- Four octets with dots between. -/
def Dotted (t : List UInt8) (ip : Ipv4Addr) : Prop :=
  ∃ ta tb tc td, t = ta ++ 46 :: (tb ++ 46 :: (tc ++ 46 :: td)) ∧
    Octet ta ip.a ∧ Octet tb ip.b ∧ Octet tc ip.c ∧ Octet td ip.d

/-- Groups with colons between; the last two may be a dotted address, as the flag
says. -/
inductive Groups : Bool → List UInt8 → List UInt16 → Prop
  | hex {t : List UInt8} {g : UInt16} (h : HexGroup t g) : Groups false t [g]
  | v4 {t : List UInt8} {ip : Ipv4Addr} (h : Dotted t ip) :
      Groups true t [fromBeBytes ip.a ip.b, fromBeBytes ip.c ip.d]
  | cons {v4 : Bool} {t rest : List UInt8} {g : UInt16} {gs : List UInt16} (h : HexGroup t g)
      (hrest : Groups v4 rest gs) : Groups v4 (t ++ 58 :: rest) (g :: gs)

/-- One side of `::`, which may be empty. -/
def Side (v4 : Bool) (t : List UInt8) (gs : List UInt16) : Prop :=
  t = [] ∧ gs = [] ∧ v4 = false ∨ Groups v4 t gs

/-- The text denotes the address with the given eight groups. -/
inductive Denotes : List UInt8 → List UInt16 → Prop
  | full {v4 : Bool} {t : List UInt8} {gs : List UInt16} (h : Groups v4 t gs)
      (hl : gs.length = 8) : Denotes t gs
  | compressed {v4 : Bool} {a b : List UInt8} {ga gb : List UInt16} (ha : Side false a ga)
      (hb : Side v4 b gb) (hl : ga.length+gb.length ≤ 7) :
      Denotes (a ++ 58 :: 58 :: b)
        (ga ++ List.replicate (8-ga.length-gb.length) 0 ++ gb)

set_option maxRecDepth 8000 in
theorem toDigit_eq : ∀ b, toDigit b 10 = digit 10 b ∧ toDigit b 16 = digit 16 b := by decide

def NoDigit (radix : ℕ) (r : List UInt8) : Prop := ∀ b, r.head? = some b → digit radix b = none

namespace Parser

variable {α β : Type}

section Combinators

theorem bind_some {p : Parser α} {f : α → Parser β} {s r : List UInt8} {b : β} :
    (p >>= f) s = (some b, r) ↔ ∃ a s', p s = (some a, s') ∧ f a s' = (some b, r) := by
  rcases hp : p s with ⟨_ | a, s'⟩
  · simp [bind, hp]
  · simp [bind, hp]

theorem pure_some {s r : List UInt8} {a b : α} :
    (pure a : Parser α) s = (some b, r) ↔ a = b ∧ s = r := by
  change (some a, s) = (some b, r) ↔ _
  simp

theorem readAtomically_some {p : Parser α} {s r : List UInt8} {a : α} :
    readAtomically p s = (some a, r) ↔ p s = (some a, r) := by
  unfold readAtomically
  rcases p s with ⟨_ | a, s'⟩ <;> simp

/-- A parser that fails leaves the input where it was. -/
def Restores (p : Parser α) : Prop := ∀ s, (p s).1 = none → (p s).2 = s

theorem restores_readAtomically (p : Parser α) : Restores (readAtomically p) := by
  intro s h
  unfold readAtomically at h ⊢
  generalize p s = r at h ⊢
  rcases r with ⟨_ | a, s'⟩
  · rfl
  · cases h

theorem Restores.eq_none {p : Parser α} (hp : Restores p) {s : List UInt8}
    (h : ∀ a r, p s ≠ (some a, r)) : p s = (none, s) := by
  have hn : (p s).1 = none := by
    cases hr : (p s).1 with
    | none => rfl
    | some a => exact absurd (Prod.ext (y := (some a, (p s).2)) hr rfl) (h a (p s).2)
  exact Prod.ext hn (hp s hn)

theorem readGivenChar_some {c : UInt8} {s r : List UInt8} {u : Unit} :
    readGivenChar c s = (some u, r) ↔ s = c :: r := by
  rw [readGivenChar, readAtomically_some, bind_some]
  cases s with
  | nil => simp [readChar]
  | cons b tail =>
    by_cases h : b = c
    · simp [readChar, h, pure_some]
    · simp [readChar, h, fail]

theorem readSeparator_zero {sep : UInt8} {p : Parser α} {s r : List UInt8} {a : α} :
    readSeparator sep 0 p s = (some a, r) ↔ p s = (some a, r) := by
  rw [readSeparator, readAtomically_some]
  rfl

theorem readSeparator_pos {sep : UInt8} {i : ℕ} (hi : 0 < i) {p : Parser α} {s r : List UInt8}
    {a : α} : readSeparator sep i p s = (some a, r) ↔ ∃ s', s = sep :: s' ∧ p s' = (some a, r) := by
  rw [readSeparator, readAtomically_some, if_pos hi, bind_some]
  simp only [readGivenChar_some]
  constructor
  · rintro ⟨-, s', h⟩
    exact ⟨s', h⟩
  · rintro ⟨s', h⟩
    exact ⟨(), s', h⟩

theorem restores_readGivenChar (c : UInt8) : Restores (readGivenChar c) :=
  restores_readAtomically _

theorem restores_readSeparator (sep : UInt8) (i : ℕ) (p : Parser α) :
    Restores (readSeparator sep i p) := restores_readAtomically _

theorem restores_readNumber (max radix : ℕ) (maxDigits : Option ℕ) (allow : Bool) :
    Restores (readNumber max radix maxDigits allow) := restores_readAtomically _

theorem restores_readIpv4Addr : Restores readIpv4Addr := restores_readAtomically _

theorem restores_readIpv6Addr : Restores readIpv6Addr := restores_readAtomically _

end Combinators

section Numbers
variable {radix : ℕ}

def valueFrom (radix v : ℕ) (t : List UInt8) : ℕ :=
  t.foldl (fun v b => v*radix+(digit radix b).getD 0) v

theorem digit_lt {b : UInt8} {d : ℕ} (h : digit radix b = some d) : d < radix := by
  have := Option.filter_eq_some_iff.mp h
  simpa using this.2

theorem le_valueFrom (hr : 0 < radix) (t : List UInt8) (v : ℕ) : v ≤ valueFrom radix v t := by
  induction t generalizing v with
  | nil => exact le_refl v
  | cons b t ih =>
    have hv : v ≤ v*radix := Nat.le_mul_of_pos_right v hr
    exact (hv.trans (Nat.le_add_right _ _)).trans (ih _)

theorem split_digits (radix : ℕ) (s : List UInt8) :
    ∃ t r, s = t ++ r ∧ (∀ b ∈ t, (digit radix b).isSome) ∧ NoDigit radix r := by
  induction s with
  | nil => exact ⟨[], [], rfl, by simp, by simp [NoDigit]⟩
  | cons b s ih =>
    obtain ⟨t, r, rfl, ht, hr⟩ := ih
    cases hb : digit radix b with
    | none =>
      refine ⟨[], b :: (t ++ r), rfl, by simp, ?_⟩
      intro x hx
      rw [← Option.some.inj hx, hb]
    | some d => exact ⟨b :: t, r, rfl, by simpa [hb] using ht, hr⟩

theorem split_unique {t t' r r' : List UInt8} (ht : ∀ b ∈ t, (digit radix b).isSome)
    (ht' : ∀ b ∈ t', (digit radix b).isSome) (hr : NoDigit radix r) (hr' : NoDigit radix r')
    (h : t ++ r = t' ++ r') : t = t' ∧ r = r' := by
  induction t generalizing t' with
  | nil =>
    cases t' with
    | nil => exact ⟨rfl, h⟩
    | cons b t' =>
      have hb := ht' b (by simp)
      rw [hr b (by rw [List.nil_append] at h; rw [h]; rfl)] at hb
      cases hb
  | cons b t ih =>
    cases t' with
    | nil =>
      have hb := ht b (by simp)
      rw [hr' b (by rw [List.nil_append] at h; rw [← h]; rfl)] at hb
      cases hb
    | cons b' t' =>
      rw [List.cons_append, List.cons_append, List.cons.injEq] at h
      obtain ⟨rfl, h⟩ := h
      obtain ⟨rfl, rfl⟩ := ih (fun x hx => ht x (by simp [hx])) (fun x hx => ht' x (by simp [hx])) h
      exact ⟨rfl, rfl⟩

variable (hd : ∀ b, toDigit b radix = digit radix b)
include hd

theorem readDigits_eq {m : ℕ} (hm : radix^(m+1) ≤ 2^32) {t r : List UInt8}
    (ht : ∀ b ∈ t, (digit radix b).isSome) (hr : NoDigit radix r) {v n : ℕ} (hv : v < radix^n)
    (hn : n+t.length ≤ m) :
    readDigits radix m v n (t ++ r) = (some (valueFrom radix v t, n+t.length), r) := by
  induction t generalizing v n with
  | nil =>
    cases r with
    | nil => rfl
    | cons b r =>
      have hb := hr b rfl
      simp [readDigits, hd, hb, valueFrom]
  | cons b t ih =>
    obtain ⟨d, hb⟩ := Option.isSome_iff_exists.mp (ht b (by simp))
    have hlt := digit_lt hb
    simp only [List.length_cons] at hn
    have hnext : v*radix+d < radix^(n+1) := by
      rw [pow_succ]
      nlinarith
    have hfit : v*radix+d < 2^32 :=
      hnext.trans_le ((Nat.pow_le_pow_right (by omega) (by omega)).trans hm)
    rw [List.cons_append, readDigits, hd, hb]
    simp only [Nat.mod_eq_of_lt (show v*radix < 2^32 by omega), Nat.mod_eq_of_lt hfit,
      if_neg (show ¬n+1 > m by omega)]
    rw [ih (fun x hx => ht x (by simp [hx])) hnext (by omega)]
    simp only [valueFrom, List.foldl_cons, hb, Option.getD_some, List.length_cons, Nat.add_assoc,
      Nat.add_comm 1]

theorem readDigits_long {m : ℕ} {t r : List UInt8} (ht : ∀ b ∈ t, (digit radix b).isSome) {v n : ℕ}
    (hn : n ≤ m) (hl : m < n+t.length) : (readDigits radix m v n (t ++ r)).1 = none := by
  induction t generalizing v n with
  | nil => simp at hl; omega
  | cons b t ih =>
    obtain ⟨d, hb⟩ := Option.isSome_iff_exists.mp (ht b (by simp))
    rw [List.cons_append, readDigits, hd, hb]
    dsimp only
    split
    · rfl
    · exact ih (fun x hx => ht x (by simp [hx])) (by omega) (by simp at hl; omega)

theorem readDigitsChecked_eq (hradix : 0 < radix) (max : ℕ) {t r : List UInt8}
    (ht : ∀ b ∈ t, (digit radix b).isSome) (hr : NoDigit radix r) {v n : ℕ} :
    (valueFrom radix v t ≤ max →
      readDigitsChecked radix max v n (t ++ r) = (some (valueFrom radix v t, n+t.length), r)) ∧
    (max < valueFrom radix v t → v ≤ max → (readDigitsChecked radix max v n (t ++ r)).1 = none) := by
  induction t generalizing v n with
  | nil =>
    refine ⟨fun _ => ?_, fun h h' => absurd h' (by simpa [valueFrom] using h)⟩
    cases r with
    | nil => rfl
    | cons b r =>
      have hb := hr b rfl
      simp [readDigitsChecked, hd, hb, valueFrom]
  | cons b t ih =>
    obtain ⟨d, hb⟩ := Option.isSome_iff_exists.mp (ht b (by simp))
    have hv : valueFrom radix v (b :: t) = valueFrom radix (v*radix+d) t := by simp [valueFrom, hb]
    have hle := le_valueFrom hradix t (v*radix+d)
    obtain ⟨ih₁, ih₂⟩ := ih (fun x hx => ht x (by simp [hx])) (v := v*radix+d) (n := n+1)
    rw [hv, List.cons_append, readDigitsChecked, hd, hb]
    dsimp only
    constructor
    · intro h
      rw [if_neg (by omega), if_neg (by omega), ih₁ h]
      simp only [List.length_cons, Nat.add_assoc, Nat.add_comm 1]
    · intro h _
      split
      · rfl
      · split
        · rfl
        · exact ih₂ h (by omega)

omit hd in
theorem finishNumber_some {max v n w : ℕ} {allow zero : Bool} {r r' : List UInt8} :
    finishNumber max allow zero (some (v, n), r) = (some w, r') ↔
      n ≠ 0 ∧ (allow = false → zero = true → n ≤ 1) ∧ v ≤ max ∧ v = w ∧ r = r' := by
  simp only [finishNumber]
  split_ifs with h₁ h₂ h₃
  · simp [h₁]
  · simp only [Bool.and_eq_true, Bool.not_eq_true', decide_eq_true_eq] at h₂
    simp only [Prod.mk.injEq, reduceCtorEq, false_and, false_iff]
    rintro ⟨-, h, -⟩
    have := h h₂.1.1 h₂.1.2
    omega
  · simp only [Prod.mk.injEq, reduceCtorEq, false_and, false_iff]
    rintro ⟨-, -, h, -⟩
    omega
  · simp only [Bool.and_eq_true, Bool.not_eq_true', decide_eq_true_eq, not_and, not_lt] at h₂
    simp only [Prod.mk.injEq, Option.some.injEq]
    constructor
    · rintro ⟨rfl, rfl⟩
      exact ⟨h₁, fun ha hz => h₂ ⟨ha, hz⟩, by omega, rfl, rfl⟩
    · rintro ⟨-, -, -, rfl, rfl⟩
      exact ⟨rfl, rfl⟩

omit hd in
theorem finishNumber_numeral {max v : ℕ} {allow : Bool} {t r r' : List UInt8}
    (ht : ∀ b ∈ t, (digit radix b).isSome) (hr' : NoDigit radix r') :
    finishNumber max allow ((t ++ r').head? == some 48)
        (some (valueFrom radix 0 t, 0+t.length), r') = (some v, r) ↔
      ∃ t', t ++ r' = t' ++ r ∧ Numeral radix t' v ∧
        (allow = false → t'.head? = some 48 → t'.length ≤ 1) ∧ v ≤ max ∧ NoDigit radix r := by
  rw [finishNumber_some, Nat.zero_add]
  constructor
  · rintro ⟨hne, hz, hv, rfl, rfl⟩
    have hne' : t ≠ [] := by simpa using hne
    refine ⟨t, rfl, ⟨hne', ht, rfl⟩, fun ha hh => hz ha ?_, hv, hr'⟩
    rw [List.head?_append_of_ne_nil _ hne', hh]
    rfl
  · rintro ⟨t', he, hnum, hz, hv, hr⟩
    obtain ⟨rfl, rfl⟩ := split_unique ht hnum.digits hr' hr he
    refine ⟨by simpa using hnum.ne_nil, fun ha hh => hz ha ?_, ?_, hnum.value_eq, rfl⟩
    · rw [List.head?_append_of_ne_nil _ hnum.ne_nil] at hh
      simpa using hh
    · exact le_trans (le_of_eq hnum.value_eq) hv

omit hd in
theorem finishNumber_none {max v : ℕ} {allow zero : Bool} {x : Option (ℕ × ℕ) × List UInt8}
    {r : List UInt8} (h : x.1 = none) : finishNumber max allow zero x ≠ (some v, r) := by
  obtain ⟨o, s⟩ := x
  obtain rfl : o = none := h
  simp [finishNumber]

theorem readNumber_some {max m : ℕ} (hm : radix^(m+1) ≤ 2^32) {allow : Bool} {s r : List UInt8}
    {v : ℕ} :
    readNumber max radix (some m) allow s = (some v, r) ↔
      ∃ t, s = t ++ r ∧ t.length ≤ m ∧ Numeral radix t v ∧
        (allow = false → t.head? = some 48 → t.length ≤ 1) ∧ v ≤ max ∧ NoDigit radix r := by
  obtain ⟨t, r', rfl, ht, hr'⟩ := split_digits radix s
  rw [readNumber, readAtomically_some]
  dsimp only
  by_cases hl : t.length ≤ m
  · rw [readDigits_eq hd hm ht hr' (by simp) (by omega), finishNumber_numeral ht hr']
    constructor
    · rintro ⟨t', he, hnum, hz, hv, hr⟩
      obtain ⟨rfl, rfl⟩ := split_unique ht hnum.digits hr' hr he
      exact ⟨t, rfl, hl, hnum, hz, hv, hr⟩
    · rintro ⟨t', he, -, h⟩
      exact ⟨t', he, h⟩
  · refine iff_of_false (finishNumber_none (readDigits_long hd ht (Nat.zero_le m) (by omega))) ?_
    rintro ⟨t', he, hl', hnum, -, -, hr⟩
    obtain ⟨rfl, rfl⟩ := split_unique ht hnum.digits hr' hr he
    exact hl hl'

theorem readNumber_checked {max : ℕ} (hradix : 0 < radix) {allow : Bool} {s r : List UInt8} {v : ℕ} :
    readNumber max radix none allow s = (some v, r) ↔
      ∃ t, s = t ++ r ∧ Numeral radix t v ∧
        (allow = false → t.head? = some 48 → t.length ≤ 1) ∧ v ≤ max ∧ NoDigit radix r := by
  obtain ⟨t, r', rfl, ht, hr'⟩ := split_digits radix s
  obtain ⟨hfit, hlong⟩ := readDigitsChecked_eq hd hradix max ht hr' (v := 0) (n := 0)
  rw [readNumber, readAtomically_some]
  dsimp only
  by_cases hl : valueFrom radix 0 t ≤ max
  · rw [hfit hl, finishNumber_numeral ht hr']
  · refine iff_of_false (finishNumber_none (hlong (by omega) (Nat.zero_le max))) ?_
    rintro ⟨t', he, hnum, -, hv, hr⟩
    obtain ⟨rfl, rfl⟩ := split_unique ht hnum.digits hr' hr he
    exact hl (le_trans (le_of_eq hnum.value_eq) hv)

end Numbers

section Ipv4

theorem noDigit_cons {radix : ℕ} {b : UInt8} {r : List UInt8} (h : digit radix b = none) :
    NoDigit radix (b :: r) := by
  intro x hx
  rw [← Option.some.inj hx, h]

theorem noDigit_nil (radix : ℕ) : NoDigit radix [] := by simp [NoDigit]

theorem readOctet_number {s r : List UInt8} {o : UInt8} :
    (∃ n, readNumber 255 10 (some 3) false s = (some n, r) ∧ UInt8.ofNat n = o) ↔
      ∃ t, s = t ++ r ∧ Octet t o ∧ NoDigit 10 r := by
  simp only [readNumber_some (fun b => (toDigit_eq b).1) (show 10^(3+1) ≤ 2^32 by norm_num)]
  constructor
  · rintro ⟨n, ⟨t, he, hl, hnum, hz, hv, hr⟩, rfl⟩
    have hn : (UInt8.ofNat n).toNat = n := by
      rw [UInt8.toNat_ofNat']
      omega
    refine ⟨t, he, ⟨by rw [hn]; exact hnum, hl, fun hh => ?_⟩, hr⟩
    have := hz trivial hh
    have := List.length_pos_iff.mpr hnum.ne_nil
    omega
  · rintro ⟨t, he, ⟨hnum, hl, hz⟩, hr⟩
    refine ⟨o.toNat, ⟨t, he, hl, hnum, fun _ hh => (hz hh).le, ?_, hr⟩, UInt8.ofNat_toNat⟩
    have := o.toNat_lt
    omega

theorem readOctet_zero {s r : List UInt8} {o : UInt8} :
    readOctet 0 s = (some o, r) ↔ ∃ t, s = t ++ r ∧ Octet t o ∧ NoDigit 10 r := by
  rw [← readOctet_number, readOctet, bind_some]
  simp only [readSeparator_zero, pure_some]
  constructor
  · rintro ⟨n, s', h, ho, rfl⟩
    exact ⟨n, h, ho⟩
  · rintro ⟨n, h, ho⟩
    exact ⟨n, r, h, ho, rfl⟩

theorem readOctet_pos {i : ℕ} (hi : 0 < i) {s r : List UInt8} {o : UInt8} :
    readOctet i s = (some o, r) ↔ ∃ t, s = 46 :: (t ++ r) ∧ Octet t o ∧ NoDigit 10 r := by
  rw [readOctet, bind_some]
  simp only [readSeparator_pos hi, pure_some]
  constructor
  · rintro ⟨n, r, ⟨s', rfl, h⟩, ho, rfl⟩
    obtain ⟨t, rfl, ht⟩ := readOctet_number.mp ⟨n, h, ho⟩
    exact ⟨t, rfl, ht⟩
  · rintro ⟨t, rfl, ht⟩
    obtain ⟨n, h, ho⟩ := readOctet_number.mpr ⟨t, rfl, ht⟩
    exact ⟨n, r, ⟨t ++ r, rfl, h⟩, ho, rfl⟩

theorem readIpv4Addr_some {s r : List UInt8} {ip : Ipv4Addr} :
    readIpv4Addr s = (some ip, r) ↔ ∃ t, s = t ++ r ∧ Dotted t ip ∧ NoDigit 10 r := by
  have hdot : ∀ r : List UInt8, NoDigit 10 (46 :: r) := fun r => noDigit_cons (by decide)
  rw [readIpv4Addr, readAtomically_some]
  simp only [bind_some, pure_some, readOctet_zero, readOctet_pos (show 0 < 1 by decide),
    readOctet_pos (show 0 < 2 by decide), readOctet_pos (show 0 < 3 by decide)]
  constructor
  · rintro ⟨a, _, ⟨ta, rfl, ha, -⟩, b, _, ⟨tb, rfl, hb, -⟩, c, _, ⟨tc, rfl, hc, -⟩, d, _,
      ⟨td, rfl, hd, hr⟩, rfl, rfl⟩
    exact ⟨_, by simp, ⟨ta, tb, tc, td, rfl, ha, hb, hc, hd⟩, hr⟩
  · rintro ⟨_, rfl, ⟨ta, tb, tc, td, rfl, ha, hb, hc, hd⟩, hr⟩
    refine ⟨ip.a, 46 :: (tb ++ 46 :: (tc ++ 46 :: (td ++ r))), ⟨ta, by simp, ha, hdot _⟩,
      ip.b, 46 :: (tc ++ 46 :: (td ++ r)), ⟨tb, rfl, hb, hdot _⟩,
      ip.c, 46 :: (td ++ r), ⟨tc, rfl, hc, hdot _⟩, ip.d, r, ⟨td, rfl, hd, hr⟩, rfl, rfl⟩

end Ipv4

end Parser

end RustStd.Net
