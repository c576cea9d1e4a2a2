import RustStd.Lib.Loop
import RustStd.Lib.Machine
import RustStd.Lib.Words

/-!
# `maximal_suffix` and `reverse_maximal_suffix`

The preprocessing of the two-way searcher. Both functions run over a needle
with checked indexing. The state keeps a candidate suffix, the length up to
which it is periodic, and a period word that is strictly greater than each of
its own proper suffixes.
-/

set_option autoImplicit false

namespace RustStd.MaximalSuffix
open RustStd.Loop RustStd.Words

structure Scan where
  left : ℕ
  right : ℕ
  offset : ℕ
  period : ℕ
  deriving DecidableEq, Repr

/-- The comparison that makes the suffix at `right` the smaller one. -/
def smaller (orderGreater : Bool) (a b : UInt8) : Bool :=
  (a < b && !orderGreater) || (a > b && orderGreater)

/-- One iteration on the letters `a` at `right+offset` and `b` at `left+offset`. -/
def Scan.advance (orderGreater : Bool) (a b : UInt8) (s : Scan) : Scan :=
  if smaller orderGreater a b then
    let right := s.right+(s.offset+1)
    { s with right := right, offset := 0, period := right-s.left }
  else if a = b then
    if s.offset+1 = s.period then { s with right := s.right+(s.offset+1), offset := 0 }
    else { s with offset := s.offset+1 }
  else ⟨s.right, s.right+1, 0, 1⟩

def start : Scan := ⟨0, 1, 0, 1⟩

def maximalSuffixBody (arr : List UInt8) (orderGreater : Bool) (s : Scan) :
    Option (Scan ⊕ (ℕ × ℕ)) :=
  match arr[s.right+s.offset]? with
  | none => some (.inr (s.left, s.period))
  | some a => do
    let b ← arr[s.left+s.offset]?
    return .inl (s.advance orderGreater a b)

def maximalSuffix (arr : List UInt8) (orderGreater : Bool) : Option (ℕ × ℕ) :=
  loop (maximalSuffixBody arr orderGreater) (2*arr.length+2) start

/-- The letters of a slice as a word; positions behind the end are not used. -/
def letter (arr : List UInt8) (i : ℕ) : UInt8 := arr.getD i 0

theorem getElem?_letter {arr : List UInt8} {i : ℕ} (h : i < arr.length) :
    arr[i]? = some (letter arr i) := by
  simp [letter, h]

theorem letter_mirror (arr : List UInt8) :
    Mirror (letter arr) (letter arr.reverse) arr.length := by
  intro i hi
  have h := List.getElem?_reverse hi
  rw [getElem?_letter (by simpa using hi), getElem?_letter (by lia)] at h
  exact Option.some.inj h

def order (orderGreater : Bool) (a b : UInt8) : Prop := smaller orderGreater a b = true

theorem order_irrefl (g : Bool) (a : UInt8) : ¬ order g a a := by
  cases g <;> simp [order, smaller]

theorem order_trans (g : Bool) (a b c : UInt8) (h : order g a b) (h' : order g b c) :
    order g a c := by
  cases g <;> simp [order, smaller] at * <;> grind

theorem order_flip (g : Bool) : (fun a b => order g b a) = order (!g) := by
  funext a b
  cases g <;> simp [order, smaller]

theorem order_of_not {g : Bool} {a b : UInt8} (h : ¬ order g a b) (hne : a ≠ b) :
    order g b a := by
  cases g <;> simp [order, smaller] at * <;> grind

/-- The state of the scan over the word `x`. The period word at `left` is
greater than its proper suffixes, with the deciding letter inside the word. -/
structure Inv (g : Bool) (x : ℕ → UInt8) (n : ℕ) (s : Scan) : Prop where
  pos : 0 < s.period
  le : s.left+s.period ≤ s.right
  dvd : s.period ∣ s.right-s.left
  offset_lt : s.offset < s.period
  bound : s.right+s.offset ≤ n
  periodic : PeriodFrom x s.left (s.right+s.offset) s.period
  before : ∀ t < s.left, Below (order g) x n t s.left
  word : ∀ r, 0 < r → r < s.period → ∃ d, r+d < s.period ∧
    order g (x (s.left+r+d)) (x (s.left+d)) ∧ ∀ e < d, x (s.left+r+e) = x (s.left+e)

theorem inv_start (g : Bool) (x : ℕ → UInt8) (n : ℕ) (hn : 0 < n) : Inv g x n start := by
  refine ⟨by decide, by decide, by decide, by decide, hn, ?_, by simp [start], ?_⟩
  · intro i _ hi
    simp [start] at hi
  · intro r h0 h1
    simp [start] at h1
    lia

section Step

variable {g : Bool} {x : ℕ → UInt8} {n : ℕ} {s : Scan}

theorem Inv.repeats (h : Inv g x n s) {e : ℕ} (he : e < s.offset) :
    x (s.right+e) = x (s.left+e) := by
  have hle := h.le
  refine (h.periodic.sub_dvd (by lia) (by lia) (by lia) ?_).symm
  rw [show s.right+e-(s.left+e) = s.right-s.left by lia]
  exact h.dvd

theorem Inv.measure_lt (h : Inv g x n s) (a b : UInt8) :
    s.left+s.right+s.offset < (s.advance g a b).left+(s.advance g a b).right+
      (s.advance g a b).offset := by
  have hle := h.le
  have ho := h.offset_lt
  unfold Scan.advance
  split_ifs <;> simp <;> lia

theorem Inv.same (h : Inv g x n s) {i j : ℕ} (hi : s.left ≤ i) (hij : i ≤ j)
    (hj : j < s.right+s.offset) (hd : s.period ∣ j-i) : x i = x j :=
  h.periodic.sub_dvd hi hij hj hd

theorem mod_offset {p u v r k : ℕ} (hu : p ∣ u) (hv : p ∣ v) (h : u+r = v+k)
    (hr : r < p) (hk : k < p) : r = k := by
  obtain ⟨c, rfl⟩ := hu
  obtain ⟨d, rfl⟩ := hv
  have := congrArg (· % p) h
  simpa [Nat.mul_add_mod, Nat.mod_eq_of_lt hr, Nat.mod_eq_of_lt hk] using this

/-- When the suffix at `right` turns out smaller, the whole part read so far is
the new period word. -/
theorem Inv.word_smaller (h : Inv g x n s)
    (hab : order g (x (s.right+s.offset)) (x (s.left+s.offset))) (r : ℕ) (hr : 0 < r)
    (hrl : s.left+r ≤ s.right+s.offset) : ∃ d, s.left+r+d ≤ s.right+s.offset ∧
      order g (x (s.left+r+d)) (x (s.left+d)) ∧ ∀ e < d, x (s.left+r+e) = x (s.left+e) := by
  have hle := h.le
  have hk := h.offset_lt
  have hmod := Nat.mod_lt r h.pos
  have hml := Nat.mod_le r s.period
  have hdr : s.period ∣ r-r%s.period := Nat.dvd_sub_mod r
  by_cases h0 : r%s.period = 0
  · have hpr : s.period ∣ r := Nat.dvd_of_mod_eq_zero h0
    have hrj : r ≤ s.right-s.left := by
      by_contra hlt
      have := Nat.le_of_dvd (by lia) (Nat.dvd_sub hpr h.dvd)
      lia
    refine ⟨s.right+s.offset-(s.left+r), by lia, ?_, ?_⟩
    · rw [show s.left+r+(s.right+s.offset-(s.left+r)) = s.right+s.offset by lia]
      have hb : x (s.left+s.offset) = x (s.left+(s.right+s.offset-(s.left+r))) := by
        refine h.same (by lia) (by lia) (by lia) ?_
        rw [show s.left+(s.right+s.offset-(s.left+r))-(s.left+s.offset) =
          s.right-s.left-r by lia]
        exact Nat.dvd_sub h.dvd hpr
      rwa [← hb]
    · intro e he
      refine (h.same (by lia) (by lia) (by lia) ?_).symm
      rwa [show s.left+r+e-(s.left+e) = r by lia]
  · obtain ⟨d, hd, hlt, heq⟩ := h.word _ (Nat.pos_of_ne_zero h0) hmod
    have hsame (e : ℕ) (he : s.left+r+e < s.right+s.offset) :
        x (s.left+r+e) = x (s.left+r%s.period+e) := by
      refine (h.same (by lia) (by lia) he ?_).symm
      rwa [show s.left+r+e-(s.left+r%s.period+e) = r-r%s.period by lia]
    by_cases hin : s.left+r+d < s.right+s.offset
    · refine ⟨d, hin.le, ?_, ?_⟩
      · rwa [hsame d hin]
      · intro e he
        rw [hsame e (by lia), heq e he]
    · -- the comparison reaches the new letter before the old difference
      obtain ⟨c, hc⟩ : ∃ c, s.left+r+c = s.right+s.offset := ⟨s.right+s.offset-(s.left+r), by lia⟩
      have hck : r%s.period+c = s.offset :=
        mod_offset hdr h.dvd (by lia) (by lia) hk
      refine ⟨c, by lia, ?_, ?_⟩
      · rw [show s.left+s.offset = s.left+r%s.period+c by lia] at hab
        rw [hc]
        rcases Nat.lt_or_ge c d with hcd | hcd
        · rwa [heq c hcd] at hab
        · obtain rfl : c = d := by lia
          exact order_trans g _ _ _ hab hlt
      · intro e he
        rw [hsame e (by lia), heq e (by lia)]

theorem Inv.smaller (h : Inv g x n s) (hn : s.right+s.offset < n)
    (hab : order g (x (s.right+s.offset)) (x (s.left+s.offset))) :
    Inv g x n ⟨s.left, s.right+(s.offset+1), 0, s.right+(s.offset+1)-s.left⟩ := by
  have hle := h.le
  refine ⟨?_, ?_, dvd_refl _, ?_, ?_, ?_, h.before, ?_⟩
  · simp only; lia
  · simp only; lia
  · simp only; lia
  · simp only; lia
  · intro i hi hi'
    simp only at hi hi'
    lia
  · intro r hr hrp
    simp only at hrp ⊢
    obtain ⟨d, hd, hlt, heq⟩ := h.word_smaller hab r hr (by lia)
    exact ⟨d, by lia, hlt, heq⟩

theorem Inv.periodic_succ (h : Inv g x n s)
    (hab : x (s.right+s.offset) = x (s.left+s.offset)) :
    PeriodFrom x s.left (s.right+s.offset+1) s.period := by
  have hle := h.le
  intro i hi hip
  by_cases hlt : i+s.period < s.right+s.offset
  · exact h.periodic i hi hlt
  · have he : i+s.period = s.right+s.offset := by lia
    rw [he, hab]
    refine (h.same (by lia) (by lia) (by have := h.pos; lia) ?_).symm
    rw [show i-(s.left+s.offset) = s.right-s.left-s.period by lia]
    exact Nat.dvd_sub h.dvd (dvd_refl _)

theorem Inv.equal (h : Inv g x n s) (hn : s.right+s.offset < n)
    (hab : x (s.right+s.offset) = x (s.left+s.offset)) :
    Inv g x n (if s.offset+1 = s.period then { s with right := s.right+(s.offset+1), offset := 0 }
      else { s with offset := s.offset+1 }) := by
  have hle := h.le
  have hk := h.offset_lt
  have hp := h.periodic_succ hab
  split_ifs with hw
  · refine ⟨h.pos, ?_, ?_, h.pos, ?_, hp, h.before, h.word⟩
    · simp only; lia
    · simp only
      rw [hw, show s.right+s.period-s.left = s.right-s.left+s.period by lia]
      exact Nat.dvd_add h.dvd (dvd_refl _)
    · simp only; lia
  · exact ⟨h.pos, hle, h.dvd, by simp only; lia, by simp only; lia, hp, h.before, h.word⟩

theorem Inv.before_greater (h : Inv g x n s) (hn : s.right+s.offset < n)
    (hba : order g (x (s.left+s.offset)) (x (s.right+s.offset))) (t : ℕ) (ht : t < s.right) :
    Below (order g) x n t s.right := by
  have hle := h.le
  have hk := h.offset_lt
  have hlr : Below (order g) x n s.left s.right :=
    ⟨s.offset, by lia, hn, hba, fun e he => (h.repeats he).symm⟩
  rcases Nat.lt_trichotomy t s.left with hlt | rfl | hgt
  · exact (h.before t hlt).trans (order_trans g) hlr
  · exact hlr
  obtain ⟨r, rfl⟩ : ∃ r, t = s.left+r := ⟨t-s.left, by lia⟩
  have hml := Nat.mod_le r s.period
  have hdr : s.period ∣ r-r%s.period := Nat.dvd_sub_mod r
  by_cases h0 : r%s.period = 0
  · have hsame (e : ℕ) (he : e ≤ s.offset) : x (s.left+r+e) = x (s.left+e) := by
      refine (h.same (by lia) (by lia) (by lia) ?_).symm
      rw [show s.left+r+e-(s.left+e) = r by lia]
      exact Nat.dvd_of_mod_eq_zero h0
    refine ⟨s.offset, by lia, hn, by rwa [hsame _ le_rfl], ?_⟩
    intro e he
    rw [hsame e he.le, h.repeats he]
  · obtain ⟨d, hd, hlt, heq⟩ := h.word _ (Nat.pos_of_ne_zero h0) (Nat.mod_lt r h.pos)
    have hin : s.left+r-r%s.period+s.period ≤ s.right := by
      have := Nat.le_of_dvd (by lia) (Nat.dvd_sub h.dvd hdr)
      lia
    have hsame (e : ℕ) (he : e ≤ d) : x (s.left+r+e) = x (s.left+r%s.period+e) := by
      refine (h.same (by lia) (by lia) (by lia) ?_).symm
      rwa [show s.left+r+e-(s.left+r%s.period+e) = r-r%s.period by lia]
    refine Below.trans (order_trans g) ⟨d, by lia, by lia, by rwa [hsame d le_rfl], ?_⟩ hlr
    intro e he
    rw [hsame e he.le, heq e he]

theorem Inv.greater (h : Inv g x n s) (hn : s.right+s.offset < n)
    (hba : order g (x (s.left+s.offset)) (x (s.right+s.offset))) :
    Inv g x n ⟨s.right, s.right+1, 0, 1⟩ := by
  refine ⟨Nat.one_pos, le_rfl, one_dvd _, Nat.one_pos, by simp only; lia, ?_,
    h.before_greater hn hba, ?_⟩
  · intro i hi hi'
    simp only at hi hi'
    lia
  · intro r hr hr'
    simp only at hr'
    lia

theorem Inv.advance (h : Inv g x n s) (hn : s.right+s.offset < n) :
    Inv g x n (s.advance g (x (s.right+s.offset)) (x (s.left+s.offset))) := by
  unfold Scan.advance
  split_ifs with hs he hw
  · exact h.smaller hn hs
  · have := h.equal hn he
    rwa [if_pos hw] at this
  · have := h.equal hn he
    rwa [if_neg hw] at this
  · exact h.greater hn (order_of_not hs he)

theorem Inv.maxSuffix (h : Inv g x n s) (hn : s.right+s.offset = n) :
    MaxSuffix (order g) x n s.left := by
  have hle := h.le
  refine ⟨h.before, fun t ht htn => ?_⟩
  obtain ⟨r, rfl⟩ : ∃ r, t = s.left+r := ⟨t-s.left, by lia⟩
  have hml := Nat.mod_le r s.period
  have hdr : s.period ∣ r-r%s.period := Nat.dvd_sub_mod r
  have hsame (e : ℕ) (he : s.left+r+e < n) : x (s.left+r+e) = x (s.left+r%s.period+e) := by
    refine (h.same (by lia) (by lia) (by lia) ?_).symm
    rwa [show s.left+r+e-(s.left+r%s.period+e) = r-r%s.period by lia]
  by_cases h0 : r%s.period = 0
  · right
    intro e he
    rw [hsame e he, h0, Nat.add_zero]
  · obtain ⟨d, hd, hlt, heq⟩ := h.word _ (Nat.pos_of_ne_zero h0) (Nat.mod_lt r h.pos)
    by_cases hin : s.left+r+d < n
    · left
      refine ⟨d, hin, by lia, by rwa [hsame d hin], ?_⟩
      intro e he
      rw [hsame e (by lia), heq e he]
    · right
      intro e he
      rw [hsame e he, heq e (by lia)]

theorem Inv.period_le (h : Inv g x n s) (p : ℕ) (hp : 0 < p) (hper : PeriodFrom x s.left n p) :
    s.period ≤ p := by
  by_contra hlt
  have hle := h.le
  have hb := h.bound
  obtain ⟨d, hd, ho, -⟩ := h.word p hp (by lia)
  rw [hper (s.left+d) (by lia) (by lia), show s.left+d+p = s.left+p+d by lia] at ho
  exact order_irrefl g _ ho

theorem Inv.minPeriod (h : Inv g x n s) (hn : s.right+s.offset = n) :
    MinPeriodFrom x s.left n s.period := by
  have hle := h.le
  exact ⟨h.pos, by lia, by rw [← hn]; exact h.periodic, h.period_le⟩

end Step

/-- The result of the scan: a maximal suffix and its smallest period. -/
def Found (g : Bool) (x : ℕ → UInt8) (n : ℕ) (r : ℕ × ℕ) : Prop :=
  MaxSuffix (order g) x n r.1 ∧ MinPeriodFrom x r.1 n r.2

theorem maximalSuffix_spec (arr : List UInt8) (g : Bool) (hne : 0 < arr.length) :
    ∃ r, maximalSuffix arr g = some r ∧ Found g (letter arr) arr.length r := by
  apply loop_total (Inv g (letter arr) arr.length)
    (fun s => 2*arr.length-(s.left+s.right+s.offset)) _ ?_ _ _ (inv_start g _ _ hne)
    (by simp [start]; lia)
  intro s h
  have hle := h.le
  have hpos := h.pos
  unfold maximalSuffixBody
  rcases Nat.lt_or_ge (s.right+s.offset) arr.length with hn | hn
  · rw [getElem?_letter hn, getElem?_letter (show s.left+s.offset < arr.length by lia)]
    refine ⟨_, rfl, h.advance hn, ?_⟩
    have := h.measure_lt (letter arr (s.right+s.offset)) (letter arr (s.left+s.offset))
    simp only
    lia
  · have heq : s.right+s.offset = arr.length := by have := h.bound; lia
    rw [List.getElem?_eq_none hn]
    exact ⟨_, rfl, h.maxSuffix heq, h.minPeriod heq⟩

def reverseMaximalSuffixBody (arr : List UInt8) (knownPeriod : ℕ) (orderGreater : Bool)
    (s : Scan) : Option (Scan ⊕ Scan) :=
  if s.right+s.offset < arr.length then do
    let a ← arr[arr.length-(1+s.right+s.offset)]?
    let b ← arr[arr.length-(1+s.left+s.offset)]?
    let s := s.advance orderGreater a b
    if s.period = knownPeriod then return .inr s
    return .inl s
  else some (.inr s)

/-- The final check is the debug assertion; it fails the run. -/
def reverseMaximalSuffix (arr : List UInt8) (knownPeriod : ℕ) (orderGreater : Bool) :
    Option ℕ := do
  let s ← loop (reverseMaximalSuffixBody arr knownPeriod orderGreater) (2*arr.length+2) start
  if s.period ≤ knownPeriod then return s.left
  none

theorem getElem?_reverse_letter {arr : List UInt8} {i : ℕ} (h : i < arr.length) :
    arr[arr.length-(1+i)]? = some (letter arr.reverse i) := by
  rw [← getElem?_letter (by simpa using h), List.getElem?_reverse h,
    show arr.length-1-i = arr.length-(1+i) by lia]

theorem Inv.maxSuffix_of_period {g : Bool} {x : ℕ → UInt8} {n : ℕ} {s : Scan}
    (h : Inv g x n s) (hp : PeriodFrom x 0 n s.period) : MaxSuffix (order g) x n s.left := by
  have hle := h.le
  have hb := h.bound
  have hdm := Nat.div_add_mod (n-s.left) s.period
  have hmod := Nat.mod_lt (n-s.left) h.pos
  have hone : 1 ≤ (n-s.left)/s.period := (Nat.one_le_div_iff h.pos).mpr (by lia)
  have hmul : s.period*1 ≤ s.period*((n-s.left)/s.period) := Nat.mul_le_mul_left _ hone
  have hext : Inv g x n ⟨s.left, s.left+s.period*((n-s.left)/s.period),
      (n-s.left)%s.period, s.period⟩ := by
    refine ⟨h.pos, ?_, ?_, hmod, ?_, ?_, h.before, h.word⟩
    · simp only; lia
    · simp
    · simp only; lia
    · simp only
      rw [show s.left+s.period*((n-s.left)/s.period)+(n-s.left)%s.period = n by lia]
      exact hp.mono (Nat.zero_le _)
  exact hext.maxSuffix (by simp only; lia)

theorem reverseMaximalSuffix_spec (arr : List UInt8) (p : ℕ) (g : Bool) (hne : 0 < arr.length)
    (hp : 0 < p) (hper : PeriodFrom (letter arr.reverse) 0 arr.length p) :
    ∃ l, reverseMaximalSuffix arr p g = some l ∧
      MaxSuffix (order g) (letter arr.reverse) arr.length l := by
  obtain ⟨s, hs, hle, hmax⟩ : ∃ s, loop (reverseMaximalSuffixBody arr p g) (2*arr.length+2) start =
      some s ∧ s.period ≤ p ∧ MaxSuffix (order g) (letter arr.reverse) arr.length s.left := by
    apply loop_total (Inv g (letter arr.reverse) arr.length)
      (fun s => 2*arr.length-(s.left+s.right+s.offset)) _ ?_ _ _ (inv_start g _ _ hne)
      (by simp [start]; lia)
    intro s h
    have hle := h.le
    have hpos := h.pos
    unfold reverseMaximalSuffixBody
    split_ifs with hn
    · have ha := getElem?_reverse_letter hn
      have hb := getElem?_reverse_letter (show s.left+s.offset < arr.length by lia)
      rw [← Nat.add_assoc] at ha hb
      have hadv := h.advance hn
      have hlt := h.measure_lt (letter arr.reverse (s.right+s.offset))
        (letter arr.reverse (s.left+s.offset))
      simp only [ha, hb, some_bind]
      split_ifs with hk
      · refine ⟨_, rfl, hk.le, hadv.maxSuffix_of_period ?_⟩
        rwa [hk]
      · refine ⟨_, rfl, hadv, ?_⟩
        simp only
        lia
    · have heq : s.right+s.offset = arr.length := by have := h.bound; lia
      exact ⟨_, rfl, h.period_le p hp (hper.mono (Nat.zero_le _)), h.maxSuffix heq⟩
  exact ⟨s.left, by simp [reverseMaximalSuffix, hs, hle], hmax⟩

theorem critical_max {g : Bool} {x : ℕ → UInt8} {n l j : ℕ} (h : MaxSuffix (order g) x n l)
    (h' : MaxSuffix (order (!g)) x n j) (hj : j ≤ l) :
    Critical x n l ∧ ∀ s, 0 < s → LocalPeriod x n l s → l < s := by
  rw [← order_flip] at h'
  exact ⟨critical_of_maxSuffix (order_irrefl g) (order_trans g) h h' hj,
    fun _ => h.lt_localPeriod (order_irrefl g) (order_trans g)⟩

end RustStd.MaximalSuffix
