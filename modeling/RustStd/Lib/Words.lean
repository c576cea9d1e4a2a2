import Mathlib

/-!
# Periods, maximal suffixes and critical positions of a word

A word is a function on positions together with its length. A position is
critical when every local period there is a period of the whole word. The
later one of the maximal suffixes for an order and for its opposite starts at
such a position, and this alone justifies the shifts of a two-way search.
-/

set_option autoImplicit false

namespace RustStd.Words

variable {α : Type*}

/-- `p` is a period of the part of the word that starts at `a`. -/
def PeriodFrom (x : ℕ → α) (a n p : ℕ) : Prop := ∀ i, a ≤ i → i+p < n → x i = x (i+p)

/-- A square of root length `s` is centred at `l`, as far as the word extends. -/
def LocalPeriod (x : ℕ → α) (n l s : ℕ) : Prop := ∀ i, i < l → l ≤ i+s → i+s < n → x i = x (i+s)

/-- The suffix at `t` is smaller than the one at `i` because of a letter in which
they differ, and not because it is a prefix of it. -/
def Below (lt : α → α → Prop) (x : ℕ → α) (n t i : ℕ) : Prop :=
  ∃ d, t+d < n ∧ i+d < n ∧ lt (x (t+d)) (x (i+d)) ∧ ∀ e < d, x (t+e) = x (i+e)

def MaxSuffix (lt : α → α → Prop) (x : ℕ → α) (n i : ℕ) : Prop :=
  (∀ t < i, Below lt x n t i) ∧
  ∀ t, i < t → t < n → Below lt x n t i ∨ ∀ e, t+e < n → x (t+e) = x (i+e)

structure MinPeriodFrom (x : ℕ → α) (a n q : ℕ) : Prop where
  pos : 0 < q
  le : a+q ≤ n
  period : PeriodFrom x a n q
  min : ∀ p, 0 < p → PeriodFrom x a n p → q ≤ p

def Critical (x : ℕ → α) (n l : ℕ) : Prop :=
  ∀ s, 0 < s → LocalPeriod x n l s → PeriodFrom x 0 n s

theorem PeriodFrom.mono {x : ℕ → α} {a b n p : ℕ} (h : PeriodFrom x a n p) (hab : a ≤ b) :
    PeriodFrom x b n p :=
  fun i hi hn => h i (hab.trans hi) hn

theorem PeriodFrom.mul {x : ℕ → α} {a n p : ℕ} (h : PeriodFrom x a n p) (c i : ℕ)
    (hi : a ≤ i) (hn : i+c*p < n) : x i = x (i+c*p) := by
  induction c with
  | zero => simp
  | succ c ih =>
    rw [Nat.succ_mul] at hn ⊢
    rw [ih (by lia), h (i+c*p) (by lia) (by lia), Nat.add_assoc]

theorem PeriodFrom.sub_dvd {x : ℕ → α} {a n p : ℕ} (h : PeriodFrom x a n p) {i j : ℕ}
    (hi : a ≤ i) (hij : i ≤ j) (hn : j < n) (hd : p ∣ j-i) : x i = x j := by
  obtain ⟨c, hc⟩ := hd
  rw [Nat.mul_comm] at hc
  have he : i+c*p = j := by lia
  rw [h.mul c i hi (by lia), he]

theorem Below.asymm {lt : α → α → Prop} (hirr : ∀ a, ¬ lt a a)
    (htr : ∀ a b c, lt a b → lt b c → lt a c) {x : ℕ → α} {n t i : ℕ} (h : Below lt x n t i) :
    ¬ Below lt x n i t := by
  rintro ⟨d', -, -, hd', he'⟩
  obtain ⟨d, -, -, hd, he⟩ := h
  rcases Nat.lt_trichotomy d d' with hlt | rfl | hlt
  · rw [he' d hlt] at hd
    exact hirr _ hd
  · exact hirr _ (htr _ _ _ hd hd')
  · rw [he d' hlt] at hd'
    exact hirr _ hd'

theorem Below.trans {lt : α → α → Prop} (htr : ∀ a b c, lt a b → lt b c → lt a c)
    {x : ℕ → α} {n t i j : ℕ} (h : Below lt x n t i) (h' : Below lt x n i j) :
    Below lt x n t j := by
  obtain ⟨d, ht, hi, hd, he⟩ := h
  obtain ⟨d', hi', hj', hd', he'⟩ := h'
  rcases Nat.lt_trichotomy d d' with hlt | rfl | hlt
  · refine ⟨d, ht, by lia, ?_, fun e hed => (he e hed).trans (he' e (by lia))⟩
    rwa [he' d hlt] at hd
  · exact ⟨d, ht, hj', htr _ _ _ hd hd', fun e hed => (he e hed).trans (he' e hed)⟩
  · refine ⟨d', by lia, hj', ?_, fun e hed => (he e (by lia)).trans (he' e hed)⟩
    rwa [← he d' hlt] at hd'

/-- No square centred at a maximal suffix has its left half inside the word. -/
theorem MaxSuffix.lt_localPeriod {lt : α → α → Prop} (hirr : ∀ a, ¬ lt a a)
    (htr : ∀ a b c, lt a b → lt b c → lt a c) {x : ℕ → α} {n l s : ℕ}
    (h : MaxSuffix lt x n l) (hs : 0 < s) (hl : LocalPeriod x n l s) : l < s := by
  by_contra hle
  obtain ⟨d, ht, hi, hd, he⟩ := h.1 (l-s) (by lia)
  have hds : s ≤ d := by
    by_contra hlt
    have := hl (l-s+d) (by lia) (by lia) (by lia)
    rw [show l-s+d+s = l+d by lia] at this
    rw [this] at hd
    exact hirr _ hd
  have hb : Below lt x n l (l+s) := by
    refine ⟨d-s, by lia, by lia, ?_, ?_⟩
    · rwa [show l+(d-s) = l-s+d by lia, show l+s+(d-s) = l+d by lia]
    · intro e hed
      have := he (s+e) (by lia)
      rwa [show l-s+(s+e) = l+e by lia, show l+(s+e) = l+s+e by lia] at this
  rcases h.2 (l+s) (by lia) (by lia) with hb' | hp
  · exact hb.asymm hirr htr hb'
  · have := hp (d-s) (by lia)
    rw [show l+s+(d-s) = l+d by lia, show l+(d-s) = l-s+d by lia] at this
    rw [this] at hd
    exact hirr _ hd

/-- Of the maximal suffixes for an order and for its opposite, the shorter one
starts at a critical position. -/
theorem critical_of_maxSuffix {lt : α → α → Prop} (hirr : ∀ a, ¬ lt a a)
    (htr : ∀ a b c, lt a b → lt b c → lt a c) {x : ℕ → α} {n l j : ℕ}
    (h : MaxSuffix lt x n l) (h' : MaxSuffix (fun a b => lt b a) x n j) (hj : j ≤ l) :
    Critical x n l := by
  intro s hs hl i _ hn
  have hls := h.lt_localPeriod hirr htr hs hl
  by_cases hil : i < l
  · exact hl i hil (by lia) hn
  obtain ⟨e, rfl⟩ : ∃ e, i = l+e := ⟨i-l, by lia⟩
  rcases h.2 (l+s) (by lia) (by lia) with ⟨d, ht, hi, hd, he⟩ | hp
  · exfalso
    -- the same first difference, seen from the suffix at `j`
    have heq : ∀ e < (l-j)+d, x (j+s+e) = x (j+e) := by
      intro e hed
      by_cases hc : e < l-j
      · have := hl (j+e) (by lia) (by lia) (by lia)
        rw [this, show j+e+s = j+s+e by lia]
      · have := he (e-(l-j)) (by lia)
        rwa [show l+s+(e-(l-j)) = j+s+e by lia, show l+(e-(l-j)) = j+e by lia] at this
    have hne : lt (x (j+s+((l-j)+d))) (x (j+((l-j)+d))) := by
      rwa [show j+s+((l-j)+d) = l+s+d by lia, show j+((l-j)+d) = l+d by lia]
    rcases h'.2 (j+s) (by lia) (by lia) with ⟨d', -, -, hd', he'⟩ | hp
    · rcases Nat.lt_trichotomy d' ((l-j)+d) with hlt | rfl | hlt
      · rw [heq d' hlt] at hd'
        exact hirr _ hd'
      · exact hirr _ (htr _ _ _ hne hd')
      · rw [he' _ hlt] at hne
        exact hirr _ hne
    · rw [hp ((l-j)+d) (by lia)] at hne
      exact hirr _ hne
  · rw [show l+e+s = l+s+e by lia]
    exact (hp e (by lia)).symm

section Factorization

variable {x : ℕ → α} {n l q : ℕ} (hc : Critical x n l)
  (hlt : ∀ s, 0 < s → LocalPeriod x n l s → l < s) (hq : MinPeriodFrom x l n q)
include hc hlt hq

theorem short_period (h : ∀ i < l, x i = x (i+q)) :
    l < q ∧ PeriodFrom x 0 n q ∧ ∀ s, 0 < s → LocalPeriod x n l s → q ≤ s := by
  have hloc : LocalPeriod x n l q := fun i hi _ _ => h i hi
  exact ⟨hlt q hq.pos hloc, hc q hq.pos hloc,
    fun s hs hl => hq.min s hs ((hc s hs hl).mono (Nat.zero_le _))⟩

theorem long_period (h : ∃ i < l, x i ≠ x (i+q)) (s : ℕ) (hs : 0 < s)
    (hl : LocalPeriod x n l s) : max l (n-l) < s := by
  have hls := hlt s hs hl
  by_contra hle
  have hsn : l+s ≤ n := by lia
  have hper := hc s hs hl
  have hmod : s % q = 0 := by
    by_contra hne
    have hq0 := hq.pos
    have hr : s%q < q := Nat.mod_lt _ hq0
    have hloc : LocalPeriod x n l (s%q) := by
      intro i hi hi' hn
      have h1 := Nat.mod_le s q
      rw [hper i (by lia) (by lia)]
      refine (hq.period.sub_dvd hi' (by lia) (by lia) ?_).symm
      rw [show i+s-(i+s%q) = s-s%q by lia]
      exact Nat.dvd_sub_mod s
    have := hq.min _ (Nat.pos_of_ne_zero hne)
      ((hc _ (Nat.pos_of_ne_zero hne) hloc).mono (Nat.zero_le _))
    lia
  have hqs : q ≤ s := Nat.le_of_dvd hs (Nat.dvd_of_mod_eq_zero hmod)
  have heq : ∀ i < l, l ≤ i+q → x i = x (i+q) := by
    intro i hi hi'
    rw [hper i (by lia) (by lia)]
    refine (hq.period.sub_dvd hi' (by lia) (by lia) ?_).symm
    rw [show i+s-(i+q) = s-q by lia]
    exact Nat.dvd_sub (Nat.dvd_of_mod_eq_zero hmod) (dvd_refl q)
  have hlq := hlt q hq.pos fun i hi hi' _ => heq i hi hi'
  obtain ⟨i, hi, hne⟩ := h
  exact hne (heq i hi (by lia))

end Factorization

def Occurs (x : ℕ → α) (n : ℕ) (h : ℕ → α) (pos : ℕ) : Prop := ∀ i < n, h (pos+i) = x i

theorem Occurs.localPeriod {x h : ℕ → α} {n l pos m s : ℕ} (hm : m ≤ n)
    (hr : ∀ j, l ≤ j → j < m → h (pos+j) = x j) (ho : Occurs x n h (pos+s)) :
    LocalPeriod x m l s := by
  intro i hi hi' hn
  rw [← hr (i+s) hi' hn, ← ho i (by lia), show pos+s+i = pos+(i+s) by lia]

theorem Critical.no_occurrence_right {x h : ℕ → α} {n l pos i s : ℕ} (hc : Critical x n l)
    (hli : l ≤ i) (hin : i < n) (hr : ∀ j, l ≤ j → j < i → h (pos+j) = x j)
    (hne : h (pos+i) ≠ x i) (hs : s ≤ i-l) : ¬ Occurs x n h (pos+s) := by
  intro ho
  have hx : h (pos+i) = x (i-s) := by
    rw [← ho (i-s) (by lia), show pos+s+(i-s) = pos+i by lia]
  rcases Nat.eq_zero_or_pos s with rfl | hpos
  · exact hne hx
  · have hloc : LocalPeriod x n l s := by
      intro j hj hj' _
      exact ho.localPeriod hin.le hr j hj hj' (by lia)
    have := hc s hpos hloc (i-s) (Nat.zero_le _) (by lia)
    rw [show i-s+s = i by lia] at this
    exact hne (hx.trans this)

theorem no_occurrence_left {x h : ℕ → α} {n l pos p s : ℕ}
    (hp : ∀ s, 0 < s → LocalPeriod x n l s → p ≤ s)
    (hr : ∀ j, l ≤ j → j < n → h (pos+j) = x j) (hne : ¬ Occurs x n h pos) (hs : s < p) :
    ¬ Occurs x n h (pos+s) := by
  rcases Nat.eq_zero_or_pos s with rfl | hpos
  · exact hne
  · intro ho
    have := hp s hpos (ho.localPeriod le_rfl hr)
    lia

/-- What a search needs to know about the word `x`: where to cut it, how far to
shift when the left part fails, and, if `memory` is used, that this shift is a
period that reaches over the left part. -/
structure Factored (x : ℕ → α) (n l p : ℕ) (memory : Bool) : Prop where
  cut_le : l ≤ n
  critical : Critical x n l
  pos : 0 < p
  le : p ≤ n
  shift : ∀ s, 0 < s → LocalPeriod x n l s → p ≤ s
  period : memory = true → PeriodFrom x 0 n p ∧ l ≤ p

/-- The cursor may move from `pos` by `k`, and `m` letters match there already. -/
structure Skip (x : ℕ → α) (n : ℕ) (h : ℕ → α) (pos k m : ℕ) : Prop where
  shift_pos : 0 < k
  shift_le : k ≤ n
  none : ∀ s < k, ¬ Occurs x n h (pos+s)
  memory_lt : m < n
  memory : ∀ i < m, h (pos+k+i) = x i

section Skip

variable {x h : ℕ → α} {n l p pos : ℕ} {memory : Bool} (hf : Factored x n l p memory)
include hf

theorem Factored.skip_letter (ht : ∀ i < n, h (pos+(n-1)) ≠ x i) : Skip x n h pos n 0 := by
  have hn : 0 < n := hf.pos.trans_le hf.le
  refine ⟨hn, le_rfl, fun s hs ho => ?_, hn, by simp⟩
  apply ht (n-1-s) (by lia)
  rw [← ho (n-1-s) (by lia), show pos+s+(n-1-s) = pos+(n-1) by lia]

theorem Factored.skip_right {i : ℕ} (hli : l ≤ i) (hin : i < n)
    (hr : ∀ j, l ≤ j → j < i → h (pos+j) = x j) (hne : h (pos+i) ≠ x i) :
    Skip x n h pos (i-l+1) 0 :=
  ⟨by lia, by lia, fun s hs => hf.critical.no_occurrence_right hli hin hr hne (by lia),
    hf.pos.trans_le hf.le, by simp⟩

theorem Factored.skip_left (hr : ∀ j, l ≤ j → j < n → h (pos+j) = x j)
    (hne : ¬ Occurs x n h pos) : Skip x n h pos p (if memory then n-p else 0) := by
  have hp := hf.pos
  have hle := hf.le
  refine ⟨hp, hle, fun s hs => no_occurrence_left hf.shift hr hne hs, ?_, ?_⟩
  · split_ifs <;> lia
  · intro i hi
    split_ifs at hi with hm
    · obtain ⟨hper, hlp⟩ := hf.period hm
      rw [hper i (by lia) (by lia), Nat.add_assoc, Nat.add_comm p i]
      exact hr (i+p) (by lia) (by lia)
    · lia

end Skip

/-- `y` is the reversal of the word `x` of length `n`. -/
def Mirror (x y : ℕ → α) (n : ℕ) : Prop := ∀ i < n, y i = x (n-1-i)

section Mirror

variable {x y : ℕ → α} {n : ℕ} (hm : Mirror x y n)
include hm

theorem Mirror.symm : Mirror y x n := by
  intro i hi
  rw [hm (n-1-i) (by lia), show n-1-(n-1-i) = i by lia]

theorem Mirror.period {p : ℕ} (h : PeriodFrom x 0 n p) : PeriodFrom y 0 n p := by
  intro i _ hn
  rw [hm i (by lia), hm (i+p) hn, h (n-1-(i+p)) (by lia) (by lia),
    show n-1-(i+p)+p = n-1-i by lia]

theorem Mirror.localPeriod {l s : ℕ} (hl : l ≤ n) (h : LocalPeriod y n (n-l) s) :
    LocalPeriod x n l s := by
  intro i hi hi' hn
  have := h (n-1-(i+s)) (by lia) (by lia) (by lia)
  rw [hm _ (by lia), hm _ (by lia), show n-1-(n-1-(i+s)) = i+s by lia,
    show n-1-(n-1-(i+s)+s) = i by lia] at this
  exact this.symm

theorem Mirror.factored {l p : ℕ} (h : Factored x n l p false) :
    Factored y n (n-l) p false := by
  refine ⟨by lia, ?_, h.pos, h.le, ?_, by simp⟩
  · intro s hs hl
    exact hm.period (h.critical s hs (hm.localPeriod h.cut_le hl))
  · intro s hs hl
    exact h.shift s hs (hm.localPeriod h.cut_le hl)

theorem Mirror.occurs {g h : ℕ → α} {len pos : ℕ} (hg : Mirror g h len) (hp : pos+n ≤ len) :
    Occurs y n h pos ↔ Occurs x n g (len-(pos+n)) := by
  constructor
  · intro ho i hi
    have := ho (n-1-i) (by lia)
    rw [hg _ (by lia), hm _ (by lia), show n-1-(n-1-i) = i by lia,
      show len-1-(pos+(n-1-i)) = len-(pos+n)+i by lia] at this
    exact this
  · intro ho i hi
    rw [hg _ (by lia), hm _ (by lia), ← ho (n-1-i) (by lia),
      show len-1-(pos+i) = len-(pos+n)+(n-1-i) by lia]

end Mirror

theorem MaxSuffix.lt_length {lt : α → α → Prop} {x : ℕ → α} {n l : ℕ} (h : MaxSuffix lt x n l)
    (hn : 0 < n) : l < n := by
  rcases Nat.eq_zero_or_pos l with rfl | hpos
  · exact hn
  · obtain ⟨d, -, hd, -⟩ := h.1 0 hpos
    lia

end RustStd.Words
