import RustStd.Iter.RangeInclusive
import RustStd.Iter.StepLaws

/-!
# `RangeInclusive` as a list

The elements that are left are numbered one after another. Every call keeps this, and it only steps where
another element follows.
-/

set_option autoImplicit false

namespace RustStd.Ranges
open RustStd.ListCalls

variable {A β γ : Type} {step : Step A} {rank : A → ℕ} {trusted : Bool}

namespace Step.Lawful

variable (h : step.Lawful rank) {a b : A} {n : ℕ}
include h

theorem key_le : step.key a ≤ step.key b ↔ rank a ≤ rank b := by
  rw [← not_lt, h.key_lt, not_lt]

theorem compare_lt : compare (step.key a) (step.key b) = .lt ↔ rank a < rank b := by
  rw [compare_lt_iff_lt, h.key_lt]

theorem compare_gt : compare (step.key a) (step.key b) = .gt ↔ rank b < rank a := by
  rw [compare_gt_iff_gt, h.key_lt]

theorem compare_eq : compare (step.key a) (step.key b) = .eq ↔ rank a = rank b := by
  rw [compare_eq_iff_eq, le_antisymm_iff, h.key_le, h.key_le, ← le_antisymm_iff]

theorem succ_eq [DecidableEq A] (hb : rank b = rank a+1) :
    RangeInclusive.succ step trusted a = some b := by
  rw [RangeInclusive.succ]
  split_ifs
  · exact h.forwardUnchecked a b 1 (by norm_num) hb
  · obtain ⟨r, hr, hiff⟩ := h.forwardChecked a 1 (by norm_num)
    rw [hr, (hiff b).mpr hb]
    rfl

theorem pred_eq [DecidableEq A] (hb : rank a = rank b+1) :
    RangeInclusive.pred step trusted a = some b := by
  rw [RangeInclusive.pred]
  split_ifs
  · exact h.backwardUnchecked a b 1 (by norm_num) hb
  · obtain ⟨r, hr, hiff⟩ := h.backwardChecked a 1 (by norm_num)
    rw [hr, (hiff b).mpr hb]
    rfl

end Step.Lawful

/-- The values from `a` to `b` in their order. -/
structure Between (step : Step A) (a b : A) (l : List A) : Prop where
  increasing : l.Pairwise fun x y => step.key x < step.key y
  mem : ∀ x, x ∈ l ↔ step.key a ≤ step.key x ∧ step.key x ≤ step.key b

/-- What is left of a range: the numbers of its elements. -/
def Rest (rank : A → ℕ) (r : RangeInclusive A) (l : List A) : Prop :=
  l.map rank = if r.exhausted then [] else List.range' (rank r.start) (rank r.last+1-rank r.start)

/-- There is an element left. -/
def Live (rank : A → ℕ) (r : RangeInclusive A) : Prop :=
  r.exhausted = false ∧ rank r.start ≤ rank r.last

section Lists

variable (h : step.Lawful rank) {r : RangeInclusive A} {l : List A}

theorem Rest.of_exhausted {s e : A} : Rest rank ⟨s, e, true⟩ [] := rfl

theorem Rest.eq_nil (hl : Rest rank r l) (hr : ¬ Live rank r) : l = [] := by
  rw [Rest] at hl
  split_ifs at hl with hx
  · exact List.map_eq_nil_iff.mp hl
  · have hlt : ¬ rank r.start ≤ rank r.last := fun hle => hr ⟨Bool.not_eq_true _ ▸ hx, hle⟩
    rw [Nat.sub_eq_zero_of_le (Nat.lt_of_not_le hlt), List.range'_zero] at hl
    exact List.map_eq_nil_iff.mp hl

theorem Rest.map_rank (hl : Rest rank r l) (hr : Live rank r) :
    l.map rank = List.range' (rank r.start) (rank r.last+1-rank r.start) := by
  rw [Rest, hr.1] at hl
  exact hl

theorem Rest.length (hl : Rest rank r l) (hr : Live rank r) :
    l.length = rank r.last+1-rank r.start := by
  rw [← List.length_map rank, hl.map_rank hr, List.length_range']

theorem Rest.drop (hl : Rest rank r l) (hr : Live rank r) {n : ℕ} {a : A}
    (ha : rank a = rank r.start+n) : Rest rank { r with start := a } (l.drop n) := by
  rw [Rest, hr.1, List.map_drop, hl.map_rank hr, List.drop_range', Nat.mul_one]
  show List.range' (rank r.start+n) (rank r.last+1-rank r.start-n) =
    List.range' (rank a) (rank r.last+1-rank a)
  rw [ha, Nat.sub_sub]

theorem Rest.take (hl : Rest rank r l) (hr : Live rank r) {n : ℕ} {a : A}
    (ha : rank r.last = rank a+n) : Rest rank { r with last := a } (l.take (l.length-n)) := by
  have hlength := hl.length hr
  rw [Rest, hr.1, List.map_take, hl.map_rank hr, hlength,
    List.take_range'_of_length_ge (Nat.sub_le _ _)]
  show List.range' (rank r.start) (rank r.last+1-rank r.start-n) =
    List.range' (rank r.start) (rank a+1-rank r.start)
  congr 1
  omega

include h

theorem isEmpty_iff [DecidableEq A] : r.isEmpty step = true ↔ ¬ Live rank r := by
  rw [RangeInclusive.isEmpty, Live, ← h.key_le]
  cases r.exhausted with
  | false => simp
  | true => simp

theorem Rest.getElem? (hl : Rest rank r l) (hr : Live rank r) {n : ℕ} {a : A}
    (ha : rank a = rank r.start+n) (hle : rank a ≤ rank r.last) : l[n]? = some a := by
  have hmap := congrArg (fun m => m[n]?) (hl.map_rank hr)
  rw [List.getElem?_map, List.getElem?_range' (by omega), Nat.one_mul, ← ha] at hmap
  obtain ⟨b, hb, hrank⟩ := Option.map_eq_some_iff.mp hmap
  rw [hb, h.injective hrank]

theorem Rest.front (hl : Rest rank r l) (hr : r.exhausted = false)
    (hlt : rank r.start < rank r.last) : ∃ n m, rank n = rank r.start+1 ∧ l = r.start :: m ∧
      Rest rank { r with start := n } m ∧ Live rank { r with start := n } := by
  obtain ⟨n, hn⟩ := h.dense r.last (rank r.start+1) hlt
  have hlive : Live rank r := ⟨hr, hlt.le⟩
  have hhead := hl.getElem? h hlive (n := 0) (a := r.start) rfl hlt.le
  refine ⟨n, l.tail, hn, ?_, ?_, hr, ?_⟩
  · rw [← List.head?_eq_getElem?] at hhead
    exact (List.cons_head?_tail hhead).symm
  · rw [← List.drop_one]
    exact hl.drop hlive hn
  · show rank n ≤ rank r.last
    omega

theorem Rest.back (hl : Rest rank r l) (hr : r.exhausted = false)
    (hlt : rank r.start < rank r.last) : ∃ n m, rank r.last = rank n+1 ∧ l = m ++ [r.last] ∧
      Rest rank { r with last := n } m ∧ Live rank { r with last := n } := by
  obtain ⟨n, hn⟩ := h.dense r.last (rank r.last-1) (Nat.sub_le _ _)
  have hlive : Live rank r := ⟨hr, hlt.le⟩
  have hlength := hl.length hlive
  have hlast := hl.getElem? h hlive (n := l.length-1) (a := r.last) (by omega) le_rfl
  have htake := hl.take hlive (n := 1) (a := n) (by omega)
  refine ⟨n, l.dropLast, by omega, ?_, ?_, hr, ?_⟩
  · rw [← List.getLast?_eq_getElem?] at hlast
    exact (List.dropLast_append_getLast? _ hlast).symm
  · rw [List.dropLast_eq_take]
    exact htake
  · show rank r.start ≤ rank n
    omega

theorem Rest.single (hl : Rest rank r l) (hr : r.exhausted = false)
    (heq : rank r.start = rank r.last) : l = [r.start] ∧ r.start = r.last := by
  have hlive : Live rank r := ⟨hr, heq.le⟩
  have hlength := hl.length hlive
  have hhead := hl.getElem? h hlive (n := 0) (a := r.start) rfl heq.le
  obtain ⟨x, rfl⟩ := List.length_eq_one_iff.mp (show l.length = 1 by omega)
  exact ⟨by rw [Option.some_inj.mp hhead], h.injective heq⟩

end Lists

/-! ## The calls -/

section Calls

variable (h : step.Lawful rank) [DecidableEq A] {r : RangeInclusive A} {l : List A}
include h

theorem isEmpty_of_live (hr : Live rank r) : r.isEmpty step = false :=
  Bool.eq_false_iff.mpr fun hempty => (isEmpty_iff h).mp hempty hr

theorem does_of_live {ρ : Type} {result : Option (ρ × RangeInclusive A)} {none' : ρ}
    {call : List A → ρ × List A} (hnil : call [] = (none', []))
    (hlive : Live rank r → Iter.Does (Rest rank) result (call l)) (hl : Rest rank r l) :
    Iter.Does (Rest rank) (if r.isEmpty step then some (none', r) else result) (call l) := by
  by_cases hr : Live rank r
  · rw [isEmpty_of_live h hr]
    exact hlive hr
  · rw [(isEmpty_iff h).mpr hr]
    obtain rfl := hl.eq_nil hr
    rw [hnil]
    exact ⟨r, rfl, hl⟩

theorem specNext_does (hl : Rest rank r l) :
    Iter.Does (Rest rank) (RangeInclusive.specNext step trusted r) (next l) := by
  refine does_of_live h rfl (fun hr => ?_) hl
  by_cases hlt : rank r.start < rank r.last
  · obtain ⟨n, m, hn, rfl, hm, -⟩ := hl.front h hr.1 hlt
    rw [if_pos ((h.key_lt _ _).mpr hlt), h.succ_eq hn]
    exact ⟨_, rfl, hm⟩
  · obtain ⟨rfl, -⟩ := hl.single h hr.1 (Nat.le_antisymm hr.2 (Nat.le_of_not_lt hlt))
    rw [if_neg (mt (h.key_lt _ _).mp hlt)]
    exact ⟨_, rfl, .of_exhausted⟩

theorem specNextBack_does (hl : Rest rank r l) :
    Iter.Does (Rest rank) (RangeInclusive.specNextBack step trusted r) (nextBack l) := by
  refine does_of_live h rfl (fun hr => ?_) hl
  by_cases hlt : rank r.start < rank r.last
  · obtain ⟨n, m, hn, rfl, hm, -⟩ := hl.back h hr.1 hlt
    rw [if_pos ((h.key_lt _ _).mpr hlt), h.pred_eq hn, nextBack_concat]
    exact ⟨_, rfl, hm⟩
  · obtain ⟨rfl, heq⟩ := hl.single h hr.1 (Nat.le_antisymm hr.2 (Nat.le_of_not_lt hlt))
    rw [if_neg (mt (h.key_lt _ _).mp hlt), heq]
    exact ⟨_, rfl, .of_exhausted⟩

theorem foldLast_single (f : γ → A → Except β γ) (acc : γ) (hl : Rest rank r l)
    (hr : r.exhausted = false) (heq : rank r.start = rank r.last) :
    RangeInclusive.foldLast f (.ok acc, r) = ((tryFold f acc l).1, { r with exhausted := true }) ∧
      (tryFold f acc l).2 = [] := by
  obtain ⟨rfl, hstart⟩ := hl.single h hr heq
  rw [RangeInclusive.foldLast, if_pos hstart, tryFold]
  cases f acc r.start with
  | ok acc => exact ⟨rfl, rfl⟩
  | error b => exact ⟨rfl, rfl⟩

theorem foldLoop_does (f : γ → A → Except β γ) (fuel : ℕ) (acc : γ) (hl : Rest rank r l)
    (hr : Live rank r) (hfuel : l.length ≤ fuel) :
    Iter.Does (Rest rank) ((RangeInclusive.foldLoop step trusted f fuel acc r).map
      (RangeInclusive.foldLast f)) (tryFold f acc l) := by
  induction fuel generalizing r l acc with
  | zero =>
    have hlength := hl.length hr
    have hle := hr.2
    omega
  | succ fuel ih =>
    rw [RangeInclusive.foldLoop]
    by_cases hlt : rank r.start < rank r.last
    · obtain ⟨n, m, hn, rfl, hm, hlive⟩ := hl.front h hr.1 hlt
      rw [if_pos ((h.key_lt _ _).mpr hlt), h.succ_eq hn, tryFold]
      dsimp only
      cases f acc r.start with
      | ok acc => exact ih acc hm hlive (Nat.le_of_succ_le_succ hfuel)
      | error b => exact ⟨_, rfl, hm⟩
    · obtain ⟨hlast, hnil⟩ :=
        foldLast_single h f acc hl hr.1 (Nat.le_antisymm hr.2 (Nat.le_of_not_lt hlt))
      rw [if_neg (mt (h.key_lt _ _).mp hlt), Option.map_some, hlast]
      refine ⟨_, rfl, ?_⟩
      rw [hnil]
      exact .of_exhausted

theorem rfoldLoop_does (f : γ → A → Except β γ) (fuel : ℕ) (acc : γ) (hl : Rest rank r l)
    (hr : Live rank r) (hfuel : l.length ≤ fuel) :
    Iter.Does (Rest rank) ((RangeInclusive.rfoldLoop step trusted f fuel acc r).map
      (RangeInclusive.foldLast f)) (tryRfold f acc l) := by
  induction fuel generalizing r l acc with
  | zero =>
    have hlength := hl.length hr
    have hle := hr.2
    omega
  | succ fuel ih =>
    rw [RangeInclusive.rfoldLoop]
    by_cases hlt : rank r.start < rank r.last
    · obtain ⟨n, m, hn, rfl, hm, hlive⟩ := hl.back h hr.1 hlt
      rw [List.length_append, List.length_singleton] at hfuel
      rw [if_pos ((h.key_lt _ _).mpr hlt), h.pred_eq hn, tryRfold, List.reverse_append,
        List.reverse_singleton, List.singleton_append, tryFold]
      dsimp only
      cases f acc r.last with
      | ok acc => exact ih acc hm hlive (Nat.le_of_succ_le_succ hfuel)
      | error b =>
        refine ⟨_, rfl, ?_⟩
        rw [List.reverse_reverse]
        exact hm
    · obtain ⟨hlast, hnil⟩ :=
        foldLast_single h f acc hl hr.1 (Nat.le_antisymm hr.2 (Nat.le_of_not_lt hlt))
      obtain ⟨rfl, -⟩ := hl.single h hr.1 (Nat.le_antisymm hr.2 (Nat.le_of_not_lt hlt))
      rw [if_neg (mt (h.key_lt _ _).mp hlt), Option.map_some, hlast, tryRfold,
        List.reverse_singleton, hnil]
      exact ⟨_, rfl, .of_exhausted⟩

theorem specTryFold_does {fuel : ℕ} (f : γ → A → Except β γ) (init : γ) (hl : Rest rank r l)
    (hfuel : l.length ≤ fuel) :
    Iter.Does (Rest rank) (RangeInclusive.specTryFold step trusted r f fuel init)
      (tryFold f init l) :=
  does_of_live h rfl (fun hr => foldLoop_does h f fuel init hl hr hfuel) hl

theorem specTryRfold_does {fuel : ℕ} (f : γ → A → Except β γ) (init : γ) (hl : Rest rank r l)
    (hfuel : l.length ≤ fuel) :
    Iter.Does (Rest rank) (RangeInclusive.specTryRfold step trusted r f fuel init)
      (tryRfold f init l) :=
  does_of_live h rfl (fun hr => rfoldLoop_does h f fuel init hl hr hfuel) hl

theorem nth_does (n : ℕ) (hn : n < 2^64) (hl : Rest rank r l) :
    Iter.Does (Rest rank) (RangeInclusive.nth step r n) (nth n l) := by
  refine does_of_live h (by rw [nth, List.getElem?_nil, List.drop_nil]) (fun hr => ?_) hl
  have hlength := hl.length hr
  obtain ⟨p, hp, hiff⟩ := h.forwardChecked r.start n hn
  rw [hp]
  rcases p with _ | p
  · have hge : l.length ≤ n := by
      by_contra hlt
      obtain ⟨b, hb⟩ := h.dense r.last (rank r.start+n) (by omega)
      cases (hiff b).mpr hb
    rw [nth, List.getElem?_eq_none hge, List.drop_eq_nil_of_le (Nat.le_succ_of_le hge)]
    exact ⟨_, rfl, .of_exhausted⟩
  · have hrank := (hiff p).mp rfl
    dsimp only
    rw [RangeInclusive.nthAt]
    rcases lt_trichotomy (rank p) (rank r.last) with hlt | heq | hgt
    · obtain ⟨b, hb⟩ := h.dense r.last (rank p+1) hlt
      rw [h.compare_lt.mpr hlt, h.forward p b 1 (by norm_num) hb, nth,
        hl.getElem? h hr hrank hlt.le]
      exact ⟨_, rfl, hl.drop hr (hb.trans (by omega))⟩
    · rw [h.compare_eq.mpr heq, nth, hl.getElem? h hr hrank heq.le,
        List.drop_eq_nil_of_le (by omega)]
      exact ⟨_, rfl, .of_exhausted⟩
    · rw [h.compare_gt.mpr hgt, nth, List.getElem?_eq_none (by omega),
        List.drop_eq_nil_of_le (by omega)]
      exact ⟨_, rfl, .of_exhausted⟩

theorem nthBack_does (n : ℕ) (hn : n < 2^64) (hl : Rest rank r l) :
    Iter.Does (Rest rank) (RangeInclusive.nthBack step r n) (nthBack n l) := by
  refine does_of_live h (by rw [nthBack, List.reverse_nil, List.getElem?_nil, List.take_nil])
    (fun hr => ?_) hl
  have hlength := hl.length hr
  have hnone : l.length ≤ n → nthBack n l = (none, []) := by
    intro hge
    rw [nthBack, List.getElem?_eq_none (by rw [List.length_reverse]; exact hge),
      Nat.sub_eq_zero_of_le (Nat.le_succ_of_le hge), List.take_zero]
  obtain ⟨p, hp, hiff⟩ := h.backwardChecked r.last n hn
  rw [hp]
  rcases p with _ | p
  · have hge : l.length ≤ n := by
      by_contra hlt
      obtain ⟨b, hb⟩ := h.dense r.last (rank r.last-n) (Nat.sub_le _ _)
      cases (hiff b).mpr (by omega)
    rw [hnone hge]
    exact ⟨_, rfl, .of_exhausted⟩
  · have hrank := (hiff p).mp rfl
    have hitem : rank r.start ≤ rank p → l.reverse[n]? = some p := by
      intro hle
      rw [List.getElem?_reverse (by omega)]
      exact hl.getElem? h hr (by omega) (by omega)
    dsimp only
    rw [RangeInclusive.nthBackAt]
    rcases lt_trichotomy (rank p) (rank r.start) with hlt | heq | hgt
    · rw [h.compare_lt.mpr hlt, hnone (by omega)]
      exact ⟨_, rfl, .of_exhausted⟩
    · rw [h.compare_eq.mpr heq, nthBack, hitem heq.ge, Nat.sub_eq_zero_of_le (by omega),
        List.take_zero]
      exact ⟨_, rfl, .of_exhausted⟩
    · obtain ⟨b, hb⟩ := h.dense p (rank p-1) (Nat.sub_le _ _)
      rw [h.compare_gt.mpr hgt, h.backward p b 1 (by norm_num) (by omega), nthBack, hitem hgt.le]
      exact ⟨_, rfl, hl.take hr (by omega)⟩

/-- The remaining count, or a lower bound if it does not fit. -/
def exactHint (n : ℕ) : ℕ × Option ℕ := if n < 2^64 then (n, some n) else (2^64-1, none)

omit h in
theorem hint_succ (k : ℕ) :
    (Usize.saturatingAdd (tryUsize k).1 1, (tryUsize k).2.bind fun steps => Usize.add steps 1) =
      exactHint (k+1) := by
  rw [exactHint, tryUsize]
  by_cases hk : k < 2^64
  · rw [if_pos hk]
    dsimp only
    rw [Option.bind_some, Usize.saturatingAdd, Machine.usizeMax]
    by_cases hk' : k+1 < 2^64
    · rw [if_pos hk', Usize.add_eq hk', min_eq_left (by omega)]
    · have hnone : Usize.add k 1 = none := if_neg hk'
      rw [if_neg hk', hnone, min_eq_right (by omega)]
  · rw [if_neg hk, if_neg (by omega)]
    rfl

theorem sizeHint_eq (hl : Rest rank r l) : r.sizeHint step = exactHint l.length := by
  rw [RangeInclusive.sizeHint]
  by_cases hr : Live rank r
  · have hlength := hl.length hr
    have hle := hr.2
    rw [isEmpty_of_live h hr, if_neg Bool.false_ne_true]
    dsimp only
    rw [h.stepsBetween, if_pos hle, tryUsize, exactHint]
    have hcount : l.length = rank r.last-rank r.start+1 := by omega
    rw [hcount]
    exact hint_succ _
  · rw [(isEmpty_iff h).mpr hr, hl.eq_nil hr]
    rfl

end Calls

/-! ## Runs -/

section Runs

variable (h : step.Lawful rank) {start last : A} {l : List A}

theorem exists_map_eq {ks : List ℕ} (hks : ∀ k ∈ ks, ∃ a, rank a = k) :
    ∃ l : List A, l.map rank = ks := by
  induction ks with
  | nil => exact ⟨[], rfl⟩
  | cons k ks ih =>
    obtain ⟨a, ha⟩ := hks k List.mem_cons_self
    obtain ⟨l, hl⟩ := ih fun k hk => hks k (List.mem_cons_of_mem _ hk)
    exact ⟨a :: l, by rw [List.map_cons, ha, hl]⟩

include h

theorem exists_rest (start last : A) : ∃ l, Rest rank (.new start last) l := by
  apply exists_map_eq
  intro k hk
  change k ∈ List.range' (rank start) (rank last+1-rank start) at hk
  rw [List.mem_range'_1] at hk
  exact h.dense last k (by omega)

theorem between_iff : Between step start last l ↔ Rest rank (.new start last) l := by
  have hmem : ∀ k, k ∈ List.range' (rank start) (rank last+1-rank start) ↔
      rank start ≤ k ∧ k ≤ rank last := by
    intro k
    rw [List.mem_range'_1]
    omega
  constructor
  · intro hl
    apply List.Pairwise.eq_of_mem_iff (r := (· < ·))
    · rw [List.pairwise_map]
      exact hl.increasing.imp fun hlt => (h.key_lt _ _).mp hlt
    · exact List.pairwise_lt_range'
    · intro k
      refine Iff.trans ?_ (hmem k).symm
      rw [List.mem_map]
      constructor
      · rintro ⟨x, hx, rfl⟩
        rw [hl.mem, h.key_le, h.key_le] at hx
        exact hx
      · intro hk
        obtain ⟨x, rfl⟩ := h.dense last k hk.2
        refine ⟨x, ?_, rfl⟩
        rw [hl.mem, h.key_le, h.key_le]
        exact hk
  · intro hl
    change l.map rank = List.range' (rank start) (rank last+1-rank start) at hl
    constructor
    · have hpair : (l.map rank).Pairwise (· < ·) := by
        rw [hl]
        exact List.pairwise_lt_range'
      rw [List.pairwise_map] at hpair
      exact hpair.imp fun hlt => (h.key_lt _ _).mpr hlt
    · intro x
      rw [← List.mem_map_of_injective h.injective, hl, hmem, h.key_le, h.key_le]

theorem exists_between (start last : A) : ∃ l, Between step start last l := by
  obtain ⟨l, hl⟩ := exists_rest h start last
  exact ⟨l, (between_iff h).mpr hl⟩

theorem length_between (hl : Between step start last l) {n : ℕ} :
    l.length = n+1 ↔ rank last = rank start+n := by
  have hrest := (between_iff h).mp hl
  have hlength : l.length = rank last+1-rank start := by
    rw [← List.length_map rank]
    exact (congrArg List.length hrest).trans List.length_range'
  omega

variable [DecidableEq A]

theorem refines (fuel : ℕ) : (RangeInclusive.iter step trusted fuel).Refines
    fun r l => Rest rank r l ∧ l.length ≤ fuel := by
  have hbound : ∀ {ρ : Type} {result : Option (ρ × RangeInclusive A)} {t : ρ × List A},
      Iter.Does (Rest rank) result t → t.2.length ≤ fuel →
      Iter.Does (fun r l => Rest rank r l ∧ l.length ≤ fuel) result t := by
    intro ρ result t hdoes hle
    obtain ⟨r', heq, hr'⟩ := hdoes
    exact ⟨r', heq, hr', hle⟩
  have htry : ∀ {β γ : Type} (f : γ → A → Except β γ) (init : γ) (r : RangeInclusive A)
      (l : List A), Rest rank r l ∧ l.length ≤ fuel →
      Iter.Does (fun r l => Rest rank r l ∧ l.length ≤ fuel)
        (RangeInclusive.specTryFold step trusted r f fuel init) (tryFold f init l) := by
    intro β γ f init r l hl
    exact hbound (specTryFold_does h f init hl.1 hl.2) ((tryFold_length_le f init l).trans hl.2)
  have hback : ∀ (r : RangeInclusive A) (l : List A), Rest rank r l ∧ l.length ≤ fuel →
      Iter.Does (fun r l => Rest rank r l ∧ l.length ≤ fuel)
        (RangeInclusive.specNextBack step trusted r) (nextBack l) := by
    intro r l hl
    apply hbound (specNextBack_does h hl.1)
    exact (List.length_dropLast.trans_le (Nat.sub_le _ _)).trans hl.2
  constructor
  · intro r l hl
    apply hbound (specNext_does h hl.1)
    exact (List.length_tail.trans_le (Nat.sub_le _ _)).trans hl.2
  · exact hback
  · intro n r l hn hl
    apply hbound (nth_does h n hn hl.1)
    exact (List.length_drop.trans_le (Nat.sub_le _ _)).trans hl.2
  · intro n r l hn hl
    apply hbound (nthBack_does h n hn hl.1)
    exact (List.length_take_le' _ _).trans hl.2
  · intro n r l _ hl
    exact Iter.does_advanceBy (fun f init r l hl => htry f init r l hl) hl
  · intro n r l _ hl
    exact Iter.does_advanceBackBy hback hl
  · exact fun f init r l hl => htry f init r l hl
  · intro β γ f init r l hl
    apply hbound (specTryRfold_does h f init hl.1 hl.2)
    rw [tryRfold, List.length_reverse]
    have hle := tryFold_length_le f init l.reverse
    rw [List.length_reverse] at hle
    exact hle.trans hl.2

theorem follows (hl : Between step start last l) {fuel : ℕ} (hfuel : l.length ≤ fuel) :
    (RangeInclusive.iter step trusted fuel).Follows
      (fun r l => r.sizeHint step = exactHint l.length) (.new start last) l :=
  (refines h fuel).follows (fun _ _ hr => sizeHint_eq h hr.1) ⟨(between_iff h).mp hl, hfuel⟩

end Runs

/-! ## The steps agree -/

/-- The three ways to count the steps from `a` to `b` agree, and none of them leaves the type. -/
structure Consistent (step : Step A) (a b : A) (n : ℕ) : Prop where
  forward_safe : (step.forwardChecked a n).isSome
  backward_safe : (step.backwardChecked b n).isSome
  forward_backward :
    step.forwardChecked a n = some (some b) ↔ step.backwardChecked b n = some (some a)
  forward_steps : step.forwardChecked a n = some (some b) ↔ step.stepsBetween a b = (n, some n)
  forward_count : step.forwardChecked a n = some (some b) ↔
    ∃ l, Between step a b l ∧ l.length = n+1

theorem consistent (h : step.Lawful rank) (a b : A) {n : ℕ} (hn : n < 2^64) :
    Consistent step a b n := by
  obtain ⟨p, hp, hiff⟩ := h.forwardChecked a n hn
  obtain ⟨q, hq, hiff'⟩ := h.backwardChecked b n hn
  have hforward : step.forwardChecked a n = some (some b) ↔ rank b = rank a+n := by
    rw [hp, Option.some_inj, hiff]
  refine ⟨by rw [hp]; rfl, by rw [hq]; rfl, ?_, ?_, ?_⟩
  · rw [hforward, hq, Option.some_inj, hiff']
  · rw [hforward, h.stepsBetween]
    split_ifs with hle
    · rw [tryUsize]
      split_ifs with hlt
      · rw [Prod.mk.injEq, Option.some_inj, and_self]
        omega
      · exact iff_of_false (by omega) (by simp)
    · exact iff_of_false (by omega) (by simp)
  · rw [hforward]
    constructor
    · intro hb
      obtain ⟨l, hl⟩ := exists_between h a b
      exact ⟨l, hl, (length_between h hl).mpr hb⟩
    · rintro ⟨l, hl, hlength⟩
      exact (length_between h hl).mp hlength

/-- For every integer type and for `char`, a range iterates as the list of the values from its start to its
end, and the steps agree. -/
theorem rangeInclusive_follows (t : Ty) (checks trusted : Bool) :
    (∀ start last : t.Value, ∃ l, Between (t.step checks) start last l ∧
      ∀ fuel, l.length ≤ fuel → (RangeInclusive.iter (t.step checks) trusted fuel).Follows
        (fun r l => r.sizeHint (t.step checks) = exactHint l.length) (.new start last) l) ∧
      ∀ (a b : t.Value) (n : ℕ), n < 2^64 → Consistent (t.step checks) a b n := by
  have h := t.lawful checks
  constructor
  · intro start last
    obtain ⟨l, hl⟩ := exists_between h start last
    exact ⟨l, hl, fun fuel hfuel => follows h hl hfuel⟩
  · exact fun a b n hn => consistent h a b hn

/-- The last scalar value below the surrogates and the first one above. -/
theorem rangeInclusive_follows_char :
    Consistent (Ty.step false .char) (Char.ofNat 0xD7FF) (Char.ofNat 0xE000) 1 :=
  (rangeInclusive_follows .char false true).2 (Char.ofNat 0xD7FF) (Char.ofNat 0xE000) 1 (by norm_num)

end RustStd.Ranges
