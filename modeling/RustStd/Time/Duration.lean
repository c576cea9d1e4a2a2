import RustStd.Lib.Checked

/-!
# Arithmetic of `Duration`

A duration counts seconds and nanoseconds apart. The checked operations and `Sum` are
compared with the operations on the total number of nanoseconds. A panic, an overflow
or a failed assertion is the outer `none`.
-/

set_option autoImplicit false

namespace RustStd.Time
open RustStd.Checked

/-- `NANOS_PER_SEC` -/
def nanosPerSec : ℕ := 1000000000

/-- The field `nanos` is a `Nanoseconds`, which is below `NANOS_PER_SEC`. -/
structure Duration where
  secs : ℕ
  nanos : ℕ
  secs_lt : secs < 2^64
  nanos_lt : nanos < nanosPerSec

namespace Duration

def u32 (n : ℕ) : Option ℕ := unsigned 32 n

/-- The fields have to be in the ranges of their types. -/
def make (secs nanos : ℕ) : Option Duration :=
  if h : secs < 2^64 ∧ nanos < nanosPerSec then some ⟨secs, nanos, h.1, h.2⟩ else none

def new (secs nanos : ℕ) : Option Duration :=
  if nanos < nanosPerSec then make secs nanos
  else do
    let secs ← u64 (secs+nanos/nanosPerSec)
    make secs (nanos%nanosPerSec)

/-- `Duration::MAX` -/
def max : Duration := ⟨2^64-1, nanosPerSec-1, by decide, by decide⟩

/-- `debug_assert!(nanos < NANOS_PER_SEC)` and `Some(Duration::new(secs, nanos))`. -/
def asserted (secs nanos : ℕ) : Option (Option Duration) :=
  if nanos < nanosPerSec then (new secs nanos).map some else none

def checkedAdd (self rhs : Duration) : Option (Option Duration) :=
  match u64 (self.secs+rhs.secs) with
  | some secs => do
    let nanos ← u32 (self.nanos+rhs.nanos)
    if nanos ≥ nanosPerSec then do
      let nanos ← sub nanos nanosPerSec
      match u64 (secs+1) with
      | some newSecs => asserted newSecs nanos
      | none => return none
    else asserted secs nanos
  | none => some none

def checkedSub (self rhs : Duration) : Option (Option Duration) :=
  match sub self.secs rhs.secs with
  | some secs =>
    if self.nanos ≥ rhs.nanos then do
      let nanos ← sub self.nanos rhs.nanos
      asserted secs nanos
    else
      match sub secs 1 with
      | some subSecs => do
        let nanos ← u32 (self.nanos+nanosPerSec)
        let nanos ← sub nanos rhs.nanos
        asserted subSecs nanos
      | none => some none
  | none => some none

def checkedMul (self : Duration) (rhs : UInt32) : Option (Option Duration) := do
  let totalNanos ← u64 (self.nanos*rhs.toNat)
  let extraSecs := totalNanos/nanosPerSec
  let nanos := totalNanos%nanosPerSec%2^32
  match u64 (self.secs*rhs.toNat) with
  | some s =>
    match u64 (s+extraSecs) with
    | some secs => asserted secs nanos
    | none => return none
  | none => return none

def checkedDiv (self : Duration) (rhs : UInt32) : Option (Option Duration) :=
  if rhs ≠ 0 then do
    let (secs, extraSecs) := (self.secs/rhs.toNat, self.secs%rhs.toNat)
    let (nanos, extraNanos) := (self.nanos/rhs.toNat, self.nanos%rhs.toNat)
    let extra ← u64 (extraSecs*nanosPerSec)
    let extra ← u64 (extra+extraNanos)
    let nanos ← u32 (nanos+extra/rhs.toNat%2^32)
    asserted secs nanos
  else some none

/-- The round of `sum_durations!`, on `total_secs` and `total_nanos`. -/
def sumEntry : ℕ × ℕ → Duration → Option (ℕ × ℕ)
  | (totalSecs, totalNanos), entry => do
    let totalSecs ← u64 (totalSecs+entry.secs)
    match u64 (totalNanos+entry.nanos) with
    | some n => return (totalSecs, n)
    | none => do
      let totalSecs ← u64 (totalSecs+totalNanos/nanosPerSec)
      let n ← u64 (totalNanos%nanosPerSec+entry.nanos)
      return (totalSecs, n)

def sum (iter : List Duration) : Option Duration := do
  let (totalSecs, totalNanos) ← iter.foldlM sumEntry (0, 0)
  let totalSecs ← u64 (totalSecs+totalNanos/nanosPerSec)
  new totalSecs (totalNanos%nanosPerSec%2^32)

/-! ## The total in nanoseconds -/

def total (d : Duration) : ℕ := d.secs*nanosPerSec+d.nanos

/-- The result is the duration of `z` nanoseconds, or `None` if there is none. -/
def Exact (out : Option (Option Duration)) (z : ℤ) : Prop :=
  ∃ r, out = some r ∧ (∀ d, r = some d → d.nanos < nanosPerSec ∧ (d.total:ℤ) = z) ∧
    (r = none ↔ z < 0 ∨ (max.total:ℤ) < z)

theorem total_max : max.total = 2^64*nanosPerSec-1 := by decide

theorem total_le (d : Duration) : d.total ≤ max.total := by
  have hs := d.secs_lt
  have hn := d.nanos_lt
  rw [total_max, total]
  unfold nanosPerSec at *
  omega

theorem new_eq {secs nanos : ℕ} (hs : secs < 2^64) (hn : nanos < nanosPerSec) :
    new secs nanos = some ⟨secs, nanos, hs, hn⟩ := by
  rw [new, if_pos hn, make, dif_pos ⟨hs, hn⟩]

theorem asserted_eq {secs nanos : ℕ} (hs : secs < 2^64) (hn : nanos < nanosPerSec) :
    asserted secs nanos = some (some ⟨secs, nanos, hs, hn⟩) := by
  rw [asserted, if_pos hn, new_eq hs hn, Option.map_some]

theorem u32_eq {n : ℕ} (h : n < 2^32) : u32 n = some n := if_pos h

theorem u64_none {n : ℕ} (h : 2^64 ≤ n) : u64 n = none := if_neg (by omega)

theorem sub_none {a b : ℕ} (h : a < b) : sub a b = none := if_neg (by omega)

theorem exact_asserted {secs nanos : ℕ} {z : ℤ} (hs : secs < 2^64) (hn : nanos < nanosPerSec)
    (hz : ((secs*nanosPerSec+nanos:ℕ):ℤ) = z) : Exact (asserted secs nanos) z := by
  have htotal := total_le ⟨secs, nanos, hs, hn⟩
  rw [asserted_eq hs hn]
  refine ⟨_, rfl, ?_, ?_⟩
  · intro d hd
    cases hd
    exact ⟨hn, hz⟩
  · rw [total] at htotal
    constructor
    · intro h
      cases h
    · intro h
      exfalso
      simp only at htotal
      omega

theorem exact_none {z : ℤ} (h : z < 0 ∨ (max.total:ℤ) < z) : Exact (some none) z := by
  refine ⟨none, rfl, ?_, ?_⟩
  · intro d hd
    cases hd
  · exact ⟨fun _ => h, fun _ => rfl⟩

theorem checkedAdd_exact (d e : Duration) : Exact (d.checkedAdd e) (d.total+e.total) := by
  have hn := d.nanos_lt
  have hn' := e.nanos_lt
  have hmax := total_max
  unfold nanosPerSec at *
  rw [checkedAdd, total, total]
  rcases Nat.lt_or_ge (d.secs+e.secs) (2^64) with hs | hs
  · simp only [u64_eq hs, u32_eq (show d.nanos+e.nanos < 2^32 by omega), Option.bind_eq_bind,
      Option.bind_some]
    split
    · next hcarry =>
      unfold nanosPerSec at *
      rw [sub_eq hcarry, Option.bind_some]
      rcases Nat.lt_or_ge (d.secs+e.secs+1) (2^64) with hs' | hs'
      · rw [u64_eq hs']
        apply exact_asserted hs'
        · unfold nanosPerSec
          omega
        · unfold nanosPerSec
          omega
      · rw [u64_none hs']
        apply exact_none
        omega
    · next hcarry =>
      unfold nanosPerSec at *
      apply exact_asserted hs
      · unfold nanosPerSec
        omega
      · unfold nanosPerSec
        omega
  · rw [u64_none hs]
    apply exact_none
    unfold nanosPerSec
    omega

theorem checkedSub_exact (d e : Duration) : Exact (d.checkedSub e) (d.total-e.total) := by
  have hn := d.nanos_lt
  have hn' := e.nanos_lt
  have hs := d.secs_lt
  rw [checkedSub, total, total]
  unfold nanosPerSec at hn hn'
  rcases Nat.lt_or_ge d.secs e.secs with hborrow | hle
  · rw [sub_none hborrow]
    apply exact_none
    unfold nanosPerSec
    omega
  rw [sub_eq hle]
  rcases Nat.lt_or_ge d.nanos e.nanos with hnanos | hnanos
  · simp only [if_neg (show ¬ d.nanos ≥ e.nanos by omega)]
    rcases Nat.lt_or_ge (d.secs-e.secs) 1 with hsecs | hsecs
    · rw [sub_none hsecs]
      apply exact_none
      unfold nanosPerSec
      omega
    · have hfit : d.nanos+nanosPerSec < 2^32 := by
        unfold nanosPerSec
        omega
      have hleft : e.nanos ≤ d.nanos+nanosPerSec := by
        unfold nanosPerSec
        omega
      rw [sub_eq hsecs]
      simp only [u32_eq hfit, Option.bind_eq_bind, Option.bind_some]
      rw [sub_eq hleft, Option.bind_some]
      unfold nanosPerSec at hfit hleft
      apply exact_asserted
      · omega
      · unfold nanosPerSec
        omega
      · unfold nanosPerSec
        omega
  · simp only [if_pos hnanos, sub_eq hnanos, Option.bind_eq_bind, Option.bind_some]
    apply exact_asserted
    · omega
    · unfold nanosPerSec
      omega
    · unfold nanosPerSec
      omega

theorem mul_carry (s n r : ℕ) :
    (s*nanosPerSec+n)*r = (s*r+n*r/nanosPerSec)*nanosPerSec+n*r%nanosPerSec := by
  calc (s*nanosPerSec+n)*r
      = s*r*nanosPerSec+n*r := by ring
    _ = s*r*nanosPerSec+(nanosPerSec*(n*r/nanosPerSec)+n*r%nanosPerSec) := by
        rw [Nat.div_add_mod]
    _ = _ := by ring

theorem mod_u32 (n : ℕ) : n%nanosPerSec%2^32 = n%nanosPerSec := by
  apply Nat.mod_eq_of_lt
  unfold nanosPerSec
  omega

theorem checkedMul_exact (d : Duration) (rhs : UInt32) :
    Exact (d.checkedMul rhs) (d.total*rhs.toNat) := by
  have hn := d.nanos_lt
  have hr := rhs.toNat_lt
  have hpos : 0 < nanosPerSec := by decide
  have hmod := Nat.mod_lt (d.nanos*rhs.toNat) hpos
  have hcarry := mul_carry d.secs d.nanos rhs.toNat
  have hprod : d.nanos*rhs.toNat < 2^64 := by
    calc d.nanos*rhs.toNat
        ≤ nanosPerSec*2^32 := Nat.mul_le_mul hn.le hr.le
      _ < 2^64 := by decide
  rw [checkedMul, total, ← Nat.cast_mul, hcarry, u64_eq hprod]
  simp only [Option.bind_eq_bind, Option.bind_some, mod_u32]
  have hmax := total_max
  rcases Nat.lt_or_ge (d.secs*rhs.toNat) (2^64) with hs | hs
  · rw [u64_eq hs]
    rcases Nat.lt_or_ge (d.secs*rhs.toNat+d.nanos*rhs.toNat/nanosPerSec) (2^64) with hs' | hs'
    · simp only [u64_eq hs']
      exact exact_asserted hs' hmod rfl
    · simp only [u64_none hs']
      apply exact_none
      unfold nanosPerSec at *
      omega
  · rw [u64_none hs]
    apply exact_none
    unfold nanosPerSec at *
    omega

theorem div_split (s n r : ℕ) (hr : 0 < r) :
    (s*nanosPerSec+n)/r = s/r*nanosPerSec+(n/r+(s%r*nanosPerSec+n%r)/r) := by
  have hsplit : s*nanosPerSec+n = s%r*nanosPerSec+n%r+r*(s/r*nanosPerSec+n/r) := by
    calc s*nanosPerSec+n
        = (r*(s/r)+s%r)*nanosPerSec+(r*(n/r)+n%r) := by rw [Nat.div_add_mod, Nat.div_add_mod]
      _ = _ := by ring
  rw [hsplit, Nat.add_mul_div_left _ _ hr]
  omega

theorem div_nanos_lt {s n r : ℕ} (hr : 0 < r) (hn : n < nanosPerSec) :
    n/r+(s%r*nanosPerSec+n%r)/r < nanosPerSec := by
  have hrest : s%r*nanosPerSec+n < r*nanosPerSec := by
    calc s%r*nanosPerSec+n
        < s%r*nanosPerSec+nanosPerSec := by omega
      _ = (s%r+1)*nanosPerSec := by ring
      _ ≤ r*nanosPerSec := Nat.mul_le_mul_right _ (Nat.mod_lt s hr)
  have hquot : (s%r*nanosPerSec+n)/r < nanosPerSec := by
    rw [Nat.div_lt_iff_lt_mul hr]
    linarith only [hrest, mul_comm r nanosPerSec]
  rw [div_split _ _ _ hr, Nat.mod_mod, Nat.div_eq_of_lt (Nat.mod_lt s hr)] at hquot
  omega

theorem checkedDiv_zero (d : Duration) : d.checkedDiv 0 = some none := by
  rw [checkedDiv, if_neg]
  simp

theorem checkedDiv_exact (d : Duration) (rhs : UInt32) (h : rhs ≠ 0) :
    Exact (d.checkedDiv rhs) ((d.total/rhs.toNat:ℕ):ℤ) := by
  have hn := d.nanos_lt
  have hr := rhs.toNat_lt
  have hpos : 0 < rhs.toNat := by
    have hzero := mt UInt32.toNat_inj.mp h
    rw [UInt32.toNat_zero] at hzero
    omega
  have hlt := div_nanos_lt (s := d.secs) hpos hn
  have hsplit := div_split d.secs d.nanos rhs.toNat hpos
  have hsecs : d.secs/rhs.toNat < 2^64 := lt_of_le_of_lt (Nat.div_le_self _ _) d.secs_lt
  have hextra := Nat.mod_lt d.secs hpos
  have hrest := Nat.mod_lt d.nanos hpos
  have hprod : d.secs%rhs.toNat*nanosPerSec+d.nanos%rhs.toNat < 2^64 := by
    calc d.secs%rhs.toNat*nanosPerSec+d.nanos%rhs.toNat
        ≤ 2^32*nanosPerSec+2^32 := by
          apply Nat.add_le_add
          · exact Nat.mul_le_mul_right _ (by omega)
          · omega
      _ < 2^64 := by decide
  have hword : nanosPerSec < 2^32 := by decide
  have hcast : (d.secs%rhs.toNat*nanosPerSec+d.nanos%rhs.toNat)/rhs.toNat%2^32 =
      (d.secs%rhs.toNat*nanosPerSec+d.nanos%rhs.toNat)/rhs.toNat := by
    apply Nat.mod_eq_of_lt
    exact lt_of_le_of_lt (Nat.le_add_left _ _) (lt_trans hlt hword)
  rw [checkedDiv, if_pos h, total, hsplit]
  dsimp only [Option.bind_eq_bind]
  rw [u64_eq (lt_of_le_of_lt (Nat.le_add_right _ _) hprod), Option.bind_some, u64_eq hprod,
    Option.bind_some, hcast, u32_eq (lt_trans hlt hword), Option.bind_some]
  exact exact_asserted hsecs hlt rfl

/-! ## Sums -/

theorem u64_cases (n : ℕ) : u64 n = some n ∧ n < 2^64 ∨ u64 n = none ∧ 2^64 ≤ n := by
  rcases Nat.lt_or_ge n (2^64) with h | h
  · exact Or.inl ⟨u64_eq h, h⟩
  · exact Or.inr ⟨u64_none h, h⟩

/-- The total that the two sums of the loop stand for. -/
def held (acc : ℕ × ℕ) : ℕ := acc.1*nanosPerSec+acc.2

theorem max_lt_of_secs {s n t : ℕ} (hs : 2^64 ≤ s) (ht : s*nanosPerSec+n = t) :
    max.total < t := by
  have hle := Nat.mul_le_mul_right nanosPerSec hs
  have hpos : 0 < 2^64*nanosPerSec := by decide
  rw [total_max]
  omega

theorem held_mk (s n : ℕ) : held (s, n) = s*nanosPerSec+n := rfl

theorem held_fold (s n : ℕ) : held (s+n/nanosPerSec, n%nanosPerSec) = held (s, n) := by
  rw [held_mk, held_mk]
  calc (s+n/nanosPerSec)*nanosPerSec+n%nanosPerSec
      = s*nanosPerSec+(nanosPerSec*(n/nanosPerSec)+n%nanosPerSec) := by ring
    _ = s*nanosPerSec+n := by rw [Nat.div_add_mod]

theorem held_add (s n s' n' : ℕ) : held (s+s', n+n') = held (s, n)+(s'*nanosPerSec+n') := by
  rw [held_mk, held_mk]
  ring

theorem sumEntry_held (acc : ℕ × ℕ) (d : Duration) :
    (∃ acc', sumEntry acc d = some acc' ∧ held acc' = held acc+d.total) ∨
    sumEntry acc d = none ∧ max.total < held acc+d.total := by
  rcases acc with ⟨s, n⟩
  have hn := d.nanos_lt
  have hmod := Nat.mod_lt n (show 0 < nanosPerSec by decide)
  have htwo : 2*nanosPerSec < 2^64 := by decide
  have hadd := held_add s n d.secs d.nanos
  have hfold : held (s+d.secs+n/nanosPerSec, n%nanosPerSec+d.nanos) =
      held (s+d.secs, n+d.nanos) := by
    calc held (s+d.secs+n/nanosPerSec, n%nanosPerSec+d.nanos)
        = held (s+n/nanosPerSec+d.secs, n%nanosPerSec+d.nanos) := by rw [Nat.add_right_comm]
      _ = held (s+d.secs, n+d.nanos) := by rw [held_add, held_fold, held_add]
  rw [sumEntry, total, ← hadd]
  dsimp only [Option.bind_eq_bind]
  rcases u64_cases (s+d.secs) with ⟨hsecs, -⟩ | ⟨hsecs, hover⟩
  · rw [hsecs, Option.bind_some]
    rcases u64_cases (n+d.nanos) with ⟨hnanos, -⟩ | ⟨hnanos, -⟩
    · left
      rw [hnanos]
      exact ⟨(s+d.secs, n+d.nanos), rfl, rfl⟩
    · rw [hnanos, ← hfold]
      dsimp only
      rcases u64_cases (s+d.secs+n/nanosPerSec) with ⟨hcarry, -⟩ | ⟨hcarry, hover⟩
      · left
        have hword : n%nanosPerSec+d.nanos < 2^64 := by
          calc n%nanosPerSec+d.nanos
              < 2*nanosPerSec := by linarith only [hmod, hn]
            _ < 2^64 := htwo
        rw [hcarry, Option.bind_some, u64_eq hword]
        exact ⟨(s+d.secs+n/nanosPerSec, n%nanosPerSec+d.nanos), rfl, rfl⟩
      · right
        rw [hcarry]
        exact ⟨rfl, max_lt_of_secs hover (held_mk _ _).symm⟩
  · right
    rw [hsecs]
    exact ⟨rfl, max_lt_of_secs hover (held_mk _ _).symm⟩

theorem foldlM_held (iter : List Duration) (acc : ℕ × ℕ) :
    (∃ acc', iter.foldlM sumEntry acc = some acc' ∧
      held acc' = held acc+(iter.map total).sum) ∨
    iter.foldlM sumEntry acc = none ∧ max.total < held acc+(iter.map total).sum := by
  induction iter generalizing acc with
  | nil =>
    left
    exact ⟨acc, List.foldlM_nil, by rw [List.map_nil, List.sum_nil, Nat.add_zero]⟩
  | cons entry iter ih =>
    rw [List.foldlM_cons, List.map_cons, List.sum_cons, ← add_assoc]
    rcases sumEntry_held acc entry with ⟨acc', hentry, hheld⟩ | ⟨hentry, hover⟩
    · rw [hentry, ← hheld]
      exact ih acc'
    · right
      rw [hentry]
      exact ⟨rfl, by omega⟩

theorem sum_exact (iter : List Duration) :
    (∃ d, sum iter = some d ∧ d.total = (iter.map total).sum) ∧
      (iter.map total).sum ≤ max.total ∨
    sum iter = none ∧ max.total < (iter.map total).sum := by
  have hstart : held (0, 0) = 0 := by decide
  have hfold := foldlM_held iter (0, 0)
  rw [hstart, Nat.zero_add] at hfold
  rw [sum]
  dsimp only [Option.bind_eq_bind]
  rcases hfold with ⟨⟨s, n⟩, hrun, hheld⟩ | ⟨hrun, hover⟩
  · have hmod := Nat.mod_lt n (show 0 < nanosPerSec by decide)
    rw [hrun, Option.bind_some, ← hheld, ← held_fold]
    dsimp only
    rcases u64_cases (s+n/nanosPerSec) with ⟨hsecs, hlt⟩ | ⟨hsecs, hover⟩
    · left
      have hle := total_le ⟨s+n/nanosPerSec, n%nanosPerSec, hlt, hmod⟩
      rw [hsecs, Option.bind_some, mod_u32, new_eq hlt hmod]
      exact ⟨⟨_, rfl, rfl⟩, hle⟩
    · right
      rw [hsecs]
      exact ⟨rfl, max_lt_of_secs hover (held_mk _ _).symm⟩
  · right
    rw [hrun]
    exact ⟨rfl, hover⟩

/-- The arithmetic of durations is exact on the total number of nanoseconds. -/
theorem arithmetic_exact :
    (∀ d e, Exact (checkedAdd d e) (d.total+e.total)) ∧
    (∀ d e, Exact (checkedSub d e) (d.total-e.total)) ∧
    (∀ d (rhs : UInt32), Exact (checkedMul d rhs) (d.total*rhs.toNat)) ∧
    (∀ d (rhs : UInt32), rhs = 0 ∧ checkedDiv d rhs = some none ∨
      rhs ≠ 0 ∧ Exact (checkedDiv d rhs) ((d.total/rhs.toNat:ℕ):ℤ)) ∧
    ∀ iter, (∃ d, sum iter = some d ∧ d.total = (iter.map total).sum) ∧
        (iter.map total).sum ≤ max.total ∨
      sum iter = none ∧ max.total < (iter.map total).sum := by
  refine ⟨checkedAdd_exact, checkedSub_exact, checkedMul_exact, ?_, sum_exact⟩
  intro d rhs
  rcases eq_or_ne rhs 0 with rfl | h
  · exact Or.inl ⟨rfl, checkedDiv_zero d⟩
  · exact Or.inr ⟨h, checkedDiv_exact d rhs h⟩

end Duration

end RustStd.Time
