import RustStd.Sync.RwLockFutexSteps

/-!
# What the word of the futex RwLock says about its holders

The count is the number of read locks that are held, or the write-locked value
while one thread holds the lock for writing. Readers wait for a read-locked lock
only behind a writer, or while a downgrade has not yet told them.
-/

set_option autoImplicit false

namespace RustStd.RwLockFutex
open RustStd.Threads Word

theorem Local.mono {n m : ℕ} (hm : n ≤ m) {p : Place} (h : Local n p) : Local m p := by
  cases p with
  | recheck k => exact Nat.le_trans h hm
  | writeWait k => exact Nat.le_trans h hm
  | _ => exact h

/-- What a wake-up does to a thread. -/
inductive Rouse (th th' : Thread) : Prop
  | same (h : th' = th)
  | reader (hp : th.place = .readAsleep) (h : th' = th.go (.spinRead true 100))
  | writer (hp : th.place = .writeAsleep) (h : th' = th.go (.spinWrite true 100))

theorem rouse_woken {th : Thread} (h : program.sleepsOn th ≠ none) :
    Rouse th (program.woken th) := by
  unfold program at *
  cases hp : th.place <;> simp only [hp, ne_eq, not_true_eq_false] at h ⊢
  · exact .reader hp rfl
  · exact .writer hp rfl

section Held
variable {ι : Type} [Fintype ι]

structure Reading (c : ℕ) (pc : ι → Thread) : Prop where
  lt : c < mask
  sum : ∑ t, (pc t).reads = c
  writes : ∀ t, (pc t).writes = false

structure Writing (c : ℕ) (t : ι) (pc : ι → Thread) : Prop where
  eq : c = mask
  sum : ∑ t, (pc t).reads = 0
  writes : ∀ u, (pc u).writes = true ↔ u = t

/-- The count agrees with what the threads hold. -/
def Held (c : ℕ) (pc : ι → Thread) : Prop := Reading c pc ∨ ∃ t, Writing c t pc

variable {c : ℕ} {pc pc' : ι → Thread} {t : ι} {th : Thread}

theorem Held.le (h : Held c pc) : c ≤ mask := by
  rcases h with h | ⟨t, h⟩
  · exact h.lt.le
  · exact h.eq.le

theorem Held.reading (h : Held c pc) (hc : c < mask) : Reading c pc := by
  rcases h with h | ⟨t, h⟩
  · exact h
  · exact absurd h.eq hc.ne

theorem reads_le_sum (t : ι) : (pc t).reads ≤ ∑ u, (pc u).reads :=
  Finset.single_le_sum (f := fun u => (pc u).reads) (fun _ _ => Nat.zero_le _) (Finset.mem_univ t)

theorem Held.of_reads (h : Held c pc) (hr : 0 < (pc t).reads) : Reading c pc ∧ 0 < c := by
  have hle : (pc t).reads ≤ ∑ u, (pc u).reads := reads_le_sum t
  rcases h with h | ⟨u, h⟩
  · exact ⟨h, by rw [← h.sum]; omega⟩
  · rw [h.sum] at hle
    omega

theorem Held.of_writes (h : Held c pc) (hw : (pc t).writes = true) : Writing c t pc := by
  rcases h with h | ⟨u, h⟩
  · exact absurd hw (by rw [h.writes t]; decide)
  · obtain rfl := (h.writes t).mp hw
    exact h

theorem Held.congr (h : Held c pc) (hr : ∀ t, (pc' t).reads = (pc t).reads)
    (hw : ∀ t, (pc' t).writes = (pc t).writes) : Held c pc' := by
  have hsum : ∑ t, (pc' t).reads = ∑ t, (pc t).reads := Finset.sum_congr rfl fun t _ => hr t
  rcases h with h | ⟨t, h⟩
  · exact .inl ⟨h.lt, hsum.trans h.sum, fun t => (hw t).trans (h.writes t)⟩
  · exact .inr ⟨t, h.eq, hsum.trans h.sum, fun u => by rw [hw u, h.writes u]⟩

variable [DecidableEq ι]

theorem Held.two (h : Held c pc) {u : ι} (hne : u ≠ t) (ht : 0 < (pc t).reads)
    (hu : 0 < (pc u).reads) : 1 < c := by
  have hsum := Finset.add_sum_erase Finset.univ (fun u => (pc u).reads) (Finset.mem_univ t)
  have hle := Finset.single_le_sum (f := fun u => (pc u).reads) (fun _ _ => Nat.zero_le _)
    (Finset.mem_erase.mpr ⟨hne, Finset.mem_univ u⟩)
  rw [(h.of_reads ht).1.sum] at hsum
  omega

theorem Held.keep (h : Held c pc) (hr : th.reads = (pc t).reads)
    (hw : th.writes = (pc t).writes) : Held c (Function.update pc t th) := by
  apply h.congr <;> intro u
  · rcases update_cases pc t th u with ⟨rfl, hu⟩ | ⟨-, hu⟩ <;> rw [hu]
    exact hr
  · rcases update_cases pc t th u with ⟨rfl, hu⟩ | ⟨-, hu⟩ <;> rw [hu]
    exact hw

omit [Fintype ι] in
theorem Reading.writes_update (h : ∀ u, u ≠ t → (pc u).writes = false) (hw : th.writes = false)
    (u : ι) : (Function.update pc t th u).writes = false :=
  forall_update (Q := fun th : Thread => th.writes = false) hw h u

theorem Held.lockRead (h : Held c pc) (hc : c < maxReaders) :
    Held (c+1) (Function.update pc t (pc t).lockRead) := by
  have hlt : c+1 < mask := by
    unfold maxReaders at hc
    omega
  have h := h.reading (by omega)
  have hsum := sum_update Thread.reads pc t (pc t).lockRead
  refine .inl ⟨hlt, ?_, Reading.writes_update (fun u _ => h.writes u) (h.writes t)⟩
  rw [h.sum] at hsum
  change _ = c+((pc t).reads+1) at hsum
  omega

theorem Held.lockWrite (h : Held 0 pc) : Held mask (Function.update pc t (pc t).lockWrite) := by
  have h := h.reading (by decide)
  have hsum := sum_update Thread.reads pc t (pc t).lockWrite
  refine .inr ⟨t, rfl, ?_, fun u => ?_⟩
  · rw [h.sum] at hsum
    change _ = 0+(pc t).reads at hsum
    omega
  · rcases update_cases pc t (pc t).lockWrite u with ⟨rfl, hu⟩ | ⟨hne, hu⟩ <;> rw [hu]
    · exact iff_of_true rfl rfl
    · rw [h.writes u]
      exact iff_of_false Bool.false_ne_true hne

theorem Held.readUnlock (h : Held (c+1) pc) (hr : 0 < (pc t).reads) (hth : th.reads = (pc t).reads-1)
    (hw : th.writes = (pc t).writes) : Held c (Function.update pc t th) := by
  have h := (h.of_reads hr).1
  have hsum := sum_update Thread.reads pc t th
  refine .inl ⟨Nat.lt_of_succ_lt h.lt, ?_, Reading.writes_update (fun u _ => h.writes u) ?_⟩
  · rw [h.sum] at hsum
    omega
  · rw [hw, h.writes t]

theorem Held.writerLeaves (h : Held c pc) (hw : (pc t).writes = true) {k : ℕ} (hk : k < mask)
    (hr : th.reads = (pc t).reads+k) (hth : th.writes = false) :
    Held k (Function.update pc t th) := by
  have h := h.of_writes hw
  have hsum := sum_update Thread.reads pc t th
  refine .inl ⟨hk, ?_, Reading.writes_update (fun u hu => ?_) hth⟩
  · rw [h.sum] at hsum
    omega
  · rw [Bool.eq_false_iff]
    exact fun hu' => hu ((h.writes u).mp hu')

end Held

section Safe
variable {ι : Type} [Fintype ι]

structure Safe (x : Word) (n : ℕ) (pc : ι → Thread) : Prop where
  held : Held x.count pc
  locals : ∀ t, Local n (pc t).place
  /-- Whoever downgrades is the only reader, and nobody else can unset the bit. -/
  downgrading : ∀ t, (pc t).place = .unsetReaders →
    x.readers = true ∧ x.count = 1 ∧ 0 < (pc t).reads
  waiting : 0 < x.count → x.count < mask → x.readers = true →
    x.writers = true ∨ ∃ t, (pc t).place = .unsetReaders

variable {x y : Word} {n m : ℕ} {pc pc' : ι → Thread} {t : ι} {th : Thread}

theorem safe_new : Safe ⟨0, false, false⟩ 0 fun _ : ι => ⟨0, false, .outside⟩ := by
  refine ⟨.inl ⟨by decide, ?_, fun _ => rfl⟩, fun _ => trivial, nofun, nofun⟩
  exact Finset.sum_const_zero

theorem Safe.rouse (h : Safe x n pc) (hr : ∀ t, Rouse (pc t) (pc' t)) : Safe x n pc' := by
  have hplace : ∀ t p, (pc' t).place = p → (pc t).place = p ∨
      p = .spinRead true 100 ∨ p = .spinWrite true 100 := by
    rintro t p rfl
    cases hr t with
    | same h => exact .inl (by rw [h])
    | reader _ h => exact .inr (.inl (by rw [h]; rfl))
    | writer _ h => exact .inr (.inr (by rw [h]; rfl))
  constructor
  case held =>
    apply h.held.congr <;> intro t <;> rcases hr t with ht | ⟨-, ht⟩ | ⟨-, ht⟩ <;> rw [ht] <;> rfl
  case locals =>
    intro t
    rcases hplace t _ rfl with hp | hp | hp
    · rw [← hp]
      exact h.locals t
    all_goals rw [hp]; trivial
  case downgrading =>
    intro t ht
    have hp := (hplace t _ ht).resolve_right (by decide)
    obtain ⟨hx, hc, hpos⟩ := h.downgrading t hp
    refine ⟨hx, hc, ?_⟩
    rcases hr t with ht | ⟨-, ht⟩ | ⟨-, ht⟩ <;> rw [ht] <;> exact hpos
  case waiting =>
    intro hpos hlt hx
    refine (h.waiting hpos hlt hx).imp_right fun ⟨t, ht⟩ => ⟨t, ?_⟩
    cases hr t with
    | same h => rw [h, ht]
    | reader hp => cases ht.symm.trans hp
    | writer hp => cases ht.symm.trans hp

theorem Safe.nobodyDowngrades (h : Safe x n pc) (hx : x.readers = true → x.count ≠ 1) (u : ι) :
    (pc u).place ≠ .unsetReaders := by
  intro hu
  obtain ⟨hr, hc, -⟩ := h.downgrading u hu
  exact hx hr hc

variable [DecidableEq ι]

theorem Safe.update (h : Safe x n pc) (hheld : Held y.count (Function.update pc t th)) (hm : n ≤ m)
    (hl : Local m th.place)
    (hth : th.place = .unsetReaders → y.readers = true ∧ y.count = 1 ∧ 0 < th.reads)
    (hothers : ∀ u, u ≠ t → (pc u).place = .unsetReaders → y.readers = true ∧ y.count = 1)
    (hwait : 0 < y.count → y.count < mask → y.readers = true → y.writers = true ∨
      ∃ u, (Function.update pc t th u).place = .unsetReaders) :
    Safe y m (Function.update pc t th) := by
  constructor
  case held => exact hheld
  case locals =>
    exact forall_update (Q := fun th : Thread => Local m th.place) hl
      fun u _ => (h.locals u).mono hm
  case downgrading =>
    intro u hu
    rcases update_cases pc t th u with ⟨rfl, he⟩ | ⟨hne, he⟩ <;> rw [he] at hu ⊢
    · exact hth hu
    · obtain ⟨hr, hc⟩ := hothers u hne hu
      exact ⟨hr, hc, (h.downgrading u hu).2.2⟩
  case waiting => exact hwait

theorem Safe.stay (h : Safe x n pc) {p : Place} (hm : n ≤ m) (hp : (pc t).place ≠ .unsetReaders)
    (hp' : p ≠ .unsetReaders) (hl : Local m p) :
    Safe x m (Function.update pc t ((pc t).go p)) := by
  refine h.update (h.held.keep rfl rfl) hm hl (fun hth => absurd hth hp') ?_ ?_
  · intro u _ hu
    obtain ⟨hr, hc, -⟩ := h.downgrading u hu
    exact ⟨hr, hc⟩
  · intro hpos hlt hr
    refine (h.waiting hpos hlt hr).imp_right fun hex => ?_
    exact exists_update (Q := fun th : Thread => th.place = .unsetReaders) (fun he => absurd he hp) hex

theorem Moves.not_unsets {p q : Place} (h : Moves x n p q) :
    p ≠ .unsetReaders ∧ q ≠ .unsetReaders := by
  cases h <;> exact ⟨nofun, nofun⟩

theorem hasReadersWaiting_or (s : ℕ) : hasReadersWaiting (s ||| readersWaiting) = true := by
  unfold hasReadersWaiting readersWaiting
  rw [Nat.and_two_pow, Nat.testBit_or, Nat.testBit_two_pow_self, Bool.or_true]
  rfl

theorem Moves.local {p q : Place} (h : Moves x n p q) (hl : Local n p) : Local n q := by
  cases h with
  | callRead h => exact h
  | readWait b s => exact hasReadersWaiting_or s
  | examine => exact Nat.le_refl n
  | writeWait m _ _ => exact hl
  | _ => trivial

theorem Safe.readUnlock (h : Safe { y with count := y.count+1 } n pc) (hp : (pc t).place = .outside)
    (hr : 0 < (pc t).reads) : Safe y n (Function.update pc t
      { pc t with reads := (pc t).reads-1, place := afterReadUnlock y }) := by
  have hread := (h.held.of_reads hr).1
  have hnone : ∀ u, (pc u).place ≠ .unsetReaders := by
    intro u hu
    obtain ⟨-, hc, hpos⟩ := h.downgrading u hu
    have hne : u ≠ t := by
      rintro rfl
      cases hu.symm.trans hp
    exact (h.held.two hne hr hpos).ne' hc
  have hwriter : y.readers = true → y.writers = true := by
    intro hy
    refine (h.waiting (Nat.succ_pos _) hread.lt hy).resolve_right ?_
    exact fun ⟨u, hu⟩ => hnone u hu
  refine h.update (h.held.readUnlock hr rfl rfl) le_rfl ?_ ?_ (fun u _ hu => absurd hu (hnone u)) ?_
  · unfold afterReadUnlock
    split_ifs with hf hw
    · rw [Bool.and_eq_true, Bool.not_eq_true'] at hf
      exact absurd (hwriter hf.1) (by rw [hf.2]; decide)
    · rw [Bool.and_eq_true] at hw
      exact (isUnlocked_pack (Nat.le_of_succ_le hread.lt.le)).trans hw.1
    · trivial
  · unfold afterReadUnlock
    split_ifs <;> exact nofun
  · exact fun _ _ hy => .inl (hwriter hy)

theorem Safe.writeUnlock (h : Safe x n pc) (hw : (pc t).writes = true) :
    Safe { x with count := 0 } n (Function.update pc t
      { pc t with writes := false, place := afterWriteUnlock { x with count := 0 } }) := by
  have hmask := (h.held.of_writes hw).eq
  have hnone := h.nobodyDowngrades fun _ => by rw [hmask]; decide
  refine h.update (h.held.writerLeaves hw (k := 0) (by decide) rfl rfl) le_rfl ?_ ?_
    (fun u _ hu => absurd hu (hnone u)) nofun
  · unfold afterWriteUnlock
    split_ifs
    · exact isUnlocked_pack (x := { x with count := 0 }) (Nat.zero_le _)
    · trivial
  · unfold afterWriteUnlock
    split_ifs <;> exact nofun

theorem Safe.downgrade (h : Safe x n pc) (hw : (pc t).writes = true) :
    Safe { x with count := 1 } n (Function.update pc t
      { pc t with reads := (pc t).reads+1, writes := false, place := afterDowngrade x }) := by
  have hmask := (h.held.of_writes hw).eq
  have hnone := h.nobodyDowngrades fun _ => by rw [hmask]; decide
  refine h.update (h.held.writerLeaves hw (k := 1) (by decide) rfl rfl) le_rfl ?_ ?_
    (fun u _ hu => absurd hu (hnone u)) ?_
  · unfold afterDowngrade
    split_ifs <;> trivial
  · unfold afterDowngrade
    split_ifs with hr
    · exact fun _ => ⟨hr, rfl, Nat.succ_pos _⟩
    · exact nofun
  · intro _ _ hr
    refine .inr ⟨t, ?_⟩
    rw [Function.update_self]
    exact if_pos hr

theorem Safe.did (h : Safe x n pc) {wake : Wake Address} (hd : Did x n (pc t) y m wake th) :
    Safe y m (Function.update pc t th) := by
  cases hd with
  | move hp => exact h.stay le_rfl hp.not_unsets.1 hp.not_unsets.2 (hp.local (h.locals t))
  | lockRead hp hc hr =>
    refine h.update (h.held.lockRead hc) le_rfl trivial nofun ?_ ?_
    · intro u _ hu
      exact absurd hu (h.nobodyDowngrades (by rw [hr]; exact nofun) u)
    · exact fun _ _ hr' => absurd (hr.symm.trans hr') nofun
  | setReaders hp hr hw =>
    have hle := h.held.le
    refine h.update (h.held.keep rfl rfl) le_rfl ?_ nofun ?_ ?_
    · exact hasReadersWaiting_pack (x := { x with readers := true }) hle
    · intro u _ hu
      exact absurd hu (h.nobodyDowngrades (by rw [hr]; exact nofun) u)
    · intro _ hlt _
      exact .inl (hw.resolve_right hlt.ne)
  | lockWrite writers hp hc hw =>
    refine h.update ?_ le_rfl trivial nofun ?_ (fun _ hlt => absurd hlt (lt_irrefl mask))
    · exact Held.lockWrite (hc ▸ h.held)
    · intro u _ hu
      exact absurd hu (h.nobodyDowngrades (fun _ => by rw [hc]; decide) u)
  | setWriters hp hc =>
    refine h.update (h.held.keep rfl rfl) le_rfl trivial nofun ?_ (fun _ _ _ => .inl rfl)
    intro u _ hu
    obtain ⟨hr, hc, -⟩ := h.downgrading u hu
    exact ⟨hr, hc⟩
  | readUnlock hp hr hx =>
    subst hx
    exact h.readUnlock hp hr
  | writeUnlock hp hw hy =>
    subst hy
    exact h.writeUnlock hw
  | downgrade hp hw => exact h.downgrade hw
  | unsetReaders hp =>
    obtain ⟨-, hc, hpos⟩ := h.downgrading t hp
    refine h.update (h.held.keep rfl rfl) le_rfl trivial nofun ?_ (fun _ _ hr => nomatch hr)
    -- The count is one, so nobody else holds the lock.
    intro u hne hu
    exact absurd hc (h.held.two hne hpos (h.downgrading u hu).2.2).ne'
  | wakeReaders hp => exact h.stay le_rfl (by rw [hp]; exact nofun) nofun trivial
  | takeWriters hp hx =>
    subst hx
    refine h.update (h.held.keep rfl rfl) le_rfl trivial nofun ?_ nofun
    exact fun u _ hu => absurd hu (h.nobodyDowngrades (fun _ => Nat.zero_ne_one) u)
  | takeBoth hp hx =>
    subst hx
    refine h.update (h.held.keep rfl rfl) le_rfl trivial nofun ?_ nofun
    exact fun u _ hu => absurd hu (h.nobodyDowngrades (fun _ => Nat.zero_ne_one) u)
  | takeReaders hp hx =>
    subst hx
    refine h.update (h.held.keep rfl rfl) le_rfl trivial nofun ?_ nofun
    exact fun u _ hu => absurd hu (h.nobodyDowngrades (fun _ => Nat.zero_ne_one) u)
  | notify hp => exact h.stay (Nat.le_succ n) (by rw [hp]; exact nofun) nofun trivial
  | wakeWriter hp hf =>
    refine h.stay le_rfl (by rw [hp]; exact nofun) ?_ ?_ <;> unfold afterWakeWriter <;> split_ifs
    · exact nofun
    · exact nofun
    · trivial
    · trivial

theorem sleepsOn_eq_none (hp : th.place ≠ .readAsleep ∧ th.place ≠ .writeAsleep) :
    program.sleepsOn th = none := by
  obtain ⟨hr, hw⟩ := hp
  unfold program
  cases h : th.place <;> simp only [h, ne_eq, not_true_eq_false] at hr hw ⊢

theorem Did.awake {wake : Wake Address} {th' : Thread} (h : Did x n th y m wake th') :
    th.place ≠ .readAsleep ∧ th.place ≠ .writeAsleep := by
  cases h with
  | move hp => generalize th.place = p at hp; cases hp <;> exact ⟨nofun, nofun⟩
  | lockRead hp => constructor <;> intro he <;> rw [he] at hp <;> exact hp
  | lockWrite writers hp => constructor <;> intro he <;> rw [he] at hp <;> exact hp
  | _ => rw [‹th.place = _›]; exact ⟨nofun, nofun⟩

/-- A step of the system, on words. -/
inductive Stepped (x : Word) (n : ℕ) (pc : ι → Thread) : Word → ℕ → (ι → Thread) → Prop
  | run (t : ι) (wake : Wake Address) (th : Thread) (pc' : ι → Thread) (y : Word) (m : ℕ)
      (hd : Did x n (pc' t) y m wake th) (hw : program.Woken pc wake pc') :
      Stepped x n pc y m (Function.update pc' t th)
  | spurious (pc' : ι → Thread) (hr : ∀ t, Rouse (pc t) (pc' t)) : Stepped x n pc x n pc'

omit [Fintype ι] in
theorem rouse_of_woken {wake : Wake Address} (h : program.Woken pc wake pc') (t : ι) :
    Rouse (pc t) (pc' t) := by
  rcases h.same_or t with hs | ⟨hs, he⟩
  · exact .same hs
  · rw [he]
    exact rouse_woken hs

omit [DecidableEq ι] in
theorem Safe.done (h : Safe x n pc) (t : ι) :
    ∀ r ∈ steps ⟨x.pack, n⟩ (pc t), Done x n (pc t) r := by
  apply done_steps h.held.le (h.locals t)
  · exact fun hr => (h.held.of_reads hr).2
  · exact fun hw => (h.held.of_writes hw).eq
  · exact fun hu => (h.downgrading t hu).1

theorem Safe.next (h : Safe x n pc) {s : Config ι Shared Thread}
    (hn : program.Next ⟨⟨x.pack, n⟩, pc⟩ s) :
    ∃ y m pc', s = ⟨⟨pack y, m⟩, pc'⟩ ∧ Stepped x n pc y m pc' := by
  cases hn with
  | run t wake g th pc' hstep hw =>
    obtain ⟨y, m, hg, hd⟩ := h.done t _ hstep
    have hsame : pc' t = pc t := by
      refine (hw.same_or t).resolve_right fun ⟨hs, _⟩ => hs (sleepsOn_eq_none hd.awake)
    dsimp only at hg
    rw [hg]
    exact ⟨y, m, _, rfl, .run t wake th pc' y m (hsame ▸ hd) hw⟩
  | spurious t f hs =>
    refine ⟨x, n, _, rfl, .spurious _ fun u => ?_⟩
    rcases update_cases pc t (program.woken (pc t)) u with ⟨rfl, hu⟩ | ⟨-, hu⟩ <;> dsimp only <;> rw [hu]
    · exact rouse_woken (by rw [hs]; exact Option.some_ne_none f)
    · exact .same rfl

theorem Safe.stepped (h : Safe x n pc) (hs : Stepped x n pc y m pc') : Safe y m pc' := by
  cases hs with
  | run t wake th pc' y m hd hw => exact (h.rouse (rouse_of_woken hw)).did hd
  | spurious _ hr => exact h.rouse hr

/-- A word that stands for the state, and the safety of the lock. -/
def IsSafe (s : Config ι Shared Thread) : Prop :=
  ∃ x n, s.shared = ⟨pack x, n⟩ ∧ Safe x n s.pc

theorem isSafe {s : Config ι Shared Thread} (h : program.Reachable (new ι) s) : IsSafe s := by
  apply h.invariant
  · exact ⟨⟨0, false, false⟩, 0, rfl, safe_new⟩
  · rintro ⟨g, pc⟩ s' ⟨x, n, rfl, hs⟩ hn
    obtain ⟨y, m, pc', rfl, hst⟩ := hs.next hn
    exact ⟨y, m, rfl, hs.stepped hst⟩

def Thread.Holds (th : Thread) : Prop := 0 < th.reads ∨ th.writes = true

/-- What the lock guarantees in every reachable state. -/
structure Sound (s : Config ι Shared Thread) : Prop where
  /-- Who holds the lock for writing is the only holder, and holds it once. -/
  exclusive : ∀ t u, (s.pc t).writes = true → (s.pc u).Holds → u = t ∧ (s.pc u).reads = 0
  readLocked : (∀ t, (s.pc t).writes = false) →
    s.shared.state &&& mask = ∑ t, (s.pc t).reads ∧ s.shared.state &&& mask < writeLocked
  writeLocked : ∀ t, (s.pc t).writes = true → s.shared.state &&& mask = writeLocked
  asserts : ∀ t, (s.pc t).place ≠ .failed
  /-- An addition or a subtraction leaves the flag bits alone. -/
  sums : ∀ t, ∀ a ∈ sums s.shared (s.pc t), a.2/2^30 = a.1/2^30
  /-- The subtraction of the flag bit itself finds it set. -/
  unset : ∀ t, (s.pc t).place = .unsetReaders → hasReadersWaiting s.shared.state = true

theorem lockable_sum {state : ℕ}
    (h : isReadLockable state = true ∨ isReadLockableAfterWakeup state = true) :
    (state+readLocked)/2^30 = state/2^30 := by
  have hlt : state &&& mask < maxReaders := by
    unfold isReadLockable isReadLockableAfterWakeup at h
    simp only [Bool.and_eq_true, decide_eq_true_eq] at h
    rcases h with ⟨⟨hlt, -⟩, -⟩ | ⟨⟨⟨hlt, -⟩, -⟩, -⟩ <;> exact hlt
  unfold mask at hlt
  rw [Nat.and_two_pow_sub_one_eq_mod] at hlt
  unfold maxReaders mask at hlt
  unfold readLocked
  omega

theorem unlocked_sum {state : ℕ} (h : isUnlocked state = true) :
    (state+RwLockFutex.writeLocked)/2^30 = state/2^30 := by
  unfold isUnlocked mask at h
  rw [Nat.and_two_pow_sub_one_eq_mod, beq_iff_eq] at h
  unfold RwLockFutex.writeLocked mask
  omega

theorem pack_div_count (hx : x.count ≤ mask) {c : ℕ} (hc : c ≤ mask) :
    pack { x with count := c }/2^30 = x.pack/2^30 := by
  unfold mask at hx hc
  change (2^30*x.flags+c)/2^30 = (2^30*x.flags+x.count)/2^30
  omega

omit [DecidableEq ι] in
theorem Safe.sums (h : Safe x n pc) (t : ι) :
    ∀ a ∈ RwLockFutex.sums ⟨x.pack, n⟩ (pc t), a.2/2^30 = a.1/2^30 := by
  have hl := h.locals t
  have hle := h.held.le
  unfold RwLockFutex.sums
  cases hp : (pc t).place <;> rw [hp] at hl <;> dsimp only <;>
    try exact fun _ ha => absurd ha List.not_mem_nil
  · refine (List.forall_mem_append (p := fun a : ℕ × ℕ => a.2/2^30 = a.1/2^30)).mpr ⟨?_, ?_⟩
    · split_ifs with hr
      · obtain ⟨hread, hpos⟩ := h.held.of_reads hr
        simp only [List.forall_mem_singleton]
        rw [fetchSub_pack (k := readLocked) hpos hle]
        exact pack_div_count hle ((Nat.sub_le ..).trans hle)
      · exact fun _ ha => absurd ha List.not_mem_nil
    · split_ifs with hw
      · have hmask := (h.held.of_writes hw).eq
        simp only [List.forall_mem_cons, List.not_mem_nil, false_imp_iff, implies_true, and_true]
        rw [fetchSub_pack (k := RwLockFutex.writeLocked) hmask.ge hle, fetchAdd_downgrade hmask]
        have hone : 1 ≤ mask := by decide
        exact ⟨pack_div_count hle ((Nat.sub_le ..).trans hle), pack_div_count hle hone⟩
      · exact fun _ ha => absurd ha List.not_mem_nil
  · rw [List.forall_mem_singleton]
    exact lockable_sum (.inl hl)
  · split_ifs with hs
    · rw [List.forall_mem_singleton]
      rw [Bool.or_eq_true, Bool.and_eq_true] at hs
      exact lockable_sum (hs.symm.imp_right And.right)
    · exact fun _ ha => absurd ha List.not_mem_nil
  · split_ifs with hs
    · rw [List.forall_mem_singleton]
      exact lockable_sum (.inl hs)
    · exact fun _ ha => absurd ha List.not_mem_nil
  · split_ifs with hs
    · rw [List.forall_mem_singleton]
      exact unlocked_sum hs
    · exact fun _ ha => absurd ha List.not_mem_nil

omit [DecidableEq ι] in
theorem IsSafe.sound {s : Config ι Shared Thread} (h : IsSafe s) : Sound s := by
  obtain ⟨x, n, hg, h⟩ := h
  obtain ⟨g, pc⟩ := s
  dsimp only at hg h
  subst hg
  have hcount := pack_and_mask h.held.le
  constructor
  case exclusive =>
    intro t u ht hu
    have hw := h.held.of_writes ht
    have hzero : (pc u).reads = 0 := Nat.le_zero.mp (hw.sum ▸ reads_le_sum u)
    refine ⟨?_, hzero⟩
    rcases hu with hr | hu
    · exact absurd hzero hr.ne'
    · exact (hw.writes u).mp hu
  case readLocked =>
    intro hw
    rcases h.held with hr | ⟨t, ht⟩
    · exact ⟨hcount.trans hr.sum.symm, hcount.trans_lt hr.lt⟩
    · exact absurd ((ht.writes t).mpr rfl) (by rw [hw t]; decide)
  case writeLocked => exact fun t ht => hcount.trans (h.held.of_writes ht).eq
  case asserts =>
    intro t ht
    have hl := h.locals t
    dsimp only at ht
    rw [ht] at hl
    exact hl
  case sums => exact h.sums
  case unset =>
    exact fun t ht => (hasReadersWaiting_pack h.held.le).trans (h.downgrading t ht).1

end Safe

end RustStd.RwLockFutex
