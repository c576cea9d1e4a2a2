import RustStd.Sync.Once

/-!
# What holds of a Once in every interleaving

`Did` says once what a step can do. The invariant ties the word to the places of
the threads: a thread runs a closure exactly when the state is `RUNNING`, the bit
`QUEUED` is set only while a thread waits that cannot leave, and a sleeper is
owed a wake-up by the bit or by a thread that is about to wake everybody.
-/

set_option autoImplicit false

namespace RustStd.Once
open RustStd.Threads

/-- The words that a `Once` ever holds. -/
def Word (word : ℕ) : Prop := word < 8 ∧ word ≠ complete+queued

instance (word : ℕ) : Decidable (Word word) := inferInstanceAs (Decidable (_ ∧ _))

theorem stateOf_le (word : ℕ) : stateOf word ≤ 3 := Nat.and_le_right

theorem eq_stateOf {word : ℕ} (h : word < 8) : ¬ IsQueued word → word = stateOf word := by
  revert word
  decide

theorem word_queue {word : ℕ} (h : word < 4) :
    stateOf word = word ∧ stateOf (word+queued) = word ∧ IsQueued (word+queued) ∧
      ¬ IsQueued word ∧ (word ≠ complete → Word (word+queued)) := by
  revert word
  decide

theorem eq_complete_iff {word : ℕ} (h : Word word) : stateOf word = complete ↔ word = complete := by
  obtain ⟨h8, h4⟩ := h
  revert word
  decide

theorem word_next (word : ℕ) :
    stateOf (next word) = running ∧ (IsQueued (next word) ↔ IsQueued word) ∧ Word (next word) := by
  unfold next
  by_cases h : IsQueued word
  · rw [if_pos h]
    exact ⟨rfl, iff_of_true (by decide) h, by decide⟩
  · rw [if_neg h]
    exact ⟨rfl, iff_of_false (by decide) h, by decide⟩

def Outside : Pc → Prop
  | .idle => True
  | .answered _ => True
  | .returned _ => True
  | .panicked => True
  | _ => False

/-- The thread has registered itself and not yet given the word back. -/
def Runs : Pc → Prop
  | .running _ => True
  | .swap _ => True
  | _ => False

def Waits (ignore : Bool) : Pc → Prop
  | .load _ i => i = ignore
  | .look _ i _ => i = ignore
  | .futexWait _ i _ => i = ignore
  | .asleep _ i => i = ignore
  | _ => False

def Wakes : Pc → Prop
  | .wakeAll _ => True
  | _ => False

/-- What one step of a thread can do. -/
inductive Did (g : Shared) : Pc → Shared → Wake Unit → Pc → Prop
  | enter {p p' : Pc} (h : Outside p) (h' : p' = .isCompleted ∨ ∃ op i, p' = .load op i) :
      Did g p g .nobody p'
  | answer : Did g .isCompleted g .nobody (.answered (g.stateAndQueued = complete))
  | load (op : Op) (i : Bool) : Did g (.load op i) g .nobody (.look op i g.stateAndQueued)
  | again (op : Op) (i : Bool) (word : ℕ) :
      Did g (.look op i word) g .nobody (.look op i g.stateAndQueued)
  | finish (op : Op) (i : Bool) (word : ℕ) (h : stateOf word = complete) :
      Did g (.look op i word) g .nobody (.returned none)
  | poison (op : Op) (word : ℕ) (h : stateOf word = poisoned) :
      Did g (.look op false word) g .nobody .panicked
  | wait (op : Op) (i : Bool) (word : ℕ) (hp : stateOf word = poisoned → i = true)
      (hq : IsQueued word) : Did g (.look op i word) g .nobody (.futexWait op i word)
  | queue (op : Op) (i : Bool) (word : ℕ) (hc : stateOf word ≠ complete)
      (hp : stateOf word = poisoned → i = true) (hq : ¬ IsQueued word)
      (hw : g.stateAndQueued = stateOf word) :
      Did g (.look op i word) { g with stateAndQueued := word+queued } .nobody
        (.futexWait op i (word+queued))
  | begin (i : Bool) (word : ℕ) (h : stateOf word = incomplete ∨ stateOf word = poisoned)
      (hw : g.stateAndQueued = word) :
      Did g (.look .call i word)
        { g with stateAndQueued := next word } .nobody (.running i)
  | sleep (op : Op) (i : Bool) (expected : ℕ) (h : g.stateAndQueued = expected) :
      Did g (.futexWait op i expected) g .nobody (.asleep op i)
  | changed (op : Op) (i : Bool) (expected : ℕ) (h : g.stateAndQueued ≠ expected) :
      Did g (.futexWait op i expected) g .nobody (.load op i)
  | closure (i : Bool) (outcome : Outcome) :
      Did g (.running i) { g with completed := g.completed || outcome = .returns } .nobody
        (.swap outcome)
  | swap (outcome : Outcome) :
      Did g (.swap outcome) { g with stateAndQueued := outcome.state } .nobody
        (if IsQueued g.stateAndQueued then .wakeAll outcome else outcome.exit)
  | wakeAll (outcome : Outcome) : Did g (.wakeAll outcome) g (.all ()) outcome.exit

theorem did_calls {g g' : Shared} {p p' : Pc} {wake : Wake Unit} (hp : Outside p)
    (h : (g', wake, p') ∈ calls g) : Did g p g' wake p' := by
  simp only [calls, List.mem_cons, List.not_mem_nil, or_false, Prod.mk.injEq] at h
  rcases h with ⟨rfl, rfl, rfl⟩ | ⟨rfl, rfl, rfl⟩ | ⟨rfl, rfl, rfl⟩ | ⟨rfl, rfl, rfl⟩ | ⟨rfl, rfl, rfl⟩
  · exact .enter hp (.inl rfl)
  all_goals exact .enter hp (.inr ⟨_, _, rfl⟩)

theorem did_queueUp {g g' : Shared} {op : Op} {i : Bool} {word : ℕ} {p' : Pc} {wake : Wake Unit}
    (hc : stateOf word ≠ complete) (hp : stateOf word = poisoned → i = true)
    (h : (g', wake, p') ∈ queueUp g op i word) : Did g (.look op i word) g' wake p' := by
  unfold queueUp compareExchangeWeak at h
  split_ifs at h with hq hw <;>
    simp only [List.mem_cons, List.not_mem_nil, or_false, Prod.mk.injEq] at h
  · obtain ⟨rfl, rfl, rfl⟩ := h
    exact .wait op i word hp hq
  · rcases h with ⟨rfl, rfl, rfl⟩ | ⟨rfl, rfl, rfl⟩
    · exact .queue op i word hc hp hq hw
    · exact .again op i word
  · obtain ⟨rfl, rfl, rfl⟩ := h
    exact .again op i word

theorem poisoned_of_not {i : Bool} {v : ℕ} (h : ¬ (v = poisoned ∧ i = false)) :
    v = poisoned → i = true := by
  intro hv
  cases i with
  | false => exact absurd ⟨hv, rfl⟩ h
  | true => rfl

theorem did_lookWait {g g' : Shared} {i : Bool} {word : ℕ} {p' : Pc} {wake : Wake Unit}
    (h : (g', wake, p') ∈ lookWait g i word) : Did g (.look .wait i word) g' wake p' := by
  unfold lookWait at h
  simp only at h
  split_ifs at h with hc hp
  · simp only [List.mem_cons, List.not_mem_nil, or_false, Prod.mk.injEq] at h
    obtain ⟨rfl, rfl, rfl⟩ := h
    exact .finish .wait i word hc
  · simp only [List.mem_cons, List.not_mem_nil, or_false, Prod.mk.injEq] at h
    obtain ⟨rfl, rfl, rfl⟩ := h
    obtain ⟨hp, rfl⟩ := hp
    exact .poison .wait word hp
  · exact did_queueUp hc (poisoned_of_not hp) h

theorem did_lookCall {g g' : Shared} {i : Bool} {word : ℕ} {p' : Pc} {wake : Wake Unit}
    (h : (g', wake, p') ∈ lookCall g i word) : Did g (.look .call i word) g' wake p' := by
  unfold lookCall at h
  simp only at h
  split_ifs at h with hc hp hb hr
  · simp only [List.mem_cons, List.not_mem_nil, or_false, Prod.mk.injEq] at h
    obtain ⟨rfl, rfl, rfl⟩ := h
    exact .finish .call i word hc
  · simp only [List.mem_cons, List.not_mem_nil, or_false, Prod.mk.injEq] at h
    obtain ⟨rfl, rfl, rfl⟩ := h
    obtain ⟨hp, rfl⟩ := hp
    exact .poison .call word hp
  · unfold compareExchangeWeak at h
    split_ifs at h with hw <;>
      simp only [List.mem_cons, List.not_mem_nil, or_false, Prod.mk.injEq] at h
    · rcases h with ⟨rfl, rfl, rfl⟩ | ⟨rfl, rfl, rfl⟩
      · exact .begin i word hb hw
      · exact .again .call i word
    · obtain ⟨rfl, rfl, rfl⟩ := h
      exact .again .call i word
  · -- The state is one of four, so the assertion holds.
    have hle := stateOf_le word
    simp only [complete, incomplete, poisoned, running] at hc hb hr
    omega
  · exact did_queueUp hc (poisoned_of_not hp) h

theorem did_of_mem {g g' : Shared} {p p' : Pc} {wake : Wake Unit}
    (h : (g', wake, p') ∈ steps g p) : Did g p g' wake p' := by
  cases p with
  | idle => exact did_calls trivial h
  | answered b => exact did_calls trivial h
  | returned own => exact did_calls trivial h
  | panicked => exact did_calls trivial h
  | isCompleted =>
    obtain ⟨rfl, rfl, rfl⟩ : g' = g ∧ wake = .nobody ∧ p' = .answered _ := by
      simpa [steps] using h
    exact .answer
  | load op i =>
    obtain ⟨rfl, rfl, rfl⟩ : g' = g ∧ wake = .nobody ∧ p' = .look op i g.stateAndQueued := by
      simpa [steps] using h
    exact .load op i
  | look op i word =>
    cases op with
    | wait => exact did_lookWait h
    | call => exact did_lookCall h
  | futexWait op i expected =>
    change (g', wake, p') ∈ (if g.stateAndQueued = expected then _ else _) at h
    split_ifs at h with hw <;> simp only [List.mem_singleton, Prod.mk.injEq] at h <;>
      obtain ⟨rfl, rfl, rfl⟩ := h
    · exact .sleep op i expected hw
    · exact .changed op i expected hw
  | asleep op i => exact absurd h List.not_mem_nil
  | running i =>
    simp only [steps, List.mem_cons, List.not_mem_nil, or_false, Prod.mk.injEq] at h
    rcases h with ⟨rfl, rfl, rfl⟩ | ⟨rfl, rfl, rfl⟩ | ⟨rfl, rfl, rfl⟩
    · simpa using (.closure i .returns : Did g _ _ _ _)
    · simpa using (.closure i .poisons : Did g' _ _ _ _)
    · simpa using (.closure i .panics : Did g' _ _ _ _)
  | swap outcome =>
    simp only [steps, List.mem_cons, List.not_mem_nil, or_false, Prod.mk.injEq] at h
    obtain ⟨rfl, rfl, rfl⟩ := h
    exact .swap outcome
  | wakeAll outcome =>
    simp only [steps, List.mem_cons, List.not_mem_nil, or_false, Prod.mk.injEq] at h
    obtain ⟨rfl, rfl, rfl⟩ := h
    exact .wakeAll outcome
  | assertFailed => exact absurd h List.not_mem_nil

def Local (g : Shared) : Pc → Prop
  | .look _ _ word => Word word ∧ (stateOf word = complete → g.stateAndQueued = complete) ∧
      (stateOf g.stateAndQueued = incomplete → stateOf word = incomplete)
  | .futexWait _ i expected =>
    Word expected ∧ IsQueued expected ∧ (stateOf expected = poisoned → i = true)
  | .returned none => g.stateAndQueued = complete
  | .returned (some outcome) => outcome = .poisons ∨ g.stateAndQueued = complete
  | .swap outcome => outcome = .returns → g.completed = true
  | .wakeAll outcome => outcome = .returns → g.stateAndQueued = complete
  | .answered b => b = true → g.stateAndQueued = complete
  | .assertFailed => False
  | _ => True

variable {ι : Type}

structure Inv (g : Shared) (pc : ι → Pc) : Prop where
  word : Word g.stateAndQueued
  locals : ∀ t, Local g (pc t)
  unique : ∀ t u, Runs (pc t) → Runs (pc u) → t = u
  runner : stateOf g.stateAndQueued = running ↔ ∃ t, Runs (pc t)
  incomplete_queued : g.stateAndQueued = incomplete+queued → ∃ t i, Waits i (pc t)
  poisoned_queued : g.stateAndQueued = poisoned+queued → ∃ t, Waits true (pc t)
  sleeper : ∀ t op i, pc t = .asleep op i → IsQueued g.stateAndQueued ∨ ∃ u, Wakes (pc u)
  poisoned_sleeper : ∀ t op, pc t = .asleep op false → stateOf g.stateAndQueued = poisoned →
    ∃ u, Wakes (pc u)
  completed : g.completed = true → g.stateAndQueued = complete ∨ ∃ t, pc t = .swap .returns

theorem Inv.not_runs {g : Shared} {pc : ι → Pc} (h : Inv g pc)
    (hs : stateOf g.stateAndQueued ≠ running) (u : ι) : ¬ Runs (pc u) :=
  fun hu => hs (h.runner.mpr ⟨u, hu⟩)

theorem Inv.noneAfter {g : Shared} {pc : ι → Pc} (h : Inv g pc) (hc : g.completed = true) (u : ι) (i : Bool) :
    pc u ≠ .running i := by
  intro hu
  have hr : Runs (pc u) := by
    rw [hu]
    trivial
  rcases h.completed hc with hg | ⟨v, hv⟩
  · exact h.not_runs (by rw [hg]; decide) u hr
  · obtain rfl := h.unique u v hr (by rw [hv]; trivial)
    cases hu.symm.trans hv

theorem exclusive_of {word : ℕ} (h : Word word) (hr : stateOf word ≠ running)
    (hi : word ≠ incomplete+queued) (hp : word ≠ poisoned+queued) :
    word = incomplete ∨ word = poisoned ∨ word = complete := by
  by_cases hq : IsQueued word
  · have hall : ∀ word < 8, IsQueued word → word = complete+queued ∨ stateOf word = running ∨
        word = incomplete+queued ∨ word = poisoned+queued := by decide
    rcases hall word h.1 hq with he | he | he | he
    · exact absurd he h.2
    · exact absurd he hr
    · exact absurd he hi
    · exact absurd he hp
  · have hword := eq_stateOf h.1 hq
    have hle := stateOf_le word
    simp only [incomplete, poisoned, complete, running] at hr ⊢
    omega

theorem Inv.exclusive {g : Shared} {pc : ι → Pc} (h : Inv g pc) (ho : ∀ t, Outside (pc t) ∨ pc t = .isCompleted) :
    g.stateAndQueued = incomplete ∨ g.stateAndQueued = poisoned ∨ g.stateAndQueued = complete := by
  have hout : ∀ u, ¬ Runs (pc u) ∧ ∀ i, ¬ Waits i (pc u) := by
    intro u
    have := ho u
    cases hu : pc u <;> rw [hu] at this <;>
      first | exact ⟨id, fun _ => id⟩ | exact (this.elim id nofun).elim
  apply exclusive_of h.word
  · exact fun hr => (h.runner.mp hr).elim fun u hu => (hout u).1 hu
  · exact fun he => (h.incomplete_queued he).elim fun u ⟨i, hi⟩ => (hout u).2 i hi
  · exact fun he => (h.poisoned_queued he).elim fun u hi => (hout u).2 true hi

theorem inv_new : Inv ⟨incomplete, false⟩ fun _ : ι => .idle := by
  refine ⟨by decide, fun _ => trivial, nofun, ?_, ?_, ?_, nofun, nofun, nofun⟩
  · exact iff_of_false (by decide) nofun
  · exact fun h => absurd h (by decide)
  · exact fun h => absurd h (by decide)

variable [DecidableEq ι] {g : Shared} {pc : ι → Pc} {t : ι} {p : Pc}

theorem runs_update (h : Runs p ↔ Runs (pc t)) (u : ι) :
    Runs (Function.update pc t p u) ↔ Runs (pc u) := by
  rcases update_cases pc t p u with ⟨rfl, hu⟩ | ⟨-, hu⟩ <;> rw [hu]
  exact h

theorem Inv.quiet (h : Inv g pc) (hl : Local g p) (hr : Runs p ↔ Runs (pc t))
    (hk : Wakes (pc t) → Wakes p) (hswap : pc t = .swap .returns → p = .swap .returns)
    (hwait : ∀ i, Waits i (pc t) → Waits i p ∨ g.stateAndQueued = complete ∨
      i = false ∧ stateOf g.stateAndQueued ≠ incomplete)
    (hsleep : ∀ op i, p = .asleep op i → IsQueued g.stateAndQueued ∧
      (stateOf g.stateAndQueued = poisoned → i = true)) :
    Inv g (Function.update pc t p) := by
  have hruns := runs_update hr
  constructor
  case word => exact h.word
  case locals => exact forall_update hl fun u _ => h.locals u
  case unique => exact fun u v hu hv => h.unique u v ((hruns u).mp hu) ((hruns v).mp hv)
  case runner => exact h.runner.trans (exists_congr fun u => (hruns u).symm)
  case incomplete_queued =>
    intro hw
    apply exists_update (Q := fun p => ∃ i, Waits i p) ?_ (h.incomplete_queued hw)
    rintro ⟨i, hi⟩
    rcases hwait i hi with hp | hc | ⟨-, hc⟩
    · exact ⟨i, hp⟩
    · exact absurd (hw.symm.trans hc) (by decide)
    · exact absurd (by rw [hw]; decide) hc
  case poisoned_queued =>
    intro hw
    apply exists_update ?_ (h.poisoned_queued hw)
    intro hi
    rcases hwait true hi with hp | hc | ⟨hc, -⟩
    · exact hp
    · exact absurd (hw.symm.trans hc) (by decide)
    · cases hc
  case sleeper =>
    intro u op i hu
    rcases update_cases pc t p u with ⟨rfl, he⟩ | ⟨-, he⟩
    · exact .inl (hsleep op i (he.symm.trans hu)).1
    · exact (h.sleeper u op i (he.symm.trans hu)).imp_right (exists_update hk)
  case poisoned_sleeper =>
    intro u op hu hw
    rcases update_cases pc t p u with ⟨rfl, he⟩ | ⟨-, he⟩
    · cases (hsleep op false (he.symm.trans hu)).2 hw
    · exact exists_update hk (h.poisoned_sleeper u op (he.symm.trans hu) hw)
  case completed =>
    exact fun hc => (h.completed hc).imp_right (exists_update (Q := (· = Pc.swap .returns)) hswap)

theorem Inv.stay (h : Inv g pc) {q : Pc} (hpc : pc t = q) (hq : ¬ Runs q ∧ ¬ Wakes q)
    (hl : Local g p) (hp : ¬ Runs p ∧ ∀ op i, p ≠ .asleep op i)
    (hwait : ∀ i, Waits i q → Waits i p) : Inv g (Function.update pc t p) := by
  apply h.quiet hl
  · rw [hpc]
    exact iff_of_false hp.1 hq.1
  · rw [hpc]
    exact fun hk => absurd hk hq.2
  · rw [hpc]
    rintro rfl
    exact absurd trivial hq.1
  · rw [hpc]
    exact fun i hi => .inl (hwait i hi)
  · exact fun op i hs => absurd hs (hp.2 op i)

theorem Local.mono {g' : Shared} (h : Local g p)
    (hc : g.stateAndQueued = complete → g'.stateAndQueued = complete)
    (hi : stateOf g'.stateAndQueued = incomplete → stateOf g.stateAndQueued = incomplete)
    (hd : g.completed = true → g'.completed = true) : Local g' p := by
  cases p with
  | look op i word => exact ⟨h.1, fun hs => hc (h.2.1 hs), fun hs => h.2.2 (hi hs)⟩
  | returned own =>
    cases own with
    | none => exact hc h
    | some outcome => exact h.imp_right hc
  | swap outcome => exact fun ho => hd (h ho)
  | wakeAll outcome => exact fun ho => hc (h ho)
  | answered b => exact fun hb => hc (h hb)
  | _ => exact h

/-- The bit is set in a word that keeps its state. -/
theorem Inv.queue (h : Inv g pc) {op : Op} {i : Bool} {word : ℕ} (hpc : pc t = .look op i word)
    (hc : stateOf word ≠ complete) (hp : stateOf word = poisoned → i = true)
    (hq : ¬ IsQueued word) (hw : g.stateAndQueued = stateOf word) :
    Inv { g with stateAndQueued := word+queued }
      (Function.update pc t (.futexWait op i (word+queued))) := by
  have hl := h.locals t
  rw [hpc] at hl
  have hword := eq_stateOf hl.1.1 hq
  have hlt : word < 4 := by
    have := stateOf_le word
    omega
  obtain ⟨-, hstate, hqueued, -, hok⟩ := word_queue hlt
  rw [← hword] at hw hc hp
  have hsame : stateOf (word+queued) = stateOf g.stateAndQueued := by rw [hstate, hw, ← hword]
  have hruns : ∀ u, Runs (Function.update pc t (.futexWait op i (word+queued)) u) ↔ Runs (pc u) :=
    runs_update (by rw [hpc]; exact iff_of_false id id)
  have hwakes : Wakes (pc t) → Wakes (.futexWait op i (word+queued)) := by
    rw [hpc]
    exact id
  have hne : g.stateAndQueued ≠ complete := by rwa [hw]
  constructor
  case word => exact hok hc
  case locals =>
    apply forall_update
    · exact ⟨hok hc, hqueued, by rw [hstate]; exact hp⟩
    · exact fun u _ => (h.locals u).mono (fun hg => absurd hg hne) (fun hs => hsame ▸ hs) id
  case unique => exact fun u v hu hv => h.unique u v ((hruns u).mp hu) ((hruns v).mp hv)
  case runner =>
    rw [hsame]
    exact h.runner.trans (exists_congr fun u => (hruns u).symm)
  case incomplete_queued =>
    intro _
    refine ⟨t, i, ?_⟩
    rw [Function.update_self]
    rfl
  case poisoned_queued =>
    intro he
    refine ⟨t, ?_⟩
    rw [Function.update_self]
    exact hp (Nat.add_right_cancel he)
  case sleeper => exact fun _ _ _ _ => .inl hqueued
  case poisoned_sleeper =>
    intro u op' hu hs
    rcases update_cases pc t (.futexWait op i (word+queued)) u with ⟨-, he⟩ | ⟨-, he⟩
    · cases he.symm.trans hu
    · exact exists_update hwakes (h.poisoned_sleeper u op' (he.symm.trans hu) (hsame ▸ hs))
  case completed =>
    intro hcomp
    rcases h.completed hcomp with hg | hswap
    · exact absurd hg hne
    · refine .inr (exists_update (Q := (· = Pc.swap .returns)) (fun hs => ?_) hswap)
      cases hpc.symm.trans hs

theorem Inv.begin (h : Inv g pc) {i : Bool} {word : ℕ} (hpc : pc t = .look .call i word)
    (hs : stateOf word = incomplete ∨ stateOf word = poisoned) (hw : g.stateAndQueued = word) :
    Inv { g with stateAndQueued := next word } (Function.update pc t (.running i)) := by
  subst hw
  obtain ⟨hstate, hqueued, hok⟩ := word_next g.stateAndQueued
  have hidle : ∀ u, ¬ Runs (pc u) := h.not_runs (by rcases hs with hs | hs <;> rw [hs] <;> decide)
  have hne : g.stateAndQueued ≠ complete := by
    intro hg
    rw [hg] at hs
    exact absurd hs (by decide)
  have hwakes : Wakes (pc t) → Wakes (.running i) := by
    rw [hpc]
    exact id
  constructor
  case word => exact hok
  case locals =>
    apply forall_update
    · trivial
    · refine fun u _ => (h.locals u).mono (fun hg => absurd hg hne) (fun hi => ?_) id
      exact absurd (hstate.symm.trans hi) (by decide)
  case unique =>
    intro u v hu hv
    rcases update_cases pc t (.running i) u with ⟨rfl, -⟩ | ⟨-, he⟩
    · rcases update_cases pc u (.running i) v with ⟨rfl, -⟩ | ⟨-, he⟩
      · rfl
      · exact absurd (he ▸ hv) (hidle v)
    · exact absurd (he ▸ hu) (hidle u)
  case runner =>
    refine iff_of_true hstate ⟨t, ?_⟩
    rw [Function.update_self]
    trivial
  case incomplete_queued =>
    intro he
    exact absurd (hstate.symm.trans (congrArg stateOf he)) (by decide)
  case poisoned_queued =>
    intro he
    exact absurd (hstate.symm.trans (congrArg stateOf he)) (by decide)
  case sleeper =>
    intro u op j hu
    rcases update_cases pc t (.running i) u with ⟨-, he⟩ | ⟨-, he⟩
    · cases he.symm.trans hu
    · exact (h.sleeper u op j (he.symm.trans hu)).imp hqueued.mpr (exists_update hwakes)
  case poisoned_sleeper =>
    intro u op _ he
    exact absurd (hstate.symm.trans he) (by decide)
  case completed =>
    intro hcomp
    rcases h.completed hcomp with hg | ⟨u, hu⟩
    · exact absurd hg hne
    · exact absurd (by rw [hu]; trivial) (hidle u)

theorem Inv.closure (h : Inv g pc) {i : Bool} (hpc : pc t = .running i) (outcome : Outcome) :
    Inv { g with completed := g.completed || outcome = .returns }
      (Function.update pc t (.swap outcome)) := by
  have hruns : ∀ u, Runs (Function.update pc t (.swap outcome) u) ↔ Runs (pc u) :=
    runs_update (by rw [hpc]; exact iff_of_true trivial trivial)
  have hwakes : Wakes (pc t) → Wakes (.swap outcome) := by
    rw [hpc]
    exact id
  have hstate : stateOf g.stateAndQueued = running := h.runner.mpr ⟨t, by rw [hpc]; trivial⟩
  constructor
  case word => exact h.word
  case locals =>
    apply forall_update
    · intro ho
      simp [ho]
    · refine fun u _ => (h.locals u).mono id id fun hd => ?_
      simp [hd]
  case unique => exact fun u v hu hv => h.unique u v ((hruns u).mp hu) ((hruns v).mp hv)
  case runner => exact h.runner.trans (exists_congr fun u => (hruns u).symm)
  case incomplete_queued =>
    intro he
    exact absurd (hstate.symm.trans (congrArg stateOf he)) (by decide)
  case poisoned_queued =>
    intro he
    exact absurd (hstate.symm.trans (congrArg stateOf he)) (by decide)
  case sleeper =>
    intro u op j hu
    rcases update_cases pc t (.swap outcome) u with ⟨-, he⟩ | ⟨-, he⟩
    · cases he.symm.trans hu
    · exact (h.sleeper u op j (he.symm.trans hu)).imp_right (exists_update hwakes)
  case poisoned_sleeper =>
    intro u op _ he
    exact absurd (hstate.symm.trans he) (by decide)
  case completed =>
    intro hcomp
    rw [Bool.or_eq_true] at hcomp
    rcases hcomp with hcomp | ho
    · -- Nobody else can have completed a closure while this one ran.
      rcases h.completed hcomp with hg | ⟨u, hu⟩
      · rw [hg] at hstate
        exact absurd hstate (by decide)
      · obtain rfl := h.unique u t (by rw [hu]; trivial) (by rw [hpc]; trivial)
        cases hpc.symm.trans hu
    · refine .inr ⟨t, ?_⟩
      rw [Function.update_self, of_decide_eq_true ho]

theorem not_runs_exit (outcome : Outcome) : ¬ Runs outcome.exit := by
  cases outcome <;> exact id

/-- The guard gives the word back, and the bit tells it whether to wake. -/
theorem Inv.swap (h : Inv g pc) {outcome : Outcome} (hpc : pc t = .swap outcome) :
    Inv { g with stateAndQueued := outcome.state } (Function.update pc t
      (if IsQueued g.stateAndQueued then .wakeAll outcome else outcome.exit)) := by
  have hstate : stateOf g.stateAndQueued = running := h.runner.mpr ⟨t, by rw [hpc]; trivial⟩
  have hok : Word outcome.state ∧ stateOf outcome.state ≠ running ∧
      stateOf outcome.state ≠ incomplete ∧ outcome.state ≠ incomplete+queued ∧
      outcome.state ≠ poisoned+queued := by
    cases outcome <;> decide
  have hidle : ¬ Runs (if IsQueued g.stateAndQueued then Pc.wakeAll outcome else outcome.exit) := by
    split_ifs
    · exact id
    · exact not_runs_exit outcome
  have hothers : ∀ u, ¬ Runs (Function.update pc t
      (if IsQueued g.stateAndQueued then .wakeAll outcome else outcome.exit) u) := by
    refine fun u hu => ?_
    rcases update_cases pc t (if IsQueued g.stateAndQueued then .wakeAll outcome else outcome.exit) u
      with ⟨-, he⟩ | ⟨hne, he⟩ <;> rw [he] at hu
    · exact hidle hu
    · exact hne (h.unique u t hu (by rw [hpc]; trivial))
  have hsleeper : ∀ u op j, Function.update pc t
      (if IsQueued g.stateAndQueued then .wakeAll outcome else outcome.exit) u = .asleep op j →
      ∃ v, Wakes (Function.update pc t
        (if IsQueued g.stateAndQueued then .wakeAll outcome else outcome.exit) v) := by
    intro u op j hu
    by_cases hq : IsQueued g.stateAndQueued
    · refine ⟨t, ?_⟩
      rw [Function.update_self, if_pos hq]
      trivial
    · rw [if_neg hq] at hu ⊢
      rcases update_cases pc t outcome.exit u with ⟨-, he⟩ | ⟨-, he⟩
      · have := he.symm.trans hu
        cases outcome <;> cases this
      · have hw := (h.sleeper u op j (he.symm.trans hu)).resolve_left hq
        apply exists_update ?_ hw
        rw [hpc]
        exact False.elim
  constructor
  case word => exact hok.1
  case locals =>
    apply forall_update
    · have hl := h.locals t
      rw [hpc] at hl
      split_ifs
      · rintro rfl
        rfl
      · cases outcome with
        | returns => exact .inr rfl
        | poisons => exact .inl rfl
        | panics => trivial
    · refine fun u _ => (h.locals u).mono (fun hg => ?_) (fun hi => absurd hi hok.2.2.1) id
      rw [hg] at hstate
      exact absurd hstate (by decide)
  case unique => exact fun u _ hu => absurd hu (hothers u)
  case runner => exact iff_of_false hok.2.1 fun ⟨u, hu⟩ => hothers u hu
  case incomplete_queued => exact fun he => absurd he hok.2.2.2.1
  case poisoned_queued => exact fun he => absurd he hok.2.2.2.2
  case sleeper => exact fun u op j hu => .inr (hsleeper u op j hu)
  case poisoned_sleeper => exact fun u op hu _ => hsleeper u op false hu
  case completed =>
    intro hcomp
    left
    rcases h.completed hcomp with hg | ⟨u, hu⟩
    · rw [hg] at hstate
      exact absurd hstate (by decide)
    · obtain rfl := h.unique u t (by rw [hu]; trivial) (by rw [hpc]; trivial)
      obtain rfl := Pc.swap.inj (hpc.symm.trans hu)
      rfl

theorem woken_pc {pc pc' : ι → Pc} (h : program.Woken pc (.all ()) pc') (u : ι) :
    (∃ op i, pc u = .asleep op i ∧ pc' u = .load op i) ∨
      (∀ op i, pc u ≠ .asleep op i) ∧ pc' u = pc u := by
  cases h with
  | all _ _ h h' =>
    cases hu : pc u with
    | asleep op i =>
      have := h u (by rw [hu]; rfl)
      rw [hu] at this
      exact .inl ⟨op, i, rfl, this⟩
    | _ =>
      have := h' u (by rw [hu]; exact nofun)
      rw [hu] at this
      exact .inr ⟨nofun, this⟩

theorem Inv.wakeAll (h : Inv g pc) {outcome : Outcome} (hpc : pc t = .wakeAll outcome)
    {pc' : ι → Pc} (hw : program.Woken pc (.all ()) pc') :
    Inv g (Function.update pc' t outcome.exit) := by
  have hcase := woken_pc hw
  have hpc' : pc' t = .wakeAll outcome := by
    rcases hcase t with ⟨op, i, ht, -⟩ | ⟨-, ht⟩
    · cases hpc.symm.trans ht
    · exact ht.trans hpc
  have hruns : ∀ u, Runs (Function.update pc' t outcome.exit u) ↔ Runs (pc u) := by
    intro u
    rcases update_cases pc' t outcome.exit u with ⟨rfl, he⟩ | ⟨-, he⟩ <;> rw [he]
    · rw [hpc]
      exact iff_of_false (not_runs_exit outcome) id
    · rcases hcase u with ⟨op, i, hu, hu'⟩ | ⟨-, hu⟩
      · rw [hu, hu']
        rfl
      · rw [hu]
  have hwaits : ∀ u i, Waits i (pc u) → Waits i (Function.update pc' t outcome.exit u) := by
    intro u i hi
    rcases update_cases pc' t outcome.exit u with ⟨rfl, he⟩ | ⟨-, he⟩ <;> rw [he]
    · rw [hpc] at hi
      exact hi.elim
    · rcases hcase u with ⟨op, j, hu, hu'⟩ | ⟨-, hu⟩
      · rw [hu] at hi
        rw [hu']
        exact hi
      · rwa [hu]
  have hawake : ∀ u op i, Function.update pc' t outcome.exit u ≠ .asleep op i := by
    intro u op i
    rcases update_cases pc' t outcome.exit u with ⟨rfl, he⟩ | ⟨-, he⟩ <;> rw [he]
    · cases outcome <;> exact nofun
    · rcases hcase u with ⟨op', j, -, hu'⟩ | ⟨hne, hu⟩
      · rw [hu']
        exact nofun
      · rw [hu]
        exact hne op i
  constructor
  case word => exact h.word
  case locals =>
    apply forall_update
    · have hl := h.locals t
      rw [hpc] at hl
      cases outcome with
      | returns => exact .inr (hl rfl)
      | poisons => exact .inl rfl
      | panics => trivial
    · intro u _
      rcases hcase u with ⟨op, i, -, hu'⟩ | ⟨-, hu⟩
      · rw [hu']
        trivial
      · rw [hu]
        exact h.locals u
  case unique => exact fun u v hu hv => h.unique u v ((hruns u).mp hu) ((hruns v).mp hv)
  case runner => exact h.runner.trans (exists_congr fun u => (hruns u).symm)
  case incomplete_queued =>
    intro he
    obtain ⟨u, i, hi⟩ := h.incomplete_queued he
    exact ⟨u, i, hwaits u i hi⟩
  case poisoned_queued =>
    intro he
    obtain ⟨u, hi⟩ := h.poisoned_queued he
    exact ⟨u, hwaits u true hi⟩
  case sleeper => exact fun u op i hu => absurd hu (hawake u op i)
  case poisoned_sleeper => exact fun u op hu _ => absurd hu (hawake u op false)
  case completed =>
    refine fun hc => (h.completed hc).imp_right ?_
    rintro ⟨u, hu⟩
    refine ⟨u, ?_⟩
    have hne : u ≠ t := by
      rintro rfl
      cases hpc.symm.trans hu
    rw [Function.update_of_ne hne]
    rcases hcase u with ⟨op, i, hs, -⟩ | ⟨-, hs⟩
    · cases hu.symm.trans hs
    · exact hs.trans hu

theorem Inv.did (h : Inv g pc) {g' : Shared} {wake : Wake Unit} {pc' : ι → Pc}
    (hd : Did g (pc t) g' wake p) (hw : program.Woken pc wake pc') :
    Inv g' (Function.update pc' t p) := by
  have hl := h.locals t
  generalize hpc : pc t = q at hd hl
  cases hd with
  | wakeAll outcome => exact h.wakeAll hpc hw
  | queue op i word hc hp hq he =>
    cases hw
    exact h.queue hpc hc hp hq he
  | begin i word hs he =>
    cases hw
    exact h.begin hpc hs he
  | closure i outcome =>
    cases hw
    exact h.closure hpc outcome
  | swap outcome =>
    cases hw
    exact h.swap hpc
  | enter hq hp =>
    cases hw
    have hq' : (¬ Runs q ∧ ¬ Wakes q) ∧ ∀ i, ¬ Waits i q := by
      cases q <;> first | exact hq.elim | exact ⟨⟨id, id⟩, fun _ => id⟩
    rcases hp with rfl | ⟨op, i, rfl⟩
    · exact h.stay hpc hq'.1 trivial ⟨id, nofun⟩ fun i hi => absurd hi (hq'.2 i)
    · exact h.stay hpc hq'.1 trivial ⟨id, nofun⟩ fun i hi => absurd hi (hq'.2 i)
  | answer =>
    cases hw
    exact h.stay hpc ⟨id, id⟩ (fun hb => of_decide_eq_true hb) ⟨id, nofun⟩ fun _ => False.elim
  | load op i =>
    cases hw
    exact h.stay hpc ⟨id, id⟩ ⟨h.word, (eq_complete_iff h.word).mp, id⟩ ⟨id, nofun⟩ fun _ hi => hi
  | again op i word =>
    cases hw
    exact h.stay hpc ⟨id, id⟩ ⟨h.word, (eq_complete_iff h.word).mp, id⟩ ⟨id, nofun⟩ fun _ hi => hi
  | wait op i word hp hq =>
    cases hw
    exact h.stay hpc ⟨id, id⟩ ⟨hl.1, hq, hp⟩ ⟨id, nofun⟩ fun _ hi => hi
  | changed op i expected he =>
    cases hw
    exact h.stay hpc ⟨id, id⟩ trivial ⟨id, nofun⟩ fun _ hi => hi
  | finish op i word hc =>
    cases hw
    have hg := hl.2.1 hc
    apply h.quiet
    · exact hg
    · rw [hpc]
      exact iff_of_false id id
    · rw [hpc]
      exact id
    · rw [hpc]
      exact nofun
    · exact fun _ _ => .inr (.inl hg)
    · exact nofun
  | poison op word hp =>
    cases hw
    apply h.quiet
    · trivial
    · rw [hpc]
      exact iff_of_false id id
    · rw [hpc]
      exact id
    · rw [hpc]
      exact nofun
    · -- Who ignores poisoning stays, and in the state INCOMPLETE nobody leaves.
      rw [hpc]
      refine fun i hi => .inr (.inr ⟨Eq.symm hi, fun hg => ?_⟩)
      exact absurd (hp.symm.trans (hl.2.2 hg)) (by decide)
    · exact nofun
  | sleep op i expected he =>
    cases hw
    subst he
    apply h.quiet
    · trivial
    · rw [hpc]
      exact iff_of_false id id
    · rw [hpc]
      exact id
    · rw [hpc]
      exact nofun
    · rw [hpc]
      exact fun _ hi => .inl hi
    · intro op' i' hs
      obtain ⟨rfl, rfl⟩ := Pc.asleep.inj hs
      exact hl.2

theorem Inv.next {s s' : Config ι Shared Pc} (h : Inv s.shared s.pc) (hn : program.Next s s') :
    Inv s'.shared s'.pc := by
  cases hn with
  | run t wake g p pc step woken => exact h.did (did_of_mem step) woken
  | spurious t f asleep =>
    cases hpc : s.pc t with
    | asleep op i => exact h.stay hpc ⟨id, id⟩ trivial ⟨id, nofun⟩ fun _ hi => hi
    | _ =>
      rw [hpc] at asleep
      cases asleep

theorem inv_of_reachable {s : Config ι Shared Pc} (h : program.Reachable (new ι) s) :
    Inv s.shared s.pc :=
  h.invariant (I := fun s => Inv s.shared s.pc) inv_new fun _ _ hi hn => hi.next hn

theorem complete_stays {s s' : Config ι Shared Pc} (h : Inv s.shared s.pc)
    (hn : program.Next s s') (hc : s.shared.stateAndQueued = complete) :
    s'.shared.stateAndQueued = complete := by
  cases hn with
  | spurious t f asleep => exact hc
  | run t wake g p pc step woken =>
    have hl := h.locals t
    have hd := did_of_mem step
    generalize hpc : s.pc t = q at hl hd
    cases hd with
    | queue op i word hs hp hq he => exact absurd (he.symm.trans hc) hs
    | begin i word hs he =>
      rw [← he, hc] at hs
      exact absurd hs (by decide)
    | swap outcome =>
      have hr : stateOf s.shared.stateAndQueued = running := h.runner.mpr ⟨t, by rw [hpc]; trivial⟩
      rw [hc] at hr
      exact absurd hr (by decide)
    | _ => exact hc

/-- The state was COMPLETE at some point of a run that ends in `s`. -/
def HasBeenComplete (s : Config ι Shared Pc) : Prop :=
  ∃ s₀, program.Reachable (new ι) s₀ ∧ program.Reachable s₀ s ∧
    s₀.shared.stateAndQueued = complete

theorem HasBeenComplete.is {s : Config ι Shared Pc} (h : HasBeenComplete s) :
    s.shared.stateAndQueued = complete := by
  obtain ⟨s₀, h₀, hs, hc⟩ := h
  have := hs.invariant (I := fun s => Inv s.shared s.pc ∧ s.shared.stateAndQueued = complete)
    ⟨inv_of_reachable h₀, hc⟩ fun _ _ hi hn => ⟨hi.1.next hn, complete_stays hi.1 hn hi.2⟩
  exact this.2

/-- What a `Once` promises in a state. -/
structure Promises (s : Config ι Shared Pc) : Prop where
  oneClosure : ∀ t u i j, s.pc t = .running i → s.pc u = .running j → t = u
  noneAfter : s.shared.completed = true → ∀ t i, s.pc t ≠ .running i
  returned : ∀ t own, s.pc t = .returned own → HasBeenComplete s ∨ own = some .poisons
  notQueued : s.shared.stateAndQueued ≠ complete+queued
  asserted : ∀ t, s.pc t ≠ .assertFailed
  exclusive : (∀ t, Outside (s.pc t) ∨ s.pc t = .isCompleted) →
    s.shared.stateAndQueued = incomplete ∨ s.shared.stateAndQueued = poisoned ∨
      s.shared.stateAndQueued = complete
  woken : ∀ t op i, s.pc t = .asleep op i →
    stateOf s.shared.stateAndQueued = complete ∨
      stateOf s.shared.stateAndQueued = poisoned ∧ i = false → ∃ u, Wakes (s.pc u)

theorem once_promises {s : Config ι Shared Pc} (h : program.Reachable (new ι) s) : Promises s := by
  have hi := inv_of_reachable h
  constructor
  case oneClosure =>
    exact fun t u i j ht hu => hi.unique t u (by rw [ht]; trivial) (by rw [hu]; trivial)
  case noneAfter => exact fun hc t i => hi.noneAfter hc t i
  case returned =>
    intro t own ht
    have hl := hi.locals t
    rw [ht] at hl
    have hbeen : s.shared.stateAndQueued = complete → HasBeenComplete s :=
      fun hc => ⟨s, h, .refl, hc⟩
    cases own with
    | none => exact .inl (hbeen hl)
    | some outcome => exact hl.symm.imp hbeen fun ho => by rw [ho]
  case notQueued => exact hi.word.2
  case asserted =>
    intro t ht
    have hl := hi.locals t
    rwa [ht] at hl
  case exclusive => exact hi.exclusive
  case woken =>
    rintro t op i ht (hc | ⟨hp, rfl⟩)
    · refine (hi.sleeper t op i ht).resolve_left fun hq => ?_
      rw [(eq_complete_iff hi.word).mp hc] at hq
      exact absurd hq (by decide)
    · exact hi.poisoned_sleeper t op ht hp

theorem reachable_run {init s : Config ι Shared Pc} (h : program.Reachable init s) (t : ι) {g : Shared}
    {p : Pc} (hp : (g, .nobody, p) ∈ steps s.shared (s.pc t)) :
    program.Reachable init ⟨g, Function.update s.pc t p⟩ :=
  h.next (.run t .nobody g p s.pc hp (.nobody))

theorem reachable_poisons : ∃ s : Config Unit Shared Pc, program.Reachable (new Unit) s ∧
    s.pc () = .returned (some .poisons) ∧ s.shared.stateAndQueued = poisoned := by
  have h₀ : program.Reachable (new Unit) (new Unit) := .refl
  have h₁ := reachable_run h₀ () (g := ⟨incomplete, false⟩) (p := .load .call false) (by decide)
  have h₂ := reachable_run h₁ () (g := ⟨incomplete, false⟩) (p := .look .call false incomplete)
    (by decide)
  have h₃ := reachable_run h₂ () (g := ⟨running, false⟩) (p := .running false) (by decide)
  have h₄ := reachable_run h₃ () (g := ⟨running, false⟩) (p := .swap .poisons) (by decide)
  have h₅ := reachable_run h₄ () (g := ⟨poisoned, false⟩) (p := .returned (some .poisons)) (by decide)
  exact ⟨_, h₅, rfl, rfl⟩

/-- One thread waits for the closure of the other, and is woken. -/
theorem once_promises_witness : ∃ s s' : Config (Fin 2) Shared Pc,
    s.pc 0 = .wakeAll .returns ∧ s.pc 1 = .asleep .wait false ∧ Promises s ∧
      s'.pc 0 = .returned (some .returns) ∧ s'.pc 1 = .returned none ∧ Promises s' := by
  have h₀ : program.Reachable (new (Fin 2)) (new (Fin 2)) := .refl
  have h₁ := reachable_run h₀ 0 (g := ⟨incomplete, false⟩) (p := .load .call false) (by decide)
  have h₂ := reachable_run h₁ 0 (g := ⟨incomplete, false⟩) (p := .look .call false incomplete)
    (by decide)
  have h₃ := reachable_run h₂ 1 (g := ⟨incomplete, false⟩) (p := .load .wait false) (by decide)
  have h₄ := reachable_run h₃ 0 (g := ⟨running, false⟩) (p := .running false) (by decide)
  have h₅ := reachable_run h₄ 1 (g := ⟨running, false⟩) (p := .look .wait false running) (by decide)
  have h₆ := reachable_run h₅ 1 (g := ⟨running+queued, false⟩)
    (p := .futexWait .wait false (running+queued)) (by decide)
  have h₇ := reachable_run h₆ 0 (g := ⟨running+queued, true⟩) (p := .swap .returns) (by decide)
  have h₈ := reachable_run h₇ 1 (g := ⟨running+queued, true⟩) (p := .asleep .wait false) (by decide)
  have h₉ := reachable_run h₈ 0 (g := ⟨complete, true⟩) (p := .wakeAll .returns) (by decide)
  have hall : (⟨complete, true⟩, .all (), .returned (some .returns)) ∈
      steps ⟨complete, true⟩ (.wakeAll .returns) := by decide
  have h₁₀ := h₉.next (.run 0 _ _ _ ![.wakeAll .returns, .load .wait false] hall
    (.all () _ (by decide) (by decide)))
  have h₁₁ := reachable_run h₁₀ 1 (g := ⟨complete, true⟩) (p := .look .wait false complete)
    (by decide)
  have h₁₂ := reachable_run h₁₁ 1 (g := ⟨complete, true⟩) (p := .returned none) (by decide)
  exact ⟨_, _, rfl, rfl, once_promises h₉, rfl, rfl, once_promises h₁₂⟩

/-- Its `call` returns normally, and the state has never been COMPLETE. -/
theorem once_returns_incomplete : ¬ ∀ s : Config Unit Shared Pc, program.Reachable (new Unit) s →
    ∀ t own, s.pc t = .returned own → HasBeenComplete s := by
  intro hall
  obtain ⟨s, h, hp, hw⟩ := reachable_poisons
  exact absurd ((hall s h () _ hp).is.symm.trans hw) (by decide)

end RustStd.Once
