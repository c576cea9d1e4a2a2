import RustStd.Sync.ArcCounting

/-!
# Unwinding out of `make_mut`

Cloning the value, cloning the allocator and getting a new block run code of the user, which may
unwind. While the value is cloned the counts are as they were before the call. Where the value is
moved, the strong count is zero already, and the local `_weak` releases the implicit weak reference
on the way out.
-/

set_option autoImplicit false

namespace RustStd.Arc
open RustStd.Machine RustStd.Threads

inductive Unwind (g : Inner) (h : ℕ) : Place → Inner → Place → Prop
  | cloneValue : Unwind g h (.cloneValue h) g .idle
  | cloneAlloc : Unwind g h (.cloneAlloc h) g .idle
  | allocate : Unwind g h (.allocate h) g .dropImplicit

variable {ι : Type}

section Branches

variable {st : Stage} {actor : Option ι} {g g' : Inner} {pc : ι → Place} {t : ι} {p : Place} {h : ℕ}

theorem Unwind.uses {q : Place} (hu : Unwind g h q g' p) : q.uses = some (.arc h, true) := by
  cases hu <;> rfl

theorem Inv.strong_eq_zero (hi : Inv st actor g pc) (hu : Unwind g h (pc t) g' p) :
    pc t = .cloneValue h ∧ g.strong = g.arcs.card ∧ 0 < g.arcs.card ∨
      (pc t).role = some .paused ∧ g.strong = 0 := by
  generalize hq : pc t = q at hu
  cases hu with
  | cloneValue =>
    have huses : (pc t).uses = some (.arc h, true) := by rw [hq]; rfl
    have hrole : (pc t).role = none := by rw [hq]; rfl
    rcases hi.arc_stage huses hrole with rfl | rfl
    · exact .inl ⟨rfl, hi.counts.1, hi.counts.2.1⟩
    · exact .inl ⟨rfl, hi.counts.1, hi.counts.2.1⟩
  | cloneAlloc =>
    have hrole : (pc t).role = some .paused := by rw [hq]; rfl
    obtain rfl := hi.stage_eq hrole
    exact .inr ⟨rfl, hi.counts.1⟩
  | allocate =>
    have hrole : (pc t).role = some .paused := by rw [hq]; rfl
    obtain rfl := hi.stage_eq hrole
    exact .inr ⟨rfl, hi.counts.1⟩

theorem Unwind.inner_eq {q : Place} (hu : Unwind g h q g' p) : g' = g := by
  cases hu <;> rfl

end Branches

variable [DecidableEq ι]

inductive Unwinds (s : Config ι) : Config ι → Prop
  | mk (t : ι) (h : ℕ) (g : Inner) (p : Place) (step : Unwind s.inner h (s.pc t) g p) :
      Unwinds s ⟨g, Function.update s.pc t p⟩

/-- What interleavings reach in which a thread unwinds only while the strong count is not zero. -/
def ReachableCalm (init s : Config ι) : Prop :=
  Relation.ReflTransGen
    (fun s s' => (Next s s' ∨ Unwinds s s' ∧ s.inner.strong ≠ 0) ∧ Few s') init s

structure PanicSafe (s : Config ι) (h : ℕ) : Prop where
  this : h ∈ s.inner.arcs
  strong : s.inner.strong = s.inner.arcs.card
  weak : s.inner.weak = s.inner.weaks.card+1 ∨
    s.inner.weak = usizeMax ∧ ∃ t, (s.pc t).role = some .locked
  /-- Whatever is done afterwards: once no handle is left, the value has been dropped once and the memory
  has been freed once. -/
  afterwards : ∀ s', Reachable s s' → Promises s'

variable {st : Stage} {actor : Option ι} {g g' : Inner} {pc : ι → Place} {t : ι} {p : Place} {h : ℕ}

theorem Inv.unwind (hi : Inv st actor g pc) (hu : Unwind g h (pc t) g' p) (hs : g.strong ≠ 0) :
    Counted g' (Function.update pc t p) := by
  rcases hi.strong_eq_zero hu with ⟨ht, -⟩ | ⟨-, hzero⟩
  · have hrole : (pc t).role = none := by rw [ht]; rfl
    rw [ht] at hu
    cases hu
    exact hi.stay_plain hrole.symm (.inl rfl) trivial
  · exact absurd hzero hs

theorem counted_of_reachableCalm {init s : Config ι} (hinit : Initial init)
    (hr : ReachableCalm init s) : Counted s.inner s.pc ∧ Few s := by
  induction hr with
  | refl => exact counted_of_reachable hinit .refl
  | tail _ hstep ih =>
    obtain ⟨hcounted, hfew⟩ := ih
    obtain ⟨hn | ⟨hu, hs⟩, hfew'⟩ := hstep
    · exact ⟨hcounted.next hfew hn, hfew'⟩
    · obtain ⟨t, k, g, p, step⟩ := hu
      obtain ⟨st, actor, hi⟩ := hcounted
      exact ⟨hi.unwind step hs, hfew'⟩

theorem promises_of_counted {s s' : Config ι} (hc : Counted s.inner s.pc) (hfew : Few s)
    (hr : Reachable s s') : Promises s' := by
  have hcounted : Counted s'.inner s'.pc ∧ Few s' := by
    induction hr with
    | refl => exact ⟨hc, hfew⟩
    | tail _ hstep ih => exact ⟨ih.1.next ih.2 hstep.1, hstep.2⟩
  obtain ⟨⟨st, actor, hi⟩, -⟩ := hcounted
  exact hi.promises

theorem panicSafe_of_cloneValue {s : Config ι} (hi : Inv st actor s.inner s.pc) (hfew : Few s)
    (ht : s.pc t = .cloneValue h) : PanicSafe ⟨s.inner, Function.update s.pc t .idle⟩ h := by
  have huses : (s.pc t).uses = some (.arc h, true) := by rw [ht]; rfl
  have hrole : (s.pc t).role = none := by rw [ht]; rfl
  have hcounted := hi.stay_plain (p := .idle) hrole.symm (.inl rfl) trivial
  refine ⟨(hi.places t).has _ _ huses, ?_, ?_, fun s' hr => ?_⟩
  · rcases hi.arc_stage huses hrole with rfl | rfl
    · exact hi.counts.1
    · exact hi.counts.1
  · rcases hi.arc_stage huses hrole with rfl | rfl
    · exact .inl hi.counts.2.2.1
    · obtain ⟨u, hut, hu⟩ := hi.exists_actor (by simp [Stage.Passive]) hrole
      right
      refine ⟨hi.counts.2.2.1, u, ?_⟩
      dsimp only
      rw [Function.update_of_ne hut]
      exact hu
  · exact promises_of_counted (s := ⟨s.inner, Function.update s.pc t .idle⟩) hcounted hfew hr

/-- Unwinding is safe exactly while the strong count still counts the handle: in the branch that clones
the value because another `Arc` handle exists. Runs with such unwinding only keep all promises. -/
theorem makeMut_panicSafe_iff {init s : Config ι} (hinit : Initial init)
    (hr : ReachableCalm init s) :
    Promises s ∧ ∀ t h g p, Unwind s.inner h (s.pc t) g p →
      (PanicSafe ⟨g, Function.update s.pc t p⟩ h ↔ s.inner.strong ≠ 0) := by
  obtain ⟨⟨st, actor, hi⟩, hfew⟩ := counted_of_reachableCalm hinit hr
  refine ⟨hi.promises, fun t h g p hu => ?_⟩
  have hhas : h ∈ s.inner.arcs := (hi.places t).has _ _ hu.uses
  rcases hi.strong_eq_zero hu with ⟨ht, hstrong, hpos⟩ | ⟨-, hzero⟩
  · rw [ht] at hu
    cases hu
    exact iff_of_true (panicSafe_of_cloneValue hi hfew ht) (by omega)
  · refine iff_of_false (fun hsafe => ?_) (not_not.mpr hzero)
    have hcard : g.strong = g.arcs.card := hsafe.strong
    rw [hu.inner_eq, hzero] at hcard
    exact absurd hcard.symm (Finset.card_pos.mpr ⟨h, hhas⟩).ne'

theorem Reachable.calm {init s : Config ι} (hr : Reachable init s) :
    ReachableCalm init s := by
  induction hr with
  | refl => exact .refl
  | tail _ hstep ih => exact ih.tail ⟨.inl hstep.1, hstep.2⟩

theorem update_unit (p q : Place) : Function.update (fun _ : Unit => p) () q = fun _ => q :=
  funext fun _ => Function.update_self ..

theorem reachable_run {init : Config Unit} {g g' : Inner} {p p' : Place}
    (h : Reachable init ⟨g, fun _ => p⟩) (step : Step g p g' p')
    (few : g'.arcs.card+g'.weaks.card < isizeMax) : Reachable init ⟨g', fun _ => p'⟩ := by
  have hrun := h.run () rfl step few
  rwa [update_unit] at hrun

theorem reachable_begin {init : Config Unit} {g : Inner} {p : Place}
    (h : Reachable init ⟨g, fun _ => .idle⟩) (starts : p.Starts)
    (live : ∀ x e, p.uses = some (x, e) → g.Has x) (few : g.arcs.card+g.weaks.card < isizeMax) :
    Reachable init ⟨g, fun _ => p⟩ := by
  have hbegin := h.begin () p rfl starts live (fun _ => (compatible_of_none rfl).symm) few
  rwa [update_unit] at hbegin

theorem unwinds_unit {g g' : Inner} {p p' : Place} {h : ℕ} (hu : Unwind g h p g' p') :
    Unwinds (⟨g, fun _ => p⟩ : Config Unit) ⟨g', fun _ => p'⟩ := by
  have hmk : Unwinds ⟨g, fun _ : Unit => p⟩ ⟨g', Function.update (fun _ => p) () p'⟩ :=
    .mk () h g' p' hu
  rwa [update_unit] at hmk

theorem makeMut_panicSafe_clone : ∃ s : Config Unit, ReachableCalm (new Unit) s ∧
    s.pc () = .cloneValue 0 ∧ PanicSafe ⟨s.inner, Function.update s.pc () .idle⟩ 0 := by
  have hnew : Reachable (new Unit) ⟨⟨1, 1, {0}, ∅, [], [], 0⟩, fun _ => .idle⟩ := .refl
  have hclone := reachable_begin hnew (show (Place.clone 0).Starts from trivial)
    (by simp [Place.uses, Inner.Has]) (by decide)
  have hcloned := reachable_run hclone (.clone 0 1 (by decide)) (by decide)
  have hmake := reachable_begin hcloned (show (Place.makeMut 0).Starts from trivial)
    (by simp [Place.uses, Inner.Has]) (by decide)
  have hvalue := (reachable_run hmake (.makeMutErr 0 (by decide)) (by decide)).calm
  refine ⟨_, hvalue, rfl, ?_⟩
  exact ((makeMut_panicSafe_iff (.inl rfl) hvalue).2 () 0 _ _ .cloneValue).mpr (by decide)

theorem reachable_cloneAlloc :
    Reachable (new Unit) ⟨⟨0, 2, {0}, {0}, [], [], 0⟩, fun _ => .cloneAlloc 0⟩ := by
  have hnew : Reachable (new Unit) ⟨⟨1, 1, {0}, ∅, [], [], 0⟩, fun _ => .idle⟩ := .refl
  have hload := reachable_begin hnew (show (Place.downgradeLoad 0).Starts from trivial)
    (by simp [Place.uses, Inner.Has]) (by decide)
  have hdowngrade := reachable_run hload (.downgradeLoad 0) (by decide)
  have hweak := reachable_run hdowngrade
    (.downgradeOk 0 1 0 (by decide) (by decide) rfl (by decide)) (by decide)
  have hmake := reachable_begin hweak (show (Place.makeMut 0).Starts from trivial)
    (by simp [Place.uses, Inner.Has]) (by decide)
  have hzero := reachable_run hmake (.makeMutOk 0 rfl) (by decide)
  exact reachable_run hzero (.loadWeak 0) (by decide)

/-- After the allocator has panicked for `_weak`, the handle that is left counts for nothing; after it has
panicked for the new block, the memory is freed although the handle still exists. -/
theorem makeMut_unwinds_badly :
    (∃ s s' : Config Unit, ReachableCalm (new Unit) s ∧ Unwinds s s' ∧ ¬ PanicSafe s' 0) ∧
    ∃ s s' s'' : Config Unit, ReachableCalm (new Unit) s ∧ Unwinds s s' ∧ Reachable s' s'' ∧
      0 ∈ s''.inner.arcs ∧ s''.inner.freed = 1 := by
  have halloc := reachable_cloneAlloc
  refine ⟨⟨_, _, halloc.calm, unwinds_unit .cloneAlloc, fun hsafe => ?_⟩, ?_⟩
  · have hcard : 0 = ({0} : Finset ℕ).card := hsafe.strong
    exact absurd hcard (by decide)
  · have hblock := reachable_run halloc (.cloneAlloc 0) (by decide)
    have hunwound := unwinds_unit (g := ⟨0, 2, {0}, {0}, [], [], 0⟩) (.allocate (h := 0))
    have hrelease := reachable_run .refl (.dropImplicit (g := ⟨0, 2, {0}, {0}, [], [], 0⟩)) (by decide)
    have hdrop := reachable_begin hrelease (show (Place.weakDrop 0).Starts from trivial)
      (by simp [Place.uses, Inner.Has]) (by decide)
    have hdropped := reachable_run hdrop (.weakDrop 0) (by decide)
    have hfreed := reachable_run hdropped .deallocate (by decide)
    exact ⟨_, _, _, hblock.calm, hunwound, hfreed, Finset.mem_singleton_self 0, rfl⟩

end RustStd.Arc
