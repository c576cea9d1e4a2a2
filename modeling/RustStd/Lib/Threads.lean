import Mathlib

/-!
# Threads that interleave

Any number of threads run one program over shared memory. A step of a thread is
one atomic access: it may change the memory and the thread's own place in the
program, and it may wake threads that sleep on an address. A sleeper may also
wake for no reason. An invariant of all reachable states is proved step by step.
-/

set_option autoImplicit false

namespace RustStd.Threads

/-- What a step does to the sleepers on an address. A step that wakes one learns
whether it has found one. -/
inductive Wake (F : Type)
  | nobody
  | one (address : F) (found : Bool)
  | all (address : F)
  deriving DecidableEq

/-- `G` is the memory, `P` a place in the program with its local variables and
`F` the addresses to sleep on. -/
structure Program (G P F : Type) where
  Step : G → P → Wake F → G → P → Prop
  sleepsOn : P → Option F
  woken : P → P

structure Config (ι G P : Type) where
  shared : G
  pc : ι → P

variable {ι G P F : Type} [DecidableEq ι]

namespace Program

variable (prog : Program G P F)

inductive Woken (pc : ι → P) : Wake F → (ι → P) → Prop
  | nobody : Woken pc .nobody pc
  | noSleeper (f : F) (h : ∀ t, prog.sleepsOn (pc t) ≠ some f) : Woken pc (.one f false) pc
  | one (f : F) (t : ι) (h : prog.sleepsOn (pc t) = some f) :
      Woken pc (.one f true) (Function.update pc t (prog.woken (pc t)))
  | all (f : F) (pc' : ι → P) (h : ∀ t, prog.sleepsOn (pc t) = some f → pc' t = prog.woken (pc t))
      (h' : ∀ t, prog.sleepsOn (pc t) ≠ some f → pc' t = pc t) : Woken pc (.all f) pc'

inductive Next (s : Config ι G P) : Config ι G P → Prop
  | run (t : ι) (wake : Wake F) (g : G) (p : P) (pc : ι → P)
      (step : prog.Step s.shared (s.pc t) wake g p) (woken : prog.Woken s.pc wake pc) :
      Next s ⟨g, Function.update pc t p⟩
  | spurious (t : ι) (f : F) (asleep : prog.sleepsOn (s.pc t) = some f) :
      Next s ⟨s.shared, Function.update s.pc t (prog.woken (s.pc t))⟩

def Reachable (init s : Config ι G P) : Prop := Relation.ReflTransGen prog.Next init s

def ReachableVia (C : Config ι G P → Config ι G P → Prop) (init s : Config ι G P) : Prop :=
  Relation.ReflTransGen (fun s s' => prog.Next s s' ∧ C s s') init s

variable {prog}

theorem Reachable.invariant {I : Config ι G P → Prop} {init s : Config ι G P}
    (h : prog.Reachable init s) (hinit : I init) (hnext : ∀ s s', I s → prog.Next s s' → I s') :
    I s := by
  induction h with
  | refl => exact hinit
  | tail _ hn ih => exact hnext _ _ ih hn

theorem ReachableVia.reachable {C : Config ι G P → Config ι G P → Prop} {init s : Config ι G P}
    (h : prog.ReachableVia C init s) : prog.Reachable init s := by
  induction h with
  | refl => exact .refl
  | tail _ hn ih => exact ih.tail hn.1

theorem ReachableVia.invariant {C : Config ι G P → Config ι G P → Prop} {I : Config ι G P → Prop}
    {init s : Config ι G P} (h : prog.ReachableVia C init s) (hinit : I init)
    (hnext : ∀ s s', prog.Reachable init s → I s → prog.Next s s' → C s s' → I s') : I s := by
  induction h with
  | refl => exact hinit
  | tail hs hn ih => exact hnext _ _ (ReachableVia.reachable hs) ih hn.1 hn.2

theorem Woken.same_or {pc pc' : ι → P} {wake : Wake F} (h : prog.Woken pc wake pc') (t : ι) :
    pc' t = pc t ∨ prog.sleepsOn (pc t) ≠ none ∧ pc' t = prog.woken (pc t) := by
  cases h with
  | nobody => exact .inl rfl
  | noSleeper f h => exact .inl rfl
  | one f u h =>
    rcases eq_or_ne t u with rfl | hne
    · refine .inr ⟨?_, Function.update_self ..⟩
      rw [h]
      exact Option.some_ne_none f
    · exact .inl (Function.update_of_ne hne ..)
  | all f pc' h h' =>
    by_cases ht : prog.sleepsOn (pc t) = some f
    · refine .inr ⟨?_, h t ht⟩
      rw [ht]
      exact Option.some_ne_none f
    · exact .inl (h' t ht)

theorem Reachable.next {init s s' : Config ι G P} (h : prog.Reachable init s)
    (hn : prog.Next s s') : prog.Reachable init s' :=
  Relation.ReflTransGen.tail h hn

end Program

theorem update_cases (pc : ι → P) (t : ι) (p : P) (u : ι) :
    u = t ∧ Function.update pc t p u = p ∨ u ≠ t ∧ Function.update pc t p u = pc u := by
  rcases eq_or_ne u t with rfl | hu
  · exact .inl ⟨rfl, Function.update_self ..⟩
  · exact .inr ⟨hu, Function.update_of_ne hu ..⟩

theorem forall_update {Q : P → Prop} {pc : ι → P} {t : ι} {p : P} (hp : Q p)
    (h : ∀ u, u ≠ t → Q (pc u)) (u : ι) : Q (Function.update pc t p u) := by
  rcases update_cases pc t p u with ⟨-, hu⟩ | ⟨hne, hu⟩ <;> rw [hu]
  · exact hp
  · exact h u hne

theorem exists_update {Q : P → Prop} {pc : ι → P} {t : ι} {p : P} (hp : Q (pc t) → Q p)
    (h : ∃ u, Q (pc u)) : ∃ u, Q (Function.update pc t p u) := by
  obtain ⟨u, hu⟩ := h
  refine ⟨u, ?_⟩
  rcases update_cases pc t p u with ⟨rfl, he⟩ | ⟨-, he⟩ <;> rw [he]
  · exact hp hu
  · exact hu

/-- No two threads have the same key, if the one that steps keeps its key or takes
one that nobody else has. -/
theorem unique_update {K : Type} (f : P → Option K) {pc : ι → P} {t : ι} {p : P}
    (h : ∀ u v k, f (pc u) = some k → f (pc v) = some k → u = v)
    (hp : ∀ k, f p = some k → f (pc t) = some k ∨ ∀ u, u ≠ t → f (pc u) ≠ some k) (u v : ι)
    (k : K) (hu : f (Function.update pc t p u) = some k)
    (hv : f (Function.update pc t p v) = some k) : u = v := by
  have hnew : ∀ w, w ≠ t → f (pc w) = some k → f p ≠ some k := by
    intro w hne hw hk
    rcases hp k hk with ht | hnone
    · exact hne (h w t k hw ht)
    · exact hnone w hne hw
  rcases update_cases pc t p u with ⟨rfl, he⟩ | ⟨hne, he⟩ <;> rw [he] at hu
  · rcases update_cases pc u p v with ⟨rfl, -⟩ | ⟨hne, he⟩
    · rfl
    · rw [he] at hv
      exact absurd hu (hnew v hne hv)
  · rcases update_cases pc t p v with ⟨rfl, he⟩ | ⟨-, he⟩ <;> rw [he] at hv
    · exact absurd hv (hnew u hne hu)
    · exact h u v k hu hv

theorem sum_update [Fintype ι] (f : P → ℕ) (pc : ι → P) (t : ι) (p : P) :
    ∑ u, f (Function.update pc t p u)+f (pc t) = ∑ u, f (pc u)+f p := by
  rw [← Finset.add_sum_erase _ _ (Finset.mem_univ t),
    ← Finset.add_sum_erase _ (fun u => f (pc u)) (Finset.mem_univ t)]
  have hrest : ∑ u ∈ Finset.univ.erase t, f (Function.update pc t p u) =
      ∑ u ∈ Finset.univ.erase t, f (pc u) := by
    apply Finset.sum_congr rfl
    intro u hu
    rw [Function.update_of_ne (Finset.ne_of_mem_erase hu)]
  rw [hrest, Function.update_self]
  omega

end RustStd.Threads
