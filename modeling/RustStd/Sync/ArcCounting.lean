import RustStd.Sync.Arc

/-!
# What the counts of `Arc` say

An allocation goes through stages. While it is shared, the strong count is the
number of `Arc` handles and the weak count is one more than the number of `Weak`
handles. In the stages with an actor one thread has something to finish first:
`is_unique` has locked the weak count, `make_mut` has taken the strong count to
zero, or the last handle is gone and the value, the implicit weak reference or the
memory is still to be given up.
-/

set_option autoImplicit false

namespace RustStd.Arc
open RustStd.Machine RustStd.Threads

inductive Stage
  | shared
  | locked
  | paused
  | ending
  | releasing
  | closed
  | freeing
  | freed
  deriving DecidableEq, Repr

/-- The stage that the allocation is in as long as a thread is at the place. -/
def Place.role : Place → Option Stage
  | .uniqueLoad _ _ | .uniqueStore _ _ _ => some .locked
  | .loadWeak _ | .cloneAlloc _ | .allocate _ | .moveValue _ | .storeStrong _ => some .paused
  | .dropValue _ | .takeValue _ => some .ending
  | .dropImplicit => some .releasing
  | .deallocate => some .freeing
  | _ => none

/-- The counters, the handles and the value in a stage. -/
def Counts (g : Inner) : Stage → Prop
  | .shared => g.strong = g.arcs.card ∧ 0 < g.arcs.card ∧ g.weak = g.weaks.card+1 ∧
      g.ended = [] ∧ g.freed = 0
  | .locked => g.strong = g.arcs.card ∧ 0 < g.arcs.card ∧ g.weak = usizeMax ∧ g.weaks = ∅ ∧
      g.ended = [] ∧ g.freed = 0
  | .paused => g.strong = 0 ∧ g.arcs.card = 1 ∧ g.weak = g.weaks.card+1 ∧ g.ended = [] ∧ g.freed = 0
  | .ending => g.strong = 0 ∧ g.arcs = ∅ ∧ g.weak = g.weaks.card+1 ∧ g.ended = [] ∧ g.freed = 0
  | .releasing => g.strong = 0 ∧ g.arcs = ∅ ∧ g.weak = g.weaks.card+1 ∧ g.ended.length = 1 ∧
      g.freed = 0
  | .closed => g.strong = 0 ∧ g.arcs = ∅ ∧ g.weak = g.weaks.card ∧ 0 < g.weaks.card ∧
      g.ended.length = 1 ∧ g.freed = 0
  | .freeing => g.arcs = ∅ ∧ g.weaks = ∅ ∧ g.ended.length = 1 ∧ g.freed = 0
  | .freed => g.arcs = ∅ ∧ g.weaks = ∅ ∧ g.ended.length = 1 ∧ g.freed = 1

/-- Places where the handle in use is the only one of either kind. -/
def Place.Sole : Place → Prop
  | .uniqueStore _ getMut unique => getMut = true ∧ unique = true
  | .storeStrong _ => True
  | .borrowed _ => True
  | _ => False

/-- What a thread may rely on at its place. -/
structure Local (g : Inner) (p : Place) : Prop where
  has : ∀ x e, p.uses = some (x, e) → g.Has x
  sole : p.Sole → g.arcs.card = 1 ∧ g.weaks = ∅
  given : ∀ op, p = .dropValue op ∨ p = .takeValue op → op ∈ g.given
  downgrade : ∀ h cur, p = .downgrade h cur → cur = usizeMax ∨ cur ≤ maxRefcount
  upgrade : ∀ w n, p = .upgrade w n → n ≤ maxRefcount
  ok : p ≠ .failed

structure Inv {ι : Type} (st : Stage) (actor : Option ι) (g : Inner) (pc : ι → Place) : Prop where
  counts : Counts g st
  role : ∀ t, actor = some t → (pc t).role = some st
  noRole : ∀ t, actor ≠ some t → (pc t).role = none
  /-- Who acts in the stage. -/
  acts : actor.isSome ↔ st = .locked ∨ st = .paused ∨ st = .ending ∨ st = .releasing ∨ st = .freeing
  compatible : ∀ t u, t ≠ u → Compatible (pc t) (pc u)
  places : ∀ t, Local g (pc t)
  ended : ∀ op ∈ g.ended, op ∈ g.given

/-- No thread has something to finish in the stage. -/
def Stage.Passive (st : Stage) : Prop := st = .shared ∨ st = .closed ∨ st = .freed

variable {ι : Type} {st st' : Stage} {actor : Option ι} {g g' : Inner}
  {pc : ι → Place} {t u : ι} {p q : Place} {x : Handle} {e e' : Bool} {k : ℕ}

theorem Compatible.symm (h : Compatible p q) : Compatible q p :=
  fun x e e' hq hp => (h x e' e hp hq).symm

theorem compatible_of_none (h : p.uses = none) : Compatible q p := by
  intro x e e' _ hp
  rw [h] at hp
  cases hp

theorem Place.Sole.uses (h : p.Sole) : ∃ k, p.uses = some (.arc k, true) := by
  cases p with
  | uniqueStore k getMut unique =>
    obtain ⟨rfl, -⟩ := h
    exact ⟨k, rfl⟩
  | storeStrong k => exact ⟨k, rfl⟩
  | borrowed k => exact ⟨k, rfl⟩
  | _ => exact h.elim

theorem Local.of_idle : Local g .idle := by
  constructor <;> simp [Place.uses, Place.Sole]

def Place.Plain : Place → Prop
  | .uniqueStore _ _ _ | .storeStrong _ | .borrowed _ | .dropValue _ | .takeValue _
  | .downgrade _ _ | .upgrade _ _ | .failed => False
  | _ => True

theorem Place.Plain.not_sole (hp : p.Plain) : ¬ p.Sole := by
  intro hs
  cases p with
  | uniqueStore _ _ _ => exact hp
  | storeStrong _ => exact hp
  | borrowed _ => exact hp
  | _ => exact hs

theorem Local.of_plain (hp : p.Plain) (hhas : ∀ x e, p.uses = some (x, e) → g.Has x) :
    Local g p := by
  constructor
  · exact hhas
  · intro hs
    exact absurd hs hp.not_sole
  · rintro op (rfl | rfl) <;> exact hp.elim
  · rintro h cur rfl
    exact hp.elim
  · rintro w n rfl
    exact hp.elim
  · rintro rfl
    exact hp

theorem Local.mono (h : Local g p) (hhas : ∀ x e, p.uses = some (x, e) → g'.Has x)
    (hsole : p.Sole → g'.arcs = g.arcs ∧ g'.weaks = g.weaks) (hgiven : g.given ⊆ g'.given) :
    Local g' p := by
  constructor
  · exact hhas
  · intro hs
    rw [(hsole hs).1, (hsole hs).2]
    exact h.sole hs
  · exact fun op hop => hgiven (h.given op hop)
  · exact h.downgrade
  · exact h.upgrade
  · exact h.ok

theorem uses_of_paused (h : p.role = some .paused) : ∃ k, p.uses = some (.arc k, true) := by
  cases p with
  | loadWeak k => exact ⟨k, rfl⟩
  | cloneAlloc k => exact ⟨k, rfl⟩
  | allocate k => exact ⟨k, rfl⟩
  | moveValue k => exact ⟨k, rfl⟩
  | storeStrong k => exact ⟨k, rfl⟩
  | _ => cases h

theorem uses_of_locked (h : p.role = some .locked) : ∃ k e, p.uses = some (.arc k, e) := by
  cases p with
  | uniqueLoad k getMut => exact ⟨k, getMut, rfl⟩
  | uniqueStore k getMut unique => exact ⟨k, getMut, rfl⟩
  | _ => cases h

namespace Inv

theorem new : Inv .shared none (Arc.new ι).inner (Arc.new ι).pc := by
  constructor
  · simp [Counts, Arc.new]
  · simp
  · simp [Arc.new, Place.role]
  · simp
  · simp [Arc.new, Compatible, Place.uses]
  · exact fun t => .of_idle
  · simp [Arc.new]

theorem others_use (h : Inv st actor g pc) (ht : (pc t).uses = some (x, true)) (hne : u ≠ t) :
    (pc u).uses ≠ some (x, e) := by
  intro hu
  have := (h.compatible u t hne x e true hu ht).2
  cases this

theorem sole_others (h : Inv st actor g pc) (ht : (pc t).Sole) (hne : u ≠ t) :
    (pc u).uses = none := by
  obtain ⟨k, hk⟩ := ht.uses
  obtain ⟨harcs, hweaks⟩ := (h.places t).sole ht
  cases hu : (pc u).uses with
  | none => rfl
  | some y =>
    obtain ⟨y, e⟩ := y
    have hhas := (h.places u).has y e hu
    cases y with
    | arc j =>
      obtain ⟨i, hi⟩ := Finset.card_eq_one.mp harcs
      have hj : j = i := by
        have : j ∈ g.arcs := hhas
        rwa [hi, Finset.mem_singleton] at this
      have hki : k = i := by
        have : k ∈ g.arcs := (h.places t).has _ _ hk
        rwa [hi, Finset.mem_singleton] at this
      subst hj hki
      exact absurd hu (h.others_use hk hne)
    | weak w =>
      have : w ∈ g.weaks := hhas
      rw [hweaks] at this
      cases this

theorem others (h : Inv st actor g pc) (ht : (pc t).uses = some (x, e))
    (hhas : ∀ y, g.Has y → g'.Has y ∨ y = x ∧ e = true) (hgiven : g.given ⊆ g'.given)
    (hne : u ≠ t) : Local g' (pc u) := by
  apply (h.places u).mono _ _ hgiven
  · intro y e' hu
    rcases hhas y ((h.places u).has y e' hu) with hy | ⟨rfl, rfl⟩
    · exact hy
    · exact absurd hu (h.others_use ht hne)
  · intro hs
    rw [h.sole_others hs hne.symm] at ht
    cases ht

theorem others_same (h : Inv st actor g pc) (g' : Inner) (harcs : g'.arcs = g.arcs) (hweaks : g'.weaks = g.weaks)
    (hgiven : g.given ⊆ g'.given) (u : ι) : Local g' (pc u) := by
  apply (h.places u).mono _ _ hgiven
  · intro y e hu
    have hy := (h.places u).has y e hu
    cases y with
    | arc k =>
      change k ∈ g'.arcs
      rw [harcs]
      exact hy
    | weak w =>
      change w ∈ g'.weaks
      rw [hweaks]
      exact hy
  · exact fun _ => ⟨harcs, hweaks⟩

theorem compatible_uses (h : Inv st actor g pc) (hp : p.uses = none ∨ p.uses = (pc t).uses) (u : ι)
    (hne : u ≠ t) : Compatible (pc u) p := by
  rcases hp with hp | hp
  · exact compatible_of_none hp
  · intro x e e' hu hpx
    exact h.compatible u t hne x e e' hu (hp ▸ hpx)

theorem exists_actor (h : Inv st actor g pc) (hst : ¬ st.Passive) (hr : (pc t).role = none) :
    ∃ v, v ≠ t ∧ (pc v).role = some st := by
  have hsome : actor.isSome := by
    apply h.acts.mpr
    cases st <;> simp_all [Stage.Passive]
  obtain ⟨v, hv⟩ := Option.isSome_iff_exists.mp hsome
  refine ⟨v, ?_, h.role v hv⟩
  rintro rfl
  rw [h.role v hv] at hr
  cases hr

theorem arc_stage (h : Inv st actor g pc) (ht : (pc t).uses = some (.arc k, e))
    (hr : (pc t).role = none) : st = .shared ∨ st = .locked := by
  have hk : k ∈ g.arcs := (h.places t).has _ _ ht
  have hcounts := h.counts
  have hne : g.arcs ≠ ∅ := Finset.ne_empty_of_mem hk
  cases st with
  | shared => exact .inl rfl
  | locked => exact .inr rfl
  | paused =>
    obtain ⟨v, hvt, hv⟩ := h.exists_actor (by simp [Stage.Passive]) hr
    obtain ⟨j, hj⟩ := uses_of_paused hv
    have hjk : j ∈ g.arcs := (h.places v).has _ _ hj
    obtain ⟨i, hi⟩ := Finset.card_eq_one.mp hcounts.2.1
    rw [hi, Finset.mem_singleton] at hk hjk
    subst hk hjk
    exact absurd ht (h.others_use hj hvt.symm)
  | ending => exact absurd hcounts.2.1 hne
  | releasing => exact absurd hcounts.2.1 hne
  | closed => exact absurd hcounts.2.1 hne
  | freeing => exact absurd hcounts.1 hne
  | freed => exact absurd hcounts.1 hne

theorem two_arcs (h : Inv .locked actor g pc) (ht : (pc t).uses = some (.arc k, true))
    (hr : (pc t).role = none) : 1 < g.arcs.card := by
  obtain ⟨v, hvt, hv⟩ := h.exists_actor (by simp [Stage.Passive]) hr
  obtain ⟨j, e, hj⟩ := uses_of_locked hv
  have hk : k ∈ g.arcs := (h.places t).has _ _ ht
  have hjk : j ∈ g.arcs := (h.places v).has _ _ hj
  apply Finset.one_lt_card.mpr
  refine ⟨k, hk, j, hjk, ?_⟩
  rintro rfl
  exact h.others_use ht hvt hj

theorem weak_stage (h : Inv st actor g pc) (ht : (pc t).uses = some (.weak k, e)) :
    st = .shared ∨ st = .paused ∨ st = .ending ∨ st = .releasing ∨ st = .closed := by
  have hk : k ∈ g.weaks := (h.places t).has _ _ ht
  have hcounts := h.counts
  have hne : g.weaks ≠ ∅ := Finset.ne_empty_of_mem hk
  cases st with
  | shared => exact .inl rfl
  | locked => exact absurd hcounts.2.2.2.1 hne
  | paused => exact .inr (.inl rfl)
  | ending => exact .inr (.inr (.inl rfl))
  | releasing => exact .inr (.inr (.inr (.inl rfl)))
  | closed => exact .inr (.inr (.inr (.inr rfl)))
  | freeing => exact absurd hcounts.2.1 hne
  | freed => exact absurd hcounts.2.1 hne

theorem actor_eq (h : Inv st actor g pc) (hr : (pc t).role ≠ none) (u : ι) (hu : u ≠ t) :
    actor ≠ some u := by
  intro he
  apply hr
  apply h.noRole t
  rw [he]
  exact fun heq => hu (Option.some.inj heq)

theorem stage_eq (h : Inv st actor g pc) {st' : Stage} (hr : (pc t).role = some st') :
    st = st' := by
  have hactor : actor = some t := by
    by_contra hne
    rw [h.noRole t hne] at hr
    cases hr
  have := h.role t hactor
  rw [hr] at this
  exact (Option.some.inj this).symm

theorem actor_of_passive (h : Inv st actor g pc) (hp : st.Passive) (u : ι) :
    actor ≠ some u := by
  intro hu
  have := h.acts.mp (by rw [hu]; rfl)
  rcases hp with rfl | rfl | rfl <;> simp at this

theorem others_giveUp (h : Inv st actor g pc) (ht : (pc t).uses = some (.arc k, true)) (op : Op)
    (strong : ℕ) (hu : u ≠ t) : Local { g.giveUp op k with strong } (pc u) := by
  apply h.others ht _ _ hu
  · intro y hy
    cases y with
    | arc j =>
      rcases eq_or_ne j k with rfl | hjk
      · exact .inr ⟨rfl, rfl⟩
      · exact .inl (Finset.mem_erase_of_ne_of_mem hjk hy)
    | weak w => exact .inl (show w ∈ g.weaks from hy)
  · exact List.subset_cons_self _ _

theorem strong_le (h : Inv st actor g pc) (hfew : g.arcs.card+g.weaks.card < isizeMax)
    (hst : st ≠ .freeing ∧ st ≠ .freed) : g.strong < maxRefcount := by
  have hc := h.counts
  unfold maxRefcount
  cases st with
  | freeing => exact absurd rfl hst.1
  | freed => exact absurd rfl hst.2
  | _ => have := hc.1; lia

theorem weak_le (h : Inv st actor g pc) (hfew : g.arcs.card+g.weaks.card < isizeMax)
    (hst : st ≠ .locked ∧ st ≠ .freeing ∧ st ≠ .freed) : g.weak ≤ maxRefcount := by
  have hc := h.counts
  unfold maxRefcount
  cases st with
  | locked => exact absurd rfl hst.1
  | freeing => exact absurd rfl hst.2.1
  | freed => exact absurd rfl hst.2.2
  | _ => have := hc.2.2.1; lia

variable [DecidableEq ι]

theorem compatible_update (h : Inv st actor g pc) (hp : ∀ u, u ≠ t → Compatible (pc u) p) (u v : ι)
    (hne : u ≠ v) : Compatible (Function.update pc t p u) (Function.update pc t p v) := by
  rcases update_cases pc t p u with ⟨rfl, hu⟩ | ⟨hut, hu⟩ <;>
    rcases update_cases pc _ p v with ⟨hvt, hv⟩ | ⟨hvt, hv⟩ <;> rw [hu, hv]
  · exact absurd hvt.symm hne
  · exact (hp v hvt).symm
  · exact hp u hut
  · exact h.compatible u v hne

theorem keep (h : Inv st actor g pc) (hc : Counts g' st) (hrole : p.role = (pc t).role)
    (hcomp : ∀ u, u ≠ t → Compatible (pc u) p) (hp : Local g' p)
    (ho : ∀ u, u ≠ t → Local g' (pc u)) (hended : ∀ op ∈ g'.ended, op ∈ g'.given) :
    Inv st actor g' (Function.update pc t p) := by
  have hroles : ∀ u, (Function.update pc t p u).role = (pc u).role := by
    intro u
    rcases update_cases pc t p u with ⟨rfl, hu⟩ | ⟨-, hu⟩ <;> rw [hu]
    exact hrole
  constructor
  · exact hc
  · exact fun u hu => (hroles u).trans (h.role u hu)
  · exact fun u hu => (hroles u).trans (h.noRole u hu)
  · exact h.acts
  · exact h.compatible_update hcomp
  · exact forall_update hp ho
  · exact hended

end Inv

def Counted (g : Inner) (pc : ι → Place) : Prop := ∃ st actor, Inv st actor g pc

section Steps

variable [DecidableEq ι]

theorem Inv.move {s : Stage} (h : Inv st actor g pc) (hactor : ∀ u, u ≠ t → actor ≠ some u)
    (hc : Counts g' s) (hrole : p.role = none ∧ s.Passive ∨ p.role = some s)
    (huses : p.uses = none ∨ p.uses = (pc t).uses) (hp : Local g' p)
    (ho : ∀ u, u ≠ t → Local g' (pc u)) (hended : ∀ op ∈ g'.ended, op ∈ g'.given) :
    Counted g' (Function.update pc t p) := by
  have hother : ∀ u, u ≠ t → (Function.update pc t p u).role = none := by
    intro u hu
    rw [Function.update_of_ne hu]
    exact h.noRole u (hactor u hu)
  have hself : (Function.update pc t p t).role = p.role := by rw [Function.update_self]
  rcases hrole with ⟨hnone, hpass⟩ | hsome
  · refine ⟨s, none, hc, by simp, ?_, ?_, h.compatible_update (h.compatible_uses huses),
      forall_update hp ho, hended⟩
    · intro u _
      rcases eq_or_ne u t with rfl | hu
      · exact hself.trans hnone
      · exact hother u hu
    · rcases hpass with rfl | rfl | rfl <;> simp
  · refine ⟨s, some t, hc, ?_, ?_, ?_, h.compatible_update (h.compatible_uses huses),
      forall_update hp ho, hended⟩
    · intro u hu
      obtain rfl := Option.some.inj hu
      exact hself.trans hsome
    · exact fun u hu => hother u fun he => hu (he ▸ rfl)
    · cases p <;> simp_all [Place.role]

theorem fetchAdd_of_le {word : ℕ} (h : word ≤ isizeMax) : fetchAdd word = word+1 := by
  unfold isizeMax at h
  rw [fetchAdd, Nat.mod_eq_of_lt (by lia)]

theorem fetchSub_of_pos {word : ℕ} (hpos : 0 < word) (h : word ≤ isizeMax) :
    fetchSub word = word-1 := by
  unfold isizeMax at h
  rw [fetchSub, show word+2^64-1 = word-1+2^64 by lia, Nat.add_mod_right,
    Nat.mod_eq_of_lt (by lia)]

theorem Inv.addArc (h : Inv st actor g pc) (ht : (pc t).uses = some (x, e))
    (hr : (pc t).role = none) (hst : st = .shared ∨ st = .locked) (hk : k ∉ g.arcs) :
    Counted { g with strong := g.strong+1, arcs := insert k g.arcs }
      (Function.update pc t .idle) := by
  have hcard : (insert k g.arcs).card = g.arcs.card+1 := Finset.card_insert_of_notMem hk
  refine ⟨st, actor, h.keep ?_ hr.symm (fun _ _ => compatible_of_none rfl) .of_idle ?_ h.ended⟩
  · have hc := h.counts
    rcases hst with rfl | rfl
    · exact ⟨by simp only [hcard, hc.1], by simp only [hcard]; lia, hc.2.2⟩
    · exact ⟨by simp only [hcard, hc.1], by simp only [hcard]; lia, hc.2.2⟩
  · intro u hu
    apply h.others ht _ _ hu
    · intro y hy
      left
      cases y with
      | arc j => exact Finset.mem_insert_of_mem hy
      | weak w => exact hy
    · exact List.Subset.refl _

theorem Inv.addWeak (h : Inv st actor g pc) (ht : (pc t).uses = some (x, e))
    (hr : (pc t).role = none) (hst : st ≠ .locked ∧ st ≠ .freeing ∧ st ≠ .freed) (hk : k ∉ g.weaks) :
    Counted { g with weak := g.weak+1, weaks := insert k g.weaks }
      (Function.update pc t .idle) := by
  have hcard : (insert k g.weaks).card = g.weaks.card+1 := Finset.card_insert_of_notMem hk
  refine ⟨st, actor, h.keep ?_ hr.symm (fun _ _ => compatible_of_none rfl) .of_idle ?_ h.ended⟩
  · have hc := h.counts
    cases st with
    | shared => exact ⟨hc.1, hc.2.1, by simp only [hcard, hc.2.2.1], hc.2.2.2⟩
    | paused => exact ⟨hc.1, hc.2.1, by simp only [hcard, hc.2.2.1], hc.2.2.2⟩
    | ending => exact ⟨hc.1, hc.2.1, by simp only [hcard, hc.2.2.1], hc.2.2.2⟩
    | releasing => exact ⟨hc.1, hc.2.1, by simp only [hcard, hc.2.2.1], hc.2.2.2⟩
    | closed =>
      exact ⟨hc.1, hc.2.1, by simp only [hcard, hc.2.2.1], by simp only [hcard]; lia,
        hc.2.2.2.2⟩
    | locked => exact absurd rfl hst.1
    | freeing => exact absurd rfl hst.2.1
    | freed => exact absurd rfl hst.2.2
  · intro u hu
    apply h.others ht _ _ hu
    · intro y hy
      left
      cases y with
      | arc j => exact hy
      | weak w => exact Finset.mem_insert_of_mem hy
    · exact List.Subset.refl _

theorem Local.of_last {op : Op} {last : Place} (hlast : last = .dropValue op ∨ last = .takeValue op)
    (hop : op ∈ g.given) : Local g last := by
  rcases hlast with rfl | rfl
  · constructor <;> simp [Place.uses, Place.Sole, hop]
  · constructor <;> simp [Place.uses, Place.Sole, hop]

/-- The strong count of a handle that is given up. The last one has to end the value. -/
theorem Inv.release (h : Inv st actor g pc) (hfew : g.arcs.card+g.weaks.card < isizeMax)
    (ht : (pc t).uses = some (.arc k, true)) (hr : (pc t).role = none) {op : Op} {last : Place}
    (hlast : last = .dropValue op ∨ last = .takeValue op) :
    Counted { g.giveUp op k with strong := fetchSub g.strong }
      (Function.update pc t (afterRelease g.strong last)) := by
  have hk : k ∈ g.arcs := (h.places t).has _ _ ht
  have hcard : (g.arcs.erase k).card = g.arcs.card-1 := Finset.card_erase_of_mem hk
  have hpos : 0 < g.arcs.card := Finset.card_pos.mpr ⟨k, hk⟩
  have hc := h.counts
  have hstrong : g.strong = g.arcs.card := by
    rcases h.arc_stage ht hr with rfl | rfl <;> exact hc.1
  have hsub : fetchSub g.strong = g.arcs.card-1 := by
    rw [hstrong]
    exact fetchSub_of_pos hpos (by lia)
  generalize fetchSub g.strong = strong at hsub ⊢
  have hended : ∀ op' ∈ g.ended, op' ∈ op::g.given :=
    fun op' hop => List.mem_cons_of_mem _ (h.ended op' hop)
  have ho : ∀ u, u ≠ t → Local { g.giveUp op k with strong } (pc u) :=
    fun u hu => h.others_giveUp ht op _ hu
  unfold afterRelease
  split_ifs with hone
  · have hst : st = .shared := by
      rcases h.arc_stage ht hr with rfl | rfl
      · rfl
      · have := h.two_arcs ht hr
        lia
    subst hst
    have hempty : g.arcs.erase k = ∅ := Finset.card_eq_zero.mp (by lia)
    have hactor : ∀ u, u ≠ t → actor ≠ some u := by
      intro u _ hu
      have := h.acts.mp (by rw [hu]; rfl)
      simp at this
    have hrole : last.role = some .ending := by rcases hlast with rfl | rfl <;> rfl
    have huses : last.uses = none := by rcases hlast with rfl | rfl <;> rfl
    refine h.move hactor (s := .ending) ?_ (.inr hrole) (.inl huses)
      (.of_last hlast (List.mem_cons_self ..)) ho hended
    have hzero : strong = 0 := by lia
    exact ⟨hzero, hempty, hc.2.2.1, hc.2.2.2.1, hc.2.2.2.2⟩
  · refine ⟨st, actor, h.keep ?_ hr.symm (fun _ _ => compatible_of_none rfl) .of_idle ho hended⟩
    rcases h.arc_stage ht hr with rfl | rfl
    · exact ⟨hsub.trans hcard.symm, by change 0 < (g.arcs.erase k).card; lia, hc.2.2⟩
    · exact ⟨hsub.trans hcard.symm, by change 0 < (g.arcs.erase k).card; lia, hc.2.2⟩

theorem Local.of_deallocate : Local g .deallocate := by
  constructor <;> simp [Place.uses, Place.Sole]

theorem Local.of_dropImplicit : Local g .dropImplicit := by
  constructor <;> simp [Place.uses, Place.Sole]

theorem Inv.dropImplicit (h : Inv st actor g pc) (hfew : g.arcs.card+g.weaks.card < isizeMax)
    (ht : pc t = .dropImplicit) :
    Counted { g with weak := fetchSub g.weak }
      (Function.update pc t (afterRelease g.weak .deallocate)) := by
  have hrole : (pc t).role = some .releasing := by rw [ht]; rfl
  obtain rfl := h.stage_eq hrole
  obtain ⟨hstrong, harcs, hweak, hended, hfreed⟩ := h.counts
  have hactor := h.actor_eq (t := t) (by rw [hrole]; simp)
  have hsub : fetchSub g.weak = g.weaks.card := by
    rw [fetchSub_of_pos (by lia) (by lia)]
    lia
  generalize fetchSub g.weak = weak at hsub ⊢
  have ho : ∀ u, u ≠ t → Local { g with weak } (pc u) :=
    fun u _ => h.others_same { g with weak } rfl rfl (List.Subset.refl _) u
  unfold afterRelease
  split_ifs with hone
  · have hempty : g.weaks = ∅ := Finset.card_eq_zero.mp (by lia)
    exact h.move hactor (s := .freeing) ⟨harcs, hempty, hended, hfreed⟩ (.inr rfl) (.inl rfl)
      .of_deallocate ho h.ended
  · exact h.move hactor (s := .closed) ⟨hstrong, harcs, hsub, by dsimp only; lia, hended, hfreed⟩
      (.inl ⟨rfl, .inr (.inl rfl)⟩) (.inl rfl) .of_idle ho h.ended

theorem Inv.weakDrop (h : Inv st actor g pc) (hfew : g.arcs.card+g.weaks.card < isizeMax)
    (ht : pc t = .weakDrop k) :
    Counted { g with weak := fetchSub g.weak, weaks := g.weaks.erase k }
      (Function.update pc t (afterRelease g.weak .deallocate)) := by
  have huses : (pc t).uses = some (.weak k, true) := by rw [ht]; rfl
  have hr : (pc t).role = none := by rw [ht]; rfl
  have hk : k ∈ g.weaks := (h.places t).has _ _ huses
  have hcard : (g.weaks.erase k).card = g.weaks.card-1 := Finset.card_erase_of_mem hk
  have hpos : 0 < g.weaks.card := Finset.card_pos.mpr ⟨k, hk⟩
  have hc := h.counts
  have hsub : 0 < g.weak → g.weak ≤ isizeMax → fetchSub g.weak = g.weak-1 := fetchSub_of_pos
  generalize fetchSub g.weak = weak at hsub ⊢
  have ho : ∀ u, u ≠ t → Local { g with weak, weaks := g.weaks.erase k } (pc u) := by
    intro u hu
    apply h.others huses _ _ hu
    · intro y hy
      cases y with
      | arc j => exact .inl (show j ∈ g.arcs from hy)
      | weak w =>
        rcases eq_or_ne w k with rfl | hwk
        · exact .inr ⟨rfl, rfl⟩
        · exact .inl (Finset.mem_erase_of_ne_of_mem hwk hy)
    · exact List.Subset.refl _
  unfold afterRelease
  split_ifs with hone
  · have hst : st = .closed := by
      rcases h.weak_stage huses with rfl | rfl | rfl | rfl | rfl
      · have := hc.2.2.1; lia
      · have := hc.2.2.1; lia
      · have := hc.2.2.1; lia
      · have := hc.2.2.1; lia
      · rfl
    subst hst
    obtain ⟨hstrong, harcs, hweak, -, hended, hfreed⟩ := hc
    have hempty : g.weaks.erase k = ∅ := Finset.card_eq_zero.mp (by lia)
    exact h.move (fun u _ => h.actor_of_passive (.inr (.inl rfl)) u) (s := .freeing)
      ⟨harcs, hempty, hended, hfreed⟩ (.inr rfl) (.inl rfl) .of_deallocate ho h.ended
  · refine ⟨st, actor, h.keep ?_ hr.symm (fun _ _ => compatible_of_none rfl) .of_idle ho h.ended⟩
    rcases h.weak_stage huses with rfl | rfl | rfl | rfl | rfl
    · obtain ⟨hstrong, harcs, hweak, hrest⟩ := hc
      exact ⟨hstrong, harcs, by dsimp only; rw [hsub (by lia) (by lia)]; lia, hrest⟩
    · obtain ⟨hstrong, harcs, hweak, hrest⟩ := hc
      exact ⟨hstrong, harcs, by dsimp only; rw [hsub (by lia) (by lia)]; lia, hrest⟩
    · obtain ⟨hstrong, harcs, hweak, hrest⟩ := hc
      exact ⟨hstrong, harcs, by dsimp only; rw [hsub (by lia) (by lia)]; lia, hrest⟩
    · obtain ⟨hstrong, harcs, hweak, hrest⟩ := hc
      exact ⟨hstrong, harcs, by dsimp only; rw [hsub (by lia) (by lia)]; lia, hrest⟩
    · obtain ⟨hstrong, harcs, hweak, hmore, hrest⟩ := hc
      exact ⟨hstrong, harcs, by dsimp only; rw [hsub (by lia) (by lia)]; lia,
        by dsimp only; lia, hrest⟩

theorem Inv.stay (h : Inv st actor g pc) (hrole : p.role = (pc t).role)
    (huses : p.uses = none ∨ p.uses = (pc t).uses) (hp : Local g p) :
    Counted g (Function.update pc t p) :=
  ⟨st, actor, h.keep h.counts hrole (h.compatible_uses huses) hp (fun u _ => h.places u) h.ended⟩

theorem Inv.stay_plain (h : Inv st actor g pc) (hrole : p.role = (pc t).role)
    (huses : p.uses = none ∨ p.uses = (pc t).uses) (hp : p.Plain) :
    Counted g (Function.update pc t p) := by
  apply h.stay hrole huses (.of_plain hp _)
  intro x e hx
  rcases huses with hnone | hsame
  · rw [hnone] at hx
    cases hx
  · exact (h.places t).has x e (hsame ▸ hx)

theorem Inv.lock (h : Inv st actor g pc) {getMut : Bool} (ht : pc t = .isUnique k getMut)
    (hweak : g.weak = 1) :
    Counted { g with weak := usizeMax } (Function.update pc t (.uniqueLoad k getMut)) := by
  have huses : (pc t).uses = some (.arc k, getMut) := by rw [ht]; rfl
  have hr : (pc t).role = none := by rw [ht]; rfl
  have hst : st = .shared := by
    rcases h.arc_stage huses hr with rfl | rfl
    · rfl
    · have := h.counts.2.2.1
      rw [hweak] at this
      cases this
  subst hst
  obtain ⟨hstrong, hpos, hw, hended, hfreed⟩ := h.counts
  have hempty : g.weaks = ∅ := Finset.card_eq_zero.mp (by lia)
  refine h.move (fun u _ => h.actor_of_passive (.inl rfl) u) (s := .locked)
    ⟨hstrong, hpos, rfl, hempty, hended, hfreed⟩ (.inr rfl) (.inr ?_) (.of_plain trivial ?_) ?_ h.ended
  · rw [huses]
    rfl
  · intro x e hx
    cases hx
    exact (h.places t).has _ _ huses
  · exact fun u _ => h.others_same { g with weak := usizeMax } rfl rfl (List.Subset.refl _) u

theorem Inv.unlock (h : Inv st actor g pc) {getMut unique : Bool}
    (ht : pc t = .uniqueStore k getMut unique) :
    Counted { g with weak := 1 }
      (Function.update pc t (if getMut && unique then .borrowed k else .idle)) := by
  have hrole : (pc t).role = some .locked := by rw [ht]; rfl
  obtain rfl := h.stage_eq hrole
  obtain ⟨hstrong, hpos, hw, hempty, hended, hfreed⟩ := h.counts
  have hactor := h.actor_eq (t := t) (by rw [hrole]; simp)
  have hcounts : Counts { g with weak := 1 } .shared :=
    ⟨hstrong, hpos, by simp [hempty], hended, hfreed⟩
  have ho : ∀ u, u ≠ t → Local { g with weak := 1 } (pc u) :=
    fun u _ => h.others_same { g with weak := 1 } rfl rfl (List.Subset.refl _) u
  split_ifs with hboth
  · obtain ⟨rfl, rfl⟩ : getMut = true ∧ unique = true := by simpa using hboth
    have hlocal := h.places t
    rw [ht] at hlocal
    refine h.move hactor hcounts (.inl ⟨rfl, .inl rfl⟩) (.inr (by rw [ht]; rfl)) ?_ ho h.ended
    constructor
    · intro x e hx
      cases hx
      exact hlocal.has _ _ rfl
    · exact fun _ => hlocal.sole ⟨rfl, rfl⟩
    · simp
    · simp
    · simp
    · simp
  · exact h.move hactor hcounts (.inl ⟨rfl, .inl rfl⟩) (.inl rfl) .of_idle ho h.ended

theorem Inv.pause (h : Inv st actor g pc) (ht : pc t = .makeMut k) (hone : g.strong = 1) :
    Counted { g with strong := 0 } (Function.update pc t (.loadWeak k)) := by
  have huses : (pc t).uses = some (.arc k, true) := by rw [ht]; rfl
  have hr : (pc t).role = none := by rw [ht]; rfl
  have hst : st = .shared := by
    rcases h.arc_stage huses hr with rfl | rfl
    · rfl
    · have := h.two_arcs huses hr
      have := h.counts.1
      lia
  subst hst
  obtain ⟨hstrong, -, hw, hended, hfreed⟩ := h.counts
  refine h.move (fun u _ => h.actor_of_passive (.inl rfl) u) (s := .paused)
    ⟨rfl, by dsimp only; lia, hw, hended, hfreed⟩ (.inr rfl) (.inr ?_) (.of_plain trivial ?_) ?_
    h.ended
  · rw [huses]
    rfl
  · intro x e hx
    cases hx
    exact (h.places t).has _ _ huses
  · exact fun u _ => h.others_same { g with strong := 0 } rfl rfl (List.Subset.refl _) u

theorem Inv.loadWeak (h : Inv st actor g pc) (ht : pc t = .loadWeak k) :
    Counted g (Function.update pc t (if g.weak ≠ 1 then .cloneAlloc k else .storeStrong k)) := by
  have hrole : (pc t).role = some .paused := by rw [ht]; rfl
  obtain rfl := h.stage_eq hrole
  obtain ⟨-, hcard, hw, -, -⟩ := h.counts
  have huses : (pc t).uses = some (.arc k, true) := by rw [ht]; rfl
  split_ifs with hone
  · exact h.stay_plain hrole.symm (.inr huses.symm) trivial
  · apply h.stay (by rw [hrole]; rfl) (.inr (by rw [huses]; rfl))
    constructor
    · intro x e hx
      cases hx
      exact (h.places t).has _ _ huses
    · exact fun _ => ⟨hcard, Finset.card_eq_zero.mp (by lia)⟩
    · simp
    · simp
    · simp
    · simp

theorem Inv.resume (h : Inv st actor g pc) (ht : pc t = .storeStrong k) :
    Counted { g with strong := 1 } (Function.update pc t (.borrowed k)) := by
  have hrole : (pc t).role = some .paused := by rw [ht]; rfl
  obtain rfl := h.stage_eq hrole
  obtain ⟨-, hcard, hw, hended, hfreed⟩ := h.counts
  have huses : (pc t).uses = some (.arc k, true) := by rw [ht]; rfl
  have hlocal := h.places t
  rw [ht] at hlocal
  refine h.move (h.actor_eq (by rw [hrole]; simp)) (s := .shared)
    ⟨hcard.symm, by dsimp only; lia, hw, hended, hfreed⟩ (.inl ⟨rfl, .inl rfl⟩)
    (.inr huses.symm) ?_ ?_ h.ended
  · constructor
    · intro x e hx
      cases hx
      exact (h.places t).has _ _ huses
    · exact fun _ => hlocal.sole trivial
    · simp
    · simp
    · simp
    · simp
  · exact fun u _ => h.others_same { g with strong := 1 } rfl rfl (List.Subset.refl _) u

theorem Inv.moveValue (h : Inv st actor g pc) (ht : pc t = .moveValue k) :
    Counted ((g.giveUp .makeMut k).finish .makeMut) (Function.update pc t .dropImplicit) := by
  have hrole : (pc t).role = some .paused := by rw [ht]; rfl
  obtain rfl := h.stage_eq hrole
  obtain ⟨hstrong, hcard, hw, hended, hfreed⟩ := h.counts
  have huses : (pc t).uses = some (.arc k, true) := by rw [ht]; rfl
  have hk : k ∈ g.arcs := (h.places t).has _ _ huses
  have hempty : g.arcs.erase k = ∅ :=
    Finset.card_eq_zero.mp (by rw [Finset.card_erase_of_mem hk, hcard])
  refine h.move (h.actor_eq (by rw [hrole]; simp)) (s := .releasing)
    ⟨hstrong, hempty, hw, by simp [Inner.finish, Inner.giveUp, hended], hfreed⟩ (.inr rfl)
    (.inl rfl) .of_dropImplicit ?_ ?_
  · intro u hu
    have := h.others_giveUp huses .makeMut g.strong hu
    exact this.mono this.has (fun _ => ⟨rfl, rfl⟩) (List.Subset.refl _)
  · simp [Inner.finish, Inner.giveUp, hended]

theorem Inv.endValue (h : Inv st actor g pc) {op : Op}
    (ht : pc t = .dropValue op ∨ pc t = .takeValue op) :
    Counted (g.finish op) (Function.update pc t .dropImplicit) := by
  have hrole : (pc t).role = some .ending := by rcases ht with ht | ht <;> rw [ht] <;> rfl
  obtain rfl := h.stage_eq hrole
  obtain ⟨hstrong, harcs, hw, hended, hfreed⟩ := h.counts
  have hgiven : op ∈ g.given := (h.places t).given op ht
  refine h.move (h.actor_eq (by rw [hrole]; simp)) (s := .releasing)
    ⟨hstrong, harcs, hw, by simp [Inner.finish, hended], hfreed⟩ (.inr rfl) (.inl rfl)
    .of_dropImplicit ?_ ?_
  · exact fun u _ => h.others_same (g.finish op) rfl rfl (List.Subset.refl _) u
  · simpa [Inner.finish, hended] using hgiven

theorem Inv.deallocate (h : Inv st actor g pc) (ht : pc t = .deallocate) :
    Counted { g with freed := g.freed+1 } (Function.update pc t .idle) := by
  have hrole : (pc t).role = some .freeing := by rw [ht]; rfl
  obtain rfl := h.stage_eq hrole
  obtain ⟨harcs, hweaks, hended, hfreed⟩ := h.counts
  refine h.move (h.actor_eq (by rw [hrole]; simp)) (s := .freed)
    ⟨harcs, hweaks, hended, by dsimp only; lia⟩ (.inl ⟨rfl, .inr (.inr rfl)⟩) (.inl rfl) .of_idle
    ?_ h.ended
  exact fun u _ => h.others_same { g with freed := g.freed+1 } rfl rfl (List.Subset.refl _) u

theorem Inv.downgradeNext (h : Inv st actor g pc) (hfew : g.arcs.card+g.weaks.card < isizeMax)
    (ht : (pc t).uses = some (.arc k, false)) (hr : (pc t).role = none) :
    Counted g (Function.update pc t (.downgrade k g.weak)) := by
  apply h.stay (by rw [hr]; rfl) (.inr (by rw [ht]; rfl))
  constructor
  · intro x e hx
    cases hx
    exact (h.places t).has _ _ ht
  · exact fun hs => hs.elim
  · simp
  · intro j cur hcur
    cases hcur
    rcases h.arc_stage ht hr with rfl | rfl
    · exact .inr (h.weak_le hfew (by simp))
    · exact .inl h.counts.2.2.1
  · simp
  · simp

theorem Inv.upgradeNext (h : Inv st actor g pc) (hfew : g.arcs.card+g.weaks.card < isizeMax)
    (ht : (pc t).uses = some (.weak k, false)) (hr : (pc t).role = none) :
    Counted g (Function.update pc t (.upgrade k g.strong)) := by
  apply h.stay (by rw [hr]; rfl) (.inr (by rw [ht]; rfl))
  constructor
  · intro x e hx
    cases hx
    exact (h.places t).has _ _ ht
  · exact fun hs => hs.elim
  · simp
  · simp
  · intro w n hn
    cases hn
    apply (h.strong_le hfew _).le
    rcases h.weak_stage ht with rfl | rfl | rfl | rfl | rfl <;> simp
  · simp

theorem Inv.uniqueLoad (h : Inv st actor g pc) {getMut : Bool} (ht : pc t = .uniqueLoad k getMut) :
    Counted g (Function.update pc t (.uniqueStore k getMut (decide (g.strong = 1)))) := by
  have hrole : (pc t).role = some .locked := by rw [ht]; rfl
  obtain rfl := h.stage_eq hrole
  obtain ⟨hstrong, -, -, hempty, -⟩ := h.counts
  have huses : (pc t).uses = some (.arc k, getMut) := by rw [ht]; rfl
  apply h.stay (by rw [hrole]; rfl) (.inr (by rw [huses]; rfl))
  constructor
  · intro x e hx
    cases hx
    exact (h.places t).has _ _ huses
  · intro hs
    exact ⟨hstrong ▸ of_decide_eq_true hs.2, hempty⟩
  · simp
  · simp
  · simp
  · simp

theorem Inv.step (h : Inv st actor g pc) (hfew : g.arcs.card+g.weaks.card < isizeMax)
    (hs : Step g (pc t) g' p) : Counted g' (Function.update pc t p) := by
  generalize ht : pc t = q at hs
  have huses : (pc t).uses = q.uses := by rw [ht]
  have hrole : (pc t).role = q.role := by rw [ht]
  cases hs with
  | clone k k' fresh =>
    have hst := h.arc_stage huses hrole
    have hle := h.strong_le hfew (by rcases hst with rfl | rfl <;> simp)
    rw [if_neg (by lia), fetchAdd_of_le hle.le]
    exact h.addArc huses hrole hst fresh
  | drop k => exact h.release hfew huses hrole (.inl rfl)
  | downgradeLoad k => exact h.downgradeNext hfew huses hrole
  | downgradeLocked k cur hl => exact h.downgradeNext hfew huses hrole
  | downgradeOverflow k cur hl hc =>
    rcases (h.places t).downgrade k cur ht with hcur | hcur
    · exact absurd hcur hl
    · lia
  | downgradeOk k cur w hl hc heq fresh =>
    subst heq
    apply h.addWeak huses hrole _ fresh
    rcases h.arc_stage huses hrole with rfl | rfl
    · simp
    · exact absurd h.counts.2.2.1 hl
  | downgradeErr k cur hl hc => exact h.downgradeNext hfew huses hrole
  | tryUnwrapOk k heq =>
    have hlast : Place.takeValue .tryUnwrap = .dropValue .tryUnwrap ∨
        Place.takeValue .tryUnwrap = .takeValue .tryUnwrap := .inr rfl
    have hrel := h.release hfew huses hrole hlast
    rw [heq, show fetchSub 1 = 0 by decide] at hrel
    exact hrel
  | tryUnwrapErr k hne => exact h.stay_plain hrole.symm (.inl rfl) trivial
  | intoInner k => exact h.release hfew huses hrole (.inr rfl)
  | isUniqueOk k getMut heq => exact h.lock ht heq
  | isUniqueErr k getMut hne => exact h.stay_plain hrole.symm (.inl rfl) trivial
  | uniqueLoad k getMut => exact h.uniqueLoad ht
  | uniqueStore k getMut unique => exact h.unlock ht
  | makeMutOk k heq => exact h.pause ht heq
  | makeMutErr k hne => exact h.stay_plain hrole.symm (.inr huses.symm) trivial
  | cloneValue k => exact h.stay_plain hrole.symm (.inr huses.symm) trivial
  | replaceThis k => exact h.release hfew huses hrole (.inl rfl)
  | loadWeak k => exact h.loadWeak ht
  | cloneAlloc k => exact h.stay_plain hrole.symm (.inr huses.symm) trivial
  | allocate k => exact h.stay_plain hrole.symm (.inr huses.symm) trivial
  | moveValue k => exact h.moveValue ht
  | storeStrong k => exact h.resume ht
  | borrowed k => exact h.stay_plain hrole.symm (.inl rfl) trivial
  | upgradeLoad w => exact h.upgradeNext hfew huses hrole
  | upgradeNone w n hz => exact h.stay_plain hrole.symm (.inl rfl) trivial
  | upgradeOverflow w n hn =>
    have := (h.places t).upgrade w n ht
    lia
  | upgradeOk w n k hz hn heq fresh =>
    subst heq
    apply h.addArc huses hrole _ fresh
    have hc := h.counts
    rcases h.weak_stage huses with rfl | rfl | rfl | rfl | rfl
    · exact .inl rfl
    · exact absurd hc.1 hz
    · exact absurd hc.1 hz
    · exact absurd hc.1 hz
    · exact absurd hc.1 hz
  | upgradeErr w n hz hn => exact h.upgradeNext hfew huses hrole
  | weakClone w w' fresh =>
    have hst : st ≠ .locked ∧ st ≠ .freeing ∧ st ≠ .freed := by
      rcases h.weak_stage huses with rfl | rfl | rfl | rfl | rfl <;> simp
    have hle := h.weak_le hfew hst
    rw [if_neg (by lia), fetchAdd_of_le hle]
    exact h.addWeak huses hrole hst fresh
  | weakDrop w => exact h.weakDrop hfew ht
  | dropValue op => exact h.endValue (.inl ht)
  | takeValue op => exact h.endValue (.inr ht)
  | dropImplicit => exact h.dropImplicit hfew ht
  | deallocate => exact h.deallocate ht

theorem Inv.begin (h : Inv st actor g pc) (outside : pc t = .idle) (starts : p.Starts)
    (live : ∀ x e, p.uses = some (x, e) → g.Has x) (free : ∀ u, Compatible (pc u) p) :
    Counted g (Function.update pc t p) := by
  have hrole : p.role = none := by cases p <;> first | rfl | exact starts.elim
  have hplain : p.Plain := by cases p <;> trivial
  refine ⟨st, actor, h.keep h.counts ?_ (fun u _ => free u) (.of_plain hplain live)
    (fun u _ => h.places u) h.ended⟩
  rw [hrole, outside]
  rfl

theorem Counted.next {s s' : Config ι} (h : Counted s.inner s.pc) (hfew : Few s)
    (hn : Next s s') : Counted s'.inner s'.pc := by
  obtain ⟨st, actor, h⟩ := h
  cases hn with
  | begin t p outside starts live free => exact h.begin outside starts live free
  | run t g p step => exact h.step hfew step

theorem Inv.ofMakeMut (t : ι) :
    Inv .shared none (Arc.ofMakeMut t).inner (Arc.ofMakeMut t).pc := by
  have hother : ∀ u, u ≠ t → (Arc.ofMakeMut t).pc u = .idle := by
    intro u hu
    simp [Arc.ofMakeMut, hu]
  have hself : (Arc.ofMakeMut t).pc t = .borrowed 0 := by simp [Arc.ofMakeMut]
  constructor
  · simp [Counts, Arc.ofMakeMut]
  · simp
  · intro u _
    rcases eq_or_ne u t with rfl | hu
    · rw [hself]
      rfl
    · rw [hother u hu]
      rfl
  · simp
  · intro u v hne
    rcases eq_or_ne v t with rfl | hv
    · rw [hother u hne]
      exact (compatible_of_none rfl).symm
    · rw [hother v hv]
      exact compatible_of_none rfl
  · intro u
    rcases eq_or_ne u t with rfl | hu
    · rw [hself]
      constructor <;> simp [Place.uses, Place.Sole, Inner.Has, Arc.ofMakeMut]
    · rw [hother u hu]
      exact .of_idle
  · simp [Arc.ofMakeMut]

/-- A new allocation, by `Arc::new` or by `make_mut`. -/
def Initial (s : Config ι) : Prop := s = new ι ∨ ∃ t, s = ofMakeMut t

theorem counted_of_reachable {init s : Config ι} (hinit : Initial init) (h : Reachable init s) :
    Counted s.inner s.pc ∧ Few s := by
  have hfew : ({0} : Finset ℕ).card+(∅ : Finset ℕ).card < isizeMax := by decide
  induction h with
  | refl =>
    rcases hinit with rfl | ⟨t, rfl⟩
    · exact ⟨⟨_, _, .new⟩, hfew⟩
    · exact ⟨⟨_, _, .ofMakeMut t⟩, hfew⟩
  | tail _ hstep ih => exact ⟨ih.1.next ih.2 hstep.1, hstep.2⟩

end Steps

structure Promises (s : Config ι) : Prop where
  /-- The value is dropped or moved out once, and then no `Arc` handle exists. -/
  ended_once : s.inner.ended.length ≤ 1
  ended_last : s.inner.ended ≠ [] → s.inner.arcs = ∅
  ended_finally : s.inner.arcs = ∅ → (∀ t, s.pc t = .idle) → s.inner.ended.length = 1
  /-- The memory is freed once, and then no handle exists and no call is on the way. -/
  freed_once : s.inner.freed ≤ 1
  freed_last : s.inner.freed ≠ 0 →
    s.inner.arcs = ∅ ∧ s.inner.weaks = ∅ ∧ ∀ t, s.pc t = .idle
  freed_finally : s.inner.arcs = ∅ → s.inner.weaks = ∅ → (∀ t, s.pc t = .idle) → s.inner.freed = 1
  /-- Where `upgrade` can succeed, the value is there. -/
  upgrade : ∀ t w n, s.pc t = .upgrade w n → n ≠ 0 → s.inner.strong = n → s.inner.ended = []
  /-- As long as the reference of `get_mut` or `make_mut` is in use, there is no other handle. -/
  exclusive : ∀ t h, s.pc t = .borrowed h → s.inner.arcs = {h} ∧ s.inner.weaks = ∅
  /-- If every `Arc` handle is given up by `into_inner`, one call returns the value. -/
  intoInner : (∀ op ∈ s.inner.given, op = .intoInner) → s.inner.arcs = ∅ → (∀ t, s.pc t = .idle) →
    s.inner.ended = [.intoInner]
  ok : ∀ t, s.pc t ≠ .failed

namespace Inv

variable {s : Config ι}

theorem passive_of_idle (h : Inv st actor s.inner s.pc) (hidle : ∀ t, s.pc t = .idle) :
    st.Passive := by
  cases hactor : actor with
  | some t =>
    have hrole := h.role t hactor
    rw [hidle t] at hrole
    cases hrole
  | none =>
    have hacts := h.acts
    rw [hactor] at hacts
    cases st <;> simp_all [Stage.Passive]

theorem ended_eq (h : Inv st actor s.inner s.pc) :
    s.inner.ended = [] ∨ s.inner.ended.length = 1 ∧ s.inner.arcs = ∅ := by
  have hc := h.counts
  cases st with
  | shared => exact .inl hc.2.2.2.1
  | locked => exact .inl hc.2.2.2.2.1
  | paused => exact .inl hc.2.2.2.1
  | ending => exact .inl hc.2.2.2.1
  | releasing => exact .inr ⟨hc.2.2.2.1, hc.2.1⟩
  | closed => exact .inr ⟨hc.2.2.2.2.1, hc.2.1⟩
  | freeing => exact .inr ⟨hc.2.2.1, hc.1⟩
  | freed => exact .inr ⟨hc.2.2.1, hc.1⟩

theorem ended_finally (h : Inv st actor s.inner s.pc) (harcs : s.inner.arcs = ∅)
    (hidle : ∀ t, s.pc t = .idle) : s.inner.ended.length = 1 := by
  have hc := h.counts
  rcases h.passive_of_idle hidle with rfl | rfl | rfl
  · exact absurd hc.2.1 (by simp [harcs])
  · exact hc.2.2.2.2.1
  · exact hc.2.2.1

theorem freed_eq (h : Inv st actor s.inner s.pc) :
    s.inner.freed = 0 ∨ s.inner.freed = 1 ∧ st = .freed := by
  have hc := h.counts
  cases st with
  | shared => exact .inl hc.2.2.2.2
  | locked => exact .inl hc.2.2.2.2.2
  | paused => exact .inl hc.2.2.2.2
  | ending => exact .inl hc.2.2.2.2
  | releasing => exact .inl hc.2.2.2.2
  | closed => exact .inl hc.2.2.2.2.2
  | freeing => exact .inl hc.2.2.2
  | freed => exact .inr ⟨hc.2.2.2, rfl⟩

theorem idle_of_freed (h : Inv .freed actor s.inner s.pc) (t : ι) : s.pc t = .idle := by
  have hrole := h.noRole t (h.actor_of_passive (.inr (.inr rfl)) t)
  have hc := h.counts
  have hnone : (s.pc t).uses = none := by
    cases hu : (s.pc t).uses with
    | none => rfl
    | some y =>
      obtain ⟨y, e⟩ := y
      have hhas := (h.places t).has y e hu
      cases y with
      | arc k =>
        have : k ∈ s.inner.arcs := hhas
        simp [hc.1] at this
      | weak w =>
        have : w ∈ s.inner.weaks := hhas
        simp [hc.2.1] at this
  have hok := (h.places t).ok
  cases hp : s.pc t <;> simp_all [Place.uses, Place.role]

theorem freed_finally (h : Inv st actor s.inner s.pc) (harcs : s.inner.arcs = ∅)
    (hweaks : s.inner.weaks = ∅) (hidle : ∀ t, s.pc t = .idle) : s.inner.freed = 1 := by
  have hc := h.counts
  rcases h.passive_of_idle hidle with rfl | rfl | rfl
  · exact absurd hc.2.1 (by simp [harcs])
  · exact absurd hc.2.2.2.1 (by simp [hweaks])
  · exact hc.2.2.2

theorem exclusive (h : Inv st actor s.inner s.pc) {t : ι} (ht : s.pc t = .borrowed k) :
    s.inner.arcs = {k} ∧ s.inner.weaks = ∅ := by
  have hlocal := h.places t
  rw [ht] at hlocal
  obtain ⟨hcard, hweaks⟩ := hlocal.sole trivial
  have hk : k ∈ s.inner.arcs := hlocal.has _ _ rfl
  obtain ⟨i, hi⟩ := Finset.card_eq_one.mp hcard
  rw [hi, Finset.mem_singleton] at hk
  exact ⟨by rw [hi, hk], hweaks⟩

theorem promises (h : Inv st actor s.inner s.pc) : Promises s := by
  constructor
  · rcases h.ended_eq with he | ⟨he, -⟩
    · simp [he]
    · exact he.le
  · intro hne
    rcases h.ended_eq with he | ⟨-, harcs⟩
    · exact absurd he hne
    · exact harcs
  · exact h.ended_finally
  · rcases h.freed_eq with hf | ⟨hf, -⟩ <;> lia
  · intro hne
    rcases h.freed_eq with hf | ⟨-, rfl⟩
    · exact absurd hf hne
    · exact ⟨h.counts.1, h.counts.2.1, h.idle_of_freed⟩
  · exact h.freed_finally
  · intro t w n ht hn hstrong
    have hc := h.counts
    have huses : (s.pc t).uses = some (.weak w, false) := by rw [ht]; rfl
    rcases h.weak_stage huses with rfl | rfl | rfl | rfl | rfl
    · exact hc.2.2.2.1
    · exact hc.2.2.2.1
    · exact hc.2.2.2.1
    · exact absurd (hstrong.symm.trans hc.1) hn
    · exact absurd (hstrong.symm.trans hc.1) hn
  · exact fun t k ht => h.exclusive ht
  · intro hgiven harcs hidle
    obtain ⟨op, hop⟩ := List.length_eq_one_iff.mp (h.ended_finally harcs hidle)
    rw [hop, hgiven op (h.ended op (by simp [hop]))]
  · exact fun t => (h.places t).ok

end Inv

/-- Whatever the threads do with however many handles. -/
theorem arc_promises [DecidableEq ι] {init s : Config ι} (hinit : Initial init) (h : Reachable init s) :
    Promises s := by
  obtain ⟨⟨st, actor, hinv⟩, -⟩ := counted_of_reachable hinit h
  exact hinv.promises

theorem Reachable.begin {ι : Type} [DecidableEq ι] {init s : Config ι} (h : Reachable init s) (t : ι)
    (p : Place) (outside : s.pc t = .idle) (starts : p.Starts)
    (live : ∀ x e, p.uses = some (x, e) → s.inner.Has x) (free : ∀ u, Compatible (s.pc u) p)
    (few : s.inner.arcs.card+s.inner.weaks.card < isizeMax) :
    Reachable init ⟨s.inner, Function.update s.pc t p⟩ :=
  h.tail ⟨.begin t p outside starts live free, few⟩

theorem Reachable.run {ι : Type} [DecidableEq ι] {init s : Config ι} (h : Reachable init s) (t : ι)
    {q p : Place} {g : Inner} (hq : s.pc t = q) (step : Step s.inner q g p)
    (few : g.arcs.card+g.weaks.card < isizeMax) : Reachable init ⟨g, Function.update s.pc t p⟩ :=
  h.tail ⟨.run t g p (by rwa [hq]), few⟩

/-- Two threads call `into_inner`, and the one that is second gets the value. -/
theorem arc_promises_race : ∃ s s' : Config (Fin 2),
    s.pc 0 = .intoInner 0 ∧ s.pc 1 = .intoInner 1 ∧ Promises s ∧
      s'.inner.given = [.intoInner, .intoInner] ∧ s'.inner.ended = [.intoInner] ∧
      s'.inner.freed = 1 ∧ Promises s' := by
  have h₀ : Reachable (new (Fin 2)) (new (Fin 2)) := .refl
  have h₁ := h₀.begin 0 (.clone 0) rfl trivial (by simp [Place.uses, Inner.Has, new])
    (fun _ => (compatible_of_none rfl).symm) (by decide)
  have h₂ := h₁.run 0 rfl (.clone 0 1 (by decide)) (by decide)
  have h₃ := h₂.begin 0 (.intoInner 0) rfl trivial (by simp [Place.uses, Inner.Has, new])
    (Fin.forall_fin_two.mpr ⟨(compatible_of_none rfl).symm, (compatible_of_none rfl).symm⟩) (by decide)
  have hother : Compatible (.intoInner 0) (.intoInner 1) := by simp [Compatible, Place.uses]
  have h₄ := h₃.begin 1 (.intoInner 1) rfl trivial (by simp [Place.uses, Inner.Has, new])
    (Fin.forall_fin_two.mpr ⟨hother, (compatible_of_none rfl).symm⟩) (by decide)
  have h₅ := h₄.run 1 rfl (.intoInner 1) (by decide)
  have h₆ := h₅.run 0 rfl (.intoInner 0) (by decide)
  have h₇ := h₆.run 0 (q := .takeValue .intoInner) (by decide +kernel) (.takeValue _) (by decide)
  have h₈ := h₇.run 0 rfl .dropImplicit (by decide)
  have h₉ := h₈.run 0 (q := .deallocate) (by decide +kernel) .deallocate (by decide)
  exact ⟨_, _, rfl, rfl, arc_promises (.inl rfl) h₄, rfl, rfl, rfl, arc_promises (.inl rfl) h₉⟩

end RustStd.Arc
