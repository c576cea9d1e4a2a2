import RustStd.Lib.Machine
import RustStd.Lib.Threads

/-!
# The reference counts of `Arc`

One allocation with its two counters, used by any number of threads. A handle is
a number; a thread may use any handle that nobody else has borrowed in a way that
excludes it, which is what the borrow checker allows. `Step` has one constructor
for each atomic access. The last fields of `Inner` keep what the claims about a
run are about: which handles there are and how often the value was taken out and
the memory freed.

`make_mut` may leave the allocation. The handle is then the only one of a new
allocation, which starts as `ofMakeMut`.
-/

set_option autoImplicit false

namespace RustStd.Arc
open RustStd.Machine

def maxRefcount : ℕ := isizeMax

def fetchAdd (word : ℕ) : ℕ := (word+1)%2^64

def fetchSub (word : ℕ) : ℕ := (word+2^64-1)%2^64

inductive Op
  | drop
  | tryUnwrap
  | intoInner
  | makeMut
  deriving DecidableEq, Repr

structure Inner where
  strong : ℕ
  weak : ℕ
  arcs : Finset ℕ
  weaks : Finset ℕ
  -- the calls that dropped the value or moved it out, and those that gave up an `Arc` handle
  ended : List Op
  given : List Op
  freed : ℕ

inductive Handle
  | arc (h : ℕ)
  | weak (w : ℕ)
  deriving DecidableEq, Repr

def Inner.Has (g : Inner) : Handle → Prop
  | .arc h => h ∈ g.arcs
  | .weak w => w ∈ g.weaks

inductive Place
  | idle
  | clone (h : ℕ)
  | drop (h : ℕ)
  | downgradeLoad (h : ℕ)
  | downgrade (h cur : ℕ)
  | tryUnwrap (h : ℕ)
  | intoInner (h : ℕ)
  | isUnique (h : ℕ) (getMut : Bool)
  | uniqueLoad (h : ℕ) (getMut : Bool)
  | uniqueStore (h : ℕ) (getMut unique : Bool)
  | makeMut (h : ℕ)
  /-- Another handle exists: about to clone the value, then to drop the old handle. -/
  | cloneValue (h : ℕ)
  | replaceThis (h : ℕ)
  | loadWeak (h : ℕ)
  | cloneAlloc (h : ℕ)
  | allocate (h : ℕ)
  | moveValue (h : ℕ)
  | storeStrong (h : ℕ)
  | borrowed (h : ℕ)
  | upgradeLoad (w : ℕ)
  | upgrade (w n : ℕ)
  | weakClone (w : ℕ)
  | weakDrop (w : ℕ)
  | dropValue (op : Op)
  | takeValue (op : Op)
  | dropImplicit
  | deallocate
  /-- An abort or a failed assertion. -/
  | failed
  deriving DecidableEq, Repr

namespace Place

/-- The handle in use, and whether nobody else may use it meanwhile. -/
def uses : Place → Option (Handle × Bool)
  | .clone h | .downgradeLoad h | .downgrade h _ => some (.arc h, false)
  | .isUnique h getMut | .uniqueLoad h getMut | .uniqueStore h getMut _ => some (.arc h, getMut)
  | .drop h | .tryUnwrap h | .intoInner h | .makeMut h | .cloneValue h | .replaceThis h
  | .loadWeak h | .cloneAlloc h | .allocate h | .moveValue h | .storeStrong h
  | .borrowed h => some (.arc h, true)
  | .upgradeLoad w | .upgrade w _ | .weakClone w => some (.weak w, false)
  | .weakDrop w => some (.weak w, true)
  | .idle | .dropValue _ | .takeValue _ | .dropImplicit | .deallocate | .failed => none

def Starts : Place → Prop
  | .clone _ | .drop _ | .downgradeLoad _ | .tryUnwrap _ | .intoInner _ | .isUnique _ _
  | .makeMut _ | .upgradeLoad _ | .weakClone _ | .weakDrop _ => True
  | _ => False

end Place

def Compatible (p q : Place) : Prop :=
  ∀ x e e', p.uses = some (x, e) → q.uses = some (x, e') → e = false ∧ e' = false

def afterRelease (old : ℕ) (last : Place) : Place := if old = 1 then last else .idle

def Inner.giveUp (g : Inner) (op : Op) (h : ℕ) : Inner :=
  { g with arcs := g.arcs.erase h, given := op::g.given }

def Inner.finish (g : Inner) (op : Op) : Inner := { g with ended := op::g.ended }

inductive Step (g : Inner) : Place → Inner → Place → Prop
  | clone (h h' : ℕ) (fresh : h' ∉ g.arcs) :
      Step g (.clone h) { g with strong := fetchAdd g.strong, arcs := insert h' g.arcs }
        (if g.strong > maxRefcount then .failed else .idle)
  | drop (h : ℕ) :
      Step g (.drop h) { g.giveUp .drop h with strong := fetchSub g.strong }
        (afterRelease g.strong (.dropValue .drop))
  | downgradeLoad (h : ℕ) : Step g (.downgradeLoad h) g (.downgrade h g.weak)
  | downgradeLocked (h cur : ℕ) (hl : cur = usizeMax) :
      Step g (.downgrade h cur) g (.downgrade h g.weak)
  | downgradeOverflow (h cur : ℕ) (hl : cur ≠ usizeMax) (hc : cur > maxRefcount) :
      Step g (.downgrade h cur) g .failed
  | downgradeOk (h cur w : ℕ) (hl : cur ≠ usizeMax) (hc : cur ≤ maxRefcount) (heq : g.weak = cur)
      (fresh : w ∉ g.weaks) :
      Step g (.downgrade h cur) { g with weak := cur+1, weaks := insert w g.weaks } .idle
  /-- The compare-exchange may also fail without a reason. -/
  | downgradeErr (h cur : ℕ) (hl : cur ≠ usizeMax) (hc : cur ≤ maxRefcount) :
      Step g (.downgrade h cur) g (.downgrade h g.weak)
  | tryUnwrapOk (h : ℕ) (heq : g.strong = 1) :
      Step g (.tryUnwrap h) { g.giveUp .tryUnwrap h with strong := 0 } (.takeValue .tryUnwrap)
  | tryUnwrapErr (h : ℕ) (hne : g.strong ≠ 1) : Step g (.tryUnwrap h) g .idle
  | intoInner (h : ℕ) :
      Step g (.intoInner h) { g.giveUp .intoInner h with strong := fetchSub g.strong }
        (afterRelease g.strong (.takeValue .intoInner))
  | isUniqueOk (h : ℕ) (getMut : Bool) (heq : g.weak = 1) :
      Step g (.isUnique h getMut) { g with weak := usizeMax } (.uniqueLoad h getMut)
  | isUniqueErr (h : ℕ) (getMut : Bool) (hne : g.weak ≠ 1) : Step g (.isUnique h getMut) g .idle
  | uniqueLoad (h : ℕ) (getMut : Bool) :
      Step g (.uniqueLoad h getMut) g (.uniqueStore h getMut (decide (g.strong = 1)))
  | uniqueStore (h : ℕ) (getMut unique : Bool) :
      Step g (.uniqueStore h getMut unique) { g with weak := 1 }
        (if getMut && unique then .borrowed h else .idle)
  | makeMutOk (h : ℕ) (heq : g.strong = 1) : Step g (.makeMut h) { g with strong := 0 } (.loadWeak h)
  | makeMutErr (h : ℕ) (hne : g.strong ≠ 1) : Step g (.makeMut h) g (.cloneValue h)
  | cloneValue (h : ℕ) : Step g (.cloneValue h) g (.replaceThis h)
  | replaceThis (h : ℕ) :
      Step g (.replaceThis h) { g.giveUp .makeMut h with strong := fetchSub g.strong }
        (afterRelease g.strong (.dropValue .makeMut))
  | loadWeak (h : ℕ) : Step g (.loadWeak h) g (if g.weak ≠ 1 then .cloneAlloc h else .storeStrong h)
  | cloneAlloc (h : ℕ) : Step g (.cloneAlloc h) g (.allocate h)
  | allocate (h : ℕ) : Step g (.allocate h) g (.moveValue h)
  | moveValue (h : ℕ) :
      Step g (.moveValue h) ((g.giveUp .makeMut h).finish .makeMut) .dropImplicit
  | storeStrong (h : ℕ) : Step g (.storeStrong h) { g with strong := 1 } (.borrowed h)
  | borrowed (h : ℕ) : Step g (.borrowed h) g .idle
  | upgradeLoad (w : ℕ) : Step g (.upgradeLoad w) g (.upgrade w g.strong)
  | upgradeNone (w n : ℕ) (hz : n = 0) : Step g (.upgrade w n) g .idle
  | upgradeOverflow (w n : ℕ) (hn : n > maxRefcount) : Step g (.upgrade w n) g .failed
  | upgradeOk (w n h : ℕ) (hz : n ≠ 0) (hn : n ≤ maxRefcount) (heq : g.strong = n)
      (fresh : h ∉ g.arcs) :
      Step g (.upgrade w n) { g with strong := n+1, arcs := insert h g.arcs } .idle
  | upgradeErr (w n : ℕ) (hz : n ≠ 0) (hn : n ≤ maxRefcount) :
      Step g (.upgrade w n) g (.upgrade w g.strong)
  | weakClone (w w' : ℕ) (fresh : w' ∉ g.weaks) :
      Step g (.weakClone w) { g with weak := fetchAdd g.weak, weaks := insert w' g.weaks }
        (if g.weak > maxRefcount then .failed else .idle)
  | weakDrop (w : ℕ) :
      Step g (.weakDrop w) { g with weak := fetchSub g.weak, weaks := g.weaks.erase w }
        (afterRelease g.weak .deallocate)
  | dropValue (op : Op) : Step g (.dropValue op) (g.finish op) .dropImplicit
  | takeValue (op : Op) : Step g (.takeValue op) (g.finish op) .dropImplicit
  | dropImplicit :
      Step g .dropImplicit { g with weak := fetchSub g.weak } (afterRelease g.weak .deallocate)
  | deallocate : Step g .deallocate { g with freed := g.freed+1 } .idle

structure Config (ι : Type) where
  inner : Inner
  pc : ι → Place

variable {ι : Type} [DecidableEq ι]

inductive Next (s : Config ι) : Config ι → Prop
  | begin (t : ι) (p : Place) (outside : s.pc t = .idle) (starts : p.Starts)
      (live : ∀ x e, p.uses = some (x, e) → s.inner.Has x) (free : ∀ u, Compatible (s.pc u) p) :
      Next s ⟨s.inner, Function.update s.pc t p⟩
  | run (t : ι) (g : Inner) (p : Place) (step : Step s.inner (s.pc t) g p) :
      Next s ⟨g, Function.update s.pc t p⟩

def new (ι : Type) : Config ι := ⟨⟨1, 1, {0}, ∅, [], [], 0⟩, fun _ => .idle⟩

def ofMakeMut (t : ι) : Config ι :=
  ⟨⟨1, 1, {0}, ∅, [], [], 0⟩, Function.update (fun _ => .idle) t (.borrowed 0)⟩

def Few (s : Config ι) : Prop := s.inner.arcs.card+s.inner.weaks.card < isizeMax

/-- What interleavings reach in which there are always few handles. -/
def Reachable (init s : Config ι) : Prop :=
  Relation.ReflTransGen (fun s s' => Next s s' ∧ Few s') init s

end RustStd.Arc
