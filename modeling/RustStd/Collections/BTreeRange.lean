import RustStd.Collections.BTreeSearch

/-!
# `BTreeMap::range`

The bounds are checked at the start of the search for the node where the edges
of the two bounds differ. A map without a root returns before that, so impossible
bounds only panic for a map that has one.
-/

set_option autoImplicit false

namespace RustStd.BTree
open RustStd.Outcome

variable {K V Q : Type}

/-- The node where the edges of the bounds differ, and the bounds for its children. -/
structure Bifurcation (K V Q : Type) where
  height : ℕ
  node : Node K V height
  path : LeafEdge
  lowerEdgeIdx : ℕ
  upperEdgeIdx : ℕ
  lowerChildBound : SearchBound Q
  upperChildBound : SearchBound Q

structure LeafRange where
  front : Option LeafEdge
  back : Option LeafEdge

def LeafRange.none : LeafRange := ⟨Option.none, Option.none⟩

structure BTreeMap (K V : Type) where
  root : Option (Σ h, Node K V h)
  length : ℕ

def BTreeMap.new : BTreeMap K V := ⟨Option.none, 0⟩

def Node.toList : {h : ℕ} → Node K V h → List (K × V)
  | _, .leaf kvs => kvs
  | _, .internal kvs edges =>
    (List.finRange (kvs.length+1)).flatMap fun i => (edges i).toList++(kvs[i.1]?).toList

def BTreeMap.toList (self : BTreeMap K V) : List (K × V) :=
  match self.root with
  | some root => root.2.toList
  | Option.none => []

section Search

variable [LinearOrder Q]

def checkBounds (isSet : Bool) (start stop : Bound Q) : M Unit :=
  let name := if isSet then "BTreeSet" else "BTreeMap"
  match start, stop with
  | .excluded s, .excluded e =>
    if s = e then .panic ("range start and end are equal and excluded in "++name)
    else ensure ("range start is greater than range end in "++name) (¬ s > e)
  | .included s, .included e | .included s, .excluded e | .excluded s, .included e =>
    ensure ("range start is greater than range end in "++name) (¬ s > e)
  | _, _ => .ok ()

/-- The loop of `search_tree_for_bifurcation`. -/
def bifurcationLoop (borrow : K → Q) : (h : ℕ) → Node K V h → LeafEdge → SearchBound Q →
    SearchBound Q → M (Except LeafEdge (Bifurcation K V Q))
  | h, node, path, lowerBound, upperBound => do
    let keys := node.keys.map borrow
    let (lowerEdgeIdx, lowerChildBound) ← findLowerBoundIndex keys lowerBound
    let (upperEdgeIdx, upperChildBound) ← findUpperBoundIndex keys upperBound lowerEdgeIdx
    if lowerEdgeIdx < upperEdgeIdx then
      return .ok ⟨h, node, path, lowerEdgeIdx, upperEdgeIdx, lowerChildBound, upperChildBound⟩
    else do
      ensure "assertion failed: left == right" (lowerEdgeIdx = upperEdgeIdx)
      match h, node with
      | 0, _ => return .error (path++[lowerEdgeIdx])
      | h+1, node => do
        let child ← ofOption (node.child lowerEdgeIdx)
        bifurcationLoop borrow h child (path++[lowerEdgeIdx]) lowerChildBound upperChildBound

def searchTreeForBifurcation (isSet : Bool) (borrow : K → Q) {h : ℕ} (node : Node K V h)
    (start stop : Bound Q) : M (Except LeafEdge (Bifurcation K V Q)) := do
  checkBounds isSet start stop
  bifurcationLoop borrow h node [] (.fromRange start) (.fromRange stop)

/-- The loop of `find_leaf_edges_spanning_range` goes down on both sides at once. -/
def spanLoop (borrow : K → Q) : (h : ℕ) → Node K V h → Node K V h → LeafEdge → LeafEdge → ℕ → ℕ →
    SearchBound Q → SearchBound Q → M LeafRange
  | 0, _, _, lowerPath, upperPath, lowerIdx, upperIdx, _, _ =>
    return ⟨some (lowerPath++[lowerIdx]), some (upperPath++[upperIdx])⟩
  | h+1, lower, upper, lowerPath, upperPath, lowerIdx, upperIdx, lowerBound, upperBound => do
    let f ← ofOption (lower.child lowerIdx)
    let (lowerIdx', lowerBound) ← findLowerBoundIndex (f.keys.map borrow) lowerBound
    let b ← ofOption (upper.child upperIdx)
    let (upperIdx', upperBound) ← findUpperBoundIndex (b.keys.map borrow) upperBound 0
    spanLoop borrow h f b (lowerPath++[lowerIdx]) (upperPath++[upperIdx]) lowerIdx' upperIdx'
      lowerBound upperBound

def findLeafEdgesSpanningRange (isSet : Bool) (borrow : K → Q) {h : ℕ} (node : Node K V h)
    (start stop : Bound Q) : M LeafRange := do
  match ← searchTreeForBifurcation isSet borrow node start stop with
  | .error _ => return .none
  | .ok b =>
    spanLoop borrow b.height b.node b.node b.path b.path b.lowerEdgeIdx b.upperEdgeIdx
      b.lowerChildBound b.upperChildBound

def rangeSearch (isSet : Bool) (borrow : K → Q) (root : Σ h, Node K V h) (start stop : Bound Q) :
    M LeafRange :=
  findLeafEdgesSpanningRange isSet borrow root.2 start stop

def rangeSearchMut (isSet : Bool) (borrow : K → Q) (root : Σ h, Node K V h)
    (start stop : Bound Q) : M LeafRange :=
  findLeafEdgesSpanningRange isSet borrow root.2 start stop

def BTreeMap.range (isSet : Bool) (borrow : K → Q) (self : BTreeMap K V) (start stop : Bound Q) :
    M LeafRange :=
  match self.root with
  | some root => rangeSearch isSet borrow root start stop
  | Option.none => .ok .none

def BTreeMap.rangeMut (isSet : Bool) (borrow : K → Q) (self : BTreeMap K V)
    (start stop : Bound Q) : M LeafRange :=
  match self.root with
  | some root => rangeSearchMut isSet borrow root start stop
  | Option.none => .ok .none

def Impossible : Bound Q → Bound Q → Prop
  | .excluded s, .excluded e => s > e ∨ s = e
  | .included s, .included e | .included s, .excluded e | .excluded s, .included e => s > e
  | _, _ => False

def Panics {α : Type} (m : M α) : Prop := ∃ message, m = .panic message

theorem checkBounds_cases (isSet : Bool) (start stop : Bound Q) :
    Impossible start stop ∧ Panics (checkBounds isSet start stop) ∨
      ¬ Impossible start stop ∧ checkBounds isSet start stop = .ok () := by
  have hensure : ∀ (message : String) (s e : Q),
      s > e ∧ Panics (ensure message (¬ s > e)) ∨ ¬ s > e ∧ ensure message (¬ s > e) = .ok () := by
    intro message s e
    by_cases h : s > e
    · exact .inl ⟨h, message, ensure_of_not _ (not_not_intro h)⟩
    · exact .inr ⟨h, ensure_of _ h⟩
  cases start with
  | unbounded => exact .inr ⟨id, rfl⟩
  | included s =>
    cases stop with
    | unbounded => exact .inr ⟨id, rfl⟩
    | included e => exact hensure _ s e
    | excluded e => exact hensure _ s e
  | excluded s =>
    cases stop with
    | unbounded => exact .inr ⟨id, rfl⟩
    | included e => exact hensure _ s e
    | excluded e =>
      by_cases h : s = e
      · exact .inl ⟨.inr h, _, if_pos h⟩
      · rcases hensure _ s e with ⟨hgt, hp⟩ | ⟨hgt, hok⟩
        · exact .inl ⟨.inl hgt, by rw [checkBounds, if_neg h]; exact hp⟩
        · exact .inr ⟨not_or.mpr ⟨hgt, h⟩, by rw [checkBounds, if_neg h]; exact hok⟩

theorem Node.child_of_le {h : ℕ} {node : Node K V (h+1)} {idx : ℕ} (hle : idx ≤ node.keys.length) :
    ∃ n, node.child idx = some n := by
  cases node with
  | internal kvs edges =>
    have hlt : idx < kvs.length+1 := by simpa [Node.keys, Node.kvs] using Nat.lt_succ_of_le hle
    exact ⟨_, dif_pos hlt⟩

structure Bifurcation.InBounds (b : Bifurcation K V Q) : Prop where
  lower : b.lowerEdgeIdx ≤ b.node.keys.length
  upper : b.upperEdgeIdx ≤ b.node.keys.length

theorem edges_ok (borrow : K → Q) {h : ℕ} (node : Node K V h)
    (lowerBound upperBound : SearchBound Q) :
    ∃ lower lowerBound' upper upperBound',
      findLowerBoundIndex (node.keys.map borrow) lowerBound = .ok (lower, lowerBound') ∧
      findUpperBoundIndex (node.keys.map borrow) upperBound lower = .ok (upper, upperBound') ∧
      lower ≤ upper ∧ upper ≤ node.keys.length := by
  obtain ⟨lower, lowerBound', hlower, hle⟩ :=
    findLowerBoundIndex_ok (node.keys.map borrow) lowerBound
  obtain ⟨upper, upperBound', hupper, hge, hle'⟩ := findUpperBoundIndex_ok upperBound hle
  rw [List.length_map] at hle'
  exact ⟨lower, lowerBound', upper, upperBound', hlower, hupper, hge, hle'⟩

theorem bifurcationLoop_ok (borrow : K → Q) (h : ℕ) (node : Node K V h) (path : LeafEdge)
    (lowerBound upperBound : SearchBound Q) :
    ∃ r, bifurcationLoop borrow h node path lowerBound upperBound = .ok r ∧
      ∀ b, r = .ok b → b.InBounds := by
  induction h generalizing path lowerBound upperBound with
  | zero =>
    obtain ⟨lower, lowerBound', upper, upperBound', hlower, hupper, hle, hlen⟩ :=
      edges_ok borrow node lowerBound upperBound
    unfold bifurcationLoop
    simp only [hlower, ok_bind, hupper]
    split_ifs with hlt
    · exact ⟨_, rfl, fun b he => by cases he; exact ⟨by dsimp only; omega, hlen⟩⟩
    · rw [ensure_of _ (by omega)]
      exact ⟨_, rfl, fun b he => by cases he⟩
  | succ h ih =>
    obtain ⟨lower, lowerBound', upper, upperBound', hlower, hupper, hle, hlen⟩ :=
      edges_ok borrow node lowerBound upperBound
    unfold bifurcationLoop
    simp only [hlower, ok_bind, hupper]
    split_ifs with hlt
    · exact ⟨_, rfl, fun b he => by cases he; exact ⟨by dsimp only; omega, hlen⟩⟩
    · obtain ⟨n, hn⟩ := Node.child_of_le (hle.trans hlen)
      rw [ensure_of _ (by omega)]
      simp only [hn, ofOption_some, ok_bind]
      exact ih n _ _ _

theorem spanLoop_ok (borrow : K → Q) (h : ℕ) (lower upper : Node K V h)
    (lowerPath upperPath : LeafEdge) {lowerIdx upperIdx : ℕ} (lowerBound upperBound : SearchBound Q)
    (hlower : lowerIdx ≤ lower.keys.length) (hupper : upperIdx ≤ upper.keys.length) :
    ∃ r, spanLoop borrow h lower upper lowerPath upperPath lowerIdx upperIdx lowerBound
      upperBound = .ok r := by
  induction h generalizing lowerPath upperPath lowerIdx upperIdx lowerBound upperBound with
  | zero => exact ⟨_, rfl⟩
  | succ h ih =>
    obtain ⟨f, hf⟩ := Node.child_of_le hlower
    obtain ⟨b, hb⟩ := Node.child_of_le hupper
    obtain ⟨lowerIdx', lowerBound', hl, hle⟩ :=
      findLowerBoundIndex_ok (f.keys.map borrow) lowerBound
    obtain ⟨upperIdx', upperBound', hu, -, hle'⟩ :=
      findUpperBoundIndex_ok upperBound (Nat.zero_le (b.keys.map borrow).length)
    rw [List.length_map] at hle hle'
    obtain ⟨r, hr⟩ := ih f b (lowerPath++[lowerIdx]) (upperPath++[upperIdx]) lowerBound'
      upperBound' hle hle'
    refine ⟨r, ?_⟩
    rw [spanLoop]
    simp only [hf, hb, ofOption_some, ok_bind, hl, hu, hr]

theorem findLeafEdgesSpanningRange_cases (isSet : Bool) (borrow : K → Q) {h : ℕ}
    (node : Node K V h) (start stop : Bound Q) :
    Impossible start stop ∧
        Panics (findLeafEdgesSpanningRange isSet borrow node start stop) ∨
      ¬ Impossible start stop ∧
        ∃ r, findLeafEdgesSpanningRange isSet borrow node start stop = .ok r := by
  rcases checkBounds_cases isSet start stop with ⟨himp, message, hp⟩ | ⟨himp, hok⟩
  · left
    refine ⟨himp, message, ?_⟩
    simp only [findLeafEdgesSpanningRange, searchTreeForBifurcation, hp, panic_bind]
  · right
    refine ⟨himp, ?_⟩
    obtain ⟨r, hr, hin⟩ :=
      bifurcationLoop_ok borrow h node [] (.fromRange start) (.fromRange stop)
    simp only [findLeafEdgesSpanningRange, searchTreeForBifurcation, hok, ok_bind, hr]
    cases r with
    | error edge => exact ⟨_, rfl⟩
    | ok b =>
      exact spanLoop_ok borrow b.height b.node b.node b.path b.path b.lowerChildBound
        b.upperChildBound (hin b rfl).lower (hin b rfl).upper

theorem not_panics_ok {α : Type} (a : α) : ¬ Panics (.ok a : M α) := by
  rintro ⟨message, h⟩
  cases h

theorem BTreeMap.range_panics_iff_root (isSet : Bool) (borrow : K → Q) (self : BTreeMap K V)
    (start stop : Bound Q) :
    (Panics (self.range isSet borrow start stop) ↔ self.root.isSome ∧ Impossible start stop) ∧
      (¬ Panics (self.range isSet borrow start stop) →
        ∃ r, self.range isSet borrow start stop = .ok r) := by
  obtain ⟨root, length⟩ := self
  cases root with
  | none => exact ⟨by simp [BTreeMap.range, not_panics_ok], fun _ => ⟨_, rfl⟩⟩
  | some root =>
    simp only [BTreeMap.range, rangeSearch, Option.isSome_some, true_and]
    rcases findLeafEdgesSpanningRange_cases isSet borrow root.2 start stop with
      ⟨himp, hp⟩ | ⟨himp, r, hr⟩
    · exact ⟨iff_of_true hp himp, fun hn => absurd hp hn⟩
    · rw [hr]
      exact ⟨iff_of_false (not_panics_ok r) himp, fun _ => ⟨r, rfl⟩⟩

theorem BTreeMap.rangeMut_eq (isSet : Bool) (borrow : K → Q) (self : BTreeMap K V)
    (start stop : Bound Q) :
    self.rangeMut isSet borrow start stop = self.range isSet borrow start stop := by
  obtain ⟨root, length⟩ := self
  cases root <;> rfl

/-- The documented rule holds of a map with a root and of possible bounds, and of no
other call. Two maps, whatever they contain, agree if both or neither have a root, or
if the bounds are possible. -/
theorem BTreeMap.range_documented_iff (isSet : Bool) (borrow : K → Q) (start stop : Bound Q) :
    (∀ self : BTreeMap K V,
      ((Panics (self.range isSet borrow start stop) ↔ Impossible start stop) ↔
        self.root.isSome ∨ ¬ Impossible start stop) ∧
      ((Panics (self.rangeMut isSet borrow start stop) ↔ Impossible start stop) ↔
        self.root.isSome ∨ ¬ Impossible start stop)) ∧
    ∀ self other : BTreeMap K V,
      (Panics (self.range isSet borrow start stop) ↔
          Panics (other.range isSet borrow start stop)) ↔
        (self.root.isSome ↔ other.root.isSome) ∨ ¬ Impossible start stop := by
  constructor
  · intro self
    rw [self.rangeMut_eq, (self.range_panics_iff_root isSet borrow start stop).1]
    tauto
  · intro self other
    rw [(self.range_panics_iff_root isSet borrow start stop).1,
      (other.range_panics_iff_root isSet borrow start stop).1]
    tauto

end Search

/-- What is left of a map after its only element was removed. -/
def BTreeMap.emptied : BTreeMap K V := ⟨some ⟨0, .leaf []⟩, 0⟩

/-- A map that never held an element does not panic on `2..1`, and an emptied one,
with the same contents, does. -/
theorem BTreeMap.range_new_backwards :
    ¬ ((∀ (self : BTreeMap ℕ Unit) (start stop : Bound ℕ),
        Panics (self.range false id start stop) ↔ Impossible start stop) ∧
      ∀ self other : BTreeMap ℕ Unit, self.toList = other.toList → ∀ start stop : Bound ℕ,
        Panics (self.range false id start stop) ↔ Panics (other.range false id start stop)) ∧
    (BTreeMap.new : BTreeMap ℕ Unit).toList = BTreeMap.emptied.toList ∧
    Impossible (.included 2) (.excluded 1) ∧
    ¬ Panics ((BTreeMap.new : BTreeMap ℕ Unit).range false id (.included 2) (.excluded 1)) ∧
    Panics ((BTreeMap.emptied : BTreeMap ℕ Unit).range false id (.included 2) (.excluded 1)) := by
  have himp : Impossible (.included 2) (.excluded 1) := show 2 > 1 by decide
  have hnew : ¬ Panics ((BTreeMap.new : BTreeMap ℕ Unit).range false id (.included 2)
      (.excluded 1)) := not_panics_ok _
  have hemptied : Panics ((BTreeMap.emptied : BTreeMap ℕ Unit).range false id (.included 2)
      (.excluded 1)) := ⟨"range start is greater than range end in BTreeMap", rfl⟩
  exact ⟨fun h => hnew ((h.1 _ _ _).mpr himp), rfl, himp, hnew, hemptied⟩

end RustStd.BTree
