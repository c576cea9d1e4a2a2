import RustStd.Lib.Outcome

/-!
# Searching a B-tree

Nodes carry their height, and an internal node has one child more than it has
pairs, so that all leaves are equally deep. A leaf edge is the list of the edge
indices from the root down. A panic carries its message.
-/

set_option autoImplicit false

namespace RustStd.BTree
open RustStd.Outcome

variable {K V Q : Type}

inductive Node (K V : Type) : ℕ → Type
  | leaf (kvs : List (K × V)) : Node K V 0
  | internal {h : ℕ} (kvs : List (K × V)) (edges : Fin (kvs.length+1) → Node K V h) :
      Node K V (h+1)

namespace Node

def kvs {h : ℕ} : Node K V h → List (K × V)
  | .leaf kvs => kvs
  | .internal kvs _ => kvs

def keys {h : ℕ} (n : Node K V h) : List K := n.kvs.map Prod.fst

/-- `edge.descend()`. -/
def child {h : ℕ} : Node K V (h+1) → ℕ → Option (Node K V h)
  | .internal kvs edges, idx => if hlt : idx < kvs.length+1 then some (edges ⟨idx, hlt⟩) else none

end Node

abbrev LeafEdge := List ℕ

/-- Panics with a message. -/
abbrev M (α : Type) := Outcome String α

inductive Bound (Q : Type)
  | included (x : Q)
  | excluded (x : Q)
  | unbounded

inductive SearchBound (Q : Type)
  | included (x : Q)
  | excluded (x : Q)
  | allIncluded
  | allExcluded

def SearchBound.fromRange : Bound Q → SearchBound Q
  | .included t => .included t
  | .excluded t => .excluded t
  | .unbounded => .allIncluded

inductive IndexResult
  | kv (idx : ℕ)
  | edge (idx : ℕ)

def IndexResult.idx : IndexResult → ℕ
  | .kv idx => idx
  | .edge idx => idx

section Search

variable [LinearOrder Q]

/-- The loop of `find_key_index` over the keys from `idx` on. -/
def scanKeys (key : Q) : List Q → ℕ → IndexResult
  | [], idx => .edge idx
  | k::keys, idx =>
    match compare key k with
    | .gt => scanKeys key keys (idx+1)
    | .eq => .kv idx
    | .lt => .edge idx

def findKeyIndex (keys : List Q) (key : Q) (startIndex : ℕ) : M IndexResult := do
  require (startIndex ≤ keys.length)
  return scanKeys key (keys.drop startIndex) startIndex

def findLowerBoundIndex (keys : List Q) (bound : SearchBound Q) : M (ℕ × SearchBound Q) :=
  match bound with
  | .included key => do
    match ← findKeyIndex keys key 0 with
    | .kv idx => return (idx, .allExcluded)
    | .edge idx => return (idx, bound)
  | .excluded key => do
    match ← findKeyIndex keys key 0 with
    | .kv idx => return (idx+1, .allIncluded)
    | .edge idx => return (idx, bound)
  | .allIncluded => .ok (0, .allIncluded)
  | .allExcluded => .ok (keys.length, .allExcluded)

def findUpperBoundIndex (keys : List Q) (bound : SearchBound Q) (startIndex : ℕ) :
    M (ℕ × SearchBound Q) :=
  match bound with
  | .included key => do
    match ← findKeyIndex keys key startIndex with
    | .kv idx => return (idx+1, .allExcluded)
    | .edge idx => return (idx, bound)
  | .excluded key => do
    match ← findKeyIndex keys key startIndex with
    | .kv idx => return (idx, .allIncluded)
    | .edge idx => return (idx, bound)
  | .allIncluded => .ok (keys.length, .allIncluded)
  | .allExcluded => .ok (startIndex, .allExcluded)

theorem scanKeys_bounds (key : Q) (keys : List Q) (idx : ℕ) :
    idx ≤ (scanKeys key keys idx).idx ∧ (scanKeys key keys idx).idx ≤ idx+keys.length ∧
      ∀ i, scanKeys key keys idx = .kv i → i < idx+keys.length := by
  induction keys generalizing idx with
  | nil => simp [scanKeys, IndexResult.idx]
  | cons k keys ih =>
    obtain ⟨hle, hlen, hkv⟩ := ih (idx+1)
    unfold scanKeys
    cases compare key k with
    | gt =>
      simp only [List.length_cons]
      exact ⟨by omega, by omega, fun i hi => by have := hkv i hi; omega⟩
    | eq =>
      simp only [IndexResult.idx, List.length_cons, IndexResult.kv.injEq]
      exact ⟨le_rfl, by omega, fun i hi => by omega⟩
    | lt =>
      simp only [IndexResult.idx, List.length_cons, reduceCtorEq, false_implies, implies_true,
        and_true]
      exact ⟨le_rfl, by omega⟩

theorem findKeyIndex_ok {keys : List Q} {startIndex : ℕ} (key : Q)
    (h : startIndex ≤ keys.length) :
    ∃ r, findKeyIndex keys key startIndex = .ok r ∧ startIndex ≤ r.idx ∧ r.idx ≤ keys.length ∧
      ∀ i, r = .kv i → i < keys.length := by
  have hscan := scanKeys_bounds key (keys.drop startIndex) startIndex
  rw [List.length_drop, Nat.add_sub_cancel' h] at hscan
  refine ⟨_, ?_, hscan⟩
  simp [findKeyIndex, require_of h]

theorem findLowerBoundIndex_ok (keys : List Q) (bound : SearchBound Q) :
    ∃ idx bound', findLowerBoundIndex keys bound = .ok (idx, bound') ∧ idx ≤ keys.length := by
  cases bound with
  | included key =>
    obtain ⟨r, hr, -, hle, hkv⟩ := findKeyIndex_ok key (Nat.zero_le keys.length)
    cases r with
    | kv idx => exact ⟨idx, .allExcluded, by simp [findLowerBoundIndex, hr], hle⟩
    | edge idx => exact ⟨idx, .included key, by simp [findLowerBoundIndex, hr], hle⟩
  | excluded key =>
    obtain ⟨r, hr, -, hle, hkv⟩ := findKeyIndex_ok key (Nat.zero_le keys.length)
    cases r with
    | kv idx => exact ⟨idx+1, .allIncluded, by simp [findLowerBoundIndex, hr], hkv idx rfl⟩
    | edge idx => exact ⟨idx, .excluded key, by simp [findLowerBoundIndex, hr], hle⟩
  | allIncluded => exact ⟨0, .allIncluded, rfl, Nat.zero_le _⟩
  | allExcluded => exact ⟨keys.length, .allExcluded, rfl, le_rfl⟩

theorem findUpperBoundIndex_ok {keys : List Q} {startIndex : ℕ} (bound : SearchBound Q)
    (h : startIndex ≤ keys.length) :
    ∃ idx bound', findUpperBoundIndex keys bound startIndex = .ok (idx, bound') ∧
      startIndex ≤ idx ∧ idx ≤ keys.length := by
  cases bound with
  | included key =>
    obtain ⟨r, hr, hge, hle, hkv⟩ := findKeyIndex_ok key h
    cases r with
    | kv idx =>
      exact ⟨idx+1, .allExcluded, by simp [findUpperBoundIndex, hr], Nat.le_succ_of_le hge,
        hkv idx rfl⟩
    | edge idx => exact ⟨idx, .included key, by simp [findUpperBoundIndex, hr], hge, hle⟩
  | excluded key =>
    obtain ⟨r, hr, hge, hle, hkv⟩ := findKeyIndex_ok key h
    cases r with
    | kv idx => exact ⟨idx, .allIncluded, by simp [findUpperBoundIndex, hr], hge, hle⟩
    | edge idx => exact ⟨idx, .excluded key, by simp [findUpperBoundIndex, hr], hge, hle⟩
  | allIncluded => exact ⟨keys.length, .allIncluded, rfl, h, le_rfl⟩
  | allExcluded => exact ⟨startIndex, .allExcluded, rfl, le_rfl, h⟩

end Search

end RustStd.BTree
