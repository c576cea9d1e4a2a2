import RustStd.Lib.IterCompare
import RustStd.Path.ComponentsSpec

/-!
# Equality, order and hash of paths

`PartialEq`, `Ord` and `Hash` for `Path` in `library/std/src/path.rs`. Equality
goes from back to front behind a test for equal bytes, the order skips what
comes before the separator in front of the first difference, and the hash scans
the bytes on its own. All three depend on the components only.
-/

set_option autoImplicit false

namespace RustStd.Path
open RustStd.DoubleEnded RustStd.IterCompare Components

def Component.rank : Component → ℕ
  | .rootDir => 0
  | .curDir => 1
  | .parentDir => 2
  | .normal _ => 3

/-- The derived order: the kinds in their order, and names by their bytes. -/
def Component.cmp : Component → Component → Ordering
  | .normal s, .normal t => compare s t
  | a, b => compare a.rank b.rank

instance : Std.LawfulEqCmp Component.cmp where
  compare_self := by
    intro a
    cases a <;> simp [Component.cmp]
  eq_of_compare := by
    intro a b h
    cases a <;> cases b <;> simp_all [Component.cmp, Component.rank]

namespace Components

def eq (self other : Components) : Option Bool :=
  if self.path.length = other.path.length ∧ self.front = other.front ∧ self.back = .body ∧
      other.back = .body ∧ self.path = other.path then
    some true
  else iterEq nextBack (self.path.length+2) self other

/-- What the fast path of `compare_components` leaves to compare; `none` where it
has found the paths equal. -/
def skipCommon (left right : Components) : Option (Components × Components) :=
  if left.front = right.front then
    let compareFrom (firstDifference : ℕ) :=
      match rposition isSepByte (left.path.take firstDifference) with
      | some previousSep =>
        let mismatchedComponentStart := previousSep+1
        ({ left with path := left.path.drop mismatchedComponentStart, front := .body },
          { right with path := right.path.drop mismatchedComponentStart, front := .body })
      | none => (left, right)
    match (left.path.zip right.path).findIdx? fun (a, b) => a != b with
    | none =>
      if left.path.length = right.path.length then none
      else some (compareFrom (min left.path.length right.path.length))
    | some diff => some (compareFrom diff)
  else some (left, right)

def compareComponents (left right : Components) : Option Ordering :=
  match skipCommon left right with
  | none => some .eq
  | some (left, right) => iterCmp Component.cmp next (left.path.length+2) left right

end Components

def eq (a b : List UInt8) : Option Bool := (components a).eq (components b)

def cmp (a b : List UInt8) : Option Ordering := compareComponents (components a) (components b)

section Compare

theorem eq_spec (a b : List UInt8) : eq a b = some (decide (comps a = comps b)) := by
  unfold eq Components.eq
  split
  · rename_i h
    have hab : a = b := h.2.2.2.2
    rw [hab, decide_eq_true rfl]
  · have hr := components_holds.rev
    have hl : (comps a).reverse.length < (components a).path.length+2 := by
      rw [List.length_reverse]
      exact comps_fuel a
    have ha : Left (components a) (comps a).reverse.reverse := by
      rw [List.reverse_reverse]
      exact components_left a
    have hb : Left (components b) (comps b).reverse.reverse := by
      rw [List.reverse_reverse]
      exact components_left b
    rw [iterEq_eq hr ha hb hl]
    simp only [List.reverse_inj]

theorem comps_sep (u a : List UInt8) :
    comps (u ++ 47 :: a) = (if u = [] then [.rootDir] else comps u) ++ bodyComps a := by
  by_cases hu : u = []
  · rw [if_pos hu, hu]
    rfl
  · have hs := startComp_sep a hu
    rw [if_neg hu, comps, comps, startLen, hs, ← startLen,
      List.drop_append_of_le_length (startLen_le u), bodyComps_sep, List.append_assoc]

theorem take_of_difference {a b : List UInt8} {d : ℕ}
    (h : ((a.zip b).findIdx? fun (x, y) => x != y) = some d) : a.take d = b.take d := by
  induction a generalizing b d with
  | nil => simp at h
  | cons x a ih =>
    cases b with
    | nil => simp at h
    | cons y b =>
      rw [List.zip_cons_cons, List.findIdx?_cons] at h
      by_cases hxy : x = y
      · simp only [hxy, bne_self_eq_false, Bool.false_eq_true, if_false, Option.map_eq_some_iff] at h
        obtain ⟨d, hd, rfl⟩ := h
        rw [List.take_succ_cons, List.take_succ_cons, ih hd, hxy]
      · have hne : (x != y) = true := by simpa using hxy
        simp only [hne, if_true, Option.some.injEq] at h
        rw [← h]
        rfl

theorem take_of_no_difference {a b : List UInt8}
    (h : ((a.zip b).findIdx? fun (x, y) => x != y) = none) :
    a.take (min a.length b.length) = b.take (min a.length b.length) := by
  induction a generalizing b with
  | nil => simp
  | cons x a ih =>
    cases b with
    | nil => simp
    | cons y b =>
      rw [List.zip_cons_cons, List.findIdx?_cons] at h
      by_cases hxy : x = y
      · simp only [hxy, bne_self_eq_false, Bool.false_eq_true, if_false, Option.map_eq_none_iff] at h
        have hmin : min (x :: a).length (y :: b).length = min a.length b.length+1 := by
          simp only [List.length_cons]
          omega
        rw [hmin, List.take_succ_cons, List.take_succ_cons, ih h, hxy]
      · have hne : (x != y) = true := by simpa using hxy
        simp [hne] at h

theorem rposition_some {l : List UInt8} {s : ℕ} (h : rposition isSepByte l = some s) :
    ∃ u v, l = u ++ 47 :: v ∧ u.length = s := by
  rcases last_sep l with hs | ⟨u, v, rfl, hv⟩
  · rw [rposition_piece hs] at h
    cases h
  · rw [rposition_sep u hv] at h
    exact ⟨u, v, rfl, Option.some.inj h⟩

theorem split_of_take {a u v : List UInt8} {d : ℕ} (h : a.take d = u ++ 47 :: v) :
    a = u ++ 47 :: a.drop (u.length+1) := by
  have ha : a = u ++ 47 :: (v ++ a.drop d) := by
    rw [← List.cons_append, ← List.append_assoc, ← h, List.take_append_drop]
  have hd : a.drop (u.length+1) = v ++ a.drop d := by
    conv_lhs => rw [ha]
    simp
  rw [hd]
  exact ha

theorem compare_from {a b : List UInt8} {d : ℕ} (h : a.take d = b.take d) (left right : Components)
    (he : (left, right) = match rposition isSepByte (a.take d) with
      | some s => ({ components a with path := a.drop (s+1), front := .body },
          { components b with path := b.drop (s+1), front := .body })
      | none => (components a, components b)) :
    iterCmp Component.cmp next (left.path.length+2) left right =
      some (List.compareLex Component.cmp (comps a) (comps b)) := by
  cases hr : rposition isSepByte (a.take d) with
  | none =>
    rw [hr] at he
    obtain ⟨rfl, rfl⟩ := Prod.mk.inj he
    exact iterCmp_eq Component.cmp components_holds (components_left a) (components_left b)
      (comps_fuel a)
  | some s =>
    rw [hr] at he
    obtain ⟨rfl, rfl⟩ := Prod.mk.inj he
    obtain ⟨u, v, hu, rfl⟩ := rposition_some hr
    have ha := split_of_take hu
    have hb := split_of_take (h ▸ hu)
    have hl : (bodyComps (a.drop (u.length+1))).length < (a.drop (u.length+1)).length+2 := by
      have := bodyComps_length (a.drop (u.length+1))
      omega
    rw [iterCmp_eq Component.cmp components_holds (.body _ rfl rfl) (.body _ rfl rfl) hl]
    conv_rhs => rw [ha, hb, comps_sep, comps_sep, compareLex_append]

theorem cmp_spec (a b : List UInt8) :
    cmp a b = some (List.compareLex Component.cmp (comps a) (comps b)) := by
  unfold cmp compareComponents skipCommon
  rw [if_pos (by rfl)]
  cases hd : ((components a).path.zip (components b).path).findIdx? fun (x, y) => x != y with
  | some d => exact compare_from (take_of_difference hd) _ _ rfl
  | none =>
    have ht := take_of_no_difference hd
    by_cases hl : (components a).path.length = (components b).path.length
    · have hab : a = b := by
        rw [hl, min_self, List.take_length, ← hl, List.take_length] at ht
        exact ht
      have hrefl : List.compareLex Component.cmp (comps b) (comps b) = .eq := Std.ReflCmp.compare_self
      dsimp only
      rw [if_pos hl, hab, hrefl]
    · dsimp only
      rw [if_neg hl]
      exact compare_from ht _ _ rfl

end Compare

inductive Write (w : ℕ)
  | bytes (l : List UInt8)
  | usize (n : BitVec w)
  deriving DecidableEq, Repr

structure HashScan (w : ℕ) where
  componentStart : ℕ
  chunkBits : BitVec w
  writes : List (Write w)
  deriving DecidableEq, Repr

namespace HashScan
variable {w : ℕ}

def hashChunk (h : HashScan w) (toHash : List UInt8) : HashScan w :=
  { h with
    chunkBits := (h.chunkBits+BitVec.ofNat w toHash.length).rotateRight 2
    writes := h.writes ++ [.bytes toHash] }

/-- How far a `.` after a separator is skipped. -/
def skipCurDir : List UInt8 → ℕ
  | [46] => 1
  | 46 :: sep :: _ => if isSepByte sep then 1 else 0
  | _ => 0

def step (bytes : List UInt8) (h : HashScan w) (i : ℕ) : HashScan w :=
  if bytes[i]?.any isSepByte then
    let h := if h.componentStart < i then
        h.hashChunk ((bytes.take i).drop h.componentStart)
      else h
    let componentStart := i+1
    { h with componentStart := componentStart+skipCurDir (bytes.drop componentStart) }
  else h

def finish (bytes : List UInt8) (h : HashScan w) : List (Write w) :=
  let h := if h.componentStart < bytes.length then h.hashChunk (bytes.drop h.componentStart) else h
  h.writes ++ [.usize h.chunkBits]

end HashScan

/-- `Hash for Path`, as the calls it makes to the hasher; `usize` has `w` bits. -/
def hash (w : ℕ) (bytes : List UInt8) : List (Write w) :=
  HashScan.finish bytes ((List.range bytes.length).foldl (HashScan.step bytes) ⟨0, 0, []⟩)

/-- The bytes that a component gives to the hasher. -/
def Component.payload : Component → Option (List UInt8)
  | .rootDir => none
  | .curDir => some [46]
  | .parentDir => some [46, 46]
  | .normal s => some s

def bodyChunks (p : List UInt8) : List (List UInt8) := (bodyComps p).filterMap Component.payload

def chunk (a : List UInt8) : List (List UInt8) := if a = [] then [] else [a]

/-- The chunks of a path whose first piece is taken as it is. -/
def rawChunks (p : List UInt8) : List (List UInt8) :=
  chunk (p.takeWhile fun b => !isSepByte b) ++
    bodyChunks ((p.dropWhile fun b => !isSepByte b).drop 1)

section Chunks
variable {a : List UInt8}

theorem not_isSep_of_not_mem (h : 47 ∉ a) : ∀ b ∈ a, (!isSepByte b) = true := by
  intro b hb
  have hne : b ≠ 47 := fun he => h (he ▸ hb)
  simpa [isSepByte] using hne

theorem rawChunks_piece (h : 47 ∉ a) : rawChunks a = chunk a := by
  rw [rawChunks, List.takeWhile_eq_self_iff.mpr (not_isSep_of_not_mem h),
    List.dropWhile_eq_nil_iff.mpr (not_isSep_of_not_mem h)]
  simp [bodyChunks]

theorem rawChunks_sep (b : List UInt8) (h : 47 ∉ a) :
    rawChunks (a ++ 47 :: b) = chunk a ++ bodyChunks b := by
  rw [rawChunks, List.takeWhile_append_of_pos (not_isSep_of_not_mem h),
    List.dropWhile_append_of_pos (not_isSep_of_not_mem h)]
  simp [isSepByte]

theorem bodyChunks_sep (a b : List UInt8) :
    bodyChunks (a ++ 47 :: b) = bodyChunks a ++ bodyChunks b := by
  rw [bodyChunks, bodyComps_sep, List.filterMap_append]
  rfl

theorem bodyChunks_piece (h : 47 ∉ a) (hdot : a ≠ [46]) : bodyChunks a = chunk a := by
  rw [bodyChunks, bodyComps_piece h, chunk]
  unfold parseSingleComponent
  split
  · exact absurd rfl hdot
  · rfl
  · rfl
  · rename_i h₁ h₂ h₃
    rw [if_neg h₃]
    rfl

theorem rawChunks_body {p : List UInt8} (h : HashScan.skipCurDir p = 0) :
    rawChunks p = bodyChunks p := by
  rcases first_sep p with hs | ⟨a, b, rfl, ha⟩
  · rw [rawChunks_piece hs, bodyChunks_piece hs]
    rintro rfl
    exact absurd h (by decide)
  · rw [rawChunks_sep b ha, bodyChunks_sep, bodyChunks_piece ha]
    rintro rfl
    exact absurd h (by simp [HashScan.skipCurDir, isSepByte])

theorem skipCurDir_cases (p : List UInt8) : HashScan.skipCurDir p = 0 ∨ p = [46] ∨
    ∃ t, p = 46 :: 47 :: t := by
  unfold HashScan.skipCurDir
  split
  · exact .inr (.inl rfl)
  · rename_i b t
    by_cases hb : b = 47
    · exact .inr (.inr ⟨t, by rw [hb]⟩)
    · exact .inl (by simp [isSepByte, hb])
  · exact .inl rfl

theorem rawChunks_skip (p : List UInt8) :
    rawChunks (p.drop (HashScan.skipCurDir p)) = bodyChunks p := by
  rcases skipCurDir_cases p with h | rfl | ⟨t, rfl⟩
  · rw [h, List.drop_zero, rawChunks_body h]
  · decide
  · have hs : HashScan.skipCurDir (46 :: 47 :: t) = 1 := by simp [HashScan.skipCurDir, isSepByte]
    have hd : (46 :: 47 :: t).drop 1 = [] ++ 47 :: t := rfl
    have hp : (46 : UInt8) :: 47 :: t = [46] ++ 47 :: t := rfl
    rw [hs, hd, rawChunks_sep t (by simp), hp, bodyChunks_sep]
    rfl

theorem rawChunks_comps (p : List UInt8) : rawChunks p = (comps p).filterMap Component.payload := by
  cases h : startComp p with
  | none =>
    rw [comps_of_none h]
    refine rawChunks_body ?_
    rcases skipCurDir_cases p with hz | rfl | ⟨t, rfl⟩
    · exact hz
    · cases h
    · cases h
  | some x =>
    rw [comps_of_some h]
    unfold startComp at h
    split at h
    · rename_i t
      obtain rfl := Option.some.inj h
      exact rawChunks_sep (a := []) t (by simp)
    · obtain rfl := Option.some.inj h
      decide
    · rename_i t
      obtain rfl := Option.some.inj h
      have hd : (46 :: 47 :: t).drop 1 = [] ++ 47 :: t := rfl
      have hp : (46 : UInt8) :: 47 :: t = [46] ++ 47 :: t := rfl
      rw [hd, bodyComps_sep, hp, rawChunks_sep t (by decide)]
      rfl
    · cases h

end Chunks

namespace HashScan
variable {w : ℕ} {bytes : List UInt8}

def emitted (w : ℕ) (chunks : List (List UInt8)) : HashScan w := chunks.foldl hashChunk ⟨0, 0, []⟩

/-- After `i` bytes: what was hashed and what the bytes from the start of the
component on give are the chunks of the path. The start is in front of byte `i`
with no separator between, or behind it where a `.` is skipped. -/
def Scanned (bytes : List UInt8) (i : ℕ) (h : HashScan w) : Prop :=
  ∃ done, h = { emitted w done with componentStart := h.componentStart } ∧
    done ++ rawChunks (bytes.drop h.componentStart) = rawChunks bytes ∧
    (h.componentStart ≤ i ∧ 47 ∉ (bytes.take i).drop h.componentStart ∨
      h.componentStart = i+1 ∧ bytes[i]? = some 46)

theorem emitted_chunk (done : List (List UInt8)) (a : List UInt8) (s s' : ℕ) :
    { hashChunk { emitted w done with componentStart := s } a with componentStart := s' } =
      { emitted w (done ++ [a]) with componentStart := s' } := by
  rw [emitted, emitted, List.foldl_append]
  rfl

theorem step_sep {i : ℕ} {h : HashScan w} (hb : bytes[i]? = some 47) (hi : i < bytes.length)
    (done : List (List UInt8)) (he : h = { emitted w done with componentStart := h.componentStart })
    (hle : h.componentStart ≤ i) :
    h.step bytes i =
      { emitted w (done ++ chunk ((bytes.take i).drop h.componentStart)) with
        componentStart := i+1+skipCurDir (bytes.drop (i+1)) } := by
  unfold step
  rw [hb, if_pos (by decide)]
  by_cases hlt : h.componentStart < i
  · have hne : (bytes.take i).drop h.componentStart ≠ [] := by
      intro hnil
      have hl := congrArg List.length hnil
      simp only [List.length_drop, List.length_take, List.length_nil] at hl
      omega
    simp only [if_pos hlt]
    rw [chunk, if_neg hne]
    conv_lhs => rw [he]
    exact emitted_chunk done _ _ _
  · have hnil : (bytes.take i).drop h.componentStart = [] :=
      List.drop_eq_nil_of_le (by rw [List.length_take]; omega)
    simp only [if_neg hlt]
    rw [hnil, chunk, if_pos rfl, List.append_nil]
    conv_lhs => rw [he]

theorem step_scanned {i : ℕ} {h : HashScan w} (hi : i < bytes.length) (hs : Scanned bytes i h) :
    Scanned bytes (i+1) (h.step bytes i) := by
  obtain ⟨done, he, hd, hpos⟩ := hs
  obtain ⟨b, hb⟩ : ∃ b, bytes[i]? = some b := ⟨bytes[i], List.getElem?_eq_getElem hi⟩
  by_cases hsep : b = 47
  · rcases hpos with ⟨hle, hmem⟩ | ⟨-, hdot⟩
    · rw [hsep] at hb
      rw [step_sep hb hi done he hle]
      have hsplit : bytes.drop h.componentStart =
          (bytes.take i).drop h.componentStart ++ 47 :: bytes.drop (i+1) := by
        have hcut : bytes = bytes.take i ++ 47 :: bytes.drop (i+1) := by
          rw [List.getElem?_eq_getElem hi, Option.some.injEq] at hb
          rw [← hb, List.getElem_cons_drop, List.take_append_drop]
        conv_lhs => rw [hcut]
        exact List.drop_append_of_le_length (by rw [List.length_take]; omega)
      refine ⟨_, rfl, ?_, ?_⟩
      · rw [← List.drop_drop, rawChunks_skip, List.append_assoc, ← hd, hsplit,
          rawChunks_sep _ hmem]
      · rcases skipCurDir_cases (bytes.drop (i+1)) with hz | hdot | ⟨t, hdot⟩
        · have hnil : (bytes.take (i+1)).drop (i+1+0) = [] :=
            List.drop_eq_nil_of_le (by rw [List.length_take]; omega)
          rw [hz]
          exact .inl ⟨le_refl _, by rw [hnil]; simp⟩
        · refine .inr ⟨by rw [hdot]; rfl, ?_⟩
          rw [← List.head?_drop, hdot]
          rfl
        · refine .inr ⟨by rw [hdot]; rfl, ?_⟩
          rw [← List.head?_drop, hdot]
          rfl
    · rw [hb, hsep] at hdot
      exact absurd hdot (by decide)
  · unfold step
    rw [hb, if_neg (by simpa [isSepByte] using hsep)]
    refine ⟨done, he, hd, .inl ?_⟩
    rcases hpos with ⟨hle, hmem⟩ | ⟨heq, -⟩
    · refine ⟨by omega, ?_⟩
      have ht : bytes.take (i+1) = bytes.take i ++ [b] := by
        rw [List.take_add_one, hb]
        rfl
      rw [ht, List.drop_append_of_le_length (by rw [List.length_take]; omega)]
      simpa [hmem] using Ne.symm hsep
    · refine ⟨by omega, ?_⟩
      rw [heq, List.drop_eq_nil_of_le (by rw [List.length_take]; omega)]
      simp

theorem scan_scanned (n : ℕ) (hn : n ≤ bytes.length) :
    Scanned bytes n ((List.range n).foldl (step bytes) (⟨0, 0, []⟩ : HashScan w)) := by
  induction n with
  | zero => exact ⟨[], rfl, rfl, .inl ⟨le_refl 0, by simp⟩⟩
  | succ n ih =>
    rw [List.range_succ, List.foldl_append]
    exact step_scanned (by omega) (ih (by omega))

theorem finish_scanned {h : HashScan w} (hs : Scanned bytes bytes.length h) :
    finish bytes h =
      (emitted w (rawChunks bytes)).writes ++ [.usize (emitted w (rawChunks bytes)).chunkBits] := by
  obtain ⟨done, he, hd, hpos⟩ := hs
  rcases hpos with ⟨hle, hmem⟩ | ⟨-, hdot⟩
  · rw [List.take_length] at hmem
    rw [← hd, rawChunks_piece hmem]
    unfold finish
    by_cases hlt : h.componentStart < bytes.length
    · have hne : bytes.drop h.componentStart ≠ [] := by simpa using hlt
      rw [if_pos hlt, chunk, if_neg hne]
      conv_lhs => rw [he]
      rw [emitted, emitted, List.foldl_append]
      rfl
    · have hnil : bytes.drop h.componentStart = [] := List.drop_eq_nil_of_le (by omega)
      rw [if_neg hlt, hnil, chunk, if_pos rfl, List.append_nil]
      conv_lhs => rw [he]
  · simp at hdot

end HashScan

theorem hash_spec (w : ℕ) (p : List UInt8) :
    hash w p = (HashScan.emitted w ((comps p).filterMap Component.payload)).writes ++
      [.usize (HashScan.emitted w ((comps p).filterMap Component.payload)).chunkBits] := by
  rw [hash, HashScan.finish_scanned (HashScan.scan_scanned p.length (le_refl _)), rawChunks_comps]

/-- Equality, order and hash of two paths, by their components. -/
theorem path_eq_cmp_hash (w : ℕ) (a b : List UInt8) :
    ∃ la lb e o, componentList a = some la ∧ componentList b = some lb ∧
      eq a b = some e ∧ cmp a b = some o ∧
      (e = true ↔ la = lb) ∧ (e = true ↔ o = .eq) ∧ o = List.compareLex Component.cmp la lb ∧
      (e = true → hash w a = hash w b) := by
  refine ⟨comps a, comps b, _, _, componentList_eq a, componentList_eq b, eq_spec a b,
    cmp_spec a b, decide_eq_true_iff, ?_, rfl, ?_⟩
  · rw [decide_eq_true_iff, Std.LawfulEqCmp.compare_eq_iff_eq]
  · intro h
    rw [hash_spec, hash_spec, of_decide_eq_true h]

end RustStd.Path
