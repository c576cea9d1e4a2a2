import RustStd.Path.Components
import RustStd.Path.WindowsPrefix

/-!
# Path components under the Windows rules

The same iterator as under the unix rules, with a prefix in front. `none` is a
panic: a failed assertion or a slice out of range.
-/

set_option autoImplicit false

namespace RustStd.WindowsPath
open RustStd.Loop
open RustStd.Path (State rposition)

inductive Component
  | atPrefix (raw : List UInt8) (parsed : Prefix)
  | rootDir
  | curDir
  | parentDir
  | normal (s : List UInt8)
  deriving DecidableEq, Repr

def Component.asOsStr : Component → List UInt8
  | .atPrefix raw _ => raw
  | .rootDir => [92]
  | .curDir => [46]
  | .parentDir => [46, 46]
  | .normal s => s

structure Components where
  path : List UInt8
  pre : Option Prefix
  hasPhysicalRoot : Bool
  front : State
  back : State
  deriving DecidableEq, Repr

def hasPhysicalRoot (s : List UInt8) (pre : Option Prefix) : Option Bool := do
  let path ← match pre with
    | some p => sliceFrom s p.len
    | none => some s
  return path.head?.any isSepByte

def components (path : List UInt8) : Option Components := do
  let pre ← parsePrefix path
  let root ← hasPhysicalRoot path pre
  return { path, pre, hasPhysicalRoot := root, front := .atPrefix, back := .body }

/-- Whether a path starts with a `.` of its own. -/
def startsWithDot (sep : UInt8 → Bool) : List UInt8 → Bool
  | [46] => true
  | 46 :: b :: _ => sep b
  | _ => false

namespace Components

variable (self : Components)

def prefixLen : ℕ := (self.pre.map Prefix.len).getD 0

def prefixVerbatim : Bool := (self.pre.map Prefix.isVerbatim).getD false

def prefixRemaining : ℕ := if self.front = .atPrefix then self.prefixLen else 0

def isSep (b : UInt8) : Bool := if self.prefixVerbatim then isVerbatimSep b else isSepByte b

def hasRoot : Bool := self.hasPhysicalRoot || self.pre.any Prefix.hasImplicitRoot

def includeCurDir : Option Bool :=
  if self.hasRoot then some false
  else do
    let iter ← sliceFrom self.path self.prefixRemaining
    return startsWithDot self.isSep iter

def lenBeforeBody : Option ℕ := do
  let root := if self.front.rank ≤ State.startDir.rank ∧ self.hasPhysicalRoot then 1 else 0
  if self.front.rank ≤ State.startDir.rank then
    return self.prefixRemaining+root+if ← self.includeCurDir then 1 else 0
  else return self.prefixRemaining+root

def finished : Bool :=
  self.front = .done ∨ self.back = .done ∨ self.back.rank < self.front.rank

def parseSingleComponent (verbatim : Bool) : List UInt8 → Option Component
  | [46] => if verbatim then some .curDir else none
  | [46, 46] => some .parentDir
  | [] => none
  | comp => some (.normal comp)

def parseNextComponent : Option (ℕ × Option Component) :=
  if self.front = .body then
    let (extra, comp) := match self.path.findIdx? self.isSep with
      | none => (0, self.path)
      | some i => (1, self.path.take i)
    some (comp.length+extra, parseSingleComponent self.prefixVerbatim comp)
  else none

def parseNextComponentBack : Option (ℕ × Option Component) := do
  if self.back = .body then
    let start ← self.lenBeforeBody
    let rest ← sliceFrom self.path start
    let (extra, comp) ← match rposition self.isSep rest with
      | none => some (0, rest)
      | some i => (sliceFrom self.path (start+i+1)).map fun comp => (1, comp)
    return (comp.length+extra, parseSingleComponent self.prefixVerbatim comp)
  else none

def dropFront (n : ℕ) : Option Components :=
  (sliceFrom self.path n).map fun path => { self with path }

def dropBack (n : ℕ) : Option Components :=
  if n ≤ self.path.length then some { self with path := self.path.take (self.path.length-n) }
  else none

def nextStep : Option (Components ⊕ (Option Component × Components)) :=
  if self.finished then some (.inr (none, self))
  else
    match self.front with
    | .atPrefix =>
      if self.prefixLen > 0 then do
        let raw ← sliceTo self.path self.prefixLen
        let self' ← { self with front := .startDir }.dropFront self.prefixLen
        let parsed ← self.pre
        return .inr (some (.atPrefix raw parsed), self')
      else some (.inl { self with front := .startDir })
    | .startDir =>
      let self := { self with front := .body }
      if self.hasPhysicalRoot then
        (self.dropFront 1).map fun self => .inr (some .rootDir, self)
      else
        match self.pre with
        | some p =>
          if p.hasImplicitRoot && !p.isVerbatim then some (.inr (some .rootDir, self))
          else some (.inl self)
        | none => do
          if ← self.includeCurDir then
            (self.dropFront 1).map fun self => .inr (some .curDir, self)
          else some (.inl self)
    | .body =>
      if self.path.isEmpty then some (.inl { self with front := .done })
      else do
        let (size, comp) ← self.parseNextComponent
        let self ← self.dropFront size
        return if comp.isSome then .inr (comp, self) else .inl self
    | .done => none

def next : Option (Option Component × Components) :=
  loop nextStep (self.path.length+4) self

def nextBackStep : Option (Components ⊕ (Option Component × Components)) :=
  if self.finished then some (.inr (none, self))
  else
    match self.back with
    | .body => do
      let start ← self.lenBeforeBody
      if start < self.path.length then
        let (size, comp) ← self.parseNextComponentBack
        let self ← self.dropBack size
        return if comp.isSome then .inr (comp, self) else .inl self
      else return .inl { self with back := .startDir }
    | .startDir =>
      let self := { self with back := .atPrefix }
      if self.hasPhysicalRoot then
        (self.dropBack 1).map fun self => .inr (some .rootDir, self)
      else
        match self.pre with
        | some p =>
          if p.hasImplicitRoot && !p.isVerbatim then some (.inr (some .rootDir, self))
          else some (.inl self)
        | none => do
          if ← self.includeCurDir then
            (self.dropBack 1).map fun self => .inr (some .curDir, self)
          else some (.inl self)
    | .atPrefix =>
      if self.prefixLen > 0 then do
        let parsed ← self.pre
        return .inr (some (.atPrefix self.path parsed), { self with back := .done })
      else some (.inr (none, { self with back := .done }))
    | .done => none

def nextBack : Option (Option Component × Components) :=
  loop nextBackStep (self.path.length+4) self

end Components

def componentList (path : List UInt8) : Option (List Component) := do
  let c ← components path
  collect Components.next (path.length+3) c

end RustStd.WindowsPath
