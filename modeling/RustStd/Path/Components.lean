import RustStd.Lib.DoubleEnded
import RustStd.Lib.Loop

/-!
# Path components

`library/std/src/path.rs` under the unix rules: the only separator is `/` and
`parse_prefix` returns `None`, so `prefix_len` is `0`, `prefix_verbatim` is
false and `State::Prefix` yields nothing. A path is its bytes. `none` is a
panic.
-/

set_option autoImplicit false

namespace RustStd.Path
open RustStd.Loop

inductive Component
  | rootDir
  | curDir
  | parentDir
  | normal (s : List UInt8)
  deriving DecidableEq, Repr

inductive State
  | atPrefix
  | startDir
  | body
  | done
  deriving DecidableEq, Repr

def State.rank : State → ℕ
  | .atPrefix => 0
  | .startDir => 1
  | .body => 2
  | .done => 3

def isSepByte (b : UInt8) : Bool := b == 47

structure Components where
  path : List UInt8
  hasPhysicalRoot : Bool
  front : State
  back : State
  deriving DecidableEq, Repr

def components (p : List UInt8) : Components :=
  { path := p, hasPhysicalRoot := p.head?.any isSepByte, front := .atPrefix, back := .body }

def rposition (p : UInt8 → Bool) (l : List UInt8) : Option ℕ :=
  (l.reverse.findIdx? p).map fun i => l.length-1-i

namespace Components

def includeCurDir (self : Components) : Bool :=
  if self.hasPhysicalRoot then false
  else
    match self.path with
    | [46] => true
    | 46 :: b :: _ => isSepByte b
    | _ => false

def lenBeforeBody (self : Components) : ℕ :=
  let root := if self.front.rank ≤ State.startDir.rank ∧ self.hasPhysicalRoot then 1 else 0
  let curDir := if self.front.rank ≤ State.startDir.rank ∧ self.includeCurDir then 1 else 0
  root+curDir

def finished (self : Components) : Bool :=
  self.front = .done ∨ self.back = .done ∨ self.back.rank < self.front.rank

def parseSingleComponent (comp : List UInt8) : Option Component :=
  match comp with
  | [46] => none
  | [46, 46] => some .parentDir
  | [] => none
  | _ => some (.normal comp)

def parseNextComponent (self : Components) : ℕ × Option Component :=
  let (extra, comp) := match self.path.findIdx? isSepByte with
    | none => (0, self.path)
    | some i => (1, self.path.take i)
  (comp.length+extra, parseSingleComponent comp)

def parseNextComponentBack (self : Components) : ℕ × Option Component :=
  let start := self.lenBeforeBody
  let (extra, comp) := match rposition isSepByte (self.path.drop start) with
    | none => (0, self.path.drop start)
    | some i => (1, self.path.drop (start+i+1))
  (comp.length+extra, parseSingleComponent comp)

def dropFront (self : Components) (n : ℕ) : Option Components :=
  if n ≤ self.path.length then some { self with path := self.path.drop n } else none

def dropBack (self : Components) (n : ℕ) : Option Components :=
  if n ≤ self.path.length then some { self with path := self.path.take (self.path.length-n) }
  else none

def trimLeftStep (self : Components) : Option (Components ⊕ Components) :=
  if self.path.isEmpty then some (.inr self)
  else
    let (size, comp) := self.parseNextComponent
    if comp.isSome then some (.inr self) else (self.dropFront size).map .inl

def trimLeft (self : Components) : Option Components :=
  loop trimLeftStep (self.path.length+1) self

def trimRightStep (self : Components) : Option (Components ⊕ Components) :=
  if self.lenBeforeBody < self.path.length then
    let (size, comp) := self.parseNextComponentBack
    if comp.isSome then some (.inr self) else (self.dropBack size).map .inl
  else some (.inr self)

def trimRight (self : Components) : Option Components :=
  loop trimRightStep (self.path.length+1) self

def asPath (self : Components) : Option (List UInt8) :=
  let comps := if self.front = .body then self.trimLeft else some self
  let comps := comps.bind fun comps => if comps.back = .body then comps.trimRight else some comps
  comps.map Components.path

/-- One round of the loop in `next`. -/
def nextStep (self : Components) : Option (Components ⊕ (Option Component × Components)) :=
  if self.finished then some (.inr (none, self))
  else
    match self.front with
    | .atPrefix => some (.inl { self with front := .startDir })
    | .startDir =>
      let self := { self with front := .body }
      if self.hasPhysicalRoot then
        (self.dropFront 1).map fun self => .inr (some .rootDir, self)
      else if self.includeCurDir then
        (self.dropFront 1).map fun self => .inr (some .curDir, self)
      else some (.inl self)
    | .body =>
      if self.path.isEmpty then some (.inl { self with front := .done })
      else do
        let (size, comp) := self.parseNextComponent
        let self ← self.dropFront size
        return if comp.isSome then .inr (comp, self) else .inl self
    | .done => none

def next (self : Components) : Option (Option Component × Components) :=
  loop nextStep (self.path.length+4) self

/-- One round of the loop in `next_back`. -/
def nextBackStep (self : Components) : Option (Components ⊕ (Option Component × Components)) :=
  if self.finished then some (.inr (none, self))
  else
    match self.back with
    | .body =>
      if self.lenBeforeBody < self.path.length then do
        let (size, comp) := self.parseNextComponentBack
        let self ← self.dropBack size
        return if comp.isSome then .inr (comp, self) else .inl self
      else some (.inl { self with back := .startDir })
    | .startDir =>
      let self := { self with back := .atPrefix }
      if self.hasPhysicalRoot then
        (self.dropBack 1).map fun self => .inr (some .rootDir, self)
      else if self.includeCurDir then
        (self.dropBack 1).map fun self => .inr (some .curDir, self)
      else some (.inl self)
    | .atPrefix => some (.inr (none, { self with back := .done }))
    | .done => none

def nextBack (self : Components) : Option (Option Component × Components) :=
  loop nextBackStep (self.path.length+4) self

end Components

def componentList (p : List UInt8) : Option (List Component) :=
  collect Components.next (p.length+2) (components p)

end RustStd.Path
