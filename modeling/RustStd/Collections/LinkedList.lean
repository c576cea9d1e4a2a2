import RustStd.Lib.DoublyLinked
import RustStd.Lib.Outcome

/-!
# The operations of `LinkedList`

The functions of `collections/linked_list.rs` over a heap of nodes. A list is
its two end pointers and its length; the nodes live in the heap. `none` is an
access to an address that holds no node, or a length that falls below zero.
-/

set_option autoImplicit false

namespace RustStd.LinkedLists
open RustStd.DoublyLinked RustStd.Outcome

structure LinkedList where
  head : Option Ptr
  tail : Option Ptr
  len : ℕ
  deriving DecidableEq, Repr

variable {α σ : Type}

def new : LinkedList := { head := none, tail := none, len := 0 }

def isEmpty (self : LinkedList) : Bool := self.head.isNone

/-- `a - b` where the code relies on `b <= a`. -/
def sub (a b : ℕ) : Option ℕ := if b ≤ a then some (a-b) else none

def setNextOrHead (h : Heap α) (self : LinkedList) (prev v : Option Ptr) :
    Option (Heap α × LinkedList) :=
  match prev with
  | none => some (h, { self with head := v })
  | some prev => (h.setNext prev v).map fun h => (h, self)

def setPrevOrTail (h : Heap α) (self : LinkedList) (next v : Option Ptr) :
    Option (Heap α × LinkedList) :=
  match next with
  | none => some (h, { self with tail := v })
  | some next => (h.setPrev next v).map fun h => (h, self)

def Node.new (element : α) : Node α := { next := none, prev := none, element }

def pushFrontNode (h : Heap α) (self : LinkedList) (node : Ptr) :
    Option (Heap α × LinkedList) := do
  let h ← h.setNext node self.head
  let h ← h.setPrev node none
  let (h, self) ← setPrevOrTail h self self.head (some node)
  return (h, { self with head := some node, len := self.len+1 })

def popFrontNode (h : Heap α) (self : LinkedList) :
    Option (Option (Node α) × Heap α × LinkedList) :=
  match self.head with
  | none => some (none, h, self)
  | some node => do
    let (node, h) ← h.take node
    let self := { self with head := node.next }
    let (h, self) ← setPrevOrTail h self self.head none
    let len ← sub self.len 1
    return (some node, h, { self with len })

def pushBackNode (h : Heap α) (self : LinkedList) (node : Ptr) :
    Option (Heap α × LinkedList) := do
  let h ← h.setNext node none
  let h ← h.setPrev node self.tail
  let (h, self) ← setNextOrHead h self self.tail (some node)
  return (h, { self with tail := some node, len := self.len+1 })

def popBackNode (h : Heap α) (self : LinkedList) :
    Option (Option (Node α) × Heap α × LinkedList) :=
  match self.tail with
  | none => some (none, h, self)
  | some node => do
    let (node, h) ← h.take node
    let self := { self with tail := node.prev }
    let (h, self) ← setNextOrHead h self self.tail none
    let len ← sub self.len 1
    return (some node, h, { self with len })

def unlinkNode (h : Heap α) (self : LinkedList) (node : Ptr) :
    Option (Heap α × LinkedList) := do
  let node ← h.nodes node
  let (h, self) ← setNextOrHead h self node.prev node.next
  let (h, self) ← setPrevOrTail h self node.next node.prev
  let len ← sub self.len 1
  return (h, { self with len })

def spliceNodes (h : Heap α) (self : LinkedList) (existingPrev existingNext : Option Ptr)
    (spliceStart spliceEnd : Ptr) (spliceLength : ℕ) : Option (Heap α × LinkedList) := do
  let (h, self) ← setNextOrHead h self existingPrev (some spliceStart)
  let (h, self) ← setPrevOrTail h self existingNext (some spliceEnd)
  let h ← h.setPrev spliceStart existingPrev
  let h ← h.setNext spliceEnd existingNext
  return (h, { self with len := self.len+spliceLength })

/-- The inner `none` is an empty list; a head without a tail is undefined behaviour. -/
def detachAllNodes (self : LinkedList) : Option (Option (Ptr × Ptr × ℕ)) :=
  match self.head with
  | none => some none
  | some head => self.tail.map fun tail => some (head, tail, self.len)

/-- The part that ends at `tail` ends there from now on; its head. -/
def cutBefore (h : Heap α) (self : LinkedList) (tail : Option Ptr) :
    Option (Heap α × Option Ptr) :=
  match tail with
  | some tail => (h.setNext tail none).map fun h => (h, self.head)
  | none => some (h, none)

/-- The part that starts at `head` starts there from now on; its tail. -/
def cutAfter (h : Heap α) (self : LinkedList) (head : Option Ptr) :
    Option (Heap α × Option Ptr) :=
  match head with
  | some head => (h.setPrev head none).map fun h => (h, self.tail)
  | none => some (h, none)

def splitOffBeforeNode (h : Heap α) (self : LinkedList) (splitNode : Option Ptr) (at' : ℕ) :
    Option (LinkedList × Heap α × LinkedList) :=
  match splitNode with
  | none => some (self, h, new)
  | some splitNode => do
    let node ← h.nodes splitNode
    let firstPartTail := node.prev
    let h ← h.setPrev splitNode none
    let (h, firstPartHead) ← cutBefore h self firstPartTail
    let len ← sub self.len at'
    return ({ head := firstPartHead, tail := firstPartTail, len := at' }, h,
      { self with head := some splitNode, len })

def splitOffAfterNode (h : Heap α) (self : LinkedList) (splitNode : Option Ptr) (at' : ℕ) :
    Option (LinkedList × Heap α × LinkedList) :=
  match splitNode with
  | none => some (self, h, new)
  | some splitNode => do
    let node ← h.nodes splitNode
    let secondPartHead := node.next
    let h ← h.setNext splitNode none
    let (h, secondPartTail) ← cutAfter h self secondPartHead
    let len ← sub self.len at'
    return ({ head := secondPartHead, tail := secondPartTail, len }, h,
      { self with tail := some splitNode, len := at' })

def append (h : Heap α) (self other : LinkedList) :
    Option (Heap α × LinkedList × LinkedList) :=
  match self.tail with
  | none => some (h, other, self)
  | some tail =>
    match other.head with
    | none => some (h, self, other)
    | some otherHead => do
      let h ← h.setNext tail (some otherHead)
      let h ← h.setPrev otherHead (some tail)
      return (h, { self with tail := other.tail, len := self.len+other.len },
        { head := none, tail := none, len := 0 })

def pushFront (h : Heap α) (self : LinkedList) (elt : α) : Option (Heap α × LinkedList) :=
  let (nodePtr, h) := h.alloc (Node.new elt)
  pushFrontNode h self nodePtr

def pushBack (h : Heap α) (self : LinkedList) (elt : α) : Option (Heap α × LinkedList) :=
  let (nodePtr, h) := h.alloc (Node.new elt)
  pushBackNode h self nodePtr

def popFront (h : Heap α) (self : LinkedList) : Option (Option α × Heap α × LinkedList) :=
  (popFrontNode h self).map fun r => (r.1.map Node.element, r.2)

def popBack (h : Heap α) (self : LinkedList) : Option (Option α × Heap α × LinkedList) :=
  (popBackNode h self).map fun r => (r.1.map Node.element, r.2)

def times {β : Type} (f : β → Option β) : ℕ → β → Option β
  | 0, b => some b
  | n+1, b => f b >>= times f n

structure IterMut where
  head : Option Ptr
  tail : Option Ptr
  len : ℕ

def iterMut (self : LinkedList) : IterMut :=
  { head := self.head, tail := self.tail, len := self.len }

/-- `IterMut::next`; the reference to the element is the address of its node. -/
def IterMut.next (h : Heap α) (self : IterMut) : Option (Option Ptr × IterMut) :=
  if self.len = 0 then some (none, self)
  else
    match self.head with
    | none => some (none, self)
    | some node => (h.nodes node).map fun n =>
      (some node, { self with len := self.len-1, head := n.next })

def IterMut.nextBack (h : Heap α) (self : IterMut) : Option (Option Ptr × IterMut) :=
  if self.len = 0 then some (none, self)
  else
    match self.tail with
    | none => some (none, self)
    | some node => (h.nodes node).map fun n =>
      (some node, { self with len := self.len-1, tail := n.prev })

/-- The node that `split_off` cuts after, reached from the nearer end. -/
def splitNode (h : Heap α) (self : LinkedList) (at' : ℕ) : Option (Option Ptr) :=
  let len := self.len
  if at'-1 ≤ len-1-(at'-1) then
    (times (fun it => (it.next h).map Prod.snd) (at'-1) (iterMut self)).map IterMut.head
  else
    (times (fun it => (it.nextBack h).map Prod.snd) (len-1-(at'-1)) (iterMut self)).map
      IterMut.tail

def splitOff (h : Heap α) (self : LinkedList) (at' : ℕ) :
    Outcome (Heap α × LinkedList) (LinkedList × Heap α × LinkedList) := do
  let len := self.len
  ensure (h, self) (at' ≤ len)
  if at' = 0 then .ok (self, h, new)
  else if at' = len then .ok (new, h, self)
  else do
    let node ← ofOption (splitNode h self at')
    ofOption (splitOffAfterNode h self node at')

structure CursorMut where
  index : ℕ
  current : Option Ptr
  list : LinkedList
  deriving DecidableEq, Repr

def cursorFrontMut (self : LinkedList) : CursorMut :=
  { index := 0, current := self.head, list := self }

def cursorBackMut (self : LinkedList) : CursorMut :=
  { index := self.len-1, current := self.tail, list := self }

namespace CursorMut

def moveNext (h : Heap α) (self : CursorMut) : Option CursorMut :=
  match self.current with
  | none => some { self with current := self.list.head, index := 0 }
  | some current => (h.nodes current).map fun n =>
    { self with current := n.next, index := self.index+1 }

def movePrev (h : Heap α) (self : CursorMut) : Option CursorMut :=
  match self.current with
  | none => some { self with current := self.list.tail, index := self.list.len-1 }
  | some current => (h.nodes current).map fun n =>
    { self with
      current := n.prev
      index := if self.index = 0 then self.list.len else self.index-1 }

/-- The node after the cursor; from the ghost, the first of the list. -/
def nodeNext (h : Heap α) (self : CursorMut) : Option (Option Ptr) :=
  match self.current with
  | none => some self.list.head
  | some node => (h.nodes node).map Node.next

def nodePrev (h : Heap α) (self : CursorMut) : Option (Option Ptr) :=
  match self.current with
  | none => some self.list.tail
  | some node => (h.nodes node).map Node.prev

def spliceAfter (h : Heap α) (self : CursorMut) (list : LinkedList) :
    Option (Heap α × CursorMut) := do
  match ← detachAllNodes list with
  | none => some (h, self)
  | some (spliceHead, spliceTail, spliceLen) =>
    let next ← nodeNext h self
    let (h, list) ← spliceNodes h self.list self.current next spliceHead spliceTail spliceLen
    return (h, { self with
      list, index := if self.current = none then list.len else self.index })

def spliceBefore (h : Heap α) (self : CursorMut) (list : LinkedList) :
    Option (Heap α × CursorMut) := do
  match ← detachAllNodes list with
  | none => some (h, self)
  | some (spliceHead, spliceTail, spliceLen) =>
    let prev ← nodePrev h self
    let (h, list) ← spliceNodes h self.list prev self.current spliceHead spliceTail spliceLen
    return (h, { self with list, index := self.index+spliceLen })

def insertAfter (h : Heap α) (self : CursorMut) (item : α) : Option (Heap α × CursorMut) := do
  let (splicedNode, h) := h.alloc (Node.new item)
  let next ← nodeNext h self
  let (h, list) ← spliceNodes h self.list self.current next splicedNode splicedNode 1
  return (h, { self with
    list, index := if self.current = none then list.len else self.index })

def insertBefore (h : Heap α) (self : CursorMut) (item : α) : Option (Heap α × CursorMut) := do
  let (splicedNode, h) := h.alloc (Node.new item)
  let prev ← nodePrev h self
  let (h, list) ← spliceNodes h self.list prev self.current splicedNode splicedNode 1
  return (h, { self with list, index := self.index+1 })

def removeCurrent (h : Heap α) (self : CursorMut) :
    Option (Option α × Heap α × CursorMut) :=
  match self.current with
  | none => some (none, h, self)
  | some unlinkedNode => do
    let n ← h.nodes unlinkedNode
    let (h, list) ← unlinkNode h self.list unlinkedNode
    let (node, h) ← h.take unlinkedNode
    return (some node.element, h, { self with current := n.next, list })

def removeCurrentAsList (h : Heap α) (self : CursorMut) :
    Option (Option LinkedList × Heap α × CursorMut) :=
  match self.current with
  | none => some (none, h, self)
  | some unlinkedNode => do
    let n ← h.nodes unlinkedNode
    let (h, list) ← unlinkNode h self.list unlinkedNode
    let h ← h.setPrev unlinkedNode none
    let h ← h.setNext unlinkedNode none
    return (some { head := some unlinkedNode, tail := some unlinkedNode, len := 1 }, h,
      { self with current := n.next, list })

def splitAfter (h : Heap α) (self : CursorMut) :
    Option (LinkedList × Heap α × CursorMut) := do
  let splitOffIdx := if self.index = self.list.len then 0 else self.index+1
  let index := if self.index = self.list.len then 0 else self.index
  let (rest, h, list) ← splitOffAfterNode h self.list self.current splitOffIdx
  return (rest, h, { self with list, index })

def splitBefore (h : Heap α) (self : CursorMut) :
    Option (LinkedList × Heap α × CursorMut) := do
  let splitOffIdx := self.index
  let (rest, h, list) ← splitOffBeforeNode h self.list self.current splitOffIdx
  return (rest, h, { self with list, index := 0 })

def pushFront (h : Heap α) (self : CursorMut) (elt : α) : Option (Heap α × CursorMut) := do
  let (h, list) ← LinkedLists.pushFront h self.list elt
  return (h, { self with list, index := self.index+1 })

def pushBack (h : Heap α) (self : CursorMut) (elt : α) : Option (Heap α × CursorMut) := do
  let (h, list) ← LinkedLists.pushBack h self.list elt
  return (h, { self with
    list, index := if self.current = none then self.index+1 else self.index })

def popFront (h : Heap α) (self : CursorMut) : Option (Option α × Heap α × CursorMut) :=
  if isEmpty self.list then some (none, h, self)
  else do
    let self ← (if self.list.head = self.current then moveNext h self
      else (sub self.index 1).map fun index => { self with index })
    let (elt, h, list) ← LinkedLists.popFront h self.list
    return (elt, h, { self with list })

def popBack (h : Heap α) (self : CursorMut) : Option (Option α × Heap α × CursorMut) :=
  if isEmpty self.list then some (none, h, self)
  else do
    let self ← (if self.list.tail = self.current then some { self with current := none }
      else if self.current = none then
        (sub self.list.len 1).map fun index => { self with index }
      else some self)
    let (elt, h, list) ← LinkedLists.popBack h self.list
    return (elt, h, { self with list })

end CursorMut

def remove (h : Heap α) (self : LinkedList) (at' : ℕ) :
    Outcome (Heap α × LinkedList) (α × Heap α × LinkedList) := do
  let len := self.len
  ensure (h, self) (at' < len)
  let offsetFromEnd := len-at'-1
  let cursor ← ofOption (if at' ≤ offsetFromEnd then
      times (CursorMut.moveNext h) at' (cursorFrontMut self)
    else times (CursorMut.movePrev h) offsetFromEnd (cursorBackMut self))
  let (elt, h, cursor) ← ofOption (CursorMut.removeCurrent h cursor)
  match elt with
  | none => .panic (h, cursor.list)
  | some elt => .ok (elt, h, cursor.list)

/-- A closure `FnMut(&mut T) -> bool` with what it has captured: whether it returns (`none` is
a panic) and what, the element as the call leaves it, and the captured state. -/
abbrev FnMut (σ α : Type) := σ → α → Option Bool × α × σ

/-- The loop of `retain`, with the elements that it drops. -/
def retainLoop (f : FnMut σ α) : ℕ → σ → Heap α → CursorMut → List α →
    Outcome (Heap α × LinkedList × List α) (Heap α × LinkedList × List α)
  | 0, _, _, _, _ => .undefined
  | fuel+1, s, h, cursor, dropped =>
    match cursor.current with
    | none => .ok (h, cursor.list, dropped)
    | some node => do
      let n ← ofOption (h.nodes node)
      let (keep, element, s) := f s n.element
      let h ← ofOption (h.setElement node element)
      match keep with
      | none => .panic (h, cursor.list, dropped)
      | some false => do
        let (elt, h, cursor) ← ofOption (CursorMut.removeCurrent h cursor)
        match elt with
        | none => .panic (h, cursor.list, dropped)
        | some elt => retainLoop f fuel s h cursor (dropped++[elt])
      | some true => do
        let cursor ← ofOption (CursorMut.moveNext h cursor)
        retainLoop f fuel s h cursor dropped

def retain (f : FnMut σ α) (s : σ) (h : Heap α) (self : LinkedList) :
    Outcome (Heap α × LinkedList × List α) (Heap α × LinkedList × List α) :=
  retainLoop f (self.len+1) s h (cursorFrontMut self) []

structure ExtractIf (σ : Type) where
  list : LinkedList
  it : Option Ptr
  captured : σ
  idx : ℕ
  oldLen : ℕ

def extractIf (self : LinkedList) (s : σ) : ExtractIf σ :=
  { list := self, it := self.head, captured := s, idx := 0, oldLen := self.len }

namespace ExtractIf

def nextLoop (pred : FnMut σ α) : ℕ → Heap α → ExtractIf σ →
    Outcome (Heap α × ExtractIf σ) (Option α × Heap α × ExtractIf σ)
  | 0, _, _ => .undefined
  | fuel+1, h, self =>
    match self.it with
    | none => .ok (none, h, self)
    | some node => do
      let n ← ofOption (h.nodes node)
      let self := { self with it := n.next, idx := self.idx+1 }
      let (taken, element, captured) := pred self.captured n.element
      let h ← ofOption (h.setElement node element)
      let self := { self with captured }
      match taken with
      | none => .panic (h, self)
      | some true => do
        let (h, list) ← ofOption (unlinkNode h self.list node)
        let (node, h) ← ofOption (h.take node)
        return (some node.element, h, { self with list })
      | some false => nextLoop pred fuel h self

/-- At most `old_len - idx` nodes are still ahead. -/
def next (pred : FnMut σ α) (h : Heap α) (self : ExtractIf σ) :
    Outcome (Heap α × ExtractIf σ) (Option α × Heap α × ExtractIf σ) :=
  nextLoop pred (self.oldLen-self.idx+1) h self

def sizeHint (self : ExtractIf σ) : Option (ℕ × ℕ) :=
  (sub self.oldLen self.idx).map fun n => (0, n)

end ExtractIf

end RustStd.LinkedLists
