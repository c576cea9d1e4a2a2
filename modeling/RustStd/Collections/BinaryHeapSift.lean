import RustStd.Lib.HeapOrder
import RustStd.Lib.Machine
import RustStd.Lib.Unwind

/-!
# The sift routines of `BinaryHeap`

A sift moves an element through a hole in the vector. Filling the hole at any
time gives the vector in which the moves were swaps, so the order is stated of
the filled vector. An index outside the vector, a read of the hole and an
overflow of `2 * pos + 1` are `none`.
-/

set_option autoImplicit false

namespace RustStd.BinaryHeap
open RustStd.Machine RustStd.WeakOrder RustStd.HeapOrder

variable {T : Type}

structure Hole (T : Type) where
  data : List T
  elt : T
  pos : ℕ

def Hole.new (data : List T) (pos : ℕ) : Option (Hole T) := do
  let elt ← data[pos]?
  return { data, elt, pos }

def Hole.get (hole : Hole T) (index : ℕ) : Option T :=
  if index = hole.pos then none else hole.data[index]?

def Hole.moveTo (hole : Hole T) (index : ℕ) : Option (Hole T) := do
  let x ← hole.get index
  return { hole with data := hole.data.set hole.pos x, pos := index }

def Hole.fill (hole : Hole T) : List T := hole.data.set hole.pos hole.elt

def Hole.child (hole : Hole T) : Option ℕ :=
  if 2*hole.pos+1 ≤ usizeMax then some (2*hole.pos+1) else none

def siftUpLoop (lt : T → T → Bool) (start : ℕ) : ℕ → Hole T → Option (Hole T)
  | 0, _ => none
  | fuel+1, hole =>
    if hole.pos > start then do
      let parent := (hole.pos-1)/2
      let y ← hole.get parent
      if !lt y hole.elt then return hole
      else do
        let hole ← hole.moveTo parent
        siftUpLoop lt start fuel hole
    else some hole

def siftUp (lt : T → T → Bool) (data : List T) (start pos : ℕ) : Option (List T × ℕ) := do
  let hole ← Hole.new data pos
  let hole ← siftUpLoop lt start (pos+1) hole
  return (hole.fill, hole.pos)

def Hole.greater (lt : T → T → Bool) (hole : Hole T) (child : ℕ) : Option ℕ := do
  let a ← hole.get child
  let b ← hole.get (child+1)
  return child+(!lt b a).toNat

def siftDownLoop (lt : T → T → Bool) (stop : ℕ) : ℕ → Hole T → ℕ → Option (Hole T)
  | 0, _, _ => none
  | fuel+1, hole, child =>
    if child ≤ stop-2 then do
      let child ← hole.greater lt child
      let y ← hole.get child
      if !lt hole.elt y then return hole
      else do
        let hole ← hole.moveTo child
        let child ← hole.child
        siftDownLoop lt stop fuel hole child
    else if child = stop-1 then do
      let y ← hole.get child
      if lt hole.elt y then hole.moveTo child else return hole
    else some hole

/-- `sift_down_range`, which looks at the elements before `stop`. -/
def siftDownRange (lt : T → T → Bool) (data : List T) (pos stop : ℕ) : Option (List T × ℕ) := do
  let hole ← Hole.new data pos
  let child ← hole.child
  let hole ← siftDownLoop lt stop (stop+1) hole child
  return (hole.fill, hole.pos)

def siftDown (lt : T → T → Bool) (data : List T) (pos : ℕ) : Option (List T × ℕ) :=
  siftDownRange lt data pos data.length

def toBottomLoop (lt : T → T → Bool) (stop : ℕ) : ℕ → Hole T → ℕ → Option (Hole T)
  | 0, _, _ => none
  | fuel+1, hole, child =>
    if child ≤ stop-2 then do
      let child ← hole.greater lt child
      let hole ← hole.moveTo child
      let child ← hole.child
      toBottomLoop lt stop fuel hole child
    else if child = stop-1 then hole.moveTo child
    else some hole

def siftDownToBottom (lt : T → T → Bool) (data : List T) (pos : ℕ) : Option (List T) := do
  let stop := data.length
  let start := pos
  let hole ← Hole.new data pos
  let child ← hole.child
  let hole ← toBottomLoop lt stop (stop+1) hole child
  let (data, _) ← siftUp lt hole.fill start hole.pos
  return data

def rebuildLoop (lt : T → T → Bool) : ℕ → List T → Option (List T)
  | 0, data => some data
  | n+1, data => do
    let (data, _) ← siftDown lt data n
    rebuildLoop lt n data

def rebuild (lt : T → T → Bool) (data : List T) : Option (List T) :=
  rebuildLoop lt (data.length/2) data

def log2Fast (x : ℕ) : ℕ := Nat.log2 x

/-- The estimate of `rebuild_tail`; the products are taken modulo `2^64`. -/
def betterToRebuild (len start : ℕ) : Bool :=
  let tailLen := len-start
  if start < tailLen then true
  else if len ≤ 2048 then 2*len%2^64 < tailLen*log2Fast start%2^64
  else 2*len%2^64 < tailLen*11%2^64

def siftUpFrom (lt : T → T → Bool) : ℕ → ℕ → List T → Option (List T)
  | 0, _, data => some data
  | n+1, i, data => do
    let (data, _) ← siftUp lt data 0 i
    siftUpFrom lt n (i+1) data

def rebuildTail (lt : T → T → Bool) (data : List T) (start : ℕ) : Option (List T) :=
  if start = data.length then some data
  else if betterToRebuild data.length start then rebuild lt data
  else siftUpFrom lt (data.length-start) start data

/-- The filled vector is `w` followed by elements that are not looked at. -/
structure Hole.Views (hole : Hole T) (w s : List T) : Prop where
  fill : hole.fill = w ++ s
  pos : w[hole.pos]? = some hole.elt

section Views

variable {hole : Hole T} {w s : List T} {i : ℕ} {x : T}

theorem Hole.Views.lt (h : hole.Views w s) : hole.pos < w.length :=
  (List.getElem?_eq_some_iff.mp h.pos).1

theorem Hole.new_views {data : List T} {pos : ℕ} (hd : data = w ++ s) (hpos : pos < w.length) :
    ∃ hole, Hole.new data pos = some hole ∧ hole.pos = pos ∧ hole.Views w s := by
  subst hd
  have hget : (w ++ s)[pos]? = some (w.get ⟨pos, hpos⟩) := by
    rw [List.getElem?_append_left hpos]
    exact List.getElem?_eq_getElem _
  refine ⟨⟨w ++ s, w.get ⟨pos, hpos⟩, pos⟩, by simp only [new, hget]; rfl, rfl, ?_, ?_⟩
  · simp only [fill]
    rw [List.set_append_left _ _ hpos]
    simp
  · exact List.getElem?_eq_getElem _

theorem Hole.Views.get_eq (h : hole.Views w s) (hi : i < w.length) (hne : i ≠ hole.pos) :
    hole.get i = w[i]? := by
  have happ : (w ++ s)[i]? = w[i]? := List.getElem?_append_left hi
  rw [Hole.get, if_neg hne, ← happ, ← h.fill, Hole.fill, List.getElem?_set_ne (Ne.symm hne)]

theorem Hole.Views.moveTo (h : hole.Views w s) (hx : w[i]? = some x) (hne : i ≠ hole.pos) :
    ∃ hole', hole.moveTo i = some hole' ∧ hole'.elt = hole.elt ∧ hole'.pos = i ∧
      hole'.Views ((w.set hole.pos x).set i hole.elt) s := by
  have hi := (List.getElem?_eq_some_iff.mp hx).1
  have hpos := h.lt
  have hget := h.get_eq hi hne
  refine ⟨⟨hole.data.set hole.pos x, hole.elt, i⟩, ?_, rfl, rfl, ?_, ?_⟩
  · simp [Hole.moveTo, hget, hx]
  · have hfill := h.fill
    simp only [Hole.fill] at hfill ⊢
    calc (hole.data.set hole.pos x).set i hole.elt
        = ((hole.data.set hole.pos hole.elt).set hole.pos x).set i hole.elt := by
          rw [List.set_set]
      _ = ((w ++ s).set hole.pos x).set i hole.elt := by rw [hfill]
      _ = (w.set hole.pos x).set i hole.elt ++ s := by
          rw [List.set_append_left _ _ hpos, List.set_append_left _ _ (by simpa using hi)]
  · rw [List.getElem?_set_self (by simpa using hi)]

theorem Hole.Views.greater {lt : T → T → Bool} (hlt : Weak lt) (h : hole.Views w s)
    (hc : 2*hole.pos+1+1 < w.length) :
    ∃ c y, hole.greater lt (2*hole.pos+1) = some c ∧ IsChild c hole.pos ∧ w[c]? = some y ∧
      (∀ j b, IsChild j hole.pos → w[j]? = some b → lt y b = false) ∧
      ((∀ a b, lt a b = false) → c = 2*hole.pos+2) := by
  obtain ⟨a, ha⟩ : ∃ a, w[2*hole.pos+1]? = some a := ⟨_, List.getElem?_eq_getElem (by lia)⟩
  obtain ⟨b, hb⟩ : ∃ b, w[2*hole.pos+1+1]? = some b := ⟨_, List.getElem?_eq_getElem hc⟩
  have hga := (h.get_eq (by lia) (by lia)).trans ha
  have hgb := (h.get_eq hc (by lia)).trans hb
  have hmax {y : T} (hya : lt y a = false) (hyb : lt y b = false) (j : ℕ) (d : T)
      (hj : IsChild j hole.pos) (hd : w[j]? = some d) : lt y d = false := by
    rcases isChild_iff.mp hj with rfl | rfl
    · rw [ha] at hd
      rwa [← Option.some.inj hd]
    · rw [hb] at hd
      rwa [← Option.some.inj hd]
  cases hba : lt b a with
  | false =>
    refine ⟨2*hole.pos+2, b, ?_, isChild_iff.mpr (.inr rfl), hb, hmax hba (hlt.irrefl b), ?_⟩
    · simp [Hole.greater, hga, hgb, hba]
    · exact fun _ => rfl
  | true =>
    refine ⟨2*hole.pos+1, a, ?_, isChild_iff.mpr (.inl rfl), ha, hmax (hlt.irrefl a) ?_, ?_⟩
    · simp [Hole.greater, hga, hgb, hba]
    · exact hlt.asymm hba
    · intro hz
      rw [hz] at hba
      simp at hba

end Views

/-- The length of a vector is bounded by `isize::MAX` unless the elements take up
no space; then they are all equal. -/
def SizeOk (lt : T → T → Bool) (len : ℕ) : Prop :=
  len ≤ isizeMax ∨ len ≤ usizeMax ∧ ∀ a b, lt a b = false

theorem Hole.child_eq {hole : Hole T} (h : 2*hole.pos+1 ≤ usizeMax) :
    hole.child = some (2*hole.pos+1) := if_pos h

variable {lt : T → T → Bool} (hlt : Weak lt)
include hlt

theorem siftUpLoop_spec (fuel : ℕ) {hole : Hole T} {w s : List T} (hfuel : hole.pos < fuel)
    (hv : hole.Views w s) (h : HeapUp lt 0 hole.pos w) :
    ∃ hole' w', siftUpLoop lt 0 fuel hole = some hole' ∧ hole'.Views w' s ∧ w'.Perm w ∧
      Heap lt 0 w' := by
  induction fuel generalizing hole w with
  | zero => lia
  | succ fuel ih =>
    unfold siftUpLoop
    split_ifs with hpos
    · have hp : IsChild hole.pos ((hole.pos-1)/2) := ⟨hpos, rfl⟩
      have hlen := hv.lt
      obtain ⟨y, hy⟩ : ∃ y, w[(hole.pos-1)/2]? = some y := ⟨_, List.getElem?_eq_getElem (by lia)⟩
      have hget := (hv.get_eq (by lia) (by lia)).trans hy
      cases hyx : lt y hole.elt with
      | false =>
        refine ⟨hole, w, ?_, hv, .refl w, h.stop hp hv.pos hy hyx⟩
        simp [hget, hyx]
      | true =>
        obtain ⟨hole', hm, helt, hpos', hv'⟩ := hv.moveTo hy (by lia)
        have hup := h.swap hlt (Nat.zero_le _) hp hv.pos hy hyx
        rw [← hpos'] at hup
        obtain ⟨hole'', w', hloop, hv'', hperm, hheap⟩ := ih (by lia) (hpos' ▸ hv') hup
        refine ⟨hole'', w', ?_, hv'', hperm.trans ?_, hheap⟩
        · simp [hget, hyx, hm, hloop]
        · rw [hpos']
          exact Unwind.perm_swap hv.pos hy
    · have hzero : hole.pos = 0 := by lia
      rw [hzero] at h
      exact ⟨hole, w, rfl, hv, .refl w, h.of_root⟩

theorem siftUp_spec {data w s : List T} {pos : ℕ} (hd : data = w ++ s) (hpos : pos < w.length)
    (h : HeapUp lt 0 pos w) :
    ∃ w' pos', siftUp lt data 0 pos = some (w' ++ s, pos') ∧ w'.Perm w ∧ Heap lt 0 w' := by
  obtain ⟨hole, hnew, rfl, hv⟩ := Hole.new_views hd hpos
  obtain ⟨hole', w', hloop, hv', hperm, hheap⟩ := siftUpLoop_spec hlt _ (Nat.lt_succ_self _) hv h
  exact ⟨w', hole'.pos, by simp [siftUp, hnew, hloop, hv'.fill], hperm, hheap⟩

/-- Where a hole that sifts down ends: it stays because no child is greater, or it
moves and some child was. -/
structure SiftedDown (lt : T → T → Bool) (k : ℕ) (hole : Hole T) (w : List T) (hole' : Hole T)
    (w' : List T) : Prop where
  perm : w'.Perm w
  heap : Heap lt k w'
  moved : (hole'.pos = hole.pos ∧ w' = w) ∨ (hole.pos < hole'.pos ∧
    ∃ c y, IsChild c hole.pos ∧ w[c]? = some y ∧ lt hole.elt y = true)

theorem siftDownLoop_spec (fuel : ℕ) {hole : Hole T} {w s : List T} {k : ℕ}
    (hfuel : w.length-hole.pos < fuel) (hv : hole.Views w s) (hk : k ≤ hole.pos)
    (hsize : SizeOk lt w.length) (h : HeapBut lt k hole.pos w) :
    ∃ hole' w', siftDownLoop lt w.length fuel hole (2*hole.pos+1) = some hole' ∧
      hole'.Views w' s ∧ SiftedDown lt k hole w hole' w' := by
  induction fuel generalizing hole w with
  | zero => lia
  | succ fuel ih =>
    have hlen := hv.lt
    unfold siftDownLoop
    split_ifs with hin hlast
    · obtain ⟨c, y, hg, hc, hy, hmax, -⟩ := hv.greater hlt (by lia)
      have hcp := hc.lt
      have hcl := (List.getElem?_eq_some_iff.mp hy).1
      have hget := (hv.get_eq hcl (by lia)).trans hy
      cases hxy : lt hole.elt y with
      | false =>
        refine ⟨hole, w, ?_, hv, .refl w, h.stop hlt hv.pos hmax hxy, .inl ⟨rfl, rfl⟩⟩
        simp [hg, hget, hxy]
      | true =>
        obtain ⟨hole', hm, helt, hpos', hv'⟩ := hv.moveTo hy (by lia)
        have hbound : w.length ≤ isizeMax := by
          rcases hsize with hs | ⟨-, hs⟩
          · exact hs
          · rw [hs] at hxy
            simp at hxy
        have hchild : hole'.child = some (2*hole'.pos+1) := by
          apply Hole.child_eq
          unfold isizeMax at hbound
          unfold usizeMax
          lia
        have hswap := h.swap hlt (x := hole.elt) hk hc hy hmax hxy
        rw [← hpos'] at hswap
        obtain ⟨hole'', w', hloop, hv'', hs⟩ := ih (by simp; lia) (hpos' ▸ hv') (by lia)
          (by simpa using hsize) hswap
        rw [List.length_set, List.length_set] at hloop
        refine ⟨hole'', w', ?_, hv'', hs.perm.trans ?_, hs.heap, .inr ⟨?_, c, y, hc, hy, hxy⟩⟩
        · simp [hg, hget, hxy, hm, hchild, hloop]
        · rw [hpos']
          exact Unwind.perm_swap hv.pos hy
        · rcases hs.moved with ⟨h1, -⟩ | ⟨h1, -⟩ <;> lia
    · -- only one child is left, the last element
      have hc : IsChild (2*hole.pos+1) hole.pos := isChild_iff.mpr (.inl rfl)
      obtain ⟨y, hy⟩ : ∃ y, w[2*hole.pos+1]? = some y := ⟨_, List.getElem?_eq_getElem (by lia)⟩
      have hget := (hv.get_eq (by lia) (by lia)).trans hy
      have hmax (j : ℕ) (b : T) (hj : IsChild j hole.pos) (hb : w[j]? = some b) :
          lt y b = false := by
        have := (List.getElem?_eq_some_iff.mp hb).1
        obtain rfl : j = 2*hole.pos+1 := by
          have := isChild_iff.mp hj
          lia
        rw [hy] at hb
        rw [← Option.some.inj hb]
        exact hlt.irrefl y
      cases hxy : lt hole.elt y with
      | false =>
        refine ⟨hole, w, ?_, hv, .refl w, h.stop hlt hv.pos hmax hxy, .inl ⟨rfl, rfl⟩⟩
        simp [hget, hxy]
      | true =>
        obtain ⟨hole', hm, helt, hpos', hv'⟩ := hv.moveTo hy (by lia)
        have hswap := h.swap hlt (x := hole.elt) hk hc hy hmax hxy
        refine ⟨hole', _, ?_, hv', Unwind.perm_swap hv.pos hy, hswap.of_leaf (by simp; lia),
          .inr ⟨by lia, _, y, hc, hy, hxy⟩⟩
        simp [hget, hxy, hm]
    · exact ⟨hole, w, rfl, hv, .refl w, h.of_leaf (by lia), .inl ⟨rfl, rfl⟩⟩

theorem siftDownRange_spec {data w s : List T} {pos k : ℕ} {x : T} (hd : data = w ++ s)
    (hx : w[pos]? = some x) (hk : k ≤ pos) (hover : 2*pos+1 ≤ usizeMax) (hsize : SizeOk lt w.length)
    (h : HeapBut lt k pos w) :
    ∃ w' pos', siftDownRange lt data pos w.length = some (w' ++ s, pos') ∧ w'.Perm w ∧
      Heap lt k w' ∧ ((pos' = pos ∧ w' = w) ∨
        (pos < pos' ∧ ∃ c y, IsChild c pos ∧ w[c]? = some y ∧ lt x y = true)) := by
  obtain ⟨hole, hnew, rfl, hv⟩ := Hole.new_views hd (List.getElem?_eq_some_iff.mp hx).1
  obtain ⟨hole', w', hloop, hv', hs⟩ := siftDownLoop_spec hlt (w.length+1) (by lia) hv hk hsize h
  obtain rfl : hole.elt = x := Option.some.inj (hv.pos.symm.trans hx)
  refine ⟨w', hole'.pos, ?_, hs.perm, hs.heap, hs.moved⟩
  simp [siftDownRange, hnew, Hole.child_eq hover, hloop, hv'.fill]

theorem siftDown_spec {data : List T} {pos k : ℕ} {x : T} (hx : data[pos]? = some x) (hk : k ≤ pos)
    (hover : 2*pos+1 ≤ usizeMax) (hsize : SizeOk lt data.length) (h : HeapBut lt k pos data) :
    ∃ data' pos', siftDown lt data pos = some (data', pos') ∧ data'.Perm data ∧
      Heap lt k data' ∧ ((pos' = pos ∧ data' = data) ∨
        (pos < pos' ∧ ∃ c y, IsChild c pos ∧ data[c]? = some y ∧ lt x y = true)) := by
  simpa [siftDown] using siftDownRange_spec hlt (s := []) (by simp) hx hk hover hsize h

/-- Equal elements make the hole go right every time, so that its position is known. -/
theorem toBottomLoop_spec (fuel : ℕ) {hole : Hole T} {w : List T}
    (hfuel : w.length-hole.pos < fuel) (hv : hole.Views w [])
    (hsize : w.length ≤ isizeMax ∨
      w.length < usizeMax ∧ (∀ a b, lt a b = false) ∧ ∃ n, hole.pos+2 = 2^n)
    (h : HeapHole lt 0 hole.pos w) :
    ∃ hole' w', toBottomLoop lt w.length fuel hole (2*hole.pos+1) = some hole' ∧
      hole'.Views w' [] ∧ w'.Perm w ∧ HeapUp lt 0 hole'.pos w' := by
  induction fuel generalizing hole w with
  | zero => lia
  | succ fuel ih =>
    have hlen := hv.lt
    unfold toBottomLoop
    split_ifs with hin hlast
    · obtain ⟨c, y, hg, hc, hy, hmax, hright⟩ := hv.greater hlt (by lia)
      have hcp := hc.lt
      obtain ⟨hole', hm, helt, hpos', hv'⟩ := hv.moveTo hy (by lia)
      have hcl := (List.getElem?_eq_some_iff.mp hy).1
      have hsize' : w.length ≤ isizeMax ∨
          w.length < usizeMax ∧ (∀ a b, lt a b = false) ∧ ∃ n, hole'.pos+2 = 2^n := by
        rcases hsize with hs | ⟨hs, hz, n, hn⟩
        · exact .inl hs
        · refine .inr ⟨hs, hz, n+1, ?_⟩
          rw [hpos', hright hz, pow_succ, ← hn]
          lia
      have hchild : hole'.child = some (2*hole'.pos+1) := by
        apply Hole.child_eq
        rcases hsize' with hs | ⟨hs, hz, n, hn⟩
        · unfold isizeMax at hs
          unfold usizeMax
          lia
        · unfold usizeMax at hs ⊢
          have hn64 : n < 64 := by
            apply (Nat.pow_lt_pow_iff_right (show 1 < 2 by decide)).mp
            lia
          have hn63 : (2 : ℕ)^n ≤ 2^63 := Nat.pow_le_pow_right (by decide) (by lia)
          lia
      have hdown := h.down (Nat.zero_le _) hc hy hmax hole.elt
      rw [← hpos'] at hdown
      have hleft : w.length-hole'.pos < fuel := by
        clear hsize hsize'
        lia
      obtain ⟨hole'', w', hloop, hv'', hperm, hup⟩ := ih (by simpa using hleft) (hpos' ▸ hv')
        (by simpa using hsize') hdown
      rw [List.length_set, List.length_set] at hloop
      refine ⟨hole'', w', ?_, hv'', hperm.trans ?_, hup⟩
      · simp [hg, hm, hchild, hloop]
      · rw [hpos']
        exact Unwind.perm_swap hv.pos hy
    · have hc : IsChild (2*hole.pos+1) hole.pos := isChild_iff.mpr (.inl rfl)
      obtain ⟨y, hy⟩ : ∃ y, w[2*hole.pos+1]? = some y := ⟨_, List.getElem?_eq_getElem (by lia)⟩
      obtain ⟨hole', hm, helt, hpos', hv'⟩ := hv.moveTo hy (by lia)
      have hdown := h.down (Nat.zero_le _) hc hy (fun j b hj hb => ?_) hole.elt
      · refine ⟨hole', _, hm, hv', Unwind.perm_swap hv.pos hy, ?_⟩
        rw [hpos']
        exact hdown.of_leaf (by simp; lia)
      · have := (List.getElem?_eq_some_iff.mp hb).1
        obtain rfl : j = 2*hole.pos+1 := by
          have := isChild_iff.mp hj
          lia
        rw [hy] at hb
        rw [← Option.some.inj hb]
        exact hlt.irrefl y
    · exact ⟨hole, w, rfl, hv, .refl w, h.of_leaf (by lia)⟩

theorem siftDownToBottom_spec {data : List T} (hpos : 0 < data.length)
    (hsize : data.length ≤ isizeMax ∨ data.length < usizeMax ∧ ∀ a b, lt a b = false)
    (h : HeapBut lt 0 0 data) :
    ∃ data', siftDownToBottom lt data 0 = some data' ∧ data'.Perm data ∧ Heap lt 0 data' := by
  obtain ⟨hole, hnew, hzero, hv⟩ := Hole.new_views (show data = data ++ [] by simp) hpos
  have hsize' : data.length ≤ isizeMax ∨
      data.length < usizeMax ∧ (∀ a b, lt a b = false) ∧ ∃ n, hole.pos+2 = 2^n := by
    rcases hsize with hs | ⟨hs, hz⟩
    · exact .inl hs
    · exact .inr ⟨hs, hz, 1, by rw [hzero]; rfl⟩
  have hchild : hole.child = some (2*hole.pos+1) := by
    apply Hole.child_eq
    rw [hzero]
    decide
  obtain ⟨hole', w, hloop, hv', hperm, hup⟩ := toBottomLoop_spec hlt (data.length+1) (by lia) hv
    hsize' (by rw [hzero]; exact h.hole)
  obtain ⟨w', pos', hsift, hperm', hheap⟩ := siftUp_spec hlt hv'.fill hv'.lt hup
  refine ⟨w', ?_, hperm'.trans hperm, hheap⟩
  simp [siftDownToBottom, hnew, hchild, hloop, hsift]

theorem rebuildLoop_spec (n : ℕ) {data : List T} (hn : 2*n ≤ data.length)
    (hsize : SizeOk lt data.length) (h : Heap lt n data) :
    ∃ data', rebuildLoop lt n data = some data' ∧ data'.Perm data ∧ Heap lt 0 data' := by
  induction n generalizing data with
  | zero => exact ⟨data, rfl, .refl data, h⟩
  | succ n ih =>
    have hx : data[n]? = some (data.get ⟨n, by lia⟩) := List.getElem?_eq_getElem _
    have hover : 2*n+1 ≤ usizeMax := by
      unfold SizeOk isizeMax usizeMax at hsize
      unfold usizeMax
      lia
    obtain ⟨data₁, pos', hs, hp₁, hh₁, -⟩ := siftDown_spec hlt hx le_rfl hover hsize h.heapBut
    have hlen := hp₁.length_eq
    obtain ⟨data₂, hl, hp₂, hh₂⟩ := ih (by lia) (by rwa [hlen]) hh₁
    exact ⟨data₂, by simp [rebuildLoop, hs, hl], hp₂.trans hp₁, hh₂⟩

theorem rebuild_spec {data : List T} (hsize : SizeOk lt data.length) :
    ∃ data', rebuild lt data = some data' ∧ data'.Perm data ∧ Heap lt 0 data' :=
  rebuildLoop_spec hlt _ (by lia) hsize (heap_leaves lt (by lia))

theorem siftUpFrom_spec (n : ℕ) {i : ℕ} {data : List T} (hn : i+n = data.length)
    (h : Heap lt 0 (data.take i)) :
    ∃ data', siftUpFrom lt n i data = some data' ∧ data'.Perm data ∧ Heap lt 0 data' := by
  induction n generalizing i data with
  | zero =>
    rw [List.take_of_length_le (by lia)] at h
    exact ⟨data, rfl, .refl data, h⟩
  | succ n ih =>
    have hi : i < data.length := by lia
    have htake : data.take i ++ [data.get ⟨i, hi⟩] = data.take (i+1) := by simp
    have hup : HeapUp lt 0 i (data.take (i+1)) := by
      rw [← htake]
      exact h.push _ (by simp; lia)
    obtain ⟨w, pos', hs, hp, hh⟩ := siftUp_spec hlt (List.take_append_drop (i+1) data).symm
      (by simp; lia) hup
    have hlen := hp.length_eq
    rw [List.length_take] at hlen
    obtain ⟨data', hl, hp', hh'⟩ := ih (show i+1+n = (w ++ data.drop (i+1)).length by simp; lia)
      (by rwa [List.take_left' (by lia)])
    refine ⟨data', by simp [siftUpFrom, hs, hl], hp'.trans ?_, hh'⟩
    have := hp.append_right (data.drop (i+1))
    rwa [List.take_append_drop] at this

theorem rebuildTail_spec {data : List T} {start : ℕ} (hs : start ≤ data.length)
    (hsize : SizeOk lt data.length) (h : Heap lt 0 (data.take start)) :
    ∃ data', rebuildTail lt data start = some data' ∧ data'.Perm data ∧ Heap lt 0 data' := by
  unfold rebuildTail
  split_ifs with hend
  · rw [List.take_of_length_le (by lia)] at h
    exact ⟨data, rfl, .refl data, h⟩
  · exact rebuild_spec hlt hsize
  · exact siftUpFrom_spec hlt _ (by lia) h

end RustStd.BinaryHeap
