import RustStd.Lib.WeakOrder

/-!
# Binary heaps in a list

The children of a node are at fixed positions. A heap may be broken at one
node: towards its children, towards its parent, or both. In each case the
children of the node are compared with its parent, so that moving the node up or
down repairs one edge and breaks at most the next one.
-/

set_option autoImplicit false

namespace RustStd.HeapOrder
open RustStd.WeakOrder

variable {T : Type*}

def IsChild (c p : ℕ) : Prop := 0 < c ∧ (c-1)/2 = p

theorem IsChild.lt {c p : ℕ} (h : IsChild c p) : p < c := by
  obtain ⟨h0, rfl⟩ := h
  lia

theorem isChild_iff {c p : ℕ} : IsChild c p ↔ c = 2*p+1 ∨ c = 2*p+2 := by
  unfold IsChild
  lia

theorem IsChild.parent {c p q : ℕ} (h : IsChild c p) (h' : IsChild c q) : p = q :=
  h.2.symm.trans h'.2

/-- No child of a node from `k` on is greater than the node. -/
def Heap (f : T → T → Bool) (k : ℕ) (v : List T) : Prop :=
  ∀ p c a b, k ≤ p → IsChild c p → v[p]? = some a → v[c]? = some b → f a b = false

/-- The children of `node` are not greater than its parent. -/
def Grand (f : T → T → Bool) (k node : ℕ) (v : List T) : Prop :=
  ∀ p c a b, k ≤ p → IsChild node p → IsChild c node → v[p]? = some a → v[c]? = some b →
    f a b = false

/-- A heap except between `node` and its children. -/
structure HeapBut (f : T → T → Bool) (k node : ℕ) (v : List T) : Prop where
  rest : ∀ p c a b, k ≤ p → p ≠ node → IsChild c p → v[p]? = some a → v[c]? = some b → f a b = false
  grand : Grand f k node v

/-- A heap except between `node` and its parent. -/
structure HeapUp (f : T → T → Bool) (k node : ℕ) (v : List T) : Prop where
  rest : ∀ p c a b, k ≤ p → c ≠ node → IsChild c p → v[p]? = some a → v[c]? = some b → f a b = false
  grand : Grand f k node v

/-- A heap that says nothing about the element at `node`. -/
structure HeapHole (f : T → T → Bool) (k node : ℕ) (v : List T) : Prop where
  rest : ∀ p c a b, k ≤ p → p ≠ node → c ≠ node → IsChild c p → v[p]? = some a → v[c]? = some b →
    f a b = false
  grand : Grand f k node v

theorem Heap.root {f : T → T → Bool} (hf : Weak f) {v : List T} (h : Heap f 0 v) {r : T}
    (hr : v[0]? = some r) (i : ℕ) {b : T} (hb : v[i]? = some b) : f r b = false := by
  induction i using Nat.strong_induction_on generalizing b with
  | _ i ih =>
    rcases Nat.eq_zero_or_pos i with rfl | hpos
    · rw [hr] at hb
      rw [Option.some.inj hb]
      exact hf.irrefl b
    · obtain ⟨hi, -⟩ := List.getElem?_eq_some_iff.mp hb
      have hp : v[(i-1)/2]? = some (v.get ⟨(i-1)/2, by lia⟩) := List.getElem?_eq_getElem _
      have hle := ih ((i-1)/2) (by lia) hp
      exact hf.le_trans (h _ i _ b (Nat.zero_le _) ⟨hpos, rfl⟩ hp hb) hle

theorem heap_leaves (f : T → T → Bool) {k : ℕ} {v : List T} (hk : v.length ≤ 2*k+1) :
    Heap f k v := by
  intro p c a b hp hc _ hb
  have := (List.getElem?_eq_some_iff.mp hb).1
  have := isChild_iff.mp hc
  lia

theorem Heap.heapBut {f : T → T → Bool} {n : ℕ} {v : List T} (h : Heap f (n+1) v) :
    HeapBut f n n v where
  rest p c a b hp hpn := h p c a b (by lia)
  grand p c a b hp hn := by
    have := hn.lt
    lia

theorem Heap.root_but {f : T → T → Bool} {v : List T} (h : Heap f 0 v) : HeapBut f 0 0 v where
  rest p c a b hp _ := h p c a b hp
  grand p c a b _ hn := absurd hn.1 (by lia)

theorem HeapBut.root_change {f : T → T → Bool} {v w : List T} (h : HeapBut f 0 0 v)
    (hw : ∀ j d, 0 < j → w[j]? = some d → v[j]? = some d) : HeapBut f 0 0 w where
  rest p c a b hp hp0 hc ha hb := by
    have := hc.lt
    exact h.rest p c a b hp hp0 hc (hw p a (by lia) ha) (hw c b (by lia) hb)
  grand p c a b _ hn := absurd hn.1 (by lia)

theorem HeapBut.last_to_root {f : T → T → Bool} {x z : T} {w : List T}
    (h : HeapBut f 0 0 (x :: w ++ [z])) : HeapBut f 0 0 (z :: w) := by
  apply h.root_change
  intro j d hj hd
  obtain ⟨j, rfl⟩ : ∃ n, j = n+1 := ⟨j-1, by lia⟩
  rw [List.getElem?_cons_succ] at hd
  rw [List.cons_append, List.getElem?_cons_succ,
    List.getElem?_append_left (List.getElem?_eq_some_iff.mp hd).1, hd]

theorem Heap.take {f : T → T → Bool} {k : ℕ} {v : List T} (h : Heap f k v) (i : ℕ) :
    Heap f k (v.take i) := by
  have hget {j : ℕ} {a : T} (ha : (v.take i)[j]? = some a) : v[j]? = some a := by
    rw [List.getElem?_take] at ha
    split_ifs at ha with hj
    exact ha
  intro p c a b hp hc ha hb
  exact h p c a b hp hc (hget ha) (hget hb)

theorem swap_getElem? {v : List T} {i j : ℕ} {x y : T} (hi : i < v.length) (hj : j < v.length)
    (n : ℕ) : ((v.set i y).set j x)[n]? =
      if n = j then some x else if n = i then some y else v[n]? := by
  split_ifs with h1 h2
  · rw [h1, List.getElem?_set_self (by simpa using hj)]
  · rw [List.getElem?_set_ne (Ne.symm h1), h2, List.getElem?_set_self hi]
  · rw [List.getElem?_set_ne (Ne.symm h1), List.getElem?_set_ne (Ne.symm h2)]

section Sift

variable {f : T → T → Bool} {k node c p : ℕ} {v : List T} {x y : T}

theorem HeapBut.hole (h : HeapBut f k node v) : HeapHole f k node v where
  rest p c a b hp hpn _ := h.rest p c a b hp hpn
  grand := h.grand

theorem HeapBut.of_leaf (h : HeapBut f k node v) (hleaf : v.length ≤ 2*node+1) : Heap f k v := by
  intro p j a b hk hj ha hb
  by_cases hp : p = node
  · have := (List.getElem?_eq_some_iff.mp hb).1
    have := isChild_iff.mp hj
    lia
  · exact h.rest p j a b hk hp hj ha hb

theorem HeapHole.of_leaf (h : HeapHole f k node v) (hleaf : v.length ≤ 2*node+1) :
    HeapUp f k node v where
  rest p j a b hk hjn hj ha hb := by
    by_cases hp : p = node
    · have := (List.getElem?_eq_some_iff.mp hb).1
      have := isChild_iff.mp hj
      lia
    · exact h.rest p j a b hk hp hjn hj ha hb
  grand := h.grand

theorem HeapUp.of_root (h : HeapUp f 0 0 v) : Heap f 0 v := by
  intro p j a b hk hj ha hb
  exact h.rest p j a b hk (by have := hj.1; lia) hj ha hb

theorem HeapUp.stop (h : HeapUp f k node v) (hp : IsChild node p) (hx : v[node]? = some x)
    (hy : v[p]? = some y) (hyx : f y x = false) : Heap f k v := by
  intro q j a b hk hj ha hb
  by_cases hjn : j = node
  · subst hjn
    obtain rfl := hj.parent hp
    rw [hx] at hb
    rw [hy] at ha
    rw [← Option.some.inj ha, ← Option.some.inj hb]
    exact hyx
  · exact h.rest q j a b hk hjn hj ha hb

theorem Heap.push (h : Heap f 0 v) (x : T) (hn : node = v.length) :
    HeapUp f 0 node (v ++ [x]) where
  rest p j a b hk hjn hj ha hb := by
    have hjl := (List.getElem?_eq_some_iff.mp hb).1
    rw [List.length_append, List.length_singleton] at hjl
    have hpj := hj.lt
    rw [List.getElem?_append_left (by lia)] at ha hb
    exact h p j a b hk hj ha hb
  grand p j a b hk hn' hj ha hb := by
    have := (List.getElem?_eq_some_iff.mp hb).1
    have := hj.lt
    rw [List.length_append, List.length_singleton] at *
    lia

/-- The greater child takes the place of the node. -/
theorem HeapHole.down (h : HeapHole f k node v) (hk : k ≤ node) (hc : IsChild c node)
    (hy : v[c]? = some y) (hmax : ∀ j b, IsChild j node → v[j]? = some b → f y b = false) (x : T) :
    HeapHole f k c ((v.set node y).set c x) := by
  have hlt := hc.lt
  have hcl := (List.getElem?_eq_some_iff.mp hy).1
  have hat := swap_getElem? (x := x) (y := y) (show node < v.length by lia) hcl
  constructor
  · intro p j a b hkp hpc hjc hj ha hb
    rw [hat, if_neg hpc] at ha
    rw [hat, if_neg hjc] at hb
    split_ifs at ha with hpn
    · subst hpn
      have hjp := hj.lt
      rw [if_neg (by lia)] at hb
      rw [← Option.some.inj ha]
      exact hmax j b hj hb
    · split_ifs at hb with hjn
      · subst hjn
        rw [← Option.some.inj hb]
        exact h.grand p c a y hkp hj hc ha hy
      · exact h.rest p j a b hkp hpn hjn hj ha hb
  · intro p j a b hkp hcp hj ha hb
    obtain rfl := hcp.parent hc
    have hcj := hj.lt
    rw [hat, if_neg (by lia), if_pos rfl] at ha
    rw [hat, if_neg (by lia), if_neg (by lia)] at hb
    rw [← Option.some.inj ha]
    exact h.rest c j y b (by lia) (by lia) (by lia) hj hy hb

variable (hf : Weak f)
include hf

theorem HeapBut.stop (h : HeapBut f k node v) (hx : v[node]? = some x)
    (hmax : ∀ j b, IsChild j node → v[j]? = some b → f y b = false) (hxy : f x y = false) :
    Heap f k v := by
  intro p j a b hk hj ha hb
  by_cases hp : p = node
  · subst hp
    rw [hx] at ha
    rw [← Option.some.inj ha]
    exact hf.le_trans (hmax j b hj hb) hxy
  · exact h.rest p j a b hk hp hj ha hb

theorem HeapBut.swap (h : HeapBut f k node v) (hk : k ≤ node) (hc : IsChild c node)
    (hy : v[c]? = some y) (hmax : ∀ j b, IsChild j node → v[j]? = some b → f y b = false)
    (hxy : f x y = true) : HeapBut f k c ((v.set node y).set c x) := by
  have hdown := h.hole.down hk hc hy hmax x
  have hlt := hc.lt
  have hcl := (List.getElem?_eq_some_iff.mp hy).1
  have hat := swap_getElem? (x := x) (y := y) (show node < v.length by lia) hcl
  refine ⟨fun p j a b hkp hpc hj ha hb => ?_, hdown.grand⟩
  by_cases hjc : j = c
  · subst hjc
    obtain rfl := hj.parent hc
    rw [hat, if_neg hpc, if_pos rfl] at ha
    rw [hat, if_pos rfl] at hb
    rw [← Option.some.inj ha, ← Option.some.inj hb]
    exact hf.asymm hxy
  · exact hdown.rest p j a b hkp hpc hjc hj ha hb

/-- After the swap with a smaller parent, the parent is the place to look at. -/
theorem HeapUp.swap (h : HeapUp f k node v) (hk : k ≤ p) (hp : IsChild node p)
    (hx : v[node]? = some x) (hy : v[p]? = some y) (hyx : f y x = true) :
    HeapUp f k p ((v.set node y).set p x) := by
  have hlt := hp.lt
  have hnl := (List.getElem?_eq_some_iff.mp hx).1
  have hat := swap_getElem? (x := x) (y := y) hnl (show p < v.length by lia)
  have hle {b : T} (hb : f y b = false) : f x b = false :=
    hf.le_trans hb (hf.asymm hyx)
  constructor
  · intro q j a b hkq hjp hj ha hb
    have hqj := hj.lt
    rw [hat, if_neg hjp] at hb
    by_cases hqp : q = p
    · subst hqp
      rw [hat, if_pos rfl] at ha
      rw [← Option.some.inj ha]
      split_ifs at hb with hjn
      · rw [← Option.some.inj hb]
        exact hf.asymm hyx
      · exact hle (h.rest q j y b hkq hjn hj hy hb)
    · rw [hat, if_neg hqp] at ha
      by_cases hqn : q = node
      · subst hqn
        rw [if_pos rfl] at ha
        rw [if_neg (by lia)] at hb
        rw [← Option.some.inj ha]
        exact h.grand p j y b hk hp hj hy hb
      · rw [if_neg hqn] at ha
        have hjn : j ≠ node := by
          rintro rfl
          exact hqp (hj.parent hp)
        rw [if_neg hjn] at hb
        exact h.rest q j a b hkq hjn hj ha hb
  · intro q j a b hkq hpq hj ha hb
    have hqp := hpq.lt
    have hpj := hj.lt
    rw [hat, if_neg (by lia), if_neg (by lia)] at ha
    have hay : f a y = false := h.rest q p a y hkq (by lia) hpq ha hy
    rw [hat, if_neg (by lia)] at hb
    split_ifs at hb with hjn
    · rw [← Option.some.inj hb]
      exact hay
    · exact hf.le_trans (h.rest p j y b hk hjn hj hy hb) hay

end Sift

end RustStd.HeapOrder
