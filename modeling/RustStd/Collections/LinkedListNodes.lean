import RustStd.Collections.LinkedList
import RustStd.Lib.Machine

/-!
# The node primitives of `LinkedList` keep its chains

A list over a chain of cells is `listOf` of the chain: its ends and its length
say no more. Every primitive is cut at the nodes it names: the part before the
cut is sent on by `setNextOrHead`, the part after it is sent back by
`setPrevOrTail`, and neither touches the other (`relink_spec`).

`Owns h l F` says that the chain of `l` is linked and that the nodes of the heap
are those of `l` and those of a frame `F`, which belong to somebody else. No
operation writes to its frame.
-/

set_option autoImplicit false

namespace RustStd.LinkedLists
open RustStd.DoublyLinked

variable {α : Type} {h : Heap α} {l m : Cells α} {F : List Ptr}

/-- The list whose chain is `l`. -/
def listOf (l : Cells α) : LinkedList :=
  { head := first l none, tail := last none l, len := l.length }

structure Owns (h : Heap α) (l : Cells α) (F : List Ptr) : Prop where
  seg : Seg h none l none
  exact : Exact h (ptrs l++F)

def Agree (h h' : Heap α) (F : List Ptr) : Prop := ∀ p ∈ F, h'.nodes p = h.nodes p

theorem Agree.refl (h : Heap α) (F : List Ptr) : Agree h h F := fun _ _ => rfl

theorem Agree.trans {h' h'' : Heap α} (ha : Agree h h' F) (hb : Agree h' h'' F) :
    Agree h h'' F := fun p hp => (hb p hp).trans (ha p hp)

theorem Agree.of_modifies {h' : Heap α} {ps : List Ptr} (hm : Modifies h h' ps)
    (hd : ∀ p ∈ F, p ∉ ps) : Agree h h' F := fun p hp => hm.other p (hd p hp)

namespace Owns

theorem before (ho : Owns h (l++m) F) : Seg h none l (first m none) :=
  ((seg_append ..).mp ho.seg).1

theorem after (ho : Owns h (l++m) F) : Seg h (last none l) m none :=
  ((seg_append ..).mp ho.seg).2

theorem nodup (ho : Owns h l F) : (ptrs l++F).Nodup := ho.exact.nodup

theorem nodup_chain (ho : Owns h l F) : (ptrs l).Nodup := ho.nodup.of_append_left

theorem disjoint (ho : Owns h l F) {p : Ptr} (hp : p ∈ ptrs l) : p ∉ F :=
  fun hF => (List.nodup_append.mp ho.nodup).2.2 p hp p hF rfl

theorem of_modifies {h' : Heap α} {ps G : List Ptr} (hx : Exact h (ps++F))
    (hs : Seg h' none l none) (hm : Modifies h h' ps) (hp : ps.Perm (ptrs l++G)) :
    Owns h' l (G++F) ∧ Agree h h' F := by
  refine ⟨⟨hs, ?_⟩, Agree.of_modifies hm ?_⟩
  · rw [← List.append_assoc]
    exact (hx.modifies hm).perm (hp.append_right F)
  · intro p hF hl
    exact (List.nodup_append.mp hx.nodup).2.2 p hl p hF rfl

theorem of_free {p : Ptr} {ps : List Ptr} (hx : Exact h (ps++F)) (hs : Seg h none l none)
    (hp : ps.Perm (p::ptrs l)) : Owns (h.write p none) l F ∧ Agree h (h.write p none) F := by
  have hx' : Exact h (p::(ptrs l++F)) := hx.perm (hp.append_right F)
  exact ⟨⟨hs.congr fun q hq => hx'.free_other q (List.mem_append_left _ hq), hx'.free⟩,
    fun q hq => hx'.free_other q (List.mem_append_right _ hq)⟩

theorem alloc (ho : Owns h l F) (n : Node α) :
    Owns (h.alloc n).2 l (h.fresh::F) ∧ Agree h (h.alloc n).2 (ptrs l++F) := by
  have hn : ∀ p ∈ ptrs l++F, (h.alloc n).2.nodes p = h.nodes p := by
    intro p hp
    apply alloc_other
    rintro rfl
    exact ho.exact.fresh_notMem hp
  refine ⟨⟨ho.seg.congr fun p hp => hn p (List.mem_append_left _ hp), ?_⟩, hn⟩
  exact (ho.exact.alloc n).perm List.perm_middle.symm

end Owns

theorem sub_of_le {a b : ℕ} (hle : b ≤ a) : sub a b = some (a-b) := if_pos hle

theorem first_concat (l : Cells α) (c : Ptr × α) (n v : Option Ptr) :
    first (l++[c]) n = first (l++[c]) v := by simp

theorem last_concat (d v : Option Ptr) (c : Ptr × α) (l : Cells α) :
    last d (c::l) = last v (c::l) := rfl

theorem setNextOrHead_spec {s : LinkedList} {n : Option Ptr} (hs : Seg h none l n)
    (hh : s.head = first l n) (hd : (ptrs l).Nodup) (v : Option Ptr) :
    ∃ h', setNextOrHead h s (last none l) v = some (h', { s with head := first l v }) ∧
      Seg h' none l v ∧ Modifies h h' (ptrs l) := by
  rcases last_cases l with rfl | ⟨l, p, a, rfl⟩
  · exact ⟨h, rfl, trivial, Modifies.refl ..⟩
  · rw [ptrs_append, List.nodup_append] at hd
    have hp : p ∉ ptrs l := fun hm => hd.2.2 p hm p (by simp) rfl
    obtain ⟨h', he, hs', hm⟩ := hs.setNext hp v
    refine ⟨h', ?_, hs', hm.mono (by simp)⟩
    rw [first_concat l (p, a) v n, ← hh]
    simp [setNextOrHead, he]

theorem setPrevOrTail_spec {s : LinkedList} {d : Option Ptr} (hs : Seg h d l none)
    (ht : s.tail = last d l) (hd : (ptrs l).Nodup) (v : Option Ptr) :
    ∃ h', setPrevOrTail h s (first l none) v = some (h', { s with tail := last v l }) ∧
      Seg h' v l none ∧ Modifies h h' (ptrs l) := by
  cases l with
  | nil => exact ⟨h, rfl, trivial, Modifies.refl ..⟩
  | cons c l =>
    obtain ⟨h', he, hs', hm⟩ := hs.setPrev (List.nodup_cons.mp hd).1 v
    refine ⟨h', ?_, hs', hm.mono (by simp)⟩
    rw [last_concat v d c l, ← ht]
    simp [setPrevOrTail, he]

theorem relink_spec {s : LinkedList} {d n : Option Ptr} (hl : Seg h none l n)
    (hm : Seg h d m none) (hh : s.head = first l n) (ht : s.tail = last d m)
    (hd : (ptrs l++ptrs m).Nodup) (v w : Option Ptr) :
    ∃ h₁ h₂, setNextOrHead h s (last none l) v = some (h₁, { s with head := first l v }) ∧
      setPrevOrTail h₁ { s with head := first l v } (first m none) w =
        some (h₂, { s with head := first l v, tail := last w m }) ∧
      Seg h₂ none l v ∧ Seg h₂ w m none ∧ Modifies h h₂ (ptrs l++ptrs m) := by
  rw [List.nodup_append] at hd
  obtain ⟨h₁, he₁, hl₁, hm₁⟩ := setNextOrHead_spec hl hh hd.1 v
  have hs₁ : Seg h₁ d m none := hm.frame hm₁ fun p hp hq => hd.2.2 p hq p hp rfl
  obtain ⟨h₂, he₂, hs₂, hm₂⟩ :=
    setPrevOrTail_spec (s := { s with head := first l v }) hs₁ ht hd.2.1 w
  exact ⟨h₁, h₂, he₁, he₂, hl₁.frame hm₂ fun p hp hq => hd.2.2 p hp p hq rfl, hs₂,
    hm₁.trans hm₂⟩

theorem perm_cut (l m : Cells α) (c : Ptr × α) (F : List Ptr) :
    (ptrs (l++c::m)++F).Perm (c.1::(ptrs (l++m)++F)) := by
  simp only [ptrs_append, ptrs_cons, List.append_assoc, List.cons_append]
  exact List.perm_middle

theorem nodup_cut {c : Ptr × α} (hd : (ptrs (l++c::m)++F).Nodup) :
    (ptrs l++ptrs m).Nodup ∧ c.1 ∉ ptrs l++ptrs m ∧ c.1 ∉ F := by
  have hc := List.nodup_cons.mp ((perm_cut l m c F).nodup_iff.mp hd)
  rw [List.mem_append, not_or, ptrs_append] at hc
  exact ⟨hc.2.of_append_left, hc.1⟩

theorem sub_length_cut (l m : Cells α) (c : Ptr × α) :
    sub (l++c::m).length 1 = some (l++m).length := by
  rw [sub_of_le (by simp only [List.length_append, List.length_cons]; omega)]
  simp

theorem unlinkNode_spec {p : Ptr} {a : α} (ho : Owns h (l++(p, a)::m) F) :
    ∃ h', unlinkNode h (listOf (l++(p, a)::m)) p = some (h', listOf (l++m)) ∧
      Seg h' none (l++m) none ∧ Modifies h h' (ptrs l++ptrs m) := by
  have hn := ho.seg.node
  obtain ⟨h₁, h₂, he₁, he₂, hl, hm, hmod⟩ := relink_spec
    (s := listOf (l++(p, a)::m)) ho.before ho.after.2 (by simp [listOf]) (by simp [listOf])
    (nodup_cut ho.nodup).1 (first m none) (last none l)
  refine ⟨h₂, ?_, (seg_append ..).mpr ⟨hl, hm⟩, hmod⟩
  rw [unlinkNode, hn]
  simp only [some_bind, he₁, he₂]
  simp only [listOf, sub_length_cut, first_append, last_append]
  rfl

theorem unlinkTake_spec {p : Ptr} {a : α} (ho : Owns h (l++(p, a)::m) F) :
    ∃ h₁ h', unlinkNode h (listOf (l++(p, a)::m)) p = some (h₁, listOf (l++m)) ∧
      h₁.take p = some (⟨first m none, last none l, a⟩, h') ∧ Owns h' (l++m) F ∧
      Agree h h' F := by
  obtain ⟨h₁, he, hs, hm⟩ := unlinkNode_spec ho
  have hp := (nodup_cut ho.nodup).2.1
  have hn : h₁.nodes p = some ⟨first m none, last none l, a⟩ :=
    (hm.other p hp).trans ho.seg.node
  have hfree := Owns.of_free (p := p) (ho.exact.modifies hm) hs (by simp)
  refine ⟨h₁, h₁.write p none, he, by simp [Heap.take, hn], hfree.1, Agree.trans ?_ hfree.2⟩
  apply Agree.of_modifies hm
  intro q hq hmem
  refine ho.disjoint ?_ hq
  simp only [ptrs_append, ptrs_cons, List.mem_append, List.mem_cons] at hmem ⊢
  tauto

theorem setLinks_spec {p : Ptr} {n : Node α} (hn : h.nodes p = some n) (v w : Option Ptr) :
    ∃ h₁ h₂, h.setNext p v = some h₁ ∧ h₁.setPrev p w = some h₂ ∧
      h₂.nodes p = some ⟨v, w, n.element⟩ ∧ Modifies h h₂ [p] := by
  have hm₁ := Modifies.write { n with next := v } hn
  have hm₂ := Modifies.write (h := h.write p (some { n with next := v }))
    { n with next := v, prev := w } (Heap.write_same ..)
  refine ⟨_, _, by rw [Heap.setNext, hn, Option.map_some],
    by rw [Heap.setPrev, Heap.write_same, Option.map_some], Heap.write_same .., ?_⟩
  exact (hm₁.trans hm₂).mono (by simp)

theorem pushFrontNode_spec {p : Ptr} {n : Node α} (ho : Owns h l (p::F))
    (hn : h.nodes p = some n) :
    ∃ h', pushFrontNode h (listOf l) p = some (h', listOf ((p, n.element)::l)) ∧
      Owns h' ((p, n.element)::l) F ∧ Agree h h' F := by
  have hp : p ∉ ptrs l := fun hm => ho.disjoint hm List.mem_cons_self
  obtain ⟨h₁, h₂, he₁, he₂, hn₂, hm₂⟩ := setLinks_spec hn (first l none) none
  have hs₂ : Seg h₂ none l none := ho.seg.frame hm₂ fun q hq hqp => by
    rw [List.mem_singleton] at hqp
    exact hp (hqp ▸ hq)
  obtain ⟨h₃, he₃, hs₃, hm₃⟩ :=
    setPrevOrTail_spec (s := listOf l) hs₂ rfl ho.nodup_chain (some p)
  have hseg : Seg h₃ none ((p, n.element)::l) none :=
    ⟨(hm₃.other p hp).trans hn₂, hs₃⟩
  have hmod : Modifies h h₃ (ptrs l++[p]) := (hm₂.trans hm₃).mono (by simp)
  refine ⟨h₃, ?_, Owns.of_modifies (G := []) (by simpa using ho.exact) hseg hmod (by simp)⟩
  rw [pushFrontNode, show (listOf l).head = first l none from rfl]
  simp only [Option.bind_eq_bind, he₁, he₂, he₃, Option.bind_some]
  simp [listOf]

theorem pushBackNode_spec {p : Ptr} {n : Node α} (ho : Owns h l (p::F))
    (hn : h.nodes p = some n) :
    ∃ h', pushBackNode h (listOf l) p = some (h', listOf (l++[(p, n.element)])) ∧
      Owns h' (l++[(p, n.element)]) F ∧ Agree h h' F := by
  have hp : p ∉ ptrs l := fun hm => ho.disjoint hm List.mem_cons_self
  obtain ⟨h₁, h₂, he₁, he₂, hn₂, hm₂⟩ := setLinks_spec hn none (last none l)
  have hs₂ : Seg h₂ none l none := ho.seg.frame hm₂ fun q hq hqp => by
    rw [List.mem_singleton] at hqp
    exact hp (hqp ▸ hq)
  obtain ⟨h₃, he₃, hs₃, hm₃⟩ :=
    setNextOrHead_spec (s := listOf l) hs₂ rfl ho.nodup_chain (some p)
  have hseg : Seg h₃ none (l++[(p, n.element)]) none :=
    (seg_append ..).mpr ⟨hs₃, (hm₃.other p hp).trans hn₂, trivial⟩
  have hmod : Modifies h h₃ (ptrs l++[p]) := (hm₂.trans hm₃).mono (by simp)
  refine ⟨h₃, ?_, Owns.of_modifies (G := []) (by simpa using ho.exact) hseg hmod (by simp)⟩
  rw [pushBackNode, show (listOf l).tail = last none l from rfl]
  simp only [Option.bind_eq_bind, he₁, he₂, he₃, Option.bind_some]
  simp [listOf]

theorem pushFront_spec (ho : Owns h l F) (a : α) :
    ∃ h' p, pushFront h (listOf l) a = some (h', listOf ((p, a)::l)) ∧
      Owns h' ((p, a)::l) F ∧ Agree h h' F := by
  obtain ⟨ho', hag⟩ := ho.alloc (Node.new a)
  obtain ⟨h', he, ho'', hag'⟩ := pushFrontNode_spec ho' (alloc_node h (Node.new a))
  refine ⟨h', h.fresh, he, ho'', Agree.trans ?_ hag'⟩
  exact fun p hp => hag p (List.mem_append_right _ hp)

theorem pushBack_spec (ho : Owns h l F) (a : α) :
    ∃ h' p, pushBack h (listOf l) a = some (h', listOf (l++[(p, a)])) ∧
      Owns h' (l++[(p, a)]) F ∧ Agree h h' F := by
  obtain ⟨ho', hag⟩ := ho.alloc (Node.new a)
  obtain ⟨h', he, ho'', hag'⟩ := pushBackNode_spec ho' (alloc_node h (Node.new a))
  refine ⟨h', h.fresh, he, ho'', Agree.trans ?_ hag'⟩
  exact fun p hp => hag p (List.mem_append_right _ hp)

theorem popFront_spec {p : Ptr} {a : α} (ho : Owns h ((p, a)::l) F) :
    ∃ h', popFront h (listOf ((p, a)::l)) = some (some a, h', listOf l) ∧ Owns h' l F ∧
      Agree h h' F := by
  have hx : Exact h (p::(ptrs l++F)) := ho.exact
  have hs₁ : Seg (h.write p none) (some p) l none :=
    ho.seg.2.congr fun q hq => hx.free_other q (List.mem_append_left _ hq)
  obtain ⟨h₂, he₂, hs₂, hm₂⟩ := setPrevOrTail_spec
    (s := { listOf ((p, a)::l) with head := first l none }) hs₁ rfl
    ho.nodup_chain.of_cons none
  obtain ⟨ho', hag⟩ := Owns.of_modifies (G := []) hx.free hs₂ hm₂ (by simp)
  refine ⟨h₂, ?_, ho', Agree.trans (fun q hq => hx.free_other q (List.mem_append_right _ hq)) hag⟩
  rw [popFront, popFrontNode, show (listOf ((p, a)::l)).head = some p from rfl]
  simp only [Heap.take, ho.seg.1, Option.map_some, some_bind, he₂]
  simp [listOf, sub_of_le]

theorem popBack_spec {p : Ptr} {a : α} (ho : Owns h (l++[(p, a)]) F) :
    ∃ h', popBack h (listOf (l++[(p, a)])) = some (some a, h', listOf l) ∧ Owns h' l F ∧
      Agree h h' F := by
  have hx : Exact h (p::(ptrs l++F)) := by simpa using ho.exact.perm (perm_cut l [] (p, a) F)
  have hs₁ : Seg (h.write p none) none l (some p) :=
    ho.before.congr fun q hq => hx.free_other q (List.mem_append_left _ hq)
  obtain ⟨h₂, he₂, hs₂, hm₂⟩ := setNextOrHead_spec
    (s := { listOf (l++[(p, a)]) with tail := last none l }) hs₁ (by simp [listOf])
    (List.nodup_append.mp hx.nodup.of_cons).1 none
  obtain ⟨ho', hag⟩ := Owns.of_modifies (G := []) hx.free hs₂ hm₂ (by simp)
  refine ⟨h₂, ?_, ho', Agree.trans (fun q hq => hx.free_other q (List.mem_append_right _ hq)) hag⟩
  rw [popBack, popBackNode, show (listOf (l++[(p, a)])).tail = some p by simp [listOf]]
  simp only [Heap.take, ho.seg.node, Option.map_some, some_bind, he₂]
  simp [listOf, sub_of_le]

theorem append_spec (ho : Owns h l (ptrs m++F)) (hs : Seg h none m none) :
    ∃ h', append h (listOf l) (listOf m) = some (h', listOf (l++m), new) ∧
      Owns h' (l++m) F ∧ Agree h h' F := by
  have hx : Exact h (ptrs l++ptrs m++F) := by simpa using ho.exact
  rcases last_cases l with rfl | ⟨l, p, a, rfl⟩
  · exact ⟨h, rfl, ⟨hs, hx⟩, Agree.refl h F⟩
  cases m with
  | nil => exact ⟨h, by simp [append, listOf, new], by simpa using ho, Agree.refl h F⟩
  | cons c m =>
    have hd := List.nodup_append.mp hx.nodup.of_append_left
    have hp : p ∉ ptrs l := by
      have := ho.nodup_chain
      simp only [ptrs_append, List.nodup_append] at this
      exact fun hm => this.2.2 p hm p (by simp) rfl
    obtain ⟨h₁, he₁, hs₁, hm₁⟩ := ho.seg.setNext hp (some c.1)
    have hm : Seg h₁ none (c::m) none := hs.frame hm₁ fun q hq hqp => by
      rw [List.mem_singleton] at hqp
      exact hd.2.2 p (by simp) q hq hqp.symm
    obtain ⟨h₂, he₂, hs₂, hm₂⟩ := hm.setPrev (List.nodup_cons.mp hd.2.1).1 (some p)
    have hl : Seg h₂ none (l++[(p, a)]) (some c.1) := hs₁.frame hm₂ fun q hq hqc => by
      rw [List.mem_singleton] at hqc
      exact hd.2.2 q hq c.1 (by simp) hqc
    have hseg : Seg h₂ none (l++[(p, a)]++c::m) none := by
      rw [seg_append]
      refine ⟨hl, ?_⟩
      simpa using hs₂
    obtain ⟨ho', hag⟩ := Owns.of_modifies (G := []) hx hseg
      ((hm₁.trans hm₂).mono (by simp)) (by simp)
    refine ⟨h₂, ?_, ho', hag⟩
    rw [append, show (listOf (l++[(p, a)])).tail = some p by simp [listOf],
      show (listOf (c::m)).head = some c.1 from rfl]
    simp [he₁, he₂, listOf, new]
    omega

theorem setEnds_spec {d n : Option Ptr} {c : Cells α} (hs : Seg h d c n) (hne : c ≠ [])
    (hd : (ptrs c).Nodup) (v w : Option Ptr) :
    ∃ b e h₁ h₂, first c none = some b ∧ last none c = some e ∧ h.setPrev b v = some h₁ ∧
      h₁.setNext e w = some h₂ ∧ Seg h₂ v c w ∧ Modifies h h₂ (ptrs c) := by
  rcases last_cases c with rfl | ⟨c, q, a, rfl⟩
  · exact absurd rfl hne
  obtain ⟨b, x, t, ht⟩ : ∃ b x t, c++[(q, a)] = (b, x)::t := by
    cases c with
    | nil => exact ⟨q, a, [], rfl⟩
    | cons y c => exact ⟨y.1, y.2, c++[(q, a)], rfl⟩
  have hb : b ∉ ptrs t := by
    rw [ht] at hd
    exact (List.nodup_cons.mp hd).1
  have hq : q ∉ ptrs c := by
    rw [ptrs_append, List.nodup_append] at hd
    exact fun hm => hd.2.2 q hm q (by simp) rfl
  obtain ⟨h₁, he₁, hs₁, hm₁⟩ := Seg.setPrev (ht ▸ hs) hb v
  obtain ⟨h₂, he₂, hs₂, hm₂⟩ := Seg.setNext (ht ▸ hs₁) hq w
  refine ⟨b, q, h₁, h₂, by rw [ht, first_cons], by simp, he₁, he₂, hs₂,
    (hm₁.trans hm₂).mono ?_⟩
  have hmem : b ∈ ptrs (c++[(q, a)]) := by simp [ht]
  intro p hp
  rcases List.mem_append.mp hp with hp | hp
  · rwa [List.mem_singleton.mp hp]
  · rw [List.mem_singleton.mp hp]
    simp

theorem spliceNodes_spec {c : Cells α} (ho : Owns h (l++m) (ptrs c++F))
    (hs : Seg h none c none) (hne : c ≠ []) :
    ∃ b e h', first c none = some b ∧ last none c = some e ∧
      spliceNodes h (listOf (l++m)) (last none l) (first m none) b e c.length =
        some (h', listOf (l++(c++m))) ∧ Owns h' (l++(c++m)) F ∧ Agree h h' F := by
  have hx : Exact h (ptrs l++ptrs m++ptrs c++F) := by simpa using ho.exact
  have hd := List.nodup_append.mp hx.nodup.of_append_left
  have hdis := List.nodup_append.mp hd.1
  obtain ⟨b, hb⟩ : ∃ b, ∀ n, first c n = some b := by
    cases c with
    | nil => exact absurd rfl hne
    | cons y c => exact ⟨y.1, fun _ => rfl⟩
  obtain ⟨e, hee⟩ : ∃ e, ∀ d, last d c = some e := by
    rcases last_cases c with rfl | ⟨c, q, a, rfl⟩
    · exact absurd rfl hne
    · exact ⟨q, fun _ => by simp⟩
  obtain ⟨h₁, h₂, he₁, he₂, hl₂, hr₂, hm₂⟩ := relink_spec (s := listOf (l++m)) ho.before
    ho.after (by simp [listOf]) (by simp [listOf]) hd.1 (some b) (some e)
  have hc₂ : Seg h₂ none c none :=
    hs.frame hm₂ fun q hq hqm => hd.2.2 q hqm q hq rfl
  obtain ⟨b', e', h₃, h₄, hb', he', he₃, he₄, hc₄, hm₄⟩ :=
    setEnds_spec hc₂ hne hd.2.1 (last none l) (first m none)
  obtain rfl : b = b' := Option.some.inj ((hb none).symm.trans hb')
  obtain rfl : e = e' := Option.some.inj ((hee none).symm.trans he')
  have hl₄ : Seg h₄ none l (some b) :=
    hl₂.frame hm₄ fun q hq hqc => hd.2.2 q (by simp [hq]) q hqc rfl
  have hr₄ : Seg h₄ (some e) m none :=
    hr₂.frame hm₄ fun q hq hqc => hd.2.2 q (by simp [hq]) q hqc rfl
  have hseg : Seg h₄ none (l++(c++m)) none := by
    rw [seg_append, seg_append, first_append, hb, hee]
    exact ⟨hl₄, hc₄, hr₄⟩
  obtain ⟨ho', hag⟩ := Owns.of_modifies (G := []) hx hseg (hm₂.trans hm₄) (by
    simp only [ptrs_append, List.append_nil, List.append_assoc]
    exact (List.perm_append_comm).append_left _)
  refine ⟨b, e, h₄, hb none, hee none, ?_, ho', hag⟩
  rw [spliceNodes]
  simp only [Option.bind_eq_bind, he₁, he₂, he₃, he₄, Option.bind_some]
  simp [listOf, hb, hee]
  omega

theorem nodup_parts (ho : Owns h (l++m) F) :
    (ptrs l).Nodup ∧ (ptrs m).Nodup ∧ ∀ q ∈ ptrs l, q ∉ ptrs m := by
  have hd := ho.nodup_chain
  rw [ptrs_append, List.nodup_append] at hd
  exact ⟨hd.1, hd.2.1, fun q hl hm => hd.2.2 q hl q hm rfl⟩

-- the source reads the end of a part where the relinking would write it

theorem cutBefore_eq (h : Heap α) (s : LinkedList) (tail : Option Ptr) :
    cutBefore h s tail = (setNextOrHead h s tail none).map fun r => (r.1, r.2.head) := by
  cases tail <;> simp [cutBefore, setNextOrHead, Function.comp_def]

theorem cutAfter_eq (h : Heap α) (s : LinkedList) (head : Option Ptr) :
    cutAfter h s head = (setPrevOrTail h s head none).map fun r => (r.1, r.2.tail) := by
  cases head <;> simp [cutAfter, setPrevOrTail, Function.comp_def]

theorem splitOffBeforeNode_spec {p : Ptr} {a : α} (ho : Owns h (l++(p, a)::m) F) :
    ∃ h', splitOffBeforeNode h (listOf (l++(p, a)::m)) (some p) l.length =
        some (listOf l, h', listOf ((p, a)::m)) ∧
      Owns h' ((p, a)::m) (ptrs l++F) ∧ Seg h' none l none ∧ Agree h h' F := by
  obtain ⟨hdl, hdm, hdis⟩ := nodup_parts ho
  obtain ⟨h₁, he₁, hs₁, hm₁⟩ := ho.after.setPrev (List.nodup_cons.mp hdm).1 none
  have hl₁ : Seg h₁ none l (some p) := ho.before.frame hm₁ fun q hq hqp => by
    rw [List.mem_singleton] at hqp
    exact hdis q hq (by simp [hqp])
  obtain ⟨h₂, he₂, hl₂, hm₂⟩ := setNextOrHead_spec
    (s := listOf (l++(p, a)::m)) hl₁ (by simp [listOf]) hdl none
  have hs₂ : Seg h₂ none ((p, a)::m) none := hs₁.frame hm₂ fun q hq hql => hdis q hql hq
  obtain ⟨ho', hag⟩ := Owns.of_modifies (G := ptrs l) ho.exact hs₂
    ((hm₁.trans hm₂).mono (by simp)) (by
      rw [ptrs_append]
      exact List.perm_append_comm)
  refine ⟨h₂, ?_, ho', hl₂, hag⟩
  rw [splitOffBeforeNode]
  simp only [ho.seg.node, he₁, cutBefore_eq, he₂, Option.map_some, some_bind]
  simp [listOf, sub_of_le]

theorem splitOffAfterNode_spec {p : Ptr} {a : α} (ho : Owns h (l++(p, a)::m) F) :
    ∃ h', splitOffAfterNode h (listOf (l++(p, a)::m)) (some p) (l.length+1) =
        some (listOf m, h', listOf (l++[(p, a)])) ∧
      Owns h' (l++[(p, a)]) (ptrs m++F) ∧ Seg h' none m none ∧ Agree h h' F := by
  have ho₁ : Owns h (l++[(p, a)]++m) F := by simpa using ho
  obtain ⟨hdl, hdm, hdis⟩ := nodup_parts ho₁
  have hp : p ∉ ptrs l := by
    have := nodup_cut (l := l) (m := []) (c := (p, a)) (F := ([] : List Ptr)) (by simpa using hdl)
    simpa using this.2.1
  obtain ⟨h₁, he₁, hs₁, hm₁⟩ := ho₁.before.setNext hp none
  have hr₁ : Seg h₁ (some p) m none := by
    have hr : Seg h (some p) m none := by simpa using ho₁.after
    apply hr.frame hm₁
    intro q hq hqp
    rw [List.mem_singleton] at hqp
    exact hdis q (by simp [hqp]) hq
  obtain ⟨h₂, he₂, hr₂, hm₂⟩ := setPrevOrTail_spec
    (s := listOf (l++(p, a)::m)) hr₁ (by simp [listOf]) hdm none
  have hs₂ : Seg h₂ none (l++[(p, a)]) none := hs₁.frame hm₂ fun q hq hqm => hdis q hq hqm
  obtain ⟨ho', hag⟩ := Owns.of_modifies (G := ptrs m) ho.exact hs₂
    ((hm₁.trans hm₂).mono (by simp)) (by simp)
  refine ⟨h₂, ?_, ho', hr₂, hag⟩
  rw [splitOffAfterNode]
  simp only [ho.seg.node, he₁, cutAfter_eq, he₂, Option.map_some, some_bind]
  rw [show (listOf (l++(p, a)::m)).len = l.length+1+m.length by simp [listOf]; omega,
    sub_of_le (Nat.le_add_right ..)]
  simp [listOf]

end RustStd.LinkedLists

/-! ## What a list shows

The links of a list read as its users read them: forward from the head, backward
from the tail. `Holds` says which elements a list holds, in both directions;
`Linked` says that the links of a heap are inverse to each other and that its
nodes are those of the lists, each in one list and once.
-/

namespace RustStd.LinkedLists
open RustStd.DoublyLinked

variable {α : Type} {h : Heap α} {ls : List (Cells α)}

/-- The nodes from the head on, by the links to the next node. -/
def nodesOf (h : Heap α) (s : LinkedList) : List Ptr :=
  ((follow h Node.next s.len s.head).map ptrs).getD []

structure Holds (h : Heap α) (s : LinkedList) (xs : List α) : Prop where
  forward : (follow h Node.next s.len s.head).map vals = some xs
  backward : (follow h Node.prev s.len s.tail).map vals = some xs.reverse
  len : s.len = xs.length
  head_prev : ∀ p n, s.head = some p → h.nodes p = some n → n.prev = none
  tail_next : ∀ p n, s.tail = some p → h.nodes p = some n → n.next = none

structure Linked (h : Heap α) (lists : List LinkedList) : Prop where
  prev_of_next : ∀ p n q, h.nodes p = some n → n.next = some q →
    ∃ n', h.nodes q = some n' ∧ n'.prev = some p
  next_of_prev : ∀ p n q, h.nodes p = some n → n.prev = some q →
    ∃ n', h.nodes q = some n' ∧ n'.next = some p
  nodup : (lists.flatMap (nodesOf h)).Nodup
  nodes : ∀ p, h.nodes p ≠ none ↔ p ∈ lists.flatMap (nodesOf h)

theorem nodesOf_listOf {l : Cells α} (hs : Seg h none l none) : nodesOf h (listOf l) = ptrs l := by
  simp [nodesOf, listOf, hs.follow_next]

theorem Holds.of_seg {l : Cells α} (hs : Seg h none l none) : Holds h (listOf l) (vals l) where
  forward := by simp [listOf, hs.follow_next]
  backward := by simp [listOf, hs.follow_prev, vals]
  len := by simp [listOf]
  head_prev := by
    intro p n hp hn
    cases l with
    | nil => cases hp
    | cons c l =>
      cases hp
      rw [hs.1] at hn
      cases hn
      rfl
  tail_next := by
    intro p n hp hn
    rcases last_cases l with rfl | ⟨l, q, a, rfl⟩
    · cases hp
    · rw [show (listOf (l++[(q, a)])).tail = some q by simp [listOf]] at hp
      cases hp
      rw [hs.node] at hn
      cases hn
      rfl

theorem perm_pick {β : Type} {ls : List β} {l : β} {i : ℕ} (hi : ls[i]? = some l) :
    ls.Perm (l::ls.eraseIdx i) := by
  obtain ⟨hlt, rfl⟩ := List.getElem?_eq_some_iff.mp hi
  exact (List.getElem_cons_eraseIdx_perm hlt).symm

/-- The chains of a heap, with all of its nodes. -/
structure Chains (h : Heap α) (ls : List (Cells α)) : Prop where
  seg : ∀ l ∈ ls, Seg h none l none
  exact : Exact h (ls.flatMap ptrs)

namespace Chains

theorem nodesOf_eq (hc : Chains h ls) :
    (ls.map listOf).flatMap (nodesOf h) = ls.flatMap ptrs := by
  have hs := hc.seg
  clear hc
  induction ls with
  | nil => rfl
  | cons l ls ih =>
    rw [List.map_cons, List.flatMap_cons, List.flatMap_cons,
      nodesOf_listOf (hs l List.mem_cons_self), ih fun r hr => hs r (List.mem_cons_of_mem _ hr)]

theorem cut (hc : Chains h ls) {p : Ptr} {n : Node α} (hn : h.nodes p = some n) :
    ∃ l a m, l++(p, a)::m ∈ ls ∧ n = ⟨first m none, last none l, a⟩ := by
  have hmem := (hc.exact.domain p).mp (by simp [hn])
  obtain ⟨r, hr, hp⟩ := List.mem_flatMap.mp hmem
  obtain ⟨⟨q, a⟩, hqa, rfl⟩ := List.mem_map.mp hp
  obtain ⟨l, m, rfl⟩ := List.append_of_mem hqa
  have hnode := (hc.seg _ hr).node
  rw [hn] at hnode
  exact ⟨l, a, m, hr, Option.some.inj hnode⟩

theorem linked (hc : Chains h ls) : Linked h (ls.map listOf) where
  prev_of_next := by
    intro p n q hn hq
    obtain ⟨l, a, m, hl, rfl⟩ := hc.cut hn
    cases m with
    | nil => cases hq
    | cons c m =>
      cases hq
      have hs : Seg h none (l++[(p, a)]++c::m) none := by simpa using hc.seg _ hl
      exact ⟨_, hs.node, by simp⟩
  next_of_prev := by
    intro p n q hn hq
    obtain ⟨l, a, m, hl, rfl⟩ := hc.cut hn
    rcases last_cases l with rfl | ⟨l, q', b, rfl⟩
    · cases hq
    · rw [last_append, last_cons, last_nil] at hq
      cases hq
      have hs : Seg h none (l++(q', b)::(p, a)::m) none := by simpa using hc.seg _ hl
      exact ⟨_, hs.node, by simp⟩
  nodup := hc.nodesOf_eq ▸ hc.exact.nodup
  nodes := hc.nodesOf_eq ▸ hc.exact.domain

theorem holds (hc : Chains h ls) :
    List.Forall₂ (Holds h) (ls.map listOf) (ls.map vals) := by
  have hs := hc.seg
  clear hc
  induction ls with
  | nil => exact List.Forall₂.nil
  | cons l ls ih =>
    exact List.Forall₂.cons (Holds.of_seg (hs l List.mem_cons_self))
      (ih fun r hr => hs r (List.mem_cons_of_mem _ hr))

theorem perm {ls' : List (Cells α)} (hc : Chains h ls) (hp : ls.Perm ls') : Chains h ls' :=
  ⟨fun l hl => hc.seg l (hp.mem_iff.mpr hl), hc.exact.perm (hp.flatMap_right ptrs)⟩

theorem owns {l : Cells α} (hc : Chains h (l::ls)) : Owns h l (ls.flatMap ptrs) :=
  ⟨hc.seg l List.mem_cons_self, hc.exact⟩

theorem of_owns {h' : Heap α} {l : Cells α} {rs : List (Cells α)}
    (hs : ∀ r ∈ ls, Seg h none r none) (ho : Owns h' l (rs.flatMap ptrs++ls.flatMap ptrs))
    (hr : ∀ r ∈ rs, Seg h' none r none) (hag : Agree h h' (ls.flatMap ptrs)) :
    Chains h' (l::(rs++ls)) := by
  refine ⟨?_, by simpa [List.flatMap_append] using ho.exact⟩
  intro r hmem
  rcases List.mem_cons.mp hmem with rfl | hmem
  · exact ho.seg
  rcases List.mem_append.mp hmem with hmem | hmem
  · exact hr r hmem
  · exact (hs r hmem).congr fun p hp => hag p (List.mem_flatMap.mpr ⟨r, hmem, hp⟩)

end Chains

end RustStd.LinkedLists
