import RustStd.Slice.ChunkIters

/-!
# The chunks left

What is left of the slice determines the windows or chunks left: a call at one end takes elements
off that end, and only one end can have the short chunk. So the calls at both ends, in any order,
answer as the list does.
-/

set_option autoImplicit false

namespace RustStd.ChunkIters
open RustStd.Machine RustStd.ListIter RustStd.Usize

variable {T : Type}

theorem slice_to (v : List T) {b : ℕ} (h : b ≤ v.length) : slice v 0 b = some (v.take b) := by
  rw [slice_eq v (Nat.zero_le b) h, List.drop_zero, Nat.sub_zero]

theorem slice_from (v : List T) {a : ℕ} (h : a ≤ v.length) :
    slice v a v.length = some (v.drop a) := by
  rw [slice_eq v h le_rfl, List.take_of_length_le (by rw [List.length_drop])]

/-! ## Windows -/

namespace Windows

variable {s : Windows T} {v : List T} {size : ℕ} {l : List (List T)}

/-- The windows left. -/
def Left (s : Windows T) (l : List (List T)) : Prop :=
  s.v.length < 2^64 ∧ l = windowList s.size s.v

theorem windowList_short (h : v.length < size) : windowList size v = [] := by
  rw [windowList, Nat.sub_eq_zero_of_le h, tabulate_zero]

theorem windowList_drop (k : ℕ) (hk : k ≤ v.length) : windowList size (v.drop k) =
    tabulate (v.length+1-size-k) fun i => (v.drop (i+k)).take size := by
  rw [windowList, List.length_drop, show v.length-k+1-size = v.length+1-size-k by omega]
  apply tabulate_congr
  intro i _
  rw [List.drop_drop, Nat.add_comm k i]

theorem windowList_take {k m : ℕ} (hm : m+1 = k+size) (hle : m ≤ v.length) :
    windowList size (v.take m) = tabulate k fun i => (v.drop i).take size := by
  rw [windowList, List.length_take, show min m v.length+1-size = k by omega]
  apply tabulate_congr
  intro i hi
  rw [List.drop_take, List.take_take, Nat.min_eq_left (by omega)]

theorem left_drop (h : s.v.length < 2^64) {k : ℕ} (hk : k ≤ s.v.length) :
    Left { s with v := s.v.drop k }
      (tabulate (s.v.length+1-s.size-k) fun i => (s.v.drop (i+k)).take s.size) := by
  refine ⟨?_, (windowList_drop k hk).symm⟩
  rw [List.length_drop]
  omega

theorem left_take (h : s.v.length < 2^64) (k m : ℕ) (hm : m+1 = k+s.size) (hle : m ≤ s.v.length) :
    Left { s with v := s.v.take m } (tabulate k fun i => (s.v.drop i).take s.size) := by
  refine ⟨?_, (windowList_take hm hle).symm⟩
  rw [List.length_take]
  omega

theorem clear_eq (s : Windows T) : s.clear = some (none, { s with v := [] }) := by
  rw [clear, slice_to s.v (Nat.zero_le _)]
  rfl

theorem left_clear (s : Windows T) : Left (⟨[], s.size, s.size_pos⟩ : Windows T) [] :=
  ⟨Nat.two_pow_pos 64, (windowList_short s.size_pos).symm⟩

theorem next_takes (h : Left s l) : ops.Takes Left .next s l := by
  obtain ⟨hv, rfl⟩ := h
  have hsize := s.size_pos
  by_cases hn : s.size > s.v.length
  · have hnil := windowList_short hn
    rw [hnil]
    exact Iter.takes_of_answer (answer_nil _) (if_pos hn) ⟨hv, hnil.symm⟩
  · have ha := (answer_next (windowList s.size s.v)).trans
      (answer_nth_lt (show 0 < s.v.length+1-s.size by omega))
    refine Iter.takes_of_answer ha ?_ (left_drop hv (by omega))
    change s.next = _
    rw [next, if_neg hn, slice_to s.v (by omega), slice_from s.v (by omega)]
    rfl

theorem nth_takes (n : ℕ) (h : Left s l) : ops.Takes Left (.nth n) s l := by
  obtain ⟨hv, rfl⟩ := h
  have hsize := s.size_pos
  by_cases hn : n < s.v.length+1-s.size
  · refine Iter.takes_of_answer (answer_nth_lt hn) ?_ (left_drop hv (by omega))
    have hlen : (s.v.drop n).length = s.v.length-n := List.length_drop
    change s.nth n = _
    rw [nth, slice_from s.v (by omega)]
    dsimp only
    rw [slice_to (s.v.drop n) (by omega)]
    dsimp only
    rw [slice_from (s.v.drop n) (by omega), List.drop_drop]
    rfl
  · refine Iter.takes_of_answer (answer_nth_ge (Nat.le_of_not_lt hn)) ?_ (left_clear s)
    change s.nth n = _
    rw [nth]
    by_cases hle : n ≤ s.v.length
    · rw [slice_from s.v hle]
      dsimp only
      rw [slice, if_neg (by rw [List.length_drop]; omega)]
      exact clear_eq s
    · rw [slice, if_neg (by omega)]
      exact clear_eq s

theorem nextBack_takes (h : Left s l) : ops.Takes Left .nextBack s l := by
  obtain ⟨hv, rfl⟩ := h
  have hsize := s.size_pos
  by_cases hn : s.size > s.v.length
  · have hnil := windowList_short hn
    rw [hnil]
    exact Iter.takes_of_answer (answer_nil _) (if_pos hn) ⟨hv, hnil.symm⟩
  · have ha := (answer_nextBack (windowList s.size s.v)).trans
      (answer_nthBack_lt (show 0 < s.v.length+1-s.size by omega))
    refine Iter.takes_of_answer ha ?_ (left_take hv _ (s.v.length-1) (by omega) (by omega))
    have hret : (s.v.drop (s.v.length+1-s.size-1-0)).take s.size =
        s.v.drop (s.v.length-s.size) := by
      rw [show s.v.length+1-s.size-1-0 = s.v.length-s.size by omega]
      exact List.take_of_length_le (by rw [List.length_drop]; omega)
    change s.nextBack = _
    rw [nextBack, if_neg hn, sub_eq (by omega), sub_eq (by omega), hret]
    simp only [some_bind]
    rw [slice_from s.v (by omega), slice_to s.v (by omega)]
    rfl

theorem nthBack_takes (n : ℕ) (h : Left s l) : ops.Takes Left (.nthBack n) s l := by
  obtain ⟨hv, rfl⟩ := h
  have hsize := s.size_pos
  by_cases hn : n < s.v.length+1-s.size
  · have hstop : (overflowingSub s.v.length n) = (s.v.length-n, false) := by
      rw [overflowingSub, wrappingSub_eq hv (by omega), decide_eq_false (by omega)]
    refine Iter.takes_of_answer (answer_nthBack_lt hn) ?_
      (left_take hv _ (s.v.length-n-1) (by omega) (by omega))
    have hret : slice s.v (s.v.length-n-s.size) (s.v.length-n) =
        some ((s.v.drop (s.v.length+1-s.size-1-n)).take s.size) := by
      rw [slice_eq s.v (by omega) (by omega)]
      congr 3
      · omega
      · omega
    rw [Iter.call]
    change s.nthBack n = _
    rw [nthBack, hstop]
    dsimp only
    rw [if_neg (by simp; omega), sub_eq (by omega), sub_eq (by omega)]
    simp only [some_bind]
    rw [hret, slice_to s.v (by omega)]
    rfl
  · refine Iter.takes_of_answer (answer_nthBack_ge (Nat.le_of_not_lt hn)) ?_ (left_clear s)
    rw [Iter.call]
    change s.nthBack n = _
    rw [nthBack, overflowingSub]
    dsimp only
    have hover : wrappingSub s.v.length n < s.size ∨ decide (s.v.length < n) = true := by
      by_cases hle : n ≤ s.v.length
      · left
        rw [wrappingSub]
        omega
      · right
        simpa using hle
    rw [if_pos hover]
    exact clear_eq s

theorem left_agrees (h : Left s l) : ops.Agrees s l := by
  obtain ⟨hv, rfl⟩ := h
  have hsize := s.size_pos
  have hlen : (windowList s.size s.v).length = s.v.length+1-s.size := length_tabulate _ _
  by_cases hn : s.size > s.v.length
  · rw [windowList_short hn]
    exact ⟨if_pos hn, if_pos hn, fun i h => absurd h (Nat.not_lt_zero i)⟩
  · refine ⟨?_, ?_, fun i h => ?_⟩
    · change s.sizeHint = _
      rw [sizeHint, if_neg hn, sub_eq (by omega), some_bind,
        add_eq (by omega), hlen, show s.v.length+1-s.size = s.v.length-s.size+1 by omega]
      rfl
    · change s.last = _
      rw [last, if_neg hn, sub_eq (by omega), some_bind,
        slice_from s.v (by omega), windowList, getLast?_tabulate (by omega)]
      rw [List.take_of_length_le (by rw [List.length_drop]; omega),
        show s.v.length+1-s.size-1 = s.v.length-s.size by omega]
      rfl
    · have hi : i < s.v.length+1-s.size := hlen ▸ h
      have hget : (windowList s.size s.v).get ⟨i, h⟩ = (s.v.drop i).take s.size := get_tabulate _ h
      rw [hget]
      change fromRawParts s.v i s.size = _
      rw [fromRawParts, slice_eq s.v (by omega) (by omega), Nat.add_sub_cancel_left]

theorem follows (h : Left s l) : ops.Follows s l := by
  apply Ops.follows_of_takes ?_ (fun s l h => left_agrees h) h
  intro c s l h
  cases c with
  | next => exact next_takes h
  | nth n => exact nth_takes n h
  | nextBack => exact nextBack_takes h
  | nthBack n => exact nthBack_takes n h

end Windows

/-! ## The number of chunks -/

section Count

variable {v : List T} {len cs i k : ℕ}

theorem chunkHint_eq (hc : 0 < cs) (hv : v.length < 2^64) :
    chunkHint v cs = some (ceil v.length cs, some (ceil v.length cs)) := by
  rw [chunkHint]
  by_cases he : v.isEmpty
  · have hnil : v = [] := List.isEmpty_iff.mp he
    rw [if_pos he, hnil, List.length_nil, ceil_zero cs]
  · have hround : roundUp (v.length/cs) (v.length%cs) = some (ceil v.length cs) := by
      have hle : _ ≤ v.length := ceil_le hc
      rw [ceil] at hle ⊢
      rw [roundUp]
      split
      · rw [if_pos ‹_›] at hle
        exact add_eq (by omega)
      · rfl
    rw [if_neg he, div_eq hc, rem_eq hc]
    simp only [some_bind, hround]
    rfl

theorem shortSize_eq (hc : 0 < cs) (h : 0 < v.length) :
    shortSize v cs = some (v.length-(ceil v.length cs-1)*cs) := by
  have hdiv := Nat.div_add_mod v.length cs
  rw [shortSize, rem_eq hc, some_bind, ceil,
    Nat.sub_mul, Nat.add_mul, Nat.mul_comm (v.length/cs)]
  by_cases hr : v.length%cs = 0
  · rw [if_neg (not_not.mpr hr), if_neg (by omega), Nat.zero_mul, Nat.one_mul]
    have hge : cs ≤ cs*(v.length/cs) := Nat.le_of_dvd (by omega) (Nat.dvd_mul_right ..)
    congr 1
    omega
  · rw [if_pos hr, if_pos (by omega)]
    congr 1
    omega

end Count

theorem splitAt_min (v : List T) (k : ℕ) :
    splitAt v (min k v.length) = some (v.take k, v.drop k) := by
  rw [splitAt, if_pos (Nat.min_le_right ..)]
  by_cases h : k ≤ v.length
  · rw [Nat.min_eq_left h]
  · have hle : v.length ≤ k := Nat.le_of_not_le h
    rw [Nat.min_eq_right hle, List.take_length, List.drop_length, List.take_of_length_le hle,
      List.drop_eq_nil_of_le hle]

theorem chunkEnd_eq {len start cs : ℕ} (h : len < 2^64) :
    chunkEnd len start cs = min len (start+cs) := by
  rw [chunkEnd]
  by_cases hlt : start+cs < 2^64
  · rw [add_eq hlt]
  · have hnone : add start cs = none := by
      rw [add]
      exact if_neg hlt
    rw [hnone]
    dsimp only
    omega

theorem slice_chunk {v : List T} {start cs : ℕ} (h : start ≤ v.length) :
    slice v start (min v.length (start+cs)) = some ((v.drop start).take cs) := by
  rw [slice_eq v (by omega) (Nat.min_le_left ..), Option.some.injEq, List.take_eq_take_iff,
    List.length_drop]
  omega

/-! ## Chunks -/

namespace Chunks

variable {s : Chunks T} {v : List T} {cs k : ℕ} {l : List (List T)}

/-- The chunks left. -/
def Left (s : Chunks T) (l : List (List T)) : Prop :=
  0 < s.chunkSize ∧ s.v.length < 2^64 ∧ l = chunkList s.chunkSize s.v

theorem chunkList_nil (cs : ℕ) : chunkList cs ([] : List T) = [] := by
  rw [chunkList, List.length_nil, ceil_zero, tabulate_zero]

theorem chunkList_drop (hc : 0 < cs) (k : ℕ) : chunkList cs (v.drop (k*cs)) =
    tabulate (ceil v.length cs-k) fun i => (v.drop ((i+k)*cs)).take cs := by
  rw [chunkList, List.length_drop, ceil_sub hc]
  apply tabulate_congr
  intro i _
  rw [List.drop_drop, Nat.add_mul, Nat.add_comm (k*cs)]

theorem chunkList_take (hc : 0 < cs) (hk : k ≤ ceil v.length cs) :
    chunkList cs (v.take (k*cs)) = tabulate k fun i => (v.drop (i*cs)).take cs := by
  rw [chunkList, List.length_take, ceil_min hc hk]
  apply tabulate_congr
  intro i hi
  have hle : i*cs+cs ≤ k*cs := by
    rw [← Nat.succ_mul]
    exact Nat.mul_le_mul_right cs hi
  rw [List.drop_take, List.take_take, Nat.min_eq_left (by omega)]

theorem left_drop (hc : 0 < s.chunkSize) (h : s.v.length < 2^64) (k : ℕ) :
    Left { s with v := s.v.drop (k*s.chunkSize) }
      (tabulate (ceil s.v.length s.chunkSize-k) fun i =>
        (s.v.drop ((i+k)*s.chunkSize)).take s.chunkSize) := by
  refine ⟨hc, ?_, (chunkList_drop hc k).symm⟩
  rw [List.length_drop]
  omega

theorem left_take (hc : 0 < s.chunkSize) (h : s.v.length < 2^64)
    (hk : k ≤ ceil s.v.length s.chunkSize) :
    Left { s with v := s.v.take (k*s.chunkSize) }
      (tabulate k fun i => (s.v.drop (i*s.chunkSize)).take s.chunkSize) := by
  refine ⟨hc, ?_, (chunkList_take hc hk).symm⟩
  rw [List.length_take]
  omega

theorem clear_eq (s : Chunks T) : s.clear = some (none, { s with v := [] }) := by
  rw [clear, slice_to s.v (Nat.zero_le _)]
  rfl

theorem left_clear (hc : 0 < s.chunkSize) : Left (⟨[], s.chunkSize⟩ : Chunks T) [] :=
  ⟨hc, Nat.two_pow_pos 64, (chunkList_nil _).symm⟩

theorem next_takes (h : Left s l) : ops.Takes Left .next s l := by
  have hleft := h
  obtain ⟨hc, hv, rfl⟩ := h
  by_cases he : s.v.isEmpty
  · have hnil : chunkList s.chunkSize s.v = [] := by
      rw [List.isEmpty_iff.mp he, chunkList_nil]
    rw [hnil] at hleft ⊢
    exact Iter.takes_of_answer (answer_nil _) (if_pos he) hleft
  · have hpos : 0 < s.v.length := by simpa [List.length_pos_iff] using he
    have ha := (answer_next (chunkList s.chunkSize s.v)).trans
      (answer_nth_lt (ceil_pos hc hpos))
    refine Iter.takes_of_answer ha ?_ (left_drop hc hv (0+1))
    rw [Nat.zero_mul, List.drop_zero, Nat.zero_add, Nat.one_mul]
    change s.next = _
    rw [next, if_neg he, Nat.min_comm]
    dsimp only
    rw [splitAt_min]
    rfl

theorem nth_eq {n start : ℕ} {overflow : Bool}
    (h : overflowingMul n s.chunkSize = (start, overflow)) :
    s.nth n = if overflow = false ∧ start < s.v.length then
      some (some ((s.v.drop (min start s.v.length)).take s.chunkSize),
        { s with v := (s.v.drop (min start s.v.length)).drop s.chunkSize }) else s.clear := by
  rw [nth, h]
  dsimp only
  rw [slice_from s.v (Nat.min_le_right ..), some_bind, splitAt_min,
    some_bind]
  rfl

theorem nth_takes (n : ℕ) (h : Left s l) : ops.Takes Left (.nth n) s l := by
  obtain ⟨hc, hv, rfl⟩ := h
  by_cases hn : n < ceil s.v.length s.chunkSize
  · have hlt := (lt_ceil_iff hc).mp hn
    refine Iter.takes_of_answer (answer_nth_lt hn) ?_ (left_drop hc hv (n+1))
    rw [Iter.call]
    change s.nth n = _
    rw [nth_eq (overflowingMul_lt (hlt.trans hv)), if_pos ⟨rfl, hlt⟩, Nat.min_eq_left hlt.le,
      List.drop_drop, ← Nat.succ_mul]
  · have hle : s.v.length ≤ n*s.chunkSize := by
      rw [lt_ceil_iff hc] at hn
      exact Nat.le_of_not_lt hn
    refine Iter.takes_of_answer (answer_nth_ge (Nat.le_of_not_lt hn)) ?_ (left_clear hc)
    rw [Iter.call]
    change s.nth n = _
    rw [nth_eq (Prod.mk.eta).symm, if_neg ?_]
    · exact clear_eq s
    · rintro ⟨hflag, hlt⟩
      obtain hover | hover := overflowingMul_ge hle
      · rw [hflag] at hover
        cases hover
      · omega

theorem nextBack_takes (h : Left s l) : ops.Takes Left .nextBack s l := by
  have hleft := h
  obtain ⟨hc, hv, rfl⟩ := h
  by_cases he : s.v.isEmpty
  · have hnil : chunkList s.chunkSize s.v = [] := by
      rw [List.isEmpty_iff.mp he, chunkList_nil]
    rw [hnil] at hleft ⊢
    exact Iter.takes_of_answer (answer_nil _) (if_pos he) hleft
  · have hpos : 0 < s.v.length := by simpa [List.length_pos_iff] using he
    have hcount := ceil_pos hc hpos
    have ha := (answer_nextBack (chunkList s.chunkSize s.v)).trans (answer_nthBack_lt hcount)
    have hlt := (lt_ceil_iff hc).mp (Nat.sub_lt hcount Nat.one_pos)
    have hle : s.v.length ≤ _ := le_ceil_mul hc
    refine Iter.takes_of_answer ha ?_ (left_take hc hv (by omega))
    rw [Nat.sub_zero]
    have hret : (s.v.drop ((ceil s.v.length s.chunkSize-1)*s.chunkSize)).take s.chunkSize =
        s.v.drop ((ceil s.v.length s.chunkSize-1)*s.chunkSize) := by
      apply List.take_of_length_le
      rw [List.length_drop, Nat.sub_mul]
      omega
    change s.nextBack = _
    rw [nextBack, if_neg he, shortSize_eq hc hpos, some_bind,
      sub_eq (Nat.sub_le ..), Nat.sub_sub_self hlt.le, some_bind,
      splitAt, if_pos hlt.le, hret]
    rfl

theorem nthBack_takes (n : ℕ) (h : Left s l) : ops.Takes Left (.nthBack n) s l := by
  obtain ⟨hc, hv, rfl⟩ := h
  have hlen : s.sizeHint = some (ceil s.v.length s.chunkSize,
      some (ceil s.v.length s.chunkSize)) := chunkHint_eq hc hv
  by_cases hn : n < ceil s.v.length s.chunkSize
  · have hlast : ceil s.v.length s.chunkSize-1-n < ceil s.v.length s.chunkSize := by
      omega
    have hlt := (lt_ceil_iff hc).mp hlast
    refine Iter.takes_of_answer (answer_nthBack_lt hn) ?_ (left_take hc hv (by omega))
    rw [Iter.call]
    change s.nthBack n = _
    rw [nthBack, hlen, some_bind, exactLen_eq, some_bind, if_neg (Nat.not_le.mpr hn), sub_eq (by omega)]
    simp only [some_bind, sub_eq (Nat.le_sub_one_of_lt hn),
      mul_eq (hlt.trans hv), chunkEnd_eq hv, slice_chunk hlt.le, slice_to s.v hlt.le]
    rfl
  · refine Iter.takes_of_answer (answer_nthBack_ge (Nat.le_of_not_lt hn)) ?_ (left_clear hc)
    rw [Iter.call]
    change s.nthBack n = _
    rw [nthBack, hlen, some_bind, exactLen_eq, some_bind, if_pos (Nat.le_of_not_lt hn)]
    exact clear_eq s

theorem left_agrees (h : Left s l) : ops.Agrees s l := by
  obtain ⟨hc, hv, rfl⟩ := h
  have hlen : (chunkList s.chunkSize s.v).length = ceil s.v.length s.chunkSize :=
    length_tabulate _ _
  refine ⟨?_, ?_, fun i h => ?_⟩
  · rw [hlen]
    exact chunkHint_eq hc hv
  · change s.last = _
    by_cases he : s.v.isEmpty
    · rw [last, if_pos he, List.isEmpty_iff.mp he, chunkList_nil]
      rfl
    · have hpos : 0 < s.v.length := by simpa [List.length_pos_iff] using he
      have hcount := ceil_pos hc hpos
      have hlt := (lt_ceil_iff hc).mp (Nat.sub_lt hcount Nat.one_pos)
      have hle : s.v.length ≤ _ := le_ceil_mul hc
      have hlast : (chunkList s.chunkSize s.v).getLast? =
          some (s.v.drop ((ceil s.v.length s.chunkSize-1)*s.chunkSize)) := by
        rw [chunkList, getLast?_tabulate hcount, List.take_of_length_le]
        rw [List.length_drop, Nat.sub_mul]
        omega
      rw [last, if_neg he, hlast]
      simp only [some_bind, sub_eq (Nat.succ_le_of_lt hpos), div_eq hc,
        ceil_pred hc hpos, mul_eq (hlt.trans hv), slice_from s.v hlt.le]
      rfl
  · have hi : i < ceil s.v.length s.chunkSize := hlen ▸ h
    have hlt := (lt_ceil_iff hc).mp hi
    have hget : (chunkList s.chunkSize s.v).get ⟨i, h⟩ =
        (s.v.drop (i*s.chunkSize)).take s.chunkSize := get_tabulate _ h
    have hstop : i*s.chunkSize+min (s.v.length-i*s.chunkSize) s.chunkSize =
        min s.v.length (i*s.chunkSize+s.chunkSize) := by omega
    rw [hget]
    change s.getUnchecked i = _
    rw [getUnchecked]
    simp only [mul_eq (hlt.trans hv), sub_eq hlt.le, some_bind,
      fromRawParts, hstop, slice_chunk hlt.le]

theorem follows (h : Left s l) : ops.Follows s l := by
  apply Ops.follows_of_takes ?_ (fun s l h => left_agrees h) h
  intro c s l h
  cases c with
  | next => exact next_takes h
  | nth n => exact nth_takes n h
  | nextBack => exact nextBack_takes h
  | nthBack n => exact nthBack_takes n h

end Chunks

/-! ## Chunks from the end -/

theorem rchunkStart_eq (stop cs : ℕ) : rchunkStart stop cs = stop-cs := by
  rw [rchunkStart]
  by_cases h : cs ≤ stop
  · rw [sub_eq h]
  · have hnone : Checked.sub stop cs = none := if_neg h
    rw [hnone]
    dsimp only
    omega

theorem slice_rchunk {v : List T} {start stop : ℕ} (h : start ≤ stop) (hstop : stop ≤ v.length) :
    slice v start stop = some ((v.take stop).drop start) := by
  rw [slice_eq v h hstop, List.drop_take]

namespace RChunks

variable {s : RChunks T} {v : List T} {cs k : ℕ} {l : List (List T)}

/-- The chunks left. -/
def Left (s : RChunks T) (l : List (List T)) : Prop :=
  0 < s.chunkSize ∧ s.v.length < 2^64 ∧ l = rchunkList s.chunkSize s.v

theorem rchunkList_nil (cs : ℕ) : rchunkList cs ([] : List T) = [] := by
  rw [rchunkList, List.length_nil, ceil_zero, tabulate_zero]

theorem rchunkList_take (hc : 0 < cs) (k : ℕ) : rchunkList cs (v.take (v.length-k*cs)) =
    tabulate (ceil v.length cs-k) fun i =>
      (v.take (v.length-(i+k)*cs)).drop (v.length-(i+k+1)*cs) := by
  rw [rchunkList, List.length_take, Nat.min_eq_left (Nat.sub_le ..), ceil_sub hc]
  apply tabulate_congr
  intro i _
  rw [List.take_take, Nat.min_eq_left (Nat.sub_le ..), Nat.sub_sub, Nat.sub_sub, ← Nat.add_mul,
    ← Nat.add_mul, Nat.add_comm k, Nat.add_comm k, Nat.add_right_comm]

theorem rchunkList_drop (hc : 0 < cs) (hk : k ≤ ceil v.length cs) :
    rchunkList cs (v.drop (v.length-k*cs)) =
      tabulate k fun i => (v.take (v.length-i*cs)).drop (v.length-(i+1)*cs) := by
  have hlen : v.length-(v.length-k*cs) = min (k*cs) v.length := by omega
  rw [rchunkList, List.length_drop, hlen, ceil_min hc hk]
  apply tabulate_congr
  intro i hi
  have hle : (i+1)*cs ≤ k*cs := Nat.mul_le_mul_right cs hi
  have hle' : i*cs ≤ k*cs := Nat.mul_le_mul_right cs hi.le
  rw [List.take_drop, List.drop_drop]
  congr 2
  · omega
  · omega

theorem left_take (hc : 0 < s.chunkSize) (h : s.v.length < 2^64) (k : ℕ) :
    Left { s with v := s.v.take (s.v.length-k*s.chunkSize) }
      (tabulate (ceil s.v.length s.chunkSize-k) fun i =>
        (s.v.take (s.v.length-(i+k)*s.chunkSize)).drop (s.v.length-(i+k+1)*s.chunkSize)) := by
  refine ⟨hc, ?_, (rchunkList_take hc k).symm⟩
  rw [List.length_take]
  omega

theorem left_drop (hc : 0 < s.chunkSize) (h : s.v.length < 2^64)
    (hk : k ≤ ceil s.v.length s.chunkSize) :
    Left { s with v := s.v.drop (s.v.length-k*s.chunkSize) }
      (tabulate k fun i =>
        (s.v.take (s.v.length-i*s.chunkSize)).drop (s.v.length-(i+1)*s.chunkSize)) := by
  refine ⟨hc, ?_, (rchunkList_drop hc hk).symm⟩
  rw [List.length_drop]
  omega

theorem clear_eq (s : RChunks T) : s.clear = some (none, { s with v := [] }) := by
  rw [clear, slice_to s.v (Nat.zero_le _)]
  rfl

theorem left_clear (hc : 0 < s.chunkSize) : Left (⟨[], s.chunkSize⟩ : RChunks T) [] :=
  ⟨hc, Nat.two_pow_pos 64, (rchunkList_nil _).symm⟩

theorem next_takes (h : Left s l) : ops.Takes Left .next s l := by
  have hleft := h
  obtain ⟨hc, hv, rfl⟩ := h
  by_cases he : s.v.isEmpty
  · have hnil : rchunkList s.chunkSize s.v = [] := by
      rw [List.isEmpty_iff.mp he, rchunkList_nil]
    rw [hnil] at hleft ⊢
    exact Iter.takes_of_answer (answer_nil _) (if_pos he) hleft
  · have hpos : 0 < s.v.length := by simpa [List.length_pos_iff] using he
    have ha := (answer_next (rchunkList s.chunkSize s.v)).trans
      (answer_nth_lt (ceil_pos hc hpos))
    have hmid : s.v.length-min s.v.length s.chunkSize = s.v.length-s.chunkSize := by omega
    refine Iter.takes_of_answer ha ?_ (left_take hc hv (0+1))
    rw [Nat.zero_mul, Nat.sub_zero, List.take_length, Nat.zero_add, Nat.one_mul]
    change s.next = _
    rw [next, if_neg he]
    simp only [some_bind, sub_eq (Nat.min_le_left ..), hmid, splitAt,
      if_pos (Nat.sub_le ..)]
    rfl

theorem nth_takes (n : ℕ) (h : Left s l) : ops.Takes Left (.nth n) s l := by
  obtain ⟨hc, hv, rfl⟩ := h
  by_cases hn : n < ceil s.v.length s.chunkSize
  · have hlt := (lt_ceil_iff hc).mp hn
    have hstart : s.v.length-n*s.chunkSize-s.chunkSize = s.v.length-(n+1)*s.chunkSize := by
      rw [Nat.sub_sub, Nat.succ_mul]
    refine Iter.takes_of_answer (answer_nth_lt hn) ?_ (left_take hc hv (n+1))
    rw [Iter.call]
    change s.nth n = _
    rw [nth, overflowingMul_lt (hlt.trans hv)]
    dsimp only
    rw [if_neg (by simpa using hlt), ← hstart, sub_eq hlt.le]
    simp only [some_bind, rchunkStart_eq,
      slice_rchunk (Nat.sub_le (s.v.length-n*s.chunkSize) _) (Nat.sub_le s.v.length _),
      slice_to s.v ((Nat.sub_le (s.v.length-n*s.chunkSize) _).trans (Nat.sub_le s.v.length _))]
    rfl
  · have hle : s.v.length ≤ n*s.chunkSize := by
      rw [lt_ceil_iff hc] at hn
      exact Nat.le_of_not_lt hn
    have hover := overflowingMul_ge hle
    refine Iter.takes_of_answer (answer_nth_ge (Nat.le_of_not_lt hn)) ?_ (left_clear hc)
    rw [Iter.call]
    change s.nth n = _
    rcases ho : overflowingMul n s.chunkSize with ⟨stop, overflow⟩
    rw [ho] at hover
    rw [nth, ho]
    dsimp only
    rw [if_pos hover.symm]
    exact clear_eq s

theorem nextBack_takes (h : Left s l) : ops.Takes Left .nextBack s l := by
  have hleft := h
  obtain ⟨hc, hv, rfl⟩ := h
  by_cases he : s.v.isEmpty
  · have hnil : rchunkList s.chunkSize s.v = [] := by
      rw [List.isEmpty_iff.mp he, rchunkList_nil]
    rw [hnil] at hleft ⊢
    exact Iter.takes_of_answer (answer_nil _) (if_pos he) hleft
  · have hpos : 0 < s.v.length := by simpa [List.length_pos_iff] using he
    have hcount := ceil_pos hc hpos
    have ha := (answer_nextBack (rchunkList s.chunkSize s.v)).trans (answer_nthBack_lt hcount)
    have hle : s.v.length ≤ _ := le_ceil_mul hc
    refine Iter.takes_of_answer ha ?_ (left_drop hc hv (by omega))
    rw [Nat.sub_zero, Nat.sub_add_cancel hcount, Nat.sub_eq_zero_of_le hle, List.drop_zero]
    change s.nextBack = _
    rw [nextBack, if_neg he, shortSize_eq hc hpos]
    simp only [some_bind, splitAt, if_pos (Nat.sub_le ..)]
    rfl

theorem nthBack_takes (n : ℕ) (h : Left s l) : ops.Takes Left (.nthBack n) s l := by
  obtain ⟨hc, hv, rfl⟩ := h
  have hlen : s.sizeHint = some (ceil s.v.length s.chunkSize,
      some (ceil s.v.length s.chunkSize)) := chunkHint_eq hc hv
  by_cases hn : n < ceil s.v.length s.chunkSize
  · have hlast : ceil s.v.length s.chunkSize-1-n < ceil s.v.length s.chunkSize := by
      omega
    have hlt := (lt_ceil_iff hc).mp hlast
    refine Iter.takes_of_answer (answer_nthBack_lt hn) ?_ (left_drop hc hv hlast.le)
    rw [Iter.call]
    change s.nthBack n = _
    generalize hk : ceil s.v.length s.chunkSize-1-n = k at hlt
    have hstart : s.v.length-k*s.chunkSize-s.chunkSize = s.v.length-(k+1)*s.chunkSize := by
      rw [Nat.sub_sub, Nat.succ_mul]
    rw [nthBack, hlen, some_bind, exactLen_eq, some_bind, if_neg (Nat.not_le.mpr hn), sub_eq (by omega), ← hstart]
    simp only [some_bind, sub_eq (Nat.le_sub_one_of_lt hn), hk,
      mul_eq (hlt.trans hv), sub_eq hlt.le,
      slice_rchunk (Nat.sub_le (s.v.length-k*s.chunkSize) _) (Nat.sub_le s.v.length _),
      slice_from s.v (Nat.sub_le ..)]
    rfl
  · refine Iter.takes_of_answer (answer_nthBack_ge (Nat.le_of_not_lt hn)) ?_ (left_clear hc)
    rw [Iter.call]
    change s.nthBack n = _
    rw [nthBack, hlen, some_bind, exactLen_eq, some_bind, if_pos (Nat.le_of_not_lt hn)]
    exact clear_eq s

theorem left_agrees (h : Left s l) : ops.Agrees s l := by
  obtain ⟨hc, hv, rfl⟩ := h
  have hlen : (rchunkList s.chunkSize s.v).length = ceil s.v.length s.chunkSize :=
    length_tabulate _ _
  refine ⟨?_, ?_, fun i h => ?_⟩
  · rw [hlen]
    exact chunkHint_eq hc hv
  · change s.last = _
    by_cases he : s.v.isEmpty
    · rw [last, if_pos he, List.isEmpty_iff.mp he, rchunkList_nil]
      rfl
    · have hpos : 0 < s.v.length := by simpa [List.length_pos_iff] using he
      have hcount := ceil_pos hc hpos
      have hle : s.v.length ≤ _ := le_ceil_mul hc
      rw [last, if_neg he, rchunkList, getLast?_tabulate hcount, Nat.sub_add_cancel hcount,
        Nat.sub_eq_zero_of_le hle, List.drop_zero, shortSize_eq hc hpos]
      simp only [some_bind, slice_to s.v (Nat.sub_le ..)]
      rfl
  · have hi : i < ceil s.v.length s.chunkSize := hlen ▸ h
    have hlt := (lt_ceil_iff hc).mp hi
    have hget : (rchunkList s.chunkSize s.v).get ⟨i, h⟩ =
        (s.v.take (s.v.length-i*s.chunkSize)).drop (s.v.length-(i+1)*s.chunkSize) :=
      get_tabulate _ h
    have hstart : s.v.length-i*s.chunkSize-s.chunkSize = s.v.length-(i+1)*s.chunkSize := by
      rw [Nat.sub_sub, Nat.succ_mul]
    rw [hget, ← hstart]
    change s.getUnchecked i = _
    rw [getUnchecked]
    simp only [mul_eq (hlt.trans hv), sub_eq hlt.le, some_bind,
      rchunkStart_eq, sub_eq (Nat.sub_le ..), fromRawParts, Nat.add_sub_cancel' (Nat.sub_le ..),
      slice_rchunk (Nat.sub_le (s.v.length-i*s.chunkSize) _) (Nat.sub_le s.v.length _)]

theorem follows (h : Left s l) : ops.Follows s l := by
  apply Ops.follows_of_takes ?_ (fun s l h => left_agrees h) h
  intro c s l h
  cases c with
  | next => exact next_takes h
  | nth n => exact nth_takes n h
  | nextBack => exact nextBack_takes h
  | nthBack n => exact nthBack_takes n h

end RChunks

/-- In every order of calls the three iterators answer as the lists of their windows and chunks. -/
theorem chunkIters_follow (v : List T) (hv : v.length < 2^64) (n : ℕ) (hn : 0 < n) :
    Windows.ops.Follows ⟨v, n, hn⟩ (windowList n v) ∧
      Chunks.ops.Follows ⟨v, n⟩ (chunkList n v) ∧ RChunks.ops.Follows ⟨v, n⟩ (rchunkList n v) :=
  ⟨Windows.follows ⟨hv, rfl⟩, Chunks.follows ⟨hn, hv, rfl⟩,
    RChunks.follows ⟨hn, hv, rfl⟩⟩

theorem chunkIters_follow_five :
    Windows.ops.Follows ⟨[1, 2, 3, 4, 5], 2, Nat.two_pos⟩ (windowList 2 [1, 2, 3, 4, 5]) ∧
      Chunks.ops.Follows ⟨[1, 2, 3, 4, 5], 2⟩ (chunkList 2 [1, 2, 3, 4, 5]) ∧
      RChunks.ops.Follows ⟨[1, 2, 3, 4, 5], 2⟩ (rchunkList 2 [1, 2, 3, 4, 5]) :=
  chunkIters_follow [1, 2, 3, 4, 5] (by norm_num) 2 Nat.two_pos

end RustStd.ChunkIters
