import RustStd.Sort.DriftWatch

/-!
# What driftsort relies on

Nothing overflows in the depths, the stack of runs stays below its 66 places,
its runs and the one in hand make up the scanned part, and the scratch space is
large enough for every quicksort and every merge. The sort is proved with these
assertions in it, so it is sorting for the same reason that it is safe.
-/

set_option autoImplicit false

namespace RustStd.Sort
open RustStd.Unwind RustStd.WeakOrder RustStd.Machine

variable {σ S T : Type}

namespace Drift

theorem mergeTreeScaleFactor_mul_lt {n x : ℕ} (hmax : n ≤ isizeMax)
    (hx : x ≤ 2*n) : mergeTreeScaleFactor n*x < 2^64 := by
  unfold isizeMax at hmax
  have hle : mergeTreeScaleFactor n*x ≤ 2*(mergeTreeScaleFactor n*n) := by
    calc mergeTreeScaleFactor n*x ≤ mergeTreeScaleFactor n*(2*n) := Nat.mul_le_mul_left _ hx
      _ = 2*(mergeTreeScaleFactor n*n) := by ring
  by_cases hbig : 2^62 ≤ n
  · -- the factor is one
    have hone : mergeTreeScaleFactor n = 1 := by
      apply Nat.div_eq_of_lt_le
      · lia
      · lia
    rw [hone] at hle ⊢
    lia
  · have hfloor : mergeTreeScaleFactor n*n ≤ 2^62+n-1 := Nat.div_mul_le_self _ _
    lia

namespace Event

/-- The entries of a stack above the lowest one, which belongs to the initial dummy run,
get deeper towards the top. -/
def Good : Event → Prop
  | depth left mid right scaleFactor =>
    scaleFactor*(left+mid) < 2^64 ∧ scaleFactor*(mid+right) < 2^64 ∧
      mergeTreeDepth left mid right scaleFactor ≤ 64
  | stack scanIdx entries pending =>
    (entries.dropLast.Pairwise fun e e' => e'.2 < e.2) ∧ entries.length ≤ 66 ∧
      (entries.map fun e => e.1.len).sum+pending = scanIdx
  | quicksort len scratchLen => len ≤ scratchLen ∧ 48 ≤ scratchLen
  | merge len mid scratchLen => 0 < mid → mid < len → min mid (len-mid) ≤ scratchLen

instance : DecidablePred Good
  | depth .. => inferInstanceAs (Decidable (_ ∧ _))
  | stack .. => inferInstanceAs (Decidable (_ ∧ _))
  | quicksort .. => inferInstanceAs (Decidable (_ ∧ _))
  | merge .. => inferInstanceAs (Decidable (_ → _))

end Event

/-- The events that a sort of at most `maxLen` elements comes past are let through. -/
structure Passes (ok : Event → Bool) (maxLen : ℕ) : Prop where
  good : ∀ e, e.Good → ok e = true
  depth : ∀ len left mid right, 0 < len → len ≤ maxLen → left ≤ len → mid ≤ len → right ≤ len →
    ok (.depth left mid right (mergeTreeScaleFactor len)) = true

theorem passes_true (maxLen : ℕ) : Passes (fun _ => true) maxLen :=
  ⟨fun _ _ => rfl, fun _ _ _ _ _ _ _ _ _ => rfl⟩

theorem passes_good : Passes (fun e => decide e.Good) isizeMax := by
  refine ⟨fun _ h => decide_eq_true h, ?_⟩
  intro len left mid right _ hmax hl hm hr
  refine decide_eq_true ⟨?_, ?_, mergeTreeDepth_le _ _ _ _⟩
  · exact mergeTreeScaleFactor_mul_lt hmax (by lia)
  · exact mergeTreeScaleFactor_mul_lt hmax (by lia)

theorem runs_lengths {L : Prop} {f : T → T → Bool} {scratchLen : ℕ} {eagerSort : Bool}
    {l : List (DriftsortRun × ℕ)} {ws : List (List T)}
    (h : List.Forall₂ (fun e w => IsRun L f scratchLen eagerSort e.1 w) l ws) :
    (l.map fun e => e.1.len).sum = ws.reverse.flatten.length := by
  induction h with
  | nil => rfl
  | cons hr _ ih => simp [ih, ← hr.length, Nat.add_comm]

theorem IsStack.good {L : Prop} {f : T → T → Bool} {scratchLen : ℕ} {eagerSort : Bool}
    {l : List (DriftsortRun × ℕ)} {ws : List (List T)} {b : DriftsortRun × ℕ} {w : List T}
    {prev : DriftsortRun} (h : IsStack L f scratchLen eagerSort l ws) (hb : b.1.len = 0)
    (hdepth : ∀ e ∈ l, e.2 ≤ 64) (hw : w.length = prev.len) :
    (Event.stack (ws.reverse.flatten++w).length (l++[b]) prev.len).Good := by
  have hlen : l.length ≤ 65 := depths_length h.deeper fun e he => Nat.lt_succ_of_le (hdepth e he)
  refine ⟨?_, ?_, ?_⟩
  · rw [List.dropLast_concat]
    exact h.deeper
  · rw [List.length_append, List.length_singleton]
    lia
  · rw [List.map_append, List.sum_append, runs_lengths h.runs, List.length_append, hw]
    simp [hb]

section Specs

variable {L : Prop} {o : Oracle σ T} {f : T → T → Bool} (hL : L → Answers o f) (hf : L → Weak f)
  (ti : TypeInfo T) {scratch : List T} (hscr : 48 ≤ scratch.length)
  {ok : Event → Bool} {maxLen : ℕ} (hok : Passes ok maxLen)
  {fallback : SortM σ (List T) Unit} {eagerSort : Bool}
  (hfb : eagerSort = false → ∀ v, v.length ≤ min scratch.length maxLen →
    Sat L fallback v (fun _ v' => SortOf L f v v') fun v' => v'.Perm v)

omit hL hf in
theorem sat_watch {e : Event} {s : S} {Q : Unit → S → Prop} {E : S → Prop} (he : e.Good)
    (hok : Passes ok maxLen) (h : Q () s) : Sat L (watch ok e : SortM σ S Unit) s Q E :=
  sat_guarded (hok.good e he) h

include hL hf hscr hok

theorem nextRunWatched_sat (pre rest : List T) {prev : DriftsortRun}
    (h2 : 2 ≤ (pre ++ rest).length)
    (hmax : (pre ++ rest).length ≤ maxLen)
    (hfit : (pre ++ rest).length-(pre ++ rest).length/2 ≤ scratch.length) :
    Sat L (nextRunWatched ok ti o scratch fallback eagerSort pre.length prev) (pre ++ rest)
      (fun r v => ∃ w rest', v = pre ++ (w ++ rest') ∧ Moved L f rest (w ++ rest') ∧
        IsRun L f scratch.length eagerSort r.1 w ∧ r.2 ≤ 64 ∧ (rest ≠ [] → w ≠ []) ∧
        (rest = [] → r.2 = 0)) fun v => v.Perm (pre ++ rest) := by
  refine .bind (sat_get ?_)
  by_cases hrest : rest = []
  · subst hrest
    rw [if_neg (by simp)]
    refine sat_pure ⟨[], [], rfl, Moved.refl [], ⟨by simp, fun _ _ => .nil, by simp⟩, by simp,
      fun h => absurd rfl h, fun _ => rfl⟩
  · have hpos := List.length_pos_iff.mpr hrest
    rw [if_pos (by simp; lia)]
    obtain ⟨hmin, hmingood⟩ := minGoodRunLen_bounds h2
    refine (Sat.onSlice (p := pre) (w := rest) (r := []) (by simp) rfl (by simp)
      (createRun_sat hL hf ti hscr hrest hmin (by lia))).call ?_ ?_
    · rintro next _ ⟨_, rfl, w, rest', rfl, hw, hmoved, hrun⟩
      have hl := hmoved.1.length_eq
      have hright : pre.length+next.len ≤ (pre ++ rest).length := by
        rw [← hrun.length]
        simp only [List.length_append] at hl ⊢
        lia
      have hmid : pre.length ≤ (pre ++ rest).length := by simp
      refine .bind (sat_guarded (hok.depth _ _ _ _ (by lia) hmax (by lia) hmid hright) ?_)
      refine sat_pure ⟨w, rest', by simp, hmoved, hrun, mergeTreeDepth_le _ _ _ _, fun _ => hw,
        fun h => absurd h hrest⟩
    · rintro _ - ⟨rest', rfl, hperm⟩
      rw [List.append_nil]
      exact hperm.append_left pre

include hfb

theorem stableQuicksortWatched_sat {v : List T} (heager : eagerSort = false)
    (hv : v.length ≤ scratch.length) (hmax : v.length ≤ maxLen) :
    Sat L (stableQuicksortWatched ok ti o scratch fallback) v (fun _ v' => SortOf L f v v')
      fun v' => v'.Perm v := by
  refine .bind (sat_get (.bind (sat_watch ⟨hv, hscr⟩ hok ?_)))
  exact .bind (sat_get (quicksort_sat hL hf ti hscr (min_le_left _ _) (hfb heager) _
    (le_min hv hmax) (by simp)))

theorem sortRunWatched_sat {p w q : List T} {r : DriftsortRun}
    (h : IsRun L f scratch.length eagerSort r w) (hmax : w.length ≤ maxLen) :
    Sat L (sortRunWatched ok ti o scratch fallback p.length r) (p ++ w ++ q)
      (fun _ v => ∃ w', v = p ++ w' ++ q ∧ SortOf L f w w') fun v => v.Perm (p ++ w ++ q) := by
  unfold sortRunWatched
  by_cases hs : r.sorted = true
  · rw [if_pos hs]
    exact sat_pure ⟨w, rfl, .refl w, fun hl => ⟨h.sorted hs hl, Stable.refl w⟩⟩
  · rw [if_neg hs]
    obtain ⟨hlen, heager⟩ := h.unsorted (by simpa using hs)
    refine (Sat.onSlice rfl rfl h.length
      (stableQuicksortWatched_sat hL hf ti hscr hok hfb heager hlen hmax)).mono (fun _ _ h => h) ?_
    rintro _ - ⟨w', rfl, hw'⟩
    exact (hw'.append_left p).append_right q

theorem logicalMergeWatched_sat {a b : List T} {left right : DriftsortRun}
    (ha : IsRun L f scratch.length eagerSort left a)
    (hb : IsRun L f scratch.length eagerSort right b)
    (hfit : min a.length b.length ≤ scratch.length) (hmax : (a ++ b).length ≤ maxLen) :
    Sat L (logicalMergeWatched ok ti o scratch fallback left right) (a ++ b)
      (fun r v => Moved L f (a ++ b) v ∧ IsRun L f scratch.length eagerSort r v)
      fun v => v.Perm (a ++ b) := by
  rw [List.length_append] at hmax
  refine .bind (sat_get ?_)
  by_cases hphys : (!(decide ((a ++ b).length ≤ scratch.length)) || left.sorted || right.sorted) = true
  · rw [if_pos hphys]
    have hleft := sortRunWatched_sat hL hf ti hscr hok hfb (p := []) (q := b) ha (by lia)
    rw [List.nil_append] at hleft
    refine hleft.call ?_ fun v _ h => h
    rintro ⟨⟩ _ ⟨a', rfl, ha'⟩
    rw [← ha.length, ← ha'.length]
    have hright := sortRunWatched_sat hL hf ti hscr hok hfb (p := a') (q := []) hb (by lia)
    rw [List.append_nil] at hright
    refine hright.call ?_ fun v _ h => h.trans (ha'.1.append_right b)
    rintro ⟨⟩ _ ⟨b', rfl, hb'⟩
    rw [List.append_nil]
    have hroom : min a'.length ((a' ++ b').length-a'.length) ≤ scratch.length := by
      rw [List.length_append, Nat.add_sub_cancel_left, ha'.length, hb'.length]
      exact hfit
    have hgood : (Event.merge (a ++ b).length a'.length scratch.length).Good := by
      intro _ _
      have hsame : (a ++ b).length = (a' ++ b').length := by
        rw [List.length_append, List.length_append, ha'.length, hb'.length]
      rw [hsame]
      exact hroom
    refine .bind (sat_watch hgood hok ?_)
    refine (merge_sat hL hf hroom fun hl => ?_).call ?_ ?_
    · rw [List.take_left, List.drop_left]
      exact ⟨(ha'.2 hl).1, (hb'.2 hl).1⟩
    · intro _ v hv
      refine sat_pure ⟨((SortOf.moved ha').append (SortOf.moved hb')).trans (SortOf.moved hv), ?_,
        fun _ hl => (hv.2 hl).1, by simp⟩
      rw [hv.length, DriftsortRun.len_newSorted]
      simp [ha'.length, hb'.length]
    · exact fun v _ h => h.trans (ha'.1.append hb'.1)
  · rw [if_neg hphys]
    simp only [Bool.not_eq_true, Bool.or_eq_false_iff, Bool.not_eq_false', decide_eq_true_eq]
      at hphys
    refine sat_pure ⟨Moved.refl _, by simp, by simp, fun _ => ⟨hphys.1.1, ?_⟩⟩
    exact (ha.unsorted hphys.1.2).2

theorem collapseWatched_sat {l : List (DriftsortRun × ℕ)} {b : DriftsortRun × ℕ}
    (hdummy : b.1.len = 0) {ws : List (List T)} {prev : DriftsortRun} {w rest : List T}
    {desiredDepth : ℕ} (h : IsStack L f scratch.length eagerSort l ws)
    (hdepth : ∀ e ∈ l, e.2 ≤ 64) (hw : IsRun L f scratch.length eagerSort prev w)
    (hmax : (ws.reverse.flatten ++ w ++ rest).length ≤ maxLen)
    (hfit : (ws.reverse.flatten ++ w ++ rest).length-(ws.reverse.flatten ++ w ++ rest).length/2 ≤
      scratch.length) :
    Sat L (collapseWatched ok ti o scratch fallback (ws.reverse.flatten ++ w).length desiredDepth
        (l ++ [b]) prev) (ws.reverse.flatten ++ w ++ rest)
      (fun r v => ∃ l' ws' w', r.1 = l' ++ [b] ∧ v = ws'.reverse.flatten ++ w' ++ rest ∧
        Moved L f (ws.reverse.flatten ++ w) (ws'.reverse.flatten ++ w') ∧
        IsStack L f scratch.length eagerSort l' ws' ∧
        IsRun L f scratch.length eagerSort r.2 w' ∧ ∀ e ∈ l', e.2 < desiredDepth)
      fun v => v.Perm (ws.reverse.flatten ++ w ++ rest) := by
  induction l generalizing ws w prev with
  | nil =>
    obtain ⟨bottom, depth⟩ := b
    rw [List.nil_append]
    unfold collapseWatched
    rw [if_neg (by simp)]
    exact sat_pure ⟨[], ws, w, rfl, rfl, Moved.refl _, h, hw, by simp⟩
  | cons e l ih =>
    obtain ⟨left, depth⟩ := e
    rw [List.cons_append]
    unfold collapseWatched
    by_cases hdeep : depth ≥ desiredDepth
    · rw [if_pos ⟨by simp, hdeep⟩]
      obtain ⟨a, ws, ha, hws, rfl⟩ := List.forall₂_cons_left_iff.mp h.runs
      have hflat : (a :: ws).reverse.flatten = ws.reverse.flatten ++ a := by simp
      simp only at ha
      rw [hflat] at hfit hmax ⊢
      simp only [List.length_append] at hfit hmax
      have hlen : (ws.reverse.flatten ++ a ++ w).length-(left.len+prev.len) =
          ws.reverse.flatten.length := by
        simp only [List.length_append, ← ha.length, ← hw.length]
        lia
      have hrest : IsStack L f scratch.length eagerSort l ws :=
        ⟨hws, (List.pairwise_cons.mp h.deeper).2⟩
      have hdepth' : ∀ e ∈ l, e.2 ≤ 64 := fun e he => hdepth e (List.mem_cons_of_mem _ he)
      dsimp only
      rw [hlen]
      refine (Sat.onSlice (p := ws.reverse.flatten) (w := a ++ w) (r := rest) (by simp) rfl
        (by rw [List.length_append, ha.length, hw.length])
        (logicalMergeWatched_sat hL hf ti hscr hok hfb ha hw (by lia)
          (by rw [List.length_append]; lia))).call ?_ ?_
      · rintro run _ ⟨m, rfl, hm, hrun⟩
        have hml : m.length = a.length+w.length := by simpa using hm.1.length_eq
        have hsame : (ws.reverse.flatten ++ a ++ w).length = (ws.reverse.flatten ++ m).length := by
          simp only [List.length_append]
          lia
        rw [hsame]
        have hmove : Moved L f (ws.reverse.flatten ++ a ++ w) (ws.reverse.flatten ++ m) := by
          rw [List.append_assoc]
          exact (Moved.refl _).append hm
        refine .bind (sat_watch (hrest.good hdummy hdepth' hrun.length) hok ?_)
        refine (ih hrest hdepth' hrun ?_ ?_).mono ?_ ?_
        · simp only [List.length_append]
          lia
        · simp only [List.length_append]
          lia
        · rintro r v ⟨l', ws', w', hr, hv, hmoved, hstack⟩
          exact ⟨l', ws', w', hr, hv, hmove.trans hmoved, hstack⟩
        · intro v _ hv
          exact hv.trans (hmove.1.append_right rest)
      · rintro _ - ⟨m, rfl, hm⟩
        rw [List.append_assoc ws.reverse.flatten a w]
        exact (hm.append_left _).append_right rest
    · rw [if_neg fun h => hdeep h.2]
      refine sat_pure ⟨(left, depth) :: l, ws, w, rfl, rfl, Moved.refl _, h, hw, fun e he => ?_⟩
      have := (List.pairwise_cons.mp h.deeper).1
      rcases List.mem_cons.mp he with rfl | he
      · simpa using hdeep
      · have := this e he
        simp only at this
        lia

/-- The loop from a state with a stack above its first entry `b`. -/
theorem sortLoopWatched_sat {v₀ : List T} (h2 : 2 ≤ v₀.length) (hmax : v₀.length ≤ maxLen)
    (hfit : v₀.length-v₀.length/2 ≤ scratch.length) (fuel : ℕ) {l : List (DriftsortRun × ℕ)}
    {b : DriftsortRun × ℕ} (hdummy : b.1.len = 0) (ws : List (List T)) {prev : DriftsortRun}
    (w rest : List T) (hfuel : rest.length < fuel)
    (hmove : Moved L f v₀ (ws.reverse.flatten ++ w ++ rest))
    (h : IsStack L f scratch.length eagerSort l ws) (hdepths : ∀ e ∈ l, e.2 ≤ 64)
    (hw : IsRun L f scratch.length eagerSort prev w) :
    Sat L (sortLoopWatched ok ti o scratch fallback eagerSort fuel (ws.reverse.flatten ++ w).length
        (l ++ [b]) prev) (ws.reverse.flatten ++ w ++ rest)
      (fun r v => Moved L f v₀ v ∧ IsRun L f scratch.length eagerSort r v) fun v => v.Perm v₀ := by
  induction fuel generalizing l ws prev w rest with
  | zero => lia
  | succ fuel ih =>
    have hlen := hmove.1.length_eq
    unfold sortLoopWatched
    refine .bind (sat_watch (h.good hdummy hdepths hw.length) hok ?_)
    refine (nextRunWatched_sat hL hf ti hscr hok _ _ (by lia) (by lia) (by lia)).call ?_
      fun v _ h => h.trans hmove.1
    rintro ⟨next, desiredDepth⟩ _ ⟨w₁, rest₁, rfl, hrest, hw₁, hdepth, hne, hlast⟩
    dsimp only at hw₁ hdepth hlast ⊢
    have hmove₁ := hmove.trans ((Moved.refl (ws.reverse.flatten ++ w)).append hrest)
    have hlen₁ := hmove₁.1.length_eq
    refine (collapseWatched_sat hL hf ti hscr hok hfb hdummy h hdepths hw (by lia)
      (by lia)).call ?_ fun v _ h => h.trans hmove₁.1
    rintro ⟨stack, run⟩ _ ⟨l', ws', w', rfl, rfl, hm, hstack, hrun, hless⟩
    dsimp only at hrun ⊢
    have hmove₂ := hmove₁.trans (hm.append (Moved.refl (w₁ ++ rest₁)))
    have hroom : l'.length ≤ 64 := (depths_length hstack.deeper hless).trans hdepth
    have hmlen : (ws.reverse.flatten ++ w).length = (ws'.reverse.flatten ++ w').length :=
      hm.1.length_eq.symm
    rw [if_neg (by simp; lia)]
    have hpush : IsStack L f scratch.length eagerSort ((run, desiredDepth) :: l') (w' :: ws') :=
      ⟨.cons hrun hstack.runs, List.pairwise_cons.mpr ⟨hless, hstack.deeper⟩⟩
    have hdepths' : ∀ e ∈ (run, desiredDepth) :: l', e.2 ≤ 64 := by
      intro e he
      rcases List.mem_cons.mp he with rfl | he
      · exact hdepth
      · exact (hless e he).le.trans hdepth
    have hflat : (w' :: ws').reverse.flatten = ws'.reverse.flatten ++ w' := by simp
    have hnone : ([] : List T).length = (DriftsortRun.newSorted 0).len := by simp
    have hgood := hpush.good hdummy hdepths' hnone
    rw [List.append_nil, hflat, ← hmlen, DriftsortRun.len_newSorted] at hgood
    refine .bind (sat_watch hgood hok ?_)
    refine .bind (sat_get ?_)
    have hrl := hrest.1.length_eq
    simp only [List.length_append] at hrl
    by_cases hend : rest = []
    · -- everything is merged into the last run
      subst hend
      rw [if_pos (by simp at hrl ⊢; simp [hrl] at hmlen ⊢; lia)]
      obtain rfl : l' = [] := by
        rw [List.eq_nil_iff_forall_not_mem]
        intro e he
        have := hless e he
        rw [hlast rfl] at this
        lia
      obtain rfl : ws' = [] := List.forall₂_nil_left_iff.mp hstack.runs
      obtain ⟨rfl, rfl⟩ : w₁ = [] ∧ rest₁ = [] := by simpa using hrl
      refine sat_pure ⟨by simpa using hmove₂, by simpa using hrun⟩
    · have hw₁pos := List.length_pos_iff.mpr (hne hend)
      have htotal : (ws'.reverse.flatten ++ w' ++ (w₁ ++ rest₁)).length =
          (ws'.reverse.flatten ++ w').length+(w₁.length+rest₁.length) := by
        simp only [List.length_append]
      rw [hmlen, if_neg (by lia)]
      have := ih (w' :: ws') w₁ rest₁ (by lia)
        (by rw [hflat]; simpa using hmove₂) hpush hdepths' hw₁
      rw [hflat] at this
      rw [List.length_append, hw₁.length, List.append_assoc] at this
      exact this

theorem sortWithWatched_sat {v : List T} (hmax : v.length ≤ maxLen)
    (hfit : v.length-v.length/2 ≤ scratch.length) :
    Sat L (sortWithWatched ok ti o scratch fallback eagerSort) v (fun _ v' => SortOf L f v v')
      fun v' => v'.Perm v := by
  refine .bind (sat_get ?_)
  by_cases h2 : v.length < 2
  · rw [if_pos h2]
    exact sat_pure (sortOf_short h2)
  rw [if_neg h2]
  have hloop : Sat L (sortLoopWatched ok ti o scratch fallback eagerSort (v.length+1) 0 []
      (.newSorted 0)) v
      (fun r v' => Moved L f v v' ∧ IsRun L f scratch.length eagerSort r v') fun v' => v'.Perm v := by
    -- the first round only puts the empty run on the stack
    unfold sortLoopWatched
    have hstart : (Event.stack 0 [] (DriftsortRun.newSorted 0).len).Good := by
      simp [Event.Good]
    refine .bind (sat_watch hstart hok ?_)
    refine (nextRunWatched_sat hL hf ti hscr hok [] v (by rw [List.nil_append]; lia)
      (by rwa [List.nil_append]) (by rwa [List.nil_append])).call ?_ fun v _ h => h
    rintro ⟨next, desiredDepth⟩ _ ⟨w, rest, rfl, hmove, hw, -, hne, -⟩
    dsimp only at hw ⊢
    have hpos := List.length_pos_iff.mpr (hne (by rintro rfl; simp at h2))
    have hlen := hmove.1.length_eq
    simp only [List.length_append] at hlen
    unfold collapseWatched
    refine .bind (sat_pure ?_)
    dsimp only
    rw [if_neg (by simp)]
    have hpushed : (Event.stack 0 [(DriftsortRun.newSorted 0, desiredDepth)] 0).Good := by
      simp [Event.Good]
    refine .bind (sat_watch hpushed hok ?_)
    refine .bind (sat_get ?_)
    rw [if_neg (by rw [List.nil_append, List.length_append]; lia)]
    have := sortLoopWatched_sat hL hf ti hscr hok hfb (by lia) hmax hfit v.length (l := [])
      (b := (.newSorted 0, desiredDepth)) (by simp) [] w rest (by lia) hmove ⟨.nil, .nil⟩
      (by simp) hw
    rw [List.reverse_nil, List.flatten_nil, List.nil_append, hw.length] at this
    rw [Nat.zero_add]
    exact this
  refine hloop.call ?_ fun v' _ h => h
  intro prev v' ⟨hmove, hrun⟩
  by_cases hs : prev.sorted = true
  · rw [if_pos hs]
    exact sat_pure ⟨hmove.1, fun hl => ⟨hrun.sorted hs hl, hmove.2 hl⟩⟩
  · rw [if_neg hs]
    obtain ⟨hle, heager⟩ := hrun.unsorted (by simpa using hs)
    exact (stableQuicksortWatched_sat hL hf ti hscr hok hfb heager hle
      (by rw [hmove.1.length_eq]; exact hmax)).mono
      (fun _ _ h => h.of_stable hmove.1 hmove.2) fun v'' _ h => h.trans hmove.1

omit hfb in
theorem sortWatched_sat {v : List T} (hmax : v.length ≤ maxLen)
    (hfit : v.length-v.length/2 ≤ scratch.length) (eagerSort : Bool) :
    Sat L (sortWatched ok ti o scratch 2 eagerSort) v (fun _ v' => SortOf L f v v')
      fun v' => v'.Perm v :=
  sortWithWatched_sat hL hf ti hscr hok
    (fun _ w hw => sortWithWatched_sat hL hf ti hscr hok (by simp) (by lia) (by lia)) hmax hfit

omit hok hfb in
theorem sort_sat {v : List T} (hfit : v.length-v.length/2 ≤ scratch.length) (eagerSort : Bool) :
    Sat L (sort ti o scratch 2 eagerSort) v (fun _ v' => SortOf L f v v') fun v' => v'.Perm v :=
  (sort_guards 2 eagerSort).sat
    (sortWatched_sat hL hf ti hscr (passes_true v.length) le_rfl hfit eagerSort)

end Specs

end Drift

end RustStd.Sort
