import RustStd.Vec.Splice

/-!
# What `Vec::splice` leaves

Every step keeps the elements in front of the gap, the tail behind it and the elements that are
still to come. A reservation that does not fit unwinds, and then these are put together.
-/

set_option autoImplicit false

namespace RustStd.Vec
open RustStd.Machine RustStd.Unwind RustStd.Slots RustStd.DoubleEnded

variable {ε σ S T β : Type}

/-! ## Buffers -/

section Buffers

variable {e : ElemLayout T} {overflow : ε} {a b d l : List T} {s : Slots T} {x : T} {st : σ}
  {additional i k len m n : ℕ}

/-- The numbers of elements that some buffer has room for. -/
def Fits (e : ElemLayout T) (n : ℕ) : Prop :=
  if e.size = 0 then n ≤ usizeMax else n*e.size ≤ isizeMax-(e.align-1)

/-- The numbers of elements that a buffer has. -/
def Allocated (e : ElemLayout T) (n : ℕ) : Prop :=
  if e.size = 0 then n = usizeMax else n*e.size ≤ isizeMax-(e.align-1)

theorem Fits.mono (h : Fits e n) (hm : m ≤ n) : Fits e m := by
  by_cases he : e.size = 0
  · rw [Fits, if_pos he] at h ⊢
    exact hm.trans h
  · rw [Fits, if_neg he] at h ⊢
    exact (Nat.mul_le_mul_right _ hm).trans h

theorem layoutArray_iff (he : e.size ≠ 0) : layoutArray e n = true ↔ Fits e n := by
  rw [layoutArray, decide_eq_true_eq, Fits, if_neg he]

theorem layoutArray_zero (he : e.size = 0) : layoutArray e n = true := by
  rw [layoutArray, decide_eq_true_eq, he, Nat.mul_zero]
  exact Nat.zero_le _

theorem allocated_iff (he : e.size ≠ 0) : Allocated e n ↔ Fits e n := by
  rw [Allocated, Fits, if_neg he, if_neg he]

theorem Allocated.le (h : Allocated e n) : n ≤ usizeMax := by
  by_cases he : e.size = 0
  · rw [Allocated, if_pos he] at h
    exact h.le
  · rw [Allocated, if_neg he] at h
    have hsize : n*1 ≤ n*e.size := Nat.mul_le_mul_left n (Nat.pos_of_ne_zero he)
    have hmax : isizeMax ≤ usizeMax := by decide
    lia

theorem capacity_eq (h : Allocated e s.length) : capacity e s = s.length := by
  rw [capacity]
  by_cases he : e.size = 0
  · rw [Allocated, if_pos he] at h
    rw [if_pos he, h]
  · rw [if_neg he]

theorem wrappingSub_of_le (h : len ≤ n) (hn : n ≤ usizeMax) : wrappingSub n len = n-len := by
  have hmax : usizeMax < 2^64 := by decide
  have hmod : len%2^64 = len := Nat.mod_eq_of_lt (by lia)
  rw [wrappingSub, hmod, show n+2^64-len = n-len+2^64 by lia, Nat.add_mod_right,
    Nat.mod_eq_of_lt (by lia)]

theorem minNonZeroCap_le (n : ℕ) : minNonZeroCap n ≤ 8 := by
  rw [minNonZeroCap]
  split_ifs <;> lia

theorem growAmortized_some {s' : Slots T} (h : growAmortized e s len additional = some s')
    (hfull : s.length < len+additional) :
    ∃ m, s' = s ++ free m ∧ Allocated e (s.length+m) ∧ len+additional ≤ s.length+m := by
  rw [growAmortized] at h
  by_cases he : e.size = 0
  · rw [if_pos he] at h
    exact absurd h nofun
  · rw [if_neg he] at h
    by_cases hover : len+additional > usizeMax
    · rw [if_pos hover] at h
      exact absurd h nofun
    · rw [if_neg hover] at h
      dsimp only at h
      by_cases hfits : layoutArray e
          (max (minNonZeroCap e.size) (max (s.length*2) (len+additional))) = true
      · rw [if_pos hfits] at h
        have hle : s.length+(max (minNonZeroCap e.size) (max (s.length*2) (len+additional))-
            s.length) = max (minNonZeroCap e.size) (max (s.length*2) (len+additional)) := by
          lia
        refine ⟨_, (Option.some.inj h).symm, ?_, ?_⟩
        · rw [hle, allocated_iff he]
          exact (layoutArray_iff he).mp hfits
        · rw [hle]
          lia
      · rw [if_neg hfits] at h
        exact absurd h nofun

theorem growAmortized_none (h : growAmortized e s len additional = none)
    (hfull : s.length < len+additional) (hzero : e.size = 0 → usizeMax < len+additional) :
    ¬ Fits e (2*(len+additional)+8) := by
  intro hfits
  have hcap := minNonZeroCap_le e.size
  by_cases he : e.size = 0
  · have := hzero he
    rw [Fits, if_pos he] at hfits
    lia
  · have hle := ((allocated_iff he).mpr hfits).le
    have hlayout : layoutArray e
        (max (minNonZeroCap e.size) (max (s.length*2) (len+additional))) = true :=
      (layoutArray_iff he).mpr (hfits.mono (by lia))
    rw [growAmortized, if_neg he, if_neg (by lia)] at h
    dsimp only at h
    rw [if_pos hlayout] at h
    exact absurd h nofun

theorem reserve_spec (hs : Allocated e (a.length+s.length)) (hlen : len ≤ a.length+s.length) :
    Reaches (reserve e overflow len additional) (front a s d) st
      (fun _ v st' => st' = st ∧ ∃ m, v = front a (s ++ free m) d ∧
        Allocated e (a.length+s.length+m) ∧ len+additional ≤ a.length+s.length+m)
      (fun err v st' => err = overflow ∧ v = front a s d ∧ st' = st ∧
        ¬ Fits e (2*(len+additional)+8)) := by
  have hslots : (live a ++ s).length = a.length+s.length := by
    rw [List.length_append, length_live]
  have hcap : wrappingSub (capacity e (front a s d).1.slots) len = a.length+s.length-len := by
    rw [← hslots] at hs hlen ⊢
    exact (congrArg (wrappingSub · len) (capacity_eq hs)).trans (wrappingSub_of_le hlen hs.le)
  rw [reserve]
  apply reaches_get
  rw [hcap]
  by_cases hgrow : additional > a.length+s.length-len
  · apply reaches_pos hgrow
    rw [show (front a s d).1.slots = live a ++ s from rfl]
    cases hg : growAmortized e (live a ++ s) len additional with
    | none =>
      have hzero : e.size = 0 → usizeMax < len+additional := by
        intro he
        rw [Allocated, if_pos he] at hs
        lia
      exact reaches_unwind rfl ⟨rfl, rfl, rfl, growAmortized_none hg (by lia) hzero⟩
    | some s' =>
      obtain ⟨m, rfl, hm, hle⟩ := growAmortized_some hg (by lia)
      rw [hslots] at hm hle
      have hstep : slotsStep (fun _ => some (live a ++ s ++ free m)) (front a s d).1 =
          some ((), (front a (s ++ free m) d).1) := by
        apply slotsStep_run
        rw [List.append_assoc]
      exact reaches_ok (change_run hstep) ⟨rfl, m, rfl, hm, hle⟩
  · apply reaches_neg hgrow
    refine reaches_ok rfl ⟨rfl, 0, ?_, hs, ?_⟩
    · rw [free_zero, List.append_nil]
    · lia

end Buffers

/-! ## The tail moves and the gap is filled -/

namespace Drain

/-- A gap of `g` slots between the elements `a` and the tail `b`. -/
def opened (a : List T) (g : ℕ) (b : List T) (k : ℕ) (d : List T) : Drain T :=
  ⟨front a (free g ++ live b ++ free k) d, a.length+g, b.length, 0, 0⟩

section Gap

variable {e : ElemLayout T} {overflow : ε} {a b d l : List T} {x : T} {g i k n : ℕ} {st : σ}

theorem write_run {u w : Slots T} (hi : (live a ++ u).length = i) :
    (write i x : M ε σ (SoundVec T) Unit) (front a (u ++ free 1 ++ w) d) st =
      (.ok (), front a (u ++ live [x] ++ w) d, st) := by
  apply change_run
  apply slotsStep_run
  rw [← List.append_assoc, ← List.append_assoc, ← List.append_assoc, ← List.append_assoc]
  exact place_append hi

theorem putNext_run {w : Slots T} :
    (putNext a.length x : M ε σ (SoundVec T) Unit) (front a (free (n+1) ++ w) d) st =
      (.ok (), front (a ++ [x]) (free n ++ w) d, st) := by
  have hwrite : (write a.length x : M ε σ (SoundVec T) Unit) (front a (free (n+1) ++ w) d) st =
      (.ok (), front a (live [x] ++ (free n ++ w)) d, st) :=
    write_run (u := []) (w := free n ++ w) (by rw [List.append_nil, length_live])
  have hlen : lenStep (a.length+1) (front a (live [x] ++ (free n ++ w)) d).1 =
      some ((), (front (a ++ [x]) (free n ++ w) d).1) := by
    apply lenStep_run
    · rw [live_append, List.append_assoc]
    · exact List.length_append
  rw [putNext]
  apply (bind_run hwrite).trans
  apply get_run.trans
  exact change_run hlen

theorem fillPlaces_run {next : M ε σ (Drain T) (Option T)} {f : List T → σ}
    (hnil : ∀ s, next s (f []) = (.ok none, s, f []))
    (hcons : ∀ s x l, next s (f (x :: l)) = (.ok (some x), s, f l)) :
    fillPlaces next a.length g (opened a g b k d) (f l) =
      (.ok (decide (g ≤ l.length)), opened (a ++ l.take g) (g-l.length) b k d, f (l.drop g)) := by
  induction g generalizing a l with
  | zero =>
    rw [List.take_zero, List.append_nil, List.drop_zero, Nat.zero_sub,
      decide_eq_true (Nat.zero_le l.length)]
    rfl
  | succ g ih =>
    cases l with
    | nil =>
      have hfalse : decide (g+1 ≤ ([] : List T).length) = false :=
        decide_eq_false (Nat.not_succ_le_zero g)
      rw [fillPlaces, bind_run (hnil _), List.take_nil, List.append_nil, List.drop_nil, hfalse]
      rfl
    | cons x l =>
      have hput : onVec (putNext a.length x) (opened a (g+1) b k d) (f l) =
          ((.ok (), opened (a ++ [x]) g b k d, f l) : Except (Exit ε) Unit × Drain T × σ) := by
        have hlen : a.length+(g+1) = (a ++ [x]).length+g := by
          rw [List.length_append, List.length_singleton]
          lia
        rw [opened, opened, hlen, List.append_assoc, List.append_assoc]
        exact onVec_run putNext_run
      have hdecide : decide (g+1 ≤ (x :: l).length) = decide (g ≤ l.length) :=
        decide_eq_decide.mpr Nat.succ_le_succ_iff
      have hlen : a.length+1 = (a ++ [x]).length := by
        rw [List.length_append, List.length_singleton]
      rw [fillPlaces, bind_run (hcons _ x l)]
      apply (bind_run hput).trans
      rw [hlen, ih, hdecide, List.take_succ_cons, List.drop_succ_cons, List.length_cons,
        Nat.succ_sub_succ, List.append_assoc]
      rfl

theorem fill_run {next : M ε σ (Drain T) (Option T)} {f : List T → σ}
    (hnil : ∀ s, next s (f []) = (.ok none, s, f []))
    (hcons : ∀ s x l, next s (f (x :: l)) = (.ok (some x), s, f l)) :
    fill next (opened a g b k d) (f l) =
      (.ok (decide (g ≤ l.length)), opened (a ++ l.take g) (g-l.length) b k d, f (l.drop g)) := by
  have hplaces := fillPlaces_run (a := a) (b := b) (d := d) (g := g) (k := k) (l := l) hnil hcons
  have hle : (opened a g b k d).vec.1.len ≤ (opened a g b k d).tailStart := Nat.le_add_right ..
  have hn : (opened a g b k d).tailStart-(opened a g b k d).vec.1.len = g :=
    Nat.add_sub_cancel_left ..
  rw [fill]
  apply get_run.trans
  apply (ite_run_pos hle).trans
  rw [hn]
  exact hplaces

theorem moveTail_spec (hs : Allocated e (a.length+g+b.length+k)) :
    Reaches (moveTail e overflow n) (opened a g b k d) st
      (fun _ s st' => st' = st ∧ ∃ k', s = opened a (g+n) b k' d ∧
        Allocated e (a.length+(g+n)+b.length+k'))
      (fun err s st' => err = overflow ∧ s = opened a g b k d ∧ st' = st ∧
        ¬ Fits e (2*(a.length+g+b.length+n)+8)) := by
  have hlen : (free g ++ live b ++ free k : Slots T).length = g+b.length+k := by
    rw [List.length_append, List.length_append, length_free, length_free, length_live]
  have hle : a.length+g+b.length ≤ a.length+(free g ++ live b ++ free k : Slots T).length := by
    rw [hlen]
    lia
  have halloc : Allocated e (a.length+(free g ++ live b ++ free k : Slots T).length) := by
    rwa [hlen, show a.length+(g+b.length+k) = a.length+g+b.length+k by lia]
  have hreserve : Reaches (reserve e overflow (a.length+g+b.length) n)
      (front a (free g ++ live b ++ free k) d) st _ _ := reserve_spec halloc hle
  rw [moveTail]
  apply reaches_get
  apply Reaches.bind
  apply Reaches.onPart
  apply hreserve.mono
  · rintro - v st' ⟨rfl, m, rfl, hm, hle⟩
    rw [hlen] at hm hle
    have hroom : k+m = n+(k+m-n) := by lia
    have hcopy : slotsStep (fun s => copy s (a.length+g) (a.length+g+n) b.length)
        (front a (free g ++ live b ++ free k ++ free m) d).1 =
        some ((), (front a (free (g+n) ++ live b ++ free (k+m-n)) d).1) := by
      have hi : (live a ++ free g : Slots T).length = a.length+g := by
        rw [List.length_append, length_live, length_free]
      have hup := copy_up (b := free (k+m-n)) (l := b) (g := n) hi rfl
      apply slotsStep_run
      rw [List.append_assoc _ (free k), ← free_add, hroom, Nat.add_sub_cancel_left, free_add,
        free_add]
      simp only [List.append_assoc] at hup ⊢
      exact hup
    apply reaches_step (onVec_run (change_run hcopy))
    apply reaches_get
    refine reaches_ok rfl ⟨rfl, k+m-n, ?_, ?_⟩
    · rw [opened, Nat.add_assoc]
      rfl
    · rw [show a.length+(g+n)+b.length+(k+m-n) = a.length+(g+b.length+k)+m by lia]
      exact hm
  · rintro err v st' ⟨rfl, rfl, rfl, hfits⟩
    exact ⟨rfl, rfl, rfl, hfits⟩

end Gap

end Drain

/-! ## Vectors grow -/

section Grow

variable {e : ElemLayout T} {overflow : ε} {hint : ℕ → UInt64} {H : ℕ} {a c d items : List T}
  {x : T} {asked k n : ℕ}

theorem lowerBound_run {s : S} :
    (lowerBound hint : M ε (Source T) S ℕ) s ⟨items, asked, c⟩ =
      (.ok (hint asked).toNat, s, ⟨items, asked+1, c⟩) := rfl

theorem discard_run {v : Slots T} {st : σ} :
    (discard x : M ε σ (SoundVec T) Unit) (front a v d) st = (.ok (), front a v (d ++ [x]), st) :=
  change_run rfl

theorem makeRoom_spec (hH : ∀ n, (hint n).toNat ≤ H) (hk : Allocated e (a.length+k)) :
    Reaches (makeRoom e overflow hint x) (front a (free k) d) ⟨items, asked, c⟩
      (fun _ v st => ∃ k' asked', v = front a (free (k'+1)) d ∧ st = ⟨items, asked', c⟩ ∧
        Allocated e (a.length+(k'+1)))
      (fun err v st => err = overflow ∧ ∃ asked', v = front a (free k) (d ++ [x]) ∧
        st = ⟨items, asked', c⟩ ∧ ¬ Fits e (2*(a.length+H+1)+8)) := by
  have hcap : capacity e (front a (free k) d).1.slots = a.length+k := by
    have hlen : (live a ++ free k : Slots T).length = a.length+k := by
      rw [List.length_append, length_live, length_free]
    rw [← hlen] at hk ⊢
    exact capacity_eq hk
  rw [makeRoom]
  apply reaches_get
  rw [hcap]
  by_cases hfull : (front a (free k) d).1.len = a.length+k
  · have hzero : k = 0 := by
      have : a.length = a.length+k := hfull
      lia
    have hlower : min ((hint asked).toNat+1) usizeMax ≤ H+1 :=
      (min_le_left ..).trans (Nat.succ_le_succ (hH asked))
    have hone : 1 ≤ min ((hint asked).toNat+1) usizeMax := le_min (by lia) (by decide)
    have hsize : (free k : Slots T).length = k := length_free k
    apply reaches_pos hfull
    apply reaches_step lowerBound_run
    apply Reaches.onFailure
    apply (reserve_spec (by rwa [hsize]) (Nat.le_add_right ..)).mono
    · rintro - v st ⟨rfl, m, rfl, hm, hle⟩
      rw [hsize] at hm hle
      rw [← free_add]
      exact ⟨k+m-1, asked+1, by rw [Nat.sub_add_cancel (by lia)], rfl, by
        rwa [Nat.sub_add_cancel (by lia), ← Nat.add_assoc]⟩
    · rintro err v st ⟨rfl, rfl, rfl, hfits⟩
      exact reaches_ok discard_run
        ⟨rfl, asked+1, rfl, rfl, fun h => hfits (h.mono (by lia))⟩
  · have hpos : k-1+1 = k := by
      have : ¬ a.length = a.length+k := hfull
      lia
    apply reaches_neg hfull
    exact reaches_ok rfl ⟨k-1, asked, by rw [hpos], rfl, by rwa [hpos]⟩

theorem pushNext_spec (hH : ∀ n, (hint n).toNat ≤ H) (hk : Allocated e (a.length+k)) :
    Reaches (pushNext e overflow hint x) (front a (free k) d) ⟨items, asked, c⟩
      (fun _ v st => ∃ k' asked', v = front (a ++ [x]) (free k') d ∧ st = ⟨items, asked', c⟩ ∧
        Allocated e ((a ++ [x]).length+k'))
      (fun err v st => err = overflow ∧ ∃ asked', v = front a (free k) (d ++ [x]) ∧
        st = ⟨items, asked', c⟩ ∧ ¬ Fits e (2*(a.length+H+1)+8)) := by
  rw [pushNext]
  apply reaches_get
  apply Reaches.bind
  apply (makeRoom_spec hH hk).mono
  · rintro - v st ⟨k', asked', rfl, rfl, hk'⟩
    have hwrite : (write a.length x : M ε (Source T) (SoundVec T) Unit)
        (front a (free (k'+1)) d) ⟨items, asked', c⟩ =
        (.ok (), front a (live [x] ++ free k') d, ⟨items, asked', c⟩) :=
      Drain.write_run (u := []) (w := free k') (by rw [List.append_nil, length_live])
    have hlen : lenStep (a.length+1) (front a (live [x] ++ free k') d).1 =
        some ((), (front (a ++ [x]) (free k') d).1) := by
      apply lenStep_run
      · rw [live_append, List.append_assoc]
      · exact List.length_append
    apply reaches_step hwrite
    refine reaches_ok (change_run hlen) ⟨k', asked', rfl, rfl, ?_⟩
    rw [List.length_append, List.length_singleton, Nat.add_assoc, Nat.add_comm 1]
    exact hk'
  · rintro err v st h
    exact h

theorem extendLoop_spec (hH : ∀ n, (hint n).toNat ≤ H) (hk : Allocated e (a.length+k)) :
    Reaches (whileSome nextItem (pushNext e overflow hint) (items.length+1)) (front a (free k) d)
      ⟨items, asked, c⟩
      (fun _ v st => ∃ k' asked', v = front (a ++ items) (free k') d ∧ st = ⟨[], asked', c⟩ ∧
        Allocated e ((a ++ items).length+k'))
      (fun err v st => err = overflow ∧ ∃ placed y rest k' asked', items = placed ++ y :: rest ∧
        v = front (a ++ placed) (free k') (d ++ [y]) ∧ st = ⟨rest, asked', c⟩ ∧
        ¬ Fits e (2*(a.length+items.length+H+1)+8)) := by
  induction items generalizing a k asked with
  | nil =>
    rw [whileSome]
    apply reaches_step rfl
    refine reaches_ok rfl ⟨k, asked, by rw [List.append_nil], rfl, by rwa [List.append_nil]⟩
  | cons x items ih =>
    rw [List.length_cons, whileSome]
    apply reaches_step rfl
    apply Reaches.bind
    apply (pushNext_spec hH hk).mono
    · rintro - v st ⟨k', asked', rfl, rfl, hk'⟩
      have hlen : (a ++ [x]).length = a.length+1 := List.length_append
      apply (ih hk').mono
      · rintro - v st ⟨k', asked', rfl, rfl, hk'⟩
        rw [List.append_assoc] at hk' ⊢
        exact ⟨k', asked', rfl, rfl, hk'⟩
      · rintro err v st ⟨rfl, placed, y, rest, k', asked', rfl, rfl, rfl, hfits⟩
        refine ⟨rfl, x :: placed, y, rest, k', asked', rfl, ?_, rfl, ?_⟩
        · rw [List.append_assoc]
          rfl
        · exact fun h => hfits (h.mono (by lia))
    · rintro err v st ⟨rfl, asked', rfl, rfl, hfits⟩
      refine ⟨rfl, [], x, items, k, asked', rfl, ?_, rfl, ?_⟩
      · rw [List.append_nil]
      · exact fun h => hfits (h.mono (by lia))

theorem extendDesugared_spec (hH : ∀ n, (hint n).toNat ≤ H) (hk : Allocated e (a.length+k)) :
    Reaches (extendDesugared e overflow hint) (front a (free k) d) ⟨items, asked, c⟩
      (fun _ v st => ∃ k' asked', v = front (a ++ items) (free k') d ∧ st = ⟨[], asked', c⟩ ∧
        Allocated e ((a ++ items).length+k'))
      (fun err v st => err = overflow ∧ ∃ placed y rest k' asked', items = placed ++ y :: rest ∧
        v = front (a ++ placed) (free k') (d ++ [y]) ∧ st = ⟨rest, asked', c⟩ ∧
        ¬ Fits e (2*(a.length+items.length+H+1)+8)) :=
  extendLoop_spec hH hk

theorem elems_front {v : Slots T} : (front a v d).1.elems = a := by
  change ((live a ++ v).take a.length).reduceOption = a
  rw [← length_live a, List.take_left, reduceOption_live]

theorem withCapacity_spec {cap : ℕ} {st : σ} (hcap : 0 < cap) :
    Reaches (withCapacity e overflow cap) (newVec e) st
      (fun _ v st' => st' = st ∧ ∃ k, v = front [] (free (k+1)) [] ∧ Allocated e (k+1))
      (fun err v st' => err = overflow ∧ v = newVec e ∧ st' = st ∧ ¬ Fits e cap) := by
  rw [withCapacity]
  by_cases hlayout : layoutArray e cap = true
  · apply reaches_pos hlayout
    by_cases he : e.size = 0
    · have hnew : newVec e = front [] (free (usizeMax-1+1)) [] := by
        rw [newVec, if_pos he]
        rfl
      have hstep : slotsStep (fun s => some (if e.size = 0 then s else s ++ free cap))
          (newVec e).1 = some ((), (front [] (free (usizeMax-1+1)) []).1) := by
        rw [hnew]
        apply slotsStep_run
        rw [if_pos he]
      refine reaches_ok (change_run hstep) ⟨rfl, usizeMax-1, rfl, ?_⟩
      rw [Allocated, if_pos he]
      rfl
    · have hcap1 : cap-1+1 = cap := Nat.sub_add_cancel hcap
      have hstep : slotsStep (fun s => some (if e.size = 0 then s else s ++ free cap))
          (newVec e).1 = some ((), (front [] (free (cap-1+1)) []).1) := by
        rw [newVec, if_neg he, hcap1]
        apply slotsStep_run
        rw [if_neg he]
        rfl
      refine reaches_ok (change_run hstep) ⟨rfl, cap-1, rfl, ?_⟩
      rw [hcap1, allocated_iff he]
      exact (layoutArray_iff he).mp hlayout
  · have he : e.size ≠ 0 := fun he => hlayout (layoutArray_zero he)
    apply reaches_neg hlayout
    exact reaches_unwind rfl ⟨rfl, rfl, rfl, fun h => hlayout ((layoutArray_iff he).mpr h)⟩

theorem fromIter_spec (hH : ∀ n, (hint n).toNat ≤ H) :
    Reaches (fromIter e overflow hint) (newVec e) ⟨items, asked, c⟩
      (fun _ v st => ∃ k asked', v = front items (free k) [] ∧ st = ⟨[], asked', c⟩)
      (fun err v st => err = overflow ∧ ∃ placed y rest k asked', items = placed ++ y :: rest ∧
        v = front placed (free k) [y] ∧ st = ⟨rest, asked', c⟩ ∧
        ¬ Fits e (2*(items.length+H+1)+8)) := by
  cases items with
  | nil =>
    rw [fromIter]
    apply reaches_step rfl
    exact reaches_ok rfl ⟨_, asked, rfl, rfl⟩
  | cons x items =>
    have hmin := minNonZeroCap_le e.size
    have hlower : min ((hint asked).toNat+1) usizeMax ≤ H+1 :=
      (min_le_left ..).trans (Nat.succ_le_succ (hH asked))
    have hone : 0 < min ((hint asked).toNat+1) usizeMax := lt_min (by lia) (by decide)
    rw [fromIter]
    apply reaches_step rfl
    apply reaches_step lowerBound_run
    apply Reaches.bind
    apply Reaches.onFailure
    apply (withCapacity_spec (hone.trans_le (le_max_right ..))).mono
    · rintro - v st ⟨rfl, k, rfl, hk⟩
      have hwrite : (write 0 x : M ε (Source T) (SoundVec T) Unit) (front [] (free (k+1)) [])
          ⟨items, asked+1, c⟩ = (.ok (), front [] (live [x] ++ free k) [], ⟨items, asked+1, c⟩) :=
        Drain.write_run (u := []) (w := free k) rfl
      have hlen : lenStep 1 (front [] (live [x] ++ free k) []).1 =
          some ((), (front [x] (free k) []).1) := lenStep_run rfl rfl
      have hk' : Allocated e ([x].length+k) := by rwa [List.length_singleton, Nat.add_comm]
      apply reaches_step hwrite
      apply reaches_step (change_run hlen)
      apply (extendDesugared_spec hH hk').mono
      · rintro - v st ⟨k', asked', rfl, rfl, -⟩
        exact ⟨k', asked', rfl, rfl⟩
      · rintro err v st ⟨rfl, placed, y, rest, k', asked', rfl, rfl, rfl, hfits⟩
        refine ⟨rfl, x :: placed, y, rest, k', asked', rfl, rfl, rfl, fun h => hfits (h.mono ?_)⟩
        rw [List.length_singleton, List.length_cons]
        lia
    · rintro err v st ⟨rfl, rfl, rfl, hfits⟩
      refine reaches_ok discard_run
        ⟨rfl, [], x, items, _, asked+1, rfl, rfl, rfl, fun h => hfits (h.mono ?_)⟩
      lia

end Grow

/-! ## What was placed and what was dropped -/

namespace Splice
open Drain

section Parts

variable {e : ElemLayout T} {overflow : ε} {hint : ℕ → UInt64} {H : ℕ} {a b c d items : List T}
  {asked g k n : ℕ}

theorem collect_spec {s : Drain T} (hH : ∀ n, (hint n).toNat ≤ H) :
    Reaches (collect e overflow hint) s ⟨items, asked, c⟩
      (fun l s' st => l = items ∧ s' = s ∧ ∃ asked', st = ⟨[], asked', c⟩)
      (fun err s' st => err = overflow ∧ ∃ placed y rest asked', items = placed ++ y :: rest ∧
        s' = { s with vec := s.vec.log (y :: placed) } ∧ st = ⟨rest, asked', c⟩ ∧
        ¬ Fits e (2*(items.length+H+1)+8)) := by
  have hspec : Reaches (fromIter e overflow hint) (newVec e) ⟨items, asked, c⟩ _ _ :=
    fromIter_spec hH
  obtain ⟨u, v, st, hrun, k, asked', rfl, rfl⟩ |
    ⟨err, v, st, hrun, rfl, placed, y, rest, k, asked', hitems, rfl, rfl, hfits⟩ := hspec.cases
  · apply reaches_ok
    · rw [collect, hrun]
    · exact ⟨elems_front, rfl, asked', rfl⟩
  · apply reaches_unwind
    · rw [collect, hrun]
    · refine ⟨rfl, placed, y, rest, asked', hitems, ?_, rfl, hfits⟩
      rw [elems_front]
      rfl

theorem fill_items :
    (fill nextItem : M ε (Source T) (Drain T) Bool) (opened a g b k d) ⟨items, asked, c⟩ =
      (.ok (decide (g ≤ items.length)), opened (a ++ items.take g) (g-items.length) b k d,
        ⟨items.drop g, asked, c⟩) :=
  fill_run (f := fun l => (⟨l, asked, c⟩ : Source T)) (fun _ => rfl) fun _ _ _ => rfl

theorem fill_collected :
    (fill nextCollected : M ε (Source T) (Drain T) Bool) (opened a g b k d) ⟨items, asked, c⟩ =
      (.ok (decide (g ≤ c.length)), opened (a ++ c.take g) (g-c.length) b k d,
        ⟨items, asked, c.drop g⟩) :=
  fill_run (f := fun l => (⟨items, asked, l⟩ : Source T)) (fun _ => rfl) fun _ _ _ => rfl

theorem fillCollected_spec (hs : Allocated e (a.length+0+b.length+k)) :
    Reaches (fillCollected e overflow c.length) (opened a 0 b k d) ⟨items, asked, c⟩
      (fun _ s st => ∃ k', s = opened (a ++ c) 0 b k' d ∧ st = ⟨items, asked, []⟩)
      (fun err s st => err = overflow ∧ s = opened a 0 b k d ∧ st = ⟨items, asked, c⟩ ∧
        ¬ Fits e (2*(a.length+0+b.length+c.length)+8)) := by
  rw [fillCollected]
  apply Reaches.bind
  apply (moveTail_spec hs).mono
  · rintro - s st ⟨rfl, k', rfl, -⟩
    have hfill : (fill nextCollected : M ε (Source T) (Drain T) Bool)
        (opened a (0+c.length) b k' d) ⟨items, asked, c⟩ =
        (.ok true, opened (a ++ c) 0 b k' d, ⟨items, asked, []⟩) := by
      rw [fill_collected, Nat.zero_add, List.take_length, List.drop_length, Nat.sub_self,
        decide_eq_true le_rfl]
    apply reaches_step hfill
    apply reaches_step rfl
    apply reaches_pos ⟨rfl, rfl⟩
    exact reaches_ok rfl ⟨k', rfl, rfl⟩
  · rintro err s st ⟨rfl, rfl, rfl, hfits⟩
    exact ⟨rfl, rfl, rfl, hfits⟩

/-- Some of the items were placed, and some were dropped. -/
def Stopped (a b items d : List T) (s : Drain T) (st : Source T) : Prop :=
  ∃ placed mid gone g k, Holding (a ++ placed) b g [] 0 k (d ++ gone) s ∧
    items = placed ++ mid ++ st.items ∧ gone.Perm mid

/-- All items were placed. -/
def Finished (a b items d : List T) (s : Drain T) (st : Source T) : Prop :=
  ∃ g k, Holding (a ++ items) b g [] 0 k d s ∧ st.items = []

theorem holding_opened : Holding a b g [] 0 k d (opened a g b k d) where
  vec := by
    rw [opened, live_nil, free_zero, List.append_nil, List.append_nil]
  tailStart _ := rfl
  tailLen := rfl
  left := rfl
  iterStart h := absurd rfl h

theorem log_nil (v : SoundVec T) : v.log [] = v := by
  apply Subtype.ext
  change (⟨v.1.slots, v.1.len, v.1.dropped ++ []⟩ : RawVec T) = v.1
  rw [List.append_nil]

theorem dropCollected_nil {s : Drain T} :
    (dropCollected : M ε (Source T) (Drain T) Unit) s ⟨items, asked, []⟩ =
      (.ok (), s, ⟨items, asked, []⟩) := by
  rw [dropCollected, log_nil]

theorem dropCollected_run :
    (dropCollected : M ε (Source T) (Drain T) Unit) (opened a g b k d) ⟨items, asked, c⟩ =
      (.ok (), opened a g b k (d ++ c), ⟨items, asked, []⟩) := rfl

theorem collectRest_spec (hH : ∀ n, (hint n).toNat ≤ H)
    (hs : Allocated e (a.length+0+b.length+k)) :
    Reaches (collectRest e overflow hint) (opened a 0 b k d) ⟨items, asked, []⟩
      (fun _ => Finished a b items d)
      (fun err s st => err = overflow ∧ Stopped a b items d s st ∧
        ¬ Fits e (2*(a.length+b.length+items.length+H+1)+8)) := by
  rw [collectRest]
  apply Reaches.bind
  apply (collect_spec hH).mono
  · rintro l s st ⟨rfl, rfl, asked', rfl⟩
    have hstep : (intoIter l : M ε (Source T) (Drain T) Unit) (opened a 0 b k d) ⟨[], asked', []⟩ =
        (.ok (), opened a 0 b k d, ⟨[], asked', l⟩) := rfl
    apply reaches_step hstep
    apply Reaches.onExit
    by_cases hl : l = []
    · subst hl
      apply reaches_neg (lt_irrefl 0)
      apply reaches_ok rfl
      apply reaches_ok dropCollected_nil
      refine ⟨0, k, ?_, rfl⟩
      rw [List.append_nil]
      exact holding_opened
    · apply reaches_pos (List.length_pos_of_ne_nil hl)
      apply (fillCollected_spec hs).mono
      · rintro - s st ⟨k', rfl, rfl⟩
        exact reaches_ok dropCollected_nil ⟨0, k', holding_opened, rfl⟩
      · rintro err s st ⟨rfl, rfl, rfl, hfits⟩
        refine reaches_ok dropCollected_run
          ⟨rfl, ⟨[], l, l, 0, k, ?_, ?_, List.Perm.refl l⟩, fun h => hfits (h.mono ?_)⟩
        · rw [List.append_nil]
          exact holding_opened
        · rw [List.nil_append, List.append_nil]
        · lia
  · rintro err s st ⟨rfl, placed, y, rest, asked', rfl, rfl, rfl, hfits⟩
    refine ⟨rfl, ⟨[], placed ++ [y], y :: placed, 0, k, ?_, ?_, ?_⟩, fun h => hfits (h.mono ?_)⟩
    · rw [List.append_nil]
      exact holding_opened
    · simp only [List.append_assoc, List.nil_append, List.cons_append]
    · exact (List.perm_append_singleton y placed).symm
    · lia

theorem Finished.placed {s : Drain T} {st : Source T} {l : List T}
    (h : Finished (a ++ l) b items d s st) : Finished a b (l ++ items) d s st := by
  obtain ⟨g, k, hs, hst⟩ := h
  rw [List.append_assoc] at hs
  exact ⟨g, k, hs, hst⟩

theorem Stopped.placed {s : Drain T} {st : Source T} {l : List T}
    (h : Stopped (a ++ l) b items d s st) : Stopped a b (l ++ items) d s st := by
  obtain ⟨placed, mid, gone, g, k, hs, rfl, hperm⟩ := h
  rw [List.append_assoc] at hs
  refine ⟨l ++ placed, mid, gone, g, k, hs, ?_, hperm⟩
  simp only [List.append_assoc]

theorem fill_spec {m : M ε (Source T) (Drain T) Unit} {E : Prop}
    (hs : Allocated e (a.length+g+b.length+k))
    (hm : ∀ l rest, items = l ++ rest → Allocated e ((a ++ l).length+0+b.length+k) →
      Reaches m (opened (a ++ l) 0 b k d) ⟨rest, asked, []⟩
        (fun _ => Finished (a ++ l) b rest d)
        (fun err s st => err = overflow ∧ Stopped (a ++ l) b rest d s st ∧ E)) :
    Reaches (fill nextItem >>= fun filled => if filled then m else pure ())
      (opened a g b k d) ⟨items, asked, []⟩
      (fun _ => Finished a b items d)
      (fun err s st => err = overflow ∧ Stopped a b items d s st ∧ E) := by
  apply reaches_step fill_items
  by_cases hg : g ≤ items.length
  · have hsplit := List.take_append_drop g items
    have hlen : (items.take g).length = g := List.length_take_of_le hg
    rw [Nat.sub_eq_zero_of_le hg]
    apply reaches_pos (decide_eq_true hg)
    apply (hm _ _ hsplit.symm _).mono
    · rintro - s st h
      rw [← hsplit]
      exact h.placed
    · rintro err s st ⟨herr, h, hE⟩
      rw [← hsplit]
      exact ⟨herr, h.placed, hE⟩
    · rw [List.length_append, hlen]
      exact hs
  · have hle : items.length ≤ g := by lia
    rw [List.take_of_length_le hle, List.drop_of_length_le hle]
    apply reaches_neg (by simpa using hg)
    exact reaches_ok rfl ⟨_, k, holding_opened, rfl⟩

theorem estimate_spec (hH : ∀ n, (hint n).toNat ≤ H)
    (hs : Allocated e (a.length+0+b.length+k)) :
    Reaches (estimate e overflow hint) (opened a 0 b k d) ⟨items, asked, []⟩
      (fun _ => Finished a b items d)
      (fun err s st => err = overflow ∧ Stopped a b items d s st ∧
        ¬ Fits e (2*(a.length+b.length+items.length+H+1)+8)) := by
  rw [estimate]
  apply reaches_step lowerBound_run
  by_cases hlower : (hint asked).toNat > 0
  · apply reaches_pos hlower
    apply Reaches.bind
    apply (moveTail_spec hs).mono
    · rintro - s st ⟨rfl, k', rfl, hk'⟩
      apply fill_spec hk'
      intro l rest hl hk''
      apply (collectRest_spec hH hk'').mono
      · rintro - s st h
        exact h
      · rintro err s st ⟨herr, h, hfits⟩
        refine ⟨herr, h, fun hf => hfits (hf.mono ?_)⟩
        rw [hl, List.length_append, List.length_append]
        lia
    · rintro err s st ⟨rfl, rfl, rfl, hfits⟩
      have hle := hH asked
      refine ⟨rfl, ⟨[], [], [], 0, k, ?_, rfl, List.Perm.refl []⟩, fun h => hfits (h.mono ?_)⟩
      · rw [List.append_nil, List.append_nil]
        exact holding_opened
      · lia
  · apply reaches_neg hlower
    exact collectRest_spec hH hs

theorem placeItems_spec (hH : ∀ n, (hint n).toNat ≤ H)
    (hs : Allocated e (a.length+g+b.length+k)) :
    Reaches (placeItems e overflow hint) (opened a g b k d) ⟨items, asked, []⟩
      (fun _ => Finished a b items d)
      (fun err s st => err = overflow ∧ Stopped a b items d s st ∧
        ¬ Fits e (2*(a.length+b.length+items.length+H+1)+8)) := by
  rw [placeItems]
  apply reaches_get
  by_cases hb : b = []
  · subst hb
    have hfree : opened a g [] k d = ⟨front a (free (g+k)) d, a.length+g, 0, 0, 0⟩ := by
      rw [opened, live_nil, List.append_nil, free_add]
      rfl
    have hk : Allocated e (a.length+(g+k)) := by
      rw [← Nat.add_assoc]
      exact hs
    -- The tail is empty, and its place does not matter any more.
    have hend : ∀ (l v : List T) (k' : ℕ), Holding l [] k' [] 0 0 v
        ⟨front l (free k') v, a.length+g, 0, 0, 0⟩ := by
      intro l v k'
      refine ⟨?_, fun h => absurd rfl h, rfl, rfl, fun h => absurd rfl h⟩
      rw [live_nil, free_zero]
      simp only [List.append_nil]
    rw [hfree]
    apply reaches_pos rfl
    apply Reaches.onPart
    apply (extendDesugared_spec hH hk).mono
    · rintro - v st ⟨k', asked', rfl, rfl, -⟩
      exact ⟨k', 0, hend _ _ _, rfl⟩
    · rintro err v st ⟨rfl, placed, y, rest, k', asked', rfl, rfl, rfl, hfits⟩
      refine ⟨rfl, ⟨placed, [y], [y], k', 0, hend _ _ _, ?_, List.Perm.refl _⟩,
        fun h => hfits (h.mono ?_)⟩
      · rw [List.append_assoc]
        rfl
      · rw [List.length_nil]
        lia
  · have hlen : ¬ (opened a g b k d).tailLen = 0 := fun h => hb (List.length_eq_zero_iff.mp h)
    apply reaches_neg hlen
    apply fill_spec hs
    intro l rest hl hk
    apply (estimate_spec hH hk).mono
    · rintro - s st h
      exact h
    · rintro err s st ⟨herr, h, hfits⟩
      refine ⟨herr, h, fun hf => hfits (hf.mono ?_)⟩
      rw [hl, List.length_append, List.length_append]
      lia

theorem dropRest_run {rest : List T} {i j : ℕ} {st : σ} :
    (whileSome next (fun x => onVec (discard x)) (rest.length+1) : M ε σ (Drain T) Unit)
      (held a b i rest j k d) st =
      (.ok (), held a b (i+rest.length) [] j k (d ++ rest), st) := by
  induction rest generalizing i d with
  | nil =>
    rw [whileSome]
    apply (bind_run next_nil).trans
    rw [List.append_nil]
    rfl
  | cons x rest ih =>
    have hdiscard : onVec (discard x) (held a b (i+1) rest j k d) st =
        ((.ok (), held a b (i+1) rest j k (d ++ [x]), st) : Except (Exit ε) Unit × Drain T × σ) :=
      onVec_run discard_run
    have hi : i+1+rest.length = i+(x :: rest).length := by
      rw [List.length_cons]
      lia
    rw [List.length_cons, whileSome]
    apply (bind_run next_cons).trans
    apply (bind_run hdiscard).trans
    rw [ih, List.append_assoc, hi]
    rfl

theorem dropBody_spec {rest : List T} {i j : ℕ} (hH : ∀ n, (hint n).toNat ≤ H)
    (hs : Allocated e (a.length+(i+rest.length+j)+b.length+k)) :
    Reaches (dropBody e overflow hint) (held a b i rest j k d) ⟨items, asked, []⟩
      (fun _ => Finished a b items (d ++ rest))
      (fun err s st => err = overflow ∧ Stopped a b items (d ++ rest) s st ∧
        ¬ Fits e (2*(a.length+b.length+items.length+H+1)+8)) := by
  have hleft : (held a b i rest j k d).iterEnd-(held a b i rest j k d).iterStart = rest.length :=
    Nat.add_sub_cancel_left ..
  have hopened : held a b (i+rest.length) [] j k (d ++ rest) =
      { opened a (i+rest.length+j) b k (d ++ rest) with
        iterStart := a.length+(i+rest.length), iterEnd := a.length+(i+rest.length)+0 } := by
    rw [held, opened, live_nil, List.append_nil, List.length_nil, free_add (i+rest.length) j]
    simp only [Nat.add_zero, Nat.add_assoc]
  have htake : (takeIter : M ε (Source T) (Drain T) Unit)
      (held a b (i+rest.length) [] j k (d ++ rest)) ⟨items, asked, []⟩ =
      (.ok (), opened a (i+rest.length+j) b k (d ++ rest), ⟨items, asked, []⟩) := by
    rw [hopened]
    rfl
  rw [dropBody]
  apply reaches_get
  rw [hleft]
  apply reaches_step dropRest_run
  apply reaches_step htake
  exact placeItems_spec hH hs

theorem drop_spec {rest : List T} {i j : ℕ} (hH : ∀ n, (hint n).toNat ≤ H)
    (hs : Allocated e (a.length+(i+rest.length+j)+b.length+k)) :
    Reaches (drop e overflow hint) (held a b i rest j k d) ⟨items, asked, []⟩
      (fun _ s st => st.items = [] ∧ ∃ k', s.vec = front (a ++ items ++ b) (free k') (d ++ rest))
      (fun err s st => err = overflow ∧ st.items = [] ∧
        ¬ Fits e (2*(a.length+b.length+items.length+H+1)+8) ∧
        ∃ m gone k', s.vec = front (a ++ items.take m ++ b) (free k') (d ++ rest ++ gone) ∧
          gone.Perm (items.drop m)) := by
  rw [drop]
  apply Reaches.onExit
  apply Reaches.onExit
  apply (dropBody_spec hH hs).mono
  · rintro - s st ⟨g, k', hold, hitems⟩
    apply reaches_ok (drop_run hold)
    refine reaches_ok rfl ⟨rfl, g+([] : List T).length+0+k', ?_⟩
    rw [hitems, log_nil, List.append_nil]
  · rintro err s st ⟨rfl, ⟨placed, mid, gone, g, k', hold, hitems, hperm⟩, hfits⟩
    have htake : items.take placed.length = placed := by
      rw [hitems, List.append_assoc, List.take_left]
    have hdrop : items.drop placed.length = mid ++ st.items := by
      rw [hitems, List.append_assoc, List.drop_left]
    apply reaches_ok (drop_run hold)
    refine reaches_ok rfl ⟨rfl, rfl, hfits, placed.length, gone ++ st.items,
      g+([] : List T).length+0+k', ?_, ?_⟩
    · rw [htake, List.append_nil, ← List.append_assoc]
      rfl
    · rw [hdrop]
      exact hperm.append_right _

end Parts

end Splice

/-! ## Every vector and every range -/

/-- After any calls, the rest of the range is dropped, kept or replaced, and what is in front of
the range and behind it stays. A replacement that has no room unwinds: then a part of it is in
the vector and the other part is dropped. -/
theorem drain_ends (e : ElemLayout T) (l d : List T) (start stop spare : ℕ) (ends : List End)
    (rangeError : ε) (st : σ) (hrange : start ≤ stop ∧ stop ≤ l.length)
    (hvec : Allocated e (l.length+spare)) :
    ∃ D D' fs bs rest,
      drain rangeError start stop (front l (free spare) d) st = (.ok D, D.vec, st) ∧
      drive (returned Drain.next) (returned Drain.nextBack) ends D = some (fs, bs, D') ∧
      Drain.middle l start stop = fs ++ rest ++ bs.reverse ∧ rest.length = stop-start-ends.length ∧
      (∃ s, Drain.drop e D' st = ((.ok (), s, st) : Except (Exit ε) Unit × Drain T × σ) ∧
        s.vec.1 = RawVec.of (l.take start ++ l.drop stop) (stop-start+spare) (d ++ rest)) ∧
      (∃ s, Drain.keepRest e D' st = ((.ok (), s, st) : Except (Exit ε) Unit × Drain T × σ) ∧
        s.vec.1 = RawVec.of (l.take start ++ rest ++ l.drop stop)
          (stop-start-rest.length+spare) d) ∧
      ∀ (overflow : ε) (hint : ℕ → UInt64) (items : List T) (H : ℕ), (∀ n, (hint n).toNat ≤ H) →
        Reaches (Splice.drop e overflow hint) D' ⟨items, 0, []⟩
          (fun _ s st => st.items = [] ∧
            ∃ k, s.vec.1 = RawVec.of (l.take start ++ items ++ l.drop stop) k (d ++ rest))
          (fun err s st => err = overflow ∧ st.items = [] ∧
            ¬ Fits e (2*(l.length+items.length+H+1)+8) ∧
            ∃ m gone k, s.vec.1 = RawVec.of (l.take start ++ items.take m ++ l.drop stop) k
              (d ++ rest ++ gone) ∧ gone.Perm (items.drop m)) := by
  have hlen := Drain.length_middle hrange
  have hrest : (l.take start).length+(l.drop stop).length+(stop-start) = l.length := by
    rw [List.length_take, List.length_drop]
    lia
  obtain ⟨fs, bs, rest, i, j, hdrive, hmiddle, hcalls, hij⟩ :=
    Drain.drive_held (a := l.take start) (b := l.drop stop) (d := d) (k := spare) ends hlen
  refine ⟨_, _, fs, bs, rest, ?_, hdrive, hmiddle, hcalls, ?_, ?_, ?_⟩
  · rw [Drain.drain_run hrange, Drain.held, free_zero, List.nil_append, List.append_nil]
  · refine ⟨_, Drain.drop_run Drain.holding_held, ?_⟩
    rw [hij]
    rfl
  · refine ⟨_, Drain.keepRest_run, ?_⟩
    rw [show i+j+spare = stop-start-rest.length+spare by lia]
    rfl
  · intro overflow hint items H hH
    have hs : Allocated e
        ((l.take start).length+(i+rest.length+j)+(l.drop stop).length+spare) := by
      rw [hij]
      rwa [show (l.take start).length+(stop-start)+(l.drop stop).length = l.length by lia]
    apply (Splice.drop_spec hH hs).mono
    · rintro - s st ⟨hitems, k, hs⟩
      exact ⟨hitems, k, congrArg Subtype.val hs⟩
    · rintro err s st ⟨herr, hitems, hfits, m, gone, k, hs, hperm⟩
      exact ⟨herr, hitems, fun h => hfits (h.mono (by lia)), m, gone, k,
        congrArg Subtype.val hs, hperm⟩

/-- Elements of four bytes. -/
def fourBytes : ElemLayout ℕ := ⟨4, 4, fun h => absurd h (by decide)⟩

theorem allocated_fourBytes : Allocated fourBytes ([0, 1, 2, 3].length+0) := by
  rw [allocated_iff (by decide), ← layoutArray_iff (by decide)]
  decide

/-- Five elements take the place of two. -/
theorem drain_ends_four :
    ∃ D D' rest, drain () 1 3 (front [0, 1, 2, 3] (free 0) []) () = (.ok D, D.vec, ()) ∧
      rest.length = 1 ∧
      (∃ s, Drain.drop fourBytes D' () = ((.ok (), s, ()) : Except (Exit Unit) Unit × Drain ℕ × Unit) ∧
        s.vec.1 = RawVec.of [0, 3] 2 rest) ∧
      Reaches (Splice.drop fourBytes () fun _ => 2) D' ⟨[7, 8, 9, 10, 11], 0, []⟩
        (fun _ s st => st.items = [] ∧ ∃ k, s.vec.1 = RawVec.of [0, 7, 8, 9, 10, 11, 3] k rest)
        (fun _ _ _ => False) := by
  obtain ⟨D, D', -, -, rest, hdrain, -, -, hrest, hdrop, -, hsplice⟩ :=
    drain_ends fourBytes [0, 1, 2, 3] [] 1 3 0 [.back] () () (by decide) allocated_fourBytes
  have hfits : Fits fourBytes (2*(4+5+2+1)+8) := show 4*(2*(4+5+2+1)+8) ≤ _ by decide
  refine ⟨D, D', rest, hdrain, hrest, hdrop, ?_⟩
  exact (hsplice () (fun _ => 2) [7, 8, 9, 10, 11] 2 fun _ => le_rfl).mono (fun _ _ _ h => h)
    fun _ _ _ h => h.2.2.1 hfits

/-- With the lower bound `usize::MAX` there is no room for the second item. -/
theorem splice_unwinds :
    ¬ ∀ (e : ElemLayout ℕ) (l items : List ℕ) (start stop spare : ℕ) (hint : ℕ → UInt64),
      Allocated e (l.length+spare) → start ≤ stop ∧ stop ≤ l.length →
      ∀ (D : Drain ℕ) (v : SoundVec ℕ),
        drain () start stop (front l (free spare) []) () = (.ok D, v, ()) →
        (Splice.drop e () hint D ⟨items, 0, []⟩).2.1.vec.1.elems =
          l.take start ++ items ++ l.drop stop := by
  intro h
  have helems := h fourBytes [0, 1, 2, 3] [7, 8] 0 1 0 (fun _ => 18446744073709551615)
    allocated_fourBytes (by decide) _ _ (Drain.drain_run (by decide))
  exact absurd helems (by decide +kernel)

end RustStd.Vec
