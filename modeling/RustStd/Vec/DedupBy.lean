import RustStd.Vec.RawVec

/-!
# `Vec::dedup_by`

Each element is compared with the last one that was kept. Until the first duplicate nothing
moves; then its slot becomes a gap, which a guard closes if a comparison or a destructor
unwinds.
-/

set_option autoImplicit false

namespace RustStd.Vec
open RustStd.Machine RustStd.Unwind RustStd.Slots

variable {ε σ T : Type}

abbrev SameBucket (ε σ T : Type) : Type := σ → T → T → Except ε Bool × T × T × σ

/-- `same_bucket(&mut v[current], &mut v[prev])`; the references must not alias. -/
def callPair (f : SameBucket ε σ T) (current prev : ℕ) : M ε σ (RawVec T) Bool := fun v st =>
  match peek v.slots current, peek v.slots prev with
  | some x, some y =>
    if current = prev then (.error .outOfBounds, v, st)
    else
      let (r, x, y, st) := f st x y
      (r.mapError .unwind,
        { v with slots := (v.slots.set current (some x)).set prev (some y) }, st)
  | _, _ => (.error .outOfBounds, v, st)

/-- `a.wrapping_sub(b)` of two `usize`. -/
def wrapSub (a b : ℕ) : ℕ := if b ≤ a then a-b else a+2^64-b

structure FillGap (T : Type) where
  read : ℕ
  write : ℕ
  vec : RawVec T

namespace FillGap

def onVec {β : Type} (m : M ε σ (RawVec T) β) : M ε σ (FillGap T) β :=
  onPart FillGap.vec (fun vec gap => { gap with vec }) m

def drop : M ε σ (FillGap T) Unit := do
  let gap ← get
  let len := gap.vec.len
  let itemsLeft := wrapSub len gap.read
  onVec (onSlots fun s => copy s gap.read gap.write itemsLeft)
  let dropped := wrapSub gap.read gap.write
  onVec (setLen (len-dropped))

/-- `gap.read` is advanced before the destructor of the duplicate runs. -/
def delete (dropper : Dropper ε σ T) : M ε σ (FillGap T) Unit := do
  let gap ← get
  put { gap with read := gap.read+1 }
  onVec (dropInPlace dropper gap.read)

def keep : M ε σ (FillGap T) Unit := do
  let gap ← get
  onVec (onSlots fun s => copyNonoverlapping s gap.read gap.write 1)
  let gap ← get
  put { gap with read := gap.read+1, write := gap.write+1 }

end FillGap

section Operation

variable (f : SameBucket ε σ T) (dropper : Dropper ε σ T)

def firstDuplicate (len : ℕ) : ℕ → ℕ → M ε σ (RawVec T) ℕ
  | 0, _ => exit .outOfFuel
  | fuel+1, idx =>
    if idx ≠ len then do
      let found ← callPair f idx (wrapSub idx 1)
      if found then pure idx else firstDuplicate len fuel (idx+1)
    else pure idx

def dedupLoop (len : ℕ) : ℕ → M ε σ (FillGap T) Unit
  | 0 => exit .outOfFuel
  | fuel+1 => do
    let gap ← get
    if gap.read < len then do
      let found ← FillGap.onVec (callPair f gap.read (wrapSub gap.write 1))
      if found then do
        FillGap.delete dropper
        dedupLoop len fuel
      else do
        FillGap.keep
        dedupLoop len fuel
    else pure ()

def dropAndCompare (len : ℕ) : M ε σ (FillGap T) Unit := do
  let gap ← get
  FillGap.onVec (dropInPlace dropper gap.write)
  dedupLoop f dropper len (len+1)

def dedupGap (len : ℕ) : M ε σ (FillGap T) Unit := do
  dropAndCompare f dropper len
  let gap ← get
  FillGap.onVec (setLen gap.write)

def removeFrom (len idx : ℕ) : M ε σ (RawVec T) Unit :=
  if idx = len then pure ()
  else
    onPart (fun vec => ⟨idx+1, idx, vec⟩) (fun gap _ => gap.vec)
      (onFailure (dedupGap f dropper len) FillGap.drop)

def dedupBy : M ε σ (RawVec T) Unit := do
  let v ← get
  let len := v.len
  if len ≤ 1 then pure ()
  else do
    let idx ← firstDuplicate f len len 1
    removeFrom f dropper len idx

end Operation

/-! ## What is kept -/

/-- What is kept, dropped and not processed, and how the calls ended. -/
structure Deduped (ε σ T : Type) where
  kept : List T
  dropped : List T
  rest : List T
  result : Except ε Unit
  env : σ

/-- The calls in order: each element is compared with `last`, the last one that was kept. -/
def dedup (f : SameBucket ε σ T) (dropper : Dropper ε σ T) (kept : List T) (last : T)
    (dropped : List T) : List T → σ → Deduped ε σ T
  | [], st => ⟨kept ++ [last], dropped, [], .ok (), st⟩
  | x :: rest, st =>
    match f st x last with
    | (.error e, x, last, st) => ⟨kept ++ [last], dropped, x :: rest, .error e, st⟩
    | (.ok false, x, last, st) => dedup f dropper (kept ++ [last]) x dropped rest st
    | (.ok true, x, last, st) =>
      match dropper st x with
      | (.error e, st) => ⟨kept ++ [last], dropped ++ [x], rest, .error e, st⟩
      | (.ok _, st) => dedup f dropper kept last (dropped ++ [x]) rest st

section Facts

variable (f : SameBucket ε σ T) (dropper : Dropper ε σ T)

theorem dedup_length (kept : List T) (last : T) (dropped rest : List T) (st : σ) :
    let s := dedup f dropper kept last dropped rest st
    s.kept.length+s.dropped.length+s.rest.length =
      (kept ++ [last]).length+dropped.length+rest.length := by
  induction rest generalizing kept last dropped st with
  | nil => rfl
  | cons x rest ih =>
    rw [dedup]
    rcases f st x last with ⟨e | _ | _, x', last', st'⟩
    · simp
    · dsimp only
      rw [ih]
      simp only [List.length_append, List.length_cons, List.length_nil]
      lia
    · dsimp only
      rcases dropper st' x' with ⟨e | _, st''⟩
      · simp only [List.length_append, List.length_cons, List.length_nil]
        lia
      · dsimp only
        rw [ih]
        simp only [List.length_append, List.length_cons, List.length_nil]
        lia

theorem dedup_ok (kept : List T) (last : T) (dropped rest : List T) (st : σ)
    (h : (dedup f dropper kept last dropped rest st).result = .ok ()) :
    (dedup f dropper kept last dropped rest st).rest = [] := by
  induction rest generalizing kept last dropped st with
  | nil => rfl
  | cons x rest ih =>
    rw [dedup] at h ⊢
    rcases hf : f st x last with ⟨e | _ | _, x', last', st'⟩
    · rw [hf] at h
      cases h
    · rw [hf] at h
      exact ih _ _ _ _ h
    · rw [hf] at h
      dsimp only at h ⊢
      rcases hd : dropper st' x' with ⟨e | _, st''⟩
      · rw [hd] at h
        cases h
      · rw [hd] at h
        exact ih _ _ _ _ h

end Facts

/-! ## The loops follow the calls -/

theorem wrapSub_eq {a b : ℕ} (h : b ≤ a) : wrapSub a b = a-b := if_pos h

/-- The guard behind the elements `w`, with the gap of the elements `g`. -/
def gapOpened (d : List T) (k len : ℕ) (w g rest : List T) : FillGap T :=
  ⟨w.length+g.length, w.length, ⟨gapped w g.length rest k, len, d ++ g⟩⟩

section Runs

variable {f : SameBucket ε σ T} {dropper : Dropper ε σ T} {kept w g rest d : List T}
  {last last' x x' : T} {n k len : ℕ} {st st' : σ}

theorem FillGap.onVec_run {β : Type} {m : M ε σ (RawVec T) β} {gap : FillGap T} {vec : RawVec T}
    {r : Except (Exit ε) β} (h : m gap.vec st = (r, vec, st')) :
    FillGap.onVec m gap st = (r, { gap with vec }, st') :=
  onPart_run h

theorem callPair_gapped {i : ℕ} {r : Except ε Bool} (hi : (kept ++ [last]).length+n = i)
    (hf : f st x last = (r, x', last', st')) :
    callPair f i kept.length ⟨gapped (kept ++ [last]) n (x :: rest) k, len, d⟩ st =
      (r.mapError .unwind, ⟨gapped (kept ++ [last']) n (x' :: rest) k, len, d⟩, st') := by
  have hne : i ≠ kept.length := by
    rw [List.length_append, List.length_singleton] at hi
    lia
  have hset (l : T) : (kept ++ [l]).length+n = i := by
    rw [← hi, List.length_append, List.length_append]
    rfl
  rw [callPair]
  simp only [peek_gapped hi, peek_gapped_last, if_neg hne, hf, set_gapped hi, set_gapped_last]

theorem callPair_opened {r : Except ε Bool} (hf : f st x last = (r, x', last', st')) :
    FillGap.onVec (callPair f ((kept ++ [last]).length+g.length)
        (wrapSub (kept ++ [last]).length 1)) (gapOpened d k len (kept ++ [last]) g (x :: rest)) st =
      (r.mapError .unwind, gapOpened d k len (kept ++ [last']) g (x' :: rest), st') := by
  have hprev : wrapSub (kept ++ [last]).length 1 = kept.length := by
    rw [wrapSub_eq (by simp), List.length_append, List.length_singleton, Nat.add_sub_cancel]
  rw [hprev]
  apply (FillGap.onVec_run (callPair_gapped rfl hf)).trans
  simp only [gapOpened, List.length_append, List.length_cons, List.length_nil]

theorem delete_opened {r : Except ε Unit} (hd : dropper st x = (r, st')) :
    FillGap.delete dropper (gapOpened d k len w g (x :: rest)) st =
      (r.mapError .unwind, gapOpened d k len w (g ++ [x]) rest, st') := by
  have hread := read_gapped (x := x) (r := rest) (k := k) (Eq.refl (w.length+g.length))
  rw [FillGap.delete, get_run, put_run]
  apply (FillGap.onVec_run (dropInPlace_run hread)).trans
  rw [hd]
  simp only [gapOpened, List.length_append, List.length_cons, List.length_nil, List.append_assoc]
  rfl

theorem keep_opened (hg : 0 < g.length) :
    (FillGap.keep : M ε σ (FillGap T) Unit) (gapOpened d k len w g (x :: rest)) st =
      (.ok (), gapOpened d k len (w ++ [x]) g rest, st) := by
  have hmove := copyNonoverlapping_gapped (x := x) (r := rest) (k := k) hg
    (Eq.refl (w.length+g.length))
  rw [Nat.add_sub_cancel] at hmove
  rw [FillGap.keep, get_run]
  apply (bind_run (FillGap.onVec_run (onSlots_run hmove))).trans
  simp only [get_run, put, gapOpened, List.length_append, List.length_cons, List.length_nil]
  congr 3
  lia

theorem dedupLoop_opened {fuel : ℕ}
    (hlen : len = (kept ++ [last]).length+g.length+rest.length) (hfuel : rest.length < fuel)
    (hg : 0 < g.length) :
    dedupLoop f dropper len fuel (gapOpened d k len (kept ++ [last]) g rest) st =
      let s := dedup f dropper kept last g rest st
      (s.result.mapError .unwind, gapOpened d k len s.kept s.dropped s.rest, s.env) := by
  induction rest generalizing kept last g st fuel with
  | nil =>
    obtain ⟨fuel, rfl⟩ : ∃ m, fuel = m+1 := ⟨fuel-1, by lia⟩
    have hend : ¬ (gapOpened d k len (kept ++ [last]) g []).read < len := by
      rw [hlen]
      simp only [gapOpened, List.length_nil]
      lia
    rw [dedupLoop, get_run, dedup]
    exact ite_run_neg hend
  | cons x rest ih =>
    obtain ⟨fuel, rfl⟩ : ∃ m, fuel = m+1 := ⟨fuel-1, by lia⟩
    rw [List.length_cons] at hlen hfuel
    have hin : (gapOpened d k len (kept ++ [last]) g (x :: rest)).read < len := by
      simp only [gapOpened]
      lia
    rw [dedupLoop, get_run, dedup]
    apply (ite_run_pos hin).trans
    rcases hf : f st x last with ⟨e | _ | _, x', last', st'⟩
    · exact bind_run_error (callPair_opened hf)
    · apply (bind_run (callPair_opened hf)).trans
      apply (bind_run (keep_opened hg)).trans
      apply ih
      · simp only [List.length_append, List.length_cons, List.length_nil] at hlen ⊢
        lia
      · lia
      · exact hg
    · apply (bind_run (callPair_opened hf)).trans
      dsimp only
      rcases hd : dropper st' x' with ⟨e | _, st''⟩
      · exact bind_run_error (delete_opened hd)
      · apply (bind_run (delete_opened hd)).trans
        apply ih
        · simp only [List.length_append, List.length_cons, List.length_nil] at hlen ⊢
          lia
        · lia
        · rw [List.length_append]
          lia

theorem drop_opened (hlen : len = w.length+g.length+rest.length) :
    (FillGap.drop : M ε σ (FillGap T) Unit) (gapOpened d k len w g rest) st =
      (.ok (), ⟨w.length+g.length, w.length, RawVec.of (w ++ rest) (g.length+k) (d ++ g)⟩, st) := by
  have hleft : wrapSub len (w.length+g.length) = rest.length := by
    rw [wrapSub_eq (by lia)]
    lia
  have hgap : wrapSub (w.length+g.length) w.length = g.length := by
    rw [wrapSub_eq (by lia)]
    lia
  have hnew : len-g.length = (w ++ rest).length := by
    rw [List.length_append]
    lia
  have hmove := copy_gapped (r := rest) (k := k) (Eq.refl (w.length+g.length))
  rw [Nat.add_sub_cancel, ← hleft] at hmove
  rw [FillGap.drop, get_run]
  apply (bind_run (FillGap.onVec_run (onSlots_run hmove))).trans
  rw [FillGap.onVec_run (r := .ok ()) rfl]
  simp only [gapOpened, RawVec.of, hgap, hnew]

def Deduped.out (s : Deduped ε σ T) (d : List T) (k : ℕ) :
    Except (Exit ε) Unit × RawVec T × σ :=
  (s.result.mapError .unwind, RawVec.of (s.kept ++ s.rest) (s.dropped.length+k) (d ++ s.dropped),
    s.env)

theorem firstDrop_opened {r : Except ε Unit} (hd : dropper st x = (r, st')) :
    FillGap.onVec (dropInPlace dropper w.length)
        (⟨w.length+1, w.length, ⟨gapped w 0 (x :: rest) k, len, d⟩⟩ : FillGap T) st =
      (r.mapError .unwind, gapOpened d k len w [x] rest, st') := by
  have hread := read_gapped (x := x) (r := rest) (k := k) (Nat.add_zero w.length)
  apply (FillGap.onVec_run (dropInPlace_run hread)).trans
  rw [hd]
  rfl

theorem guarded_opened {s : Deduped ε σ T} {gap : FillGap T}
    (hlen : len = s.kept.length+s.dropped.length+s.rest.length)
    (hrest : s.result = .ok () → s.rest = [])
    (h : dropAndCompare f dropper len gap st =
      (s.result.mapError .unwind, gapOpened d k len s.kept s.dropped s.rest, s.env)) :
    ∃ gap', onFailure (dedupGap f dropper len) FillGap.drop gap st =
      (s.result.mapError .unwind, gap', s.env) ∧
      gap'.vec = RawVec.of (s.kept ++ s.rest) (s.dropped.length+k) (d ++ s.dropped) := by
  rcases hs : s.result with e | u
  · rw [hs] at h
    have hbody : dedupGap f dropper len gap st =
        (.error (.unwind e), gapOpened d k len s.kept s.dropped s.rest, s.env) := bind_run_error h
    exact ⟨_, onFailure_unwind hbody (drop_opened hlen), rfl⟩
  · rw [hs] at h
    have hnil := hrest hs
    have hbody : dedupGap f dropper len gap st =
        (.ok (), { gapOpened d k len s.kept s.dropped s.rest with
          vec := ⟨gapped s.kept s.dropped.length s.rest k, s.kept.length, d ++ s.dropped⟩ },
          s.env) := by
      apply (bind_run h).trans
      rw [get_run]
      exact FillGap.onVec_run rfl
    refine ⟨_, onFailure_ok hbody, ?_⟩
    rw [hnil, RawVec.of, List.append_nil, ← gapped_nil]

theorem removeFrom_gapped (hlen : len = (kept ++ [last]).length+(x :: rest).length) :
    removeFrom f dropper len (kept ++ [last]).length
        ⟨gapped (kept ++ [last]) 0 (x :: rest) k, len, d⟩ st =
      Deduped.out (match dropper st x with
        | (.error e, st) => ⟨kept ++ [last], [x], rest, .error e, st⟩
        | (.ok _, st) => dedup f dropper kept last [x] rest st) d k := by
  have hne : (kept ++ [last]).length ≠ len := by
    rw [hlen, List.length_cons]
    lia
  have hout {s : Deduped ε σ T} (hl : len = s.kept.length+s.dropped.length+s.rest.length)
      (hrest : s.result = .ok () → s.rest = [])
      (h : dropAndCompare f dropper len ⟨(kept ++ [last]).length+1, (kept ++ [last]).length,
          ⟨gapped (kept ++ [last]) 0 (x :: rest) k, len, d⟩⟩ st =
        (s.result.mapError .unwind, gapOpened d k len s.kept s.dropped s.rest, s.env)) :
      removeFrom f dropper len (kept ++ [last]).length
        ⟨gapped (kept ++ [last]) 0 (x :: rest) k, len, d⟩ st = s.out d k := by
    obtain ⟨gap', hrun, hvec⟩ := guarded_opened hl hrest h
    rw [removeFrom, if_neg hne]
    unfold onPart
    rw [hrun, Deduped.out, ← hvec]
  rcases hd : dropper st x with ⟨e | _, st'⟩
  · apply hout
    · simp only [List.length_append, List.length_cons, List.length_nil] at hlen ⊢
      lia
    · intro h
      cases h
    · rw [dropAndCompare, get_run]
      exact bind_run_error (firstDrop_opened hd)
  · apply hout
    · rw [dedup_length]
      simp only [List.length_append, List.length_cons, List.length_nil] at hlen ⊢
      lia
    · exact dedup_ok f dropper kept last [x] rest st'
    · rw [dropAndCompare, get_run]
      apply (bind_run (firstDrop_opened hd)).trans
      apply dedupLoop_opened
      · simp only [List.length_append, List.length_cons, List.length_nil] at hlen ⊢
        lia
      · simp only [List.length_append, List.length_cons, List.length_nil] at hlen
        lia
      · exact Nat.one_pos

theorem dedupBy_search {fuel : ℕ} (hlen : len = (kept ++ [last]).length+rest.length)
    (hfuel : rest.length < fuel) :
    (firstDuplicate f len fuel (kept ++ [last]).length >>= removeFrom f dropper len)
        ⟨gapped (kept ++ [last]) 0 rest k, len, d⟩ st =
      (dedup f dropper kept last [] rest st).out d k := by
  induction rest generalizing kept last st fuel with
  | nil =>
    obtain ⟨fuel, rfl⟩ : ∃ m, fuel = m+1 := ⟨fuel-1, by lia⟩
    have heq : (kept ++ [last]).length = len := by
      rw [hlen, List.length_nil, Nat.add_zero]
    rw [firstDuplicate, if_neg (not_not.mpr heq)]
    apply (bind_run rfl).trans
    rw [removeFrom, if_pos heq, Deduped.out, dedup]
    simp only [RawVec.of, List.append_nil, List.length_nil, Nat.zero_add, heq, gapped_zero]
    rfl
  | cons x rest ih =>
    obtain ⟨fuel, rfl⟩ : ∃ m, fuel = m+1 := ⟨fuel-1, by lia⟩
    have hne : (kept ++ [last]).length ≠ len := by
      rw [hlen, List.length_cons]
      lia
    have hprev : wrapSub (kept ++ [last]).length 1 = kept.length := by
      rw [wrapSub_eq (by simp), List.length_append, List.length_singleton, Nat.add_sub_cancel]
    rw [List.length_cons] at hlen hfuel
    rw [firstDuplicate, if_pos hne, hprev, dedup]
    rcases hf : f st x last with ⟨e | _ | _, x', last', st'⟩
    · apply (bind_run_error (bind_run_error (callPair_gapped (Nat.add_zero _) hf))).trans
      have hl : len = (kept ++ [last'] ++ x' :: rest).length := by
        simp only [List.length_append, List.length_cons, List.length_nil] at hlen ⊢
        lia
      simp only [Deduped.out, RawVec.of, List.append_nil, List.length_nil, Nat.zero_add,
        gapped_zero, hl]
      rfl
    · have hlast : (kept ++ [last]).length+1 = (kept ++ [last'] ++ [x']).length := by
        simp only [List.length_append, List.length_cons, List.length_nil]
      apply (bind_run_congr (bind_run (callPair_gapped (Nat.add_zero _) hf))).trans
      dsimp only
      rw [gapped_keep, hlast]
      apply ih
      · rw [← hlast]
        lia
      · lia
    · have hlast : (kept ++ [last]).length = (kept ++ [last']).length := by
        simp only [List.length_append, List.length_cons, List.length_nil]
      apply (bind_run (bind_run (callPair_gapped (Nat.add_zero _) hf))).trans
      rw [hlast]
      apply (removeFrom_gapped _).trans
      · rfl
      · rw [← hlast, List.length_cons]
        exact hlen

end Runs

section Whole

variable (f : SameBucket ε σ T) (dropper : Dropper ε σ T)

theorem dedupBy_run (x : T) (l d : List T) (k : ℕ) (st : σ) :
    dedupBy f dropper (RawVec.of (x :: l) k d) st =
      (dedup f dropper [] x [] l st).out d k := by
  have hstart : RawVec.of (x :: l) k d = ⟨gapped [x] 0 l k, (x :: l).length, d⟩ := by
    rw [RawVec.of, gapped_zero]
    rfl
  rw [dedupBy, get_run]
  cases l with
  | nil =>
    apply (ite_run_pos (Nat.le_refl 1)).trans
    rw [hstart, dedup, Deduped.out, gapped_zero]
    simp only [RawVec.of, List.nil_append, List.append_nil, List.length_nil, Nat.zero_add]
    rfl
  | cons y l =>
    have hlong : ¬ (RawVec.of (x :: y :: l) k d).len ≤ 1 := by
      simp [RawVec.of]
    apply (ite_run_neg hlong).trans
    rw [hstart]
    have hlen : (x :: y :: l).length = (([] : List T) ++ [x]).length+(y :: l).length :=
      Nat.add_comm _ _
    exact dedupBy_search hlen (Nat.lt_succ_self _)

theorem dedupBy_nil (k : ℕ) (d : List T) (st : σ) :
    dedupBy f dropper (RawVec.of [] k d) st = (.ok (), RawVec.of [] k d, st) := rfl

end Whole

/-! ## Every element is kept, dropped or not processed -/

/-- What comparisons make of an element. -/
def Compared (f : SameBucket ε σ T) : T → T → Prop :=
  Relation.ReflTransGen fun x y => ∃ st z, y = (f st x z).2.1 ∨ y = (f st z x).2.2.1

section Ledger

variable {f : SameBucket ε σ T} {dropper : Dropper ε σ T}

theorem compared_refl (f : SameBucket ε σ T) (m : Multiset T) : Multiset.Rel (Compared f) m m :=
  Multiset.rel_refl_of_refl_on fun _ _ => Relation.ReflTransGen.refl

theorem compared_step {st st' : σ} {x x' y y' : T} {r : Except ε Bool}
    (hf : f st x y = (r, x', y', st')) (m : Multiset T) :
    Multiset.Rel (Compared f) (y ::ₘ x ::ₘ m) (y' ::ₘ x' ::ₘ m) := by
  have hx : Compared f x x' := Relation.ReflTransGen.single ⟨st, y, .inl (by rw [hf])⟩
  have hy : Compared f y y' := Relation.ReflTransGen.single ⟨st, x, .inr (by rw [hf])⟩
  exact Multiset.Rel.cons hy (Multiset.Rel.cons hx (compared_refl f m))

theorem dedup_compared (kept : List T) (last : T) (dropped rest : List T) (st : σ) :
    let s := dedup f dropper kept last dropped rest st
    Multiset.Rel (Compared f) (kept ++ last :: (dropped ++ rest) : List T)
      (s.kept ++ s.rest ++ s.dropped : List T) := by
  induction rest generalizing kept last dropped st with
  | nil =>
    have hperm : (kept ++ last :: (dropped ++ [])).Perm (kept ++ [last] ++ [] ++ dropped) := by
      simp
    rw [Multiset.coe_eq_coe.mpr hperm]
    exact compared_refl f _
  | cons x rest ih =>
    have hstart : (kept ++ last :: (dropped ++ x :: rest)).Perm
        (last :: x :: (kept ++ dropped ++ rest)) := by
      classical
      rw [List.perm_iff_count]
      intro a
      simp only [List.count_append, List.count_cons]
      lia
    rw [Multiset.coe_eq_coe.mpr hstart, dedup]
    have hcont {s : Deduped ε σ T} {x' last' : T} {st' : σ} {r : Except ε Bool}
        (hf : f st x last = (r, x', last', st')) {l : List T}
        (hl : l.Perm (last' :: x' :: (kept ++ dropped ++ rest)))
        (h : Multiset.Rel (Compared f) (l : List T) (s.kept ++ s.rest ++ s.dropped : List T)) :
        Multiset.Rel (Compared f) (last :: x :: (kept ++ dropped ++ rest) : List T)
          (s.kept ++ s.rest ++ s.dropped : List T) := by
      have hstep := compared_step hf (kept ++ dropped ++ rest : List T)
      rw [Multiset.coe_eq_coe.mpr hl] at h
      have : IsTrans T (Compared f) := ⟨fun _ _ _ h h' => Relation.ReflTransGen.trans h h'⟩
      exact Multiset.Rel.trans _ hstep h
    rcases hf : f st x last with ⟨e | _ | _, x', last', st'⟩
    · apply hcont hf _ (compared_refl f _)
      classical
      rw [List.perm_iff_count]
      intro a
      simp only [List.count_append, List.count_cons, List.count_nil]
      lia
    · apply hcont hf _ (ih _ _ _ _)
      classical
      rw [List.perm_iff_count]
      intro a
      simp only [List.count_append, List.count_cons, List.count_nil]
      lia
    · dsimp only
      rcases dropper st' x' with ⟨e | _, st''⟩
      · apply hcont hf _ (compared_refl f _)
        classical
        rw [List.perm_iff_count]
        intro a
        simp only [List.count_append, List.count_cons, List.count_nil]
        lia
      · apply hcont hf _ (ih _ _ _ _)
        classical
        rw [List.perm_iff_count]
        intro a
        simp only [List.count_append, List.count_cons, List.count_nil]
        lia

theorem dedup_returns (hf : ∀ st x y, ∃ b, (f st x y).1 = .ok b)
    (hd : ∀ st x, (dropper st x).1 = .ok ()) (kept : List T) (last : T) (dropped rest : List T)
    (st : σ) : (dedup f dropper kept last dropped rest st).result = .ok () := by
  induction rest generalizing kept last dropped st with
  | nil => rfl
  | cons x rest ih =>
    obtain ⟨b, hb⟩ := hf st x last
    rw [dedup]
    rcases hcall : f st x last with ⟨e | _ | _, x', last', st'⟩
    · rw [hcall] at hb
      cases hb
    · exact ih _ _ _ _
    · have hok := hd st' x'
      dsimp only
      rcases hdrop : dropper st' x' with ⟨e | _, st''⟩
      · rw [hdrop] at hok
        cases hok
      · exact ih _ _ _ _

theorem dedup_destutter {same : T → T → Bool} (hf : ∀ st x y, f st x y = (.ok (same x y), x, y, st))
    (hd : ∀ st x, (dropper st x).1 = .ok ()) (kept : List T) (last : T) (dropped rest : List T)
    (st : σ) : (dedup f dropper kept last dropped rest st).kept =
      kept ++ rest.destutter' (fun y x => same x y = false) last := by
  induction rest generalizing kept last dropped st with
  | nil => rfl
  | cons x rest ih =>
    rw [dedup, hf]
    cases hs : same x last with
    | false =>
      dsimp only
      rw [ih, List.destutter'_cons, if_pos hs, List.append_assoc]
      rfl
    | true =>
      have hok := hd st x
      dsimp only
      rcases hdrop : dropper st x with ⟨e | _, st''⟩
      · rw [hdrop] at hok
        cases hok
      · dsimp only
        rw [ih, List.destutter'_cons, if_neg (by simp [hs])]

end Ledger

/-- `dedup_by` with any comparison: the vector has the elements that were kept and those that were
not processed, from the one under test on if its comparison unwinds and after it if its destructor
does, and every other element is dropped once. -/
theorem dedupBy_keeps (f : SameBucket ε σ T) (dropper : Dropper ε σ T) (d : List T) (k : ℕ)
    (st : σ) :
    dedupBy f dropper (RawVec.of [] k d) st = (.ok (), RawVec.of [] k d, st) ∧
    ∀ (x : T) (l : List T),
      let s := dedup f dropper [] x [] l st
      dedupBy f dropper (RawVec.of (x :: l) k d) st = (s.result.mapError .unwind,
        RawVec.of (s.kept ++ s.rest) (s.dropped.length+k) (d ++ s.dropped), s.env) ∧
      Multiset.Rel (Compared f) (x :: l : List T) (s.kept ++ s.rest ++ s.dropped : List T) ∧
      (s.result = .ok () → s.rest = []) ∧
      ((∀ st x y, ∃ b, (f st x y).1 = .ok b) → (∀ st x, (dropper st x).1 = .ok ()) →
        s.result = .ok ()) ∧
      ∀ same : T → T → Bool, (∀ st x y, f st x y = (.ok (same x y), x, y, st)) →
        (∀ st x, (dropper st x).1 = .ok ()) →
        s.kept ++ s.rest = (x :: l).destutter fun y x => same x y = false := by
  refine ⟨dedupBy_nil f dropper k d st, ?_⟩
  intro x l s
  refine ⟨dedupBy_run f dropper x l d k st, dedup_compared [] x [] l st,
    dedup_ok f dropper [] x [] l st, ?_, ?_⟩
  · intro hf hd
    exact dedup_returns hf hd [] x [] l st
  · intro same hf hd
    have hcalls : ∀ st x y, ∃ b, (f st x y).1 = .ok b := fun st x y => ⟨same x y, by rw [hf]⟩
    have hrest : s.rest = [] :=
      dedup_ok f dropper [] x [] l st (dedup_returns hcalls hd [] x [] l st)
    rw [hrest, List.append_nil]
    exact dedup_destutter hf hd [] x [] l st

end RustStd.Vec
