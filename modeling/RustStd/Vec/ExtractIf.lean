import RustStd.Vec.RetainMut

/-!
# `Vec::extract_if`

Each call of `next` inspects elements until the predicate drains one. The iterator may be
dropped after any number of calls, and calls that unwind are among them. The vector then
has the elements around the range, those that were kept and those not inspected.
-/

set_option autoImplicit false

namespace RustStd.Vec
open RustStd.Unwind RustStd.Slots

variable {ε σ T : Type}

structure ExtractIf (T : Type) where
  vec : RawVec T
  idx : ℕ
  stop : ℕ
  del : ℕ
  oldLen : ℕ

namespace ExtractIf

def onVec {β : Type} (m : M ε σ (RawVec T) β) : M ε σ (ExtractIf T) β :=
  onPart ExtractIf.vec (fun vec it => { it with vec }) m

def drained (i : ℕ) : M ε σ (ExtractIf T) (Option T) := do
  let it ← get
  put { it with del := it.del+1 }
  let x ← onVec (readAt i)
  return some x

def advance : M ε σ (ExtractIf T) Unit := do
  let it ← get
  put { it with idx := it.idx+1 }

def fillHole (i : ℕ) : M ε σ (ExtractIf T) Unit := do
  let it ← get
  if it.del > 0 then onVec (onSlots fun s => copyNonoverlapping s i (i-it.del) 1) else pure ()

def nextLoop (f : Predicate ε σ T) : ℕ → M ε σ (ExtractIf T) (Option T)
  | 0 => exit .outOfFuel
  | fuel+1 => do
    let it ← get
    if it.idx < it.stop then do
      let i := it.idx
      let extract ← onVec (callAt f i)
      advance
      if extract then drained i
      else do
        fillHole i
        nextLoop f fuel
    else pure none

def next (f : Predicate ε σ T) : M ε σ (ExtractIf T) (Option T) := do
  let it ← get
  nextLoop f (it.stop-it.idx+1)

def drop : M ε σ (ExtractIf T) Unit := do
  let it ← get
  if it.del > 0 then do
    onVec (onSlots fun s => copy s it.idx (it.idx-it.del) (it.oldLen-it.idx))
    onVec (setLen (it.oldLen-it.del))
  else onVec (setLen (it.oldLen-it.del))

/-- `n` calls of `next` with their results, unwinds among them. -/
def calls (f : Predicate ε σ T) : ℕ → M ε σ (ExtractIf T) (List (Except ε (Option T)))
  | 0 => pure []
  | n+1 => do
    let r ← caught (next f)
    let rs ← calls f n
    return r :: rs

end ExtractIf

/-- `extract_if`, calls of `next`, and the destructor. A range that is not in the vector
unwinds with `rangeError`. -/
def extractIf (f : Predicate ε σ T) (rangeError : ε) (start stop n : ℕ) :
    M ε σ (RawVec T) (List (Except ε (Option T))) := do
  let v ← get
  if start ≤ stop ∧ stop ≤ v.len then do
    setLen 0
    onPart (fun vec => ⟨vec, start, stop, 0, v.len⟩) (fun it _ => it.vec)
      (onExit (ExtractIf.calls f n) ExtractIf.drop)
  else exit (.unwind rangeError)

/-! ## What is drawn -/

/-- One call: the result, the processed elements, the rest, the state. -/
def draw (f : Predicate ε σ T) (p : Processed T) :
    List T → σ → Except ε (Option T) × Processed T × List T × σ
  | [], st => (.ok none, p, [], st)
  | x :: rest, st =>
    match f st x with
    | (.error e, y, st) => (.error e, p, y :: rest, st)
    | (.ok true, y, st) => (.ok (some y), p ++ [(y, false)], rest, st)
    | (.ok false, y, st) => draw f (p ++ [(y, true)]) rest st

def draws (f : Predicate ε σ T) : ℕ → Processed T → List T → σ →
    List (Except ε (Option T)) × Processed T × List T × σ
  | 0, p, rest, st => ([], p, rest, st)
  | n+1, p, rest, st =>
    let (r, p, rest, st) := draw f p rest st
    let (rs, p, rest, st) := draws f n p rest st
    (r :: rs, p, rest, st)

def yielded (rs : List (Except ε (Option T))) : List T := rs.filterMap fun r => r.toOption.join

theorem draw_length (f : Predicate ε σ T) (p : Processed T) (rest : List T) (st : σ) :
    (draw f p rest st).2.1.length+(draw f p rest st).2.2.1.length = p.length+rest.length := by
  induction rest generalizing p st with
  | nil => rfl
  | cons x rest ih =>
    rw [draw]
    rcases f st x with ⟨e | _ | _, y, st'⟩
    · rfl
    · dsimp only
      rw [ih]
      exact length_processed p y true rest
    · exact length_processed p y false rest

theorem draws_length (f : Predicate ε σ T) (n : ℕ) (p : Processed T) (rest : List T) (st : σ) :
    (draws f n p rest st).2.1.length+(draws f n p rest st).2.2.1.length =
      p.length+rest.length := by
  induction n generalizing p rest st with
  | zero => rfl
  | succ n ih => rw [draws, ih, draw_length]

namespace ExtractIf

/-- The iterator behind the elements `a`, with `p` processed and `rest` to inspect. -/
def drawn (a b d : List T) (k n z : ℕ) (p : Processed T) (rest : List T) : ExtractIf T :=
  ⟨⟨gapped (a ++ kept p) (removed p).length (rest ++ b) k, 0, d⟩, a.length+p.length, z,
    (removed p).length, n⟩

section Runs

variable {f : Predicate ε σ T} {a b d : List T} {k n z : ℕ} {p : Processed T} {rest : List T}
  {x y : T} {st st' : σ}

theorem length_drawn (a : List T) (p : Processed T) :
    (a ++ kept p).length+(removed p).length = a.length+p.length := by
  rw [List.length_append, Nat.add_assoc, length_kept_add]

theorem onVec_run {β : Type} {m : M ε σ (RawVec T) β} {it : ExtractIf T} {vec : RawVec T}
    {r : Except (Exit ε) β} (h : m it.vec st = (r, vec, st')) :
    onVec m it st = (r, { it with vec }, st') :=
  onPart_run h

theorem callAt_drawn {r : Except ε Bool} (hf : f st x = (r, y, st')) :
    onVec (callAt f (a.length+p.length)) (drawn a b d k n z p (x :: rest)) st =
      (r.mapError .unwind, drawn a b d k n z p (y :: rest), st') := by
  rw [onVec_run (callAt_run (peek_gapped (length_drawn a p))), hf]
  simp only [drawn, List.cons_append, set_gapped (length_drawn a p)]

theorem drained_drawn :
    (advance >>= fun _ => drained (a.length+p.length) : M ε σ (ExtractIf T) (Option T))
      (drawn a b d k n z p (y :: rest)) st =
      (.ok (some y), drawn a b d k n z (p ++ [(y, false)]) rest, st) := by
  have hread := read_gapped (x := y) (r := rest ++ b) (k := k) (length_drawn a p)
  simp only [advance]
  apply (bind_run rfl).trans
  rw [drained, get_run, put_run]
  apply (bind_run (onVec_run (readAt_run hread))).trans
  simp only [drawn, kept_false, removed_false, List.length_append, List.length_cons,
    List.length_nil]
  rfl

theorem fillHole_drawn {m : M ε σ (ExtractIf T) (Option T)} :
    (advance >>= fun _ => fillHole (a.length+p.length) >>= fun _ => m)
      (drawn a b d k n z p (y :: rest)) st =
      m (drawn a b d k n z (p ++ [(y, true)]) rest) st := by
  simp only [advance]
  apply (bind_run rfl).trans
  apply bind_run
  rw [fillHole, get_run]
  by_cases hdel : 0 < (removed p).length
  · have hmove := copyNonoverlapping_gapped (x := y) (r := rest ++ b) (k := k) hdel
      (length_drawn a p)
    apply (ite_run_pos hdel).trans
    apply (onVec_run (onSlots_run hmove)).trans
    simp only [drawn, kept_true, removed_true, List.length_append, List.length_cons,
      List.length_nil, List.append_assoc]
    rfl
  · have hzero : (removed p).length = 0 := by omega
    apply (ite_run_neg hdel).trans
    simp only [drawn, kept_true, removed_true, List.length_append, List.length_cons,
      List.length_nil, hzero, List.cons_append, gapped_keep, List.append_assoc]
    rfl

theorem nextLoop_drawn {fuel : ℕ} (hz : z = a.length+p.length+rest.length)
    (hfuel : rest.length < fuel) :
    nextLoop f fuel (drawn a b d k n z p rest) st =
      let r := draw f p rest st
      (r.1.mapError .unwind, drawn a b d k n z r.2.1 r.2.2.1, r.2.2.2) := by
  induction rest generalizing p st fuel with
  | nil =>
    obtain ⟨fuel, rfl⟩ : ∃ m, fuel = m+1 := ⟨fuel-1, by omega⟩
    have hend : ¬ (drawn a b d k n z p []).idx < (drawn a b d k n z p []).stop := by
      simp only [drawn, hz, List.length_nil]
      omega
    rw [nextLoop, get_run, if_neg hend]
    rfl
  | cons x rest ih =>
    obtain ⟨fuel, rfl⟩ : ∃ m, fuel = m+1 := ⟨fuel-1, by omega⟩
    rw [List.length_cons] at hz hfuel
    have hin : (drawn a b d k n z p (x :: rest)).idx <
        (drawn a b d k n z p (x :: rest)).stop := by
      simp only [drawn, hz]
      omega
    rw [nextLoop, get_run, draw]
    apply (ite_run_pos hin).trans
    rcases hf : f st x with ⟨e | _ | _, y, st'⟩
    · exact bind_run_error (callAt_drawn hf)
    · apply (bind_run (callAt_drawn hf)).trans
      apply fillHole_drawn.trans
      apply ih
      · rw [List.length_append, List.length_singleton]
        omega
      · omega
    · apply (bind_run (callAt_drawn hf)).trans
      exact drained_drawn

theorem calls_drawn {m : ℕ} (hz : z = a.length+p.length+rest.length) :
    calls f m (drawn a b d k n z p rest) st =
      let r := draws f m p rest st
      (.ok r.1, drawn a b d k n z r.2.1 r.2.2.1, r.2.2.2) := by
  induction m generalizing p rest st with
  | zero => rfl
  | succ m ih =>
    have hnext : next f (drawn a b d k n z p rest) st =
        ((draw f p rest st).1.mapError .unwind,
          drawn a b d k n z (draw f p rest st).2.1 (draw f p rest st).2.2.1,
          (draw f p rest st).2.2.2) := by
      rw [next, get_run]
      apply nextLoop_drawn hz
      simp only [drawn]
      omega
    have hlen := draw_length f p rest st
    rw [calls, draws]
    apply (bind_run (caught_run hnext)).trans
    apply (bind_run (ih (by omega))).trans
    rfl

theorem drop_drawn (hz : z = a.length+p.length+rest.length) (hn : n = z+b.length) :
    (drop : M ε σ (ExtractIf T) Unit) (drawn a b d k n z p rest) st =
      (.ok (), { drawn a b d k n z p rest with
        vec := RawVec.of (a ++ kept p ++ rest ++ b) ((removed p).length+k) d }, st) := by
  have hfront := length_drawn a p
  have hsub : n-(a.length+p.length) = (rest ++ b).length := by
    rw [List.length_append]
    omega
  have hnew : n-(removed p).length = (a ++ kept p ++ rest ++ b).length := by
    rw [List.length_append, List.length_append]
    omega
  rw [drop, get_run]
  by_cases hdel : 0 < (removed p).length
  · have hmove := copy_gapped (r := rest ++ b) (k := k) hfront
    rw [← hsub] at hmove
    apply (ite_run_pos hdel).trans
    apply (bind_run (onVec_run (onSlots_run hmove))).trans
    rw [onVec_run (r := .ok ()) rfl]
    simp only [drawn, RawVec.of, hnew, List.append_assoc]
  · have hzero : (removed p).length = 0 := by omega
    apply (ite_run_neg hdel).trans
    rw [onVec_run (r := .ok ()) rfl]
    rw [hzero] at hnew
    simp only [drawn, RawVec.of, hnew, hzero, gapped_zero, Nat.zero_add, List.append_assoc]

end Runs

end ExtractIf

section Ledger

variable {f : Predicate ε σ T}

theorem draw_touched (p : Processed T) (rest : List T) (st : σ) : ∃ l,
    (draw f p rest st).2.1.map (·.1) ++ (draw f p rest st).2.2.1 = p.map (·.1) ++ l ∧
      List.Forall₂ (Touched f) rest l := by
  induction rest generalizing p st with
  | nil => exact ⟨[], rfl, List.Forall₂.nil⟩
  | cons x rest ih =>
    have hcall := touched_call f st x
    rw [draw]
    rcases hf : f st x with ⟨e | _ | _, y, st'⟩
    · rw [hf] at hcall
      exact ⟨y :: rest, rfl, List.Forall₂.cons hcall (touched_refl f rest)⟩
    · rw [hf] at hcall
      obtain ⟨l, heq, htouched⟩ := ih (p ++ [(y, true)]) st'
      refine ⟨y :: l, ?_, List.Forall₂.cons hcall htouched⟩
      dsimp only
      rw [heq, List.map_append, List.append_assoc]
      rfl
    · rw [hf] at hcall
      refine ⟨y :: rest, ?_, List.Forall₂.cons hcall (touched_refl f rest)⟩
      rw [List.map_append, List.append_assoc]
      rfl

theorem touched_trans {l₁ l₂ l₃ : List T} (h : List.Forall₂ (Touched f) l₁ l₂)
    (h' : List.Forall₂ (Touched f) l₂ l₃) : List.Forall₂ (Touched f) l₁ l₃ := by
  induction h generalizing l₃ with
  | nil => exact h'
  | cons hx _ ih =>
    cases h' with
    | cons hy hrest => exact List.Forall₂.cons (hx.trans hy) (ih hrest)

theorem draw_prefix (p : Processed T) (rest : List T) (st : σ) :
    ∃ q, (draw f p rest st).2.1 = p ++ q := by
  induction rest generalizing p st with
  | nil => exact ⟨[], (List.append_nil p).symm⟩
  | cons x rest ih =>
    rw [draw]
    rcases f st x with ⟨e | _ | _, y, st'⟩
    · exact ⟨[], (List.append_nil p).symm⟩
    · obtain ⟨q, hq⟩ := ih (p ++ [(y, true)]) st'
      exact ⟨(y, true) :: q, by dsimp only; rw [hq, List.append_assoc]; rfl⟩
    · exact ⟨[(y, false)], rfl⟩

theorem draws_touched (n : ℕ) (p : Processed T) (rest : List T) (st : σ) : ∃ l,
    (draws f n p rest st).2.1.map (·.1) ++ (draws f n p rest st).2.2.1 = p.map (·.1) ++ l ∧
      List.Forall₂ (Touched f) rest l := by
  induction n generalizing p rest st with
  | zero => exact ⟨rest, rfl, touched_refl f rest⟩
  | succ n ih =>
    obtain ⟨l, hl, htouched⟩ := draw_touched (f := f) p rest st
    obtain ⟨q, hq⟩ := draw_prefix (f := f) p rest st
    obtain ⟨l', hl', htouched'⟩ :=
      ih (draw f p rest st).2.1 (draw f p rest st).2.2.1 (draw f p rest st).2.2.2
    rw [hq, List.map_append, List.append_assoc, List.append_cancel_left_eq] at hl
    refine ⟨q.map (·.1) ++ l', hl'.trans ?_, ?_⟩
    · rw [hq, List.map_append, List.append_assoc]
    · rw [← hl] at htouched
      exact touched_trans htouched (List.rel_append (touched_refl f _) htouched')

theorem draw_removed (p : Processed T) (rest : List T) (st : σ) :
    removed (draw f p rest st).2.1 = removed p ++ yielded [(draw f p rest st).1] := by
  induction rest generalizing p st with
  | nil => exact (List.append_nil _).symm
  | cons x rest ih =>
    rw [draw]
    rcases f st x with ⟨e | _ | _, y, st'⟩
    · exact (List.append_nil _).symm
    · dsimp only
      rw [ih, removed_true]
    · exact removed_false

theorem draws_removed (n : ℕ) (p : Processed T) (rest : List T) (st : σ) :
    removed (draws f n p rest st).2.1 = removed p ++ yielded (draws f n p rest st).1 := by
  induction n generalizing p rest st with
  | zero => exact (List.append_nil _).symm
  | succ n ih =>
    rw [draws, ih, draw_removed, List.append_assoc, yielded, yielded, yielded,
      ← List.filterMap_append]
    rfl

theorem draw_rest_lt (hf : ∀ st x, ∃ b, (f st x).1 = .ok b) (p : Processed T) (rest : List T)
    (st : σ) : (draw f p rest st).2.2.1.length ≤ rest.length-1 := by
  induction rest generalizing p st with
  | nil => exact le_rfl
  | cons x rest ih =>
    obtain ⟨b, hb⟩ := hf st x
    rw [draw]
    rcases hcall : f st x with ⟨e | _ | _, y, st'⟩
    · rw [hcall] at hb
      cases hb
    · have hle := ih (p ++ [(y, true)]) st'
      rw [List.length_cons]
      dsimp only
      omega
    · exact le_rfl

theorem draws_rest (hf : ∀ st x, ∃ b, (f st x).1 = .ok b) {n : ℕ} (p : Processed T)
    (rest : List T) (st : σ) (hn : rest.length ≤ n) : (draws f n p rest st).2.2.1 = [] := by
  induction n generalizing p rest st with
  | zero => exact List.length_eq_zero_iff.mp (Nat.le_zero.mp hn)
  | succ n ih =>
    have hle := draw_rest_lt hf p rest st
    rw [draws]
    exact ih (draw f p rest st).2.1 (draw f p rest st).2.2.1 _ (by omega)

theorem draw_filter {q : T → Bool} (hf : ∀ st x, f st x = (.ok (q x), x, st)) (p : Processed T)
    (rest : List T) (st : σ) :
    kept (draw f p rest st).2.1 ++ (draw f p rest st).2.2.1.filter (!q ·) =
      kept p ++ rest.filter (!q ·) := by
  induction rest generalizing p st with
  | nil => rfl
  | cons x rest ih =>
    rw [draw, hf]
    cases hq : q x with
    | true =>
      dsimp only
      rw [kept_false, List.filter_cons_of_neg (by simp [hq])]
    | false =>
      dsimp only
      rw [ih, kept_true, List.filter_cons_of_pos (by simp [hq]), List.append_assoc]
      rfl

theorem draws_filter {q : T → Bool} (hf : ∀ st x, f st x = (.ok (q x), x, st)) (n : ℕ)
    (p : Processed T) (rest : List T) (st : σ) :
    kept (draws f n p rest st).2.1 ++ (draws f n p rest st).2.2.1.filter (!q ·) =
      kept p ++ rest.filter (!q ·) := by
  induction n generalizing p rest st with
  | zero => rfl
  | succ n ih => rw [draws, ih, draw_filter hf]

end Ledger

section Whole

variable (f : Predicate ε σ T) (rangeError : ε)

theorem extractIf_run (a l b d : List T) (k n : ℕ) (st : σ) :
    extractIf f rangeError a.length (a.length+l.length) n (RawVec.of (a ++ l ++ b) k d) st =
      let r := draws f n [] l st
      (.ok r.1, RawVec.of (a ++ kept r.2.1 ++ r.2.2.1 ++ b) ((removed r.2.1).length+k) d,
        r.2.2.2) := by
  have hrange : a.length ≤ a.length+l.length ∧
      a.length+l.length ≤ (RawVec.of (a ++ l ++ b) k d).len := by
    constructor
    · exact Nat.le_add_right _ _
    · change _ ≤ (a ++ l ++ b).length
      rw [List.length_append, List.length_append]
      omega
  have hz : a.length+l.length = a.length+([] : Processed T).length+l.length := by
    rw [List.length_nil, Nat.add_zero]
  have hn : (a ++ l ++ b).length = a.length+l.length+b.length := by
    rw [List.length_append, List.length_append]
  have hstart : (⟨⟨(RawVec.of (a ++ l ++ b) k d).slots, 0, d⟩, a.length, a.length+l.length, 0,
      (a ++ l ++ b).length⟩ : ExtractIf T) =
        ExtractIf.drawn a b d k (a ++ l ++ b).length (a.length+l.length) [] l := by
    simp only [ExtractIf.drawn, RawVec.of, kept, removed, List.filter_nil, List.map_nil,
      List.length_nil, gapped_zero, List.append_nil, List.append_assoc, Nat.add_zero]
  have hcalls : ExtractIf.calls f n
      ⟨⟨(RawVec.of (a ++ l ++ b) k d).slots, 0, d⟩, a.length, a.length+l.length, 0,
        (a ++ l ++ b).length⟩ st =
      (.ok (draws f n [] l st).1,
        ExtractIf.drawn a b d k (a ++ l ++ b).length (a.length+l.length) (draws f n [] l st).2.1
          (draws f n [] l st).2.2.1, (draws f n [] l st).2.2.2) := by
    rw [hstart]
    exact ExtractIf.calls_drawn hz
  have hlen := draws_length f n [] l st
  have hz' : a.length+l.length =
      a.length+(draws f n [] l st).2.1.length+(draws f n [] l st).2.2.1.length := by
    rw [hz]
    omega
  have hexit := onExit_run (r := .ok (draws f n [] l st).1) hcalls (ExtractIf.drop_drawn hz' hn)
  rw [extractIf, get_run]
  apply (ite_run_pos hrange).trans
  apply (bind_run (show setLen 0 (RawVec.of (a ++ l ++ b) k d) st = _ from rfl)).trans
  unfold onPart
  exact congrArg (fun r => (r.1, ExtractIf.vec r.2.1, r.2.2)) hexit

theorem extractIf_range {start stop n k : ℕ} {l d : List T} {st : σ}
    (h : ¬ (start ≤ stop ∧ stop ≤ l.length)) :
    extractIf f rangeError start stop n (RawVec.of l k d) st =
      (.error (.unwind rangeError), RawVec.of l k d, st) := by
  rw [extractIf, get_run]
  exact ite_run_neg h

/-- The elements `l`, as the calls left them, are kept, not processed or gone, each once. -/
structure Accounted (l : List T) (p : Processed T) (rest gone : List T) : Prop where
  touched : List.Forall₂ (Touched f) l (p.map (·.1) ++ rest)
  once : (kept p ++ rest ++ gone).Perm (p.map (·.1) ++ rest)

variable {f} in
theorem accounted {l : List T} {p : Processed T} {rest : List T}
    (h : ∃ l', p.map (·.1) ++ rest = ([] : Processed T).map (·.1) ++ l' ∧
      List.Forall₂ (Touched f) l l') : Accounted f l p rest (removed p) := by
  obtain ⟨l', heq, htouched⟩ := h
  constructor
  · rw [heq]
    exact htouched
  · have hswap : (kept p ++ rest ++ removed p).Perm (kept p ++ removed p ++ rest) := by
      rw [List.append_assoc, List.append_assoc]
      exact List.perm_append_comm.append_left _
    exact hswap.trans ((kept_append_removed p).append_right _)

/-- `retain_mut` and `extract_if` with any predicate, unwinds and early drops included: what is
kept and what is not processed stays in order, and every other element is dropped or yielded. A
predicate that does not unwind processes everything, and one that only looks is a filter. -/
theorem removal_keeps (drop : Dropper ε σ T) :
    (∀ (l d : List T) (k : ℕ) (st : σ),
      let s := sweep f drop [] l st
      retainMut f drop (RawVec.of l k d) st = (s.result.mapError .unwind,
        RawVec.of (kept s.processed ++ s.rest) ((removed s.processed).length+k)
          (d ++ removed s.processed), s.env) ∧
      Accounted f l s.processed s.rest (removed s.processed) ∧
      ((∀ st x, ∃ b, (f st x).1 = .ok b) → (∀ st x, (drop st x).1 = .ok ()) →
        s.rest = [] ∧ s.result = .ok ()) ∧
      ∀ q : T → Bool, (∀ st x, f st x = (.ok (q x), x, st)) →
        (∀ st x, (drop st x).1 = .ok ()) → kept s.processed ++ s.rest = l.filter q) ∧
    (∀ (a l b d : List T) (k n : ℕ) (st : σ),
      let r := draws f n [] l st
      extractIf f rangeError a.length (a.length+l.length) n (RawVec.of (a ++ l ++ b) k d) st =
        (.ok r.1, RawVec.of (a ++ kept r.2.1 ++ r.2.2.1 ++ b) ((yielded r.1).length+k) d,
          r.2.2.2) ∧
      Accounted f l r.2.1 r.2.2.1 (yielded r.1) ∧
      (l.length ≤ n → (∀ st x, ∃ b, (f st x).1 = .ok b) → r.2.2.1 = []) ∧
      ∀ q : T → Bool, l.length ≤ n → (∀ st x, f st x = (.ok (q x), x, st)) →
        kept r.2.1 ++ r.2.2.1 = l.filter (!q ·)) ∧
    ∀ (l d : List T) (k start stop n : ℕ) (st : σ), ¬ (start ≤ stop ∧ stop ≤ l.length) →
      extractIf f rangeError start stop n (RawVec.of l k d) st =
        (.error (.unwind rangeError), RawVec.of l k d, st) := by
  refine ⟨?_, ?_, fun _ _ _ _ _ _ _ h => extractIf_range f rangeError h⟩
  · intro l d k st s
    refine ⟨retainMut_run f drop l d k st, accounted (sweep_touched [] l st), ?_, ?_⟩
    · intro hf hdrop
      exact sweep_returns hf hdrop [] l st
    · intro q hf hdrop
      have hcalls : ∀ st x, ∃ b, (f st x).1 = .ok b := fun st x => ⟨q x, by rw [hf]⟩
      have hrest := (sweep_returns hcalls hdrop [] l st).1
      rw [hrest, List.append_nil]
      exact sweep_filter hf hdrop [] l st
  · intro a l b d k n st r
    have hgone : removed r.2.1 = yielded r.1 := draws_removed n [] l st
    refine ⟨?_, ?_, ?_, ?_⟩
    · rw [← hgone]
      exact extractIf_run f rangeError a l b d k n st
    · rw [← hgone]
      exact accounted (draws_touched n [] l st)
    · intro hn hf
      exact draws_rest hf [] l st hn
    · intro q hn hf
      have hcalls : ∀ st x, ∃ b, (f st x).1 = .ok b := fun st x => ⟨q x, by rw [hf]⟩
      have hrest : r.2.2.1 = [] := draws_rest hcalls [] l st hn
      have hfilter := draws_filter hf n [] l st
      change kept r.2.1 ++ r.2.2.1.filter (!q ·) = _ at hfilter
      rw [hrest, List.filter_nil] at hfilter
      rw [hrest]
      exact hfilter

end Whole

end RustStd.Vec
