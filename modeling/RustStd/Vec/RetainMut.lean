import RustStd.Vec.RawVec

/-!
# `Vec::retain_mut`

The predicate is called once on each element, in order, until it or a destructor unwinds.
The vector then has the elements that were kept and those that were not processed.
-/

set_option autoImplicit false

namespace RustStd.Vec
open RustStd.Unwind RustStd.Slots

variable {ε σ T : Type}

structure Backshift (T : Type) where
  v : RawVec T
  processedLen : ℕ
  deletedCnt : ℕ
  originalLen : ℕ

def onV {β : Type} (m : M ε σ (RawVec T) β) : M ε σ (Backshift T) β :=
  onPart Backshift.v (fun v g => { g with v }) m

def backshift : M ε σ (Backshift T) Unit := do
  let g ← get
  if g.deletedCnt > 0 then do
    onV (onSlots fun s =>
      copy s g.processedLen (g.processedLen-g.deletedCnt) (g.originalLen-g.processedLen))
    onV (setLen (g.originalLen-g.deletedCnt))
  else onV (setLen (g.originalLen-g.deletedCnt))

def advance (deleted : Bool) : M ε σ (Backshift T) Unit := do
  let g ← get
  put { g with processedLen := g.processedLen+1, deletedCnt := g.deletedCnt+deleted.toNat }

/-- A kept element fills the first hole. -/
def fillHole (deleted : Bool) : M ε σ (Backshift T) Unit := do
  let g ← get
  if deleted then do
    onV (onSlots fun s => copyNonoverlapping s g.processedLen (g.processedLen-g.deletedCnt) 1)
    advance false
  else advance false

/-- The counters are advanced before the destructor runs. -/
def delete (drop : Dropper ε σ T) : M ε σ (Backshift T) Unit := do
  let g ← get
  advance true
  onV (dropInPlace drop g.processedLen)

section Loops

variable (f : Predicate ε σ T) (drop : Dropper ε σ T)

def processLoop (deleted : Bool) : ℕ → M ε σ (Backshift T) Unit
  | 0 => exit .outOfFuel
  | fuel+1 => do
    let g ← get
    if g.processedLen ≠ g.originalLen then do
      let keep ← onV (callAt f g.processedLen)
      if !keep then do
        delete drop
        if deleted then processLoop deleted fuel else pure ()
      else do
        fillHole deleted
        processLoop deleted fuel
    else pure ()

def processLoops (originalLen : ℕ) : M ε σ (Backshift T) Unit := do
  processLoop f drop false (originalLen+1)
  processLoop f drop true (originalLen+1)

def retainMut : M ε σ (RawVec T) Unit := do
  let v ← get
  let originalLen := v.len
  if originalLen = 0 then pure ()
  else do
    setLen 0
    onPart (fun v => ⟨v, 0, 0, originalLen⟩) (fun g _ => g.v)
      (onExit (processLoops f drop originalLen) backshift)

end Loops

/-! ## What is kept -/

/-- Elements with the answers that kept or removed them. -/
abbrev Processed (T : Type) : Type := List (T × Bool)

def kept (p : Processed T) : List T := (p.filter (·.2)).map (·.1)

def removed (p : Processed T) : List T := (p.filter (!·.2)).map (·.1)

/-- How far the predicate came: the processed elements, the rest, how it ended. -/
structure Sweep (ε σ T : Type) where
  processed : Processed T
  rest : List T
  result : Except ε Unit
  env : σ

/-- The calls of the predicate and of the destructors, in order. An element is processed as the
call leaves it, and not processed if the call unwinds. -/
def sweep (f : Predicate ε σ T) (drop : Dropper ε σ T) (p : Processed T) :
    List T → σ → Sweep ε σ T
  | [], st => ⟨p, [], .ok (), st⟩
  | x :: rest, st =>
    match f st x with
    | (.error e, y, st) => ⟨p, y :: rest, .error e, st⟩
    | (.ok true, y, st) => sweep f drop (p ++ [(y, true)]) rest st
    | (.ok false, y, st) =>
      match drop st y with
      | (.error e, st) => ⟨p ++ [(y, false)], rest, .error e, st⟩
      | (.ok _, st) => sweep f drop (p ++ [(y, false)]) rest st

theorem sweep_cons (f : Predicate ε σ T) (drop : Dropper ε σ T) (p : Processed T) (x : T)
    (rest : List T) (st : σ) : sweep f drop p (x :: rest) st =
    match f st x with
    | (.error e, y, st) => ⟨p, y :: rest, .error e, st⟩
    | (.ok true, y, st) => sweep f drop (p ++ [(y, true)]) rest st
    | (.ok false, y, st) =>
      match drop st y with
      | (.error e, st) => ⟨p ++ [(y, false)], rest, .error e, st⟩
      | (.ok _, st) => sweep f drop (p ++ [(y, false)]) rest st := rfl

section Lists

variable {p : Processed T} {y : T}

theorem kept_true : kept (p ++ [(y, true)]) = kept p ++ [y] := by simp [kept]

theorem kept_false : kept (p ++ [(y, false)]) = kept p := by simp [kept]

theorem removed_true : removed (p ++ [(y, true)]) = removed p := by simp [removed]

theorem removed_false : removed (p ++ [(y, false)]) = removed p ++ [y] := by simp [removed]

theorem length_kept_add (p : Processed T) : (kept p).length+(removed p).length = p.length := by
  rw [kept, removed, List.length_map, List.length_map]
  have h := List.length_eq_length_filter_add (l := p) (·.2)
  exact h.symm

theorem kept_append_removed (p : Processed T) : (kept p ++ removed p).Perm (p.map (·.1)) := by
  rw [kept, removed, ← List.map_append]
  exact (List.filter_append_perm (·.2) p).map _

end Lists

/-! ## The loops follow the calls -/

/-- The guard of a vector of `n` elements after the processed ones. -/
def swept (d : List T) (k n : ℕ) (p : Processed T) (rest : List T) : Backshift T :=
  ⟨⟨gapped (kept p) (removed p).length rest k, 0, d ++ removed p⟩, p.length, (removed p).length, n⟩

def Sweep.run (d : List T) (k n : ℕ) (s : Sweep ε σ T) :
    Except (Exit ε) Unit × Backshift T × σ :=
  (s.result.mapError .unwind, swept d k n s.processed s.rest, s.env)

section Loops

variable {f : Predicate ε σ T} {drop : Dropper ε σ T} {d : List T} {k n : ℕ} {p : Processed T}
  {rest : List T} {x y : T} {st st' st'' : σ}

theorem onV_run {β : Type} {m : M ε σ (RawVec T) β} {g : Backshift T} {v : RawVec T}
    {r : Except (Exit ε) β} (h : m g.v st = (r, v, st')) :
    onV m g st = (r, { g with v }, st') :=
  onPart_run h

theorem callAt_swept {r : Except ε Bool} (hf : f st x = (r, y, st')) :
    onV (callAt f p.length) (swept d k n p (x :: rest)) st =
      (r.mapError .unwind, swept d k n p (y :: rest), st') := by
  rw [onV_run (callAt_run (peek_gapped (length_kept_add p))), hf]
  simp only [swept, set_gapped (length_kept_add p)]

theorem fillHole_swept {deleted : Bool} (h : deleted = true ↔ 0 < (removed p).length) :
    (fillHole deleted : M ε σ (Backshift T) Unit) (swept d k n p (y :: rest)) st =
      (.ok (), swept d k n (p ++ [(y, true)]) rest, st) := by
  have hlen : (p ++ [(y, true)]).length = p.length+1 := List.length_append
  rw [fillHole, get_run]
  by_cases hdel : deleted = true
  · have hmove := copyNonoverlapping_gapped (r := rest) (k := k) (x := y) (h.mp hdel)
      (length_kept_add p)
    rw [if_pos hdel, bind_run (onV_run (onSlots_run (v := (swept d k n p (y :: rest)).v) hmove))]
    simp only [advance, get_run, put, swept, hlen, kept_true, removed_true, Bool.toNat_false,
      Nat.add_zero]
  · have hzero : (removed p).length = 0 := by
      have := mt h.mpr hdel
      omega
    rw [if_neg hdel]
    simp only [advance, get_run, put, swept, hlen, kept_true, removed_true, Bool.toNat_false,
      Nat.add_zero, hzero, gapped_keep]

theorem delete_swept {r : Except ε Unit} (hdrop : drop st y = (r, st')) :
    delete drop (swept d k n p (y :: rest)) st =
      (r.mapError .unwind, swept d k n (p ++ [(y, false)]) rest, st') := by
  have hlen : (p ++ [(y, false)]).length = p.length+1 := List.length_append
  rw [delete, get_run]
  simp only [advance]
  rw [bind_run rfl, onV_run (dropInPlace_run (read_gapped (length_kept_add p))), hdrop]
  simp only [swept, hlen, kept_false, removed_false, List.length_append, List.length_singleton,
    List.append_assoc, Bool.toNat_true]

/-! One round of a loop, for each way the calls may end. -/

theorem processLoop_round {deleted : Bool} {fuel : ℕ} (hn : p.length ≠ n) :
    processLoop f drop deleted (fuel+1) (swept d k n p rest) st = (do
      let keep ← onV (callAt f p.length)
      if !keep then do
        delete drop
        if deleted then processLoop f drop deleted fuel else pure ()
      else do
        fillHole deleted
        processLoop f drop deleted fuel : M ε σ (Backshift T) Unit) (swept d k n p rest) st := by
  rw [processLoop, get_run]
  exact ite_run_pos hn

theorem processLoop_unwind {deleted : Bool} {fuel : ℕ} {e : ε} (hn : p.length ≠ n)
    (hf : f st x = (.error e, y, st')) :
    processLoop f drop deleted (fuel+1) (swept d k n p (x :: rest)) st =
      (.error (.unwind e), swept d k n p (y :: rest), st') := by
  rw [processLoop_round hn]
  exact bind_run_error (callAt_swept hf)

theorem processLoop_keep {deleted : Bool} {fuel : ℕ} (hn : p.length ≠ n)
    (hdel : deleted = true ↔ 0 < (removed p).length) (hf : f st x = (.ok true, y, st')) :
    processLoop f drop deleted (fuel+1) (swept d k n p (x :: rest)) st =
      processLoop f drop deleted fuel (swept d k n (p ++ [(y, true)]) rest) st' := by
  rw [processLoop_round hn]
  apply (bind_run (callAt_swept hf)).trans
  exact bind_run (fillHole_swept hdel)

theorem processLoop_dropUnwind {deleted : Bool} {fuel : ℕ} {e : ε} (hn : p.length ≠ n)
    (hf : f st x = (.ok false, y, st')) (hdrop : drop st' y = (.error e, st'')) :
    processLoop f drop deleted (fuel+1) (swept d k n p (x :: rest)) st =
      (.error (.unwind e), swept d k n (p ++ [(y, false)]) rest, st'') := by
  rw [processLoop_round hn]
  apply (bind_run (callAt_swept hf)).trans
  exact bind_run_error (delete_swept hdrop)

theorem processLoop_delete {deleted : Bool} {fuel : ℕ} (hn : p.length ≠ n)
    (hf : f st x = (.ok false, y, st')) (hdrop : drop st' y = (.ok (), st'')) :
    processLoop f drop deleted (fuel+1) (swept d k n p (x :: rest)) st =
      (if deleted then processLoop f drop deleted fuel else pure ())
        (swept d k n (p ++ [(y, false)]) rest) st'' := by
  rw [processLoop_round hn]
  apply (bind_run (callAt_swept hf)).trans
  exact bind_run (delete_swept hdrop)

theorem processLoop_nil {deleted : Bool} {fuel : ℕ} (hn : p.length = n) :
    processLoop f drop deleted (fuel+1) (swept d k n p []) st = (.ok (), swept d k n p [], st) := by
  have heq : ¬ (swept d k n p []).processedLen ≠ (swept d k n p []).originalLen := not_not.mpr hn
  rw [processLoop, get_run, if_neg heq]
  rfl

theorem length_processed (p : Processed T) (y : T) (b : Bool) (rest : List T) :
    (p ++ [(y, b)]).length+rest.length = p.length+(y :: rest).length := by
  rw [List.length_append, List.length_singleton, List.length_cons]
  omega

theorem processLoop_true {fuel : ℕ} (hn : p.length+rest.length = n) (hfuel : rest.length < fuel)
    (hdel : 0 < (removed p).length) :
    processLoop f drop true fuel (swept d k n p rest) st = (sweep f drop p rest st).run d k n := by
  induction rest generalizing p st fuel with
  | nil =>
    obtain ⟨fuel, rfl⟩ : ∃ m, fuel = m+1 := ⟨fuel-1, by omega⟩
    rw [processLoop_nil (by simpa using hn)]
    rfl
  | cons x rest ih =>
    obtain ⟨fuel, rfl⟩ : ∃ m, fuel = m+1 := ⟨fuel-1, by omega⟩
    rw [List.length_cons] at hfuel hn
    have hne : p.length ≠ n := by omega
    rw [sweep_cons]
    rcases hf : f st x with ⟨e | _ | _, y, st'⟩
    · exact processLoop_unwind hne hf
    · dsimp only
      rcases hdrop : drop st' y with ⟨e | _, st''⟩
      · exact processLoop_dropUnwind hne hf hdrop
      · apply (processLoop_delete hne hf hdrop).trans
        apply ih
        · rw [length_processed]
          exact hn
        · omega
        · rw [removed_false, List.length_append]
          simp
    · apply (processLoop_keep hne (iff_of_true rfl hdel) hf).trans
      apply ih
      · rw [length_processed]
        exact hn
      · omega
      · rw [removed_true]
        exact hdel

theorem processLoops_run {m m' : ℕ} (hn : p.length+rest.length = n) (hm : rest.length < m)
    (hm' : rest.length < m') (hdel : (removed p).length = 0) :
    (processLoop f drop false m >>= fun _ => processLoop f drop true m')
      (swept d k n p rest) st = (sweep f drop p rest st).run d k n := by
  induction rest generalizing p st m with
  | nil =>
    obtain ⟨m, rfl⟩ : ∃ i, m = i+1 := ⟨m-1, by omega⟩
    obtain ⟨m', rfl⟩ : ∃ i, m' = i+1 := ⟨m'-1, by omega⟩
    have hlen : p.length = n := by simpa using hn
    rw [bind_run (processLoop_nil hlen), processLoop_nil hlen]
    rfl
  | cons x rest ih =>
    obtain ⟨m, rfl⟩ : ∃ i, m = i+1 := ⟨m-1, by omega⟩
    rw [List.length_cons] at hm hm' hn
    have hne : p.length ≠ n := by omega
    rw [sweep_cons]
    rcases hf : f st x with ⟨e | _ | _, y, st'⟩
    · exact bind_run_error (processLoop_unwind hne hf)
    · dsimp only
      rcases hdrop : drop st' y with ⟨e | _, st''⟩
      · exact bind_run_error (processLoop_dropUnwind hne hf hdrop)
      · apply (bind_run (processLoop_delete hne hf hdrop)).trans
        apply processLoop_true
        · rw [length_processed]
          exact hn
        · omega
        · rw [removed_false, List.length_append]
          simp
    · apply (bind_run_congr (processLoop_keep hne (by simp [hdel]) hf)).trans
      apply ih
      · rw [length_processed]
        exact hn
      · omega
      · omega
      · rw [removed_true]
        exact hdel

end Loops

/-! ## Every element is kept, removed or not processed -/

/-- What calls of the predicate make of an element. -/
def Touched (f : Predicate ε σ T) : T → T → Prop :=
  Relation.ReflTransGen fun x y => ∃ st, y = (f st x).2.1

section Ledger

variable {f : Predicate ε σ T} {drop : Dropper ε σ T}

theorem touched_call (f : Predicate ε σ T) (st : σ) (x : T) : Touched f x (f st x).2.1 :=
  Relation.ReflTransGen.single ⟨st, rfl⟩

theorem touched_refl (f : Predicate ε σ T) (l : List T) : List.Forall₂ (Touched f) l l :=
  List.forall₂_same.mpr fun _ _ => Relation.ReflTransGen.refl

theorem sweep_touched (p : Processed T) (l : List T) (st : σ) : ∃ l',
    (sweep f drop p l st).processed.map (·.1) ++ (sweep f drop p l st).rest = p.map (·.1) ++ l' ∧
      List.Forall₂ (Touched f) l l' := by
  induction l generalizing p st with
  | nil => exact ⟨[], rfl, List.Forall₂.nil⟩
  | cons x rest ih =>
    have hcall := touched_call f st x
    have hcont (p' : Processed T) (y : T) (b : Bool) (st' : σ) (hy : Touched f x y)
        (hp : p' = p ++ [(y, b)]) : ∃ l', (sweep f drop p' rest st').processed.map (·.1) ++
          (sweep f drop p' rest st').rest = p.map (·.1) ++ l' ∧
            List.Forall₂ (Touched f) (x :: rest) l' := by
      obtain ⟨l', heq, htouched⟩ := ih p' st'
      subst hp
      refine ⟨y :: l', ?_, List.Forall₂.cons hy htouched⟩
      rw [heq, List.map_append]
      simp
    rw [sweep_cons]
    rcases hf : f st x with ⟨e | _ | _, y, st'⟩
    · rw [hf] at hcall
      exact ⟨y :: rest, rfl, List.Forall₂.cons hcall (touched_refl f rest)⟩
    · rw [hf] at hcall
      dsimp only
      rcases drop st' y with ⟨e | _, st''⟩
      · refine ⟨y :: rest, ?_, List.Forall₂.cons hcall (touched_refl f rest)⟩
        simp
      · exact hcont _ y false st'' hcall rfl
    · rw [hf] at hcall
      exact hcont _ y true st' hcall rfl

theorem sweep_returns (hf : ∀ st x, ∃ b, (f st x).1 = .ok b) (hdrop : ∀ st x, (drop st x).1 = .ok ())
    (p : Processed T) (l : List T) (st : σ) :
    (sweep f drop p l st).rest = [] ∧ (sweep f drop p l st).result = .ok () := by
  induction l generalizing p st with
  | nil => exact ⟨rfl, rfl⟩
  | cons x rest ih =>
    obtain ⟨b, hb⟩ := hf st x
    rw [sweep_cons]
    rcases hcall : f st x with ⟨e | _ | _, y, st'⟩
    · rw [hcall] at hb
      cases hb
    · have hd := hdrop st' y
      dsimp only
      rcases hcall' : drop st' y with ⟨e | _, st''⟩
      · rw [hcall'] at hd
        cases hd
      · exact ih _ _
    · exact ih _ _

theorem sweep_filter {q : T → Bool} (hf : ∀ st x, f st x = (.ok (q x), x, st))
    (hdrop : ∀ st x, (drop st x).1 = .ok ()) (p : Processed T) (l : List T) (st : σ) :
    kept (sweep f drop p l st).processed = kept p ++ l.filter q := by
  induction l generalizing p st with
  | nil =>
    rw [List.filter_nil, List.append_nil]
    rfl
  | cons x rest ih =>
    rw [sweep_cons, hf]
    cases hq : q x with
    | true =>
      dsimp only
      rw [ih, kept_true, List.filter_cons_of_pos hq, List.append_assoc]
      rfl
    | false =>
      have hd := hdrop st x
      dsimp only
      rcases hcall : drop st x with ⟨e | _, st''⟩
      · rw [hcall] at hd
        cases hd
      · dsimp only
        rw [ih, kept_false, List.filter_cons_of_neg (by simp [hq])]

end Ledger

/-! ## The whole operation -/

section Whole

variable (f : Predicate ε σ T) (drop : Dropper ε σ T)

theorem sweep_length (p : Processed T) (l : List T) (st : σ) :
    (sweep f drop p l st).processed.length+(sweep f drop p l st).rest.length =
      p.length+l.length := by
  induction l generalizing p st with
  | nil => rfl
  | cons x rest ih =>
    rw [sweep_cons]
    rcases f st x with ⟨e | _ | _, y, st'⟩
    · rfl
    · dsimp only
      rcases drop st' y with ⟨e | _, st''⟩
      · exact length_processed p y false rest
      · dsimp only
        rw [ih]
        exact length_processed p y false rest
    · dsimp only
      rw [ih]
      exact length_processed p y true rest

theorem backshift_swept {d : List T} {k n : ℕ} {p : Processed T} {rest : List T} {st : σ}
    (hn : p.length+rest.length = n) :
    (backshift : M ε σ (Backshift T) Unit) (swept d k n p rest) st =
      (.ok (), ⟨RawVec.of (kept p ++ rest) ((removed p).length+k) (d ++ removed p), p.length,
        (removed p).length, n⟩, st) := by
  have hlen := length_kept_add p
  have hsub : n-p.length = rest.length := by omega
  have hnew : n-(removed p).length = (kept p ++ rest).length := by
    rw [List.length_append]
    omega
  rw [backshift, get_run]
  by_cases hdel : 0 < (removed p).length
  · have hpos : (swept d k n p rest).deletedCnt > 0 := hdel
    have hmove := copy_gapped (r := rest) (k := k) hlen
    rw [← hsub] at hmove
    rw [if_pos hpos]
    apply (bind_run (onV_run (onSlots_run (v := (swept d k n p rest).v) hmove))).trans
    rw [onV_run (r := .ok ()) rfl]
    simp only [swept, RawVec.of, hnew]
  · have hzero : (removed p).length = 0 := by omega
    have hpos : ¬ (swept d k n p rest).deletedCnt > 0 := hdel
    rw [if_neg hpos, onV_run (r := .ok ()) rfl]
    rw [hzero] at hnew
    simp only [swept, RawVec.of, hnew, hzero, gapped_zero, Nat.zero_add]

theorem retainMut_run (l d : List T) (k : ℕ) (st : σ) :
    retainMut f drop (RawVec.of l k d) st =
      let s := sweep f drop [] l st
      (s.result.mapError .unwind,
        RawVec.of (kept s.processed ++ s.rest) ((removed s.processed).length+k)
          (d ++ removed s.processed), s.env) := by
  rw [retainMut, get_run]
  dsimp only
  by_cases h0 : (RawVec.of l k d).len = 0
  · obtain rfl : l = [] := List.length_eq_zero_iff.mp h0
    rw [if_pos h0]
    simp only [sweep, kept, removed, List.filter_nil, List.map_nil, List.length_nil, Nat.zero_add,
      List.append_nil]
    rfl
  · rw [if_neg h0]
    have hstart : (⟨⟨(RawVec.of l k d).slots, 0, d⟩, 0, 0, l.length⟩ : Backshift T) =
        swept d k l.length [] l := by
      simp only [swept, RawVec.of, kept, removed, List.filter_nil, List.map_nil, List.length_nil,
        gapped_zero, List.nil_append, List.append_nil]
    have hloops : processLoops f drop l.length ⟨⟨(RawVec.of l k d).slots, 0, d⟩, 0, 0, l.length⟩ st =
        (sweep f drop [] l st).run d k l.length := by
      rw [hstart]
      exact processLoops_run (Nat.zero_add _) (Nat.lt_succ_self _) (Nat.lt_succ_self _) rfl
    have hexit := onExit_run hloops
      (backshift_swept ((sweep_length f drop [] l st).trans (Nat.zero_add _)))
    apply (bind_run (show setLen 0 (RawVec.of l k d) st = _ from rfl)).trans
    unfold onPart
    change (match onExit (processLoops f drop l.length) backshift _ st with
      | (r, g, st) => (r, Backshift.v g, st)) = _
    exact congrArg (fun r => (r.1, Backshift.v r.2.1, r.2.2)) hexit

end Whole

end RustStd.Vec
