import Mathlib

/-!
# Computations that may unwind

A computation works on a memory and calls back into foreign code with a state
of its own. It may unwind, and then destructors run, or stop for good. A
specification says what holds of the memory after a normal return and after
an unwind. It rules out every other end, and if the callbacks are lawful it
rules out unwinding as well.
-/

set_option autoImplicit false

namespace RustStd.Unwind

variable {ε σ S β γ : Type}

/-- Early ends of a computation. Only the first one runs destructors. -/
inductive Exit (ε : Type)
  | unwind (e : ε)
  | abort
  | outOfBounds
  | outOfFuel
  deriving DecidableEq, Repr

def M (ε σ S β : Type) : Type := S → σ → Except (Exit ε) β × S × σ

namespace M

protected def pure (b : β) : M ε σ S β := fun s st => (.ok b, s, st)

protected def bind (m : M ε σ S β) (k : β → M ε σ S γ) : M ε σ S γ := fun s st =>
  match m s st with
  | (.ok b, s, st) => k b s st
  | (.error e, s, st) => (.error e, s, st)

instance : Monad (M ε σ S) where
  pure := M.pure
  bind := M.bind

end M

def exit (e : Exit ε) : M ε σ S β := fun s st => (.error e, s, st)

def get : M ε σ S S := fun s st => (.ok s, s, st)

def put (s : S) : M ε σ S Unit := fun _ st => (.ok (), s, st)

/-- A destructor that is live during `m`. -/
def onUnwind (m : M ε σ S β) (drop : S → S) : M ε σ S β := fun s st =>
  match m s st with
  | (.error (.unwind e), s, st) => (.error (.unwind e), drop s, st)
  | r => r

/-- A destructor that is a computation of its own. To unwind from it while `m` unwinds is
an abort. -/
def onExit (m : M ε σ S β) (drop : M ε σ S Unit) : M ε σ S β := fun s st =>
  match m s st with
  | (.ok b, s, st) =>
    match drop s st with
    | (.ok _, s, st) => (.ok b, s, st)
    | (.error e, s, st) => (.error e, s, st)
  | (.error (.unwind e), s, st) =>
    match drop s st with
    | (.ok _, s, st) => (.error (.unwind e), s, st)
    | (.error (.unwind _), s, st) => (.error .abort, s, st)
    | (.error e, s, st) => (.error e, s, st)
  | r => r

/-- A destructor that is live during `m` and a computation of its own. -/
def onFailure (m : M ε σ S β) (drop : M ε σ S Unit) : M ε σ S β := fun s st =>
  match m s st with
  | (.error (.unwind e), s, st) =>
    match drop s st with
    | (.ok _, s, st) => (.error (.unwind e), s, st)
    | (.error (.unwind _), s, st) => (.error .abort, s, st)
    | (.error e, s, st) => (.error e, s, st)
  | r => r

/-- A caller that goes on when `m` unwinds. -/
def caught (m : M ε σ S β) : M ε σ S (Except ε β) := fun s st =>
  match m s st with
  | (.ok b, s, st) => (.ok (.ok b), s, st)
  | (.error (.unwind e), s, st) => (.ok (.error e), s, st)
  | (.error e, s, st) => (.error e, s, st)

/-- The result of a computation without an environment, and the memory. -/
def returned (m : M Empty Unit S β) (s : S) : Option (β × S) :=
  match m s () with
  | (.ok b, s, _) => some (b, s)
  | _ => none

def onPart {A : Type} (view : S → A) (update : A → S → S) (m : M ε σ A β) : M ε σ S β := fun s st =>
  match m (view s) st with
  | (r, a, st) => (r, update a s, st)

/-! ## Single runs -/

section Runs

variable {m : M ε σ S β} {k : β → M ε σ S γ} {s s' : S} {st st' : σ}

theorem bind_run {b : β} (h : m s st = (.ok b, s', st')) : (m >>= k) s st = k b s' st' := by
  change M.bind m k s st = _
  rw [M.bind, h]

theorem bind_run_error {e : Exit ε} (h : m s st = (.error e, s', st')) :
    (m >>= k) s st = (.error e, s', st') := by
  change M.bind m k s st = _
  rw [M.bind, h]

theorem bind_run_congr {m' : M ε σ S β} (h : m s st = m' s' st') :
    (m >>= k) s st = (m' >>= k) s' st' := by
  change M.bind m k s st = M.bind m' k s' st'
  rw [M.bind, M.bind, h]

theorem ite_run_pos {m' : M ε σ S β} {c : Prop} [Decidable c] (h : c) :
    (if c then m else m') s st = m s st := by
  rw [if_pos h]

theorem ite_run_neg {m' : M ε σ S β} {c : Prop} [Decidable c] (h : ¬ c) :
    (if c then m else m') s st = m' s st := by
  rw [if_neg h]

theorem get_run {k : S → M ε σ S γ} : (get >>= k) s st = k s s st := rfl

theorem put_run {k : Unit → M ε σ S γ} : (put s' >>= k) s st = k () s' st := rfl

theorem onPart_run {A : Type} {view : S → A} {update : A → S → S} {m : M ε σ A β} {a : A}
    {r : Except (Exit ε) β} (h : m (view s) st = (r, a, st')) :
    onPart view update m s st = (r, update a s, st') := by
  rw [onPart, h]

theorem returned_run {m : M Empty Unit S β} {b : β} (h : m s () = (.ok b, s', ())) :
    returned m s = some (b, s') := by
  rw [returned, h]

theorem onFailure_ok {drop : M ε σ S Unit} {b : β} (h : m s st = (.ok b, s', st')) :
    onFailure m drop s st = (.ok b, s', st') := by
  rw [onFailure, h]

theorem onFailure_unwind {drop : M ε σ S Unit} {e : ε} {s'' : S} {st'' : σ}
    (h : m s st = (.error (.unwind e), s', st')) (hdrop : drop s' st' = (.ok (), s'', st'')) :
    onFailure m drop s st = (.error (.unwind e), s'', st'') := by
  rw [onFailure, h]
  simp only [hdrop]

theorem caught_run {r : Except ε β} (h : m s st = (r.mapError .unwind, s', st')) :
    caught m s st = (.ok r, s', st') := by
  rw [caught, h]
  cases r with
  | ok b => rfl
  | error e => rfl

theorem onExit_run {drop : M ε σ S Unit} {r : Except ε β} {s'' : S} {st'' : σ}
    (h : m s st = (r.mapError .unwind, s', st')) (hdrop : drop s' st' = (.ok (), s'', st'')) :
    onExit m drop s st = (r.mapError .unwind, s'', st'') := by
  rw [onExit, h]
  cases r with
  | ok b => simp only [Except.mapError, hdrop]
  | error e => simp only [Except.mapError, hdrop]

end Runs

/-! ## Ends that see the environment -/

/-- The computation returns with `Q`, or it unwinds with `E`. -/
def Reaches (m : M ε σ S β) (s : S) (st : σ) (Q : β → S → σ → Prop) (E : ε → S → σ → Prop) : Prop :=
  match m s st with
  | (.ok b, s, st) => Q b s st
  | (.error (.unwind e), s, st) => E e s st
  | _ => False

section Reach

variable {m : M ε σ S β} {k : β → M ε σ S γ} {s s' : S} {st st' : σ} {Q Q' : β → S → σ → Prop}
  {E E' : ε → S → σ → Prop}

theorem reaches_ok {b : β} (h : m s st = (.ok b, s', st')) (hQ : Q b s' st') :
    Reaches m s st Q E := by
  rw [Reaches, h]
  exact hQ

theorem reaches_unwind {e : ε} (h : m s st = (.error (.unwind e), s', st')) (hE : E e s' st') :
    Reaches m s st Q E := by
  rw [Reaches, h]
  exact hE

theorem Reaches.cases (h : Reaches m s st Q E) :
    (∃ b s' st', m s st = (.ok b, s', st') ∧ Q b s' st') ∨
      ∃ e s' st', m s st = (.error (.unwind e), s', st') ∧ E e s' st' := by
  rcases hm : m s st with ⟨r, s', st'⟩
  rw [Reaches, hm] at h
  rcases r with (e | _ | _ | _) | b
  · exact .inr ⟨e, s', st', rfl, h⟩
  · exact h.elim
  · exact h.elim
  · exact h.elim
  · exact .inl ⟨b, s', st', rfl, h⟩

theorem Reaches.mono (h : Reaches m s st Q' E') (hQ : ∀ b s' st', Q' b s' st' → Q b s' st')
    (hE : ∀ e s' st', E' e s' st' → E e s' st') : Reaches m s st Q E := by
  obtain ⟨b, s', st', hm, hb⟩ | ⟨e, s', st', hm, he⟩ := h.cases
  · exact reaches_ok hm (hQ b s' st' hb)
  · exact reaches_unwind hm (hE e s' st' he)

theorem Reaches.bind {Q : γ → S → σ → Prop}
    (h : Reaches m s st (fun b s' st' => Reaches (k b) s' st' Q E) E) :
    Reaches (m >>= k) s st Q E := by
  obtain ⟨b, s', st', hm, hb⟩ | ⟨e, s', st', hm, he⟩ := h.cases
  · rw [Reaches, bind_run hm]
    exact hb
  · exact reaches_unwind (bind_run_error hm) he

theorem reaches_step {Q : γ → S → σ → Prop} {b : β} (h : m s st = (.ok b, s', st'))
    (hk : Reaches (k b) s' st' Q E) : Reaches (m >>= k) s st Q E := by
  rw [Reaches, bind_run h]
  exact hk

theorem reaches_get {k : S → M ε σ S β} (h : Reaches (k s) s st Q E) :
    Reaches (get >>= k) s st Q E := h

theorem reaches_put {k : Unit → M ε σ S β} (h : Reaches (k ()) s' st Q E) :
    Reaches (put s' >>= k) s st Q E := h

theorem reaches_pos {m' : M ε σ S β} {c : Prop} [Decidable c] (h : c) (hm : Reaches m s st Q E) :
    Reaches (if c then m else m') s st Q E := by
  rw [if_pos h]
  exact hm

theorem reaches_neg {m' : M ε σ S β} {c : Prop} [Decidable c] (h : ¬ c)
    (hm : Reaches m' s st Q E) : Reaches (if c then m else m') s st Q E := by
  rw [if_neg h]
  exact hm

theorem Reaches.onFailure {drop : M ε σ S Unit}
    (h : Reaches m s st Q fun e s' st' =>
      Reaches drop s' st' (fun _ => E e) fun _ _ _ => False) :
    Reaches (onFailure m drop) s st Q E := by
  obtain ⟨b, s', st', hm, hb⟩ | ⟨e, s', st', hm, he⟩ := h.cases
  · exact reaches_ok (onFailure_ok hm) hb
  · obtain ⟨u, s'', st'', hd, he⟩ | ⟨-, -, -, -, hf⟩ := he.cases
    · exact reaches_unwind (onFailure_unwind hm hd) he
    · exact hf.elim

theorem Reaches.onExit {drop : M ε σ S Unit}
    (h : Reaches m s st (fun b s' st' => Reaches drop s' st' (fun _ => Q b) fun _ _ _ => False)
      fun e s' st' => Reaches drop s' st' (fun _ => E e) fun _ _ _ => False) :
    Reaches (onExit m drop) s st Q E := by
  obtain ⟨b, s', st', hm, hb⟩ | ⟨e, s', st', hm, he⟩ := h.cases
  · obtain ⟨u, s'', st'', hd, hb⟩ | ⟨-, -, -, -, hf⟩ := hb.cases
    · exact reaches_ok (onExit_run (r := .ok b) hm hd) hb
    · exact hf.elim
  · obtain ⟨u, s'', st'', hd, he⟩ | ⟨-, -, -, -, hf⟩ := he.cases
    · exact reaches_unwind (onExit_run (r := .error e) hm hd) he
    · exact hf.elim

theorem Reaches.onPart {A : Type} {view : S → A} {update : A → S → S} {m : M ε σ A β}
    (h : Reaches m (view s) st (fun b a => Q b (update a s)) fun e a => E e (update a s)) :
    Reaches (onPart view update m) s st Q E := by
  obtain ⟨b, a, st', hm, hb⟩ | ⟨e, a, st', hm, he⟩ := h.cases
  · exact reaches_ok (onPart_run hm) hb
  · exact reaches_unwind (onPart_run hm) he

end Reach

section Memory

variable {T : Type}

def at? (v : List T) (i : ℕ) : M ε σ S T :=
  match v[i]? with
  | none => exit .outOfBounds
  | some x => pure x

def read (i : ℕ) : M ε σ (List T) T := fun v st =>
  match v[i]? with
  | none => (.error .outOfBounds, v, st)
  | some x => (.ok x, v, st)

def write (i : ℕ) (x : T) : M ε σ (List T) Unit := fun v st =>
  if i < v.length then (.ok (), v.set i x, st) else (.error .outOfBounds, v, st)

/-- Overwrite the cells from `i` on. -/
def writeAll (i : ℕ) (w : List T) : M ε σ (List T) Unit := fun v st =>
  if i+w.length ≤ v.length then (.ok (), v.take i ++ w ++ v.drop (i+w.length), st)
  else (.error .outOfBounds, v, st)

def swap (i j : ℕ) : M ε σ (List T) Unit := fun v st =>
  match v[i]?, v[j]? with
  | some x, some y => (.ok (), (v.set i y).set j x, st)
  | _, _ => (.error .outOfBounds, v, st)

/-- Run `m` on `v[a..a + n]`. -/
def onSlice (a n : ℕ) (m : M ε σ (List T) β) : M ε σ (List T) β := fun v st =>
  if a+n ≤ v.length then
    onPart (fun v => (v.drop a).take n) (fun w v => v.take a ++ w ++ v.drop (a+n)) m v st
  else (.error .outOfBounds, v, st)

end Memory

def Ends (L : Prop) (Q : β → S → Prop) (E : S → Prop) : Except (Exit ε) β × S × σ → Prop
  | (.ok b, s, _) => Q b s
  | (.error (.unwind _), s, _) => ¬ L ∧ E s
  | _ => False

/-- From `s` the computation returns with `Q`, or it unwinds with `E`, which a
lawful environment excludes. -/
def Sat (L : Prop) (m : M ε σ S β) (s : S) (Q : β → S → Prop) (E : S → Prop) : Prop :=
  ∀ st, Ends L Q E (m s st)

section Rules

variable {L : Prop} {s : S} {Q : β → S → Prop} {E : S → Prop}

theorem sat_pure {b : β} (h : Q b s) : Sat L (pure b : M ε σ S β) s Q E := fun _ => h

theorem Sat.bind {m : M ε σ S γ} {k : γ → M ε σ S β}
    (h : Sat L m s (fun c s' => Sat L (k c) s' Q E) E) : Sat L (m >>= k) s Q E := by
  intro st
  have hm := h st
  show Ends L Q E (M.bind m k s st)
  unfold M.bind
  rcases hr : m s st with ⟨r, s', st'⟩
  rw [hr] at hm
  rcases r with (e | _ | _ | _) | b
  · exact hm
  · exact hm
  · exact hm
  · exact hm
  · exact hm st'

theorem Sat.mono {m : M ε σ S β} {Q' : β → S → Prop} {E' : S → Prop} (h : Sat L m s Q' E')
    (hQ : ∀ b s', Q' b s' → Q b s') (hE : ∀ s', ¬ L → E' s' → E s') : Sat L m s Q E := by
  intro st
  have hm := h st
  rcases hr : m s st with ⟨r, s', st'⟩
  rw [hr] at hm
  rcases r with (e | _ | _ | _) | b
  · exact ⟨hm.1, hE s' hm.1 hm.2⟩
  · exact hm
  · exact hm
  · exact hm
  · exact hQ b s' hm

theorem Sat.call {m : M ε σ S γ} {k : γ → M ε σ S β} {Q' : γ → S → Prop} {E' : S → Prop}
    (h : Sat L m s Q' E') (hk : ∀ c s', Q' c s' → Sat L (k c) s' Q E)
    (hE : ∀ s', ¬ L → E' s' → E s') : Sat L (m >>= k) s Q E :=
  Sat.bind (h.mono hk hE)

theorem sat_get {Q : S → S → Prop} (h : Q s s) : Sat L (get : M ε σ S S) s Q E := fun _ => h

theorem sat_put {Q : Unit → S → Prop} {s' : S} (h : Q () s') :
    Sat L (put s' : M ε σ S Unit) s Q E := fun _ => h

theorem sat_unwind {e : ε} (hL : ¬ L) (hE : E s) : Sat L (exit (.unwind e) : M ε σ S β) s Q E :=
  fun _ => ⟨hL, hE⟩

theorem Sat.onUnwind {m : M ε σ S β} {drop : S → S} (h : Sat L m s Q fun s' => E (drop s')) :
    Sat L (onUnwind m drop) s Q E := by
  intro st
  have hm := h st
  unfold Unwind.onUnwind
  rcases hr : m s st with ⟨r, s', st'⟩
  rw [hr] at hm
  rcases r with (e | _ | _ | _) | b <;> exact hm

theorem Sat.onPart {A : Type} {view : S → A} {update : A → S → S} {m : M ε σ A β}
    (h : Sat L m (view s) (fun b a => Q b (update a s)) fun a => E (update a s)) :
    Sat L (onPart view update m) s Q E := by
  intro st
  have hm := h st
  unfold Unwind.onPart
  rcases hr : m (view s) st with ⟨r, s', st'⟩
  rw [hr] at hm
  rcases r with (e | _ | _ | _) | b <;> exact hm

theorem Sat.returns {m : M ε σ S β} (h : Sat L m s Q E) (hL : L) (st : σ) :
    ∃ b s' st', m s st = (.ok b, s', st') ∧ Q b s' := by
  have hm := h st
  rcases hr : m s st with ⟨r, s', st'⟩
  rw [hr] at hm
  rcases r with (e | _ | _ | _) | b
  · exact absurd hL hm.1
  · exact hm.elim
  · exact hm.elim
  · exact hm.elim
  · exact ⟨b, s', st', rfl, hm⟩

theorem Sat.ends {m : M ε σ S β} {P : S → Prop} (h : Sat L m s (fun _ => P) P) (st : σ) :
    ∃ r s' st', m s st = (r, s', st') ∧ ((∃ b, r = .ok b) ∨ ∃ e, r = .error (.unwind e)) ∧
      P s' := by
  have hm := h st
  rcases hr : m s st with ⟨r, s', st'⟩
  rw [hr] at hm
  rcases r with (e | _ | _ | _) | b
  · exact ⟨_, s', st', rfl, .inr ⟨e, rfl⟩, hm.2⟩
  · exact hm.elim
  · exact hm.elim
  · exact hm.elim
  · exact ⟨_, s', st', rfl, .inl ⟨b, rfl⟩, hm⟩

end Rules

section MemoryRules

variable {T : Type} {L : Prop}

theorem sat_at {v : List T} {i : ℕ} {x : T} (hx : v[i]? = some x) {s : S}
    {Q : T → S → Prop} {E : S → Prop} (h : Q x s) : Sat L (at? v i : M ε σ S T) s Q E := by
  rw [at?, hx]
  exact sat_pure h

variable {v : List T} {E : List T → Prop}

theorem sat_read {Q : T → List T → Prop} {i : ℕ} {x : T} (hx : v[i]? = some x) (h : Q x v) :
    Sat L (read i : M ε σ (List T) T) v Q E := by
  intro st
  rw [read, hx]
  exact h

theorem sat_write {Q : Unit → List T → Prop} {i : ℕ} {x : T} (hi : i < v.length)
    (h : Q () (v.set i x)) : Sat L (write i x : M ε σ (List T) Unit) v Q E := by
  intro st
  rw [write, if_pos hi]
  exact h

theorem sat_writeAll {Q : Unit → List T → Prop} {i : ℕ} {w : List T}
    (hi : i+w.length ≤ v.length) (h : Q () (v.take i ++ w ++ v.drop (i+w.length))) :
    Sat L (writeAll i w : M ε σ (List T) Unit) v Q E := by
  intro st
  rw [writeAll, if_pos hi]
  exact h

theorem sat_swap {Q : Unit → List T → Prop} {i j : ℕ} {x y : T} (hi : v[i]? = some x)
    (hj : v[j]? = some y) (h : Q () ((v.set i y).set j x)) :
    Sat L (swap i j : M ε σ (List T) Unit) v Q E := by
  intro st
  rw [swap, hi, hj]
  exact h

theorem perm_swap {i j : ℕ} {x y : T} (hi : v[i]? = some x) (hj : v[j]? = some y) :
    ((v.set i y).set j x).Perm v := by
  obtain ⟨hi', rfl⟩ := List.getElem?_eq_some_iff.mp hi
  obtain ⟨hj', rfl⟩ := List.getElem?_eq_some_iff.mp hj
  exact List.set_set_perm hi' hj'

variable {Q : β → List T → Prop}

/-- The memory around the slice stays as it is. -/
theorem Sat.onSlice {a n : ℕ} {m : M ε σ (List T) β} {p w r : List T} (hv : v = p ++ w ++ r)
    (ha : p.length = a) (hn : w.length = n) (h : Sat L m w Q E) :
    Sat L (onSlice a n m) v (fun b v' => ∃ w', v' = p ++ w' ++ r ∧ Q b w')
      fun v' => ∃ w', v' = p ++ w' ++ r ∧ E w' := by
  have hlen : a+n ≤ v.length := by
    rw [hv, List.length_append, List.length_append]
    omega
  have hview : (v.drop a).take n = w := by
    rw [hv, List.append_assoc, ← ha, List.drop_left, ← hn, List.take_left]
  have htake : v.take a = p := by
    rw [hv, List.append_assoc, ← ha, List.take_left]
  have hdrop : v.drop (a+n) = r := by
    rw [hv, ← ha, ← hn, ← List.length_append, List.drop_left]
  have hpart : Sat L (Unwind.onPart (fun v => (v.drop a).take n)
      (fun w v => v.take a ++ w ++ v.drop (a+n)) m) v
      (fun b v' => ∃ w', v' = p ++ w' ++ r ∧ Q b w') fun v' => ∃ w', v' = p ++ w' ++ r ∧ E w' := by
    apply Sat.onPart
    rw [hview, htake, hdrop]
    exact h.mono (fun _ w' h => ⟨w', rfl, h⟩) fun w' _ h => ⟨w', rfl, h⟩
  intro st
  rw [Unwind.onSlice, if_pos hlen]
  exact hpart st

end MemoryRules

/-- A computation unwinds for a reason in `P` only. -/
def UnwindsBy (P : ε → Prop) (m : M ε σ S β) : Prop :=
  ∀ s st e s' st', m s st = (.error (.unwind e), s', st') → P e

namespace UnwindsBy

variable {P : ε → Prop}

theorem pure (b : β) : UnwindsBy P (Pure.pure b : M ε σ S β) := by
  rintro s st e s' st' ⟨⟩

theorem bind {m : M ε σ S γ} {k : γ → M ε σ S β} (h : UnwindsBy P m)
    (hk : ∀ c, UnwindsBy P (k c)) : UnwindsBy P (m >>= k) := by
  intro s st e s' st' hr
  change M.bind m k s st = _ at hr
  unfold M.bind at hr
  rcases hm : m s st with ⟨r, s₁, st₁⟩
  rw [hm] at hr
  cases r with
  | ok c => exact hk c s₁ st₁ e s' st' hr
  | error e' =>
    cases hr
    exact h s st e s' st' hm

theorem ite {c : Prop} [Decidable c] {m m' : M ε σ S β} (h : UnwindsBy P m) (h' : UnwindsBy P m') :
    UnwindsBy P (if c then m else m') := by
  split_ifs
  · exact h
  · exact h'

theorem exit {e : Exit ε} (h : ∀ e', e ≠ .unwind e') : UnwindsBy P (exit e : M ε σ S β) := by
  rintro s st e' s' st' ⟨⟩
  exact absurd rfl (h e')

theorem get : UnwindsBy P (get : M ε σ S S) := by
  rintro s st e s' st' ⟨⟩

theorem put (s : S) : UnwindsBy P (put s : M ε σ S Unit) := by
  rintro s st e s' st' ⟨⟩

theorem onUnwind {m : M ε σ S β} {drop : S → S} (h : UnwindsBy P m) :
    UnwindsBy P (onUnwind m drop) := by
  intro s st e s' st' hr
  unfold Unwind.onUnwind at hr
  rcases hm : m s st with ⟨r, s₁, st₁⟩
  rw [hm] at hr
  rcases r with (e' | _ | _ | _) | b
  · cases hr
    exact h s st e s₁ st' hm
  · cases hr
  · cases hr
  · cases hr
  · cases hr

section Memory

variable {T : Type}

theorem at? (v : List T) (i : ℕ) : UnwindsBy P (at? v i : M ε σ S T) := by
  unfold Unwind.at?
  split
  · exact exit nofun
  · exact pure _

theorem read (i : ℕ) : UnwindsBy P (read i : M ε σ (List T) T) := by
  intro v st e s' st' hr
  unfold Unwind.read at hr
  split at hr <;> cases hr

theorem write (i : ℕ) (x : T) : UnwindsBy P (write i x : M ε σ (List T) Unit) := by
  intro v st e s' st' hr
  unfold Unwind.write at hr
  split at hr <;> cases hr

theorem swap (i j : ℕ) : UnwindsBy P (swap i j : M ε σ (List T) Unit) := by
  intro v st e s' st' hr
  unfold Unwind.swap at hr
  split at hr <;> cases hr

theorem onSlice {a n : ℕ} {m : M ε σ (List T) β} (h : UnwindsBy P m) :
    UnwindsBy P (onSlice a n m) := by
  intro v st e s' st' hr
  unfold Unwind.onSlice onPart at hr
  split at hr
  · rcases hm : m ((v.drop a).take n) st with ⟨r, w, st₁⟩
    rw [hm] at hr
    cases hr
    exact h _ st e w st' hm
  · cases hr

end Memory

end UnwindsBy

def Guards (m m' : M ε σ S β) : Prop :=
  ∀ s st, (m s st).1 = .error .abort ∨ m s st = m' s st

def guarded (c : Bool) : M ε σ S Unit := if c then pure () else exit .abort

namespace Guards

theorem refl (m : M ε σ S β) : Guards m m := fun _ _ => .inr rfl

theorem bind {m m' : M ε σ S γ} {k k' : γ → M ε σ S β} (h : Guards m m')
    (hk : ∀ c, Guards (k c) (k' c)) : Guards (m >>= k) (m' >>= k') := by
  intro s st
  change (M.bind m k s st).1 = _ ∨ M.bind m k s st = M.bind m' k' s st
  unfold M.bind
  rcases h s st with ha | he
  · left
    rcases hm : m s st with ⟨r, s₁, st₁⟩
    rw [hm] at ha
    subst ha
    rfl
  · rw [← he]
    rcases m s st with ⟨_ | c, s₁, st₁⟩
    · exact .inr rfl
    · exact hk c s₁ st₁

theorem guarded {m m' : M ε σ S β} (c : Bool) (h : Guards m m') :
    Guards (guarded c >>= fun _ => m) m' := by
  intro s st
  cases c with
  | true => exact h s st
  | false => exact .inl rfl

theorem ite {c : Prop} [Decidable c] {m₁ m₁' m₂ m₂' : M ε σ S β} (h₁ : Guards m₁ m₁')
    (h₂ : Guards m₂ m₂') : Guards (if c then m₁ else m₂) (if c then m₁' else m₂') := by
  split_ifs
  · exact h₁
  · exact h₂

theorem onSlice {T : Type} {a n : ℕ} {m m' : M ε σ (List T) β} (h : Guards m m') :
    Guards (onSlice a n m) (onSlice a n m') := by
  intro v st
  unfold Unwind.onSlice onPart
  split_ifs
  · rcases h ((v.drop a).take n) st with ha | he
    · left
      rcases hm : m ((v.drop a).take n) st with ⟨r, w, st₁⟩
      rw [hm] at ha
      exact ha
    · right
      rw [he]
  · exact .inr rfl

variable {L : Prop} {m m' : M ε σ S β} {s : S} {Q : β → S → Prop} {E : S → Prop}

theorem eq_of_sat (h : Guards m m') (hm : Sat L m s Q E) (st : σ) : m s st = m' s st := by
  refine (h s st).resolve_left fun ha => ?_
  have hends := hm st
  rcases hr : m s st with ⟨r, s₁, st₁⟩
  rw [hr] at ha hends
  subst ha
  exact hends

theorem sat (h : Guards m m') (hm : Sat L m s Q E) : Sat L m' s Q E := by
  intro st
  rw [← h.eq_of_sat hm st]
  exact hm st

end Guards

theorem sat_guarded {L : Prop} {c : Bool} {s : S} {Q : Unit → S → Prop} {E : S → Prop}
    (hc : c = true) (h : Q () s) : Sat L (guarded c : M ε σ S Unit) s Q E := by
  rw [guarded, if_pos hc]
  exact sat_pure h

end RustStd.Unwind
