import RustStd.Iter.Zip

/-!
# `Zip` zips the lists

Both cursors stay inside the shorter length, and what is left between them has not been read. The inner
iterators are trimmed while the back cursor still stands at the shorter length, which ends with the
first call of `next_back`. It then asserts equal sizes, also if the longer iterator is not trimmed
because only the shorter one may have side effects.
-/

set_option autoImplicit false

namespace RustStd.Zipping
open RustStd.Unwind RustStd.CallRuns

variable {σ α β γ : Type}

/-! ## The list of pairs -/

/-- The calls on the list of pairs. -/
def plain : Call → List γ → Answer γ × List γ
  | .next, l => (.item l.head?, l.tail)
  | .nth n, l => (.item l[n]?, l.drop (n+1))
  | .nextBack, l => (.item l.getLast?, l.dropLast)
  | .sizeHint, l => (.hint (l.length, some l.length), l)

/-- What a call may do: without a panic it does what the list does, and with a panic of user code it has
taken the elements up to the one where that happened. -/
inductive Plain (mayPanic : Prop) : Call → List γ → Answer γ → List γ → Prop
  | returns (c : Call) (l : List γ) : Plain mayPanic c l (plain c l).1 (plain c l).2
  | next {l : List γ} (h : mayPanic) (hl : l ≠ []) : Plain mayPanic .next l (.panicked .user) l.tail
  | nth {l : List γ} (n k : ℕ) (h : mayPanic) (hk : k ≤ n) (hl : k < l.length) :
    Plain mayPanic (.nth n) l (.panicked .user) (l.drop (k+1))
  | nextBack {l : List γ} (h : mayPanic) (hl : l ≠ []) :
    Plain mayPanic .nextBack l (.panicked .user) l.dropLast

def Code.MayPanic (code : Code σ) : Prop :=
  (∃ i st, (code.get i st).1 = true) ∨ ∃ st, (code.nextBack st).1 ≠ .returns

def User.MayPanic (user : User σ) : Prop := user.a.MayPanic ∨ user.b.MayPanic

/-- A run of calls keeps the contracts, answers as the list of pairs, and trims in one call at most. -/
def Agrees (flags : Flags) (user : User σ) (xs : List α) (ys : List β) (st : σ)
    (calls : List Call) : Prop :=
  ∃ steps s', run (Zip.call flags user) calls (Zip.new xs ys, st) = some (steps, s') ∧
    Allowed (Plain user.MayPanic) calls (xs.zip ys) (steps.map Prod.fst) ∧
    steps.countP (fun step => decide (0 < step.2)) ≤ 1

/-- Only the shorter iterator may have side effects, and it is not empty. -/
def Unbalanced (flags : Flags) (xs : List α) (ys : List β) : Prop :=
  0 < xs.length ∧ xs.length < ys.length ∧ flags.a = true ∧ flags.b = false ∨
    0 < ys.length ∧ ys.length < xs.length ∧ flags.b = true ∧ flags.a = false

/-! ## What is left -/

/-- The elements are there up to `m`, and those between `lo` and `hi` have not been read. -/
structure Inner.Kept (l : List α) (m lo hi : ℕ) (it : Inner α) : Prop where
  elems : ∃ k, m ≤ k ∧ it.elems = l.take k
  unread : ∀ i, lo ≤ i → i < hi → i ∉ it.passed
  passed : ∀ i ∈ it.passed, i < m

structure Inv (xs : List α) (ys : List β) (z : Zip α β) : Prop where
  index_le : z.index ≤ z.len
  len_le : z.len ≤ min xs.length ys.length
  a : z.a.Kept xs (min xs.length ys.length) z.index z.len
  b : z.b.Kept ys (min xs.length ys.length) z.index z.len
  untrimmed : z.len = min xs.length ys.length → z.a.elems = xs ∧ z.b.elems = ys

def rest (xs : List α) (ys : List β) (z : Zip α β) : List (α × β) :=
  ((xs.zip ys).take z.len).drop z.index

section Rest

variable {xs : List α} {ys : List β} {z : Zip α β}

theorem length_rest (hz : Inv xs ys z) : (rest xs ys z).length = z.len-z.index := by
  rw [rest, List.length_drop, List.length_take, List.length_zip, min_eq_left hz.len_le]

theorem rest_nil (hz : Inv xs ys z) (h : z.len ≤ z.index) : rest xs ys z = [] := by
  apply List.eq_nil_of_length_eq_zero
  rw [length_rest hz]
  lia

theorem rest_getElem? {i : ℕ} (hi : z.index+i < z.len) :
    (rest xs ys z)[i]? = (xs.zip ys)[z.index+i]? := by
  rw [rest, List.getElem?_drop, List.getElem?_take_of_lt hi]

theorem rest_head? (h : z.index < z.len) : (rest xs ys z).head? = (xs.zip ys)[z.index]? := by
  rw [List.head?_eq_getElem?, rest_getElem? h, Nat.add_zero]

theorem rest_getLast? (hz : Inv xs ys z) (h : z.index < z.len) :
    (rest xs ys z).getLast? = (xs.zip ys)[z.len-1]? := by
  rw [List.getLast?_eq_getElem?, length_rest hz, rest_getElem? (by lia)]
  congr 1
  lia

theorem rest_front {z' : Zip α β} {k : ℕ} (hindex : z'.index = z.index+k) (hlen : z'.len = z.len) :
    rest xs ys z' = (rest xs ys z).drop k := by
  rw [rest, rest, List.drop_drop, hindex, hlen]

theorem rest_back {z' : Zip α β} (hz : Inv xs ys z) (h : z.index < z.len)
    (hindex : z'.index = z.index) (hlen : z'.len = z.len-1) :
    rest xs ys z' = (rest xs ys z).dropLast := by
  rw [List.dropLast_eq_take, length_rest hz, rest, rest, hindex, hlen, List.drop_take, List.drop_take,
    List.take_take]
  congr 1
  lia

end Rest

/-! ## Reading -/

namespace Inner

variable {code : Code σ} {it : Inner α} {st : σ} {i m lo hi : ℕ} {l : List α}

theorem callGet_reaches : Reaches (callGet code i) it st (fun _ it' _ => it' = it)
    fun e it' _ => e = .user ∧ code.MayPanic ∧ it' = it := by
  rw [Reaches, callGet]
  rcases hget : code.get i st with ⟨_ | _, st'⟩
  · rfl
  · exact ⟨rfl, .inl ⟨i, st, by rw [hget]⟩, rfl⟩

theorem getUnchecked_reaches {x : α} (hx : it.elems[i]? = some x) (hi : i ∉ it.passed) :
    Reaches (getUnchecked code i) it st
      (fun y it' _ => y = x ∧ it' = { it with passed := i :: it.passed })
      fun e it' _ => e = .user ∧ code.MayPanic ∧ it' = { it with passed := i :: it.passed } := by
  apply reaches_get
  simp only [hx]
  apply reaches_neg hi
  apply reaches_put
  apply Reaches.bind
  apply callGet_reaches.mono
  · intro _ it' _ hit
    exact ⟨rfl, hit⟩
  · exact fun _ _ _ h => h

theorem Kept.read (h : it.Kept l m lo hi) (hi' : i < m) (hout : i < lo ∨ hi ≤ i) :
    Kept l m lo hi { it with passed := i :: it.passed } := by
  refine ⟨h.elems, fun j hlo hhi hj => ?_, fun j hj => ?_⟩
  · rcases List.mem_cons.mp hj with rfl | hj
    · lia
    · exact h.unread j hlo hhi hj
  · rcases List.mem_cons.mp hj with rfl | hj
    · exact hi'
    · exact h.passed j hj

theorem Kept.narrow {lo' hi' : ℕ} (h : it.Kept l m lo hi) (hlo : lo ≤ lo') (hhi : hi' ≤ hi) :
    it.Kept l m lo' hi' :=
  ⟨h.elems, fun i hi₁ hi₂ => h.unread i (hlo.trans hi₁) (hi₂.trans_le hhi), h.passed⟩

theorem Kept.getElem? (h : it.Kept l m lo hi) (hi : i < m) : it.elems[i]? = l[i]? := by
  obtain ⟨k, hk, heq⟩ := h.elems
  rw [heq, List.getElem?_take_of_lt (hi.trans_le hk)]

theorem Kept.le_size (h : it.Kept l m lo hi) (hm : m ≤ l.length) : m ≤ it.size := by
  obtain ⟨k, hk, heq⟩ := h.elems
  rw [size, heq, List.length_take]
  exact le_min hk hm

end Inner

/-! ## One call -/

section Calls

variable {xs : List α} {ys : List β} {z z' : Zip α β} {flags : Flags} {user : User σ} {st : σ}

structure Keeps (xs : List α) (ys : List β) (z z' : Zip α β) : Prop where
  inv : Inv xs ys z'
  len : z'.len = z.len
  backs : z'.backs = z.backs

theorem Keeps.trans {z₁ z₂ z₃ : Zip α β} (h : Keeps xs ys z₁ z₂) (h' : Keeps xs ys z₂ z₃) :
    Keeps xs ys z₁ z₃ :=
  ⟨h'.inv, h'.len.trans h.len, h'.backs.trans h.backs⟩

theorem Inv.readA (hz : Inv xs ys z) {i : ℕ} (hi : i < min xs.length ys.length)
    (hout : i < z.index ∨ z.len ≤ i) :
    Inv xs ys { z with a := { z.a with passed := i :: z.a.passed } } :=
  ⟨hz.index_le, hz.len_le, hz.a.read hi hout, hz.b, hz.untrimmed⟩

theorem Inv.readB (hz : Inv xs ys z) {i : ℕ} (hi : i < min xs.length ys.length)
    (hout : i < z.index ∨ z.len ≤ i) :
    Inv xs ys { z with b := { z.b with passed := i :: z.b.passed } } :=
  ⟨hz.index_le, hz.len_le, hz.a, hz.b.read hi hout, hz.untrimmed⟩

theorem Inv.front (hz : Inv xs ys z) (h : z.index < z.len) :
    Inv xs ys { z with index := z.index+1 } :=
  ⟨h, hz.len_le, hz.a.narrow (Nat.le_succ _) le_rfl, hz.b.narrow (Nat.le_succ _) le_rfl, hz.untrimmed⟩

theorem getA_reaches (hz : Inv xs ys z) {i : ℕ} (hi : i < min xs.length ys.length)
    (hout : i < z.index ∨ z.len ≤ i) (hnew : i ∉ z.a.passed) :
    Reaches (Zip.onA (Inner.getUnchecked user.a i)) z st
      (fun x z' _ => xs[i]? = some x ∧ Keeps xs ys z z' ∧ z'.index = z.index ∧ z'.b = z.b)
      fun e z' _ => e = .user ∧ user.MayPanic ∧ Keeps xs ys z z' ∧ z'.index = z.index := by
  have hget : z.a.elems[i]? = some (xs.get ⟨i, hi.trans_le (min_le_left _ _)⟩) := by
    rw [hz.a.getElem? hi]
    exact List.getElem?_eq_getElem _
  apply Reaches.onPart
  apply (Inner.getUnchecked_reaches hget hnew).mono
  · rintro x it _ ⟨rfl, rfl⟩
    exact ⟨List.getElem?_eq_getElem _, ⟨hz.readA hi hout, rfl, rfl⟩, rfl, rfl⟩
  · rintro e it _ ⟨he, hpanic, rfl⟩
    exact ⟨he, .inl hpanic, ⟨hz.readA hi hout, rfl, rfl⟩, rfl⟩

theorem getB_reaches (hz : Inv xs ys z) {i : ℕ} (hi : i < min xs.length ys.length)
    (hout : i < z.index ∨ z.len ≤ i) (hnew : i ∉ z.b.passed) :
    Reaches (Zip.onB (Inner.getUnchecked user.b i)) z st
      (fun y z' _ => ys[i]? = some y ∧ Keeps xs ys z z' ∧ z'.index = z.index)
      fun e z' _ => e = .user ∧ user.MayPanic ∧ Keeps xs ys z z' ∧ z'.index = z.index := by
  have hget : z.b.elems[i]? = some (ys.get ⟨i, hi.trans_le (min_le_right _ _)⟩) := by
    rw [hz.b.getElem? hi]
    exact List.getElem?_eq_getElem _
  apply Reaches.onPart
  apply (Inner.getUnchecked_reaches hget hnew).mono
  · rintro y it _ ⟨rfl, rfl⟩
    exact ⟨List.getElem?_eq_getElem _, ⟨hz.readB hi hout, rfl, rfl⟩, rfl⟩
  · rintro e it _ ⟨he, hpanic, rfl⟩
    exact ⟨he, .inr hpanic, ⟨hz.readB hi hout, rfl, rfl⟩, rfl⟩

theorem getBoth_reaches (hz : Inv xs ys z) {i : ℕ} (hi : i < min xs.length ys.length)
    (hout : i < z.index ∨ z.len ≤ i) (ha : i ∉ z.a.passed) (hb : i ∉ z.b.passed) :
    Reaches (Zip.getBoth user i) z st
      (fun x z' _ => (xs.zip ys)[i]? = some x ∧ Keeps xs ys z z' ∧ z'.index = z.index)
      fun e z' _ => e = .user ∧ user.MayPanic ∧ Keeps xs ys z z' ∧ z'.index = z.index := by
  apply Reaches.bind
  apply (getA_reaches hz hi hout ha).mono
  · intro x z₁ st₁ hx
    obtain ⟨hx, hkeep, hindex, hzb⟩ := hx
    apply Reaches.bind
    apply (getB_reaches hkeep.inv hi (by rwa [hindex, hkeep.len]) (by rwa [hzb])).mono
    · intro y z₂ _ hy
      obtain ⟨hy, hkeep', hindex'⟩ := hy
      exact ⟨List.getElem?_zip_eq_some.mpr ⟨hx, hy⟩, hkeep.trans hkeep', hindex'.trans hindex⟩
    · intro e z₂ _ he
      obtain ⟨he, hpanic, hkeep', hindex'⟩ := he
      exact ⟨he, hpanic, hkeep.trans hkeep', hindex'.trans hindex⟩
  · exact fun _ _ _ h => h

theorem next_reaches (hz : Inv xs ys z) :
    Reaches (Zip.next user) z st
      (fun x z' _ => x = (rest xs ys z).head? ∧ rest xs ys z' = (rest xs ys z).tail ∧
        Keeps xs ys z z')
      fun e z' _ => e = .user ∧ user.MayPanic ∧ rest xs ys z ≠ [] ∧
        rest xs ys z' = (rest xs ys z).tail ∧ Keeps xs ys z z' := by
  apply reaches_get
  by_cases h : z.index < z.len
  · apply reaches_pos h
    apply reaches_put
    apply Reaches.bind
    have hle := hz.len_le
    have hunread := hz.a.unread z.index le_rfl h
    have hunread' := hz.b.unread z.index le_rfl h
    apply (getBoth_reaches (hz.front h) (h.trans_le hle) (.inl (Nat.lt_succ_self _)) hunread
      hunread').mono
    · intro x z' _ hx
      obtain ⟨hx, hkeep, hindex⟩ := hx
      refine ⟨?_, ?_, hkeep.inv, hkeep.len, hkeep.backs⟩
      · rw [rest_head? h, hx]
      · rw [rest_front hindex hkeep.len, List.drop_one]
    · intro e z' _ he
      obtain ⟨he, hpanic, hkeep, hindex⟩ := he
      refine ⟨he, hpanic, ?_, ?_, hkeep.inv, hkeep.len, hkeep.backs⟩
      · apply List.ne_nil_of_length_pos
        rw [length_rest hz]
        lia
      · rw [rest_front hindex hkeep.len, List.drop_one]
  · apply reaches_neg h
    have hnil := rest_nil hz (Nat.le_of_not_lt h)
    exact ⟨by rw [hnil]; rfl, by rw [hnil]; rfl, hz, rfl, rfl⟩

theorem superNth_reaches (n : ℕ) (hz : Inv xs ys z) :
    Reaches (Zip.superNth user n) z st
      (fun x z' _ => x = (rest xs ys z)[n]? ∧ rest xs ys z' = (rest xs ys z).drop (n+1) ∧
        Keeps xs ys z z')
      fun e z' _ => e = .user ∧ user.MayPanic ∧ ∃ k ≤ n, k < (rest xs ys z).length ∧
        rest xs ys z' = (rest xs ys z).drop (k+1) ∧ Keeps xs ys z z' := by
  induction n generalizing z st with
  | zero =>
    apply (next_reaches hz).mono
    · intro x z' _ hx
      rw [← List.head?_eq_getElem?, List.drop_one]
      exact hx
    · intro e z' _ he
      obtain ⟨he, hpanic, hne, hrest, hkeep⟩ := he
      refine ⟨he, hpanic, 0, le_rfl, List.length_pos_of_ne_nil hne, ?_, hkeep⟩
      rw [List.drop_one, hrest]
  | succ n ih =>
    apply Reaches.bind
    apply (next_reaches hz).mono
    · intro x z₁ st₁ hx
      obtain ⟨hx, hrest, hkeep⟩ := hx
      rcases hl : rest xs ys z with _ | ⟨p, l⟩
      · rw [hl] at hx hrest
        subst hx
        exact ⟨rfl, hrest, hkeep⟩
      · rw [hl] at hx hrest
        subst hx
        apply (ih hkeep.inv).mono
        · intro x z₂ _ hx
          obtain ⟨hx, hrest', hkeep'⟩ := hx
          rw [hrest] at hx hrest'
          exact ⟨hx, hrest', hkeep.trans hkeep'⟩
        · intro e z₂ _ he
          obtain ⟨he, hpanic, k, hk, hlt, hrest', hkeep'⟩ := he
          rw [hrest] at hlt hrest'
          exact ⟨he, hpanic, k+1, Nat.succ_le_succ hk, Nat.succ_lt_succ hlt, hrest', hkeep.trans hkeep'⟩
    · intro e z₁ _ he
      obtain ⟨he, hpanic, hne, hrest, hkeep⟩ := he
      refine ⟨he, hpanic, 0, Nat.zero_le _, List.length_pos_of_ne_nil hne, ?_, hkeep⟩
      rw [List.drop_one, hrest]

theorem minus_run {m n : ℕ} (h : n ≤ m) : Zip.minus m n z st = (.ok (m-n), z, st) := by
  rw [Zip.minus, if_pos h]
  rfl

theorem reaches_runIf {c : Bool} {m : Unwind.M Panic σ (Zip α β) Unit}
    {Q : Unit → Zip α β → σ → Prop} {E : Panic → Zip α β → σ → Prop}
    (hm : c = true → Reaches m z st Q E) (hQ : c = false → Q () z st) :
    Reaches (Zip.runIf c m) z st Q E := by
  cases c with
  | false => exact hQ rfl
  | true => exact hm rfl

theorem skipA_reaches (hz : Inv xs ys z) (h : z.index < z.len) :
    Reaches (Zip.runIf flags.a do
        let _ ← Zip.onA (Inner.getUnchecked user.a z.index)
        return ()) { z with index := z.index+1 } st
      (fun _ z' _ => Keeps xs ys z z' ∧ z'.index = z.index+1 ∧ z'.b = z.b)
      fun e z' _ => e = .user ∧ user.MayPanic ∧ Keeps xs ys z z' ∧ z'.index = z.index+1 := by
  have hkeep : Keeps xs ys z { z with index := z.index+1 } := ⟨hz.front h, rfl, rfl⟩
  apply reaches_runIf
  · intro _
    apply Reaches.bind
    apply (getA_reaches (hz.front h) (h.trans_le hz.len_le) (.inl (Nat.lt_succ_self _))
      (hz.a.unread _ le_rfl h)).mono
    · intro _ z' _ hz'
      exact ⟨hkeep.trans hz'.2.1, hz'.2.2.1, hz'.2.2.2⟩
    · intro e z' _ he
      exact ⟨he.1, he.2.1, hkeep.trans he.2.2.1, he.2.2.2⟩
  · exact fun _ => ⟨hkeep, rfl, rfl⟩

theorem skipB_reaches {z₁ : Zip α β} (hz : Inv xs ys z) (h : z.index < z.len)
    (hkeep : Keeps xs ys z z₁) (hindex : z₁.index = z.index+1) (hb : z₁.b = z.b) :
    Reaches (Zip.runIf flags.b do
        let _ ← Zip.onB (Inner.getUnchecked user.b z.index)
        return ()) z₁ st
      (fun _ z' _ => Keeps xs ys z z' ∧ z'.index = z.index+1)
      fun e z' _ => e = .user ∧ user.MayPanic ∧ Keeps xs ys z z' ∧ z'.index = z.index+1 := by
  apply reaches_runIf
  · intro _
    apply Reaches.bind
    have hnew : z.index ∉ z₁.b.passed := by
      rw [hb]
      exact hz.b.unread _ le_rfl h
    apply (getB_reaches hkeep.inv (h.trans_le hz.len_le) (.inl (by lia)) hnew).mono
    · intro _ z' _ hz'
      exact ⟨hkeep.trans hz'.2.1, hz'.2.2.trans hindex⟩
    · intro e z' _ he
      exact ⟨he.1, he.2.1, hkeep.trans he.2.2.1, he.2.2.2.trans hindex⟩
  · exact fun _ => ⟨hkeep, hindex⟩

theorem skipTo_reaches {stop fuel : ℕ} (hz : Inv xs ys z) (hstop : z.index ≤ stop)
    (hlen : stop ≤ z.len) (hfuel : stop-z.index < fuel) :
    Reaches (Zip.skipTo flags user stop fuel) z st
      (fun _ z' _ => z'.index = stop ∧ Keeps xs ys z z')
      fun e z' _ => e = .user ∧ user.MayPanic ∧ z.index < z'.index ∧ z'.index ≤ stop ∧
        Keeps xs ys z z' := by
  induction fuel generalizing z st with
  | zero => exact absurd hfuel (Nat.not_lt_zero _)
  | succ fuel ih =>
    apply reaches_get
    by_cases h : z.index < stop
    · have hlt := h.trans_le hlen
      apply reaches_pos h
      apply reaches_put
      apply Reaches.bind
      apply (skipA_reaches hz hlt).mono
      · intro _ z₁ st₁ hz₁
        obtain ⟨hkeep₁, hindex₁, hzb⟩ := hz₁
        apply Reaches.bind
        apply (skipB_reaches hz hlt hkeep₁ hindex₁ hzb).mono
        · intro _ z₂ st₂ hz₂
          obtain ⟨hkeep₂, hindex₂⟩ := hz₂
          apply (ih hkeep₂.inv (by lia) (by rw [hkeep₂.len]; exact hlen) (by lia)).mono
          · intro _ z' _ hz'
            exact ⟨hz'.1, hkeep₂.trans hz'.2⟩
          · intro e z' _ he
            exact ⟨he.1, he.2.1, by lia, he.2.2.2.1, hkeep₂.trans he.2.2.2.2⟩
        · intro e z' _ he
          exact ⟨he.1, he.2.1, by lia, by lia, he.2.2.1⟩
      · intro e z' _ he
        exact ⟨he.1, he.2.1, by lia, by lia, he.2.2.1⟩
    · apply reaches_neg h
      exact ⟨by lia, hz, rfl, rfl⟩

theorem nth_reaches (n : ℕ) (hz : Inv xs ys z) :
    Reaches (Zip.nth flags user n) z st
      (fun x z' _ => x = (rest xs ys z)[n]? ∧ rest xs ys z' = (rest xs ys z).drop (n+1) ∧
        Keeps xs ys z z')
      fun e z' _ => e = .user ∧ user.MayPanic ∧ ∃ k ≤ n, k < (rest xs ys z).length ∧
        rest xs ys z' = (rest xs ys z).drop (k+1) ∧ Keeps xs ys z z' := by
  have hlength := length_rest hz
  have hle := hz.index_le
  apply reaches_get
  apply reaches_step (minus_run hle)
  apply Reaches.bind
  apply (skipTo_reaches hz (Nat.le_add_right _ _) (by lia) (by lia)).mono
  · intro _ z₁ st₁ hz₁
    obtain ⟨hindex, hkeep⟩ := hz₁
    have hrest : rest xs ys z₁ = (rest xs ys z).drop (min n (z.len-z.index)) :=
      rest_front hindex hkeep.len
    apply (superNth_reaches _ hkeep.inv).mono
    · intro x z' _ hx
      obtain ⟨hx, hrest', hkeep'⟩ := hx
      rw [hrest, List.getElem?_drop] at hx
      rw [hrest, List.drop_drop] at hrest'
      by_cases hn : n ≤ z.len-z.index
      · rw [min_eq_left hn] at hx hrest'
        rw [show n+(n-n) = n by lia] at hx
        rw [show n+(n-n+1) = n+1 by lia] at hrest'
        exact ⟨hx, hrest', hkeep.trans hkeep'⟩
      · rw [List.getElem?_eq_none (by lia)] at hx
        rw [List.drop_eq_nil_of_le (by lia)] at hrest'
        refine ⟨?_, ?_, hkeep.trans hkeep'⟩
        · rw [List.getElem?_eq_none (by lia)]
          exact hx
        · rw [List.drop_eq_nil_of_le (by lia)]
          exact hrest'
    · intro e z' _ he
      obtain ⟨he, hpanic, k, hk, hlt, hrest', hkeep'⟩ := he
      rw [hrest, List.length_drop] at hlt
      rw [hrest, List.drop_drop] at hrest'
      exact ⟨he, hpanic, min n (z.len-z.index)+k, by lia, by lia, hrest', hkeep.trans hkeep'⟩
  · intro e z' _ he
    obtain ⟨he, hpanic, hlt, hle', hkeep⟩ := he
    refine ⟨he, hpanic, z'.index-z.index-1, by lia, by lia, ?_, hkeep⟩
    apply rest_front _ hkeep.len
    lia

theorem sizeHint_reaches (hz : Inv xs ys z) :
    Reaches Zip.sizeHint z st
      (fun x z' _ => x = ((rest xs ys z).length, some (rest xs ys z).length) ∧ z' = z)
      fun _ _ _ => False := by
  apply reaches_get
  apply reaches_step (minus_run hz.index_le)
  rw [length_rest hz]
  exact ⟨rfl, rfl⟩

end Calls

/-! ## Trimming -/

namespace Inner

variable {code : Code σ} {it : Inner α} {st : σ} {m lo hi : ℕ} {l : List α}

theorem Kept.dropLast {n : ℕ} (h : it.Kept l m lo hi) (hm : m < it.size) :
    Kept l m lo hi ⟨it.elems.dropLast, it.passed, n⟩ := by
  refine ⟨?_, h.unread, h.passed⟩
  obtain ⟨k, hk, heq⟩ := h.elems
  rw [size, heq, List.length_take] at hm
  refine ⟨min k l.length-1, by lia, ?_⟩
  show it.elems.dropLast = _
  rw [heq, List.dropLast_eq_take, List.length_take, List.take_take]
  congr 1
  lia

theorem nextBack_reaches (h : it.Kept l m lo hi) (hm : m < it.size) :
    Reaches (nextBack code) it st (fun _ it' _ => it'.Kept l m lo hi ∧ it'.size = it.size-1)
      fun e it' _ => e = .user ∧ code.MayPanic ∧ it'.Kept l m lo hi := by
  have hkeeps : ¬ ∃ i ∈ it.passed, it.elems.length ≤ i+1 := by
    rintro ⟨i, hi, hle⟩
    have hlt := h.passed i hi
    rw [size] at hm
    lia
  rw [Reaches, nextBack, if_neg hkeeps]
  rcases hback : code.nextBack st with ⟨_ | _ | _, st'⟩
  · exact ⟨h.dropLast hm, List.length_dropLast⟩
  · exact ⟨rfl, .inr ⟨st, by simp [hback]⟩, h.elems, h.unread, h.passed⟩
  · exact ⟨rfl, .inr ⟨st, by simp [hback]⟩, h.dropLast hm⟩

theorem trim_reaches (n : ℕ) (h : it.Kept l m lo hi) (hm : m+n ≤ it.size) :
    Reaches (trim code n) it st (fun _ it' _ => it'.Kept l m lo hi ∧ it'.size = it.size-n)
      fun e it' _ => e = .user ∧ code.MayPanic ∧ it'.Kept l m lo hi := by
  induction n generalizing it st with
  | zero => exact ⟨h, rfl⟩
  | succ n ih =>
    apply Reaches.bind
    apply (nextBack_reaches h (by lia)).mono
    · intro _ it₁ st₁ hit
      apply (ih hit.1 (by lia)).mono
      · intro _ it₂ _ hit'
        exact ⟨hit'.1, by lia⟩
      · exact fun _ _ _ h => h
    · exact fun _ _ _ h => h

end Inner

section Back

variable {xs : List α} {ys : List β} {z z' : Zip α β} {flags : Flags} {user : User σ} {st : σ} {old : ℕ}

/-- The back cursor has moved, and the element under it has not been read yet. -/
structure Opened (xs : List α) (ys : List β) (old : ℕ) (z : Zip α β) : Prop where
  index_lt : z.index < old
  len : z.len+1 = old
  le : old ≤ min xs.length ys.length
  a : z.a.Kept xs (min xs.length ys.length) z.index old
  b : z.b.Kept ys (min xs.length ys.length) z.index old

theorem Opened.inv (hz : Opened xs ys old z) : Inv xs ys z := by
  obtain ⟨hlt, hlen, hle, ha, hb⟩ := hz
  have hnarrow : z.len ≤ old := by lia
  exact ⟨by lia, by lia, ha.narrow le_rfl hnarrow, hb.narrow le_rfl hnarrow, by lia⟩

theorem trimA_reaches (hz : Opened xs ys (min xs.length ys.length) z) (ha : z.a.elems = xs) :
    Reaches (Zip.runIf (flags.a && decide (z.a.size > min xs.length ys.length))
        (Zip.onA (Inner.trim user.a (z.a.size-min xs.length ys.length)))) z st
      (fun _ z' _ => Opened xs ys (min xs.length ys.length) z' ∧ z'.index = z.index ∧ z'.b = z.b ∧
        z'.a.size = if flags.a then min xs.length ys.length else xs.length)
      fun e z' _ => e = .user ∧ user.MayPanic ∧ Opened xs ys (min xs.length ys.length) z' ∧
        z'.index = z.index := by
  have hsize : z.a.size = xs.length := by rw [Inner.size, ha]
  rw [hsize]
  apply reaches_runIf
  · intro hc
    obtain ⟨hflag, hgt⟩ := Bool.and_eq_true_iff.mp hc
    have hgt' : xs.length > min xs.length ys.length := of_decide_eq_true hgt
    apply Reaches.onPart
    apply (Inner.trim_reaches _ hz.a (by lia)).mono
    · intro _ it _ hit
      refine ⟨⟨hz.index_lt, hz.len, hz.le, hit.1, hz.b⟩, rfl, rfl, ?_⟩
      rw [if_pos hflag]
      show it.size = _
      lia
    · intro e it _ he
      exact ⟨he.1, .inl he.2.1, ⟨hz.index_lt, hz.len, hz.le, he.2.2, hz.b⟩, rfl⟩
  · intro hc
    refine ⟨hz, rfl, rfl, ?_⟩
    split_ifs with hflag
    · rw [hflag, Bool.true_and] at hc
      have hle := of_decide_eq_false hc
      have hmin := min_le_left xs.length ys.length
      lia
    · exact hsize

theorem trimB_reaches (hz : Opened xs ys (min xs.length ys.length) z) (hb : z.b.elems = ys) :
    Reaches (Zip.runIf (flags.b && decide (z.b.size > min xs.length ys.length))
        (Zip.onB (Inner.trim user.b (z.b.size-min xs.length ys.length)))) z st
      (fun _ z' _ => Opened xs ys (min xs.length ys.length) z' ∧ z'.index = z.index ∧ z'.a = z.a ∧
        z'.b.size = if flags.b then min xs.length ys.length else ys.length)
      fun e z' _ => e = .user ∧ user.MayPanic ∧ Opened xs ys (min xs.length ys.length) z' ∧
        z'.index = z.index := by
  have hsize : z.b.size = ys.length := by rw [Inner.size, hb]
  rw [hsize]
  apply reaches_runIf
  · intro hc
    obtain ⟨hflag, hgt⟩ := Bool.and_eq_true_iff.mp hc
    have hgt' : ys.length > min xs.length ys.length := of_decide_eq_true hgt
    apply Reaches.onPart
    apply (Inner.trim_reaches _ hz.b (by lia)).mono
    · intro _ it _ hit
      refine ⟨⟨hz.index_lt, hz.len, hz.le, hz.a, hit.1⟩, rfl, rfl, ?_⟩
      rw [if_pos hflag]
      show it.size = _
      lia
    · intro e it _ he
      exact ⟨he.1, .inr he.2.1, ⟨hz.index_lt, hz.len, hz.le, hz.a, he.2.2⟩, rfl⟩
  · intro hc
    refine ⟨hz, rfl, rfl, ?_⟩
    split_ifs with hflag
    · rw [hflag, Bool.true_and] at hc
      have hle := of_decide_eq_false hc
      have hmin := min_le_right xs.length ys.length
      lia
    · exact hsize

theorem sizes_eq (hflags : (flags.a || flags.b) = true) (hpos : 0 < min xs.length ys.length)
    (hbal : ¬ Unbalanced flags xs ys) :
    (if flags.a then min xs.length ys.length else xs.length) =
      if flags.b then min xs.length ys.length else ys.length := by
  rw [Unbalanced] at hbal
  rcases ha : flags.a with _ | _
  · rcases hb : flags.b with _ | _
    · rw [ha, hb] at hflags
      exact absurd hflags (by decide)
    · have hle : xs.length ≤ ys.length := by
        by_contra hlt
        exact hbal (.inr ⟨by lia, by lia, hb, ha⟩)
      simp only [Bool.false_eq_true, if_false, if_true]
      lia
  · rcases hb : flags.b with _ | _
    · have hle : ys.length ≤ xs.length := by
        by_contra hlt
        exact hbal (.inl ⟨by lia, by lia, ha, hb⟩)
      simp only [Bool.false_eq_true, if_false, if_true]
      lia
    · rfl

theorem assertSizes_reaches (h : flags.debug = true → z.a.size = z.b.size) :
    Reaches (Zip.assertSizes flags) z st (fun _ z' _ => z' = z) fun _ _ _ => False := by
  apply reaches_get
  apply reaches_runIf
  · intro hc
    obtain ⟨hdebug, hne⟩ := Bool.and_eq_true_iff.mp hc
    exact absurd (h hdebug) (bne_iff_ne.mp hne)
  · exact fun _ => rfl

theorem adjust_reaches (hflags : (flags.a || flags.b) = true)
    (hbal : flags.debug = true → ¬ Unbalanced flags xs ys) (hz : Opened xs ys old z)
    (huntrimmed : old = min xs.length ys.length → z.a.elems = xs ∧ z.b.elems = ys) :
    Reaches (Zip.adjust flags user old) z st
      (fun _ z' _ => Opened xs ys old z' ∧ z'.index = z.index ∧
        (old < min xs.length ys.length → z'.backs = z.backs))
      fun e z' _ => e = .user ∧ user.MayPanic ∧ Opened xs ys old z' ∧ z'.index = z.index ∧
        old = min xs.length ys.length := by
  apply reaches_get
  by_cases hc : z.a.size ≠ z.b.size ∧ (old = z.a.size ∨ old = z.b.size)
  · apply reaches_pos hc
    have hsizeA := hz.a.le_size (min_le_left _ _)
    have hsizeB := hz.b.le_size (min_le_right _ _)
    have hle := hz.le
    obtain rfl : old = min xs.length ys.length := by lia
    obtain ⟨ha, hb⟩ := huntrimmed rfl
    have hpos : 0 < min xs.length ys.length := Nat.zero_lt_of_lt hz.index_lt
    apply Reaches.bind
    apply (trimA_reaches hz ha).mono
    · intro _ z₁ st₁ hz₁
      obtain ⟨hopened₁, hindex₁, hzb, hsize₁⟩ := hz₁
      rw [← hzb] at hb ⊢
      apply Reaches.bind
      apply (trimB_reaches hopened₁ hb).mono
      · intro _ z₂ st₂ hz₂
        obtain ⟨hopened₂, hindex₂, hza, hsize₂⟩ := hz₂
        have hsizes : flags.debug = true → z₂.a.size = z₂.b.size := by
          intro hdebug
          rw [hza, hsize₁, hsize₂]
          exact sizes_eq hflags hpos (hbal hdebug)
        apply (assertSizes_reaches hsizes).mono
        · rintro _ z' _ rfl
          exact ⟨hopened₂, hindex₂.trans hindex₁, fun hlt => absurd hlt (lt_irrefl _)⟩
        · exact fun _ _ _ h => h.elim
      · intro e z' _ he
        exact ⟨he.1, he.2.1, he.2.2.1, he.2.2.2.trans hindex₁, rfl⟩
    · intro e z' _ he
      exact ⟨he.1, he.2.1, he.2.2.1, he.2.2.2, rfl⟩
  · apply reaches_neg hc
    exact ⟨hz, rfl, fun _ => rfl⟩

theorem nextBack_reaches (hbal : flags.debug = true → ¬ Unbalanced flags xs ys)
    (hz : Inv xs ys z) :
    Reaches (Zip.nextBack flags user) z st
      (fun x z' _ => x = (rest xs ys z).getLast? ∧ rest xs ys z' = (rest xs ys z).dropLast ∧
        Inv xs ys z' ∧ (z'.len < min xs.length ys.length ∧
          (z.len < min xs.length ys.length → z'.backs = z.backs) ∨ z' = z))
      fun e z' _ => e = .user ∧ user.MayPanic ∧ rest xs ys z ≠ [] ∧
        rest xs ys z' = (rest xs ys z).dropLast ∧ Inv xs ys z' ∧
        z'.len < min xs.length ys.length ∧
          (z.len < min xs.length ys.length → z'.backs = z.backs) := by
  apply reaches_get
  by_cases h : z.index < z.len
  · apply reaches_pos h
    apply reaches_put
    have hle := hz.len_le
    have hopened : Opened xs ys z.len { z with len := z.len-1 } :=
      ⟨h, by dsimp only; lia, hle, hz.a, hz.b⟩
    have hne : rest xs ys z ≠ [] := by
      apply List.ne_nil_of_length_pos
      rw [length_rest hz]
      lia
    have hadjust : Reaches (Zip.runIf (flags.a || flags.b) (Zip.adjust flags user z.len))
        { z with len := z.len-1 } st
        (fun _ z' _ => Opened xs ys z.len z' ∧ z'.index = z.index ∧
          (z.len < min xs.length ys.length → z'.backs = z.backs))
        fun e z' _ => e = .user ∧ user.MayPanic ∧ Opened xs ys z.len z' ∧ z'.index = z.index ∧
          z.len = min xs.length ys.length := by
      apply reaches_runIf
      · intro hflags
        exact adjust_reaches hflags hbal hopened hz.untrimmed
      · exact fun _ => ⟨hopened, rfl, fun _ => rfl⟩
    apply Reaches.bind
    apply hadjust.mono
    · intro _ z₁ st₁ hz₁
      obtain ⟨hopened₁, hindex₁, hbacks₁⟩ := hz₁
      have hlen₁ := hopened₁.len
      apply Reaches.bind
      have hunread := hopened₁.a.unread (z.len-1) (by lia) (by lia)
      have hunread' := hopened₁.b.unread (z.len-1) (by lia) (by lia)
      apply (getBoth_reaches hopened₁.inv (by lia) (.inr (by lia)) hunread hunread').mono
      · intro x z' _ hx
        obtain ⟨hx, hkeep, hindex⟩ := hx
        have hlen := hkeep.len
        refine ⟨?_, ?_, hkeep.inv, .inl ⟨by lia, fun hlt => hkeep.backs.trans (hbacks₁ hlt)⟩⟩
        · rw [rest_getLast? hz h, hx]
        · exact rest_back hz h (hindex.trans hindex₁) (by lia)
      · intro e z' _ he
        obtain ⟨he, hpanic, hkeep, hindex⟩ := he
        have hlen := hkeep.len
        refine ⟨he, hpanic, hne, ?_, hkeep.inv, by lia, fun hlt => hkeep.backs.trans (hbacks₁ hlt)⟩
        exact rest_back hz h (hindex.trans hindex₁) (by lia)
    · intro e z' _ he
      obtain ⟨he, hpanic, hopened', hindex, hold⟩ := he
      have hlen := hopened'.len
      refine ⟨he, hpanic, hne, ?_, hopened'.inv, by lia, by lia⟩
      exact rest_back hz h hindex (by lia)
  · apply reaches_neg h
    have hnil := rest_nil hz (Nat.le_of_not_lt h)
    exact ⟨by rw [hnil]; rfl, by rw [hnil]; rfl, hz, .inr rfl⟩

end Back

/-! ## Runs -/

section Runs

variable {xs : List α} {ys : List β} {z : Zip α β} {flags : Flags} {user : User σ} {st : σ}

/-- One while an adjusting call may still come. -/
def mayAdjust (xs : List α) (ys : List β) (s : Zip α β × σ) : ℕ :=
  if s.1.len = min xs.length ys.length then 1 else 0

def After (user : User σ) (xs : List α) (ys : List β) (c : Call) (z : Zip α β)
    (x : Answer (α × β)) (z' : Zip α β) : Prop :=
  Plain user.MayPanic c (rest xs ys z) x (rest xs ys z') ∧ Inv xs ys z' ∧
    (z'.len = z.len ∧ z'.backs = z.backs ∨
      z'.len < min xs.length ys.length ∧ (z.len < min xs.length ys.length → z'.backs = z.backs))

theorem perform_reaches (hbal : flags.debug = true → ¬ Unbalanced flags xs ys) (hz : Inv xs ys z)
    (c : Call) :
    Reaches (Zip.perform flags user c) z st (fun x z' _ => After user xs ys c z x z')
      fun e z' _ => After user xs ys c z (.panicked e) z' := by
  cases c with
  | next =>
    apply Reaches.bind
    apply (next_reaches hz).mono
    · intro x z' _ hx
      obtain ⟨rfl, hrest, hkeep⟩ := hx
      refine ⟨?_, hkeep.inv, .inl ⟨hkeep.len, hkeep.backs⟩⟩
      rw [hrest]
      exact .returns .next _
    · intro e z' _ he
      obtain ⟨rfl, hpanic, hne, hrest, hkeep⟩ := he
      refine ⟨?_, hkeep.inv, .inl ⟨hkeep.len, hkeep.backs⟩⟩
      rw [hrest]
      exact .next hpanic hne
  | nth n =>
    apply Reaches.bind
    apply (nth_reaches n hz).mono
    · intro x z' _ hx
      obtain ⟨rfl, hrest, hkeep⟩ := hx
      refine ⟨?_, hkeep.inv, .inl ⟨hkeep.len, hkeep.backs⟩⟩
      rw [hrest]
      exact .returns (.nth n) _
    · intro e z' _ he
      obtain ⟨rfl, hpanic, k, hk, hlt, hrest, hkeep⟩ := he
      refine ⟨?_, hkeep.inv, .inl ⟨hkeep.len, hkeep.backs⟩⟩
      rw [hrest]
      exact .nth n k hpanic hk hlt
  | nextBack =>
    apply Reaches.bind
    apply (nextBack_reaches hbal hz).mono
    · intro x z' _ hx
      obtain ⟨rfl, hrest, hinv, hend⟩ := hx
      refine ⟨?_, hinv, ?_⟩
      · rw [hrest]
        exact .returns .nextBack _
      · rcases hend with hend | rfl
        · exact .inr hend
        · exact .inl ⟨rfl, rfl⟩
    · intro e z' _ he
      obtain ⟨rfl, hpanic, hne, hrest, hinv, hend⟩ := he
      refine ⟨?_, hinv, .inr hend⟩
      rw [hrest]
      exact .nextBack hpanic hne
  | sizeHint =>
    apply Reaches.bind
    apply (sizeHint_reaches hz).mono
    · rintro x z' _ ⟨rfl, rfl⟩
      exact ⟨.returns .sizeHint _, hz, .inl ⟨rfl, rfl⟩⟩
    · exact fun _ _ _ h => h.elim

theorem After.mayAdjust_le {c : Call} {x : Answer (α × β)} {z' : Zip α β} {st' : σ}
    (h : After user xs ys c z x z') (hz : Inv xs ys z) :
    (if decide (0 < z'.backs-z.backs) then 1 else 0)+mayAdjust xs ys (z', st') ≤
      mayAdjust xs ys (z, st) := by
  have hle := hz.len_le
  obtain ⟨-, -, ⟨hlen, hbacks⟩ | ⟨hlt, hbacks⟩⟩ := h
  · rw [hbacks, Nat.sub_self, mayAdjust, mayAdjust, hlen]
    simp
  · have hzero : mayAdjust xs ys (z', st') = 0 := if_neg hlt.ne
    rw [hzero, mayAdjust]
    by_cases hz' : z.len < min xs.length ys.length
    · rw [hbacks hz', Nat.sub_self]
      simp
    · rw [if_pos (Nat.le_antisymm hle (Nat.le_of_not_lt hz'))]
      split_ifs <;> simp

theorem new_inv (xs : List α) (ys : List β) : Inv xs ys (Zip.new xs ys) := by
  refine ⟨Nat.zero_le _, le_rfl, ⟨⟨xs.length, min_le_left _ _, (List.take_length).symm⟩, ?_, ?_⟩,
    ⟨⟨ys.length, min_le_right _ _, (List.take_length).symm⟩, ?_, ?_⟩, fun _ => ⟨rfl, rfl⟩⟩
  · exact fun i _ _ => List.not_mem_nil
  · exact fun i hi => absurd hi List.not_mem_nil
  · exact fun i _ _ => List.not_mem_nil
  · exact fun i hi => absurd hi List.not_mem_nil

theorem rest_new (xs : List α) (ys : List β) : rest xs ys (Zip.new xs ys) = xs.zip ys := by
  rw [rest, Zip.new]
  dsimp only
  rw [List.drop_zero, ← List.length_zip, List.take_length]

theorem agrees (hbal : flags.debug = true → ¬ Unbalanced flags xs ys) (st : σ)
    (calls : List Call) : Agrees flags user xs ys st calls := by
  have hcall : ∀ c (s : Zip α β × σ) l, Inv xs ys s.1 ∧ l = rest xs ys s.1 →
      ∃ x w s' l', Zip.call flags user c s = some ((x, w), s') ∧ Plain user.MayPanic c l x l' ∧
        (Inv xs ys s'.1 ∧ l' = rest xs ys s'.1) ∧
        (if decide (0 < w) then 1 else 0)+mayAdjust xs ys s' ≤ mayAdjust xs ys s := by
    rintro c ⟨z, st⟩ _ ⟨hz, rfl⟩
    have hreaches : Reaches (Zip.perform flags user c) z st
        (fun x z' _ => After user xs ys c z x z') fun e z' _ => After user xs ys c z (.panicked e) z' :=
      perform_reaches hbal hz c
    obtain ⟨x, z', st', hrun, hafter⟩ | ⟨e, z', st', hrun, hafter⟩ := hreaches.cases
    · refine ⟨x, z'.backs-z.backs, (z', st'), rest xs ys z', ?_, hafter.1, ⟨hafter.2.1, rfl⟩,
        hafter.mayAdjust_le hz⟩
      rw [Zip.call, hrun]
    · refine ⟨.panicked e, z'.backs-z.backs, (z', st'), rest xs ys z', ?_, hafter.1,
        ⟨hafter.2.1, rfl⟩, hafter.mayAdjust_le hz⟩
      rw [Zip.call, hrun]
  obtain ⟨steps, s', hrun, hallowed, hcount⟩ :=
    run_allowed (fun w => decide (0 < w)) (mayAdjust xs ys) hcall calls
      (s := (Zip.new xs ys, st)) ⟨new_inv xs ys, (rest_new xs ys).symm⟩
  refine ⟨steps, s', hrun, hallowed, hcount.trans ?_⟩
  rw [mayAdjust]
  split_ifs <;> simp

theorem nextBack_asserts (hdebug : flags.debug = true) (h : Unbalanced flags xs ys) :
    Reaches (Zip.nextBack flags user) (Zip.new xs ys) st (fun _ _ _ => False)
      fun e _ _ => e = .assertion := by
  have hpos : 0 < min xs.length ys.length := by
    rcases h with h | h
    · lia
    · lia
  have hne : xs.length ≠ ys.length := by
    rcases h with h | h
    · lia
    · lia
  have hflags : (flags.a || flags.b) = true := by
    rcases h with ⟨-, -, ha, -⟩ | ⟨-, -, hb, -⟩
    · rw [ha, Bool.true_or]
    · rw [hb, Bool.or_true]
  have htrimA : (flags.a && decide (xs.length > min xs.length ys.length)) = false := by
    rcases h with ⟨-, hlt, -, -⟩ | ⟨-, -, -, ha⟩
    · rw [min_eq_left hlt.le, decide_eq_false (lt_irrefl _), Bool.and_false]
    · rw [ha, Bool.false_and]
  have htrimB : (flags.b && decide (ys.length > min xs.length ys.length)) = false := by
    rcases h with ⟨-, -, -, hb⟩ | ⟨-, hlt, -, -⟩
    · rw [hb, Bool.false_and]
    · rw [min_eq_right hlt.le, decide_eq_false (lt_irrefl _), Bool.and_false]
  apply reaches_get
  apply reaches_pos (show (Zip.new xs ys).index < (Zip.new xs ys).len from hpos)
  apply reaches_put
  rw [hflags]
  apply Reaches.bind
  apply reaches_get
  apply reaches_pos (show xs.length ≠ ys.length ∧
    (min xs.length ys.length = xs.length ∨ min xs.length ys.length = ys.length) by lia)
  change Reaches (do
    Zip.runIf (flags.a && decide (xs.length > min xs.length ys.length)) _
    Zip.runIf (flags.b && decide (ys.length > min xs.length ys.length)) _
    Zip.assertSizes flags) _ _ _ _
  rw [htrimA, htrimB]
  apply reaches_step (b := ()) rfl
  apply reaches_step (b := ()) rfl
  apply reaches_get
  rw [hdebug]
  show Reaches (Zip.runIf (xs.length != ys.length) _) _ _ _ _
  rw [bne_iff_ne.mpr hne]
  exact reaches_unwind rfl rfl

theorem not_agrees (hdebug : flags.debug = true) (h : Unbalanced flags xs ys) :
    ¬ Agrees flags user xs ys st [.nextBack] := by
  rintro ⟨steps, s', hrun, hallowed, -⟩
  have hasserts : Reaches (Zip.nextBack flags user) (Zip.new xs ys) st (fun _ _ _ => False)
      fun e _ _ => e = .assertion := nextBack_asserts hdebug h
  obtain ⟨-, -, -, -, hf⟩ | ⟨e, z', st', hnext, rfl⟩ := hasserts.cases
  · exact hf
  · have hperform : Zip.perform flags user .nextBack (Zip.new xs ys) st =
        (.error (.unwind .assertion), z', st') := bind_run_error hnext
    have hcall : Zip.call flags user .nextBack (Zip.new xs ys, st) =
        some ((.panicked .assertion, z'.backs-(Zip.new xs ys).backs), (z', st')) := by
      rw [Zip.call, hperform]
    rw [run, hcall] at hrun
    simp only [some_bind, run, Option.pure_def, Option.some_inj,
      Prod.mk.injEq] at hrun
    obtain ⟨rfl, -⟩ := hrun
    generalize xs.zip ys = l at hallowed
    cases hallowed with
    | cons hplain _ =>
      generalize hx : (Answer.panicked Panic.assertion : Answer (α × β)) = x at hplain
      cases hplain with
      | returns => cases hx
      | nextBack => cases hx

end Runs

/-! ## Without the specialisation -/

namespace General

theorem trim_eq (n : ℕ) (l : List γ) : trim n l = l.take (l.length-n) := by
  induction n generalizing l with
  | zero => exact List.take_length.symm
  | succ n ih =>
    rw [trim, Function.iterate_succ_apply]
    change trim n l.dropLast = _
    rw [ih, List.length_dropLast, List.dropLast_eq_take, List.take_take]
    congr 1
    lia

theorem adjust_zip (z : General α β) : (adjust z).a.length = (adjust z).b.length ∧
    (adjust z).a.zip (adjust z).b = z.a.zip z.b := by
  rw [adjust]
  by_cases hne : z.a.length ≠ z.b.length
  · rw [if_pos hne]
    have hzip : z.a.zip z.b = (z.a.take (min z.a.length z.b.length)).zip
        (z.b.take (min z.a.length z.b.length)) := List.zip_eq_zip_take_min
    rw [hzip]
    by_cases hgt : z.a.length > z.b.length
    · rw [if_pos hgt]
      dsimp only
      rw [trim_eq, Nat.sub_sub_self hgt.le, min_eq_right hgt.le, List.take_length (l := z.b),
        List.length_take]
      exact ⟨min_eq_left hgt.le, rfl⟩
    · rw [if_neg hgt]
      have hle := Nat.le_of_not_lt hgt
      dsimp only
      rw [trim_eq, Nat.sub_sub_self hle, min_eq_left hle, List.take_length (l := z.a),
        List.length_take]
      exact ⟨(min_eq_left hle).symm, rfl⟩
  · rw [if_neg hne]
    exact ⟨not_not.mp hne, rfl⟩

theorem next_eq (z : General α β) : (next z).1 = (z.a.zip z.b).head? ∧
    (next z).2.a.zip (next z).2.b = (z.a.zip z.b).tail := by
  obtain ⟨_ | ⟨x, a⟩, _ | ⟨y, b⟩⟩ := z
  · exact ⟨rfl, rfl⟩
  · exact ⟨rfl, rfl⟩
  · exact ⟨rfl, List.zip_nil_right⟩
  · exact ⟨rfl, rfl⟩

theorem superNth_eq (n : ℕ) (z : General α β) : (superNth n z).1 = (z.a.zip z.b)[n]? ∧
    (superNth n z).2.a.zip (superNth n z).2.b = (z.a.zip z.b).drop (n+1) := by
  induction n generalizing z with
  | zero =>
    rw [← List.head?_eq_getElem?, List.drop_one]
    exact next_eq z
  | succ n ih =>
    obtain ⟨hitem, hrest⟩ := next_eq z
    rw [superNth]
    rcases hnext : next z with ⟨_ | x, z'⟩
    · rw [hnext] at hitem hrest
      rw [List.head?_eq_none_iff.mp hitem.symm] at hrest ⊢
      exact ⟨rfl, hrest⟩
    · rw [hnext] at hitem hrest
      obtain ⟨l, hl⟩ := List.head?_eq_some_iff.mp hitem.symm
      have hih := ih z'
      rw [hl] at hrest ⊢
      rw [hrest] at hih
      exact hih

theorem nextBack_eq (z : General α β) : ∃ z', nextBack z = some ((z.a.zip z.b).getLast?, z') ∧
    z'.a.zip z'.b = (z.a.zip z.b).dropLast := by
  obtain ⟨hlength, hzip⟩ := adjust_zip z
  rw [nextBack, ← hzip]
  generalize adjust z = z at hlength
  obtain ⟨a, b⟩ := z
  dsimp only at hlength ⊢
  rcases List.eq_nil_or_concat a with rfl | ⟨a, x, rfl⟩
  · obtain rfl := List.eq_nil_of_length_eq_zero hlength.symm
    exact ⟨⟨[], []⟩, rfl, rfl⟩
  · rcases List.eq_nil_or_concat b with rfl | ⟨b, y, rfl⟩
    · rw [List.concat_eq_append, List.length_append] at hlength
      cases hlength
    · rw [List.concat_eq_append, List.concat_eq_append] at hlength ⊢
      rw [List.length_append, List.length_append, List.length_singleton, List.length_singleton] at hlength
      rw [List.zip_append (Nat.succ_injective hlength)]
      rw [List.zip_cons_cons, List.zip_nil_left, List.getLast?_concat, List.getLast?_concat,
        List.getLast?_concat, List.dropLast_concat, List.dropLast_concat, List.dropLast_concat]
      exact ⟨⟨a, b⟩, rfl, rfl⟩

theorem call_takes (c : Call) (z : General α β) (l : List (α × β)) (hl : l = z.a.zip z.b) :
    Takes General.call plain (fun z l => l = z.a.zip z.b) c z l := by
  subst hl
  cases c with
  | next =>
    obtain ⟨hitem, hrest⟩ := next_eq z
    refine ⟨(next z).2, ?_, hrest.symm⟩
    rw [plain, ← hitem]
    rfl
  | nth n =>
    obtain ⟨hitem, hrest⟩ := superNth_eq n z
    refine ⟨(superNth n z).2, ?_, hrest.symm⟩
    rw [plain, ← hitem]
    rfl
  | nextBack =>
    obtain ⟨z', hback, hrest⟩ := nextBack_eq z
    refine ⟨z', ?_, hrest.symm⟩
    rw [General.call, hback]
    rfl
  | sizeHint =>
    refine ⟨z, ?_, rfl⟩
    rw [General.call, sizeHint, ← List.length_zip]
    rfl

theorem follows (xs : List α) (ys : List β) :
    Follows General.call plain (fun _ => True) (fun _ _ => True) ⟨xs, ys⟩ (xs.zip ys) :=
  follows_of_takes (fun c z l _ hl => call_takes c z l hl) (fun _ _ _ => trivial) rfl

end General

/-- Both implementations agree with the list of pairs, the specialised one if debug assertions are left
out or if not only the shorter iterator may have side effects. -/
theorem zip_agrees_iff (flags : Flags) (xs : List α) (ys : List β) :
    Follows General.call plain (fun _ => True) (fun _ _ => True) ⟨xs, ys⟩ (xs.zip ys) ∧
      ((∀ (σ : Type) (user : User σ) (st : σ) (calls : List Call),
        Agrees flags user xs ys st calls) ↔ ¬ (flags.debug = true ∧ Unbalanced flags xs ys)) := by
  refine ⟨General.follows xs ys, fun h hfails => ?_, fun h σ user st calls => ?_⟩
  · have user : User Unit := ⟨⟨fun _ st => (false, st), fun st => (.returns, st)⟩,
      ⟨fun _ st => (false, st), fun st => (.returns, st)⟩⟩
    exact not_agrees hfails.1 hfails.2 (h Unit user () [.nextBack])
  · exact agrees (fun hdebug hunbalanced => h ⟨hdebug, hunbalanced⟩) st calls

/-- `[1, 2].iter().map(f).zip([1, 2, 3].iter()).next_back()`. -/
theorem nextBack_debug_fails : ¬ ∀ (σ : Type) (user : User σ) (st : σ) (calls : List Call),
    Agrees ⟨true, false, true⟩ user [1, 2] [1, 2, 3] st calls := by
  intro h
  have user : User Unit := ⟨⟨fun _ st => (false, st), fun st => (.returns, st)⟩,
    ⟨fun _ st => (false, st), fun st => (.returns, st)⟩⟩
  exact not_agrees rfl (.inl (by decide)) (h Unit user () [.nextBack])

end RustStd.Zipping
