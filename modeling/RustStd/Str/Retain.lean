import RustStd.Slice.Rotate
import RustStd.Str.Split
import RustStd.Vec.RetainMut

/-!
# `String::retain`

A char that stays is encoded again over the bytes of those that went, so behind the kept chars
the string is not valid while the loop runs. The guard sets the length on both ways out.
-/

set_option autoImplicit false

namespace RustStd.StringEdits
open RustStd.Unwind RustStd.Utf8Grammar RustStd.Chars RustStd.CharMethods RustStd.StrIter
open RustStd.CharPattern RustStd.Vec
open RustStd.StrSplit (getUnchecked)
open RustStd.Rotate (readBlock writeBlock)

variable {ε σ S β : Type}

/-- The bytes of a string's vector; the first `len` are the string. -/
structure Buffer where
  bytes : List UInt8
  len : ℕ
  deriving DecidableEq, Repr

def Buffer.of (bytes : List UInt8) : Buffer := ⟨bytes, bytes.length⟩

def Buffer.str (b : Buffer) : List UInt8 := b.bytes.take b.len

structure SetLenOnDrop where
  s : Buffer
  idx : ℕ
  delBytes : ℕ
  deriving DecidableEq, Repr

abbrev CharPredicate (ε σ : Type) : Type := σ → Char → Except ε Bool × σ

def call (f : CharPredicate ε σ) (ch : Char) : M ε σ S Bool := fun s st =>
  let (r, st) := f st ch
  (r.mapError .unwind, s, st)

def defined : Option β → M ε σ S β
  | none => exit .outOfBounds
  | some b => pure b

namespace SetLenOnDrop

def nextChar (guard : SetLenOnDrop) (len : ℕ) : Option Char := do
  let rest ← getUnchecked guard.s.str guard.idx len
  let (ch, _) ← (chars rest).next
  ch

def encode (guard : SetLenOnDrop) (ch : Char) : Option SetLenOnDrop := do
  let start ← Checked.sub guard.idx guard.delBytes
  let dst ← readBlock guard.s.bytes start (lenUtf8 ch.toNat)
  let (_, dst) ← encodeUtf8 ch dst
  let bytes ← writeBlock guard.s.bytes start dst
  return { guard with s := { guard.s with bytes } }

/-- What the answer of the predicate does to the bytes. -/
def settle (guard : SetLenOnDrop) (ch : Char) (keep : Bool) : Option SetLenOnDrop :=
  if !keep then some { guard with delBytes := guard.delBytes+lenUtf8 ch.toNat }
  else if guard.delBytes > 0 then guard.encode ch
  else some guard

def advance (guard : SetLenOnDrop) (ch : Char) : SetLenOnDrop :=
  { guard with idx := guard.idx+lenUtf8 ch.toNat }

def drop (guard : SetLenOnDrop) : Option SetLenOnDrop := do
  let newLen ← Checked.sub guard.idx guard.delBytes
  if newLen ≤ guard.s.len then some { guard with s := { guard.s with len := newLen } }
  else none

end SetLenOnDrop

def retainLoop (f : CharPredicate ε σ) (len : ℕ) : ℕ → M ε σ SetLenOnDrop Unit
  | 0 => exit .outOfFuel
  | fuel+1 => do
    let guard ← get
    if guard.idx < len then do
      let ch ← defined (guard.nextChar len)
      let keep ← call f ch
      let guard ← defined (guard.settle ch keep)
      put (guard.advance ch)
      retainLoop f len fuel
    else pure ()

def dropGuard : M ε σ SetLenOnDrop Unit := do
  let guard ← get
  let guard ← defined guard.drop
  put guard

def retain (f : CharPredicate ε σ) : M ε σ Buffer Unit := do
  let s ← get
  let len := s.len
  onPart (fun s => ⟨s, 0, 0⟩) (fun guard _ => guard.s) (onExit (retainLoop f len (len+1)) dropGuard)

/-! ## The calls -/

inductive Calls (f : CharPredicate ε σ) : σ → Processed Char → σ → Prop
  | nil (st : σ) : Calls f st [] st
  | cons {st st' st'' : σ} {c : Char} {keep : Bool} {p : Processed Char}
      (h : f st c = (.ok keep, st')) (hrest : Calls f st' p st'') : Calls f st ((c, keep) :: p) st''

/-- No char is left, or the call for the first of them unwinds. -/
inductive Stops (f : CharPredicate ε σ) (st : σ) : List Char → Except ε Unit → σ → Prop
  | done : Stops f st [] (.ok ()) st
  | unwound {c : Char} {cs : List Char} {e : ε} {st' : σ} (h : f st c = (.error e, st')) :
      Stops f st (c :: cs) (.error e) st'

/-! ## The gap -/

section Gap

variable {T : Type}

theorem writeBlock_gap (out junk piece tail : List T) :
    ∃ junk', junk'.length = junk.length ∧
      writeBlock (out ++ junk ++ piece ++ tail) out.length piece =
        some (out ++ piece ++ junk' ++ tail) := by
  refine ⟨(junk ++ piece).drop piece.length, by simp, ?_⟩
  have hsplit : out ++ junk ++ piece ++ tail = out ++ ((junk ++ piece) ++ tail) := by simp
  have hdrop : (out ++ ((junk ++ piece) ++ tail)).drop (out.length+piece.length) =
      (junk ++ piece).drop piece.length ++ tail := by
    rw [List.drop_length_add_append, List.drop_append_of_le_length (by simp)]
  rw [hsplit, writeBlock, if_pos (by simp; omega), hdrop, List.take_left]
  simp

end Gap

/-! ## The loop -/

/-- The guard after the chars of `p`: the kept ones, a gap, and the chars to come. -/
def guardAt (p : Processed Char) (junk : List UInt8) (rest : List Char) (len : ℕ) : SetLenOnDrop :=
  ⟨⟨encoded (kept p) ++ junk ++ encoded rest, len⟩, size (p.map (·.1)), size (removed p)⟩

/-- The gap has the size of what was removed. -/
structure Gapped (p : Processed Char) (junk : List UInt8) (rest : List Char) (len : ℕ) : Prop where
  junk_length : junk.length = size (removed p)
  len_eq : len = size (p.map (·.1) ++ rest)

section Step

variable {f : CharPredicate ε σ} {p : Processed Char} {junk : List UInt8} {rest : List Char}
  {c : Char} {len : ℕ} {st st' : σ}

theorem lenUtf8_size (c : Char) : lenUtf8 c.toNat = size [c] := by
  rw [← utf8Bytes_length, size, encoded_cons]
  simp [encoded]

theorem getUnchecked_tail (u : List UInt8) (cs : List Char) :
    getUnchecked (u ++ encoded cs) u.length (u ++ encoded cs).length = some (encoded cs) := by
  have hend : isCharBoundary (u ++ encoded cs) (u ++ encoded cs).length = true := by
    simp [isCharBoundary]
  have hstart : isCharBoundary (u ++ encoded cs) u.length = true := by
    cases hcs : encoded cs with
    | nil => simp [isCharBoundary]
    | cons b r =>
      have hwf : WellFormed (b :: r) := hcs ▸ encoded_wellFormed cs
      exact Pattern.isCharBoundary_of_not_tail (by simp) (wellFormed_head hwf)
  rw [getUnchecked, if_pos ⟨by simp, hstart, hend⟩, List.take_length, List.drop_left]

theorem size_kept_add (p : Processed Char) :
    size (kept p)+size (removed p) = size (p.map (·.1)) := by
  induction p with
  | nil => rfl
  | cons x p ih =>
    obtain ⟨c, keep⟩ := x
    have hmap : ((c, keep) :: p).map (·.1) = c :: p.map (·.1) := rfl
    rw [hmap, size_cons, ← ih]
    cases keep with
    | true =>
      have hk : kept ((c, true) :: p) = c :: kept p := rfl
      have hr : removed ((c, true) :: p) = removed p := rfl
      rw [hk, hr, size_cons, Nat.add_assoc]
    | false =>
      have hk : kept ((c, false) :: p) = kept p := rfl
      have hr : removed ((c, false) :: p) = c :: removed p := rfl
      rw [hk, hr, size_cons c (removed p), Nat.add_left_comm]

theorem Gapped.front_length (h : Gapped p junk rest len) :
    (encoded (kept p) ++ junk).length = size (p.map (·.1)) := by
  rw [List.length_append, h.junk_length, ← size_kept_add]
  rfl

theorem Gapped.bytes_length (h : Gapped p junk rest len) :
    (encoded (kept p) ++ junk ++ encoded rest).length = len := by
  rw [List.length_append, h.front_length, h.len_eq, size_append]
  rfl

theorem nextChar_at (h : Gapped p junk (c :: rest) len) :
    (guardAt p junk (c :: rest) len).nextChar len = some c := by
  have hstr : (guardAt p junk (c :: rest) len).s.str =
      encoded (kept p) ++ junk ++ encoded (c :: rest) := by
    change List.take _ _ = _
    rw [← h.bytes_length]
    exact List.take_length
  have hidx : (guardAt p junk (c :: rest) len).idx = (encoded (kept p) ++ junk).length :=
    h.front_length.symm
  rw [SetLenOnDrop.nextChar, hstr, hidx]
  conv_lhs => rw [← h.bytes_length]
  rw [getUnchecked_tail, some_bind, chars, encoded_cons,
    Chars.next_encoded]
  rfl

theorem encode_at (p : Processed Char) (junk : List UInt8) (c : Char) (rest : List Char)
    (len : ℕ) : ∃ junk', junk'.length = junk.length ∧
      (guardAt p junk (c :: rest) len).encode c =
        some ⟨⟨encoded (kept p) ++ utf8Bytes c.toNat ++ junk' ++ encoded rest, len⟩,
          size (p.map (·.1)), size (removed p)⟩ := by
  obtain ⟨junk', hlen, hwrite⟩ :=
    writeBlock_gap (encoded (kept p)) junk (utf8Bytes c.toNat) (encoded rest)
  have hbytes : (guardAt p junk (c :: rest) len).s.bytes =
      encoded (kept p) ++ junk ++ utf8Bytes c.toNat ++ encoded rest := by
    change _ ++ encoded (c :: rest) = _
    rw [encoded_cons, ← List.append_assoc]
  have hstart : Checked.sub (guardAt p junk (c :: rest) len).idx
      (guardAt p junk (c :: rest) len).delBytes = some (encoded (kept p)).length := by
    change Checked.sub (size _) (size _) = some (size (kept p))
    rw [← size_kept_add, Checked.sub, if_pos (Nat.le_add_left ..), Nat.add_sub_cancel]
  obtain ⟨dst, hread, hdst⟩ : ∃ dst, readBlock (guardAt p junk (c :: rest) len).s.bytes
      (encoded (kept p)).length (lenUtf8 c.toNat) = some dst ∧ dst.length = lenUtf8 c.toNat := by
    have hle : (encoded (kept p)).length+lenUtf8 c.toNat ≤
        (guardAt p junk (c :: rest) len).s.bytes.length := by
      rw [hbytes, ← utf8Bytes_length]
      simp only [List.length_append]
      omega
    refine ⟨_, if_pos hle, ?_⟩
    rw [List.length_take, List.length_drop]
    omega
  have henc : encodeUtf8 c dst = some (utf8Bytes c.toNat, utf8Bytes c.toNat) := by
    rw [encodeUtf8_eq c dst hdst.ge, List.drop_eq_nil_of_le hdst.le, List.append_nil]
  refine ⟨junk', hlen, ?_⟩
  rw [SetLenOnDrop.encode, hstart]
  simp only [some_bind, hread, henc]
  rw [hbytes, hwrite]
  rfl

theorem settle_at (h : Gapped p junk (c :: rest) len) (keep : Bool) :
    ∃ guard junk', (guardAt p junk (c :: rest) len).settle c keep = some guard ∧
      guard.advance c = guardAt (p ++ [(c, keep)]) junk' rest len ∧
      Gapped (p ++ [(c, keep)]) junk' rest len := by
  have hmap : (p ++ [(c, keep)]).map (·.1) = p.map (·.1) ++ [c] := by simp
  have hidx : size ((p ++ [(c, keep)]).map (·.1)) = size (p.map (·.1))+lenUtf8 c.toNat := by
    rw [hmap, size_append, lenUtf8_size]
  have hlen : len = size ((p ++ [(c, keep)]).map (·.1) ++ rest) := by
    rw [h.len_eq, hmap, List.append_assoc]
    rfl
  cases keep with
  | false =>
    refine ⟨_, junk ++ utf8Bytes c.toNat, rfl, ?_, ?_, hlen⟩
    · simp only [SetLenOnDrop.advance, guardAt, hidx, kept_false, removed_false, size_append,
        lenUtf8_size, encoded_cons, List.append_assoc]
    · rw [List.length_append, h.junk_length, removed_false, size_append, utf8Bytes_length,
        lenUtf8_size]
  | true =>
    by_cases hdel : size (removed p) > 0
    · obtain ⟨junk', hjunk, henc⟩ := encode_at p junk c rest len
      refine ⟨_, junk', (if_neg (by decide)).trans ((if_pos hdel).trans henc), ?_, ?_, hlen⟩
      · simp only [SetLenOnDrop.advance, guardAt, hidx, kept_true, removed_true, encoded_concat]
      · rw [hjunk, h.junk_length, removed_true]
    · have hzero : size (removed p) = 0 := by omega
      have hnil : junk = [] := List.eq_nil_of_length_eq_zero (h.junk_length.trans hzero)
      refine ⟨_, [], (if_neg (by decide)).trans (if_neg hdel), ?_, ?_, hlen⟩
      · simp only [SetLenOnDrop.advance, guardAt, hidx, kept_true, removed_true, encoded_concat,
          hnil, encoded_cons, List.append_nil, List.append_assoc]
      · rw [removed_true, hzero]
        rfl

theorem retainLoop_run (f : CharPredicate ε σ) (st : σ) {fuel : ℕ} (h : Gapped p junk rest len) (hfuel : rest.length < fuel) :
    ∃ q junk' rest' st₁ r st₂, rest = q.map (·.1) ++ rest' ∧ Calls f st q st₁ ∧
      Stops f st₁ rest' r st₂ ∧ Gapped (p ++ q) junk' rest' len ∧
      retainLoop f len fuel (guardAt p junk rest len) st =
        (r.mapError .unwind, guardAt (p ++ q) junk' rest' len, st₂) := by
  induction rest generalizing p junk st fuel with
  | nil =>
    obtain ⟨fuel, rfl⟩ : ∃ m, fuel = m+1 := ⟨fuel-1, by omega⟩
    refine ⟨[], junk, [], st, .ok (), st, rfl, .nil st, .done, by rwa [List.append_nil], ?_⟩
    have hidx : ¬(guardAt p junk [] len).idx < len := by
      rw [h.len_eq, List.append_nil]
      exact lt_irrefl _
    rw [retainLoop, get_run, ite_run_neg hidx, List.append_nil]
    rfl
  | cons c rest ih =>
    obtain ⟨fuel, rfl⟩ : ∃ m, fuel = m+1 := ⟨fuel-1, by omega⟩
    have hidx : (guardAt p junk (c :: rest) len).idx < len := by
      rw [h.len_eq, size_append, size_cons]
      have hpos := size_pos c
      change size _ < _
      omega
    rw [retainLoop, get_run, ite_run_pos hidx, nextChar_at h]
    rcases hf : f st c with ⟨e | keep, st'⟩
    · refine ⟨[], junk, c :: rest, st, .error e, st', rfl, .nil st, .unwound hf,
        by rwa [List.append_nil], ?_⟩
      rw [List.append_nil]
      apply (bind_run rfl).trans
      apply bind_run_error
      rw [call, hf]
      rfl
    · obtain ⟨guard, junk', hsettle, hadvance, hgap⟩ := settle_at h keep
      obtain ⟨q, junk'', rest', st₁, r, st₂, hrest, hcalls, hstops, hgap', hrun⟩ :=
        ih st' hgap (by simpa using hfuel)
      refine ⟨(c, keep) :: q, junk'', rest', st₁, r, st₂, ?_, .cons hf hcalls, hstops, ?_, ?_⟩
      · rw [hrest]
        rfl
      · rwa [List.append_cons]
      · rw [List.append_cons, ← hrun, ← hadvance]
        apply (bind_run rfl).trans
        have hcall : (call f c : M ε σ SetLenOnDrop Bool) (guardAt p junk (c :: rest) len) st =
            (.ok keep, guardAt p junk (c :: rest) len, st') := by
          rw [call, hf]
          rfl
        apply (bind_run hcall).trans
        rw [hsettle]
        rfl

theorem dropGuard_run (h : Gapped p junk rest len) :
    (dropGuard : M ε σ SetLenOnDrop Unit) (guardAt p junk rest len) st =
      (.ok (), { guardAt p junk rest len with
        s := ⟨encoded (kept p) ++ junk ++ encoded rest, size (kept p)⟩ }, st) := by
  have hsub : Checked.sub (guardAt p junk rest len).idx (guardAt p junk rest len).delBytes =
      some (size (kept p)) := by
    change Checked.sub (size _) (size _) = _
    rw [← size_kept_add, Checked.sub, if_pos (Nat.le_add_left ..), Nat.add_sub_cancel]
  have hle : size (kept p) ≤ (guardAt p junk rest len).s.len := by
    change _ ≤ len
    have hadd := size_kept_add p
    rw [h.len_eq, size_append]
    omega
  rw [dropGuard, get_run, SetLenOnDrop.drop, hsub, some_bind,
    if_pos hle]
  rfl

theorem retain_run (f : CharPredicate ε σ) (cs : List Char) (st : σ) :
    ∃ p rest st₁ r st₂ b, cs = p.map (·.1) ++ rest ∧ Calls f st p st₁ ∧ Stops f st₁ rest r st₂ ∧
      retain f (Buffer.of (encoded cs)) st = (r.mapError .unwind, b, st₂) ∧
      b.str = encoded (kept p) := by
  have hgap : Gapped [] [] cs (size cs) := ⟨rfl, rfl⟩
  obtain ⟨p, junk, rest, st₁, r, st₂, hcs, hcalls, hstops, hgap', hrun⟩ :=
    retainLoop_run f st hgap (Nat.lt_succ_of_le (length_le_size cs))
  rw [List.nil_append] at hgap' hrun
  refine ⟨p, rest, st₁, r, st₂, ⟨encoded (kept p) ++ junk ++ encoded rest, size (kept p)⟩, hcs,
    hcalls, hstops, ?_, ?_⟩
  · have hexit := onExit_run hrun (dropGuard_run hgap')
    rw [retain, get_run]
    exact Eq.trans (onPart_run hexit) rfl
  · rw [Buffer.str, List.append_assoc]
    exact List.take_left

end Step

end RustStd.StringEdits
