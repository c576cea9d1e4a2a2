import RustStd.Io.BufReader

/-!
# Runs of the buffered reader

`Conforms` says what each call may return at a position of the stream and where
it leaves the caller, without a word about a buffer. A run of the buffered
reader conforms from its logical position on.
-/

set_option autoImplicit false

namespace RustStd.Io.BufReaderRuns
open RustStd.Fallible RustStd.Io.BufReader

variable {ρ : Type}

/-- The calls with their arguments. The reader's user consumes at most `amt` of
the bytes that `fill_buf` shows; room for `read_to_end` is `reserved` or not. -/
inductive Op
  | read (len : ℕ)
  | readExact (len : ℕ)
  | readVectored (lens : List ℕ)
  | fillBuf (amt : ℕ)
  | peek (n : ℕ)
  | readToEnd (reserved : Bool)
  | seekRelative (offset : ℤ)
  | seek (pos : SeekFrom)
  | streamPosition

inductive Reply
  | bytes (r : Except IoError (List UInt8))
  | got (bytes : List UInt8) (r : Except IoError Unit)
  | all (bytes : List UInt8) (r : Except IoError ℕ)
  | done (r : Except IoError Unit)
  | position (r : Except IoError ℕ)

def fillConsume (R : Read ρ) (amt : ℕ) : Action ρ (List UInt8) := do
  let buf ← BufReader.fillBuf R
  consume (min amt buf.length)
  return buf

def call (R : Read ρ) (checks : Bool) (fuel : ℕ) : Op → Action ρ Reply
  | .read len => do return .bytes (← attempt (BufReader.read R len))
  | .readExact len => do
    let (bytes, r) ← BufReader.readExact R fuel len
    return .got bytes r
  | .readVectored lens => do return .bytes (← attempt (BufReader.readVectored R lens))
  | .fillBuf amt => do return .bytes (← attempt (fillConsume R amt))
  | .peek n => do return .bytes (← attempt (BufReader.peek R fuel n))
  | .readToEnd reserved => do
    let (bytes, r) ← BufReader.readToEnd R reserved
    return .all bytes r
  | .seekRelative offset => do return .done (← attempt (BufReader.seekRelative R checks offset))
  | .seek pos => do return .position (← attempt (BufReader.seek R pos))
  | .streamPosition => do return .position (← attempt (BufReader.streamPosition R))

def run (R : Read ρ) (checks : Bool) (fuel : ℕ) : List Op → Action ρ (List (Op × Reply))
  | [] => pure []
  | op :: ops => do
    let r ← call R checks fuel op
    let log ← run R checks fuel ops
    return (op, r) :: log

/-- A call at position `l` of the stream that leaves its caller at `l'`. -/
def Conforms (content : List UInt8) (l l' : ℕ) : Op → Reply → Prop
  | .read len, .bytes (.ok bytes) => Delivers content l len bytes ∧ l' = l+bytes.length
  | .readVectored lens, .bytes (.ok bytes) => Delivers content l lens.sum bytes ∧ l' = l+bytes.length
  | .readExact len, .got bytes r => bytes <+: content.drop l ∧ bytes.length ≤ len ∧
      l' = l+bytes.length ∧ (r = .ok () → bytes.length = len)
  | .fillBuf amt, .bytes (.ok bytes) => bytes <+: content.drop l ∧ l' = l+min amt bytes.length
  | .peek n, .bytes (.ok bytes) => bytes = (content.drop l).take n ∧ l' = l
  | .readToEnd _, .all bytes r => bytes <+: content.drop l ∧ l' = l+bytes.length ∧
      ∀ n, r = .ok n → n = bytes.length ∧ bytes = content.drop l
  | .seekRelative offset, .done (.ok _) => (l' : ℤ) = l+offset
  | .seek pos, .position (.ok r) => (l' : ℤ) = pos.target content l ∧ r = l'
  | .streamPosition, .position (.ok r) => r = l ∧ l' = l
  | .read _, .bytes (.error _) => l' = l
  | .readVectored _, .bytes (.error _) => l' = l
  | .fillBuf _, .bytes (.error _) => l' = l
  | .peek _, .bytes (.error _) => l' = l
  | .seekRelative _, .done (.error _) => l' = l
  | .seek _, .position (.error _) => l' = l
  | .streamPosition, .position (.error _) => l' = l
  | _, _ => False

def ConformsAll (content : List UInt8) : ℕ → List (Op × Reply) → ℕ → Prop
  | l, [], l' => l' = l
  | l, (op, r) :: log, l' => ∃ m, Conforms content l m op r ∧ ConformsAll content m log l'

/-- `peek` asserts that it is not asked for more than the capacity. -/
def Op.Fits (capacity : ℕ) : Op → Prop
  | .peek n => n ≤ capacity
  | _ => True

def Op.len : Op → ℕ
  | .readExact len => len
  | .peek n => n
  | _ => 0

/-- The negation of the offset does not overflow, or nobody looks. -/
def Op.Negates (checks : Bool) : Op → Prop
  | .seekRelative offset => checks = true → offset ≠ -2^63
  | _ => True

variable {R : Read ρ} {content : List UInt8} {position : ρ → ℕ} {s s' : BufReader ρ}

theorem Moves.logical_eq {d : ℕ} (h : Moves content position s s' d) :
    logical position s' = logical position s+d := by
  have := h.logical
  omega

theorem Moves.logical_same (h : Moves content position s s' 0) :
    logical position s' = logical position s := by
  have := h.logical
  omega

theorem sat_fillConsume (hR : Seekable R content position) (h : Valid content position s)
    (amt : ℕ) {E : BufReader ρ → Prop} :
    Sat (PatientRead R) (fillConsume R amt) s
      (fun bytes s' => bytes <+: content.drop (logical position s) ∧
        Moves content position s s' (min amt bytes.length : ℕ))
      (fun _ s' => Moves content position s s' 0) E := by
  apply Sat.call (sat_fillBuf hR h)
  · rintro _ s₁ ⟨hm, rfl, -⟩
    have hle : min amt (buffered s₁).length ≤ s₁.filled-s₁.pos := by
      rw [hm.valid.buffered_length]
      omega
    apply Sat.call (sat_consume (F := fun _ _ => False) hm.valid hle)
    · intro _ s₂ hm'
      refine sat_pure ⟨?_, ?_⟩
      · rw [← Moves.logical_same hm]
        exact hm.valid.buffered_prefix
      · have := hm.trans hm'
        rwa [zero_add] at this
    · exact fun _ _ h => h.elim
  · exact fun _ _ h => h.1

/-- A valid reader of the same capacity from which the call conforms. -/
structure Step (content : List UInt8) (position : ρ → ℕ) (s s' : BufReader ρ) (op : Op)
    (r : Reply) : Prop where
  valid : Valid content position s'
  capacity : s'.capacity = s.capacity
  conforms : Conforms content (logical position s) (logical position s') op r

theorem Moves.step {d : ℤ} {op : Op} {r : Reply} (h : Moves content position s s' d)
    (hc : Conforms content (logical position s) (logical position s') op r) :
    Step content position s s' op r :=
  ⟨h.valid, h.capacity, hc⟩

theorem sat_call (hR : Seekable R content position) (h : Valid content position s) {checks : Bool}
    {fuel : ℕ} (op : Op) (hfit : op.Fits s.capacity) (hc : op.Negates checks)
    (hf : PatientRead R → op.len < fuel) :
    Sat (PatientRead R) (call R checks fuel op) s (fun r s' => Step content position s s' op r)
      (fun _ _ => False) (fun _ => False) := by
  cases op with
  | read len =>
    apply Sat.bind
    apply Sat.attempt
    apply (sat_read hR h len).mono
    · exact fun bytes s' ⟨hd, hm⟩ => Moves.step hm ⟨hd, Moves.logical_eq hm⟩
    · exact fun e s' ⟨hm, _⟩ => Moves.step hm (Moves.logical_same hm)
    · exact fun _ h => h
  | readExact len =>
    apply Sat.call (sat_readExact hR h hf)
    · rintro ⟨bytes, r⟩ s' ⟨hg, hr⟩
      exact Moves.step hg.moves ⟨hg.isPrefix, hg.length_le, Moves.logical_eq hg.moves, hr⟩
    · exact fun _ _ h => h
  | readVectored lens =>
    apply Sat.bind
    apply Sat.attempt
    apply (sat_readVectored hR h lens).mono
    · exact fun bytes s' ⟨hd, hm⟩ => Moves.step hm ⟨hd, Moves.logical_eq hm⟩
    · exact fun e s' hm => Moves.step hm (Moves.logical_same hm)
    · exact fun _ h => h
  | fillBuf amt =>
    apply Sat.bind
    apply Sat.attempt
    apply (sat_fillConsume hR h amt).mono
    · exact fun bytes s' ⟨hp, hm⟩ => Moves.step hm ⟨hp, Moves.logical_eq hm⟩
    · exact fun e s' hm => Moves.step hm (Moves.logical_same hm)
    · exact fun _ h => h
  | peek n =>
    apply Sat.bind
    apply Sat.attempt
    apply (sat_peek hR h hfit hf).mono
    · exact fun bytes s' ⟨hb, hm⟩ => Moves.step hm ⟨hb, Moves.logical_same hm⟩
    · exact fun e s' hm => Moves.step hm (Moves.logical_same hm)
    · exact fun _ h => h
  | readToEnd reserved =>
    apply Sat.call (sat_readToEnd hR h reserved)
    · rintro ⟨bytes, r⟩ s' ⟨hp, hm, hr⟩
      exact Moves.step hm ⟨hp, Moves.logical_eq hm, hr⟩
    · exact fun _ _ h => h
  | seekRelative offset =>
    apply Sat.bind
    apply Sat.attempt
    apply (sat_seekRelative hR h hc).mono
    · exact fun _ s' hm => Moves.step hm hm.logical
    · exact fun e s' hm => Moves.step hm (Moves.logical_same hm)
    · exact fun _ h => h
  | seek pos =>
    apply Sat.bind
    apply Sat.attempt
    apply (sat_seek hR h pos).mono
    · rintro r s' ⟨hr, hm⟩
      refine Moves.step hm ⟨?_, hr⟩
      rw [hm.logical, add_sub_cancel]
    · exact fun e s' hm => Moves.step hm (Moves.logical_same hm)
    · exact fun _ h => h
  | streamPosition =>
    apply Sat.bind
    apply Sat.attempt
    apply (sat_streamPosition hR h).mono
    · exact fun r s' ⟨hr, hm⟩ => Moves.step hm ⟨hr, Moves.logical_same hm⟩
    · exact fun e s' hm => Moves.step hm (Moves.logical_same hm)
    · exact fun _ h => h

theorem sat_run (hR : Seekable R content position) (h : Valid content position s) {checks : Bool}
    {fuel : ℕ} (ops : List Op) (hfit : ∀ op ∈ ops, op.Fits s.capacity)
    (hc : ∀ op ∈ ops, op.Negates checks) (hf : PatientRead R → ∀ op ∈ ops, op.len < fuel) :
    Sat (PatientRead R) (run R checks fuel ops) s
      (fun log s' => log.map Prod.fst = ops ∧ Valid content position s' ∧
        s'.capacity = s.capacity ∧
        ConformsAll content (logical position s) log (logical position s'))
      (fun _ _ => False) (fun _ => False) := by
  induction ops generalizing s with
  | nil => exact sat_pure ⟨rfl, h, rfl, rfl⟩
  | cons op ops ih =>
    apply Sat.call (sat_call hR h op (hfit op (List.mem_cons_self ..)) (hc op (List.mem_cons_self ..))
      fun hP => hf hP op (List.mem_cons_self ..))
    · intro r s₁ hs
      apply Sat.call (ih hs.valid
        (fun op hop => by rw [hs.capacity]; exact hfit op (List.mem_cons_of_mem _ hop))
        (fun op hop => hc op (List.mem_cons_of_mem _ hop))
        fun hP op hop => hf hP op (List.mem_cons_of_mem _ hop))
      · rintro log s₂ ⟨hlog, hv, hcap, hall⟩
        exact sat_pure ⟨by rw [List.map_cons, hlog], hv, hcap.trans hs.capacity, _, hs.conforms, hall⟩
      · exact fun _ _ h => h
    · exact fun _ _ h => h

/-- The caller sees the stream, and the positions in the buffer are in order. -/
structure Transparent (R : Read ρ) (content : List UInt8) (position : ρ → ℕ) (checks : Bool)
    (fuel : ℕ) (ops : List Op) (memory : List UInt8) (w : ρ) : Prop where
  sat : Sat (PatientRead R) (run R checks fuel ops) (withCapacity memory w)
    (fun log s => log.map Prod.fst = ops ∧
      ConformsAll content (position w) log (logical position s) ∧
      s.pos ≤ s.filled ∧ s.filled ≤ s.initialized ∧ s.initialized ≤ s.capacity ∧
      s.capacity = memory.length)
    (fun _ _ => False) (fun _ => False)

theorem bufReader_transparent (hR : Seekable R content position) (checks : Bool) {fuel : ℕ}
    {ops : List Op} (memory : List UInt8) (hfit : ∀ op ∈ ops, op.Fits memory.length)
    (hc : ∀ op ∈ ops, op.Negates checks) (hf : PatientRead R → ∀ op ∈ ops, op.len < fuel) (w : ρ) :
    Transparent R content position checks fuel ops memory w := by
  constructor
  apply (sat_run (s := withCapacity memory w) hR (valid_withCapacity memory w) ops hfit hc hf).mono
  · rintro log s ⟨hlog, hv, hcap, hall⟩
    exact ⟨hlog, hall, hv.pos_le, hv.filled_le, hv.initialized_le, hcap⟩
  · exact fun _ _ h => h
  · exact fun _ h => h

def cursor (content : List UInt8) : Read ℕ where
  read w len :=
    let bytes := (content.drop w).take len
    (.ok bytes, w+bytes.length)
  readBuf w room init :=
    let bytes := (content.drop w).take room
    (.ok (), bytes, max init bytes.length, w+bytes.length)
  readVectored w lens :=
    let bytes := (content.drop w).take lens.sum
    (.ok bytes, w+bytes.length)
  readToEnd w := (.ok (content.drop w).length, content.drop w, w+(content.drop w).length)
  seek w pos :=
    let z := pos.target content w
    if 0 ≤ z ∧ z < 2^64 then (.ok z.toNat, z.toNat)
    else (.error ⟨.invalidInput, "invalid seek to a negative or overflowing position"⟩, w)
  streamPosition w := (.ok w, w)

theorem delivers_take (content : List UInt8) (p len : ℕ) :
    Delivers content p len ((content.drop p).take len) := by
  refine ⟨List.take_prefix .., List.length_take_le .., fun h => ?_⟩
  rcases List.take_eq_nil_iff.mp h with h | h
  · exact .inl h
  · exact .inr (List.drop_eq_nil_iff.mp h)

theorem cursor_seekable (content : List UInt8) : Seekable (cursor content) content id where
  read w len := ⟨delivers_take content w len, rfl⟩
  readBuf w room init hi := by
    have hd := delivers_take content w room
    exact ⟨hd, rfl, Nat.le_max_right .., Nat.le_max_left .., max_le hi hd.length_le⟩
  readVectored w lens := ⟨delivers_take content w lens.sum, rfl⟩
  readToEnd w := ⟨rfl, rfl, rfl⟩
  seek w pos := by
    have hs : (cursor content).seek w pos =
        if 0 ≤ pos.target content w ∧ pos.target content w < 2^64 then
          (.ok (pos.target content w).toNat, (pos.target content w).toNat)
        else (.error ⟨.invalidInput, "invalid seek to a negative or overflowing position"⟩, w) := rfl
    rw [hs]
    by_cases h : 0 ≤ pos.target content w ∧ pos.target content w < 2^64
    · rw [if_pos h]
      exact ⟨Int.toNat_of_nonneg h.1, rfl⟩
    · rw [if_neg h]
  streamPosition w := ⟨rfl, rfl⟩

def visit : List Op :=
  [.peek 2, .readExact 3, .seekRelative (-2), .readVectored [1, 1], .streamPosition,
    .seek (.current (-1)), .fillBuf 1, .readToEnd true]

theorem bufReader_transparent_cursor :
    Transparent (cursor [1, 2, 3, 4, 5]) [1, 2, 3, 4, 5] id true 5 visit [0, 0] 0 :=
  bufReader_transparent (cursor_seekable _) true [0, 0] (by simp [visit, Op.Fits])
    (by simp [visit, Op.Negates]) (fun _ => by simp [visit, Op.len]) 0

theorem bufReader_transparent_counterexample :
    ¬ Transparent (cursor [1, 2, 3]) [1, 2, 3] id true 1 [.seekRelative (-2^63)] [0, 0] 0 := by
  intro h
  exact h.sat

end RustStd.Io.BufReaderRuns
