import RustStd.Io.Traits

/-!
# The buffered reader

The first `filled` bytes of the buffer are the bytes of the stream in front of
the inner position, and `pos` of them have been read: the logical position lies
`filled - pos` bytes before the inner one. `Valid` keeps this, and every
function below has a lemma that says what it delivers from the logical position
and by how much that moves. An error moves it by nothing.
-/

set_option autoImplicit false

namespace RustStd.Io
open RustStd.Machine RustStd.Fallible

structure BufReader (ρ : Type) where
  buf : List UInt8
  pos : ℕ
  filled : ℕ
  initialized : ℕ
  inner : ρ

namespace BufReader

variable {ρ : Type}

abbrev Action (ρ α : Type) : Type := M IoError (BufReader ρ) α

def withCapacity (memory : List UInt8) (inner : ρ) : BufReader ρ := ⟨memory, 0, 0, 0, inner⟩

def capacity (s : BufReader ρ) : ℕ := s.buf.length

/-! Calls of the inner reader. -/

def innerRead (R : Read ρ) (len : ℕ) : Action ρ (List UInt8) := fun s =>
  let (r, w) := R.read s.inner len
  (.ok r, { s with inner := w })

/-- `read_buf` into the memory from `start` on. -/
def innerReadBuf (R : Read ρ) (start init : ℕ) : Action ρ (Except IoError Unit × ℕ × ℕ) := fun s =>
  let (r, bytes, init, w) := R.readBuf s.inner (s.capacity-start) init
  (.ok (.ok (r, bytes.length, init)), { s with
    buf := s.buf.take start ++ bytes ++ s.buf.drop (start+bytes.length)
    inner := w })

def innerReadVectored (R : Read ρ) (lens : List ℕ) : Action ρ (List UInt8) := fun s =>
  let (r, w) := R.readVectored s.inner lens
  (.ok r, { s with inner := w })

def innerReadToEnd (R : Read ρ) : Action ρ (List UInt8 × Except IoError ℕ) := fun s =>
  let (r, bytes, w) := R.readToEnd s.inner
  (.ok (.ok (bytes, r)), { s with inner := w })

def innerSeek (R : Read ρ) (pos : SeekFrom) : Action ρ ℕ := fun s =>
  let (r, w) := R.seek s.inner pos
  (.ok r, { s with inner := w })

def innerStreamPosition (R : Read ρ) : Action ρ ℕ := fun s =>
  let (r, w) := R.streamPosition s.inner
  (.ok r, { s with inner := w })

/-! `Buffer`. -/

/-- The bytes to read next. They have to lie in memory that is initialized. -/
def buffer : Action ρ (List UInt8) := do
  let s ← get
  require (s.pos ≤ s.filled ∧ s.filled ≤ s.initialized ∧ s.initialized ≤ s.capacity)
  return (s.buf.take s.filled).drop s.pos

def discardBuffer : Action ρ Unit := modify fun s => { s with pos := 0, filled := 0 }

def consume (amt : ℕ) : Action ρ Unit := modify fun s => { s with pos := min (s.pos+amt) s.filled }

def consumeWith (amt : ℕ) : Action ρ (Option (List UInt8)) := do
  let buf ← buffer
  if amt ≤ buf.length then
    modify fun s => { s with pos := s.pos+amt }
    return some (buf.take amt)
  else return none

def unconsume (amt : ℕ) : Action ρ Unit := modify fun s => { s with pos := s.pos-amt }

def readMore (R : Read ρ) : Action ρ ℕ := do
  let s ← get
  require (s.filled ≤ s.capacity ∧ s.filled ≤ s.initialized)
  let oldInit := s.initialized-s.filled
  let (r, n, init) ← innerReadBuf R s.filled oldInit
  ofExcept r
  modify fun s => { s with filled := s.filled+n, initialized := s.initialized+(init-oldInit) }
  return n

def backshift : Action ρ Unit := modify fun s => { s with
  buf := (s.buf.take s.filled).drop s.pos ++ s.buf.drop (s.filled-s.pos)
  filled := s.filled-s.pos
  pos := 0 }

def refill (R : Read ρ) : Action ρ Unit := do
  let s ← get
  require (s.pos = s.filled)
  let (r, n, init) ← innerReadBuf R 0 s.initialized
  modify fun s => { s with pos := 0, filled := n, initialized := init }
  ofExcept r

def fillBuf (R : Read ρ) : Action ρ (List UInt8) := do
  let s ← get
  runIf (s.filled ≤ s.pos) (refill R)
  buffer

/-! `BufReader`. -/

def peekRound (R : Read ρ) (n : ℕ) : Unit → Action ρ (Unit ⊕ List UInt8) := fun _ => do
  let buf ← buffer
  if n ≤ buf.length then return .inr (buf.take n)
  let s ← get
  runIf (0 < s.pos) backshift
  let new ← readMore R
  if new = 0 then
    let buf ← buffer
    return .inr buf
  let s ← get
  require (s.pos = 0)
  return .inl ()

def peek (R : Read ρ) (fuel n : ℕ) : Action ρ (List UInt8) := do
  let s ← get
  require (n ≤ s.capacity)
  loop (peekRound R n) fuel ()

def read (R : Read ρ) (len : ℕ) : Action ρ (List UInt8) := do
  let s ← get
  if s.pos = s.filled ∧ s.capacity ≤ len then
    discardBuffer
    innerRead R len
  else
    let rem ← fillBuf R
    let bytes := rem.take len
    consume bytes.length
    return bytes

def readExactRound (R : Read ρ) (len : ℕ) (got : List UInt8) :
    Action ρ (List UInt8 ⊕ List UInt8 × Except IoError Unit) := do
  if len ≤ got.length then return .inr (got, .ok ())
  match ← attempt (read R (len-got.length)) with
  | .ok [] => return .inr (got, .error ⟨.unexpectedEof, "failed to fill whole buffer"⟩)
  | .ok bytes => return .inl (got ++ bytes)
  | .error e => if e.isInterrupted then return .inl got else return .inr (got, .error e)

def readExact (R : Read ρ) (fuel len : ℕ) : Action ρ (List UInt8 × Except IoError Unit) := do
  match ← consumeWith len with
  | some claimed => return (claimed, .ok ())
  | none => loop (readExactRound R len) fuel []

def sliceReadVectored (rem : List UInt8) : List ℕ → List UInt8
  | [] => []
  | len :: lens =>
    let bytes := rem.take len
    let rem := rem.drop len
    if rem = [] then bytes else bytes ++ sliceReadVectored rem lens

def readVectored (R : Read ρ) (lens : List ℕ) : Action ρ (List UInt8) := do
  let s ← get
  if s.pos = s.filled ∧ s.capacity ≤ lens.sum then
    discardBuffer
    innerReadVectored R lens
  else
    let rem ← fillBuf R
    let bytes := sliceReadVectored rem lens
    consume bytes.length
    return bytes

/-- The bytes appended, also before an error. The room for the buffered ones has
to be `reserved` first. -/
def readToEnd (R : Read ρ) (reserved : Bool) : Action ρ (List UInt8 × Except IoError ℕ) := do
  let innerBuf ← buffer
  if reserved then
    discardBuffer
    let (bytes, r) ← innerReadToEnd R
    return (innerBuf ++ bytes, r.map (innerBuf.length+·))
  else return ([], .error ⟨.outOfMemory, "out of memory"⟩)

def seek (R : Read ρ) (pos : SeekFrom) : Action ρ ℕ := do
  match pos with
  | .current n =>
    let s ← get
    let remainder : ℤ := (s.filled-s.pos : ℕ)
    if -2^63 ≤ n-remainder then
      let result ← innerSeek R (.current (n-remainder))
      discardBuffer
      return result
    else
      let _ ← innerSeek R (.current (-remainder))
      discardBuffer
      let result ← innerSeek R (.current n)
      discardBuffer
      return result
  | pos =>
    let result ← innerSeek R pos
    discardBuffer
    return result

/-- `(-offset) as u64`, where a build may check the negation for overflow. -/
def negate (checks : Bool) (offset : ℤ) : Action ρ ℕ := do
  require (checks = true → offset ≠ -2^63)
  return (-offset).toNat

def seekRelative (R : Read ρ) (checks : Bool) (offset : ℤ) : Action ρ Unit := do
  let s ← get
  if offset < 0 then
    let amt ← negate checks offset
    if amt ≤ s.pos then unconsume amt
    else
      let _ ← seek R (.current offset)
      return ()
  else if s.pos+offset.toNat < 2^64 ∧ s.pos+offset.toNat ≤ s.filled then consume offset.toNat
  else
    let _ ← seek R (.current offset)
    return ()

def streamPosition (R : Read ρ) : Action ρ ℕ := do
  let s ← get
  let remainder := s.filled-s.pos
  let pos ← innerStreamPosition R
  require (remainder ≤ pos)
  return pos-remainder

variable {R : Read ρ} {content : List UInt8} {position : ρ → ℕ} {s s' s'' : BufReader ρ}

def buffered (s : BufReader ρ) : List UInt8 := (s.buf.take s.filled).drop s.pos

/-- Where the caller stands in the stream. -/
def logical (position : ρ → ℕ) (s : BufReader ρ) : ℕ := position s.inner-(s.filled-s.pos)

structure Valid (content : List UInt8) (position : ρ → ℕ) (s : BufReader ρ) : Prop where
  pos_le : s.pos ≤ s.filled
  filled_le : s.filled ≤ s.initialized
  initialized_le : s.initialized ≤ s.capacity
  behind : s.filled ≤ position s.inner
  window : s.buf.take s.filled = (content.drop (position s.inner-s.filled)).take s.filled

/-- The reader stays valid and the logical position moves by `d`. -/
structure Moves (content : List UInt8) (position : ρ → ℕ) (s s' : BufReader ρ) (d : ℤ) : Prop where
  valid : Valid content position s'
  capacity : s'.capacity = s.capacity
  logical : (logical position s' : ℤ) = logical position s+d

theorem Moves.trans {d d' : ℤ} (h : Moves content position s s' d)
    (h' : Moves content position s' s'' d') : Moves content position s s'' (d+d') :=
  ⟨h'.valid, h'.capacity.trans h.capacity, by rw [h'.logical, h.logical]; ring⟩

theorem Moves.refl (h : Valid content position s) : Moves content position s s 0 :=
  ⟨h, rfl, by simp⟩

namespace Valid

theorem buffered_eq (h : Valid content position s) :
    buffered s = (content.drop (BufReader.logical position s)).take (s.filled-s.pos) := by
  have := h.pos_le
  have := h.behind
  rw [buffered, h.window, List.drop_take, List.drop_drop, BufReader.logical]
  congr 2
  lia

theorem buffered_length (h : Valid content position s) :
    (buffered s).length = s.filled-s.pos := by
  have := h.filled_le
  have := h.initialized_le
  unfold BufReader.capacity at this
  rw [buffered, List.length_drop, List.length_take]
  lia

theorem buffered_prefix (h : Valid content position s) :
    buffered s <+: content.drop (BufReader.logical position s) := by
  rw [h.buffered_eq]
  exact List.take_prefix ..

theorem position_eq (h : Valid content position s) :
    position s.inner = BufReader.logical position s+(s.filled-s.pos) := by
  have := h.behind
  unfold BufReader.logical
  lia

end Valid

theorem valid_withCapacity (memory : List UInt8) (w : ρ) :
    Valid content position (withCapacity memory w) :=
  ⟨le_rfl, le_rfl, Nat.zero_le _, Nat.zero_le _, by simp [withCapacity]⟩

theorem moves_consume (h : Valid content position s) {n : ℕ} (hn : n ≤ s.filled-s.pos) :
    Moves content position s { s with pos := s.pos+n } n := by
  have hpos := h.pos_le
  have hb := h.behind
  refine ⟨⟨?_, h.filled_le, h.initialized_le, h.behind, h.window⟩, rfl, ?_⟩
  · show s.pos+n ≤ s.filled
    lia
  · show ((position s.inner-(s.filled-(s.pos+n)) : ℕ) : ℤ) =
      (position s.inner-(s.filled-s.pos) : ℕ)+n
    lia

theorem moves_discard (h : Valid content position s) {w : ρ} {d : ℤ}
    (hd : (position w : ℤ) = logical position s+d) :
    Moves content position s { s with pos := 0, filled := 0, inner := w } d :=
  ⟨⟨le_rfl, Nat.zero_le _, h.initialized_le, Nat.zero_le _, by simp⟩, rfl, hd⟩

theorem moves_inner (h : Valid content position s) {w : ρ} (hw : position w = position s.inner) :
    Moves content position s { s with inner := w } 0 := by
  refine ⟨⟨h.pos_le, h.filled_le, h.initialized_le, ?_, ?_⟩, rfl, ?_⟩
  · show s.filled ≤ position w
    rw [hw]
    exact h.behind
  · show s.buf.take s.filled = (content.drop (position w-s.filled)).take s.filled
    rw [hw]
    exact h.window
  · show ((position w-(s.filled-s.pos) : ℕ) : ℤ) = (position s.inner-(s.filled-s.pos) : ℕ)+0
    rw [hw, add_zero]

section Spec

variable {E : BufReader ρ → Prop}

theorem sat_buffer (h : Valid content position s) {L : Prop}
    {Q : List UInt8 → BufReader ρ → Prop} {F : IoError → BufReader ρ → Prop}
    (hQ : Q (buffered s) s) : Sat L buffer s Q F E := by
  apply Sat.bind
  apply sat_get
  apply Sat.bind
  apply sat_require ⟨h.pos_le, h.filled_le, h.initialized_le⟩
  exact sat_pure hQ

theorem sat_innerRead (hR : Seekable R content position) (len : ℕ) (s : BufReader ρ) :
    Sat (PatientRead R) (innerRead R len) s
      (fun bytes s' => ∃ w, s' = { s with inner := w } ∧
        Delivers content (position s.inner) len bytes ∧
        position w = position s.inner+bytes.length)
      (fun e s' => ∃ w, s' = { s with inner := w } ∧ position w = position s.inner ∧
        (PatientRead R → e.isInterrupted = false)) E := by
  have h := hR.read s.inner len
  unfold Sat innerRead
  rcases hr : R.read s.inner len with ⟨e | bytes, w⟩ <;> rw [hr] at h
  · exact ⟨w, rfl, h, fun hP => hP.read s.inner len e (by rw [hr])⟩
  · exact ⟨w, rfl, h⟩

theorem sat_innerReadVectored (hR : Seekable R content position) (lens : List ℕ)
    (s : BufReader ρ) {L : Prop} :
    Sat L (innerReadVectored R lens) s
      (fun bytes s' => ∃ w, s' = { s with inner := w } ∧
        Delivers content (position s.inner) lens.sum bytes ∧
        position w = position s.inner+bytes.length)
      (fun _ s' => ∃ w, s' = { s with inner := w } ∧ position w = position s.inner) E := by
  have h := hR.readVectored s.inner lens
  unfold Sat innerReadVectored
  rcases hr : R.readVectored s.inner lens with ⟨e | bytes, w⟩ <;> rw [hr] at h
  · exact ⟨w, rfl, h⟩
  · exact ⟨w, rfl, h⟩

theorem sat_innerReadToEnd (hR : Seekable R content position) (s : BufReader ρ) {L : Prop}
    {F : IoError → BufReader ρ → Prop} :
    Sat L (innerReadToEnd R) s
      (fun r s' => ∃ w, s' = { s with inner := w } ∧ r.1 <+: content.drop (position s.inner) ∧
        position w = position s.inner+r.1.length ∧
        ∀ n, r.2 = .ok n → n = r.1.length ∧ r.1 = content.drop (position s.inner)) F E := by
  have h := hR.readToEnd s.inner
  unfold Sat innerReadToEnd
  rcases hr : R.readToEnd s.inner with ⟨e | n, bytes, w⟩ <;> rw [hr] at h
  · exact ⟨w, rfl, h.1, h.2, nofun⟩
  · obtain ⟨rfl, rfl, hw⟩ := h
    exact ⟨w, rfl, List.prefix_rfl, hw, fun n hn => ⟨(Except.ok.inj hn).symm, rfl⟩⟩

theorem sat_innerSeek (hR : Seekable R content position) (pos : SeekFrom) (s : BufReader ρ)
    {L : Prop} :
    Sat L (innerSeek R pos) s
      (fun r s' => ∃ w, s' = { s with inner := w } ∧
        (position w : ℤ) = pos.target content (position s.inner) ∧ r = position w)
      (fun _ s' => ∃ w, s' = { s with inner := w } ∧ position w = position s.inner) E := by
  have h := hR.seek s.inner pos
  unfold Sat innerSeek
  rcases hr : R.seek s.inner pos with ⟨e | r, w⟩ <;> rw [hr] at h
  · exact ⟨w, rfl, h⟩
  · exact ⟨w, rfl, h⟩

theorem sat_innerStreamPosition (hR : Seekable R content position) (s : BufReader ρ) {L : Prop} :
    Sat L (innerStreamPosition R) s
      (fun r s' => ∃ w, s' = { s with inner := w } ∧ r = position s.inner ∧
        position w = position s.inner)
      (fun _ s' => ∃ w, s' = { s with inner := w } ∧ position w = position s.inner) E := by
  have h := hR.streamPosition s.inner
  unfold Sat innerStreamPosition
  rcases hr : R.streamPosition s.inner with ⟨e | r, w⟩ <;> rw [hr] at h
  · exact ⟨w, rfl, h⟩
  · exact ⟨w, rfl, h⟩

theorem sat_innerReadBuf (hR : Seekable R content position) {start init : ℕ}
    (hinit : init ≤ s.capacity-start) :
    Sat (PatientRead R) (innerReadBuf R start init) s
      (fun r s' => ∃ bytes w, s' = { s with
          buf := s.buf.take start ++ bytes ++ s.buf.drop (start+bytes.length)
          inner := w } ∧
        r.2.1 = bytes.length ∧ bytes <+: content.drop (position s.inner) ∧
        position w = position s.inner+bytes.length ∧
        bytes.length ≤ r.2.2 ∧ init ≤ r.2.2 ∧ r.2.2 ≤ s.capacity-start ∧
        match r.1 with
        | .ok _ => bytes = [] → s.capacity-start = 0 ∨ content.length ≤ position s.inner
        | .error e => bytes = [] ∧ (PatientRead R → e.isInterrupted = false))
      (fun _ _ => False) E := by
  have h := hR.readBuf s.inner (s.capacity-start) init hinit
  unfold Sat innerReadBuf
  rcases hr : R.readBuf s.inner (s.capacity-start) init with ⟨e | _, bytes, init', w⟩ <;>
    rw [hr] at h
  · obtain ⟨rfl, hw, hi, hi'⟩ := h
    exact ⟨[], w, rfl, rfl, List.nil_prefix, hw, Nat.zero_le _, hi, hi', rfl,
      fun hP => hP.readBuf s.inner _ init e (by rw [hr])⟩
  · obtain ⟨hd, hw, hb, hi, hi'⟩ := h
    exact ⟨bytes, w, rfl, rfl, hd.isPrefix, hw, hb, hi, hi', hd.atEnd⟩

theorem moves_fill {start pos init : ℕ} {bytes : List UInt8} {w : ρ}
    (hwin : s.buf.take start = (content.drop (position s.inner-start)).take start)
    (hstart : start ≤ s.capacity) (hbehind : start ≤ position s.inner) (hpos : pos ≤ start)
    (hlog : position s.inner-(start-pos) = logical position s)
    (hb : bytes <+: content.drop (position s.inner))
    (hw : position w = position s.inner+bytes.length)
    (hi : start+bytes.length ≤ init) (hi' : init ≤ s.capacity) :
    Moves content position s ⟨s.buf.take start ++ bytes ++ s.buf.drop (start+bytes.length), pos,
      start+bytes.length, init, w⟩ 0 := by
  unfold capacity at hstart hi'
  have hlen : (s.buf.take start ++ bytes).length = start+bytes.length := by
    rw [List.length_append, List.length_take, min_eq_left hstart]
  have hcap : (s.buf.take start ++ bytes ++ s.buf.drop (start+bytes.length)).length =
      s.buf.length := by
    rw [List.length_append, hlen, List.length_drop]
    lia
  refine ⟨⟨?_, hi, ?_, ?_, ?_⟩, hcap, ?_⟩
  · show pos ≤ start+bytes.length
    lia
  · show init ≤ (s.buf.take start ++ bytes ++ s.buf.drop (start+bytes.length)).length
    lia
  · show start+bytes.length ≤ position w
    lia
  · show (s.buf.take start ++ bytes ++ s.buf.drop (start+bytes.length)).take (start+bytes.length) =
      (content.drop (position w-(start+bytes.length))).take (start+bytes.length)
    rw [← hlen, List.take_left, hlen, hwin, List.take_add, List.drop_drop, hw]
    rw [show position s.inner+bytes.length-(start+bytes.length) = position s.inner-start by lia,
      Nat.sub_add_cancel hbehind, ← List.prefix_iff_eq_take.mp hb]
  · show ((position w-(start+bytes.length-pos) : ℕ) : ℤ) = logical position s+0
    lia

theorem sat_refill (hR : Seekable R content position) (h : Valid content position s)
    (hpos : s.pos = s.filled) :
    Sat (PatientRead R) (refill R) s
      (fun _ s' => Moves content position s s' 0 ∧
        (buffered s' = [] → s.capacity = 0 ∨ content.length ≤ logical position s))
      (fun e s' => Moves content position s s' 0 ∧ (PatientRead R → e.isInterrupted = false))
      E := by
  have hlog : position s.inner = logical position s := by
    rw [logical, hpos, Nat.sub_self, Nat.sub_zero]
  unfold refill
  apply Sat.bind
  apply sat_get
  apply Sat.bind
  apply sat_require hpos
  apply Sat.call (sat_innerReadBuf hR h.initialized_le)
  · rintro ⟨r, n, init⟩ s₁ ⟨bytes, w, rfl, rfl, hb, hw, hi, -, hi', hr⟩
    simp only at hi hi' hr
    have hm : Moves content position s ⟨s.buf.take 0 ++ bytes ++ s.buf.drop (0+bytes.length), 0,
        0+bytes.length, init, w⟩ 0 :=
      moves_fill rfl (Nat.zero_le _) (Nat.zero_le _) le_rfl hlog hb hw (by lia) hi'
    rw [Nat.zero_add] at hm
    apply Sat.bind
    apply sat_modify
    apply sat_ofExcept
    · rintro _ rfl
      rw [List.take_zero, List.nil_append, Nat.zero_add]
      rw [List.take_zero, List.nil_append] at hm
      refine ⟨hm, fun hnil => ?_⟩
      have hlen := hm.valid.buffered_length
      rw [hnil] at hlen
      have hend := hr (List.length_eq_zero_iff.mp hlen.symm)
      rwa [hlog] at hend
    · rintro e rfl
      exact ⟨by simpa using hm, hr.2⟩
  · exact fun _ _ h => h.elim

theorem sat_fillBuf (hR : Seekable R content position) (h : Valid content position s) :
    Sat (PatientRead R) (fillBuf R) s
      (fun buf s' => Moves content position s s' 0 ∧ buf = buffered s' ∧
        (buf = [] → s.capacity = 0 ∨ content.length ≤ logical position s))
      (fun e s' => Moves content position s s' 0 ∧ (PatientRead R → e.isInterrupted = false))
      E := by
  have hpos := h.pos_le
  unfold fillBuf
  apply Sat.bind
  apply sat_get
  apply Sat.bind
  apply sat_runIf
  · intro hle
    apply (sat_refill hR h (by lia)).mono
    · rintro _ s₁ ⟨hm, hend⟩
      exact sat_buffer hm.valid ⟨hm, rfl, hend⟩
    · exact fun _ _ h => h
    · exact fun _ h => h
  · intro hlt
    refine sat_buffer h ⟨.refl h, rfl, fun hnil => ?_⟩
    have := h.buffered_length
    rw [hnil, List.length_nil] at this
    lia

theorem sat_readMore (hR : Seekable R content position) (h : Valid content position s) :
    Sat (PatientRead R) (readMore R) s
      (fun n s' => Moves content position s s' 0 ∧ s'.pos = s.pos ∧ s'.filled = s.filled+n ∧
        (n = 0 → s.capacity-s.filled = 0 ∨ content.length ≤ position s.inner))
      (fun _ s' => Moves content position s s' 0) E := by
  have hfill := h.filled_le
  have hinit := h.initialized_le
  unfold readMore
  apply Sat.bind
  apply sat_get
  apply Sat.bind
  apply sat_require ⟨by lia, hfill⟩
  apply Sat.call (sat_innerReadBuf hR (show s.initialized-s.filled ≤ s.capacity-s.filled by lia))
  · rintro ⟨r, n, init⟩ s₁ ⟨bytes, w, rfl, rfl, hb, hw, hi, hi₀, hi', hr⟩
    simp only at hi hi₀ hi' hr
    have hm : Moves content position s ⟨s.buf.take s.filled ++ bytes ++
        s.buf.drop (s.filled+bytes.length), s.pos, s.filled+bytes.length,
        s.initialized+(init-(s.initialized-s.filled)), w⟩ 0 :=
      moves_fill h.window (by lia) h.behind h.pos_le rfl hb hw (by lia) (by lia)
    apply Sat.bind
    apply sat_ofExcept
    · rintro _ rfl
      apply Sat.bind
      apply sat_modify
      exact sat_pure ⟨hm, rfl, rfl, fun h0 => hr (List.length_eq_zero_iff.mp h0)⟩
    · rintro e rfl
      obtain ⟨rfl, -⟩ := hr
      have : s.buf.take s.filled ++ [] ++ s.buf.drop (s.filled+([] : List UInt8).length) = s.buf := by
        simp
      rw [this]
      exact moves_inner h hw
  · exact fun _ _ h => h.elim

theorem sat_consume (h : Valid content position s) {n : ℕ} (hn : n ≤ s.filled-s.pos) {L : Prop}
    {F : IoError → BufReader ρ → Prop} :
    Sat L (consume n) s (fun _ s' => Moves content position s s' n) F E := by
  have hpos := h.pos_le
  apply sat_modify
  rw [min_eq_left (by lia)]
  exact moves_consume h hn

theorem sat_discardBuffer {L : Prop}
    {F : IoError → BufReader ρ → Prop} {Q : Unit → BufReader ρ → Prop}
    (hQ : Q () { s with pos := 0, filled := 0 }) : Sat L discardBuffer s Q F E :=
  sat_modify hQ

theorem sat_takeBuffered (hR : Seekable R content position) (h : Valid content position s)
    {len : ℕ} (hlen : ¬ (s.pos = s.filled ∧ s.capacity ≤ len)) {f : List UInt8 → List UInt8}
    (hf : ∀ rem, f rem = rem.take len) :
    Sat (PatientRead R)
      (do let rem ← fillBuf R
          let bytes := f rem
          consume bytes.length
          return bytes) s
      (fun bytes s' => Delivers content (logical position s) len bytes ∧
        Moves content position s s' bytes.length)
      (fun e s' => Moves content position s s' 0 ∧ (PatientRead R → e.isInterrupted = false))
      E := by
  apply Sat.call (sat_fillBuf hR h)
  · rintro _ s₁ ⟨hm, rfl, hend⟩
    have hpre := hm.valid.buffered_prefix
    have hlog : logical position s₁ = logical position s := by
      have := hm.logical
      lia
    rw [hlog] at hpre
    have hl : (f (buffered s₁)).length ≤ s₁.filled-s₁.pos := by
      rw [hf, List.length_take, hm.valid.buffered_length]
      lia
    apply Sat.call (sat_consume (F := fun _ _ => False) hm.valid hl)
    · intro _ s₂ hm'
      refine sat_pure ⟨⟨?_, ?_, fun hnil => ?_⟩, ?_⟩
      · rw [hf]
        exact (List.take_prefix ..).trans hpre
      · rw [hf]
        exact List.length_take_le ..
      · rw [hf, List.take_eq_nil_iff] at hnil
        rcases hnil with h0 | hnil
        · exact .inl h0
        · rcases hend hnil with hcap | hend
          · have := h.pos_le
            have := h.filled_le
            have := h.initialized_le
            exact absurd ⟨by lia, by lia⟩ hlen
          · exact .inr hend
      · have := hm.trans hm'
        rwa [zero_add] at this
    · exact fun _ _ h => h.elim
  · exact fun _ _ h => h

theorem logical_of_pos_eq (h : s.pos = s.filled) : position s.inner = logical position s := by
  rw [logical, h, Nat.sub_self, Nat.sub_zero]

theorem sat_read (hR : Seekable R content position) (h : Valid content position s) (len : ℕ) :
    Sat (PatientRead R) (read R len) s
      (fun bytes s' => Delivers content (logical position s) len bytes ∧
        Moves content position s s' bytes.length)
      (fun e s' => Moves content position s s' 0 ∧ (PatientRead R → e.isInterrupted = false))
      E := by
  unfold read
  apply Sat.bind
  apply sat_get
  split_ifs with hbypass
  · have hlog : position s.inner = logical position s := logical_of_pos_eq hbypass.1
    apply Sat.bind
    apply sat_discardBuffer
    apply (sat_innerRead hR len _).mono
    · rintro bytes s₁ ⟨w, rfl, hd, hw⟩
      change Delivers content (position s.inner) len bytes at hd
      change position w = position s.inner+bytes.length at hw
      rw [hlog] at hd hw
      exact ⟨hd, moves_discard h (by lia)⟩
    · rintro e s₁ ⟨w, rfl, hw, hP⟩
      change position w = position s.inner at hw
      exact ⟨moves_discard h (by lia), hP⟩
    · exact fun _ h => h
  · exact sat_takeBuffered hR h hbypass fun rem => rfl

theorem sliceReadVectored_eq (rem : List UInt8) (lens : List ℕ) :
    sliceReadVectored rem lens = rem.take lens.sum := by
  induction lens generalizing rem with
  | nil => rw [List.sum_nil, List.take_zero]; rfl
  | cons len lens ih =>
    unfold sliceReadVectored
    rw [List.sum_cons, List.take_add]
    show (if rem.drop len = [] then _ else _) = _
    split_ifs with hnil
    · rw [hnil, List.take_nil, List.append_nil]
    · rw [ih]

theorem sat_readVectored (hR : Seekable R content position) (h : Valid content position s)
    (lens : List ℕ) :
    Sat (PatientRead R) (readVectored R lens) s
      (fun bytes s' => Delivers content (logical position s) lens.sum bytes ∧
        Moves content position s s' bytes.length)
      (fun _ s' => Moves content position s s' 0) E := by
  unfold readVectored
  apply Sat.bind
  apply sat_get
  split_ifs with hbypass
  · have hlog : position s.inner = logical position s := logical_of_pos_eq hbypass.1
    apply Sat.bind
    apply sat_discardBuffer
    apply (sat_innerReadVectored hR lens _).mono
    · rintro bytes s₁ ⟨w, rfl, hd, hw⟩
      change Delivers content (position s.inner) lens.sum bytes at hd
      change position w = position s.inner+bytes.length at hw
      rw [hlog] at hd hw
      exact ⟨hd, moves_discard h (by lia)⟩
    · rintro e s₁ ⟨w, rfl, hw⟩
      change position w = position s.inner at hw
      exact moves_discard h (by lia)
    · exact fun _ h => h
  · exact (sat_takeBuffered hR h hbypass fun rem => sliceReadVectored_eq rem lens).mono
      (fun _ _ h => h) (fun _ _ h => h.1) fun _ h => h

theorem append_prefix_of_drop {got bytes l : List UInt8} {p : ℕ} (h : got <+: l.drop p)
    (h' : bytes <+: l.drop (p+got.length)) : got ++ bytes <+: l.drop p := by
  obtain ⟨r, hr⟩ := h
  rw [← List.drop_drop, ← hr, List.drop_left] at h'
  rw [← hr]
  exact (List.prefix_append_right_inj got).mpr h'

/-- What the caller's buffer has got of `len` bytes of the stream. -/
structure Got (content : List UInt8) (position : ρ → ℕ) (s : BufReader ρ) (len : ℕ)
    (got : List UInt8) (s' : BufReader ρ) : Prop where
  isPrefix : got <+: content.drop (BufReader.logical position s)
  length_le : got.length ≤ len
  moves : Moves content position s s' got.length

theorem Got.more {len : ℕ} {got bytes : List UInt8} (h : Got content position s len got s')
    (hd : Delivers content (BufReader.logical position s') (len-got.length) bytes)
    (hm : Moves content position s' s'' bytes.length) :
    Got content position s len (got ++ bytes) s'' := by
  have hlen := hd.length_le
  have hlog : BufReader.logical position s' = BufReader.logical position s+got.length := by
    have := h.moves.logical
    lia
  refine ⟨append_prefix_of_drop h.isPrefix (hlog ▸ hd.isPrefix), ?_, ?_⟩
  · have := h.length_le
    rw [List.length_append]
    lia
  · rw [List.length_append, Nat.cast_add]
    exact h.moves.trans hm

theorem sat_readExactLoop (hR : Seekable R content position) (h : Valid content position s)
    {fuel len : ℕ} (hf : PatientRead R → len < fuel) :
    Sat (PatientRead R) (loop (readExactRound R len) fuel []) s
      (fun r s' => Got content position s len r.1 s' ∧ (r.2 = .ok () → r.1.length = len))
      (fun _ _ => False) E := by
  apply sat_loop (Got content position s len) (fun got _ => len-got.length)
  · rintro got s₁ hg
    unfold readExactRound
    split_ifs with hfull
    · exact sat_pure ⟨hg, fun _ => le_antisymm hg.length_le hfull⟩
    · apply Sat.bind
      apply Sat.attempt
      apply (sat_read hR hg.moves.valid _).mono
      · rintro bytes s₂ ⟨hd, hm⟩
        have hmore := hg.more hd hm
        cases bytes with
        | nil =>
          rw [List.append_nil] at hmore
          exact sat_pure ⟨hmore, nofun⟩
        | cons b bytes =>
          refine sat_pure ⟨hmore, fun _ => ?_⟩
          rw [List.length_append, List.length_cons]
          lia
      · rintro e s₂ ⟨hm, hP⟩
        have hsame : Got content position s len got s₂ := by
          refine ⟨hg.isPrefix, hg.length_le, ?_⟩
          have := hg.moves.trans hm
          rwa [add_zero] at this
        show Sat _ (if e.isInterrupted then _ else _) _ _ _ _
        split_ifs with he
        · exact sat_pure ⟨hsame, fun hL => by rw [hP hL] at he; cases he⟩
        · exact sat_pure ⟨hsame, nofun⟩
      · exact fun _ h => h
  · exact ⟨List.nil_prefix, Nat.zero_le _, .refl h⟩
  · exact hf

theorem sat_consumeWith (h : Valid content position s) (amt : ℕ) {L : Prop}
    {F : IoError → BufReader ρ → Prop} :
    Sat L (consumeWith amt) s
      (fun r s' => match r with
        | some claimed => Got content position s amt claimed s' ∧ claimed.length = amt
        | none => s' = s) F E := by
  unfold consumeWith
  apply Sat.bind
  apply sat_buffer h
  split_ifs with hamt
  · have hlen : ((buffered s).take amt).length = amt := List.length_take_of_le hamt
    rw [h.buffered_length] at hamt
    apply Sat.bind
    apply sat_modify
    refine sat_pure ⟨⟨(List.take_prefix ..).trans h.buffered_prefix, hlen.le, ?_⟩, hlen⟩
    rw [hlen]
    exact moves_consume h hamt
  · exact sat_pure rfl

theorem sat_readExact (hR : Seekable R content position) (h : Valid content position s)
    {fuel len : ℕ} (hf : PatientRead R → len < fuel) :
    Sat (PatientRead R) (readExact R fuel len) s
      (fun r s' => Got content position s len r.1 s' ∧ (r.2 = .ok () → r.1.length = len))
      (fun _ _ => False) E := by
  unfold readExact
  apply Sat.call (sat_consumeWith (F := fun _ _ => False) h len)
  · rintro (_ | claimed) s₁ hc
    · obtain rfl := hc
      exact sat_readExactLoop hR h hf
    · exact sat_pure ⟨hc.1, fun _ => hc.2⟩
  · exact fun _ _ h => h.elim

theorem sat_backshift (h : Valid content position s) {L : Prop}
    {F : IoError → BufReader ρ → Prop} :
    Sat L backshift s
      (fun _ s' => Moves content position s s' 0 ∧ s'.pos = 0 ∧ s'.filled = s.filled-s.pos) F E := by
  have hpos := h.pos_le
  have hfill := h.filled_le
  have hinit := h.initialized_le
  have hb := h.behind
  have hlen := h.buffered_length
  have hcap : (buffered s ++ s.buf.drop (s.filled-s.pos)).length = s.buf.length := by
    unfold capacity at hinit
    rw [List.length_append, hlen, List.length_drop]
    lia
  apply sat_modify
  refine ⟨⟨⟨Nat.zero_le _, ?_, ?_, ?_, ?_⟩, hcap, ?_⟩, rfl, rfl⟩
  · show s.filled-s.pos ≤ s.initialized
    lia
  · show s.initialized ≤ (buffered s ++ s.buf.drop (s.filled-s.pos)).length
    rw [hcap]
    exact hinit
  · show s.filled-s.pos ≤ position s.inner
    lia
  · show (buffered s ++ s.buf.drop (s.filled-s.pos)).take (s.filled-s.pos) = _
    rw [← hlen, List.take_left, hlen]
    exact h.buffered_eq
  · show ((position s.inner-(s.filled-s.pos-0) : ℕ) : ℤ) = (position s.inner-(s.filled-s.pos) : ℕ)+0
    rw [Nat.sub_zero, add_zero]

/-- The next `n` bytes, or fewer at the end of the content. -/
theorem sat_peek (hR : Seekable R content position) (h : Valid content position s) {fuel n : ℕ}
    (hn : n ≤ s.capacity) (hf : PatientRead R → n < fuel) :
    Sat (PatientRead R) (peek R fuel n) s
      (fun bytes s' => bytes = (content.drop (logical position s)).take n ∧
        Moves content position s s' 0)
      (fun _ s' => Moves content position s s' 0) E := by
  unfold peek
  apply Sat.bind
  apply sat_get
  apply Sat.bind
  apply sat_require hn
  apply sat_loop (fun _ s' => Moves content position s s' 0)
    (fun _ s' => n-(s'.filled-s'.pos))
  · rintro _ s₁ hm
    have hlog : logical position s₁ = logical position s := by
      have := hm.logical
      lia
    have hlen := hm.valid.buffered_length
    unfold peekRound
    apply Sat.bind
    apply sat_buffer hm.valid
    split_ifs with hle
    · refine sat_pure ⟨?_, hm⟩
      rw [hlen] at hle
      rw [hm.valid.buffered_eq, hlog, List.take_take, min_eq_left hle]
    · rw [hlen] at hle
      apply Sat.bind
      apply sat_get
      have hshift : Sat (PatientRead R) (runIf (0 < s₁.pos) backshift) s₁
          (fun _ s₂ => Moves content position s s₂ 0 ∧ s₂.pos = 0 ∧
            s₂.filled = s₁.filled-s₁.pos) (fun _ s₂ => Moves content position s s₂ 0) E := by
        apply sat_runIf
        · intro _
          exact (sat_backshift (F := fun _ _ => False) hm.valid).mono
            (fun _ _ h => ⟨hm.trans h.1, h.2⟩) (fun _ _ h => h.elim) fun _ h => h
        · exact fun h0 => ⟨hm, by lia, by lia⟩
      apply Sat.call hshift
      · rintro _ s₂ ⟨hm₂, hpos₂, hfill₂⟩
        have hlog₂ : logical position s₂ = logical position s := by
          have := hm₂.logical
          lia
        apply Sat.call (sat_readMore hR hm₂.valid)
        · rintro new s₃ ⟨hm', hpos₃, hfill₃, hend⟩
          have hm₃ := hm₂.trans hm'
          rw [add_zero] at hm₃
          split_ifs with h0
          · have hlog₃ : logical position s₃ = logical position s := by
              have := hm₃.logical
              lia
            apply Sat.bind
            apply sat_buffer hm₃.valid
            refine sat_pure ⟨?_, hm₃⟩
            have hcap := hm₂.capacity
            have hpeq := hm₂.valid.position_eq
            rcases hend h0 with hfull | hend
            · lia
            · rw [hm₃.valid.buffered_eq, hlog₃, List.take_of_length_le, List.take_of_length_le]
              · rw [List.length_drop]
                lia
              · rw [List.length_drop]
                lia
          · apply Sat.bind
            apply sat_get
            apply Sat.bind
            apply sat_require (hpos₃.trans hpos₂)
            exact sat_pure ⟨hm₃, fun _ => by lia⟩
        · exact fun _ s₃ hm' => by simpa using hm₂.trans hm'
      · exact fun _ _ h => h
  · exact .refl h
  · intro hL
    have := hf hL
    lia

theorem sat_readToEnd (hR : Seekable R content position) (h : Valid content position s)
    (reserved : Bool) {L : Prop} :
    Sat L (readToEnd R reserved) s
      (fun r s' => r.1 <+: content.drop (logical position s) ∧
        Moves content position s s' r.1.length ∧
        ∀ n, r.2 = .ok n → n = r.1.length ∧ r.1 = content.drop (logical position s))
      (fun _ _ => False) E := by
  have hpos := h.position_eq
  have hpre := h.buffered_prefix
  have hlen := h.buffered_length
  unfold readToEnd
  apply Sat.bind
  apply sat_buffer h
  split_ifs with hres
  · apply Sat.bind
    apply sat_discardBuffer
    apply Sat.call (sat_innerReadToEnd (F := fun _ _ => False) hR _)
    · rintro ⟨bytes, r⟩ s₁ ⟨w, rfl, hb, hw, hr⟩
      change bytes <+: content.drop (position s.inner) at hb
      change position w = position s.inner+bytes.length at hw
      rw [hpos, ← hlen] at hb
      have happ := append_prefix_of_drop hpre hb
      refine sat_pure ⟨happ, moves_discard h ?_, ?_⟩
      · rw [List.length_append]
        lia
      · intro n hn
        cases r with
        | error e => cases hn
        | ok m =>
          obtain ⟨hm, hall⟩ := hr m rfl
          change m = bytes.length at hm
          change bytes = content.drop (position s.inner) at hall
          refine ⟨?_, ?_⟩
          · rw [← Except.ok.inj hn, hm, List.length_append]
          · obtain ⟨r, hr⟩ := hpre
            rw [hall, hpos, ← hlen, ← List.drop_drop, ← hr, List.drop_left]
    · exact fun _ _ h => h.elim
  · exact sat_pure ⟨List.nil_prefix, .refl h, nofun⟩

theorem sat_seek (hR : Seekable R content position) (h : Valid content position s)
    (pos : SeekFrom) {L : Prop} :
    Sat L (seek R pos) s
      (fun r s' => r = logical position s' ∧
        Moves content position s s' (pos.target content (logical position s)-logical position s))
      (fun _ s' => Moves content position s s' 0) E := by
  have hpos := h.position_eq
  have hle := h.pos_le
  have hdirect : ∀ pos' : SeekFrom, pos'.target content (position s.inner) =
      pos.target content (logical position s) →
      Sat L (do let result ← innerSeek R pos'
                discardBuffer
                return result) s
        (fun r s' => r = logical position s' ∧
          Moves content position s s' (pos.target content (logical position s)-logical position s))
        (fun _ s' => Moves content position s s' 0) E := by
    intro pos' htarget
    apply Sat.call (sat_innerSeek hR pos' s)
    · rintro r s₁ ⟨w, rfl, hw, rfl⟩
      apply Sat.bind
      apply sat_discardBuffer
      refine sat_pure ⟨rfl, moves_discard h ?_⟩
      change (position w : ℤ) = _
      lia
    · rintro _ s₁ ⟨w, rfl, hw⟩
      exact moves_inner h hw
  unfold seek
  cases pos with
  | start n => exact hdirect _ rfl
  | fromEnd n => exact hdirect _ rfl
  | current n =>
    apply Sat.bind
    apply sat_get
    show Sat _ (if -2^63 ≤ n-((s.filled-s.pos : ℕ) : ℤ) then _ else _) _ _ _ _
    split_ifs with hfits
    · apply hdirect
      show (position s.inner : ℤ)+(n-(s.filled-s.pos : ℕ)) = logical position s+n
      lia
    · apply Sat.call (sat_innerSeek hR _ s)
      · rintro r s₁ ⟨w, rfl, hw, -⟩
        change (position w : ℤ) = position s.inner+ -((s.filled-s.pos : ℕ) : ℤ) at hw
        apply Sat.bind
        apply sat_discardBuffer
        apply Sat.call (sat_innerSeek hR _ _)
        · rintro r s₂ ⟨w', rfl, hw', rfl⟩
          change (position w' : ℤ) = position w+n at hw'
          apply Sat.bind
          apply sat_discardBuffer
          refine sat_pure ⟨rfl, moves_discard h ?_⟩
          show (position w' : ℤ) = logical position s+(logical position s+n-logical position s)
          lia
        · rintro _ s₂ ⟨w', rfl, hw'⟩
          change position w' = position w at hw'
          exact moves_discard h (by lia)
      · rintro _ s₁ ⟨w, rfl, hw⟩
        exact moves_inner h hw

theorem sat_seekRelative (hR : Seekable R content position) (h : Valid content position s)
    {checks : Bool} {offset : ℤ} (hc : checks = true → offset ≠ -2^63) {L : Prop} :
    Sat L (seekRelative R checks offset) s
      (fun _ s' => Moves content position s s' offset)
      (fun _ s' => Moves content position s s' 0) E := by
  have hseek : Sat L (do let _ ← seek R (.current offset)
                         return ()) s
      (fun _ s' => Moves content position s s' offset)
      (fun _ s' => Moves content position s s' 0) E := by
    apply Sat.call (sat_seek hR h (.current offset))
    · rintro r s₁ ⟨-, hm⟩
      apply sat_pure
      have : SeekFrom.target content (logical position s) (.current offset)-logical position s =
          offset := add_sub_cancel_left ..
      rwa [this] at hm
    · exact fun _ _ h => h
  have hle := h.pos_le
  have hb := h.behind
  unfold seekRelative
  apply Sat.bind
  apply sat_get
  split_ifs with hneg hin
  · apply Sat.bind
    apply Sat.bind
    apply sat_require hc
    apply sat_pure
    split_ifs with hback
    · apply sat_modify
      refine ⟨⟨?_, h.filled_le, h.initialized_le, hb, h.window⟩, rfl, ?_⟩
      · show s.pos-(-offset).toNat ≤ s.filled
        lia
      · show ((position s.inner-(s.filled-(s.pos-(-offset).toNat)) : ℕ) : ℤ) =
          (position s.inner-(s.filled-s.pos) : ℕ)+offset
        lia
    · exact hseek
  · have hoff : offset = (offset.toNat : ℤ) := by lia
    rw [hoff, Int.toNat_natCast]
    exact sat_consume h (by lia)
  · exact hseek

theorem sat_streamPosition (hR : Seekable R content position) (h : Valid content position s)
    {L : Prop} :
    Sat L (streamPosition R) s
      (fun r s' => r = logical position s ∧ Moves content position s s' 0)
      (fun _ s' => Moves content position s s' 0) E := by
  have hb := h.behind
  unfold streamPosition
  apply Sat.bind
  apply sat_get
  apply Sat.call (sat_innerStreamPosition hR s)
  · rintro r s₁ ⟨w, rfl, rfl, hw⟩
    apply Sat.bind
    apply sat_require (by lia)
    exact sat_pure ⟨rfl, moves_inner h hw⟩
  · rintro _ s₁ ⟨w, rfl, hw⟩
    exact moves_inner h hw

end Spec

end BufReader

end RustStd.Io
