import RustStd.Io.Traits

/-!
# The buffered writer

Bytes go through the buffer or, when there are many of them, past it once it is
empty. Next to the buffer the model keeps what the inner writer has received.
`Accounts` says of an operation that these bytes and then the buffer have grown
by exactly the bytes that it accepted; every function below has one lemma that
says which bytes these are. The flag `panicked` is read by the destructor only.
-/

set_option autoImplicit false

namespace RustStd.Io
open RustStd.Machine RustStd.Fallible

structure BufWriter (σ : Type) where
  buf : List UInt8
  capacity : ℕ
  inner : σ
  /-- All that the inner writer has accepted. -/
  received : List UInt8

namespace BufWriter

variable {σ : Type}

def spareCapacity (s : BufWriter σ) : ℕ := s.capacity-s.buf.length

/-- `with_capacity`. -/
def withCapacity (capacity : ℕ) (inner : σ) : BufWriter σ := ⟨[], capacity, inner, []⟩

def accepted (bytes : List UInt8) : Except IoError ℕ → List UInt8
  | .ok n => bytes.take n
  | .error _ => []

/-! Calls of the inner writer. -/

def innerWrite (W : Write σ) (bytes : List UInt8) : M IoError (BufWriter σ) ℕ := fun s =>
  let (r, w) := W.write s.inner bytes
  (.ok r, { s with inner := w, received := s.received ++ accepted bytes r })

def innerWriteVectored (W : Write σ) (bufs : List (List UInt8)) : M IoError (BufWriter σ) ℕ :=
  fun s =>
    let (r, w) := W.writeVectored s.inner bufs
    (.ok r, { s with inner := w, received := s.received ++ accepted bufs.flatten r })

def innerFlush (W : Write σ) : M IoError (BufWriter σ) Unit := fun s =>
  let (r, w) := W.flush s.inner
  (.ok r, { s with inner := w })

def writeAllRound (W : Write σ) (bytes : List UInt8) :
    M IoError (BufWriter σ) (List UInt8 ⊕ Unit) := do
  if bytes = [] then return .inr ()
  match ← attempt (innerWrite W bytes) with
  | .ok 0 => throw ⟨.writeZero, "failed to write whole buffer"⟩
  | .ok n =>
    require (n ≤ bytes.length)
    return .inl (bytes.drop n)
  | .error e => if e.isInterrupted then return .inl bytes else throw e

/-- `Write::write_all` of the inner writer. -/
def innerWriteAll (W : Write σ) (fuel : ℕ) (bytes : List UInt8) : M IoError (BufWriter σ) Unit :=
  loop (writeAllRound W) fuel bytes

/-- One round of the loop in `flush_buf`, over the guard's `written`. -/
def flushRound (W : Write σ) (written : ℕ) :
    M IoError (BufWriter σ) (ℕ ⊕ ℕ × Except IoError Unit) := do
  let s ← get
  if s.buf.length ≤ written then return .inr (written, .ok ())
  match ← attempt (innerWrite W (s.buf.drop written)) with
  | .ok 0 => return .inr (written, .error ⟨.writeZero, "failed to write the buffered data"⟩)
  | .ok n => return .inl (written+n)
  | .error e => if e.isInterrupted then return .inl written else return .inr (written, .error e)

/-- On every exit the guard drains what has been written. -/
def flushBuf (W : Write σ) (fuel : ℕ) : M IoError (BufWriter σ) Unit := do
  let (written, r) ← loop (flushRound W) fuel 0
  let s ← get
  require (written ≤ s.buf.length)
  modify fun s => { s with buf := s.buf.drop written }
  ofExcept r

def writeToBufferUnchecked (bytes : List UInt8) : M IoError (BufWriter σ) Unit := do
  let s ← get
  require (bytes.length ≤ s.spareCapacity)
  modify fun s => { s with buf := s.buf ++ bytes }

def writeToBuf (bytes : List UInt8) : M IoError (BufWriter σ) ℕ := do
  let s ← get
  let amtToBuffer := min s.spareCapacity bytes.length
  writeToBufferUnchecked (bytes.take amtToBuffer)
  return amtToBuffer

def writeCold (W : Write σ) (fuel : ℕ) (bytes : List UInt8) : M IoError (BufWriter σ) ℕ := do
  let s ← get
  runIf (s.spareCapacity < bytes.length) (flushBuf W fuel)
  if s.capacity ≤ bytes.length then innerWrite W bytes
  else
    writeToBufferUnchecked bytes
    return bytes.length

def write (W : Write σ) (fuel : ℕ) (bytes : List UInt8) : M IoError (BufWriter σ) ℕ := do
  let s ← get
  if bytes.length < s.spareCapacity then
    writeToBufferUnchecked bytes
    return bytes.length
  else writeCold W fuel bytes

def writeAllCold (W : Write σ) (fuel : ℕ) (bytes : List UInt8) :
    M IoError (BufWriter σ) Unit := do
  let s ← get
  runIf (s.spareCapacity < bytes.length) (flushBuf W fuel)
  if s.capacity ≤ bytes.length then innerWriteAll W fuel bytes
  else writeToBufferUnchecked bytes

def writeAll (W : Write σ) (fuel : ℕ) (bytes : List UInt8) : M IoError (BufWriter σ) Unit := do
  let s ← get
  if bytes.length < s.spareCapacity then writeToBufferUnchecked bytes
  else writeAllCold W fuel bytes

/-- The loop over the slices' lengths. It returns from `write_vectored` with
`.inr`, or it ends with the total length. -/
def vectoredLoop (W : Write σ) (fuel : ℕ) (bufs : List (List UInt8)) (total : ℕ) :
    List (List UInt8) → M IoError (BufWriter σ) (ℕ ⊕ ℕ)
  | [] => pure (.inl total)
  | buf :: rest => do
    let total := saturatingAdd total buf.length
    let s ← get
    runIf (s.spareCapacity < total ∧ s.buf ≠ []) (flushBuf W fuel)
    if s.capacity ≤ total then
      let n ← innerWriteVectored W bufs
      return .inr n
    else vectoredLoop W fuel bufs total rest

def bufferEach : List (List UInt8) → M IoError (BufWriter σ) Unit
  | [] => pure ()
  | buf :: rest => do
    writeToBufferUnchecked buf
    bufferEach rest

/-- The slices that follow the first one, as far as they fit. -/
def bufferRest (totalWritten : ℕ) : List (List UInt8) → M IoError (BufWriter σ) ℕ
  | [] => pure totalWritten
  | buf :: rest => do
    let s ← get
    if buf.length ≤ s.spareCapacity then
      writeToBufferUnchecked buf
      bufferRest (totalWritten+buf.length) rest
    else return totalWritten

def writeVectored (W : Write σ) (fuel : ℕ) (bufs : List (List UInt8)) :
    M IoError (BufWriter σ) ℕ := do
  let s ← get
  if W.isWriteVectored s.inner then
    match ← vectoredLoop W fuel bufs 0 bufs with
    | .inr n => return n
    | .inl saturatedTotalLen =>
      bufferEach bufs
      return saturatedTotalLen
  else
    match bufs.dropWhile (·.isEmpty) with
    | [] => return 0
    | buf :: rest =>
      runIf (s.spareCapacity < buf.length) (flushBuf W fuel)
      if s.capacity ≤ buf.length then innerWrite W buf
      else
        writeToBufferUnchecked buf
        require (buf.length ≠ 0)
        bufferRest buf.length rest

def flush (W : Write σ) (fuel : ℕ) : M IoError (BufWriter σ) Unit := do
  flushBuf W fuel
  innerFlush W

/-- The received bytes and the buffer behind them have grown by `piece`. -/
structure Accounts (s s' : BufWriter σ) (piece : List UInt8) : Prop where
  capacity : s'.capacity = s.capacity
  fits : s'.buf.length ≤ s'.capacity
  moved : ∃ r, s'.received = s.received ++ r ∧ r ++ s'.buf = s.buf ++ piece

/-- Bytes have gone past the buffer. -/
structure Passed (s s' : BufWriter σ) (bytes : List UInt8) : Prop where
  buf : s'.buf = s.buf
  capacity : s'.capacity = s.capacity
  received : s'.received = s.received ++ bytes

variable {s s' s'' : BufWriter σ} {p q bytes : List UInt8}

theorem Accounts.refl (h : s.buf.length ≤ s.capacity) : Accounts s s [] :=
  ⟨rfl, h, [], by simp, by simp⟩

theorem Accounts.trans (h : Accounts s s' p) (h' : Accounts s' s'' q) :
    Accounts s s'' (p ++ q) := by
  obtain ⟨r, hr, hb⟩ := h.moved
  obtain ⟨r', hr', hb'⟩ := h'.moved
  refine ⟨h'.capacity.trans h.capacity, h'.fits, r ++ r', ?_, ?_⟩
  · rw [hr', hr, List.append_assoc]
  · rw [List.append_assoc, hb', ← List.append_assoc, hb, List.append_assoc]

theorem Passed.accounts (h : Passed s s' bytes) (hs : s.buf = []) : Accounts s s' bytes :=
  ⟨h.capacity, by rw [h.buf, hs]; exact Nat.zero_le _, bytes, h.received, by rw [h.buf, hs]; simp⟩

theorem Passed.trans (h : Passed s s' p) (h' : Passed s' s'' q) : Passed s s'' (p ++ q) :=
  ⟨h'.buf.trans h.buf, h'.capacity.trans h.capacity,
    by rw [h'.received, h.received, List.append_assoc]⟩

theorem Accounts.suffix (h : Accounts s s' p) : s'.buf <:+ s.buf ++ p := by
  obtain ⟨r, -, hb⟩ := h.moved
  exact ⟨r, hb⟩

theorem Accounts.total (h : Accounts s s' p) :
    s'.received ++ s'.buf = s.received ++ s.buf ++ p := by
  obtain ⟨r, hr, hb⟩ := h.moved
  rw [hr, List.append_assoc, hb, List.append_assoc]

section Spec

variable {W : Write σ} {fuel : ℕ} {E : BufWriter σ → Prop}

theorem sat_innerWrite (hW : Lawful W) (bytes : List UInt8) (s : BufWriter σ) :
    Sat (Patient W) (innerWrite W bytes) s
      (fun n s' => n ≤ bytes.length ∧ Passed s s' (bytes.take n) ∧
        (Generous W → n = bytes.length))
      (fun e s' => Passed s s' [] ∧ ¬ Generous W ∧ (Patient W → e.isInterrupted = false)) E := by
  unfold Sat innerWrite
  rcases hr : W.write s.inner bytes with ⟨e | n, w⟩
  · refine ⟨⟨rfl, rfl, rfl⟩, fun hG => ?_, fun hP => hP _ _ e (by rw [hr])⟩
    have := hG s.inner bytes
    rw [hr] at this
    cases this
  · refine ⟨hW.write _ _ n (by rw [hr]), ⟨rfl, rfl, rfl⟩, fun hG => ?_⟩
    have := hG s.inner bytes
    rw [hr] at this
    exact Except.ok.inj this

theorem sat_innerWriteVectored (hW : Lawful W) (bufs : List (List UInt8)) (s : BufWriter σ) :
    Sat (Patient W) (innerWriteVectored W bufs) s
      (fun n s' => n ≤ bufs.flatten.length ∧ n ≤ usizeMax ∧ Passed s s' (bufs.flatten.take n) ∧
        (W.writeVectored s.inner bufs).1 = .ok n)
      (fun _ s' => Passed s s' []) E := by
  unfold Sat innerWriteVectored
  rcases hr : W.writeVectored s.inner bufs with ⟨e | n, w⟩
  · exact ⟨rfl, rfl, rfl⟩
  · have hn := hW.writeVectored _ _ n (show (W.writeVectored s.inner bufs).1 = _ by rw [hr])
    exact ⟨hn.1, hn.2, ⟨rfl, rfl, rfl⟩, rfl⟩

theorem sat_innerWriteVectored_ok {bufs : List (List UInt8)} {n : ℕ} {L : Prop}
    {R : IoError → BufWriter σ → Prop} (h : (W.writeVectored s.inner bufs).1 = .ok n) :
    Sat L (innerWriteVectored W bufs) s
      (fun m s' => m = n ∧ s'.buf = s.buf ∧ s'.capacity = s.capacity) R E := by
  unfold Sat innerWriteVectored
  rcases hr : W.writeVectored s.inner bufs with ⟨e | m, w⟩ <;> rw [hr] at h
  · cases h
  · exact ⟨Except.ok.inj h, rfl, rfl⟩

theorem sat_innerFlush (s : BufWriter σ) :
    Sat (Patient W) (innerFlush W) s (fun _ s' => Passed s s' []) (fun _ s' => Passed s s' [])
      E := by
  unfold Sat innerFlush
  rcases hr : W.flush s.inner with ⟨e | ⟨⟩, w⟩
  · exact ⟨rfl, rfl, by simp⟩
  · exact ⟨rfl, rfl, by simp⟩

theorem sat_innerWriteAll (hW : Lawful W) (hf : Patient W → bytes.length < fuel) :
    Sat (Patient W) (innerWriteAll W fuel bytes) s (fun _ s' => Passed s s' bytes)
      (fun _ s' => (∃ k, Passed s s' (bytes.take k)) ∧ ¬ Generous W) E := by
  apply sat_loop (fun rest s' => ∃ k, rest = bytes.drop k ∧ Passed s s' (bytes.take k))
    (fun rest _ => rest.length)
  · rintro rest s₁ ⟨k, rfl, hp⟩
    unfold writeAllRound
    split_ifs with hnil
    · apply sat_pure
      rwa [← List.append_nil (bytes.take k), ← hnil, List.take_append_drop] at hp
    · apply Sat.bind
      apply Sat.attempt
      apply (sat_innerWrite hW _ s₁).mono
      · rintro n s₂ ⟨hn, hp', hG⟩
        have htake := hp.trans hp'
        rw [← List.take_add] at htake
        have hpos := List.length_pos_of_ne_nil hnil
        cases n with
        | zero => exact sat_throw ⟨⟨_, htake⟩, fun h => by have := hG h; omega⟩
        | succ n =>
          apply Sat.bind
          apply sat_require hn
          refine sat_pure ⟨⟨k+(n+1), List.drop_drop .., htake⟩, fun _ => ?_⟩
          rw [List.length_drop]
          omega
      · rintro e s₂ ⟨hp', hG, hP⟩
        have htake := hp.trans hp'
        rw [List.append_nil] at htake
        show Sat _ (if e.isInterrupted then _ else _) _ _ _ _
        split_ifs with he
        · exact sat_pure ⟨⟨k, rfl, htake⟩, fun h => by rw [hP h] at he; cases he⟩
        · exact sat_throw ⟨⟨k, htake⟩, hG⟩
      · exact fun _ h => h
  · exact ⟨0, rfl, rfl, rfl, by simp⟩
  · exact hf

/-- `written` bytes of the buffer have reached the inner writer. -/
def Written (s : BufWriter σ) (written : ℕ) (s' : BufWriter σ) : Prop :=
  written ≤ s.buf.length ∧ Passed s s' (s.buf.take written)

theorem sat_flushLoop (hW : Lawful W) (hf : Patient W → s.buf.length < fuel) :
    Sat (Patient W) (loop (flushRound W) fuel 0) s
      (fun r s' => Written s r.1 s' ∧
        match r.2 with
        | .ok () => r.1 = s.buf.length
        | .error _ => ¬ Generous W)
      (fun _ _ => False) E := by
  apply sat_loop (Written s) (fun written _ => s.buf.length-written)
  · rintro k s₁ ⟨hk, hp⟩
    unfold flushRound
    apply Sat.bind
    apply sat_get
    rw [hp.buf]
    split_ifs with hdone
    · exact sat_pure ⟨⟨hk, hp⟩, show k = _ by omega⟩
    · apply Sat.bind
      apply Sat.attempt
      apply (sat_innerWrite hW _ s₁).mono
      · rintro n s₂ ⟨hn, hp', hG⟩
        have htake := hp.trans hp'
        rw [← List.take_add] at htake
        rw [List.length_drop] at hn hG
        cases n with
        | zero => exact sat_pure ⟨⟨hk, htake⟩, fun h => by have := hG h; omega⟩
        | succ n => exact sat_pure ⟨⟨by omega, htake⟩, fun _ => by omega⟩
      · rintro e s₂ ⟨hp', hG, hP⟩
        have htake := hp.trans hp'
        rw [List.append_nil] at htake
        show Sat _ (if e.isInterrupted then _ else _) _ _ _ _
        split_ifs with he
        · exact sat_pure ⟨⟨hk, htake⟩, fun h => by rw [hP h] at he; cases he⟩
        · exact sat_pure ⟨⟨hk, htake⟩, hG⟩
      · exact fun _ h => h
  · exact ⟨Nat.zero_le _, rfl, rfl, by simp⟩
  · exact hf

theorem Written.accounts {k : ℕ} (h : Written s k s') (hs : s.buf.length ≤ s.capacity) :
    Accounts s { s' with buf := s'.buf.drop k } [] := by
  refine ⟨h.2.capacity, ?_, s.buf.take k, h.2.received, ?_⟩
  · show (s'.buf.drop k).length ≤ s'.capacity
    rw [h.2.buf, h.2.capacity, List.length_drop]
    omega
  · show s.buf.take k ++ s'.buf.drop k = s.buf ++ []
    rw [h.2.buf, List.take_append_drop, List.append_nil]

theorem sat_flushBuf (hW : Lawful W) (hs : s.buf.length ≤ s.capacity)
    (hf : Patient W → s.capacity < fuel) :
    Sat (Patient W) (flushBuf W fuel) s (fun _ s' => Accounts s s' [] ∧ s'.buf = [])
      (fun _ s' => Accounts s s' [] ∧ ¬ Generous W) E := by
  unfold flushBuf
  apply Sat.call (sat_flushLoop hW fun h => by have := hf h; omega)
  · rintro ⟨k, r⟩ s₁ ⟨hw, hr⟩
    apply Sat.bind
    apply sat_get
    apply Sat.bind
    apply sat_require (by rw [hw.2.buf]; exact hw.1)
    apply Sat.bind
    apply sat_modify
    apply sat_ofExcept
    · rintro ⟨⟩ rfl
      refine ⟨hw.accounts hs, ?_⟩
      show s₁.buf.drop k = []
      rw [hw.2.buf, show k = s.buf.length from hr, List.drop_length]
    · rintro e rfl
      exact ⟨hw.accounts hs, hr⟩
  · exact fun _ _ h => h.elim

theorem sat_writeToBufferUnchecked (hs : s.buf.length ≤ s.capacity)
    (hb : bytes.length ≤ s.spareCapacity) {R : IoError → BufWriter σ → Prop} {L : Prop} :
    Sat L (writeToBufferUnchecked bytes) s
      (fun _ s' => Accounts s s' bytes ∧ s'.buf = s.buf ++ bytes) R E := by
  unfold writeToBufferUnchecked
  apply Sat.bind
  apply sat_get
  apply Sat.bind
  apply sat_require hb
  apply sat_modify
  refine ⟨⟨rfl, ?_, [], by simp, by simp⟩, rfl⟩
  unfold spareCapacity at hb
  show (s.buf ++ bytes).length ≤ s.capacity
  rw [List.length_append]
  omega

theorem sat_writeToBuf (hs : s.buf.length ≤ s.capacity) {R : IoError → BufWriter σ → Prop}
    {L : Prop} :
    Sat L (writeToBuf bytes) s
      (fun n s' => n = min s.spareCapacity bytes.length ∧ Accounts s s' (bytes.take n) ∧
        s'.buf = s.buf ++ bytes.take n) R E := by
  unfold writeToBuf
  apply Sat.bind
  apply sat_get
  have hb : (bytes.take (min s.spareCapacity bytes.length)).length ≤ s.spareCapacity := by
    rw [List.length_take]
    omega
  apply Sat.call (sat_writeToBufferUnchecked (R := R) hs hb)
  · exact fun _ s₁ h => sat_pure ⟨rfl, h⟩
  · exact fun _ _ h => h

theorem spareCapacity_of_nil (h : s.buf = []) : s.spareCapacity = s.capacity := by
  rw [spareCapacity, h, List.length_nil, Nat.sub_zero]

/-- A buffer into which `n` bytes go, or past which they go. -/
def RoomFor (n : ℕ) (s : BufWriter σ) : Prop :=
  (s.capacity ≤ n → s.buf = []) ∧ (n < s.capacity → n ≤ s.spareCapacity)

theorem roomFor {n : ℕ} (hs : s.buf.length ≤ s.capacity) (h : n ≤ s.spareCapacity ∨ s.buf = []) :
    RoomFor n s := by
  rcases h with h | h
  · unfold spareCapacity at h
    exact ⟨fun hc => List.length_eq_zero_iff.mp (by omega), fun _ => h⟩
  · exact ⟨fun _ => h, fun hc => by rw [spareCapacity, h]; exact hc.le⟩

theorem sat_makeRoom (hW : Lawful W) (hs : s.buf.length ≤ s.capacity)
    (hf : Patient W → s.capacity < fuel) (n : ℕ) {c : Prop} [Decidable c]
    (hc : ¬ c → n ≤ s.spareCapacity ∨ s.buf = []) :
    Sat (Patient W) (runIf c (flushBuf W fuel)) s
      (fun _ s' => Accounts s s' [] ∧ RoomFor n s')
      (fun _ s' => Accounts s s' [] ∧ ¬ Generous W) E := by
  apply sat_runIf
  · intro _
    exact (sat_flushBuf hW hs hf).mono (fun _ _ h => ⟨h.1, roomFor h.1.fits (.inr h.2)⟩)
      (fun _ _ h => h) fun _ h => h
  · exact fun h => ⟨.refl hs, roomFor hs (hc h)⟩

theorem sat_write (hW : Lawful W) (hs : s.buf.length ≤ s.capacity)
    (hf : Patient W → s.capacity < fuel) :
    Sat (Patient W) (write W fuel bytes) s
      (fun n s' => n ≤ bytes.length ∧ Accounts s s' (bytes.take n))
      (fun _ s' => Accounts s s' [] ∧ ¬ Generous W) E := by
  unfold write
  apply Sat.bind
  apply sat_get
  split_ifs with hroom
  · apply Sat.call (sat_writeToBufferUnchecked (R := fun _ _ => False) hs hroom.le)
    · intro _ s₁ h
      exact sat_pure ⟨le_rfl, by rw [List.take_length]; exact h.1⟩
    · exact fun _ _ h => h.elim
  · unfold writeCold
    apply Sat.bind
    apply sat_get
    apply Sat.call (sat_makeRoom hW hs hf bytes.length fun h => .inl (not_lt.mp h))
    · rintro _ s₁ ⟨h, hroom⟩
      rw [← h.capacity]
      split_ifs with hlong
      · apply (sat_innerWrite hW bytes s₁).mono
        · exact fun n s₂ ⟨hn, hp, _⟩ => ⟨hn, h.trans (hp.accounts (hroom.1 hlong))⟩
        · exact fun _ s₂ ⟨hp, hG, _⟩ => ⟨h.trans (hp.accounts (hroom.1 hlong)), hG⟩
        · exact fun _ h => h
      · apply Sat.call (sat_writeToBufferUnchecked (R := fun _ _ => False) h.fits
          (hroom.2 (not_le.mp hlong)))
        · intro _ s₂ h'
          exact sat_pure ⟨le_rfl, by rw [List.take_length]; exact h.trans h'.1⟩
        · exact fun _ _ h => h.elim
    · exact fun _ _ h => h

theorem sat_writeAll (hW : Lawful W) (hs : s.buf.length ≤ s.capacity)
    (hf : Patient W → s.capacity < fuel) (hf' : Patient W → bytes.length < fuel) :
    Sat (Patient W) (writeAll W fuel bytes) s (fun _ s' => Accounts s s' bytes)
      (fun _ s' => (∃ k, Accounts s s' (bytes.take k)) ∧ s'.buf <:+ s.buf ∧ ¬ Generous W) E := by
  unfold writeAll
  apply Sat.bind
  apply sat_get
  split_ifs with hroom
  · apply (sat_writeToBufferUnchecked (R := fun _ _ => False) hs hroom.le).mono
    · exact fun _ s₁ h => h.1
    · exact fun _ _ h => h.elim
    · exact fun _ h => h
  · unfold writeAllCold
    apply Sat.bind
    apply sat_get
    apply Sat.call (sat_makeRoom hW hs hf bytes.length fun h => .inl (not_lt.mp h))
    · rintro _ s₁ ⟨h, hroom⟩
      rw [← h.capacity]
      split_ifs with hlong
      · apply (sat_innerWriteAll hW hf').mono
        · exact fun _ s₂ hp => h.trans (hp.accounts (hroom.1 hlong))
        · rintro _ s₂ ⟨⟨k, hp⟩, hG⟩
          have hnil := hroom.1 hlong
          refine ⟨⟨k, h.trans (hp.accounts hnil)⟩, ?_, hG⟩
          rw [hp.buf, hnil]
          exact List.nil_suffix
        · exact fun _ h => h
      · apply (sat_writeToBufferUnchecked (R := fun _ _ => False) h.fits
          (hroom.2 (not_le.mp hlong))).mono
        · exact fun _ s₂ h' => h.trans h'.1
        · exact fun _ _ h => h.elim
        · exact fun _ h => h
    · exact fun _ s₁ ⟨h, hG⟩ => ⟨⟨0, h⟩, by simpa using h.suffix, hG⟩

theorem saturatingAdd_of_lt {a b c : ℕ} (h : saturatingAdd a b < c) (hc : c ≤ usizeMax) :
    saturatingAdd a b = a+b := by
  unfold saturatingAdd at h ⊢
  omega

theorem sat_vectoredLoop (hW : Lawful W) (hcap : s.capacity ≤ usizeMax)
    (hf : Patient W → s.capacity < fuel) {bufs d rest : List (List UInt8)} {total : ℕ}
    {s₁ : BufWriter σ} (h : Accounts s s₁ []) (htotal : total = d.flatten.length)
    (hroom : total ≤ s₁.spareCapacity) :
    Sat (Patient W) (vectoredLoop W fuel bufs total rest) s₁
      (fun r s' => match r with
        | .inr n => n ≤ bufs.flatten.length ∧ Accounts s s' (bufs.flatten.take n)
        | .inl total => Accounts s s' [] ∧ total = (d ++ rest).flatten.length ∧
            total ≤ s'.spareCapacity)
      (fun _ s' => Accounts s s' []) E := by
  induction rest generalizing d total s₁ with
  | nil => exact sat_pure ⟨h, by rw [List.append_nil, htotal], hroom⟩
  | cons buf rest ih =>
    unfold vectoredLoop
    apply Sat.bind
    apply sat_get
    apply Sat.call (sat_makeRoom hW h.fits (by rw [h.capacity]; exact hf)
      (saturatingAdd total buf.length) fun hc => by
        by_contra hn
        exact hc ⟨by omega, fun h => hn (.inr h)⟩)
    · rintro _ s₂ ⟨h', hroom'⟩
      have h₂ := h.trans h'
      rw [← h'.capacity]
      split_ifs with hlong
      · apply Sat.call (sat_innerWriteVectored hW bufs s₂)
        · rintro n s₃ ⟨hn, -, hp, -⟩
          exact sat_pure ⟨hn, h₂.trans (hp.accounts (hroom'.1 hlong))⟩
        · exact fun _ s₃ hp => h₂.trans (hp.accounts (hroom'.1 hlong))
      · have hlt := not_le.mp hlong
        have hadd := saturatingAdd_of_lt hlt (by rw [h₂.capacity]; exact hcap)
        have happ : d ++ buf :: rest = (d ++ [buf]) ++ rest := by simp
        rw [happ]
        apply ih h₂
        · rw [hadd, htotal, List.flatten_append, List.length_append]
          simp
        · exact hroom'.2 hlt
    · exact fun _ s₂ ⟨h', _⟩ => h.trans h'

theorem sat_bufferEach {bufs : List (List UInt8)} (hs : s.buf.length ≤ s.capacity)
    (hb : bufs.flatten.length ≤ s.spareCapacity) {R : IoError → BufWriter σ → Prop} {L : Prop} :
    Sat L (bufferEach bufs) s (fun _ s' => Accounts s s' bufs.flatten) R E := by
  induction bufs generalizing s with
  | nil => exact sat_pure (.refl hs)
  | cons buf rest ih =>
    rw [List.flatten_cons, List.length_append] at hb
    apply Sat.call (sat_writeToBufferUnchecked (R := R) hs (by omega))
    · rintro _ s₁ ⟨h, hbuf⟩
      have hroom : rest.flatten.length ≤ s₁.spareCapacity := by
        unfold spareCapacity at hb ⊢
        rw [hbuf, h.capacity, List.length_append]
        omega
      exact (ih h.fits hroom).mono (fun _ _ h' => by rw [List.flatten_cons]; exact h.trans h')
        (fun _ _ h => h) fun _ h => h
    · exact fun _ _ h => h

theorem sat_bufferRest {bufs : List (List UInt8)} {n : ℕ} (hs : s.buf.length ≤ s.capacity)
    {R : IoError → BufWriter σ → Prop} {L : Prop} :
    Sat L (bufferRest n bufs) s
      (fun m s' => ∃ k ≤ bufs.flatten.length, m = n+k ∧ Accounts s s' (bufs.flatten.take k))
      R E := by
  induction bufs generalizing s n with
  | nil => exact sat_pure ⟨0, le_rfl, rfl, .refl hs⟩
  | cons buf rest ih =>
    unfold bufferRest
    apply Sat.bind
    apply sat_get
    split_ifs with hb
    · apply Sat.call (sat_writeToBufferUnchecked (R := R) hs hb)
      · rintro _ s₁ ⟨h, -⟩
        apply (ih h.fits).mono
        · rintro m s₂ ⟨k, hk, rfl, h'⟩
          refine ⟨buf.length+k, ?_, by omega, ?_⟩
          · rw [List.flatten_cons, List.length_append]
            omega
          · rw [List.flatten_cons, List.take_length_add_append]
            exact h.trans h'
        · exact fun _ _ h => h
        · exact fun _ h => h
      · exact fun _ _ h => h
    · exact sat_pure ⟨0, Nat.zero_le _, rfl, .refl hs⟩

theorem flatten_dropWhile_isEmpty (bufs : List (List UInt8)) :
    (bufs.dropWhile (·.isEmpty)).flatten = bufs.flatten := by
  induction bufs with
  | nil => rfl
  | cons buf rest ih =>
    cases buf with
    | nil => simpa using ih
    | cons b bs => rfl

theorem sat_writeVectored (hW : Lawful W) (hs : s.buf.length ≤ s.capacity)
    (hcap : s.capacity ≤ usizeMax) (hf : Patient W → s.capacity < fuel)
    {bufs : List (List UInt8)} :
    Sat (Patient W) (writeVectored W fuel bufs) s
      (fun n s' => n ≤ bufs.flatten.length ∧ Accounts s s' (bufs.flatten.take n))
      (fun _ s' => Accounts s s' []) E := by
  unfold writeVectored
  apply Sat.bind
  apply sat_get
  split_ifs with hv
  · apply Sat.call (sat_vectoredLoop (d := []) hW hcap hf (.refl hs) rfl (Nat.zero_le _))
    · rintro (total | n) s₁ h
      · obtain ⟨h, rfl, hroom⟩ := h
        apply Sat.call (sat_bufferEach (R := fun _ _ => False) h.fits hroom)
        · intro _ s₂ h'
          exact sat_pure ⟨le_rfl, by
            rw [List.nil_append, List.take_length]
            exact h.trans h'⟩
        · exact fun _ _ h => h.elim
      · exact sat_pure h
    · exact fun _ _ h => h
  · rw [← flatten_dropWhile_isEmpty bufs]
    cases hd : bufs.dropWhile (·.isEmpty) with
    | nil => exact sat_pure ⟨le_rfl, .refl hs⟩
    | cons buf rest =>
      have hne : buf.length ≠ 0 := by
        have := List.head?_dropWhile_not (·.isEmpty) bufs
        rw [hd] at this
        simpa using this
      rw [List.flatten_cons, List.length_append]
      apply Sat.call (sat_makeRoom hW hs hf buf.length fun h => .inl (not_lt.mp h))
      · rintro _ s₁ ⟨h, hroom⟩
        rw [← h.capacity]
        split_ifs with hlong
        · apply (sat_innerWrite hW buf s₁).mono
          · rintro n s₂ ⟨hn, hp, -⟩
            refine ⟨by omega, ?_⟩
            rw [List.take_append_of_le_length hn]
            exact h.trans (hp.accounts (hroom.1 hlong))
          · exact fun _ s₂ ⟨hp, _⟩ => h.trans (hp.accounts (hroom.1 hlong))
          · exact fun _ h => h
        · apply Sat.call (sat_writeToBufferUnchecked (R := fun _ _ => False) h.fits
            (hroom.2 (not_le.mp hlong)))
          · rintro _ s₂ ⟨h', -⟩
            apply Sat.bind
            apply sat_require hne
            apply (sat_bufferRest (R := fun _ _ => False) h'.fits).mono
            · rintro m s₃ ⟨k, hk, rfl, h''⟩
              refine ⟨by omega, ?_⟩
              rw [List.take_length_add_append]
              exact h.trans (h'.trans h'')
            · exact fun _ _ h => h.elim
            · exact fun _ h => h
          · exact fun _ _ h => h.elim
      · exact fun _ _ h => h.1

theorem sat_flush (hW : Lawful W) (hs : s.buf.length ≤ s.capacity)
    (hf : Patient W → s.capacity < fuel) :
    Sat (Patient W) (flush W fuel) s (fun _ s' => Accounts s s' [] ∧ s'.buf = [])
      (fun _ s' => Accounts s s' []) E := by
  unfold flush
  apply Sat.call (sat_flushBuf hW hs hf)
  · rintro _ s₁ ⟨h, hnil⟩
    apply (sat_innerFlush s₁).mono
    · exact fun _ s₂ hp => ⟨h.trans (hp.accounts hnil), hp.buf.trans hnil⟩
    · exact fun _ s₂ hp => h.trans (hp.accounts hnil)
    · exact fun _ h => h
  · exact fun _ _ h => h.1

end Spec

end BufWriter

end RustStd.Io
