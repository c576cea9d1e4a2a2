import RustStd.Io.BufWriter
import RustStd.Str.CharSearcher

/-!
# The line-buffered writer

Lines go to the inner writer as far as the last newline, and what follows it
into the buffer. A buffer is `Ended` when it holds no newline or ends with one:
only then does the test of its last byte find every line that still has to be
written. A short write leaves lines behind, and the bytes that are buffered then
are chosen so that they are ended again.
-/

set_option autoImplicit false

namespace RustStd.Io.LineWriterShim
open RustStd.Machine RustStd.Fallible RustStd.Io.BufWriter
open RustStd.CharPattern (memchr memrchr memrchr_ge)

variable {σ : Type}

def newline : UInt8 := 0x0A

def flushIfCompletedLine (W : Write σ) (fuel : ℕ) : M IoError (BufWriter σ) Unit := do
  let s ← get
  runIf (s.buf.getLast? = some newline) (flushBuf W fuel)

/-- The lines of the scan area, or all of it when no line ends there. -/
def linesOf (scanArea : List UInt8) : List UInt8 :=
  match memrchr newline scanArea with
  | some newlineIdx => scanArea.take (newlineIdx+1)
  | none => scanArea

/-- The bytes to buffer after `flushed` bytes have been written, if any. -/
def tailToBuffer (capacity newlineIdx flushed : ℕ) (bytes : List UInt8) : Option (List UInt8) :=
  if newlineIdx ≤ flushed then
    if capacity ≤ (bytes.drop flushed).length then none else some (bytes.drop flushed)
  else if newlineIdx-flushed ≤ capacity then some ((bytes.take newlineIdx).drop flushed)
  else some (linesOf ((bytes.drop flushed).take capacity))

def write (W : Write σ) (fuel : ℕ) (bytes : List UInt8) : M IoError (BufWriter σ) ℕ :=
  match memrchr newline bytes with
  | none => do
    flushIfCompletedLine W fuel
    BufWriter.write W fuel bytes
  | some i => do
    let newlineIdx := i+1
    flushBuf W fuel
    let lines := bytes.take newlineIdx
    let flushed ← innerWrite W lines
    if flushed = 0 then return 0
    require (flushed ≤ bytes.length)
    let s ← get
    match tailToBuffer s.capacity newlineIdx flushed bytes with
    | none => return flushed
    | some tail =>
      let buffered ← writeToBuf tail
      return flushed+buffered

def lastNewlineBufIdx (bufs : List (List UInt8)) : Option ℕ :=
  bufs.zipIdx.reverse.findSome? fun (buf, i) => (memchr newline buf).map fun _ => i

/-- The loop over the lengths of the lines returns: they were written in part. -/
def isPartial (flushed linesLen : ℕ) : List (List UInt8) → Bool
  | [] => false
  | buf :: rest =>
    let linesLen := saturatingAdd linesLen buf.length
    if flushed < linesLen then true else isPartial flushed linesLen rest

/-- The sum of the lengths buffered, up to the first one that is 0. -/
def bufferTail : List (List UInt8) → M IoError (BufWriter σ) ℕ
  | [] => pure 0
  | buf :: rest => do
    let n ← writeToBuf buf
    if n = 0 then return 0
    let m ← bufferTail rest
    return n+m

def writeVectored (W : Write σ) (fuel : ℕ) (bufs : List (List UInt8)) :
    M IoError (BufWriter σ) ℕ := do
  let s ← get
  if W.isWriteVectored s.inner then
    match lastNewlineBufIdx bufs with
    | none =>
      flushIfCompletedLine W fuel
      BufWriter.writeVectored W fuel bufs
    | some i =>
      flushBuf W fuel
      let lines := bufs.take (i+1)
      let tail := bufs.drop (i+1)
      let flushed ← innerWriteVectored W lines
      if flushed = 0 then return 0
      if isPartial flushed 0 lines then return flushed
      let buffered ← bufferTail (tail.filter fun buf => !buf.isEmpty)
      -- The addition overflows when the slices are longer than `usize::MAX` together.
      require (flushed+buffered ≤ usizeMax)
      return flushed+buffered
  else
    match bufs.find? fun buf => !buf.isEmpty with
    | some buf => write W fuel buf
    | none => return 0

/-- Lines that are appended to buffered bytes are written together with them. -/
def writeLines (W : Write σ) (fuel : ℕ) (lines : List UInt8) : M IoError (BufWriter σ) Unit := do
  let s ← get
  if s.buf = [] then innerWriteAll W fuel lines
  else
    BufWriter.writeAll W fuel lines
    flushBuf W fuel

def writeAll (W : Write σ) (fuel : ℕ) (bytes : List UInt8) : M IoError (BufWriter σ) Unit :=
  match memrchr newline bytes with
  | none => do
    flushIfCompletedLine W fuel
    BufWriter.writeAll W fuel bytes
  | some newlineIdx => do
    writeLines W fuel (bytes.take (newlineIdx+1))
    BufWriter.writeAll W fuel (bytes.drop (newlineIdx+1))

def flush (W : Write σ) (fuel : ℕ) : M IoError (BufWriter σ) Unit := BufWriter.flush W fuel

/-- Any newline is followed by one at the end. -/
def Ended (l : List UInt8) : Prop := newline ∈ l → l.getLast? = some newline

theorem ended_of_notMem {l : List UInt8} (h : newline ∉ l) : Ended l := fun h' => absurd h' h

theorem Ended.suffix {l l' : List UInt8} (h : Ended l) (hs : l' <:+ l) : Ended l' := by
  intro hm
  obtain ⟨r, rfl⟩ := hs
  have hl := h (List.mem_append_right r hm)
  rwa [List.getLast?_append_of_ne_nil _ (List.ne_nil_of_mem hm)] at hl

theorem memrchr_split {x : UInt8} {text : List UInt8} {i : ℕ} (h : memrchr x text = some i) :
    i < text.length ∧ (text.take (i+1)).getLast? = some x ∧ x ∉ text.drop (i+1) := by
  have hi := CharPattern.memrchr_lt h
  obtain ⟨k, hk, rfl⟩ := Option.map_eq_some_iff.mp h
  obtain ⟨hkl, hkx, hmin⟩ := List.findIdx?_eq_some_iff_getElem.mp hk
  rw [List.length_reverse] at hkl
  rw [List.getElem_reverse] at hkx
  refine ⟨hi, ?_, fun hm => ?_⟩
  · rw [List.getLast?_take, if_neg (by lia), Nat.add_sub_cancel,
      List.getElem?_eq_getElem hi, Option.some_or]
    exact congrArg some (by simpa using hkx)
  · obtain ⟨j, hj, hjx⟩ := List.getElem_of_mem hm
    rw [List.length_drop] at hj
    rw [List.getElem_drop] at hjx
    have := hmin (text.length-1-(text.length-1-k+1+j)) (by lia)
    rw [List.getElem_reverse] at this
    simp [show text.length-1-(text.length-1-(text.length-1-k+1+j)) = text.length-1-k+1+j by lia,
      hjx] at this

theorem memrchr_none {x : UInt8} {text : List UInt8} (h : memrchr x text = none) : x ∉ text := by
  intro hm
  obtain ⟨j, hj, rfl⟩ := List.getElem_of_mem hm
  obtain ⟨i, -, hi⟩ := memrchr_ge (List.getElem?_eq_getElem hj)
  rw [h] at hi
  cases hi

theorem linesOf_spec (l : List UInt8) : linesOf l <+: l ∧ Ended (linesOf l) := by
  unfold linesOf
  split
  · rename_i i hm
    exact ⟨List.take_prefix .., fun _ => (memrchr_split hm).2.1⟩
  · rename_i hm
    exact ⟨List.prefix_rfl, ended_of_notMem (memrchr_none hm)⟩

theorem tailToBuffer_spec {capacity i flushed : ℕ} {bytes tail : List UInt8}
    (hi : memrchr newline bytes = some i) (hf : flushed ≤ i+1)
    (ht : tailToBuffer capacity (i+1) flushed bytes = some tail) :
    tail <+: bytes.drop flushed ∧ tail.length ≤ capacity ∧ Ended tail ∧
      (flushed = i+1 → newline ∉ tail) := by
  obtain ⟨hlt, hlast, hnot⟩ := memrchr_split hi
  unfold tailToBuffer at ht
  split_ifs at ht with h₁ h₂ h₃ <;> cases ht
  · obtain rfl : flushed = i+1 := by lia
    exact ⟨List.prefix_rfl, by lia, ended_of_notMem hnot, fun _ => hnot⟩
  · refine ⟨?_, ?_, fun _ => ?_, fun h => by lia⟩
    · rw [List.drop_take]
      exact List.take_prefix ..
    · rw [List.length_drop, List.length_take]
      lia
    · rw [List.getLast?_drop, if_neg, hlast]
      rw [List.length_take]
      lia
  · obtain ⟨hp, he⟩ := linesOf_spec ((bytes.drop flushed).take capacity)
    refine ⟨hp.trans (List.take_prefix ..), ?_, he, fun h => by lia⟩
    exact hp.length_le.trans (List.length_take_le ..)

/-- A call keeps the buffer ended. When the writer accepts everything it lets no
newline in. -/
structure Tidy (W : Write σ) (s s' : BufWriter σ) : Prop where
  ended : Ended s.buf → Ended s'.buf
  clean : Generous W → newline ∉ s.buf → newline ∉ s'.buf

variable {W : Write σ} {fuel : ℕ} {E : BufWriter σ → Prop} {s s' s'' : BufWriter σ}
  {p bytes : List UInt8}

theorem tidy_of_notMem (h : newline ∉ s'.buf) : Tidy W s s' :=
  ⟨fun _ => ended_of_notMem h, fun _ _ => h⟩

theorem tidy_of_accounts (h : Accounts s s' []) : Tidy W s s' := by
  have hs := h.suffix
  rw [List.append_nil] at hs
  exact ⟨fun he => he.suffix hs, fun _ hn hm => hn (hs.mem hm)⟩

theorem Tidy.trans (h : Tidy W s s') (h' : Tidy W s' s'') : Tidy W s s'' :=
  ⟨fun he => h'.ended (h.ended he), fun hG hn => h'.clean hG (h.clean hG hn)⟩

theorem tidy_of_piece {t : BufWriter σ} (h : Accounts s s' []) (hs : Ended s.buf → newline ∉ s'.buf)
    (h' : Accounts s' t p) (hp : newline ∉ p) : Tidy W s t := by
  have hclean : newline ∉ s'.buf → newline ∉ t.buf := by
    intro hn hm
    rcases List.mem_append.mp (h'.suffix.mem hm) with hm | hm
    · exact hn hm
    · exact hp hm
  exact ⟨fun he => ended_of_notMem (hclean (hs he)),
    fun hG hn => hclean ((tidy_of_accounts (W := W) h).clean hG hn)⟩

theorem sat_flushIfCompletedLine (hW : Lawful W) (hs : s.buf.length ≤ s.capacity)
    (hf : Patient W → s.capacity < fuel) :
    Sat (Patient W) (flushIfCompletedLine W fuel) s
      (fun _ s' => Accounts s s' [] ∧ (Ended s.buf → newline ∉ s'.buf))
      (fun _ s' => Accounts s s' [] ∧ ¬ Generous W) E := by
  unfold flushIfCompletedLine
  apply Sat.bind
  apply sat_get
  apply sat_runIf
  · intro _
    apply (sat_flushBuf hW hs hf).mono
    · rintro _ s₁ ⟨h, hnil⟩
      exact ⟨h, fun _ => by rw [hnil]; exact List.not_mem_nil⟩
    · exact fun _ _ h => h
    · exact fun _ h => h
  · exact fun hlast => ⟨.refl hs, fun he hm => hlast (he hm)⟩

/-- What the call accepted is accounted for and the buffer is kept tidy. -/
def Kept (W : Write σ) (s s' : BufWriter σ) (piece : List UInt8) : Prop :=
  Accounts s s' piece ∧ Tidy W s s'

theorem sat_write (hW : Lawful W) (hs : s.buf.length ≤ s.capacity)
    (hf : Patient W → s.capacity < fuel) :
    Sat (Patient W) (write W fuel bytes) s
      (fun n s' => n ≤ bytes.length ∧ Kept W s s' (bytes.take n))
      (fun _ s' => Kept W s s' [] ∧ ¬ Generous W) E := by
  unfold write
  cases hm : memrchr newline bytes with
  | none =>
    apply Sat.call (sat_flushIfCompletedLine hW hs hf)
    · rintro _ s₁ ⟨h, hn⟩
      apply (BufWriter.sat_write hW h.fits (by rw [h.capacity]; exact hf)).mono
      · rintro n s₂ ⟨hle, h'⟩
        exact ⟨hle, h.trans h', tidy_of_piece h hn h' fun hm' =>
          memrchr_none hm (List.mem_of_mem_take hm')⟩
      · exact fun _ s₂ ⟨h', hG⟩ => ⟨⟨h.trans h', tidy_of_accounts (h.trans h')⟩, hG⟩
      · exact fun _ h => h
    · exact fun _ s₁ ⟨h, hG⟩ => ⟨⟨h, tidy_of_accounts h⟩, hG⟩
  | some i =>
    obtain ⟨hlt, -, -⟩ := memrchr_split hm
    apply Sat.call (sat_flushBuf hW hs hf)
    · rintro _ s₁ ⟨h, hnil⟩
      apply Sat.call (sat_innerWrite hW (bytes.take (i+1)) s₁)
      · rintro flushed s₂ ⟨hle, hp, hG⟩
        have h₂ := h.trans (hp.accounts hnil)
        have hnil₂ := hp.buf.trans hnil
        rw [List.length_take, min_eq_left hlt] at hle hG
        rw [List.take_take, min_eq_left hle, List.nil_append] at h₂
        have htidy₂ : Tidy W s s₂ := tidy_of_notMem (by rw [hnil₂]; exact List.not_mem_nil)
        split_ifs with h0
        · exact sat_pure ⟨Nat.zero_le _, by rw [← h0]; exact h₂, htidy₂⟩
        · apply Sat.bind
          apply sat_require (by lia)
          apply Sat.bind
          apply sat_get
          cases ht : tailToBuffer s₂.capacity (i+1) flushed bytes with
          | none => exact sat_pure ⟨by lia, h₂, htidy₂⟩
          | some tail =>
            obtain ⟨hpre, hcap, he, hclean⟩ := tailToBuffer_spec hm hle ht
            have hlen := hpre.length_le
            rw [List.length_drop] at hlen
            apply Sat.call (sat_writeToBuf (R := fun _ _ => False) h₂.fits)
            · rintro n s₃ ⟨rfl, h₃, hbuf⟩
              rw [spareCapacity_of_nil hnil₂, min_eq_right hcap, List.take_length] at h₃ hbuf
              rw [hnil₂, List.nil_append] at hbuf
              rw [spareCapacity_of_nil hnil₂, min_eq_right hcap]
              refine sat_pure ⟨by lia, ?_, ?_, ?_⟩
              · rw [List.take_add, ← List.prefix_iff_eq_take.mp hpre]
                exact h₂.trans h₃
              · exact fun _ => by rw [hbuf]; exact he
              · exact fun hg _ => by rw [hbuf]; exact hclean (hG hg)
            · exact fun _ _ h => h.elim
      · rintro _ s₂ ⟨hp, hG, -⟩
        have h₂ := h.trans (hp.accounts hnil)
        exact ⟨⟨h₂, tidy_of_accounts h₂⟩, hG⟩
    · exact fun _ s₁ ⟨h, hG⟩ => ⟨⟨h, tidy_of_accounts h⟩, hG⟩

theorem lastNewlineBufIdx_none {bufs : List (List UInt8)} (h : lastNewlineBufIdx bufs = none) :
    newline ∉ bufs.flatten := by
  intro hm
  obtain ⟨buf, hb, hm⟩ := List.mem_flatten.mp hm
  obtain ⟨i, hi, rfl⟩ := List.getElem_of_mem hb
  have hz : (bufs[i], i) ∈ bufs.zipIdx.reverse :=
    List.mem_reverse.mpr (List.mk_mem_zipIdx_iff_getElem?.mpr (List.getElem?_eq_getElem hi))
  have hnone := List.findSome?_eq_none_iff.mp h _ hz
  rw [Option.map_eq_none_iff] at hnone
  have := List.findIdx?_eq_none_iff.mp hnone newline hm
  simp at this

theorem mem_of_zipIdx_split {α : Type} {l : List α} {xs ys : List (α × ℕ)} {a : α} {i : ℕ}
    (h : l.zipIdx.reverse = xs ++ (a, i) :: ys) {b : α} (hb : b ∈ l.drop (i+1)) :
    ∃ k, (b, k) ∈ xs := by
  have hzip : l.zipIdx = ys.reverse ++ (a, i) :: xs.reverse := by
    rw [← List.reverse_reverse l.zipIdx, h]
    simp
  have hlen : ys.length = i := by
    have hat := congrArg (·[ys.length]?) hzip
    simp only [List.getElem?_zipIdx] at hat
    rw [List.getElem?_append_right (by simp), List.length_reverse, Nat.sub_self,
      List.getElem?_cons_zero, Option.map_eq_some_iff] at hat
    obtain ⟨_, -, hat⟩ := hat
    have := (Prod.mk.inj hat).2
    lia
  obtain ⟨k, hk, rfl⟩ := List.getElem_of_mem hb
  subst hlen
  rw [List.length_drop] at hk
  have hat := congrArg (·[ys.length+1+k]?) hzip
  simp only [List.getElem?_zipIdx] at hat
  rw [List.getElem?_append_right (by simp; lia), List.getElem?_eq_getElem (by lia),
    List.length_reverse, show ys.length+1+k-ys.length = k+1 by lia, List.getElem?_cons_succ]
    at hat
  rw [List.getElem_drop]
  exact ⟨_, List.mem_reverse.mp (List.mem_of_getElem? hat.symm)⟩

theorem lastNewlineBufIdx_some {bufs : List (List UInt8)} {i : ℕ}
    (h : lastNewlineBufIdx bufs = some i) : newline ∉ (bufs.drop (i+1)).flatten := by
  intro hflat
  obtain ⟨buf, hb, hm⟩ := List.mem_flatten.mp hflat
  obtain ⟨xs, ⟨b, j⟩, ys, hz, hj, hnone⟩ := List.findSome?_eq_some_iff.mp h
  obtain ⟨_, -, rfl⟩ := Option.map_eq_some_iff.mp hj
  obtain ⟨k, hk⟩ := mem_of_zipIdx_split hz hb
  have hnot : memchr newline buf = none := Option.map_eq_none_iff.mp (hnone _ hk)
  have := List.findIdx?_eq_none_iff.mp hnot newline hm
  simp at this

theorem isPartial_false {flushed linesLen : ℕ} {bufs : List (List UInt8)}
    (h : isPartial flushed linesLen bufs = false) (hl : linesLen ≤ flushed)
    (hm : linesLen ≤ usizeMax) : min (linesLen+bufs.flatten.length) usizeMax ≤ flushed := by
  induction bufs generalizing linesLen with
  | nil =>
    rw [List.flatten_nil, List.length_nil]
    lia
  | cons buf rest ih =>
    unfold isPartial at h
    simp only at h
    split_ifs at h with hlt
    have hsat : saturatingAdd linesLen buf.length ≤ usizeMax := min_le_right ..
    have hrest := ih h (not_lt.mp hlt) hsat
    rw [List.flatten_cons, List.length_append]
    unfold saturatingAdd at hrest
    lia

theorem isPartial_true {flushed linesLen : ℕ} {bufs : List (List UInt8)}
    (h : isPartial flushed linesLen bufs = true) :
    flushed < min (linesLen+bufs.flatten.length) usizeMax := by
  induction bufs generalizing linesLen with
  | nil => cases h
  | cons buf rest ih =>
    unfold isPartial at h
    simp only at h
    rw [List.flatten_cons, List.length_append]
    split_ifs at h with hlt
    · unfold saturatingAdd at hlt
      lia
    · have hrest := ih h
      unfold saturatingAdd at hrest
      lia

theorem sat_bufferTail {bufs : List (List UInt8)} (hs : s.buf.length ≤ s.capacity)
    (hne : ∀ buf ∈ bufs, buf ≠ []) {R : IoError → BufWriter σ → Prop} {L : Prop} :
    Sat L (bufferTail bufs) s
      (fun m s' => m = min s.spareCapacity bufs.flatten.length ∧
        Accounts s s' (bufs.flatten.take m)) R E := by
  induction bufs generalizing s with
  | nil => exact sat_pure ⟨(Nat.min_zero _).symm, .refl hs⟩
  | cons buf rest ih =>
    have hpos := List.length_pos_of_ne_nil (hne buf (List.mem_cons_self ..))
    rw [List.flatten_cons, List.length_append]
    apply Sat.call (sat_writeToBuf (R := R) hs)
    · rintro n s₁ ⟨hn, h, hbuf⟩
      split_ifs with h0
      · exact sat_pure ⟨by lia, .trans (p := []) (by rwa [h0] at h) (.refl h.fits)⟩
      · have hroom : s₁.spareCapacity = s.spareCapacity-n := by
          unfold spareCapacity
          rw [hbuf, h.capacity, List.length_append, List.length_take]
          lia
        apply Sat.call (ih h.fits fun b hb => hne b (List.mem_cons_of_mem _ hb))
        · rintro m s₂ ⟨hm, h'⟩
          rw [hroom] at hm
          refine sat_pure ⟨by lia, ?_⟩
          rcases (show n ≤ buf.length by lia).eq_or_lt with rfl | hlt
          · rw [List.take_length_add_append]
            rw [List.take_length] at h
            exact h.trans h'
          · obtain rfl : m = 0 := by lia
            rw [Nat.add_zero, List.take_append_of_le_length hlt.le]
            rw [← List.append_nil (buf.take n)]
            exact h.trans h'
        · exact fun _ _ h => h
    · exact fun _ _ h => h

/-- The count that `write_vectored` returns fits into a `usize`: of the lines the
writer, once flushed, takes a part, or they and the bytes buffered behind them fit. -/
def CountFits (W : Write σ) (fuel : ℕ) (bufs : List (List UInt8)) (s : BufWriter σ) : Prop :=
  W.isWriteVectored s.inner = true → ∀ i, lastNewlineBufIdx bufs = some i →
    ∀ s₁, flushBuf W fuel s = (.ok (.ok ()), s₁) →
      ∀ n, (W.writeVectored s₁.inner (bufs.take (i+1))).1 = .ok n →
        n < min (bufs.take (i+1)).flatten.length usizeMax ∨
          n+min s.capacity (bufs.drop (i+1)).flatten.length ≤ usizeMax

theorem countFits_of_le (hW : Lawful W) {bufs : List (List UInt8)}
    (h : bufs.flatten.length ≤ usizeMax) : CountFits W fuel bufs s := by
  intro _ i _ s₁ _ n hn
  have hle := (hW.writeVectored s₁.inner _ n hn).1
  have hlen : bufs.flatten.length = (bufs.take (i+1)).flatten.length +
      (bufs.drop (i+1)).flatten.length := by
    rw [← List.length_append, ← List.flatten_append, List.take_append_drop]
  lia

theorem flatten_filter_isEmpty (bufs : List (List UInt8)) :
    (bufs.filter fun buf => !buf.isEmpty).flatten = bufs.flatten := by
  induction bufs with
  | nil => rfl
  | cons buf rest ih =>
    cases buf with
    | nil => simpa using ih
    | cons b bs => simpa using ih

theorem take_flatten_count {bufs : List (List UInt8)} {i flushed m : ℕ}
    (hle : flushed ≤ (bufs.take i).flatten.length) (hm : m ≤ (bufs.drop i).flatten.length)
    (hpart : flushed < (bufs.take i).flatten.length → m = 0) :
    flushed+m ≤ bufs.flatten.length ∧
      bufs.flatten.take flushed ++ (bufs.drop i).flatten.take m = bufs.flatten.take (flushed+m) := by
  have hsplit : bufs.flatten = (bufs.take i).flatten ++ (bufs.drop i).flatten := by
    rw [← List.flatten_append, List.take_append_drop]
  have hlen := congrArg List.length hsplit
  rw [List.length_append] at hlen
  refine ⟨by lia, ?_⟩
  rcases hle.eq_or_lt with rfl | hlt
  · rw [hsplit, List.take_left, List.take_length_add_append]
  · obtain rfl := hpart hlt
    rw [List.take_zero, List.append_nil, Nat.add_zero]

theorem flatten_take_prefix (bufs : List (List UInt8)) (i : ℕ) :
    (bufs.take i).flatten <+: bufs.flatten := by
  refine ⟨(bufs.drop i).flatten, ?_⟩
  rw [← List.flatten_append, List.take_append_drop]

theorem sat_writeVectored (hW : Lawful W) (hs : s.buf.length ≤ s.capacity)
    (hcap : s.capacity ≤ usizeMax) (hf : Patient W → s.capacity < fuel)
    {bufs : List (List UInt8)}
    (hE : ∀ s', s'.capacity = s.capacity → Tidy W s s' → ¬ CountFits W fuel bufs s → E s') :
    Sat (Patient W) (writeVectored W fuel bufs) s
      (fun n s' => n ≤ bufs.flatten.length ∧ Kept W s s' (bufs.flatten.take n))
      (fun _ s' => Kept W s s' []) E := by
  unfold writeVectored
  apply Sat.bind
  apply sat_get
  split_ifs with hv
  · cases hi : lastNewlineBufIdx bufs with
    | none =>
      apply Sat.call (sat_flushIfCompletedLine hW hs hf)
      · rintro _ s₁ ⟨h, hn⟩
        apply (BufWriter.sat_writeVectored hW h.fits (by rw [h.capacity]; exact hcap)
          (by rw [h.capacity]; exact hf)).mono
        · rintro n s₂ ⟨hle, h'⟩
          exact ⟨hle, h.trans h', tidy_of_piece h hn h' fun hm =>
            lastNewlineBufIdx_none hi (List.mem_of_mem_take hm)⟩
        · exact fun _ s₂ h' => ⟨h.trans h', tidy_of_accounts (h.trans h')⟩
        · exact fun _ h => h
      · exact fun _ s₁ h => ⟨h.1, tidy_of_accounts h.1⟩
    | some i =>
      have hpre := flatten_take_prefix bufs (i+1)
      apply Sat.call (sat_flushBuf hW hs hf).run
      · rintro _ s₁ ⟨hflush, h, hnil⟩
        apply Sat.call (sat_innerWriteVectored hW (bufs.take (i+1)) s₁)
        · rintro flushed s₂ ⟨hle, hmax, hp, hw⟩
          have h₂ := h.trans (hp.accounts hnil)
          have hnil₂ := hp.buf.trans hnil
          have htidy₂ : Tidy W s s₂ := tidy_of_notMem (by rw [hnil₂]; exact List.not_mem_nil)
          have htake : (bufs.take (i+1)).flatten.take flushed = bufs.flatten.take flushed := by
            obtain ⟨r, hr⟩ := hpre
            rw [← hr, List.take_append_of_le_length hle]
          rw [htake, List.nil_append] at h₂
          split_ifs with h0 hpart
          · exact sat_pure ⟨Nat.zero_le _, by rw [← h0]; exact h₂, htidy₂⟩
          · exact sat_pure ⟨hle.trans hpre.length_le, h₂, htidy₂⟩
          · have hfull := isPartial_false (Bool.eq_false_iff.mpr hpart) (Nat.zero_le _)
              (Nat.zero_le _)
            rw [Nat.zero_add] at hfull
            apply Sat.call (sat_bufferTail (R := fun _ _ => False) h₂.fits fun buf hb => by
              simpa using (List.mem_filter.mp hb).2)
            · rintro m s₃ ⟨hm, h₃⟩
              rw [flatten_filter_isEmpty] at hm h₃
              rw [spareCapacity_of_nil hnil₂, h₂.capacity] at hm
              have htidy₃ : Tidy W s s₃ := tidy_of_notMem fun hmem => by
                have := h₃.suffix.mem hmem
                rw [hnil₂, List.nil_append] at this
                exact lastNewlineBufIdx_some hi (List.mem_of_mem_take this)
              apply Sat.bind
              by_cases hfit : flushed+m ≤ usizeMax
              · apply sat_require hfit
                obtain ⟨hcount, hpiece⟩ := take_flatten_count hle
                  (show m ≤ (bufs.drop (i+1)).flatten.length by lia) fun hlt => by lia
                exact sat_pure ⟨hcount, by rw [← hpiece]; exact h₂.trans h₃, htidy₃⟩
              · apply sat_require_of_not hfit
                refine hE s₃ (h₂.trans h₃).capacity htidy₃ fun hcount => ?_
                have := hcount hv i hi s₁ hflush flushed hw
                lia
            · exact fun _ _ h => h.elim
        · intro _ s₂ hp
          have h₂ := h.trans (hp.accounts hnil)
          exact ⟨h₂, tidy_of_accounts h₂⟩
      · exact fun _ s₁ h => ⟨h.1, tidy_of_accounts h.1⟩
  · cases hfind : bufs.find? fun buf => !buf.isEmpty with
    | none => exact sat_pure ⟨Nat.zero_le _, .refl hs, tidy_of_accounts (.refl hs)⟩
    | some buf =>
      obtain ⟨-, xs, ys, rfl, hxs⟩ := List.find?_eq_some_iff_append.mp hfind
      have hnil : xs.flatten = [] := List.flatten_eq_nil_iff.mpr fun x hx => by
        simpa using hxs x hx
      apply (sat_write hW hs hf).mono
      · rintro n s₁ ⟨hle, h⟩
        rw [List.flatten_append, hnil, List.nil_append, List.flatten_cons, List.length_append,
          List.take_append_of_le_length hle]
        exact ⟨by lia, h⟩
      · exact fun _ _ h => h.1
      · exact fun _ h => h

theorem fails_writeVectored (hW : Lawful W) (hs : s.buf.length ≤ s.capacity)
    (hcap : s.capacity ≤ usizeMax) (hf : Patient W → s.capacity < fuel) {bufs : List (List UInt8)}
    (h : ¬ CountFits W fuel bufs s) : Fails (writeVectored W fuel bufs) s := by
  unfold CountFits at h
  push Not at h
  obtain ⟨hv, i, hi, s₁, hflush, n, hn, hfull, hover⟩ := h
  have h₁ := (sat_flushBuf (E := fun _ => True) hW hs hf).of_ok hflush
  unfold writeVectored
  apply Sat.bind
  apply sat_get
  rw [if_pos hv, hi]
  apply Sat.bind
  apply sat_of_ok hflush
  apply Sat.call (sat_innerWriteVectored_ok hn (R := fun _ _ => False))
  · rintro _ s₂ ⟨rfl, hbuf, hcap₂⟩
    have hnil := hbuf.trans h₁.2
    split_ifs with h0 hpart
    · lia
    · have := isPartial_true hpart
      rw [Nat.zero_add] at this
      exact absurd this (not_lt.mpr hfull)
    · apply Sat.call (sat_bufferTail (s := s₂) (R := fun _ _ => False)
        (by rw [hnil]; exact Nat.zero_le _) fun buf hb => by simpa using (List.mem_filter.mp hb).2)
      · rintro m s₃ ⟨hm, -⟩
        rw [flatten_filter_isEmpty, spareCapacity_of_nil hnil, hcap₂, h₁.1.capacity] at hm
        apply Sat.bind
        exact sat_require_of_not (by lia) trivial
      · exact fun _ _ h => h
  · exact fun _ _ h => h

theorem sat_writeLines (hW : Lawful W) (hs : s.buf.length ≤ s.capacity)
    (hf : Patient W → s.capacity < fuel) (hf' : Patient W → bytes.length < fuel)
    (hlast : bytes.getLast? = some newline) :
    Sat (Patient W) (writeLines W fuel bytes) s
      (fun _ s' => Accounts s s' bytes ∧ s'.buf = [])
      (fun _ s' => (∃ k, Accounts s s' (bytes.take k)) ∧ (Ended s.buf → Ended s'.buf) ∧
        ¬ Generous W) E := by
  unfold writeLines
  apply Sat.bind
  apply sat_get
  split_ifs with hnil
  · apply (sat_innerWriteAll hW hf').mono
    · exact fun _ s₁ hp => ⟨hp.accounts hnil, hp.buf.trans hnil⟩
    · exact fun _ s₁ ⟨⟨k, hp⟩, hG⟩ => ⟨⟨k, hp.accounts hnil⟩, fun he => by rw [hp.buf]; exact he, hG⟩
    · exact fun _ h => h
  · apply Sat.call (BufWriter.sat_writeAll hW hs hf hf')
    · intro _ s₁ h
      have hended : Ended s₁.buf := by
        have happ : Ended (s.buf ++ bytes) := fun _ => by
          rw [List.getLast?_append, hlast, Option.some_or]
        exact happ.suffix h.suffix
      apply (sat_flushBuf hW h.fits (by rw [h.capacity]; exact hf)).mono
      · rintro _ s₂ ⟨h', hnil'⟩
        have := h.trans h'
        rw [List.append_nil] at this
        exact ⟨this, hnil'⟩
      · rintro _ s₂ ⟨h', hG⟩
        have := h.trans h'
        rw [List.append_nil] at this
        refine ⟨⟨bytes.length, by rwa [List.take_length]⟩, fun _ => ?_, hG⟩
        exact (tidy_of_accounts (W := W) h').ended hended
      · exact fun _ h => h
    · exact fun _ s₁ ⟨hk, hs, hG⟩ => ⟨hk, fun he => he.suffix hs, hG⟩

theorem sat_writeAll (hW : Lawful W) (hs : s.buf.length ≤ s.capacity)
    (hf : Patient W → s.capacity < fuel) (hf' : Patient W → bytes.length < fuel) :
    Sat (Patient W) (writeAll W fuel bytes) s
      (fun _ s' => Kept W s s' bytes)
      (fun _ s' => (∃ k, Kept W s s' (bytes.take k)) ∧ ¬ Generous W) E := by
  unfold writeAll
  cases hm : memrchr newline bytes with
  | none =>
    apply Sat.call (sat_flushIfCompletedLine hW hs hf)
    · rintro _ s₁ ⟨h, hn⟩
      apply (BufWriter.sat_writeAll hW h.fits (by rw [h.capacity]; exact hf) hf').mono
      · exact fun _ s₂ h' => ⟨h.trans h', tidy_of_piece h hn h' (memrchr_none hm)⟩
      · rintro _ s₂ ⟨⟨k, h'⟩, -, hG⟩
        exact ⟨⟨k, h.trans h', tidy_of_piece h hn h' fun hmem =>
          memrchr_none hm (List.mem_of_mem_take hmem)⟩, hG⟩
      · exact fun _ h => h
    · exact fun _ s₁ ⟨h, hG⟩ => ⟨⟨0, h, tidy_of_accounts h⟩, hG⟩
  | some i =>
    obtain ⟨hlt, hlast, hnot⟩ := memrchr_split hm
    have hfl : Patient W → (bytes.take (i+1)).length < fuel := fun h =>
      (List.length_take_le' ..).trans_lt (hf' h)
    have hfd : Patient W → (bytes.drop (i+1)).length < fuel := fun h => by
      have := hf' h
      rw [List.length_drop]
      lia
    apply Sat.call (sat_writeLines hW hs hf hfl hlast)
    · rintro _ s₁ ⟨h, hnil⟩
      apply (BufWriter.sat_writeAll hW h.fits (by rw [h.capacity]; exact hf) hfd).mono
      · intro _ s₂ h'
        have := h.trans h'
        rw [List.take_append_drop] at this
        refine ⟨this, tidy_of_notMem fun hmem => hnot ?_⟩
        simpa [hnil] using h'.suffix.mem hmem
      · rintro _ s₂ ⟨⟨k, h'⟩, -, hG⟩
        have := h.trans h'
        refine ⟨⟨i+1+k, ?_, tidy_of_notMem fun hmem => hnot ?_⟩, hG⟩
        · rwa [List.take_add]
        · have hmem' := h'.suffix.mem hmem
          rw [hnil, List.nil_append] at hmem'
          exact List.mem_of_mem_take hmem'
      · exact fun _ h => h
    · rintro _ s₁ ⟨⟨k, h⟩, he, hG⟩
      rw [List.take_take] at h
      exact ⟨⟨_, h, he, fun hg => absurd hg hG⟩, hG⟩

theorem sat_flush (hW : Lawful W) (hs : s.buf.length ≤ s.capacity)
    (hf : Patient W → s.capacity < fuel) :
    Sat (Patient W) (flush W fuel) s (fun _ s' => Kept W s s' [] ∧ s'.buf = [])
      (fun _ s' => Kept W s s' []) E := by
  apply (BufWriter.sat_flush hW hs hf).mono
  · exact fun _ s₁ h => ⟨⟨h.1, tidy_of_accounts h.1⟩, h.2⟩
  · exact fun _ s₁ h => ⟨h, tidy_of_accounts h⟩
  · exact fun _ h => h

end RustStd.Io.LineWriterShim
