import RustStd.Io.LineWriterShim

/-!
# Runs of the buffered writers

Both writers work on one buffer, so a run may mix their calls. A step lemma says
what a call does to the buffer and to the bytes received, and by induction a run
accounts for all that its calls accepted.

A count is returned as a `usize`. `LineWriterShim::write_vectored` adds two
counts up, and slices that share their memory can make the sum too large.
-/

set_option autoImplicit false

namespace RustStd.Io.BufWriterRuns
open RustStd.Machine RustStd.Fallible RustStd.Io.BufWriter RustStd.Io.LineWriterShim

variable {σ : Type}

inductive Layer
  | buf
  | line
  deriving DecidableEq

inductive Op
  | write (bytes : List UInt8)
  | writeAll (bytes : List UInt8)
  | writeVectored (bufs : List (List UInt8))
  | flush

inductive Reply
  | count (r : Except IoError ℕ)
  | done (r : Except IoError Unit)

def call (W : Write σ) (fuel : ℕ) : Layer → Op → M IoError (BufWriter σ) Reply
  | .buf, .write bytes => do return .count (← attempt (BufWriter.write W fuel bytes))
  | .buf, .writeAll bytes => do return .done (← attempt (BufWriter.writeAll W fuel bytes))
  | .buf, .writeVectored bufs => do return .count (← attempt (BufWriter.writeVectored W fuel bufs))
  | .buf, .flush => do return .done (← attempt (BufWriter.flush W fuel))
  | .line, .write bytes => do return .count (← attempt (LineWriterShim.write W fuel bytes))
  | .line, .writeAll bytes => do return .done (← attempt (LineWriterShim.writeAll W fuel bytes))
  | .line, .writeVectored bufs => do
    return .count (← attempt (LineWriterShim.writeVectored W fuel bufs))
  | .line, .flush => do return .done (← attempt (LineWriterShim.flush W fuel))

def run (W : Write σ) (fuel : ℕ) : List (Layer × Op) → M IoError (BufWriter σ) (List (Op × Reply))
  | [] => pure []
  | (layer, op) :: ops => do
    let r ← call W fuel layer op
    let log ← run W fuel ops
    return (op, r) :: log

/-- The bytes that a call reports as accepted. A failing `write_all` does not
say how many it took. -/
def Accepted : Op → Reply → List UInt8 → Prop
  | .write bytes, .count (.ok n), piece => n ≤ bytes.length ∧ piece = bytes.take n
  | .write _, .count (.error _), piece => piece = []
  | .writeVectored bufs, .count (.ok n), piece =>
    n ≤ bufs.flatten.length ∧ piece = bufs.flatten.take n
  | .writeVectored _, .count (.error _), piece => piece = []
  | .writeAll bytes, .done (.ok _), piece => piece = bytes
  | .writeAll bytes, .done (.error _), piece => piece <+: bytes
  | .flush, .done _, piece => piece = []
  | _, _, _ => False

/-- The largest number of bytes that `write_all` may have to loop over. -/
def Op.len : Op → ℕ
  | .writeAll bytes => bytes.length
  | _ => 0

def Fits (W : Write σ) (fuel : ℕ) : Layer × Op → BufWriter σ → Prop
  | (.line, .writeVectored bufs), s => CountFits W fuel bufs s
  | _, _ => True

def RunFits (W : Write σ) (fuel : ℕ) : List (Layer × Op) → BufWriter σ → Prop
  | [], _ => True
  | c :: ops, s => Fits W fuel c s ∧
    ∀ r s', call W fuel c.1 c.2 s = (.ok (.ok r), s') → RunFits W fuel ops s'

variable {W : Write σ} {fuel : ℕ} {s : BufWriter σ}

theorem sat_call (hW : Lawful W) (hs : s.buf.length ≤ s.capacity) (hcap : s.capacity ≤ usizeMax)
    (hf : Patient W → s.capacity < fuel) (layer : Layer) (op : Op)
    (hf' : Patient W → op.len < fuel) :
    Sat (Patient W) (call W fuel layer op) s
      (fun r s' => (∃ p, Accepted op r p ∧ Accounts s s' p) ∧ (layer = .line → Tidy W s s') ∧
        (op = .flush → r = .done (.ok ()) → s'.buf = []))
      (fun _ _ => False)
      (fun s' => ¬ Fits W fuel (layer, op) s ∧ (layer = .line → Tidy W s s')) := by
  cases layer <;> cases op <;> apply Sat.bind <;> apply Sat.attempt
  case buf.write bytes =>
    apply (BufWriter.sat_write hW hs hf).mono
    · exact fun n s' h => ⟨⟨_, ⟨h.1, rfl⟩, h.2⟩, nofun, nofun⟩
    · exact fun e s' h => ⟨⟨_, rfl, h.1⟩, nofun, nofun⟩
    · exact fun _ h => h
  case buf.writeAll bytes =>
    apply (BufWriter.sat_writeAll hW hs hf hf').mono
    · exact fun _ s' h => ⟨⟨_, rfl, h⟩, nofun, nofun⟩
    · exact fun e s' ⟨⟨k, h⟩, _⟩ => ⟨⟨_, List.take_prefix .., h⟩, nofun, nofun⟩
    · exact fun _ h => h
  case buf.writeVectored bufs =>
    apply (BufWriter.sat_writeVectored hW hs hcap hf).mono
    · exact fun n s' h => ⟨⟨_, ⟨h.1, rfl⟩, h.2⟩, nofun, nofun⟩
    · exact fun e s' h => ⟨⟨_, rfl, h⟩, nofun, nofun⟩
    · exact fun _ h => h
  case buf.flush =>
    apply (BufWriter.sat_flush hW hs hf).mono
    · exact fun _ s' h => ⟨⟨_, rfl, h.1⟩, nofun, fun _ _ => h.2⟩
    · exact fun e s' h => ⟨⟨_, rfl, h⟩, nofun, fun _ he => by cases he⟩
    · exact fun _ h => h
  case line.write bytes =>
    apply (LineWriterShim.sat_write hW hs hf).mono
    · exact fun n s' h => ⟨⟨_, ⟨h.1, rfl⟩, h.2.1⟩, fun _ => h.2.2, nofun⟩
    · exact fun e s' h => ⟨⟨_, rfl, h.1.1⟩, fun _ => h.1.2, nofun⟩
    · exact fun _ h => h
  case line.writeAll bytes =>
    apply (LineWriterShim.sat_writeAll hW hs hf hf').mono
    · exact fun _ s' h => ⟨⟨_, rfl, h.1⟩, fun _ => h.2, nofun⟩
    · exact fun e s' ⟨⟨k, h⟩, _⟩ => ⟨⟨_, List.take_prefix .., h.1⟩, fun _ => h.2, nofun⟩
    · exact fun _ h => h
  case line.writeVectored bufs =>
    apply (LineWriterShim.sat_writeVectored hW hs hcap hf (E := fun s' =>
      ¬ CountFits W fuel bufs s ∧ (Layer.line = .line → Tidy W s s')) fun s' _ ht hn =>
        ⟨hn, fun _ => ht⟩).mono
    · exact fun n s' h => ⟨⟨_, ⟨h.1, rfl⟩, h.2.1⟩, fun _ => h.2.2, nofun⟩
    · exact fun e s' h => ⟨⟨_, rfl, h.1⟩, fun _ => h.2, nofun⟩
    · exact fun _ h => h
  case line.flush =>
    apply (LineWriterShim.sat_flush hW hs hf).mono
    · exact fun _ s' h => ⟨⟨_, rfl, h.1.1⟩, fun _ => h.1.2, fun _ _ => h.2⟩
    · exact fun e s' h => ⟨⟨_, rfl, h.1⟩, fun _ => h.2, fun _ he => by cases he⟩
    · exact fun _ h => h

/-- What a run leaves behind when all its calls return. -/
structure Accounted (W : Write σ) (ops : List (Layer × Op)) (log : List (Op × Reply))
    (pieces : List (List UInt8)) (s s' : BufWriter σ) : Prop where
  calls : log.map Prod.fst = ops.map Prod.snd
  accepted : List.Forall₂ (fun c p => Accepted c.1 c.2 p) log pieces
  accounts : Accounts s s' pieces.flatten
  tidy : (∀ c ∈ ops, c.1 = .line) → Tidy W s s'
  flush : log.getLast? = some (.flush, .done (.ok ())) → s'.buf = []

theorem sat_run (hW : Lawful W) (hs : s.buf.length ≤ s.capacity) (hcap : s.capacity ≤ usizeMax)
    (ops : List (Layer × Op)) (hf : Patient W → s.capacity < fuel ∧ ∀ c ∈ ops, c.2.len < fuel) :
    Sat (Patient W) (run W fuel ops) s
      (fun log s' => ∃ pieces, Accounted W ops log pieces s s')
      (fun _ _ => False)
      (fun s' => ¬ RunFits W fuel ops s ∧ ((∀ c ∈ ops, c.1 = .line) → Tidy W s s')) := by
  induction ops generalizing s with
  | nil =>
    exact sat_pure ⟨[], rfl, .nil, .refl hs, fun _ => tidy_of_accounts (.refl hs), nofun⟩
  | cons c ops ih =>
    obtain ⟨layer, op⟩ := c
    apply Sat.bind
    apply (sat_call hW hs hcap (fun h => (hf h).1) layer op
      fun h => (hf h).2 _ (List.mem_cons_self ..)).run.mono
    · rintro r s₁ ⟨hcall, ⟨p, hp, h⟩, htidy, hflush⟩
      apply Sat.bind
      apply (ih h.fits (by rw [h.capacity]; exact hcap) fun hP =>
        ⟨by rw [h.capacity]; exact (hf hP).1,
          fun c hc => (hf hP).2 c (List.mem_cons_of_mem _ hc)⟩).mono
      · rintro log s₂ ⟨pieces, hall⟩
        refine sat_pure ⟨p :: pieces, ?_, .cons hp hall.accepted, h.trans hall.accounts, ?_, ?_⟩
        · rw [List.map_cons, List.map_cons, hall.calls]
        · exact fun hline => (htidy (hline _ (List.mem_cons_self ..))).trans
            (hall.tidy fun c hc => hline c (List.mem_cons_of_mem _ hc))
        · intro hlast
          cases log with
          | nil =>
            have hnil : pieces = [] := by cases hall.accepted; rfl
            obtain ⟨rfl, rfl⟩ := Prod.mk.inj (Option.some.inj hlast)
            have hsuf := hall.accounts.suffix
            rw [hnil, hflush rfl rfl] at hsuf
            exact List.suffix_nil.mp hsuf
          | cons c' log => exact hall.flush (by rwa [List.getLast?_cons_cons] at hlast)
      · exact fun _ _ h => h
      · rintro s₂ ⟨hn, ht⟩
        refine ⟨fun hfit => hn (hfit.2 r s₁ hcall), fun hline => ?_⟩
        exact (htidy (hline _ (List.mem_cons_self ..))).trans
          (ht fun c hc => hline c (List.mem_cons_of_mem _ hc))
    · exact fun _ _ h => h
    · rintro s₁ ⟨hn, ht⟩
      exact ⟨fun hfit => hn hfit.1,
        fun hline => ht (hline _ (List.mem_cons_self ..))⟩

theorem fails_call (hW : Lawful W) (hs : s.buf.length ≤ s.capacity) (hcap : s.capacity ≤ usizeMax)
    (hf : Patient W → s.capacity < fuel) {layer : Layer} {op : Op}
    (h : ¬ Fits W fuel (layer, op) s) : Fails (call W fuel layer op) s := by
  cases layer <;> cases op
  case line.writeVectored bufs => exact (fails_writeVectored hW hs hcap hf h).attempt.bind
  all_goals exact absurd trivial h

theorem fails_run (hW : Lawful W) (hs : s.buf.length ≤ s.capacity) (hcap : s.capacity ≤ usizeMax)
    (ops : List (Layer × Op)) (hf : Patient W → s.capacity < fuel ∧ ∀ c ∈ ops, c.2.len < fuel)
    (h : ¬ RunFits W fuel ops s) : Fails (run W fuel ops) s := by
  induction ops generalizing s with
  | nil => exact absurd trivial h
  | cons c ops ih =>
    obtain ⟨layer, op⟩ := c
    by_cases hfit : Fits W fuel (layer, op) s
    · have hrest : ¬ ∀ r s', call W fuel layer op s = (.ok (.ok r), s') → RunFits W fuel ops s' :=
        fun hrest => h ⟨hfit, hrest⟩
      push Not at hrest
      obtain ⟨r, s₁, hcall, hrest⟩ := hrest
      obtain ⟨⟨p, -, hacc⟩, -⟩ := (sat_call hW hs hcap (fun h => (hf h).1) layer op
        fun h => (hf h).2 _ (List.mem_cons_self ..)).of_ok hcall
      apply Sat.bind
      apply sat_of_ok hcall
      refine (ih hacc.fits (by rw [hacc.capacity]; exact hcap) (fun hP => ⟨?_, ?_⟩) hrest).bind
      · rw [hacc.capacity]
        exact (hf hP).1
      · exact fun c hc => (hf hP).2 c (List.mem_cons_of_mem _ hc)
    · exact (fails_call hW hs hcap (fun h => (hf h).1) hfit).bind

/-- Slices that share no memory are never longer than `usize::MAX` together. -/
theorem runFits_of_le (hW : Lawful W) {ops : List (Layer × Op)}
    (h : ∀ bufs, (Layer.line, Op.writeVectored bufs) ∈ ops → bufs.flatten.length ≤ usizeMax) :
    RunFits W fuel ops s := by
  induction ops generalizing s with
  | nil => trivial
  | cons c ops ih =>
    obtain ⟨layer, op⟩ := c
    refine ⟨?_, fun _ _ _ => ih fun bufs hb => h bufs (List.mem_cons_of_mem _ hb)⟩
    cases layer <;> cases op
    case line.writeVectored bufs => exact countFits_of_le hW (h bufs (List.mem_cons_self ..))
    all_goals trivial

/-- Nothing is lost or written twice, and no assertion fails. -/
structure LosesNothing (W : Write σ) (fuel : ℕ) (ops : List (Layer × Op)) (capacity : ℕ) (w : σ) :
    Prop where
  sat : Sat (Patient W) (run W fuel ops) (withCapacity capacity w)
    (fun log s => log.map Prod.fst = ops.map Prod.snd ∧
      (∃ pieces, List.Forall₂ (fun c p => Accepted c.1 c.2 p) log pieces ∧
        s.received ++ s.buf = pieces.flatten) ∧
      (log.getLast? = some (.flush, .done (.ok ())) → s.buf = []) ∧
      s.capacity = capacity ∧ s.buf.length ≤ s.capacity)
    (fun _ _ => False) (fun _ => False)

theorem LosesNothing.fits (hW : Lawful W) {capacity : ℕ} (hcap : capacity ≤ usizeMax)
    {ops : List (Layer × Op)} (hf : Patient W → capacity < fuel ∧ ∀ c ∈ ops, c.2.len < fuel) {w : σ}
    (h : LosesNothing W fuel ops capacity w) : RunFits W fuel ops (withCapacity capacity w) := by
  by_contra hfit
  exact (fails_run hW (Nat.zero_le _) hcap ops hf hfit).not_sat h.sat

theorem bufWriter_losesNothing (hW : Lawful W) {capacity : ℕ} (hcap : capacity ≤ usizeMax)
    (ops : List (Layer × Op)) (hf : Patient W → capacity < fuel ∧ ∀ c ∈ ops, c.2.len < fuel)
    (w : σ) :
    LosesNothing W fuel ops capacity w ↔ RunFits W fuel ops (withCapacity capacity w) := by
  refine ⟨fun h => h.fits hW hcap hf, fun hfit => ?_⟩
  constructor
  apply (sat_run (s := withCapacity capacity w) hW (Nat.zero_le _) hcap ops hf).mono
  · rintro log s ⟨pieces, h⟩
    exact ⟨h.calls, ⟨pieces, h.accepted, h.accounts.total⟩, h.flush, h.accounts.capacity,
      h.accounts.fits⟩
  · exact fun _ _ h => h
  · exact fun _ h => h.1 hfit

def sink : Write Unit where
  write _ bytes := (.ok bytes.length, ())
  writeVectored _ bufs := (.ok (min bufs.flatten.length usizeMax), ())
  isWriteVectored _ := true
  flush _ := (.ok (), ())

theorem sink_lawful : Lawful sink where
  write _ bytes n h := (Except.ok.inj h).ge
  writeVectored _ bufs n h := by
    have : min bufs.flatten.length usizeMax = n := Except.ok.inj h
    omega

def sample : List (Layer × Op) :=
  [(.line, .writeVectored [[104, 105, 10], [104]]), (.buf, .writeAll [111]), (.line, .flush)]

theorem bufWriter_losesNothing_sample : LosesNothing sink 5 sample 4 () :=
  (bufWriter_losesNothing sink_lawful (by decide) sample (fun _ => by decide) ()).mpr
    (runFits_of_le sink_lawful (by simp [sample, usizeMax]))

/-- Two slices over one memory and a newline have the length `usize::MAX`
together, and one byte follows them. -/
def overlapping (x : List UInt8) : List (List UInt8) := [x, x, [newline], [65]]

theorem not_runFits_overlapping {x : List UInt8} (hlen : x.length = isizeMax) :
    ¬ RunFits sink 2 [(.line, .writeVectored (overlapping x))] (withCapacity 1 ()) := by
  have hi : lastNewlineBufIdx (overlapping x) = some 2 := by
    simp [lastNewlineBufIdx, overlapping, CharPattern.memchr, newline]
  have hl : ((overlapping x).take 3).flatten.length = isizeMax+(isizeMax+1) := by
    simp [overlapping, hlen]
  have hd : ((overlapping x).drop 3).flatten.length = 1 := rfl
  have hmax : isizeMax+(isizeMax+1) = usizeMax := by decide
  rintro ⟨hfit, -⟩
  rcases hfit rfl 2 hi (withCapacity 1 ()) rfl _ rfl with h | h
  · exact absurd h (lt_irrefl _)
  · rw [hl, hd, hmax, min_self] at h
    exact absurd h (by decide)

theorem bufWriter_losesNothing_counterexample :
    ¬ LosesNothing sink 2 [(.line, .writeVectored (overlapping (.replicate isizeMax 0)))] 1 () :=
  fun h => not_runFits_overlapping List.length_replicate
    (h.fits sink_lawful (by decide) fun _ => by decide)

theorem newline_prefix {received buf p q : List UInt8} (h : received ++ buf = p ++ newline :: q)
    (hn : newline ∉ buf) : p ++ [newline] <+: received := by
  rcases List.append_eq_append_iff.mp h with ⟨t, rfl, ht⟩ | ⟨t, rfl, ht⟩
  · exact absurd (by rw [ht]; simp) hn
  · cases t with
    | nil =>
      rw [List.nil_append] at ht
      exact absurd (by rw [← ht]; simp) hn
    | cons b t =>
      obtain ⟨rfl, -⟩ := List.cons.inj ht
      exact ⟨t, by simp⟩

/-- Whether the calls succeed, fail or panic, the buffer stays ended; and a
writer that accepts everything has received every line. -/
theorem lineWriter_holdsBackNoLine (hW : Lawful W) {capacity : ℕ} (hcap : capacity ≤ usizeMax)
    (ops : List Op) (hf : Patient W → capacity < fuel ∧ ∀ op ∈ ops, op.len < fuel) (w : σ) :
    Sat (Patient W) (run W fuel (ops.map (Prod.mk .line))) (withCapacity capacity w)
      (fun log s => Ended s.buf ∧ (Generous W → newline ∉ s.buf ∧
        ∃ pieces, List.Forall₂ (fun c p => Accepted c.1 c.2 p) log pieces ∧
          ∀ p q, pieces.flatten = p ++ newline :: q → p ++ [newline] <+: s.received))
      (fun _ _ => False)
      (fun s => Ended s.buf ∧ (Generous W → newline ∉ s.buf)) := by
  have hline : ∀ c ∈ ops.map (Prod.mk Layer.line), c.1 = .line := by
    intro c hc
    obtain ⟨op, -, rfl⟩ := List.mem_map.mp hc
    rfl
  have hlen : Patient W → capacity < fuel ∧ ∀ c ∈ ops.map (Prod.mk Layer.line), c.2.len < fuel := by
    refine fun hP => ⟨(hf hP).1, fun c hc => ?_⟩
    obtain ⟨op, hop, rfl⟩ := List.mem_map.mp hc
    exact (hf hP).2 op hop
  apply (sat_run (s := withCapacity capacity w) hW (Nat.zero_le _) hcap _ hlen).mono
  · rintro log s ⟨pieces, h⟩
    have htidy := h.tidy hline
    refine ⟨htidy.ended nofun, fun hG => ⟨htidy.clean hG List.not_mem_nil, pieces, h.accepted, ?_⟩⟩
    intro p q hpq
    exact newline_prefix (h.accounts.total.trans hpq) (htidy.clean hG List.not_mem_nil)
  · exact fun _ _ h => h
  · rintro s ⟨-, ht⟩
    exact ⟨(ht hline).ended nofun, fun hG => (ht hline).clean hG List.not_mem_nil⟩

def lines : List Op := [.writeVectored [[104, 105, 10], [104]], .writeAll [111], .write [10, 104]]

theorem lineWriter_holdsBackNoLine_sink :
    Sat (Patient sink) (run sink 5 (lines.map (Prod.mk .line))) (withCapacity 4 ())
      (fun log s => Ended s.buf ∧ (Generous sink → newline ∉ s.buf ∧
        ∃ pieces, List.Forall₂ (fun c p => Accepted c.1 c.2 p) log pieces ∧
          ∀ p q, pieces.flatten = p ++ newline :: q → p ++ [newline] <+: s.received))
      (fun _ _ => False)
      (fun s => Ended s.buf ∧ (Generous sink → newline ∉ s.buf)) :=
  lineWriter_holdsBackNoLine sink_lawful (by decide) lines (fun _ => by decide) ()

end RustStd.Io.BufWriterRuns
