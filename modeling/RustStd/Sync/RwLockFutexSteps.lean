import RustStd.Sync.RwLockFutex

/-!
# What a step of the futex RwLock can do

A word is packed from a count and two bits. `Did` says once, in terms of these,
what a step of a thread can do; `Moves` are the steps that leave the memory
alone.
-/

set_option autoImplicit false

namespace RustStd.RwLockFutex
open RustStd.Threads

structure Word where
  count : ℕ
  readers : Bool
  writers : Bool
  deriving DecidableEq, Repr

namespace Word

def flags (x : Word) : ℕ := x.readers.toNat+2*x.writers.toNat

def pack (x : Word) : ℕ := 2^30*x.flags+x.count

variable {x y : Word}

theorem flags_lt : x.flags < 4 := by
  unfold flags
  have := Bool.toNat_lt x.readers
  have := Bool.toNat_lt x.writers
  omega

theorem pack_and_mask (h : x.count ≤ mask) : x.pack &&& mask = x.count := by
  unfold mask at *
  rw [Nat.and_two_pow_sub_one_eq_mod, pack]
  omega

theorem hasReadersWaiting_pack (h : x.count ≤ mask) : hasReadersWaiting x.pack = x.readers := by
  unfold mask at h
  unfold hasReadersWaiting readersWaiting
  rw [Nat.and_two_pow, Nat.testBit_eq_decide_div_mod_eq]
  unfold pack flags
  cases x.readers <;> cases x.writers <;> simp <;> omega

theorem hasWritersWaiting_pack (h : x.count ≤ mask) : hasWritersWaiting x.pack = x.writers := by
  unfold mask at h
  unfold hasWritersWaiting writersWaiting
  rw [Nat.and_two_pow, Nat.testBit_eq_decide_div_mod_eq]
  unfold pack flags
  cases x.readers <;> cases x.writers <;> simp <;> omega

theorem isUnlocked_pack (h : x.count ≤ mask) : isUnlocked x.pack = (x.count == 0) := by
  rw [isUnlocked, pack_and_mask h]

theorem isWriteLocked_pack (h : x.count ≤ mask) : isWriteLocked x.pack = (x.count == mask) := by
  rw [isWriteLocked, pack_and_mask h]
  rfl

theorem hasReachedMaxReaders_pack (h : x.count ≤ mask) :
    hasReachedMaxReaders x.pack = (x.count == maxReaders) := by
  rw [hasReachedMaxReaders, pack_and_mask h]

theorem isReadLockable_pack (h : x.count ≤ mask) :
    isReadLockable x.pack = (decide (x.count < maxReaders) && !x.readers && !x.writers) := by
  rw [isReadLockable, pack_and_mask h, hasReadersWaiting_pack h, hasWritersWaiting_pack h]

theorem isReadLockableAfterWakeup_pack (h : x.count ≤ mask) :
    isReadLockableAfterWakeup x.pack =
      (decide (x.count < maxReaders) && !x.readers && !x.count == mask && !x.count == 0) := by
  rw [isReadLockableAfterWakeup, pack_and_mask h, hasReadersWaiting_pack h, isWriteLocked_pack h,
    isUnlocked_pack h]

theorem pack_or (hx : x.count ≤ mask) (hy : y.count ≤ mask) :
    x.pack ||| y.pack =
      pack ⟨x.count ||| y.count, x.readers || y.readers, x.writers || y.writers⟩ := by
  have hlt : ∀ n, n ≤ mask → n < 2^30 := by
    unfold mask
    omega
  have hflags : flags ⟨x.count ||| y.count, x.readers || y.readers, x.writers || y.writers⟩ =
      x.flags ||| y.flags := by
    change (x.readers || y.readers).toNat+2*(x.writers || y.writers).toNat = _
    unfold flags
    cases x.readers <;> cases x.writers <;> cases y.readers <;> cases y.writers <;> decide
  have hshift : 2^30*(x.flags ||| y.flags) = 2^30*x.flags ||| 2^30*y.flags := by
    have := Nat.shiftLeft_or_distrib (a := x.flags) (b := y.flags) (i := 30)
    simpa only [Nat.shiftLeft_eq, Nat.mul_comm] using this
  unfold pack
  rw [hflags, Nat.two_pow_add_eq_or_of_lt (hlt _ hx), Nat.two_pow_add_eq_or_of_lt (hlt _ hy),
    Nat.two_pow_add_eq_or_of_lt (Nat.or_lt_two_pow (hlt _ hx) (hlt _ hy)), hshift]
  ac_rfl

theorem pack_injective (hx : x.count ≤ mask) (hy : y.count ≤ mask) (h : x.pack = y.pack) :
    x = y := by
  have hcount : x.count = y.count := by rw [← pack_and_mask hx, h, pack_and_mask hy]
  have hreaders : x.readers = y.readers := by
    rw [← hasReadersWaiting_pack hx, h, hasReadersWaiting_pack hy]
  have hwriters : x.writers = y.writers := by
    rw [← hasWritersWaiting_pack hx, h, hasWritersWaiting_pack hy]
  cases x
  cases y
  simp_all

theorem pack_or_readers (h : x.count ≤ mask) :
    x.pack ||| readersWaiting = pack { x with readers := true } := by
  have hor := pack_or h (y := ⟨0, true, false⟩) (Nat.zero_le _)
  rwa [Nat.or_zero, Bool.or_true, Bool.or_false] at hor

theorem pack_or_writers (h : x.count ≤ mask) :
    x.pack ||| writersWaiting = pack { x with writers := true } := by
  have hor := pack_or h (y := ⟨0, false, true⟩) (Nat.zero_le _)
  rwa [Nat.or_zero, Bool.or_true, Bool.or_false] at hor

theorem pack_or_locked (h : x.count = 0) (b : Bool) :
    (x.pack ||| writeLocked ||| if b then writersWaiting else 0) =
      pack ⟨mask, x.readers, x.writers || b⟩ := by
  have hor := pack_or (x := x) (y := ⟨mask, false, b⟩) (by rw [h]; exact Nat.zero_le _) le_rfl
  rw [h, Nat.zero_or, Bool.or_false] at hor
  rw [← hor, Nat.or_assoc]
  cases b <;> rfl

end Word

open Word

/-- The steps that leave the memory alone, which holds `x` and `n`. -/
inductive Moves (x : Word) (n : ℕ) : Place → Place → Prop
  | callRead (h : isReadLockable x.pack = true) : Moves x n .outside (.read x.pack)
  | callReadContended : Moves x n .outside (.spinRead false 100)
  | callTryRead : Moves x n .outside (.tryRead x.pack)
  | callWrite : Moves x n .outside (.spinWrite false 100)
  | callTryWrite : Moves x n .outside (.tryWrite x.pack)
  | read (s : ℕ) : Moves x n (.read s) (.spinRead false 100)
  | spinRead (b : Bool) (k j : ℕ) : Moves x n (.spinRead b k) (.spinRead b j)
  | spunRead (b : Bool) (k : ℕ) : Moves x n (.spinRead b k) (.readContended b x.pack)
  | readAgain (b : Bool) (s : ℕ) : Moves x n (.readContended b s) (.readContended b x.pack)
  | tooManyReaders (b : Bool) (s : ℕ) : Moves x n (.readContended b s) .outside
  | readWait (b : Bool) (s : ℕ) : Moves x n (.readContended b s) (.readWait (s ||| readersWaiting))
  | readSleep (e : ℕ) (h : x.pack = e) : Moves x n (.readWait e) .readAsleep
  | readChanged (e : ℕ) : Moves x n (.readWait e) (.spinRead true 100)
  | tryReadAgain (s : ℕ) : Moves x n (.tryRead s) (.tryRead x.pack)
  | tryReadFails (s : ℕ) : Moves x n (.tryRead s) .outside
  | spinWrite (b : Bool) (k j : ℕ) : Moves x n (.spinWrite b k) (.spinWrite b j)
  | spunWrite (b : Bool) (k : ℕ) : Moves x n (.spinWrite b k) (.writeContended b x.pack)
  | writeAgain (b : Bool) (s : ℕ) : Moves x n (.writeContended b s) (.writeContended b x.pack)
  | writersSet (b : Bool) (s : ℕ) : Moves x n (.writeContended b s) .examine
  | examine : Moves x n .examine (.recheck n)
  | recheck (m : ℕ) : Moves x n (.recheck m) (.writeContended true x.pack)
  | writeWait (m : ℕ) (hl : x.count ≠ 0) (hw : x.writers = true) :
      Moves x n (.recheck m) (.writeWait m)
  | writeSleep (m : ℕ) (h : n%2^32 = m%2^32) : Moves x n (.writeWait m) .writeAsleep
  | writeChanged (m : ℕ) : Moves x n (.writeWait m) (.spinWrite true 100)
  | tryWriteAgain (s : ℕ) : Moves x n (.tryWrite s) (.tryWrite x.pack)
  | tryWriteFails (s : ℕ) : Moves x n (.tryWrite s) .outside
  | nobodyReads (s : ℕ) (h : s ≠ writersWaiting ∨ x.pack ≠ s) :
      Moves x n (.wakeWriterOrReaders s) (.wakeBoth (if s = writersWaiting then x.pack else s))
  | gotLocked (s : ℕ) (h : x.pack ≠ s) : Moves x n (.wakeBoth s) .outside
  | notBoth (s : ℕ) (h : s ≠ readersWaiting+writersWaiting) :
      Moves x n (.wakeBoth s) (.wakeOnlyReaders s)
  | nothingToDo (s : ℕ) (h : s ≠ readersWaiting ∨ x.pack ≠ s) :
      Moves x n (.wakeOnlyReaders s) .outside

/-- Where a thread locks for reading. -/
def LocksRead : Place → Prop
  | .read _ => True
  | .readContended _ _ => True
  | .tryRead _ => True
  | _ => False

/-- Where a thread locks for writing. It says that others may wait once it has
waited. -/
def LocksWrite (writers : Bool) : Place → Prop
  | .outside => True
  | .writeContended b _ => b = true → writers = true
  | .tryWrite _ => True
  | _ => False

/-- Where `read_unlock` leaves the thread, by the word after it. -/
def afterReadUnlock (x : Word) : Place :=
  if x.readers && !x.writers then .failed
  else if x.count == 0 && x.writers then .wakeWriterOrReaders x.pack
  else .outside

def afterWriteUnlock (x : Word) : Place :=
  if x.writers || x.readers then .wakeWriterOrReaders x.pack else .outside

def afterDowngrade (x : Word) : Place := if x.readers then .unsetReaders else .outside

/-- What a step of a thread can do to the word `x`, after `n` notifications. -/
inductive Did (x : Word) (n : ℕ) (th : Thread) : Word → ℕ → Wake Address → Thread → Prop
  | move {p : Place} (h : Moves x n th.place p) : Did x n th x n .nobody (th.go p)
  | lockRead (hp : LocksRead th.place) (hc : x.count < maxReaders) (hr : x.readers = false) :
      Did x n th { x with count := x.count+1 } n .nobody th.lockRead
  | setReaders {b : Bool} {s : ℕ} (hp : th.place = .readContended b s) (hs : x.readers = false)
      (hw : x.writers = true ∨ x.count = mask) :
      Did x n th { x with readers := true } n .nobody
        (th.go (.readWait (pack { x with readers := true })))
  | lockWrite (writers : Bool) (hp : LocksWrite writers th.place) (hc : x.count = 0)
      (hw : x.writers = true → writers = true) :
      Did x n th ⟨mask, x.readers, writers⟩ n .nobody th.lockWrite
  | setWriters {b : Bool} {s : ℕ} (hp : th.place = .writeContended b s) (hc : x.count ≠ 0) :
      Did x n th { x with writers := true } n .nobody (th.go .examine)
  | readUnlock {y : Word} (hp : th.place = .outside) (hr : 0 < th.reads)
      (hx : x = { y with count := y.count+1 }) :
      Did x n th y n .nobody { th with reads := th.reads-1, place := afterReadUnlock y }
  | writeUnlock {y : Word} (hp : th.place = .outside) (hw : th.writes = true)
      (hy : y = { x with count := 0 }) :
      Did x n th y n .nobody { th with writes := false, place := afterWriteUnlock y }
  | downgrade (hp : th.place = .outside) (hw : th.writes = true) :
      Did x n th { x with count := 1 } n .nobody
        { th with reads := th.reads+1, writes := false, place := afterDowngrade x }
  | unsetReaders (hp : th.place = .unsetReaders) :
      Did x n th { x with readers := false } n .nobody (th.go .wakeReaders)
  | wakeReaders (hp : th.place = .wakeReaders) : Did x n th x n (.all .state) (th.go .outside)
  | takeWriters (hp : th.place = .wakeWriterOrReaders writersWaiting) (hx : x = ⟨0, false, true⟩) :
      Did x n th ⟨0, false, false⟩ n .nobody (th.go (.notify false))
  | takeBoth (hp : th.place = .wakeBoth (readersWaiting+writersWaiting)) (hx : x = ⟨0, true, true⟩) :
      Did x n th ⟨0, true, false⟩ n .nobody (th.go (.notify true))
  | takeReaders (hp : th.place = .wakeOnlyReaders readersWaiting) (hx : x = ⟨0, true, false⟩) :
      Did x n th ⟨0, false, false⟩ n .nobody (th.go .wakeReaders)
  | notify {both : Bool} (hp : th.place = .notify both) :
      Did x n th x (n+1) .nobody (th.go (.wakeWriter both))
  | wakeWriter {both found woke : Bool} (hp : th.place = .wakeWriter both)
      (hf : woke = true → found = true) :
      Did x n th x n (.one .writerNotify found) (th.go (afterWakeWriter both woke))

/-- What a thread may rely on at its place, after `n` notifications. -/
def Local (n : ℕ) : Place → Prop
  | .read s => isReadLockable s = true
  | .readWait e => hasReadersWaiting e = true
  | .recheck m => m ≤ n
  | .writeWait m => m ≤ n
  | .wakeWriterOrReaders s => isUnlocked s = true
  | .failed => False
  | _ => True

/-- The step is one of those that `Did` lists. -/
def Done (x : Word) (n : ℕ) (th : Thread) (r : Result) : Prop :=
  ∃ y m, r.1 = ⟨pack y, m⟩ ∧ Did x n th y m r.2.1 r.2.2

variable {x : Word} {n : ℕ} {th : Thread}

theorem done_move {p : Place} (h : Moves x n th.place p) :
    ∀ r ∈ [stay ⟨x.pack, n⟩ th p], Done x n th r := by
  intro r hr
  obtain rfl := List.mem_singleton.mp hr
  exact ⟨x, n, rfl, .move h⟩

theorem done_compareExchange {current new : ℕ} {ok : Thread} {err : ℕ → Place}
    (hok : x.pack = current → Done x n th (⟨new, n⟩, .nobody, ok))
    (herr : x.pack ≠ current → Moves x n th.place (err x.pack)) :
    ∀ r ∈ compareExchange ⟨x.pack, n⟩ th current new ok err, Done x n th r := by
  unfold compareExchange
  split_ifs with h
  · intro r hr
    obtain rfl := List.mem_singleton.mp hr
    exact hok h
  · exact done_move (herr h)

theorem done_compareExchangeWeak {current new : ℕ} {ok : Thread} {err : ℕ → Place}
    (hok : x.pack = current → Done x n th (⟨new, n⟩, .nobody, ok))
    (herr : Moves x n th.place (err x.pack)) :
    ∀ r ∈ compareExchangeWeak ⟨x.pack, n⟩ th current new ok err, Done x n th r := by
  unfold compareExchangeWeak
  split_ifs with h
  · exact List.forall_mem_cons.mpr ⟨hok h, done_move herr⟩
  · exact done_move herr

theorem done_lockRead (hx : x.count ≤ mask) (hp : LocksRead th.place) {state : ℕ}
    (hs : isReadLockable state = true ∨ isReadLockableAfterWakeup state = true)
    (h : x.pack = state) : Done x n th (⟨state+readLocked, n⟩, .nobody, th.lockRead) := by
  subst h
  rw [isReadLockable_pack hx, isReadLockableAfterWakeup_pack hx] at hs
  simp only [Bool.and_eq_true, Bool.not_eq_true', decide_eq_true_eq] at hs
  refine ⟨{ x with count := x.count+1 }, n, ?_, .lockRead hp ?_ ?_⟩
  · rfl
  · rcases hs with ⟨⟨hc, -⟩, -⟩ | ⟨⟨⟨hc, -⟩, -⟩, -⟩ <;> exact hc
  · rcases hs with ⟨⟨-, hr⟩, -⟩ | ⟨⟨⟨-, hr⟩, -⟩, -⟩ <;> exact hr

theorem done_lockWrite (hx : x.count ≤ mask) (b : Bool) (hp : LocksWrite (x.writers || b) th.place)
    {state new : ℕ} (hs : isUnlocked state = true)
    (hnew : new = state ||| writeLocked ||| if b then writersWaiting else 0)
    (h : x.pack = state) : Done x n th (⟨new, n⟩, .nobody, th.lockWrite) := by
  subst h
  rw [isUnlocked_pack hx, beq_iff_eq] at hs
  refine ⟨⟨mask, x.readers, x.writers || b⟩, n, ?_, .lockWrite _ hp hs ?_⟩
  · rw [hnew, pack_or_locked hs]
  · intro hw
    rw [hw, Bool.true_or]

theorem fetchSub_pack {k : ℕ} (hk : k ≤ x.count) (hx : x.count ≤ mask) :
    fetchSub x.pack k = pack { x with count := x.count-k } := by
  have := x.flags_lt
  unfold mask at hx
  unfold fetchSub pack
  change _ = 2^30*x.flags+(x.count-k)
  omega

theorem fetchAdd_downgrade (hc : x.count = mask) :
    fetchAdd x.pack downgrade = pack { x with count := 1 } := by
  have := x.flags_lt
  unfold fetchAdd pack
  change _ = 2^30*x.flags+1
  rw [hc]
  unfold downgrade readLocked writeLocked mask
  omega

theorem fetchSub_readers (hr : x.readers = true) (hx : x.count ≤ mask) :
    fetchSub x.pack readersWaiting = pack { x with readers := false } := by
  have := Bool.toNat_lt x.writers
  unfold mask at hx
  unfold fetchSub pack flags readersWaiting
  rw [hr]
  change _ = 2^30*(0+2*x.writers.toNat)+x.count
  rw [Bool.toNat_true]
  omega

theorem done_readUnlock (hp : th.place = .outside) (hr : 0 < th.reads) (hc : 0 < x.count)
    (hx : x.count ≤ mask) : ∀ r ∈ readUnlock ⟨x.pack, n⟩ th, Done x n th r := by
  intro r h
  obtain rfl := List.mem_singleton.mp h
  have hsub : fetchSub x.pack readLocked = _ := fetchSub_pack hc hx
  have hle : x.count-readLocked ≤ mask := (Nat.sub_le ..).trans hx
  generalize hy : ({ x with count := x.count-readLocked } : Word) = y at hsub
  have hcount : y.count ≤ mask := by rwa [← hy]
  have hsucc : x = { y with count := y.count+1 } := by
    rw [← hy]
    change x = { x with count := x.count-1+1 }
    rw [Nat.sub_add_cancel hc]
  have hdid := Did.readUnlock (n := n) hp hr hsucc
  unfold afterReadUnlock at hdid
  refine ⟨y, n, ?_, ?_⟩
  · dsimp only
    rw [hsub]
  · dsimp only
    rwa [hsub, hasReadersWaiting_pack hcount, hasWritersWaiting_pack hcount, isUnlocked_pack hcount]

theorem done_writeUnlock (hp : th.place = .outside) (hw : th.writes = true) (hc : x.count = mask) :
    ∀ r ∈ writeUnlock ⟨x.pack, n⟩ th, Done x n th r := by
  intro r h
  obtain rfl := List.mem_singleton.mp h
  have hsub : fetchSub x.pack writeLocked = _ := fetchSub_pack hc.ge hc.le
  generalize hy : ({ x with count := x.count-writeLocked } : Word) = y at hsub
  have hzero : y.count = 0 := by
    rw [← hy, hc]
    rfl
  have hcount : y.count ≤ mask := by
    rw [hzero]
    exact Nat.zero_le _
  have hdid := Did.writeUnlock (n := n) (y := y) hp hw (by rw [← hy, hc]; rfl)
  unfold afterWriteUnlock at hdid
  refine ⟨y, n, ?_, ?_⟩
  · dsimp only
    rw [hsub]
  · dsimp only
    rw [hsub, hasReadersWaiting_pack hcount, hasWritersWaiting_pack hcount, isUnlocked_pack hcount,
      hzero]
    exact hdid

theorem done_downgrade (hp : th.place = .outside) (hw : th.writes = true) (hc : x.count = mask) :
    ∀ r ∈ startDowngrade ⟨x.pack, n⟩ th, Done x n th r := by
  intro r h
  obtain rfl := List.mem_singleton.mp h
  refine ⟨{ x with count := 1 }, n, ?_, ?_⟩
  · dsimp only
    rw [fetchAdd_downgrade hc]
  · dsimp only
    rw [isWriteLocked_pack hc.le, hasReadersWaiting_pack hc.le, hc, beq_self_eq_true]
    exact .downgrade hp hw

theorem done_readContended {b : Bool} {s : ℕ} (hp : th.place = .readContended b s)
    (hx : x.count ≤ mask) : ∀ r ∈ readContended ⟨x.pack, n⟩ th b s, Done x n th r := by
  have hagain : Moves x n th.place (.readContended b x.pack) := by
    rw [hp]
    exact .readAgain b s
  unfold readContended
  split_ifs with hl hm hr
  · refine done_compareExchangeWeak (done_lockRead hx (by rw [hp]; trivial) ?_) hagain
    rw [Bool.or_eq_true, Bool.and_eq_true] at hl
    exact hl.symm.imp_right And.right
  · apply done_move
    rw [hp]
    exact .tooManyReaders b s
  · apply done_compareExchange ?_ fun _ => hagain
    rintro rfl
    rw [Bool.or_eq_true, not_or, isReadLockable_pack hx] at hl
    rw [hasReachedMaxReaders_pack hx] at hm
    rw [hasReadersWaiting_pack hx, Bool.not_eq_true'] at hr
    rw [pack_or_readers hx]
    refine ⟨{ x with readers := true }, n, rfl, .setReaders hp hr ?_⟩
    have hnot := hl.2
    simp only [hr, Bool.not_false, Bool.and_true, Bool.and_eq_true, decide_eq_true_eq,
      Bool.not_eq_true', beq_iff_eq] at hnot hm
    by_cases hw : x.writers = true
    · exact .inl hw
    · refine .inr ?_
      have : ¬ x.count < maxReaders := fun hlt => hnot ⟨hlt, Bool.eq_false_iff.mpr hw⟩
      unfold maxReaders mask at *
      omega
  · apply done_move
    rw [hp]
    exact .readWait b s

theorem done_writeContended {b : Bool} {s : ℕ} (hp : th.place = .writeContended b s)
    (hx : x.count ≤ mask) : ∀ r ∈ writeContended ⟨x.pack, n⟩ th b s, Done x n th r := by
  have hagain : Moves x n th.place (.writeContended b x.pack) := by
    rw [hp]
    exact .writeAgain b s
  unfold writeContended
  by_cases hu : isUnlocked s = true
  · rw [if_pos hu]
    refine done_compareExchangeWeak (done_lockWrite hx b ?_ hu rfl) hagain
    rw [hp]
    intro hb
    rw [hb, Bool.or_true]
  rw [if_neg hu]
  split_ifs
  · apply done_compareExchange ?_ fun _ => hagain
    rintro rfl
    rw [isUnlocked_pack hx, beq_iff_eq] at hu
    rw [pack_or_writers hx]
    exact ⟨_, n, rfl, .setWriters hp hu⟩
  · apply done_move
    rw [hp]
    exact .writersSet b s

theorem writers_pack : writersWaiting = pack ⟨0, false, true⟩ := by decide

theorem readers_pack : readersWaiting = pack ⟨0, true, false⟩ := by decide

theorem both_pack : readersWaiting+writersWaiting = pack ⟨0, true, true⟩ := by decide

theorem done_wakeWriterOrReaders {s : ℕ} (hp : th.place = .wakeWriterOrReaders s)
    (hs : isUnlocked s = true) (hx : x.count ≤ mask) :
    ∀ r ∈ wakeWriterOrReaders ⟨x.pack, n⟩ th s, Done x n th r := by
  unfold wakeWriterOrReaders
  rw [hs, Bool.not_true, if_neg Bool.false_ne_true]
  split_ifs with hw
  · subst hw
    apply done_compareExchange
    · intro he
      rw [writers_pack] at he
      obtain rfl := pack_injective hx (Nat.zero_le _) he
      exact ⟨⟨0, false, false⟩, n, rfl, .takeWriters hp rfl⟩
    · intro he
      rw [hp]
      exact .nobodyReads writersWaiting (.inr he)
  · apply done_move
    rw [hp]
    have := Moves.nobodyReads (x := x) (n := n) s (.inl hw)
    rwa [if_neg hw] at this

theorem done_wakeBoth {s : ℕ} (hp : th.place = .wakeBoth s) (hx : x.count ≤ mask) :
    ∀ r ∈ wakeBoth ⟨x.pack, n⟩ th s, Done x n th r := by
  unfold wakeBoth
  split_ifs with hb
  · subst hb
    apply done_compareExchange
    · intro he
      rw [both_pack] at he
      obtain rfl := pack_injective hx (Nat.zero_le _) he
      exact ⟨⟨0, true, false⟩, n, rfl, .takeBoth hp rfl⟩
    · intro he
      rw [hp]
      exact .gotLocked _ he
  · apply done_move
    rw [hp]
    exact .notBoth s hb

theorem done_wakeOnlyReaders {s : ℕ} (hp : th.place = .wakeOnlyReaders s) (hx : x.count ≤ mask) :
    ∀ r ∈ wakeOnlyReaders ⟨x.pack, n⟩ th s, Done x n th r := by
  unfold wakeOnlyReaders
  split_ifs with hr
  · subst hr
    apply done_compareExchange
    · intro he
      rw [readers_pack] at he
      obtain rfl := pack_injective hx (Nat.zero_le _) he
      exact ⟨⟨0, false, false⟩, n, rfl, .takeReaders hp rfl⟩
    · intro he
      rw [hp]
      exact .nothingToDo _ (.inr he)
  · apply done_move
    rw [hp]
    exact .nothingToDo s (.inl hr)

theorem done_calls (hp : th.place = .outside) (hx : x.count ≤ mask)
    (hr : 0 < th.reads → 0 < x.count) (hw : th.writes = true → x.count = mask) :
    ∀ r ∈ calls ⟨x.pack, n⟩ th, Done x n th r := by
  unfold calls
  simp only [List.forall_mem_append]
  refine ⟨⟨⟨⟨⟨?_, ?_⟩, ?_⟩, ?_⟩, ?_⟩, ?_⟩
  · apply done_move
    rw [hp]
    split_ifs with h
    · exact .callRead h
    · exact .callReadContended
  · apply done_move
    rw [hp]
    exact .callTryRead
  · unfold write
    apply done_compareExchangeWeak
    · refine done_lockWrite hx false ?_ (by decide) (by decide)
      rw [hp]
      trivial
    · rw [hp]
      exact .callWrite
  · apply done_move
    rw [hp]
    exact .callTryWrite
  · split_ifs with h
    · exact done_readUnlock hp h (hr h) hx
    · exact fun _ hr => absurd hr List.not_mem_nil
  · split_ifs with h
    · exact List.forall_mem_append.mpr ⟨done_writeUnlock hp h (hw h), done_downgrade hp h (hw h)⟩
    · exact fun _ hr => absurd hr List.not_mem_nil

theorem done_steps (hx : x.count ≤ mask) (hl : Local n th.place) (hr : 0 < th.reads → 0 < x.count)
    (hw : th.writes = true → x.count = mask) (hu : th.place = .unsetReaders → x.readers = true) :
    ∀ r ∈ steps ⟨x.pack, n⟩ th, Done x n th r := by
  unfold steps
  cases hp : th.place with
  | outside => exact done_calls hp hx hr hw
  | read s =>
    rw [hp] at hl
    apply done_compareExchangeWeak
    · exact done_lockRead hx (by rw [hp]; trivial) (.inl hl)
    · rw [hp]
      exact .read s
  | spinRead b k =>
    change ∀ r ∈ spinRead _ th b k, _
    unfold spinRead
    dsimp only
    split_ifs <;> apply done_move <;> rw [hp]
    · exact .spunRead b k
    · exact .spinRead b k _
  | readContended b s => exact done_readContended hp hx
  | readWait e =>
    dsimp only
    split_ifs with he <;> apply done_move <;> rw [hp]
    · exact .readSleep e he
    · exact .readChanged e
  | readAsleep => exact fun _ hr => absurd hr List.not_mem_nil
  | tryRead s =>
    change ∀ r ∈ tryRead _ th s, _
    unfold tryRead
    split_ifs with h
    · apply done_compareExchangeWeak
      · exact done_lockRead hx (by rw [hp]; trivial) (.inl h)
      · rw [hp]
        exact .tryReadAgain s
    · apply done_move
      rw [hp]
      exact .tryReadFails s
  | spinWrite b k =>
    change ∀ r ∈ spinWrite _ th b k, _
    unfold spinWrite
    dsimp only
    split_ifs <;> apply done_move <;> rw [hp]
    · exact .spunWrite b k
    · exact .spinWrite b k _
  | writeContended b s => exact done_writeContended hp hx
  | examine =>
    apply done_move
    rw [hp]
    exact .examine
  | recheck m =>
    dsimp only
    rw [isUnlocked_pack hx, hasWritersWaiting_pack hx]
    split_ifs with h <;> apply done_move <;> rw [hp]
    · exact .recheck m
    · rw [Bool.or_eq_true, not_or, beq_iff_eq, Bool.not_eq_true', Bool.not_eq_false] at h
      exact .writeWait m h.1 h.2
  | writeWait m =>
    dsimp only
    split_ifs with he <;> apply done_move <;> rw [hp]
    · exact .writeSleep m he
    · exact .writeChanged m
  | writeAsleep => exact fun _ hr => absurd hr List.not_mem_nil
  | tryWrite s =>
    change ∀ r ∈ tryWrite _ th s, _
    unfold tryWrite
    split_ifs with h
    · apply done_compareExchangeWeak
      · intro he
        refine done_lockWrite hx false (by rw [hp]; trivial) h ?_ he
        subst he
        rw [isUnlocked_pack hx, beq_iff_eq] at h
        rw [pack_or_locked h, Bool.or_false]
        unfold pack
        rw [h]
        rfl
      · rw [hp]
        exact .tryWriteAgain s
    · apply done_move
      rw [hp]
      exact .tryWriteFails s
  | unsetReaders =>
    intro r h
    obtain rfl := List.mem_singleton.mp h
    refine ⟨{ x with readers := false }, n, ?_, .unsetReaders hp⟩
    dsimp only
    rw [fetchSub_readers (hu hp) hx]
  | wakeReaders =>
    intro r h
    obtain rfl := List.mem_singleton.mp h
    exact ⟨x, n, rfl, .wakeReaders hp⟩
  | wakeWriterOrReaders s =>
    rw [hp] at hl
    exact done_wakeWriterOrReaders hp hl hx
  | wakeBoth s => exact done_wakeBoth hp hx
  | wakeOnlyReaders s => exact done_wakeOnlyReaders hp hx
  | notify both =>
    intro r h
    obtain rfl := List.mem_singleton.mp h
    exact ⟨x, n+1, rfl, .notify hp⟩
  | wakeWriter both =>
    simp only [List.forall_mem_cons, List.not_mem_nil, false_imp_iff, implies_true, and_true]
    refine ⟨⟨x, n, rfl, .wakeWriter hp ?_⟩, ⟨x, n, rfl, .wakeWriter hp ?_⟩,
      ⟨x, n, rfl, .wakeWriter hp ?_⟩⟩ <;> simp
  | failed => exact fun _ hr => absurd hr List.not_mem_nil

end RustStd.RwLockFutex
